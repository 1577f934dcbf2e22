import Mathlib.Logic.Basic

namespace GhidraDecompiler.TotalRuns

variable {σ ε α β : Type} {m : StateT σ (Except ε) α} {s : σ} {a : α} {b : β} {Q R : σ → Prop}

/-- The program returns the value, and the state it leaves satisfies the condition. -/
def Yields (m : StateT σ (Except ε) α) (s : σ) (a : α) (Q : σ → Prop) : Prop := ∃ s', m s = .ok (a, s') ∧ Q s'

theorem Yields.pure (h : Q s) : Yields (Pure.pure a : StateT σ (Except ε) α) s a Q := ⟨s, rfl, h⟩

theorem Yields.bind {f : α → StateT σ (Except ε) β} (h : Yields m s a Q) (hf : ∀ s', Q s' → Yields (f a) s' b R) :
    Yields (m >>= f) s b R := by
  obtain ⟨s', hrun, hs'⟩ := h
  obtain ⟨s'', hrun', hs''⟩ := hf s' hs'
  refine ⟨s'', ?_, hs''⟩
  change (m s >>= fun p => f p.1 p.2) = _
  rw [hrun]
  exact hrun'

theorem Yields.get_bind {f : σ → StateT σ (Except ε) β} (h : Yields (f s) s b R) : Yields (get >>= f) s b R := h

theorem Yields.modify {f : σ → σ} (h : Q (f s)) : Yields (modify f : StateT σ (Except ε) PUnit) s ⟨⟩ Q := ⟨f s, rfl, h⟩

theorem Yields.mono (h : Yields m s a Q) (hQ : ∀ s', Q s' → R s') : Yields m s a R := by
  obtain ⟨s', hrun, hs'⟩ := h
  exact ⟨s', hrun, hQ s' hs'⟩

end GhidraDecompiler.TotalRuns
