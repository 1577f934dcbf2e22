import Mathlib.Logic.Basic

namespace GhidraDecompiler.SafeRuns

variable {σ ε α β : Type} {proper : ε → Prop} {up : σ → σ} {limit : ε} {m : StateT σ (Except ε) α} {s : σ} {a : α} {e : ε}
  {Q : α → σ → Prop} {R : β → σ → Prop}

/-- A run ends in a state that satisfies the condition, or with an error of the
proper kind. The run from the image of its first state is its image, unless
a limit cuts it off. -/
structure Safe (proper : ε → Prop) (up : σ → σ) (limit : ε) (m : StateT σ (Except ε) α) (s : σ) (Q : α → σ → Prop) : Prop where
  ends : match m s with
    | .ok (a, s') => Q a s'
    | .error e => proper e
  mirrors : m (up s) = Prod.map id up <$> m s ∨ m (up s) = .error limit

theorem Safe.of_ok {s' : σ} (hrun : m s = .ok (a, s')) (hup : m (up s) = .ok (a, up s')) (h : Q a s') :
    Safe proper up limit m s Q :=
  ⟨by rw [hrun]; exact h, Or.inl (by rw [hrun, hup]; rfl)⟩

theorem Safe.of_limit (hproper : proper limit) (hrun : m s = .error limit) (hup : m (up s) = .error limit) :
    Safe proper up limit m s Q :=
  ⟨by rw [hrun]; exact hproper, Or.inr hup⟩

theorem Safe.pure (h : Q a s) : Safe proper up limit (Pure.pure a : StateT σ (Except ε) α) s Q := .of_ok rfl rfl h

theorem Safe.throw (h : proper e) : Safe proper up limit (MonadExcept.throw e : StateT σ (Except ε) α) s Q :=
  ⟨h, Or.inl rfl⟩

theorem Safe.modify {f : σ → σ} {P : σ → Prop} (hup : f (up s) = up (f s)) (h : P (f s)) :
    Safe proper up limit (modify f : StateT σ (Except ε) PUnit) s fun _ => P :=
  .of_ok rfl (congrArg (fun s' => Except.ok (PUnit.unit, s')) hup) h

theorem Safe.bind {f : α → StateT σ (Except ε) β} (h : Safe proper up limit m s Q)
    (hf : ∀ a s', Q a s' → Safe proper up limit (f a) s' R) : Safe proper up limit (m >>= f) s R := by
  obtain ⟨hends, hmirrors⟩ := h
  have hbind (t : σ) : (m >>= f) t = m t >>= fun p => f p.1 p.2 := rfl
  cases hrun : m s with
  | error e =>
      rw [hrun] at hends hmirrors
      refine ⟨by rw [hbind, hrun]; exact hends, ?_⟩
      rw [hbind, hbind, hrun]
      obtain hup | hup := hmirrors
      · exact Or.inl (by rw [hup]; rfl)
      · exact Or.inr (by rw [hup]; rfl)
  | ok p =>
      obtain ⟨a, s'⟩ := p
      rw [hrun] at hends hmirrors
      obtain ⟨hends', hmirrors'⟩ := hf a s' hends
      refine ⟨by rw [hbind, hrun]; exact hends', ?_⟩
      rw [hbind, hbind, hrun]
      obtain hup | hup := hmirrors
      · rw [hup]
        exact hmirrors'
      · exact Or.inr (by rw [hup]; rfl)

theorem Safe.mono {Q' : α → σ → Prop} (h : Safe proper up limit m s Q) (hQ : ∀ a s', Q a s' → Q' a s') :
    Safe proper up limit m s Q' := by
  obtain ⟨hends, hmirrors⟩ := h
  refine ⟨?_, hmirrors⟩
  cases hrun : m s with
  | error e =>
      rw [hrun] at hends
      exact hends
  | ok p =>
      rw [hrun] at hends
      exact hQ _ _ hends

/-- Reading a part of the state that the image shares. -/
theorem Safe.get_bind {f : σ → StateT σ (Except ε) α} (h : Safe proper up limit (f s) s Q) (hup : f (up s) = f s) :
    Safe proper up limit (get >>= f) s Q := by
  have hget (t : σ) : (get >>= f) t = f t t := rfl
  refine ⟨by rw [hget]; exact h.ends, ?_⟩
  rw [hget, hget, hup]
  exact h.mirrors

end GhidraDecompiler.SafeRuns
