import Mathlib.Logic.Function.Basic
import Mathlib.Data.Nat.Notation

namespace GhidraDecompiler.Tiling

/-- The pieces, each a start and a positive length, run from one end of an
interval to the other without a gap. -/
inductive Tiles : ℕ → ℕ → List (ℕ × ℕ) → Prop
  | nil (a : ℕ) : Tiles a a []
  | cons {a n stop : ℕ} {pieces : List (ℕ × ℕ)} (hn : 0 < n) (h : Tiles (a + n) stop pieces) :
      Tiles a stop ((a, n) :: pieces)

namespace Tiles

variable {a b n stop x : ℕ} {pieces : List (ℕ × ℕ)}

theorem snoc (h : Tiles a b pieces) (hn : 0 < n) : Tiles a (b + n) (pieces ++ [(b, n)]) := by
  induction h with
  | nil a => exact .cons hn (.nil _)
  | cons hm _ ih => exact .cons hm ih

theorem single (hn : 0 < n) : Tiles a (a + n) [(a, n)] := .cons hn (.nil _)

/-- Every point of the interval lies in a piece. -/
theorem exists_piece (h : Tiles a stop pieces) (ha : a ≤ x) (hx : x < stop) :
    ∃ p ∈ pieces, p.1 ≤ x ∧ x < p.1 + p.2 := by
  induction h with
  | nil a => omega
  | @cons a n stop pieces _ _ ih =>
      by_cases hxn : x < a + n
      · exact ⟨(a, n), List.mem_cons_self, ha, hxn⟩
      · obtain ⟨p, hp, hle, hlt⟩ := ih (by omega) hx
        exact ⟨p, List.mem_cons_of_mem _ hp, hle, hlt⟩

end Tiles

/-- A cell for every edge of an interval. A cell reaches from its edge to a
later edge, and a cell that starts inside of another one also ends there. -/
structure Cells (Edge : ℕ → Prop) (stop : ℕ) (cell : ℕ → ℕ) : Prop where
  pos : ∀ b, Edge b → b < stop → 0 < cell b
  edge : ∀ b, Edge b → b < stop → Edge (b + cell b)
  le_stop : ∀ b, Edge b → b < stop → b + cell b ≤ stop
  nested : ∀ b c, Edge b → b < stop → Edge c → b ≤ c → c < b + cell b → c + cell c ≤ b + cell b

namespace Cells

variable {Edge : ℕ → Prop} {stop p : ℕ} {cell : ℕ → ℕ}

/-- Cells that end at the next edge are nested, since no cell starts inside of
another one. -/
theorem of_next (hpos : ∀ b, Edge b → b < stop → 0 < cell b) (hedge : ∀ b, Edge b → b < stop → Edge (b + cell b))
    (hstop : ∀ b, Edge b → b < stop → b + cell b ≤ stop)
    (hnext : ∀ b c, Edge b → b < stop → Edge c → b < c → b + cell b ≤ c) : Cells Edge stop cell where
  pos := hpos
  edge := hedge
  le_stop := hstop
  nested b c hb hbs hc hle hlt := by
    rcases Nat.lt_or_eq_of_le hle with hbc | rfl
    · have := hnext b c hb hbs hc hbc
      omega
    · exact Nat.le_refl _

/-- No cell reaches from before the point to behind it. -/
def Cut (Edge : ℕ → Prop) (cell : ℕ → ℕ) (p : ℕ) : Prop := ∀ b, Edge b → b < p → b + cell b ≤ p

theorem Cut.zero : Cut Edge cell 0 := fun _ _ h => absurd h (Nat.not_lt_zero _)

/-- The end of a cell that starts at a cut is a cut. -/
theorem cut_next (h : Cells Edge stop cell) (hp : Edge p) (hps : p < stop) (hcut : Cut Edge cell p) :
    Cut Edge cell (p + cell p) := by
  intro b hb hlt
  by_cases hbp : b < p
  · have := hcut b hb hbp
    omega
  · exact h.nested p b hp hps hb (by omega) hlt

/-- The cell at a cut may be joined with the one that follows it. The cells
that start inside of the joined cell stay as they are. -/
theorem fuse (h : Cells Edge stop cell) (hp : Edge p) (hcut : Cut Edge cell p) (hps : p + cell p < stop) :
    Cells Edge stop (Function.update cell p (cell p + cell (p + cell p))) := by
  have hlt : p < stop := by omega
  have hnext := h.edge p hp hlt
  have hcell : 0 < cell p := h.pos p hp hlt
  refine ⟨fun b hb hbs => ?_, fun b hb hbs => ?_, fun b hb hbs => ?_, fun b c hb hbs hc hle hbc => ?_⟩
  · by_cases hbp : b = p
    · subst hbp
      rw [Function.update_self]
      omega
    · rw [Function.update_of_ne hbp]
      exact h.pos b hb hbs
  · by_cases hbp : b = p
    · subst hbp
      rw [Function.update_self, ← Nat.add_assoc]
      exact h.edge _ hnext hps
    · rw [Function.update_of_ne hbp]
      exact h.edge b hb hbs
  · by_cases hbp : b = p
    · subst hbp
      rw [Function.update_self, ← Nat.add_assoc]
      exact h.le_stop _ hnext hps
    · rw [Function.update_of_ne hbp]
      exact h.le_stop b hb hbs
  · by_cases hbp : b = p
    · subst hbp
      rw [Function.update_self] at hbc ⊢
      by_cases hcb : c = b
      · subst hcb
        exact Nat.le_of_eq (by rw [Function.update_self])
      · rw [Function.update_of_ne hcb]
        by_cases hin : c < b + cell b
        · have := h.nested b c hb hbs hc hle hin
          omega
        · have := h.nested (b + cell b) c hnext hps hc (by omega) (by omega)
          omega
    · rw [Function.update_of_ne hbp] at hbc ⊢
      -- a cell before the cut ends there, so it does not hold the joined one
      have hcp : c ≠ p := by
        rintro rfl
        have := hcut b hb (by omega)
        omega
      rw [Function.update_of_ne hcp]
      exact h.nested b c hb hbs hc hle hbc

theorem cut_fuse (hcut : Cut Edge cell p) (n : ℕ) : Cut Edge (Function.update cell p n) p := by
  intro b hb hbp
  rw [Function.update_of_ne (Nat.ne_of_lt hbp)]
  exact hcut b hb hbp

/-- When an interval that starts at `a` is tiled by cells, every cell lies
inside of a tile. -/
theorem exists_tile (h : Cells Edge stop cell) {a : ℕ} {pieces : List (ℕ × ℕ)} (ht : Tiles a (a + stop) pieces)
    (hcells : ∀ q ∈ pieces, ∃ b, Edge b ∧ b < stop ∧ q = (a + b, cell b)) (hp : Edge p) (hps : p < stop) :
    ∃ q ∈ pieces, q.1 ≤ a + p ∧ a + p + cell p ≤ q.1 + q.2 := by
  obtain ⟨q, hq, hle, hlt⟩ := ht.exists_piece (Nat.le_add_right a p) (Nat.add_lt_add_left hps a)
  obtain ⟨b, hb, hbs, rfl⟩ := hcells q hq
  dsimp only at hle hlt
  have hnested := h.nested b p hb hbs hp (by omega) (by omega)
  exact ⟨_, hq, hle, by dsimp only; omega⟩

end Cells

end GhidraDecompiler.Tiling
