import GhidraDecompiler.PrettyPrint.ScanQueue

namespace GhidraDecompiler.PrettyPrint.EmitPrettyPrint

open Fallible CircularQueue

variable {σ : Type} {emit : Emit σ} {P : TokenSplit → Prop} {Q : Margin σ → Prop} {s s' : EmitPrettyPrint σ}
  {write : TokenSplit → TokenSplit} {a : Action} {rest : List Action} {out : σ}

/-- The number of tokens before the one that a reference denotes. -/
def position (s : EmitPrettyPrint σ) (reference : Nat) : Nat :=
  (reference + s.tokqueue.getMax - s.tokqueue.left) % s.tokqueue.getMax

/-- The references denote tokens of the queue, in the order of the queue, and exactly those without a size. -/
structure Consistent (s : EmitPrettyPrint σ) : Prop where
  queued : ∀ reference ∈ s.scanqueue.contents, reference < s.tokqueue.getMax ∧ s.position reference < s.tokqueue.contents.length
  increasing : (s.scanqueue.contents.map s.position).Pairwise (· < ·)
  open_iff : ∀ i t, s.tokqueue.contents[i]? = some t → (t.size < 0 ↔ i ∈ s.scanqueue.contents.map s.position)

/-- When the token queue is full, both queues grow with the same entries. -/
def ExpandKeeps (s : EmitPrettyPrint σ) : Prop :=
  s.expand.tokqueue.contents = s.tokqueue.items s.tokqueue.getMax ∧
    s.expand.scanqueue.contents.map s.expand.position = s.scanqueue.contents.map s.position ∧
    (s.scanqueue.contents = [] → s.expand.scanqueue.contents = [])

theorem position_slot {i : Nat} (hi : i < s.tokqueue.getMax) : s.position (s.tokqueue.slot i) = i := by
  have hleft : s.tokqueue.left < s.tokqueue.getMax := s.tokqueue.left_lt
  have hsum : (s.tokqueue.left + i) % s.tokqueue.getMax + s.tokqueue.getMax - s.tokqueue.left =
      (s.tokqueue.left + i) % s.tokqueue.getMax + (s.tokqueue.getMax - s.tokqueue.left) := by omega
  have hround : s.tokqueue.left + i + (s.tokqueue.getMax - s.tokqueue.left) = i + s.tokqueue.getMax := by omega
  rw [position, slot, hsum, Nat.mod_add_mod, hround, Nat.add_mod_right, Nat.mod_eq_of_lt hi]

theorem lt_of_mem_openAt {toks : List TokenSplit} {i : Nat} (h : i ∈ openAt 0 toks) : i < toks.length := by
  obtain ⟨j, t, hj, -, rfl⟩ := mem_openAt.mp h
  rw [Nat.zero_add]
  exact (List.getElem?_eq_some_iff.mp hj).1

theorem map_position {toks : List TokenSplit} (hlen : toks.length ≤ s.tokqueue.getMax) :
    ((openAt 0 toks).map s.tokqueue.slot).map s.position = openAt 0 toks := by
  rw [List.map_map]
  conv_rhs => rw [← List.map_id (openAt 0 toks)]
  refine List.map_congr_left fun i hi => ?_
  rw [Function.comp_apply, position_slot (Nat.lt_of_lt_of_le (lt_of_mem_openAt hi) hlen)]
  rfl

theorem Invariant.consistent (h : Invariant P Q s) : s.Consistent := by
  obtain ⟨toks, hscanned, -⟩ := h
  have htokens := hscanned.tokens
  have hroom := hscanned.room
  rw [List.append_nil] at htokens hroom
  have hrefs := hscanned.references.contents hscanned.length_refs_lt
  have htoks := htokens.contents hroom
  have hpositions := map_position (s := s) (Nat.le_of_lt hroom)
  refine ⟨?_, ?_, ?_⟩
  · rw [hrefs, htoks]
    intro reference hreference
    obtain ⟨i, hi, rfl⟩ := List.mem_map.mp hreference
    have hlt := lt_of_mem_openAt hi
    rw [position_slot (by omega)]
    exact ⟨slot_lt _ _, hlt⟩
  · rw [hrefs, hpositions]
    exact pairwise_openAt
  · rw [hrefs, hpositions, htoks]
    intro i t ht
    rw [mem_openAt]
    constructor
    · exact fun hneg => ⟨i, t, ht, hneg, (Nat.zero_add i).symm⟩
    · rintro ⟨j, u, hu, hneg, hij⟩
      rw [Nat.zero_add] at hij
      subst hij
      obtain rfl : t = u := Option.some.inj (ht.symm.trans hu)
      exact hneg

theorem Invariant.expandKeeps (h : Invariant P Q s) (hroom : s.HasRoom write) (hfull : (s.tokqueue.push write).empty = true) :
    ExpandKeeps { s with tokqueue := s.tokqueue.push write } := by
  obtain ⟨toks, hscanned, -⟩ := h
  have htokens := hscanned.tokens
  have hlt := hscanned.room
  rw [List.append_nil] at htokens hlt
  obtain ⟨x, hx⟩ := htokens.push hlt write
  have hlen : (toks ++ [write x]).length = (s.tokqueue.push write).getMax := (hx.empty_iff.mp hfull).resolve_left (by simp)
  have hne : openAt 0 toks ≠ [] := by
    intro hnone
    have hsome := hroom.grows hfull
    rw [hscanned.empty_iff.mpr hnone] at hsome
    exact absurd hsome (by decide)
  have hslot : (s.tokqueue.push write).slot = s.tokqueue.slot := funext fun _ => slot_push
  have hrefs : s.scanqueue.Holds ((openAt 0 toks).map (s.tokqueue.push write).slot) := by
    rw [hslot]
    exact hscanned.references
  have hmax : s.scanqueue.getMax = (s.tokqueue.push write).getMax := by
    rw [getMax_push]
    exact hscanned.sameMax
  obtain ⟨htokens', hrefs', hmax', hgrown⟩ :=
    expand_pushed (s := { s with tokqueue := s.tokqueue.push write }) hx hlen hrefs hmax hne
  have hold : s.scanqueue.contents = (openAt 0 toks).map (s.tokqueue.push write).slot :=
    hrefs.contents (by rw [hslot]; exact hscanned.length_refs_lt)
  have hbound := length_openAt_le (n := 0) (A := toks)
  rw [List.length_append, List.length_singleton] at hlen
  have hnew := hrefs'.contents (by
    rw [List.length_map, hmax', hgrown, ← hlen]
    omega)
  refine ⟨?_, ?_, ?_⟩
  · rw [htokens'.contents (by rw [hgrown, ← hlen, List.length_append, List.length_singleton]; omega), ← hlen]
    have hitems := hx.items
    rw [List.length_append, List.length_singleton] at hitems
    exact hitems.symm
  · rw [hnew, map_position (by rw [hgrown, ← hlen]; omega)]
    refine Eq.symm ?_
    have hshort : toks.length ≤ (s.tokqueue.push write).getMax := by omega
    have hpositions := map_position (s := { s with tokqueue := s.tokqueue.push write }) hshort
    rw [← hpositions]
    exact congrArg _ hold
  · intro hnone
    have hnil : (openAt 0 toks).map (s.tokqueue.push write).slot = [] := hold.symm.trans hnone
    exact absurd (List.map_eq_nil_iff.mp hnil) hne

/-- The steps of calls other than tokens need no room. -/
def ActionHasRoom (s : EmitPrettyPrint σ) : Action → Prop
  | .token write => s.HasRoom write
  | _ => True

theorem applyMaxLineSize_invariant {val : Nat} {h : 20 ≤ val} (hQ : Q (applyMaxLineSize emit val h s).toMargin) :
    Invariant P Q (applyMaxLineSize emit val h s) :=
  invariant_of_empty holds_clear holds_clear
    (by rw [applyMaxLineSize, clear, getMax_clear, getMax_clear, getMax_setMax, getMax_setMax])
    (Int.le_refl 1) (show (1 : Int) < 2 ^ 31 by decide) hQ

theorem perform_invariant (h : Invariant (fun _ => True) (fun _ => True) s) (ha : s.ActionHasRoom a)
    (hs : s.perform emit a = .ok s') : Invariant (fun _ => True) (fun _ => True) s' := by
  have hst : Stable emit (fun _ => True) (fun _ => True) := ⟨fun _ _ _ _ => trivial, fun _ _ _ _ _ _ _ => trivial⟩
  obtain ⟨toks, hscanned, -⟩ := h
  cases a with
  | token write => exact addToken_invariant hst ⟨toks, hscanned, trivial⟩ ha (fun _ _ => trivial) hs
  | needbreak value | setCommentFill fill | setIndentIncrement val =>
      cases hs
      exact ⟨toks, hscanned, trivial⟩
  | flush =>
      obtain ⟨s₁, hs₁, hs⟩ := bind_eq_ok.mp hs
      obtain ⟨low, -, hs⟩ := bind_eq_ok.mp hs
      obtain ⟨hflushed, -⟩ := flushTokens_scanned hst hscanned trivial hs₁
      cases hs
      exact ⟨[], hflushed, trivial⟩
  | clear =>
      cases hs
      exact invariant_of_empty holds_clear holds_clear hscanned.sameMax (Int.le_refl 1) (show (1 : Int) < 2 ^ 31 by decide) trivial
  | setMaxLineSize val =>
      rw [perform, setMaxLineSize] at hs
      split at hs
      · cases hs
        exact applyMaxLineSize_invariant trivial
      · cases hs
  | resetDefaults =>
      cases hs
      exact applyMaxLineSize_invariant trivial

theorem reached_invariant {allowed : Call → Prop} {todo : List Action}
    (h : Reached emit allowed ActionHasRoom (new emit out) s todo) : Invariant (fun _ => True) (fun _ => True) s := by
  induction h with
  | start => exact applyMaxLineSize_invariant trivial
  | call _ _ ih => exact ih
  | perform _ ha hs ih => exact perform_invariant ih ha hs

def plainPrinter : EmitPrettyPrint EmitNoMarkup := new EmitNoMarkup.emit ⟨0, []⟩

theorem hasRoom_plainPrinter : plainPrinter.HasRoom TokenSplit.beginDocument :=
  ⟨by decide +kernel, by decide +kernel, fun h => absurd h (by decide +kernel)⟩

theorem exists_of_isSome {α : Type} {x : Outcome α} (h : x.toOption.isSome = true) : ∃ a, x = .ok a := by
  cases x with
  | ok a => exact ⟨a, rfl⟩
  | error e => cases h

end GhidraDecompiler.PrettyPrint.EmitPrettyPrint
