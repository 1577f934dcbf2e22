import GhidraDecompiler.PrettyPrint.OpenTokens

namespace GhidraDecompiler.PrettyPrint

open Fallible CircularQueue

variable {σ : Type} {emit : Emit σ} {P : TokenSplit → Prop} {Q : Margin σ → Prop} {toks tail A B : List TokenSplit}
  {t : TokenSplit} {pre rest : List Nat} {i fuel : Nat} {sq sq' : CircularQueue Nat} {tq tq' : CircularQueue TokenSplit}
  {total total' n : Int} {f : TokenSplit → TokenSplit}

/-- The tokens of a queue, with the references to those that have no size yet. The tokens of the tail are not scanned. -/
structure Scanned (P : TokenSplit → Prop) (sq : CircularQueue Nat) (tq : CircularQueue TokenSplit) (total : Int)
    (toks tail : List TokenSplit) : Prop where
  tokens : tq.Holds (toks ++ tail)
  room : (toks ++ tail).length < tq.getMax
  references : sq.Holds ((openAt 0 toks).map tq.slot)
  sameMax : sq.getMax = tq.getMax
  valid : ∀ t ∈ toks, P t
  classes : ∀ t ∈ toks, t.size < 0 → t.delimtype ≠ .tokenstring
  bounds : ∀ t ∈ toks, t.size < 0 → -total ≤ t.size
  pos : 1 ≤ total
  small : total < 2 ^ 31

/-- What is known of all tokens does not depend on the sizes of those that are not strings, and
printing such a token keeps what is known of the output. -/
structure Stable (emit : Emit σ) (P : TokenSplit → Prop) (Q : Margin σ → Prop) : Prop where
  size : ∀ t n, t.delimtype ≠ .tokenstring → P t → P { t with size := n }
  print : ∀ t m m', P t → 0 ≤ t.size → Q m → m.printToken emit t = .ok m' → Q m'

namespace Scanned

theorem slot_modifyAt_eq {reference : Nat} : (tq.modifyAt reference f).slot = tq.slot := funext fun _ => slot_modifyAt

theorem length_refs_lt (h : Scanned P sq tq total toks tail) : ((openAt 0 toks).map tq.slot).length < sq.getMax := by
  have hroom := h.room
  have hle := length_openAt_le (n := 0) (A := toks)
  rw [List.length_append] at hroom
  rw [h.sameMax, List.length_map]
  omega

theorem empty_iff (h : Scanned P sq tq total toks tail) : sq.empty = true ↔ openAt 0 toks = [] := by
  have hlt := h.length_refs_lt
  rw [h.references.empty_iff, List.map_eq_nil_iff]
  exact ⟨fun hcases => hcases.resolve_right (by omega), Or.inl⟩

/-- A token gets its size and loses its reference. -/
theorem resize (hst : Stable emit P Q) (h : Scanned P sq tq total (A ++ t :: B) tail) (ht : t.size < 0) (hn : 0 ≤ n)
    (hf : f t = { t with size := n }) (hq : sq'.Holds ((openAt 0 A ++ openAt (A.length + 1) B).map tq.slot))
    (hmax : sq'.getMax = sq.getMax) :
    Scanned P sq' (tq.modifyAt (tq.slot A.length) f) total (A ++ { t with size := n } :: B) tail := by
  have hmem : t ∈ A ++ t :: B := List.mem_append_right _ List.mem_cons_self
  have hother {u : TokenSplit} (hu : u ∈ A ++ { t with size := n } :: B) : u = { t with size := n } ∨ u ∈ A ++ t :: B := by
    rw [List.mem_append, List.mem_cons] at hu ⊢
    tauto
  have hroom := h.room
  refine ⟨?_, ?_, ?_, ?_, ?_, ?_, ?_, h.pos, h.small⟩
  · have htokens := h.tokens
    rw [List.append_assoc, List.cons_append] at htokens ⊢
    rw [← hf]
    exact htokens.modifyAt
  · rw [getMax_modifyAt]
    simpa using hroom
  · rw [slot_modifyAt_eq, openAt_append, openAt_cons_closed hn, Nat.zero_add]
    exact hq
  · rw [hmax, h.sameMax, getMax_modifyAt]
  · intro u hu
    obtain rfl | hu := hother hu
    · exact hst.size t n (h.classes t hmem ht) (h.valid t hmem)
    · exact h.valid u hu
  · intro u hu hneg
    obtain rfl | hu := hother hu
    · exact absurd hneg (by dsimp only; omega)
    · exact h.classes u hu hneg
  · intro u hu hneg
    obtain rfl | hu := hother hu
    · exact absurd hneg (by dsimp only; omega)
    · exact h.bounds u hu hneg

/-- The token that was not scanned gets its size. -/
theorem settle (h : Scanned P sq tq total toks [t]) (hf : f t = { t with size := n }) (hP : P { t with size := n })
    (hclass : n < 0 → t.delimtype ≠ .tokenstring) (hbound : n < 0 → -total' ≤ n)
    (hq : sq'.Holds ((openAt 0 toks ++ if n < 0 then [toks.length] else []).map tq.slot)) (hmax : sq'.getMax = sq.getMax)
    (hle : total ≤ total') (hlt : total' < 2 ^ 31) :
    Scanned P sq' (tq.modifyAt tq.topref f) total' (toks ++ [{ t with size := n }]) [] := by
  have hlast {u : TokenSplit} (hu : u ∈ toks ++ [{ t with size := n }]) : u ∈ toks ∨ u = { t with size := n } := by
    rwa [List.mem_append, List.mem_singleton] at hu
  have htop : tq.topref = tq.slot toks.length := h.tokens.right
  have hpos := h.pos
  have hroom := h.room
  rw [htop]
  refine ⟨?_, ?_, ?_, ?_, ?_, ?_, ?_, by omega, hlt⟩
  · rw [List.append_nil, ← hf]
    exact h.tokens.modifyAt
  · rw [getMax_modifyAt]
    simpa using hroom
  · rw [slot_modifyAt_eq, openAt_append, openAt, openAt, Nat.zero_add]
    exact hq
  · rw [hmax, h.sameMax, getMax_modifyAt]
  · intro u hu
    obtain hu | rfl := hlast hu
    · exact h.valid u hu
    · exact hP
  · intro u hu hneg
    obtain hu | rfl := hlast hu
    · exact h.classes u hu hneg
    · exact hclass hneg
  · intro u hu hneg
    obtain hu | rfl := hlast hu
    · have := h.bounds u hu hneg
      omega
    · exact hbound hneg

/-- The token that was not scanned has its size already. -/
theorem keep (h : Scanned P sq tq total toks [t]) (ht : 0 ≤ t.size) (hP : P t) (hle : total ≤ total') (hlt : total' < 2 ^ 31) :
    Scanned P sq tq total' (toks ++ [t]) [] := by
  have hlast {u : TokenSplit} (hu : u ∈ toks ++ [t]) : u ∈ toks ∨ u = t := by
    rwa [List.mem_append, List.mem_singleton] at hu
  have hpos := h.pos
  refine ⟨by rw [List.append_nil]; exact h.tokens, by rw [List.append_nil]; exact h.room, ?_, h.sameMax, ?_, ?_, ?_, by omega, hlt⟩
  · rw [openAt_append, openAt_cons_closed ht, openAt, List.append_nil]
    exact h.references
  · intro u hu
    obtain hu | rfl := hlast hu
    · exact h.valid u hu
    · exact hP
  · intro u hu hneg
    obtain hu | rfl := hlast hu
    · exact h.classes u hu hneg
    · omega
  · intro u hu hneg
    obtain hu | rfl := hlast hu
    · have := h.bounds u hu hneg
      omega
    · omega

/-- The token that was not scanned gets a reference. -/
theorem refer (h : Scanned P sq tq total toks [t]) (hP : P { t with size := -total }) (hclass : t.delimtype ≠ .tokenstring)
    (hle : total ≤ total') (hlt : total' < 2 ^ 31) :
    Scanned P (sq.push fun _ => tq.topref) (tq.modifyAt tq.topref fun entry => { entry with size := asI32 (-total) }) total'
      (toks ++ [{ t with size := -total }]) [] := by
  have hpos := h.pos
  have hsmall := h.small
  have hneg : asI32 (-total) = -total := asI32_of_bounds (by omega) (by omega)
  have htop : tq.topref = tq.slot toks.length := h.tokens.right
  refine h.settle (by rw [hneg]) hP (fun _ => hclass) (fun _ => by omega) ?_ getMax_push hle hlt
  obtain ⟨x, hx⟩ := h.references.push h.length_refs_lt fun _ => tq.topref
  rw [if_pos (by omega), List.map_append, List.map_singleton, ← htop]
  exact hx

/-- Without references, the totals can start again. -/
theorem reset (h : Scanned P sq tq total toks tail) (hempty : openAt 0 toks = []) : Scanned P sq tq 1 toks tail :=
  { h with
    bounds := fun t ht hneg => by
      obtain ⟨j, hj, hget⟩ := List.getElem_of_mem ht
      have hmem : 0 + j ∈ openAt 0 toks := mem_openAt.mpr ⟨j, t, by rw [List.getElem?_eq_getElem hj, hget], hneg, rfl⟩
      rw [hempty] at hmem
      exact absurd hmem List.not_mem_nil
    pos := Int.le_refl 1
    small := by decide }

/-- A token with a size leaves the front of the queue. -/
theorem drop (h : Scanned P sq tq total (t :: toks) []) (ht : 0 ≤ t.size) : Scanned P sq tq.popbottom total toks [] := by
  have hroom := h.room
  rw [List.append_nil, List.length_cons] at hroom
  refine ⟨?_, ?_, ?_, h.sameMax, fun u hu => h.valid u (List.mem_cons_of_mem _ hu),
    fun u hu => h.classes u (List.mem_cons_of_mem _ hu), fun u hu => h.bounds u (List.mem_cons_of_mem _ hu), h.pos, h.small⟩
  · rw [List.append_nil]
    exact CircularQueue.Holds.popbottom (by simpa using h.tokens)
  · rw [List.append_nil, getMax_popbottom]
    omega
  · have href := h.references
    rw [openAt_cons_closed ht, openAt_succ, List.map_map] at href
    have hslot : tq.slot ∘ (· + 1) = tq.popbottom.slot := funext fun _ => slot_popbottom.symm
    rwa [hslot] at href

end Scanned

namespace EmitPrettyPrint

variable {s s' : EmitPrettyPrint σ} {write : TokenSplit → TokenSplit}

/-- The last reference is to the last token without a size. -/
theorem closeTop_scanned (hst : Stable emit P Q) (h : Scanned P s.scanqueue s.tokqueue s.rightotal toks tail)
    (hne : openAt 0 toks ≠ []) : ∃ toks', toks'.length = toks.length ∧
      Scanned P s.closeTop.scanqueue s.closeTop.tokqueue s.closeTop.rightotal toks' tail := by
  obtain ⟨pre, i, hpre⟩ : ∃ pre i, openAt 0 toks = pre ++ [i] :=
    ⟨_, _, (List.dropLast_append_getLast hne).symm⟩
  obtain ⟨A, t, B, rfl, ht, hB, hi, hA⟩ := openAt_last hpre
  rw [Nat.zero_add] at hi
  subst hi hA
  have hrefs := h.references
  rw [hpre, List.map_append, List.map_singleton] at hrefs
  have hmem : t ∈ A ++ t :: B := List.mem_append_right _ List.mem_cons_self
  have hbound := h.bounds t hmem ht
  have hsmall := h.small
  have hsize : asI32 (t.size + s.rightotal) = t.size + s.rightotal := asI32_of_bounds (by omega) (by omega)
  refine ⟨A ++ { t with size := t.size + s.rightotal } :: B, by simp, ?_⟩
  have hpop : s.scanqueue.pop.Holds ((openAt 0 A ++ openAt (A.length + 1) B).map s.tokqueue.slot) := by
    rw [openAt_closed hB, List.append_nil]
    exact hrefs.pop
  have hscanned := h.resize (f := fun entry => { entry with size := asI32 (entry.size + s.rightotal) })
    hst ht (by omega : 0 ≤ t.size + s.rightotal) (by rw [hsize]) hpop rfl
  rw [← hrefs.top] at hscanned
  exact hscanned

/-- The first reference is to the first token without a size, which becomes too wide for a line. -/
theorem openBottom_scanned (hst : Stable emit P Q) (h : Scanned P s.scanqueue s.tokqueue s.rightotal toks tail)
    (hne : openAt 0 toks ≠ []) : ∃ toks', toks'.length = toks.length ∧
      Scanned P s.openBottom.scanqueue s.openBottom.tokqueue s.openBottom.rightotal toks' tail := by
  obtain ⟨i, rest, hrest⟩ := List.exists_cons_of_ne_nil hne
  obtain ⟨A, t, B, rfl, ht, hA, hi, hB⟩ := openAt_first hrest
  rw [Nat.zero_add] at hi hB
  subst hi hB
  have hrefs := h.references
  rw [hrest, List.map_cons] at hrefs
  refine ⟨A ++ { t with size := 999999 } :: B, by simp, ?_⟩
  have hpop : s.scanqueue.popbottom.Holds ((openAt 0 A ++ openAt (A.length + 1) B).map s.tokqueue.slot) := by
    rw [openAt_closed hA, List.nil_append]
    exact hrefs.popbottom
  have hscanned := h.resize (f := fun entry => { entry with size := 999999 }) hst ht (by decide : (0 : Int) ≤ 999999) rfl hpop rfl
  rw [← hrefs.bottom] at hscanned
  exact hscanned

theorem advance_scanned (hst : Stable emit P Q) (h : Scanned P s.scanqueue s.tokqueue s.rightotal toks []) (hne : toks ≠ [])
    (hQ : Q s.toMargin) (hs : advance emit fuel s = .ok s') :
    ∃ toks', Scanned P s'.scanqueue s'.tokqueue s'.rightotal toks' [] ∧ Q s'.toMargin := by
  induction fuel generalizing s toks with
  | zero => cases hs
  | succ fuel ih =>
      obtain ⟨t, rest, rfl⟩ := List.exists_cons_of_ne_nil hne
      have hbottom : s.tokqueue.bottom = t := CircularQueue.Holds.bottom (by simpa using h.tokens)
      rw [advance, hbottom] at hs
      dsimp only at hs
      split at hs
      · rename_i ht
        obtain ⟨m, hm, hs⟩ := bind_eq_ok.mp hs
        have hQ' := hst.print t s.toMargin m (h.valid t List.mem_cons_self) ht hQ hm
        have hdrop := h.drop ht
        split at hs
        · cases hs
          exact ⟨rest, hdrop, hQ'⟩
        · rename_i hfull
          refine ih hdrop ?_ hQ' hs
          rintro rfl
          exact hfull (hdrop.tokens.empty_iff.mpr (Or.inl rfl))
      · cases hs
        exact ⟨_, h, hQ⟩

theorem popWide_scanned (hst : Stable emit P Q) (h : Scanned P s.scanqueue s.tokqueue s.rightotal toks [])
    (hne : openAt 0 toks ≠ []) (hQ : Q s.toMargin) (hs : popWide emit fuel s = .ok s') :
    ∃ toks', Scanned P s'.scanqueue s'.tokqueue s'.rightotal toks' [] ∧ Q s'.toMargin := by
  induction fuel generalizing s toks with
  | zero => cases hs
  | succ fuel ih =>
      rw [popWide] at hs
      split at hs
      · obtain ⟨toks₁, hlen, hopen⟩ := openBottom_scanned hst h hne
        obtain ⟨s₁, hs₁, hs⟩ := bind_eq_ok.mp hs
        have hne₁ : toks₁ ≠ [] := by
          rintro rfl
          exact hne (by rw [List.length_eq_zero_iff.mp hlen.symm]; rfl)
        obtain ⟨toks₂, h₂, hQ₂⟩ := advance_scanned (s := s.openBottom) hst hopen hne₁ hQ hs₁
        split at hs
        · cases hs
          exact ⟨toks₂, h₂, hQ₂⟩
        · rename_i hsome
          exact ih h₂ (fun hnone => hsome (h₂.empty_iff.mpr hnone)) hQ₂ hs
      · cases hs
        exact ⟨toks, h, hQ⟩

/-- A full token queue grows with the scan queue, and every reference denotes the same token. -/
theorem expand_pushed (htoks : s.tokqueue.Holds (toks ++ [t])) (hfull : (toks ++ [t]).length = s.tokqueue.getMax)
    (hrefs : s.scanqueue.Holds ((openAt 0 toks).map s.tokqueue.slot)) (hmax : s.scanqueue.getMax = s.tokqueue.getMax)
    (hne : openAt 0 toks ≠ []) :
    s.expand.tokqueue.Holds (toks ++ [t]) ∧ s.expand.scanqueue.Holds ((openAt 0 toks).map s.expand.tokqueue.slot) ∧
      s.expand.scanqueue.getMax = s.expand.tokqueue.getMax ∧ s.expand.tokqueue.getMax = s.tokqueue.getMax + 200 := by
  have hmaxes : s.expand.tokqueue.getMax = s.tokqueue.getMax + 200 := getMax_expand
  have hleft : s.tokqueue.left < s.tokqueue.getMax := s.tokqueue.left_lt
  have hpos := s.tokqueue.getMax_pos
  refine ⟨htoks.expand (by simp), ?_, ?_, hmaxes⟩
  · have hall := hrefs.modifyAll (f := fun reference => (reference + s.tokqueue.getMax - s.tokqueue.left) % s.tokqueue.getMax)
    have hnonempty : ((openAt 0 toks).map s.tokqueue.slot).map (fun reference =>
        (reference + s.tokqueue.getMax - s.tokqueue.left) % s.tokqueue.getMax) ≠ [] := by simp [hne]
    have hgrown : (CircularQueue.expand _ 200).Holds _ := hall.expand hnonempty
    have hsame : ((openAt 0 toks).map s.tokqueue.slot).map
        (fun reference => (reference + s.tokqueue.getMax - s.tokqueue.left) % s.tokqueue.getMax) =
          (openAt 0 toks).map s.expand.tokqueue.slot := by
      rw [List.map_map]
      refine List.map_congr_left fun i hi => ?_
      obtain ⟨j, u, hj, -, rfl⟩ := mem_openAt.mp hi
      have hlt := (List.getElem?_eq_some_iff.mp hj).1
      rw [List.length_append, List.length_singleton] at hfull
      have hnew : s.expand.tokqueue.slot (0 + j) = j := by
        have hzero : s.expand.tokqueue.left = 0 := rfl
        rw [slot, hmaxes, hzero, Nat.zero_add, Nat.zero_add, Nat.mod_eq_of_lt (by omega)]
      rw [hnew, Function.comp_apply, slot, Nat.zero_add]
      have hsum : (s.tokqueue.left + j) % s.tokqueue.getMax + s.tokqueue.getMax - s.tokqueue.left =
          (s.tokqueue.left + j) % s.tokqueue.getMax + (s.tokqueue.getMax - s.tokqueue.left) := by omega
      have hround : s.tokqueue.left + j + (s.tokqueue.getMax - s.tokqueue.left) = j + s.tokqueue.getMax := by omega
      rw [hsum, Nat.mod_add_mod, hround, Nat.add_mod_right, Nat.mod_eq_of_lt (by omega)]
    rw [← hsame]
    rw [hmax] at hgrown
    exact hgrown
  · have hreferences : ((List.range s.tokqueue.getMax).foldl (fun queue index => queue.modifyAt index fun reference =>
        (reference + s.tokqueue.getMax - s.tokqueue.left) % s.tokqueue.getMax) s.scanqueue).getMax = s.scanqueue.getMax :=
      (modifyAt_range s.scanqueue _ _).2.2.1
    rw [hmaxes, ← hmax, ← hreferences]
    exact getMax_expand

section Top

variable (hst : Stable emit P Q) (h : Scanned P s.scanqueue s.tokqueue s.rightotal toks [t])

include h in
theorem restart_scanned : Scanned P (if s.scanqueue.empty then s.resetTotals else s).scanqueue
    (if s.scanqueue.empty then s.resetTotals else s).tokqueue (if s.scanqueue.empty then s.resetTotals else s).rightotal toks [t] := by
  split
  · rename_i hempty
    exact h.reset (h.empty_iff.mp hempty)
  · exact h

include hst h in
theorem begin_scanned (hclass : t.delimtype = .begin_ ∨ t.delimtype = .beginComment) (hP : P t) (hQ : Q s.toMargin)
    (hs : scanTop emit s = .ok s') : ∃ toks', Scanned P s'.scanqueue s'.tokqueue s'.rightotal toks' [] ∧ Q s'.toMargin := by
  have hrefAt : s.tokqueue.refAt s.tokqueue.topref = t := by
    rw [topref, h.tokens.right]
    exact h.tokens.refAt
  have hstart := restart_scanned h
  have htop : (if s.scanqueue.empty then s.resetTotals else s).tokqueue.topref = s.tokqueue.topref := by split <;> rfl
  have hmargin : (if s.scanqueue.empty then s.resetTotals else s).toMargin = s.toMargin := by split <;> rfl
  have hstring : t.delimtype ≠ .tokenstring := by
    obtain hc | hc := hclass <;> simp [hc]
  have hrefer := hstart.refer (hst.size t _ hstring hP) hstring (Int.le_refl _) hstart.small
  rw [scanTop, hrefAt] at hs
  obtain hc | hc := hclass
  · rw [hc] at hs
    cases hs
    rw [htop] at hrefer
    exact ⟨_, hrefer, hmargin ▸ hQ⟩
  · rw [hc] at hs
    cases hs
    rw [htop] at hrefer
    exact ⟨_, hrefer, hmargin ▸ hQ⟩

include hst h in
theorem end_scanned (hclass : t.delimtype = .end_ ∨ t.delimtype = .endComment) (hP : P t) (hQ : Q s.toMargin)
    (hs : scanTop emit s = .ok s') : ∃ toks', Scanned P s'.scanqueue s'.tokqueue s'.rightotal toks' [] ∧ Q s'.toMargin := by
  have hrefAt : s.tokqueue.refAt s.tokqueue.topref = t := by
    rw [topref, h.tokens.right]
    exact h.tokens.refAt
  have hstring : t.delimtype ≠ .tokenstring := by
    obtain hc | hc := hclass <;> simp [hc]
  have hcases : scanTop emit s =
      if (s.setSize s.tokqueue.topref 0).scanqueue.empty then pure (s.setSize s.tokqueue.topref 0)
      else
        let s₁ := (s.setSize s.tokqueue.topref 0).closeTop
        let s₂ := if (s₁.tokqueue.refAt (s.setSize s.tokqueue.topref 0).scanqueue.top).delimtype = .tokenbreak &&
          !s₁.scanqueue.empty then s₁.closeTop else s₁
        if s₂.scanqueue.empty then advanceleft emit s₂ else pure s₂ := by
    rw [scanTop, hrefAt]
    obtain hc | hc := hclass
    · rw [hc]
    · rw [hc]
  have hend : Scanned P (s.setSize s.tokqueue.topref 0).scanqueue (s.setSize s.tokqueue.topref 0).tokqueue
      (s.setSize s.tokqueue.topref 0).rightotal (toks ++ [{ t with size := 0 }]) [] :=
    h.settle (f := fun entry => { entry with size := 0 }) rfl (hst.size t 0 hstring hP) (by omega) (by omega)
      (by rw [if_neg (by omega), List.append_nil]; exact h.references) rfl (Int.le_refl _) h.small
  have hmargin : (s.setSize s.tokqueue.topref 0).toMargin = s.toMargin := rfl
  rw [hcases] at hs
  generalize s.setSize s.tokqueue.topref 0 = s₀ at hs hend hmargin
  rw [← hmargin] at hQ
  split at hs
  · cases hs
    exact ⟨_, hend, hQ⟩
  · rename_i hsome
    obtain ⟨toks₁, hlen₁, h₁⟩ := closeTop_scanned hst hend fun hnone => hsome (hend.empty_iff.mpr hnone)
    dsimp only at hs
    obtain ⟨s₂, hs₂⟩ : ∃ s₂, s₂ = if (s₀.closeTop.tokqueue.refAt s₀.scanqueue.top).delimtype = .tokenbreak &&
      !s₀.closeTop.scanqueue.empty then s₀.closeTop.closeTop else s₀.closeTop := ⟨_, rfl⟩
    rw [← hs₂] at hs
    obtain ⟨toks₂, hlen₂, h₂, hQ₂⟩ : ∃ toks₂, toks₂.length = toks₁.length ∧
        Scanned P s₂.scanqueue s₂.tokqueue s₂.rightotal toks₂ [] ∧ Q s₂.toMargin := by
      rw [hs₂]
      split
      · rename_i hagain
        rw [Bool.and_eq_true, Bool.not_eq_true'] at hagain
        have hne : openAt 0 toks₁ ≠ [] := fun hnone => absurd (h₁.empty_iff.mpr hnone) (by rw [hagain.2]; exact Bool.false_ne_true)
        obtain ⟨toks₂, hlen₂, h₂⟩ := closeTop_scanned hst h₁ hne
        exact ⟨toks₂, hlen₂, h₂, hQ⟩
      · exact ⟨toks₁, rfl, h₁, hQ⟩
    have hne : toks₂ ≠ [] := by
      rintro rfl
      rw [hlen₁, List.length_append, List.length_singleton] at hlen₂
      exact absurd hlen₂ (by simp)
    split at hs
    · exact advance_scanned hst h₂ hne hQ₂ hs
    · cases hs
      exact ⟨toks₂, h₂, hQ₂⟩

include hst h in
theorem break_scanned (hclass : t.delimtype = .tokenbreak) (hP : P t) (hQ : Q s.toMargin) (hwidth : 0 ≤ t.numspaces)
    (htotal : (if s.scanqueue.empty then 1 else s.rightotal) + t.numspaces < 2 ^ 31) (hs : scanTop emit s = .ok s') :
    ∃ toks', Scanned P s'.scanqueue s'.tokqueue s'.rightotal toks' [] ∧ Q s'.toMargin := by
  have hrefAt : s.tokqueue.refAt s.tokqueue.topref = t := by
    rw [topref, h.tokens.right]
    exact h.tokens.refAt
  have hstring : t.delimtype ≠ .tokenstring := by simp [hclass]
  obtain ⟨s₁, hs₁⟩ : ∃ s₁, s₁ = if s.scanqueue.empty then s.resetTotals
    else if (s.tokqueue.refAt s.scanqueue.top).delimtype = .tokenbreak then s.closeTop else s := ⟨_, rfl⟩
  have hfirst : ∃ toks₁, Scanned P s₁.scanqueue s₁.tokqueue s₁.rightotal toks₁ [t] ∧ s₁.tokqueue.topref = s.tokqueue.topref ∧
      s₁.toMargin = s.toMargin ∧ s₁.rightotal + t.numspaces < 2 ^ 31 := by
    rw [hs₁]
    split
    · rename_i hempty
      rw [if_pos hempty] at htotal
      exact ⟨toks, h.reset (h.empty_iff.mp hempty), rfl, rfl, htotal⟩
    · rename_i hsome
      rw [if_neg hsome] at htotal
      split
      · obtain ⟨toks₁, -, h₁⟩ := closeTop_scanned hst h fun hnone => hsome (h.empty_iff.mpr hnone)
        exact ⟨toks₁, h₁, rfl, rfl, htotal⟩
      · exact ⟨toks, h, rfl, rfl, htotal⟩
  obtain ⟨toks₁, h₁, htop, hmargin, htotal₁⟩ := hfirst
  have hpos := h₁.pos
  have hsmall := h₁.small
  have hadd : asI32 (s₁.rightotal + t.numspaces) = s₁.rightotal + t.numspaces := asI32_of_bounds (by omega) (by omega)
  have hle : s₁.rightotal ≤ s₁.rightotal + t.numspaces := by omega
  have hrefer := h₁.refer (hst.size t _ hstring hP) hstring hle htotal₁
  have hspaces : ((s₁.setSize s.tokqueue.topref (asI32 (-s₁.rightotal))).tokqueue.refAt s.tokqueue.topref).numspaces = t.numspaces := by
    have htokens := hrefer.tokens
    rw [List.append_nil] at htokens
    have hget := htokens.refAt
    rw [← htokens.right] at hget
    have hnum := congrArg TokenSplit.numspaces hget
    rw [← htop]
    exact hnum
  rw [scanTop, hrefAt, hclass] at hs
  dsimp only at hs
  rw [← hs₁, hspaces] at hs
  cases hs
  rw [← hadd, htop] at hrefer
  rw [← hmargin] at hQ
  exact ⟨_, hrefer, hQ⟩

include hst h in
theorem string_scanned (hclass : t.delimtype = .tokenstring) (hP : P t) (hQ : Q s.toMargin) (hwidth : 0 ≤ t.size)
    (htotal : (if s.scanqueue.empty then 1 else s.rightotal) + t.size < 2 ^ 31) (hs : scanTop emit s = .ok s') :
    ∃ toks', Scanned P s'.scanqueue s'.tokqueue s'.rightotal toks' [] ∧ Q s'.toMargin := by
  have hrefAt : s.tokqueue.refAt s.tokqueue.topref = t := by
    rw [topref, h.tokens.right]
    exact h.tokens.refAt
  have hpos := h.pos
  rw [scanTop, hrefAt, hclass] at hs
  dsimp only at hs
  split at hs
  · cases hs
    exact ⟨_, h.keep hwidth hP (Int.le_refl _) h.small, hQ⟩
  · rename_i hsome
    rw [if_neg hsome] at htotal
    have hadd : asI32 (s.rightotal + t.size) = s.rightotal + t.size := asI32_of_bounds (by omega) (by omega)
    have hle : s.rightotal ≤ s.rightotal + t.size := by omega
    have hkeep := h.keep hwidth hP hle htotal
    rw [hadd] at hs
    refine popWide_scanned (s := { s with rightotal := s.rightotal + t.size }) hst hkeep ?_ hQ hs
    rw [openAt_append, openAt_cons_closed hwidth, openAt, List.append_nil]
    exact fun hnone => hsome (h.empty_iff.mpr hnone)

include hst h in
theorem plain_scanned (hclass : t.delimtype = .beginIndent ∨ t.delimtype = .endIndent ∨ t.delimtype = .ignore) (hP : P t)
    (hQ : Q s.toMargin) (hs : scanTop emit s = .ok s') :
    ∃ toks', Scanned P s'.scanqueue s'.tokqueue s'.rightotal toks' [] ∧ Q s'.toMargin := by
  have hrefAt : s.tokqueue.refAt s.tokqueue.topref = t := by
    rw [topref, h.tokens.right]
    exact h.tokens.refAt
  have hstring : t.delimtype ≠ .tokenstring := by
    obtain hc | hc | hc := hclass <;> simp [hc]
  have hsettle := h.settle (f := fun entry => { entry with size := 0 }) rfl (hst.size t 0 hstring hP) (by omega) (by omega)
    (by rw [if_neg (by omega), List.append_nil]; exact h.references) rfl (Int.le_refl _) h.small
  rw [scanTop, hrefAt] at hs
  obtain hc | hc | hc := hclass
  · rw [hc] at hs
    cases hs
    exact ⟨_, hsettle, hQ⟩
  · rw [hc] at hs
    cases hs
    exact ⟨_, hsettle, hQ⟩
  · rw [hc] at hs
    cases hs
    exact ⟨_, hsettle, hQ⟩

end Top

/-- What holds between two steps: the scan queue has the references to the tokens without a size. -/
def Invariant (P : TokenSplit → Prop) (Q : Margin σ → Prop) (s : EmitPrettyPrint σ) : Prop :=
  ∃ toks, Scanned P s.scanqueue s.tokqueue s.rightotal toks [] ∧ Q s.toMargin

/-- The room that a step needs: the totals stay in the range of their type, no number of blanks is
negative, and the queues do not grow while the scan queue is empty. -/
structure HasRoom (s : EmitPrettyPrint σ) (write : TokenSplit → TokenSplit) : Prop where
  width : 0 ≤ (s.tokqueue.push write).top.width
  total : (if s.scanqueue.empty then 1 else s.rightotal) + (s.tokqueue.push write).top.width < 2 ^ 31
  grows : (s.tokqueue.push write).empty = true → s.scanqueue.empty = false

theorem addToken_invariant (hst : Stable emit P Q) (h : Invariant P Q s) (hroom : s.HasRoom write)
    (hP : ∀ t, 0 ≤ (write t).width → P (write t)) (hs : addToken emit write s = .ok s') : Invariant P Q s' := by
  obtain ⟨toks, hscanned, hQ⟩ := h
  have htokens := hscanned.tokens
  have hlt := hscanned.room
  rw [List.append_nil] at htokens hlt
  obtain ⟨x, hx⟩ := htokens.push hlt write
  have htop := hx.top
  have hwidth := hroom.width
  have htotal := hroom.total
  rw [htop] at hwidth htotal
  have hPx := hP x hwidth
  have hrefs : s.scanqueue.Holds ((openAt 0 toks).map (s.tokqueue.push write).slot) := by
    have hslot : (s.tokqueue.push write).slot = s.tokqueue.slot := funext fun _ => slot_push
    rw [hslot]
    exact hscanned.references
  have hmax : s.scanqueue.getMax = (s.tokqueue.push write).getMax := by
    rw [getMax_push]
    exact hscanned.sameMax
  obtain ⟨s₁, hs₁⟩ : ∃ s₁ : EmitPrettyPrint σ, s₁ = if (s.tokqueue.push write).empty then
    ({ s with tokqueue := s.tokqueue.push write } : EmitPrettyPrint σ).expand else { s with tokqueue := s.tokqueue.push write } :=
    ⟨_, rfl⟩
  have hpushed : Scanned P s₁.scanqueue s₁.tokqueue s₁.rightotal toks [write x] ∧ s₁.toMargin = s.toMargin ∧
      s₁.rightotal = s.rightotal := by
    rw [hs₁]
    split
    · rename_i hfull
      have hlen : (toks ++ [write x]).length = (s.tokqueue.push write).getMax := (hx.empty_iff.mp hfull).resolve_left (by simp)
      have hne : openAt 0 toks ≠ [] := by
        intro hnone
        have hsome := hroom.grows hfull
        rw [hscanned.empty_iff.mpr hnone] at hsome
        exact absurd hsome (by decide)
      obtain ⟨htokens', hrefs', hmax', hgrown⟩ :=
        expand_pushed (s := { s with tokqueue := s.tokqueue.push write }) hx hlen hrefs hmax hne
      have hplaces : (toks ++ [write x]).length <
          (({ s with tokqueue := s.tokqueue.push write } : EmitPrettyPrint σ).expand).tokqueue.getMax := by
        rw [hgrown, hlen]
        exact Nat.lt_add_of_pos_right (by decide)
      exact ⟨⟨htokens', hplaces, hrefs', hmax', hscanned.valid, hscanned.classes, hscanned.bounds, hscanned.pos,
        hscanned.small⟩, rfl, rfl⟩
    · rename_i hfull
      have hplaces : (toks ++ [write x]).length < (s.tokqueue.push write).getMax := by
        have hle := hx.length_le
        have hne : (toks ++ [write x]).length ≠ (s.tokqueue.push write).getMax := fun heq => hfull (hx.empty_iff.mpr (Or.inr heq))
        omega
      exact ⟨⟨hx, hplaces, hrefs, hmax, hscanned.valid, hscanned.classes, hscanned.bounds, hscanned.pos,
        hscanned.small⟩, rfl, rfl⟩
  obtain ⟨hpushed, hmargin, hright⟩ := hpushed
  have hsame : s₁.scanqueue.empty = s.scanqueue.empty := by
    rw [Bool.eq_iff_iff, hpushed.empty_iff, hscanned.empty_iff]
  rw [← hmargin] at hQ
  rw [← hsame, ← hright] at htotal
  have hs' : scanTop emit s₁ = .ok s' := by rw [hs₁]; exact hs
  cases hclass : (write x).delimtype with
  | begin_ => exact begin_scanned hst hpushed (Or.inl hclass) hPx hQ hs'
  | beginComment => exact begin_scanned hst hpushed (Or.inr hclass) hPx hQ hs'
  | end_ => exact end_scanned hst hpushed (Or.inl hclass) hPx hQ hs'
  | endComment => exact end_scanned hst hpushed (Or.inr hclass) hPx hQ hs'
  | beginIndent => exact plain_scanned hst hpushed (Or.inl hclass) hPx hQ hs'
  | endIndent => exact plain_scanned hst hpushed (Or.inr (Or.inl hclass)) hPx hQ hs'
  | ignore => exact plain_scanned hst hpushed (Or.inr (Or.inr hclass)) hPx hQ hs'
  | tokenstring =>
      rw [TokenSplit.width, hclass] at hwidth htotal
      exact string_scanned hst hpushed hclass hPx hQ hwidth htotal hs'
  | tokenbreak =>
      rw [TokenSplit.width, hclass] at hwidth htotal
      exact break_scanned hst hpushed hclass hPx hQ hwidth htotal hs'

/-- Without tokens nothing is to be said of the references. -/
theorem invariant_of_empty (hsq : s.scanqueue.Holds []) (htq : s.tokqueue.Holds []) (hmax : s.scanqueue.getMax = s.tokqueue.getMax)
    (hpos : 1 ≤ s.rightotal) (hsmall : s.rightotal < 2 ^ 31) (hQ : Q s.toMargin) : Invariant P Q s :=
  ⟨[], ⟨htq, s.tokqueue.getMax_pos, hsq, hmax, by simp, by simp, by simp, hpos, hsmall⟩, hQ⟩

theorem flushTokens_scanned (hst : Stable emit P Q) (h : Scanned P s.scanqueue s.tokqueue s.rightotal toks [])
    (hQ : Q s.toMargin) (hs : flushTokens emit fuel s = .ok s') :
    Scanned P s'.scanqueue s'.tokqueue s'.rightotal [] [] ∧ Q s'.toMargin := by
  induction fuel generalizing s toks with
  | zero => cases hs
  | succ fuel ih =>
      rw [flushTokens] at hs
      dsimp only at hs
      have hroom := h.room
      have htokens := h.tokens
      rw [List.append_nil] at hroom htokens
      split at hs
      · rename_i hempty
        cases hs
        obtain rfl := (htokens.empty_iff.mp hempty).resolve_right (by omega)
        exact ⟨h, hQ⟩
      · rename_i hsome
        cases toks with
        | nil => exact absurd (htokens.empty_iff.mpr (Or.inl rfl)) hsome
        | cons t toks =>
            rw [htokens.bottom] at hs
            split at hs
            · cases hs
            · rename_i ht
              obtain ⟨m, hm, hs⟩ := bind_eq_ok.mp hs
              have hsize : 0 ≤ t.size := by omega
              exact ih (h.drop hsize) (hst.print t s.toMargin m (h.valid t List.mem_cons_self) hsize hQ hm) hs

end EmitPrettyPrint

end GhidraDecompiler.PrettyPrint
