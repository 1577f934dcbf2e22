import GhidraDecompiler.RangeMap.Grid
import Mathlib.Algebra.GroupWithZero.Nat

namespace GhidraDecompiler.RangeMap

open Fallible RangeLine RangeSubsort LawfulRangeLine

section Passes

variable {L S : Type} [LinearOrder L]

/-- The passes that the parts from an index on still need. A part that the bound has
not passed may be joined by one of the new record. -/
def passes (bound : L) (after : List (AddrRange L S)) : Nat := (after.map fun x => if x.last < bound then 1 else 2).sum

theorem passes_cons (bound : L) (x : AddrRange L S) (after : List (AddrRange L S)) :
    passes bound (x :: after) = passes bound after + if x.last < bound then 1 else 2 := by
  simp [passes, Nat.add_comm]

theorem passes_perm {bound : L} {after after' : List (AddrRange L S)} (h : after'.Perm after) :
    passes bound after' = passes bound after := (h.map _).sum_nat

theorem passes_mono {bound bound' : L} (h : bound ≤ bound') (after : List (AddrRange L S)) :
    passes bound' after ≤ passes bound after := by
  induction after with
  | nil => simp [passes]
  | cons x after ih =>
      rw [passes_cons, passes_cons]
      by_cases hx : x.last < bound
      · rw [if_pos hx, if_pos (hx.trans_le h)]
        omega
      · rw [if_neg hx]
        split_ifs <;> omega

theorem passes_le (bound : L) (after : List (AddrRange L S)) : passes bound after ≤ 2 * after.length := by
  induction after with
  | nil => simp [passes]
  | cons x after ih =>
      rw [passes_cons, List.length_cons]
      split_ifs <;> omega

end Passes

variable {L S : Type} [LinearOrder L] [LinearOrder S] [RangeLine L] [LawfulRangeLine L]
  {tree tree' : List (AddrRange L S)} {e range : AddrRange L S} {first second bound : L}

omit [RangeLine L] [LawfulRangeLine L] in
/-- The parts that end at the line or before come first. -/
theorem Sorted.split_last (h : Sorted tree) (line : L) :
    ∃ before after, tree = before ++ after ∧ before.length = tree.countP (fun e => e.last ≤ line) ∧
      (∀ x ∈ before, x.last ≤ line) ∧ ∀ x ∈ after, line < x.last := by
  have hmono : tree.Pairwise fun x y => decide (y.last ≤ line) = true → decide (x.last ≤ line) = true :=
    h.imp fun hxy hy => decide_eq_true ((last_le_of_key_le hxy).trans (of_decide_eq_true hy))
  have hbefore : ∀ x ∈ tree.takeWhile (fun e => e.last ≤ line), x.last ≤ line := by
    intro x hx
    have hp := List.mem_takeWhile_imp hx
    exact of_decide_eq_true hp
  have hafter : ∀ x ∈ tree.dropWhile (fun e => e.last ≤ line), line < x.last := fun x hx =>
    not_le.1 (of_decide_eq_false (dropWhile_not hmono x hx))
  have hsplit := List.takeWhile_append_dropWhile (p := fun e : AddrRange L S => decide (e.last ≤ line)) (l := tree)
  refine ⟨_, _, hsplit.symm, ?_, hbefore, hafter⟩
  conv_rhs => rw [← hsplit]
  rw [List.countP_append, List.countP_eq_length.2 fun x hx => decide_eq_true (hbefore x hx),
    List.countP_eq_zero.2 fun x hx => by simpa using hafter x hx, Nat.add_zero]

/-- The tree in which the parts that hold the bound have been cut before it, with the
index of the first part that starts there or later. -/
structure Started (bound : L) (tree tree' : List (AddrRange L S)) (low : Nat) : Prop where
  grid : Grid tree'
  cover_eq : ∀ v p, cover tree' v p = cover tree v p
  label : ∀ e' ∈ tree', ∃ e ∈ tree, SameLabel e' e
  ends : ∀ e' ∈ tree', e'.last < bound ∨ ∃ e ∈ tree, e'.last = e.last
  split : ∃ before after, tree' = before ++ after ∧ before.length = low ∧ (∀ x ∈ before, x.last < bound) ∧
    ∀ x ∈ after, bound ≤ x.first

theorem insertStart_spec [RangeSubsort S] (h : Grid tree) (hlow : ∀ e ∈ tree, fromBool false ≤ e.subsort) (bound : L) :
    ∃ tree' low, insertStart tree bound = .ok (tree', low) ∧ Started bound tree tree' low := by
  obtain ⟨before, after, rfl, hlen, hbefore, hafter⟩ := h.sorted.lowerBound_split bound (fromBool false)
  have hlast : ∀ x ∈ before, x.last < bound := by
    intro x hx
    rcases Prod.Lex.toLex_lt_toLex.1 (hbefore x hx) with hlt | ⟨-, hlt⟩
    · exact hlt
    · exact absurd hlt (not_lt.2 (hlow x (by simp [hx])))
  have hsame (hsplit : ∀ x ∈ after, bound ≤ x.first) : Started bound (before ++ after) (before ++ after) before.length :=
    ⟨h, fun _ _ => rfl, fun e he => ⟨e, he, rfl, rfl, rfl, rfl⟩, fun e he => .inr ⟨e, he, rfl⟩,
      before, after, rfl, rfl, hlast, hsplit⟩
  rw [insertStart]
  simp only [← hlen]
  cases after with
  | nil =>
      refine ⟨before, before.length, by simp, ?_⟩
      simpa using hsame (by simp)
  | cons e after =>
      have hread : getIdx (before ++ e :: after) before.length = .ok e := getIdx_at rfl rfl
      have hne : before.length ≠ (before ++ e :: after).length := by simp
      have hle : bound ≤ e.last := by
        rcases Prod.Lex.toLex_le_toLex.1 (hafter e (by simp)) with hlt | ⟨heq, -⟩
        · exact hlt.le
        · exact heq.le
      rw [if_pos hne, hread, ok_bind]
      by_cases hlt : e.first < bound
      · have hmem : e ∈ before ++ e :: after := by simp
        have hb : block e.first = block bound :=
          (h.oneBlock e hmem).trans (convex hlt.le hle (h.oneBlock e hmem)).symm
        have hline : minusOne bound < bound := minusOne_lt hlt hb
        obtain ⟨tree', n, hrun, hcut, hcount⟩ := unzip_spec (minusOne bound) h
          (fun x hx => le_minusOne_iff hlt hb |>.2 (hlast x hx)) (le_minusOne hlt hb) (hline.trans_le hle)
        obtain ⟨before', after', htree, hlen', hbefore', hafter'⟩ := hcut.grid.sorted.split_last (minusOne bound)
        refine ⟨tree', before.length + n, by simp only [if_pos hlt, hrun, ok_bind, pure_eq_ok], hcut.grid, hcut.cover_eq,
          fun e' he' => ?_, fun e' he' => ?_, before', after', htree, hlen'.trans hcount,
          fun x hx => (hbefore' x hx).trans_lt hline, fun x hx => ?_⟩
        · obtain ⟨x, hx, hpiece⟩ := hcut.piece e' he'
          exact ⟨x, hx, hpiece.label⟩
        · obtain ⟨x, hx, hpiece⟩ := hcut.piece e' he'
          rcases hpiece.last with hl | hl
          · exact .inr ⟨x, hx, hl⟩
          · exact .inl (hl ▸ hline)
        · obtain ⟨y, hy, hpiece⟩ := hcut.piece x (by simp [htree, hx])
          rcases hpiece.clear (h.oneBlock y hy) with hl | hl
          · exact absurd hl (not_le.2 (hafter' x hx))
          · exact not_lt.1 (mt (le_minusOne_iff hlt hb).2 (not_le.2 hl))
      · refine ⟨_, _, by rw [if_neg hlt]; rfl, hsame fun x hx => ?_⟩
        rcases List.mem_cons.1 hx with rfl | hx
        · exact not_lt.1 hlt
        · rcases h.after hx with ⟨hfirst, -⟩ | hx'
          · exact hfirst ▸ not_lt.1 hlt
          · exact hle.trans hx'.le

omit [RangeLine L] [LawfulRangeLine L] in
/-- The index goes on pointing at its part. The new one may have gone to either side. -/
theorem insertNear_spec {before after : List (AddrRange L S)} (hs : Sorted (before ++ e :: after))
    (range : AddrRange L S) (bound : L) :
    ∃ before' after', insertNear ⟨before ++ e :: after, before.length, bound⟩ range =
        .ok ⟨before' ++ e :: after', before'.length, bound⟩ ∧ Sorted (before' ++ e :: after') ∧
      (before' ++ e :: after').Perm (range :: (before ++ e :: after)) ∧
      (before'.Perm (range :: before) ∧ after' = after ∨
        e.last ≤ range.last ∧ before' = before ∧ after'.Perm (range :: after)) := by
  obtain ⟨front, back, hsplit, hins, hs', hfront, -⟩ := insertHint_spec hs before.length (by simp) range
  have hrun : insertNear ⟨before ++ e :: after, before.length, bound⟩ range = .ok ⟨front ++ range :: back,
      if front.length ≤ before.length then before.length + 1 else before.length, bound⟩ := by
    simp only [insertNear, hins, ok_bind, pure_eq_ok]
  have hperm : (front ++ range :: back).Perm (range :: (before ++ e :: after)) := hsplit ▸ List.perm_middle
  rw [hrun]
  rcases List.append_eq_append_iff.1 hsplit with ⟨mid, rfl, hmid⟩ | ⟨mid, rfl, rfl⟩
  · cases mid with
    | nil =>
        obtain rfl : back = e :: after := by simpa using hmid.symm
        refine ⟨before ++ [range], after, ?_, by simpa using hs', by simpa using hperm, .inl ⟨List.perm_append_singleton range before, rfl⟩⟩
        simp
    | cons x mid =>
        obtain ⟨rfl, rfl⟩ := List.cons.inj hmid
        refine ⟨before, mid ++ range :: back, ?_, by simpa using hs', by simpa using hperm,
          .inr ⟨last_le_of_key_le (hfront e (by simp)), rfl, List.perm_middle⟩⟩
        simp
  · refine ⟨front ++ range :: mid, after, ?_, by simpa using hs', by simpa using hperm, .inl ⟨List.perm_middle, rfl⟩⟩
    simp [Nat.add_assoc]

/-- The parts of the new record fill the range up to the bound, and the parts of the
other records are as they were. -/
structure Filled (tree₀ : List (AddrRange L S)) (range : AddrRange L S) (first second bound : L)
    (tree : List (AddrRange L S)) : Prop where
  grid : Grid tree
  first_le : first ≤ bound
  le_second : bound ≤ second
  oneBlock : block bound = block second
  cover_eq : ∀ v p, cover tree v p = cover tree₀ v p + if v = range.value ∧ first ≤ p ∧ p < bound then 1 else 0
  label : ∀ x ∈ tree, SameLabel x range ∨ ∃ y ∈ tree₀, SameLabel x y
  ends : ∀ x ∈ tree, x.last = second → ∃ y ∈ tree₀, y.last = second

variable {tree₀ before after : List (AddrRange L S)}

omit [LinearOrder S] [RangeLine L] [LawfulRangeLine L] in
theorem cover_perm (h : tree'.Perm tree) (v : Nat) (p : L) : cover tree' v p = cover tree v p := h.countP_eq _

/-- A stretch from the bound on is added. -/
theorem Filled.add (h : Filled tree₀ range first second bound tree) (next : L) (hp : tree'.Perm (e :: tree))
    (hs : Sorted tree') (hlabel : SameLabel e range) (hfirst : e.first = bound) (ho : bound ≤ e.last)
    (hnext : ∀ p, p ≤ e.last ↔ p < next) (hle : next ≤ second) (ha : ∀ f ∈ tree, Apart e f) :
    Filled tree₀ range first second next tree' where
  grid := by
    have hlt : e.last ≤ second := ((hnext e.last).1 le_rfl).le.trans hle
    exact h.grid.insert hp hs (hfirst ▸ ho)
      ((congrArg block hfirst).trans (h.oneBlock.trans (convex ho hlt h.oneBlock).symm)) ha
  first_le := h.first_le.trans (ho.trans ((hnext e.last).1 le_rfl).le)
  le_second := hle
  oneBlock := convex (ho.trans ((hnext e.last).1 le_rfl).le) hle h.oneBlock
  cover_eq v p := by
    rw [cover_perm hp, cover_cons, h.cover_eq, Nat.add_assoc]
    congr 1
    simp only [holds_iff, hlabel.1, hfirst, hnext p, eq_comm (a := range.value)]
    have hb : bound < next := (hnext bound).1 ho
    by_cases hv : v = range.value
    · by_cases hpb : p < bound
      · simp [hv, hpb, not_le.2 hpb, hpb.trans hb]
      · simp [hv, hpb, not_lt.1 hpb, h.first_le.trans (not_lt.1 hpb)]
    · simp [hv]
  label x hx := by
    rcases List.mem_cons.1 (hp.mem_iff.1 hx) with rfl | hx
    · exact .inl hlabel
    · exact h.label x hx
  ends x hx hlast := by
    rcases List.mem_cons.1 (hp.mem_iff.1 hx) with rfl | hx
    · exact absurd (hlast ▸ (hnext x.last).1 le_rfl) (not_lt.2 hle)
    · exact h.ends x hx hlast

/-- Before the part at the index every part ends before the bound, and from there on
none starts before the bound and reaches it. -/
structure Pointed (bound : L) (before after : List (AddrRange L S)) : Prop where
  before : ∀ x ∈ before, x.last < bound
  after : ∀ x ∈ after, x.last < bound ∨ bound ≤ x.first

theorem insertGap_spec (h : Filled tree₀ range first second bound (before ++ e :: after))
    (hpt : Pointed bound before (e :: after)) (hle : bound ≤ e.last) (hsecond : e.first ≤ second) :
    ∃ before', insertGap range ⟨before ++ e :: after, before.length, bound⟩ =
        .ok ⟨before' ++ e :: after, before'.length, e.first⟩ ∧
      Filled tree₀ range first second e.first (before' ++ e :: after) ∧ Pointed e.first before' (e :: after) := by
  have hread : getIdx (before ++ e :: after) before.length = .ok e := getIdx_at rfl rfl
  have hstart : bound ≤ e.first := (hpt.after e (by simp)).resolve_left (not_lt.2 hle)
  have hafter : ∀ x ∈ e :: after, e.first ≤ x.first := by
    intro x hx
    rcases List.mem_cons.1 hx with rfl | hx
    · exact le_rfl
    · rcases h.grid.after hx with ⟨hfirst, -⟩ | hlt
      · exact hfirst.le
      · exact (h.grid.ordered e (by simp)).trans hlt.le
  simp only [insertGap, hread, ok_bind]
  rcases hstart.lt_or_eq with hlt | rfl
  · have hb : block bound = block e.first := h.oneBlock.trans (convex hlt.le hsecond h.oneBlock).symm
    have hnext (p : L) : p ≤ minusOne e.first ↔ p < e.first := le_minusOne_iff hlt hb
    have hgap := minusOne_lt hlt hb
    obtain ⟨before', after', hrun, hs, hperm, ⟨hp, rfl⟩ | ⟨hlast, -⟩⟩ :=
      insertNear_spec h.grid.sorted { range with first := bound, last := minusOne e.first } bound
    · refine ⟨before', ?_, h.add _ hperm hs ⟨rfl, rfl, rfl, rfl⟩ rfl (le_minusOne hlt hb) hnext hsecond fun f hf => ?_,
        fun x hx => ?_, fun x hx => .inr (hafter x hx)⟩
      · rw [if_pos hlt, hrun, ok_bind, getIdx_at rfl rfl, ok_bind]
        rfl
      · rcases List.mem_append.1 hf with hf | hf
        · exact .inr (.inr (hpt.before f hf))
        · exact .inr (.inl (hgap.trans_le (hafter f hf)))
      · rcases List.mem_cons.1 (hp.mem_iff.1 hx) with rfl | hx
        · exact hgap
        · exact (hpt.before x hx).trans hlt
    · exact absurd (hlast.trans_lt hgap) (not_lt.2 (h.grid.ordered e (by simp)))
  · exact ⟨before, by rw [if_neg (lt_irrefl _)]; rfl, h, hpt.before, fun x hx => .inr (hafter x hx)⟩

/-- What the loop leaves: the rest of the range, from the bound on, is at the place of
a part or between all of them, and was added already when a part ends with it. -/
structure Left (tree₀ : List (AddrRange L S)) (range : AddrRange L S) (first second bound : L)
    (tree : List (AddrRange L S)) : Prop where
  grid : Grid tree
  first_le : first ≤ bound
  le_second : bound ≤ second
  oneBlock : block bound = block second
  cover_eq : ∃ again : Bool, (again = true → ∃ y ∈ tree₀, y.last = second) ∧ ∀ v p, cover tree v p = cover tree₀ v p +
    (if v = range.value ∧ first ≤ p ∧ p < bound then 1 else 0) +
    if again = true ∧ v = range.value ∧ bound ≤ p ∧ p ≤ second then 1 else 0
  label : ∀ x ∈ tree, SameLabel x range ∨ ∃ y ∈ tree₀, SameLabel x y
  rest : ∀ x ∈ tree, x.first = bound ∧ x.last = second ∨ x.last < bound ∨ second < x.first

theorem Filled.left (h : Filled tree₀ range first second bound tree)
    (hrest : ∀ x ∈ tree, x.first = bound ∧ x.last = second ∨ x.last < bound ∨ second < x.first) :
    Left tree₀ range first second bound tree :=
  ⟨h.grid, h.first_le, h.le_second, h.oneBlock, ⟨false, by simp, fun v p => by simp [h.cover_eq]⟩, h.label, hrest⟩

theorem insertShared_spec (h : Filled tree₀ range first second e.first (before ++ e :: after))
    (hpt : Pointed e.first before (e :: after)) :
    (∃ st', insertShared range second ⟨before ++ e :: after, before.length, e.first⟩ = .ok (.leave st') ∧
      Left tree₀ range first second st'.bound st'.tree) ∨
    ∃ before' after' bound', insertShared range second ⟨before ++ e :: after, before.length, e.first⟩ =
        .ok (.again ⟨before' ++ after', before'.length, bound'⟩) ∧
      Filled tree₀ range first second bound' (before' ++ after') ∧ Pointed bound' before' after' ∧
      passes bound' after' < passes e.first (e :: after) := by
  have hread : getIdx (before ++ e :: after) before.length = .ok e := getIdx_at rfl rfl
  have hmem : e ∈ before ++ e :: after := by simp
  have ho := h.grid.ordered e hmem
  have hsame : ∀ f ∈ before ++ e :: after, Apart { range with first := e.first, last := e.last } f :=
    fun f hf => h.grid.apart e hmem f hf
  simp only [insertShared, hread, ok_bind]
  by_cases hlast : e.last ≤ second
  · obtain ⟨before', after', hrun, hs, hperm, hor⟩ :=
      insertNear_spec h.grid.sorted { range with first := e.first, last := e.last } e.first
    have hnew {x : AddrRange L S} (hx : x ∈ before' ++ e :: after') :
        x = { range with first := e.first, last := e.last } ∨ x ∈ before ++ e :: after :=
      List.mem_cons.1 (hperm.mem_iff.1 hx)
    rw [if_pos hlast, hrun, ok_bind, getIdx_at rfl rfl, ok_bind]
    by_cases heq : e.last = second
    · left
      rw [if_pos heq]
      refine ⟨_, rfl, h.grid.insert hperm hs ho (h.grid.oneBlock e hmem) hsame, h.first_le, h.le_second, h.oneBlock,
        ⟨true, fun _ => h.ends e hmem heq, fun v p => ?_⟩, fun x hx => ?_, fun x hx => ?_⟩
      · rw [cover_perm hperm, cover_cons, h.cover_eq]
        simp only [holds_iff, heq, eq_comm (a := range.value), true_and]
      · rcases hnew hx with rfl | hx
        · exact .inl ⟨rfl, rfl, rfl, rfl⟩
        · exact h.label x hx
      · rcases hnew hx with rfl | hx
        · exact .inl ⟨rfl, heq⟩
        · rcases List.mem_append.1 hx with hx | hx
          · exact .inr (.inl (hpt.before x hx))
          · rcases List.mem_cons.1 hx with rfl | hx
            · exact .inl ⟨rfl, heq⟩
            · rcases h.grid.after hx with ⟨hf, hl⟩ | hlt
              · exact .inl ⟨hf.symm, hl.symm.trans heq⟩
              · exact .inr (.inr (heq ▸ hlt))
    · right
      have hlt : e.last < second := lt_of_le_of_ne hlast heq
      have hb : block e.last = block second := convex ho hlast h.oneBlock
      have hnext (p : L) : p ≤ e.last ↔ p < plusOne e.last :=
        not_lt.symm.trans ((not_congr (plusOne_le_iff hlt hb)).symm.trans not_le)
      have hstep : e.last < plusOne e.last := (hnext _).1 le_rfl
      have hmono := passes_mono (ho.trans hstep.le) after
      have hpass : passes e.first (e :: after) = passes e.first after + 2 := by
        rw [passes_cons, if_neg (not_lt.2 ho)]
      have hafter : ∀ x ∈ after, x.last < plusOne e.last ∨ plusOne e.last ≤ x.first := by
        intro x hx
        rcases h.grid.after hx with ⟨-, hl⟩ | hx'
        · exact .inl (hl ▸ hstep)
        · exact .inr ((plusOne_le_iff hlt hb).2 hx')
      have hbefore : ∀ x ∈ before, x.last < plusOne e.last := fun x hx => ((hpt.before x hx).trans_le ho).trans hstep
      have htree : before' ++ e :: after' = before' ++ [e] ++ after' := by simp
      have hfilled := h.add (plusOne e.last) hperm hs ⟨rfl, rfl, rfl, rfl⟩ rfl ho hnext (plusOne_le hlt hb) hsame
      rw [htree] at hfilled
      refine ⟨before' ++ [e], after', plusOne e.last, ?_, hfilled, ⟨fun x hx => ?_, fun x hx => ?_⟩, ?_⟩
      · rw [if_neg heq, htree]
        simp
      · rcases List.mem_append.1 hx with hx | hx
        · rcases hor with ⟨hp, -⟩ | ⟨-, rfl, -⟩
          · rcases List.mem_cons.1 (hp.mem_iff.1 hx) with rfl | hx
            · exact hstep
            · exact hbefore x hx
          · exact hbefore x hx
        · rw [List.mem_singleton.1 hx]
          exact hstep
      · rcases hor with ⟨-, rfl⟩ | ⟨-, -, hp⟩
        · exact hafter x hx
        · rcases List.mem_cons.1 (hp.mem_iff.1 hx) with rfl | hx
          · exact .inl hstep
          · exact hafter x hx
      · rcases hor with ⟨-, rfl⟩ | ⟨-, -, hp⟩
        · omega
        · rw [passes_perm hp, passes_cons, if_pos hstep]
          omega
  · left
    have hlt := not_le.1 hlast
    obtain ⟨tree', n, hrun, hcut, -⟩ := unzip_spec second h.grid
      (fun x hx => ((hpt.before x hx).trans_le h.le_second).le) h.le_second hlt
    rw [if_neg hlast, if_pos hlt, hrun, ok_bind]
    refine ⟨_, rfl, hcut.grid, h.first_le, h.le_second, h.oneBlock,
      ⟨false, by simp, fun v p => by simp [hcut.cover_eq, h.cover_eq]⟩, fun x hx => ?_, fun x hx => ?_⟩
    · obtain ⟨y, hy, hpiece⟩ := hcut.piece x hx
      obtain ⟨h1, h2, h3, h4⟩ := hpiece.label
      rcases h.label y hy with ⟨g1, g2, g3, g4⟩ | ⟨z, hz, g1, g2, g3, g4⟩
      · exact .inl ⟨h1.trans g1, h2.trans g2, h3.trans g3, h4.trans g4⟩
      · exact .inr ⟨z, hz, h1.trans g1, h2.trans g2, h3.trans g3, h4.trans g4⟩
    · obtain ⟨y, hy, hpiece⟩ := hcut.piece x hx
      have hwithin := hpiece.within (h.grid.oneBlock y hy)
      rcases List.mem_append.1 hy with hy' | hy'
      · exact .inr (.inl (hwithin.2.trans_lt (hpt.before y hy')))
      · have hplace : SamePlace e y ∨ e.last < y.first := by
          rcases List.mem_cons.1 hy' with rfl | hy'
          · exact .inl ⟨rfl, rfl⟩
          · exact h.grid.after hy'
        rcases hplace with ⟨hf, hl⟩ | hlt'
        · rcases hpiece with ⟨rfl, hu | hu⟩ | ⟨-, hlt', rfl | rfl⟩
          · exact absurd hu (not_le.2 (hl ▸ hlt))
          · exact absurd hu (not_lt.2 (hf ▸ h.le_second))
          · exact .inl ⟨hf.symm, rfl⟩
          · exact .inr (.inr (lt_plusOne hlt' (h.oneBlock.symm.trans ((h.grid.oneBlock e hmem).trans (congrArg block hl)))))
        · exact .inr (.inr ((hlt.trans hlt').trans_le hwithin.1))

/-- What the loop keeps, with a bound on the passes that are still to come. -/
def Going (tree₀ : List (AddrRange L S)) (range : AddrRange L S) (first second : L) (n : Nat) (st : Inserting L S) : Prop :=
  ∃ before after, st.tree = before ++ after ∧ st.low = before.length ∧
    Filled tree₀ range first second st.bound st.tree ∧ Pointed st.bound before after ∧ passes st.bound after = n

theorem insertPart_spec {n : Nat} {st : Inserting L S} (h : Going tree₀ range first second n st) :
    (∃ st', insertPart range second st = .ok (.leave st') ∧ Left tree₀ range first second st'.bound st'.tree) ∨
    ∃ st' m, insertPart range second st = .ok (.again st') ∧ m < n ∧ Going tree₀ range first second m st' := by
  obtain ⟨tree, low, bound⟩ := st
  obtain ⟨before, after, rfl, rfl, hfilled, hpt, rfl⟩ := h
  dsimp only at hfilled hpt ⊢
  cases after with
  | nil =>
      rw [List.append_nil] at hfilled ⊢
      exact .inl ⟨⟨before, before.length, bound⟩, by simp [insertPart], hfilled.left fun x hx => .inr (.inl (hpt.before x hx))⟩
  | cons e after =>
      have hread : getIdx (before ++ e :: after) before.length = .ok e := getIdx_at rfl rfl
      have hne : before.length ≠ (before ++ e :: after).length := by simp
      have ho := hfilled.grid.ordered e (by simp)
      simp only [insertPart, if_pos hne, hread, ok_bind]
      by_cases hsecond : e.first ≤ second
      · rw [if_pos hsecond]
        by_cases hbound : bound ≤ e.last
        · obtain ⟨before', hgap, hfilled', hpt'⟩ := insertGap_spec hfilled hpt hbound hsecond
          have hstart : bound ≤ e.first := (hpt.after e (by simp)).resolve_left (not_lt.2 hbound)
          have hmono := passes_mono hstart (e :: after)
          rw [if_pos hbound, hgap, ok_bind]
          rcases insertShared_spec hfilled' hpt' with hleave | ⟨before'', after'', bound', hrun, hfilled'', hpt'', hpass⟩
          · exact .inl hleave
          · exact .inr ⟨_, _, hrun, hpass.trans_le hmono, before'', after'', rfl, rfl, hfilled'', hpt'', rfl⟩
        · have hlt := not_le.1 hbound
          have htree : before ++ e :: after = before ++ [e] ++ after := by simp
          rw [if_neg hbound]
          refine .inr ⟨_, passes bound after, rfl, ?_, before ++ [e], after, htree, by simp, hfilled, ⟨fun x hx => ?_,
            fun x hx => hpt.after x (by simp [hx])⟩, rfl⟩
          · rw [passes_cons, if_pos hlt]
            omega
          · rcases List.mem_append.1 hx with hx | hx
            · exact hpt.before x hx
            · rw [List.mem_singleton.1 hx]
              exact hlt
      · have hlt := not_le.1 hsecond
        rw [if_neg hsecond]
        refine .inl ⟨_, rfl, hfilled.left fun x hx => ?_⟩
        rcases List.mem_append.1 hx with hx | hx
        · exact .inr (.inl (hpt.before x hx))
        · refine .inr (.inr ?_)
          rcases List.mem_cons.1 hx with rfl | hx
          · exact hlt
          · rcases hfilled.grid.after hx with ⟨hf, -⟩ | hx'
            · exact hf ▸ hlt
            · exact (hlt.trans_le ho).trans hx'

/-- The parts after an insertion: the other records are as they were, and the new one
holds its range. The last stretch is there twice when a part ended with the range. -/
structure Inserted (tree₀ : List (AddrRange L S)) (range : AddrRange L S) (first second : L)
    (tree : List (AddrRange L S)) : Prop where
  grid : Grid tree
  cover_eq : ∃ (again : Bool) (bound : L), (again = true → ∃ y ∈ tree₀, y.last = second) ∧ first ≤ bound ∧
    ∀ v p, cover tree v p = cover tree₀ v p + (if v = range.value ∧ first ≤ p ∧ p ≤ second then 1 else 0) +
      if again = true ∧ v = range.value ∧ bound ≤ p ∧ p ≤ second then 1 else 0
  label : ∀ x ∈ tree, SameLabel x range ∨ ∃ y ∈ tree₀, SameLabel x y

theorem Left.inserted (h : Left tree₀ range first second bound tree)
    (hp : tree'.Perm ({ range with first := bound, last := second } :: tree)) (hs : Sorted tree') :
    Inserted tree₀ range first second tree' := by
  obtain ⟨again, hagain, hcover⟩ := h.cover_eq
  refine ⟨h.grid.insert hp hs h.le_second h.oneBlock fun f hf => ?_, ⟨again, bound, hagain, h.first_le, fun v p => ?_⟩,
    fun x hx => ?_⟩
  · rcases h.rest f hf with ⟨h1, h2⟩ | hlt | hlt
    · exact .inl ⟨h1.symm, h2.symm⟩
    · exact .inr (.inr hlt)
    · exact .inr (.inl hlt)
  · rw [cover_perm hp, cover_cons, hcover]
    simp only [holds_iff, eq_comm (a := range.value)]
    by_cases hv : v = range.value
    · by_cases hpb : p < bound
      · simp [hv, hpb, not_le.2 hpb, (hpb.trans_le h.le_second).le]
      · simp [hv, hpb, not_lt.1 hpb, h.first_le.trans (not_lt.1 hpb)]
        omega
    · simp [hv]
  · rcases List.mem_cons.1 (hp.mem_iff.1 hx) with rfl | hx
    · exact .inl ⟨rfl, rfl, rfl, rfl⟩
    · exact h.label x hx

/-- The loop of an insertion and the stretch that is added behind it. -/
theorem fill_spec [RangeSubsort S] (h : Grid tree₀) (hlow : ∀ e ∈ tree₀, fromBool false ≤ e.subsort)
    (hle : first ≤ second) (hb : block first = block second) :
    ∃ tree low, insertStart tree₀ first = .ok (tree, low) ∧ Sorted tree ∧ ∀ range,
      ∃ st, loop (insertPart range second) (3 * tree.length + 1) ⟨tree, low, first⟩ = .ok st ∧ st.bound ≤ second ∧
        ∃ tree' pos, insertPlain st.tree { range with first := st.bound, last := second } = .ok (tree', pos) ∧
          Inserted tree₀ range first second tree' := by
  obtain ⟨tree, low, hstart, hs⟩ := insertStart_spec h hlow first
  refine ⟨tree, low, hstart, hs.grid.sorted, fun range => ?_⟩
  obtain ⟨before, after, htree, hlen, hbefore, hafter⟩ := hs.split
  have hfilled : Filled tree₀ range first second first tree := by
    refine ⟨hs.grid, le_rfl, hle, hb, fun v p => ?_, fun x hx => .inr (hs.label x hx), fun x hx hlast => ?_⟩
    · rw [hs.cover_eq, if_neg fun hp => absurd hp.2.1 (not_le.2 hp.2.2), Nat.add_zero]
    · rcases hs.ends x hx with hlt | ⟨y, hy, hl⟩
      · exact absurd (hlast ▸ hlt) (not_lt.2 hle)
      · exact ⟨y, hy, hl.symm.trans hlast⟩
  have hpass := passes_le first after
  have hgoing : Going tree₀ range first second (passes first after) ⟨tree, low, first⟩ :=
    ⟨before, after, htree, hlen.symm, hfilled, ⟨hbefore, fun x hx => .inr (hafter x hx)⟩, rfl⟩
  obtain ⟨st, hrun, hleft⟩ := loop_bounded (f := insertPart range second) (Going tree₀ range first second)
    (fun st => Left tree₀ range first second st.bound st.tree) (fun n s hs => insertPart_spec hs)
    (k := 3 * tree.length + 1) hgoing (by rw [htree, List.length_append]; omega)
  obtain ⟨front, back, hsplit, hins, hsorted⟩ :=
    insertPlain_spec hleft.grid.sorted { range with first := st.bound, last := second }
  exact ⟨st, hrun, hleft.le_second, _, _, hins, hleft.inserted (hsplit ▸ List.perm_middle) hsorted⟩

end GhidraDecompiler.RangeMap
