import GhidraDecompiler.Block.EdgeHistory
import GhidraDecompiler.Block.EdgeLabels
import GhidraDecompiler.Block.EdgeStubs

namespace GhidraDecompiler.Block

open Fallible FlowBlock

variable {d d' s : Blocks} {dir : Dir} {b c bl dup : BlockId} {i j slot : Nat} {e : BlockEdge}

/-- The first edge to a block has every bit of the labels of the later ones. -/
def AbsorbedAt (x : BlockId) (l : List (BlockId × Flags)) : Prop :=
  ∀ a ∈ l.find? (fun a => a.1 = x), ∀ b ∈ l, b.1 = x → a.2 ||| b.2 = a.2

instance (x : BlockId) (l : List (BlockId × Flags)) : Decidable (AbsorbedAt x l) :=
  inferInstanceAs (Decidable (∀ a ∈ l.find? (fun a => a.1 = x), ∀ b ∈ l, b.1 = x → a.2 ||| b.2 = a.2))

theorem find?_take_or_drop {α : Type} (l : List α) (p : α → Bool) (j : Nat) :
    l.find? p = ((l.take j).find? p).or ((l.drop j).find? p) := by
  rw [← List.find?_append, List.take_append_drop]

theorem find?_eraseIdx {α : Type} {l : List α} {p : α → Bool} {j : Nat}
    (h : (∃ a ∈ l.take j, p a = true) ∨ ∀ a, l[j]? = some a → p a = false) : (l.eraseIdx j).find? p = l.find? p := by
  rw [List.eraseIdx_eq_take_drop_succ, List.find?_append, find?_take_or_drop l p j]
  rcases h with ⟨a, ha, hpa⟩ | h
  · obtain ⟨x, hx⟩ := Option.isSome_iff_exists.mp (List.find?_isSome.mpr ⟨a, ha, hpa⟩)
    rw [hx]
    rfl
  · cases hj : l[j]? with
    | none =>
        have hle := List.getElem?_eq_none_iff.mp hj
        rw [List.drop_eq_nil_of_le hle, List.drop_eq_nil_of_le (by omega)]
    | some a =>
        obtain ⟨hlt, rfl⟩ := List.getElem?_eq_some_iff.mp hj
        rw [List.drop_eq_getElem_cons hlt, List.find?_cons_of_neg (by simp [h _ hj])]

theorem AbsorbedAt.eraseIdx {x : BlockId} {l : List (BlockId × Flags)} (h : AbsorbedAt x l)
    (hj : (∃ a ∈ l.take j, a.1 = x) ∨ ∀ a, l[j]? = some a → a.1 ≠ x) : AbsorbedAt x (l.eraseIdx j) := by
  rw [AbsorbedAt, find?_eraseIdx]
  · exact fun a ha b hb => h a ha b (List.mem_of_mem_eraseIdx hb)
  · simpa using hj

theorem setEdge_self (h : edge? d dir b i = some e) : setEdge d dir b i e = d := by
  refine Arena.ext_get? (by simp [setEdge]) fun c => ?_
  rw [setEdge, Arena.get?_update]
  split
  · next hc =>
      subst hc
      cases hx : d.get? c with
      | none => rfl
      | some x =>
          have hblk : blk d c = x := by simp [blk, hx]
          rw [edge?, hblk] at h
          have hset : (x.edges dir).set i e = x.edges dir := by
            refine List.ext_getElem? fun j => ?_
            rw [List.getElem?_set]
            split
            · next hij =>
                subst hij
                rw [h, if_pos (List.getElem?_eq_some_iff.mp h).1]
            · rfl
          rw [Option.map_some, hset]
          cases dir <;> rfl
  · rfl

/-- The scan for edges to `dup` while labels agree. -/
structure LabelScan (dir : Dir) (bl dup : BlockId) (d₀ : Blocks) (slot : Nat) (indval : Option Nat) (d : Blocks) : Prop where
  matched : Matched Eq d ∅
  core : SameCore d₀ d
  absorbed : ∀ x, AbsorbedAt x (stubs d₀ dir bl) → AbsorbedAt x (stubs d dir bl)
  first : ∀ k, indval = some k → k < slot ∧ ∃ a, (stubs d dir bl)[k]? = some a ∧ (stubs d dir bl).find? (fun a => a.1 = dup) = some a
  unseen : indval = none → ∀ a ∈ (stubs d dir bl).take slot, a.1 ≠ dup
  back : (stubs d dir.op bl).filter (fun a => a.1 ≠ bl) = (stubs d₀ dir.op bl).filter (fun a => a.1 ≠ bl)

theorem length_stubs (d : Blocks) (dir : Dir) (b : BlockId) : (stubs d dir b).length = ((blk d b).edges dir).length := by
  simp [stubs]

theorem filter_eraseIdx {α : Type} {l : List α} {p : α → Bool} {j : Nat} {a : α} (h : l[j]? = some a) (hp : p a = false) :
    (l.eraseIdx j).filter p = l.filter p := by
  obtain ⟨hlt, rfl⟩ := List.getElem?_eq_some_iff.mp h
  have hsplit : l.filter p = (l.take j).filter p ++ (l.drop j).filter p := by
    rw [← List.filter_append, List.take_append_drop]
  rw [hsplit, List.eraseIdx_eq_take_drop_succ, List.filter_append, List.drop_eq_getElem_cons hlt,
    List.filter_cons_of_neg (by simp [hp])]

/-- An edge whose label is absorbed is removed at both ends and no label changes. -/
theorem LabelScan.remove {d₀ : Blocks} {k : Nat} (h : LabelScan dir bl dup d₀ slot (some k) s)
    (habs : AbsorbedAt dup (stubs d₀ dir bl)) (he : edge? s dir bl slot = some e) (hdup : e.point = dup) :
    ∃ s', (do
        let d ← modifyEdge s dir bl k fun e₀ => { e₀ with label := e₀.label ||| e.label }
        let d ← blockHalfDeleteEdge dir d bl slot
        blockHalfDeleteEdge dir.op d dup e.reverseIndex) = .ok s' ∧
      LabelScan dir bl dup d₀ slot (some k) s' ∧ (stubs s' dir bl).length + 1 = (stubs s dir bl).length := by
  obtain ⟨hk, a, hka, hfind⟩ := h.first k rfl
  have hslot : (stubs s dir bl)[slot]? = some (stub e) := by rw [stubs_getElem?, he, Option.map_some]
  obtain ⟨e₀, he₀, rfl⟩ : ∃ e₀, edge? s dir bl k = some e₀ ∧ stub e₀ = a := by
    rw [stubs_getElem?, Option.map_eq_some_iff] at hka
    exact hka
  have hlabel : e₀.label ||| e.label = e₀.label :=
    h.absorbed dup habs _ hfind (stub e) (List.mem_of_getElem? hslot) hdup
  have hsame : modifyEdge s dir bl k (fun e₀ => { e₀ with label := e₀.label ||| e.label }) = .ok s := by
    rw [modifyEdge_eq he₀]
    simp only [hlabel]
    rw [setEdge_self he₀]
  obtain ⟨s', hrun, hm', hc', -, -⟩ := blockRemoveDirEdge_spec h.matched he
  obtain ⟨-, f, hf, hfp, -, -⟩ := h.matched dir bl slot e he (by simp)
  have hrev : e.reverseIndex < (stubs s dir.op e.point).length := by
    rw [length_stubs]
    exact (List.getElem?_eq_some_iff.mp hf).1
  have hstubs := blockRemoveDirEdge_stubs hrun he hrev
  have hself : stubs s' dir bl = (stubs s dir bl).eraseIdx slot := by rw [hstubs, if_pos ⟨rfl, rfl⟩]
  have hlt : slot < (stubs s dir bl).length := (List.getElem?_eq_some_iff.mp hslot).1
  have hearlier : ∃ a ∈ (stubs s dir bl).take slot, a.1 = dup := by
    refine ⟨stub e₀, List.mem_of_getElem? (i := k) ?_, by simpa using List.find?_some hfind⟩
    rw [List.getElem?_take_of_lt hk, hka]
  have htake : (stubs s' dir bl).take slot = (stubs s dir bl).take slot := by
    rw [hself, List.take_eraseIdx_eq_take_of_le _ _ _ (Nat.le_refl slot)]
  refine ⟨s', ?_, ⟨hm', h.core.trans hc', fun x hx => ?_, fun k' hk' => ?_, by simp, ?_⟩, ?_⟩
  · rw [hsame, ok_bind, ← hdup]
    simpa [blockRemoveDirEdge, get_of_live (live_of_edge? he),
      getIdx_eq (show ((blk s bl).edges dir)[slot]? = some e from he)] using hrun
  · rw [hself]
    refine (h.absorbed x hx).eraseIdx ?_
    by_cases hxdup : x = dup
    · rw [hxdup]
      exact .inl hearlier
    · refine .inr fun a ha => ?_
      obtain rfl : stub e = a := Option.some_inj.mp (hslot.symm.trans ha)
      exact fun hp => hxdup (hp.symm.trans hdup)
  · obtain rfl : k = k' := Option.some_inj.mp hk'
    refine ⟨hk, stub e₀, ?_, ?_⟩
    · rw [hself, List.getElem?_eraseIdx_of_lt hk, hka]
    · rw [hself, find?_eraseIdx (.inl (by simpa using hearlier)), hfind]
  · rw [hstubs, if_neg (by cases dir <;> simp), ← h.back]
    split
    · next hc =>
        refine filter_eraseIdx (a := stub f) ?_ ?_
        · rw [stubs_getElem?, hc.2, hf, Option.map_some]
        · simp [stub, hfp]
    · rfl
  · rw [hself, List.length_eraseIdx_of_lt hlt]
    omega

theorem LabelScan.pass {d₀ : Blocks} {indval : Option Nat} (h : LabelScan dir bl dup d₀ slot indval s)
    (habs : AbsorbedAt dup (stubs d₀ dir bl)) (hb : d₀.Live bl) (hs : slot < (stubs s dir bl).length) :
    ∃ slot' indval' s', eliminatePass dir bl dup (slot, indval, s) = .ok (.again (slot', indval', s')) ∧
      LabelScan dir bl dup d₀ slot' indval' s' ∧ (stubs s' dir bl).length - slot' < (stubs s dir bl).length - slot := by
  have hlive := (h.core.live bl).mpr hb
  have hlen : slot < ((blk s bl).edges dir).length := by rwa [← length_stubs]
  obtain ⟨e, he⟩ : ∃ e, edge? s dir bl slot = some e := ⟨_, List.getElem?_eq_getElem hlen⟩
  have hgo : getIdx ((blk s bl).edges dir) slot = .ok e := getIdx_eq he
  have hslot : (stubs s dir bl)[slot]? = some (stub e) := by rw [stubs_getElem?, he, Option.map_some]
  have htake : (stubs s dir bl).take (slot + 1) = (stubs s dir bl).take slot ++ [stub e] := by
    rw [List.take_add_one, hslot, Option.toList_some]
  by_cases hdup : e.point = dup
  · cases indval with
    | none =>
        refine ⟨slot + 1, some slot, s, ?_, ?_, by omega⟩
        · simp [eliminatePass, get_of_live hlive, hlen, hgo, hdup]
        · refine ⟨h.matched, h.core, h.absorbed, fun k hk => ?_, by simp, h.back⟩
          obtain rfl : slot = k := Option.some_inj.mp hk
          refine ⟨Nat.lt_succ_self _, stub e, hslot, ?_⟩
          have hfront : ((stubs s dir bl).take slot).find? (fun a => a.1 = dup) = none := by
            rw [List.find?_eq_none]
            simpa using h.unseen rfl
          obtain ⟨hlt, hget⟩ := List.getElem?_eq_some_iff.mp hslot
          rw [find?_take_or_drop _ _ slot, hfront, List.drop_eq_getElem_cons hlt, hget, List.find?_cons_of_pos (by simp [stub, hdup])]
          rfl
    | some k =>
        obtain ⟨s', hrun, hscan, hshort⟩ := h.remove habs he hdup
        refine ⟨slot, some k, s', ?_, hscan, by omega⟩
        obtain ⟨d₁, h₁, hrest⟩ := bind_eq_ok.mp hrun
        obtain ⟨d₂, h₂, h₃⟩ := bind_eq_ok.mp hrest
        simp [eliminatePass, get_of_live hlive, hlen, hgo, hdup, h₁, h₂, h₃]
  · refine ⟨slot + 1, indval, s, ?_, ?_, by omega⟩
    · simp [eliminatePass, get_of_live hlive, hlen, hgo, hdup]
    · refine ⟨h.matched, h.core, h.absorbed, fun k hk => ?_, fun hnone a ha => ?_, h.back⟩
      · obtain ⟨hlt, hrest⟩ := h.first k hk
        exact ⟨by omega, hrest⟩
      · rw [htake, List.mem_append, List.mem_singleton] at ha
        obtain ha | rfl := ha
        · exact h.unseen hnone a ha
        · exact hdup

theorem blockEliminateDups_labels (hm : Matched Eq d ∅) (hb : d.Live bl) (habs : AbsorbedAt dup (stubs d dir bl)) :
    ∃ d', blockEliminateDups dir d bl dup = .ok d' ∧ Matched Eq d' ∅ ∧ SameCore d d' ∧
      (∀ x, AbsorbedAt x (stubs d dir bl) → AbsorbedAt x (stubs d' dir bl)) ∧
      (stubs d' dir.op bl).filter (fun a => a.1 ≠ bl) = (stubs d dir.op bl).filter (fun a => a.1 ≠ bl) := by
  obtain ⟨d', hrun, slot, indval, hscan⟩ := loop_total (f := eliminatePass dir bl dup) (s := (0, none, d))
    (fun s => LabelScan dir bl dup d s.1 s.2.1 s.2.2) (fun d' => ∃ slot indval, LabelScan dir bl dup d slot indval d')
    (fun s => (stubs s.2.2 dir bl).length - s.1)
    (by
      rintro ⟨slot, indval, s⟩ hscan
      by_cases hs : slot < (stubs s dir bl).length
      · obtain ⟨slot', indval', s', hrun, hscan', hv⟩ := hscan.pass habs hb hs
        exact .inr ⟨_, hrun, hscan', hv⟩
      · refine .inl ⟨s, ?_, slot, indval, hscan⟩
        have hlen : ¬ slot < ((blk s bl).edges dir).length := by rwa [← length_stubs]
        simp [eliminatePass, get_of_live ((hscan.core.live bl).mpr hb), hlen])
    (k := (stubs d dir bl).length + 1)
    ⟨hm, SameCore.refl d, fun _ h => h, by simp, by simp, rfl⟩ (by simp)
  refine ⟨d', ?_, hscan.matched, hscan.core, hscan.absorbed, hscan.back⟩
  simp only [blockEliminateDups, get_of_live hb, ok_bind]
  rw [← hrun, length_stubs]

theorem absorbedAt_filter {x : BlockId} {l : List (BlockId × Flags)} (hx : x ≠ bl) :
    AbsorbedAt x (l.filter fun a => a.1 ≠ bl) ↔ AbsorbedAt x l := by
  have hfind : (l.filter fun a => a.1 ≠ bl).find? (fun a => a.1 = x) = l.find? (fun a => a.1 = x) := by
    rw [List.find?_filter]
    congr 1
    funext a
    by_cases ha : a.1 = x
    · simp [ha, hx]
    · simp [ha]
  rw [AbsorbedAt, hfind]
  constructor
  · intro h a ha b hb hbx
    exact h a ha b (List.mem_filter.mpr ⟨hb, by simp [hbx, hx]⟩) hbx
  · intro h a ha b hb hbx
    exact h a ha b (List.mem_filter.mp hb).1 hbx

/-- One of the two halves of the deduplication, while labels agree. -/
theorem dedupDir_labels (hm : Matched Eq d ∅) (hb : d.Live bl) (hu : Unmarked d) (dir : Dir)
    (habs : ∀ x, 2 ≤ (points d dir bl).count x → AbsorbedAt x (stubs d dir bl)) :
    ∃ d', (do
        let (d, duplist) ← blockFindDups d ((blk d bl).edges dir) []
        duplist.foldlM (fun d dup => blockEliminateDups dir d bl dup) d) = .ok d' ∧
      Matched Eq d' ∅ ∧ SameCore d d' ∧
      (stubs d' dir.op bl).filter (fun a => a.1 ≠ bl) = (stubs d dir.op bl).filter (fun a => a.1 ≠ bl) := by
  have hl (e : BlockEdge) (he : e ∈ (blk d bl).edges dir) : d.Live e.point := by
    obtain ⟨i, hi⟩ := List.getElem?_of_mem he
    obtain ⟨-, f, hf, -⟩ := hm dir bl i e hi (by simp)
    exact live_of_edge? hf
  obtain ⟨dups, hfind, -, hmem⟩ := blockFindDups_spec hu _ hl
  obtain ⟨d', hrun, hm', hc', -, hback⟩ := foldlM_total
    (f := fun (d : Blocks) dup => blockEliminateDups dir d bl dup) (s := d)
    (fun _ s => Matched Eq s ∅ ∧ SameCore d s ∧ (∀ x, AbsorbedAt x (stubs d dir bl) → AbsorbedAt x (stubs s dir bl)) ∧
      (stubs s dir.op bl).filter (fun a => a.1 ≠ bl) = (stubs d dir.op bl).filter (fun a => a.1 ≠ bl)) dups
    (by
      rintro done dup rest heq s ⟨hms, hcs, has, hbs⟩
      have hdup : AbsorbedAt dup (stubs d dir bl) := habs dup ((hmem dup).mp (by simp [heq]))
      obtain ⟨s', hs', hms', hcs', has', hbs'⟩ := blockEliminateDups_labels hms ((hcs.live bl).mpr hb) (has dup hdup)
      exact ⟨s', hs', hms', hcs.trans hcs', fun x hx => has' x (has x hx), hbs'.trans hbs⟩)
    ⟨hm, SameCore.refl d, fun _ h => h, rfl⟩
  exact ⟨d', by simp [hfind, hrun], hm', hc', hback⟩

/-- Parallel edges at a block lose no bit of their labels with the first of
them. Of the parallel self loops only the order in the in list counts. -/
def DedupClean (d : Blocks) (bl : BlockId) : Prop :=
  (∀ x, AbsorbedAt x (stubs d .into bl)) ∧ ∀ x, x ≠ bl → AbsorbedAt x (stubs d .outof bl)

theorem Matched.reciprocal (hm : Matched Eq d ∅) : Reciprocal d := by
  intro dir b i e he hD
  obtain ⟨hD', e', he', hp, hr, -⟩ := hm dir b i e he hD
  exact ⟨hD', e', he', hp, hr, trivial⟩

theorem blockDedup_labels (hm : Matched Eq d ∅) (hb : d.Live bl) (hu : Unmarked d) (hclean : DedupClean d bl) :
    ∃ d', blockDedup d bl = .ok d' ∧ Matched Eq d' ∅ ∧ SameCore d d' := by
  obtain ⟨d₁, h₁, hm₁, hc₁, hback⟩ := dedupDir_labels hm hb hu .into fun x _ => hclean.1 x
  obtain ⟨d₁', h₁', -, -, hcount⟩ := dedupDir_spec (fun _ _ => trivial) hm.reciprocal hb hu .into
  obtain rfl : d₁ = d₁' := Except.ok.inj (h₁.symm.trans h₁')
  have hb₁ := (hc₁.live bl).mpr hb
  have habs : ∀ x, 2 ≤ (points d₁ .outof bl).count x → AbsorbedAt x (stubs d₁ .outof bl) := by
    intro x hx
    have hne : x ≠ bl := by
      rintro rfl
      have hone := hcount x x
      rw [if_pos rfl] at hone
      have hsame := hm₁.count_points .into x x
      rw [Dir.op_into] at hsame
      omega
    rw [← absorbedAt_filter hne, show Dir.outof = Dir.op .into from rfl, hback]
    exact (absorbedAt_filter hne).mpr (hclean.2 x hne)
  obtain ⟨d₂, h₂, hm₂, hc₂, -⟩ := dedupDir_labels hm₁ hb₁ (hu.of_core hc₁) .outof habs
  refine ⟨d₂, ?_, hm₂, hc₁.trans hc₂⟩
  obtain ⟨⟨s, dups⟩, hf, he⟩ := bind_eq_ok.mp h₁
  obtain ⟨⟨s', dups'⟩, hf', he'⟩ := bind_eq_ok.mp h₂
  simp only [FlowBlock.edges] at hf hf'
  simp only [blockDedup, get_of_live hb, ok_bind, hf, blockEliminateInDups, blockEliminateOutDups]
  simp only at he he'
  rw [he, ok_bind, get_of_live hb₁, ok_bind, hf', ok_bind, he']

end GhidraDecompiler.Block
