import GhidraDecompiler.RangeMap.Sewing
import Mathlib.Data.List.Induction

namespace GhidraDecompiler.RangeMap

open Fallible RangeLine RangeSubsort RangeRecord LawfulRangeLine

section Tree

variable {L S : Type} [LinearOrder L] [LinearOrder S] [RangeLine L] [LawfulRangeLine L]

theorem minusOne_plusOne {x z : L} (h : x < z) (hb : block x = block z) : minusOne (plusOne x) = x := by
  have hlt := lt_plusOne h hb
  have hb' : block x = block (plusOne x) := hb.trans (block_plusOne h hb).symm
  refine le_antisymm ?_ (le_minusOne hlt hb')
  exact not_lt.1 (mt (plusOne_le_iff h hb).2 (not_le.2 (minusOne_lt hlt hb')))

theorem Grid.sublist {tree tree' : List (AddrRange L S)} (h : Grid tree) (hs : tree'.Sublist tree) : Grid tree' :=
  ⟨h.sorted.sublist hs, fun e he => h.ordered e (hs.subset he), fun e he => h.oneBlock e (hs.subset he),
    fun e he f hf => h.apart e (hs.subset he) f (hs.subset hf)⟩

omit [RangeLine L] [LawfulRangeLine L] in
/-- When the scan finds no record that ends at the point, there is none among all the
parts that end there. -/
theorem scanLeft_spec {aminus1 : L} {before : List (AddrRange L S)} (hs : Sorted before) (rest : List (AddrRange L S)) :
    ∃ leftsew, scanLeft (before ++ rest) aminus1 before.length = .ok leftsew ∧
      (leftsew = true → (∀ x ∈ before, x.last ≤ aminus1) → ∀ x ∈ before, x.last = aminus1 → x.b ≠ aminus1) := by
  induction before using List.reverseRecOn generalizing rest with
  | nil => exact ⟨true, rfl, by simp⟩
  | append_singleton before x ih =>
      obtain ⟨hbefore, -, hlast⟩ := List.pairwise_append.1 hs
      have hread : getIdx (before ++ [x] ++ rest) before.length = .ok x :=
        getIdx_at (List.append_assoc before [x] rest) rfl
      rw [List.length_append, List.length_singleton, scanLeft, hread, ok_bind]
      by_cases hx : x.last = aminus1
      · rw [if_neg (not_not.2 hx)]
        by_cases hb : x.b = aminus1
        · exact ⟨false, by rw [if_pos hb]; rfl, by simp⟩
        · obtain ⟨leftsew, hrun, hspec⟩ := ih hbefore (x :: rest)
          refine ⟨leftsew, by rw [if_neg hb, ← hrun]; simp, fun htrue hle y hy hyl => ?_⟩
          rcases List.mem_append.1 hy with hy | hy
          · exact hspec htrue (fun z hz => hle z (by simp [hz])) y hy hyl
          · rw [List.mem_singleton.1 hy]
            exact hb
      · refine ⟨true, by rw [if_pos hx]; rfl, fun _ hle y hy hyl => ?_⟩
        have hxlt := lt_of_le_of_ne (hle x (by simp)) hx
        rcases List.mem_append.1 hy with hy | hy
        · exact absurd hyl ((last_le_of_key_le (hlast y hy x (by simp))).trans_lt hxlt).ne
        · exact absurd (List.mem_singleton.1 hy ▸ hyl) hx

/-- What the flags say after the parts of the record are gone. -/
structure Noted (id : Nat) (first last : L) (parts : List (AddrRange L S)) (st st' : Erasing L S) : Prop where
  leftsew : st'.leftsew = true → st.leftsew = true ∧ ∀ x ∈ parts, x.value ≠ id → x.a ≠ first
  leftoverlap : st'.leftoverlap = true → st.leftoverlap = true ∨ ∃ x ∈ parts, x.value ≠ id ∧ x.a < first
  rightsew : st'.rightsew = true → st.rightsew = true ∧ ∀ x ∈ parts, x.value ≠ id → x.b ≠ last
  rightoverlap : st'.rightoverlap = true → st.rightoverlap = true ∨ ∃ x ∈ parts, x.value ≠ id ∧ last < x.b

omit [LinearOrder S] [RangeLine L] [LawfulRangeLine L] in
theorem Noted.cons_gone {id : Nat} {first last : L} {e : AddrRange L S} {parts : List (AddrRange L S)}
    {st st' : Erasing L S} (he : e.value = id) (h : Noted id first last parts st st') :
    Noted id first last (e :: parts) st st' := by
  have hall {P : AddrRange L S → Prop} (hP : ∀ x ∈ parts, x.value ≠ id → P x) : ∀ x ∈ e :: parts, x.value ≠ id → P x := by
    intro x hx hv
    rcases List.mem_cons.1 hx with rfl | hx
    · exact absurd he hv
    · exact hP x hx hv
  refine ⟨fun hs => (h.leftsew hs).imp_right hall, fun hs => (h.leftoverlap hs).imp_right ?_,
    fun hs => (h.rightsew hs).imp_right hall, fun hs => (h.rightoverlap hs).imp_right ?_⟩
  · exact fun ⟨x, hx, hP⟩ => ⟨x, List.mem_cons_of_mem e hx, hP⟩
  · exact fun ⟨x, hx, hP⟩ => ⟨x, List.mem_cons_of_mem e hx, hP⟩

omit [LinearOrder S] [RangeLine L] [LawfulRangeLine L] in
theorem Noted.cons_kept {id : Nat} {first last : L} {e : AddrRange L S} {parts : List (AddrRange L S)}
    {st st' : Erasing L S} (he : e.value ≠ id) (h : Noted id first last parts (st.note first last e) st') :
    Noted id first last (e :: parts) st st' := by
  refine ⟨fun hs => ?_, fun hs => ?_, fun hs => ?_, fun hs => ?_⟩
  · obtain ⟨hst, hparts⟩ := h.leftsew hs
    simp only [Erasing.note, Bool.and_eq_true, Bool.not_eq_true', decide_eq_false_iff_not] at hst
    refine ⟨hst.1, fun x hx hv => ?_⟩
    rcases List.mem_cons.1 hx with rfl | hx
    · exact hst.2
    · exact hparts x hx hv
  · rcases h.leftoverlap hs with hst | ⟨x, hx, hP⟩
    · simp only [Erasing.note, Bool.or_eq_true, decide_eq_true_eq] at hst
      exact hst.imp_right fun hlt => ⟨e, List.mem_cons_self, he, hlt⟩
    · exact .inr ⟨x, List.mem_cons_of_mem e hx, hP⟩
  · obtain ⟨hst, hparts⟩ := h.rightsew hs
    simp only [Erasing.note, Bool.and_eq_true, Bool.not_eq_true', decide_eq_false_iff_not] at hst
    refine ⟨hst.1, fun x hx hv => ?_⟩
    rcases List.mem_cons.1 hx with rfl | hx
    · exact hst.2
    · exact hparts x hx hv
  · rcases h.rightoverlap hs with hst | ⟨x, hx, hP⟩
    · simp only [Erasing.note, Bool.or_eq_true, decide_eq_true_eq] at hst
      exact hst.imp_right fun hlt => ⟨e, List.mem_cons_self, he, hlt⟩
    · exact .inr ⟨x, List.mem_cons_of_mem e hx, hP⟩

/-- The state after the part at the index was taken out or noted. -/
def Erasing.next (id : Nat) (first last : L) (st : Erasing L S) (range : AddrRange L S) : Erasing L S :=
  if range.value = id then { st with tree := st.tree.eraseIdx st.low }
  else { st.note first last range with low := st.low + 1 }

omit [LinearOrder S] [RangeLine L] [LawfulRangeLine L] in
theorem erasePart_eq {id : Nat} {first last : L} {st : Erasing L S} {e : AddrRange L S} {before rest : List (AddrRange L S)}
    (hread : getIdx st.tree st.low = .ok e) (htree : (st.next id first last e).tree = before ++ rest)
    (hlow : (st.next id first last e).low = before.length) :
    erasePart id first last st = .ok (match rest.head? with
      | some d => if d.first ≤ last then .again (st.next id first last e) else .leave (st.next id first last e)
      | none => .leave (st.next id first last e)) := by
  have hnext : erasePart id first last st = (if (st.next id first last e).low ≠ (st.next id first last e).tree.length then do
      let range ← getIdx (st.next id first last e).tree (st.next id first last e).low
      if range.first ≤ last then pure (.again (st.next id first last e)) else pure (.leave (st.next id first last e))
    else pure (.leave (st.next id first last e))) := by
    rw [erasePart, hread, ok_bind]
    rfl
  rw [hnext, htree, hlow]
  cases rest with
  | nil => simp
  | cons d rest =>
      rw [if_pos (by simp), getIdx_at rfl rfl, ok_bind]
      by_cases hd : d.first ≤ last
      · simp [hd]
      · simp [hd]

omit [LinearOrder S] [RangeLine L] [LawfulRangeLine L] in
/-- The loop takes the parts of the record out and notes the others. -/
theorem erasePart_loop {id : Nat} {first last : L} {before parts after : List (AddrRange L S)} {st : Erasing L S}
    {fuel : Nat} (hne : parts ≠ []) (htree : st.tree = before ++ (parts ++ after)) (hlow : st.low = before.length)
    (hparts : ∀ x ∈ parts, x.first ≤ last) (hafter : ∀ x ∈ after, last < x.first) (hfuel : parts.length ≤ fuel) :
    ∃ st', loop (erasePart id first last) fuel st = .ok st' ∧
      st'.tree = before ++ (parts.filter (·.value ≠ id) ++ after) ∧
      st'.low = (before ++ parts.filter (·.value ≠ id)).length ∧ Noted id first last parts st st' := by
  induction parts generalizing before st fuel with
  | nil => exact absurd rfl hne
  | cons e parts ih =>
      obtain ⟨fuel, rfl⟩ : ∃ k, fuel = k + 1 := ⟨fuel - 1, by simp at hfuel; omega⟩
      have hread : getIdx st.tree st.low = .ok e := getIdx_at htree hlow.symm
      -- the part is either gone or behind the index
      obtain ⟨before', hfilter, htree', hlow', hnoted⟩ : ∃ before',
          before' ++ parts.filter (·.value ≠ id) = before ++ (e :: parts).filter (·.value ≠ id) ∧
          (st.next id first last e).tree = before' ++ (parts ++ after) ∧ (st.next id first last e).low = before'.length ∧
          ∀ st', Noted id first last parts (st.next id first last e) st' → Noted id first last (e :: parts) st st' := by
        by_cases hv : e.value = id
        · refine ⟨before, by simp [hv], ?_, by simp [Erasing.next, hv, hlow], fun st' h => ?_⟩
          · simp only [Erasing.next, if_pos hv, htree, hlow]
            rw [List.eraseIdx_append_of_length_le le_rfl, Nat.sub_self]
            rfl
          · rw [Erasing.next, if_pos hv] at h
            exact .cons_gone hv ⟨h.leftsew, h.leftoverlap, h.rightsew, h.rightoverlap⟩
        · refine ⟨before ++ [e], by simp [hv], ?_, by simp [Erasing.next, hv, hlow], fun st' h => ?_⟩
          · simp [Erasing.next, hv, Erasing.note, htree]
          · rw [Erasing.next, if_neg hv] at h
            exact .cons_kept hv ⟨h.leftsew, h.leftoverlap, h.rightsew, h.rightoverlap⟩
      have hpass := erasePart_eq hread htree' hlow'
      cases parts with
      | nil =>
          have hleave : erasePart id first last st = .ok (.leave (st.next id first last e)) := by
            rw [hpass]
            cases after with
            | nil => rfl
            | cons d after => simp [not_le.2 (hafter d (by simp))]
          refine ⟨_, loop_succ_leave hleave fuel, ?_, ?_, hnoted _ ⟨?_, ?_, ?_, ?_⟩⟩
          · rw [htree', List.nil_append, ← List.append_assoc, ← hfilter, List.filter_nil, List.append_nil]
          · rw [hlow', ← hfilter, List.filter_nil, List.append_nil]
          · exact fun hs => ⟨hs, by simp⟩
          · exact fun hs => .inl hs
          · exact fun hs => ⟨hs, by simp⟩
          · exact fun hs => .inl hs
      | cons c parts =>
          have hagain : erasePart id first last st = .ok (.again (st.next id first last e)) := by
            rw [hpass]
            simp [hparts c (by simp)]
          obtain ⟨st', hrun, ht, hl, hn⟩ := ih (by simp) htree' hlow' (fun x hx => hparts x (by simp [hx]))
            (by simpa using hfuel)
          refine ⟨st', by rw [loop_succ_again hagain, hrun], ?_, ?_, hnoted st' hn⟩
          · rw [ht, ← List.append_assoc, hfilter, List.append_assoc]
          · rw [hl, hfilter]

end Tree

end GhidraDecompiler.RangeMap
