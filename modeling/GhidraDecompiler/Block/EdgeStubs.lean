import GhidraDecompiler.Block.EdgeDedup

namespace GhidraDecompiler.Block

open Fallible FlowBlock

variable {d d' : Blocks} {dir : Dir} {b c bl dup : BlockId} {i j slot : Nat} {e : BlockEdge}

/-- What an edge list holds apart from positions in other lists. -/
def stub (e : BlockEdge) : BlockId × Flags := (e.point, e.label)

def stubs (d : Blocks) (dir : Dir) (b : BlockId) : List (BlockId × Flags) := ((blk d b).edges dir).map stub

theorem stubs_getElem? (d : Blocks) (dir : Dir) (b : BlockId) (i : Nat) :
    (stubs d dir b)[i]? = (edge? d dir b i).map stub := by
  simp [stubs, edge?]

theorem map_fst_stubs (d : Blocks) (dir : Dir) (b : BlockId) : (stubs d dir b).map Prod.fst = points d dir b := by
  simp [stubs, points, stub, Function.comp_def]

theorem mem_stubs {s : BlockId × Flags} : s ∈ stubs d dir b ↔ ∃ i e, edge? d dir b i = some e ∧ stub e = s := by
  rw [stubs, List.mem_map]
  constructor
  · rintro ⟨e, he, rfl⟩
    obtain ⟨i, hi⟩ := List.getElem?_of_mem he
    exact ⟨i, e, hi, rfl⟩
  · rintro ⟨i, e, he, rfl⟩
    exact ⟨e, List.mem_of_getElem? he, rfl⟩

theorem get_eq_ok {x : FlowBlock} (h : d.get b = .ok x) : d.Live b ∧ x = blk d b := by
  have hlive : d.Live b := by
    by_contra hdead
    simp [Arena.Live] at hdead
    simp [Arena.get, hdead] at h
  rw [get_of_live hlive, Except.ok.injEq] at h
  exact ⟨hlive, h.symm⟩

theorem modify_eq_ok {f : FlowBlock → FlowBlock} (h : d.modify b f = .ok d') : d.Live b ∧ d' = d.update b f := by
  by_cases hlive : d.Live b
  · rw [Arena.modify_eq _ hlive, Except.ok.injEq] at h
    exact ⟨hlive, h.symm⟩
  · simp [Arena.modify, hlive] at h

theorem stubs_update_setEdges (hb : d.Live b) (f : FlowBlock → List BlockEdge) (dir' : Dir) (c : BlockId) :
    stubs (d.update b fun x => x.setEdges dir (f x)) dir' c =
      if dir' = dir ∧ c = b then (f (blk d b)).map stub else stubs d dir' c := by
  rw [stubs, edges_update_setEdges hb]
  split
  · rfl
  · rfl

/-- A change of the reverse index shows in no list. -/
theorem modifyEdge_stubs {f : BlockEdge → BlockEdge} (hf : ∀ e, stub (f e) = stub e) (h : modifyEdge d dir b i f = .ok d')
    (dir' : Dir) (c : BlockId) : stubs d' dir' c = stubs d dir' c := by
  obtain ⟨x, hget, hbody⟩ := bind_eq_ok.mp h
  obtain ⟨hlive, rfl⟩ := get_eq_ok hget
  obtain ⟨edge, hedge, hmodify⟩ := bind_eq_ok.mp hbody
  obtain ⟨-, rfl⟩ := modify_eq_ok hmodify
  rw [stubs_update_setEdges hlive fun x => (x.edges dir).set i (f edge)]
  split
  · next hc =>
      obtain ⟨rfl, rfl⟩ := hc
      rw [List.map_set, hf, stubs]
      refine List.ext_getElem? fun j => ?_
      rw [getIdx_ok_iff] at hedge
      rw [List.getElem?_set, List.getElem?_map]
      split
      · next hij =>
          subst hij
          rw [hedge]
          have hlt : i < ((blk d c).edges dir').length := (List.getElem?_eq_some_iff.mp hedge).1
          simp [hlt]
      · rfl
  · rfl

theorem shiftEdge_stubs (h : shiftEdge dir bl d slot = .ok d') :
    ∃ a, (stubs d dir bl)[slot + 1]? = some a ∧
      ∀ dir' c, stubs d' dir' c = if dir' = dir ∧ c = bl then (stubs d dir bl).set slot a else stubs d dir' c := by
  obtain ⟨x, hget, hbody⟩ := bind_eq_ok.mp h
  obtain ⟨hlive, rfl⟩ := get_eq_ok hget
  obtain ⟨edge, hedge, hrest⟩ := bind_eq_ok.mp hbody
  obtain ⟨d₁, hset, hback⟩ := bind_eq_ok.mp hrest
  obtain ⟨-, rfl⟩ := modify_eq_ok hset
  rw [getIdx_ok_iff] at hedge
  refine ⟨stub edge, by rw [stubs_getElem?, edge?, hedge]; rfl, fun dir' c => ?_⟩
  rw [modifyEdge_stubs (f := fun e => { e with reverseIndex := e.reverseIndex - 1 }) (fun _ => rfl) hback, stubs_update_setEdges hlive fun x => (x.edges dir).set slot edge, List.map_set]
  rfl

theorem blockHalfDeleteEdge_stubs (h : blockHalfDeleteEdge dir d bl slot = .ok d') (hslot : slot < (stubs d dir bl).length)
    (dir' : Dir) (c : BlockId) :
    stubs d' dir' c = if dir' = dir ∧ c = bl then (stubs d dir bl).eraseIdx slot else stubs d dir' c := by
  obtain ⟨x, hget, hbody⟩ := bind_eq_ok.mp h
  obtain ⟨-, rfl⟩ := get_eq_ok hget
  obtain ⟨d₁, hfold, hdrop⟩ := bind_eq_ok.mp hbody
  obtain ⟨hlive, rfl⟩ := modify_eq_ok hdrop
  -- the slot that is still to go moves up by one in each pass
  have hinv : ∀ n slot d, (List.range' slot n).foldlM (shiftEdge dir bl) d = .ok d₁ →
      (stubs d₁ dir bl).eraseIdx (slot + n) = (stubs d dir bl).eraseIdx slot ∧
        (stubs d₁ dir bl).length = (stubs d dir bl).length ∧
        ∀ dir' c, ¬ (dir' = dir ∧ c = bl) → stubs d₁ dir' c = stubs d dir' c := by
    intro n
    induction n with
    | zero =>
        intro slot d h
        simp only [List.range'_zero, List.foldlM_nil, pure_eq_ok, Except.ok.injEq] at h
        subst h
        exact ⟨rfl, rfl, fun _ _ _ => rfl⟩
    | succ n ih =>
        intro slot d h
        rw [List.range'_succ, List.foldlM_cons] at h
        obtain ⟨d₂, hshift, h⟩ := bind_eq_ok.mp h
        obtain ⟨a, ha, hstubs⟩ := shiftEdge_stubs hshift
        obtain ⟨herase, hlen, hother⟩ := ih (slot + 1) d₂ h
        have hself : stubs d₂ dir bl = (stubs d dir bl).set slot a := by rw [hstubs, if_pos ⟨rfl, rfl⟩]
        refine ⟨?_, ?_, fun dir' c hc => ?_⟩
        · rw [show slot + (n + 1) = slot + 1 + n by omega, herase, hself, eraseIdx_set_succ _ _ _ ha]
        · rw [hlen, hself, List.length_set]
        · rw [hother dir' c hc, hstubs, if_neg hc]
  have hlen : ((blk d bl).edges dir).length = (stubs d dir bl).length := by simp [stubs]
  rw [hlen] at hfold
  obtain ⟨herase, hlen', hother⟩ := hinv _ _ _ hfold
  rw [stubs_update_setEdges hlive fun x => (x.edges dir).dropLast]
  split
  · rw [List.map_dropLast, show List.map stub _ = stubs d₁ dir bl from rfl, ← herase,
      show slot + ((stubs d dir bl).length - 1 - slot) = (stubs d₁ dir bl).length - 1 by omega, List.eraseIdx_length_sub_one]
  · next hc => exact hother dir' c hc

theorem blockRemoveDirEdge_stubs (h : blockRemoveDirEdge dir d bl slot = .ok d') (he : edge? d dir bl slot = some e)
    (hrev : e.reverseIndex < (stubs d dir.op e.point).length) (dir' : Dir) (c : BlockId) :
    stubs d' dir' c = if dir' = dir ∧ c = bl then (stubs d dir bl).eraseIdx slot
      else if dir' = dir.op ∧ c = e.point then (stubs d dir' c).eraseIdx e.reverseIndex else stubs d dir' c := by
  obtain ⟨x, hget, hbody⟩ := bind_eq_ok.mp h
  obtain ⟨-, rfl⟩ := get_eq_ok hget
  obtain ⟨edge, hedge, hrest⟩ := bind_eq_ok.mp hbody
  obtain ⟨d₁, hfirst, hsecond⟩ := bind_eq_ok.mp hrest
  rw [getIdx_ok_iff] at hedge
  obtain rfl : edge = e := Option.some_inj.mp (hedge.symm.trans he)
  have hslot : slot < (stubs d dir bl).length := by
    simpa [stubs] using (List.getElem?_eq_some_iff.mp hedge).1
  have h₁ := blockHalfDeleteEdge_stubs hfirst hslot
  have hop : stubs d₁ dir.op edge.point = stubs d dir.op edge.point := by
    rw [h₁, if_neg]
    rintro ⟨hdir, -⟩
    cases dir <;> cases hdir
  have h₂ := blockHalfDeleteEdge_stubs hsecond (by rwa [hop])
  rw [h₂, hop]
  by_cases hself : dir' = dir ∧ c = bl
  · rw [if_pos hself, if_neg, h₁, if_pos hself]
    rintro ⟨hdir, -⟩
    rw [hself.1] at hdir
    cases dir <;> cases hdir
  · rw [if_neg hself, h₁, if_neg hself]
    split
    · next hc => rw [hc.1, hc.2]
    · rfl

end GhidraDecompiler.Block
