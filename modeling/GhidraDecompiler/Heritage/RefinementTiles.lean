import GhidraDecompiler.Heritage.Refinement

namespace GhidraDecompiler.Heritage

open Fallible Tiling

variable {addr : Address} {size : Nat} {refine : List Nat} {E Edge : Nat → Prop}

/-- The varnode starts in the range and does not reach past its end. -/
def Inside (addr : Address) (size : Nat) (vn : Storage) : Prop :=
  vn.addr.space = addr.space ∧ addr.offset ≤ vn.addr.offset ∧ vn.addr.offset < addr.offset + size ∧
    vn.addr.offset + vn.size ≤ addr.offset + size

instance (vn : Storage) : Decidable (Inside addr size vn) := inferInstanceAs (Decidable (_ ∧ _))

def span (s : Storage) : Nat × Nat := (s.addr.offset, s.size)

def cellAt (refine : List Nat) (b : Nat) : Nat := refine.getD b 0

theorem getIdx_cellAt {b : Nat} (h : b < refine.length) : getIdx refine b = .ok (cellAt refine b) := by
  rw [getIdx_ok_iff, cellAt, List.getD_eq_getElem?_getD, List.getElem?_eq_getElem h, Option.getD_some]

theorem cellAt_set {p : Nat} (h : p < refine.length) (v : Nat) :
    cellAt (refine.set p v) = Function.update (cellAt refine) p v := by
  funext b
  by_cases hb : b = p
  · subst hb
    simp [cellAt, List.getD_eq_getElem?_getD, h]
  · rw [Function.update_of_ne hb]
    simp [cellAt, List.getD_eq_getElem?_getD, List.getElem?_set_ne (Ne.symm hb)]

theorem cellAt_dropLast {b : Nat} (h : b < refine.length - 1) : cellAt refine.dropLast b = cellAt refine b := by
  rw [cellAt, cellAt, List.getD_eq_getElem?_getD, List.getD_eq_getElem?_getD, List.getElem?_dropLast, if_pos h]

theorem diff_eq {a b : Nat} (hle : b ≤ a) (hsmall : a - b < 2 ^ 32) :
    (a + 2 ^ 64 - b) % 2 ^ 64 % 2 ^ 32 = a - b := by
  omega

theorem wrapDiff_eq {spc : AddrSpace} {a b : Nat} (hle : b ≤ a) (ha : a ≤ spc.highest) (hsmall : a - b < 2 ^ 32) :
    wrapDiff ⟨spc, b⟩ ⟨spc, a⟩ = a - b := by
  rw [wrapDiff, spc.wrapOffset_sub ha (Nat.le_trans hle ha), if_pos hle, Nat.mod_eq_of_lt hsmall]

/-- The entries that are not zero are those of the marked positions. -/
structure Marked (size : Nat) (E : Nat → Prop) (refine : List Nat) : Prop where
  length_eq : refine.length = size + 1
  marked : ∀ i, i ≤ size → (cellAt refine i ≠ 0 ↔ E i)

theorem Marked.replicate (size : Nat) : Marked size (fun _ => False) (List.replicate (size + 1) 0) := by
  refine ⟨List.length_replicate, fun i hi => ?_⟩
  simp [cellAt, List.getD_eq_getElem?_getD, Nat.lt_succ_of_le hi]

theorem Marked.set (h : Marked size E refine) {p : Nat} (hp : p ≤ size) :
    setIdx refine p 1 = .ok (refine.set p 1) ∧ Marked size (fun i => E i ∨ i = p) (refine.set p 1) := by
  have hlen : p < refine.length := by
    rw [h.length_eq]
    omega
  refine ⟨setIdx_eq 1 hlen, ?_, fun i hi => ?_⟩
  · rw [List.length_set, h.length_eq]
  · rw [cellAt_set hlen]
    by_cases hip : i = p
    · simp [hip]
    · rw [Function.update_of_ne hip, h.marked i hi, or_iff_left hip]

/-- The positions at which a varnode starts or ends. -/
def IsEnd (addr : Address) (vns : List Storage) (i : Nat) : Prop :=
  ∃ vn ∈ vns, i = vn.addr.offset - addr.offset ∨ i = vn.addr.offset - addr.offset + vn.size

theorem Marked.congr {E' : Nat → Prop} (h : Marked size E refine) (hE : ∀ i, E i ↔ E' i) : Marked size E' refine :=
  ⟨h.length_eq, fun i hi => (h.marked i hi).trans (hE i)⟩

theorem buildRefinement_spec (hsize : size ≤ 1024) {vns : List Storage} (hin : ∀ vn ∈ vns, Inside addr size vn) (h : Marked size E refine) :
    ∃ refine', buildRefinement refine addr vns = .ok refine' ∧
      Marked size (fun i => E i ∨ IsEnd addr vns i) refine' := by
  refine foldlM_total (f := buildStep addr) (fun seen r => Marked size (fun i => E i ∨ IsEnd addr seen i) r) vns
    (fun before vn after hl r hr => ?_) (h.congr fun i => by simp [IsEnd])
  obtain ⟨-, hle, hlt, hend⟩ := hin vn (by simp [hl])
  obtain ⟨hset, hr'⟩ := hr.set (p := vn.addr.offset - addr.offset) (by omega)
  obtain ⟨hset', hr''⟩ := hr'.set (p := vn.addr.offset - addr.offset + vn.size) (by omega)
  refine ⟨_, ?_, hr''.congr fun i => ?_⟩
  · rw [buildStep, diff_eq hle (by omega), hset, ok_bind, hset']
  · simp only [IsEnd, List.mem_append, List.mem_singleton, or_and_right, exists_or, exists_eq_left, or_assoc]

/-- The ends of the varnodes together with those of the range. -/
def IsEdge (addr : Address) (size : Nat) (vns : List Storage) (i : Nat) : Prop := i = 0 ∨ i = size ∨ IsEnd addr vns i

/-- The loop that writes sizes: the cells before the last mark found are done
and the marks behind the current position are as they were. -/
structure Sizing (size : Nat) (E : Nat → Prop) (k : Nat) (st : List Nat × Nat) : Prop where
  length_eq : st.1.length = size
  last_le : st.2 ≤ k
  last_edge : st.2 = 0 ∨ E st.2
  done : ∀ b, (b = 0 ∨ E b) → b < st.2 → 0 < cellAt st.1 b ∧ E (b + cellAt st.1 b) ∧
    b + cellAt st.1 b ≤ st.2 ∧ ∀ c, E c → b < c → b + cellAt st.1 b ≤ c
  gap : ∀ b, st.2 < b → b ≤ k → ¬ E b
  todo : ∀ b, k < b → b < size → (cellAt st.1 b ≠ 0 ↔ E b)

theorem Sizing.step {k : Nat} {st : List Nat × Nat} (h : Sizing size E k st) (hk : k + 1 < size) :
    ∃ st', sizeStep st (1 + k) = .ok st' ∧ Sizing size E (k + 1) st' := by
  obtain ⟨refine, lastpos⟩ := st
  obtain ⟨hlen, hle, hedge, hdone, hgap, htodo⟩ := h
  dsimp only at hlen hle hedge hdone hgap htodo
  have hread : getIdx refine (1 + k) = .ok (cellAt refine (1 + k)) := getIdx_cellAt (by omega)
  have hmark := htodo (1 + k) (by omega) (by omega)
  by_cases hz : cellAt refine (1 + k) = 0
  · refine ⟨(refine, lastpos), by simp [sizeStep, hread, hz], hlen, by dsimp only; omega, hedge, hdone, ?_, ?_⟩
    · intro b hlt hb
      rcases Nat.lt_or_eq_of_le hb with hb | rfl
      · exact hgap b hlt (by omega)
      · rw [Nat.add_comm] at hmark
        exact fun he => hmark.2 he (by rwa [Nat.add_comm])
    · exact fun b hb hbs => htodo b (by omega) hbs
  · have hlast : lastpos < refine.length := by omega
    refine ⟨(refine.set lastpos (1 + k - lastpos), 1 + k), ?_, ?_, ?_, .inr (hmark.1 hz), ?_, ?_, ?_⟩
    · simp [sizeStep, hread, hz, setIdx_eq _ hlast]
    · rw [List.length_set, hlen]
    · exact Nat.le_of_eq (Nat.add_comm 1 k)
    · intro b hb hlt
      dsimp only at hlt ⊢
      rw [cellAt_set hlast]
      rcases Nat.lt_trichotomy b lastpos with hbl | rfl | hbl
      · rw [Function.update_of_ne (Nat.ne_of_lt hbl)]
        obtain ⟨hpos, hend, hbefore, hnext⟩ := hdone b hb hbl
        exact ⟨hpos, hend, by omega, hnext⟩
      · rw [Function.update_self, show b + (1 + k - b) = 1 + k by omega]
        refine ⟨by omega, hmark.1 hz, Nat.le_refl _, fun c hc hbc => ?_⟩
        by_contra hlt'
        exact hgap c hbc (by omega) hc
      · exact absurd (hb.resolve_left (by omega)) (hgap b hbl (by omega))
    · intro b hlt hb
      dsimp only at hlt
      omega
    · intro b hb hbs
      rw [cellAt_set hlast, Function.update_of_ne (by omega)]
      exact htodo b (by omega) hbs

/-- The size of the last cell completes the array. -/
theorem Sizing.finish {k lastpos : Nat} (h : Sizing size E k (refine, lastpos)) (hk : k + 1 = size)
    (hlast : lastpos ≠ 0) (hE : ∀ b, Edge b ↔ b = 0 ∨ b = size ∨ E b) :
    setIdx refine lastpos (size - lastpos) = .ok (refine.set lastpos (size - lastpos)) ∧
      (refine.set lastpos (size - lastpos)).length = size ∧
      Cells Edge size (cellAt (refine.set lastpos (size - lastpos))) := by
  obtain ⟨hlen, hle, hedge, hdone, hgap, -⟩ := h
  dsimp only at hlen hle hedge hdone hgap
  have hlt : lastpos < refine.length := by omega
  have hcell {b : Nat} (hb : Edge b) (hbs : b < size) :
      0 < cellAt (refine.set lastpos (size - lastpos)) b ∧
      Edge (b + cellAt (refine.set lastpos (size - lastpos)) b) ∧
      b + cellAt (refine.set lastpos (size - lastpos)) b ≤ size ∧
      ∀ c, Edge c → b < c → b + cellAt (refine.set lastpos (size - lastpos)) b ≤ c := by
    rw [cellAt_set hlt]
    have hb' : b = 0 ∨ E b := by
      rcases (hE b).1 hb with h0 | hs | he
      · exact .inl h0
      · omega
      · exact .inr he
    rcases Nat.lt_trichotomy b lastpos with hbl | rfl | hbl
    · rw [Function.update_of_ne (Nat.ne_of_lt hbl)]
      obtain ⟨hpos, hend, hbefore, hnext⟩ := hdone b hb' hbl
      refine ⟨hpos, (hE _).2 (.inr (.inr hend)), by omega, fun c hc hbc => ?_⟩
      rcases (hE c).1 hc with h0 | hs | he
      · omega
      · omega
      · exact hnext c he hbc
    · rw [Function.update_self, show b + (size - b) = size by omega]
      refine ⟨by omega, (hE _).2 (.inr (.inl rfl)), Nat.le_refl _, fun c hc hbc => ?_⟩
      rcases (hE c).1 hc with h0 | hs | he
      · omega
      · omega
      · by_contra hcs
        exact hgap c hbc (by omega) he
    · exact absurd (hb'.resolve_left (by omega)) (hgap b hbl (by omega))
  exact ⟨setIdx_eq _ hlt, by rw [List.length_set, hlen],
    .of_next (fun b hb hbs => (hcell hb hbs).1) (fun b hb hbs => (hcell hb hbs).2.1)
      (fun b hb hbs => (hcell hb hbs).2.2.1) (fun b c hb hbs hc hbc => (hcell hb hbs).2.2.2 c hc hbc)⟩

/-- Fusing cells of one and three bytes keeps the cells nested. An edge inside
of a fused cell keeps its own size, so that a varnode can still start there. -/
theorem remove13Refinement_spec (h : Cells Edge size (cellAt refine)) (hlen : refine.length = size) (h0 : Edge 0)
    (hsize : 0 < size) :
    ∃ refine', remove13Refinement refine = .ok refine' ∧ refine'.length = size ∧ Cells Edge size (cellAt refine') := by
  let Inv : Nat → Fusing → Prop := fun n st => st.refine.length = size ∧ Cells Edge size (cellAt st.refine) ∧
    n = size - st.pos ∧ ∃ p, Edge p ∧ p < size ∧ cellAt st.refine p = st.lastsize ∧ st.pos = p + st.lastsize ∧
      Cells.Cut Edge (cellAt st.refine) p
  let Post : List Nat → Prop := fun r => r.length = size ∧ Cells Edge size (cellAt r)
  have hbody (n : Nat) (st : Fusing) (hst : Inv n st) : (∃ r, remove13Pass st = .ok (.leave r) ∧ Post r) ∨
      ∃ st' m, remove13Pass st = .ok (.again st') ∧ m < n ∧ Inv m st' := by
    obtain ⟨r, pos, lastsize⟩ := st
    obtain ⟨hr, hcells, rfl, p, hp, hps, hcell, hpos, hcut⟩ := hst
    dsimp only at hr hcells hcell hpos hcut ⊢
    subst hcell hpos
    by_cases hend : p + cellAt r p < size
    · have hnext : Edge (p + cellAt r p) := hcells.edge p hp hps
      have hcur : 0 < cellAt r (p + cellAt r p) := hcells.pos _ hnext hend
      have hread : getIdx r (p + cellAt r p) = .ok (cellAt r (p + cellAt r p)) := getIdx_cellAt (by omega)
      right
      simp only [remove13Pass, hr, if_pos hend, hread, ok_bind, if_neg (Nat.ne_of_gt hcur), Nat.add_sub_cancel]
      by_cases hfuse : cellAt r p = 1 ∧ cellAt r (p + cellAt r p) = 3 ∨ cellAt r p = 3 ∧ cellAt r (p + cellAt r p) = 1
      · have hfour : cellAt r p + cellAt r (p + cellAt r p) = 4 := by omega
        have hfused := hcells.fuse hp hcut hend
        have hplt : p < r.length := by omega
        rw [hfour, ← cellAt_set hplt] at hfused
        rw [if_pos hfuse, setIdx_eq _ hplt, ok_bind]
        refine ⟨_, _, rfl, ?_, by rw [List.length_set, hr], hfused, rfl, p, hp, hps, ?_, ?_, ?_⟩
        · dsimp only
          omega
        · rw [cellAt_set hplt, Function.update_self]
        · dsimp only
          omega
        · rw [cellAt_set hplt]
          exact Cells.cut_fuse hcut 4
      · rw [if_neg hfuse]
        exact ⟨_, _, rfl, by dsimp only; omega, hr, hcells, rfl, p + cellAt r p, hnext, hend, rfl, rfl,
          hcells.cut_next hp hps hcut⟩
    · exact .inl ⟨r, by simp [remove13Pass, hr, hend], hr, hcells⟩
  have hne : refine ≠ [] := List.ne_nil_of_length_pos (by omega)
  rw [remove13Refinement, if_neg hne, getIdx_cellAt (by omega), ok_bind]
  exact loop_bounded Inv Post hbody ⟨hlen, h, rfl, 0, h0, hsize, rfl, (Nat.zero_add _).symm, .zero⟩ (by omega)

/-- The pieces lie in the space of the varnode, start at it, follow one another
and end where it ends. -/
def CutInto (vn : Storage) (pieces : List Storage) : Prop :=
  (∀ p ∈ pieces, p.addr.space = vn.addr.space) ∧
    Tiles vn.addr.offset (vn.addr.offset + vn.size) (pieces.map span)

def FitsCell (cells : List Storage) (vn : Storage) : Prop :=
  ∃ c ∈ cells, c.addr.space = vn.addr.space ∧ c.addr.offset ≤ vn.addr.offset ∧
    vn.addr.offset + vn.size ≤ c.addr.offset + c.size

theorem splitByRefinement_spec (h : Cells Edge size (cellAt refine)) (hlen : refine.length = size)
    (hsize : size ≤ 1024) (hfit : addr.offset + size ≤ addr.space.highest + 1) {vn : Storage}
    (hvn : Inside addr size vn) (hstart : Edge (vn.addr.offset - addr.offset)) :
    ∃ pieces, splitByRefinement vn addr refine = .ok pieces ∧
      (pieces = [] ∧ vn.size ≤ cellAt refine (vn.addr.offset - addr.offset) ∨ pieces ≠ [] ∧ CutInto vn pieces) := by
  obtain ⟨spc, base⟩ := addr
  obtain ⟨⟨spc', off⟩, len⟩ := vn
  obtain ⟨rfl, hle, hlt, hend⟩ := hvn
  dsimp only at hle hlt hend hstart hfit ⊢
  have hread {q : Nat} (hbq : base ≤ q) (hq : q < base + size) :
      getIdx refine (wrapDiff ⟨spc', base⟩ ⟨spc', q⟩) = .ok (cellAt refine (q - base)) := by
    rw [wrapDiff_eq hbq (by omega) (by omega), getIdx_cellAt (by omega)]
  rw [splitByRefinement, hread hle hlt, ok_bind]
  by_cases hone : len ≤ cellAt refine (off - base)
  · exact ⟨[], by simp only [if_pos hone]; rfl, .inl ⟨rfl, hone⟩⟩
  · rw [if_neg hone]
    have hcell := h.pos _ hstart (by omega)
    let Inv : Nat → Splitting → Prop := fun n st => n = st.sz ∧ st.curaddr.space = spc' ∧ off ≤ st.curaddr.offset ∧
      st.curaddr.offset + st.cutsz + st.sz = off + len ∧
      (0 < st.sz → Edge (st.curaddr.offset + st.cutsz - base)) ∧
      (∀ p ∈ st.split, p.addr.space = spc') ∧ st.split ≠ [] ∧
      Tiles off (st.curaddr.offset + st.cutsz) (st.split.map span)
    let Post : List Storage → Prop := fun pieces => pieces ≠ [] ∧ CutInto ⟨⟨spc', off⟩, len⟩ pieces
    have hbody (n : Nat) (st : Splitting) (hst : Inv n st) :
        (∃ r, splitPass ⟨spc', base⟩ refine st = .ok (.leave r) ∧ Post r) ∨
        ∃ st' m, splitPass ⟨spc', base⟩ refine st = .ok (.again st') ∧ m < n ∧ Inv m st' := by
      obtain ⟨⟨spc, q⟩, sz, cutsz, split⟩ := st
      obtain ⟨hn, hspc, hoq, hsum, hedge, hspace, hne, htiles⟩ := hst
      dsimp only at hn hspc hoq hsum hedge hspace hne htiles
      rw [hn]
      subst hspc
      by_cases hz : sz = 0
      · have hall : q + cutsz = off + len := by omega
        exact .inl ⟨split, by simp [splitPass, hz], hne, hspace, hall ▸ htiles⟩
      · have hpos := h.pos _ (hedge (by omega)) (by omega)
        have hadd : (Address.mk spc q).add cutsz = ⟨spc, q + cutsz⟩ := by
          have := Address.add_offset (a := ⟨spc, q⟩) (n := cutsz) (by dsimp only; omega)
          exact congrArg (Address.mk spc) this
        have hcut : ∃ c, (if sz < cellAt refine (q + cutsz - base) then sz else cellAt refine (q + cutsz - base)) = c ∧
            0 < c ∧ c ≤ sz ∧ (c < sz → c = cellAt refine (q + cutsz - base)) := by
          refine ⟨_, rfl, ?_⟩
          split_ifs <;> omega
        obtain ⟨c, hc, hc0, hcsz, hcell'⟩ := hcut
        refine .inr ⟨⟨⟨spc, q + cutsz⟩, sz - c, c, split ++ [⟨⟨spc, q + cutsz⟩, c⟩]⟩, sz - c, ?_, by omega, rfl, rfl,
          ?_, ?_, ?_, ?_, by simp, ?_⟩
        · simp only [splitPass, if_neg hz, hadd, hread (show base ≤ q + cutsz by omega) (by omega), ok_bind, hc]
          rfl
        · exact Nat.le_trans hoq (Nat.le_add_right q cutsz)
        · dsimp only
          omega
        · intro hmore
          dsimp only at hmore ⊢
          rw [hcell' (by omega), show ∀ m, q + cutsz + m - base = q + cutsz - base + m by omega]
          exact h.edge _ (hedge (by omega)) (by omega)
        · intro p hp
          rcases List.mem_append.1 hp with hp | hp
          · exact hspace p hp
          · rw [List.mem_singleton.1 hp]
        · rw [List.map_append]
          exact htiles.snoc hc0
    obtain ⟨pieces, hrun, hpieces⟩ := loop_bounded Inv Post hbody (k := len + 1) (n := len - cellAt refine (off - base))
      (s := ⟨⟨spc', off⟩, len - cellAt refine (off - base), cellAt refine (off - base),
        [⟨⟨spc', off⟩, cellAt refine (off - base)⟩]⟩)
      ⟨rfl, rfl, Nat.le_refl _, by dsimp only; omega, fun _ => by
        dsimp only
        rw [show off + cellAt refine (off - base) - base = off - base + cellAt refine (off - base) by omega]
        exact h.edge _ hstart (by omega), by simp, by simp, Tiles.single hcell⟩ (by omega)
    exact ⟨pieces, hrun, .inr hpieces⟩

theorem coverCells_spec (h : Cells Edge size (cellAt refine)) (hlen : refine.length = size) (h0 : Edge 0)
    (hsize : 0 < size) (hfit : addr.offset + size ≤ addr.space.highest + 1) :
    ∃ cells, coverCells addr size refine = .ok cells ∧ CutInto ⟨addr, size⟩ cells ∧
      ∀ c ∈ cells, ∃ b, Edge b ∧ b < size ∧ span c = (addr.offset + b, cellAt refine b) := by
  obtain ⟨spc, base⟩ := addr
  dsimp only at hfit ⊢
  let IsCell : Storage → Prop := fun c => c.addr.space = spc ∧
    ∃ b, Edge b ∧ b < size ∧ span c = (base + b, cellAt refine b)
  let Inv : Nat → Covering → Prop := fun n st => n = size - st.cut ∧ st.cut ≤ size ∧
    (st.cut < size → st.addr = ⟨spc, base + st.cut⟩) ∧ Edge st.cut ∧ (∀ c ∈ st.cells, IsCell c) ∧
    Tiles base (base + st.cut) (st.cells.map span)
  let Post : List Storage → Prop := fun cells => (∀ c ∈ cells, IsCell c) ∧ Tiles base (base + size) (cells.map span)
  have hnext {cut : Nat} (hcut : Edge cut) (hlt : cut < size) (hmore : cut + cellAt refine cut < size) :
      (Address.mk spc (base + cut)).add (cellAt refine cut) = ⟨spc, base + (cut + cellAt refine cut)⟩ := by
    have hoff := Address.add_offset (a := ⟨spc, base + cut⟩) (n := cellAt refine cut) (by dsimp only; omega)
    rw [← Nat.add_assoc]
    exact congrArg (Address.mk spc) hoff
  have hbody (n : Nat) (st : Covering) (hst : Inv n st) : (∃ r, coverPass size refine st = .ok (.leave r) ∧ Post r) ∨
      ∃ st' m, coverPass size refine st = .ok (.again st') ∧ m < n ∧ Inv m st' := by
    obtain ⟨curaddr, cut, cells⟩ := st
    obtain ⟨hn, hle, haddr, hcut, hcells, htiles⟩ := hst
    dsimp only at hn hle haddr hcut hcells htiles
    by_cases hlt : cut < size
    · have hpos := h.pos cut hcut hlt
      have hstop := h.le_stop cut hcut hlt
      rw [haddr hlt]
      refine .inr ⟨_, size - (cut + cellAt refine cut),
        by simp only [coverPass, if_pos hlt, getIdx_cellAt (hlen ▸ hlt), ok_bind]; rfl,
        by omega, rfl, hstop, hnext hcut hlt, h.edge cut hcut hlt, fun c hc => ?_, ?_⟩
      · rcases List.mem_append.1 hc with hc | hc
        · exact hcells c hc
        · rw [List.mem_singleton.1 hc]
          exact ⟨rfl, cut, hcut, hlt, rfl⟩
      · rw [List.map_append, ← Nat.add_assoc]
        exact htiles.snoc hpos
    · have hall : cut = size := by omega
      exact .inl ⟨cells, by simp [coverPass, hlt], hcells, hall ▸ htiles⟩
  have hpos := h.pos 0 h0 hsize
  have hedge := h.edge 0 h0 hsize
  have hstop := h.le_stop 0 h0 hsize
  have hfirst := hnext h0 hsize
  rw [Nat.zero_add] at hedge hstop hfirst
  obtain ⟨cells, hrun, hcells, htiles⟩ := loop_bounded Inv Post hbody (k := size + 1)
    (n := size - cellAt refine 0) (s := ⟨(Address.mk spc base).add (cellAt refine 0), cellAt refine 0,
      [⟨⟨spc, base⟩, cellAt refine 0⟩]⟩)
    ⟨rfl, hstop, hfirst, hedge, fun c hc => by
      rw [List.mem_singleton.1 hc]
      exact ⟨rfl, 0, h0, hsize, rfl⟩, Tiles.single hpos⟩ (by omega)
  refine ⟨cells, ?_, ⟨fun c hc => (hcells c hc).1, htiles⟩, fun c hc => (hcells c hc).2⟩
  rw [coverCells, getIdx_cellAt (by omega), ok_bind]
  exact hrun

/-- When there is nothing to refine, the range is too large or every varnode
is the whole range, unless it is empty. -/
theorem refineArray_spec {readvars writevars inputvars : List Storage}
    (hin : ∀ vn ∈ readvars ++ writevars ++ inputvars, Inside addr size vn) :
    ∃ r, refineArray addr size readvars writevars inputvars = .ok r ∧
      match r with
      | none => size > 1024 ∨ ∀ i, 0 < i → i < size → ¬ IsEnd addr (readvars ++ writevars ++ inputvars) i
      | some refine => 0 < size ∧ size ≤ 1024 ∧ refine.length = size ∧
          Cells (IsEdge addr size (readvars ++ writevars ++ inputvars)) size (cellAt refine) := by
  by_cases hbig : size > 1024
  · exact ⟨none, by simp [refineArray, hbig], .inl hbig⟩
  · have hsmall : size ≤ 1024 := Nat.le_of_not_lt hbig
    have hin' (vns : List Storage) (hsub : ∀ vn ∈ vns, vn ∈ readvars ++ writevars ++ inputvars) :
        ∀ vn ∈ vns, Inside addr size vn := fun vn hvn => hin vn (hsub vn hvn)
    obtain ⟨r₁, hr₁, hm₁⟩ := buildRefinement_spec hsmall (hin' readvars (by simp +contextual)) (.replicate size)
    obtain ⟨r₂, hr₂, hm₂⟩ := buildRefinement_spec hsmall (hin' writevars (by simp +contextual)) hm₁
    obtain ⟨r₃, hr₃, hm₃⟩ := buildRefinement_spec hsmall (hin' inputvars (by simp +contextual)) hm₂
    have hends (i : Nat) : ((False ∨ IsEnd addr readvars i) ∨ IsEnd addr writevars i) ∨ IsEnd addr inputvars i ↔
        IsEnd addr (readvars ++ writevars ++ inputvars) i := by
      simp only [IsEnd, List.mem_append, or_and_right, exists_or, false_or]
    have hm := hm₃.congr hends
    have hlen : r₃.dropLast.length = size := by simp [hm.length_eq]
    have hstart : Sizing size (IsEnd addr (readvars ++ writevars ++ inputvars)) 0 (r₃.dropLast, 0) := by
      refine ⟨hlen, Nat.le_refl _, .inl rfl, fun b _ hb => absurd hb (Nat.not_lt_zero b),
        fun b hb hb' => absurd hb (Nat.not_lt.2 hb'), fun b _ hbs => ?_⟩
      rw [cellAt_dropLast (by rw [hm.length_eq]; omega)]
      exact hm.marked b (Nat.le_of_lt hbs)
    obtain ⟨⟨r₄, lastpos⟩, hr₄, hsizing⟩ := foldlM_range'_total
      (fun k st => Sizing size (IsEnd addr (readvars ++ writevars ++ inputvars)) k st) 1 (size - 1)
      (fun k hk st hst => hst.step (by omega)) hstart
    by_cases hlast : lastpos = 0
    · refine ⟨none, ?_, .inr fun i hi his => hsizing.gap i (by dsimp only; omega) (by omega)⟩
      simp [refineArray, hbig, hr₁, hr₂, hr₃, hr₄, hlast]
    · have hle := hsizing.last_le
      dsimp only at hle
      obtain ⟨hset, hlen', hcells⟩ := hsizing.finish (by omega) hlast
        fun b => (Iff.rfl : IsEdge addr size (readvars ++ writevars ++ inputvars) b ↔ _)
      obtain ⟨r₅, hr₅, hlen₅, hcells₅⟩ := remove13Refinement_spec hcells hlen' (.inl rfl) (by omega)
      refine ⟨some r₅, ?_, by omega, hsmall, hlen₅, hcells₅⟩
      simp [refineArray, hbig, hr₁, hr₂, hr₃, hr₄, hlast, hset, hr₅]

/-- The varnode is the whole range, or empty and at its start. -/
def WholeRange (addr : Address) (size : Nat) (vn : Storage) : Prop :=
  vn.addr = addr ∧ (vn.size = 0 ∨ vn.size = size)

/-- Either the varnode fits one of the cells and is left as it is, or the
pieces tile it. -/
def RefinedBy (cells : List Storage) (vn : Storage) (pieces : List Storage) : Prop :=
  pieces = [] ∧ FitsCell cells vn ∨ pieces ≠ [] ∧ CutInto vn pieces

/-- A refinement that finds nothing to do leaves a range that is too large, or
varnodes that all are the whole range. Every other one tiles the range with
cells and each varnode with pieces. -/
theorem refinement_tiles {readvars writevars inputvars : List Storage}
    (hfit : addr.offset + size ≤ addr.space.highest + 1)
    (hin : ∀ vn ∈ readvars ++ writevars ++ inputvars, Inside addr size vn) :
    ∃ r, refinement addr size readvars writevars inputvars = .ok r ∧
      match r with
      | none => size > 1024 ∨ ∀ vn ∈ readvars ++ writevars ++ inputvars, WholeRange addr size vn
      | some r => CutInto ⟨addr, size⟩ r.cells ∧ List.Forall₂ (RefinedBy r.cells) readvars r.reads ∧
          List.Forall₂ (RefinedBy r.cells) writevars r.writes ∧ List.Forall₂ (RefinedBy r.cells) inputvars r.inputs := by
  obtain ⟨r, hr, hspec⟩ := refineArray_spec hin
  cases r with
  | none =>
      refine ⟨none, by simp [refinement, hr], hspec.imp_right fun hnone vn hvn => ?_⟩
      obtain ⟨hspc, hle, hlt, hend⟩ := hin vn hvn
      have hstart : ¬ (0 < vn.addr.offset - addr.offset ∧ vn.addr.offset - addr.offset < size) :=
        fun h => hnone _ h.1 h.2 ⟨vn, hvn, .inl rfl⟩
      have hstop : ¬ (0 < vn.addr.offset - addr.offset + vn.size ∧ vn.addr.offset - addr.offset + vn.size < size) :=
        fun h => hnone _ h.1 h.2 ⟨vn, hvn, .inr rfl⟩
      obtain ⟨⟨spc, off⟩, len⟩ := vn
      obtain ⟨spc', base⟩ := addr
      dsimp only at hspc hle hlt hend hstart hstop
      subst hspc
      obtain rfl : off = base := by omega
      exact ⟨rfl, by dsimp only; omega⟩
  | some refine =>
      obtain ⟨hpos, hsmall, hlen, hcells⟩ := hspec
      obtain ⟨cells, hcover, hcut, htiles⟩ := coverCells_spec hcells hlen (.inl rfl) hpos hfit
      have hsplit (vn : Storage) (hvn : vn ∈ readvars ++ writevars ++ inputvars) :
          ∃ pieces, splitByRefinement vn addr refine = .ok pieces ∧ RefinedBy cells vn pieces := by
        obtain ⟨hspc, hle, hlt, hend⟩ := hin vn hvn
        have hedge : IsEdge addr size (readvars ++ writevars ++ inputvars) (vn.addr.offset - addr.offset) :=
          .inr (.inr ⟨vn, hvn, .inl rfl⟩)
        obtain ⟨pieces, hrun, ⟨hnil, hone⟩ | hpieces⟩ := splitByRefinement_spec hcells hlen hsmall hfit (hin vn hvn) hedge
        · obtain ⟨q, hq, hqle, hqend⟩ := hcells.exists_tile hcut.2
            (fun q hq => by
              obtain ⟨c, hc, rfl⟩ := List.mem_map.1 hq
              exact htiles c hc) hedge (by omega)
          obtain ⟨c, hc, rfl⟩ := List.mem_map.1 hq
          dsimp only [span] at hqle hqend
          exact ⟨pieces, hrun, .inl ⟨hnil, c, hc, (hcut.1 c hc).trans hspc.symm, by omega, by omega⟩⟩
        · exact ⟨pieces, hrun, .inr hpieces⟩
      obtain ⟨reads, hreads, hreads'⟩ := mapM_total (RefinedBy cells) (l := readvars)
        fun vn hvn => hsplit vn (by simp [hvn])
      obtain ⟨writes, hwrites, hwrites'⟩ := mapM_total (RefinedBy cells) (l := writevars)
        fun vn hvn => hsplit vn (by simp [hvn])
      obtain ⟨inputs, hinputs, hinputs'⟩ := mapM_total (RefinedBy cells) (l := inputvars)
        fun vn hvn => hsplit vn (by simp [hvn])
      exact ⟨some ⟨reads, writes, inputs, cells⟩, by simp [refinement, hr, hreads, hwrites, hinputs, hcover],
        hcut, hreads', hwrites', hinputs'⟩

/-- The word space of a 32 bit machine. -/
def ram : AddrSpace := ⟨.processor, 4, 1, 1, Nat.one_pos, AddrSpace.one_le_wordsize_limit⟩

/-- Cells of one and three bytes that are fused below varnodes that start at the
edge between them. -/
theorem refinement_tiles_fused :
    ∃ r, refinement ⟨ram, 0x100⟩ 8 [⟨⟨ram, 0x101⟩, 5⟩, ⟨⟨ram, 0x101⟩, 3⟩] [⟨⟨ram, 0x100⟩, 8⟩] [⟨⟨ram, 0x104⟩, 2⟩] = .ok r ∧
      match r with
      | none => 8 > 1024 ∨ ∀ vn ∈ [⟨⟨ram, 0x101⟩, 5⟩, ⟨⟨ram, 0x101⟩, 3⟩] ++ [⟨⟨ram, 0x100⟩, 8⟩] ++ [⟨⟨ram, 0x104⟩, 2⟩],
          WholeRange ⟨ram, 0x100⟩ 8 vn
      | some r => CutInto ⟨⟨ram, 0x100⟩, 8⟩ r.cells ∧
          List.Forall₂ (RefinedBy r.cells) [⟨⟨ram, 0x101⟩, 5⟩, ⟨⟨ram, 0x101⟩, 3⟩] r.reads ∧
          List.Forall₂ (RefinedBy r.cells) [⟨⟨ram, 0x100⟩, 8⟩] r.writes ∧
          List.Forall₂ (RefinedBy r.cells) [⟨⟨ram, 0x104⟩, 2⟩] r.inputs :=
  refinement_tiles (by decide) (by decide)

end GhidraDecompiler.Heritage
