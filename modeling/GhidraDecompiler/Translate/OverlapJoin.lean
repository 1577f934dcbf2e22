import GhidraDecompiler.Translate.JoinBytes

namespace GhidraDecompiler.Translate

open Fallible JoinTable

variable {bigEndian : Int → Bool} {t : JoinTable} {r : JoinRecord} {p q : VarnodeData} {l pre post : List VarnodeData}
  {index size accum : Int} {offset pointOffset k : Nat} {big : Bool}

/-- A piece with an offset of its space between its first and its last byte. -/
def coversPoint (index : Int) (pointOffset : Nat) (p : VarnodeData) : Bool :=
  p.space = some index && p.offset ≤ pointOffset && pointOffset ≤ (p.offset + (p.size + 2 ^ 64 - 1) % 2 ^ 64) % 2 ^ 64

/-- The walk over the pieces, with the bytes that have been passed. -/
def overlapPieces (index : Int) (pointOffset : Nat) (size : Int) : List VarnodeData → Int → Int
  | [], _ => -1
  | p :: l, bytesAccum =>
      if coversPoint index pointOffset p then
        let res := asI32 (asI32 ((pointOffset : Int) - p.offset) + bytesAccum)
        if res ≥ size then -1 else res
      else overlapPieces index pointOffset size l (asI32 (bytesAccum + asI32 p.size))

/-- The point in a space that is not the join space. -/
def resolvePoint (bigEndian : Int → Bool) (t : JoinTable) (spc pointSpace : AddrSpace) (pointOff : Nat) (pointSkip : Int) :
    Outcome (Option (Int × Nat)) :=
  if spc.index = pointSpace.index then do
    let pieceRecord ← t.findJoin pointOff
    let (addr, _) ← pieceRecord.getEquivalentAddress bigEndian ((pointOff + asU64 pointSkip) % 2 ^ 64)
    pure (addr.space.map fun index => (index, addr.offset))
  else if pointSpace.spaceType = .constant then pure none
  else pure (some (pointSpace.index, pointSpace.wrapOffset ((pointOff + asU64 pointSkip) % 2 ^ 64)))

def overlapJoin (bigEndian : Int → Bool) (t : JoinTable) (spc : AddrSpace) (offset : Nat) (size : Int) (pointSpace : AddrSpace)
    (pointOff : Nat) (pointSkip : Int) : Outcome Int :=
  match spc.spaceType with
  | .constant => pure (-1)
  | .join => do
      match ← resolvePoint bigEndian t spc pointSpace pointOff pointSkip with
      | none => pure (-1)
      | some (index, pointOffset) =>
          let joinRecord ← t.findJoin offset
          pure (overlapPieces index pointOffset size (walk (bigEndian spc.index) joinRecord.pieces) 0)
  | _ =>
      if spc.index ≠ pointSpace.index then pure (-1)
      else
        let dist := spc.wrapOffset ((pointOff + asU64 pointSkip + 2 ^ 64 - offset) % 2 ^ 64)
        if dist ≥ asU64 size then pure (-1) else pure (asI32 dist)

/-- A piece that does not go around the end of the 64-bit offsets has the point between its ends
exactly when it is one of its bytes, and another piece never has. -/
theorem coversPoint_iff (hsize : 1 ≤ p.size) (hsmall : p.size < 2 ^ 31) (hoffset : p.offset < 2 ^ 64)
    (hpoint : pointOffset < 2 ^ 64) : coversPoint index pointOffset p = true ↔
      (⟨some index, pointOffset⟩ : Location) ∈ pieceBytes p ∧ p.offset + p.size ≤ 2 ^ 64 := by
  have hlast : (p.size + 2 ^ 64 - 1) % 2 ^ 64 = p.size - 1 := by omega
  rw [coversPoint, hlast]
  simp only [pieceBytes, List.mem_map, List.mem_range, Location.mk.injEq, Bool.and_eq_true, decide_eq_true_eq]
  constructor
  · rintro ⟨⟨hspace, hlow⟩, hhigh⟩
    have hfit : p.offset + p.size ≤ 2 ^ 64 := by omega
    exact ⟨⟨pointOffset - p.offset, by omega, hspace, by omega⟩, hfit⟩
  · rintro ⟨⟨j, hj, hspace, hoff⟩, hfit⟩
    exact ⟨⟨hspace, by omega⟩, by omega⟩

theorem overlapPieces_none (h : ∀ p ∈ l, coversPoint index pointOffset p = false) :
    overlapPieces index pointOffset size l accum = -1 := by
  induction l generalizing accum with
  | nil => rfl
  | cons p l ih =>
      rw [overlapPieces, if_neg (by simp [h p List.mem_cons_self])]
      exact ih fun q hq => h q (List.mem_cons_of_mem _ hq)

/-- The first piece with the point is where the walk ends. -/
theorem overlapPieces_split {n : Nat} (h : ∀ q ∈ pre, coversPoint index pointOffset q = false)
    (hcovers : coversPoint index pointOffset p = true) (hoff : pointOffset = p.offset + k)
    (hsmall : n + span pre + k < 2 ^ 31) : overlapPieces index pointOffset size (pre ++ p :: post) n =
      if ((n + span pre + k : Nat) : Int) ≥ size then -1 else ((n + span pre + k : Nat) : Int) := by
  induction pre generalizing n with
  | nil =>
      rw [span_nil] at hsmall
      have hk : asI32 ((pointOffset : Int) - p.offset) = k := by
        rw [asI32_of_lt (by omega) (by omega)]
        omega
      have hres : asI32 ((k : Int) + n) = ((n + span [] + k : Nat) : Int) := by
        rw [asI32_of_lt (by omega) (by omega), span_nil]
        omega
      rw [List.nil_append, overlapPieces, if_pos hcovers, hk, hres]
  | cons q pre ih =>
      rw [span_cons] at hsmall
      have hq : asI32 q.size = q.size := asI32_of_lt (by omega) (by omega)
      have hnext : asI32 ((n : Int) + q.size) = ((n + q.size : Nat) : Int) := by
        rw [asI32_of_lt (by omega) (by omega)]
        omega
      rw [List.cons_append, overlapPieces, if_neg (by simp [h q List.mem_cons_self]), hq, hnext,
        ih (fun x hx => h x (List.mem_cons_of_mem _ hx)) (by omega), span_cons, Nat.add_assoc n]

/-- The call returns the position of the byte among the first bytes of a record. -/
def OverlapsExactly (bigEndian : Int → Bool) (t : JoinTable) (spc : AddrSpace) (r : JoinRecord) (size : Int)
    (pointSpace : AddrSpace) (pointOff : Nat) : Prop :=
  ∃ res, overlapJoin bigEndian t spc r.unifiedOffset size pointSpace pointOff 0 = .ok res ∧
    (∀ k : Nat, res = k ↔ (k : Int) < size ∧
      ∃ pos, r.getEquivalentAddress bigEndian (r.unifiedOffset + k) = .ok (⟨some pointSpace.index, pointOff⟩, pos)) ∧
    ((¬∃ k : Nat, (k : Int) < size ∧
      ∃ pos, r.getEquivalentAddress bigEndian (r.unifiedOffset + k) = .ok (⟨some pointSpace.index, pointOff⟩, pos)) → res = -1)

/-- One of the first bytes, in a piece that goes around the end of the 64-bit offsets. -/
def InWrappedPiece (big : Bool) (r : JoinRecord) (size : Int) (byte : Location) : Prop :=
  ∃ pre p post, walk big r.pieces = pre ++ p :: post ∧ 2 ^ 64 < p.offset + p.size ∧
    ∃ k, (pieceBytes p)[k]? = some byte ∧ ((span pre + k : Nat) : Int) < size

theorem nodup_pieceBytes (hsmall : p.size < 2 ^ 31) : (pieceBytes p).Nodup := by
  refine List.Nodup.map_on ?_ List.nodup_range
  intro i hi j hj heq
  rw [List.mem_range] at hi hj
  have hoff := congrArg Location.offset heq
  dsimp only at hoff
  omega

/-- Pieces that are apart have no byte twice. -/
theorem nodup_bytes (hsmall : ∀ p ∈ l, p.size < 2 ^ 31)
    (hapart : l.Pairwise fun p q => List.Disjoint (pieceBytes p) (pieceBytes q)) : (bytes big l).Nodup := by
  rw [bytes, List.nodup_flatMap]
  refine ⟨fun p hp => nodup_pieceBytes (hsmall p (mem_walk.mp hp)), ?_⟩
  cases big with
  | true => exact hapart
  | false => exact List.pairwise_reverse.mpr (hapart.imp fun {p q} (h : List.Disjoint (pieceBytes p) (pieceBytes q)) _ hq hp => h hp hq)

theorem size_le_span (h : p ∈ l) : p.size ≤ span l := by
  obtain ⟨pre, post, rfl⟩ := List.append_of_mem h
  rw [span_append, span_cons]
  omega

/-- The byte at an offset of a record, both ways. -/
theorem getEquivalentAddress_bytes_iff (hr : r.Proper bigEndian big) (hk : k < r.unifiedSize) {byte : Location} :
    (∃ pos, r.getEquivalentAddress bigEndian (r.unifiedOffset + k) = .ok (byte, pos)) ↔ (bytes big r.pieces)[k]? = some byte := by
  constructor
  · rintro ⟨pos, hget⟩
    have hlt : k < (bytes big r.pieces).length := by rwa [length_bytes, hr.span_eq]
    obtain ⟨pos', hget'⟩ := JoinRecord.getEquivalentAddress_bytes hr (List.getElem?_eq_getElem hlt)
    rw [hget] at hget'
    obtain ⟨rfl, -⟩ := Prod.mk.inj (Except.ok.inj hget')
    exact List.getElem?_eq_getElem hlt
  · exact JoinRecord.getEquivalentAddress_bytes hr

/-- Without repetition, a byte of one piece is in no other one. -/
theorem not_mem_others (hnodup : ((pre ++ p :: post).flatMap pieceBytes).Nodup) {byte : Location} (hp : byte ∈ pieceBytes p)
    (hq : q ∈ pre ∨ q ∈ post) : byte ∉ pieceBytes q := by
  rw [List.flatMap_append, List.flatMap_cons, List.nodup_append'] at hnodup
  obtain ⟨-, hrest, hpre⟩ := hnodup
  intro hbyte
  obtain hq | hq := hq
  · exact hpre (List.mem_flatMap.mpr ⟨q, hq, hbyte⟩) (List.mem_append_left _ hp)
  · exact (List.nodup_append'.mp hrest).2.2 hp (List.mem_flatMap.mpr ⟨q, hq, hbyte⟩)

section Walk

variable {byte : Location} (hnodup : (bytes big r.pieces).Nodup) (hwalk : walk big r.pieces = pre ++ p :: post)
  (hbyte : (pieceBytes p)[k]? = some byte)

include hnodup hwalk hbyte

theorem inWrappedPiece_iff : InWrappedPiece big r size byte ↔ 2 ^ 64 < p.offset + p.size ∧ ((span pre + k : Nat) : Int) < size := by
  obtain ⟨hlt, -⟩ := List.getElem?_eq_some_iff.mp hbyte
  constructor
  · rintro ⟨pre', p', post', hwalk', hwraps, k', hbyte', hsize⟩
    obtain ⟨hlt', -⟩ := List.getElem?_eq_some_iff.mp hbyte'
    have hone := @Segments.getElem?_split _ _ pieceBytes pre post _ _ hlt
    have htwo := @Segments.getElem?_split _ _ pieceBytes pre' post' _ _ hlt'
    rw [← hwalk, length_flatMap_pieceBytes, hbyte] at hone
    rw [← hwalk', length_flatMap_pieceBytes, hbyte'] at htwo
    have hin : span pre + k < (bytes big r.pieces).length := (List.getElem?_eq_some_iff.mp hone).1
    have hsame : span pre + k = span pre' + k' := (List.getElem?_inj hin hnodup).mp (hone.trans htwo.symm)
    rw [length_pieceBytes] at hlt hlt'
    obtain ⟨rfl, rfl, -⟩ := Segments.split_unique pieceBytes (i := span pre + k) (hwalk.symm.trans hwalk')
      (by rw [length_flatMap_pieceBytes]; omega) (by rw [length_flatMap_pieceBytes, length_pieceBytes]; omega)
      (by rw [length_flatMap_pieceBytes]; omega) (by rw [length_flatMap_pieceBytes, length_pieceBytes]; omega)
    exact ⟨hwraps, hsame ▸ hsize⟩
  · rintro ⟨hwraps, hsize⟩
    exact ⟨pre, p, post, hwalk, hwraps, k, hbyte, hsize⟩

end Walk

section

variable {spc pointSpace : AddrSpace} (hr : r.Proper bigEndian (bigEndian spc.index)) (hspc : spc.spaceType = .join)
  (hfound : t.findJoin r.unifiedOffset = .ok r) (hother : spc.index ≠ pointSpace.index)
  (hphysical : pointSpace.spaceType ≠ .constant) (hpoint : pointOffset ≤ pointSpace.highest)

include hspc hfound hother hphysical hpoint in
theorem overlapJoin_run : overlapJoin bigEndian t spc r.unifiedOffset size pointSpace pointOffset 0 =
    .ok (overlapPieces pointSpace.index pointOffset size (walk (bigEndian spc.index) r.pieces) 0) := by
  have hcases := pointSpace.highest_cases
  have hskip : (pointOffset + asU64 0) % 2 ^ 64 = pointOffset := by
    have hzero : asU64 0 = 0 := rfl
    omega
  have hresolve : resolvePoint bigEndian t spc pointSpace pointOffset 0 = .ok (some (pointSpace.index, pointOffset)) := by
    rw [resolvePoint, if_neg hother, if_neg hphysical, hskip, AddrSpace.wrapOffset, if_pos hpoint]
    rfl
  rw [overlapJoin, hspc]
  dsimp only
  rw [hresolve, ok_bind]
  dsimp only
  rw [hfound, ok_bind]
  rfl

theorem overlapJoin_exact_iff (hr : r.Proper bigEndian (bigEndian spc.index)) (hspc : spc.spaceType = .join)
    (hfound : t.findJoin r.unifiedOffset = .ok r) (hother : spc.index ≠ pointSpace.index)
    (hphysical : pointSpace.spaceType ≠ .constant) (hpoint : pointOffset ≤ pointSpace.highest)
    (hsizes : ∀ p ∈ r.pieces, 1 ≤ p.size) (hoffsets : ∀ p ∈ r.pieces, p.offset < 2 ^ 64)
    (hapart : r.pieces.Pairwise fun p q => List.Disjoint (pieceBytes p) (pieceBytes q)) (hsize : size ≤ r.unifiedSize) :
    OverlapsExactly bigEndian t spc r size pointSpace pointOffset ↔
      ¬InWrappedPiece (bigEndian spc.index) r size ⟨some pointSpace.index, pointOffset⟩ := by
  have hcases := pointSpace.highest_cases
  have hspan := hr.span_eq
  have hsmall := hr.small
  have hnodup : (bytes (bigEndian spc.index) r.pieces).Nodup := nodup_bytes (fun p hp => by
    have hle := size_le_span hp
    omega) hapart
  have hcover (q : VarnodeData) (hq : q ∈ r.pieces) : coversPoint pointSpace.index pointOffset q = true ↔
      (⟨some pointSpace.index, pointOffset⟩ : Location) ∈ pieceBytes q ∧ q.offset + q.size ≤ 2 ^ 64 := by
    have hle := size_le_span hq
    exact coversPoint_iff (hsizes q hq) (by omega) (hoffsets q hq) (by omega)
  have hat (k : Nat) (hk : (k : Int) < size) :
      (∃ pos, r.getEquivalentAddress bigEndian (r.unifiedOffset + k) = .ok (⟨some pointSpace.index, pointOffset⟩, pos)) ↔
        (bytes (bigEndian spc.index) r.pieces)[k]? = some ⟨some pointSpace.index, pointOffset⟩ :=
    getEquivalentAddress_bytes_iff hr (by omega)
  have hexact {res : Int} (hres : overlapPieces pointSpace.index pointOffset size (walk (bigEndian spc.index) r.pieces) 0 = res)
      (hsign : res = -1 ∨ ∃ k : Nat, res = k) : OverlapsExactly bigEndian t spc r size pointSpace pointOffset ↔
        ∀ k : Nat, res = k ↔
          (k : Int) < size ∧ (bytes (bigEndian spc.index) r.pieces)[k]? = some ⟨some pointSpace.index, pointOffset⟩ := by
    have hbytes (k : Nat) : ((k : Int) < size ∧
        ∃ pos, r.getEquivalentAddress bigEndian (r.unifiedOffset + k) = .ok (⟨some pointSpace.index, pointOffset⟩, pos)) ↔
          (k : Int) < size ∧ (bytes (bigEndian spc.index) r.pieces)[k]? = some ⟨some pointSpace.index, pointOffset⟩ :=
      and_congr_right fun hk => hat k hk
    simp only [OverlapsExactly, hbytes, overlapJoin_run hspc hfound hother hphysical hpoint, hres, Except.ok.injEq,
      exists_eq_left']
    refine ⟨And.left, fun h => ⟨h, fun hno => ?_⟩⟩
    obtain hminus | ⟨k, hk⟩ := hsign
    · exact hminus
    · exact absurd ⟨k, (h k).mp hk⟩ hno
  by_cases hmem : (⟨some pointSpace.index, pointOffset⟩ : Location) ∈ bytes (bigEndian spc.index) r.pieces
  · obtain ⟨n, hlt, hn⟩ := List.getElem_of_mem hmem
    have hbyte := List.getElem?_eq_getElem hlt
    rw [hn] at hbyte
    obtain ⟨pre, p, post, hwalk, hlow, hhigh⟩ := Segments.exists_split pieceBytes (l := walk (bigEndian spc.index) r.pieces) hlt
    rw [length_flatMap_pieceBytes] at hlow hhigh
    obtain ⟨k, rfl⟩ : ∃ k, n = span pre + k := ⟨n - span pre, by omega⟩
    have hk : k < (pieceBytes p).length := by omega
    have hin (q : VarnodeData) (hq : q ∈ pre ∨ q = p ∨ q ∈ post) : q ∈ r.pieces := by
      rw [← @mem_walk (bigEndian spc.index), hwalk, List.mem_append, List.mem_cons]
      exact hq
    have hpiece := @Segments.getElem?_split _ _ pieceBytes pre post _ _ hk
    rw [← hwalk, length_flatMap_pieceBytes] at hpiece
    have hinside : (pieceBytes p)[k]? = some ⟨some pointSpace.index, pointOffset⟩ := hpiece.symm.trans hbyte
    have hothers (q : VarnodeData) (hq : q ∈ pre ∨ q ∈ post) : coversPoint pointSpace.index pointOffset q = false := by
      rw [Bool.eq_false_iff, Ne, hcover q (hin q (hq.imp_right Or.inr))]
      rintro ⟨hq', -⟩
      rw [bytes, hwalk] at hnodup
      exact not_mem_others hnodup (List.mem_of_getElem? hinside) hq hq'
    have honly (j : Nat) : (bytes (bigEndian spc.index) r.pieces)[j]? = some ⟨some pointSpace.index, pointOffset⟩ ↔
        j = span pre + k := by
      rw [← hbyte, eq_comm, List.getElem?_inj hlt hnodup, eq_comm]
    rw [inWrappedPiece_iff hnodup hwalk hinside]
    by_cases hwraps : 2 ^ 64 < p.offset + p.size
    · have hnone : overlapPieces pointSpace.index pointOffset size (walk (bigEndian spc.index) r.pieces) 0 = -1 := by
        apply overlapPieces_none
        intro q hq
        rw [hwalk, List.mem_append, List.mem_cons] at hq
        obtain hq | rfl | hq := hq
        · exact hothers q (Or.inl hq)
        · rw [Bool.eq_false_iff, Ne, hcover q (hin q (Or.inr (Or.inl rfl)))]
          rintro ⟨-, hfit⟩
          omega
        · exact hothers q (Or.inr hq)
      rw [hexact hnone (Or.inl rfl)]
      simp only [honly]
      constructor
      · rintro hres ⟨-, hsize'⟩
        have := (hres (span pre + k)).mpr ⟨hsize', rfl⟩
        omega
      · intro hcond j
        constructor
        · intro hj
          omega
        · rintro ⟨hj, rfl⟩
          exact absurd ⟨hwraps, hj⟩ hcond
    · have hoff : pointOffset = p.offset + k := by
        have hget := getElem?_pieceBytes (p := p) (i := k) (by rwa [length_pieceBytes] at hk)
        rw [hinside] at hget
        have hoff := congrArg Location.offset (Option.some.inj hget)
        dsimp only at hoff
        rw [length_pieceBytes] at hk
        omega
      have hcovers : coversPoint pointSpace.index pointOffset p = true :=
        (hcover p (hin p (Or.inr (Or.inl rfl)))).mpr ⟨List.mem_of_getElem? hinside, Nat.not_lt.mp hwraps⟩
      have hbelow : 0 + span pre + k < 2 ^ 31 := by
        rw [length_bytes] at hlt
        omega
      have hres := @overlapPieces_split p pre post _ size _ _ 0 (fun q hq => hothers q (Or.inl hq)) hcovers hoff hbelow
      have hzero : ((0 : Nat) : Int) = 0 := rfl
      rw [← hwalk, Nat.zero_add, hzero] at hres
      rw [hexact hres (by
        split
        · exact Or.inl rfl
        · exact Or.inr ⟨_, rfl⟩)]
      simp only [honly]
      refine iff_of_true (fun j => ?_) fun hcond => hwraps hcond.1
      split
      · omega
      · omega
  · have hnone : overlapPieces pointSpace.index pointOffset size (walk (bigEndian spc.index) r.pieces) 0 = -1 := by
      apply overlapPieces_none
      intro q hq
      rw [Bool.eq_false_iff, Ne, hcover q (mem_walk.mp hq)]
      rintro ⟨hq', -⟩
      exact hmem (List.mem_flatMap.mpr ⟨q, hq, hq'⟩)
    rw [hexact hnone (Or.inl rfl)]
    refine iff_of_true (fun j => ?_) ?_
    · constructor
      · intro hj
        omega
      · rintro ⟨-, hj⟩
        exact absurd (List.mem_of_getElem? hj) hmem
    · rintro ⟨pre, p, post, hwalk, -, k, hinside, -⟩
      refine hmem (List.mem_flatMap.mpr ⟨p, ?_, List.mem_of_getElem? hinside⟩)
      rw [hwalk]
      simp

end

def pointSpace : AddrSpace := ⟨.processor, 8, 1, 0, Nat.one_pos, AddrSpace.one_le_wordsize_limit⟩

def joinedSpace : AddrSpace := ⟨.join, 4, 1, 1, Nat.one_pos, AddrSpace.one_le_wordsize_limit⟩

/-- Two pieces, with the first bytes in the last one. -/
def apartPieces : JoinRecord := ⟨[⟨some 0, 8, 4⟩, ⟨some 0, 32, 4⟩], some 1, 0, 8⟩

def apartPiecesTable : JoinTable := ⟨16, [((8, apartPieces.pieces), apartPieces)], [apartPieces], some 1⟩

theorem overlapJoin_exact_second :
    OverlapsExactly (fun _ => false) apartPiecesTable joinedSpace apartPieces 8 pointSpace 9 ↔
      ¬InWrappedPiece false apartPieces 8 ⟨some 0, 9⟩ :=
  overlapJoin_exact_iff ⟨by decide, by decide, by decide, by decide⟩ rfl (by decide) (by decide) (by decide) (by decide)
    (by decide) (by decide) (List.pairwise_pair.mpr (List.disjoint_left.mpr (by decide))) (by decide)

/-- The last piece has the last two offsets of the space and the first two. -/
def foldedPieces : JoinRecord := ⟨[⟨some 0, 8, 4⟩, ⟨some 0, 2 ^ 64 - 2, 4⟩], some 1, 0, 8⟩

def wrappedPiecesTable : JoinTable := ⟨16, [((8, foldedPieces.pieces), foldedPieces)], [foldedPieces], some 1⟩

/-- The byte at offset 0 is the third byte of the record, and the call does not find it. -/
theorem overlapJoin_wrapped_missed : foldedPieces.Proper (fun _ => false) false ∧
      (foldedPieces.pieces.Pairwise fun p q => List.Disjoint (pieceBytes p) (pieceBytes q)) ∧
      wrappedPiecesTable.findJoin foldedPieces.unifiedOffset = .ok foldedPieces ∧
      foldedPieces.getEquivalentAddress (fun _ => false) 2 = .ok (⟨some 0, 0⟩, 1) ∧
      overlapJoin (fun _ => false) wrappedPiecesTable joinedSpace 0 8 pointSpace 0 0 = .ok (-1) ∧
      ¬OverlapsExactly (fun _ => false) wrappedPiecesTable joinedSpace foldedPieces 8 pointSpace 0 := by
  have hget : foldedPieces.getEquivalentAddress (fun _ => false) 2 = .ok (⟨some 0, 0⟩, 1) := by decide
  have hrun : overlapJoin (fun _ => false) wrappedPiecesTable joinedSpace 0 8 pointSpace 0 0 = .ok (-1) := by decide
  have hapart : foldedPieces.pieces.Pairwise fun p q => List.Disjoint (pieceBytes p) (pieceBytes q) :=
    List.pairwise_pair.mpr (List.disjoint_left.mpr (by decide))
  refine ⟨⟨by decide, by decide, by decide, by decide⟩, hapart, by decide, hget, hrun, ?_⟩
  rintro ⟨res, hres, hexact, -⟩
  obtain rfl : -1 = res := Except.ok.inj (hrun.symm.trans hres)
  exact absurd ((hexact 2).mpr ⟨by decide, 1, hget⟩) (by decide)

end GhidraDecompiler.Translate
