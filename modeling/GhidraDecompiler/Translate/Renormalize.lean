import GhidraDecompiler.Translate.JoinBytes

namespace GhidraDecompiler.Translate

open Fallible

variable {bigEndian : Int → Bool} {big : Bool} {t t' : JoinTable} {r r' : JoinRecord} {p q : VarnodeData}
  {pre mid post pieces : List VarnodeData} {addr addr1 addr2 : Location} {start size s e : Nat}

namespace JoinTable

/-- The first piece of a part, without the bytes before the part. -/
def cutFront (addr1 : Location) (p : VarnodeData) : VarnodeData :=
  shrink (asI32 ((addr1.offset : Int) - p.offset)) { p with offset := addr1.offset }

/-- The last piece of a part, without the bytes behind it. -/
def cutBack (addr2 : Location) (q : VarnodeData) : VarnodeData :=
  shrink (asI32 (asI32 q.size - asI32 ((addr2.offset : Int) - q.offset) - 1)) q

theorem shrink_space (trunc : Int) (p : VarnodeData) : (shrink trunc p).space = p.space := by
  rw [shrink]

theorem cutFront_space (addr1 : Location) (p : VarnodeData) : (cutFront addr1 p).space = p.space := by
  rw [cutFront, shrink_space]

theorem cutBack_space (addr2 : Location) (q : VarnodeData) : (cutBack addr2 q).space = q.space := by
  rw [cutBack, shrink_space]

theorem mapM_getAt {l : List VarnodeData} {k n : Nat} (h : pieces = pre ++ (l ++ post)) (hk : n + k = pre.length) :
    (List.range' k l.length).mapM (fun i : Nat => getAt pieces ((n : Int) + i)) = .ok l := by
  induction l generalizing pre k with
  | nil => rfl
  | cons p l ih =>
      have hget : getAt pieces ((n : Int) + (k : Nat)) = .ok p := by
        have hpos : (n : Int) + (k : Nat) = ((pre.length : Nat) : Int) := by omega
        rw [hpos]
        apply getAt_eq
        rw [h, List.getElem?_append_right (Nat.le_refl _), Nat.sub_self]
        rfl
      have hnext : pieces = (pre ++ [p]) ++ (l ++ post) := by simp [h]
      have hlast : n + (k + 1) = (pre ++ [p]).length := by simp; omega
      rw [List.length_cons, List.range'_succ, List.mapM_cons, hget, ok_bind,
        ih hnext hlast, ok_bind]
      rfl

theorem slicePieces_eq {l : List VarnodeData} (h : pieces = pre ++ (l ++ post)) :
    slicePieces pieces pre.length ((pre.length : Int) + l.length - 1) = .ok l := by
  have hcount : ((pre.length : Int) + l.length - 1 + 1 - pre.length).toNat = l.length := by omega
  have hrange : (do
      let i ← List.range l.length
      pure (i : Int)) = (List.range l.length).map Nat.cast := List.map_eq_flatMap.symm
  rw [slicePieces, hcount, hrange, List.mapM_map, List.range_eq_range']
  exact mapM_getAt h (Nat.add_zero _)

theorem modifyLast_append (f : VarnodeData → VarnodeData) (l : List VarnodeData) (p : VarnodeData) :
    modifyLast (l ++ [p]) f = l ++ [f p] := by
  rw [modifyLast, List.length_append, List.length_singleton, Nat.add_sub_cancel]
  induction l with
  | nil => rfl
  | cons q l ih => rw [List.cons_append, List.length_cons, List.modify_succ_cons, ih, List.cons_append]

theorem getAt_middle {l : List VarnodeData} (h : pieces = pre ++ p :: l) : getAt pieces pre.length = .ok p := by
  apply getAt_eq
  rw [h, List.getElem?_append_right (Nat.le_refl _), Nat.sub_self, List.getElem?_cons_zero]

/-- The pieces of a part that goes up in the list. -/
theorem renormalizedPieces_up (h : pieces = pre ++ p :: (mid ++ q :: post)) :
    renormalizedPieces pieces addr1 addr2 pre.length ((pre.length : Int) + mid.length + 1) =
      .ok (cutFront addr1 p :: (mid ++ [cutBack addr2 q])) := by
  have hback : getAt pieces ((pre.length : Int) + mid.length + 1) = .ok q := by
    have hsplit : pieces = (pre ++ p :: mid) ++ q :: post := by simp [h]
    have hmiddle := getAt_middle hsplit
    have hpos : ((pre ++ p :: mid).length : Int) = (pre.length : Int) + mid.length + 1 := by
      rw [List.length_append, List.length_cons]
      omega
    rwa [hpos] at hmiddle
  have hsplit : pieces = pre ++ ((p :: (mid ++ [q])) ++ post) := by simp [h]
  have hslice := slicePieces_eq hsplit
  have hstop : (pre.length : Int) + (p :: (mid ++ [q])).length - 1 = (pre.length : Int) + mid.length + 1 := by
    rw [List.length_cons, List.length_append, List.length_singleton]
    omega
  rw [hstop] at hslice
  rw [renormalizedPieces, getAt_middle h, ok_bind, hback, ok_bind]
  dsimp only
  rw [if_neg (by omega), hslice, ok_bind]
  exact congrArg Except.ok (modifyLast_append _ (cutFront addr1 p :: mid) q)

/-- The pieces of a part that goes down in the list. -/
theorem renormalizedPieces_down (h : pieces = pre ++ q :: (mid ++ p :: post)) :
    renormalizedPieces pieces addr1 addr2 ((pre.length : Int) + mid.length + 1) pre.length =
      .ok (cutBack addr2 q :: (mid ++ [cutFront addr1 p])) := by
  have hfront : getAt pieces ((pre.length : Int) + mid.length + 1) = .ok p := by
    have hsplit : pieces = (pre ++ q :: mid) ++ p :: post := by simp [h]
    have hmiddle := getAt_middle hsplit
    have hpos : ((pre ++ q :: mid).length : Int) = (pre.length : Int) + mid.length + 1 := by
      rw [List.length_append, List.length_cons]
      omega
    rwa [hpos] at hmiddle
  have hsplit : pieces = pre ++ ((q :: (mid ++ [p])) ++ post) := by simp [h]
  have hslice := slicePieces_eq hsplit
  have hstop : (pre.length : Int) + (q :: (mid ++ [p])).length - 1 = (pre.length : Int) + mid.length + 1 := by
    rw [List.length_cons, List.length_append, List.length_singleton]
    omega
  rw [hstop] at hslice
  rw [renormalizedPieces, hfront, ok_bind, getAt_middle h, ok_bind]
  dsimp only
  rw [if_pos (by omega), hslice, ok_bind]
  have hlast := modifyLast_append (fun piece => shrink (asI32 ((addr1.offset : Int) - p.offset)) { piece with offset := addr1.offset })
    (q :: mid) p
  rw [List.cons_append] at hlast
  rw [hlast]
  rfl

theorem position_up (h : walk big pieces = pre ++ p :: (mid ++ q :: post)) :
    pieces.length = pre.length + mid.length + post.length + 2 := by
  have hlen := congrArg List.length h
  simp only [length_walk, List.length_append, List.length_cons] at hlen
  omega

/-- The pieces of a part, in the order of their bytes. -/
theorem renormalizedPieces_walk (addr1 addr2 : Location) (h : walk big pieces = pre ++ p :: (mid ++ q :: post)) :
    ∃ l, renormalizedPieces pieces addr1 addr2 (position big pieces.length pre.length)
        (position big pieces.length (pre.length + mid.length + 1)) = .ok l ∧
      walk big l = cutFront addr1 p :: (mid ++ [cutBack addr2 q]) := by
  have hlen := position_up h
  cases big with
  | true => exact ⟨_, renormalizedPieces_up h, rfl⟩
  | false =>
      have hrev : pieces = post.reverse ++ q :: (mid.reverse ++ p :: pre.reverse) := by
        rw [← List.reverse_reverse pieces, show pieces.reverse = _ from h]
        simp
      have hdown := @renormalizedPieces_down _ _ _ _ _ _ addr1 addr2 hrev
      have hpos1 : position false pieces.length pre.length = (post.reverse.length : Int) + mid.reverse.length + 1 := by
        rw [position, if_neg Bool.false_ne_true, hlen, List.length_reverse, List.length_reverse]
        omega
      have hpos2 : position false pieces.length (pre.length + mid.length + 1) = post.reverse.length := by
        rw [position, if_neg Bool.false_ne_true, hlen, List.length_reverse]
        omega
      rw [← hpos1, ← hpos2] at hdown
      exact ⟨_, hdown, by simp [walk]⟩

/-- The pieces between two positions that are the wrong way round. -/
theorem renormalizedPieces_back (addr1 addr2 : Location) (h : walk big pieces = pre ++ q :: (mid ++ p :: post)) :
    ∃ l, renormalizedPieces pieces addr1 addr2 (position big pieces.length (pre.length + mid.length + 1))
        (position big pieces.length pre.length) = .ok l ∧
      walk big l = cutBack addr2 q :: (mid ++ [cutFront addr1 p]) := by
  have hlen := position_up h
  cases big with
  | true => exact ⟨_, renormalizedPieces_down h, rfl⟩
  | false =>
      have hrev : pieces = post.reverse ++ p :: (mid.reverse ++ q :: pre.reverse) := by
        rw [← List.reverse_reverse pieces, show pieces.reverse = _ from h]
        simp
      have hup := @renormalizedPieces_up _ _ _ _ _ _ addr1 addr2 hrev
      have hpos2 : position false pieces.length pre.length = (post.reverse.length : Int) + mid.reverse.length + 1 := by
        rw [position, if_neg Bool.false_ne_true, hlen, List.length_reverse, List.length_reverse]
        omega
      have hpos1 : position false pieces.length (pre.length + mid.length + 1) = post.reverse.length := by
        rw [position, if_neg Bool.false_ne_true, hlen, List.length_reverse]
        omega
      rw [← hpos2, ← hpos1] at hup
      exact ⟨_, hup, by simp [walk]⟩

theorem shrink_size {trunc : Nat} (h : trunc ≤ p.size) (hp : p.size < 2 ^ 31) : shrink trunc p = { p with size := p.size - trunc } := by
  have hmod : ((trunc : Int) % 2 ^ 32).toNat = trunc := by omega
  rw [shrink, hmod]
  congr 1
  omega

theorem cutFront_eq (hs : s < p.size) (hp : p.size < 2 ^ 31) (haddr : addr1.offset = (p.offset + s) % 2 ^ 64) :
    cutFront addr1 p = ⟨p.space, (p.offset + s) % 2 ^ 64, p.size - s⟩ := by
  have htrunc : asI32 ((addr1.offset : Int) - p.offset) = s := by
    rw [haddr]
    simp only [asI32, Int.bmod_def]
    omega
  rw [cutFront, htrunc, shrink_size (by exact hs.le) (by exact hp), haddr]

theorem cutBack_eq (he : e < q.size) (hq : q.size < 2 ^ 31) (haddr : addr2.offset = (q.offset + e) % 2 ^ 64) :
    cutBack addr2 q = { q with size := e + 1 } := by
  have hoff : asI32 ((addr2.offset : Int) - q.offset) = e := by
    rw [haddr]
    simp only [asI32, Int.bmod_def]
    omega
  have hsize : asI32 q.size = q.size := asI32_of_lt (by omega) (by omega)
  have htrunc : asI32 ((q.size : Int) - e - 1) = ((q.size - (e + 1) : Nat) : Int) := by
    rw [asI32_of_lt (by omega) (by omega)]
    omega
  have hrest : q.size - (q.size - (e + 1)) = e + 1 := by omega
  rw [cutBack, hoff, hsize, htrunc, shrink_size (Nat.sub_le _ _) hq, hrest]

theorem pieceBytes_cutFront (hs : s < p.size) (hp : p.size < 2 ^ 31) (haddr : addr1.offset = (p.offset + s) % 2 ^ 64) :
    pieceBytes (cutFront addr1 p) = (pieceBytes p).drop s := by
  rw [cutFront_eq hs hp haddr]
  apply List.ext_getElem?
  intro k
  rw [List.getElem?_drop]
  by_cases hk : k < p.size - s
  · rw [getElem?_pieceBytes hk, getElem?_pieceBytes (by omega)]
    congr 2
    simp only
    omega
  · rw [List.getElem?_eq_none (by rw [length_pieceBytes]; exact Nat.not_lt.mp hk),
      List.getElem?_eq_none (by rw [length_pieceBytes]; omega)]

theorem pieceBytes_cutBack (he : e < q.size) (hq : q.size < 2 ^ 31) (haddr : addr2.offset = (q.offset + e) % 2 ^ 64) :
    pieceBytes (cutBack addr2 q) = (pieceBytes q).take (e + 1) := by
  rw [cutBack_eq he hq haddr, pieceBytes, pieceBytes, ← List.map_take, List.take_range, Nat.min_eq_left he]

/-- From a last byte that lies before the first piece, nothing is cut off, and bytes are added. -/
theorem cutBack_negative {i : Nat} (hq : q.size < 2 ^ 31) (hlow : 2 ^ 31 ≤ i) (hi : i + 1 < 2 ^ 32)
    (haddr : addr2.offset = (q.offset + asU64 (i - 2 ^ 32)) % 2 ^ 64) : (cutBack addr2 q).size = i + 1 := by
  have hoff : asI32 ((addr2.offset : Int) - q.offset) = (i : Int) - 2 ^ 32 := by
    rw [haddr]
    simp only [asI32, asU64, Int.bmod_def]
    omega
  have hsize : asI32 q.size = q.size := asI32_of_lt (by omega) (by omega)
  have htrunc : (asI32 ((q.size : Int) - (i - 2 ^ 32) - 1) % 2 ^ 32).toNat = q.size + 2 ^ 32 - (i + 1) := by
    simp only [asI32, Int.bmod_def]
    omega
  rw [cutBack, hoff, hsize, shrink]
  dsimp only
  rw [htrunc]
  omega

theorem foldl_sizes {a : Nat} (ha : a < 2 ^ 32) (l : List VarnodeData) :
    l.foldl (fun accum piece => (accum + piece.size) % 2 ^ 32) a = (a + span l) % 2 ^ 32 := by
  induction l generalizing a with
  | nil => exact (Nat.mod_eq_of_lt ha).symm
  | cons p l ih =>
      rw [List.foldl_cons, ih (Nat.mod_lt _ (by decide)), span_cons]
      omega

theorem totalSize_zero {l : List VarnodeData} (hl : 2 ≤ l.length) : totalSize l 0 =
    if span l % 2 ^ 32 = 0 then .error (.lowlevel "Cannot create a zero size join") else .ok (span l % 2 ^ 32) := by
  have hempty : ¬l.isEmpty = true := by
    rw [List.isEmpty_iff]
    rintro rfl
    exact absurd hl (by decide)
  rw [totalSize, if_neg hempty, if_neg (by omega), if_neg (by omega), foldl_sizes (by decide), Nat.zero_add]

theorem findAddJoin_of_total {total : Nat} (h : totalSize pieces 0 = .ok total) :
    ∃ r t', t.findAddJoin pieces 0 = .ok (r, t') := by
  rw [findAddJoin, h, ok_bind]
  dsimp only
  split
  · exact ⟨_, _, rfl⟩
  · exact ⟨_, _, rfl⟩

/-- All records are in the join space. -/
def OneSpace (t : JoinTable) : Prop := ∀ r ∈ t.splitlist, r.unifiedSpace = t.joinSpace

theorem OneSpace.findAddJoin (hone : t.OneSpace) (h : t.Stored) {logicalsize : Nat}
    (hr : t.findAddJoin pieces logicalsize = .ok (r, t')) : t'.joinSpace = t.joinSpace ∧ t'.OneSpace := by
  rw [JoinTable.findAddJoin, bind_eq_ok] at hr
  obtain ⟨total, -, hr⟩ := hr
  cases hget : t.getSplit (total, pieces) with
  | some existing =>
      simp only [hget, pure_eq_ok, Except.ok.injEq, Prod.mk.injEq] at hr
      obtain ⟨-, rfl⟩ := hr
      exact ⟨rfl, hone⟩
  | none =>
      simp only [hget, pure_eq_ok, Except.ok.injEq, Prod.mk.injEq] at hr
      obtain ⟨-, rfl⟩ := hr
      refine ⟨rfl, fun x hx => ?_⟩
      obtain hx | hx := List.mem_append.mp hx
      · exact hone x hx
      · rw [List.mem_singleton.mp hx]

theorem OneSpace.step (hone : t.OneSpace) (h : t.Stored) (hs : Step bigEndian t t') : t'.OneSpace := by
  cases hs with
  | add hadd => exact (hone.findAddJoin h hadd).2
  | renormalize hren =>
      obtain rfl | ⟨pieces, r, hadd⟩ := renormalize_cases hren
      · exact hone
      · exact (hone.findAddJoin h hadd).2

theorem Reached.oneSpace (h : Reached bigEndian t) : t.OneSpace := by
  obtain ⟨joinSpace, hrun⟩ := h
  have hall : t.Stored ∧ t.OneSpace := by
    induction hrun with
    | refl => exact ⟨Stored.new joinSpace, fun r hr => absurd hr List.not_mem_nil⟩
    | tail _ hs ih => exact ⟨(ih.1.step hs).1, ih.2.step ih.1 hs⟩
  exact hall.2

/-- What the search by ranges finds covers the offset. -/
theorem findJoinInternal_covers (h : t.Stored) {offset : Nat} (hfound : t.findJoinInternal offset = .ok (some r)) :
    r ∈ t.splitlist ∧ r.unifiedOffset ≤ offset ∧ offset < r.unifiedOffset + r.unifiedSize ∧
      r.unifiedOffset + r.unifiedSize < 2 ^ 64 := by
  obtain ⟨st, -, hleave⟩ := BinarySearch.search_some hfound (fun _ => True) trivial fun _ _ _ _ => trivial
  rw [BinarySearch.halve] at hleave
  split at hleave
  case isFalse => cases hleave
  case isTrue =>
    obtain ⟨x, hx, hleave⟩ := bind_eq_ok.mp hleave
    have hcmp : compareInternal offset x = .eq ∧ x = r := by
      split at hleave <;> cases hleave
      exact ⟨‹_›, rfl⟩
    obtain ⟨heq, rfl⟩ := hcmp
    have hmem : x ∈ t.splitlist := by
      rw [getAt] at hx
      split at hx
      · cases hx
      · exact List.mem_of_getElem? (getIdx_ok_iff.mp hx)
    obtain ⟨before, after, hsplit⟩ := List.append_of_mem hmem
    have hoff : x.unifiedOffset < 2 ^ 64 := by
      rw [h.offsets before x after hsplit]
      exact Nat.mod_lt _ (by decide)
    have hsize := (h.sizes x hmem).2
    rw [compareInternal] at heq
    split_ifs at heq with hend hstart
    exact ⟨hmem, by omega, by omega, by omega⟩

/-- The byte at a position behind an address: a byte of the record there when the
address is a join, and a byte of the space of the address otherwise. -/
def Denotes (bigEndian : Int → Bool) (t : JoinTable) (addr : Location) (i : Nat) (byte : Location) : Prop :=
  if addr.space = t.joinSpace then
    ∃ r ∈ t.splitlist, r.unifiedOffset = addr.offset ∧
      ∃ pos, r.getEquivalentAddress bigEndian (addr.offset + i) = .ok (byte, pos)
  else byte = ⟨addr.space, (addr.offset + i) % 2 ^ 64⟩

/-- The call returns an address with the bytes of the part, or an error when
the part goes on behind the pieces. -/
def RenormalizesExactly (bigEndian : Int → Bool) (t : JoinTable) (r : JoinRecord) (start size : Nat) : Prop :=
  match t.renormalizeJoinAddress bigEndian ⟨t.joinSpace, r.unifiedOffset + start⟩ size with
  | .ok (addr, t') => start + size ≤ span r.pieces ∧ ∀ i < size, ∃ byte pos, byte.space.isSome = true ∧
      r.getEquivalentAddress bigEndian (r.unifiedOffset + (start + i)) = .ok (byte, pos) ∧ t'.Denotes bigEndian addr i byte
  | .error failure => (∃ message, failure = .lowlevel message) ∧ span r.pieces < start + size

theorem Denotes.of_record (h : r.Proper bigEndian big) (hmem : r ∈ t.splitlist) (hspace : r.unifiedSpace = t.joinSpace)
    {i : Nat} {byte : Location} (hbyte : (bytes big r.pieces)[i]? = some byte) :
    t.Denotes bigEndian ⟨r.unifiedSpace, r.unifiedOffset⟩ i byte := by
  rw [Denotes, if_pos hspace]
  exact ⟨r, hmem, rfl, JoinRecord.getEquivalentAddress_bytes h hbyte⟩

/-- A join of pieces is a record with these pieces. -/
theorem findAddJoin_proper (h : t.Stored) (hlen : 2 ≤ pieces.length) (hpos : 1 ≤ span pieces) (hsmall : span pieces < 2 ^ 31)
    (hendian : ∀ p ∈ pieces, p.space.any bigEndian = big) :
    ∃ r t', t.findAddJoin pieces 0 = .ok (r, t') ∧ r ∈ t'.splitlist ∧ r.pieces = pieces ∧ r.Proper bigEndian big := by
  have htotal := totalSize_zero hlen
  have hmod : span pieces % 2 ^ 32 = span pieces := Nat.mod_eq_of_lt (by omega)
  rw [hmod, if_neg (by omega)] at htotal
  obtain ⟨r, t', hadd⟩ := findAddJoin_of_total (t := t) htotal
  obtain ⟨total, htotal', hkey, -⟩ := findAddJoin_cases h hadd
  rw [htotal] at htotal'
  obtain rfl := Except.ok.inj htotal'
  obtain ⟨hunified, hpieces⟩ := Prod.mk.inj hkey
  have hne : pieces ≠ [] := by
    rintro rfl
    exact absurd hlen (by decide)
  exact ⟨r, t', hadd, mem_findAddJoin h hadd, hpieces,
    hpieces ▸ hne, fun p hp => hendian p (hpieces ▸ hp), by rw [hpieces, hunified], hunified ▸ hsmall⟩

/-- A join of pieces has their bytes. -/
theorem findAddJoin_denotes (h : t.Stored) (hone : t.OneSpace) (hlen : 2 ≤ pieces.length) (hpos : 1 ≤ span pieces)
    (hsmall : span pieces < 2 ^ 31) (hendian : ∀ p ∈ pieces, p.space.any bigEndian = big) :
    ∃ r t', t.findAddJoin pieces 0 = .ok (r, t') ∧ ∀ i byte, (bytes big pieces)[i]? = some byte →
      t'.Denotes bigEndian ⟨r.unifiedSpace, r.unifiedOffset⟩ i byte := by
  obtain ⟨r, t', hadd, hmem, hpieces, hproper⟩ := findAddJoin_proper h hlen hpos hsmall hendian
  exact ⟨r, t', hadd, fun i byte hbyte =>
    Denotes.of_record hproper hmem ((hone.findAddJoin h hadd).2 r hmem) (hpieces ▸ hbyte)⟩

/-- The bytes of the pieces from one cut to another. -/
theorem bytes_cut (hwalk : walk big r.pieces = pre ++ p :: (mid ++ q :: post)) (hspan : span r.pieces < 2 ^ 31)
    (hs : s < p.size) (he : e < q.size) (haddr1 : addr1.offset = (p.offset + s) % 2 ^ 64)
    (haddr2 : addr2.offset = (q.offset + e) % 2 ^ 64) (hl : walk big pieces = cutFront addr1 p :: (mid ++ [cutBack addr2 q])) :
    bytes big pieces = ((bytes big r.pieces).drop (span pre + s)).take (p.size - s + span mid + (e + 1)) := by
  have hsum := span_walk big r.pieces
  rw [hwalk] at hsum
  simp only [span_append, span_cons] at hsum
  have hslice := @Segments.slice_split _ _ pieceBytes pre mid post p q s (e + 1)
    (by rw [length_pieceBytes]; omega) (by rw [length_pieceBytes]; omega)
  rw [length_flatMap_pieceBytes, length_flatMap_pieceBytes, length_pieceBytes, ← hwalk] at hslice
  rw [bytes, hl, List.flatMap_cons, List.flatMap_append, List.flatMap_singleton, pieceBytes_cutFront hs (by omega) haddr1,
    pieceBytes_cutBack he (by omega) haddr2, bytes, hslice]

theorem span_cut (hwalk : walk big r.pieces = pre ++ p :: (mid ++ q :: post)) (hspan : span r.pieces < 2 ^ 31)
    (hs : s < p.size) (he : e < q.size) (haddr1 : addr1.offset = (p.offset + s) % 2 ^ 64)
    (haddr2 : addr2.offset = (q.offset + e) % 2 ^ 64) (hl : walk big pieces = cutFront addr1 p :: (mid ++ [cutBack addr2 q])) :
    span pieces = p.size - s + span mid + (e + 1) := by
  have hsum := span_walk big r.pieces
  rw [hwalk] at hsum
  simp only [span_append, span_cons] at hsum
  rw [← span_walk big pieces, hl, span_cons, span_append, span_cons, span_nil, cutFront_eq hs (by omega) haddr1,
    cutBack_eq he (by omega) haddr2]
  dsimp only
  omega

/-- The part starts behind the first piece, and the sizes of the pieces from
the first one to that of its start, one cut and one stretched, add up to 2^32. -/
def SumsToZero (big : Bool) (r : JoinRecord) (start size : Nat) : Prop :=
  ∃ q mid p post, walk big r.pieces = q :: (mid ++ p :: post) ∧ span (q :: mid) ≤ start ∧ start < span (q :: mid) + p.size ∧
    size + 2 * span mid + q.size + p.size = 2 ^ 32

theorem sumsToZero_iff (hwalk : walk big r.pieces = q :: (mid ++ p :: post)) (hlow : span (q :: mid) ≤ start)
    (hhigh : start < span (q :: mid) + p.size) :
    SumsToZero big r start size ↔ size + 2 * span mid + q.size + p.size = 2 ^ 32 := by
  constructor
  · rintro ⟨q', mid', p', post', hwalk', hlow', hhigh', hsum⟩
    have hsplit : q :: mid ++ p :: post = q' :: mid' ++ p' :: post' := hwalk.symm.trans hwalk'
    obtain ⟨hpre, rfl, -⟩ := Segments.split_unique pieceBytes (i := start) hsplit
      (by rwa [length_flatMap_pieceBytes]) (by rwa [length_flatMap_pieceBytes, length_pieceBytes])
      (by rwa [length_flatMap_pieceBytes]) (by rwa [length_flatMap_pieceBytes, length_pieceBytes])
    obtain ⟨rfl, rfl⟩ := List.cons.inj hpre
    exact hsum
  · intro hsum
    exact ⟨q, mid, p, post, hwalk, hlow, hhigh, hsum⟩

section Part

variable (h : t.Stored) (hone : t.OneSpace) (hr : r.Proper bigEndian big)
  (hplaced : ∀ p ∈ r.pieces, p.space.isSome = true) (hphysical : ∀ p ∈ r.pieces, p.space ≠ t.joinSpace)
  (hfound : t.findJoinInternal (r.unifiedOffset + start) = .ok (some r)) (hpos : 1 ≤ size) (hsize : size < 2 ^ 31)

include hfound hpos hsize

/-- The call for a part that is not the whole of a record. -/
theorem renormalize_run {pos1 pos2 : Int} (hpart : ¬(start = 0 ∧ size = r.unifiedSize))
    (hone : r.getEquivalentAddress bigEndian (r.unifiedOffset + start) = .ok (addr1, pos1))
    (htwo : r.getEquivalentAddress bigEndian ((r.unifiedOffset + (start + size - 1)) % 2 ^ 64) = .ok (addr2, pos2)) :
    t.renormalizeJoinAddress bigEndian ⟨t.joinSpace, r.unifiedOffset + start⟩ size =
      if addr2.space.isNone then .error (.lowlevel "Join address range not covered")
      else if pos1 = pos2 then .ok (addr1, t)
      else (do
        let newPieces ← renormalizedPieces r.pieces addr1 addr2 pos1 pos2
        let (newJoinRecord, t) ← t.findAddJoin newPieces 0
        pure (⟨newJoinRecord.unifiedSpace, newJoinRecord.unifiedOffset⟩, t)) := by
  have hcast : ((size : Int) % 2 ^ 32).toNat = size := by omega
  have hlast : r.unifiedOffset + start + asU64 ((size : Int) - 1) = r.unifiedOffset + (start + size - 1) := by
    simp only [asU64]
    omega
  rw [renormalizeJoinAddress, hfound, ok_bind]
  dsimp only
  rw [hcast, if_neg (by omega), hone, ok_bind, hlast, htwo, ok_bind]
  rfl

include h hone hr hplaced hphysical

/-- A part inside of the pieces. -/
theorem renormalizes_inside (hend : start + size ≤ r.unifiedSize) : RenormalizesExactly bigEndian t r start size := by
  obtain ⟨hmem, -, -, hfit⟩ := findJoinInternal_covers h hfound
  have hspan := hr.span_eq
  have hsmall := hr.small
  have hbytes (i : Nat) (hi : i < size) : ∃ byte pos, (bytes big r.pieces)[start + i]? = some byte ∧ byte.space.isSome = true ∧
      r.getEquivalentAddress bigEndian (r.unifiedOffset + (start + i)) = .ok (byte, pos) := by
    have hlt : start + i < (bytes big r.pieces).length := by
      rw [length_bytes]
      omega
    have hbyte := List.getElem?_eq_getElem hlt
    obtain ⟨p, hp, hspace⟩ := exists_piece hbyte
    obtain ⟨pos, hget⟩ := JoinRecord.getEquivalentAddress_bytes hr hbyte
    exact ⟨_, pos, hbyte, hspace ▸ hplaced p hp, hget⟩
  rw [RenormalizesExactly]
  by_cases hpart : start = 0 ∧ size = r.unifiedSize
  · obtain ⟨rfl, rfl⟩ := hpart
    have hcast : ((r.unifiedSize : Int) % 2 ^ 32).toNat = r.unifiedSize := by omega
    have hrun : t.renormalizeJoinAddress bigEndian ⟨t.joinSpace, r.unifiedOffset + 0⟩ r.unifiedSize =
        .ok (⟨t.joinSpace, r.unifiedOffset + 0⟩, t) := by
      rw [renormalizeJoinAddress, hfound, ok_bind]
      dsimp only
      rw [hcast, if_pos ⟨rfl, rfl⟩]
      rfl
    rw [hrun]
    refine ⟨by omega, fun i hi => ?_⟩
    obtain ⟨byte, pos, hbyte, hspace, hget⟩ := hbytes i hi
    have hdenotes := Denotes.of_record hr hmem (hone r hmem) (Nat.zero_add i ▸ hbyte)
    rw [hone r hmem] at hdenotes
    exact ⟨byte, pos, hspace, hget, hdenotes⟩
  · obtain ⟨pre, p, post, hwalk, hlow, hhigh⟩ := Segments.exists_split pieceBytes (l := walk big r.pieces) (i := start)
      (by rw [length_flatMap_pieceBytes, span_walk]; omega)
    obtain ⟨pre', q, post', hwalk', hlow', hhigh'⟩ := Segments.exists_split pieceBytes (l := walk big r.pieces)
      (i := start + size - 1) (by rw [length_flatMap_pieceBytes, span_walk]; omega)
    have horder := Segments.split_order pieceBytes (hwalk ▸ hwalk') hlow hhigh' (by omega)
    rw [length_flatMap_pieceBytes] at hlow hhigh hlow' hhigh'
    rw [length_pieceBytes] at hhigh hhigh'
    have hone' := JoinRecord.getEquivalentAddress_split hr hwalk hlow hhigh
    have htwo := JoinRecord.getEquivalentAddress_split hr hwalk' hlow' hhigh'
    rw [← Nat.mod_eq_of_lt (show r.unifiedOffset + (start + size - 1) < 2 ^ 64 by omega)] at htwo
    have hin (x : VarnodeData) (hx : x ∈ walk big r.pieces) : x ∈ r.pieces := mem_walk.mp hx
    have hp : p ∈ r.pieces := hin p (hwalk ▸ by simp)
    have hq : q ∈ r.pieces := hin q (hwalk' ▸ by simp)
    have hsome : ¬(⟨q.space, (q.offset + (start + size - 1 - span pre')) % 2 ^ 64⟩ : Location).space.isNone = true := by
      simp [Option.isSome_iff_ne_none.mp (hplaced q hq)]
    rw [renormalize_run hfound hpos hsize hpart hone' htwo, if_neg hsome]
    obtain ⟨rfl, rfl, rfl⟩ | ⟨mid, rfl, rfl⟩ := horder
    · rw [if_pos rfl]
      refine ⟨by omega, fun i hi => ?_⟩
      have hget := JoinRecord.getEquivalentAddress_split (i := start + i) hr hwalk (by omega) (by omega)
      refine ⟨_, _, hplaced p hp, hget, ?_⟩
      rw [Denotes, if_neg (hphysical p hp)]
      congr 1
      dsimp only
      omega
    · have hne : position big r.pieces.length pre.length ≠ position big r.pieces.length (pre ++ p :: mid).length := by
        rw [List.length_append, List.length_cons]
        simp only [position]
        split <;> omega
      have hlen : (pre ++ p :: mid).length = pre.length + mid.length + 1 := by
        rw [List.length_append, List.length_cons]
        omega
      rw [span_append, span_cons] at hlow' hhigh'
      rw [if_neg hne, hlen]
      obtain ⟨l, hpieces, hl⟩ := renormalizedPieces_walk
        ⟨p.space, (p.offset + (start - span pre)) % 2 ^ 64⟩
        ⟨q.space, (q.offset + (start + size - 1 - span (pre ++ p :: mid))) % 2 ^ 64⟩ hwalk
      have hcut := bytes_cut (s := start - span pre) (e := start + size - 1 - span (pre ++ p :: mid)) hwalk (by omega) (by omega)
        (by rw [span_append, span_cons]; omega) rfl rfl hl
      have hcount := span_cut (s := start - span pre) (e := start + size - 1 - span (pre ++ p :: mid)) hwalk (by omega) (by omega)
        (by rw [span_append, span_cons]; omega) rfl rfl hl
      have hstart : span pre + (start - span pre) = start := by omega
      have hsum : p.size - (start - span pre) + span mid + (start + size - 1 - span (pre ++ p :: mid) + 1) = size := by
        rw [span_append, span_cons]
        omega
      rw [hstart, hsum] at hcut
      rw [hsum] at hcount
      have hendian : ∀ x ∈ l, x.space.any bigEndian = big := by
        intro x hx
        rw [← @mem_walk big, hl, List.mem_cons, List.mem_append, List.mem_singleton] at hx
        obtain rfl | hx | rfl := hx
        · rw [cutFront_space]
          exact hr.endian p hp
        · exact hr.endian x (hin x (hwalk ▸ by simp [hx]))
        · rw [cutBack_space]
          exact hr.endian q hq
      have htwo' : 2 ≤ l.length := by
        rw [← length_walk big l, hl]
        simp
      obtain ⟨r', t', hadd, hdenotes⟩ := findAddJoin_denotes h hone htwo' (by omega) (by omega) hendian
      rw [hpieces, ok_bind, hadd, ok_bind]
      have hend' : start + size ≤ span r.pieces := by omega
      refine ⟨hend', fun i hi => ?_⟩
      obtain ⟨byte, pos, hbyte, hspace, hget⟩ := hbytes i hi
      refine ⟨byte, pos, hspace, hget, hdenotes i byte ?_⟩
      rw [hcut, List.getElem?_take_of_lt hi, List.getElem?_drop]
      exact hbyte

omit hone hphysical hplaced in
/-- A part that goes on behind the pieces, when its last byte is not lost in
the conversion to an `i32`. -/
theorem renormalizes_past (hend : r.unifiedSize < start + size)
    (hlast : start + size ≤ 2 ^ 31 ∨ 2 ^ 64 < r.unifiedOffset + start + size) : RenormalizesExactly bigEndian t r start size := by
  obtain ⟨-, -, hstart, hfit⟩ := findJoinInternal_covers h hfound
  have hspan := hr.span_eq
  have hsmall := hr.small
  obtain ⟨pre, p, post, hwalk, hlow, hhigh⟩ := Segments.exists_split pieceBytes (l := walk big r.pieces) (i := start)
    (by rw [length_flatMap_pieceBytes, span_walk]; omega)
  rw [length_flatMap_pieceBytes] at hlow hhigh
  rw [length_pieceBytes] at hhigh
  have hone' := JoinRecord.getEquivalentAddress_split hr hwalk hlow hhigh
  have htwo : ∃ pos, r.getEquivalentAddress bigEndian ((r.unifiedOffset + (start + size - 1)) % 2 ^ 64) = .ok (⟨none, 0⟩, pos) := by
    by_cases hwrap : 2 ^ 64 < r.unifiedOffset + start + size
    · refine ⟨-1, ?_⟩
      rw [JoinRecord.getEquivalentAddress, if_pos (by omega)]
      rfl
    · rw [Nat.mod_eq_of_lt (by omega)]
      exact JoinRecord.getEquivalentAddress_past hr (by omega) (by omega)
  obtain ⟨pos, htwo⟩ := htwo
  rw [RenormalizesExactly, renormalize_run hfound hpos hsize (by omega) hone' htwo]
  have hnone : (⟨none, 0⟩ : Location).space.isNone = true := rfl
  rw [if_pos hnone]
  exact ⟨⟨_, rfl⟩, by omega⟩

omit hone hphysical in
/-- A part whose last byte seems to lie before the first piece. -/
theorem renormalizes_wrapped_iff (hlast : 2 ^ 31 < start + size) (hfit : r.unifiedOffset + start + size ≤ 2 ^ 64) :
    RenormalizesExactly bigEndian t r start size ↔ SumsToZero big r start size := by
  obtain ⟨-, -, hstart, -⟩ := findJoinInternal_covers h hfound
  have hspan := hr.span_eq
  have hsmall := hr.small
  obtain ⟨pre, p, post, hwalk, hlow, hhigh⟩ := Segments.exists_split pieceBytes (l := walk big r.pieces) (i := start)
    (by rw [length_flatMap_pieceBytes, span_walk]; omega)
  have hlow' := hlow
  have hhigh' := hhigh
  rw [length_flatMap_pieceBytes] at hlow hhigh
  rw [length_pieceBytes] at hhigh
  have hone' := JoinRecord.getEquivalentAddress_split hr hwalk hlow hhigh
  have hsum : span pre + (p.size + span post) = r.unifiedSize := by
    rw [← span_cons, ← span_append, ← hwalk, span_walk, hspan]
  have hmod : (r.unifiedOffset + (start + size - 1)) % 2 ^ 64 = r.unifiedOffset + (start + size - 1) := Nat.mod_eq_of_lt (by omega)
  cases pre with
  | nil =>
      have htwo := JoinRecord.getEquivalentAddress_negative hr hwalk (i := start + size - 1) (by omega) (by omega)
      rw [← hmod] at htwo
      have hp : p ∈ r.pieces := by
        rw [← @mem_walk big, hwalk]
        exact List.mem_cons_self
      have hsome : ¬p.space.isNone = true := by
        simp [Option.isSome_iff_ne_none.mp (hplaced p hp)]
      rw [RenormalizesExactly, renormalize_run hfound hpos hsize (by omega) hone' htwo, if_neg hsome, List.length_nil, if_pos rfl]
      constructor
      · rintro ⟨hle, -⟩
        omega
      · rintro ⟨q, mid, p', post', hwalk', hle, -, -⟩
        obtain ⟨rfl, -⟩ := List.cons.inj (hwalk.symm.trans hwalk')
        rw [span_cons] at hle
        rw [span_nil] at hhigh
        omega
  | cons q mid =>
      have htwo := JoinRecord.getEquivalentAddress_negative hr hwalk (i := start + size - 1) (by omega) (by omega)
      rw [← hmod] at htwo
      have hq : q ∈ r.pieces := by
        rw [← @mem_walk big, hwalk]
        exact List.mem_cons_self
      have hsome : ¬q.space.isNone = true := by
        simp [Option.isSome_iff_ne_none.mp (hplaced q hq)]
      have hlen : (q :: mid).length = ([] : List VarnodeData).length + mid.length + 1 := by simp
      have hne : position big r.pieces.length (q :: mid).length ≠ position big r.pieces.length 0 := by
        rw [List.length_cons]
        simp only [position]
        split <;> omega
      have hfirst : walk big r.pieces = [] ++ q :: (mid ++ p :: post) := hwalk
      obtain ⟨l, hpieces, hl⟩ := renormalizedPieces_back
        ⟨p.space, (p.offset + (start - span (q :: mid))) % 2 ^ 64⟩
        ⟨q.space, (q.offset + asU64 ((start + size - 1 : Nat) - 2 ^ 32)) % 2 ^ 64⟩ hfirst
      rw [← hlen, List.length_nil] at hpieces
      rw [span_cons] at hsum hlow hhigh
      have hcount : span l = start + size + span mid + (p.size - (start - (q.size + span mid))) := by
        rw [← span_walk big l, hl, span_cons, span_append, span_cons, span_nil, cutBack_negative (by omega) (by omega) (by omega) rfl,
          cutFront_eq (by rw [span_cons]; omega) (by omega) rfl, span_cons]
        dsimp only
        omega
      have htwo' : 2 ≤ l.length := by
        rw [← length_walk big l, hl]
        simp
      rw [sumsToZero_iff hwalk (by rw [span_cons]; omega) (by rw [span_cons]; omega), RenormalizesExactly,
        renormalize_run hfound hpos hsize (by omega) hone' htwo, if_neg hsome, if_neg hne, hpieces, ok_bind]
      have htotal := totalSize_zero htwo'
      by_cases hzero : span l % 2 ^ 32 = 0
      · rw [if_pos hzero] at htotal
        rw [findAddJoin, htotal, error_bind, error_bind]
        refine iff_of_true ⟨⟨_, rfl⟩, by omega⟩ (by omega)
      · rw [if_neg hzero] at htotal
        obtain ⟨r', t', hadd⟩ := findAddJoin_of_total (t := t) htotal
        rw [hadd, ok_bind]
        refine iff_of_false ?_ (by omega)
        rintro ⟨hle, -⟩
        omega

end Part

theorem renormalizeJoinAddress_exact_iff {t : JoinTable} {r : JoinRecord} {start size : Nat} (h : Reached bigEndian t)
    (hr : r.Proper bigEndian big) (hplaced : ∀ p ∈ r.pieces, p.space.isSome = true)
    (hphysical : ∀ p ∈ r.pieces, p.space ≠ t.joinSpace)
    (hfound : t.findJoinInternal (r.unifiedOffset + start) = .ok (some r)) (hpos : 1 ≤ size) (hsize : size < 2 ^ 31) :
    RenormalizesExactly bigEndian t r start size ↔
      start + size ≤ 2 ^ 31 ∨ 2 ^ 64 < r.unifiedOffset + start + size ∨ SumsToZero big r start size := by
  have hsmall := hr.small
  by_cases hend : start + size ≤ r.unifiedSize
  · exact iff_of_true (renormalizes_inside h.stored h.oneSpace hr hplaced hphysical hfound hpos hsize hend) (Or.inl (by omega))
  · by_cases hlast : start + size ≤ 2 ^ 31 ∨ 2 ^ 64 < r.unifiedOffset + start + size
    · exact iff_of_true (renormalizes_past h.stored hr hfound hpos hsize (by omega) hlast) (by omega)
    · rw [renormalizes_wrapped_iff h.stored hr hplaced hfound hpos hsize (by omega) (by omega)]
      constructor
      · exact fun hsum => Or.inr (Or.inr hsum)
      · rintro (hfit | hwrap | hsum)
        · omega
        · omega
        · exact hsum

/-- Two pieces, with the first bytes in the last one. -/
def twoPieces : JoinRecord := ⟨[⟨some 0, 8, 4⟩, ⟨some 0, 32, 4⟩], some 1, 0, 8⟩

def twoPiecesTable : JoinTable := ⟨16, [((8, twoPieces.pieces), twoPieces)], [twoPieces], some 1⟩

theorem reached_twoPiecesTable : Reached (fun _ => false) twoPiecesTable := by
  have hadd : (new (some 1)).findAddJoin twoPieces.pieces 0 = .ok (twoPieces, twoPiecesTable) := by decide
  exact ⟨some 1, Relation.ReflTransGen.single (.add hadd (by decide))⟩

theorem proper_twoPieces : twoPieces.Proper (fun _ => false) false := ⟨by decide, by decide, by decide, by decide⟩

theorem renormalizeJoinAddress_exact_middle :
    RenormalizesExactly (fun _ => false) twoPiecesTable twoPieces 2 4 ↔
      2 + 4 ≤ 2 ^ 31 ∨ 2 ^ 64 < twoPieces.unifiedOffset + 2 + 4 ∨ SumsToZero false twoPieces 2 4 :=
  renormalizeJoinAddress_exact_iff reached_twoPiecesTable proper_twoPieces (by decide) (by decide) (by decide) (by decide) (by decide)

/-- The last byte is at 2^31, which is negative as an `i32`: the part is taken to end in the first piece. -/
theorem renormalizeJoinAddress_past_accepted :
    ¬RenormalizesExactly (fun _ => false) twoPiecesTable twoPieces 2 (2 ^ 31 - 1) := by
  have hrun : twoPiecesTable.renormalizeJoinAddress (fun _ => false) ⟨some 1, twoPieces.unifiedOffset + 2⟩ (2 ^ 31 - 1 : Nat) =
      .ok (⟨some 0, 34⟩, twoPiecesTable) := by decide
  rw [RenormalizesExactly, show twoPiecesTable.joinSpace = some 1 from rfl, hrun]
  rintro ⟨hle, -⟩
  exact absurd hle (by decide)

end JoinTable

end GhidraDecompiler.Translate
