import GhidraDecompiler.Translate.Renormalize

namespace GhidraDecompiler.Translate

open Fallible JoinTable

variable {bigEndian : Int → Bool} {t : JoinTable} {offset size : Nat}

/-- A space with what decides whether a range may run past its end. -/
structure RangedSpace extends AddrSpace where
  name : String
  bigEndian : Bool
  heritaged : Bool
  allowsWrappedRange : Bool

/-- The range goes on at the start of the space when it runs past its end. -/
def wrappedPieces (spc : RangedSpace) (offset : Nat) (sizehi sizelo : Int) : List VarnodeData :=
  let hi : VarnodeData := ⟨some spc.index, offset, (sizehi % 2 ^ 32).toNat⟩
  let lo : VarnodeData := ⟨some spc.index, 0, (sizelo % 2 ^ 32).toNat⟩
  if spc.bigEndian then [hi, lo] else [lo, hi]

/-- The join of a range that runs past the end of its space. -/
def wrappingJoin (t : JoinTable) (spc : Option RangedSpace) (offset : Nat) (size : Int) :
    Outcome (Option JoinRecord × JoinTable) :=
  match spc with
  | none => pure (none, t)
  | some spc =>
      if !spc.heritaged then pure (none, t)
      else
        let dist := asU64 ((spc.highest : Int) - offset + 1)
        if asU64 size ≤ dist then pure (none, t)
        else if !spc.allowsWrappedRange then
          .error (.lowlevel ("Trying to construct memory range beyond end of address space: " ++ spc.name))
        else do
          let sizehi := asI32 dist
          let sizelo := asI32 (size - sizehi)
          let (join, t) ← t.findAddJoin (wrappedPieces spc offset sizehi sizelo) 0
          pure (some join, t)

def constructWrappingAddress (t : JoinTable) (spc : Option RangedSpace) (offset : Nat) (size : Int) :
    Outcome (Location × JoinTable) := do
  let (join, t) ← wrappingJoin t spc offset size
  match join with
  | none => pure (⟨spc.map (·.index), offset⟩, t)
  | some join => pure (⟨join.unifiedSpace, join.unifiedOffset⟩, t)

namespace RangedSpace

variable {spc : RangedSpace}

theorem wrapOffset_above {spc : AddrSpace} {x : Nat} (hx : x < 2 ^ 63) (hhigh : spc.highest < 2 ^ 62) :
    spc.wrapOffset x = x % (spc.highest + 1) := by
  rw [AddrSpace.wrapOffset]
  split
  · exact (Nat.mod_eq_of_lt (by omega)).symm
  · have hmod : asI64 (spc.highest + 1) = ((spc.highest + 1 : Nat) : Int) := by
      simp only [asI64, Int.bmod_def]
      omega
    have hoff : asI64 x = x := by
      simp only [asI64, Int.bmod_def]
      omega
    have hlt : x % (spc.highest + 1) < spc.highest + 1 := Nat.mod_lt _ (Nat.succ_pos _)
    rw [hmod, hoff]
    dsimp only
    rw [if_neg (by omega), Int.tmod_eq_emod_of_nonneg (by omega), ← Int.natCast_emod, if_neg (by omega), asU64]
    omega

/-- A range inside of the space has its own address, and another one, where
that is allowed, the address of a join of two pieces with the wrapped bytes. -/
def WrapsExactly (bigEndian : Int → Bool) (t : JoinTable) (spc : RangedSpace) (offset size : Nat) : Prop :=
  (offset + size ≤ spc.highest + 1 → constructWrappingAddress t (some spc) offset size = .ok (⟨some spc.index, offset⟩, t)) ∧
    (spc.highest + 1 < offset + size → spc.allowsWrappedRange = true →
      ∃ r t', wrappingJoin t (some spc) offset size = .ok (some r, t') ∧
        constructWrappingAddress t (some spc) offset size = .ok (⟨r.unifiedSpace, r.unifiedOffset⟩, t') ∧
        r.pieces.length = 2 ∧ (∀ p ∈ r.pieces, 1 ≤ p.size) ∧
        ∀ i < size, ∃ pos, r.getEquivalentAddress bigEndian (r.unifiedOffset + i) =
          .ok (⟨some spc.index, spc.wrapOffset ((offset + i) % 2 ^ 64)⟩, pos))

theorem walk_wrappedPieces (offset : Nat) (spc : RangedSpace) {d e : Nat} (hd : d < 2 ^ 31) (he : e < 2 ^ 31) :
    walk spc.bigEndian (wrappedPieces spc offset d e) = [⟨some spc.index, offset, d⟩, ⟨some spc.index, 0, e⟩] := by
  have hhi : ((d : Int) % 2 ^ 32).toNat = d := by omega
  have hlo : ((e : Int) % 2 ^ 32).toNat = e := by omega
  rw [wrappedPieces, hhi, hlo]
  cases spc.bigEndian <;> rfl

/-- The bytes up to the end of the space, and the bytes from its start on. -/
theorem bytes_wrappedPieces (offset : Nat) (spc : RangedSpace) {d e i : Nat} (hd : d < 2 ^ 31) (he : e < 2 ^ 31) (hi : i < d + e) :
    (bytes spc.bigEndian (wrappedPieces spc offset d e))[i]? =
      some ⟨some spc.index, if i < d then (offset + i) % 2 ^ 64 else i - d⟩ := by
  rw [bytes, walk_wrappedPieces offset spc hd he, List.flatMap_cons, List.flatMap_singleton]
  split
  case isTrue hlow => rw [List.getElem?_append_left (by rwa [length_pieceBytes]), getElem?_pieceBytes hlow]
  case isFalse hlow =>
    rw [List.getElem?_append_right (by rw [length_pieceBytes]; exact Nat.not_lt.mp hlow), length_pieceBytes,
      getElem?_pieceBytes (by dsimp only; omega), Nat.zero_add, Nat.mod_eq_of_lt (by omega)]

section

variable (h : t.Stored) (hherited : spc.heritaged = true) (hend : bigEndian spc.index = spc.bigEndian)
  (hoffset : offset ≤ spc.highest) (hpos : 1 ≤ size) (hsize : size < 2 ^ 31)

include hherited hoffset hsize

theorem wrappingJoin_run (hdist : ¬(offset = 0 ∧ spc.highest = 2 ^ 64 - 1)) :
    wrappingJoin t (some spc) offset size =
      if offset + size ≤ spc.highest + 1 then .ok (none, t)
      else if !spc.allowsWrappedRange then
        .error (.lowlevel ("Trying to construct memory range beyond end of address space: " ++ spc.name))
      else (do
        let (join, t) ← t.findAddJoin
          (wrappedPieces spc offset (spc.highest + 1 - offset : Nat) (offset + size - (spc.highest + 1) : Nat)) 0
        pure (some join, t)) := by
  have hcases := spc.highest_cases
  have hdist' : asU64 ((spc.highest : Int) - offset + 1) = spc.highest + 1 - offset := by
    simp only [asU64]
    omega
  have hsize' : asU64 size = size := by
    simp only [asU64]
    omega
  simp only [wrappingJoin]
  rw [if_neg (by simp [hherited]), hdist', hsize']
  by_cases hfit : offset + size ≤ spc.highest + 1
  · rw [if_pos (by omega), if_pos hfit]
    rfl
  · have hhi : asI32 (spc.highest + 1 - offset : Nat) = ((spc.highest + 1 - offset : Nat) : Int) :=
      asI32_of_lt (by omega) (by omega)
    have hlo : asI32 ((size : Int) - (spc.highest + 1 - offset : Nat)) = ((offset + size - (spc.highest + 1) : Nat) : Int) := by
      rw [asI32_of_lt (by omega) (by omega)]
      omega
    rw [if_neg (by omega), if_neg hfit, hhi, hlo]

include h hend hpos

/-- The join that is built, with its bytes. -/
theorem wrappingJoin_bytes (hdist : ¬(offset = 0 ∧ spc.highest = 2 ^ 64 - 1)) (hpast : spc.highest + 1 < offset + size)
    (hallowed : spc.allowsWrappedRange = true) :
    ∃ r t', wrappingJoin t (some spc) offset size = .ok (some r, t') ∧ r.pieces.length = 2 ∧ (∀ p ∈ r.pieces, 1 ≤ p.size) ∧
      ∀ i < size, ∃ pos, r.getEquivalentAddress bigEndian (r.unifiedOffset + i) = .ok (⟨some spc.index,
        if i < spc.highest + 1 - offset then (offset + i) % 2 ^ 64 else i - (spc.highest + 1 - offset)⟩, pos) := by
  have hwalk := walk_wrappedPieces offset (d := spc.highest + 1 - offset) (e := offset + size - (spc.highest + 1)) spc
    (by omega) (by omega)
  have hbytes := fun i => bytes_wrappedPieces offset (d := spc.highest + 1 - offset)
    (e := offset + size - (spc.highest + 1)) (i := i) spc (by omega) (by omega)
  generalize hpieces : wrappedPieces spc offset (spc.highest + 1 - offset : Nat) (offset + size - (spc.highest + 1) : Nat) = pieces
    at hwalk hbytes
  have hmem (p : VarnodeData) (hp : p ∈ pieces) :
      p = ⟨some spc.index, offset, spc.highest + 1 - offset⟩ ∨ p = ⟨some spc.index, 0, offset + size - (spc.highest + 1)⟩ := by
    rw [← @mem_walk spc.bigEndian, hwalk] at hp
    simpa using hp
  have hspan : span pieces = size := by
    rw [← span_walk spc.bigEndian, hwalk, span_cons, span_cons, span_nil]
    dsimp only
    omega
  have hlen : pieces.length = 2 := by
    rw [← length_walk spc.bigEndian, hwalk]
    rfl
  have hendian : ∀ p ∈ pieces, p.space.any bigEndian = spc.bigEndian := by
    intro p hp
    obtain rfl | rfl := hmem p hp <;> exact hend
  obtain ⟨r, t', hadd, -, hr, hproper⟩ := findAddJoin_proper h hlen.ge (by omega) (by omega) hendian
  refine ⟨r, t', ?_, hr ▸ hlen, fun p hp => ?_, fun i hi => ?_⟩
  · rw [wrappingJoin_run hherited hoffset hsize hdist, if_neg (by omega), if_neg (by simp [hallowed]), hpieces, hadd]
    rfl
  · obtain rfl | rfl := hmem p (hr ▸ hp)
    · dsimp only
      omega
    · dsimp only
      omega
  · exact JoinRecord.getEquivalentAddress_bytes hproper (hr ▸ hbytes i (by omega))

end

/-- The second piece starts at the start of the space and ends before the next one. -/
theorem wrapOffset_join {i : Nat} (hoffset : offset ≤ spc.highest) (hi : offset + i < 2 * (spc.highest + 1)) (hsmall : i < 2 ^ 31) :
    spc.wrapOffset ((offset + i) % 2 ^ 64) =
      if i < spc.highest + 1 - offset then (offset + i) % 2 ^ 64 else i - (spc.highest + 1 - offset) := by
  have hcases := spc.highest_cases
  split
  case isTrue hlow => rw [AddrSpace.wrapOffset, if_pos (by omega)]
  case isFalse hlow =>
    obtain hsmall' | hfull := hcases
    · rw [Nat.mod_eq_of_lt (by omega), wrapOffset_above (by omega) hsmall', Nat.mod_eq_sub_mod (by omega),
        Nat.mod_eq_of_lt (by omega)]
      omega
    · rw [AddrSpace.wrapOffset, if_pos (by omega)]
      omega

theorem constructWrappingAddress_exact_iff (h : Reached bigEndian t) (hherited : spc.heritaged = true)
    (hjoin : some spc.index ≠ t.joinSpace) (hend : bigEndian spc.index = spc.bigEndian) (hoffset : offset ≤ spc.highest)
    (hpos : 1 ≤ size) (hsize : size < 2 ^ 31) : WrapsExactly bigEndian t spc offset size ↔
      ¬(offset = 0 ∧ spc.highest = 2 ^ 64 - 1) ∧
        (offset + size ≤ spc.highest + 1 ∨ spc.allowsWrappedRange = false ∨ offset + size ≤ 2 * (spc.highest + 1)) := by
  have hcases := spc.highest_cases
  by_cases hdist : offset = 0 ∧ spc.highest = 2 ^ 64 - 1
  · -- the distance to the end is 2^64, which is 0 as a `u64`
    obtain ⟨rfl, hfull⟩ := hdist
    refine iff_of_false ?_ fun hcond => hcond.1 ⟨rfl, hfull⟩
    rintro ⟨hfit, -⟩
    have hrun := hfit (by omega)
    rw [constructWrappingAddress, bind_eq_ok] at hrun
    obtain ⟨⟨join, t'⟩, hjoined, hrun⟩ := hrun
    have hzero : asU64 ((spc.highest : Int) - (0 : Nat) + 1) = 0 := by
      simp only [asU64]
      omega
    have hsize' : asU64 size = size := by
      simp only [asU64]
      omega
    simp only [wrappingJoin] at hjoined
    rw [if_neg (by simp [hherited]), hzero, hsize', if_neg (by omega)] at hjoined
    split at hjoined
    · cases hjoined
    · obtain ⟨⟨r, t''⟩, hadd, hjoined⟩ := bind_eq_ok.mp hjoined
      cases hjoined
      obtain ⟨hspace, hone⟩ := h.oneSpace.findAddJoin h.stored hadd
      have hr := hone r (mem_findAddJoin h.stored hadd)
      simp only [pure_eq_ok, Except.ok.injEq, Prod.mk.injEq, Location.mk.injEq] at hrun
      exact hjoin (hrun.1.1.symm.trans (hr.trans hspace))
  · have hrun := wrappingJoin_run (t := t) hherited hoffset hsize hdist
    by_cases hfit : offset + size ≤ spc.highest + 1
    · refine iff_of_true ⟨fun _ => ?_, fun hpast => absurd hfit (by omega)⟩ ⟨hdist, Or.inl hfit⟩
      rw [if_pos hfit] at hrun
      rw [constructWrappingAddress, hrun]
      rfl
    · cases hallowed : spc.allowsWrappedRange with
      | false =>
          exact iff_of_true ⟨fun hle => absurd hle hfit, fun _ htrue => by rw [hallowed] at htrue; cases htrue⟩
            ⟨hdist, Or.inr (Or.inl rfl)⟩
      | true =>
          obtain ⟨r, t', hjoined, hlen, hnonempty, hbytes⟩ :=
            wrappingJoin_bytes h.stored hherited hend hoffset hpos hsize hdist (by omega) hallowed
          constructor
          · rintro ⟨-, hpast⟩
            refine ⟨hdist, ?_⟩
            by_contra hfar
            obtain ⟨r', t'', hjoined', -, -, -, hbytes'⟩ := hpast (by omega) hallowed
            rw [hjoined] at hjoined'
            cases hjoined'
            obtain hsmall | hfull := hcases
            · -- the first byte after a second time around the space
              obtain ⟨pos, hone⟩ := hbytes (2 * (spc.highest + 1) - offset) (by omega)
              obtain ⟨pos', htwo⟩ := hbytes' (2 * (spc.highest + 1) - offset) (by omega)
              rw [hone] at htwo
              have hsum : offset + (2 * (spc.highest + 1) - offset) = 2 * (spc.highest + 1) := by omega
              have hoff := congrArg (fun byte => byte.1.offset) (Except.ok.inj htwo)
              dsimp only at hoff
              rw [if_neg (by omega), hsum, Nat.mod_eq_of_lt (by omega), wrapOffset_above (by omega) hsmall, Nat.mul_mod_left] at hoff
              omega
            · omega
          · rintro ⟨-, hnear⟩
            have hle : offset + size ≤ 2 * (spc.highest + 1) := by
              obtain hle | hfalse | hle := hnear
              · omega
              · cases hfalse
              · exact hle
            refine ⟨fun hle => absurd hle hfit, fun _ _ => ⟨r, t', hjoined, ?_, hlen, hnonempty, fun i hi => ?_⟩⟩
            · rw [constructWrappingAddress, hjoined]
              rfl
            · rw [wrapOffset_join hoffset (by omega) (by omega)]
              exact hbytes i hi

/-- A space of one byte addresses that allows ranges past its end. -/
def byteSpace : RangedSpace :=
  { spaceType := .processor, addressSize := 1, wordsize := 1, index := 3, wordsize_pos := Nat.one_pos,
    wordsize_le := AddrSpace.one_le_wordsize_limit,
    name := "register", bigEndian := false, heritaged := true, allowsWrappedRange := true }

theorem constructWrappingAddress_exact_past_end :
    WrapsExactly (fun _ => false) (JoinTable.new (some 1)) byteSpace 254 4 ↔
      ¬(254 = 0 ∧ byteSpace.highest = 2 ^ 64 - 1) ∧ (254 + 4 ≤ byteSpace.highest + 1 ∨ byteSpace.allowsWrappedRange = false ∨
        254 + 4 ≤ 2 * (byteSpace.highest + 1)) :=
  constructWrappingAddress_exact_iff ⟨some 1, .refl⟩ rfl (by decide) rfl (by decide) (by decide) (by decide)

/-- A space with all offsets of 64 bits. -/
def wordSpace : RangedSpace :=
  { spaceType := .processor, addressSize := 8, wordsize := 1, index := 3, wordsize_pos := Nat.one_pos,
    wordsize_le := AddrSpace.one_le_wordsize_limit,
    name := "ram", bigEndian := false, heritaged := true, allowsWrappedRange := true }

/-- From offset 0 the distance to the end of a full space is computed as 0. -/
theorem constructWrappingAddress_full_space :
    0 + 8 ≤ wordSpace.highest + 1 ∧
      (constructWrappingAddress (JoinTable.new (some 1)) (some wordSpace) 0 (8 : Nat)).map Prod.fst = .ok ⟨some 1, 0⟩ ∧
      ¬WrapsExactly (fun _ => false) (JoinTable.new (some 1)) wordSpace 0 8 := by
  have hfit : 0 + 8 ≤ wordSpace.highest + 1 := by decide
  have hrun : (constructWrappingAddress (JoinTable.new (some 1)) (some wordSpace) 0 (8 : Nat)).map Prod.fst = .ok ⟨some 1, 0⟩ := by
    decide +kernel
  refine ⟨hfit, hrun, ?_⟩
  rintro ⟨hunchanged, -⟩
  rw [hunchanged hfit] at hrun
  exact absurd hrun (by decide)

end RangedSpace

end GhidraDecompiler.Translate
