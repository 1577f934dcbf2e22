import GhidraDecompiler.Memory.ByteAccess

namespace GhidraDecompiler.Memory

open Pcode ByteLanes BitWords

section Splices

variable {n m j k : Nat} {x v : Word}

/-- Bytes in the middle of a word are replaced. -/
theorem lane_splice_middle (hn : ByteSize n) (hv : v.toNat < 2 ^ (8 * n)) (hk : k < 8) :
    lane (x &&& ~~~(Pcode.calcMask n <<< (8 * j)) ||| v <<< (8 * j)) k =
      if j ≤ k ∧ k < j + n then lane v (k - j) else lane x k := by
  have hk8 : 8 * (k + 1) ≤ 64 := by omega
  rw [lane_or, lane_and, lane_not hk8, lane_shiftLeft hk8, lane_shiftLeft hk8, lane_calcMask hn]
  by_cases hlo : k < j
  · rw [if_pos hlo, if_pos hlo, if_neg (by omega), BitVec.or_zero]
    exact BitVec.and_allOnes
  · rw [if_neg hlo, if_neg hlo]
    by_cases hhi : k < j + n
    · rw [if_pos (by omega), if_pos (by omega), BitVec.not_allOnes, BitVec.and_zero, BitVec.zero_or]
    · rw [if_neg (by omega), if_neg (by omega), lane_eq_zero_of_lt hv (by omega), BitVec.or_zero]
      exact BitVec.and_allOnes

/-- The lowest bytes of a word are replaced. -/
theorem lane_splice_low (hv : v.toNat < 2 ^ (8 * (n + m))) (hk : k < 8) :
    lane (x &&& (~~~0#64) <<< (8 * n) ||| v >>> (8 * m)) k = if k < n then lane v (k + m) else lane x k := by
  have hk8 : 8 * (k + 1) ≤ 64 := by omega
  rw [lane_or, lane_and, lane_shiftLeft hk8, lane_ushiftRight]
  split
  · rw [BitVec.and_zero, BitVec.zero_or]
  · rw [BitVec.not_zero, lane_allOnes (by omega), BitVec.and_allOnes, lane_eq_zero_of_lt hv (by omega), BitVec.or_zero]

/-- The highest bytes of the 64 bit word are cleared, and the value is added from
some byte on. -/
theorem lane_splice_high (hk : k < 8) :
    lane (x &&& (~~~0#64) >>> (8 * n) ||| v <<< (8 * m)) k =
      (if k + n < 8 then lane x k else 0#8) ||| if k < m then 0#8 else lane v (k - m) := by
  have hk8 : 8 * (k + 1) ≤ 64 := by omega
  rw [lane_or, lane_and, lane_ushiftRight, lane_shiftLeft hk8, BitVec.not_zero]
  congr 1
  split
  · rw [lane_allOnes (by omega), BitVec.and_allOnes]
  · rw [lane_of_ge (x := BitVec.allOnes 64) (by omega), BitVec.and_zero]

variable {ws size : Nat} {raw : Bool}

/-- The bytes at the top of a word are replaced by the lowest ones of a value, in a
word that may be narrower than 64 bits: the old bytes are not cleared then, and the
rest of the value goes above the word. -/
theorem splice_top_iff (raw : Bool) (hws : WordSize ws) (hsum : m + n = ws) (hle : size ≤ ws)
    (hx : x.toNat < 2 ^ (8 * ws)) (hv : v.toNat < 2 ^ (8 * size)) :
    ((raw = true → ∀ k, ws ≤ k → k < 8 → lane (x &&& (~~~0#64) >>> (8 * n) ||| v <<< (8 * m)) k = 0#8) ∧
      ∀ k < ws, lane (x &&& (~~~0#64) >>> (8 * n) ||| v <<< (8 * m)) k = if m ≤ k then lane v (k - m) else lane x k) ↔
    (ws = 8 ∨ (raw = true → ∀ k, n ≤ k → k < size → lane v k = 0#8) ∧
      ∀ k, m ≤ k → k < ws → lane x k ||| lane v (k - m) = lane v (k - m)) := by
  by_cases h8 : ws = 8
  · refine iff_of_true ⟨fun _ k hk hk8 => by omega, fun k hk => ?_⟩ (.inl h8)
    rw [lane_splice_high (by omega)]
    by_cases hkm : m ≤ k
    · rw [if_neg (by omega), if_neg (by omega), if_pos hkm, BitVec.zero_or]
    · rw [if_pos (by omega), if_pos (by omega), if_neg hkm, BitVec.or_zero]
  · have hnarrow : ws ≤ 4 := by
      obtain rfl | rfl | rfl | rfl := hws
      · omega
      · omega
      · omega
      · exact absurd rfl h8
    have hup : ∀ k, ws ≤ k → k < 8 → lane (x &&& (~~~0#64) >>> (8 * n) ||| v <<< (8 * m)) k = lane v (k - m) := by
      intro k hk hk8
      rw [lane_splice_high hk8, lane_eq_zero_of_lt hx hk, ite_self, BitVec.zero_or, if_neg (by omega)]
    have hlow : ∀ k < ws, lane (x &&& (~~~0#64) >>> (8 * n) ||| v <<< (8 * m)) k =
        if m ≤ k then lane x k ||| lane v (k - m) else lane x k := by
      intro k hk
      rw [lane_splice_high (by omega), if_pos (by omega)]
      by_cases hkm : m ≤ k
      · rw [if_neg (by omega), if_pos hkm]
      · rw [if_pos (by omega), if_neg hkm, BitVec.or_zero]
    rw [or_iff_right h8]
    refine and_congr (forall_congr' fun _ => ⟨fun h k hk hks => ?_, fun h k hk hk8 => ?_⟩)
      ⟨fun h k hkm hk => ?_, fun h k hk => ?_⟩
    · have hbyte := h (k + m) (by omega) (by omega)
      rwa [hup _ (by omega) (by omega), Nat.add_sub_cancel] at hbyte
    · rw [hup k hk hk8]
      by_cases hks : k - m < size
      · exact h _ (by omega) hks
      · exact lane_eq_zero_of_lt hv (by omega)
    · have hbyte := h k hk
      rwa [hlow k hk, if_pos hkm, if_pos hkm] at hbyte
    · rw [hlow k hk]
      split
      · next hkm => exact h k hkm hk
      · rfl

theorem lane_keep (hws : WordSize ws) (hk : k < ws) : lane (keep raw ws x) k = lane x k := by
  rw [keep]
  split
  · rfl
  · rw [lane_and_calcMask hws.byteSize, if_pos hk]

theorem keep_lt_iff (hws : WordSize ws) :
    (keep raw ws x).toNat < 2 ^ (8 * ws) ↔ (raw = true → ∀ k, ws ≤ k → k < 8 → lane x k = 0#8) := by
  rw [keep]
  cases raw with
  | false => simp only [Bool.false_eq_true, if_false, and_calcMask_lt hws.byteSize, false_imp_iff]
  | true =>
      simp only [if_true, true_imp_iff, lt_iff_lanes]
      refine ⟨fun h k hk _ => h k hk, fun h k hk => ?_⟩
      by_cases hk8 : k < 8
      · exact h k hk hk8
      · exact lane_of_ge (by omega)

end Splices

section Writing

variable {ws size : Nat} {be : Bool} {m m' : Word → Word} {offset val : Word}

/-- The word at the offset, after the write. -/
def GoodWord (be : Bool) (ws : Nat) (old : Word) (offset : Word) (size : Nat) (val new : Word) : Prop :=
  new.toNat < 2 ^ (8 * ws) ∧ ∀ j < ws, byteOf be ws new j =
    if offset.toNat % ws ≤ j ∧ j < offset.toNat % ws + size then byteOf be size val (j - offset.toNat % ws)
    else byteOf be ws old j

/-- The word that follows it. -/
def GoodNext (be : Bool) (ws : Nat) (old : Word) (offset : Word) (size : Nat) (val new : Word) : Prop :=
  new.toNat < 2 ^ (8 * ws) ∧ ∀ j < ws, byteOf be ws new j =
    if ws + j < offset.toNat % ws + size then byteOf be size val (ws + j - offset.toNat % ws) else byteOf be ws old j

theorem ne_add_word (hws : WordSize ws) (a : Word) : a ≠ a + BitVec.ofNat 64 ws := by
  intro heq
  have hnat := congrArg BitVec.toNat heq
  have := a.isLt
  rw [BitVec.toNat_add, BitVec.toNat_ofNat] at hnat
  obtain rfl | rfl | rfl | rfl := hws <;> omega

theorem written_word (hws : WordSize ws) {bytes : Word → BitVec 8} (hsize : size ≤ ws) {j : Nat} (hj : j < ws) :
    written be bytes offset size val (align ws offset + BitVec.ofNat 64 j) =
      if offset.toNat % ws ≤ j ∧ j < offset.toNat % ws + size then byteOf be size val (j - offset.toNat % ws)
      else bytes (align ws offset + BitVec.ofNat 64 j) := by
  have hlt := offset.isLt
  have hnat : (align ws offset + BitVec.ofNat 64 j - offset).toNat =
      if offset.toNat % ws ≤ j then j - offset.toNat % ws else 2 ^ 64 + j - offset.toNat % ws := by
    rw [BitVec.toNat_sub, BitVec.toNat_add, toNat_align hws, BitVec.toNat_ofNat]
    obtain rfl | rfl | rfl | rfl := hws <;> split <;> omega
  have h8 := hws.byteSize.2
  have hmod : offset.toNat % ws < ws := Nat.mod_lt _ hws.byteSize.1
  rw [written, hnat]
  by_cases hle : offset.toNat % ws ≤ j
  · rw [if_pos hle]
    exact if_congr (by omega) rfl rfl
  · rw [if_neg hle, if_neg (by omega), if_neg (by omega)]

theorem written_next (hws : WordSize ws) {bytes : Word → BitVec 8} (hsize : size ≤ ws) {j : Nat} (hj : j < ws) :
    written be bytes offset size val (align ws offset + BitVec.ofNat 64 ws + BitVec.ofNat 64 j) =
      if ws + j < offset.toNat % ws + size then byteOf be size val (ws + j - offset.toNat % ws)
      else bytes (align ws offset + BitVec.ofNat 64 ws + BitVec.ofNat 64 j) := by
  have hlt := offset.isLt
  have hnat : (align ws offset + BitVec.ofNat 64 ws + BitVec.ofNat 64 j - offset).toNat = ws + j - offset.toNat % ws := by
    rw [BitVec.toNat_sub, BitVec.toNat_add, BitVec.toNat_add, toNat_align hws, BitVec.toNat_ofNat, BitVec.toNat_ofNat]
    obtain rfl | rfl | rfl | rfl := hws <;> omega
  have hmod : offset.toNat % ws < ws := Nat.mod_lt _ hws.byteSize.1
  rw [written, hnat]
  exact if_congr (by omega) rfl rfl

theorem written_other (hws : WordSize ws) {bytes : Word → BitVec 8} (hsize : size ≤ ws) {a : Word}
    (ha : a.toNat % ws = 0) (hne : a ≠ align ws offset) (hne' : a ≠ align ws offset + BitVec.ofNat 64 ws) {j : Nat}
    (hj : j < ws) :
    written be bytes offset size val (a + BitVec.ofNat 64 j) = bytes (a + BitVec.ofNat 64 j) := by
  have hlt := offset.isLt
  have hlta := a.isLt
  have h₁ : a.toNat ≠ offset.toNat - offset.toNat % ws := by
    rw [← toNat_align hws]
    exact fun heq => hne (BitVec.eq_of_toNat_eq heq)
  have h₂ : a.toNat ≠ (offset.toNat - offset.toNat % ws + ws) % 2 ^ 64 := by
    intro heq
    refine hne' (BitVec.eq_of_toNat_eq ?_)
    rw [BitVec.toNat_add, toNat_align hws, BitVec.toNat_ofNat, heq]
    obtain rfl | rfl | rfl | rfl := hws <;> omega
  have hge : ¬ (a + BitVec.ofNat 64 j - offset).toNat < size := by
    rw [BitVec.toNat_sub, BitVec.toNat_add, BitVec.toNat_ofNat]
    obtain rfl | rfl | rfl | rfl := hws <;> omega
  rw [written, if_neg hge]

/-- A write changes two words at most. -/
theorem holds_written_iff (hws : WordSize ws) (hsize : size ≤ ws)
    (hfit : ∀ a, a.toNat % ws = 0 → (m a).toNat < 2 ^ (8 * ws))
    (hsame : ∀ a, a ≠ align ws offset → a ≠ align ws offset + BitVec.ofNat 64 ws → m' a = m a) :
    Holds be ws m' (written be (byteAt be ws m) offset size val) ↔
      GoodWord be ws (m (align ws offset)) offset size val (m' (align ws offset)) ∧
        GoodNext be ws (m (align ws offset + BitVec.ofNat 64 ws)) offset size val
          (m' (align ws offset + BitVec.ofNat 64 ws)) := by
  have hold := holds_byteAt be hws hfit
  have hword := hold _ (align_mod hws offset)
  have hnext := hold _ (add_mod_word hws (align_mod hws offset))
  have hiff₁ : ∀ j < ws, ∀ b, b = written be (byteAt be ws m) offset size val (align ws offset + BitVec.ofNat 64 j) ↔
      b = if offset.toNat % ws ≤ j ∧ j < offset.toNat % ws + size then byteOf be size val (j - offset.toNat % ws)
        else byteOf be ws (m (align ws offset)) j := by
    intro j hj b
    rw [written_word hws hsize hj, hword.2 j hj]
  have hiff₂ : ∀ j < ws, ∀ b,
      b = written be (byteAt be ws m) offset size val (align ws offset + BitVec.ofNat 64 ws + BitVec.ofNat 64 j) ↔
      b = if ws + j < offset.toNat % ws + size then byteOf be size val (ws + j - offset.toNat % ws)
        else byteOf be ws (m (align ws offset + BitVec.ofNat 64 ws)) j := by
    intro j hj b
    rw [written_next hws hsize hj, hnext.2 j hj]
  constructor
  · intro h
    have h₁ := h _ (align_mod hws offset)
    have h₂ := h _ (add_mod_word hws (align_mod hws offset))
    exact ⟨⟨h₁.1, fun j hj => (hiff₁ j hj _).mp (h₁.2 j hj)⟩, ⟨h₂.1, fun j hj => (hiff₂ j hj _).mp (h₂.2 j hj)⟩⟩
  · rintro ⟨h₁, h₂⟩ a ha
    by_cases ha₁ : a = align ws offset
    · subst ha₁
      exact ⟨h₁.1, fun j hj => (hiff₁ j hj _).mpr (h₁.2 j hj)⟩
    · by_cases ha₂ : a = align ws offset + BitVec.ofNat 64 ws
      · subst ha₂
        exact ⟨h₂.1, fun j hj => (hiff₂ j hj _).mpr (h₂.2 j hj)⟩
      · rw [hsame a ha₁ ha₂]
        refine ⟨(hold a ha).1, fun j hj => ?_⟩
        rw [written_other hws hsize ha ha₁ ha₂ hj, (hold a ha).2 j hj]

/-- The next word is as it should be when it is not reached. -/
theorem goodNext_same {old : Word} (hold : old.toNat < 2 ^ (8 * ws)) (hin : offset.toNat % ws + size ≤ ws) :
    GoodNext be ws old offset size val old := by
  refine ⟨hold, fun j hj => ?_⟩
  rw [if_neg (by omega)]

end Writing

section Stores

variable {σ ε : Type} {bank : MemoryBank σ ε} {ws size : Nat} {raw : Bool} {words : σ → Word → Word} {offset val : Word}

theorem bind_ok {α β : Type} {x : Except ε α} {f : α → Except ε β} {a : α} {r : Except ε β} (hx : x = .ok a)
    (hf : f a = r) : x.bind f = r := by
  rw [hx]
  exact hf

theorem setValue_within (val : Word) (h : IsMap bank ws raw words) (hws : WordSize ws) (s : σ) (hsize : 1 ≤ size)
    (hin : offset.toNat % ws + size ≤ ws) (hlt : size ≠ ws) :
    ∃ s', bank.setValue s offset size val = .ok s' ∧ words s' = Function.update (words s) (align ws offset)
      (keep raw ws (words s (align ws offset) &&&
          ~~~(Pcode.calcMask size <<< (8 * if bank.isBigEndian then ws - offset.toNat % ws - size else offset.toNat % ws)) |||
        val <<< (8 * if bank.isBigEndian then ws - offset.toNat % ws - size else offset.toNat % ws))) := by
  have hle := hws.byteSize.2
  obtain ⟨s₁, hf₁, hw₁⟩ := h.find s _ (align_mod hws offset)
  have hguard : ¬ (size : Int) > (ws : Int) - (offset.toNat % ws : Nat) := by omega
  have hne : ¬ (size : Int) = ws := by omega
  obtain ⟨s₂, hi, hw₂⟩ := h.insert s₁ _ (words s (align ws offset) &&&
      ~~~(Pcode.calcMask size <<< (8 * if bank.isBigEndian then ws - offset.toNat % ws - size else offset.toNat % ws)) |||
    val <<< (8 * if bank.isBigEndian then ws - offset.toNat % ws - size else offset.toNat % ws)) (align_mod hws offset)
  rw [hw₁] at hw₂
  refine ⟨s₂, ?_, hw₂⟩
  rw [← hi]
  simp only [MemoryBank.setValue, h.wordsize, skip_eq hws, and_not_alignmask hws, if_neg hguard, if_neg hne, hf₁]
  simp only [Bind.bind, Except.bind, MemoryBank.spliceValue, if_true]
  cases bank.isBigEndian with
  | false =>
      simp only [Bool.false_eq_true, if_false]
      rw [wrappingShl_bytes (j := offset.toNat % ws) (by omega) (by omega),
        wrappingShl_bytes (j := offset.toNat % ws) (by omega) (by omega)]
  | true =>
      simp only [if_true]
      rw [wrappingShl_bytes (j := ws - offset.toNat % ws - size) (by omega) (by omega),
        wrappingShl_bytes (j := ws - offset.toNat % ws - size) (by omega) (by omega)]

theorem setValue_word (val : Word) (h : IsMap bank ws raw words) (hws : WordSize ws) (s : σ) (hin : offset.toNat % ws = 0) :
    ∃ s', bank.setValue s offset ws val = .ok s' ∧
      words s' = Function.update (words s) (align ws offset) (keep raw ws val) := by
  obtain ⟨s', hi, hw⟩ := h.insert s _ val (align_mod hws offset)
  refine ⟨s', ?_, hw⟩
  have hguard : ¬ (ws : Int) > (ws : Int) - (offset.toNat % ws : Nat) := by omega
  simp only [MemoryBank.setValue, h.wordsize, skip_eq hws, and_not_alignmask hws, if_neg hguard, if_true, hi]

theorem setValue_straddle (val : Word) (h : IsMap bank ws raw words) (hws : WordSize ws) (s : σ) (hle : size ≤ ws)
    (hout : ws < offset.toNat % ws + size) :
    ∃ s', bank.setValue s offset size val = .ok s' ∧
      words s' = Function.update (Function.update (words s) (align ws offset)
          (keep raw ws (if bank.isBigEndian then
            words s (align ws offset) &&& (~~~0#64) <<< (8 * (ws - offset.toNat % ws)) |||
              val >>> (8 * (offset.toNat % ws + size - ws))
          else
            words s (align ws offset) &&& (~~~0#64) >>> (8 * (ws - offset.toNat % ws)) |||
              val <<< (8 * (offset.toNat % ws)))))
        (align ws offset + BitVec.ofNat 64 ws)
          (keep raw ws (if bank.isBigEndian then
            words s (align ws offset + BitVec.ofNat 64 ws) &&& (~~~0#64) >>> (8 * (offset.toNat % ws + size - ws)) |||
              val <<< (8 * (2 * ws - offset.toNat % ws - size))
          else
            words s (align ws offset + BitVec.ofNat 64 ws) &&& (~~~0#64) <<< (8 * (offset.toNat % ws + size - ws)) |||
              val >>> (8 * (ws - offset.toNat % ws)))) := by
  have h8 := hws.byteSize.2
  have hmod : offset.toNat % ws < ws := Nat.mod_lt _ hws.byteSize.1
  obtain ⟨s₁, hf₁, hw₁⟩ := h.find s _ (align_mod hws offset)
  obtain ⟨s₂, hf₂, hw₂⟩ := h.find s₁ _ (add_mod_word hws (align_mod hws offset))
  rw [hw₁] at hf₂ hw₂
  obtain ⟨s₃, hi₁, hw₃⟩ := h.insert s₂ _ (if bank.isBigEndian then
      words s (align ws offset) &&& (~~~0#64) <<< (8 * (ws - offset.toNat % ws)) |||
        val >>> (8 * (offset.toNat % ws + size - ws))
    else
      words s (align ws offset) &&& (~~~0#64) >>> (8 * (ws - offset.toNat % ws)) |||
        val <<< (8 * (offset.toNat % ws))) (align_mod hws offset)
  obtain ⟨s₄, hi₂, hw₄⟩ := h.insert s₃ _ (if bank.isBigEndian then
      words s (align ws offset + BitVec.ofNat 64 ws) &&& (~~~0#64) >>> (8 * (offset.toNat % ws + size - ws)) |||
        val <<< (8 * (2 * ws - offset.toNat % ws - size))
    else
      words s (align ws offset + BitVec.ofNat 64 ws) &&& (~~~0#64) <<< (8 * (offset.toNat % ws + size - ws)) |||
        val >>> (8 * (ws - offset.toNat % ws))) (add_mod_word hws (align_mod hws offset))
  rw [hw₃, hw₂] at hw₄
  refine ⟨s₄, ?_, hw₄⟩
  have hguard : (size : Int) > (ws : Int) - (offset.toNat % ws : Nat) := by omega
  have hsize2 : ¬ (size : Int) - ((ws : Int) - (offset.toNat % ws : Nat)) = 0 := by omega
  simp only [MemoryBank.setValue, h.wordsize, skip_eq hws, and_not_alignmask hws, if_pos hguard]
  simp only [cxxInt_natCast, hf₁, Bind.bind, Except.bind, hf₂, MemoryBank.spliceValue, if_neg hsize2]
  cases hbe : bank.isBigEndian with
  | false =>
      simp only [hbe, Bool.false_eq_true, if_false] at hi₁ hi₂ ⊢
      rw [wrappingShr_bytes (j := ws - offset.toNat % ws) (by omega) (by omega),
        wrappingShl_bytes (j := offset.toNat % ws) (by omega) (by omega),
        wrappingShl_bytes (j := offset.toNat % ws + size - ws) (by omega) (by omega),
        wrappingShr_bytes (j := ws - offset.toNat % ws) (by omega) (by omega)]
      simp only [h.wordsize, cxxInt_natCast]
      exact bind_ok hi₁ hi₂
  | true =>
      simp only [hbe, if_true] at hi₁ hi₂ ⊢
      rw [wrappingShl_bytes (j := ws - offset.toNat % ws) (by omega) (by omega),
        wrappingShr_bytes (j := offset.toNat % ws + size - ws) (by omega) (by omega),
        wrappingShr_bytes (j := offset.toNat % ws + size - ws) (by omega) (by omega),
        wrappingShl_bytes (j := 2 * ws - offset.toNat % ws - size) (by omega) (by omega)]
      simp only [h.wordsize, cxxInt_natCast]
      exact bind_ok hi₁ hi₂

end Stores

section Accuracy

variable {ws size : Nat} {raw : Bool} {offset val old : Word}

/-- The bytes of a straddling value that are spliced in at the top of their word. -/
def AtTop (isBigEndian : Bool) (ws : Nat) (offset : Word) (j : Nat) : Prop :=
  if isBigEndian then ws - offset.toNat % ws ≤ j else j < ws - offset.toNat % ws

instance (isBigEndian : Bool) (ws : Nat) (offset : Word) (j : Nat) : Decidable (AtTop isBigEndian ws offset j) := by
  unfold AtTop
  infer_instance

/-- A value is spliced in well when the words have 64 bits or it does not straddle
two of them, or else when its bytes at the top of their word cover the old ones, and
nothing is left over above that word. -/
def Spliced (isBigEndian raw : Bool) (ws : Nat) (m : Word → Word) (offset : Word) (size : Nat) (val : Word) : Prop :=
  ws = 8 ∨ offset.toNat % ws + size ≤ ws ∨
    (raw = true → ∀ j < size, ¬ AtTop isBigEndian ws offset j → byteOf isBigEndian size val j = 0#8) ∧
      ∀ j < size, AtTop isBigEndian ws offset j →
        byteAt isBigEndian ws m (offset + BitVec.ofNat 64 j) ||| byteOf isBigEndian size val j =
          byteOf isBigEndian size val j

theorem goodWord_of_lanes (hws : WordSize ws) {be : Bool} {new : Word} (hfit : ∀ k, ws ≤ k → k < 8 → lane new k = 0#8)
    (h : ∀ j < ws, byteOf be ws new j =
      if offset.toNat % ws ≤ j ∧ j < offset.toNat % ws + size then byteOf be size val (j - offset.toNat % ws)
      else byteOf be ws old j) : GoodWord be ws old offset size val (keep raw ws new) := by
  refine ⟨(keep_lt_iff hws).mpr fun _ => hfit, fun j hj => ?_⟩
  rw [← h j hj, byteOf, byteOf, lane_keep hws]
  rw [laneIndex]
  split <;> omega

/-- An access inside of one word is always accurate. -/
theorem goodWord_within (hws : WordSize ws) {be : Bool} (hsize : ByteSize size) (hin : offset.toNat % ws + size ≤ ws)
    (hold : old.toNat < 2 ^ (8 * ws)) (hval : val.toNat < 2 ^ (8 * size)) :
    GoodWord be ws old offset size val (keep raw ws (old &&&
        ~~~(Pcode.calcMask size <<< (8 * if be then ws - offset.toNat % ws - size else offset.toNat % ws)) |||
      val <<< (8 * if be then ws - offset.toNat % ws - size else offset.toNat % ws))) := by
  have h8 := hws.byteSize.2
  refine goodWord_of_lanes hws (fun k hk hk8 => ?_) fun j hj => ?_
  · rw [lane_splice_middle hsize hval hk8, if_neg (by split <;> omega), lane_eq_zero_of_lt hold hk]
  · cases be with
    | false =>
        simp only [byteOf, laneIndex, Bool.false_eq_true, if_false]
        exact lane_splice_middle hsize hval (by omega)
    | true =>
        simp only [byteOf, laneIndex, if_true]
        rw [lane_splice_middle hsize hval (by omega)]
        by_cases hj' : offset.toNat % ws ≤ j ∧ j < offset.toNat % ws + size
        · rw [if_pos hj', if_pos (by omega),
            show ws - 1 - j - (ws - offset.toNat % ws - size) = size - 1 - (j - offset.toNat % ws) by omega]
        · rw [if_neg hj', if_neg (by omega)]

theorem goodWord_full (hws : WordSize ws) {be : Bool} (hin : offset.toNat % ws = 0) (hval : val.toNat < 2 ^ (8 * ws)) :
    GoodWord be ws old offset ws val (keep raw ws val) := by
  refine goodWord_of_lanes hws (fun k hk _ => lane_eq_zero_of_lt hval hk) fun j hj => ?_
  rw [if_pos (by omega), hin, Nat.sub_zero]

/-- In big endian order the first word gets the value at its bottom. -/
theorem goodWord_bigEndian (hws : WordSize ws) (hle : size ≤ ws) (hout : ws < offset.toNat % ws + size)
    (hold : old.toNat < 2 ^ (8 * ws)) (hval : val.toNat < 2 ^ (8 * size)) :
    GoodWord true ws old offset size val (keep raw ws
      (old &&& (~~~0#64) <<< (8 * (ws - offset.toNat % ws)) ||| val >>> (8 * (offset.toNat % ws + size - ws)))) := by
  have h8 := hws.byteSize.2
  have hmod : offset.toNat % ws < ws := Nat.mod_lt _ hws.byteSize.1
  have hval' : val.toNat < 2 ^ (8 * (ws - offset.toNat % ws + (offset.toNat % ws + size - ws))) := by
    rwa [show ws - offset.toNat % ws + (offset.toNat % ws + size - ws) = size by omega]
  refine goodWord_of_lanes hws (fun k hk hk8 => ?_) fun j hj => ?_
  · rw [lane_splice_low hval' hk8, if_neg (by omega), lane_eq_zero_of_lt hold hk]
  · simp only [byteOf, laneIndex, if_true]
    rw [lane_splice_low hval' (by omega)]
    by_cases hj' : offset.toNat % ws ≤ j
    · rw [if_pos (by omega), if_pos (by omega),
        show ws - 1 - j + (offset.toNat % ws + size - ws) = size - 1 - (j - offset.toNat % ws) by omega]
    · rw [if_neg (by omega), if_neg (by omega)]

/-- In little endian order the second word gets the value at its bottom. -/
theorem goodNext_littleEndian (hws : WordSize ws) (hle : size ≤ ws) (hout : ws < offset.toNat % ws + size)
    (hold : old.toNat < 2 ^ (8 * ws)) (hval : val.toNat < 2 ^ (8 * size)) :
    GoodNext false ws old offset size val (keep raw ws
      (old &&& (~~~0#64) <<< (8 * (offset.toNat % ws + size - ws)) ||| val >>> (8 * (ws - offset.toNat % ws)))) := by
  have h8 := hws.byteSize.2
  have hmod : offset.toNat % ws < ws := Nat.mod_lt _ hws.byteSize.1
  have hval' : val.toNat < 2 ^ (8 * (offset.toNat % ws + size - ws + (ws - offset.toNat % ws))) := by
    rwa [show offset.toNat % ws + size - ws + (ws - offset.toNat % ws) = size by omega]
  refine ⟨(keep_lt_iff hws).mpr fun _ k hk hk8 => ?_, fun j hj => ?_⟩
  · rw [lane_splice_low hval' hk8, if_neg (by omega), lane_eq_zero_of_lt hold hk]
  · simp only [byteOf, laneIndex, Bool.false_eq_true, if_false]
    rw [lane_keep hws hj, lane_splice_low hval' (by omega)]
    by_cases hj' : ws + j < offset.toNat % ws + size
    · rw [if_pos (by omega), if_pos hj', show j + (ws - offset.toNat % ws) = ws + j - offset.toNat % ws by omega]
    · rw [if_neg (by omega), if_neg hj']

/-- In little endian order the first word gets the value at its top. -/
theorem goodWord_littleEndian_iff (hws : WordSize ws) (hle : size ≤ ws) (hout : ws < offset.toNat % ws + size)
    {m : Word → Word} (hold : (m (align ws offset)).toNat < 2 ^ (8 * ws)) (hval : val.toNat < 2 ^ (8 * size)) :
    GoodWord false ws (m (align ws offset)) offset size val (keep raw ws
      (m (align ws offset) &&& (~~~0#64) >>> (8 * (ws - offset.toNat % ws)) ||| val <<< (8 * (offset.toNat % ws)))) ↔
    Spliced false raw ws m offset size val := by
  have hmod : offset.toNat % ws < ws := Nat.mod_lt _ hws.byteSize.1
  have hiff := splice_top_iff raw hws (show offset.toNat % ws + (ws - offset.toNat % ws) = ws by omega) hle hold hval
  rw [Spliced, or_iff_right (show ¬ offset.toNat % ws + size ≤ ws by omega)]
  refine Iff.trans (and_congr (keep_lt_iff hws) ?_) (hiff.trans (or_congr_right (and_congr ?_ ?_)))
  · refine forall₂_congr fun j hj => ?_
    simp only [byteOf, laneIndex, Bool.false_eq_true, if_false, lane_keep hws hj]
    rw [if_congr (show offset.toNat % ws ≤ j ∧ j < offset.toNat % ws + size ↔ offset.toNat % ws ≤ j by omega) rfl rfl]
  · refine forall_congr' fun _ => forall_congr' fun j => ?_
    simp only [AtTop, byteOf, laneIndex, Bool.false_eq_true, if_false, Nat.not_lt]
    exact forall_comm
  · constructor
    · intro h j _ htop
      have htop' : j < ws - offset.toNat % ws := htop
      have hbyte := h (offset.toNat % ws + j) (by omega) (by omega)
      rw [Nat.add_sub_cancel_left] at hbyte
      rw [byteAt_add_low hws (by omega)]
      exact hbyte
    · intro h k hk hkw
      have hbyte := h (k - offset.toNat % ws) (by omega) (show k - offset.toNat % ws < ws - offset.toNat % ws by omega)
      rw [byteAt_add_low hws (by omega), Nat.add_sub_cancel' hk] at hbyte
      exact hbyte

/-- In big endian order the second word gets the value at its top. -/
theorem goodNext_bigEndian_iff (hws : WordSize ws) (hle : size ≤ ws) (hout : ws < offset.toNat % ws + size)
    {m : Word → Word} (hold : (m (align ws offset + BitVec.ofNat 64 ws)).toNat < 2 ^ (8 * ws))
    (hval : val.toNat < 2 ^ (8 * size)) :
    GoodNext true ws (m (align ws offset + BitVec.ofNat 64 ws)) offset size val (keep raw ws
      (m (align ws offset + BitVec.ofNat 64 ws) &&& (~~~0#64) >>> (8 * (offset.toNat % ws + size - ws)) |||
        val <<< (8 * (2 * ws - offset.toNat % ws - size)))) ↔
    Spliced true raw ws m offset size val := by
  have hmod : offset.toNat % ws < ws := Nat.mod_lt _ hws.byteSize.1
  have hiff := splice_top_iff raw hws
    (show 2 * ws - offset.toNat % ws - size + (offset.toNat % ws + size - ws) = ws by omega) hle hold hval
  rw [Spliced, or_iff_right (show ¬ offset.toNat % ws + size ≤ ws by omega)]
  refine Iff.trans (and_congr (keep_lt_iff hws) ?_) (hiff.trans (or_congr_right (and_congr ?_ ?_)))
  · -- the byte with the j-th address is the j-th one from the top
    simp only [byteOf, laneIndex, if_true]
    constructor
    · intro h k hk
      have hbyte := h (ws - 1 - k) (by omega)
      rw [lane_keep hws (by omega), show ws - 1 - (ws - 1 - k) = k by omega] at hbyte
      rw [hbyte]
      by_cases hk' : 2 * ws - offset.toNat % ws - size ≤ k
      · rw [if_pos (by omega), if_pos hk',
          show size - 1 - (ws + (ws - 1 - k) - offset.toNat % ws) = k - (2 * ws - offset.toNat % ws - size) by omega]
      · rw [if_neg (by omega), if_neg hk']
    · intro h j hj
      rw [lane_keep hws (by omega), h _ (by omega)]
      by_cases hj' : ws + j < offset.toNat % ws + size
      · rw [if_pos (by omega), if_pos hj',
          show size - 1 - (ws + j - offset.toNat % ws) = ws - 1 - j - (2 * ws - offset.toNat % ws - size) by omega]
      · rw [if_neg (by omega), if_neg hj']
  · refine forall_congr' fun _ => ?_
    simp only [AtTop, byteOf, laneIndex, if_true]
    constructor
    · exact fun h j hj htop => h _ (by omega) (by omega)
    · intro h k hk hks
      have hbyte := h (size - 1 - k) (by omega) (by omega)
      rwa [show size - 1 - (size - 1 - k) = k by omega] at hbyte
  · constructor
    · intro h j hj htop
      have htop' : ws - offset.toNat % ws ≤ j := htop
      have hbyte := h (ws - 1 - (offset.toNat % ws + j - ws)) (by omega) (by omega)
      rw [show ws - 1 - (offset.toNat % ws + j - ws) - (2 * ws - offset.toNat % ws - size) = size - 1 - j by omega] at hbyte
      rw [byteAt_add_high hws (by omega) (by omega)]
      exact hbyte
    · intro h k hk hkw
      have hbyte := h (2 * ws - 1 - offset.toNat % ws - k) (by omega)
        (show ws - offset.toNat % ws ≤ 2 * ws - 1 - offset.toNat % ws - k by omega)
      rw [byteAt_add_high hws (by omega) (by omega)] at hbyte
      simp only [byteOf, laneIndex, if_true] at hbyte
      rwa [show ws - 1 - (offset.toNat % ws + (2 * ws - 1 - offset.toNat % ws - k) - ws) = k by omega,
        show size - 1 - (2 * ws - 1 - offset.toNat % ws - k) = k - (2 * ws - offset.toNat % ws - size) by omega] at hbyte

/-- The memory after a write reads as if its bytes alone had been replaced, exactly
when the value is spliced in well. -/
theorem setValue_accurate_iff {σ ε : Type} {bank : MemoryBank σ ε} {words : σ → Word → Word}
    (h : IsMap bank ws raw words) (hws : WordSize ws) (s : σ)
    (hfit : ∀ a, a.toNat % ws = 0 → (words s a).toNat < 2 ^ (8 * ws)) (offset : Word) (hsize : 1 ≤ size) (hle : size ≤ ws)
    (val : Word) (hval : val.toNat < 2 ^ (8 * size)) :
    Reads bank ws s (byteAt bank.isBigEndian ws (words s)) ∧
      ((∃ s', bank.setValue s offset size val = .ok s' ∧
          Reads bank ws s' (written bank.isBigEndian (byteAt bank.isBigEndian ws (words s)) offset size val)) ↔
        Spliced bank.isBigEndian raw ws (words s) offset size val) := by
  refine ⟨reads_of_holds h hws (holds_byteAt _ hws hfit), ?_⟩
  have hold := hfit _ (align_mod hws offset)
  have hnext := hfit _ (add_mod_word hws (align_mod hws offset))
  have hne := ne_add_word hws (align ws offset)
  -- the state after the write is known, so the reads from it are decided by its two words
  have hdecide : ∀ {s'}, bank.setValue s offset size val = .ok s' →
      (∀ a, a ≠ align ws offset → a ≠ align ws offset + BitVec.ofNat 64 ws → words s' a = words s a) →
      ((∃ s', bank.setValue s offset size val = .ok s' ∧
          Reads bank ws s' (written bank.isBigEndian (byteAt bank.isBigEndian ws (words s)) offset size val)) ↔
        GoodWord bank.isBigEndian ws (words s (align ws offset)) offset size val (words s' (align ws offset)) ∧
          GoodNext bank.isBigEndian ws (words s (align ws offset + BitVec.ofNat 64 ws)) offset size val
            (words s' (align ws offset + BitVec.ofNat 64 ws))) := by
    intro s' hs' hsame
    rw [← holds_written_iff hws hle hfit hsame, ← reads_iff_holds h hws]
    refine ⟨fun ⟨s'', hs'', hr⟩ => ?_, fun hr => ⟨s', hs', hr⟩⟩
    obtain rfl : s' = s'' := Except.ok.inj (hs'.symm.trans hs'')
    exact hr
  by_cases hin : offset.toNat % ws + size ≤ ws
  · have hgood : ∃ s', bank.setValue s offset size val = .ok s' ∧ ∃ new, words s' = Function.update (words s) (align ws offset) new ∧
        GoodWord bank.isBigEndian ws (words s (align ws offset)) offset size val new := by
      by_cases hfull : size = ws
      · subst hfull
        obtain ⟨s', hs', hw⟩ := setValue_word val h hws s (show offset.toNat % size = 0 by omega)
        exact ⟨s', hs', _, hw, goodWord_full hws (by omega) hval⟩
      · obtain ⟨s', hs', hw⟩ := setValue_within val h hws s hsize hin hfull
        exact ⟨s', hs', _, hw, goodWord_within hws ⟨hsize, hle.trans hws.byteSize.2⟩ hin hold hval⟩
    obtain ⟨s', hs', new, hw, hnew⟩ := hgood
    rw [hdecide hs' fun a ha _ => by rw [hw, Function.update_of_ne ha]]
    refine iff_of_true ⟨?_, ?_⟩ (.inr (.inl hin))
    · rw [hw, Function.update_self]
      exact hnew
    · rw [hw, Function.update_of_ne hne.symm]
      exact goodNext_same hnext hin
  · obtain ⟨s', hs', hw⟩ := setValue_straddle val h hws s hle (show ws < offset.toNat % ws + size by omega)
    rw [hdecide hs' fun a ha ha' => by rw [hw, Function.update_of_ne ha', Function.update_of_ne ha], hw,
      Function.update_of_ne hne, Function.update_self, Function.update_self]
    cases bank.isBigEndian with
    | false =>
        simp only [Bool.false_eq_true, if_false]
        rw [and_iff_left (goodNext_littleEndian hws hle (by omega) hnext hval)]
        exact goodWord_littleEndian_iff hws hle (by omega) hold hval
    | true =>
        simp only [if_true]
        rw [and_iff_right (goodWord_bigEndian hws hle (by omega) hold hval)]
        exact goodNext_bigEndian_iff hws hle (by omega) hnext hval

/-- A bank that is a map itself. -/
def mapBank (ws : Nat) (isBigEndian : Bool) : MemoryBank (Word → Word) Error :=
  ⟨ws, isBigEndian, fun s a v => .ok (Function.update s a v), fun s a => .ok (s a, s)⟩

theorem mapBank_isMap (ws : Nat) (isBigEndian : Bool) : IsMap (mapBank ws isBigEndian) ws true id :=
  ⟨rfl, fun s _ _ => ⟨s, rfl, rfl⟩, fun s a v _ => ⟨Function.update s a v, rfl, rfl⟩⟩

/-- A write across two words of eight bytes. -/
theorem setValue_accurate_iff_wide :
    ∃ s', (mapBank 8 true).setValue (fun _ => 0xffffffffffffffff#64) 5 8 0x1122334455667788#64 = .ok s' ∧
      Reads (mapBank 8 true) 8 s'
        (written true (byteAt true 8 fun _ => 0xffffffffffffffff#64) 5 8 0x1122334455667788#64) :=
  (setValue_accurate_iff (mapBank_isMap 8 true) (.inr (.inr (.inr rfl))) (fun _ => 0xffffffffffffffff#64)
    (fun _ _ => show (0xffffffffffffffff#64).toNat < 2 ^ (8 * 8) by decide) 5 (show 1 ≤ 8 by decide) le_rfl
    0x1122334455667788#64 (by decide)).2.mpr (.inl rfl)

/-- Two bytes of zeros are written across words of two bytes, and the first one
keeps its ones. -/
theorem setValue_keeps_old_bits :
    ¬ ∃ s', (mapBank 2 false).setValue (fun _ => 0xffff#64) 1 2 0#64 = .ok s' ∧
      Reads (mapBank 2 false) 2 s' (written false (byteAt false 2 fun _ => 0xffff#64) 1 2 0#64) := by
  rintro ⟨s', hs', hr⟩
  obtain ⟨v, s'', hv, -, hbytes⟩ := hr 1 1 le_rfl (by decide)
  have hread : ((mapBank 2 false).setValue (fun _ => 0xffff#64) 1 2 0#64).bind
      (fun s => ((mapBank 2 false).getValue s 1 1).map Prod.fst) = .ok 0xff#64 := rfl
  have hval : (.ok v : Except Error Word) = .ok 0xff#64 := by
    rw [← hread, hs']
    exact (congrArg (Except.map Prod.fst) hv).symm
  have hbyte := hbytes 0 (by decide)
  rw [Except.ok.inj hval] at hbyte
  exact absurd hbyte (by decide)

end Accuracy

end GhidraDecompiler.Memory
