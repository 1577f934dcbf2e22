import GhidraDecompiler.Xml.XmlScan
import Mathlib.Data.List.TakeWhile

namespace GhidraDecompiler.Xml.XmlScan

variable {s : XmlScan} {c : Int} {cs w rest : List Int}

/-- The characters that have not entered the ring buffer: the bytes before the
first zero and a line break. After them the file has ended. -/
def unread (s : XmlScan) : List Int :=
  if s.endofstream then [] else ((s.input.drop s.index).takeWhile (· ≠ 0)).map signed ++ [code '\n']

/-- The characters to come, with those in the ring buffer first. -/
def upcoming (s : XmlScan) (k : Nat) : Int := if h : k < 4 then s.next ⟨k, h⟩ else s.unread[k - 4]?.getD (-1)

def Sees (s : XmlScan) (cs : List Int) : Prop := ∀ k, s.upcoming k = cs[k]?.getD (-1)

/-- One character of the stream enters the ring buffer. -/
theorem fetch_eq (s : XmlScan) :
    s.fetch.1 = s.unread.headD (-1) ∧ ({ s with index := s.fetch.2.1, endofstream := s.fetch.2.2 } : XmlScan).unread = s.unread.tail := by
  cases hend : s.endofstream with
  | true => simp [fetch, unread, hend]
  | false =>
      cases hget : s.input[s.index]? with
      | none =>
          have hdrop : s.input.drop s.index = [] := List.drop_eq_nil_of_le (List.getElem?_eq_none_iff.mp hget)
          simp [fetch, unread, hend, hget, hdrop]
      | some byte =>
          obtain ⟨hlt, hbyte⟩ := List.getElem?_eq_some_iff.mp hget
          have hdrop : s.input.drop s.index = byte :: s.input.drop (s.index + 1) := by
            rw [List.drop_eq_getElem_cons hlt, hbyte]
          by_cases hzero : byte = 0
          · simp [fetch, unread, hend, hget, hdrop, hzero]
          · simp [fetch, unread, hend, hget, hdrop, hzero]

theorem getxmlchar_unread (s : XmlScan) : s.getxmlchar.2.unread = s.unread.tail := s.fetch_eq.2

theorem getxmlchar_upcoming (s : XmlScan) (k : Nat) : s.getxmlchar.2.upcoming k = s.upcoming (k + 1) := by
  have hnext (i : Fin 4) : s.getxmlchar.2.next i = if i = 3 then s.unread.headD (-1) else s.next (i + 1) := by
    simp only [getxmlchar, next, Function.update_apply]
    rw [s.fetch_eq.1]
    have hpos : s.pos + 1 + i = s.pos ↔ i = 3 := by
      have h : ∀ p i : Fin 4, p + 1 + i = p ↔ i = 3 := by decide
      exact h s.pos i
    rw [add_assoc, add_comm 1 i, ← add_assoc] at hpos ⊢
    simp only [add_assoc] at hpos ⊢
    simp only [hpos]
  by_cases hk : k + 1 < 4
  · rw [upcoming, dif_pos (by omega), upcoming, dif_pos hk, hnext, if_neg]
    · congr 1
      apply Fin.ext
      change (k + 1) % 4 = k + 1
      omega
    · intro h
      have := congrArg Fin.val h
      simp at this
      omega
  · by_cases hthree : k = 3
    · subst hthree
      rw [upcoming, dif_pos (by omega), hnext, upcoming, dif_neg (by omega)]
      cases s.unread <;> rfl
    · rw [upcoming, dif_neg (by omega), upcoming, dif_neg (by omega), getxmlchar_unread, List.getElem?_tail]
      congr 2
      omega

@[simp] theorem getxmlchar_fst (s : XmlScan) : s.getxmlchar.1 = s.upcoming 0 := by
  simp [getxmlchar, upcoming, next]

theorem next_eq (s : XmlScan) (k : Fin 4) : s.next k = s.upcoming k := by
  rw [upcoming, dif_pos k.isLt]

theorem getxmlchar_curmode (s : XmlScan) : s.getxmlchar.2.curmode = s.curmode := rfl

theorem getxmlchar_lvalue (s : XmlScan) : s.getxmlchar.2.lvalue = s.lvalue := rfl

theorem Sees.next_zero (h : s.Sees cs) : s.next 0 = cs.headD (-1) := by
  rw [next_eq, Fin.val_zero, h 0]
  cases cs <;> rfl

theorem Sees.next_zero_cons (h : s.Sees (c :: cs)) : s.next 0 = c := h.next_zero

theorem Sees.getxmlchar (h : s.Sees (c :: cs)) : s.getxmlchar.1 = c ∧ s.getxmlchar.2.Sees cs := by
  refine ⟨?_, fun k => ?_⟩
  · rw [getxmlchar_fst, h 0]
    rfl
  · rw [getxmlchar_upcoming, h (k + 1)]
    rfl

theorem Sees.getxmlchar_end (h : s.Sees []) : s.getxmlchar.1 = -1 ∧ s.getxmlchar.2.Sees [] := by
  refine ⟨?_, fun k => ?_⟩
  · rw [getxmlchar_fst, h 0]
    rfl
  · rw [getxmlchar_upcoming, h (k + 1)]
    rfl

theorem Sees.pushChar (h : s.Sees (c :: cs)) :
    s.pushChar.Sees cs ∧ s.pushChar.lvalue = s.lvalue ++ [UInt8.ofInt c] ∧ s.pushChar.curmode = s.curmode := by
  obtain ⟨hfst, hsnd⟩ := h.getxmlchar
  refine ⟨hsnd, ?_, rfl⟩
  rw [← hfst]
  rfl

theorem length_unread_le (s : XmlScan) : s.unread.length ≤ s.input.length - s.index + 1 := by
  have hlen : ((s.input.drop s.index).takeWhile (· ≠ 0)).length ≤ s.input.length - s.index := by
    rw [← List.length_drop]
    exact (List.takeWhile_prefix _).length_le
  rw [unread]
  split
  · simp
  · rw [List.length_append, List.length_map]
    exact Nat.add_le_add_right hlen 1

theorem lt_remaining {k : Nat} (h : s.upcoming k ≠ -1) : k < s.remaining := by
  by_contra hle
  apply h
  have hlen := s.length_unread_le
  rw [remaining] at hle
  rw [upcoming, dif_neg (by omega), List.getElem?_eq_none (by omega), Option.getD_none]

theorem Sees.length_le_remaining (h : s.Sees (w ++ rest)) (hw : ∀ c ∈ w, c ≠ -1) : w.length ≤ s.remaining := by
  cases hlen : w.length with
  | zero => omega
  | succ n =>
      apply lt_remaining
      rw [h n, List.getElem?_append_left (by omega), List.getElem?_eq_getElem (by omega), Option.getD_some]
      exact hw _ (List.getElem_mem _)

theorem pushChar_upcoming (s : XmlScan) (k : Nat) : s.pushChar.upcoming k = s.upcoming (k + 1) :=
  s.getxmlchar_upcoming k

/-- The fuel of a loop is never what stops it. -/
theorem pushWhile_stops (p : XmlScan → Bool) (fuel : Nat) (s : XmlScan) (h : s.upcoming fuel = -1) :
    (pushWhile p fuel s).next 0 = -1 ∨ p (pushWhile p fuel s) = false := by
  induction fuel generalizing s with
  | zero =>
      left
      rw [pushWhile, next_eq]
      exact h
  | succ fuel ih =>
      rw [pushWhile]
      split
      · exact ih s.pushChar (by rw [pushChar_upcoming, h])
      · rename_i hstop
        by_cases hend : s.next 0 = -1
        · exact Or.inl hend
        · right
          simpa [hend] using hstop

theorem pushAll_stops (p : XmlScan → Bool) (s : XmlScan) : (s.pushAll p).next 0 = -1 ∨ p (s.pushAll p) = false := by
  apply pushWhile_stops
  by_contra h
  exact Nat.lt_irrefl _ (lt_remaining h)

/-- What a loop that looks at one character pushes. -/
theorem pushWhile_spec {p : Int → Bool} {fuel : Nat} (h : s.Sees (w ++ rest)) (hfuel : w.length ≤ fuel)
    (hw : ∀ c ∈ w, c ≠ -1 ∧ p c = true) (hrest : rest.headD (-1) = -1 ∨ p (rest.headD (-1)) = false) :
    (pushWhile (fun s => p (s.next 0)) fuel s).Sees rest ∧
      (pushWhile (fun s => p (s.next 0)) fuel s).lvalue = s.lvalue ++ w.map UInt8.ofInt ∧
      (pushWhile (fun s => p (s.next 0)) fuel s).curmode = s.curmode := by
  induction w generalizing s fuel with
  | nil =>
      have hstop : pushWhile (fun s => p (s.next 0)) fuel s = s := by
        cases fuel with
        | zero => rfl
        | succ fuel =>
            rw [pushWhile, if_neg]
            rw [h.next_zero, List.nil_append]
            obtain hend | hend := hrest
            · rw [hend]
              simp
            · rw [hend]
              simp
      rw [hstop]
      exact ⟨h, by simp, rfl⟩
  | cons c w ih =>
      obtain ⟨fuel, rfl⟩ : ∃ n, fuel = n + 1 := ⟨fuel - 1, by simp at hfuel; omega⟩
      obtain ⟨hne, hp⟩ := hw c List.mem_cons_self
      obtain ⟨hsees, hlvalue, hmode⟩ := Sees.pushChar h
      have hgo : pushWhile (fun s => p (s.next 0)) (fuel + 1) s = pushWhile (fun s => p (s.next 0)) fuel s.pushChar := by
        rw [pushWhile, if_pos]
        rw [h.next_zero_cons]
        simp [hne, hp]
      obtain ⟨hs, hl, hm⟩ := ih hsees (by simpa using hfuel) (fun c hc => hw c (List.mem_cons_of_mem _ hc))
      rw [hgo]
      refine ⟨hs, ?_, hm.trans hmode⟩
      rw [hl, hlvalue, List.map_cons, List.append_assoc]
      rfl

theorem pushAll_spec {p : Int → Bool} (h : s.Sees (w ++ rest)) (hw : ∀ c ∈ w, c ≠ -1 ∧ p c = true)
    (hrest : rest.headD (-1) = -1 ∨ p (rest.headD (-1)) = false) :
    (s.pushAll fun s => p (s.next 0)).Sees rest ∧
      (s.pushAll fun s => p (s.next 0)).lvalue = s.lvalue ++ w.map UInt8.ofInt ∧
      (s.pushAll fun s => p (s.next 0)).curmode = s.curmode :=
  pushWhile_spec h (h.length_le_remaining fun c hc => (hw c hc).1) hw hrest

theorem new_sees {input : List UInt8} (h : 0 ∉ input) : (new input).Sees (input.map signed ++ [code '\n']) := by
  intro k
  rw [new, getxmlchar_upcoming, getxmlchar_upcoming, getxmlchar_upcoming, getxmlchar_upcoming, upcoming, dif_neg (by omega), unread]
  have htake : input.takeWhile (fun b => !decide (b = 0)) = input := by
    rw [List.takeWhile_eq_self_iff]
    intro b hb
    simpa using fun hzero : b = 0 => h (hzero ▸ hb)
  simp [htake]

/-- A scan returned a token with a value, and what it leaves. -/
structure Scans (r : Int × XmlScan) (token : Int) (value : List UInt8) (rest : List Int) : Prop where
  token : r.1 = token
  value : r.2.lvalue = value
  sees : r.2.Sees rest
  mode : r.2.curmode = .single

theorem scanSingle_eq (s : XmlScan) : s.scanSingle =
    if s.getxmlchar.1 = code '<' then
      (if isInitialNameChar (s.getxmlchar.2.next 0) then elementBraceToken else commandBraceToken, s.getxmlchar.2)
    else (s.getxmlchar.1, s.getxmlchar.2) := rfl

theorem scanSingle_char (h : s.Sees (c :: cs)) (hmode : s.curmode = .single) (hvalue : s.lvalue = []) (hc : c ≠ code '<') :
    Scans s.scanSingle c [] cs := by
  obtain ⟨hfst, hsnd⟩ := h.getxmlchar
  have hscan : s.scanSingle = (c, s.getxmlchar.2) := by
    rw [scanSingle_eq, hfst]
    exact if_neg hc
  rw [hscan]
  exact ⟨rfl, hvalue, hsnd, hmode⟩

theorem scanSingle_brace (h : s.Sees (code '<' :: cs)) (hmode : s.curmode = .single) (hvalue : s.lvalue = []) :
    Scans s.scanSingle (if isInitialNameChar (cs.headD (-1)) then elementBraceToken else commandBraceToken) [] cs := by
  obtain ⟨hfst, hsnd⟩ := h.getxmlchar
  have hscan : s.scanSingle =
      (if isInitialNameChar (cs.headD (-1)) then elementBraceToken else commandBraceToken, s.getxmlchar.2) := by
    rw [scanSingle_eq, hfst, ← hsnd.next_zero]
    exact if_pos rfl
  rw [hscan]
  exact ⟨rfl, hvalue, hsnd, hmode⟩

theorem scanSingle_end (h : s.Sees []) (hmode : s.curmode = .single) (hvalue : s.lvalue = []) :
    Scans s.scanSingle (-1) [] [] := by
  obtain ⟨hfst, hsnd⟩ := h.getxmlchar_end
  have hscan : s.scanSingle = (-1, s.getxmlchar.2) := by
    rw [scanSingle_eq, hfst]
    exact if_neg (by decide)
  rw [hscan]
  exact ⟨rfl, hvalue, hsnd, hmode⟩

theorem pushAll_none {p : XmlScan → Bool} (h : p s = false) : s.pushAll p = s := by
  rw [pushAll]
  cases s.remaining with
  | zero => rfl
  | succ fuel => rw [pushWhile, if_neg (by simp [h])]

/-- Where a scan of text stops at once, it takes a single character. -/
theorem scanCharData_brace (h : s.Sees (code '<' :: cs)) : s.scanCharData = s.clearLvalue.scanSingle := by
  have hnext : s.clearLvalue.next 0 = code '<' := Sees.next_zero_cons h
  rw [scanCharData, pushAll_none (by simp [hnext])]
  exact if_pos rfl

theorem scanAttValue_stop {quote : Int} (h : s.Sees (c :: cs)) (hc : c = quote ∨ c = code '<' ∨ c = code '&') :
    s.scanAttValue quote = s.clearLvalue.scanSingle := by
  have hnext : s.clearLvalue.next 0 = c := Sees.next_zero_cons h
  rw [scanAttValue, pushAll_none (by simpa [hnext, or_iff_not_imp_left] using hc)]
  exact if_pos rfl

theorem scanAttValue_piece {quote : Int} (h : s.Sees (w ++ c :: cs)) (hmode : s.curmode = .single) (hne : w ≠ [])
    (hw : ∀ c ∈ w, c ≠ -1 ∧ c ≠ quote ∧ c ≠ code '<' ∧ c ≠ code '&') (hc : c = quote ∨ c = code '<' ∨ c = code '&') :
    Scans (s.scanAttValue quote) attValueToken (w.map UInt8.ofInt) (c :: cs) := by
  have hspec := pushAll_spec (s := s.clearLvalue) (p := fun c => !(c = quote || c = code '<' || c = code '&')) h
    (fun c hc => by
      obtain ⟨heof, hquote, hlt, hamp⟩ := hw c hc
      simp [heof, hquote, hlt, hamp])
    (Or.inr (by simpa [or_iff_not_imp_left] using hc))
  obtain ⟨hsees, hlvalue, hmode'⟩ := hspec
  have hscan : s.scanAttValue quote = (attValueToken, s.clearLvalue.pushAll
      fun s => !(s.next 0 = quote || s.next 0 = code '<' || s.next 0 = code '&')) := by
    rw [scanAttValue]
    refine if_neg ?_
    rw [hlvalue]
    simpa [clearLvalue] using hne
  rw [hscan]
  exact ⟨rfl, hlvalue, hsees, hmode'.trans hmode⟩

theorem ne_eof_of_isNameChar (h : isNameChar c = true) : c ≠ -1 := by
  rintro rfl
  exact absurd h (by decide)

/-- A name and the character that ends it. -/
theorem pushName_spec (h : s.Sees (c :: w ++ rest)) (hw : ∀ c ∈ w, isNameChar c = true)
    (hrest : isNameChar (rest.headD (-1)) = false) :
    s.pushName.Sees rest ∧ s.pushName.lvalue = s.lvalue ++ (c :: w).map UInt8.ofInt ∧ s.pushName.curmode = s.curmode := by
  obtain ⟨hsees, hlvalue, hmode⟩ := Sees.pushChar h
  obtain ⟨hsees', hlvalue', hmode'⟩ := pushAll_spec (p := isNameChar) hsees
    (fun c hc => ⟨ne_eof_of_isNameChar (hw c hc), hw c hc⟩) (Or.inr hrest)
  refine ⟨hsees', ?_, hmode'.trans hmode⟩
  rw [pushName, hlvalue', hlvalue, List.append_assoc]
  rfl

theorem scanName_spec (h : s.Sees (c :: w ++ rest)) (hmode : s.curmode = .single) (hc : isInitialNameChar c = true)
    (hw : ∀ c ∈ w, isNameChar c = true) (hrest : isNameChar (rest.headD (-1)) = false) :
    Scans s.scanName nameToken ((c :: w).map UInt8.ofInt) rest := by
  have hnext : s.clearLvalue.next 0 = c := Sees.next_zero_cons h
  obtain ⟨hsees, hlvalue, hmode'⟩ := pushName_spec (s := s.clearLvalue) h hw hrest
  have hscan : s.scanName = (nameToken, s.clearLvalue.pushName) := by
    rw [scanName]
    exact if_neg (by simp [hnext, hc])
  rw [hscan]
  exact ⟨rfl, hlvalue, hsees, hmode'.trans hmode⟩

def isWhite (val : Int) : Bool := val = 0x20 || val = 0x0a || val = 0x0d || val = 0x09

theorem skipWhite_none {fuel n : Nat} (h : isWhite (s.next 0) = false) : skipWhite fuel n s = (n, s) := by
  cases fuel with
  | zero => rfl
  | succ fuel => rw [skipWhite, if_neg (by simpa [isWhite] using h)]

theorem scanSname_stop (h : s.Sees (c :: cs)) (hwhite : isWhite c = false) (hc : isInitialNameChar c = false) :
    s.scanSname = s.clearLvalue.scanSingle := by
  have hnext : s.next 0 = c := h.next_zero_cons
  have hnext' : s.clearLvalue.next 0 = c := hnext
  rw [scanSname, skipWhite_none (by rwa [hnext])]
  simp [hnext', hc]

/-- A name after one blank. -/
theorem scanSname_spec (h : s.Sees (code ' ' :: c :: w ++ rest)) (hmode : s.curmode = .single)
    (hc : isInitialNameChar c = true) (hwhite : isWhite c = false) (hw : ∀ c ∈ w, isNameChar c = true)
    (hrest : isNameChar (rest.headD (-1)) = false) :
    Scans s.scanSname snameToken ((c :: w).map UInt8.ofInt) rest := by
  obtain ⟨-, hsees⟩ := Sees.getxmlchar h
  have hskip : skipWhite s.remaining 0 s = (1, s.getxmlchar.2) := by
    rw [remaining, skipWhite, if_pos (by rw [Sees.next_zero_cons h]; rfl)]
    exact skipWhite_none (by rwa [Sees.next_zero_cons hsees])
  have hnext : s.getxmlchar.2.clearLvalue.next 0 = c := Sees.next_zero_cons hsees
  obtain ⟨hsees', hlvalue, hmode'⟩ := pushName_spec (s := s.getxmlchar.2.clearLvalue) hsees hw hrest
  have hscan : s.scanSname = (snameToken, s.getxmlchar.2.clearLvalue.pushName) := by
    rw [scanSname, hskip]
    simp [hnext, hc]
  rw [hscan]
  exact ⟨rfl, hlvalue, hsees', hmode'.trans hmode⟩

end GhidraDecompiler.Xml.XmlScan
