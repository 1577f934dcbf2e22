import GhidraDecompiler.Xml.ScanView

namespace GhidraDecompiler.Xml.XmlScan

variable {s s' : XmlScan} {n m : Nat}

/-- Not more than a number of characters are left. -/
def Left (s : XmlScan) (n : Nat) : Prop := ∀ k, n ≤ k → s.upcoming k = -1

theorem left_remaining (s : XmlScan) : s.Left s.remaining := by
  intro k hk
  by_contra h
  exact absurd (lt_remaining h) (Nat.not_lt.mpr hk)

theorem Left.mono (h : s.Left n) (hle : n ≤ m) : s.Left m := fun k hk => h k (hle.trans hk)

theorem Left.pos (h : s.Left n) (hc : s.next 0 ≠ -1) : 1 ≤ n := by
  by_contra hlt
  rw [next_eq] at hc
  exact hc (h 0 (by omega))

theorem Left.getxmlchar (h : s.Left n) : s.getxmlchar.2.Left (n - 1) := fun k hk => by
  rw [getxmlchar_upcoming]
  exact h (k + 1) (by omega)

theorem Left.pushChar (h : s.Left n) : s.pushChar.Left (n - 1) := h.getxmlchar

/-- A scan takes a number of characters. -/
def Takes (count : Nat) (s s' : XmlScan) : Prop := ∀ n, s.Left n → count ≤ n ∧ s'.Left (n - count)

theorem Takes.refl (s : XmlScan) : Takes 0 s s := fun _ h => ⟨Nat.zero_le _, h⟩

theorem Takes.trans {s'' : XmlScan} (h : Takes n s s') (h' : Takes m s' s'') : Takes (n + m) s s'' := fun k hk => by
  obtain ⟨hle, hleft⟩ := h k hk
  obtain ⟨hle', hleft'⟩ := h' (k - n) hleft
  exact ⟨by omega, by rwa [Nat.sub_sub] at hleft'⟩

theorem takes_getxmlchar (h : s.next 0 ≠ -1) : Takes 1 s s.getxmlchar.2 := fun _ hn => ⟨hn.pos h, hn.getxmlchar⟩

theorem takes_pushChar (h : s.next 0 ≠ -1) : Takes 1 s s.pushChar := takes_getxmlchar h

theorem takes_pushWhile (p : XmlScan → Bool) (fuel : Nat) (s : XmlScan) :
    ∃ n, Takes n s (pushWhile p fuel s) ∧ (pushWhile p fuel s).lvalue.length = s.lvalue.length + n := by
  induction fuel generalizing s with
  | zero => exact ⟨0, .refl s, rfl⟩
  | succ fuel ih =>
      rw [pushWhile]
      split
      case isTrue hgo =>
        obtain ⟨hne, -⟩ : s.next 0 ≠ -1 ∧ p s = true := by simpa using hgo
        obtain ⟨n, htakes, hlen⟩ := ih s.pushChar
        refine ⟨1 + n, (takes_pushChar hne).trans htakes, ?_⟩
        have hpush : s.pushChar.lvalue.length = s.lvalue.length + 1 := by simp [XmlScan.pushChar, XmlScan.getxmlchar]
        omega
      case isFalse => exact ⟨0, .refl s, rfl⟩

theorem takes_pushAll (p : XmlScan → Bool) (s : XmlScan) :
    ∃ n, Takes n s (s.pushAll p) ∧ (s.pushAll p).lvalue.length = s.lvalue.length + n := takes_pushWhile p s.remaining s

theorem takes_skipWhite (fuel whitecount : Nat) (s : XmlScan) :
    ∃ n, Takes n s (skipWhite fuel whitecount s).2 ∧ (skipWhite fuel whitecount s).1 = whitecount + n := by
  induction fuel generalizing whitecount s with
  | zero => exact ⟨0, .refl s, rfl⟩
  | succ fuel ih =>
      rw [skipWhite]
      split
      case isTrue hgo =>
        have hne : s.next 0 ≠ -1 := by
          intro heof
          rw [heof] at hgo
          exact absurd hgo (by decide)
        obtain ⟨n, htakes, hcount⟩ := ih (whitecount + 1) s.getxmlchar.2
        exact ⟨1 + n, (takes_getxmlchar hne).trans htakes, by omega⟩
      case isFalse => exact ⟨0, .refl s, rfl⟩

/-- A token for which at least one character was read. -/
def Solid (token : Int) : Prop := 0 < token ∧ token ≠ commentToken ∧ token ≠ cdataToken

instance : DecidablePred Solid := fun _ => inferInstanceAs (Decidable (_ ∧ _))

/-- A scan leaves no more than there was, and less after a solid token. -/
def Reads (result : Int × XmlScan) (s : XmlScan) : Prop :=
  (∀ n, s.Left n → result.2.Left n) ∧ (Solid result.1 → ∃ n, Takes (n + 1) s result.2)

theorem Takes.reads {result : Int × XmlScan} (h : Takes n s result.2) (hn : Solid result.1 → 1 ≤ n) : Reads result s :=
  ⟨fun _ hk => ((h _ hk).2).mono (Nat.sub_le _ _), fun hsolid => ⟨n - 1, by rwa [Nat.sub_add_cancel (hn hsolid)]⟩⟩

theorem Takes.then_reads {result : Int × XmlScan} (h : Takes n s s') (h' : Reads result s') : Reads result s := by
  refine ⟨fun k hk => h'.1 k (((h k hk).2).mono (Nat.sub_le _ _)), fun hsolid => ?_⟩
  obtain ⟨m, hm⟩ := h'.2 hsolid
  exact ⟨n + m, h.trans hm⟩

theorem scanSingle_reads (s : XmlScan) : Reads s.scanSingle s := by
  have hsnd : s.scanSingle.2 = s.getxmlchar.2 := by
    rw [scanSingle]
    dsimp only
    split <;> rfl
  refine ⟨fun n hn => hsnd ▸ (hn.getxmlchar).mono (Nat.sub_le _ _), fun hsolid => ⟨0, hsnd ▸ takes_getxmlchar ?_⟩⟩
  intro heof
  have hchar : s.getxmlchar.1 = -1 := by
    rw [getxmlchar_fst, ← heof, next_eq, Fin.val_zero]
  have hfst : s.scanSingle.1 = -1 := by
    rw [scanSingle]
    dsimp only
    rw [if_neg (by rw [hchar]; decide), hchar]
  rw [hfst] at hsolid
  exact absurd hsolid.1 (by decide)

/-- A scan for a piece of text that falls back to a single character. -/
theorem piece_reads (token : Int) (p : XmlScan → Bool) (s : XmlScan) :
    Reads (if (s.clearLvalue.pushAll p).lvalue = [] then (s.clearLvalue.pushAll p).scanSingle
      else (token, s.clearLvalue.pushAll p)) s := by
  obtain ⟨n, htakes, hlen⟩ := takes_pushAll p s.clearLvalue
  have htakes' : Takes n s (s.clearLvalue.pushAll p) := htakes
  split
  case isTrue => exact htakes'.then_reads (scanSingle_reads _)
  case isFalse hne =>
    refine htakes'.reads fun _ => ?_
    have hpos := List.length_pos_iff.mpr hne
    have hclear : s.clearLvalue.lvalue.length = 0 := rfl
    omega

theorem pushName_takes (h : isInitialNameChar (s.next 0) = true) : ∃ n, Takes (1 + n) s s.pushName := by
  have hne : s.next 0 ≠ -1 := by
    intro heof
    rw [heof] at h
    exact absurd h (by decide)
  obtain ⟨n, htakes, -⟩ := takes_pushAll (fun s => isNameChar (s.next 0)) s.pushChar
  exact ⟨n, (takes_pushChar hne).trans htakes⟩

theorem scanCharRef_reads (s : XmlScan) : Reads s.scanCharRef s := by
  rw [scanCharRef]
  dsimp only
  split
  case isTrue hx =>
    have hne : s.clearLvalue.next 0 ≠ -1 := by
      rw [hx]
      decide
    obtain ⟨n, htakes, -⟩ := takes_pushAll (fun s => isHexDigit (s.next 0)) s.clearLvalue.pushChar
    have hall : Takes (1 + n) s (s.clearLvalue.pushChar.pushAll fun s => isHexDigit (s.next 0)) :=
      (takes_pushChar hne).trans htakes
    split <;> exact hall.reads fun _ => by omega
  case isFalse => exact piece_reads charRefToken _ s

theorem scanName_reads (s : XmlScan) : Reads s.scanName s := by
  rw [scanName]
  split
  case isTrue => exact scanSingle_reads s.clearLvalue
  case isFalse hinitial =>
    obtain ⟨n, htakes⟩ := pushName_takes (s := s.clearLvalue) (by simpa using hinitial)
    have hname : Takes (1 + n) s s.clearLvalue.pushName := htakes
    exact hname.reads fun _ => by omega

theorem scanSname_reads (s : XmlScan) : Reads s.scanSname s := by
  obtain ⟨n, htakes, hcount⟩ := takes_skipWhite s.remaining 0 s
  rw [scanSname]
  dsimp only
  have hclear : Takes n s (skipWhite s.remaining 0 s).2.clearLvalue := htakes
  split
  case isTrue =>
    split
    case isTrue hpos => exact hclear.reads fun _ => by omega
    case isFalse => exact hclear.then_reads (scanSingle_reads _)
  case isFalse hinitial =>
    obtain ⟨m, hname⟩ := pushName_takes (s := (skipWhite s.remaining 0 s).2.clearLvalue) (by simpa using hinitial)
    exact (hclear.trans hname).reads fun _ => by omega

theorem nexttoken_reads (s : XmlScan) : Reads s.nexttoken s := by
  have htext (token : Int) (htoken : ¬Solid token) (p : XmlScan → Bool) (s : XmlScan) :
      Reads (token, s.clearLvalue.pushAll p) s := by
    obtain ⟨n, htakes, -⟩ := takes_pushAll p s.clearLvalue
    exact Takes.reads (n := n) htakes fun hsolid => absurd hsolid htoken
  have hsingle : Reads s.nexttoken { s with curmode := .single } := by
    rw [nexttoken]
    cases s.curmode with
    | charData => exact piece_reads charDataToken _ _
    | cData => exact htext cdataToken (by decide) _ _
    | attValueSingle => exact piece_reads attValueToken _ _
    | attValueDouble => exact piece_reads attValueToken _ _
    | comment => exact htext commentToken (by decide) _ _
    | charRef => exact scanCharRef_reads _
    | name => exact scanName_reads _
    | sName => exact scanSname_reads _
    | single => exact scanSingle_reads _
  exact hsingle

end GhidraDecompiler.Xml.XmlScan
