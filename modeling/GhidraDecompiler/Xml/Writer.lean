import GhidraDecompiler.Xml.ParserView

namespace GhidraDecompiler.Xml

def xmlEscape (out text : String) : String :=
  text.toList.foldl (fun out character =>
    match character with
    | '<' => out ++ "&lt;"
    | '>' => out ++ "&gt;"
    | '&' => out ++ "&amp;"
    | '"' => out ++ "&quot;"
    | '\'' => out ++ "&apos;"
    | _ => out.push character) out

def aV (out attr val : String) : String := (xmlEscape ((out.push ' ' ++ attr) ++ "=\"") val).push '"'

def isNameStart (c : Char) : Bool := c.isAlpha || c = '_' || c = ':'

def isNamePart (c : Char) : Bool := c.isAlphanum || c = '.' || c = '_' || c = ':' || c = '-'

def isName (text : String) : Bool :=
  match text.toList with
  | [] => false
  | c :: cs => isNameStart c && cs.all isNamePart

structure Name where
  text : String
  legal : isName text = true

structure Value where
  text : String
  nulFree : '\x00' ∉ text.toList

structure Attribute where
  name : Name
  value : Value

/-- A list of sibling elements. An element without children can be written as
an empty-element tag. -/
inductive Forest
  | nil
  | cons (name : Name) (attributes : List Attribute) (emptyTag : Bool) (children rest : Forest)

structure Tree where
  name : Name
  attributes : List Attribute
  emptyTag : Bool
  children : Forest

namespace Forest

def elements : Forest → List Element
  | nil => []
  | cons name attributes _ children rest =>
      ⟨name.text, "", attributes.map (·.name.text), attributes.map (·.value.text), children.elements⟩ :: rest.elements

/-- The nesting below the siblings. -/
def depth : Forest → Nat
  | nil => 0
  | cons _ _ _ children rest => max (children.depth + 1) rest.depth

def isEmpty : Forest → Bool
  | nil => true
  | cons .. => false

def writeAttributes (out : String) (attributes : List Attribute) : String :=
  attributes.foldl (fun out a => aV out a.name.text a.value.text) out

def write : Forest → String → String
  | nil, out => out
  | cons name attributes emptyTag children rest, out =>
      let out := writeAttributes (out ++ "<" ++ name.text) attributes
      rest.write (if emptyTag && children.isEmpty then out ++ "/>" else children.write (out ++ ">") ++ "</" ++ name.text ++ ">")

end Forest

namespace Tree

def forest (t : Tree) : Forest := .cons t.name t.attributes t.emptyTag t.children .nil

def element (t : Tree) : Element :=
  ⟨t.name.text, "", t.attributes.map (·.name.text), t.attributes.map (·.value.text), t.children.elements⟩

/-- The nesting below the root. -/
def depth (t : Tree) : Nat := t.children.depth

def write (t : Tree) : String := t.forest.write ""

end Tree

/-- The characters of a text as the scanner sees them. -/
def codes (text : String) : List Int := (utf8 text).map signed

theorem utf8_append (a b : String) : utf8 (a ++ b) = utf8 a ++ utf8 b := by
  simp [utf8]

@[simp] theorem codes_append (a b : String) : codes (a ++ b) = codes a ++ codes b := by
  rw [codes, utf8_append, List.map_append]
  rfl

theorem utf8_push (out : String) (c : Char) : utf8 (out.push c) = utf8 out ++ String.utf8EncodeChar c := by
  simp [utf8, List.utf8Encode]

theorem utf8_ofList (cs : List Char) : utf8 (String.ofList cs) = cs.flatMap String.utf8EncodeChar := by
  simp [utf8, List.utf8Encode]

theorem utf8_eq_flatMap (text : String) : utf8 text = text.toList.flatMap String.utf8EncodeChar := by
  rw [← utf8_ofList, String.ofList_toList]

theorem signed_ofNat {n : Nat} (h : n < 256) : signed (UInt8.ofNat n) = if n < 128 then (n : Int) else n - 256 := by
  have hall : ∀ k : Fin 256, signed (UInt8.ofNat k) = if (k : Nat) < 128 then ((k : Nat) : Int) else (k : Nat) - 256 := by
    decide +kernel
  exact hall ⟨n, h⟩

theorem ofInt_signed (b : UInt8) : UInt8.ofInt (signed b) = b := by
  have hall : ∀ k : Fin 256, UInt8.ofInt (signed (UInt8.ofNat k)) = UInt8.ofNat k := by
    decide +kernel
  have hb := hall ⟨b.toNat, b.toNat_lt⟩
  rwa [UInt8.ofNat_toNat] at hb

theorem map_ofInt_codes (text : String) : (codes text).map UInt8.ofInt = utf8 text := by
  rw [codes, List.map_map]
  have hid : UInt8.ofInt ∘ signed = id := funext ofInt_signed
  rw [hid, List.map_id]

theorem signed_lt_eof {n : Nat} (hlow : 128 ≤ n) (hhigh : n < 255) : signed (UInt8.ofNat n) < -1 := by
  rw [signed_ofNat (by omega), if_neg (by omega)]
  omega

/-- An ASCII character is one byte. Every byte of another character is
negative, and none is the end of the file. -/
theorem signed_of_mem {b : UInt8} {c : Char} (h : b ∈ String.utf8EncodeChar c) :
    signed b = code c ∨ signed b < -1 := by
  simp only [String.utf8EncodeChar] at h
  split at h
  · left
    rw [List.mem_singleton] at h
    rw [h, signed_ofNat (by omega), if_pos (by omega)]
    rfl
  · right
    have hn : ∃ n, 128 ≤ n ∧ n < 255 ∧ b = UInt8.ofNat n := by
      split at h
      · simp only [List.mem_cons, List.not_mem_nil, or_false] at h
        obtain h | h := h <;> exact ⟨_, by omega, by omega, h⟩
      · split at h
        · simp only [List.mem_cons, List.not_mem_nil, or_false] at h
          obtain h | h | h := h <;> exact ⟨_, by omega, by omega, h⟩
        · simp only [List.mem_cons, List.not_mem_nil, or_false] at h
          obtain h | h | h | h := h <;> exact ⟨_, by omega, by omega, h⟩
    obtain ⟨n, hlow, hhigh, rfl⟩ := hn
    exact signed_lt_eof hlow hhigh

theorem encode_ascii {c : Char} (h : c.toNat < 128) : (String.utf8EncodeChar c).map signed = [code c] := by
  have hle : c.val.toNat ≤ 0x7f := Nat.le_of_lt_succ h
  simp only [String.utf8EncodeChar, if_pos hle, List.map_cons, List.map_nil]
  rw [signed_ofNat (by omega), if_pos (by omega)]
  rfl

theorem code_inj {c c' : Char} (h : code c = code c') : c = c' := Char.toNat_inj.mp (Int.ofNat_inj.mp h)

/-- The characters that stand for one character of a value. -/
def escapedCodes (c : Char) : List Int :=
  match c with
  | '<' => codes "&lt;"
  | '>' => codes "&gt;"
  | '&' => codes "&amp;"
  | '"' => codes "&quot;"
  | '\'' => codes "&apos;"
  | _ => (String.utf8EncodeChar c).map signed

def valueCodes (text : List Char) : List Int := text.flatMap escapedCodes

def attributeCodes (a : Attribute) : List Int :=
  code ' ' :: codes a.name.text ++ code '=' :: code '"' :: valueCodes a.value.text.toList ++ [code '"']

theorem codes_push (out : String) (c : Char) : codes (out.push c) = codes out ++ (String.utf8EncodeChar c).map signed := by
  rw [codes, utf8_push, List.map_append]
  rfl

theorem codes_xmlEscape (out text : String) : codes (xmlEscape out text) = codes out ++ valueCodes text.toList := by
  rw [xmlEscape, valueCodes]
  induction text.toList generalizing out with
  | nil => simp
  | cons c cs ih =>
      rw [List.foldl_cons, ih, List.flatMap_cons, ← List.append_assoc]
      congr 1
      simp only [escapedCodes]
      split <;> simp [codes_push]

theorem codes_aV (out : String) (a : Attribute) :
    codes (aV out a.name.text a.value.text) = codes out ++ attributeCodes a := by
  have hblank : (String.utf8EncodeChar ' ').map signed = [code ' '] := encode_ascii (by decide)
  have hquote : (String.utf8EncodeChar '"').map signed = [code '"'] := encode_ascii (by decide)
  have hopen : codes "=\"" = [code '=', code '"'] := by decide
  simp [aV, codes_push, codes_xmlEscape, hblank, hquote, hopen, attributeCodes]

theorem codes_writeAttributes (out : String) (attributes : List Attribute) :
    codes (Forest.writeAttributes out attributes) = codes out ++ attributes.flatMap attributeCodes := by
  rw [Forest.writeAttributes]
  induction attributes generalizing out with
  | nil => simp
  | cons a attributes ih => rw [List.foldl_cons, ih, codes_aV, List.flatMap_cons, List.append_assoc]

theorem isAlpha_code {c : Char} (h : c.isAlpha = true) : c.toNat < 128 ∧ XmlScan.isLetter (code c) = true := by
  have hbounds : (65 ≤ c.toNat ∧ c.toNat ≤ 90) ∨ (97 ≤ c.toNat ∧ c.toNat ≤ 122) := by
    simpa [Char.isAlpha, Char.isUpper, Char.isLower, UInt32.le_iff_toNat_le] using h
  refine ⟨by omega, ?_⟩
  simp [XmlScan.isLetter, code]
  omega

theorem isNameStart_code {c : Char} (h : isNameStart c = true) :
    c.toNat < 128 ∧ XmlScan.isInitialNameChar (code c) = true ∧ XmlScan.isNameChar (code c) = true := by
  have hcases : c.isAlpha = true ∨ c = '_' ∨ c = ':' := by
    simpa [isNameStart, or_assoc] using h
  obtain halpha | rfl | rfl := hcases
  · obtain ⟨hlt, hletter⟩ := isAlpha_code halpha
    simp [hlt, hletter, XmlScan.isInitialNameChar, XmlScan.isNameChar]
  · decide
  · decide

theorem isNamePart_code {c : Char} (h : isNamePart c = true) : c.toNat < 128 ∧ XmlScan.isNameChar (code c) = true := by
  have hcases : c.isAlpha = true ∨ c.isDigit = true ∨ c = '.' ∨ c = '_' ∨ c = ':' ∨ c = '-' := by
    simpa [isNamePart, Char.isAlphanum, or_assoc] using h
  obtain halpha | hdigit | rfl | rfl | rfl | rfl := hcases
  · obtain ⟨hlt, hletter⟩ := isAlpha_code halpha
    simp [hlt, hletter, XmlScan.isNameChar]
  · have hbounds : 48 ≤ c.toNat ∧ c.toNat ≤ 57 := by
      simpa [Char.isDigit, UInt32.le_iff_toNat_le] using hdigit
    refine ⟨by omega, ?_⟩
    have hlow : code '0' ≤ code c := Int.ofNat_le.mpr hbounds.1
    have hhigh : code c ≤ code '9' := Int.ofNat_le.mpr hbounds.2
    simp [XmlScan.isNameChar, hlow, hhigh]
  all_goals decide

theorem codes_eq_flatMap (text : String) :
    codes text = text.toList.flatMap fun c => (String.utf8EncodeChar c).map signed := by
  rw [codes, utf8_eq_flatMap, List.map_flatMap]

theorem codes_ascii {text : String} (h : ∀ c ∈ text.toList, c.toNat < 128) : codes text = text.toList.map code := by
  rw [codes_eq_flatMap, List.flatMap_congr fun c hc => encode_ascii (h c hc)]
  exact List.map_eq_flatMap.symm

theorem Name.nameCodes (name : Name) : XmlParser.NameCodes (codes name.text) := by
  obtain ⟨text, hlegal⟩ := name
  rw [isName] at hlegal
  cases htext : text.toList with
  | nil => simp [htext] at hlegal
  | cons c cs =>
      obtain ⟨hstart, hparts⟩ : isNameStart c = true ∧ ∀ c ∈ cs, isNamePart c = true := by
        simpa [htext] using hlegal
      obtain ⟨hlt, hinitial, hname⟩ := isNameStart_code hstart
      have hcodes : codes text = code c :: cs.map code := by
        rw [codes_ascii, htext, List.map_cons]
        intro c' hc'
        rw [htext] at hc'
        obtain rfl | hc' := List.mem_cons.mp hc'
        · exact hlt
        · exact (isNamePart_code (hparts c' hc')).1
      change XmlParser.NameCodes (codes text)
      rw [hcodes]
      refine ⟨hinitial, fun x hx => ?_⟩
      obtain rfl | hx := List.mem_cons.mp hx
      · exact hname
      · obtain ⟨c', hc', rfl⟩ := List.mem_map.mp hx
        exact (isNamePart_code (hparts c' hc')).2

/-- Neither a zero nor the end of the file. -/
def Clean (cs : List Int) : Prop := ∀ c ∈ cs, c ≠ 0 ∧ c ≠ -1

theorem Clean.nil : Clean [] := fun _ h => absurd h List.not_mem_nil

theorem Clean.append {cs cs' : List Int} (h : Clean cs) (h' : Clean cs') : Clean (cs ++ cs') := fun c hc =>
  (List.mem_append.mp hc).elim (h c) (h' c)

theorem Clean.cons {t : Char} {cs : List Int} (ht : t ≠ '\x00') (h : Clean cs) : Clean (code t :: cs) := by
  intro c hc
  obtain rfl | hc := List.mem_cons.mp hc
  · exact ⟨fun hzero => ht (code_inj hzero), by have := XmlParser.code_nonneg t; omega⟩
  · exact h c hc

theorem Name.clean (name : Name) : Clean (codes name.text) := by
  intro c hc
  have hname := name.nameCodes.all c hc
  refine ⟨?_, XmlScan.ne_eof_of_isNameChar hname⟩
  rintro rfl
  exact absurd hname (by decide)

theorem encode_clean {c : Char} (h : c ≠ '\x00') : Clean ((String.utf8EncodeChar c).map signed) := by
  intro x hx
  obtain ⟨b, hb, rfl⟩ := List.mem_map.mp hx
  obtain heq | hlt := signed_of_mem hb
  · rw [heq]
    exact Clean.cons h Clean.nil _ List.mem_cons_self
  · omega

theorem escapedCodes_clean {c : Char} (h : c ≠ '\x00') : Clean (escapedCodes c) := by
  unfold escapedCodes
  split
  case h_6 => exact encode_clean h
  all_goals exact fun c hc => by revert c; decide

theorem valueCodes_clean {text : List Char} (h : '\x00' ∉ text) : Clean (valueCodes text) := by
  intro x hx
  obtain ⟨c, hc, hx⟩ := List.mem_flatMap.mp hx
  exact escapedCodes_clean (fun hzero => h (hzero ▸ hc)) x hx

theorem attributeCodes_clean (a : Attribute) : Clean (attributeCodes a) :=
  .append (.cons (by decide) (.append a.name.clean (.cons (by decide) (.cons (by decide) (valueCodes_clean a.value.nulFree)))))
    (.cons (by decide) .nil)

theorem flatMap_attributeCodes_clean (attributes : List Attribute) : Clean (attributes.flatMap attributeCodes) := by
  intro x hx
  obtain ⟨a, -, hx⟩ := List.mem_flatMap.mp hx
  exact attributeCodes_clean a x hx

namespace Forest

/-- What stands for the siblings in the text. -/
def codes : Forest → List Int
  | nil => []
  | cons name attributes emptyTag children rest =>
      code '<' :: (Xml.codes name.text ++ (attributes.flatMap attributeCodes ++
        ((if emptyTag && children.isEmpty then [code '/', code '>']
          else code '>' :: (children.codes ++ (code '<' :: code '/' :: (Xml.codes name.text ++ [code '>'])))) ++ rest.codes)))

theorem codes_write (f : Forest) (out : String) : Xml.codes (f.write out) = Xml.codes out ++ f.codes := by
  induction f generalizing out with
  | nil => simp [write, codes]
  | cons name attributes emptyTag children rest ihchildren ihrest =>
      have hlt : Xml.codes "<" = [code '<'] := by decide
      have hempty : Xml.codes "/>" = [code '/', code '>'] := by decide
      have hgt : Xml.codes ">" = [code '>'] := by decide
      have hend : Xml.codes "</" = [code '<', code '/'] := by decide
      rw [write, ihrest, codes]
      split
      · simp [codes_writeAttributes, hlt, hempty]
      · simp [codes_writeAttributes, ihchildren, hlt, hgt, hend]

theorem clean (f : Forest) : Clean f.codes := by
  induction f with
  | nil => exact Clean.nil
  | cons name attributes emptyTag children rest ihchildren ihrest =>
      refine .cons (by decide) (.append name.clean (.append (flatMap_attributeCodes_clean attributes) (.append ?_ ihrest)))
      split
      · exact .cons (by decide) (.cons (by decide) .nil)
      · exact .cons (by decide) (.append ihchildren
          (.cons (by decide) (.cons (by decide) (.append name.clean (.cons (by decide) .nil)))))

end Forest

namespace Tree

theorem codes_write (t : Tree) : codes t.write = t.forest.codes := by
  rw [write, Forest.codes_write]
  rfl

theorem zero_not_mem_write (t : Tree) : 0 ∉ utf8 t.write := by
  intro hmem
  have hzero : (0 : Int) ∈ codes t.write := List.mem_map.mpr ⟨0, hmem, rfl⟩
  rw [codes_write] at hzero
  exact (t.forest.clean 0 hzero).1 rfl

end Tree

end GhidraDecompiler.Xml
