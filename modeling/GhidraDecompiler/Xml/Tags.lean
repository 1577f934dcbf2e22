import GhidraDecompiler.Xml.Writer

namespace GhidraDecompiler.Xml.XmlParser

open TotalRuns XmlScan

variable {p : XmlParser} {c token : Int} {cs w rest : List Int} {d : Nat} {built : Built}

theorem reference_entity (h : Ahead (code '&') [] (w ++ code ';' :: cs) d built p) (hw : NameCodes w)
    (hd : d + 3 < maxParseDepth) :
    Yields reference p (convertEntityRef (w.map UInt8.ofInt)) (At .single cs (d + 1) built) := by
  refine Yields.bind (h.shift (by omega)) fun p h => ?_
  refine Yields.bind (h.setMode .name) fun p h => ?_
  refine Yields.bind (h.reduce (k := d + 1) (by omega) rfl (by omega)) fun p h => ?_
  refine Yields.bind (h.la_name hw rfl) fun p h => ?_
  rw [if_pos rfl]
  refine Yields.bind (h.shift (by omega)) fun p h => ?_
  refine Yields.bind (h.expect (by decide) (by omega)) fun p h => ?_
  refine Yields.bind (h.reduce (k := d + 1) (by omega) rfl (by omega)) fun p h => ?_
  refine Yields.bind (h.reduce (k := d + 1) (by omega) rfl (by omega)) fun p h => ?_
  exact Yields.pure h

/-- The characters that are written as they are. -/
def isPlain (c : Char) : Bool := !(c = '<' || c = '>' || c = '&' || c = '"' || c = '\'')

theorem escapedCodes_plain {c : Char} (h : isPlain c = true) : escapedCodes c = (String.utf8EncodeChar c).map signed := by
  unfold escapedCodes
  split
  case h_6 => rfl
  all_goals exact absurd h (by decide)

/-- A special character is written as a reference to an entity. -/
theorem escapedCodes_special {c : Char} (h : isPlain c = false) :
    ∃ w, escapedCodes c = code '&' :: (w ++ [code ';']) ∧ NameCodes w ∧ convertEntityRef (w.map UInt8.ofInt) = code c ∧
      [UInt8.ofInt (code c)] = String.utf8EncodeChar c := by
  have hcases : c = '<' ∨ c = '>' ∨ c = '&' ∨ c = '"' ∨ c = '\'' := by
    simpa [isPlain, or_iff_not_imp_left] using h
  obtain rfl | rfl | rfl | rfl | rfl := hcases
  · exact ⟨codes "lt", by decide, ⟨by decide, by decide⟩, by decide, by decide⟩
  · exact ⟨codes "gt", by decide, ⟨by decide, by decide⟩, by decide, by decide⟩
  · exact ⟨codes "amp", by decide, ⟨by decide, by decide⟩, by decide, by decide⟩
  · exact ⟨codes "quot", by decide, ⟨by decide, by decide⟩, by decide, by decide⟩
  · exact ⟨codes "apos", by decide, ⟨by decide, by decide⟩, by decide, by decide⟩

theorem plain_code_ne {x : Int} {c t : Char} (hplain : isPlain c = true) (hx : x ∈ escapedCodes c) (ht : isPlain t = false) :
    x ≠ code t := by
  rw [escapedCodes_plain hplain] at hx
  obtain ⟨b, hb, rfl⟩ := List.mem_map.mp hx
  intro hcode
  obtain heq | hneg := signed_of_mem hb
  · rw [code_inj (heq.symm.trans hcode), ht] at hplain
    exact absurd hplain (by decide)
  · have := code_nonneg t
    omega

theorem plain_codes {x : Int} {c : Char} (hplain : isPlain c = true) (hnul : c ≠ '\x00') (hx : x ∈ escapedCodes c) :
    x ≠ -1 ∧ x ≠ code '"' ∧ x ≠ code '<' ∧ x ≠ code '&' :=
  ⟨(escapedCodes_clean hnul x hx).2, plain_code_ne hplain hx (by decide), plain_code_ne hplain hx (by decide),
    plain_code_ne hplain hx (by decide)⟩

/-- After a run of plain characters comes a reference or what ends the text. -/
theorem valueCodes_head {l : List Char} (h : ∀ c ∈ l.head?, isPlain c = false) (stop : Int) (cs : List Int) :
    ∃ t cs', valueCodes l ++ stop :: cs = t :: cs' ∧ (t = stop ∨ t = code '&') := by
  cases l with
  | nil => exact ⟨_, _, rfl, Or.inl rfl⟩
  | cons c l =>
      obtain ⟨w, hw, -⟩ := escapedCodes_special (h c rfl)
      exact ⟨code '&', w ++ [code ';'] ++ valueCodes l ++ stop :: cs, by simp [valueCodes, hw], Or.inr rfl⟩

theorem escapedCodes_ne_nil (c : Char) : escapedCodes c ≠ [] := by
  cases hplain : isPlain c with
  | true =>
      rw [escapedCodes_plain hplain]
      simp [String.utf8EncodeChar_ne_nil]
  | false =>
      obtain ⟨w, hw, -⟩ := escapedCodes_special hplain
      simp [hw]

theorem map_plain {l : List Char} (h : ∀ c ∈ l, isPlain c = true) :
    (valueCodes l).map UInt8.ofInt = l.flatMap String.utf8EncodeChar := by
  rw [valueCodes, List.flatMap_congr fun c hc => escapedCodes_plain (h c hc), ← List.map_flatMap, List.map_map]
  have hid : UInt8.ofInt ∘ signed = id := funext ofInt_signed
  rw [hid, List.map_id]

theorem valueCodes_append (l l' : List Char) : valueCodes (l ++ l') = valueCodes l ++ valueCodes l' := List.flatMap_append

theorem valueCodes_ne_nil {l : List Char} (h : l ≠ []) : valueCodes l ≠ [] := by
  obtain ⟨c, hc⟩ := List.exists_mem_of_ne_nil l h
  intro hnil
  exact escapedCodes_ne_nil c (List.flatMap_eq_nil_iff.mp hnil c hc)

theorem length_le_valueCodes (l : List Char) : l.length ≤ (valueCodes l).length := by
  induction l with
  | nil => exact Nat.le_refl _
  | cons c l ih =>
      have hpos := List.length_pos_iff.mpr (escapedCodes_ne_nil c)
      rw [valueCodes, List.flatMap_cons, List.length_append, List.length_cons]
      rw [valueCodes] at ih
      omega

theorem plain_run {c : Char} (hc : isPlain c = true) (l : List Char) :
    ∃ run l', c :: l = run ++ l' ∧ (∀ c ∈ run, isPlain c = true) ∧ run ≠ [] ∧ ∀ c ∈ l'.head?, isPlain c = false := by
  refine ⟨(c :: l).takeWhile isPlain, (c :: l).dropWhile isPlain, List.takeWhile_append_dropWhile.symm,
    fun c hc => List.mem_takeWhile_imp hc, by simp [List.takeWhile_cons, hc], fun c' hc' => ?_⟩
  have hhead := List.head?_dropWhile_not isPlain (c :: l)
  rw [Option.mem_def.mp hc'] at hhead
  simpa using hhead

/-- The value is read in runs of plain characters and single references. -/
theorem attValueLoop_spec {l : List Char} {fuel : Nat} {result : List UInt8}
    (h : At .attValueDouble (valueCodes l ++ code '"' :: cs) d built p) (hl : '\x00' ∉ l) (hfuel : l.length < fuel)
    (hpos : 1 ≤ d) (hd : d + 4 < maxParseDepth) :
    Yields (attValueLoop (code '"') .attValueDouble fuel result) p (result ++ l.flatMap String.utf8EncodeChar)
      (At .single cs d built) := by
  induction hn : l.length using Nat.strong_induction_on generalizing l fuel result p with
  | _ n ih =>
      obtain ⟨fuel, rfl⟩ : ∃ m, fuel = m + 1 := ⟨fuel - 1, by omega⟩
      cases l with
      | nil =>
          refine Yields.bind (h.la_attStop (Or.inl rfl)) fun p h => ?_
          rw [if_neg (by decide), if_neg (by decide), if_pos rfl]
          refine Yields.bind (h.shift (by omega)) fun p h => ?_
          refine Yields.bind (h.reduce (k := d) (by omega) rfl (by omega)) fun p h => ?_
          rw [List.flatMap_nil, List.append_nil]
          exact Yields.pure h
      | cons c l =>
          cases hplain : isPlain c with
          | false =>
              obtain ⟨w, hescaped, hname, hvalue, hbyte⟩ := escapedCodes_special hplain
              have hcodes : valueCodes (c :: l) ++ code '"' :: cs =
                  code '&' :: (w ++ code ';' :: (valueCodes l ++ code '"' :: cs)) := by
                simp [valueCodes, hescaped]
              rw [hcodes] at h
              refine Yields.bind (h.la_attStop (Or.inr rfl)) fun p h => ?_
              rw [if_neg (by decide), if_pos rfl]
              refine Yields.bind (reference_entity h hname (by omega)) fun p h => ?_
              refine Yields.bind (h.setMode .attValueDouble) fun p h => ?_
              refine Yields.bind (h.reduce (k := d) (by omega) rfl (by omega)) fun p h => ?_
              rw [hvalue, hbyte, List.flatMap_cons, ← List.append_assoc]
              rw [List.length_cons] at hn hfuel
              exact ih l.length (by omega) h (fun hmem => hl (List.mem_cons_of_mem _ hmem)) (by omega) rfl
          | true =>
              obtain ⟨run, l', happend, hrun, hne, hhead⟩ := plain_run hplain l
              rw [happend, valueCodes_append, List.append_assoc] at h
              obtain ⟨t, cs', hcs, ht⟩ := valueCodes_head hhead (code '"') cs
              rw [hcs] at h
              refine Yields.bind (h.la_attPiece ?_ ?_ ht) fun p h => ?_
              · exact valueCodes_ne_nil hne
              · intro x hx
                obtain ⟨c', hc', hx⟩ := List.mem_flatMap.mp hx
                refine plain_codes (hrun c' hc') (fun hnul => hl ?_) hx
                rw [happend, ← hnul]
                exact List.mem_append_left _ hc'
              · rw [if_pos rfl]
                refine Yields.bind (h.shift (by omega)) fun p h => ?_
                refine Yields.bind (h.setMode .attValueDouble) fun p h => ?_
                refine Yields.bind (h.reduce (k := d) (by omega) rfl (by omega)) fun p h => ?_
                rw [map_plain hrun, happend, List.flatMap_append, ← List.append_assoc]
                rw [← hcs] at h
                have hlen := congrArg List.length happend
                have hrunpos := List.length_pos_iff.mpr hne
                rw [List.length_append] at hlen
                refine ih l'.length (by omega) h (fun hmem => hl ?_) (by omega) rfl
                rw [happend]
                exact List.mem_append_right _ hmem

theorem attValue_spec {a : Attribute}
    (h : Ahead (code '"') [] (valueCodes a.value.text.toList ++ code '"' :: cs) d built p) (hd : d + 5 < maxParseDepth) :
    Yields attValue p (utf8 a.value.text) (At .single cs (d + 1) built) := by
  refine Yields.bind h.la fun p h => ?_
  rw [if_pos rfl]
  refine Yields.bind (h.shift (by omega)) fun p h => ?_
  refine Yields.bind (h.setMode .attValueDouble) fun p h => ?_
  refine Yields.bind (h.reduce (k := d + 1) (by omega) rfl (by omega)) fun p h => ?_
  obtain ⟨n, hn, hpasses⟩ := h.passes fun c hc => (valueCodes_clean a.value.nulFree c hc).2
  refine Yields.bind hpasses fun p h => ?_
  rw [utf8_eq_flatMap, ← List.nil_append (List.flatMap _ _)]
  refine attValueLoop_spec h a.value.nulFree ?_ (by omega) (by omega)
  have hlen := length_le_valueCodes a.value.text.toList
  omega

theorem eq_spec (h : At .single (code '=' :: code '"' :: cs) d built p) (hd : d + 1 < maxParseDepth) :
    Yields XmlParser.eq p () (Ahead (code '"') [] cs (d + 1) built) := by
  refine Yields.bind (h.la_char (by decide) (by decide)) fun p h => ?_
  rw [if_neg (by decide), if_pos rfl]
  refine Yields.bind (h.shift (by omega)) fun p h => ?_
  refine Yields.bind (h.reduce (k := d + 1) (by omega) rfl (by omega)) fun p h => ?_
  obtain ⟨n, hn, hpasses⟩ := At.passes (w := []) h fun c hc => absurd hc List.not_mem_nil
  refine Yields.bind hpasses fun p h => ?_
  obtain ⟨m, rfl⟩ : ∃ m, n = m + 1 := ⟨n - 1, by omega⟩
  refine Yields.bind (At.la_char h (by decide) (by decide)) fun p h => ?_
  rw [if_neg (by decide)]
  exact Yields.pure h

section tags

variable (fromUtf8Lossy : List UInt8 → String)

theorem bytesToString_utf8 (text : String) : bytesToString fromUtf8Lossy (utf8 text) = text := by
  rw [bytesToString, String.fromUTF8?]
  have hbytes : (⟨(utf8 text).toArray⟩ : ByteArray) = text.toByteArray := by
    rw [utf8, Array.toArray_toList]
  rw [hbytes, dif_pos text.isValidUTF8]
  rfl

/-- An element right after its start tag. -/
def started (name : Name) (attributes : List Attribute) : OpenElement :=
  ⟨name.text, [], attributes.map (·.name.text), attributes.map (·.value.text), []⟩

def readAttributes (attributes : List Attribute) : List (String × List UInt8) :=
  attributes.map fun a => (a.name.text, utf8 a.value.text)

theorem At.startElement {mode : ScanMode} {name : Name} {attributes : List Attribute} (h : At mode cs d built p) :
    Yields (startElement fromUtf8Lossy name.text (readAttributes attributes)) p ()
      (At mode cs d (started name attributes :: built.1, built.2)) := by
  apply Yields.modify
  have hstack := congrArg Prod.fst h.built
  have hroot := congrArg Prod.snd h.built
  refine ⟨h.token, h.tokenValue, h.lvalue, h.mode, h.sees, h.depth, Prod.ext ?_ hroot⟩
  simp only [readAttributes, started, List.map_map, Function.comp_def, bytesToString_utf8]
  exact congrArg _ hstack

theorem At.endElement {mode : ScanMode} {opened top : OpenElement} {outer : List OpenElement} {root : Option Element}
    (h : At mode cs d (opened :: top :: outer, root) p) :
    Yields (endElement fromUtf8Lossy) p ()
      (At mode cs d ({ top with children := top.children ++ [opened.close fromUtf8Lossy] } :: outer, root)) := by
  have hstack : p.stack = opened :: top :: outer := congrArg Prod.fst h.built
  have hroot : p.root = root := congrArg Prod.snd h.built
  refine ⟨{ p with stack := { top with children := top.children ++ [opened.close fromUtf8Lossy] } :: outer }, ?_, ?_⟩
  · simp only [XmlParser.endElement, get, getThe, MonadStateOf.get, StateT.get, set, StateT.set, Bind.bind, StateT.bind,
      Except.bind, Pure.pure, Except.pure, hstack]
  · exact ⟨h.token, h.tokenValue, h.lvalue, h.mode, h.sees, h.depth, Prod.ext rfl hroot⟩

theorem At.endElement_root {mode : ScanMode} {opened : OpenElement} {root : Option Element}
    (h : At mode cs d ([opened], root) p) :
    Yields (XmlParser.endElement fromUtf8Lossy) p () (At mode cs d ([], some (opened.close fromUtf8Lossy))) := by
  have hstack : p.stack = [opened] := congrArg Prod.fst h.built
  refine ⟨{ p with stack := [], root := some (opened.close fromUtf8Lossy) }, ?_, ?_⟩
  · simp only [XmlParser.endElement, get, getThe, MonadStateOf.get, StateT.get, set, StateT.set, Bind.bind, StateT.bind,
      Except.bind, Pure.pure, Except.pure, hstack]
  · exact ⟨h.token, h.tokenValue, h.lvalue, h.mode, h.sees, h.depth, rfl⟩

/-- The rest of a tag after its attributes. -/
theorem attributeLoop_spec {name : String} {attributes : List Attribute} (before : List Attribute) {fuel : Nat}
    {tail : List Int} {result : Bool} {Q : XmlParser → Prop} (h : At .sName (attributes.flatMap attributeCodes ++ tail) d built p)
    (hfuel : attributes.length < fuel) (hpos : 1 ≤ d) (hd : d + 7 < maxParseDepth) (hc : tail.headD (-1) = c)
    (htail : c = code '>' ∨ c = code '/')
    (hend : ∀ p, Ahead c [] tail.tail d built p →
      Yields (tagEnd fromUtf8Lossy name (readAttributes (before ++ attributes)) 1 c) p result Q) :
    Yields (attributeLoop fromUtf8Lossy name fuel (readAttributes before)) p result Q := by
  induction attributes generalizing fuel before p with
  | nil =>
      obtain ⟨fuel, rfl⟩ : ∃ m, fuel = m + 1 := ⟨fuel - 1, by omega⟩
      have htaileq : tail = c :: tail.tail := by
        cases tail with
        | nil => obtain rfl | rfl := htail <;> exact absurd hc (by decide)
        | cons x tail => exact congrArg (· :: tail) hc
      rw [List.flatMap_nil, List.nil_append, htaileq] at h
      have hfacts : c ≠ snameToken ∧ c ≠ code ' ' := by
        obtain rfl | rfl := htail <;> decide
      refine Yields.bind (h.la_snameStop htail) fun p h => ?_
      rw [if_neg hfacts.1, if_neg hfacts.2]
      rw [List.append_nil] at hend
      exact hend p h
  | cons a attributes ih =>
      obtain ⟨fuel, rfl⟩ : ∃ m, fuel = m + 1 := ⟨fuel - 1, by omega⟩
      have hcodes : (a :: attributes).flatMap attributeCodes ++ tail =
          code ' ' :: codes a.name.text ++ (code '=' :: code '"' :: (valueCodes a.value.text.toList ++
            code '"' :: (attributes.flatMap attributeCodes ++ tail))) := by
        simp [attributeCodes]
      rw [hcodes] at h
      refine Yields.bind (h.la_sname a.name.nameCodes rfl) fun p h => ?_
      rw [if_pos rfl]
      refine Yields.bind (h.shift (by omega)) fun p h => ?_
      refine Yields.bind (eq_spec h (by omega)) fun p h => ?_
      refine Yields.bind (attValue_spec h (by omega)) fun p h => ?_
      refine Yields.bind (h.reduce (k := d + 1) (by omega) rfl (by omega)) fun p h => ?_
      refine Yields.bind (h.setMode .sName) fun p h => ?_
      refine Yields.bind (h.reduce (k := d) (by omega) rfl (by omega)) fun p h => ?_
      have hread : readAttributes before ++
          [(bytesToString fromUtf8Lossy ((codes a.name.text).map UInt8.ofInt), utf8 a.value.text)] =
          readAttributes (before ++ [a]) := by
        simp [readAttributes, map_ofInt_codes, bytesToString_utf8]
      rw [hread]
      refine ih (before ++ [a]) h (by simpa using hfuel) ?_
      simpa using hend

theorem length_le_attributeCodes (attributes : List Attribute) :
    attributes.length ≤ (attributes.flatMap attributeCodes).length := by
  induction attributes with
  | nil => exact Nat.le_refl _
  | cons a attributes ih =>
      rw [List.flatMap_cons, List.length_append, List.length_cons, attributeCodes]
      simp only [List.cons_append, List.length_cons]
      omega

theorem startTag_head {name : Name} {attributes : List Attribute} {tail : List Int} {result : Bool} {Q : XmlParser → Prop}
    (h : Ahead elementBraceToken [] (codes name.text ++ (attributes.flatMap attributeCodes ++ tail)) d built p)
    (hd : d + 8 < maxParseDepth) (hc : tail.headD (-1) = c) (htail : c = code '>' ∨ c = code '/')
    (hend : ∀ p, Ahead c [] tail.tail (d + 1) built p →
      Yields (tagEnd fromUtf8Lossy name.text (readAttributes attributes) 1 c) p result Q) :
    Yields (startTag fromUtf8Lossy) p result Q := by
  have hstop : isNameChar ((attributes.flatMap attributeCodes ++ tail).headD (-1)) = false := by
    cases attributes with
    | nil =>
        rw [List.flatMap_nil, List.nil_append, hc]
        obtain rfl | rfl := htail <;> decide
    | cons a attributes => rfl
  refine Yields.bind (h.shift (by omega)) fun p h => ?_
  refine Yields.bind (h.setMode .name) fun p h => ?_
  refine Yields.bind (h.reduce (k := d + 1) (by omega) rfl (by omega)) fun p h => ?_
  refine Yields.bind (h.la_name name.nameCodes hstop) fun p h => ?_
  rw [if_neg (not_not.mpr rfl)]
  refine Yields.bind (h.shift (by omega)) fun p h => ?_
  refine Yields.bind (h.setMode .sName) fun p h => ?_
  refine Yields.bind (h.reduce (k := d + 1) (by omega) rfl (by omega)) fun p h => ?_
  obtain ⟨n, hn, hpasses⟩ := h.passes fun c hc => (flatMap_attributeCodes_clean attributes c hc).2
  refine Yields.bind hpasses fun p h => ?_
  rw [map_ofInt_codes, bytesToString_utf8]
  have hlen := length_le_attributeCodes attributes
  change Yields (attributeLoop fromUtf8Lossy name.text n (readAttributes [])) p result Q
  exact attributeLoop_spec fromUtf8Lossy [] h (by omega) (by omega) (by omega) hc htail hend

theorem startTag_open {name : Name} {attributes : List Attribute}
    (h : Ahead elementBraceToken [] (codes name.text ++ (attributes.flatMap attributeCodes ++ code '>' :: cs)) d built p)
    (hd : d + 8 < maxParseDepth) :
    Yields (startTag fromUtf8Lossy) p false (At .single cs (d + 1) (started name attributes :: built.1, built.2)) := by
  refine startTag_head (c := code '>') fromUtf8Lossy h hd rfl (Or.inl rfl) fun p h => ?_
  rw [tagEnd, if_pos rfl]
  refine Yields.bind (h.shift (by omega)) fun p h => ?_
  refine Yields.bind (h.reduce (k := d + 1) (by omega) rfl (by omega)) fun p h => ?_
  refine Yields.bind (h.startElement fromUtf8Lossy) fun p h => ?_
  exact Yields.pure h

/-- What an empty-element tag does before the element is closed. -/
theorem startTag_empty {name : Name} {attributes : List Attribute} {Q : XmlParser → Prop}
    (h : Ahead elementBraceToken [] (codes name.text ++ (attributes.flatMap attributeCodes ++ code '/' :: code '>' :: cs)) d built p)
    (hd : d + 8 < maxParseDepth)
    (hend : ∀ p, At .single cs (d + 1) (started name attributes :: built.1, built.2) p →
      Yields (endElement fromUtf8Lossy) p () fun p => Yields (do reduce 1; return true) p true Q) :
    Yields (startTag fromUtf8Lossy) p true Q := by
  refine startTag_head (c := code '/') fromUtf8Lossy h hd rfl (Or.inr rfl) fun p h => ?_
  rw [tagEnd, if_neg (by decide), if_pos rfl]
  refine Yields.bind (h.shift (by omega)) fun p h => ?_
  refine Yields.bind (At.expect h (by decide) (by omega)) fun p h => ?_
  refine Yields.bind (h.reduce (k := d + 1) (by omega) rfl (by omega)) fun p h => ?_
  refine Yields.bind (h.startElement fromUtf8Lossy) fun p h => ?_
  exact Yields.bind (hend p h) fun p h => h

end tags

end GhidraDecompiler.Xml.XmlParser
