import GhidraDecompiler.Xml.RoundTrip

namespace GhidraDecompiler.Xml

namespace XmlScan

variable {s : XmlScan} {c : Int} {cs w rest : List Int}

/-- The codes of a piece of text, none of which could end it. -/
def TextCodes (w : List Int) : Prop := ∀ x ∈ w, x ≠ -1 ∧ x ≠ code '<' ∧ x ≠ code '&' ∧ x ≠ code '>'

theorem Sees.next (h : s.Sees cs) (k : Fin 4) : s.next k = cs[(k : Nat)]?.getD (-1) := by
  rw [next_eq, h]

/-- The end of a CDATA section needs a bracket that is escaped in text. -/
theorem atCdataEnd_text {x : Int} (h : s.Sees (x :: w ++ c :: cs)) (hw : TextCodes (x :: w)) (hc : c = code '<' ∨ c = code '&') :
    s.atCdataEnd = false := by
  have hone : s.next 1 = (w ++ c :: cs)[0]?.getD (-1) := h.next 1
  have htwo : s.next 2 = (w ++ c :: cs)[1]?.getD (-1) := h.next 2
  by_contra hend
  simp only [atCdataEnd, Bool.not_eq_false, Bool.and_eq_true, decide_eq_true_eq] at hend
  obtain ⟨⟨-, hbracket⟩, hgt⟩ := hend
  rw [hone] at hbracket
  rw [htwo] at hgt
  have hstop : c ≠ code ']' ∧ c ≠ code '>' := by
    obtain rfl | rfl := hc <;> decide
  cases w with
  | nil => exact hstop.1 hbracket
  | cons y w =>
      cases w with
      | nil => exact hstop.2 hgt
      | cons z w => exact (hw z (by simp)).2.2.2 hgt

theorem pushWhile_text {fuel : Nat} (h : s.Sees (w ++ c :: cs)) (hfuel : w.length ≤ fuel) (hw : TextCodes w)
    (hc : c = code '<' ∨ c = code '&') :
    let s' := pushWhile (fun s => !(s.next 0 = code '<' || s.next 0 = code '&') && !s.atCdataEnd) fuel s
    s'.Sees (c :: cs) ∧ s'.lvalue = s.lvalue ++ w.map UInt8.ofInt ∧ s'.curmode = s.curmode := by
  induction w generalizing s fuel with
  | nil =>
      have hstop : pushWhile (fun s => !(s.next 0 = code '<' || s.next 0 = code '&') && !s.atCdataEnd) fuel s = s := by
        cases fuel with
        | zero => rfl
        | succ fuel =>
            rw [pushWhile, if_neg]
            rw [Sees.next_zero_cons h]
            obtain rfl | rfl := hc <;> simp
      rw [hstop]
      exact ⟨h, by simp, rfl⟩
  | cons x w ih =>
      obtain ⟨fuel, rfl⟩ : ∃ n, fuel = n + 1 := ⟨fuel - 1, by simp at hfuel; omega⟩
      obtain ⟨heof, hlt, hamp, hgt⟩ := hw x List.mem_cons_self
      obtain ⟨hsees, hlvalue, hmode⟩ := Sees.pushChar h
      have hgo : pushWhile (fun s => !(s.next 0 = code '<' || s.next 0 = code '&') && !s.atCdataEnd) (fuel + 1) s =
          pushWhile (fun s => !(s.next 0 = code '<' || s.next 0 = code '&') && !s.atCdataEnd) fuel s.pushChar := by
        rw [pushWhile, if_pos]
        rw [Sees.next_zero_cons h, atCdataEnd_text h hw hc]
        simp [heof, hlt, hamp]
      obtain ⟨hs, hl, hm⟩ := ih hsees (by simpa using hfuel) fun y hy => hw y (List.mem_cons_of_mem _ hy)
      simp only [hgo]
      refine ⟨hs, ?_, hm.trans hmode⟩
      rw [hl, hlvalue, List.map_cons, List.append_assoc]
      rfl

theorem scanCharData_piece (h : s.Sees (w ++ c :: cs)) (hmode : s.curmode = .single) (hne : w ≠ []) (hw : TextCodes w)
    (hc : c = code '<' ∨ c = code '&') : Scans s.scanCharData charDataToken (w.map UInt8.ofInt) (c :: cs) := by
  have hsees : s.clearLvalue.Sees (w ++ c :: cs) := h
  obtain ⟨hs, hl, hm⟩ := pushWhile_text hsees (hsees.length_le_remaining fun x hx => (hw x hx).1) hw hc
  have hscan : s.scanCharData = (charDataToken, s.clearLvalue.pushAll
      fun s => !(s.next 0 = code '<' || s.next 0 = code '&') && !s.atCdataEnd) := by
    rw [scanCharData]
    refine if_neg ?_
    rw [pushAll, hl]
    simpa [clearLvalue] using hne
  rw [hscan]
  exact ⟨rfl, hl, hs, hm.trans hmode⟩

theorem scanCharData_reference (h : s.Sees (code '&' :: cs)) : s.scanCharData = s.clearLvalue.scanSingle := by
  have hnext : s.clearLvalue.next 0 = code '&' := Sees.next_zero_cons h
  rw [scanCharData, pushAll_none (by simp [hnext])]
  exact if_pos rfl

end XmlScan

namespace XmlParser

open TotalRuns XmlScan

variable (fromUtf8Lossy : List UInt8 → String) {p : XmlParser} {c : Int} {cs w : List Int} {d : Nat} {top : OpenElement}
  {outer : List OpenElement} {root : Option Element} {built : Built}

theorem At.la_text (h : At .charData (w ++ c :: cs) d built p) (hne : w ≠ []) (hw : TextCodes w) (hc : c = code '<' ∨ c = code '&') :
    Yields XmlParser.la p charDataToken (Ahead charDataToken (w.map UInt8.ofInt) (c :: cs) d built) := by
  refine h.la ?_ (Or.inl (by decide))
  rw [nexttoken, h.mode]
  exact scanCharData_piece h.sees rfl hne hw hc

theorem At.la_reference (h : At .charData (code '&' :: cs) d built p) :
    Yields XmlParser.la p (code '&') (Ahead (code '&') [] cs d built) := by
  refine h.la ?_ (Or.inr ⟨by decide, rfl⟩)
  rw [nexttoken, h.mode]
  change Scans (scanCharData _) _ _ _
  rw [scanCharData_reference h.sees_single]
  exact scanSingle_char h.sees rfl rfl (by decide)

def isBlankByte (byte : UInt8) : Bool :=
  byte = ' '.toUInt8 || byte = '\n'.toUInt8 || byte = '\r'.toUInt8 || byte = '\t'.toUInt8

/-- What the filter for white text leaves of a piece. -/
def filtered (text : List UInt8) : List UInt8 := if text.all isBlankByte then [] else text

theorem At.printContent {mode : ScanMode} (h : At mode cs d (top :: outer, root) p) (text : List UInt8) :
    Yields (printContent text) p () (At mode cs d ({ top with content := top.content ++ filtered text } :: outer, root)) := by
  have hstack : p.stack = top :: outer := congrArg Prod.fst h.built
  have hroot : p.root = root := congrArg Prod.snd h.built
  refine Yields.modify ?_
  change At mode cs d _ (if text.all isBlankByte then p else _)
  rw [filtered]
  by_cases hblank : text.all isBlankByte = true
  · rw [if_pos hblank, if_pos hblank, List.append_nil]
    exact h
  · rw [if_neg hblank, if_neg hblank, hstack]
    exact ⟨h.token, h.tokenValue, h.lvalue, h.mode, h.sees, h.depth, Prod.ext rfl hroot⟩

theorem contentStep_text (h : At .charData (w ++ c :: cs) d (top :: outer, root) p) (hne : w ≠ []) (hw : TextCodes w)
    (hc : c = code '<' ∨ c = code '&') (hpos : 1 ≤ d) (hd : d + 2 < maxParseDepth) :
    Yields (contentStep fromUtf8Lossy 0) p false
      (At .charData (c :: cs) d ({ top with content := top.content ++ filtered (w.map UInt8.ofInt) } :: outer, root)) := by
  refine Yields.bind (h.la_text hne hw hc) fun p h => ?_
  rw [if_pos rfl]
  refine Yields.bind (h.shift (by omega)) fun p h => ?_
  refine Yields.bind (h.printContent _) fun p h => ?_
  refine Yields.bind (h.setMode .charData) fun p h => ?_
  refine Yields.bind (h.reduce (k := d) (by omega) rfl (by omega)) fun p h => ?_
  exact Yields.pure h

theorem contentStep_reference (h : At .charData (code '&' :: (w ++ code ';' :: cs)) d (top :: outer, root) p) (hw : NameCodes w)
    (hpos : 1 ≤ d) (hd : d + 4 < maxParseDepth) :
    Yields (contentStep fromUtf8Lossy 0) p false (At .charData cs d
      ({ top with content := top.content ++ filtered [UInt8.ofInt (convertEntityRef (w.map UInt8.ofInt))] } :: outer, root)) := by
  refine Yields.bind h.la_reference fun p h => ?_
  rw [if_neg (by decide), if_neg (by decide), if_pos rfl]
  refine Yields.bind (reference_entity h hw (by omega)) fun p h => ?_
  refine Yields.bind (h.printContent _) fun p h => ?_
  refine Yields.bind (h.setMode .charData) fun p h => ?_
  refine Yields.bind (h.reduce (k := d) (by omega) rfl (by omega)) fun p h => ?_
  exact Yields.pure h

def isBlank (c : Char) : Bool := c = ' ' || c = '\n' || c = '\r' || c = '\t'

/-- No stretch of text that no escaped character interrupts is white. -/
def StretchesShow (l : List Char) : Prop := ∀ run ∈ l.splitOnP (!isPlain ·), run = [] ∨ ∃ c ∈ run, isBlank c = false

theorem isBlankByte_of_mem {byte : UInt8} {c : Char} (h : byte ∈ String.utf8EncodeChar c) : isBlankByte byte = isBlank c := by
  have hbyte (t : Char) (ht : t.toNat < 128) : byte = t.toUInt8 ↔ c = t := by
    have hsigned : signed t.toUInt8 = code t := by
      have hone : t.toUInt8 = UInt8.ofNat t.toNat := rfl
      rw [hone, signed_ofNat (by omega), if_pos ht]
      rfl
    constructor
    · rintro rfl
      have hnonneg := code_nonneg t
      obtain heq | hneg := signed_of_mem h
      · exact code_inj (heq.symm.trans hsigned)
      · omega
    · rintro rfl
      have hmem := List.mem_map_of_mem (f := signed) h
      rw [encode_ascii ht, List.mem_singleton] at hmem
      rw [← ofInt_signed byte, hmem, ← hsigned, ofInt_signed]
  rw [isBlankByte, isBlank]
  simp only [hbyte ' ' (by decide), hbyte '\n' (by decide), hbyte '\r' (by decide), hbyte '\t' (by decide)]

theorem filtered_text (l : List Char) :
    filtered (l.flatMap String.utf8EncodeChar) = if l.all isBlank then [] else l.flatMap String.utf8EncodeChar := by
  have hall : (l.flatMap String.utf8EncodeChar).all isBlankByte = l.all isBlank := by
    rw [List.all_flatMap]
    refine List.all_congr rfl fun c => ?_
    rw [Bool.eq_iff_iff, List.all_eq_true]
    constructor
    · intro h
      obtain ⟨byte, hbyte⟩ := List.exists_mem_of_ne_nil _ (String.utf8EncodeChar_ne_nil (c := c))
      rw [← isBlankByte_of_mem hbyte]
      exact h byte hbyte
    · intro h byte hbyte
      rw [isBlankByte_of_mem hbyte, h]
  rw [filtered, hall]

theorem isBlank_special {c : Char} (h : isPlain c = false) : isBlank c = false := by
  cases hblank : isBlank c with
  | false => rfl
  | true =>
      have hcases : c = ' ' ∨ c = '\n' ∨ c = '\r' ∨ c = '\t' := by
        simpa [isBlank, or_assoc] using hblank
      obtain rfl | rfl | rfl | rfl := hcases <;> exact absurd h (by decide)

theorem stretchesShow_special {c : Char} (h : isPlain c = false) (l : List Char) :
    StretchesShow (c :: l) ↔ StretchesShow l := by
  rw [StretchesShow, List.splitOnP_cons_eq_if_modifyHead, if_pos (by simp [h])]
  simp [StretchesShow]

theorem stretchesShow_run {run l : List Char} (hrun : ∀ c ∈ run, isPlain c = true) (hne : run ≠ [])
    (hl : ∀ c ∈ l.head?, isPlain c = false) : StretchesShow (run ++ l) ↔ run.all isBlank = false ∧ StretchesShow l := by
  have hshows : (run = [] ∨ ∃ c ∈ run, isBlank c = false) ↔ run.all isBlank = false := by
    simp [hne, List.all_eq_false]
  have hsep : ∀ c ∈ run, (!isPlain c) = false := fun c hc => by simp [hrun c hc]
  cases l with
  | nil =>
      rw [List.append_nil, StretchesShow, List.splitOnP_eq_singleton hsep, List.forall_mem_singleton, hshows]
      simp [StretchesShow]
  | cons c l =>
      have hc : isPlain c = false := hl c rfl
      rw [stretchesShow_special hc, StretchesShow, List.splitOnP_append_cons_of_forall_mem hsep c (by simp [hc]),
        List.forall_mem_cons, hshows]
      rfl

/-- Text becomes content, except for the stretches that are white. -/
theorem content_text {l : List Char} (h : At .charData (valueCodes l ++ code '<' :: cs) d (top :: outer, root) p)
    (hl : '\x00' ∉ l) (hpos : 1 ≤ d) (hd : d + 4 < maxParseDepth) :
    ∃ n p' kept, n ≤ (valueCodes l).length ∧ Passes fromUtf8Lossy n p p' ∧ kept.Sublist l ∧ (kept = l ↔ StretchesShow l) ∧
      At .charData (code '<' :: cs) d
        ({ top with content := top.content ++ kept.flatMap String.utf8EncodeChar } :: outer, root) p' := by
  induction hn : l.length using Nat.strong_induction_on generalizing l top p with
  | _ n ih =>
      cases l with
      | nil =>
          refine ⟨0, p, [], Nat.zero_le _, fun fuel => rfl, List.Sublist.refl _, ?_, ?_⟩
          · simp [StretchesShow]
          · rw [List.flatMap_nil, List.append_nil]
            exact h
      | cons c l =>
          cases hplain : isPlain c with
          | false =>
              obtain ⟨w, hescaped, hname, hvalue, hbyte⟩ := escapedCodes_special hplain
              have hcodes : valueCodes (c :: l) ++ code '<' :: cs =
                  code '&' :: (w ++ code ';' :: (valueCodes l ++ code '<' :: cs)) := by
                simp [valueCodes, hescaped]
              have hlen : (valueCodes (c :: l)).length = w.length + 2 + (valueCodes l).length := by
                simp [valueCodes, hescaped]
                omega
              rw [hcodes] at h
              obtain ⟨p₁, hpass, h⟩ := Passes.of_step fromUtf8Lossy (contentStep_reference fromUtf8Lossy h hname hpos hd)
              have hfiltered : filtered (String.utf8EncodeChar c) = String.utf8EncodeChar c := by
                have htext := filtered_text [c]
                rwa [List.flatMap_singleton, if_neg (by simp [isBlank_special hplain])] at htext
              rw [hvalue, hbyte, hfiltered] at h
              rw [List.length_cons] at hn
              obtain ⟨m, p₂, kept, hm, hpasses, hsub, hkept, h⟩ :=
                ih l.length (by omega) h (fun hmem => hl (List.mem_cons_of_mem _ hmem)) rfl
              refine ⟨m + 1, p₂, c :: kept, by omega, hpass.trans fromUtf8Lossy hpasses, hsub.cons_cons c, ?_, ?_⟩
              · rw [stretchesShow_special hplain, ← hkept, List.cons_inj_right]
              · rwa [List.flatMap_cons, ← List.append_assoc]
          | true =>
              obtain ⟨run, l', happend, hrun, hne, hhead⟩ := plain_run hplain l
              have hnul : '\x00' ∉ run ∧ '\x00' ∉ l' := by
                rw [happend] at hl
                exact ⟨fun hmem => hl (List.mem_append_left _ hmem), fun hmem => hl (List.mem_append_right _ hmem)⟩
              have hlen := congrArg List.length happend
              have hrunpos := List.length_pos_iff.mpr hne
              rw [List.length_append] at hlen
              rw [happend, valueCodes_append, List.append_assoc] at h
              obtain ⟨t, cs', hcs, ht⟩ := valueCodes_head hhead (code '<') cs
              rw [hcs] at h
              have hcodes : TextCodes (valueCodes run) := by
                intro x hx
                obtain ⟨c', hc', hx⟩ := List.mem_flatMap.mp hx
                have hc : c' ≠ '\x00' := fun heq => hnul.1 (heq ▸ hc')
                obtain ⟨heof, -, hlt, hamp⟩ := plain_codes (hrun c' hc') hc hx
                exact ⟨heof, hlt, hamp, plain_code_ne (hrun c' hc') hx (by decide)⟩
              obtain ⟨p₁, hpass, h⟩ := Passes.of_step fromUtf8Lossy
                (contentStep_text fromUtf8Lossy h (valueCodes_ne_nil hne) hcodes ht hpos (by omega))
              rw [map_plain hrun, filtered_text, ← hcs] at h
              obtain ⟨m, p₂, kept, hm, hpasses, hsub, hkept, h⟩ := ih l'.length (by omega) h hnul.2 rfl
              have hcount : 1 ≤ (valueCodes run).length := List.length_pos_iff.mpr (valueCodes_ne_nil hne)
              have hle : m + 1 ≤ (valueCodes (c :: l)).length := by
                rw [happend, valueCodes_append, List.length_append]
                omega
              rw [happend, stretchesShow_run hrun hne hhead, ← hkept]
              cases hblank : run.all isBlank with
              | true =>
                  rw [if_pos hblank, List.append_nil] at h
                  refine ⟨m + 1, p₂, kept, happend ▸ hle, hpass.trans fromUtf8Lossy hpasses,
                    hsub.trans (List.sublist_append_right _ _), ?_, h⟩
                  have hshort : kept ≠ run ++ l' := fun heq => by
                    have hkeptlen := hsub.length_le
                    rw [heq, List.length_append] at hkeptlen
                    omega
                  simp [hshort]
              | false =>
                  rw [if_neg (by simp [hblank])] at h
                  refine ⟨m + 1, p₂, run ++ kept, happend ▸ hle, hpass.trans fromUtf8Lossy hpasses,
                    List.Sublist.append (List.Sublist.refl _) hsub, ?_, ?_⟩
                  · simp
                  · rwa [List.flatMap_append, ← List.append_assoc]

/-- An element with a text and nothing else in it. -/
theorem element_text {name : Name} {l : List Char}
    (h : Ahead elementBraceToken [] (codes name.text ++ code '>' :: (valueCodes l ++
      code '<' :: code '/' :: (codes name.text ++ code '>' :: cs))) 1 ([], none) p) (hl : '\x00' ∉ l) :
    ∃ kept, (kept = l ↔ StretchesShow l) ∧ Yields (element fromUtf8Lossy) p ()
      (At .single cs 2 ([], some ⟨name.text, String.ofList kept, [], [], []⟩)) := by
  have hmax : maxParseDepth = 10000 := rfl
  have hbase : p.stack.length = 0 := congrArg List.length (congrArg Prod.fst h.built)
  have hplain : Ahead elementBraceToken [] (codes name.text ++ (([] : List Attribute).flatMap attributeCodes ++ code '>' ::
      (valueCodes l ++ code '<' :: code '/' :: (codes name.text ++ code '>' :: cs)))) 1 ([], none) p := h
  obtain ⟨p₁, hstart, h⟩ := startTag_open fromUtf8Lossy hplain (by omega)
  obtain ⟨p₂, hmode, h⟩ := h.setMode .charData
  obtain ⟨p₃, hpush, h⟩ := h.push (by omega)
  obtain ⟨fuel, hfuel, p₄, hpasses, h⟩ := h.passes fun c hc => (valueCodes_clean hl c hc).2
  obtain ⟨n, p₅, kept, hn, hpass, -, hkept, h⟩ := content_text fromUtf8Lossy h hl (by omega) (by omega)
  obtain ⟨p₆, hlast, h⟩ := contentStep_last fromUtf8Lossy h (by omega)
  refine ⟨kept, hkept, p₆, ?_, ?_⟩
  · obtain ⟨m, rfl⟩ : ∃ m, fuel = m + 1 + n := ⟨fuel - n - 1, by omega⟩
    have hloop : contentLoop fromUtf8Lossy 0 (m + 1 + n) p₄ = .ok ((), p₆) := by
      rw [hpass, contentLoop]
      simp only [Bind.bind, StateT.bind, hlast, Except.bind]
      rfl
    simp only [element, get, getThe, MonadStateOf.get, StateT.get, Bind.bind, StateT.bind, Except.bind, Pure.pure, Except.pure,
      hbase, hstart, Bool.false_eq_true, if_false, hmode, hpush, hpasses, hloop]
  · have hclose : ({ started name [] with content := kept.flatMap String.utf8EncodeChar } : OpenElement).close fromUtf8Lossy =
        ⟨name.text, String.ofList kept, [], [], []⟩ := by
      simp only [OpenElement.close, started, ← utf8_ofList, bytesToString_utf8, List.map_nil]
    rw [← hclose]
    exact h

end XmlParser

open XmlParser

/-- The root of a document that is nothing but an element with a text. -/
theorem xmlTree_text (fromUtf8Lossy : List UInt8 → String) {text : String} (h : '\x00' ∉ text.toList) :
    ∃ kept, (kept = text.toList ↔ StretchesShow text.toList) ∧
      xmlTree fromUtf8Lossy (utf8 (xmlEscape "<e>" text ++ "</e>")) = .ok ⟨⟨"e", String.ofList kept, [], [], []⟩⟩ := by
  let name : Name := ⟨"e", by decide⟩
  let inner := codes name.text ++ code '>' :: (valueCodes text.toList ++
    code '<' :: code '/' :: (codes name.text ++ code '>' :: []))
  have hcodes : (utf8 (xmlEscape "<e>" text ++ "</e>")).map signed = code '<' :: inner := by
    have hopen : codes "<e>" = code '<' :: (codes "e" ++ [code '>']) := by decide
    have hclose : codes "</e>" = code '<' :: code '/' :: (codes "e" ++ [code '>']) := by decide
    change codes (xmlEscape "<e>" text ++ "</e>") = _
    rw [codes_append, codes_xmlEscape, hopen, hclose]
    simp [inner, name]
  have hzero : 0 ∉ utf8 (xmlEscape "<e>" text ++ "</e>") := by
    intro hmem
    have hsigned : (0 : Int) ∈ code '<' :: inner := hcodes ▸ List.mem_map.mpr ⟨0, hmem, rfl⟩
    have hclean : Clean (code '<' :: inner) :=
      .cons (by decide) (.append name.clean (.cons (by decide) (.append (valueCodes_clean h)
        (.cons (by decide) (.cons (by decide) (.append name.clean (.cons (by decide) .nil)))))))
    exact (hclean 0 hsigned).1 rfl
  have hsees := XmlScan.new_sees hzero
  rw [hcodes] at hsees
  have hat : At .single (code '<' :: (inner ++ [code '\n'])) 1 ([], none) (.new (utf8 (xmlEscape "<e>" text ++ "</e>"))) :=
    ⟨rfl, rfl, rfl, rfl, hsees, rfl, rfl⟩
  have hinner : inner ++ [code '\n'] = codes name.text ++ code '>' :: (valueCodes text.toList ++
      code '<' :: code '/' :: (codes name.text ++ code '>' :: [code '\n'])) := by
    simp [inner]
  have hla := hat.la_brace
  rw [hinner, braceToken_name] at hla
  obtain ⟨p, hrun, hahead⟩ := hla
  obtain ⟨kept, hkept, helement⟩ := element_text fromUtf8Lossy hahead h
  have hdocument := document_of_element (Q := (· = p)) fromUtf8Lossy ⟨p, hrun, rfl⟩ fun p' hp' => hp' ▸ helement
  obtain ⟨p', hdoc, -⟩ := hdocument
  refine ⟨kept, hkept, ?_⟩
  simp only [xmlTree, StateT.run, hdoc, Bind.bind, Except.bind]
  rfl

/-- The text comes back exactly when no white stretch of it lies between characters that are escaped. -/
theorem xmlTree_text_iff (fromUtf8Lossy : List UInt8 → String) (text : String) (h : '\x00' ∉ text.toList) :
    (∃ root, xmlTree fromUtf8Lossy (utf8 (xmlEscape "<e>" text ++ "</e>")) = .ok ⟨root⟩ ∧ root.content = text) ↔
      StretchesShow text.toList := by
  obtain ⟨kept, hkept, htree⟩ := xmlTree_text fromUtf8Lossy h
  rw [← hkept, htree]
  constructor
  · rintro ⟨root, hroot, hcontent⟩
    cases hroot
    rw [← hcontent, String.toList_ofList]
  · rintro rfl
    exact ⟨_, rfl, String.ofList_toList⟩

theorem xmlTree_text_sample :
    '\x00' ∉ "a < b".toList ∧
      ((∃ root, xmlTree (fun _ => "") (utf8 (xmlEscape "<e>" "a < b" ++ "</e>")) = .ok ⟨root⟩ ∧ root.content = "a < b") ↔
        StretchesShow "a < b".toList) :=
  ⟨by decide, xmlTree_text_iff _ _ (by decide)⟩

/-- The blank between two escaped characters is a token of its own, and it is dropped. -/
theorem xmlTree_blank_dropped :
    '\x00' ∉ "a& &b".toList ∧ (∃ c ∈ "a& &b".toList, isBlank c = false) ∧
      xmlEscape "<e>" "a& &b" ++ "</e>" = "<e>a&amp; &amp;b</e>" ∧
      ¬∃ root, xmlTree (fun _ => "") (utf8 (xmlEscape "<e>" "a& &b" ++ "</e>")) = .ok ⟨root⟩ ∧ root.content = "a& &b" := by
  refine ⟨by decide, ⟨'a', by decide, by decide⟩, by decide, ?_⟩
  rintro ⟨root, htree, hcontent⟩
  have hrun : (match xmlTree (fun _ => "") (utf8 (xmlEscape "<e>" "a& &b" ++ "</e>")) with
      | .ok document => document.root.content
      | .error _ => "") = "a&&b" := by decide +kernel
  rw [htree] at hrun
  exact absurd (hcontent.symm.trans hrun) (by decide)

end GhidraDecompiler.Xml
