import GhidraDecompiler.Xml.Tags

namespace GhidraDecompiler.Xml.XmlParser

open TotalRuns XmlScan

variable (fromUtf8Lossy : List UInt8 → String) {p p' : XmlParser} {cs : List Int} {d : Nat} {built : Built} {name : Name}
  {attributes : List Attribute} {opened top : OpenElement} {outer : List OpenElement} {root : Option Element}

theorem braceToken_name (name : Name) (cs : List Int) : braceToken ((codes name.text ++ cs).headD (-1)) = elementBraceToken := by
  have hinitial := name.nameCodes.initial
  have hne := name.nameCodes.ne_nil
  rw [braceToken, if_pos]
  cases hcodes : codes name.text with
  | nil => exact absurd hcodes hne
  | cons c w =>
      rw [hcodes] at hinitial
      exact hinitial

/-- A closed element that was started from a tag. -/
def finished (name : Name) (attributes : List Attribute) (children : List Element) : Element :=
  ⟨name.text, "", attributes.map (·.name.text), attributes.map (·.value.text), children⟩

theorem close_started (children : List Element) :
    ({ started name attributes with children := children } : OpenElement).close fromUtf8Lossy =
      finished name attributes children := by
  have hempty : bytesToString fromUtf8Lossy [] = "" := bytesToString_utf8 fromUtf8Lossy ""
  simp only [OpenElement.close, started, hempty, finished]

theorem contentStep_open
    (h : At .charData (code '<' :: (codes name.text ++ (attributes.flatMap attributeCodes ++ code '>' :: cs))) d built p)
    (hd : d + 8 < maxParseDepth) :
    Yields (contentStep fromUtf8Lossy 0) p false (At .charData cs (d + 2) (started name attributes :: built.1, built.2)) := by
  have hla := h.la_charData
  rw [braceToken_name] at hla
  refine Yields.bind hla fun p h => ?_
  rw [if_neg (by decide), if_pos rfl]
  refine Yields.bind (startTag_open fromUtf8Lossy h hd) fun p h => ?_
  rw [if_neg (by decide)]
  refine Yields.bind (h.setMode .charData) fun p h => ?_
  refine Yields.bind (h.push (by omega)) fun p h => ?_
  exact Yields.pure h

theorem contentStep_empty
    (h : At .charData (code '<' :: (codes name.text ++ (attributes.flatMap attributeCodes ++ code '/' :: code '>' :: cs))) d
      (top :: outer, root) p) (hpos : 1 ≤ d) (hd : d + 8 < maxParseDepth) :
    Yields (contentStep fromUtf8Lossy 0) p false
      (At .charData cs d ({ top with children := top.children ++ [finished name attributes []] } :: outer, root)) := by
  have hla := h.la_charData
  rw [braceToken_name] at hla
  refine Yields.bind hla fun p h => ?_
  rw [if_neg (by decide), if_pos rfl]
  have htag := startTag_empty (Q := At .single cs (d + 1)
    ({ top with children := top.children ++ [finished name attributes []] } :: outer, root)) fromUtf8Lossy h hd fun p h => by
      refine (h.endElement fromUtf8Lossy).mono fun p h => ?_
      rw [← close_started fromUtf8Lossy]
      refine Yields.bind (h.reduce (k := d + 1) (by omega) rfl (by omega)) fun p h => ?_
      exact Yields.pure h
  refine Yields.bind htag fun p h => ?_
  rw [if_pos rfl]
  refine Yields.bind (h.setMode .charData) fun p h => ?_
  refine Yields.bind (h.reduce (k := d) (by omega) rfl (by omega)) fun p h => ?_
  exact Yields.pure h

/-- What an end tag does before the element is closed. -/
theorem contentStep_end {result : Bool} {Q : XmlParser → Prop}
    (h : At .charData (code '<' :: code '/' :: (codes name.text ++ code '>' :: cs)) (d + 2) built p) (hd : d + 5 < maxParseDepth)
    (hend : ∀ p, At .single cs (d + 1) built p → Yields (do
      endElement fromUtf8Lossy
      if (← get).stack.length = 0 then return true
      else
        setMode .charData
        reduce 2
        return false) p result Q) :
    Yields (contentStep fromUtf8Lossy 0) p result Q := by
  have hla : Yields la p commandBraceToken (Ahead commandBraceToken [] (code '/' :: (codes name.text ++ code '>' :: cs)) (d + 2) built) :=
    h.la_charData
  refine Yields.bind hla fun p h => ?_
  rw [if_neg (by decide), if_neg (by decide), if_neg (by decide), if_pos rfl]
  refine Yields.bind (h.shift (by omega)) fun p h => ?_
  refine Yields.bind (h.la_char (by decide) (by decide)) fun p h => ?_
  rw [if_pos rfl]
  refine Yields.bind (h.shift (by omega)) fun p h => ?_
  refine Yields.bind (h.setMode .name) fun p h => ?_
  refine Yields.bind (h.reduce (k := d + 3) (by omega) rfl (by omega)) fun p h => ?_
  refine Yields.bind (h.la_name name.nameCodes rfl) fun p h => ?_
  rw [if_neg (not_not.mpr rfl)]
  refine Yields.bind (h.shift (by omega)) fun p h => ?_
  refine Yields.bind (h.la_char (by decide) (by decide)) fun p h => ?_
  rw [if_neg (by decide)]
  refine Yields.bind (h.expect (by omega)) fun p h => ?_
  refine Yields.bind (h.reduce (k := d + 3) (by omega) rfl (by omega)) fun p h => ?_
  refine Yields.bind (h.reduce (k := d + 1) (by omega) rfl (by omega)) fun p h => ?_
  exact hend p h

theorem contentStep_close (h : At .charData (code '<' :: code '/' :: (codes name.text ++ code '>' :: cs)) (d + 2)
      (opened :: top :: outer, root) p) (hpos : 1 ≤ d) (hd : d + 5 < maxParseDepth) :
    Yields (contentStep fromUtf8Lossy 0) p false
      (At .charData cs d ({ top with children := top.children ++ [opened.close fromUtf8Lossy] } :: outer, root)) := by
  refine contentStep_end fromUtf8Lossy h hd fun p h => ?_
  refine Yields.bind (h.endElement fromUtf8Lossy) fun p h => Yields.get_bind ?_
  have hstack := congrArg Prod.fst h.built
  simp only at hstack
  rw [hstack, if_neg (by simp)]
  refine Yields.bind (h.setMode .charData) fun p h => ?_
  refine Yields.bind (h.reduce (k := d) (by omega) rfl (by omega)) fun p h => ?_
  exact Yields.pure h

theorem contentStep_last (h : At .charData (code '<' :: code '/' :: (codes name.text ++ code '>' :: cs)) (d + 2)
      ([opened], root) p) (hd : d + 5 < maxParseDepth) :
    Yields (contentStep fromUtf8Lossy 0) p true (At .single cs (d + 1) ([], some (opened.close fromUtf8Lossy))) := by
  refine contentStep_end fromUtf8Lossy h hd fun p h => ?_
  refine Yields.bind (h.endElement_root fromUtf8Lossy) fun p h => Yields.get_bind ?_
  have hstack := congrArg Prod.fst h.built
  simp only at hstack
  rw [hstack, if_pos List.length_nil]
  exact Yields.pure h

/-- The loop gets from one state to another in a number of passes. -/
def Passes (n : Nat) (p p' : XmlParser) : Prop := ∀ fuel, contentLoop fromUtf8Lossy 0 (fuel + n) p = contentLoop fromUtf8Lossy 0 fuel p'

theorem Passes.of_step {Q : XmlParser → Prop} (h : Yields (contentStep fromUtf8Lossy 0) p false Q) :
    ∃ p', Passes fromUtf8Lossy 1 p p' ∧ Q p' := by
  obtain ⟨p', hrun, hQ⟩ := h
  refine ⟨p', fun fuel => ?_, hQ⟩
  rw [contentLoop]
  simp only [Bind.bind, StateT.bind, hrun, Except.bind]
  rfl

theorem Passes.trans {p'' : XmlParser} {n m : Nat} (h : Passes fromUtf8Lossy n p p') (h' : Passes fromUtf8Lossy m p' p'') :
    Passes fromUtf8Lossy (m + n) p p'' := by
  intro fuel
  rw [← Nat.add_assoc, h, h']

/-- The content of an element becomes its children. -/
theorem content_spec (f : Forest) (h : At .charData (f.codes ++ cs) d (top :: outer, root) p) (hpos : 1 ≤ d)
    (hd : d + 2 * f.depth + 8 < maxParseDepth) :
    ∃ n p', n ≤ f.codes.length ∧ Passes fromUtf8Lossy n p p' ∧
      At .charData cs d ({ top with children := top.children ++ f.elements } :: outer, root) p' := by
  induction f generalizing p cs d top outer with
  | nil =>
      refine ⟨0, p, Nat.zero_le _, fun fuel => rfl, ?_⟩
      rw [Forest.elements, List.append_nil]
      exact h
  | cons name attributes emptyTag children rest ihchildren ihrest =>
      rw [Forest.depth] at hd
      have hchildren := Nat.le_max_left (children.depth + 1) rest.depth
      have hrest := Nat.le_max_right (children.depth + 1) rest.depth
      by_cases hempty : (emptyTag && children.isEmpty) = true
      · have hnil : children = .nil := by
          cases children with
          | nil => rfl
          | cons => simp [Forest.isEmpty] at hempty
        rw [Forest.codes, if_pos hempty] at h
        simp only [List.cons_append, List.append_assoc, List.nil_append] at h
        obtain ⟨p₁, hpass, h⟩ := Passes.of_step fromUtf8Lossy (contentStep_empty fromUtf8Lossy h hpos (by omega))
        obtain ⟨n, p₂, hn, hpasses, h⟩ := ihrest h hpos (by omega)
        refine ⟨n + 1, p₂, ?_, hpass.trans fromUtf8Lossy hpasses, ?_⟩
        · rw [Forest.codes]
          simp only [List.length_cons, List.length_append]
          omega
        · rw [Forest.elements, hnil]
          simpa [finished, Forest.elements] using h
      · rw [Forest.codes, if_neg hempty] at h
        simp only [List.cons_append, List.append_assoc, List.nil_append] at h
        obtain ⟨p₁, hopen, h⟩ := Passes.of_step fromUtf8Lossy (contentStep_open fromUtf8Lossy h (by omega))
        obtain ⟨n, p₂, hn, hinside, h⟩ := ihchildren h (by omega) (by omega)
        obtain ⟨p₃, hclose, h⟩ := Passes.of_step fromUtf8Lossy (contentStep_close fromUtf8Lossy h hpos (by omega))
        obtain ⟨m, p₄, hm, hafter, h⟩ := ihrest h hpos (by omega)
        refine ⟨m + (1 + (n + 1)), p₄, ?_, ((hopen.trans fromUtf8Lossy hinside).trans fromUtf8Lossy hclose).trans fromUtf8Lossy hafter, ?_⟩
        · rw [Forest.codes, if_neg hempty]
          simp only [List.length_cons, List.length_append]
          omega
        · rw [Forest.elements]
          have hstarted : (started name attributes).children ++ children.elements = children.elements := List.nil_append _
          rw [hstarted, close_started] at h
          simpa [finished] using h

/-- The root is read whether its tag is empty or not. -/
theorem element_spec (t : Tree) (h : Ahead elementBraceToken [] (t.forest.codes.tail ++ cs) 1 ([], none) p)
    (hd : t.depth < 2000) :
    Yields (element fromUtf8Lossy) p () (At .single cs 2 ([], some t.element)) := by
  have hmax : maxParseDepth = 10000 := rfl
  have hbase : p.stack.length = 0 := congrArg List.length (congrArg Prod.fst h.built)
  refine Yields.get_bind ?_
  rw [hbase]
  rw [Tree.forest, Forest.codes, List.tail_cons] at h
  by_cases hempty : (t.emptyTag && t.children.isEmpty) = true
  · have hnil : t.children = .nil := by
      cases hchildren : t.children with
      | nil => rfl
      | cons => simp [Forest.isEmpty, hchildren] at hempty
    rw [if_pos hempty] at h
    simp only [Forest.codes, List.cons_append, List.append_assoc, List.nil_append] at h
    have htag := startTag_empty (Q := At .single cs 2 ([], some t.element)) fromUtf8Lossy h (by omega) fun p h => by
      refine (h.endElement_root fromUtf8Lossy).mono fun p h => ?_
      have hclose : (started t.name t.attributes).close fromUtf8Lossy = t.element := by
        refine (close_started fromUtf8Lossy []).trans ?_
        rw [finished, Tree.element, hnil]
        rfl
      rw [hclose] at h
      refine Yields.bind (h.reduce (k := 2) (by omega) rfl (by omega)) fun p h => ?_
      exact Yields.pure h
    refine Yields.bind htag fun p h => ?_
    rw [if_pos rfl]
    exact Yields.pure h
  · rw [if_neg hempty] at h
    simp only [Forest.codes, List.cons_append, List.append_assoc, List.nil_append] at h
    refine Yields.bind (startTag_open fromUtf8Lossy h (by omega)) fun p h => ?_
    rw [if_neg (by decide)]
    refine Yields.bind (h.setMode .charData) fun p h => ?_
    refine Yields.bind (h.push (by omega)) fun p h => ?_
    obtain ⟨fuel, hfuel, hpasses⟩ := h.passes fun c hc => (t.children.clean c hc).2
    refine Yields.bind hpasses fun p h => ?_
    rw [Tree.depth] at hd
    obtain ⟨n, p', hn, hpass, h⟩ := content_spec fromUtf8Lossy t.children h (by omega) (by omega)
    obtain ⟨p'', hrun, h⟩ := contentStep_last fromUtf8Lossy h (by omega)
    refine ⟨p'', ?_, ?_⟩
    · obtain ⟨m, rfl⟩ : ∃ m, fuel = m + 1 + n := ⟨fuel - n - 1, by omega⟩
      rw [hpass, contentLoop]
      simp only [Bind.bind, StateT.bind, hrun, Except.bind]
      rfl
    · have hclose : ({ started t.name t.attributes with children := t.children.elements } : OpenElement).close fromUtf8Lossy =
          t.element := close_started fromUtf8Lossy t.children.elements
      rw [← hclose]
      exact h

/-- A document is its root element and the line break that ends the input. -/
theorem document_of_element {element' : Element} {Q : XmlParser → Prop} (hla : Yields la p elementBraceToken Q)
    (helement : ∀ p, Q p → Yields (element fromUtf8Lossy) p () (At .single [code '\n'] 2 ([], some element'))) :
    Yields (document fromUtf8Lossy) p ⟨"", "", [], [], [element']⟩ fun _ => True := by
  have hmax : maxParseDepth = 10000 := rfl
  refine Yields.bind hla fun p h => ?_
  rw [if_pos rfl]
  refine Yields.bind (helement p h) fun p h => ?_
  refine Yields.bind (h.la_char (by decide) (by decide)) fun p h => ?_
  rw [if_pos (by decide)]
  have hwhite : Yields whitespaceRun p () (Ahead tokenEof [] [] 3 ([], some element')) := by
    refine Yields.bind (h.shift (by omega)) fun p h => ?_
    refine Yields.bind (h.reduce (k := 3) (by omega) rfl (by omega)) fun p h => ?_
    refine Yields.bind (h.reduce (k := 3) (by omega) rfl (by omega)) fun p h => ?_
    obtain ⟨n, hn, hpasses⟩ := At.passes (w := []) h fun c hc => absurd hc List.not_mem_nil
    refine Yields.bind hpasses fun p h => ?_
    obtain ⟨m, rfl⟩ : ∃ m, n = m + 1 := ⟨n - 1, by omega⟩
    refine Yields.bind (At.la_end h) fun p h => ?_
    rw [if_neg (by decide)]
    exact Yields.pure h
  refine Yields.bind hwhite fun p h => ?_
  refine Yields.bind h.la fun p h => ?_
  rw [if_neg (not_not.mpr rfl)]
  have hroot : p.root = some element' := congrArg Prod.snd h.built
  refine Yields.get_bind ?_
  rw [hroot]
  exact ⟨_, rfl, trivial⟩

theorem document_spec (t : Tree) (h : At .single (t.forest.codes ++ [code '\n']) 1 ([], none) p) (hd : t.depth < 2000) :
    Yields (document fromUtf8Lossy) p ⟨"", "", [], [], [t.element]⟩ fun _ => True := by
  have hcons : t.forest.codes = code '<' :: t.forest.codes.tail := rfl
  have hbrace : braceToken ((t.forest.codes.tail ++ [code '\n']).headD (-1)) = elementBraceToken := by
    rw [Tree.forest, Forest.codes, List.tail_cons, List.append_assoc]
    exact braceToken_name t.name _
  rw [hcons, List.cons_append] at h
  have hla := h.la_brace
  rw [hbrace] at hla
  exact document_of_element fromUtf8Lossy hla fun p h => element_spec fromUtf8Lossy t h hd

end GhidraDecompiler.Xml.XmlParser

namespace GhidraDecompiler.Xml

theorem xmlTree_write (fromUtf8Lossy : List UInt8 → String) (t : Tree) (h : t.depth < 2000) :
    xmlTree fromUtf8Lossy (utf8 t.write) = .ok ⟨t.element⟩ := by
  have hsees := XmlScan.new_sees t.zero_not_mem_write
  have hcodes : (utf8 t.write).map signed = t.forest.codes := t.codes_write
  rw [hcodes] at hsees
  have hat : XmlParser.At .single (t.forest.codes ++ [code '\n']) 1 ([], none) (.new (utf8 t.write)) :=
    ⟨rfl, rfl, rfl, rfl, hsees, rfl, rfl⟩
  obtain ⟨p, hrun, -⟩ := XmlParser.document_spec fromUtf8Lossy t hat h
  simp only [xmlTree, StateT.run, hrun, Bind.bind, Except.bind]
  rfl

/-- An element with a quoted, multi-byte value around an empty one. -/
def sampleTree : Tree :=
  ⟨⟨"a:b", by decide⟩, [⟨⟨"_x", by decide⟩, ⟨"<\"é\n&", by decide⟩⟩, ⟨⟨"y-1", by decide⟩, ⟨"", by decide⟩⟩], false,
    .cons ⟨"c", by decide⟩ [] true .nil (.cons ⟨"d", by decide⟩ [] false .nil .nil)⟩

theorem xmlTree_write_sampleTree :
    sampleTree.depth < 2000 ∧ sampleTree.write = "<a:b _x=\"&lt;&quot;é\n&amp;\" y-1=\"\"><c/><d></d></a:b>" ∧
      xmlTree (fun _ => "") (utf8 sampleTree.write) = .ok ⟨sampleTree.element⟩ :=
  ⟨by decide, by decide, xmlTree_write _ _ (by decide)⟩

end GhidraDecompiler.Xml
