import Mathlib.Data.List.TakeWhile
import GhidraDecompiler.Marshal.PackedValues

namespace GhidraDecompiler.Marshal

open PackedFormat PackedEncode

/-- One call for an attribute: the next one with its id, the check that there is none
left, or the one with a given id. -/
inductive Read
  | next (kind : Kind)
  | last
  | byId (attribId : AttributeId) (kind : Kind)

/-- How a client goes through elements: it opens one, reads attributes, visits some of
the elements inside, closes it, and goes on. -/
inductive Visit
  | stop
  | element (reads : List Read) (children : Visit) (skipping : Bool) (next : Visit)

/-- What the client has seen. -/
inductive Decoded
  | nil
  | element (id : BitVec 32) (values : List (BitVec 32 × Option Value)) (children next : Decoded)

namespace PackedDecode

variable (fromUtf8Lossy : List Byte → String)

def perform (d : PackedDecode) : Read → Result ((BitVec 32 × Option Value) × PackedDecode)
  | .next kind => do
      let (id, d) ← d.getNextAttributeId
      let (val, d) ← d.read fromUtf8Lossy kind
      return ((id, some val), d)
  | .last => do
      let (id, d) ← d.getNextAttributeId
      return ((id, none), d)
  | .byId attribId kind => do
      let (val, d) ← d.readById fromUtf8Lossy attribId kind
      return ((attribId.id, some val), d)

def performAll : List Read → PackedDecode → Result (List (BitVec 32 × Option Value) × PackedDecode)
  | [], d => .ok ([], d)
  | read :: reads, d => do
      let (val, d) ← d.perform fromUtf8Lossy read
      let (vals, d) ← performAll reads d
      return (val :: vals, d)

def close (d : PackedDecode) (skipping : Bool) (id : BitVec 32) : Result PackedDecode :=
  if skipping then d.closeElementSkipping id else d.closeElement id

def visit : Visit → PackedDecode → Result (Decoded × PackedDecode)
  | .stop, d => .ok (.nil, d)
  | .element reads children skipping next, d => do
      let (id, d) ← d.openElement
      let (values, d) ← performAll fromUtf8Lossy reads d
      let (inner, d) ← visit children d
      let d ← d.close skipping id
      let (following, d) ← visit next d
      return (.element id values inner following, d)

end PackedDecode

/-- The reads that make sense when the cursor is before the rest of the attributes, and
what they return. -/
inductive ReadsFit (attribs : List Attribute) : List Attribute → List Read → List (BitVec 32 × Option Value) → Prop
  | nil (rest : List Attribute) : ReadsFit attribs rest [] []
  | next {a rest reads values} (h : ReadsFit attribs rest reads values) :
      ReadsFit attribs (a :: rest) (.next a.kind :: reads) ((a.id, some a.value) :: values)
  | last {reads values} (h : ReadsFit attribs [] reads values) : ReadsFit attribs [] (.last :: reads) ((0, none) :: values)
  | byId {a rest attribId reads values} (found : attribs.find? (fun b => attribId.id = b.id) = some a)
      (h : ReadsFit attribs attribs reads values) :
      ReadsFit attribs rest (.byId attribId a.kind :: reads) ((a.id, some a.value) :: values)

namespace Visit

/-- The elements that are not visited. -/
def remaining : Visit → Elements → Elements
  | .element _ _ _ next, .element _ _ _ following => next.remaining following
  | _, es => es

/-- The visits that make sense for some elements, and what they see. An element is
closed without skipping when all inside it has been visited. -/
inductive Fits : Visit → Elements → Decoded → Prop
  | stop (es : Elements) : Fits .stop es .nil
  | element {elemId attribs children following reads inner next values seen seenNext} {skipping : Bool}
      (reads_fit : ReadsFit attribs attribs reads values) (inner_fits : Fits inner children seen)
      (complete : skipping = false → inner.remaining children = .nil) (next_fits : Fits next following seenNext) :
      Fits (.element reads inner skipping next) (.element elemId attribs children following)
        (.element elemId.id values seen seenNext)

end Visit

namespace Elements

def Legal (manager : Option AddrSpaceManager) : Elements → Prop
  | .nil => True
  | .element elemId attribs children next =>
      SmallId elemId.id ∧ (∀ a ∈ attribs, a.Legal manager) ∧ children.Legal manager ∧ next.Legal manager

theorem encode_element (elemId : ElementId) (attribs : List Attribute) (children next : Elements) :
    encode (Elements.element elemId attribs children next).calls = openElement elemId ++ (attribs.flatMap Attribute.bytes ++
      (encode children.calls ++ (closeElement elemId ++ encode next.calls))) := by
  simp only [Elements.calls, encode, List.flatMap_append, List.flatMap_cons, List.flatMap_map, List.append_assoc]
  rfl

end Elements

namespace PackedDecode

/-- The same data. -/
structure SameStream (d d' : PackedDecode) : Prop where
  manager : d'.manager = d.manager
  buffer : d'.buffer = d.buffer
  limit : d'.limit = d.limit

theorem SameStream.refl (d : PackedDecode) : SameStream d d := ⟨rfl, rfl, rfl⟩

theorem SameStream.trans {d₁ d₂ d₃ : PackedDecode} (h₁ : SameStream d₁ d₂) (h₂ : SameStream d₂ d₃) : SameStream d₁ d₃ :=
  ⟨h₂.manager.trans h₁.manager, h₂.buffer.trans h₁.buffer, h₂.limit.trans h₁.limit⟩

theorem SameStream.ready {d d' : PackedDecode} (h : SameStream d d') (hd : d.Ready) : d'.Ready := by
  rw [Ready, h.buffer, h.limit]
  exact hd

theorem SameStream.drop_eq {d d' : PackedDecode} {bytes post : List Byte} (h : SameStream d d')
    (hend : d'.endPos = d.endPos + bytes.length) (hdrop : d.buffer.drop d.endPos = bytes ++ post) :
    d'.buffer.drop d'.endPos = post := by
  rw [h.buffer, hend]
  exact drop_append_length hdrop

section Attributes

variable {d : PackedDecode} {attribs rest done : List Attribute} {post : List Byte}

/-- The cursor is before the rest of the attributes of the open element. -/
structure Cursor (d : PackedDecode) (attribs done rest : List Attribute) (post : List Byte) : Prop where
  ready : d.Ready
  split : attribs = done ++ rest
  start : d.buffer.drop d.startPos = attribs.flatMap Attribute.bytes ++ post
  cur : d.curPos = d.startPos + (done.flatMap Attribute.bytes).length
  read : d.attributeRead = true
  legal : ∀ a ∈ attribs, a.Legal d.manager
  ends : EndsAttributes post

theorem Cursor.here (h : Cursor d attribs done rest post) :
    d.buffer.drop d.curPos = rest.flatMap Attribute.bytes ++ post := by
  have hstart := h.start
  rw [h.split, List.flatMap_append, List.append_assoc] at hstart
  rw [h.cur]
  exact drop_append_length hstart

theorem Cursor.getNextAttributeId_cons {a : Attribute} (h : Cursor d attribs done (a :: rest) post) :
    d.getNextAttributeId = .ok (a.id, { d with attributeRead := false }) := by
  have hhere := h.here
  rw [List.flatMap_cons, List.append_assoc] at hhere
  have hlegal := h.legal a (by simp [h.split])
  obtain ⟨hkind, hid, -⟩ := attribute_at h.ready hlegal hhere (by simp [h.ends.ne_nil])
  simp only [getNextAttributeId, h.read, Bool.not_true, Bool.false_eq_true, if_false, Bind.bind, Except.bind, Pure.pure,
    Except.pure, hkind, ne_eq, not_true_eq_false, hid]

theorem Cursor.getNextAttributeId_nil (h : Cursor d attribs done [] post) : d.getNextAttributeId = .ok (0, d) := by
  have hhere := h.here
  obtain ⟨b, tail, rfl, hb⟩ := h.ends
  simp only [getNextAttributeId, h.read, Bool.not_true, Bool.false_eq_true, if_false, Bind.bind, Except.bind, Pure.pure,
    Except.pure, getByte_eq hhere, if_pos hb]

/-- The attribute at the cursor is read, and the cursor moves behind it. -/
theorem Cursor.perform_next (fromUtf8Lossy : List Byte → String) {a : Attribute} (h : Cursor d attribs done (a :: rest) post) :
    ∃ d', d.perform fromUtf8Lossy (.next a.kind) = .ok ((a.id, some a.value), d') ∧ SameStream d d' ∧ d'.endPos = d.endPos ∧
      Cursor d' attribs (done ++ [a]) rest post := by
  have hhere := h.here
  rw [List.flatMap_cons, List.append_assoc] at hhere
  have hlegal := h.legal a (by simp [h.split])
  have hread := read_eq (d := { d with attributeRead := false }) fromUtf8Lossy h.ready hlegal hhere (by simp [h.ends.ne_nil])
  refine ⟨d.after a.bytes, ?_, ⟨rfl, rfl, rfl⟩, rfl, ?_⟩
  · simp only [perform, h.getNextAttributeId_cons, Bind.bind, Except.bind, hread]
    rfl
  · refine ⟨h.ready, ?_, h.start, ?_, rfl, h.legal, h.ends⟩
    · rw [h.split, List.append_assoc, List.singleton_append]
    · simp only [after, h.cur, List.flatMap_append, List.flatMap_singleton, List.length_append, Nat.add_assoc]

theorem readById_eq (fromUtf8Lossy : List Byte → String) (d : PackedDecode) (attribId : AttributeId) (kind : Kind) :
    d.readById fromUtf8Lossy attribId kind = readAttr (fun d => d.read fromUtf8Lossy kind) d attribId := by
  have hmap : ∀ {α : Type} (f : α → Value) (g : PackedDecode → Result (α × PackedDecode)),
      (do return (← readAttr g d attribId).map f id) = readAttr (fun d => do return (← g d).map f id) d attribId := by
    intro α f g
    rw [readAttr, readAttr]
    cases d.findMatchingAttribute attribId with
    | error e => rfl
    | ok d₁ =>
        simp only [Bind.bind, Except.bind]
        cases g d₁ with
        | error e => rfl
        | ok res => rfl
  cases kind <;> exact hmap _ _

theorem length_le_flatMap {manager : Option AddrSpaceManager} (h : ∀ a ∈ attribs, a.Legal manager) :
    attribs.length ≤ (attribs.flatMap Attribute.bytes).length := by
  induction attribs with
  | nil => exact Nat.le_refl 0
  | cons a attribs ih =>
      have hpos := List.length_pos_iff.mpr (bytes_ne_nil (h a (by simp)).short)
      have hrest := ih fun b hb => h b (by simp [hb])
      rw [List.flatMap_cons, List.length_append, List.length_cons]
      omega

/-- Reading by id finds the first attribute with the id, and the cursor goes back. -/
theorem Cursor.perform_byId (fromUtf8Lossy : List Byte → String) {attribId : AttributeId} {a : Attribute}
    (h : Cursor d attribs done rest post) (hfound : attribs.find? (fun b => attribId.id = b.id) = some a) :
    ∃ d', d.perform fromUtf8Lossy (.byId attribId a.kind) = .ok ((a.id, some a.value), d') ∧ SameStream d d' ∧
      d'.endPos = d.endPos ∧ Cursor d' attribs [] attribs post := by
  obtain ⟨hid, before, rest', hsplit, hbefore⟩ := List.find?_eq_some_iff_append.mp hfound
  rw [decide_eq_true_iff] at hid
  have hstart := h.start
  have hlen := pos_lt hstart h.ends.ne_nil
  have hcount := length_le_flatMap h.legal
  have hlimit : d.buffer.length ≤ d.limit := h.ready
  rw [hsplit, List.length_append, List.length_cons] at hcount
  rw [hsplit, List.flatMap_append, List.flatMap_cons, List.append_assoc, List.append_assoc] at hstart
  have hlegal : ∀ b ∈ before, b.Legal d.manager ∧ attribId.id ≠ b.id := by
    intro b hb
    exact ⟨h.legal b (by simp [hsplit, hb]), by simpa using hbefore b hb⟩
  have ha : a.Legal d.manager := h.legal a (by simp [hsplit])
  have hpost : rest'.flatMap Attribute.bytes ++ post ≠ [] := by simp [h.ends.ne_nil]
  have hfind : d.findMatchingAttribute attribId = _ :=
    findFrom_eq (d := { d with curPos := d.startPos }) h.ready hlegal ha hid hstart hpost (by rw [hsplit] at hlen; omega)
  have hread := read_eq (d := { d with curPos := d.startPos + (before.flatMap Attribute.bytes).length }) fromUtf8Lossy h.ready ha
    (drop_append_length hstart) hpost
  refine ⟨{ d with curPos := d.startPos, attributeRead := true }, ?_, ⟨rfl, rfl, rfl⟩, rfl, ?_⟩
  · simp only [perform, readById_eq, readAttr, hfind, Bind.bind, Except.bind, hread, ← hid]
    rfl
  · exact ⟨h.ready, rfl, h.start, rfl, rfl, h.legal, h.ends⟩

theorem performAll_eq (fromUtf8Lossy : List Byte → String) {reads : List Read} {values : List (BitVec 32 × Option Value)}
    (h : Cursor d attribs done rest post) (hfit : ReadsFit attribs rest reads values) :
    ∃ d', performAll fromUtf8Lossy reads d = .ok (values, d') ∧ SameStream d d' ∧ d'.endPos = d.endPos := by
  induction hfit generalizing d done with
  | nil rest => exact ⟨d, rfl, .refl d, rfl⟩
  | next hfit ih =>
      obtain ⟨d₁, hperform, hsame, hend, hcursor⟩ := h.perform_next fromUtf8Lossy
      obtain ⟨d', hall, hsame', hend'⟩ := ih hcursor
      refine ⟨d', ?_, hsame.trans hsame', hend'.trans hend⟩
      simp only [performAll, hperform, Bind.bind, Except.bind, hall]
      rfl
  | last hfit ih =>
      obtain ⟨d', hall, hsame', hend'⟩ := ih h
      refine ⟨d', ?_, hsame', hend'⟩
      simp only [performAll, perform, h.getNextAttributeId_nil, Bind.bind, Except.bind, Pure.pure, Except.pure, hall]
  | byId found hfit ih =>
      obtain ⟨d₁, hperform, hsame, hend, hcursor⟩ := h.perform_byId fromUtf8Lossy found
      obtain ⟨d', hall, hsame', hend'⟩ := ih hcursor
      refine ⟨d', ?_, hsame.trans hsame', hend'.trans hend⟩
      simp only [performAll, hperform, Bind.bind, Except.bind, hall]
      rfl

end Attributes

section Nesting

variable {d : PackedDecode} {elemId : ElementId} {attribs : List Attribute} {post : List Byte}

/-- The first byte closes an element. -/
def Closes (post : List Byte) : Prop := ∃ b tail, post = b :: tail ∧ b &&& headerMask = elementEnd

theorem Closes.ne_nil (h : Closes post) : post ≠ [] := by
  obtain ⟨b, tail, rfl, _⟩ := h
  simp

theorem Closes.endsAttributes (h : Closes post) : EndsAttributes post := by
  obtain ⟨b, tail, rfl, hb⟩ := h
  exact ⟨b, tail, rfl, by rw [hb]; decide⟩

theorem headerOf_append {header : Byte} {id : BitVec 32} {hdr : List Byte} (hh : HeaderOf header id hdr) (tail : List Byte) :
    ∃ b tail', hdr ++ tail = b :: tail' ∧ b &&& headerMask = header := by
  cases hh with
  | short b kind extend value => exact ⟨b, tail, rfl, kind⟩
  | extended b e kind extend value ne => exact ⟨b, e :: tail, rfl, kind⟩

theorem closes_closeElement (h : SmallId elemId.id) (tail : List Byte) : Closes (PackedEncode.closeElement elemId ++ tail) :=
  headerOf_append (writeHeader_headerOf (by decide) h) tail

/-- After the attributes another element is opened, or the element is closed. -/
theorem endsAttributes_encode {manager : Option AddrSpaceManager} {es : Elements} (h : es.Legal manager) (hpost : Closes post) :
    EndsAttributes (encode es.calls ++ post) := by
  cases es with
  | nil => exact hpost.endsAttributes
  | element elemId attribs children next =>
      rw [Elements.encode_element, List.append_assoc]
      have hh : HeaderOf elementStart elemId.id (PackedEncode.openElement elemId) := writeHeader_headerOf (by decide) h.1
      obtain ⟨b, tail, heq, hb⟩ := headerOf_append hh _
      exact ⟨b, tail, heq, by rw [hb]; decide⟩

theorem nextEndId_eq {header : Byte} {id : BitVec 32} {hdr : List Byte} (hd : d.Ready) (hh : HeaderOf header id hdr)
    (h : d.buffer.drop d.endPos = hdr ++ post) (hpost : post ≠ []) :
    ∃ b, d.getByte d.endPos = b ∧ b &&& headerMask = header ∧ d.nextEnd = .ok (b, { d with endPos := d.endPos + 1 }) ∧
      nextEndId { d with endPos := d.endPos + 1 } b = .ok (id, { d with endPos := d.endPos + hdr.length }) := by
  cases hh with
  | short b kind extend value =>
      refine ⟨b, getByte_eq h, kind, nextEnd_eq hd h hpost, ?_⟩
      rw [nextEndId, if_neg (by simpa using extend), value]
      rfl
  | extended b e kind extend value ne =>
      refine ⟨b, getByte_eq h, kind, nextEnd_eq hd h (by simp), ?_⟩
      have hnext := nextEnd_eq (d := { d with endPos := d.endPos + 1 }) hd (drop_succ h) hpost
      simp only [nextEndId, if_pos extend, hnext, Bind.bind, Except.bind, value]
      rfl

/-- The cursor is before the attributes, and the end position behind them. -/
theorem openElement_eq (hd : d.Ready) (hid : SmallId elemId.id) (ha : ∀ a ∈ attribs, a.Legal d.manager)
    (h : d.buffer.drop d.endPos = PackedEncode.openElement elemId ++ (attribs.flatMap Attribute.bytes ++ post))
    (hpost : EndsAttributes post) :
    ∃ d', d.openElement = .ok (elemId.id, d') ∧ SameStream d d' ∧
      d'.endPos = d.endPos + (PackedEncode.openElement elemId).length + (attribs.flatMap Attribute.bytes).length ∧
      Cursor d' attribs [] attribs post := by
  have hh : HeaderOf elementStart elemId.id (PackedEncode.openElement elemId) := writeHeader_headerOf (by decide) hid
  obtain ⟨b, hbyte, hkind, hnext, hend⟩ := nextEndId_eq hd hh h (by simp [hpost.ne_nil])
  have hrest := drop_append_length h
  have hlen := pos_lt hrest hpost.ne_nil
  have hlimit : d.buffer.length ≤ d.limit := hd
  have hcount := length_le_flatMap ha
  generalize d.endPos + (PackedEncode.openElement elemId).length = start at hend hrest hlen ⊢
  have hfuel : attribs.length < d.limit := by omega
  have hskip := skipAttributes_eq (d := { d with endPos := start, startPos := start, curPos := start }) hd ha hrest hpost hfuel
  generalize start + (attribs.flatMap Attribute.bytes).length = stop at hskip ⊢
  refine ⟨{ d with startPos := start, curPos := start, endPos := stop, attributeRead := true }, ?_, ⟨rfl, rfl, rfl⟩, rfl, ⟨hd, rfl, hrest, rfl, rfl, ha, hpost⟩⟩
  simp only [openElement, hbyte, hkind, ne_eq, not_true_eq_false, if_false, hnext, Bind.bind, Except.bind, hend, hskip]
  rfl

theorem closeElement_eq (hd : d.Ready) (hid : SmallId elemId.id)
    (h : d.buffer.drop d.endPos = PackedEncode.closeElement elemId ++ post) (hpost : post ≠ []) :
    d.closeElement elemId.id = .ok { d with endPos := d.endPos + (PackedEncode.closeElement elemId).length } := by
  have hh : HeaderOf elementEnd elemId.id (PackedEncode.closeElement elemId) := writeHeader_headerOf (by decide) hid
  obtain ⟨b, hbyte, hkind, hnext, hend⟩ := nextEndId_eq hd hh h hpost
  simp only [closeElement, hnext, Bind.bind, Except.bind, hkind, ne_eq, not_true_eq_false, if_false, hend]
  rfl

/-- One step opens an element and one closes it. -/
def skipSteps : Elements → Nat
  | .nil => 0
  | .element _ _ children next => skipSteps children + skipSteps next + 2

theorem skipSteps_le {manager : Option AddrSpaceManager} {es : Elements} (h : es.Legal manager) :
    skipSteps es ≤ (encode es.calls).length := by
  induction es with
  | nil => exact Nat.le_refl 0
  | element elemId attribs children next ihc ihn =>
      obtain ⟨hid, -, hchildren, hnext⟩ := h
      have hpos : ∀ header, (writeHeader header elemId.id).length ≠ 0 := by
        intro header
        rw [writeHeader]
        split <;> simp
      have hopen := hpos elementStart
      have hclose := hpos elementEnd
      have := ihc hchildren
      have := ihn hnext
      simp only [Elements.encode_element, List.length_append, skipSteps, PackedEncode.openElement, PackedEncode.closeElement]
      omega

/-- The elements that follow are opened and closed, and the stack is as before. -/
theorem closeSkipping_elements {es : Elements} (hd : d.Ready) (hes : es.Legal d.manager)
    (h : d.buffer.drop d.endPos = encode es.calls ++ post) (hpost : Closes post) (top : BitVec 32) (stack : List (BitVec 32))
    (fuel : Nat) :
    ∃ d', closeSkipping (fuel + skipSteps es) (top :: stack) d = closeSkipping fuel (top :: stack) d' ∧ SameStream d d' ∧
      d'.endPos = d.endPos + (encode es.calls).length := by
  induction es generalizing d post top stack fuel with
  | nil => exact ⟨d, rfl, .refl d, rfl⟩
  | element elemId attribs children next ihc ihn =>
      obtain ⟨hid, ha, hchildren, hnext⟩ := hes
      rw [Elements.encode_element] at h ⊢
      simp only [List.append_assoc] at h
      have hcloses := closes_closeElement hid (encode next.calls ++ post)
      obtain ⟨d₁, hopen, hsame₁, hend₁, hcursor⟩ := openElement_eq hd hid ha h (endsAttributes_encode hchildren hcloses)
      have hh : HeaderOf elementStart elemId.id (PackedEncode.openElement elemId) := writeHeader_headerOf (by decide) hid
      obtain ⟨b, tail, heq, hb⟩ := headerOf_append hh _
      have hstart : d.getByte d.endPos &&& headerMask = elementStart := by
        rw [getByte_eq (h.trans heq), hb]
      have hdrop₁ : d₁.buffer.drop d₁.endPos =
          encode children.calls ++ (PackedEncode.closeElement elemId ++ (encode next.calls ++ post)) := by
        rw [← List.append_assoc] at h
        apply hsame₁.drop_eq _ h
        rw [hend₁, List.length_append, Nat.add_assoc]
      have hready₁ := hsame₁.ready hd
      obtain ⟨d₂, hskip₂, hsame₂, hend₂⟩ := ihc hready₁ (hsame₁.manager ▸ hchildren) hdrop₁ hcloses elemId.id (top :: stack)
        (fuel + skipSteps next + 1)
      have hdrop₂ := hsame₂.drop_eq hend₂ hdrop₁
      have hready₂ := hsame₂.ready hready₁
      have hclose := closeElement_eq hready₂ hid hdrop₂ (by simp [hpost.ne_nil])
      have hstop : d₂.getByte d₂.endPos &&& headerMask = elementEnd := by
        obtain ⟨b, tail, heq, hb⟩ := hcloses
        rw [getByte_eq (hdrop₂.trans heq), hb]
      have hdrop₃ := drop_append_length hdrop₂
      obtain ⟨d₄, hskip₄, hsame₄, hend₄⟩ := ihn (d := { d₂ with endPos := d₂.endPos + (PackedEncode.closeElement elemId).length })
        hready₂ (by rw [hsame₂.manager, hsame₁.manager]; exact hnext) hdrop₃ hpost top stack fuel
      refine ⟨d₄, ?_, (hsame₁.trans hsame₂).trans ⟨hsame₄.manager, hsame₄.buffer, hsame₄.limit⟩, ?_⟩
      · have hfuel : fuel + skipSteps (.element elemId attribs children next) =
            fuel + skipSteps next + 1 + skipSteps children + 1 := by
          rw [skipSteps]
          omega
        rw [hfuel, closeSkipping]
        simp only [hstart, hopen, Bind.bind, Except.bind, if_neg (show elementStart ≠ elementEnd by decide), if_true]
        rw [hskip₂, closeSkipping]
        simp only [hstop, if_true, hclose, Bind.bind, Except.bind]
        exact hskip₄
      · rw [hend₄]
        simp only [hend₂, hend₁, List.length_append]
        omega

theorem closeElementSkipping_eq {es : Elements} (hd : d.Ready) (hes : es.Legal d.manager) (hid : SmallId elemId.id)
    (h : d.buffer.drop d.endPos = encode es.calls ++ (PackedEncode.closeElement elemId ++ post)) (hpost : post ≠ []) :
    ∃ d', d.closeElementSkipping elemId.id = .ok d' ∧ SameStream d d' ∧
      d'.endPos = d.endPos + (encode es.calls).length + (PackedEncode.closeElement elemId).length := by
  have hcloses := closes_closeElement hid post
  have hlen := pos_lt h (by simp [hpost])
  have hlimit : d.buffer.length ≤ d.limit := hd
  have hsteps := skipSteps_le hes
  obtain ⟨fuel, hfuel⟩ : ∃ fuel, d.limit + 1 = fuel + 2 + skipSteps es := ⟨d.limit + 1 - 2 - skipSteps es, by omega⟩
  obtain ⟨d₁, hskip, hsame, hend⟩ := closeSkipping_elements hd hes h hcloses elemId.id [] (fuel + 2)
  have hdrop := hsame.drop_eq hend h
  have hclose := closeElement_eq (hsame.ready hd) hid hdrop hpost
  have hstop : d₁.getByte d₁.endPos &&& headerMask = elementEnd := by
    obtain ⟨b, tail, heq, hb⟩ := hcloses
    rw [getByte_eq (hdrop.trans heq), hb]
  refine ⟨{ d₁ with endPos := d₁.endPos + (PackedEncode.closeElement elemId).length }, ?_, ⟨hsame.manager, hsame.buffer, hsame.limit⟩, ?_⟩
  · rw [closeElementSkipping, hfuel, hskip, closeSkipping]
    simp only [hstop, if_true, hclose, Bind.bind, Except.bind, closeSkipping]
  · simp only [hend]

theorem remaining_legal {manager : Option AddrSpaceManager} {es : Elements} (h : es.Legal manager) (plan : Visit) :
    (plan.remaining es).Legal manager := by
  induction es generalizing plan with
  | nil => cases plan <;> exact h
  | element elemId attribs children next _ ih =>
      cases plan with
      | stop => exact h
      | element reads inner skipping following => exact ih h.2.2.2 following

/-- The client sees what was written, and stops before the elements it does not visit. -/
theorem visit_eq (fromUtf8Lossy : List Byte → String) {plan : Visit} {es : Elements} {seen : Decoded} (hfit : plan.Fits es seen)
    (hd : d.Ready) (hes : es.Legal d.manager) (h : d.buffer.drop d.endPos = encode es.calls ++ post) (hpost : Closes post) :
    ∃ d', visit fromUtf8Lossy plan d = .ok (seen, d') ∧ SameStream d d' ∧
      d'.buffer.drop d'.endPos = encode (plan.remaining es).calls ++ post ∧
      d'.endPos + (encode (plan.remaining es).calls).length = d.endPos + (encode es.calls).length := by
  induction hfit generalizing d post with
  | stop es =>
      have hrem : Visit.remaining .stop es = es := by cases es <;> rfl
      rw [hrem]
      exact ⟨d, rfl, .refl d, h, rfl⟩
  | @element elemId attribs children following reads inner next values seen seenNext skipping reads_fit inner_fits complete
      next_fits ihc ihn =>
      obtain ⟨hid, ha, hchildren, hnext⟩ := hes
      rw [Elements.encode_element] at h ⊢
      simp only [List.append_assoc] at h
      have hcloses := closes_closeElement hid (encode following.calls ++ post)
      obtain ⟨d₁, hopen, hsame₁, hend₁, hcursor⟩ := openElement_eq hd hid ha h (endsAttributes_encode hchildren hcloses)
      obtain ⟨d₂, hreads, hsame₂, hend₂⟩ := performAll_eq fromUtf8Lossy hcursor reads_fit
      have hsame₂ := hsame₁.trans hsame₂
      have hdrop₂ : d₂.buffer.drop d₂.endPos =
          encode children.calls ++ (PackedEncode.closeElement elemId ++ (encode following.calls ++ post)) := by
        rw [← List.append_assoc] at h
        apply hsame₂.drop_eq _ h
        rw [hend₂, hend₁, List.length_append, Nat.add_assoc]
      obtain ⟨d₃, hinner, hsame₃, hdrop₃, hend₃⟩ := ihc (hsame₂.ready hd) (hsame₂.manager ▸ hchildren) hdrop₂ hcloses
      have hsame₃ := hsame₂.trans hsame₃
      have hready₃ := hsame₃.ready hd
      -- either nothing is left inside, or it is skipped
      obtain ⟨d₄, hclose, hsame₄, hend₄⟩ : ∃ d₄, d₃.close skipping elemId.id = .ok d₄ ∧ SameStream d₃ d₄ ∧
          d₄.endPos = d₃.endPos + (encode (inner.remaining children).calls).length + (PackedEncode.closeElement elemId).length := by
        cases skipping with
        | true =>
            have hleft : (inner.remaining children).Legal d₃.manager := by
              rw [hsame₃.manager]
              exact remaining_legal hchildren inner
            exact closeElementSkipping_eq hready₃ hleft hid hdrop₃ (by simp [hpost.ne_nil])
        | false =>
            rw [complete rfl] at hdrop₃ ⊢
            exact ⟨_, closeElement_eq hready₃ hid hdrop₃ (by simp [hpost.ne_nil]), ⟨rfl, rfl, rfl⟩, rfl⟩
      have hdrop₄ : d₄.buffer.drop d₄.endPos = encode following.calls ++ post := by
        rw [← List.append_assoc] at hdrop₃
        apply hsame₄.drop_eq _ hdrop₃
        rw [hend₄, List.length_append, Nat.add_assoc]
      have hsame₄ := hsame₃.trans hsame₄
      obtain ⟨d₅, hfollowing, hsame₅, hdrop₅, hend₅⟩ := ihn (hsame₄.ready hd) (hsame₄.manager ▸ hnext) hdrop₄ hpost
      refine ⟨d₅, ?_, hsame₄.trans hsame₅, hdrop₅, ?_⟩
      · simp only [visit, hopen, hreads, hinner, hclose, hfollowing, Bind.bind, Except.bind]
        rfl
      · have hrem : Visit.remaining (.element reads inner skipping next) (.element elemId attribs children following) =
            next.remaining following := rfl
        simp only [hrem, List.length_append] at hend₅ ⊢
        omega

end Nesting

end PackedDecode

section Zeros

/-- No byte of a text is zero. -/
def Attribute.NulFree : Attribute → Prop
  | .string _ val => 0 ∉ stringBytes val
  | .stringIndexed _ _ val => 0 ∉ stringBytes val
  | _ => True

def Elements.NulFree : Elements → Prop
  | .nil => True
  | .element _ attribs children next => (∀ a ∈ attribs, a.NulFree) ∧ children.NulFree ∧ next.NulFree

theorem zero_notMem_writeHeader {header : Byte} {id : BitVec 32} (hh : header ∈ headers) (hid : SmallId id) :
    0 ∉ writeHeader header id := by
  have hne : ∀ header ∈ headers, header ≠ 0 := by decide
  have hfirst : ∀ b : Byte, b &&& headerMask = header → 0 ≠ b := by
    rintro b hb rfl
    exact hne header hh (by rw [← hb]; rfl)
  have hheader := writeHeader_headerOf hh hid
  generalize writeHeader header id = hdr at hheader ⊢
  cases hheader with
  | short b kind extend value => simpa using hfirst b kind
  | extended b e kind extend value ne => simpa using ⟨hfirst b kind, ne.symm⟩

theorem zero_notMem_writePieces (val : Word) (n : Nat) : 0 ∉ writePieces val n := by
  induction n with
  | zero => simp [writePieces]
  | succ n ih =>
      rw [writePieces, List.mem_cons, not_or]
      exact ⟨(marker_ne_zero _).symm, ih⟩

theorem zero_notMem_writeInteger {t : Nat} (ht : t ∈ [2, 3, 4, 5, 7]) (val : Word) :
    0 ∉ writeInteger (BitVec.ofNat 8 t <<< typecodeShift) val := by
  have hlt : ∀ t ∈ [2, 3, 4, 5, 7], t < 16 ∧ BitVec.ofNat 8 t ≠ 0 := by decide
  obtain ⟨hcode, -⟩ := PackedDecode.typeByte_integer (hlt t ht).1 val
  rw [writeInteger, List.mem_cons, not_or]
  refine ⟨fun hzero => ?_, zero_notMem_writePieces val _⟩
  rw [← hzero] at hcode
  exact (hlt t ht).2 (by rw [← hcode]; rfl)

theorem zero_notMem_bytes {a : Attribute} (hid : SmallId a.id) (hnul : a.NulFree) : 0 ∉ a.bytes := by
  have hheader : 0 ∉ writeHeader attributeHeader a.id := zero_notMem_writeHeader (by decide) hid
  cases a with
  | bool attribId val =>
      rw [Attribute.bytes, writeBool, List.mem_append, not_or]
      refine ⟨hheader, ?_⟩
      cases val <;> decide
  | signedInteger attribId val =>
      rw [Attribute.bytes, writeSignedInteger, List.mem_append, not_or]
      refine ⟨hheader, ?_⟩
      by_cases hneg : val.toInt < 0
      · rw [if_pos hneg]
        exact zero_notMem_writeInteger (t := 3) (by decide) _
      · rw [if_neg hneg]
        exact zero_notMem_writeInteger (t := 2) (by decide) _
  | unsignedInteger attribId val =>
      rw [Attribute.bytes, writeUnsignedInteger, List.mem_append, not_or]
      exact ⟨hheader, zero_notMem_writeInteger (t := 4) (by decide) _⟩
  | string attribId val =>
      rw [Attribute.bytes, writeString, List.mem_append, List.mem_append, not_or, not_or]
      exact ⟨hheader, zero_notMem_writeInteger (t := 7) (by decide) _, hnul⟩
  | stringIndexed attribId index val =>
      rw [Attribute.bytes, writeStringIndexed, List.mem_append, List.mem_append, not_or, not_or]
      exact ⟨hheader, zero_notMem_writeInteger (t := 7) (by decide) _, hnul⟩
  | space attribId spc =>
      rw [Attribute.bytes, writeSpace, List.mem_append, not_or]
      refine ⟨hheader, ?_⟩
      split
      · decide
      · decide
      · decide
      · split <;> decide
      · exact zero_notMem_writeInteger (t := 5) (by decide) _
  | opcode attribId opc =>
      rw [Attribute.bytes, writeOpcode, List.mem_append, not_or]
      exact ⟨hheader, zero_notMem_writeInteger (t := 2) (by decide) _⟩

theorem zero_notMem_encode {manager : Option AddrSpaceManager} {es : Elements} (hes : es.Legal manager) (hnul : es.NulFree) :
    0 ∉ encode es.calls := by
  induction es with
  | nil => simp [Elements.calls, encode]
  | element elemId attribs children next ihc ihn =>
      obtain ⟨hid, ha, hchildren, hnext⟩ := hes
      obtain ⟨hn, hnc, hnn⟩ := hnul
      simp only [Elements.encode_element, List.mem_append, not_or, List.mem_flatMap, not_exists, not_and]
      refine ⟨zero_notMem_writeHeader (by decide) hid, ?_, ihc hchildren hnc, zero_notMem_writeHeader (by decide) hid, ihn hnext hnn⟩
      intro a hmem
      exact zero_notMem_bytes (ha a hmem).small (hn a hmem)

end Zeros

section RoundTrip

namespace PackedDecode

theorem ingestStream_eq (d : PackedDecode) {data : List Byte} (hne : data ≠ []) (hzero : 0 ∉ data) :
    ∃ d', d.ingestStream data = .ok d' ∧ d'.manager = d.manager ∧ d'.buffer = data ++ [elementEnd] ∧ d'.endPos = 0 ∧ d'.Ready := by
  have htake : data.takeWhile (· ≠ 0) = data := by
    rw [List.takeWhile_eq_self_iff]
    intro b hb
    simpa using fun h : b = 0 => hzero (h ▸ hb)
  have hlen : data.length ≠ 0 := by simpa using hne
  simp only [ingestStream, htake, if_neg hlen, endIngest]
  refine ⟨_, rfl, rfl, rfl, rfl, ?_⟩
  simp only [Ready, List.length_append, List.length_singleton]
  split
  · exact Nat.le_refl _
  · next hpart =>
      rw [show bufferSize = 1024 from rfl] at hpart ⊢
      omega

end PackedDecode

namespace Elements

/-- The visit that opens every element, reads all its attributes in order and closes
it. -/
def replay : Elements → Visit
  | .nil => .stop
  | .element _ attribs children next =>
      .element (attribs.map (fun a => .next a.kind) ++ [.last]) children.replay false next.replay

/-- The elements as they are seen: the ids and values of the attributes. -/
def decoded : Elements → Decoded
  | .nil => .nil
  | .element elemId attribs children next =>
      .element elemId.id (attribs.map (fun a => (a.id, some a.value)) ++ [(0, none)]) children.decoded next.decoded

theorem remaining_replay (es : Elements) : es.replay.remaining es = .nil := by
  induction es with
  | nil => rfl
  | element elemId attribs children next _ ih => exact ih

theorem readsFit_all (attribs rest : List Attribute) :
    ReadsFit attribs rest (rest.map (fun a => .next a.kind) ++ [.last])
      (rest.map (fun a => (a.id, some a.value)) ++ [(0, none)]) := by
  induction rest with
  | nil => exact .last (.nil [])
  | cons a rest ih => exact .next ih

theorem replay_fits (es : Elements) : es.replay.Fits es es.decoded := by
  induction es with
  | nil => exact .stop .nil
  | element elemId attribs children next ihc ihn =>
      exact .element (readsFit_all attribs attribs) ihc (fun _ => remaining_replay children) ihn

end Elements

namespace PackedDecode

/-- Every client that knows what was written reads it back from the bytes: in order or
by id, all of the elements or some with the others skipped. It then stands just
before the elements that it has not visited. -/
theorem decode_encode (fromUtf8Lossy : List Byte → String) (manager : Option AddrSpaceManager) (es : Elements) (hne : es ≠ .nil)
    (hlegal : es.Legal manager) (hnul : es.NulFree) :
    ∃ d, (PackedDecode.new manager).ingestStream (encode es.calls) = .ok d ∧ es.replay.Fits es es.decoded ∧
      es.replay.remaining es = .nil ∧ ∀ plan seen, Visit.Fits plan es seen →
        ∃ d', visit fromUtf8Lossy plan d = .ok (seen, d') ∧
          d'.endPos + (encode (plan.remaining es).calls).length = (encode es.calls).length := by
  have hnil : encode es.calls ≠ [] := by
    cases es with
    | nil => exact absurd rfl hne
    | element elemId attribs children next =>
        rw [Elements.encode_element, PackedEncode.openElement, writeHeader]
        split <;> simp
  obtain ⟨d, hingest, hmanager, hbuffer, hend, hready⟩ :=
    (PackedDecode.new manager).ingestStream_eq hnil (zero_notMem_encode hlegal hnul)
  refine ⟨d, hingest, es.replay_fits, es.remaining_replay, fun plan seen hfit => ?_⟩
  have hdrop : d.buffer.drop d.endPos = encode es.calls ++ [elementEnd] := by
    rw [hend, hbuffer]
    rfl
  have hes : es.Legal d.manager := by
    rw [hmanager]
    exact hlegal
  obtain ⟨d', hvisit, -, -, hstop⟩ := visit_eq fromUtf8Lossy hfit hready hes hdrop ⟨_, _, rfl, by decide⟩
  rw [hend, Nat.zero_add] at hstop
  exact ⟨d', hvisit, hstop⟩

section Sample

def ramSpace : AddrSpace := ⟨.processor, 1, false⟩

def stackSpace : AddrSpace := ⟨.spacebase, 4, true⟩

def iopSpace : AddrSpace := ⟨.iop, 2, false⟩

def spaces : AddrSpaceManager := ⟨[none, some ramSpace, some iopSpace, none, some stackSpace], none, some stackSpace⟩

def offset : AttributeId := ⟨"offset", 16⟩

def storage : AttributeId := ⟨"storage", 149⟩

def val : ElementId := ⟨"val", 8⟩

def unknown : ElementId := ⟨"XMLunknown", 4095⟩

def sampleAttribs : List Attribute :=
  [.signedInteger offset 0x8000000000000000, .stringIndexed storage 1 "é", .space storage stackSpace,
    .space ⟨"space", 20⟩ ramSpace, .opcode ⟨"code", 43⟩ .boolAnd]

/-- An element with the smallest number, a text, two spaces and an operation, and
another one inside. -/
def sample : Elements := .element unknown sampleAttribs (.element val [.unsignedInteger offset 0xffffffffffffffff] .nil .nil) .nil

/-- The stack is asked for first, then the first attribute, and the element inside is
skipped. -/
def samplePlan : Visit := .element [.byId storage .space, .next .signedInteger] .stop true .stop

def sampleSeen : Decoded :=
  .element 4095 [(149, some (.space stackSpace)), (16, some (.signedInteger 0x8000000000000000))] .nil .nil

theorem sample_fits : samplePlan.Fits sample sampleSeen := by
  have hfirst : ReadsFit sampleAttribs sampleAttribs [.next .signedInteger] [(16, some (.signedInteger 0x8000000000000000))] :=
    @ReadsFit.next sampleAttribs (.signedInteger offset 0x8000000000000000) _ _ _ (.nil _)
  have hreads : ReadsFit sampleAttribs sampleAttribs [.byId storage .space, .next .signedInteger]
      [(149, some (.space stackSpace)), (16, some (.signedInteger 0x8000000000000000))] :=
    @ReadsFit.byId sampleAttribs (.space storage stackSpace) _ storage _ _ rfl hfirst
  have hunknown : unknown.id = 4095 := rfl
  rw [samplePlan, sample, sampleSeen, ← hunknown]
  exact .element hreads (.stop _) (fun h => absurd h (by decide)) (.stop _)

theorem sample_legal : sample.Legal (some spaces) := by
  have hattribs : ∀ a ∈ sampleAttribs, a.Legal (some spaces) := by
    simp only [sampleAttribs, List.forall_mem_cons, List.not_mem_nil, false_implies, implies_true, and_true]
    have hshort : "é".utf8ByteSize < 2 ^ 32 := by decide
    have hopcode : OpCode.boolAnd ≠ .max := by decide
    exact ⟨⟨by decide, trivial, trivial⟩, ⟨by decide, hshort, trivial⟩, ⟨by decide, trivial, spaces, rfl, rfl, rfl⟩,
      ⟨by decide, trivial, spaces, rfl, by decide, by decide, rfl⟩, ⟨by decide, trivial, hopcode⟩⟩
  refine ⟨by decide, hattribs, ⟨by decide, ?_, trivial, trivial⟩, trivial⟩
  simp only [List.forall_mem_singleton]
  exact ⟨by decide, trivial, trivial⟩

theorem sample_nulFree : sample.NulFree := by
  refine ⟨?_, ⟨?_, trivial, trivial⟩, trivial⟩
  · simp only [sampleAttribs, List.forall_mem_cons, List.not_mem_nil, false_implies, implies_true, and_true]
    have htext : 0 ∉ stringBytes "é" := by decide
    exact ⟨trivial, htext, trivial, trivial, trivial⟩
  · simp only [List.forall_mem_singleton]
    exact trivial

end Sample

theorem decode_encode_sample : ∃ d d', (PackedDecode.new (some spaces)).ingestStream (encode sample.calls) = .ok d ∧
    visit (fun _ => "") samplePlan d = .ok (sampleSeen, d') ∧ d'.endPos = (encode sample.calls).length := by
  obtain ⟨d, hingest, -, -, hvisit⟩ := decode_encode (fun _ => "") (some spaces) sample (by rw [sample]; simp) sample_legal
    sample_nulFree
  obtain ⟨d', hseen, hend⟩ := hvisit samplePlan sampleSeen sample_fits
  exact ⟨d, d', hingest, hseen, hend⟩

/-- What a client makes of the bytes when it reads everything in order. -/
def replayed (manager : AddrSpaceManager) (es : Elements) : Result Decoded := do
  let d ← (PackedDecode.new (some manager)).ingestStream (encode es.calls)
  return (← visit (fun _ => "") es.replay d).1

/-- The space of the operations and the opcode behind the last one cannot be read back,
and there must be something to read. -/
theorem not_read_back :
    (replayed spaces (.element val [.space storage iopSpace] .nil .nil)).map (fun _ => ()) =
        .error "Cannot marshal special address space" ∧
      (replayed spaces (.element val [.opcode storage .max] .nil .nil)).map (fun _ => ()) = .error "Bad encoded OpCode" ∧
      (replayed spaces .nil).map (fun _ => ()) = .error "Ended ingestion without any input" :=
  ⟨rfl, rfl, rfl⟩

end PackedDecode

end RoundTrip

end GhidraDecompiler.Marshal
