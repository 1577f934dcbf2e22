import GhidraDecompiler.Lib.Fallible

namespace GhidraDecompiler.Marshal

open Fallible

inductive AttributeValue
  | bool (val : Bool)
  | signedInteger (val : Int)
  | unsignedInteger (val : Nat)
  | text (val : String)
  | space (index : Int)
  deriving DecidableEq

abbrev Attributes := List (Nat × AttributeValue)

/-- What an encoder writes: the start of an element with its attributes, and its end. -/
inductive Item
  | element (id : Nat) (attributes : Attributes)
  | close (id : Nat)
  deriving DecidableEq

/-- What a decoder has in front of it: the attributes of the element that was opened last, those of
them that have not been visited, the value of the one that is visited, and the items to come. -/
structure View where
  attributes : Attributes
  next : Attributes
  current : Option AttributeValue
  items : List Item
  deriving DecidableEq

namespace View

/-- The id of the element to come, or 0. -/
def peek (v : View) : Nat :=
  match v.items with
  | .element id _ :: _ => id
  | _ => 0

def opened (v : View) : View :=
  match v.items with
  | .element _ attributes :: items => ⟨attributes, attributes, none, items⟩
  | _ => v

def nextId (v : View) : Nat :=
  match v.next with
  | (id, _) :: _ => id
  | [] => 0

def advanced (v : View) : View := { v with next := v.next.tail, current := v.next.head?.map Prod.snd }

def rewound (v : View) : View := { v with next := v.attributes, current := none }

end View

/-- A decoder of a codec that round-trips elements and attributes. -/
structure Codec where
  State : Type
  view : State → View
  /-- A bound for what is left of the input. -/
  left : State → Nat
  peekElement : State → Outcome Nat
  openElement : State → Outcome (Nat × State)
  closeElement : Nat → State → Outcome State
  getNextAttributeId : State → Outcome (Nat × State)
  rewindAttributes : State → State
  read : State → Outcome (AttributeValue × State)
  readAttr : Nat → State → Outcome (AttributeValue × State)
  view_lt_left : ∀ d, (view d).next.length + (view d).items.length < left d
  peekElement_eq : ∀ d, peekElement d = .ok (view d).peek
  openElement_eq : ∀ d, ∃ d', openElement d = .ok ((view d).peek, d') ∧ view d' = (view d).opened
  closeElement_eq : ∀ d id items, (view d).items = .close id :: items →
    ∃ d', closeElement id d = .ok d' ∧ (view d').items = items
  closeElement_other : ∀ d id, (∀ items, (view d).items ≠ .close id :: items) → ∃ e, closeElement id d = .error e
  getNextAttributeId_eq : ∀ d, ∃ d', getNextAttributeId d = .ok ((view d).nextId, d') ∧ view d' = (view d).advanced
  rewindAttributes_eq : ∀ d, view (rewindAttributes d) = (view d).rewound
  read_eq : ∀ d val, (view d).current = some val → ∃ d', read d = .ok (val, d') ∧ view d' = view d
  readAttr_eq : ∀ d id val, (view d).attributes.lookup id = some val →
    ∃ d', readAttr id d = .ok (val, d') ∧ view d' = (view d).rewound
  readAttr_other : ∀ d id, (view d).attributes.lookup id = none → ∃ e, readAttr id d = .error e

namespace Codec

section

variable (codec : Codec)

def openElementExpect (id : Nat) (d : codec.State) : Outcome (Nat × codec.State) := do
  let (found, d) ← codec.openElement d
  if found ≠ id then .error (.lowlevel "Expecting a different element") else pure (found, d)

def asBool : AttributeValue → Outcome Bool
  | .bool val => pure val
  | _ => .error (.lowlevel "Expecting boolean attribute")

def asSigned : AttributeValue → Outcome Int
  | .signedInteger val => pure val
  | _ => .error (.lowlevel "Expecting signed integer attribute")

def asUnsigned : AttributeValue → Outcome Nat
  | .unsignedInteger val => pure val
  | _ => .error (.lowlevel "Expecting unsigned integer attribute")

def asText : AttributeValue → Outcome String
  | .text val => pure val
  | _ => .error (.lowlevel "Expecting string attribute")

def asSpace : AttributeValue → Outcome Int
  | .space index => pure index
  | _ => .error (.lowlevel "Expecting space attribute")

variable {codec} {d : codec.State} {id : Nat} {attributes : Attributes} {items : List Item} {val : AttributeValue}

/-- The element to come is opened. -/
theorem openElement_element (h : (codec.view d).items = .element id attributes :: items) :
    ∃ d', codec.openElement d = .ok (id, d') ∧ codec.view d' = ⟨attributes, attributes, none, items⟩ := by
  obtain ⟨d', hopen, hview⟩ := codec.openElement_eq d
  refine ⟨d', ?_, ?_⟩
  · rw [hopen, View.peek, h]
  · rw [hview, View.opened, h]

/-- At the end of an element there is nothing to open. -/
theorem openElement_close (h : (codec.view d).items = .close id :: items) :
    ∃ d', codec.openElement d = .ok (0, d') ∧ codec.view d' = codec.view d := by
  obtain ⟨d', hopen, hview⟩ := codec.openElement_eq d
  refine ⟨d', ?_, ?_⟩
  · rw [hopen, View.peek, h]
  · rw [hview, View.opened, h]

theorem openElementExpect_element (h : (codec.view d).items = .element id attributes :: items) :
    ∃ d', codec.openElementExpect id d = .ok (id, d') ∧ codec.view d' = ⟨attributes, attributes, none, items⟩ := by
  obtain ⟨d', hopen, hview⟩ := openElement_element h
  refine ⟨d', ?_, hview⟩
  rw [openElementExpect, hopen, ok_bind]
  exact if_neg (fun hne => hne rfl)

theorem getNextAttributeId_cons {name : Nat} {next : Attributes} (h : (codec.view d).next = (name, val) :: next) :
    ∃ d', codec.getNextAttributeId d = .ok (name, d') ∧
      codec.view d' = { codec.view d with next := next, current := some val } := by
  obtain ⟨d', hget, hview⟩ := codec.getNextAttributeId_eq d
  refine ⟨d', ?_, ?_⟩
  · rw [hget, View.nextId, h]
  · rw [hview, View.advanced, h]
    rfl

theorem getNextAttributeId_nil (h : (codec.view d).next = []) :
    ∃ d', codec.getNextAttributeId d = .ok (0, d') ∧ codec.view d' = { codec.view d with next := [], current := none } := by
  obtain ⟨d', hget, hview⟩ := codec.getNextAttributeId_eq d
  refine ⟨d', ?_, ?_⟩
  · rw [hget, View.nextId, h]
  · rw [hview, View.advanced, h]
    rfl

/-- How the attributes of an element are read: what is done with the value of each one that has a name the reader
knows. -/
abbrev Reader (σ : Type) := Nat → Option (AttributeValue → σ → Outcome σ)

section

variable {σ : Type} (reader : Reader σ)

def visit (acc : σ) (entry : Nat × AttributeValue) : Outcome σ :=
  match reader entry.1 with
  | some f => f entry.2 acc
  | none => pure acc

def visitAttributes (codec : Codec) : Nat → σ → codec.State → Outcome (σ × codec.State)
  | 0, _, _ => .error .outOfFuel
  | fuel + 1, acc, d => do
      let (attrib, d) ← codec.getNextAttributeId d
      if attrib = 0 then pure (acc, d)
      else
        match reader attrib with
        | none => visitAttributes codec fuel acc d
        | some f => do
            let (val, d) ← codec.read d
            let acc ← f val acc
            visitAttributes codec fuel acc d

variable {reader}

/-- A loop over the attributes visits them in the order in which they were written. -/
theorem visitAttributes_ok {fuel : Nat} {acc acc' : σ} (hids : ∀ entry ∈ (codec.view d).next, entry.1 ≠ 0)
    (hfuel : (codec.view d).next.length < fuel) (hfold : (codec.view d).next.foldlM (visit reader) acc = .ok acc') :
    ∃ d', visitAttributes reader codec fuel acc d = .ok (acc', d') ∧ (codec.view d').items = (codec.view d).items := by
  induction fuel generalizing d acc with
  | zero => exact absurd hfuel (Nat.not_lt_zero _)
  | succ fuel ih =>
      cases hnext : (codec.view d).next with
      | nil =>
          obtain ⟨d', hget, hview⟩ := getNextAttributeId_nil hnext
          rw [hnext] at hfold
          obtain rfl : acc = acc' := Except.ok.inj hfold
          refine ⟨d', ?_, by rw [hview]⟩
          rw [visitAttributes, hget, ok_bind]
          exact if_pos rfl
      | cons entry next =>
          obtain ⟨name, val⟩ := entry
          obtain ⟨d', hget, hview⟩ := getNextAttributeId_cons hnext
          rw [hnext] at hids hfuel hfold
          have hname : name ≠ 0 := hids _ List.mem_cons_self
          rw [List.foldlM_cons, bind_eq_ok] at hfold
          obtain ⟨acc₁, hvisit, hfold⟩ := hfold
          have hids' : ∀ entry ∈ next, entry.1 ≠ 0 := fun a ha => hids a (List.mem_cons_of_mem _ ha)
          have hfuel' : next.length < fuel := by simpa using hfuel
          rw [visitAttributes, hget, ok_bind]
          simp only [if_neg hname]
          rw [visit] at hvisit
          cases hreader : reader name with
          | none =>
              rw [hreader] at hvisit
              obtain rfl : acc = acc₁ := Except.ok.inj hvisit
              have hnext' : (codec.view d').next = next := by rw [hview]
              obtain ⟨d'', hloop, hitems⟩ := ih (hnext' ▸ hids') (hnext' ▸ hfuel') (hnext' ▸ hfold)
              exact ⟨d'', hloop, by rw [hitems, hview]⟩
          | some f =>
              rw [hreader] at hvisit
              obtain ⟨d₁, hread, hview₁⟩ := codec.read_eq d' val (by rw [hview])
              have hnext' : (codec.view d₁).next = next := by rw [hview₁, hview]
              obtain ⟨d'', hloop, hitems⟩ := ih (hnext' ▸ hids') (hnext' ▸ hfuel') (hnext' ▸ hfold)
              refine ⟨d'', ?_, by rw [hitems, hview₁, hview]⟩
              have hval : f val acc = .ok acc₁ := hvisit
              simp only [hread, ok_bind]
              rw [hval, ok_bind, hloop]

end

end

/-- The codec that keeps the items as they are. -/
def written : Codec where
  State := View
  view v := v
  left v := v.next.length + v.items.length + 1
  peekElement v := .ok v.peek
  openElement v := .ok (v.peek, v.opened)
  closeElement id v :=
    match v.items with
    | .close found :: items =>
        if found = id then .ok { v with items := items } else .error (.lowlevel "Did not see expected closing element")
    | _ => .error (.lowlevel "Expecting element close")
  getNextAttributeId v := .ok (v.nextId, v.advanced)
  rewindAttributes v := v.rewound
  read v :=
    match v.current with
    | some val => .ok (val, v)
    | none => .error (.lowlevel "No attribute")
  readAttr id v :=
    match v.attributes.lookup id with
    | some val => .ok (val, v.rewound)
    | none => .error (.lowlevel "Attribute is not present")
  view_lt_left _ := Nat.lt_succ_self _
  peekElement_eq _ := rfl
  openElement_eq v := ⟨v.opened, rfl, rfl⟩
  closeElement_eq v id items h := by
    refine ⟨{ v with items := items }, ?_, rfl⟩
    have hitems : v.items = .close id :: items := h
    simp [hitems]
  closeElement_other v id h := by
    split
    · rename_i found items hitems
      split
      · rename_i heq
        exact absurd hitems (heq ▸ h items)
      · exact ⟨_, rfl⟩
    · exact ⟨_, rfl⟩
  getNextAttributeId_eq v := ⟨v.advanced, rfl, rfl⟩
  rewindAttributes_eq _ := rfl
  read_eq v val h := by
    have hcurrent : v.current = some val := h
    exact ⟨v, by simp [hcurrent], rfl⟩
  readAttr_eq v id val h := by
    have hlookup : v.attributes.lookup id = some val := h
    exact ⟨v.rewound, by simp [hlookup], rfl⟩
  readAttr_other v id h := by
    have hlookup : v.attributes.lookup id = none := h
    exact ⟨.lowlevel "Attribute is not present", by simp [hlookup]⟩

def inputOf (items : List Item) : written.State := (⟨[], [], none, items⟩ : View)

theorem items_inputOf (items : List Item) : (written.view (inputOf items)).items = items ++ [] :=
  (List.append_nil items).symm

end Codec

end GhidraDecompiler.Marshal
