import GhidraDecompiler.Lib.Arena
import GhidraDecompiler.Lib.LinkChains
import Mathlib.Data.Fin.VecNotation
import Mathlib.Data.Fintype.Basic
import Mathlib.Data.List.TakeWhile

namespace GhidraDecompiler

open Fallible LinkChains

structure ListLinks where
  prev : Option Nat
  next : Option Nat
  deriving DecidableEq

def ListLinks.default : ListLinks := ⟨none, none⟩

/-- What the lists see of a node: its links, for each of the slots. -/
abbrev LinkedNode := Nat → ListLinks

structure IntrusiveList where
  head : Option Nat
  tail : Option Nat
  len : Nat
  slot : Nat
  deriving DecidableEq

structure ListIter where
  slot : Nat
  front : Option Nat
  back : Option Nat
  remaining : Nat

namespace IntrusiveList

def links (nodes : Arena LinkedNode) (slot id : Nat) : Outcome ListLinks := do
  let node ← nodes.get id
  pure (node slot)

/-- An assignment through `links_mut`. -/
def setLinks (nodes : Arena LinkedNode) (slot id : Nat) (f : ListLinks → ListLinks) : Outcome (Arena LinkedNode) :=
  nodes.modify id fun node => Function.update node slot (f (node slot))

def new (slot : Nat) : IntrusiveList := ⟨none, none, 0, slot⟩

def front (list : IntrusiveList) : Option Nat := list.head

def back (list : IntrusiveList) : Option Nat := list.tail

def isEmpty (list : IntrusiveList) : Bool := list.len = 0

def next (list : IntrusiveList) (nodes : Arena LinkedNode) (id : Nat) : Outcome (Option Nat) := do
  let l ← links nodes list.slot id
  pure l.next

def prev (list : IntrusiveList) (nodes : Arena LinkedNode) (id : Nat) : Outcome (Option Nat) := do
  let l ← links nodes list.slot id
  pure l.prev

/-- The link onwards from a node, or from the list when there is no node. -/
def setNext (list : IntrusiveList) (nodes : Arena LinkedNode) (place next : Option Nat) :
    Outcome (IntrusiveList × Arena LinkedNode) :=
  match place with
  | some previous => do
      let nodes ← setLinks nodes list.slot previous fun l => { l with next := next }
      pure (list, nodes)
  | none => pure ({ list with head := next }, nodes)

def setPrev (list : IntrusiveList) (nodes : Arena LinkedNode) (place prev : Option Nat) :
    Outcome (IntrusiveList × Arena LinkedNode) :=
  match place with
  | some following => do
      let nodes ← setLinks nodes list.slot following fun l => { l with prev := prev }
      pure (list, nodes)
  | none => pure ({ list with tail := prev }, nodes)

/-- The node before a position. With no position it is the last one. -/
def before (list : IntrusiveList) (nodes : Arena LinkedNode) : Option Nat → Outcome (Option Nat)
  | some position => list.prev nodes position
  | none => pure list.tail

def insert (list : IntrusiveList) (nodes : Arena LinkedNode) (pos : Option Nat) (id : Nat) :
    Outcome (IntrusiveList × Arena LinkedNode) := do
  let place ← list.before nodes pos
  let nodes ← setLinks nodes list.slot id fun _ => ⟨place, pos⟩
  let (list, nodes) ← list.setNext nodes place (some id)
  let (list, nodes) ← list.setPrev nodes pos (some id)
  pure ({ list with len := list.len + 1 }, nodes)

def pushBack (list : IntrusiveList) (nodes : Arena LinkedNode) (id : Nat) : Outcome (IntrusiveList × Arena LinkedNode) :=
  list.insert nodes none id

def pushFront (list : IntrusiveList) (nodes : Arena LinkedNode) (id : Nat) : Outcome (IntrusiveList × Arena LinkedNode) :=
  list.insert nodes list.head id

def insertBefore (list : IntrusiveList) (nodes : Arena LinkedNode) (pos id : Nat) :
    Outcome (IntrusiveList × Arena LinkedNode) :=
  list.insert nodes (some pos) id

def insertAfter (list : IntrusiveList) (nodes : Arena LinkedNode) (pos id : Nat) :
    Outcome (IntrusiveList × Arena LinkedNode) := do
  let following ← list.next nodes pos
  list.insert nodes following id

def remove (list : IntrusiveList) (nodes : Arena LinkedNode) (id : Nat) :
    Outcome (Option Nat × IntrusiveList × Arena LinkedNode) := do
  let l ← links nodes list.slot id
  let (list, nodes) ← list.setNext nodes l.prev l.next
  let (list, nodes) ← list.setPrev nodes l.next l.prev
  let nodes ← setLinks nodes list.slot id fun _ => .default
  if list.len = 0 then .error .panic else pure (l.next, { list with len := list.len - 1 }, nodes)

/-- The nodes from a first one up to an end. The search stops without a result
at the position they are to go to. -/
def collectRange (nodes : Arena LinkedNode) (slot : Nat) (pos last : Option Nat) (s : List Nat × Option Nat) :
    Outcome (Pass (List Nat × Option Nat) (Option (List Nat))) :=
  if s.2 = last then .ok (.leave (some s.1)) else
    match s.2 with
    | none => .error .panic
    | some node =>
        if some node = pos then .ok (.leave none) else do
          let l ← links nodes slot node
          pure (.again (s.1 ++ [node], l.next))

def removeAll (list : IntrusiveList) (nodes : Arena LinkedNode) (moved : List Nat) :
    Outcome (IntrusiveList × Arena LinkedNode) :=
  moved.foldlM (fun s node => do
    let (_, list, nodes) ← s.1.remove s.2 node
    pure (list, nodes)) (list, nodes)

def insertAll (list : IntrusiveList) (nodes : Arena LinkedNode) (pos : Option Nat) (moved : List Nat) :
    Outcome (IntrusiveList × Arena LinkedNode) :=
  moved.foldlM (fun s node => s.1.insert s.2 pos node) (list, nodes)

def spliceRange (list : IntrusiveList) (nodes : Arena LinkedNode) (pos : Option Nat) (first : Nat) (last : Option Nat) :
    Outcome (IntrusiveList × Arena LinkedNode) :=
  if some first = last ∨ pos = some first then .ok (list, nodes) else do
    match ← loop (collectRange nodes list.slot pos last) (list.len + 1) ([], some first) with
    | none => pure (list, nodes)
    | some moved => do
        let (list, nodes) ← list.removeAll nodes moved
        list.insertAll nodes pos moved

def iter (list : IntrusiveList) : ListIter := ⟨list.slot, list.head, list.tail, list.len⟩

end IntrusiveList

namespace ListIter

open IntrusiveList

def next (it : ListIter) (nodes : Arena LinkedNode) : Outcome (Option Nat × ListIter) :=
  if it.remaining = 0 then .ok (none, it) else
    match it.front with
    | none => .ok (none, it)
    | some current => do
        let l ← links nodes it.slot current
        pure (some current, { it with front := l.next, remaining := it.remaining - 1 })

def nextBack (it : ListIter) (nodes : Arena LinkedNode) : Outcome (Option Nat × ListIter) :=
  if it.remaining = 0 then .ok (none, it) else
    match it.back with
    | none => .ok (none, it)
    | some current => do
        let l ← links nodes it.slot current
        pure (some current, { it with back := l.prev, remaining := it.remaining - 1 })

/-- The values up to the first call that gives none. -/
def collect (nodes : Arena LinkedNode) : Nat → ListIter → Outcome (List Nat)
  | 0, _ => .error .outOfFuel
  | fuel + 1, it => do
      match ← it.next nodes with
      | (none, _) => pure []
      | (some id, it) => do
          let ids ← collect nodes fuel it
          pure (id :: ids)

/-- The answers to calls for the next value from the front (`true`) or from the back. -/
def consume (nodes : Arena LinkedNode) : List Bool → ListIter → Outcome (List (Option Nat))
  | [], _ => .ok []
  | fromFront :: calls, it => do
      let (id, it) ← if fromFront then it.next nodes else it.nextBack nodes
      let ids ← consume nodes calls it
      pure (id :: ids)

end ListIter

namespace IntrusiveList

def toVec (list : IntrusiveList) (nodes : Arena LinkedNode) : Outcome (List Nat) :=
  list.iter.collect nodes (list.len + 1)

def appendAll (list : IntrusiveList) (nodes : Arena LinkedNode) (other : IntrusiveList) :
    Outcome (IntrusiveList × IntrusiveList × Arena LinkedNode) := do
  let moved ← other.toVec nodes
  let (other, nodes) ← other.removeAll nodes moved
  let (list, nodes) ← list.insertAll nodes none moved
  pure (list, other, nodes)

def resetLinks (slot : Nat) (nodes : Arena LinkedNode) (id : Nat) : Outcome (Arena LinkedNode) :=
  if nodes.Live id then setLinks nodes slot id fun _ => .default else .ok nodes

def clear (list : IntrusiveList) (nodes : Arena LinkedNode) : Outcome (IntrusiveList × Arena LinkedNode) := do
  let all ← list.toVec nodes
  let nodes ← all.foldlM (resetLinks list.slot) nodes
  pure ({ list with head := none, tail := none, len := 0 }, nodes)

section Views

variable {list list' : IntrusiveList} {nodes nodes' : Arena LinkedNode} {slot id x : Nat} {pos place v : Option Nat}
  {A B seq : List Nat}

def linksOf (nodes : Arena LinkedNode) (slot id : Nat) : ListLinks := (nodes.get? id).elim .default (· slot)

def prevOf (nodes : Arena LinkedNode) (slot id : Nat) : Option Nat := (linksOf nodes slot id).prev

def nextOf (nodes : Arena LinkedNode) (slot id : Nat) : Option Nat := (linksOf nodes slot id).next

/-- The links of one slot were rewritten, and nothing else. -/
structure Rewritten (nodes nodes' : Arena LinkedNode) (slot : Nat) (prev next : Nat → Option Nat) : Prop where
  nextId : nodes'.nextId = nodes.nextId
  live : ∀ x, nodes'.Live x ↔ nodes.Live x
  prev : prevOf nodes' slot = prev
  next : nextOf nodes' slot = next
  frame : ∀ other, other ≠ slot → linksOf nodes' other = linksOf nodes other

theorem Rewritten.trans {nodes'' : Arena LinkedNode} {prev next prev' next' : Nat → Option Nat}
    (h : Rewritten nodes nodes' slot prev next) (h' : Rewritten nodes' nodes'' slot prev' next') :
    Rewritten nodes nodes'' slot prev' next' :=
  ⟨h'.nextId.trans h.nextId, fun x => (h'.live x).trans (h.live x), h'.prev, h'.next,
    fun other hne => (h'.frame other hne).trans (h.frame other hne)⟩

theorem links_ok (hlive : nodes.Live id) : links nodes slot id = .ok (linksOf nodes slot id) := by
  obtain ⟨node, hnode⟩ := Option.isSome_iff_exists.mp hlive
  simp [links, Arena.get_eq hnode, linksOf, hnode]

theorem next_ok (hlive : nodes.Live id) : list.next nodes id = .ok (nextOf nodes list.slot id) := by
  simp [next, links_ok hlive, nextOf]

theorem prev_ok (hlive : nodes.Live id) : list.prev nodes id = .ok (prevOf nodes list.slot id) := by
  simp [prev, links_ok hlive, prevOf]

theorem linksOf_update (hlive : nodes.Live id) (f : ListLinks → ListLinks) (other x : Nat) :
    linksOf (nodes.update id fun node => Function.update node slot (f (node slot))) other x =
      if x = id ∧ other = slot then f (linksOf nodes slot id) else linksOf nodes other x := by
  obtain ⟨node, hnode⟩ := Option.isSome_iff_exists.mp hlive
  simp only [linksOf, Arena.get?_update]
  by_cases hx : x = id
  · by_cases hslot : other = slot
    · simp [hx, hslot, hnode]
    · simp [hx, hslot, hnode]
  · simp [hx]

theorem setLinks_ok (hlive : nodes.Live id) (slot : Nat) (f : ListLinks → ListLinks) :
    ∃ nodes', setLinks nodes slot id f = .ok nodes' ∧
      Rewritten nodes nodes' slot (Function.update (prevOf nodes slot) id (f (linksOf nodes slot id)).prev)
        (Function.update (nextOf nodes slot) id (f (linksOf nodes slot id)).next) := by
  refine ⟨_, Arena.modify_eq _ hlive, Arena.nextId_update _ _ _, fun x => Arena.live_update _ _ _ x, ?_, ?_, ?_⟩
  · funext x
    rw [prevOf, linksOf_update hlive, Function.update_apply]
    by_cases hx : x = id <;> simp [hx, prevOf]
  · funext x
    rw [nextOf, linksOf_update hlive, Function.update_apply]
    by_cases hx : x = id <;> simp [hx, nextOf]
  · intro other hne
    funext x
    simp [linksOf_update hlive, hne]

theorem setNext_ok (list : IntrusiveList) (v : Option Nat) (hlive : ∀ q ∈ place, nodes.Live q) :
    ∃ nodes', setNext list nodes place v = .ok ({ list with head := if place = none then v else list.head }, nodes') ∧
      Rewritten nodes nodes' list.slot (prevOf nodes list.slot) (putAt (nextOf nodes list.slot) place v) := by
  cases place with
  | none => exact ⟨nodes, rfl, rfl, fun _ => Iff.rfl, rfl, rfl, fun _ _ => rfl⟩
  | some q =>
      obtain ⟨nodes', hrun, hnodes'⟩ := setLinks_ok (hlive q rfl) list.slot fun l => { l with next := v }
      refine ⟨nodes', by simp [setNext, hrun], hnodes'.nextId, hnodes'.live, hnodes'.prev.trans ?_, hnodes'.next, hnodes'.frame⟩
      exact Function.update_eq_self q _

theorem setPrev_ok (list : IntrusiveList) (v : Option Nat) (hlive : ∀ q ∈ place, nodes.Live q) :
    ∃ nodes', setPrev list nodes place v = .ok ({ list with tail := if place = none then v else list.tail }, nodes') ∧
      Rewritten nodes nodes' list.slot (putAt (prevOf nodes list.slot) place v) (nextOf nodes list.slot) := by
  cases place with
  | none => exact ⟨nodes, rfl, rfl, fun _ => Iff.rfl, rfl, rfl, fun _ _ => rfl⟩
  | some q =>
      obtain ⟨nodes', hrun, hnodes'⟩ := setLinks_ok (hlive q rfl) list.slot fun l => { l with prev := v }
      refine ⟨nodes', by simp [setPrev, hrun], hnodes'.nextId, hnodes'.live, hnodes'.prev, hnodes'.next.trans ?_, hnodes'.frame⟩
      exact Function.update_eq_self q _

theorem insert_ok (hid : nodes.Live id) (hpos : ∀ q ∈ pos, nodes.Live q)
    (hplace : ∀ q ∈ pos.elim list.tail (prevOf nodes list.slot), nodes.Live q) :
    ∃ nodes', list.insert nodes pos id =
        .ok (⟨if pos.elim list.tail (prevOf nodes list.slot) = none then some id else list.head,
          if pos = none then some id else list.tail, list.len + 1, list.slot⟩, nodes') ∧
      Rewritten nodes nodes' list.slot
        (putAt (Function.update (prevOf nodes list.slot) id (pos.elim list.tail (prevOf nodes list.slot))) pos (some id))
        (putAt (Function.update (nextOf nodes list.slot) id pos) (pos.elim list.tail (prevOf nodes list.slot)) (some id)) := by
  have hbefore : list.before nodes pos = .ok (pos.elim list.tail (prevOf nodes list.slot)) := by
    cases pos with
    | none => rfl
    | some q => exact prev_ok (hpos q rfl)
  generalize pos.elim list.tail (prevOf nodes list.slot) = place at hbefore hplace ⊢
  obtain ⟨nodes₁, hrun₁, h₁⟩ := setLinks_ok hid list.slot fun _ => ⟨place, pos⟩
  obtain ⟨nodes₂, hrun₂, h₂⟩ := setNext_ok list (some id) fun q hq => (h₁.live q).mpr (hplace q hq)
  obtain ⟨nodes₃, hrun₃, h₃⟩ :=
    setPrev_ok { list with head := if place = none then some id else list.head } (some id) fun q hq =>
      (h₂.live q).mpr ((h₁.live q).mpr (hpos q hq))
  refine ⟨nodes₃, ?_, ?_⟩
  · simp only [insert, hbefore, ok_bind, pure_eq_ok, hrun₁, hrun₂, hrun₃]
  · rw [h₁.prev, h₁.next] at h₂
    rw [h₂.prev, h₂.next] at h₃
    exact h₁.trans (h₂.trans h₃)

theorem remove_ok (list : IntrusiveList) (hid : nodes.Live id) (hprev : ∀ q ∈ prevOf nodes list.slot id, nodes.Live q)
    (hnext : ∀ q ∈ nextOf nodes list.slot id, nodes.Live q) (hlen : list.len ≠ 0) :
    ∃ nodes', list.remove nodes id =
        .ok (nextOf nodes list.slot id,
          ⟨if prevOf nodes list.slot id = none then nextOf nodes list.slot id else list.head,
            if nextOf nodes list.slot id = none then prevOf nodes list.slot id else list.tail, list.len - 1, list.slot⟩,
          nodes') ∧
      Rewritten nodes nodes' list.slot
        (Function.update (putAt (prevOf nodes list.slot) (nextOf nodes list.slot id) (prevOf nodes list.slot id)) id none)
        (Function.update (putAt (nextOf nodes list.slot) (prevOf nodes list.slot id) (nextOf nodes list.slot id)) id none) := by
  obtain ⟨nodes₁, hrun₁, h₁⟩ := setNext_ok list (nextOf nodes list.slot id) hprev
  obtain ⟨nodes₂, hrun₂, h₂⟩ :=
    setPrev_ok { list with head := if prevOf nodes list.slot id = none then nextOf nodes list.slot id else list.head }
      (prevOf nodes list.slot id) fun q hq => (h₁.live q).mpr (hnext q hq)
  obtain ⟨nodes₃, hrun₃, h₃⟩ := setLinks_ok ((h₂.live id).mpr ((h₁.live id).mpr hid)) list.slot fun _ => .default
  refine ⟨nodes₃, ?_, ?_⟩
  · rw [remove, links_ok hid]
    simp only [prevOf, nextOf] at hrun₁ hrun₂ hrun₃ ⊢
    simp [hrun₁, hrun₂, hrun₃, hlen]
  · rw [h₁.prev, h₁.next] at h₂
    rw [h₂.prev, h₂.next] at h₃
    exact h₁.trans (h₂.trans h₃)

end Views

section Sequences

variable {list list' list₁ list₂ : IntrusiveList} {nodes nodes' nodes₁ nodes₂ : Arena LinkedNode} {slot id x : Nat}
  {pos last : Option Nat} {A B M M' seq seq₁ seq₂ touched touched₁ touched₂ : List Nat} {it : ListIter} {k : Nat}

/-- The list and the links in its slot are those of a sequence of nodes. -/
structure Holds (nodes : Arena LinkedNode) (list : IntrusiveList) (seq : List Nat) : Prop where
  head : list.head = seq.head?
  tail : list.tail = seq.getLast?
  len : list.len = seq.length
  nodup : seq.Nodup
  live : ∀ x ∈ seq, nodes.Live x
  linked : Linked (prevOf nodes list.slot) (nextOf nodes list.slot) none seq none

/-- An operation on a list leaves it with a sequence. Of the links it changes only those of the touched nodes in
the slot of the list, and a touched node that is not in the sequence has no links there. -/
structure Becomes (list : IntrusiveList) (nodes : Arena LinkedNode) (list' : IntrusiveList) (nodes' : Arena LinkedNode)
    (seq touched : List Nat) : Prop where
  slot : list'.slot = list.slot
  holds : Holds nodes' list' seq
  nextId : nodes'.nextId = nodes.nextId
  live : ∀ x, nodes'.Live x ↔ nodes.Live x
  frame : ∀ other x, other ≠ list.slot ∨ x ∉ touched → linksOf nodes' other x = linksOf nodes other x
  reset : ∀ x ∈ touched, x ∉ seq → linksOf nodes' list.slot x = .default

theorem Becomes.refl (h : Holds nodes list seq) : Becomes list nodes list nodes seq seq :=
  ⟨rfl, h, rfl, fun _ => Iff.rfl, fun _ _ _ => rfl, fun _ hx hn => absurd hx hn⟩

theorem Becomes.trans (h₁ : Becomes list nodes list₁ nodes₁ seq₁ touched₁)
    (h₂ : Becomes list₁ nodes₁ list₂ nodes₂ seq₂ touched₂)
    (hseq : seq₁ ⊆ touched₂) (htouched : ∀ x, x ∈ touched ↔ x ∈ touched₁ ∨ x ∈ touched₂) :
    Becomes list nodes list₂ nodes₂ seq₂ touched := by
  refine ⟨h₂.slot.trans h₁.slot, h₂.holds, h₂.nextId.trans h₁.nextId, fun x => (h₂.live x).trans (h₁.live x), ?_, ?_⟩
  · intro other x hx
    rw [htouched, not_or] at hx
    rw [h₂.frame other x (hx.imp (h₁.slot ▸ ·) And.right), h₁.frame other x (hx.imp_right And.left)]
  · intro x hx hn
    by_cases hx₂ : x ∈ touched₂
    · rw [← h₁.slot]
      exact h₂.reset x hx₂ hn
    · rw [h₂.frame _ x (Or.inr hx₂)]
      exact h₁.reset x (((htouched x).mp hx).resolve_right hx₂) fun hx₁ => hx₂ (hseq hx₁)

theorem Becomes.of_rewritten {prev next : Nat → Option Nat} (h : Rewritten nodes nodes' list.slot prev next)
    (hslot : list'.slot = list.slot) (hholds : Holds nodes' list' seq)
    (hprev : ∀ x ∉ touched, prev x = prevOf nodes list.slot x) (hnext : ∀ x ∉ touched, next x = nextOf nodes list.slot x)
    (hreset : ∀ x ∈ touched, x ∉ seq → prev x = none ∧ next x = none) : Becomes list nodes list' nodes' seq touched := by
  have hlinks (x : Nat) : linksOf nodes' list.slot x = ⟨prev x, next x⟩ := by rw [← h.prev, ← h.next]; rfl
  refine ⟨hslot, hholds, h.nextId, h.live, fun other x hx => ?_, fun x hx hn => ?_⟩
  · by_cases hother : other = list.slot
    · have hx : x ∉ touched := hx.resolve_left (absurd hother)
      rw [hother, hlinks, hprev x hx, hnext x hx]
      rfl
    · rw [h.frame other hother]
  · rw [hlinks, (hreset x hx hn).1, (hreset x hx hn).2]
    rfl

theorem Holds.prevOf_eq (h : Holds nodes list (A ++ x :: B)) : prevOf nodes list.slot x = A.getLast? := by
  rw [h.linked.neighbours.1, Option.or_none]

theorem Holds.nextOf_eq (h : Holds nodes list (A ++ x :: B)) : nextOf nodes list.slot x = B.head? := by
  rw [h.linked.neighbours.2, Option.or_none]

theorem insert_holds (h : Holds nodes list (A ++ B)) (hid : nodes.Live id) (hnew : id ∉ A ++ B) :
    ∃ list' nodes', list.insert nodes B.head? id = .ok (list', nodes') ∧
      Becomes list nodes list' nodes' (A ++ id :: B) (A ++ id :: B) := by
  have hplace : B.head?.elim list.tail (prevOf nodes list.slot) = A.getLast? := by
    cases B with
    | nil => exact h.tail.trans (by rw [List.append_nil])
    | cons y B => exact h.prevOf_eq
  have hB {q : Nat} (hq : q ∈ B.head?) : q ∈ A ++ B := List.mem_append_right _ (List.mem_of_head? hq)
  have hA {q : Nat} (hq : q ∈ A.getLast?) : q ∈ A ++ B := List.mem_append_left _ (List.mem_of_getLast? hq)
  obtain ⟨nodes', hrun, hnodes'⟩ := insert_ok hid (fun q hq => h.live q (hB hq))
    (fun q hq => h.live q (hA (hplace ▸ hq)))
  rw [hplace] at hrun hnodes'
  have hmem {y : Nat} (hy : y ∉ A ++ id :: B) : y ≠ id ∧ y ∉ A ++ B := by
    simp only [List.mem_append, List.mem_cons, not_or] at hy ⊢
    exact ⟨hy.2.1, hy.1, hy.2.2⟩
  refine ⟨_, nodes', hrun, .of_rewritten hnodes' rfl ⟨?_, ?_, ?_, ?_, ?_, ?_⟩ (fun y hy => ?_) (fun y hy => ?_)
    fun y hy hn => absurd hy hn⟩
  · cases A with
    | nil => rfl
    | cons a A =>
        rw [if_neg (by simp), h.head]
        rfl
  · rw [List.getLast?_append, List.getLast?_cons]
    cases B with
    | nil => rfl
    | cons b B =>
        have hb : ¬(b :: B).head? = none := Option.some_ne_none b
        rw [if_neg hb, h.tail, List.getLast?_append, List.getLast?_cons]
        rfl
  · simp only [h.len, List.length_append, List.length_cons]
    omega
  · exact List.nodup_middle.mpr (List.nodup_cons.mpr ⟨hnew, h.nodup⟩)
  · intro y hy
    rw [hnodes'.live]
    by_cases hyid : y = id
    · exact hyid ▸ hid
    · refine h.live y ?_
      simpa [hyid] using hy
  · rw [hnodes'.prev, hnodes'.next]
    exact h.linked.insert h.nodup hnew
  · rw [putAt_of_ne fun he => (hmem hy).2 (hB he), Function.update_of_ne (hmem hy).1]
  · rw [putAt_of_ne fun he => (hmem hy).2 (hA he), Function.update_of_ne (hmem hy).1]

theorem remove_holds (h : Holds nodes list (A ++ id :: B)) :
    ∃ list' nodes', list.remove nodes id = .ok (B.head?, list', nodes') ∧
      Becomes list nodes list' nodes' (A ++ B) (A ++ id :: B) := by
  have hB {q : Nat} (hq : q ∈ B.head?) : q ∈ A ++ id :: B := by simp [List.mem_of_head? hq]
  have hA {q : Nat} (hq : q ∈ A.getLast?) : q ∈ A ++ id :: B := by simp [List.mem_of_getLast? hq]
  have hne {y : Nat} (hy : y ∉ A ++ id :: B) : y ≠ id := fun he => hy (by simp [he])
  obtain ⟨hid, hnodup⟩ := List.nodup_cons.mp (List.nodup_middle.mp h.nodup)
  obtain ⟨nodes', hrun, hnodes'⟩ := remove_ok list (h.live id (by simp))
    (fun q hq => h.live q (hA (h.prevOf_eq ▸ hq))) (fun q hq => h.live q (hB (h.nextOf_eq ▸ hq))) (by simp [h.len])
  rw [h.prevOf_eq, h.nextOf_eq] at hrun hnodes'
  refine ⟨_, nodes', hrun, .of_rewritten hnodes' rfl ⟨?_, ?_, ?_, hnodup, ?_, ?_⟩ (fun y hy => ?_) (fun y hy => ?_)
    fun y hy hn => ?_⟩
  · cases A with
    | nil => rfl
    | cons a A =>
        rw [if_neg (by simp), h.head]
        rfl
  · rw [List.getLast?_append]
    cases B with
    | nil => rfl
    | cons b B =>
        have hb : ¬(b :: B).head? = none := Option.some_ne_none b
        rw [if_neg hb, h.tail, List.getLast?_append, List.getLast?_cons_cons, List.getLast?_cons]
  · simp only [h.len, List.length_append, List.length_cons]
    omega
  · intro y hy
    rw [hnodes'.live]
    refine h.live y ?_
    simp only [List.mem_append, List.mem_cons] at hy ⊢
    exact hy.imp_right Or.inr
  · rw [hnodes'.prev, hnodes'.next]
    exact h.linked.remove h.nodup
  · rw [Function.update_of_ne (hne hy), putAt_of_ne fun he => hy (hB he)]
  · rw [Function.update_of_ne (hne hy), putAt_of_ne fun he => hy (hA he)]
  · obtain rfl : y = id := by
      simp only [List.mem_append, List.mem_cons, not_or] at hy hn
      exact (hy.resolve_left hn.1).resolve_right hn.2
    exact ⟨Function.update_self _ _ _, Function.update_self _ _ _⟩

theorem removeAll_holds (M : List Nat) (h : Holds nodes list (A ++ M ++ B)) :
    ∃ list' nodes', list.removeAll nodes M = .ok (list', nodes') ∧
      Becomes list nodes list' nodes' (A ++ B) (A ++ M ++ B) := by
  induction M generalizing list nodes with
  | nil =>
      rw [List.append_nil] at h
      exact ⟨list, nodes, rfl, by rw [List.append_nil]; exact .refl h⟩
  | cons m M ih =>
      have hsplit : A ++ m :: M ++ B = A ++ m :: (M ++ B) := by rw [List.append_assoc, List.cons_append]
      rw [hsplit] at h
      obtain ⟨list₁, nodes₁, hrun₁, h₁⟩ := remove_holds h
      rw [← List.append_assoc] at h₁
      obtain ⟨list₂, nodes₂, hrun₂, h₂⟩ := ih h₁.holds
      refine ⟨list₂, nodes₂, ?_, h₁.trans h₂ (List.Subset.refl _) fun x => ?_⟩
      · simpa [removeAll, hrun₁] using hrun₂
      · simp only [List.mem_append, List.mem_cons]
        grind

theorem insertAll_holds (M : List Nat) (h : Holds nodes list (A ++ B)) (hnodup : M.Nodup) (hlive : ∀ x ∈ M, nodes.Live x)
    (hnew : ∀ x ∈ M, x ∉ A ++ B) :
    ∃ list' nodes', list.insertAll nodes B.head? M = .ok (list', nodes') ∧
      Becomes list nodes list' nodes' (A ++ M ++ B) (A ++ M ++ B) := by
  induction M generalizing A list nodes with
  | nil => exact ⟨list, nodes, rfl, by rw [List.append_nil]; exact .refl h⟩
  | cons m M ih =>
      obtain ⟨hm, hnodup⟩ := List.nodup_cons.mp hnodup
      obtain ⟨list₁, nodes₁, hrun₁, h₁⟩ := insert_holds h (hlive m List.mem_cons_self) (hnew m List.mem_cons_self)
      have hsplit : A ++ m :: B = A ++ [m] ++ B := by rw [List.append_assoc]; rfl
      have hall : A ++ m :: M ++ B = A ++ [m] ++ M ++ B := by simp
      rw [hsplit] at h₁
      obtain ⟨list₂, nodes₂, hrun₂, h₂⟩ := ih h₁.holds hnodup
        (fun x hx => (h₁.live x).mpr (hlive x (List.mem_cons_of_mem m hx))) fun x hx => by
          have hxm : x ≠ m := fun he => hm (he ▸ hx)
          simpa [hxm] using hnew x (List.mem_cons_of_mem m hx)
      rw [hall]
      refine ⟨list₂, nodes₂, ?_, h₁.trans h₂ (fun x hx => ?_) fun x => ?_⟩
      · simpa [insertAll, hrun₁] using hrun₂
      · simp only [List.mem_append] at hx ⊢
        grind
      · simp only [List.mem_append]
        grind

/-- The nodes from one position to another are collected, unless the nodes are to go to one of them. -/
theorem collectRange_ok (pos : Option Nat) (M' : List Nat) (h : Holds nodes list (A ++ M' ++ (M ++ B))) (hk : M.length < k) :
    loop (collectRange nodes list.slot pos B.head?) k (M', (M ++ B).head?) =
      .ok (if ∃ p ∈ M, pos = some p then none else some (M' ++ M)) := by
  induction M generalizing M' k with
  | nil =>
      obtain ⟨k, rfl⟩ := Nat.exists_eq_succ_of_ne_zero (Nat.ne_of_gt hk)
      have hleave : collectRange nodes list.slot pos B.head? (M', ([] ++ B).head?) = .ok (.leave (some M')) := by
        simp [collectRange]
      rw [loop_succ_leave hleave, List.append_nil, if_neg (by simp)]
  | cons m M ih =>
      obtain ⟨k, rfl⟩ := Nat.exists_eq_succ_of_ne_zero (Nat.ne_of_gt (Nat.zero_lt_of_lt hk))
      have hm : some m ≠ B.head? := fun he => by
        have hnodup := (List.nodup_append.mp h.nodup).2.1
        rw [List.cons_append, List.nodup_cons] at hnodup
        exact hnodup.1 (List.mem_append_right _ (List.mem_of_head? he.symm))
      by_cases hpos : pos = some m
      · have hleave : collectRange nodes list.slot pos B.head? (M', (m :: M ++ B).head?) = .ok (.leave none) := by
          simp [collectRange, hm, hpos]
        rw [if_pos ⟨m, List.mem_cons_self, hpos⟩, loop_succ_leave hleave]
      · have hnext : nextOf nodes list.slot m = (M ++ B).head? := h.nextOf_eq
        have hagain : collectRange nodes list.slot pos B.head? (M', (m :: M ++ B).head?) =
            .ok (.again (M' ++ [m], (M ++ B).head?)) := by
          simp [collectRange, hm, Ne.symm hpos, links_ok (h.live m (by simp)), ← hnext, nextOf]
        rw [loop_succ_again hagain, ih _ (by simpa using h) (Nat.lt_of_succ_lt_succ hk)]
        by_cases hin : ∃ p ∈ M, pos = some p
        · obtain ⟨p, hp, hpp⟩ := hin
          rw [if_pos ⟨p, hp, hpp⟩, if_pos ⟨p, List.mem_cons_of_mem m hp, hpp⟩]
        · have hnot : ¬∃ p ∈ m :: M, pos = some p := by
            rintro ⟨p, hp, hpp⟩
            obtain rfl | hp := List.mem_cons.mp hp
            · exact hpos hpp
            · exact hin ⟨p, hp, hpp⟩
          rw [if_neg hin, if_neg hnot, List.append_assoc]
          rfl

theorem spliceRange_inside {first : Nat} (h : Holds nodes list (A ++ first :: M ++ B)) {p : Nat} (hp : p ∈ first :: M) :
    list.spliceRange nodes (some p) first B.head? = .ok (list, nodes) := by
  have hlen : (first :: M).length < list.len + 1 := by
    rw [h.len]
    simp only [List.length_append, List.length_cons]
    omega
  have hcollect := collectRange_ok (some p) [] (by simpa using h) hlen
  rw [if_pos ⟨p, hp, rfl⟩] at hcollect
  unfold spliceRange
  split
  · rfl
  · rw [List.cons_append, List.head?_cons] at hcollect
    simp [hcollect]

theorem spliceRange_moves {first : Nat} {A' B' : List Nat} (h : Holds nodes list (A ++ first :: M ++ B))
    (hsplit : A ++ B = A' ++ B') :
    ∃ list' nodes', list.spliceRange nodes B'.head? first B.head? = .ok (list', nodes') ∧
      Becomes list nodes list' nodes' (A' ++ first :: M ++ B') (A ++ first :: M ++ B) := by
  have hlen : (first :: M).length < list.len + 1 := by
    rw [h.len]
    simp only [List.length_append, List.length_cons]
    omega
  obtain ⟨hAM, -, hB⟩ := List.nodup_append.mp h.nodup
  obtain ⟨-, hM, hA⟩ := List.nodup_append.mp hAM
  have hdisjoint (x : Nat) (hx : x ∈ first :: M) : x ∉ A' ++ B' := by
    rw [← hsplit, List.mem_append]
    rintro (hxA | hxB)
    · exact hA x hxA x hx rfl
    · exact hB x (List.mem_append_right _ hx) x hxB rfl
  have hpos : ¬∃ p ∈ first :: M, B'.head? = some p := fun ⟨p, hp, hpp⟩ =>
    hdisjoint p hp (List.mem_append_right _ (List.mem_of_head? hpp))
  have hcollect := collectRange_ok B'.head? [] (by simpa using h) hlen
  rw [if_neg hpos, List.cons_append, List.head?_cons, List.nil_append] at hcollect
  obtain ⟨list₁, nodes₁, hrun₁, h₁⟩ := removeAll_holds (first :: M) h
  obtain ⟨list₂, nodes₂, hrun₂, h₂⟩ := insertAll_holds (first :: M) (hsplit ▸ h₁.holds) hM
    (fun x hx => (h₁.live x).mpr (h.live x (List.mem_append_left _ (List.mem_append_right _ hx)))) hdisjoint
  have hstart : ¬(some first = B.head? ∨ B'.head? = some first) := by
    rintro (he | he)
    · exact hB first (List.mem_append_right _ List.mem_cons_self) first (List.mem_of_head? he.symm) rfl
    · exact hpos ⟨first, List.mem_cons_self, he⟩
  have hmem (x : Nat) : x ∈ A ∨ x ∈ B ↔ x ∈ A' ∨ x ∈ B' := by
    rw [← List.mem_append, hsplit, List.mem_append]
  refine ⟨list₂, nodes₂, ?_, h₁.trans h₂ (fun x hx => ?_) fun x => ?_⟩
  · rw [spliceRange, if_neg hstart, hcollect]
    simp only [ok_bind, hrun₁, hrun₂]
  · rw [List.mem_append] at hx
    rw [List.append_assoc, List.mem_append, List.mem_append]
    exact ((hmem x).mp hx).imp_right Or.inr
  · have := hmem x
    simp only [List.mem_append]
    grind

/-- What an iterator has not yet returned is a part of the list. -/
structure Spans (nodes : Arena LinkedNode) (it : ListIter) (mid : List Nat) : Prop where
  remaining : it.remaining = mid.length
  front : mid ≠ [] → it.front = mid.head?
  back : mid ≠ [] → it.back = mid.getLast?
  live : ∀ x ∈ mid, nodes.Live x
  linked : ∃ p n, Linked (prevOf nodes it.slot) (nextOf nodes it.slot) p mid n

theorem Holds.iter (h : Holds nodes list seq) : Spans nodes list.iter seq :=
  ⟨h.len, fun _ => h.head, fun _ => h.tail, h.live, none, none, h.linked⟩

theorem Spans.next_nil (h : Spans nodes it []) : it.next nodes = .ok (none, it) := by
  have hempty : it.remaining = 0 := h.remaining
  rw [ListIter.next, if_pos hempty]

theorem Spans.nextBack_nil (h : Spans nodes it []) : it.nextBack nodes = .ok (none, it) := by
  have hempty : it.remaining = 0 := h.remaining
  rw [ListIter.nextBack, if_pos hempty]

theorem Spans.next_cons (h : Spans nodes it (x :: M)) : ∃ it', it.next nodes = .ok (some x, it') ∧ Spans nodes it' M := by
  obtain ⟨p, n, hx, hnext, hM⟩ := h.linked
  have hlen := h.remaining
  rw [List.length_cons] at hlen
  refine ⟨{ it with front := nextOf nodes it.slot x, remaining := it.remaining - 1 }, ?_, ?_⟩
  · rw [ListIter.next, if_neg (by omega), h.front (List.cons_ne_nil x M), List.head?_cons]
    simp [links_ok (h.live x List.mem_cons_self), nextOf]
  · refine ⟨by simp [hlen], fun hne => ?_, fun hne => ?_, fun y hy => h.live y (List.mem_cons_of_mem x hy), some x, n, hM⟩
    · obtain ⟨y, M, rfl⟩ := List.exists_cons_of_ne_nil hne
      exact hnext
    · obtain ⟨y, M, rfl⟩ := List.exists_cons_of_ne_nil hne
      exact (h.back (List.cons_ne_nil _ _)).trans List.getLast?_cons_cons

theorem Spans.nextBack_concat (h : Spans nodes it (M ++ [x])) :
    ∃ it', it.nextBack nodes = .ok (some x, it') ∧ Spans nodes it' M := by
  obtain ⟨p, n, hlinked⟩ := h.linked
  obtain ⟨hM, hx, -, -⟩ := linked_append.mp hlinked
  have hlen := h.remaining
  rw [List.length_append, List.length_singleton] at hlen
  have hne : M ++ [x] ≠ [] := List.append_ne_nil_of_right_ne_nil M (List.cons_ne_nil x [])
  refine ⟨{ it with back := prevOf nodes it.slot x, remaining := it.remaining - 1 }, ?_, ?_⟩
  · rw [ListIter.nextBack, if_neg (by omega), h.back hne, List.getLast?_concat]
    simp [links_ok (h.live x (by simp)), prevOf]
  · refine ⟨by simp [hlen], fun hM => ?_, fun hM => ?_, fun y hy => h.live y (List.mem_append_left _ hy), p, _, hM⟩
    · exact (h.front hne).trans (by rw [List.head?_append_of_ne_nil _ hM])
    · rw [List.getLast?_eq_some_getLast hM] at hx ⊢
      exact hx

theorem Spans.collect (h : Spans nodes it M) (hk : M.length < k) : it.collect nodes k = .ok M := by
  induction M generalizing it k with
  | nil =>
      obtain ⟨k, rfl⟩ := Nat.exists_eq_succ_of_ne_zero (Nat.ne_of_gt hk)
      simp [ListIter.collect, h.next_nil]
  | cons x M ih =>
      obtain ⟨k, rfl⟩ := Nat.exists_eq_succ_of_ne_zero (Nat.ne_of_gt (Nat.zero_lt_of_lt hk))
      obtain ⟨it', hrun, h'⟩ := h.next_cons
      simp [ListIter.collect, hrun, ih h' (Nat.lt_of_succ_lt_succ hk)]

/-- The answers of a sequence that gives its entries away from both ends. -/
def drained : List Bool → List Nat → List (Option Nat)
  | [], _ => []
  | true :: calls, seq => seq.head? :: drained calls seq.tail
  | false :: calls, seq => seq.getLast? :: drained calls seq.dropLast

theorem Spans.consume (h : Spans nodes it M) (calls : List Bool) : it.consume nodes calls = .ok (drained calls M) := by
  induction calls generalizing it M with
  | nil => rfl
  | cons fromFront calls ih =>
      cases fromFront with
      | true =>
          cases M with
          | nil => simp [ListIter.consume, drained, h.next_nil, ih h]
          | cons x M =>
              obtain ⟨it', hrun, h'⟩ := h.next_cons
              simp [ListIter.consume, drained, hrun, ih h']
      | false =>
          obtain rfl | ⟨M, x, rfl⟩ := M.eq_nil_or_concat
          · simp [ListIter.consume, drained, h.nextBack_nil, ih h]
          · rw [List.concat_eq_append] at h ⊢
            obtain ⟨it', hrun, h'⟩ := h.nextBack_concat
            simp [ListIter.consume, drained, hrun, ih h']

theorem Holds.toVec (h : Holds nodes list seq) : list.toVec nodes = .ok seq :=
  h.iter.collect (by rw [h.len]; exact Nat.lt_succ_self _)

theorem clear_holds (h : Holds nodes list seq) :
    ∃ list' nodes', list.clear nodes = .ok (list', nodes') ∧ Becomes list nodes list' nodes' [] seq := by
  obtain ⟨nodes', hrun, hlive, hid, hframe, hreset⟩ := foldlM_total (f := resetLinks list.slot)
    (fun before nodes' => (∀ x, nodes'.Live x ↔ nodes.Live x) ∧ nodes'.nextId = nodes.nextId ∧
      (∀ other x, other ≠ list.slot ∨ x ∉ before → linksOf nodes' other x = linksOf nodes other x) ∧
      ∀ x ∈ before, linksOf nodes' list.slot x = .default) seq
    (fun before x after hsplit nodes₁ ⟨hlive, hid, hframe, hreset⟩ => by
      have hx : nodes₁.Live x := (hlive x).mpr (h.live x (by simp [hsplit]))
      refine ⟨_, by rw [resetLinks, if_pos hx]; exact Arena.modify_eq _ hx, fun y => ?_, ?_, fun other y hy => ?_,
        fun y hy => ?_⟩
      · rw [Arena.live_update, hlive]
      · rw [Arena.nextId_update, hid]
      · rw [List.mem_append, List.mem_singleton, not_or] at hy
        rw [linksOf_update hx (fun _ => .default), if_neg fun he => (hy.resolve_left (absurd he.2)).2 he.1]
        exact hframe other y (hy.imp_right And.left)
      · rw [linksOf_update hx (fun _ => .default)]
        split
        · rfl
        · rename_i hne
          rw [List.mem_append, List.mem_singleton] at hy
          exact hreset y (hy.resolve_right fun he => hne ⟨he, rfl⟩))
    (s := nodes) ⟨fun _ => Iff.rfl, rfl, fun _ _ _ => rfl, fun _ hx => absurd hx List.not_mem_nil⟩
  refine ⟨⟨none, none, 0, list.slot⟩, nodes', by simp only [clear, h.toVec, ok_bind, hrun, pure_eq_ok], ?_⟩
  exact ⟨rfl, ⟨rfl, rfl, rfl, List.nodup_nil, fun _ hx => absurd hx List.not_mem_nil, trivial⟩, hid, hlive, hframe,
    fun x hx _ => hreset x hx⟩

/-- What a reader of a list is told. -/
structure Shows (nodes : Arena LinkedNode) (list : IntrusiveList) (seq : List Nat) : Prop where
  len : list.len = seq.length
  front : list.front = seq.head?
  back : list.back = seq.getLast?
  isEmpty : list.isEmpty = seq.isEmpty
  toVec : list.toVec nodes = .ok seq
  consume : ∀ calls, list.iter.consume nodes calls = .ok (drained calls seq)
  next : ∀ A x B, seq = A ++ x :: B → list.next nodes x = .ok B.head?
  prev : ∀ A x B, seq = A ++ x :: B → list.prev nodes x = .ok A.getLast?
  remove : ∀ A x B, seq = A ++ x :: B → ∃ list' nodes', list.remove nodes x = .ok (B.head?, list', nodes')

theorem Holds.shows (h : Holds nodes list seq) : Shows nodes list seq where
  len := h.len
  front := h.head
  back := h.tail
  isEmpty := by cases seq <;> simp [IntrusiveList.isEmpty, h.len]
  toVec := h.toVec
  consume := h.iter.consume
  next := by
    rintro A x B rfl
    rw [next_ok (h.live x (by simp)), h.nextOf_eq]
  prev := by
    rintro A x B rfl
    rw [prev_ok (h.live x (by simp)), h.prevOf_eq]
  remove := by
    rintro A x B rfl
    obtain ⟨list', nodes', hrun, -⟩ := remove_holds h
    exact ⟨list', nodes', hrun⟩

theorem Becomes.touching (h : Becomes list nodes list' nodes' seq touched) (htouched : ∀ x, x ∈ touched ↔ x ∈ touched₁) :
    Becomes list nodes list' nodes' seq touched₁ :=
  ⟨h.slot, h.holds, h.nextId, h.live, fun other x hx => h.frame other x (hx.imp_right fun hn => hn ∘ (htouched x).mp),
    fun x hx => h.reset x ((htouched x).mpr hx)⟩

/-- A sequence with more nodes before a position, or at its end. -/
def placed (seq : List Nat) (pos : Option Nat) (ids : List Nat) : List Nat :=
  match pos with
  | none => seq ++ ids
  | some p => seq.flatMap fun x => if x = p then ids ++ [x] else [x]

/-- A sequence with a node after a position. -/
def placedAfter (seq : List Nat) (p id : Nat) : List Nat := seq.flatMap fun x => if x = p then [x, id] else [x]

/-- The nodes from a first one up to the last, which does not belong to them. -/
def segment (seq : List Nat) (first : Nat) (last : Option Nat) : List Nat :=
  (seq.dropWhile (· ≠ first)).takeWhile (some · ≠ last)

def spliced (seq : List Nat) (pos : Option Nat) (first : Nat) (last : Option Nat) : List Nat :=
  if ∃ p ∈ segment seq first last, pos = some p then seq
  else placed (seq.filter (· ∉ segment seq first last)) pos (segment seq first last)

theorem flatMap_at {p : Nat} {f : Nat → List Nat} (hA : p ∉ A) (hB : p ∉ B) :
    ((A ++ p :: B).flatMap fun x => if x = p then f x else [x]) = A ++ f p ++ B := by
  have hother {l : List Nat} (hl : p ∉ l) : (l.flatMap fun x => if x = p then f x else [x]) = l := by
    induction l with
    | nil => rfl
    | cons y l ih =>
        rw [List.mem_cons, not_or] at hl
        rw [List.flatMap_cons, if_neg (Ne.symm hl.1), ih hl.2]
        rfl
  rw [List.flatMap_append, List.flatMap_cons, if_pos rfl, hother hA, hother hB, List.append_assoc]

theorem not_mem_sides (h : (A ++ x :: B).Nodup) : x ∉ A ∧ x ∉ B := by
  obtain ⟨hx, -⟩ := List.nodup_cons.mp (List.nodup_middle.mp h)
  rwa [List.mem_append, not_or] at hx

theorem placed_append (h : (A ++ B).Nodup) (ids : List Nat) : placed (A ++ B) B.head? ids = A ++ ids ++ B := by
  cases B with
  | nil => rw [List.append_nil, List.append_nil]; rfl
  | cons b B =>
      obtain ⟨hA, hB⟩ := not_mem_sides h
      simp [placed, flatMap_at (f := fun x => ids ++ [x]) hA hB]

theorem placedAfter_append (h : (A ++ x :: B).Nodup) (id : Nat) : placedAfter (A ++ x :: B) x id = A ++ [x] ++ id :: B := by
  obtain ⟨hA, hB⟩ := not_mem_sides h
  simp [placedAfter, flatMap_at (f := fun x => [x, id]) hA hB]

theorem filter_cut (h : (A ++ M ++ B).Nodup) : (A ++ M ++ B).filter (· ∉ M) = A ++ B := by
  obtain ⟨hAM, -, hB⟩ := List.nodup_append.mp h
  obtain ⟨-, -, hA⟩ := List.nodup_append.mp hAM
  have hfilterA : A.filter (· ∉ M) = A :=
    List.filter_eq_self.mpr fun x hx => decide_eq_true fun hm => hA x hx x hm rfl
  have hfilterB : B.filter (· ∉ M) = B :=
    List.filter_eq_self.mpr fun x hx => decide_eq_true fun hm => hB x (List.mem_append_right A hm) x hx rfl
  have hfilterM : M.filter (· ∉ M) = [] := List.filter_eq_nil_iff.mpr fun x hx => by simpa using hx
  rw [List.filter_append, List.filter_append, hfilterA, hfilterM, hfilterB, List.append_nil]

theorem exists_position (h : ∀ p ∈ pos, p ∈ seq) : ∃ A B, seq = A ++ B ∧ pos = B.head? := by
  cases pos with
  | none => exact ⟨seq, [], (List.append_nil seq).symm, rfl⟩
  | some p =>
      obtain ⟨A, B, rfl⟩ := List.append_of_mem (h p rfl)
      exact ⟨A, p :: B, rfl, rfl⟩

/-- A sequence is cut in three by a first node and a last one after it. -/
theorem exists_segment {first : Nat} (hnodup : seq.Nodup) (hfirst : first ∈ seq)
    (hlast : ∀ p ∈ last, p ∈ seq.dropWhile (· ≠ first)) :
    ∃ A B, seq = A ++ segment seq first last ++ B ∧ B.head? = last ∧
      (segment seq first last = [] ∧ last = some first ∨ ∃ M, segment seq first last = first :: M) := by
  obtain ⟨A, R, rfl⟩ := List.append_of_mem hfirst
  obtain ⟨hA, hR⟩ := not_mem_sides hnodup
  have hdrop : (A ++ first :: R).dropWhile (· ≠ first) = first :: R := by
    rw [List.dropWhile_append_of_pos (fun x hx => by simpa using fun he : x = first => hA (he ▸ hx)),
      List.dropWhile_cons_of_neg (by simp)]
  rw [hdrop] at hlast
  rw [segment, hdrop]
  refine ⟨A, (first :: R).dropWhile (some · ≠ last), ?_, ?_, ?_⟩
  · rw [List.append_assoc, List.takeWhile_append_dropWhile]
  · cases last with
    | none =>
        rw [List.dropWhile_eq_nil_iff.mpr fun x _ => decide_eq_true (Option.some_ne_none x)]
        rfl
    | some e =>
        obtain ⟨M, B, hMB⟩ := List.append_of_mem (hlast e rfl)
        have hM : e ∉ M := (not_mem_sides (hMB ▸ (List.nodup_append.mp hnodup).2.1)).1
        rw [hMB, List.dropWhile_append_of_pos (fun x hx => by simpa using fun he : x = e => hM (he ▸ hx)),
          List.dropWhile_cons_of_neg (by simp)]
        rfl
  · by_cases he : some first = last
    · exact Or.inl ⟨List.takeWhile_cons_of_neg (by simpa using he), he.symm⟩
    · exact Or.inr ⟨_, List.takeWhile_cons_of_pos (by simpa using he)⟩

end Sequences

/-- Lists over the nodes of one arena. -/
structure Lists (ι : Type) where
  nodes : Arena LinkedNode
  lists : ι → IntrusiveList

/-- The live nodes and the sequences of nodes that the lists stand for. -/
structure Contents (ι : Type) where
  nextId : Nat
  live : List Nat
  seqs : ι → List Nat

inductive Operation (ι : Type)
  | alloc
  | free (id : Nat)
  | pushBack (i : ι) (id : Nat)
  | pushFront (i : ι) (id : Nat)
  | insertBefore (i : ι) (pos id : Nat)
  | insertAfter (i : ι) (pos id : Nat)
  | insert (i : ι) (pos : Option Nat) (id : Nat)
  | remove (i : ι) (id : Nat)
  | spliceRange (i : ι) (pos : Option Nat) (first : Nat) (last : Option Nat)
  | appendAll (i j : ι)
  | clear (i : ι)

section Family

variable {ι : Type} [DecidableEq ι]

def Lists.put (s : Lists ι) (i : ι) (result : IntrusiveList × Arena LinkedNode) : Lists ι :=
  ⟨result.2, Function.update s.lists i result.1⟩

def perform (s : Lists ι) : Operation ι → Outcome (Lists ι)
  | .alloc => pure { s with nodes := (s.nodes.alloc fun _ => .default).1 }
  | .free id => do
      let nodes ← s.nodes.remove id
      pure { s with nodes := nodes }
  | .pushBack i id => s.put i <$> (s.lists i).pushBack s.nodes id
  | .pushFront i id => s.put i <$> (s.lists i).pushFront s.nodes id
  | .insertBefore i pos id => s.put i <$> (s.lists i).insertBefore s.nodes pos id
  | .insertAfter i pos id => s.put i <$> (s.lists i).insertAfter s.nodes pos id
  | .insert i pos id => s.put i <$> (s.lists i).insert s.nodes pos id
  | .remove i id => do
      let (_, result) ← (s.lists i).remove s.nodes id
      pure (s.put i result)
  | .spliceRange i pos first last => s.put i <$> (s.lists i).spliceRange s.nodes pos first last
  | .appendAll i j => do
      let (list, other, nodes) ← (s.lists i).appendAll s.nodes (s.lists j)
      pure ⟨nodes, Function.update (Function.update s.lists j other) i list⟩
  | .clear i => s.put i <$> (s.lists i).clear s.nodes

def Contents.put (c : Contents ι) (i : ι) (seq : List Nat) : Contents ι := { c with seqs := Function.update c.seqs i seq }

def Contents.perform (c : Contents ι) : Operation ι → Contents ι
  | .alloc => { c with nextId := c.nextId + 1, live := c.nextId :: c.live }
  | .free id => { c with live := c.live.filter (· ≠ id) }
  | .pushBack i id => c.put i (c.seqs i ++ [id])
  | .pushFront i id => c.put i (id :: c.seqs i)
  | .insertBefore i pos id => c.put i (placed (c.seqs i) (some pos) [id])
  | .insertAfter i pos id => c.put i (placedAfter (c.seqs i) pos id)
  | .insert i pos id => c.put i (placed (c.seqs i) pos [id])
  | .remove i id => c.put i ((c.seqs i).filter (· ≠ id))
  | .spliceRange i pos first last => c.put i (spliced (c.seqs i) pos first last)
  | .appendAll i j => (c.put j []).put i (c.seqs i ++ c.seqs j)
  | .clear i => c.put i []

def Contents.empty : Contents ι := ⟨0, [], fun _ => []⟩

variable (slots : ι → Nat)

def start : Lists ι := ⟨⟨[]⟩, fun i => new (slots i)⟩

/-- A live node that no list has in its slot. -/
def Contents.Free (c : Contents ι) (slot id : Nat) : Prop := id ∈ c.live ∧ ∀ i, slots i = slot → id ∉ c.seqs i

/-- The calls that keep to the purpose of the lists: what is added is in no list of the slot, and what is removed, moved
or named as a position is in the list. -/
def Allowed (c : Contents ι) : Operation ι → Prop
  | .alloc => True
  | .free id => id ∈ c.live ∧ ∀ i, id ∉ c.seqs i
  | .pushBack i id => c.Free slots (slots i) id
  | .pushFront i id => c.Free slots (slots i) id
  | .insertBefore i pos id => pos ∈ c.seqs i ∧ c.Free slots (slots i) id
  | .insertAfter i pos id => pos ∈ c.seqs i ∧ c.Free slots (slots i) id
  | .insert i pos id => (∀ p ∈ pos, p ∈ c.seqs i) ∧ c.Free slots (slots i) id
  | .remove i id => id ∈ c.seqs i
  | .spliceRange i pos first last => first ∈ c.seqs i ∧ (∀ p ∈ pos, p ∈ c.seqs i) ∧
      ∀ p ∈ last, p ∈ (c.seqs i).dropWhile (· ≠ first)
  | .appendAll i j => i ≠ j ∧ (slots i = slots j ∨ ∀ x ∈ c.seqs j, c.Free slots (slots i) x)
  | .clear _ => True

def Permitted (c : Contents ι) : List (Operation ι) → Prop
  | [] => True
  | operation :: operations => Allowed slots c operation ∧ Permitted (c.perform operation) operations

section Decidable

variable [Fintype ι] {slots}

instance (c : Contents ι) (slot id : Nat) : Decidable (c.Free slots slot id) := inferInstanceAs (Decidable (_ ∧ _))

instance (c : Contents ι) : (operation : Operation ι) → Decidable (Allowed slots c operation)
  | .alloc | .clear _ => inferInstanceAs (Decidable True)
  | .pushBack i id | .pushFront i id => inferInstanceAs (Decidable (c.Free slots (slots i) id))
  | .remove i id => inferInstanceAs (Decidable (id ∈ c.seqs i))
  | .free _ | .insertBefore .. | .insertAfter .. => inferInstanceAs (Decidable (_ ∧ _))
  | .insert i pos id => inferInstanceAs (Decidable ((∀ p ∈ pos, p ∈ c.seqs i) ∧ c.Free slots (slots i) id))
  | .spliceRange i pos first last => inferInstanceAs (Decidable (first ∈ c.seqs i ∧ (∀ p ∈ pos, p ∈ c.seqs i) ∧
      ∀ p ∈ last, p ∈ (c.seqs i).dropWhile (· ≠ first)))
  | .appendAll i j => inferInstanceAs (Decidable (i ≠ j ∧ (slots i = slots j ∨ ∀ x ∈ c.seqs j, c.Free slots (slots i) x)))

instance : (c : Contents ι) → (operations : List (Operation ι)) → Decidable (Permitted slots c operations)
  | _, [] => inferInstanceAs (Decidable True)
  | c, operation :: operations =>
      have : Decidable (Permitted slots (c.perform operation) operations) := instDecidablePermitted _ operations
      inferInstanceAs (Decidable (Allowed slots c operation ∧ Permitted slots (c.perform operation) operations))

end Decidable

/-- The lists stand for the sequences, no two lists of a slot share a node, and a node that is in no list of a slot has
no links there. -/
structure Refines (s : Lists ι) (c : Contents ι) : Prop where
  slot : ∀ i, (s.lists i).slot = slots i
  nextId : s.nodes.nextId = c.nextId
  live : ∀ x, s.nodes.Live x ↔ x ∈ c.live
  holds : ∀ i, Holds s.nodes (s.lists i) (c.seqs i)
  disjoint : ∀ i j x, i ≠ j → slots i = slots j → x ∈ c.seqs i → x ∉ c.seqs j
  unlinked : ∀ slot x, (∀ i, slots i = slot → x ∉ c.seqs i) → linksOf s.nodes slot x = .default

variable {slots} {s s' : Lists ι} {c : Contents ι} {i j : ι} {id : Nat} {list' : IntrusiveList} {nodes' : Arena LinkedNode}
  {seq touched : List Nat}

@[simp] theorem put_seqs (c : Contents ι) (i : ι) (seq : List Nat) : (c.put i seq).seqs = Function.update c.seqs i seq := rfl

@[simp] theorem put_nodes (s : Lists ι) (i : ι) (result : IntrusiveList × Arena LinkedNode) :
    (s.put i result).nodes = result.2 := rfl

@[simp] theorem put_lists (s : Lists ι) (i : ι) (result : IntrusiveList × Arena LinkedNode) :
    (s.put i result).lists = Function.update s.lists i result.1 := rfl

theorem put_ok {run : Outcome (IntrusiveList × Arena LinkedNode)} {result : IntrusiveList × Arena LinkedNode}
    (h : run = .ok result) : s.put i <$> run = .ok (s.put i result) := by
  rw [h]
  rfl

theorem Holds.congr {list : IntrusiveList} {nodes : Arena LinkedNode} (h : Holds nodes list seq)
    (hlive : ∀ x ∈ seq, nodes'.Live x) (hlinks : ∀ x ∈ seq, linksOf nodes' list.slot x = linksOf nodes list.slot x) :
    Holds nodes' list seq :=
  ⟨h.head, h.tail, h.len, h.nodup, hlive,
    h.linked.congr (fun x hx => congrArg ListLinks.prev (hlinks x hx)) fun x hx => congrArg ListLinks.next (hlinks x hx)⟩

/-- An operation on one list that touches no node of another list of its slot. -/
theorem Refines.become (h : Refines slots s c) (hb : Becomes (s.lists i) s.nodes list' nodes' seq touched)
    (hold : ∀ x ∈ c.seqs i, x ∈ touched) (hnew : ∀ x ∈ seq, x ∈ touched)
    (hothers : ∀ x ∈ touched, ∀ k, k ≠ i → slots k = slots i → x ∉ c.seqs k) :
    Refines slots (s.put i (list', nodes')) (c.put i seq) := by
  have hframe {k : ι} (hk : k ≠ i) {x : Nat} (hx : x ∈ c.seqs k) : slots k ≠ (s.lists i).slot ∨ x ∉ touched := by
    rw [h.slot, or_iff_not_imp_left, not_not]
    exact fun hs ht => hothers x ht k hk hs hx
  refine ⟨fun k => ?_, hb.nextId.trans h.nextId, fun x => (hb.live x).trans (h.live x), fun k => ?_, ?_, fun slot x hx => ?_⟩
  · by_cases hk : k = i
    · subst hk
      simpa [Lists.put] using hb.slot.trans (h.slot k)
    · simpa [Lists.put, hk] using h.slot k
  · by_cases hk : k = i
    · subst hk
      simpa [Lists.put, Contents.put] using hb.holds
    · have hkeep : Holds nodes' (s.lists k) (c.seqs k) :=
        (h.holds k).congr (fun x hx => (hb.live x).mpr ((h.holds k).live x hx)) fun x hx => by
          rw [h.slot k]
          exact hb.frame (slots k) x (hframe hk hx)
      simpa [Lists.put, Contents.put, hk] using hkeep
  · intro k l x hkl hslots hx
    by_cases hk : k = i
    · subst hk
      have hl : l ≠ k := Ne.symm hkl
      simp only [Contents.put, Function.update_self, Function.update_of_ne hl] at hx ⊢
      exact hothers x (hnew x hx) l hl hslots.symm
    · by_cases hl : l = i
      · subst hl
        simp only [Contents.put, Function.update_self, Function.update_of_ne hk] at hx ⊢
        exact fun hseq => hothers x (hnew x hseq) k hk hslots hx
      · simp only [Contents.put, Function.update_of_ne hk, Function.update_of_ne hl] at hx ⊢
        exact h.disjoint k l x hkl hslots hx
  · by_cases htouched : slot = slots i ∧ x ∈ touched
    · obtain ⟨rfl, htouched⟩ := htouched
      have hseq : x ∉ seq := by simpa [Contents.put] using hx i rfl
      exact h.slot i ▸ hb.reset x htouched hseq
    · have hout : slot ≠ (s.lists i).slot ∨ x ∉ touched := by
        rw [h.slot]
        exact not_and_or.mp htouched
      refine (hb.frame slot x hout).trans (h.unlinked slot x fun k hk => ?_)
      by_cases hki : k = i
      · subst hki
        exact fun hseq => htouched ⟨hk.symm, hold x hseq⟩
      · simpa [Contents.put, hki] using hx k hk

theorem Refines.insertAt {A B : List Nat} (h : Refines slots s c) (hsplit : c.seqs i = A ++ B)
    (hfree : c.Free slots (slots i) id) :
    ∃ result, (s.lists i).insert s.nodes B.head? id = .ok result ∧ Refines slots (s.put i result) (c.put i (A ++ id :: B)) := by
  have hholds : Holds s.nodes (s.lists i) (A ++ B) := hsplit ▸ h.holds i
  obtain ⟨list', nodes', hrun, hb⟩ := insert_holds hholds ((h.live id).mpr hfree.1) (hsplit ▸ hfree.2 i rfl)
  refine ⟨(list', nodes'), hrun, h.become hb (fun x hx => ?_) (fun _ hx => hx) fun x hx k hk hslots => ?_⟩
  · rw [hsplit, List.mem_append] at hx
    rw [List.mem_append, List.mem_cons]
    exact hx.imp_right Or.inr
  · rw [List.mem_append, List.mem_cons] at hx
    by_cases hxid : x = id
    · exact hxid ▸ hfree.2 k hslots
    · have hxi : x ∈ c.seqs i := by
        rw [hsplit, List.mem_append]
        exact hx.imp_right fun hor => hor.resolve_left hxid
      exact h.disjoint i k x (Ne.symm hk) hslots.symm hxi

theorem Refines.insertBefore {pos : Option Nat} (h : Refines slots s c) (hpos : ∀ p ∈ pos, p ∈ c.seqs i)
    (hfree : c.Free slots (slots i) id) :
    ∃ result, (s.lists i).insert s.nodes pos id = .ok result ∧
      Refines slots (s.put i result) (c.put i (placed (c.seqs i) pos [id])) := by
  obtain ⟨A, B, hsplit, rfl⟩ := exists_position hpos
  obtain ⟨result, hrun, hr⟩ := h.insertAt hsplit hfree
  rw [hsplit, placed_append (hsplit ▸ (h.holds i).nodup), List.append_assoc]
  exact ⟨result, hrun, hr⟩

theorem Refines.insertAfter {p : Nat} (h : Refines slots s c) (hp : p ∈ c.seqs i) (hfree : c.Free slots (slots i) id) :
    ∃ result, (s.lists i).insertAfter s.nodes p id = .ok result ∧
      Refines slots (s.put i result) (c.put i (placedAfter (c.seqs i) p id)) := by
  obtain ⟨A, B, hsplit⟩ := List.append_of_mem hp
  have hholds : Holds s.nodes (s.lists i) (A ++ p :: B) := hsplit ▸ h.holds i
  obtain ⟨result, hrun, hr⟩ := h.insertAt (A := A ++ [p]) (B := B) (by rw [hsplit, List.append_assoc]; rfl) hfree
  rw [hsplit, placedAfter_append hholds.nodup]
  refine ⟨result, ?_, hr⟩
  rw [IntrusiveList.insertAfter, next_ok (hholds.live p (by simp)), hholds.nextOf_eq, ok_bind, hrun]

theorem Refines.remove (h : Refines slots s c) (hid : id ∈ c.seqs i) :
    ∃ following result, (s.lists i).remove s.nodes id = .ok (following, result) ∧
      Refines slots (s.put i result) (c.put i ((c.seqs i).filter (· ≠ id))) := by
  obtain ⟨A, B, hsplit⟩ := List.append_of_mem hid
  have hholds : Holds s.nodes (s.lists i) (A ++ id :: B) := hsplit ▸ h.holds i
  obtain ⟨hA, hB⟩ := not_mem_sides hholds.nodup
  have hkeep {l : List Nat} (hl : id ∉ l) : l.filter (· ≠ id) = l :=
    List.filter_eq_self.mpr fun x hx => decide_eq_true fun he => hl (he ▸ hx)
  have hfilter : (c.seqs i).filter (· ≠ id) = A ++ B := by
    rw [hsplit, List.filter_append, List.filter_cons_of_neg (by simp), hkeep hA, hkeep hB]
  obtain ⟨list', nodes', hrun, hb⟩ := remove_holds hholds
  rw [hfilter]
  refine ⟨B.head?, (list', nodes'), hrun, h.become hb (fun x hx => hsplit ▸ hx) (fun x hx => ?_) fun x hx k hk hslots => ?_⟩
  · rw [List.mem_append] at hx
    rw [List.mem_append, List.mem_cons]
    exact hx.imp_right Or.inr
  · exact h.disjoint i k x (Ne.symm hk) hslots.symm (hsplit ▸ hx)

/-- An operation that only moves the nodes of a list. -/
theorem Refines.rearrange (h : Refines slots s c) (hb : Becomes (s.lists i) s.nodes list' nodes' seq (c.seqs i))
    (hseq : ∀ x ∈ seq, x ∈ c.seqs i) : Refines slots (s.put i (list', nodes')) (c.put i seq) :=
  h.become hb (fun _ hx => hx) hseq fun x hx k hk hslots => h.disjoint i k x (Ne.symm hk) hslots.symm hx

theorem Refines.spliceRange {pos last : Option Nat} {first : Nat} (h : Refines slots s c) (hfirst : first ∈ c.seqs i)
    (hpos : ∀ p ∈ pos, p ∈ c.seqs i) (hlast : ∀ p ∈ last, p ∈ (c.seqs i).dropWhile (· ≠ first)) :
    ∃ result, (s.lists i).spliceRange s.nodes pos first last = .ok result ∧
      Refines slots (s.put i result) (c.put i (spliced (c.seqs i) pos first last)) := by
  have hstay (hrun : (s.lists i).spliceRange s.nodes pos first last = .ok (s.lists i, s.nodes))
      (hseq : spliced (c.seqs i) pos first last = c.seqs i) : ∃ result,
      (s.lists i).spliceRange s.nodes pos first last = .ok result ∧
        Refines slots (s.put i result) (c.put i (spliced (c.seqs i) pos first last)) := by
    rw [hseq]
    exact ⟨_, hrun, h.rearrange (.refl (h.holds i)) fun _ hx => hx⟩
  obtain ⟨A, B, hsplit, rfl, ⟨hempty, he⟩ | ⟨M, hM⟩⟩ := exists_segment (h.holds i).nodup hfirst hlast
  · refine hstay (by rw [IntrusiveList.spliceRange, if_pos (Or.inl he.symm)]) ?_
    rw [spliced, hempty, if_neg (by simp)]
    obtain ⟨A', B', hsplit', rfl⟩ := exists_position hpos
    rw [List.filter_eq_self.mpr (by simp), hsplit', placed_append (hsplit' ▸ (h.holds i).nodup), List.append_nil]
  · rw [hM] at hsplit
    have hholds : Holds s.nodes (s.lists i) (A ++ first :: M ++ B) := hsplit ▸ h.holds i
    by_cases hin : ∃ p ∈ first :: M, pos = some p
    · obtain ⟨p, hp, rfl⟩ := hin
      exact hstay (spliceRange_inside hholds hp) (by rw [spliced, hM, if_pos ⟨p, hp, rfl⟩])
    · have hrest : (c.seqs i).filter (· ∉ first :: M) = A ++ B := by rw [hsplit, filter_cut hholds.nodup]
      have hnodup : (A ++ B).Nodup := hrest ▸ (h.holds i).nodup.filter _
      have hpos' : ∀ p ∈ pos, p ∈ A ++ B := by
        rintro p rfl
        rw [← hrest]
        exact List.mem_filter.mpr ⟨hpos p rfl, decide_eq_true fun hm => hin ⟨p, hm, rfl⟩⟩
      obtain ⟨A', B', hsplit', rfl⟩ := exists_position hpos'
      obtain ⟨list', nodes', hrun, hb⟩ := spliceRange_moves hholds hsplit'
      rw [spliced, hM, if_neg hin, hrest, hsplit', placed_append (hsplit' ▸ hnodup)]
      rw [← hsplit] at hb
      refine ⟨(list', nodes'), hrun, h.rearrange hb fun x hx => ?_⟩
      have hmem : x ∈ A ++ B ↔ x ∈ A' ++ B' := by rw [hsplit']
      rw [hsplit]
      simp only [List.mem_append] at hx hmem ⊢
      grind

theorem Refines.appendAll (h : Refines slots s c) (hij : i ≠ j)
    (hmoved : slots i = slots j ∨ ∀ x ∈ c.seqs j, c.Free slots (slots i) x) :
    ∃ list other nodes, (s.lists i).appendAll s.nodes (s.lists j) = .ok (list, other, nodes) ∧
      Refines slots ⟨nodes, Function.update (Function.update s.lists j other) i list⟩
        ((c.put j []).put i (c.seqs i ++ c.seqs j)) := by
  have hj : Holds s.nodes (s.lists j) ([] ++ c.seqs j ++ []) := by simpa using h.holds j
  obtain ⟨other, nodes₁, hrun₁, hb₁⟩ := removeAll_holds (c.seqs j) hj
  have h₁ : Refines slots (s.put j (other, nodes₁)) (c.put j []) :=
    h.rearrange (hb₁.touching (by simp)) fun x hx => absurd hx List.not_mem_nil
  have hi : Holds nodes₁ (s.lists i) (c.seqs i ++ []) := by
    have := h₁.holds i
    rwa [put_nodes, put_lists, put_seqs, Function.update_of_ne hij, Function.update_of_ne hij,
      ← List.append_nil (c.seqs i)] at this
  -- a node of the other list is in no further list of the slot, whichever slot it comes from
  have hnew {x : Nat} (hx : x ∈ c.seqs j) {k : ι} (hk : k ≠ j) (hslots : slots k = slots i) : x ∉ c.seqs k := by
    obtain hsame | hfree := hmoved
    · exact h.disjoint j k x (Ne.symm hk) (hsame.symm.trans hslots.symm) hx
    · exact (hfree x hx).2 k hslots
  have hlive : ∀ x ∈ c.seqs j, nodes₁.Live x := fun x hx => (hb₁.live x).mpr ((h.holds j).live x hx)
  obtain ⟨list, nodes₂, hrun₂, hb₂⟩ := insertAll_holds (c.seqs j) hi (h.holds j).nodup hlive fun x hx => by
    simpa using hnew hx hij rfl
  rw [List.append_nil] at hb₂
  have hb₂ : Becomes ((s.put j (other, nodes₁)).lists i) nodes₁ list nodes₂ (c.seqs i ++ c.seqs j) (c.seqs i ++ c.seqs j) := by
    rwa [put_lists, Function.update_of_ne hij]
  refine ⟨list, other, nodes₂, ?_, h₁.become hb₂ (fun x hx => ?_) (fun _ hx => hx) fun x hx k hk hslots => ?_⟩
  · rw [List.head?_nil] at hrun₂
    simp only [IntrusiveList.appendAll, (h.holds j).toVec, ok_bind, hrun₁, hrun₂, pure_eq_ok]
  · rw [put_seqs, Function.update_of_ne hij] at hx
    exact List.mem_append_left _ hx
  · by_cases hkj : k = j
    · simp [hkj]
    · rw [put_seqs, Function.update_of_ne hkj]
      obtain hx | hx := List.mem_append.mp hx
      · exact h.disjoint i k x (Ne.symm hk) hslots.symm hx
      · exact hnew hx hkj hslots

theorem Refines.alloc (h : Refines slots s c) :
    Refines slots { s with nodes := (s.nodes.alloc fun _ => .default).1 } (c.perform .alloc) := by
  have hget (x : Nat) : (s.nodes.alloc fun _ => ListLinks.default).1.get? x =
      if x = c.nextId then some fun _ => ListLinks.default else s.nodes.get? x := by
    rw [Arena.get?_alloc, h.nextId]
  have hlive (x : Nat) : (s.nodes.alloc fun _ => ListLinks.default).1.Live x ↔ x = c.nextId ∨ s.nodes.Live x := by
    rw [Arena.Live, hget]
    split <;> simp_all [Arena.Live]
  have hlinks (slot x : Nat) : linksOf (s.nodes.alloc fun _ => ListLinks.default).1 slot x = linksOf s.nodes slot x := by
    rw [linksOf, hget, linksOf]
    split
    · rename_i hx
      rw [hx, ← h.nextId, Arena.get?_nextId]
      rfl
    · rfl
  refine ⟨h.slot, by simp [Contents.perform, Arena.alloc, Arena.nextId, ← h.nextId], fun x => ?_, fun k => ?_, h.disjoint,
    fun slot x hx => (hlinks slot x).trans (h.unlinked slot x hx)⟩
  · rw [hlive, h.live, Contents.perform, List.mem_cons]
  · exact (h.holds k).congr (fun x hx => (hlive x).mpr (Or.inr ((h.holds k).live x hx))) fun x _ => hlinks _ x

theorem Refines.free (h : Refines slots s c) (hid : id ∈ c.live) (hfree : ∀ i, id ∉ c.seqs i) :
    s.nodes.remove id = .ok (s.nodes.erase id) ∧ Refines slots { s with nodes := s.nodes.erase id } (c.perform (.free id)) := by
  have hlive (x : Nat) : (s.nodes.erase id).Live x ↔ x ≠ id ∧ s.nodes.Live x := by
    rw [Arena.Live, Arena.get?_erase]
    split <;> simp_all [Arena.Live]
  have hlinks (slot x : Nat) (hx : x ≠ id) : linksOf (s.nodes.erase id) slot x = linksOf s.nodes slot x := by
    rw [linksOf, Arena.get?_erase, if_neg hx, linksOf]
  refine ⟨if_pos ((h.live id).mpr hid), h.slot, ?_, fun x => ?_, fun k => ?_, h.disjoint, fun slot x hx => ?_⟩
  · exact List.length_set.trans h.nextId
  · simp only [hlive, h.live, Contents.perform, List.mem_filter, decide_eq_true_eq]
    exact And.comm
  · have hne {x : Nat} (hx : x ∈ c.seqs k) : x ≠ id := fun he => hfree k (he ▸ hx)
    exact (h.holds k).congr (fun x hx => (hlive x).mpr ⟨hne hx, (h.holds k).live x hx⟩) fun x hx => hlinks _ x (hne hx)
  · by_cases hxid : x = id
    · rw [linksOf, Arena.get?_erase, if_pos hxid]
      rfl
    · exact (hlinks slot x hxid).trans (h.unlinked slot x hx)

theorem Refines.step (h : Refines slots s c) (operation : Operation ι) (hallowed : Allowed slots c operation) :
    ∃ s', perform s operation = .ok s' ∧ Refines slots s' (c.perform operation) := by
  cases operation with
  | alloc => exact ⟨_, rfl, h.alloc⟩
  | free id =>
      obtain ⟨hrun, h'⟩ := h.free hallowed.1 hallowed.2
      exact ⟨_, by simp [perform, hrun], h'⟩
  | pushBack i id =>
      obtain ⟨result, hrun, h'⟩ := h.insertAt (List.append_nil (c.seqs i)).symm hallowed
      exact ⟨_, put_ok hrun, h'⟩
  | pushFront i id =>
      obtain ⟨result, hrun, h'⟩ := h.insertAt (A := []) (List.nil_append (c.seqs i)).symm hallowed
      rw [← (h.holds i).head] at hrun
      exact ⟨_, put_ok hrun, h'⟩
  | insertBefore i pos id =>
      obtain ⟨result, hrun, h'⟩ := h.insertBefore (fun p hp => Option.some.inj hp ▸ hallowed.1) hallowed.2
      exact ⟨_, put_ok hrun, h'⟩
  | insertAfter i pos id =>
      obtain ⟨result, hrun, h'⟩ := h.insertAfter hallowed.1 hallowed.2
      exact ⟨_, put_ok hrun, h'⟩
  | insert i pos id =>
      obtain ⟨result, hrun, h'⟩ := h.insertBefore hallowed.1 hallowed.2
      exact ⟨_, put_ok hrun, h'⟩
  | remove i id =>
      obtain ⟨following, result, hrun, h'⟩ := h.remove hallowed
      exact ⟨_, by simp [perform, hrun], h'⟩
  | spliceRange i pos first last =>
      obtain ⟨result, hrun, h'⟩ := h.spliceRange hallowed.1 hallowed.2.1 hallowed.2.2
      exact ⟨_, put_ok hrun, h'⟩
  | appendAll i j =>
      obtain ⟨list, other, nodes, hrun, h'⟩ := h.appendAll hallowed.1 hallowed.2
      exact ⟨_, by simp [perform, hrun], h'⟩
  | clear i =>
      obtain ⟨list', nodes', hrun, hb⟩ := clear_holds (h.holds i)
      exact ⟨_, put_ok hrun, h.rearrange hb fun x hx => absurd hx List.not_mem_nil⟩

omit [DecidableEq ι] in
theorem refines_start (slots : ι → Nat) : Refines slots (start slots) .empty where
  slot _ := rfl
  nextId := rfl
  live x := by simp [start, Contents.empty, Arena.Live, Arena.get?]
  holds _ := ⟨rfl, rfl, rfl, List.nodup_nil, fun _ hx => absurd hx List.not_mem_nil, trivial⟩
  disjoint _ _ _ _ _ hx := absurd hx List.not_mem_nil
  unlinked slot x _ := by simp [start, linksOf, Arena.get?]

theorem Refines.run (operations : List (Operation ι)) (h : Refines slots s c) (hpermitted : Permitted slots c operations) :
    ∃ s', operations.foldlM perform s = .ok s' ∧ Refines slots s' (operations.foldl Contents.perform c) := by
  induction operations generalizing s c with
  | nil => exact ⟨s, rfl, h⟩
  | cons operation operations ih =>
      obtain ⟨s₁, hrun₁, h₁⟩ := h.step operation hpermitted.1
      obtain ⟨s₂, hrun₂, h₂⟩ := ih h₁ hpermitted.2
      exact ⟨s₂, by rw [List.foldlM_cons, hrun₁, ok_bind, hrun₂], h₂⟩

/-- Whatever operations are performed on lists that share their nodes, each list shows the sequence that the operations
make of it, from both of its ends, and nodes in no list carry no links. -/
theorem lists_show_sequences (slots : ι → Nat) (operations : List (Operation ι)) (h : Permitted slots .empty operations) :
    ∃ s, operations.foldlM perform (start slots) = .ok s ∧
      (∀ i, Shows s.nodes (s.lists i) ((operations.foldl Contents.perform .empty).seqs i)) ∧
      ∀ slot x, (∀ i, slots i = slot → x ∉ (operations.foldl Contents.perform .empty).seqs i) →
        linksOf s.nodes slot x = .default := by
  obtain ⟨s, hrun, hr⟩ := (refines_start slots).run operations h
  exact ⟨s, hrun, fun i => (hr.holds i).shows, hr.unlinked⟩

/-- Two lists of one slot and a list of another one. -/
def mixed : List (Operation (Fin 3)) :=
  [.alloc, .alloc, .alloc, .alloc, .pushBack 0 0, .pushBack 0 1, .pushFront 1 2, .insertAfter 0 0 3, .pushBack 2 0,
    .insertBefore 2 0 1, .spliceRange 0 none 0 (some 1), .appendAll 0 1, .remove 2 0]

theorem lists_show_sequences_mixed :
    ∃ s, mixed.foldlM perform (start ![0, 0, 1]) = .ok s ∧ (s.lists 0).toVec s.nodes = .ok [1, 0, 3, 2] ∧
      (s.lists 0).iter.consume s.nodes [false, true, false, false, true] = .ok [some 2, some 1, some 3, some 0, none] ∧
      (s.lists 1).isEmpty = true ∧ (s.lists 2).toVec s.nodes = .ok [1] ∧ linksOf s.nodes 1 0 = .default := by
  obtain ⟨s, hrun, hshows, hunlinked⟩ := lists_show_sequences ![0, 0, 1] mixed (by decide)
  exact ⟨s, hrun, (hshows 0).toVec, (hshows 0).consume _, (hshows 1).isEmpty, (hshows 2).toVec, hunlinked 1 0 (by decide)⟩

end Family

end IntrusiveList

end GhidraDecompiler
