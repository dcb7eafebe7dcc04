import SharpRuntime.Machine.Effects
import SharpRuntime.Model.Exception

/-!
# `LinkedList`

`modules/collections/include/System/Collections/Generic/LinkedList.hpp` under the source's names;
bare line numbers are of this file.  A node is a number, a handle an `Option ℕ`; the heap has the
fields of all nodes and of the lists, which are known by their addresses `ι`.  The heap never gives
a node up: a weak pointer to a node nobody holds is locked in vain, and the weak pointers here are
the links back and the pointers to last nodes, which lead to nodes that a list holds.  To copy a
value is the value type's own affair and may throw.
-/

set_option autoImplicit false

namespace SharpRuntime.Model

open Machine

/-- The fields of a list.
SOURCE: 344-355 -/
structure LinkedListFields where
  head_ : Option ℕ
  tail_ : Option ℕ
  count_ : ℤ
  version_ : BitVec 64
deriving DecidableEq

/-- SOURCE: 344-355 -/
def LinkedListFields.default : LinkedListFields where
  head_ := none
  tail_ := none
  count_ := 0
  version_ := 0

/-- The nodes, of which those below `allocated` have been made, and the lists.
SOURCE: 42-56 -/
structure LinkedListHeap (α ι : Type) where
  item : ℕ → Option α
  owner : ℕ → Option ι
  next : ℕ → Option ℕ
  prev : ℕ → Option ℕ
  allocated : ℕ
  list : ι → LinkedListFields
  alive : ι → Bool

/-- How a member of a list ends other than by returning. -/
inductive ListFault where
  | runtime (e : Exception)
  /-- No exception of the source: what the language does not define. -/
  | undefined
  /-- No exception of the source: the bound on the rounds of a loop was too small. -/
  | diverged
deriving DecidableEq

/-- The copy of a value that throws in a call, if one does: how many are made before it, and what
is thrown. -/
abbrev CopyFault : Type := Option (ℕ × Exception)

/-- What the next copy throws. -/
def CopyFault.now : CopyFault → Option Exception
  | some (0, e) => some e
  | _ => none

/-- What is left for the copies after the next one. -/
def CopyFault.later : CopyFault → CopyFault
  | some (k + 1, e) => some (k, e)
  | fault => fault

/-- A member that may change lists and nodes. -/
abbrev ListProgram (α ι β : Type) : Type := Program ListFault (LinkedListHeap α ι) β

namespace LinkedListHeap

variable {α ι : Type} [DecidableEq ι]

/-- A heap without nodes and lists. -/
def empty : LinkedListHeap α ι where
  item _ := none
  owner _ := none
  next _ := none
  prev _ := none
  allocated := 0
  list _ := .default
  alive _ := false

def setOwner (n : ℕ) (owner : Option ι) (s : LinkedListHeap α ι) : LinkedListHeap α ι :=
  { s with owner := Function.update s.owner n owner }

def setNext (n : ℕ) (next : Option ℕ) (s : LinkedListHeap α ι) : LinkedListHeap α ι :=
  { s with next := Function.update s.next n next }

def setPrev (n : ℕ) (prev : Option ℕ) (s : LinkedListHeap α ι) : LinkedListHeap α ι :=
  { s with prev := Function.update s.prev n prev }

def setList (this : ι) (change : LinkedListFields → LinkedListFields) (s : LinkedListHeap α ι) :
    LinkedListHeap α ι :=
  { s with list := Function.update s.list this (change (s.list this)) }

def setHead (this : ι) (head : Option ℕ) : LinkedListHeap α ι → LinkedListHeap α ι :=
  setList this fun l => { l with head_ := head }

def setTail (this : ι) (tail : Option ℕ) : LinkedListHeap α ι → LinkedListHeap α ι :=
  setList this fun l => { l with tail_ := tail }

end LinkedListHeap

namespace LinkedList

open LinkedListHeap

variable {α ι : Type} [DecidableEq ι]

/-- A node of its own, with a copy of the value.
SOURCE: 42-56 -/
def makeNode (value : α) (fault : Option Exception) : ListProgram α ι ℕ :=
  match fault with
  | some e => throw (.runtime e)
  | none => do
    let s ← get
    set { s with
      item := Function.update s.item s.allocated (some value)
      owner := Function.update s.owner s.allocated none
      next := Function.update s.next s.allocated none
      prev := Function.update s.prev s.allocated none
      allocated := s.allocated + 1 }
    pure s.allocated

/-- The counters after a node has been linked in.  No list counts more nodes than fit.
SOURCE: 396-397, 412-413 -/
def countInserted (this : ι) : ListProgram α ι Unit := do
  let s ← get
  if (s.list this).count_ < intcsMax then
    set (s.setList this fun l => { l with count_ := l.count_ + 1, version_ := l.version_ + 1 })
  else throw .undefined

/-- SOURCE: 387-395 -/
def linkLast (this : ι) (node : ℕ) (s : LinkedListHeap α ι) : LinkedListHeap α ι :=
  let s := match (s.list this).tail_ with
    | none => s.setHead this (some node)
    | some last => (s.setPrev node (some last)).setNext last (some node)
  (s.setTail this (some node)).setOwner node (some this)

/-- SOURCE: 385-398 -/
def insertLast (this : ι) (node : ℕ) : ListProgram α ι Unit := do
  modify (linkLast this node)
  countInserted this

/-- SOURCE: 402-411 -/
def linkBefore (this : ι) (position node : ℕ) (s : LinkedListHeap α ι) : LinkedListHeap α ι :=
  let previous := s.prev position
  let s := ((s.setNext node (some position)).setPrev node previous).setPrev position (some node)
  let s := match previous with
    | some previous => s.setNext previous (some node)
    | none => s.setHead this (some node)
  s.setOwner node (some this)

/-- SOURCE: 400-414 -/
def insertBefore (this : ι) (position node : ℕ) : ListProgram α ι Unit := do
  modify (linkBefore this position node)
  countInserted this

/-- SOURCE: 416-423 -/
def insertAfter (this : ι) (position node : ℕ) : ListProgram α ι Unit := do
  match (← get).next position with
  | some next => insertBefore this next node
  | none => insertLast this node

/-- SOURCE: 425-444 -/
def unlinked (this : ι) (node : ℕ) (s : LinkedListHeap α ι) : LinkedListHeap α ι :=
  let previous := s.prev node
  let next := s.next node
  let s := match previous with
    | some previous => s.setNext previous next
    | none => s.setHead this next
  let s := match next with
    | some next => s.setPrev next previous
    | none => s.setTail this previous
  (((s.setOwner node none).setNext node none).setPrev node none).setList this
    fun l => { l with count_ := l.count_ - 1, version_ := l.version_ + 1 }

/-- SOURCE: 425-444 -/
def unlink (this : ι) (node : ℕ) : ListProgram α ι Unit := modify (unlinked this node)

/-- The loop of `detachAll`.
SOURCE: 371-378 -/
def detachFrom : (fuel : ℕ) → (current : Option ℕ) → LinkedListHeap α ι →
    Option (LinkedListHeap α ι)
  | _, none, s => some s
  | 0, some _, _ => none
  | fuel + 1, some n, s =>
    detachFrom fuel (s.next n) (((s.setOwner n none).setNext n none).setPrev n none)

/-- SOURCE: 365-379 -/
def detachAll (this : ι) : ListProgram α ι Unit := do
  let s ← get
  match detachFrom s.allocated (s.list this).head_
      (s.setList this fun l => { l with head_ := none, tail_ := none, count_ := 0 }) with
  | some s => set s
  | none => throw .diverged

/-- SOURCE: MutationCounter.hpp:164-168 -/
def bumpVersion (this : ι) : ListProgram α ι Unit :=
  modify (setList this fun l => { l with version_ := l.version_ + 1 })

/-- The loop of `copyNodesFrom`.
SOURCE: 448-450 -/
def copyFrom (this : ι) : (fuel : ℕ) → (current : Option ℕ) → CopyFault → ListProgram α ι Unit
  | _, none, _ => pure ()
  | 0, some _, _ => throw .diverged
  | fuel + 1, some n, fault => do
    match (← get).item n with
    | none => throw .undefined
    | some value => do
      let node ← makeNode value fault.now
      insertLast this node
      copyFrom this fuel ((← get).next n) fault.later

/-- SOURCE: 446-451 -/
def copyNodesFrom (this other : ι) (fault : CopyFault) : ListProgram α ι Unit := do
  let s ← get
  copyFrom this s.allocated (s.list other).head_ fault

/-- The loop of `adoptNodesFrom`.
SOURCE: 458-460 -/
def adoptFrom (this : ι) : (fuel : ℕ) → (current : Option ℕ) → LinkedListHeap α ι →
    Option (LinkedListHeap α ι)
  | _, none, s => some s
  | 0, some _, _ => none
  | fuel + 1, some n, s => adoptFrom this fuel (s.next n) (s.setOwner n (some this))

/-- SOURCE: 453-465 -/
def adoptNodesFrom (this other : ι) : ListProgram α ι Unit := do
  modify fun s => s.setList this fun l => { l with
    head_ := (s.list other).head_
    tail_ := (s.list other).tail_
    count_ := (s.list other).count_ }
  let s ← get
  match adoptFrom this s.allocated (s.list this).head_ s with
  | none => throw .diverged
  | some s => do
    set (s.setList other fun l => { l with head_ := none, tail_ := none, count_ := 0 })
    bumpVersion other

/-- SOURCE: 507-512 -/
def validateNode (this : ι) : Option ℕ → ListProgram α ι ℕ
  | none => throw (.runtime (.argumentNull "node" "Value cannot be null."))
  | some node => do
    if (← get).owner node ≠ some this then
      throw (.runtime (.invalidOperation
        "The LinkedList node does not belong to current LinkedList."))
    else pure node

/-- SOURCE: 514-519 -/
def validateNewNode : Option ℕ → ListProgram α ι ℕ
  | none => throw (.runtime (.argumentNull "node" "Value cannot be null."))
  | some node => do
    if (← get).owner node ≠ none then
      throw (.runtime (.invalidOperation "The LinkedList node already belongs to a LinkedList."))
    else pure node

/-- SOURCE: 523 -/
def construct (this : ι) : ListProgram α ι Unit :=
  modify fun s => { s.setList this fun _ => .default with
    alive := Function.update s.alive this true }

/-- A list whose constructor throws has not been there, nor have its nodes, which no handle has.
SOURCE: 533 -/
def copyConstruct (this other : ι) (fault : CopyFault) : ListProgram α ι Unit := fun s =>
  match (construct this >>= fun _ => copyNodesFrom this other fault) s with
  | .ok a s' => .ok a s'
  | .error e _ => .error e s

/-- SOURCE: 536 -/
def moveConstruct (this other : ι) : ListProgram α ι Unit := do
  construct this
  adoptNodesFrom this other

/-- SOURCE: 526 -/
def destroy (this : ι) : ListProgram α ι Unit := do
  detachAll this
  modify fun s => { s with alive := Function.update s.alive this false }

/-- SOURCE: 543-550 -/
def copyAssign (this other : ι) (fault : CopyFault) : ListProgram α ι Unit :=
  if this = other then pure ()
  else do
    detachAll this
    bumpVersion this
    copyNodesFrom this other fault

/-- SOURCE: 558-565 -/
def moveAssign (this other : ι) : ListProgram α ι Unit :=
  if this = other then pure ()
  else do
    detachAll this
    bumpVersion this
    adoptNodesFrom this other

/-- SOURCE: 616, 630 -/
def insertFirst (this : ι) (node : ℕ) : ListProgram α ι Unit := do
  match ((← get).list this).head_ with
  | some head => insertBefore this head node
  | none => insertLast this node

/-- SOURCE: 614-618 -/
def addFirst (this : ι) (value : α) (fault : Option Exception) : ListProgram α ι ℕ := do
  let node ← makeNode value fault
  insertFirst this node
  pure node

/-- SOURCE: 628-631 -/
def addFirstNode (this : ι) (node : Option ℕ) : ListProgram α ι Unit := do
  let node ← validateNewNode node
  insertFirst this node

/-- SOURCE: 640-644 -/
def addLast (this : ι) (value : α) (fault : Option Exception) : ListProgram α ι ℕ := do
  let node ← makeNode value fault
  insertLast this node
  pure node

/-- SOURCE: 654-657 -/
def addLastNode (this : ι) (node : Option ℕ) : ListProgram α ι Unit := do
  let node ← validateNewNode node
  insertLast this node

/-- SOURCE: 669-674 -/
def addBefore (this : ι) (node : Option ℕ) (value : α) (fault : Option Exception) :
    ListProgram α ι ℕ := do
  let node ← validateNode this node
  let inserted ← makeNode value fault
  insertBefore this node inserted
  pure inserted

/-- SOURCE: 686-690 -/
def addBeforeNode (this : ι) (node newNode : Option ℕ) : ListProgram α ι Unit := do
  let node ← validateNode this node
  let newNode ← validateNewNode newNode
  insertBefore this node newNode

/-- SOURCE: 702-707 -/
def addAfter (this : ι) (node : Option ℕ) (value : α) (fault : Option Exception) :
    ListProgram α ι ℕ := do
  let node ← validateNode this node
  let inserted ← makeNode value fault
  insertAfter this node inserted
  pure inserted

/-- SOURCE: 719-723 -/
def addAfterNode (this : ι) (node newNode : Option ℕ) : ListProgram α ι Unit := do
  let node ← validateNode this node
  let newNode ← validateNewNode newNode
  insertAfter this node newNode

/-- SOURCE: 732-735 -/
def removeFirst (this : ι) : ListProgram α ι Unit := do
  match ((← get).list this).head_ with
  | none => throw (.runtime (.invalidOperation "The LinkedList is empty."))
  | some head => unlink this head

/-- SOURCE: 744-748 -/
def removeLast (this : ι) : ListProgram α ι Unit := do
  match ((← get).list this).tail_ with
  | none => throw (.runtime (.invalidOperation "The LinkedList is empty."))
  | some last => unlink this last

/-- The loop of `remove`: the first node that holds the value, from `current` on.
SOURCE: 759-764 -/
def findFrom [BEq α] (value : α) (s : LinkedListHeap α ι) :
    (fuel : ℕ) → (current : Option ℕ) → Option (Option ℕ)
  | _, none => some none
  | 0, some _ => none
  | fuel + 1, some n =>
    if (s.item n).any (· == value) then some (some n) else findFrom value s fuel (s.next n)

/-- SOURCE: 758-766 -/
def remove [BEq α] (this : ι) (value : α) : ListProgram α ι Bool := do
  let s ← get
  match findFrom value s s.allocated (s.list this).head_ with
  | none => throw .diverged
  | some none => pure false
  | some (some node) => do
    unlink this node
    pure true

/-- SOURCE: 778-781 -/
def removeNode (this : ι) (node : Option ℕ) : ListProgram α ι Unit := do
  let node ← validateNode this node
  unlink this node

/-- SOURCE: 789 -/
def clear (this : ι) : ListProgram α ι Unit := do
  detachAll this
  bumpVersion this

end LinkedList

/-- SOURCE: IEnumerator.hpp:22-27 -/
inductive EnumeratorState where
  | beforeFirst
  | current
  | afterLast
deriving DecidableEq

/-- SOURCE: 467-477 -/
structure LinkedListEnumerator (ι : Type) where
  list_ : ι
  version_ : BitVec 64
  cur_ : Option ℕ
  started_ : Bool
  state_ : EnumeratorState
deriving DecidableEq

namespace LinkedListEnumerator

variable {α ι : Type}

/-- SOURCE: 479-480, 867-869 -/
def getEnumerator (this : ι) (s : LinkedListHeap α ι) : LinkedListEnumerator ι where
  list_ := this
  version_ := (s.list this).version_
  cur_ := (s.list this).head_
  started_ := false
  state_ := .beforeFirst

/-- SOURCE: IEnumerator.hpp:62-66 -/
def collectionModified : Exception :=
  .invalidOperation "Collection was modified; enumeration operation may not execute."

/-- SOURCE: 481-494 -/
def moveNext (e : LinkedListEnumerator ι) (s : LinkedListHeap α ι) :
    Except Exception (Bool × LinkedListEnumerator ι) :=
  if e.version_ ≠ (s.list e.list_).version_ then .error collectionModified
  else if e.state_ = .afterLast then .ok (false, e)
  else
    let cur_ := if e.started_ then e.cur_.bind s.next else e.cur_
    if cur_.isSome then
      .ok (true, { e with cur_ := cur_, started_ := true, state_ := .current })
    else .ok (false, { e with cur_ := cur_, started_ := true, state_ := .afterLast })

/-- SOURCE: 495-500 -/
def reset (e : LinkedListEnumerator ι) (s : LinkedListHeap α ι) :
    Except Exception (LinkedListEnumerator ι) :=
  if e.version_ ≠ (s.list e.list_).version_ then .error collectionModified
  else .ok { e with
    cur_ := (s.list e.list_).head_
    started_ := false
    state_ := .beforeFirst }

end LinkedListEnumerator

end SharpRuntime.Model
