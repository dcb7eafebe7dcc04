import SharpRuntime.Machine.DoublyLinked
import SharpRuntime.Machine.Transitions
import SharpRuntime.Model.LinkedList

/-!
# Histories of linked lists

Any number of lists, and handles of nodes that may be kept for ever, used in any order.  Beside the
heap stands what the lists are for: each is a sequence of nodes, each member makes of it what its
name says, and the changes of each list are counted without an end.
-/

set_option autoImplicit false

namespace SharpRuntime.Interface.ListHistory

open Machine Model

variable {α ι : Type}

/-- The members; `this` is the list, a node argument is a handle, and a fault is what copying a
value throws. -/
inductive ListAction (α ι : Type) where
  | construct (this : ι)
  | copyConstruct (this other : ι) (fault : CopyFault)
  | moveConstruct (this other : ι)
  | destroy (this : ι)
  | copyAssign (this other : ι) (fault : CopyFault)
  | moveAssign (this other : ι)
  | makeNode (value : α) (fault : Option Exception)
  | addFirst (this : ι) (value : α) (fault : Option Exception)
  | addFirstNode (this : ι) (node : Option ℕ)
  | addLast (this : ι) (value : α) (fault : Option Exception)
  | addLastNode (this : ι) (node : Option ℕ)
  | addBefore (this : ι) (node : Option ℕ) (value : α) (fault : Option Exception)
  | addBeforeNode (this : ι) (node newNode : Option ℕ)
  | addAfter (this : ι) (node : Option ℕ) (value : α) (fault : Option Exception)
  | addAfterNode (this : ι) (node newNode : Option ℕ)
  | removeFirst (this : ι)
  | removeLast (this : ι)
  | remove (this : ι) (value : α)
  | removeNode (this : ι) (node : Option ℕ)
  | clear (this : ι)

/-- What a member answers. -/
inductive ListAnswer where
  | done
  | node (n : ℕ)
  | found (b : Bool)
  | threw (e : Exception)
deriving DecidableEq

def IsHandle (allocated : ℕ) (node : Option ℕ) : Prop := ∀ n ∈ node, n < allocated

/-- A member is called of a list that is there, a list is made where there is none, and handles are
those that have been given out. -/
def Callable (alive : ι → Bool) (allocated : ℕ) : ListAction α ι → Prop
  | .construct this => alive this = false
  | .copyConstruct this other _ => alive this = false ∧ alive other = true
  | .moveConstruct this other => alive this = false ∧ alive other = true
  | .destroy this => alive this = true
  | .copyAssign this other _ => alive this = true ∧ alive other = true
  | .moveAssign this other => alive this = true ∧ alive other = true
  | .makeNode _ _ => True
  | .addFirst this _ _ => alive this = true
  | .addFirstNode this node => alive this = true ∧ IsHandle allocated node
  | .addLast this _ _ => alive this = true
  | .addLastNode this node => alive this = true ∧ IsHandle allocated node
  | .addBefore this node _ _ => alive this = true ∧ IsHandle allocated node
  | .addBeforeNode this node newNode =>
    alive this = true ∧ IsHandle allocated node ∧ IsHandle allocated newNode
  | .addAfter this node _ _ => alive this = true ∧ IsHandle allocated node
  | .addAfterNode this node newNode =>
    alive this = true ∧ IsHandle allocated node ∧ IsHandle allocated newNode
  | .removeFirst this => alive this = true
  | .removeLast this => alive this = true
  | .remove this _ => alive this = true
  | .removeNode this node => alive this = true ∧ IsHandle allocated node
  | .clear this => alive this = true

instance (allocated : ℕ) (node : Option ℕ) : Decidable (IsHandle allocated node) := by
  unfold IsHandle
  infer_instance

instance (alive : ι → Bool) (allocated : ℕ) (action : ListAction α ι) :
    Decidable (Callable alive allocated action) := by
  cases action <;> unfold Callable <;> infer_instance

/-- The heap, and the answer to the last call. -/
structure ListWorld (α ι : Type) where
  heap : LinkedListHeap α ι
  answer : ListAnswer

section Program

variable [DecidableEq ι] [BEq α]

def silent (p : ListProgram α ι Unit) : ListProgram α ι ListAnswer := do
  p
  pure .done

def handing (p : ListProgram α ι ℕ) : ListProgram α ι ListAnswer := do
  let n ← p
  pure (.node n)

def ListAction.program : ListAction α ι → ListProgram α ι ListAnswer
  | .construct this => silent <| LinkedList.construct this
  | .copyConstruct this other fault => silent <| LinkedList.copyConstruct this other fault
  | .moveConstruct this other => silent <| LinkedList.moveConstruct this other
  | .destroy this => silent <| LinkedList.destroy this
  | .copyAssign this other fault => silent <| LinkedList.copyAssign this other fault
  | .moveAssign this other => silent <| LinkedList.moveAssign this other
  | .makeNode value fault => handing <| LinkedList.makeNode value fault
  | .addFirst this value fault => handing <| LinkedList.addFirst this value fault
  | .addFirstNode this node => silent <| LinkedList.addFirstNode this node
  | .addLast this value fault => handing <| LinkedList.addLast this value fault
  | .addLastNode this node => silent <| LinkedList.addLastNode this node
  | .addBefore this node value fault => handing <| LinkedList.addBefore this node value fault
  | .addBeforeNode this node newNode => silent <| LinkedList.addBeforeNode this node newNode
  | .addAfter this node value fault => handing <| LinkedList.addAfter this node value fault
  | .addAfterNode this node newNode => silent <| LinkedList.addAfterNode this node newNode
  | .removeFirst this => silent <| LinkedList.removeFirst this
  | .removeLast this => silent <| LinkedList.removeLast this
  | .remove this value => do
    let found ← LinkedList.remove this value
    pure (.found found)
  | .removeNode this node => silent <| LinkedList.removeNode this node
  | .clear this => silent <| LinkedList.clear this

/-- The world after a call; one that the language does not define leads nowhere. -/
def ListWorld.after : EStateM.Result ListFault (LinkedListHeap α ι) ListAnswer →
    Option (ListWorld α ι)
  | .ok answer heap => some ⟨heap, answer⟩
  | .error (.runtime e) heap => some ⟨heap, .threw e⟩
  | .error _ _ => none

def step (w : ListWorld α ι) (action : ListAction α ι) : Option (ListWorld α ι) :=
  if Callable w.heap.alive w.heap.allocated action then ListWorld.after (action.program w.heap)
  else none

def start : ListWorld α ι where
  heap := .empty
  answer := .done

end Program

/-- The values of the nodes, the sequences of the lists, the number of the changes of each list
since it was made, and the answer to the last call. -/
@[ext]
structure Lists (α ι : Type) where
  item : ℕ → Option α
  allocated : ℕ
  alive : ι → Bool
  sequence : ι → List ℕ
  changes : ι → ℕ
  answer : ListAnswer

namespace Lists

def empty : Lists α ι where
  item _ := none
  allocated := 0
  alive _ := false
  sequence _ := []
  changes _ := 0
  answer := .done

section Effects

variable [DecidableEq ι]

def answered (answer : ListAnswer) (v : Lists α ι) : Lists α ι := { v with answer := answer }

/-- A list gets another sequence, which counts as so many changes. -/
def put (this : ι) (sequence : List ℕ) (changes : ℕ) (v : Lists α ι) : Lists α ι :=
  { v with
    sequence := Function.update v.sequence this sequence
    changes := Function.update v.changes this (v.changes this + changes) }

def copied (nodes : List ℕ) (v : Lists α ι) : Lists α ι :=
  { v with
    item := fun n => if n < v.allocated then v.item n else nodes[n - v.allocated]?.bind v.item
    allocated := v.allocated + nodes.length }

def made (value : α) (v : Lists α ι) : Lists α ι :=
  { v with
    item := Function.update v.item v.allocated (some value)
    allocated := v.allocated + 1 }

def constructed (this : ι) (v : Lists α ι) : Lists α ι :=
  { v with
    alive := Function.update v.alive this true
    sequence := Function.update v.sequence this []
    changes := Function.update v.changes this 0 }

/-- A list becomes a copy of some nodes; its own nodes are in no list any more. -/
def copyTo (this : ι) (nodes : List ℕ) (v : Lists α ι) : Lists α ι :=
  (v.copied nodes).put this (List.range' v.allocated nodes.length) nodes.length

/-- The copies that are made of so many values. -/
def copies (fault : CopyFault) (n : ℕ) : ℕ :=
  match fault with
  | none => n
  | some (k, _) => min k n

/-- What copying so many values throws. -/
def thrown (fault : CopyFault) (n : ℕ) : Option Exception :=
  match fault with
  | none => none
  | some (k, e) => if k < n then some e else none

/-- Where copying throws, the call throws that; otherwise `change` says what is done. -/
def ofCopy (v : Lists α ι) (fault : Option Exception) (change : Lists α ι) : Lists α ι :=
  match fault with
  | some e => v.answered (.threw e)
  | none => change

def moveTo (this other : ι) (v : Lists α ι) : Lists α ι :=
  (v.put this (v.sequence other) 0).put other [] 1

def ofNode (this : ι) (node : Option ℕ) (change : ℕ → Lists α ι) (v : Lists α ι) : Lists α ι :=
  match node with
  | none => v.answered (.threw (.argumentNull "node" "Value cannot be null."))
  | some n =>
    if n ∈ v.sequence this then change n
    else v.answered (.threw (.invalidOperation
      "The LinkedList node does not belong to current LinkedList."))

open Classical in
noncomputable def ofNewNode (node : Option ℕ) (change : ℕ → Lists α ι) (v : Lists α ι) :
    Lists α ι :=
  match node with
  | none => v.answered (.threw (.argumentNull "node" "Value cannot be null."))
  | some n =>
    if ∃ this, n ∈ v.sequence this then
      v.answered (.threw (.invalidOperation "The LinkedList node already belongs to a LinkedList."))
    else change n

/-- A list that is not empty, for which `change` says what is done. -/
def ofNonempty (v : Lists α ι) (this : ι) (change : Lists α ι) : Lists α ι :=
  if v.sequence this = [] then
    v.answered (.threw (.invalidOperation "The LinkedList is empty."))
  else change

def putBefore (n m : ℕ) (l : List ℕ) : List ℕ := l.insertIdx (l.idxOf n) m

def putAfter (n m : ℕ) (l : List ℕ) : List ℕ := l.insertIdx (l.idxOf n + 1) m

noncomputable def effect [BEq α] (v : Lists α ι) : ListAction α ι → Lists α ι
  | .construct this => (v.constructed this).answered .done
  | .copyConstruct this other fault => v.ofCopy (thrown fault (v.sequence other).length)
    (((v.constructed this).copyTo this (v.sequence other)).answered .done)
  | .moveConstruct this other => ((v.constructed this).moveTo this other).answered .done
  | .destroy this => { v.put this [] 0 with
      alive := Function.update v.alive this false
      answer := .done }
  | .copyAssign this other fault =>
    if this = other then v.answered .done
    else
      let nodes := v.sequence other
      ((v.put this [] 1).copyTo this (nodes.take (copies fault nodes.length))).answered
        ((thrown fault nodes.length).elim .done .threw)
  | .moveAssign this other =>
    if this = other then v.answered .done
    else ((v.put this [] 1).moveTo this other).answered .done
  | .makeNode value fault => v.ofCopy fault ((v.made value).answered (.node v.allocated))
  | .addFirst this value fault => v.ofCopy fault
    (((v.made value).put this (v.allocated :: v.sequence this) 1).answered (.node v.allocated))
  | .addFirstNode this node => v.ofNewNode node fun n =>
    (v.put this (n :: v.sequence this) 1).answered .done
  | .addLast this value fault => v.ofCopy fault
    (((v.made value).put this (v.sequence this ++ [v.allocated]) 1).answered (.node v.allocated))
  | .addLastNode this node => v.ofNewNode node fun n =>
    (v.put this (v.sequence this ++ [n]) 1).answered .done
  | .addBefore this node value fault => v.ofNode this node fun n => v.ofCopy fault
    (((v.made value).put this (putBefore n v.allocated (v.sequence this)) 1).answered
      (.node v.allocated))
  | .addBeforeNode this node newNode => v.ofNode this node fun n => v.ofNewNode newNode fun m =>
    (v.put this (putBefore n m (v.sequence this)) 1).answered .done
  | .addAfter this node value fault => v.ofNode this node fun n => v.ofCopy fault
    (((v.made value).put this (putAfter n v.allocated (v.sequence this)) 1).answered
      (.node v.allocated))
  | .addAfterNode this node newNode => v.ofNode this node fun n => v.ofNewNode newNode fun m =>
    (v.put this (putAfter n m (v.sequence this)) 1).answered .done
  | .removeFirst this => v.ofNonempty this
    ((v.put this (v.sequence this).tail 1).answered .done)
  | .removeLast this => v.ofNonempty this
    ((v.put this (v.sequence this).dropLast 1).answered .done)
  | .remove this value =>
    if (v.sequence this).any fun n => (v.item n).any (· == value) then
      (v.put this ((v.sequence this).eraseP fun n => (v.item n).any (· == value)) 1).answered
        (.found true)
    else v.answered (.found false)
  | .removeNode this node => v.ofNode this node fun n =>
    (v.put this ((v.sequence this).erase n) 1).answered .done
  | .clear this => (v.put this [] 1).answered .done

noncomputable def step [BEq α] (v : Lists α ι) (action : ListAction α ι) : Option (Lists α ι) :=
  if Callable v.alive v.allocated action then some (v.effect action) else none

def Countable (v : Lists α ι) : Prop := ∀ this, (v.sequence this).length ≤ intcsMax

end Effects

end Lists

/-- The heap holds these lists: from its head a list leads forward through its sequence, from its
tail back through it, and counts it; these are the nodes it owns, and the others have no links.
Every node has its value. -/
structure Holds (s : LinkedListHeap α ι) (v : Lists α ι) : Prop where
  forward : ∀ this, Visits s.next (s.list this).head_ (v.sequence this)
  backward : ∀ this, Visits s.prev (s.list this).tail_ (v.sequence this).reverse
  count : ∀ this, (s.list this).count_ = (v.sequence this).length
  owner : ∀ n this, s.owner n = some this ↔ n ∈ v.sequence this
  detached : ∀ n, s.owner n = none → s.next n = none ∧ s.prev n = none
  item : s.item = v.item
  allocated : s.allocated = v.allocated
  alive : s.alive = v.alive
  version : ∀ this, (s.list this).version_ = BitVec.ofNat 64 (v.changes this)

/-- What an enumerator is after calls of its members, whatever the heap was at each. -/
inductive Stems (α : Type) : LinkedListEnumerator ι → LinkedListEnumerator ι → Prop where
  | refl (e : LinkedListEnumerator ι) : Stems α e e
  | moveNext {e e' e'' : LinkedListEnumerator ι} {s : LinkedListHeap α ι} {b : Bool}
    (hstems : Stems α e e') (hmoved : e'.moveNext s = .ok (b, e'')) : Stems α e e''
  | reset {e e' e'' : LinkedListEnumerator ι} {s : LinkedListHeap α ι}
    (hstems : Stems α e e') (hreset : e'.reset s = .ok e'') : Stems α e e''

end SharpRuntime.Interface.ListHistory
