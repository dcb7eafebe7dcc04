import SharpRuntime.Machine.Effects
import SharpRuntime.Machine.OrderedForest
import SharpRuntime.Model.Exception

/-!
# The children of an `XmlNode`

The members of `modules/xml/src/System/Xml/XmlNode.cpp` that change lists of children, under the
source's names; bare line numbers are of this file.  `ι` is the type of the nodes of one document,
so that the check of the documents passes; detached nodes are held aside.  The primitives of the
vendored `tinyxml2` move a node to a position of a list.  The handlers of the events that a change
raises are the caller's: any programs.
-/

set_option autoImplicit false

namespace SharpRuntime.Model

open Machine

/-- How a member ends other than by returning. -/
inductive XmlNodeFault where
  | runtime (e : Exception)
  /-- No exception of the source: the bound on the rounds of a loop was too small. -/
  | diverged
deriving DecidableEq

/-- A member that may change the tree. -/
abbrev NodeProgram (ι α : Type) : Type := Program XmlNodeFault (Forest ι) α

/-- The kinds of a change of the tree.
SOURCE: XmlNodeChangedAction.hpp -/
inductive XmlNodeChangedAction where
  | insert
  | remove
deriving DecidableEq

/-- What a handler is told of a change. -/
structure NodeChange (ι : Type) where
  node : ι
  oldParent : Option ι
  newParent : Option ι
  action : XmlNodeChangedAction

/-- What the handlers of a document do, before a change and after it.
SOURCE: XmlNodeChangeEvents.cpp:44-54 -/
structure NodeHandlers (ι : Type) where
  raiseNodeChanging : NodeChange ι → NodeProgram ι Unit
  raiseNodeChanged : NodeChange ι → NodeProgram ι Unit

namespace XmlNode

variable {ι : Type} [DecidableEq ι]

/-- SOURCE: tinyxml2.cpp:931-958 -/
def insertEndChild (this addThis : ι) : NodeProgram ι Unit :=
  modify fun f => f.move addThis (.below this) (· ++ [addThis])

/-- SOURCE: tinyxml2.cpp:961-989 -/
def insertFirstChild (this addThis : ι) : NodeProgram ι Unit :=
  modify fun f => f.move addThis (.below this) (addThis :: ·)

/-- SOURCE: tinyxml2.cpp:992-1025 -/
def insertAfterChild (this afterThis addThis : ι) : NodeProgram ι Unit := do
  if (← get).parent afterThis ≠ some (.below this) then pure ()
  else if afterThis = addThis then pure ()
  else modify fun f => f.move addThis (.below this) (Forest.putAfter afterThis addThis)

/-- SOURCE: XmlDocument.cpp:329-332 -/
def detachNode (native : ι) : NodeProgram ι Unit :=
  modify fun f => f.move native .aside (· ++ [native])

/-- SOURCE: 253-256 -/
def getFirstChildProperty (f : Forest ι) (this : ι) : Option ι :=
  (f.children (.below this)).head?

/-- SOURCE: 258-261 -/
def getLastChildProperty (f : Forest ι) (this : ι) : Option ι :=
  (f.children (.below this)).getLast?

/-- SOURCE: 263-266 -/
def getPreviousSiblingProperty (f : Forest ι) (this : ι) : Option ι :=
  (f.parent this).bind fun place => Forest.previousIn this (f.children place)

/-- SOURCE: 268-271 -/
def getNextSiblingProperty (f : Forest ι) (this : ι) : Option ι :=
  (f.parent this).bind fun place => Forest.nextIn this (f.children place)

/-- The holder of the detached nodes is nobody's parent.
SOURCE: 246-252 -/
def getParentNodeProperty (f : Forest ι) (this : ι) : Option ι :=
  match f.parent this with
  | some (.below p) => some p
  | _ => none

/-- A change between the events that report it.
SOURCE: 298-302, 394-398 -/
def reported (handlers : NodeHandlers ι) (change : NodeChange ι) (p : NodeProgram ι Unit) :
    NodeProgram ι Unit := do
  handlers.raiseNodeChanging change
  p
  handlers.raiseNodeChanged change

/-- The insertion of a node that is no fragment.
SOURCE: 308-315, 339-346, 357-365, 375-382 -/
def insertReported (handlers : NodeHandlers ι) (this newChild : ι) (p : NodeProgram ι Unit) :
    NodeProgram ι (Option ι) := do
  let oldParent := getParentNodeProperty (← get) newChild
  reported handlers ⟨newChild, oldParent, some this, .insert⟩ p
  pure (some newChild)

/-- The exception of the check of the ancestors.
SOURCE: 42 -/
def ancestorInserted : XmlNodeFault :=
  .runtime (.argument
    "Cannot insert a node or any ancestor of that node as a child of itself." "")

/-- The loop of the check of the ancestors: from `n` up.  The holder has no parent, and is no
candidate.
SOURCE: 39-44 -/
def throwIfReached (candidate : ι) : (fuel : ℕ) → (n : ι) → NodeProgram ι Unit
  | 0, _ => throw .diverged
  | fuel + 1, n =>
    if n = candidate then throw ancestorInserted
    else do
      match (← get).parent n with
      | some (.below p) => throwIfReached candidate fuel p
      | _ => pure ()

/-- SOURCE: 73-78 -/
def throwIfNotChildOf (this candidate : ι) (message : String) : NodeProgram ι Unit := do
  if (← get).parent candidate ≠ some (.below this) then
    throw (.runtime (.argument message ""))

variable [Fintype ι]

/-- The way up from a node is no longer than the number of nodes.
SOURCE: 39-44 -/
def throwIfSelfOrAncestor (this candidate : ι) : NodeProgram ι Unit :=
  throwIfReached candidate (Fintype.card ι) this

variable (handlers : NodeHandlers ι)

/-- SOURCE: 385-400 -/
def removeChild (this : ι) : Option ι → NodeProgram ι (Option ι)
  | none => pure none
  | some oldChild => do
    throwIfNotChildOf this oldChild "The node to be removed is not a child of this node."
    reported handlers ⟨oldChild, some this, none, .remove⟩ (detachNode oldChild)
    pure (some oldChild)

/-- The loop that moves the children of a fragment, the last one first.
SOURCE: 291-306 -/
def prependChildren (this frag : ι) :
    (fuel : ℕ) → (child firstInserted : Option ι) → NodeProgram ι (Option ι)
  | _, none, firstInserted => pure firstInserted
  | 0, some _, _ => throw .diverged
  | fuel + 1, some child, _ => do
    let prev := getPreviousSiblingProperty (← get) child
    throwIfSelfOrAncestor this child
    let _ ← removeChild handlers frag (some child)
    reported handlers ⟨child, some frag, some this, .insert⟩ (insertFirstChild this child)
    prependChildren this frag fuel prev (some child)

/-- The loop that moves the children of a fragment, the first one first.
SOURCE: 322-337 -/
def appendChildren (this frag : ι) :
    (fuel : ℕ) → (child lastInserted : Option ι) → NodeProgram ι (Option ι)
  | _, none, lastInserted => pure lastInserted
  | 0, some _, _ => throw .diverged
  | fuel + 1, some child, _ => do
    let next := getNextSiblingProperty (← get) child
    throwIfSelfOrAncestor this child
    let _ ← removeChild handlers frag (some child)
    reported handlers ⟨child, some frag, some this, .insert⟩ (insertEndChild this child)
    appendChildren this frag fuel next (some child)

variable (isFragment : ι → Bool)

/-- SOURCE: 287-316 -/
def prependChild (this : ι) : Option ι → NodeProgram ι (Option ι)
  | none => pure none
  | some newChild => do
    throwIfSelfOrAncestor this newChild
    if isFragment newChild then
      prependChildren handlers this newChild (Fintype.card ι)
        (getLastChildProperty (← get) newChild) none
    else insertReported handlers this newChild (insertFirstChild this newChild)

/-- SOURCE: 318-347 -/
def appendChild (this : ι) : Option ι → NodeProgram ι (Option ι)
  | none => pure none
  | some newChild => do
    throwIfSelfOrAncestor this newChild
    if isFragment newChild then
      appendChildren handlers this newChild (Fintype.card ι)
        (getFirstChildProperty (← get) newChild) none
    else insertReported handlers this newChild (insertEndChild this newChild)

/-- SOURCE: 349-366 -/
def insertBefore (this : ι) (newChild refChild : Option ι) : NodeProgram ι (Option ι) :=
  match refChild, newChild with
  | none, newChild => appendChild handlers isFragment this newChild
  | some _, none => pure none
  | some refChild, some newChild => do
    throwIfSelfOrAncestor this newChild
    throwIfNotChildOf this refChild "The reference node is not a child of this node."
    let prevSibling := getPreviousSiblingProperty (← get) refChild
    insertReported handlers this newChild (match prevSibling with
      | none => insertFirstChild this newChild
      | some prevSibling => insertAfterChild this prevSibling newChild)

/-- SOURCE: 368-383 -/
def insertAfter (this : ι) (newChild refChild : Option ι) : NodeProgram ι (Option ι) :=
  match refChild, newChild with
  | none, newChild => prependChild handlers isFragment this newChild
  | some _, none => pure none
  | some refChild, some newChild => do
    throwIfSelfOrAncestor this newChild
    throwIfNotChildOf this refChild "The reference node is not a child of this node."
    insertReported handlers this newChild (insertAfterChild this refChild newChild)

/-- SOURCE: 405-412 -/
def replaceChild (this : ι) (newChild oldChild : Option ι) : NodeProgram ι (Option ι) := do
  match oldChild with
  | none => pure ()
  | some oldChild =>
    throwIfNotChildOf this oldChild "The node to be replaced is not a child of this node."
  let _ ← insertBefore handlers isFragment this newChild oldChild
  let _ ← removeChild handlers this oldChild
  pure oldChild

end XmlNode

end SharpRuntime.Model
