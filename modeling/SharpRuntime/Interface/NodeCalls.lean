import SharpRuntime.Model.XmlNode

/-!
# Changes of lists of children

The operations of a node on its list of children, and the change each of them states: where the
new child stands afterwards, and that nothing else is moved.  A fragment that is given as the new
child stands for its children.
-/

set_option autoImplicit false

namespace SharpRuntime.Interface.NodeCalls

open Machine Model

variable {ι : Type} [DecidableEq ι]

/-- An operation of a node, given nodes; the reference may be `nullptr`. -/
inductive NodeCall (ι : Type) where
  | prependChild (newChild : ι)
  | appendChild (newChild : ι)
  | insertBefore (newChild : ι) (refChild : Option ι)
  | insertAfter (newChild : ι) (refChild : Option ι)
  | removeChild (oldChild : ι)
  | replaceChild (newChild oldChild : ι)

def NodeCall.run [Fintype ι] (handlers : NodeHandlers ι) (isFragment : ι → Bool) (this : ι) :
    NodeCall ι → NodeProgram ι (Option ι)
  | prependChild newChild => XmlNode.prependChild handlers isFragment this (some newChild)
  | appendChild newChild => XmlNode.appendChild handlers isFragment this (some newChild)
  | insertBefore newChild refChild =>
    XmlNode.insertBefore handlers isFragment this (some newChild) refChild
  | insertAfter newChild refChild =>
    XmlNode.insertAfter handlers isFragment this (some newChild) refChild
  | removeChild oldChild => XmlNode.removeChild handlers this (some oldChild)
  | replaceChild newChild oldChild =>
    XmlNode.replaceChild handlers isFragment this (some newChild) (some oldChild)

/-- No handler throws or changes the tree. -/
structure Silent (handlers : NodeHandlers ι) : Prop where
  changing : ∀ change f, handlers.raiseNodeChanging change f = .ok () f
  changed : ∀ change f, handlers.raiseNodeChanged change f = .ok () f

/-- Where the new child is put. -/
inductive Position (ι : Type) where
  | first
  | last
  | before (ref : ι)
  | after (ref : ι)
  | insteadOf (old : ι)

def without (items xs : List ι) : List ι := xs.filter fun x => decide (x ∉ items)

/-- The list with the items put at the position, and nowhere else.  Items that are put beside one
of themselves, or in the place of one of themselves, stay where they are. -/
def arranged (items xs : List ι) : Position ι → List ι
  | .first => items ++ without items xs
  | .last => without items xs ++ items
  | .before ref =>
    if ref ∈ items then xs
    else (without items xs).flatMap fun x => if x = ref then items ++ [x] else [x]
  | .after ref =>
    if ref ∈ items then xs
    else (without items xs).flatMap fun x => if x = ref then x :: items else [x]
  | .insteadOf old =>
    if old ∈ items then xs
    else (without items xs).flatMap fun x => if x = old then items else [x]

/-- What a new child stands for: itself, or the children of a fragment. -/
def itemsOf (isFragment : ι → Bool) (f : Forest ι) (newChild : ι) : List ι :=
  if isFragment newChild then f.children (.below newChild) else [newChild]

/-- The lists of children after the new child has been put at a position below `this`. -/
def placed (isFragment : ι → Bool) (f : Forest ι) (this newChild : ι) (position : Position ι)
    (n : ι) : List ι :=
  if n = this then arranged (itemsOf isFragment f newChild) (f.children (.below this)) position
  else without (itemsOf isFragment f newChild) (f.children (.below n))

def stated (isFragment : ι → Bool) (f : Forest ι) (this : ι) : NodeCall ι → ι → List ι
  | .prependChild newChild => placed isFragment f this newChild .first
  | .appendChild newChild => placed isFragment f this newChild .last
  | .insertBefore newChild none => placed isFragment f this newChild .last
  | .insertBefore newChild (some refChild) => placed isFragment f this newChild (.before refChild)
  | .insertAfter newChild none => placed isFragment f this newChild .first
  | .insertAfter newChild (some refChild) => placed isFragment f this newChild (.after refChild)
  | .replaceChild newChild oldChild => placed isFragment f this newChild (.insteadOf oldChild)
  | .removeChild oldChild => fun n =>
    if n = this then without [oldChild] (f.children (.below n)) else f.children (.below n)

/-- An operation makes the change it states, or throws and leaves every list as it is. -/
def MakesStatedChange [Fintype ι] (handlers : NodeHandlers ι) (isFragment : ι → Bool)
    (f : Forest ι) (this : ι) (call : NodeCall ι) : Prop :=
  match call.run handlers isFragment this f with
  | .ok _ f' => ∀ n, f'.children (.below n) = stated isFragment f this call n
  | .error e f' => e ≠ .diverged ∧ ∀ n, f'.children (.below n) = f.children (.below n)

/-- The checks of an operation that is given a node of the list. -/
def Refused (f : Forest ι) (this newChild listed : ι) : Prop :=
  f.IsAbove newChild this ∨ f.parent listed ≠ some (.below this)

/-- A fragment is not put beside a reference or in the place of a child, and a child does not
replace itself, unless the checks refuse the call. -/
def KeepsToItsWord (isFragment : ι → Bool) (f : Forest ι) (this : ι) : NodeCall ι → Prop
  | .insertBefore newChild (some refChild) =>
    isFragment newChild = true → Refused f this newChild refChild
  | .insertAfter newChild (some refChild) =>
    isFragment newChild = true → Refused f this newChild refChild
  | .replaceChild newChild oldChild =>
    isFragment newChild = true ∨ newChild = oldChild → Refused f this newChild oldChild
  | _ => True

/-- The forest of a document: it is consistent, and a fragment is nobody's child. -/
structure DocumentForest (isFragment : ι → Bool) (f : Forest ι) : Prop where
  consistent : f.Consistent
  fragment_root : ∀ n, isFragment n = true → f.parent n = none

end SharpRuntime.Interface.NodeCalls
