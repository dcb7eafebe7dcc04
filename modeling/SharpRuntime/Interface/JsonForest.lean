import SharpRuntime.Machine.OrderedForest
import SharpRuntime.Machine.Transitions
import SharpRuntime.Model.JsonNode

/-!
# The forest of `JsonNode`

The slots of the containers and the raw parent pointers, seen as a forest that is kept twice.  A
caller creates nodes, copies and drops handles, and calls the members of the containers.  Beside
this stand what a caller may rely on, the trees the source text of a JSON value defines, and the
calls whose cycle the shortcut of the guard does not see.
-/

set_option autoImplicit false

namespace SharpRuntime.Interface.JsonForest

open Machine Model

variable {ν : Type}

/-- The forest of a heap: the parent pointers, and what the slots refer to. -/
def view (h : JsonHeap ν) : Forest ℕ where
  parent n := (h.nodes n).bind fun x => x.parent_.map .below
  children
    | .aside => []
    | .below p => ((h.nodes p).map JsonNode.children).getD []

def Alive (h : JsonHeap ν) (n : ℕ) : Prop := (h.nodes n).isSome

instance (h : JsonHeap ν) (n : ℕ) : Decidable (Alive h n) :=
  inferInstanceAs (Decidable ((h.nodes n).isSome = true))

/-- The slots and the parent pointers agree, and no node is above itself; handles and slots refer to
nodes that are alive, and a node that is alive is held by a handle or by a slot. -/
structure Sound (h : JsonHeap ν) : Prop where
  consistent : (view h).Consistent
  handles_alive : ∀ n ∈ h.handles, Alive h n
  held : ∀ n, Alive h n → n ∈ h.handles ∨ ∃ p, (view h).IsParent p n

/-- What a caller may do with nodes. -/
inductive JsonCall (ν : Type) where
  | newValue (caseInsensitive : Bool) (value : ν)
  | newArray (caseInsensitive : Bool)
  | newObject (caseInsensitive : Bool)
  | copyHandle (n : ℕ)
  | dropHandle (n : ℕ)
  | arraySetItem (this : ℕ) (index : ℤ) (value : Option ℕ)
  | arrayAdd (this : ℕ) (item : Option ℕ)
  | arrayInsert (this : ℕ) (index : ℤ) (item : Option ℕ)
  | arrayRemoveAt (this : ℕ) (index : ℤ)
  | arrayRemove (this : ℕ) (item : Option ℕ)
  | arrayClear (this : ℕ)
  | objectAdd (this : ℕ) (propertyName : List UInt8) (value : Option ℕ)
  | objectRemove (this : ℕ) (propertyName : List UInt8)
  | objectSetItem (this : ℕ) (propertyName : List UInt8) (value : Option ℕ)
  | objectClear (this : ℕ)
  | deepClone (this : ℕ)
  | parse (caseInsensitive : Bool) (json : List UInt8)

def JsonCall.run (parse : List UInt8 → Except String (OrderedJson ν)) :
    JsonCall ν → JsonProgram ν Unit
  | newValue caseInsensitive value => do
    let _ ← JsonNode.make caseInsensitive (.value value)
  | newArray caseInsensitive => do
    let _ ← JsonNode.make caseInsensitive (.array [])
  | newObject caseInsensitive => do
    let _ ← JsonNode.make caseInsensitive (.object [])
  | copyHandle n => modify fun h => { h with handles := n :: h.handles }
  | dropHandle n => do
    modify fun h => { h with handles := h.handles.erase n }
    JsonNode.release [n]
  | arraySetItem this index value => JsonArray.setItem this index value
  | arrayAdd this item => JsonArray.add this item
  | arrayInsert this index item => JsonArray.insert this index item
  | arrayRemoveAt this index => JsonArray.removeAt this index
  | arrayRemove this item => do
    let _ ← JsonArray.remove this item
  | arrayClear this => JsonArray.clear this
  | objectAdd this propertyName value => JsonObject.add this propertyName value
  | objectRemove this propertyName => do
    let _ ← JsonObject.remove this propertyName
  | objectSetItem this propertyName value => JsonObject.setItem this propertyName value
  | objectClear this => JsonObject.clear this
  | deepClone this => do
    let _ ← JsonNode.deepClone this
  | .parse caseInsensitive json => do
    let _ ← JsonNode.parse parse caseInsensitive json

def itemsOf (h : JsonHeap ν) (n : ℕ) : Option (List (Option ℕ)) :=
  match (h.nodes n).map JsonNode.content with
  | some (.array items) => some items
  | _ => none

def propertiesOf (h : JsonHeap ν) (n : ℕ) : Option (List (List UInt8 × Option ℕ)) :=
  match (h.nodes n).map JsonNode.content with
  | some (.object properties) => some properties
  | _ => none

/-- A caller has pointers to nodes that are alive and of the kind of the member, and drops a handle
it has. -/
def Allowed (h : JsonHeap ν) : JsonCall ν → Prop
  | .newValue _ _ | .newArray _ | .newObject _ | .parse _ _ => True
  | .copyHandle n | .deepClone n => Alive h n
  | .dropHandle n => n ∈ h.handles
  | .arraySetItem this _ value => (itemsOf h this).isSome ∧ ∀ n ∈ value, Alive h n
  | .arrayAdd this item => (itemsOf h this).isSome ∧ ∀ n ∈ item, Alive h n
  | .arrayInsert this _ item => (itemsOf h this).isSome ∧ ∀ n ∈ item, Alive h n
  | .arrayRemoveAt this _ | .arrayRemove this _ | .arrayClear this => (itemsOf h this).isSome
  | .objectAdd this _ value => (propertiesOf h this).isSome ∧ ∀ n ∈ value, Alive h n
  | .objectSetItem this _ value => (propertiesOf h this).isSome ∧ ∀ n ∈ value, Alive h n
  | .objectRemove this _ | .objectClear this => (propertiesOf h this).isSome

instance (h : JsonHeap ν) (call : JsonCall ν) : Decidable (Allowed h call) := by
  cases call <;> unfold Allowed <;> infer_instance

/-- A call of the caller; what has been done before an exception stays done. -/
def step (parse : List UInt8 → Except String (OrderedJson ν)) (h : JsonHeap ν)
    (call : JsonCall ν) : Option (JsonHeap ν) :=
  if Allowed h call then some (after (call.run parse h)) else none

def wayUp (h : JsonHeap ν) : (fuel : ℕ) → (n : ℕ) → List ℕ
  | 0, _ => []
  | fuel + 1, n =>
    n :: match (h.nodes n).bind JsonNode.parent_ with
      | none => []
      | some p => wayUp h fuel p

/-- A node that has no parent and is above the container reports children. -/
def SeesCycle (h : JsonHeap ν) (value this : ℕ) : Prop :=
  ∀ x ∈ h.nodes value, x.parent_ = none → value ≠ this → value ∈ wayUp h h.next this →
    x.hasChildren = true

instance (h : JsonHeap ν) (value this : ℕ) : Decidable (SeesCycle h value this) := by
  unfold SeesCycle
  infer_instance

/-- The node a call assigns a parent, and the parent, if the call gets that far. -/
def attaching (h : JsonHeap ν) : JsonCall ν → Option (ℕ × ℕ)
  | .arraySetItem this index (some value) =>
    (itemsOf h this).bind fun items =>
      if 0 ≤ index ∧ index < toIntcs items.length then some (value, this) else none
  | .arrayAdd this (some item) => some (item, this)
  | .arrayInsert this index (some item) =>
    (itemsOf h this).bind fun items =>
      if 0 ≤ index ∧ index ≤ toIntcs items.length then some (item, this) else none
  | .objectAdd this propertyName (some value) =>
    (h.nodes this).bind fun x => (propertiesOf h this).bind fun properties =>
      if JsonObject.findIndex x.caseInsensitive properties propertyName < 0 then some (value, this)
      else none
  | .objectSetItem this propertyName (some value) =>
    (h.nodes this).bind fun x => (propertiesOf h this).bind fun properties =>
      let index := JsonObject.findIndex x.caseInsensitive properties propertyName
      if 0 ≤ index ∧ properties[index.toNat]?.bind Prod.snd = some value then none
      else some (value, this)
  | _ => none

/-- A call that would close a cycle gives away a node that reports children. -/
def Guarded (h : JsonHeap ν) (call : JsonCall ν) : Prop :=
  ∀ pair ∈ attaching h call, SeesCycle h pair.1 pair.2

instance (h : JsonHeap ν) (call : JsonCall ν) : Decidable (Guarded h call) := by
  unfold Guarded
  infer_instance

/-- The tree a JSON value defines, by recursion: a container is made, and each child is built and
then added. -/
def fromNlohmannRec (caseInsensitive : Bool) : OrderedJson ν → JsonProgram ν (Option ℕ)
  | .null => pure none
  | .scalar value => do
    let n ← JsonNode.make caseInsensitive (.value value)
    pure (some n)
  | j => do
    let n ← JsonNode.make caseInsensitive j.emptied
    JsonNode.fill j.isObject n (j.entries.attach.map fun entry =>
      (entry.val.1, fromNlohmannRec caseInsensitive entry.val.2))
    pure (some n)
termination_by j => sizeOf j
decreasing_by exact OrderedJson.sizeOf_lt_of_mem entry.property

def Thrown (e : JsonNodeFault) : Prop := e ≠ .undefined ∧ e ≠ .diverged

/-- What a caller relies on between two calls. -/
structure Reliable (parse : List UInt8 → Except String (OrderedJson ν)) (h : JsonHeap ν) :
    Prop where
  sound : Sound h
  /-- The way up from a node ends at the root of its tree. -/
  root : ∀ n, Alive h n → ∃ r, JsonNode.getRootProperty n h = .ok r h ∧
    (view h).IsAbove r n ∧ ∀ p, ¬(view h).IsParent p r
  /-- A call that throws changes nothing. -/
  unchanged : ∀ call e h', Allowed h call → Guarded h call → call.run parse h = .error e h' →
    Thrown e ∧ h'.nodes = h.nodes ∧ h'.handles = h.handles
  /-- A node is refused exactly if it has a parent or is above the container. -/
  refused : ∀ n p x, h.nodes n = some x → Alive h p → SeesCycle h n p →
    ((∃ e, Thrown e ∧ JsonNode.assignParent n p h = .error e h) ↔
        x.parent_.isSome ∨ (view h).IsAbove n p) ∧
      ∀ e h', JsonNode.assignParent n p h = .error e h' → Thrown e ∧ h' = h
  built : ∀ caseInsensitive (j : OrderedJson ν),
    JsonNode.fromNlohmann caseInsensitive j = fromNlohmannRec caseInsensitive j

end SharpRuntime.Interface.JsonForest
