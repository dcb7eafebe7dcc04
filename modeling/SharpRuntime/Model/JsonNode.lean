import SharpRuntime.Machine.Effects
import SharpRuntime.Model.Exception

/-!
# `JsonNode`

`modules/text-json/include/System/Text/Json/Nodes` and its `JsonNode.cpp`, under the source's names;
bare line numbers are of the file named last.  `ν` is the type of the scalars of the vendored
`nlohmann::ordered_json`.  A node is an object of the heap; a `shared_ptr` is a handle, of a caller
or of a call, or a slot of a container; a node nobody holds is destroyed.  Allocation succeeds.  Of
the options of a node only what the members read is kept, and the counters of the enumerators are
left out.
-/

set_option autoImplicit false

namespace SharpRuntime.Model

open Machine

/-- How a member ends other than by returning. -/
inductive JsonNodeFault where
  | runtime (e : Exception)
  | json (message : String)
  /-- No exception of the source: a pointer is followed that does not lead to a node of its kind. -/
  | undefined
  /-- No exception of the source: the bound on the rounds of a loop was too small. -/
  | diverged
deriving DecidableEq

/-- A value of the vendored parser.  The names of an object are in the order of the text. -/
inductive OrderedJson (ν : Type) where
  | null
  | scalar (value : ν)
  | array (items : List (OrderedJson ν))
  | object (members : List (List UInt8 × OrderedJson ν))

/-- What a node is, with the fields of its class.  A null in a slot is `nullptr`.
SOURCE: JsonArray.hpp:23; JsonObject.hpp:32; JsonValue.hpp:32 -/
inductive JsonContent (ν : Type) where
  | value (value_ : ν)
  | array (items_ : List (Option ℕ))
  | object (properties_ : List (List UInt8 × Option ℕ))

/-- The slots of a container. -/
def JsonContent.slots {ν : Type} : JsonContent ν → List (Option ℕ)
  | value _ => []
  | array items => items
  | object properties => properties.map Prod.snd

/-- SOURCE: JsonNode.hpp:30-31 -/
structure JsonNode (ν : Type) where
  parent_ : Option ℕ
  /-- `options_.PropertyNameCaseInsensitive` -/
  caseInsensitive : Bool
  content : JsonContent ν

/-- The nodes the slots of a node refer to. -/
def JsonNode.children {ν : Type} (x : JsonNode ν) : List ℕ := x.content.slots.filterMap id

/-- The nodes that are alive, and the handles. -/
structure JsonHeap (ν : Type) where
  nodes : ℕ → Option (JsonNode ν)
  /-- The identity of the next node. -/
  next : ℕ
  handles : List ℕ
  nodes_eq_none : ∀ n, next ≤ n → nodes n = none

/-- A member that may change the heap. -/
abbrev JsonProgram (ν α : Type) : Type := Program JsonNodeFault (JsonHeap ν) α

namespace JsonHeap

variable {ν : Type}

def empty : JsonHeap ν where
  nodes _ := none
  next := 0
  handles := []
  nodes_eq_none _ _ := rfl

/-- A new node, with a handle. -/
def alloc (x : JsonNode ν) (h : JsonHeap ν) : JsonHeap ν where
  nodes := Function.update h.nodes h.next (some x)
  next := h.next + 1
  handles := h.next :: h.handles
  nodes_eq_none n hn := by
    rw [Function.update_of_ne (by omega)]
    exact h.nodes_eq_none n (by omega)

/-- A node that is alive changes. -/
def modifyNode (n : ℕ) (g : JsonNode ν → JsonNode ν) (h : JsonHeap ν) : JsonHeap ν where
  nodes := Function.update h.nodes n ((h.nodes n).map g)
  next := h.next
  handles := h.handles
  nodes_eq_none m hm := by
    by_cases hmn : m = n
    · subst hmn
      rw [Function.update_self, h.nodes_eq_none m hm]
      rfl
    · rw [Function.update_of_ne hmn]
      exact h.nodes_eq_none m hm

/-- A handle or a slot refers to the node. -/
def isReferenced (n : ℕ) (h : JsonHeap ν) : Bool :=
  decide (n ∈ h.handles) ||
    (List.range h.next).any fun p => (h.nodes p).any fun x => decide (n ∈ x.children)

/-- The destructor of a node, up to the release of its children: those that name it as their parent
are detached.
SOURCE: JsonNode.cpp:113-114, 128-129 -/
def destroy (n : ℕ) (x : JsonNode ν) (h : JsonHeap ν) : JsonHeap ν where
  nodes m :=
    if m = n then none
    else (h.nodes m).map fun y =>
      if m ∈ x.children ∧ y.parent_ = some n then { y with parent_ := none } else y
  next := h.next
  handles := h.handles
  nodes_eq_none m hm := by
    rw [h.nodes_eq_none m hm]
    split <;> rfl

/-- The nodes that are alive. -/
def live (h : JsonHeap ν) : Finset ℕ := (Finset.range h.next).filter fun n => (h.nodes n).isSome

variable {h : JsonHeap ν} {n : ℕ}

theorem mem_live : n ∈ h.live ↔ (h.nodes n).isSome := by
  rw [live, Finset.mem_filter, Finset.mem_range]
  refine and_iff_right_of_imp fun hsome => ?_
  by_contra hle
  rw [h.nodes_eq_none n (by omega)] at hsome
  cases hsome

theorem card_live_destroy_lt {x : JsonNode ν}
    (hn : (h.nodes n).isSome) : (h.destroy n x).live.card < h.live.card := by
  refine Finset.card_lt_card ((Finset.ssubset_iff_of_subset fun m hm => ?_).mpr ⟨n, ?_, ?_⟩)
  · rw [mem_live] at hm ⊢
    change (if m = n then none else _ : Option (JsonNode ν)).isSome at hm
    split at hm
    · cases hm
    · rwa [Option.isSome_map] at hm
  · rwa [mem_live]
  · rw [mem_live]
    change ¬(if n = n then none else _ : Option (JsonNode ν)).isSome
    rw [if_pos rfl]
    exact Bool.false_ne_true

/-- The references of the worklist are released, the last one first; here it stands at the front.
A node that has no other reference is destroyed, and its children are put on the worklist.
SOURCE: 76-108, 116-125, 131-140 -/
def drain (h : JsonHeap ν) : List ℕ → Option (JsonHeap ν)
  | [] => some h
  | n :: worklist =>
    if h.isReferenced n || decide (n ∈ worklist) then drain h worklist
    else if hn : (h.nodes n).isSome then
      drain (h.destroy n ((h.nodes n).get hn)) (((h.nodes n).get hn).children ++ worklist)
    else none
termination_by worklist => (h.live.card, worklist.length)
decreasing_by
  · exact Prod.Lex.right _ (Nat.lt_succ_self _)
  · exact Prod.Lex.left _ _ (card_live_destroy_lt hn)

end JsonHeap

namespace JsonNode

variable {ν : Type}

/-- A pointer to a node is followed. -/
def deref (n : ℕ) : JsonProgram ν (JsonNode ν) := do
  match (← get).nodes n with
  | some x => pure x
  | none => throw .undefined

/-- References are dropped that are not moved elsewhere. -/
def release (worklist : List ℕ) : JsonProgram ν Unit := fun h =>
  match h.drain worklist with
  | some h' => .ok ⟨⟩ h'
  | none => .error .undefined h

/-- `std::make_shared` -/
def make (caseInsensitive : Bool) (content : JsonContent ν) : JsonProgram ν ℕ := do
  let n := (← get).next
  modify (JsonHeap.alloc ⟨none, caseInsensitive, content⟩)
  pure n

/-- A call that holds references itself releases them when it throws. -/
def guarded {α : Type} (p : JsonProgram ν α) : JsonProgram ν α := fun h =>
  match p h with
  | .ok a h' => .ok a h'
  | .error e h' =>
    match JsonHeap.drain { h' with handles := h.handles }
        (h'.handles.take (h'.handles.length - h.handles.length)) with
    | some h'' => .error e h''
    | none => .error .undefined h'

/-- SOURCE: JsonNode.hpp:74-78 -/
def rootFrom : (fuel : ℕ) → (n : ℕ) → JsonProgram ν ℕ
  | 0, _ => throw .diverged
  | fuel + 1, n => do
    match (← deref n).parent_ with
    | none => pure n
    | some p => rootFrom fuel p

/-- The way up from a node is no longer than the number of nodes there have been. -/
def getRootProperty (this : ℕ) : JsonProgram ν ℕ := do
  rootFrom (← get).next this

/-- SOURCE: JsonArray.hpp:60; JsonObject.hpp:84 -/
def getCountProperty (x : JsonNode ν) : ℤ := toIntcs x.content.slots.length

/-- SOURCE: JsonNode.cpp:150-156 -/
def hasChildren (x : JsonNode ν) : Bool :=
  match x.content with
  | .value _ => false
  | _ => decide (0 < x.getCountProperty)

/-- SOURCE: JsonNode.hpp:110 -/
def detachParent (this : ℕ) : JsonProgram ν Unit := do
  let _ ← deref this
  modify (JsonHeap.modifyNode this fun x => { x with parent_ := none })

/-- SOURCE: JsonNode.cpp:188, 192 -/
def cycleDetected : JsonNodeFault := .runtime (.invalidOperation "A node cycle was detected.")

/-- SOURCE: 190-193 -/
def refuseCycle (this : ℕ) : (fuel : ℕ) → (p : Option ℕ) → JsonProgram ν Unit
  | _, none => pure ()
  | 0, some _ => throw .diverged
  | fuel + 1, some p =>
    if p = this then throw cycleDetected
    else do refuseCycle this fuel (← deref p).parent_

/-- SOURCE: 158-196 -/
def assignParent (this parent : ℕ) : JsonProgram ν Unit := do
  let x ← deref this
  if x.parent_.isSome then throw (.runtime (.invalidOperation "The node already has a parent."))
  else if parent = this then throw cycleDetected
  else do
    if x.hasChildren then refuseCycle this (← get).next (some parent)
    modify (JsonHeap.modifyNode this fun x => { x with parent_ := some parent })

/-- `if (value) value->AssignParent(this)` -/
def adopt (this : ℕ) : Option ℕ → JsonProgram ν Unit
  | none => pure ()
  | some value => assignParent value this

/-- `if (value) value->DetachParent()` -/
def detach : Option ℕ → JsonProgram ν Unit
  | none => pure ()
  | some value => detachParent value

/-- The loop of the two `clear`. -/
def detachAll : List (Option ℕ) → JsonProgram ν Unit
  | [] => pure ()
  | slot :: slots => do
    detach slot
    detachAll slots

end JsonNode

open JsonNode

namespace JsonArray

variable {ν : Type}

/-- The items of an array. -/
def items_ (this : ℕ) : JsonProgram ν (List (Option ℕ)) := do
  match (← deref this).content with
  | .array items => pure items
  | _ => throw .undefined

/-- The items of an array are replaced. -/
def setItems (this : ℕ) (items : List (Option ℕ)) : JsonProgram ν Unit :=
  modify (JsonHeap.modifyNode this fun x => { x with content := .array items })

/-- The check of an index.
SOURCE: JsonArray.hpp:71-72, 88-89, 97-98 -/
def requireBelow (index bound : ℤ) : JsonProgram ν Unit :=
  if index < 0 ∨ bound ≤ index then throw (.runtime (.outOfRange "index")) else pure ()

/-- SOURCE: 70-77 -/
def setItem (this : ℕ) (index : ℤ) (value : Option ℕ) : JsonProgram ν Unit := do
  let items ← items_ this
  requireBelow index (toIntcs items.length)
  adopt this value
  let old := items[index.toNat]?.join
  detach old
  setItems this (items.set index.toNat value)
  release old.toList

/-- SOURCE: 80-84 -/
def add (this : ℕ) (item : Option ℕ) : JsonProgram ν Unit := do
  let items ← items_ this
  adopt this item
  setItems this (items ++ [item])

/-- SOURCE: 87-93 -/
def insert (this : ℕ) (index : ℤ) (item : Option ℕ) : JsonProgram ν Unit := do
  let items ← items_ this
  requireBelow index (toIntcs items.length + 1)
  adopt this item
  setItems this (items.insertIdx index.toNat item)

/-- SOURCE: 96-102 -/
def removeAt (this : ℕ) (index : ℤ) : JsonProgram ν Unit := do
  let items ← items_ this
  requireBelow index (toIntcs items.length)
  let old := items[index.toNat]?.join
  detach old
  setItems this (items.eraseIdx index.toNat)
  release old.toList

/-- SOURCE: 124-128 -/
def indexOf (items : List (Option ℕ)) (item : Option ℕ) : ℤ :=
  match items.findIdx? (· == item) with
  | some i => toIntcs i
  | none => -1

/-- SOURCE: 109-114 -/
def remove (this : ℕ) (item : Option ℕ) : JsonProgram ν Bool := do
  let index := indexOf (← items_ this) item
  if index < 0 then pure false
  else do
    removeAt this index
    pure true

/-- SOURCE: 117-121 -/
def clear (this : ℕ) : JsonProgram ν Unit := do
  let items ← items_ this
  detachAll items
  setItems this []
  release (items.filterMap id)

end JsonArray

namespace JsonObject

variable {ν : Type}

/-- The properties of an object. -/
def properties_ (this : ℕ) : JsonProgram ν (List (List UInt8 × Option ℕ)) := do
  match (← deref this).content with
  | .object properties => pure properties
  | _ => throw .undefined

/-- The properties of an object are replaced. -/
def setProperties (this : ℕ) (properties : List (List UInt8 × Option ℕ)) : JsonProgram ν Unit :=
  modify (JsonHeap.modifyNode this fun x => { x with content := .object properties })

/-- SOURCE: String.cpp:588-593 -/
def toLower (value : List UInt8) : List UInt8 :=
  value.map fun c => if 0x41 ≤ c ∧ c ≤ 0x5A then c + 0x20 else c

/-- SOURCE: 736-740, 1062-1064 -/
def namesEqual (caseInsensitive : Bool) (a b : List UInt8) : Bool :=
  if caseInsensitive then toLower a == toLower b else a == b

/-- SOURCE: JsonObject.hpp:44-53 -/
def findIndex (caseInsensitive : Bool) (properties : List (List UInt8 × Option ℕ))
    (propertyName : List UInt8) : ℤ :=
  match properties.findIdx? fun entry => namesEqual caseInsensitive entry.1 propertyName with
  | some i => toIntcs i
  | none => -1

/-- SOURCE: 98-104 -/
def add (this : ℕ) (propertyName : List UInt8) (value : Option ℕ) : JsonProgram ν Unit := do
  let properties ← properties_ this
  let x ← deref this
  if 0 ≤ findIndex x.caseInsensitive properties propertyName then
    throw (.runtime
      (.argument "An item with the same key has already been added." "propertyName"))
  else do
    adopt this value
    setProperties this (properties ++ [(propertyName, value)])

/-- SOURCE: 107-114 -/
def remove (this : ℕ) (propertyName : List UInt8) : JsonProgram ν Bool := do
  let properties ← properties_ this
  let x ← deref this
  let index := findIndex x.caseInsensitive properties propertyName
  if index < 0 then pure false
  else do
    let old := properties[index.toNat]?.bind Prod.snd
    detach old
    setProperties this (properties.eraseIdx index.toNat)
    release old.toList
    pure true

/-- SOURCE: 139-152 -/
def setItem (this : ℕ) (propertyName : List UInt8) (value : Option ℕ) : JsonProgram ν Unit := do
  let properties ← properties_ this
  let x ← deref this
  let index := findIndex x.caseInsensitive properties propertyName
  match if 0 ≤ index then properties[index.toNat]? else none with
  | some (name, slot) =>
    if slot = value then pure ()
    else do
      adopt this value
      detach slot
      setProperties this (properties.set index.toNat (name, value))
      release slot.toList
  | none => do
    adopt this value
    setProperties this (properties ++ [(propertyName, value)])

/-- SOURCE: 155-159 -/
def clear (this : ℕ) : JsonProgram ν Unit := do
  let properties ← properties_ this
  detachAll (properties.map Prod.snd)
  setProperties this []
  release (properties.filterMap Prod.snd)

end JsonObject

namespace OrderedJson

variable {ν : Type}

def isObject : OrderedJson ν → Bool
  | object _ => true
  | _ => false

/-- What the iterators of a container run over; a key is empty unless the container is an object. -/
def entries : OrderedJson ν → List (List UInt8 × OrderedJson ν)
  | array items => items.map fun j => ([], j)
  | object members => members
  | _ => []

/-- A measure of what is left to build. -/
noncomputable def weight (entries : List (List UInt8 × OrderedJson ν)) : ℕ :=
  (entries.map fun entry => sizeOf entry.2 + 1).sum

theorem weight_cons (key : List UInt8) (child : OrderedJson ν)
    (next : List (List UInt8 × OrderedJson ν)) :
    weight ((key, child) :: next) = sizeOf child + 1 + weight next := by
  rw [weight, List.map_cons, List.sum_cons]
  rfl

theorem weight_entries_lt (j : OrderedJson ν) : weight j.entries < sizeOf j := by
  cases j with
  | null => exact Nat.lt_of_lt_of_eq Nat.zero_lt_one rfl
  | scalar v =>
    rw [scalar.sizeOf_spec]
    exact Nat.lt_of_lt_of_le Nat.zero_lt_one (Nat.le_add_right 1 _)
  | array items =>
    rw [array.sizeOf_spec, entries]
    induction items with
    | nil => exact Nat.lt_of_lt_of_le Nat.zero_lt_one (Nat.le_add_right 1 _)
    | cons j items ih =>
      rw [List.map_cons, weight_cons, List.cons.sizeOf_spec]
      omega
  | object members =>
    rw [object.sizeOf_spec, entries]
    induction members with
    | nil => exact Nat.lt_of_lt_of_le Nat.zero_lt_one (Nat.le_add_right 1 _)
    | cons entry members ih =>
      obtain ⟨key, j⟩ := entry
      rw [weight_cons, List.cons.sizeOf_spec, Prod.mk.sizeOf_spec]
      omega

theorem sizeOf_lt_of_mem {j : OrderedJson ν} {entry : List UInt8 × OrderedJson ν}
    (hmem : entry ∈ j.entries) : sizeOf entry.2 < sizeOf j := by
  have hle : ∀ (entries : List (List UInt8 × OrderedJson ν)), entry ∈ entries →
      sizeOf entry.2 + 1 ≤ weight entries := fun entries h =>
    List.single_le_sum (fun _ _ => Nat.zero_le _) _ (List.mem_map_of_mem h)
  have hsum := hle j.entries hmem
  have hlt := weight_entries_lt j
  omega

/-- The empty container of a source container. -/
def emptied (j : OrderedJson ν) : JsonContent ν := if j.isObject then .object [] else .array []

end OrderedJson

namespace JsonNode

variable {ν : Type}

/-- A reference the call holds is moved into the slot that the container has appended. -/
def append (isObject : Bool) (node : ℕ) (key : List UInt8) (child : Option ℕ) :
    JsonProgram ν Unit := do
  if isObject then JsonObject.add node key child else JsonArray.add node child
  modify fun h => { h with handles := h.handles.diff child.toList }

/-- SOURCE: JsonNode.cpp:246-252 -/
structure BuildFrame (ν : Type) where
  /-- The source children that are left to consume. -/
  next : List (List UInt8 × OrderedJson ν)
  node : ℕ
  key : List UInt8
  isObject : Bool

/-- SOURCE: 261-266 -/
def appendToFrame (frame : BuildFrame ν) (key : List UInt8) (child : Option ℕ) :
    JsonProgram ν Unit :=
  append frame.isObject frame.node key child

/-- The frame over a source container, for the node that is made for it.
SOURCE: 269-275 -/
def openContainer (j : OrderedJson ν) (node : ℕ) (key : List UInt8) : BuildFrame ν :=
  ⟨j.entries, node, key, j.isObject⟩

/-- What the frames of a stack have left. -/
noncomputable def stackWeight (stack : List (BuildFrame ν)) : ℕ :=
  (stack.map fun frame => OrderedJson.weight frame.next + 1).sum

/-- The loop; the back of the stack is the head of the list.
SOURCE: 305-333 -/
def buildLoop (caseInsensitive : Bool) : List (BuildFrame ν) → JsonProgram ν (Option ℕ)
  | [] => pure none
  | ⟨[], node, _, _⟩ :: [] => pure (some node)
  | ⟨[], node, key, _⟩ :: frame :: stack => do
    appendToFrame frame key (some node)
    buildLoop caseInsensitive (frame :: stack)
  | ⟨(childKey, child) :: next, node, key, isObject⟩ :: stack =>
    let frame : BuildFrame ν := ⟨next, node, key, isObject⟩
    match child with
    | .null => do
      appendToFrame frame childKey none
      buildLoop caseInsensitive (frame :: stack)
    | .scalar value => do
      let n ← make caseInsensitive (.value value)
      appendToFrame frame childKey (some n)
      buildLoop caseInsensitive (frame :: stack)
    | .array items => do
      let n ← make caseInsensitive (OrderedJson.array items).emptied
      buildLoop caseInsensitive (openContainer (.array items) n childKey :: frame :: stack)
    | .object members => do
      let n ← make caseInsensitive (OrderedJson.object members).emptied
      buildLoop caseInsensitive (openContainer (.object members) n childKey :: frame :: stack)
termination_by stack => stackWeight stack
decreasing_by
  all_goals
    simp only [stackWeight, List.map_cons, List.sum_cons, OrderedJson.weight_cons, openContainer]
  · omega
  · omega
  · omega
  · have := OrderedJson.weight_entries_lt (OrderedJson.array items)
    omega
  · have := OrderedJson.weight_entries_lt (OrderedJson.object members)
    omega

/-- SOURCE: 297-335 -/
def fromNlohmann (caseInsensitive : Bool) : OrderedJson ν → JsonProgram ν (Option ℕ)
  | .null => pure none
  | .scalar value => do
    let n ← make caseInsensitive (.value value)
    pure (some n)
  | j => do
    let n ← make caseInsensitive j.emptied
    buildLoop caseInsensitive [openContainer j n []]

/-- SOURCE: JsonParseGuard.hpp:29-37 -/
def rejectEmbeddedNul (json : List UInt8) : JsonProgram ν Unit :=
  match json.findIdx? (· == 0) with
  | none => pure ()
  | some nul => throw (.json ("'The JSON document contains an embedded NUL character at position " ++
      toString nul ++ ", which would silently truncate the document. Remove it or escape it as " ++
      "\\u0000.'."))

/-- `parse` is the vendored parser; its error is the text of its exception.
SOURCE: JsonNode.cpp:338-348 -/
def parse (parse : List UInt8 → Except String (OrderedJson ν)) (caseInsensitive : Bool)
    (json : List UInt8) : JsonProgram ν (Option ℕ) := do
  rejectEmbeddedNul json
  match parse json with
  | .error what => throw (.json ("'" ++ what ++ "'."))
  | .ok j => guarded (fromNlohmann caseInsensitive j)

/-- Children are built one after another, and each is added to a container when it is complete. -/
def fill (isObject : Bool) (node : ℕ) :
    List (List UInt8 × JsonProgram ν (Option ℕ)) → JsonProgram ν Unit
  | [] => pure ()
  | (key, build) :: rest => do
    let child ← build
    append isObject node key child
    fill isObject node rest

/-- The clone of a child, if there is one. -/
def cloneSlot (clone : ℕ → JsonProgram ν ℕ) : Option ℕ → JsonProgram ν (Option ℕ)
  | none => pure none
  | some child => do
    let c ← clone child
    pure (some c)

/-- SOURCE: JsonValue.hpp:111-113; JsonArray.hpp:188-192; JsonObject.hpp:212-216 -/
def cloneFrom : (fuel : ℕ) → (this : ℕ) → JsonProgram ν ℕ
  | 0, _ => throw .diverged
  | fuel + 1, this => do
    let x ← deref this
    match x.content with
    | .value value => make x.caseInsensitive (.value value)
    | .array items => do
      let clone ← make x.caseInsensitive (.array [])
      fill false clone (items.map fun item => ([], cloneSlot (cloneFrom fuel) item))
      pure clone
    | .object properties => do
      let clone ← make x.caseInsensitive (.object [])
      fill true clone
        (properties.map fun entry => (entry.1, cloneSlot (cloneFrom fuel) entry.2))
      pure clone

/-- The way down from a node is no longer than the number of nodes there have been. -/
def deepClone (this : ℕ) : JsonProgram ν ℕ :=
  guarded do cloneFrom (← get).next this

end JsonNode

end SharpRuntime.Model
