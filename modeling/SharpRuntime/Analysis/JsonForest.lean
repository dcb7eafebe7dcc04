import SharpRuntime.Analysis.JsonBuilding

/-!
# The forest of JSON nodes

Every call that changes a container adopts a child, detaches what a slot held, writes the slot, and
releases the reference the slot had; each of these parts may be missing.  What they do together
keeps the forest, and a call that throws does so before it writes.
-/

set_option autoImplicit false

namespace SharpRuntime.Analysis.JsonForest

open Machine Model Interface.JsonForest
open JsonOwnership JsonBuilding
open JsonNode
open JsonObject

variable {ν : Type} {h h' : JsonHeap ν} {n p : ℕ} {x y : JsonNode ν}

/-! ## The references of slots -/

theorem refs_append (l r : List (Option ℕ)) : refs (l ++ r) = refs l ++ refs r :=
  List.filterMap_append

theorem refs_cons (slot : Option ℕ) (r : List (Option ℕ)) :
    refs (slot :: r) = slot.toList ++ refs r := by
  cases slot <;> rfl

variable {slots : List (Option ℕ)} {i : ℕ}

theorem split_at (hi : i < slots.length) :
    ∃ l r, slots = l ++ slots[i] :: r ∧ (∀ slot, slots.set i slot = l ++ slot :: r) ∧
      slots.eraseIdx i = l ++ r := by
  refine ⟨slots.take i, slots.drop (i + 1), ?_, fun slot => ?_, List.eraseIdx_eq_take_drop_succ ..⟩
  · rw [List.cons_getElem_drop_succ, List.take_append_drop]
  · exact List.set_eq_take_append_cons_drop .. |>.trans (if_pos hi)

theorem perm_middle (slot : Option ℕ) (l r : List (Option ℕ)) :
    (refs (l ++ slot :: r)).Perm (slot.toList ++ refs (l ++ r)) := by grind [refs_append, refs_cons]

theorem perm_set (hi : i < slots.length) (slot : Option ℕ) :
    (refs slots).Perm (slots[i]?.join.toList ++ refs (slots.eraseIdx i)) ∧
      (refs (slots.set i slot)).Perm (slot.toList ++ refs (slots.eraseIdx i)) := by
  obtain ⟨l, r, hsplit, hset, herase⟩ := split_at hi
  rw [hset, herase, List.getElem?_eq_getElem hi]
  refine ⟨?_, perm_middle slot l r⟩
  conv_lhs => rw [hsplit]
  exact perm_middle slots[i] l r

theorem perm_insertIdx (hi : i ≤ slots.length) (slot : Option ℕ) :
    (refs (slots.insertIdx i slot)).Perm (slot.toList ++ refs slots) := by
  have hperm := (List.perm_insertIdx slot slots hi).filterMap id
  refine hperm.trans (List.Perm.of_eq ?_)
  exact refs_cons slot slots

/-! ## An exchange of references -/

def adopted (p : ℕ) (child : Option ℕ) (h : JsonHeap ν) : JsonHeap ν :=
  match child with
  | none => h
  | some c => setParent c (some p) h

def detached (slot : Option ℕ) (h : JsonHeap ν) : JsonHeap ν :=
  match slot with
  | none => h
  | some n => setParent n none h

def Adoptable (h : JsonHeap ν) (p : ℕ) (child : Option ℕ) : Prop :=
  ∀ c ∈ child, ∃ x, h.nodes c = some x ∧ x.parent_ = none ∧ ¬(view h).IsAbove c p

variable {child : Option ℕ}

theorem adopt_cases (hs : Sound h) (hp : Alive h p)
    (halive : ∀ c ∈ child, Alive h c) (hsees : ∀ c ∈ child, SeesCycle h c p) :
    (∃ e, Thrown e ∧ adopt p child h = .error e h) ∨
      adopt p child h = .ok ⟨⟩ (adopted p child h) ∧ Adoptable h p child := by
  cases child with
  | none => exact Or.inr ⟨rfl, fun _ hc => nomatch hc⟩
  | some c =>
    obtain ⟨x, hx⟩ := alive_iff.mp (halive c rfl)
    by_cases hbad : x.parent_.isSome ∨ (view h).IsAbove c p
    · exact Or.inl (assignParent_error hs.consistent hx hp (hsees c rfl) hbad)
    · obtain ⟨hparent, hnot⟩ := not_or.mp hbad
      have hroot := Option.not_isSome_iff_eq_none.mp hparent
      refine Or.inr ⟨assignParent_ok hs.consistent hx hp hroot hnot, fun d hd => ?_⟩
      grind

theorem detach_eq {slot : Option ℕ} (halive : ∀ n ∈ slot, Alive h n) :
    detach slot h = .ok ⟨⟩ (detached slot h) := by
  cases slot with
  | none => rfl
  | some n =>
    obtain ⟨x, hx⟩ := alive_iff.mp (halive n rfl)
    rw [detach, detachParent, bind_ok (deref_eq hx)]
    rfl

theorem setContent_setContent (content content' : JsonContent ν) :
    setContent p content' (setContent p content h) = setContent p content' h :=
  modifyNode_modifyNode _ _

variable {content : JsonContent ν}

theorem setParent_setContent {parent : Option ℕ} (hne : n ≠ p) :
    setParent n parent (setContent p content h) = setContent p content (setParent n parent h) :=
  (modifyNode_comm hne).symm

variable {old : Option ℕ} {content' : JsonContent ν}

theorem exchange_eq (content : JsonContent ν)
    (hchild : ∀ c ∈ child, c ≠ p) (hold : ∀ o ∈ old, o ≠ p)
    (hne : ∀ c ∈ child, ∀ o ∈ old, c ≠ o) :
    setContent p content' (detached old (adopted p child h)) =
      attachSlot p content' child (setContent p content (detached old h)) := by
  cases child with
  | none => exact (setContent_setContent content content').symm
  | some c =>
    have hcp := hchild c rfl
    change _ = setContent p content' (setParent c (some p) (setContent p content (detached old h)))
    rw [setParent_setContent hcp, setContent_setContent]
    cases old with
    | none => rfl
    | some o =>
      have hco := hne c rfl o rfl
      exact congrArg _ (modifyNode_comm hco)

theorem exchange_sound (old : Option ℕ) (rest : List (Option ℕ))
    (hs : Sound h) (hp : h.nodes p = some y) (hchild : Adoptable h p child)
    (hold : y.children.Perm (old.toList ++ refs rest))
    (hnew : (refs content'.slots).Perm (child.toList ++ refs rest)) :
    SoundWith (setContent p content' (detached old (adopted p child h))) old.toList := by
  have hsw := soundWith_nil_iff.mpr hs
  have hold_child : ∀ o ∈ old, (view h).IsParent p o := fun o ho => by
    refine (hsw.children_eq hp).mp (hold.mem_iff.mpr (List.mem_append_left _ ?_))
    exact Option.mem_toList.mpr ho
  have hold_ne : ∀ o ∈ old, o ≠ p := by
    rintro o ho rfl
    exact hs.consistent.acyclic o (Relation.TransGen.single (hold_child o ho))
  have hchild_ne : ∀ c ∈ child, c ≠ p := by
    rintro c hc rfl
    obtain ⟨x, -, -, hnot⟩ := hchild c hc
    exact hnot (Forest.IsAbove.refl _ c)
  have hne : ∀ c ∈ child, ∀ o ∈ old, c ≠ o := by
    rintro c hc o ho rfl
    obtain ⟨x, hx, hroot, -⟩ := hchild c hc
    obtain ⟨x', hx', hparent⟩ := isParent_iff.mp (hold_child c ho)
    rw [hx] at hx'
    cases hx'
    rw [hroot] at hparent
    cases hparent
  -- The reference is taken out first.
  have hremoved : SoundWith (setContent p (.array rest) (detached old h)) old.toList := by
    cases old with
    | none => exact hsw.reorder hp hold.symm
    | some o =>
      have hmem := (hsw.children_eq hp).mpr (hold_child o rfl)
      refine hsw.detach hp hmem (List.Perm.cons_inv (a := o) ?_)
      exact hold.symm.trans (List.perm_cons_erase hmem)
  have hp' : (setContent p (.array rest) (detached old h)).nodes p =
      some { y with content := .array rest } := by
    refine modifyNode_self ?_
    cases old with
    | none => exact hp
    | some o => exact (modifyNode_of_ne (hold_ne o rfl).symm).trans hp
  have hadoptable : Adoptable (setContent p (.array rest) (detached old h)) p child := by
    intro c hc
    obtain ⟨x, hx, hroot, hnot⟩ := hchild c hc
    refine ⟨x, ?_, hroot, fun habove => hnot (habove.mono fun q m hq => ?_)⟩
    · refine (modifyNode_of_ne (hchild_ne c hc)).trans ?_
      cases old with
      | none => exact hx
      | some o => exact (modifyNode_of_ne (hne c hc o rfl)).trans hx
    · rw [Forest.IsParent, view_parent_setContent] at hq
      cases old with
      | none => exact hq
      | some o =>
        obtain ⟨z, hz, -⟩ := isParent_iff.mp (hold_child o rfl)
        change (view (setParent o none h)).parent m = _ at hq
        rw [view_parent_setParent hz, Function.update_apply] at hq
        split at hq
        · cases hq
        · exact hq
  rw [exchange_eq (.array rest) hchild_ne hold_ne hne]
  exact attachSlot_sound hremoved hp' hadoptable hnew

/-! ## Members of the containers -/

theorem keeps_refused {α : Type} {e : JsonNodeFault} (hs : Sound h) (hthrown : Thrown e) :
    Keeps h (.error e h : EStateM.Result JsonNodeFault (JsonHeap ν) α) :=
  ⟨hthrown, hs, rfl, rfl⟩

theorem release_eq {worklist : List ℕ} (hs : SoundWith h worklist) :
    ∃ h', release worklist h = .ok ⟨⟩ h' ∧ Sound h' := by
  obtain ⟨h', hdrain, hsound, -⟩ := drain_sound 0 h worklist hs
  refine ⟨h', ?_, hsound⟩
  rw [release, hdrain]

theorem exists_items (hitems : (itemsOf h p).isSome) :
    ∃ y items, h.nodes p = some y ∧ y.content = .array items ∧ itemsOf h p = some items := by
  rw [itemsOf] at hitems ⊢
  cases hp : h.nodes p with
  | none =>
    rw [hp] at hitems
    cases hitems
  | some y => grind

theorem exists_properties (hproperties : (propertiesOf h p).isSome) :
    ∃ y properties, h.nodes p = some y ∧ y.content = .object properties ∧
      propertiesOf h p = some properties := by
  rw [propertiesOf] at hproperties ⊢
  cases hp : h.nodes p with
  | none =>
    rw [hp] at hproperties
    cases hproperties
  | some y => grind

theorem children_eq_refs (hcontent : y.content = content) : y.children = refs content.slots := by
  rw [JsonNode.children, hcontent, refs]

theorem keeps_exchange (child : Option ℕ) (content' : JsonContent ν)
    (rest : List (Option ℕ)) (hs : Sound h) (hp : h.nodes p = some y)
    (halive : ∀ c ∈ child, Alive h c) (hsees : ∀ c ∈ child, SeesCycle h c p)
    (hold : y.children.Perm (old.toList ++ refs rest))
    (hnew : (refs content'.slots).Perm (child.toList ++ refs rest)) :
    Keeps h ((adopt p child >>= fun _ => detach old >>= fun _ =>
      modify (setContent p content') >>= fun _ => release old.toList) h) := by
  obtain ⟨e, hthrown, hadopt⟩ | ⟨hadopt, hadoptable⟩ :=
    adopt_cases hs (alive_of_eq hp) halive hsees
  · rw [bind_error hadopt]
    exact keeps_refused hs hthrown
  · have hexchanged := exchange_sound old rest hs hp hadoptable hold hnew
    have hold_alive : ∀ o ∈ old, Alive (adopted p child h) o := fun o ho => by
      have hmem : o ∈ y.children :=
        hold.mem_iff.mpr (List.mem_append_left _ (Option.mem_toList.mpr ho))
      have ho_alive := (alive_of_isParent hs.consistent
        (((soundWith_nil_iff.mpr hs).children_eq hp).mp hmem)).2
      cases child with
      | none => exact ho_alive
      | some c => exact alive_modifyNode_iff.mpr ho_alive
    obtain ⟨h', hrelease, hsound⟩ := release_eq hexchanged
    rw [bind_ok hadopt, bind_ok (detach_eq hold_alive), modify_bind, hrelease]
    exact hsound

theorem keeps_replaced {α β : Type} {p : JsonProgram ν α} {b : β} (hkeeps : Keeps h (p h)) :
    Keeps h ((p >>= fun _ => pure b) h) := by
  cases hresult : p h with
  | ok a h' =>
    rw [hresult] at hkeeps
    rw [bind_ok hresult]
    exact hkeeps
  | error e h' =>
    rw [hresult] at hkeeps
    rw [bind_error hresult]
    exact hkeeps

theorem keeps_insert (content' : JsonContent ν) (hs : Sound h)
    (hp : h.nodes p = some y) (halive : ∀ c ∈ child, Alive h c)
    (hsees : ∀ c ∈ child, SeesCycle h c p)
    (hnew : (refs content'.slots).Perm (child.toList ++ y.children)) :
    Keeps h ((adopt p child >>= fun _ => modify (setContent p content')) h) := by
  obtain ⟨e, hthrown, hadopt⟩ | ⟨hadopt, hadoptable⟩ :=
    adopt_cases hs (alive_of_eq hp) halive hsees
  · rw [bind_error hadopt]
    exact keeps_refused hs hthrown
  · have hexchanged := exchange_sound none y.content.slots hs hp hadoptable
      (List.Perm.refl _) hnew
    rw [bind_ok hadopt]
    exact soundWith_nil_iff.mp hexchanged

theorem toNat_lt_of_lt_toIntcs {index : ℤ} {size : ℕ} (hnonneg : 0 ≤ index)
    (hlt : index < toIntcs size) : index.toNat < size := by
  have hspec := toIntcs_spec size
  omega

theorem toIntcs_toNat_le (hnonneg : 0 ≤ toIntcs i) : (toIntcs i).toNat ≤ i := by
  have hspec := toIntcs_spec i
  omega

section Arrays

variable {items : List (Option ℕ)} {index : ℤ} {item : Option ℕ}

theorem requireBelow_cases (index bound : ℤ) (h : JsonHeap ν) :
    (∃ e, Thrown e ∧ JsonArray.requireBelow index bound h = .error e h) ∨
      (0 ≤ index ∧ index < bound) ∧ JsonArray.requireBelow index bound h = .ok ⟨⟩ h := by
  rw [JsonArray.requireBelow]
  by_cases hbad : index < 0 ∨ bound ≤ index
  · rw [if_pos hbad]
    exact Or.inl ⟨_, thrown_runtime _, rfl⟩
  · rw [if_neg hbad]
    exact Or.inr ⟨⟨by omega, by omega⟩, rfl⟩

theorem keeps_arraySetItem (hs : Sound h) (hp : h.nodes p = some y)
    (hcontent : y.content = .array items) (halive : ∀ c ∈ item, Alive h c)
    (hsees : 0 ≤ index ∧ index < toIntcs items.length → ∀ c ∈ item, SeesCycle h c p) :
    Keeps h (JsonArray.setItem p index item h) := by
  rw [JsonArray.setItem, bind_ok (items_eq hp hcontent)]
  obtain ⟨e, hthrown, hcheck⟩ | ⟨hrange, hcheck⟩ := requireBelow_cases index (toIntcs items.length) h
  · rw [bind_error hcheck]
    exact keeps_refused hs hthrown
  · rw [bind_ok hcheck]
    obtain ⟨hbefore, hafter⟩ := perm_set (toNat_lt_of_lt_toIntcs hrange.1 hrange.2) item
    have hchildren : y.children = refs items := children_eq_refs hcontent
    rw [← hchildren] at hbefore
    have hkeeps := keeps_exchange item (.array (items.set index.toNat item))
      (items.eraseIdx index.toNat) hs hp halive (hsees hrange) hbefore hafter
    exact hkeeps

theorem keeps_arrayAdd (hs : Sound h) (hp : h.nodes p = some y)
    (hcontent : y.content = .array items) (halive : ∀ c ∈ item, Alive h c)
    (hsees : ∀ c ∈ item, SeesCycle h c p) : Keeps h (JsonArray.add p item h) := by
  have hchildren : y.children = refs items := children_eq_refs hcontent
  rw [JsonArray.add, bind_ok (items_eq hp hcontent)]
  refine keeps_insert (.array (items ++ [item])) hs hp halive hsees ?_
  rw [hchildren]
  exact (perm_middle item items []).trans (by rw [List.append_nil])

theorem keeps_arrayInsert (hs : Sound h) (hp : h.nodes p = some y)
    (hcontent : y.content = .array items) (halive : ∀ c ∈ item, Alive h c)
    (hsees : 0 ≤ index ∧ index ≤ toIntcs items.length → ∀ c ∈ item, SeesCycle h c p) :
    Keeps h (JsonArray.insert p index item h) := by
  have hchildren : y.children = refs items := children_eq_refs hcontent
  rw [JsonArray.insert, bind_ok (items_eq hp hcontent)]
  obtain ⟨e, hthrown, hcheck⟩ | ⟨hrange, hcheck⟩ :=
    requireBelow_cases index (toIntcs items.length + 1) h
  · rw [bind_error hcheck]
    exact keeps_refused hs hthrown
  · rw [bind_ok hcheck]
    have hle : index.toNat ≤ items.length := by
      have hspec := toIntcs_spec items.length
      omega
    refine keeps_insert (.array (items.insertIdx index.toNat item)) hs hp halive
      (hsees ⟨hrange.1, by omega⟩) ?_
    rw [hchildren]
    exact perm_insertIdx hle item

theorem keeps_arrayRemoveAt (hs : Sound h) (hp : h.nodes p = some y)
    (hcontent : y.content = .array items) : Keeps h (JsonArray.removeAt p index h) := by
  have hchildren : y.children = refs items := children_eq_refs hcontent
  rw [JsonArray.removeAt, bind_ok (items_eq hp hcontent)]
  obtain ⟨e, hthrown, hcheck⟩ | ⟨hrange, hcheck⟩ := requireBelow_cases index (toIntcs items.length) h
  · rw [bind_error hcheck]
    exact keeps_refused hs hthrown
  · rw [bind_ok hcheck]
    obtain ⟨hbefore, -⟩ := perm_set (toNat_lt_of_lt_toIntcs hrange.1 hrange.2) none
    rw [← hchildren] at hbefore
    have hkeeps := keeps_exchange none (.array (items.eraseIdx index.toNat))
      (items.eraseIdx index.toNat) hs hp
      (fun _ hc => nomatch hc) (fun _ hc => nomatch hc) hbefore (List.Perm.refl _)
    exact hkeeps

theorem keeps_arrayRemove (hs : Sound h) (hp : h.nodes p = some y)
    (hcontent : y.content = .array items) : Keeps h (JsonArray.remove p item h) := by
  rw [JsonArray.remove, bind_ok (items_eq hp hcontent)]
  by_cases hfound : JsonArray.indexOf items item < 0
  · rw [if_pos hfound]
    exact hs
  · rw [if_neg hfound]
    exact keeps_replaced (keeps_arrayRemoveAt hs hp hcontent)

end Arrays

/-! ## Emptying a container -/

theorem detachAll_eq (slots : List (Option ℕ)) (halive : ∀ n ∈ refs slots, Alive h n) :
    detachAll slots h = .ok ⟨⟩ (detachedAll (refs slots) h) := by
  induction slots generalizing h with
  | nil => rfl
  | cons slot slots ih =>
    rw [refs_cons] at halive ⊢
    have hslot : ∀ n ∈ slot, Alive h n := fun n hn =>
      halive n (List.mem_append_left _ (Option.mem_toList.mpr hn))
    rw [detachAll, bind_ok (detach_eq hslot)]
    cases slot with
    | none => exact ih fun n hn => halive n (List.mem_append_right _ hn)
    | some m =>
      exact ih fun n hn => alive_modifyNode_iff.mpr (halive n (List.mem_append_right _ hn))

theorem keeps_clear (content' : JsonContent ν) (hs : Sound h) (hp : h.nodes p = some y)
    (hcontent : y.content = content) (hempty : content'.slots = []) :
    Keeps h ((detachAll content.slots >>= fun _ => modify (setContent p content') >>= fun _ =>
      release (refs content.slots)) h) := by
  have hsw := soundWith_nil_iff.mpr hs
  have hchildren := children_eq_refs hcontent
  have halive : ∀ n ∈ refs content.slots, Alive h n := fun n hn =>
    (alive_of_isParent hs.consistent ((hsw.children_eq hp).mp (hchildren ▸ hn))).2
  have hcleared := hsw.clear hp hempty
  rw [hchildren, List.append_nil] at hcleared
  obtain ⟨h', hrelease, hsound⟩ := release_eq hcleared
  rw [bind_ok (detachAll_eq content.slots halive), modify_bind, hrelease]
  exact hsound

variable {items : List (Option ℕ)}

theorem keeps_arrayClear (hs : Sound h) (hp : h.nodes p = some y)
    (hcontent : y.content = .array items) : Keeps h (JsonArray.clear p h) := by
  rw [JsonArray.clear, bind_ok (items_eq hp hcontent)]
  exact keeps_clear (.array []) hs hp hcontent rfl

section Objects

variable {properties : List (List UInt8 × Option ℕ)} {propertyName : List UInt8}
  {value : Option ℕ}

theorem filterMap_snd (properties : List (List UInt8 × Option ℕ)) :
    properties.filterMap Prod.snd = refs (properties.map Prod.snd) := by
  rw [refs, List.filterMap_map]
  rfl

theorem join_snd (properties : List (List UInt8 × Option ℕ)) (i : ℕ) :
    (properties.map Prod.snd)[i]?.join = properties[i]?.bind Prod.snd := by
  rw [List.getElem?_map]
  cases properties[i]? <;> rfl

theorem map_snd_eraseIdx (properties : List (List UInt8 × Option ℕ)) (i : ℕ) :
    (properties.eraseIdx i).map Prod.snd = (properties.map Prod.snd).eraseIdx i := by
  rw [List.eraseIdx_eq_take_drop_succ, List.eraseIdx_eq_take_drop_succ, List.map_append,
    List.map_take, List.map_drop]

theorem keeps_objectClear (hs : Sound h) (hp : h.nodes p = some y)
    (hcontent : y.content = .object properties) : Keeps h (clear p h) := by
  rw [clear, bind_ok (properties_eq hp hcontent), filterMap_snd]
  exact keeps_clear (.object []) hs hp hcontent rfl

theorem keeps_objectPush (hs : Sound h) (hp : h.nodes p = some y)
    (hcontent : y.content = .object properties) (halive : ∀ c ∈ value, Alive h c)
    (hsees : ∀ c ∈ value, SeesCycle h c p) :
    Keeps h ((adopt p value >>= fun _ =>
      modify (setContent p (.object (properties ++ [(propertyName, value)])))) h) := by
  have hchildren : y.children = refs (properties.map Prod.snd) := children_eq_refs hcontent
  refine keeps_insert (.object (properties ++ [(propertyName, value)])) hs hp halive
    hsees ?_
  change (refs ((properties ++ [(propertyName, value)]).map Prod.snd)).Perm _
  rw [hchildren, List.map_append]
  exact (perm_middle value (properties.map Prod.snd) []).trans (by rw [List.append_nil])

theorem keeps_objectAdd (hs : Sound h) (hp : h.nodes p = some y)
    (hcontent : y.content = .object properties) (halive : ∀ c ∈ value, Alive h c)
    (hsees : JsonObject.findIndex y.caseInsensitive properties propertyName < 0 →
      ∀ c ∈ value, SeesCycle h c p) :
    Keeps h (JsonObject.add p propertyName value h) := by
  rw [JsonObject.add, bind_ok (properties_eq hp hcontent), bind_ok (deref_eq hp)]
  by_cases hfound : 0 ≤ JsonObject.findIndex y.caseInsensitive properties propertyName
  · rw [if_pos hfound]
    exact keeps_refused hs (thrown_runtime _)
  · rw [if_neg hfound]
    exact keeps_objectPush hs hp hcontent halive (hsees (by omega))

theorem findIndex_lt {caseInsensitive : Bool}
    (hfound : 0 ≤ findIndex caseInsensitive properties propertyName) :
    (findIndex caseInsensitive properties propertyName).toNat < properties.length := by
  rw [findIndex] at hfound ⊢
  cases hindex : properties.findIdx? fun entry =>
      namesEqual caseInsensitive entry.1 propertyName with
  | none =>
    grind
  | some i =>
    rw [hindex] at hfound
    have hi := (List.findIdx?_eq_some_iff_getElem.mp hindex).1
    exact lt_of_le_of_lt (toIntcs_toNat_le hfound) hi

theorem keeps_objectRemove (hs : Sound h) (hp : h.nodes p = some y)
    (hcontent : y.content = .object properties) :
    Keeps h (remove p propertyName h) := by
  have hchildren : y.children = refs (properties.map Prod.snd) := children_eq_refs hcontent
  rw [remove, bind_ok (properties_eq hp hcontent), bind_ok (deref_eq hp)]
  by_cases hmissing : findIndex y.caseInsensitive properties propertyName < 0
  · rw [if_pos hmissing]
    exact hs
  · rw [if_neg hmissing]
    have hlt := findIndex_lt (show 0 ≤ findIndex y.caseInsensitive properties propertyName
      by omega)
    rw [← List.length_map (f := Prod.snd)] at hlt
    obtain ⟨hbefore, -⟩ := perm_set hlt none
    rw [← hchildren, join_snd, ← map_snd_eraseIdx] at hbefore
    have hkeeps := keeps_exchange none (.object (properties.eraseIdx _)) _
      hs hp (fun _ hc => nomatch hc) (fun _ hc => nomatch hc) hbefore (List.Perm.refl _)
    have hreplaced := keeps_replaced (b := true) hkeeps
    simp only [bind_assoc] at hreplaced
    exact hreplaced

theorem keeps_objectSetItem (hs : Sound h) (hp : h.nodes p = some y)
    (hcontent : y.content = .object properties) (halive : ∀ c ∈ value, Alive h c)
    (hsees : ¬(0 ≤ findIndex y.caseInsensitive properties propertyName ∧
        properties[(findIndex y.caseInsensitive properties
          propertyName).toNat]?.bind Prod.snd = value) → ∀ c ∈ value, SeesCycle h c p) :
    Keeps h (setItem p propertyName value h) := by
  have hchildren : y.children = refs (properties.map Prod.snd) := children_eq_refs hcontent
  rw [setItem, bind_ok (properties_eq hp hcontent), bind_ok (deref_eq hp)]
  by_cases hfound : 0 ≤ findIndex y.caseInsensitive properties propertyName
  · have hlt := findIndex_lt hfound
    rw [if_pos hfound]
    generalize findIndex y.caseInsensitive properties propertyName = index at *
    cases hentry : properties[index.toNat] with
    | mk name slot =>
      have hget : properties[index.toNat]? = some (name, slot) := by
        rw [List.getElem?_eq_getElem hlt, hentry]
      rw [hget] at hsees ⊢
      dsimp only at hsees ⊢
      by_cases hsame : slot = value
      · rw [if_pos hsame]
        exact hs
      · rw [if_neg hsame]
        rw [← List.length_map (f := Prod.snd)] at hlt
        obtain ⟨hbefore, hafter⟩ := perm_set hlt value
        rw [← hchildren, join_snd, hget] at hbefore
        rw [← List.map_set (f := Prod.snd) (a := (name, value))] at hafter
        exact keeps_exchange value
          (.object (properties.set index.toNat (name, value))) _ hs hp halive
          (hsees fun hboth => hsame hboth.2) hbefore hafter
  · rw [if_neg hfound]
    exact keeps_objectPush hs hp hcontent halive (hsees fun hboth => hfound hboth.1)

end Objects

/-! ## Calls -/

theorem keeps_alloc {α : Type} {a : α} (hs : Sound h) (hroot : x.parent_ = none)
    (hempty : x.children = []) :
    Keeps h (.ok a (h.alloc x) : EStateM.Result JsonNodeFault (JsonHeap ν) α) :=
  (alloc_extends hs hroot hempty).1.sound

theorem keeps_copyHandle (hs : Sound h) (hn : Alive h n) :
    Sound { h with handles := n :: h.handles } := by
  refine ⟨hs.consistent, fun m hm => ?_, fun m hm => (hs.held m hm).imp_left ?_⟩
  · obtain rfl | hm := List.mem_cons.mp hm
    · exact hn
    · exact hs.handles_alive m hm
  · exact List.mem_cons_of_mem n

theorem keeps_dropHandle (hs : Sound h) (hn : n ∈ h.handles) :
    SoundWith { h with handles := h.handles.erase n } [n] := by
  refine ⟨hs.consistent, fun m hm => hs.handles_alive m (List.mem_of_mem_erase hm), fun m hm => ?_,
    fun m hm => ?_⟩
  · obtain rfl := List.mem_singleton.mp hm
    exact hs.handles_alive m hn
  · obtain hhandle | hparent := hs.held m hm
    · grind
    · exact Or.inr (Or.inr hparent)

variable {parse : List UInt8 → Except String (OrderedJson ν)}

variable {call : JsonCall ν}

theorem keeps_run (hs : Sound h) (hallowed : Allowed h call)
    (hguarded : Guarded h call) : Keeps h (call.run parse h) := by
  cases call with
  | newValue caseInsensitive value => exact keeps_alloc hs rfl rfl
  | newArray caseInsensitive => exact keeps_alloc hs rfl rfl
  | newObject caseInsensitive => exact keeps_alloc hs rfl rfl
  | copyHandle n => exact keeps_copyHandle hs hallowed
  | dropHandle n =>
    obtain ⟨h', hrelease, hsound⟩ := release_eq (keeps_dropHandle hs hallowed)
    rw [JsonCall.run, modify_bind, hrelease]
    exact hsound
  | arraySetItem this index value =>
    obtain ⟨y, items, hp, hcontent, hitems⟩ := exists_items hallowed.1
    refine keeps_arraySetItem hs hp hcontent hallowed.2 fun hrange c hc => ?_
    refine hguarded (c, this) ?_
    obtain rfl : value = some c := hc
    grind [attaching]
  | arrayAdd this item =>
    obtain ⟨y, items, hp, hcontent, -⟩ := exists_items hallowed.1
    refine keeps_arrayAdd hs hp hcontent hallowed.2 fun c hc => hguarded (c, this) ?_
    obtain rfl : item = some c := hc
    exact rfl
  | arrayInsert this index item =>
    obtain ⟨y, items, hp, hcontent, hitems⟩ := exists_items hallowed.1
    refine keeps_arrayInsert hs hp hcontent hallowed.2 fun hrange c hc => ?_
    refine hguarded (c, this) ?_
    obtain rfl : item = some c := hc
    grind [attaching]
  | arrayRemoveAt this index =>
    obtain ⟨y, items, hp, hcontent, -⟩ := exists_items hallowed
    exact keeps_arrayRemoveAt hs hp hcontent
  | arrayRemove this item =>
    obtain ⟨y, items, hp, hcontent, -⟩ := exists_items hallowed
    exact keeps_replaced (keeps_arrayRemove hs hp hcontent)
  | arrayClear this =>
    obtain ⟨y, items, hp, hcontent, -⟩ := exists_items hallowed
    exact keeps_arrayClear hs hp hcontent
  | objectAdd this propertyName value =>
    obtain ⟨y, properties, hp, hcontent, hproperties⟩ := exists_properties hallowed.1
    refine keeps_objectAdd hs hp hcontent hallowed.2 fun hmissing c hc => hguarded (c, this) ?_
    obtain rfl : value = some c := hc
    simp [attaching, hp, hproperties, hmissing]
  | objectRemove this propertyName =>
    obtain ⟨y, properties, hp, hcontent, -⟩ := exists_properties hallowed
    exact keeps_replaced (keeps_objectRemove hs hp hcontent)
  | objectSetItem this propertyName value =>
    obtain ⟨y, properties, hp, hcontent, hproperties⟩ := exists_properties hallowed.1
    refine keeps_objectSetItem hs hp hcontent hallowed.2 fun hother c hc => hguarded (c, this) ?_
    obtain rfl : value = some c := hc
    simp [attaching, hp, hproperties, hother]
  | objectClear this =>
    obtain ⟨y, properties, hp, hcontent, -⟩ := exists_properties hallowed
    exact keeps_objectClear hs hp hcontent
  | deepClone this => exact keeps_replaced (keeps_clone hs hallowed)
  | parse caseInsensitive json => exact keeps_replaced (keeps_parse hs parse caseInsensitive json)

theorem sound_step (hs : Sound h) (hguarded : Guarded h call)
    (hstep : step parse h call = some h') : Sound h' := by
  rw [step] at hstep
  by_cases hallowed : Allowed h call
  · rw [if_pos hallowed] at hstep
    have hkeeps : Keeps h (call.run parse h) := keeps_run hs hallowed hguarded
    cases hresult : call.run parse h with
    | ok a h'' =>
      rw [hresult] at hstep hkeeps
      cases hstep
      exact hkeeps
    | error e h'' =>
      rw [hresult] at hstep hkeeps
      cases hstep
      exact hkeeps.2.1
  · grind

theorem sound_empty : Sound (JsonHeap.empty : JsonHeap ν) := by
  have hview : view (JsonHeap.empty : JsonHeap ν) = Forest.scattered := by
    rw [view, Forest.scattered]
    congr 1
    funext q
    cases q <;> rfl
  refine ⟨?_, fun n hn => absurd hn List.not_mem_nil, fun n hn => nomatch hn⟩
  rw [hview]
  exact Forest.consistent_scattered

theorem reliable_of_sound (hs : Sound h) : Reliable parse h := by
  refine ⟨hs, fun n hn => ?_, fun call e h' hallowed hguarded hthrows => ?_,
    fun n p x hn hp hsees => ?_, fromNlohmann_eq⟩
  · exact rootFrom_eq hs.consistent h.next hn (ncard_above_le hs.consistent hn)
  · have hkeeps : Keeps h (call.run parse h) := keeps_run hs hallowed hguarded
    rw [hthrows] at hkeeps
    exact ⟨hkeeps.1, hkeeps.2.2⟩
  · by_cases hbad : x.parent_.isSome ∨ (view h).IsAbove n p
    · obtain ⟨e, hthrown, hassign⟩ := assignParent_error hs.consistent hn hp hsees hbad
      refine ⟨iff_of_true ⟨e, hthrown, hassign⟩ hbad, fun e' h' hthrows => ?_⟩
      grind
    · obtain ⟨hparent, hnot⟩ := not_or.mp hbad
      have hassign := assignParent_ok hs.consistent hn hp
        (Option.not_isSome_iff_eq_none.mp hparent) hnot
      refine ⟨iff_of_false (fun ⟨e, _, hthrows⟩ => ?_) hbad, fun e' h' hthrows => ?_⟩
      · grind
      · grind

theorem hasChildren_of_mem (hmem : n ∈ x.children) (hfew : x.content.slots.length ≤ intcsMax) :
    x.hasChildren = true := by
  have hne : x.content.slots ≠ [] := by
    intro hnil
    rw [JsonNode.children, hnil] at hmem
    cases hmem
  have hcount : 0 < x.getCountProperty := by
    rw [getCountProperty, toIntcs_of_le hfew]
    exact_mod_cast List.length_pos_of_ne_nil hne
  rw [hasChildren]
  split
  case h_1 value hcontent =>
    rw [hcontent] at hne
    exact absurd rfl hne
  case h_2 => exact decide_eq_true hcount

/-- The condition can fail only where a container has `2 ^ 31` slots or more. -/
theorem guarded_of_few (hs : Sound h)
    (hfew : ∀ n x, h.nodes n = some x → x.content.slots.length ≤ intcsMax) : Guarded h call := by
  rintro ⟨n, p⟩ - x hx - hne hup
  by_cases hp : Alive h p
  · have habove := (mem_wayUp_iff hs.consistent h.next hp (ncard_above_le hs.consistent hp)).mp hup
    obtain heq | ⟨c, hparent, -⟩ := Relation.ReflTransGen.cases_head habove
    · exact absurd heq hne
    · have hmem := (mem_children_iff hs.consistent).mpr hparent
      rw [view_children hx] at hmem
      exact hasChildren_of_mem hmem (hfew n x hx)
  · have hdead : h.nodes p = none := Option.not_isSome_iff_eq_none.mp hp
    cases hfuel : h.next with
    | zero =>
      rw [hfuel] at hup
      cases hup
    | succ fuel =>
      rw [hfuel, wayUp, hdead, Option.bind_none, List.mem_singleton] at hup
      exact absurd hup hne

/-- **The forest of JSON nodes**: after any sequence of calls in which no node above a container is
given to it while it reports no children, every node is in one slot at most, of the container its
parent pointer names; the way up ends at a root; a call that throws changes nothing; a node is
refused exactly if it has a parent or is above the container; and a parsed text becomes the tree the
recursion defines. -/
theorem reliable_of_guarded (parse : List UInt8 → Except String (OrderedJson ν))
    (calls : List (JsonCall ν)) {h : JsonHeap ν}
    (hguarded : Along (step parse) Guarded JsonHeap.empty calls)
    (hrun : run (step parse) JsonHeap.empty calls = some h) : Reliable parse h :=
  reliable_of_sound (run_holds_along (fun _ _ _ hs hmeets hstep => sound_step hs hmeets hstep)
    calls sound_empty hguarded hrun)

def knowsNothing : List UInt8 → Except String (OrderedJson Unit) := fun _ => .error "parse error"

/-- Two arrays, one in the other; giving the outer one to the inner one is refused, and a clone of
the outer one is put into the inner one. -/
theorem reliable_of_guarded_two :
    ∃ h : JsonHeap Unit, (view h).children (.below 1) = [2] ∧ Reliable knowsNothing h :=
  ⟨_, rfl, reliable_of_guarded knowsNothing
    [.newArray false, .newArray false, .arrayAdd 0 (some 1), .arrayAdd 1 (some 0), .deepClone 0,
      .arrayAdd 1 (some 2)] (by decide) rfl⟩

/-- Nulls are appended to an array.  By induction on their number. -/
theorem run_nulls (k : ℕ) (hp : h.nodes p = some y) (hcontent : y.content = .array items) :
    run (step parse) h (List.replicate k (.arrayAdd p none)) =
      some (setContent p (.array (items ++ List.replicate k none)) h) := by
  induction k generalizing h y items with
  | zero =>
    rw [List.replicate_zero, List.replicate_zero, List.append_nil, ← hcontent]
    refine congrArg some (heap_ext ?_ rfl rfl)
    change h.nodes = Function.update h.nodes p ((h.nodes p).map _)
    rw [hp]
    change h.nodes = Function.update h.nodes p (some y)
    rw [← hp, Function.update_eq_self]
  | succ k ih =>
    have hallowed : Allowed h (.arrayAdd p none) := by
      refine ⟨?_, fun n hn => nomatch hn⟩
      rw [itemsOf, hp, Option.map_some, hcontent]
      rfl
    have hone : step parse h (.arrayAdd p none) =
        some (setContent p (.array (items ++ [none])) h) := by
      rw [step, if_pos hallowed, JsonCall.run, JsonArray.add, bind_ok (items_eq hp hcontent)]
      rfl
    have hp' : (setContent p (.array (items ++ [none])) h).nodes p =
        some { y with content := .array (items ++ [none]) } := modifyNode_self hp
    grind [run, setContent_setContent]

/-- The calls: an array, in the first slot of another that is filled up with nulls, is given the
other. -/
def cycleCalls (k : ℕ) : List (JsonCall Unit) :=
  [.newArray false, .newArray false, .arrayAdd 0 (some 1)] ++
    (List.replicate k (.arrayAdd 0 none) ++ [.arrayAdd 1 (some 0)])

theorem cycleCalls_closes {k : ℕ} (hk : toIntcs (k + 1) ≤ 0) :
    ∃ h, run (step knowsNothing) JsonHeap.empty (cycleCalls k) = some h ∧
      (view h).IsParent 1 0 ∧ (view h).IsParent 0 1 := by
  obtain ⟨h₁, hrun₁, houter₁, hinner₁⟩ : ∃ h₁,
      run (step knowsNothing) JsonHeap.empty
        [.newArray false, .newArray false, .arrayAdd 0 (some 1)] = some h₁ ∧
      h₁.nodes 0 = some ⟨none, false, .array [some 1]⟩ ∧
      h₁.nodes 1 = some ⟨some 0, false, .array []⟩ := ⟨_, rfl, rfl, rfl⟩
  have hrun₂ : run (step knowsNothing) h₁ _ = _ := run_nulls k houter₁ rfl
  generalize hh₂ : setContent 0 (.array ([some 1] ++ List.replicate k none)) h₁ = h₂ at hrun₂
  have houter₂ : h₂.nodes 0 =
      some ⟨none, false, .array ([some 1] ++ List.replicate k none)⟩ :=
    hh₂ ▸ modifyNode_self houter₁
  have hinner₂ : h₂.nodes 1 = some ⟨some 0, false, .array []⟩ :=
    hh₂ ▸ (modifyNode_of_ne Nat.one_ne_zero).trans hinner₁
  have hchildless :
      (⟨none, false, .array ([some 1] ++ List.replicate k none)⟩ : JsonNode Unit).hasChildren =
        false := by
    have hlength : ([some 1] ++ List.replicate k none : List (Option ℕ)).length = k + 1 := by simp
    have hnot : ¬0 < toIntcs ([some 1] ++ List.replicate k none : List (Option ℕ)).length :=
      fun hpos => absurd (hlength ▸ hpos) (not_lt.mpr hk)
    rw [hasChildren]
    exact decide_eq_false hnot
  have hallowed : Allowed h₂ (.arrayAdd 1 (some 0)) := by
    refine ⟨?_, fun n hn => ?_⟩
    · rw [itemsOf, hinner₂]
      rfl
    · cases hn
      exact alive_of_eq houter₂
  have hassign : assignParent 0 1 h₂ = .ok ⟨⟩ (setParent 0 (some 1) h₂) := by
    rw [assignParent, bind_ok (deref_eq houter₂)]
    rw [if_neg (show ¬(none : Option ℕ).isSome = true from Bool.false_ne_true),
      if_neg Nat.one_ne_zero, hchildless]
    rfl
  have hlast : step knowsNothing h₂ (.arrayAdd 1 (some 0)) =
      some (setContent 1 (.array [some 0]) (setParent 0 (some 1) h₂)) := by
    rw [step, if_pos hallowed, JsonCall.run, JsonArray.add, bind_ok (items_eq hinner₂ rfl), adopt,
      bind_ok hassign]
    rfl
  refine ⟨setContent 1 (.array [some 0]) (setParent 0 (some 1) h₂), ?_, ?_, ?_⟩
  · rw [cycleCalls, run_append, hrun₁, Option.bind_some, run_append, hrun₂, Option.bind_some, run,
      hlast]
    rfl
  · rw [Forest.IsParent, view_parent_setContent, view_parent_setParent houter₂,
      Function.update_self]
    rfl
  · simp [Forest.IsParent, view_parent_setContent, view_parent_setParent houter₂,
      view_parent hinner₂]

/-- An array with `2 ^ 31` slots reports `-2 ^ 31` children, and the guard takes it for empty. -/
theorem not_reliable_of_cycle :
    ∃ h, run (step knowsNothing) JsonHeap.empty (cycleCalls 2147483647) = some h ∧
      ¬Reliable knowsNothing h := by
  obtain ⟨h, hrun, houter, hinner⟩ := cycleCalls_closes (k := 2147483647) (by decide)
  exact ⟨h, hrun, fun hreliable => hreliable.sound.consistent.acyclic 0
    ((Relation.TransGen.single hinner).tail houter)⟩

end SharpRuntime.Analysis.JsonForest
