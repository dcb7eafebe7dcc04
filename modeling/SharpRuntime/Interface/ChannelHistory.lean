import SharpRuntime.Model.Channel

/-!
# What the clients of a channel see

The items a channel accepted and the items it delivered, read off what its clients saw, and the
content of a FIFO buffer that went through the same calls.

The buffer is what a channel is for: an item enters at the back and leaves at the front, and where
the buffer is full the mode says which one item is given up.
-/

set_option autoImplicit false

namespace SharpRuntime.Interface

open Machine Monitor Model

variable {ι τ ε : Type}

abbrev ChannelEvent (ι τ ε : Type) : Type :=
  Event ι (ChannelCall τ ε) ChannelWait (Reply τ ε)

def acceptedItem : ChannelEvent ι τ ε → Option τ
  | .called _ (.tryWrite item) .yes => some item
  | _ => none

def deliveredItem : ChannelEvent ι τ ε → Option τ
  | .called _ .tryRead (.item x) => some x
  | _ => none

def accepted (es : List (ChannelEvent ι τ ε)) : List τ :=
  es.filterMap acceptedItem

def delivered (es : List (ChannelEvent ι τ ε)) : List τ :=
  es.filterMap deliveredItem

def HasRoom (capacity : ℤ) (content : List τ) : Prop :=
  capacity < 0 ∨ (content.length : ℤ) < capacity

instance (capacity : ℤ) (content : List τ) : Decidable (HasRoom capacity content) :=
  inferInstanceAs (Decidable (_ ∨ _))

/-- What a full buffer holds after a write: it gives up the incoming item, the newest, or the
oldest. -/
def overflowed (mode : BoundedChannelFullMode) (content : List τ) (item : τ) : List τ :=
  match mode with
  | .wait => content
  | .dropWrite => content
  | .dropNewest => content.dropLast ++ [item]
  | .dropOldest => content.tail ++ [item]

def written (capacity : ℤ) (mode : BoundedChannelFullMode) (content : List τ) (item : τ) : List τ :=
  if HasRoom capacity content then content ++ [item] else overflowed mode content item

def contentStep (capacity : ℤ) (mode : BoundedChannelFullMode) (content : List τ)
    (e : ChannelEvent ι τ ε) : List τ :=
  match acceptedItem e, deliveredItem e with
  | some item, _ => written capacity mode content item
  | none, some _ => content.tail
  | none, none => content

def content (capacity : ℤ) (mode : BoundedChannelFullMode) (es : List (ChannelEvent ι τ ε)) :
    List τ :=
  es.foldl (contentStep capacity mode) []

/-- A channel of `createUnbounded`, or of `CreateBounded` with room for one item at least. -/
def Opened (s : ChannelState τ ε) : Prop :=
  s = Channel.createUnbounded ∨
    ∃ options : BoundedChannelOptions, 1 ≤ options.capacity ∧ s = Channel.createBoundedOptions options

/-- A reader gets `false`, or the completion error, or the end of `completion`. -/
def ToldClosed : ChannelEvent ι τ ε → Prop
  | .passed _ .waitToReadAsync .no => True
  | .passed _ .waitToReadAsync (.fault _) => True
  | .passed _ .completion _ => True
  | _ => False

def appendedItem
    (t : Transition (ChannelState τ ε) ι (ChannelCall τ ε) ChannelWait (Reply τ ε)) : Option τ :=
  if t.before.state.queue.length < t.after.state.queue.length then acceptedItem t.event else none

def appended
    (ts : List (Transition (ChannelState τ ε) ι (ChannelCall τ ε) ChannelWait (Reply τ ε))) :
    List τ :=
  ts.filterMap appendedItem

def readersInside (w : World (ChannelState τ ε) ι ChannelWait) : List ι :=
  clientsIn .waitToReadAsync w.parked

/-- A call of `waitToReadAsync` that returned true counts until its client has read an item. -/
def grantStep [DecidableEq ι] (clients : List ι) : ChannelEvent ι τ ε → List ι
  | .passed c .waitToReadAsync .yes => clients ++ [c]
  | .called c .tryRead (.item _) => clients.filter fun d => d ≠ c
  | _ => clients

/-- The clients of the calls of `waitToReadAsync` that returned true and were not followed by a
successful `tryRead` of the same client, one entry a call. -/
def granted [DecidableEq ι] (es : List (ChannelEvent ι τ ε)) : List ι :=
  es.foldl grantStep []

end SharpRuntime.Interface
