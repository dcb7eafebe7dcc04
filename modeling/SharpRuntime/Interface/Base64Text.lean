import SharpRuntime.Machine.Bytes
import SharpRuntime.Machine.Sextets
import SharpRuntime.Model.Base64

/-!
# Base64 text

The two classes as dialects: their letters, what counts as blank and as padding, and whether the
last quantum has to be padded.  What a text stands for is then `Dialect.content`, and which texts
a byte string has is `Dialect.Spells`.  `Codec` names the two classes, so that what holds of both
is said once.
-/

set_option autoImplicit false

namespace SharpRuntime.Interface

open Machine Machine.Sextets
open Model

def tableLetter (kEncTable : List UInt8) (v : Fin 64) : UInt8 := kEncTable.getD v 0

attribute [local instance] neZero_sextet in
def tableValue (kDecTable : List ℤ) (c : UInt8) : Option (Fin 64) :=
  let v := kDecTable.getD c.toNat (-1)
  if 0 ≤ v then some (Fin.ofNat 64 v.toNat) else none

variable {c : UInt8}

variable {kDecTable : List ℤ}

theorem tableLetter_of_tableValue {kEncTable : List UInt8}
    (h : ∀ c, (tableValue kDecTable c).all (tableLetter kEncTable · == c) = true) {v : Fin 64}
    (hv : tableValue kDecTable c = some v) : tableLetter kEncTable v = c := by
  have hc := h c
  simp only [hv, Option.all_some] at hc
  exact eq_of_beq hc

/-- The white space of both dialects. -/
def isBlank (c : UInt8) : Bool :=
  c == ' '.toUInt8 || c == '\t'.toUInt8 || c == '\r'.toUInt8 || c == '\n'.toUInt8

/-- The dialect of `Base64`: every place of the last quantum is filled. -/
def base64Dialect : Dialect UInt8 where
  letter := tableLetter Base64.kEncTable
  value := tableValue Base64.kDecTable
  value_letter := by decide +kernel
  letter_of_value := tableLetter_of_tableValue (by decide +kernel)
  isBlank := isBlank
  isPad := (· == '='.toUInt8)
  padsFully := true
  value_of_isBlank := by decide +kernel +revert
  value_of_isPad := by decide +kernel +revert
  not_isBlank_of_isPad := by decide +kernel +revert

/-- The dialect of `Base64Url`: padding is optional and has two spellings. -/
def base64UrlDialect : Dialect UInt8 where
  letter := tableLetter Base64Url.kEncTable
  value := tableValue Base64Url.kDecTable
  value_letter := by decide +kernel
  letter_of_value := tableLetter_of_tableValue (by decide +kernel)
  isBlank := isBlank
  isPad c := c == '='.toUInt8 || c == '%'.toUInt8
  padsFully := false
  value_of_isBlank := by decide +kernel +revert
  value_of_isPad := by decide +kernel +revert
  not_isBlank_of_isPad := by decide +kernel +revert

/-- Up to `cursor` the text is whole quanta, which stand for `dst`. -/
structure Boundary (D : Dialect UInt8) (t dst : List UInt8) (cursor : ℕ) : Prop where
  le_length : cursor ≤ t.length
  whole : dst.length % 3 = 0
  marks_take : D.marks (t.take cursor) = D.letters (sextets dst)

/-- What a decoder of the dialect may return on a text.  Whatever the status, what has been
consumed stands for what has been written; the final block is done exactly when it stands for
something that fits, and a block that is not final stops between two quanta. -/
structure Decoded (D : Dialect UInt8) (t : List UInt8) (dstLen : ℕ) (isFinalBlock : Bool)
    (r : Transfer) : Prop where
  written : r.written = r.dst.length
  fits : r.dst.length ≤ dstLen
  le_length : r.consumed ≤ t.length
  content_take : D.content (D.marks (t.take r.consumed)) = some r.dst
  done : r.status = .done → r.consumed = t.length
  needMoreData : r.status = .needMoreData → isFinalBlock = false
  invalidData : isFinalBlock = true → r.status = .invalidData → D.content (D.marks t) = none
  tooSmall : r.status = .destinationTooSmall → dstLen < D.capacity (D.marks t).length
  tooSmall_of_content : isFinalBlock = true → r.status = .destinationTooSmall →
    ∀ bytes, D.content (D.marks t) = some bytes → dstLen < bytes.length
  boundary : isFinalBlock = false → r.status = .done ∨ r.status = .needMoreData →
    Boundary D t r.dst r.consumed

/-- The two classes. -/
inductive Codec where
  | base64
  | base64Url
deriving DecidableEq

namespace Codec

def dialect : Codec → Dialect UInt8
  | base64 => base64Dialect
  | base64Url => base64UrlDialect

def encode : Codec → (bytes : List UInt8) → (dstLen : ℕ) → (isFinalBlock : Bool) → Transfer
  | base64 => Base64.encodeToUtf8
  | base64Url => Base64Url.encodeToUtf8

def decode : Codec → (text : List UInt8) → (dstLen : ℕ) → (isFinalBlock : Bool) → Transfer
  | base64 => Base64.decodeFromUtf8
  | base64Url => Base64Url.decodeFromUtf8

def isValid : Codec → (text : List UInt8) → Bool × ℕ
  | base64 => Base64.isValid
  | base64Url => Base64Url.isValid

def getEncodedLength : Codec → ℤ → Run Exception ℤ
  | base64 => Base64.getEncodedLength
  | base64Url => Base64Url.getEncodedLength

def getMaxDecodedLength : Codec → ℤ → Run Exception ℤ
  | base64 => Base64.getMaxDecodedLength
  | base64Url => Base64Url.getMaxDecodedLength

def withoutBlanks (t : List UInt8) : List UInt8 := t.filter fun ch => !isBlank ch

/-- The text without white space and, for `Base64Url`, without padding. -/
def bare : Codec → List UInt8 → List UInt8
  | base64, t => t.filter fun ch => !isBlank ch
  | base64Url, t => t.filter fun ch => !isBlank ch && !(ch == '='.toUInt8 || ch == '%'.toUInt8)

/-- The spelling of a byte string that is bare: its letters, and the padding they need. -/
def spelling (c : Codec) (bytes : List UInt8) : List UInt8 :=
  c.dialect.letters (sextets bytes) ++
    if c.dialect.padsFully then List.replicate (vacant (sextets bytes).length) '='.toUInt8 else []

end Codec

end SharpRuntime.Interface
