import SharpRuntime.Machine.LongestRun
import SharpRuntime.Machine.Printed
import SharpRuntime.Model.Exception

/-!
# `IPAddress`

The text of an address in `modules/net/src/System/Net/IPAddress.cpp` and the scanners of
`modules/core/include/System/detail/IPAddressLiteral.hpp`, under the source's names.  A string is
the list of its bytes.  A scanner of an IPv4 address goes on with what is left of the text; those of
an IPv6 address cut it at positions, and a position outside of the text is an exception of the
standard library. Bare line numbers are of the file named last.
-/

set_option autoImplicit false

namespace SharpRuntime.Model

open Machine

/-- What is thrown: `std::out_of_range`, or an exception of the runtime. -/
inductive Thrown where
  | out_of_range
  | runtime (e : Exception)
deriving DecidableEq

def substr (s : List UInt8) (pos count : ℕ) : Except Thrown (List UInt8) :=
  if s.length < pos then .error .out_of_range else .ok ((s.drop pos).take count)

/-- `std::string::substr` up to the end. -/
def substrFrom (s : List UInt8) (pos : ℕ) : Except Thrown (List UInt8) := substr s pos s.length

/-- `std::string::find` of a character. -/
def find (s : List UInt8) (c : UInt8) (start : ℕ) : Option ℕ :=
  ((s.drop start).findIdx? (· == c)).map (start + ·)

/-- An IPv4 address has no groups.
SOURCE: IPAddress.hpp:31-38 -/
structure IPAddress where
  isIPv6_ : Bool
  addressOrScopeId_ : UInt32
  numbers_ : Vector UInt16 8
  numbers_eq : isIPv6_ = false → numbers_ = Vector.replicate 8 0
deriving DecidableEq

namespace IPAddress

/-- The IPv4 address of a number in the order of the host.
SOURCE: 45 -/
def ofAddress (address : UInt32) : IPAddress := ⟨false, address, Vector.replicate 8 0, fun _ => rfl⟩

/-- SOURCE: 37-38 -/
def ofGroups (numbers : Vector UInt16 8) (scopeId : UInt32) : IPAddress :=
  ⟨true, scopeId, numbers, nofun⟩

/-- SOURCE: IPAddressLiteral.hpp:44-49 -/
def hexDigitValue (ch : UInt8) : ℕ :=
  if '0'.toUInt8 ≤ ch ∧ ch ≤ '9'.toUInt8 then (ch - '0'.toUInt8).toNat
  else if 'a'.toUInt8 ≤ ch ∧ ch ≤ 'f'.toUInt8 then (ch - 'a'.toUInt8).toNat + 10
  else if 'A'.toUInt8 ≤ ch ∧ ch ≤ 'F'.toUInt8 then (ch - 'A'.toUInt8).toNat + 10
  else 255

/-- The base of a part, whether a character of it has been read, and what is left.
SOURCE: 72-89 -/
def numberBase : List UInt8 → ℕ × Bool × List UInt8
  | [] => (10, false, [])
  | ch :: s =>
    if ch = '0'.toUInt8 then
      match s with
      | [] => (10, true, [])
      | x :: rest =>
        if x = 'x'.toUInt8 ∨ x = 'X'.toUInt8 then (16, false, rest) else (8, true, x :: rest)
    else (10, false, ch :: s)

/-- The digits of a part.
SOURCE: 91-98 -/
def partDigits (base : ℕ) :
    (currentValue : ℕ) → (atLeastOneChar : Bool) → List UInt8 → Option (ℕ × Bool × List UInt8)
  | currentValue, atLeastOneChar, [] => some (currentValue, atLeastOneChar, [])
  | currentValue, atLeastOneChar, ch :: s =>
    let digitValue := hexDigitValue ch
    if base ≤ digitValue then some (currentValue, atLeastOneChar, ch :: s)
    else
      let currentValue := currentValue * base + digitValue
      if 0xFFFFFFFF < currentValue then none else partDigits base currentValue true s

variable {v : ℕ} {one : Bool} {s rest : List UInt8}

theorem length_partDigits_le {base currentValue : ℕ} {atLeastOneChar : Bool}
    (h : partDigits base currentValue atLeastOneChar s = some (v, one, rest)) :
    rest.length ≤ s.length := by
  induction s generalizing currentValue atLeastOneChar with
  | nil =>
    cases h
    exact Nat.le_refl _
  | cons ch s ih => grind [partDigits]

/-- A part: its value, whether there is one, and what is left.
SOURCE: 72-98 -/
def scanPart (s : List UInt8) : Option (ℕ × Bool × List UInt8) :=
  partDigits (numberBase s).1 0 (numberBase s).2.1 (numberBase s).2.2

theorem length_scanPart_le (h : scanPart s = some (v, one, rest)) : rest.length ≤ s.length := by
  refine Nat.le_trans (length_partDigits_le h) ?_
  unfold numberBase
  split
  · exact Nat.le_refl _
  · grind

/-- The parts before the dots, and the last part.
SOURCE: 67-112 -/
def scanParts (parts : List ℕ) : (s : List UInt8) → Option (List ℕ × ℕ)
  | [] => none
  | ch :: s =>
    match _hpart : scanPart (ch :: s) with
    | none => none
    | some (currentValue, atLeastOneChar, []) =>
      if atLeastOneChar then some (parts, currentValue) else none
    | some (currentValue, atLeastOneChar, c :: rest) =>
      if c = '.'.toUInt8 then
        if 3 ≤ parts.length ∨ atLeastOneChar = false ∨ 0xFF < currentValue then none
        else scanParts (parts ++ [currentValue]) rest
      else none
termination_by s => s.length
decreasing_by
  have hle := length_scanPart_le _hpart
  simp only [List.length_cons] at hle ⊢
  omega

/-- SOURCE: 63-133 -/
def tryParseIPv4Groups (s : List UInt8) : Option UInt32 :=
  match scanParts [] s with
  | none => none
  | some (parts, currentValue) =>
    match parts with
    | [] => some (UInt32.ofNat currentValue)
    | [a] =>
      if 0xFFFFFF < currentValue then none
      else some (UInt32.ofNat a <<< 24 ||| UInt32.ofNat currentValue)
    | [a, b] =>
      if 0xFFFF < currentValue then none
      else some (UInt32.ofNat a <<< 24 ||| UInt32.ofNat b <<< 16 ||| UInt32.ofNat currentValue)
    | [a, b, c] =>
      if 0xFF < currentValue then none
      else some (UInt32.ofNat a <<< 24 ||| UInt32.ofNat b <<< 16 ||| UInt32.ofNat c <<< 8 |||
        UInt32.ofNat currentValue)
    | _ => none

theorem lt_of_find {c : UInt8} {start pos : ℕ} (h : find s c start = some pos) :
    start ≤ pos ∧ pos < s.length := by
  obtain ⟨i, hi, rfl⟩ := Option.map_eq_some_iff.mp h
  have hlt := (List.findIdx?_eq_some_iff_findIdx_eq.mp hi).1
  rw [List.length_drop] at hlt
  omega

/-- SOURCE: 135-148 -/
def splitFrom (s : List UInt8) (sep : UInt8) (start : ℕ) : Except Thrown (List (List UInt8)) :=
  match _hpos : find s sep start with
  | none => do
    let part ← substrFrom s start
    pure [part]
  | some pos => do
    let part ← substr s start (pos - start)
    let parts ← splitFrom s sep (pos + 1)
    pure (part :: parts)
termination_by s.length - start
decreasing_by
  have hlt := lt_of_find _hpos
  omega

def splitOn (s : List UInt8) (sep : UInt8) : Except Thrown (List (List UInt8)) := splitFrom s sep 0

/-- SOURCE: 152-159 -/
def hexGroupFrom : (value : ℕ) → List UInt8 → Option ℕ
  | value, [] => some value
  | value, c :: s =>
    if '0'.toUInt8 ≤ c ∧ c ≤ '9'.toUInt8 then
      hexGroupFrom (value <<< 4 ||| (c - '0'.toUInt8).toNat) s
    else if 'a'.toUInt8 ≤ c ∧ c ≤ 'f'.toUInt8 then
      hexGroupFrom (value <<< 4 ||| ((c - 'a'.toUInt8).toNat + 10)) s
    else if 'A'.toUInt8 ≤ c ∧ c ≤ 'F'.toUInt8 then
      hexGroupFrom (value <<< 4 ||| ((c - 'A'.toUInt8).toNat + 10)) s
    else none

/-- SOURCE: 150-162 -/
def parseHexGroup (s : List UInt8) : Option UInt16 :=
  if s.isEmpty || decide (4 < s.length) then none else (hexGroupFrom 0 s).map UInt16.ofNat

/-- SOURCE: 166-182 -/
def expandGroups : (tokens : List (List UInt8)) → Option (List UInt16)
  | [] => some []
  | tok :: tokens =>
    if '.'.toUInt8 ∈ tok then
      if tokens ≠ [] then none
      else (tryParseIPv4Groups tok).map fun (v4 : UInt32) =>
        [(v4 >>> 16).toUInt16, (v4 &&& 0xFFFF).toUInt16]
    else do
      let g ← parseHexGroup tok
      let out ← expandGroups tokens
      pure (g :: out)

/-- `std::isdigit` in the C locale. -/
def isdigit (c : UInt8) : Bool := decide ('0'.toUInt8 ≤ c ∧ c ≤ '9'.toUInt8)

/-- `std::from_chars` of a `uint32_t`: the number, and what is left. -/
def from_chars (s : List UInt8) : Option (UInt32 × List UInt8) :=
  let digits := s.takeWhile isdigit
  let value := Printed.value 10 (digits.map fun c => (c - '0'.toUInt8).toNat)
  if digits = [] ∨ 2 ^ 32 ≤ value then none else some (UInt32.ofNat value, s.dropWhile isdigit)

/-- The scope of an address, and what is in front of it.
SOURCE: 185-207 -/
def takeScope (input : List UInt8) : Except Thrown (Option (UInt32 × List UInt8)) :=
  match find input '%'.toUInt8 0 with
  | none => pure (some (0, input))
  | some pctPos => do
    let scopeStr ← substrFrom input (pctPos + 1)
    if scopeStr.isEmpty || !scopeStr.all isdigit then pure none
    else
      match from_chars scopeStr with
      | some (parsedScope, []) =>
        let s ← substr input 0 pctPos
        pure (some (parsedScope, s))
      | _ => pure none

/-- `std::string::find` of `"::"`. -/
def findDouble : List UInt8 → Option ℕ
  | a :: b :: s =>
    if a = ':'.toUInt8 ∧ b = ':'.toUInt8 then some 0 else (findDouble (b :: s)).map (· + 1)
  | _ => none

/-- The groups on one side of `"::"`.
SOURCE: 221-222 -/
def sideGroups (s : List UInt8) : Except Thrown (Option (List UInt16)) :=
  if s.isEmpty then pure (some [])
  else do
    let tokens ← splitOn s ':'.toUInt8
    pure (expandGroups tokens)

/-- The groups of an address without its scope.
SOURCE: 211-233 -/
def scanGroups (s : List UInt8) : Except Thrown (Option (List UInt16)) :=
  match findDouble s with
  | some dcPos =>
    if (findDouble (s.drop (dcPos + 1))).isSome then pure none
    else do
      let left ← substr s 0 dcPos
      let right ← substrFrom s (dcPos + 2)
      match ← sideGroups left with
      | none => pure none
      | some leftGroups =>
        match ← sideGroups right with
        | none => pure none
        | some rightGroups =>
          let total := leftGroups.length + rightGroups.length
          if 7 < total then pure none
          else pure (some (leftGroups ++ List.replicate (8 - total) 0 ++ rightGroups))
  | none => do
    let tokens ← splitOn s ':'.toUInt8
    match expandGroups tokens with
    | none => pure none
    | some allGroups => if allGroups.length ≠ 8 then pure none else pure (some allGroups)

/-- SOURCE: 184-238 -/
def tryParseIPv6 (input : List UInt8) : Except Thrown (Option (Vector UInt16 8 × UInt32)) := do
  match ← takeScope input with
  | none => pure none
  | some (scopeId, s) =>
    if find s ':'.toUInt8 0 = none then pure none
    else
      match ← scanGroups s with
      | none => pure none
      | some allGroups =>
        if h : allGroups.toArray.size = 8 then pure (some (⟨allGroups.toArray, h⟩, scopeId))
        else pure none

/-- A digit of a number. -/
def digitByte (d : ℕ) : UInt8 := if d < 10 then UInt8.ofNat (48 + d) else UInt8.ofNat (87 + d)

/-- An unsigned number in a `std::ostringstream`. -/
def decimal (n : ℕ) : List UInt8 := (Printed.numeral 10 n).map digitByte

/-- `snprintf` with the format `%x`. -/
def lowerHex (n : ℕ) : List UInt8 := (Printed.numeral 16 n).map digitByte

/-- Four octets with dots between them. -/
def dotted (a b c d : ℕ) : List UInt8 :=
  decimal a ++ '.'.toUInt8 :: (decimal b ++ '.'.toUInt8 :: (decimal c ++ '.'.toUInt8 :: decimal d))

/-- SOURCE: IPAddress.cpp:54-59 -/
def formatIPv4 (addr : UInt32) : List UInt8 :=
  dotted (addr >>> 24 &&& 0xFF).toNat (addr >>> 16 &&& 0xFF).toNat (addr >>> 8 &&& 0xFF).toNat
    (addr &&& 0xFF).toNat

/-- The groups that are compressed, if any.
SOURCE: 70-82 -/
structure Compression where
  bestStart : ℕ
  bestLen : ℕ
  two_le : 2 ≤ bestLen

/-- SOURCE: 70-82 -/
def compression (groups : List UInt16) : Option Compression :=
  let st := RunScan.scan (fun group => group == 0) 0 RunScan.initial groups
  match st.bestStart with
  | none => none
  | some bestStart => if h : 2 ≤ st.bestLen then some ⟨bestStart, st.bestLen, h⟩ else none

/-- The groups from `i` on.
SOURCE: 84-98 -/
def groupsFrom (groups : List UInt16) (best : Option Compression) (first : Bool) (i : ℕ) :
    List UInt8 :=
  if i < 8 then
    match best with
    | some c =>
      if i = c.bestStart then
        ':'.toUInt8 :: ':'.toUInt8 :: groupsFrom groups best true (i + c.bestLen)
      else
        (if first then [] else [':'.toUInt8]) ++ lowerHex (groups.getD i 0).toNat ++
          groupsFrom groups best false (i + 1)
    | none =>
      (if first then [] else [':'.toUInt8]) ++ lowerHex (groups.getD i 0).toNat ++
        groupsFrom groups best false (i + 1)
  else []
termination_by 8 - i
decreasing_by
  · have htwo := c.two_le
    omega
  · omega
  · omega

/-- SOURCE: 63-64 -/
def isMapped (groups : Vector UInt16 8) : Bool :=
  groups[0] == 0 && groups[1] == 0 && groups[2] == 0 && groups[3] == 0 && groups[4] == 0 &&
    groups[5] == 0xFFFF

/-- SOURCE: 61-104 -/
def formatIPv6 (groups : Vector UInt16 8) (scopeId : UInt32) : List UInt8 :=
  let oss :=
    if isMapped groups then
      [':', ':', 'f', 'f', 'f', 'f', ':'].map Char.toUInt8 ++
        dotted (groups[6] >>> 8).toNat (groups[6] &&& 0xFF).toNat
        (groups[7] >>> 8).toNat (groups[7] &&& 0xFF).toNat
    else groupsFrom groups.toList (compression groups.toList) true 0
  oss ++ if scopeId ≠ 0 then '%'.toUInt8 :: decimal scopeId.toNat else []

/-- SOURCE: 169-171 -/
def toString (a : IPAddress) : List UInt8 :=
  if a.isIPv6_ then formatIPv6 a.numbers_ a.addressOrScopeId_ else formatIPv4 a.addressOrScopeId_

/-- SOURCE: 293-306 -/
def tryParse (s : List UInt8) : Except Thrown (Option IPAddress) :=
  if find s ':'.toUInt8 0 ≠ none then do
    match ← tryParseIPv6 s with
    | none => pure none
    | some (groups, scopeId) => pure (some (ofGroups groups scopeId))
  else
    match tryParseIPv4Groups s with
    | none => pure none
    | some v4 => pure (some (ofAddress v4))

/-- SOURCE: 284-291 -/
def parse (s : List UInt8) : Except Thrown IPAddress := do
  match ← tryParse s with
  | none => .error (.runtime (.format "An invalid IP address was specified."))
  | some result => pure result

/-- SOURCE: 173-190 -/
def getAddressBytes (a : IPAddress) : List UInt8 :=
  if a.isIPv6_ then a.numbers_.toList.flatMap fun (n : UInt16) => [(n >>> 8).toUInt8, (n &&& 0xFF).toUInt8]
  else
    [(a.addressOrScopeId_ >>> 24 &&& 0xFF).toUInt8, (a.addressOrScopeId_ >>> 16 &&& 0xFF).toUInt8,
      (a.addressOrScopeId_ >>> 8 &&& 0xFF).toUInt8, (a.addressOrScopeId_ &&& 0xFF).toUInt8]

/-- The constructor over four bytes.
SOURCE: 108-114 -/
def ofBytes (bytes : List UInt8) : IPAddress :=
  ofAddress ((bytes.getD 0 0).toUInt32 <<< 24 ||| (bytes.getD 1 0).toUInt32 <<< 16 |||
    (bytes.getD 2 0).toUInt32 <<< 8 ||| (bytes.getD 3 0).toUInt32)

/-- The constructor over sixteen bytes and a scope.
SOURCE: 127-138 -/
def ofScopedBytes (bytes : List UInt8) (scopeId : UInt32) : IPAddress :=
  ofGroups (Vector.ofFn fun i => (bytes.getD (i * 2) 0).toUInt16 <<< 8 |||
    (bytes.getD (i * 2 + 1) 0).toUInt16) scopeId

/-- SOURCE: 226-230 -/
def mapToIPv4 (a : IPAddress) : IPAddress :=
  if a.isIPv6_ then ofAddress (a.numbers_[6].toUInt32 <<< 16 ||| a.numbers_[7].toUInt32) else a

end IPAddress

/-- SOURCE: IPNetwork.hpp:24-26 -/
structure IPNetwork where
  baseAddress_ : IPAddress
  prefixLength_ : ℕ
deriving DecidableEq

namespace IPNetwork

/-- SOURCE: IPNetwork.cpp:16-25 -/
def applyPrefixMask (bytes : List UInt8) (prefixLength : ℕ) : List UInt8 :=
  let fullBytes := prefixLength / 8
  let remBits := prefixLength % 8
  let firstClearedIndex := fullBytes + if remBits ≠ 0 then 1 else 0
  let cleared := bytes.mapIdx fun i b => if firstClearedIndex ≤ i then 0 else b
  if 0 < remBits ∧ fullBytes < bytes.length then
    cleared.modify fullBytes (· &&& UInt8.ofNat (0xFF <<< (8 - remBits)))
  else cleared

/-- SOURCE: 28-30 -/
def getMaxPrefixLength (baseAddress : IPAddress) : ℕ := if baseAddress.isIPv6_ then 128 else 32

/-- SOURCE: 32-50 -/
def clearNonPrefixBits (baseAddress : IPAddress) (prefixLength : ℕ) : IPAddress :=
  let bytes := applyPrefixMask baseAddress.getAddressBytes prefixLength
  if baseAddress.isIPv6_ then .ofScopedBytes bytes baseAddress.addressOrScopeId_
  else .ofBytes bytes

/-- The constructor.
SOURCE: 52-59 -/
def new (baseAddress : IPAddress) (prefixLength : ℤ) : Except Thrown IPNetwork :=
  if prefixLength < 0 ∨ prefixLength > getMaxPrefixLength baseAddress then
    .error (.runtime (.outOfRange "prefixLength"))
  else .ok ⟨clearNonPrefixBits baseAddress prefixLength.toNat, prefixLength.toNat⟩

/-- SOURCE: 61-88 -/
def contains (net : IPNetwork) (address : IPAddress) : Bool :=
  let compare (toCompare : IPAddress) :=
    applyPrefixMask toCompare.getAddressBytes net.prefixLength_ == net.baseAddress_.getAddressBytes
  if address.isIPv6_ ≠ net.baseAddress_.isIPv6_ then
    if !net.baseAddress_.isIPv6_ && address.isIPv6_ && IPAddress.isMapped address.numbers_ then
      compare address.mapToIPv4
    else false
  else compare address

/-- SOURCE: 90-92 -/
def toString (net : IPNetwork) : List UInt8 :=
  net.baseAddress_.toString ++ '/'.toUInt8 :: IPAddress.decimal net.prefixLength_

/-- `std::string::rfind` of a character. -/
def rfind (s : List UInt8) (c : UInt8) : Option ℕ :=
  (s.reverse.findIdx? (· == c)).map fun i => s.length - 1 - i

/-- `std::stol` of digits; `none` where it throws. -/
def stol (digits : List UInt8) : Option ℕ :=
  let value := digits.foldl (fun v c => v * 10 + (c - '0'.toUInt8).toNat) 0
  if value < 2 ^ 63 then some value else none

/-- SOURCE: 106-130 -/
def tryParse (s : List UInt8) : Except Thrown (Option IPNetwork) :=
  match rfind s '/'.toUInt8 with
  | none => .ok none
  | some sepIndex =>
    let addressPart := s.take sepIndex
    let prefixPart := s.drop (sepIndex + 1)
    if prefixPart.isEmpty || !prefixPart.all IPAddress.isdigit then .ok none
    else do
      match ← IPAddress.tryParse addressPart with
      | none => pure none
      | some address =>
        match stol prefixPart with
        | none => pure none
        | some prefixLength =>
          if prefixLength > getMaxPrefixLength address then pure none
          else some <$> new address prefixLength

/-- SOURCE: 98-104 -/
def parse (s : List UInt8) : Except Thrown IPNetwork := do
  match ← tryParse s with
  | none =>
    .error (.runtime (.format ("An invalid IP network was specified: " ++
      String.ofList (s.map fun c => Char.ofNat c.toNat))))
  | some result => pure result

end IPNetwork

end SharpRuntime.Model
