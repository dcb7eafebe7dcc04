import SharpRuntime.Model.Exception

/-!
# `Path`

The full path of a path in `modules/io/src/System/IO/Path.cpp`, under the source's names, where the
separator is a slash.  A path is the list of its bytes.
-/

set_option autoImplicit false

namespace SharpRuntime.Model.Path

/-- What the functions throw: an exception of the runtime, or an `IOException`. -/
inductive Failure where
  | runtime (e : Exception)
  | io (message : String)
deriving DecidableEq

def directorySeparatorChar : UInt8 := '/'.toUInt8

def altDirectorySeparatorChar : UInt8 := '/'.toUInt8

def dot : UInt8 := '.'.toUInt8

/-- SOURCE: Path.cpp:22-24 -/
def isDirSep (c : UInt8) : Bool := c = directorySeparatorChar || c = altDirectorySeparatorChar

/-- SOURCE: Path.cpp:28-30 -/
def getRootLength (path : List UInt8) : ℕ := if path.head?.any isDirSep then 1 else 0

/-- Where the last separator of the first bytes of the text stands, at `skip` or after it. -/
def lastSeparator (sb : List UInt8) (skip : ℕ) : ℕ → Option ℕ
  | 0 => none
  | s + 1 =>
    if skip < s + 1 then if sb[s]?.any isDirSep then some s else lastSeparator sb skip s else none

/-- What `..` leaves of the text written, `atEnd` when it ends the path.
SOURCE: Path.cpp:60-73 -/
def unwrite (sb : List UInt8) (skip : ℕ) (atEnd : Bool) : List UInt8 :=
  match lastSeparator sb skip sb.length with
  | some s => sb.take (if atEnd ∧ s = skip then s + 1 else s)
  | none => sb.take skip

/-- Nothing is left of the path, or a separator is next. -/
def endsSegment (rest : List UInt8) : Bool := rest.head?.all isDirSep

/-- The loop over what is left of the path, with the text written so far.
SOURCE: Path.cpp:46-80 -/
def removeLoop (skip : ℕ) (sb : List UInt8) : List UInt8 → List UInt8
  | [] => sb
  | c :: rest =>
    if isDirSep c ∧ rest ≠ [] then
      if rest.head?.any isDirSep then removeLoop skip sb rest
      else if endsSegment (rest.drop 1) ∧ rest.head? = some dot then
        removeLoop skip sb (rest.drop 1)
      else if 1 < rest.length ∧ endsSegment (rest.drop 2) ∧ rest.take 2 = [dot, dot] then
        removeLoop skip (unwrite sb skip (rest.drop 2).isEmpty) (rest.drop 2)
      else removeLoop skip (sb ++ [c]) rest
    else removeLoop skip (sb ++ [c]) rest
termination_by path => path.length
decreasing_by all_goals simp; try omega

/-- SOURCE: Path.cpp:35-86 -/
def removeRelativeSegments (path : List UInt8) (rootLength : ℕ) : List UInt8 :=
  let skip := if 0 < rootLength ∧ path[rootLength - 1]?.any isDirSep then rootLength - 1
    else rootLength
  let sb := removeLoop skip (path.take skip) (path.drop skip)
  if skip ≠ rootLength ∧ sb.length < rootLength then sb ++ path[rootLength - 1]?.toList else sb

/-- SOURCE: Path.cpp:220-222 -/
def isPathRooted (path : List UInt8) : Bool := path.head?.any isDirSep

/-- The two paths put together, with a separator where the first does not end in one.
SOURCE: Path.cpp:89-94 -/
def combine (path1 path2 : List UInt8) : List UInt8 :=
  if path1 = [] then path2
  else if path2 = [] then path1
  else if isPathRooted path2 then path2
  else if path1.getLast?.any isDirSep then path1 ++ path2
  else path1 ++ directorySeparatorChar :: path2

/-- The full path; `current_path` is the current directory, or the text of the error of asking
for it.
SOURCE: Path.cpp:148-164 -/
def getFullPath (current_path : Except String (List UInt8)) (path : List UInt8) :
    Except Failure (List UInt8) := do
  if path = [] then
    throw (.runtime (.argument "The value cannot be an empty string." "path"))
  if 0 ∈ path then throw (.runtime (.argument "Null character in path." "path"))
  let full ← if isPathRooted path then pure path else
    match current_path with
    | .ok cwd => pure (combine cwd path)
    | .error message => throw (.io ("Failed to get full path: " ++ message))
  let collapsed := removeRelativeSegments full (getRootLength full)
  return if collapsed = [] then [directorySeparatorChar] else collapsed

end SharpRuntime.Model.Path
