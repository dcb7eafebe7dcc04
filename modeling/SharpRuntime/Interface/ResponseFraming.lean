import SharpRuntime.Model.HttpClientHandler

/-!
# The framing of a response

A response is a stream of bytes that ends; how it is cut into pieces on its way says nothing about
it.  A chunked body is complete when every chunk has its size, its data and the line end behind
them, up to a chunk of size zero, the fields of a trailer and a line end; a body with a length has
so many bytes.
-/

set_option autoImplicit false

namespace SharpRuntime.Interface.ResponseFraming

open Machine Model Model.HttpClientHandler

/-- What may follow a chunk size: nothing, or extensions behind a semicolon, which blanks may
precede. -/
inductive IsExtension : List UInt8 → Prop
  | absent : IsExtension []
  | present (blanks more : List UInt8) (hblanks : ∀ c ∈ blanks, c = ' '.toUInt8 ∨ c = '\t'.toUInt8) :
    IsExtension (blanks ++ ';'.toUInt8 :: more)

/-- A line with a chunk size. -/
structure IsSizeLine (line : List UInt8) (size : ℕ) : Prop where
  parts : ∃ digits extension, line = digits ++ extension ∧ digits ≠ [] ∧
    (∀ c ∈ digits, isDigit 16 c = true) ∧ digitsValue 16 digits = size ∧ IsExtension extension
  line : ¬ [13, 10] <:+: line

/-- Fields behind the last chunk: lines with a name in front of a colon. -/
inductive IsTrailer : List UInt8 → Prop
  | absent : IsTrailer []
  | field {name value more : List UInt8} (hname : name ≠ [])
    (hline : ¬ [13, 10] <:+: name ++ ':'.toUInt8 :: value) (hmore : IsTrailer more) :
    IsTrailer (name ++ ':'.toUInt8 :: value ++ 13 :: 10 :: more)

/-- The text of a complete chunked body, and the data of its chunks. -/
inductive ChunkedBody : List UInt8 → List UInt8 → Prop
  | last {line trailer : List UInt8} (hline : IsSizeLine line 0) (htrailer : IsTrailer trailer) :
    ChunkedBody (line ++ 13 :: 10 :: (trailer ++ [13, 10])) []
  | chunk {line data text more : List UInt8} (hdata : data ≠ []) (hline : IsSizeLine line data.length)
    (hmore : ChunkedBody text more) :
    ChunkedBody (line ++ 13 :: 10 :: (data ++ 13 :: 10 :: text)) (data ++ more)

/-- The first line and what follows it; a line that the end of the stream cuts off is a line. -/
def firstLine (s : List UInt8) : List UInt8 × List UInt8 := (untilPair 13 10 s).getD (s, [])

def readHeaderLines : (fuel : ℕ) → ResponseHead → StreamReader ResponseFault UInt8 ResponseHead
  | 0, _ => throw .diverged
  | fuel + 1, head => do
    let line ← fun s => .ok (firstLine s)
    if line.isEmpty then pure head
    else match headerLine head line with
      | .ok head => readHeaderLines fuel head
      | .error e => throw e

def readHead : StreamReader ResponseFault UInt8 ResponseHead := do
  let statusLine ← fun s => .ok (firstLine s)
  match headOfStatusLine statusLine with
  | .ok head => do readHeaderLines ((← get).length + 1) head
  | .error e => throw e

def sizeText (s : List UInt8) : List UInt8 := stripExtensions (firstLine s).1

def behind (s : List UInt8) (size : ℕ) : List UInt8 := (firstLine ((firstLine s).2.drop size)).2

/-- A body that the loop comes to an end of: chunks with anything for a size that `std::stoul` reads
and any line behind their data, up to a line without a size or with one that is read as zero. -/
inductive Ends (limit : ℕ) : List UInt8 → Prop
  | noSize {s : List UInt8} (hsize : sizeText s = []) : Ends limit s
  | last {s : List UInt8} (hsize : stoul (sizeText s) = some 0) : Ends limit s
  | chunk {s : List UInt8} {size : ℕ} (hsize : stoul (sizeText s) = some size) (hpos : 0 < size)
    (hlimit : size ≤ limit) (hdata : size ≤ (firstLine s).2.length) (hmore : Ends limit (behind s size)) :
    Ends limit s

/-- A body that the loop comes to an end of although it departs from the form of a chunked body: a
line has no size or is cut off, something is read as a size that is none, or something other than a
line end follows the data. -/
inductive Strays (limit : ℕ) : List UInt8 → Prop
  | noSize {s : List UInt8} (hsize : sizeText s = []) : Strays limit s
  | last {s : List UInt8} (hsize : stoul (sizeText s) = some 0)
    (hodd : ¬ ∃ line trailer extra, IsSizeLine line 0 ∧ IsTrailer trailer ∧
      s = line ++ 13 :: 10 :: (trailer ++ 13 :: 10 :: extra)) : Strays limit s
  | chunk {s : List UInt8} {size : ℕ} (hsize : stoul (sizeText s) = some size) (hpos : 0 < size)
    (hlimit : size ≤ limit) (hdata : size ≤ (firstLine s).2.length)
    (hodd : ¬ ∃ line data extra, IsSizeLine line size ∧ data.length = size ∧
      s = line ++ 13 :: 10 :: (data ++ 13 :: 10 :: extra))
    (hmore : Ends limit (behind s size)) : Strays limit s
  | later {s : List UInt8} {size : ℕ} (hsize : stoul (sizeText s) = some size) (hpos : 0 < size)
    (hlimit : size ≤ limit) (hdata : size ≤ (firstLine s).2.length)
    (hmore : Strays limit (behind s size)) : Strays limit s

/-- An exception of the class that the failures of requests have. -/
def IsHttpRequestException (e : ResponseFault) : Prop :=
  ∃ error message, e = .httpRequestException error message

variable (maxBody : ℕ) (run : ResponseProgram (List UInt8)) (d : Delivery UInt8)

/-- What is returned are the data of a complete chunked body, all else is an
`HttpRequestException`, and a complete body within the limit is returned. -/
def FramesChunks : Prop :=
  (∀ body d', run d = .ok body d' →
    ∃ text extra, d.stream = text ++ extra ∧ ChunkedBody text body) ∧
  (∀ e d', run d = .error e d' → IsHttpRequestException e) ∧
  ∀ text extra body, d.stream = text ++ extra → ChunkedBody text body →
    body.length ≤ maxBody → body.length < 2 ^ 64 → ∃ d', run d = .ok body d'

/-- What is returned has the length, all else is an `HttpRequestException`, and a body of the length
within the limit is returned. -/
def FramesLength (contentLength : ℤ) : Prop :=
  (∀ body d', run d = .ok body d' → (body.length : ℤ) = contentLength ∧ body <+: d.stream) ∧
  (∀ e d', run d = .error e d' → IsHttpRequestException e) ∧
  (contentLength ≤ maxBody → contentLength ≤ d.stream.length → ∃ body d', run d = .ok body d')

/-- However the stream is cut, the outcome is the same, and a body that is chunked or has a length
is framed so. -/
structure Framed (method : List UInt8) (maxBody : ℕ) (stream : List UInt8) : Prop where
  same : ∀ pieces pieces' : List (List UInt8), pieces.flatten = stream → pieces'.flatten = stream →
    answer (receiveResponse method maxBody ⟨[], pieces⟩) =
      answer (receiveResponse method maxBody ⟨[], pieces'⟩)
  chunked : ∀ (pieces : List (List UInt8)) head d, pieces.flatten = stream →
    receiveHead ⟨[], pieces⟩ = .ok head d → noBody method head = false →
    head.transferEncoding = asciiBytes "chunked" →
    FramesChunks maxBody (receiveBody method maxBody head) d
  length : ∀ (pieces : List (List UInt8)) head d, pieces.flatten = stream →
    receiveHead ⟨[], pieces⟩ = .ok head d → noBody method head = false →
    head.transferEncoding ≠ asciiBytes "chunked" → 0 ≤ head.contentLength →
    FramesLength maxBody (receiveBody method maxBody head) d head.contentLength

/-- The body is not chunked with a departure that the loop passes over, and not one that is read up
to the end of the stream and is over the limit but short enough to arrive with the head. -/
def Checked (method : List UInt8) (maxBody : ℕ) (stream : List UInt8) : Prop :=
  ∀ head body, readHead stream = .ok (head, body) → noBody method head = false →
    (head.transferEncoding = asciiBytes "chunked" → ¬ Strays maxBody body) ∧
    (head.transferEncoding ≠ asciiBytes "chunked" → head.contentLength < 0 →
      ¬ (maxBody < body.length ∧ body.length < 2048))

end SharpRuntime.Interface.ResponseFraming
