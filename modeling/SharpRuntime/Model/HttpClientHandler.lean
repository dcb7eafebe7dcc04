import SharpRuntime.Machine.Delivery
import SharpRuntime.Model.CookieContainer

/-!
# `HttpClientHandler`

How `HttpClientHandler::Send` reads a response, of
`modules/net-http/src/System/Net/Http/HttpClientHandler.cpp`, with the status line as
`HttpClient.cpp` parses it, under the source's names.  A string is the list of its bytes.  A call of
`recv` that returns nothing or fails is the end of what the peer sends. Lines cited without a file
are those of `HttpClientHandler.cpp`.
-/

set_option autoImplicit false

namespace SharpRuntime.Model

open Machine

/-- SOURCE: HttpRequestError.hpp:13-38 -/
inductive HttpRequestError where
  | unknown
  | nameResolutionError
  | connectionError
  | secureConnectionError
  | httpProtocolError
  | extendedConnectNotSupported
  | versionNegotiationError
  | userAuthenticationError
  | proxyTunnelError
  | invalidResponse
  | responseEnded
  | configurationLimitExceeded
deriving DecidableEq

/-- How the reading of a response ends other than by returning. -/
inductive ResponseFault where
  | httpRequestException (error : HttpRequestError) (message : List UInt8)
  | runtime (e : Exception)
  /-- No exception of the source: the bound on the rounds of a loop was too small. -/
  | diverged
deriving DecidableEq

/-- SOURCE: HttpRequestException.hpp:41 -/
def ResponseFault.request (message : List UInt8) : ResponseFault :=
  .httpRequestException .unknown message

/-- A program that receives from the socket and keeps the carry buffer `buf`. -/
abbrev ResponseProgram (α : Type) : Type := Program ResponseFault (Delivery UInt8) α

namespace HttpClientHandler

open CookieContainer (toLowerAscii)

/-- The loop of `recvLine`.
SOURCE: 139-153 -/
def recvLineWithin : (fuel : ℕ) → ResponseProgram (List UInt8)
  | 0 => throw .diverged
  | fuel + 1 => do
    let d ← get
    match untilPair 13 10 d.carried with
    | some (line, rest) => do
      set { d with carried := rest }
      pure line
    | none =>
      let tmp := receive 2048 d.pieces
      if tmp.1.isEmpty then do
        set ({ carried := [], pieces := tmp.2 } : Delivery UInt8)
        pure d.carried
      else do
        set ({ carried := d.carried ++ tmp.1, pieces := tmp.2 } : Delivery UInt8)
        recvLineWithin fuel

/-- SOURCE: 137-154 -/
def recvLine : ResponseProgram (List UInt8) := do
  let d ← get
  recvLineWithin (d.pieces.flatten.length + 1)

/-- SOURCE: 169-174 -/
def responseTooLarge (limit : ℕ) : ResponseFault :=
  .httpRequestException .configurationLimitExceeded
    (asciiBytes "HttpClient: the response body exceeds MaxResponseContentBufferSize (" ++
      IPAddress.decimal limit ++ asciiBytes " bytes).")

/-- SOURCE: 187-188 -/
def responseEnded : ResponseFault :=
  .httpRequestException .responseEnded
    (asciiBytes "HttpClient: connection closed before the full response body was received.")

/-- The loop of `recvExact`.
SOURCE: 182-191 -/
def fillTo (count : ℕ) : (fuel : ℕ) → ResponseProgram Unit
  | 0 => throw .diverged
  | fuel + 1 => do
    let d ← get
    if d.carried.length < count then
      let tmp := receive (min 4096 (count - d.carried.length)) d.pieces
      if tmp.1.isEmpty then throw responseEnded
      else do
        set ({ carried := d.carried ++ tmp.1, pieces := tmp.2 } : Delivery UInt8)
        fillTo count fuel
    else pure ()

/-- SOURCE: 176-196 -/
def recvExact (count limit : ℕ) : ResponseProgram (List UInt8) := do
  if limit < count then throw (responseTooLarge limit)
  else do
    fillTo count ((← get).pieces.flatten.length + 1)
    let d ← get
    set { d with carried := d.carried.drop count }
    pure (d.carried.take count)

/-- The loop of `recvAll`.
SOURCE: 201-209 -/
def fillUp (limit : ℕ) : (fuel : ℕ) → ResponseProgram Unit
  | 0 => throw .diverged
  | fuel + 1 => do
    let d ← get
    let tmp := receive 4096 d.pieces
    if tmp.1.isEmpty then pure ()
    else do
      set ({ carried := d.carried ++ tmp.1, pieces := tmp.2 } : Delivery UInt8)
      if limit < (d.carried ++ tmp.1).length then throw (responseTooLarge limit)
      else fillUp limit fuel

/-- SOURCE: 199-213 -/
def recvAll (limit : ℕ) : ResponseProgram (List UInt8) := do
  fillUp limit ((← get).pieces.flatten.length + 1)
  let d ← get
  set { d with carried := ([] : List UInt8) }
  pure d.carried

/-- SOURCE: ProtocolFieldValidation.hpp:46-50 -/
def containsProtocolControlCharacter (text : List UInt8) : Bool :=
  text.contains 13 || text.contains 10 || text.contains 0

/-- SOURCE: 220-225 -/
def trimValue (s : List UInt8) : List UInt8 :=
  let blank := fun c : UInt8 => c == ' '.toUInt8 || c == '\t'.toUInt8
  ((s.dropWhile blank).reverse.dropWhile blank).reverse

/-- `std::isspace`, in the locale a program starts in. -/
def isspace (c : UInt8) : Bool := c == 0x20 || decide (0x09 ≤ c ∧ c ≤ 0x0D)

/-- The value of a digit of a number to base 16. -/
def digitValue (c : UInt8) : Option ℕ :=
  if '0'.toUInt8 ≤ c ∧ c ≤ '9'.toUInt8 then some (c.toNat - 48)
  else if 'a'.toUInt8 ≤ c ∧ c ≤ 'f'.toUInt8 then some (c.toNat - 87)
  else if 'A'.toUInt8 ≤ c ∧ c ≤ 'F'.toUInt8 then some (c.toNat - 55)
  else none

/-- A digit of a number to the given base, which is at most 16. -/
def isDigit (base : ℕ) (c : UInt8) : Bool := (digitValue c).any (· < base)

/-- The number that digits write. -/
def digitsValue (base : ℕ) (digits : List UInt8) : ℕ :=
  digits.foldl (fun n c => base * n + (digitValue c).getD 0) 0

/-- Whether a number is negative, and its text behind the sign. -/
def splitSign (text : List UInt8) : Bool × List UInt8 :=
  if text.head? = some '-'.toUInt8 then (true, text.drop 1)
  else if text.head? = some '+'.toUInt8 then (false, text.drop 1)
  else (false, text)

/-- `std::stoll` to base 10; `none` where it throws.  What follows the digits is not read. -/
def stoll (s : List UInt8) : Option ℤ :=
  let (negative, text) := splitSign (s.dropWhile isspace)
  let digits := text.takeWhile (isDigit 10)
  if digits.isEmpty then none
  else
    let value : ℤ := if negative then -digitsValue 10 digits else digitsValue 10 digits
    if -9223372036854775808 ≤ value ∧ value ≤ 9223372036854775807 then some value else none

/-- A prefix `0x` that a digit follows is left out. -/
def dropPrefix : List UInt8 → List UInt8
  | zero :: x :: d :: rest =>
    if zero = '0'.toUInt8 ∧ (x = 'x'.toUInt8 ∨ x = 'X'.toUInt8) ∧ isDigit 16 d then d :: rest
    else zero :: x :: d :: rest
  | text => text

/-- `std::stoul` to base 16, of 64 bits; `none` where it throws.  A negative number is taken from
`2 ^ 64`; what follows the digits is not read. -/
def stoul (s : List UInt8) : Option ℕ :=
  let (negative, text) := splitSign (s.dropWhile isspace)
  let digits := (dropPrefix text).takeWhile (isDigit 16)
  if digits.isEmpty ∨ 2 ^ 64 ≤ digitsValue 16 digits then none
  else if negative then some ((2 ^ 64 - digitsValue 16 digits) % 2 ^ 64)
  else some (digitsValue 16 digits)

/-- SOURCE: HttpClient.cpp:42-56 -/
def tryParseWholeUnsignedField (text : List UInt8) (maxDigits maxValue : ℕ) : Option ℕ :=
  if text.isEmpty ∨ maxDigits < text.length then none
  else if text.all (isDigit 10) then
    if digitsValue 10 text ≤ maxValue then some (digitsValue 10 text) else none
  else none

/-- What is read of the lines before the body.
SOURCE: HttpResponseMessage.hpp:19-23, HttpClientHandler.cpp:369-371 -/
structure ResponseHead where
  statusCode : ℕ
  reason : List UInt8
  headers : List (List UInt8 × List UInt8)
  transferEncoding : List UInt8
  contentLength : ℤ
  setCookieValues : List (List UInt8)
deriving DecidableEq

/-- SOURCE: HttpFieldValidation.hpp:61-67 -/
def throwIfControlCharacter (text : List UInt8) (fieldName : String) : Except ResponseFault Unit :=
  if containsProtocolControlCharacter text then
    .error (.runtime (.format ("System::Net::Http: the value of '" ++ fieldName ++
      "' must not contain a carriage return, a line feed or a NUL character.")))
  else .ok ()

/-- The version is not examined further.
SOURCE: HttpClient.cpp:265-271 -/
def versionWellFormed (versionToken : List UInt8) : Bool :=
  match versionToken with
  | [h, t, t', p, slash, major, dot, minor] =>
    [h, t, t', p, slash] == asciiBytes "HTTP/" && isDigit 10 major && dot == '.'.toUInt8 &&
      isDigit 10 minor
  | _ => false

/-- The status code and the reason phrase.
SOURCE: HttpClient.cpp:234-297 -/
def parseStatusLine (statusLine : List UInt8) : Except ResponseFault (ℕ × List UInt8) :=
  let malformed := .request (asciiBytes "HttpClient: malformed status line: '" ++ statusLine ++
    asciiBytes "'")
  if containsProtocolControlCharacter statusLine then
    .error (.request (asciiBytes ("HttpClient: the response status line contains a carriage " ++
      "return, a line feed or a NUL character.")))
  else match statusLine.findIdx? (· == ' '.toUInt8) with
    | none => .error malformed
    | some sp1 =>
      if versionWellFormed (statusLine.take sp1) then
        let rest := statusLine.drop (sp1 + 1)
        let sp2 := rest.findIdx? (· == ' '.toUInt8)
        let codeStr := rest.take (sp2.getD rest.length)
        match tryParseWholeUnsignedField codeStr 3 999 with
        | some code =>
          if codeStr.length = 3 then .ok (code, sp2.elim [] fun sp2 => rest.drop (sp2 + 1))
          else .error malformed
        | none => .error malformed
      else .error (.request (asciiBytes "HttpClient: malformed HTTP version in status line: '" ++
        statusLine ++ asciiBytes "'"))

/-- SOURCE: 361-366, HttpResponseMessage.hpp:41-49, 88-91 -/
def headOfStatusLine (statusLine : List UInt8) : Except ResponseFault ResponseHead := do
  let (statusCode, reason) ← parseStatusLine statusLine
  if 999 < statusCode then
    throw (.runtime (.argumentOutOfRange "value" "The status code must not exceed 999."))
  else do
    throwIfControlCharacter reason "reason phrase"
    pure ⟨statusCode, reason, [], [], -1, []⟩

/-- SOURCE: HttpFieldValidation.hpp:112-125 -/
def fieldNamesMatch (a b : List UInt8) : Bool := toLowerAscii a == toLowerAscii b

/-- SOURCE: HttpFieldValidation.hpp:135-144 -/
def setFieldReplacingCaseVariants (fields : List (List UInt8 × List UInt8))
    (name value : List UInt8) : List (List UInt8 × List UInt8) :=
  let fields := fields.eraseP fun field => fieldNamesMatch field.1 name
  if fields.any (·.1 == name) then
    fields.map fun field => if field.1 = name then (name, value) else field
  else fields ++ [(name, value)]

/-- SOURCE: HttpResponseMessage.hpp:136-141 -/
def setHeader (headers : List (List UInt8 × List UInt8)) (name value : List UInt8) :
    Except ResponseFault (List (List UInt8 × List UInt8)) := do
  throwIfControlCharacter name "header name"
  throwIfControlCharacter value "header value"
  pure (setFieldReplacingCaseVariants headers name value)

/-- What a line between the status line and the body adds.
SOURCE: 385-415 -/
def headerLine (head : ResponseHead) (line : List UInt8) : Except ResponseFault ResponseHead :=
  if containsProtocolControlCharacter line then
    .error (.request (asciiBytes ("HttpClient: a response header line contains a carriage " ++
      "return, a line feed or a NUL character.")))
  else match line.findIdx? (· == ':'.toUInt8) with
    | none => .ok head
    | some colon => do
      let name := line.take colon
      let value := trimValue (line.drop (colon + 1))
      let headers ← setHeader head.headers name value
      let head := { head with headers := headers }
      let nameLower := toLowerAscii name
      let head := if nameLower = asciiBytes "transfer-encoding" then
          { head with transferEncoding := toLowerAscii value }
        else head
      let head := if nameLower = asciiBytes "set-cookie" then
          { head with setCookieValues := head.setCookieValues ++ [value] }
        else head
      if nameLower = asciiBytes "content-length" then
        match stoll value with
        | some contentLength => pure { head with contentLength := contentLength }
        | none => .error (.request (asciiBytes "HttpClient: malformed Content-Length header: '" ++
            value ++ asciiBytes "'"))
      else pure head

/-- The loop over the lines.
SOURCE: 373-416 -/
def headerLinesWithin : (fuel : ℕ) → ResponseHead → ResponseProgram ResponseHead
  | 0, _ => throw .diverged
  | fuel + 1, head => do
    let line ← recvLine
    if line.isEmpty then pure head
    else match headerLine head line with
      | .ok head => headerLinesWithin fuel head
      | .error e => throw e

/-- SOURCE: 357-416 -/
def receiveHead : ResponseProgram ResponseHead := do
  let statusLine ← recvLine
  match headOfStatusLine statusLine with
  | .ok head => do headerLinesWithin ((← get).stream.length + 1) head
  | .error e => throw e

/-- SOURCE: 418-422 -/
def noBody (method : List UInt8) (head : ResponseHead) : Bool :=
  method == asciiBytes "HEAD" || decide (100 ≤ head.statusCode ∧ head.statusCode < 200) ||
    head.statusCode == 204 || head.statusCode == 304

/-- A line without its chunk extensions.
SOURCE: 430-432 -/
def stripExtensions (chunkLine : List UInt8) : List UInt8 :=
  chunkLine.takeWhile (· != ';'.toUInt8)

/-- The loop over the chunks.
SOURCE: 428-453 -/
def chunksWithin (maxBody : ℕ) : (fuel : ℕ) → (bodyBytes : List UInt8) →
    ResponseProgram (List UInt8)
  | 0, _ => throw .diverged
  | fuel + 1, bodyBytes => do
    let chunkLine := stripExtensions (← recvLine)
    if chunkLine.isEmpty then pure bodyBytes
    else match stoul chunkLine with
      | none => throw (.request (asciiBytes "HttpClient: malformed chunk size: '" ++ chunkLine ++
          asciiBytes "'"))
      | some chunkSize =>
        if chunkSize = 0 then do
          let _ ← recvLine
          pure bodyBytes
        else do
          let chunk ← recvExact chunkSize maxBody
          let _ ← recvLine
          chunksWithin maxBody fuel (bodyBytes ++ chunk)

/-- The bytes of the body.
SOURCE: 424-459 -/
def receiveBody (method : List UInt8) (maxBody : ℕ) (head : ResponseHead) :
    ResponseProgram (List UInt8) := do
  if noBody method head then pure []
  else if head.transferEncoding = asciiBytes "chunked" then do
    chunksWithin maxBody ((← get).stream.length + 1) []
  else if 0 ≤ head.contentLength then recvExact head.contentLength.toNat maxBody
  else recvAll maxBody

/-- The response to a request, with the bytes of its content.
SOURCE: 356-459 -/
def receiveResponse (method : List UInt8) (maxBody : ℕ) :
    ResponseProgram (ResponseHead × List UInt8) := do
  let head ← receiveHead
  let bodyBytes ← receiveBody method maxBody head
  pure (head, bodyBytes)

end HttpClientHandler

end SharpRuntime.Model
