import SharpRuntime.Machine.Effects
import SharpRuntime.Model.DateTime
import SharpRuntime.Model.IPAddress

/-!
# `Cookie` and `CookieContainer`

`modules/net/include/System/Net/Cookie.hpp` and `modules/net/src/System/Net/CookieContainer.cpp`
(bare line numbers are of the latter) under the source's names.  Of a `Uri` a container reads the
scheme, the host and the path; the time and the zone of the process are a `Clock`.  The parser of
the `Expires` attribute, of another part of the library, is a parameter.
-/

set_option autoImplicit false

namespace SharpRuntime.Model

open Machine

/-- How a member of a container ends other than by returning. -/
inductive CookieFault where
  | cookieException (message : List UInt8)
  | runtime (e : Exception)
  /-- No exception of the source: the bound on the rounds of a loop was too small. -/
  | diverged
deriving DecidableEq

/-- What a container reads of a `Uri`. -/
structure CookieUri where
  scheme : List UInt8
  host : List UInt8
  absolutePath : List UInt8
deriving DecidableEq

/-- The time and the time zone. -/
structure Clock where
  utcNow : DateTime
  zone : ILocalTimeZone

/-- The bytes of a text of the source. -/
def asciiBytes (s : String) : List UInt8 := s.toList.map Char.toUInt8

/-- SOURCE: Cookie.hpp:186-194 -/
structure Cookie where
  name_ : List UInt8
  value_ : List UInt8
  domain_ : List UInt8
  path_ : List UInt8
  expires_ : DateTime
  secure_ : Bool
  httpOnly_ : Bool
  domainImplicit_ : Bool
  pathImplicit_ : Bool
deriving DecidableEq

namespace Cookie

/-- SOURCE: Cookie.hpp:36, 186-194 -/
def default : Cookie where
  name_ := []
  value_ := []
  domain_ := []
  path_ := []
  expires_ := DateTime.default
  secure_ := false
  httpOnly_ := false
  domainImplicit_ := true
  pathImplicit_ := true

/-- SOURCE: Cookie.hpp:76-84 -/
def setNameProperty (v : List UInt8) (c : Cookie) : Except CookieFault Cookie :=
  if v.isEmpty || v.head? == some '$'.toUInt8 then
    .error (.cookieException (asciiBytes "Cookie name must not be empty or start with '$'."))
  else if v.any fun b => decide (b ≤ 0x20) || b == 0x7F || b == '='.toUInt8 || b == ';'.toUInt8 ||
      b == ','.toUInt8 then
    .error (.cookieException (asciiBytes "Cookie name contains invalid characters: '" ++ v ++
      asciiBytes "'."))
  else .ok { c with name_ := v }

/-- SOURCE: Cookie.hpp:38-41 -/
def new (name value : List UInt8) : Except CookieFault Cookie := do
  let c ← setNameProperty name default
  pure { c with value_ := value }

/-- SOURCE: Cookie.hpp:95 -/
def setDomainProperty (v : List UInt8) (c : Cookie) : Cookie :=
  { c with domain_ := v, domainImplicit_ := false }

/-- SOURCE: Cookie.hpp:98 -/
def getPathProperty (c : Cookie) : List UInt8 :=
  if c.path_.isEmpty then ['/'.toUInt8] else c.path_

/-- SOURCE: Cookie.hpp:99 -/
def setPathProperty (v : List UInt8) (c : Cookie) : Cookie :=
  { c with path_ := v, pathImplicit_ := false }

/-- A conversion to universal time clamps, and does not throw.
SOURCE: 17-29 -/
def getExpiredProperty (clock : Clock) (c : Cookie) : Bool :=
  if c.expires_.ticks = 0 then false
  else
    let expiresUtc := if c.expires_.getKindProperty = DateTimeKind.utc then pure c.expires_
      else c.expires_.toUniversalTime clock.zone
    match expiresUtc.outcome with
    | .returned expiresUtc => decide (expiresUtc.ticks ≤ clock.utcNow.ticks)
    | _ => false

/-- The comparison that finds the cookie another one replaces.
SOURCE: 141-143 -/
def sameIdentity (existing stored : Cookie) : Bool :=
  existing.name_ == stored.name_ && existing.domain_ == stored.domain_ &&
    existing.getPathProperty == stored.getPathProperty

end Cookie

/-- SOURCE: CookieContainer.hpp:160-163 -/
structure CookieContainer where
  cookies_ : List Cookie
  capacity_ : ℤ
  perDomainCapacity_ : ℤ
  maxCookieSize_ : ℤ
deriving DecidableEq

/-- An operation on a container. -/
abbrev CookieProgram (α : Type) : Type := Program CookieFault CookieContainer α

namespace CookieContainer

/-- SOURCE: CookieContainer.hpp:66-70, 160-163 -/
def new : CookieContainer where
  cookies_ := []
  capacity_ := 300
  perDomainCapacity_ := 20
  maxCookieSize_ := 4096

/-- `std::tolower`, in the locale a program starts in.
SOURCE: 31-34 -/
def toLowerAscii (s : List UInt8) : List UInt8 :=
  s.map fun c => if 'A'.toUInt8 ≤ c ∧ c ≤ 'Z'.toUInt8 then c + 32 else c

/-- SOURCE: 41-50 -/
def isValidDomainName (domain : List UInt8) : Bool :=
  !domain.isEmpty && domain.all fun u =>
    decide ('a'.toUInt8 ≤ u ∧ u ≤ 'z'.toUInt8) || decide ('A'.toUInt8 ≤ u ∧ u ≤ 'Z'.toUInt8) ||
      decide ('0'.toUInt8 ≤ u ∧ u ≤ '9'.toUInt8) || u == '.'.toUInt8 || u == '-'.toUInt8 ||
      u == '_'.toUInt8

/-- A host that is written as an IP address.
SOURCE: 82-83 -/
def isIPLiteral (host : List UInt8) : Bool :=
  match IPAddress.tryParse host with
  | .ok (some _) => true
  | _ => false

/-- SOURCE: 70-85 -/
def domainMatches (cookieDomain host : List UInt8) : Bool :=
  if cookieDomain.isEmpty then true
  else
    let lowered := toLowerAscii cookieDomain
    let h := toLowerAscii host
    let domain := if lowered.head? == some '.'.toUInt8 then lowered.drop 1 else lowered
    if domain.isEmpty then false
    else if h == domain then true
    else if h.length ≤ domain.length then false
    else if h.drop (h.length - domain.length) ≠ domain then false
    else if h[h.length - domain.length - 1]? ≠ some '.'.toUInt8 then false
    else if !domain.contains '.'.toUInt8 then false
    else !isIPLiteral host

/-- SOURCE: 88-96 -/
def pathMatches (cookiePath requestPath : List UInt8) : Bool :=
  let cp := if cookiePath.isEmpty then ['/'.toUInt8] else cookiePath
  if requestPath == cp then true
  else if cp.length < requestPath.length ∧ requestPath.take cp.length = cp then
    cp.getLast? == some '/'.toUInt8 || requestPath[cp.length]? == some '/'.toUInt8
  else false

/-- The cookie that is stored: the defaults of the address are applied, and the checks passed.
SOURCE: 110-134 -/
def verified (maxCookieSize : ℤ) (uri : CookieUri) (cookie : Cookie) :
    Except CookieFault Cookie := do
  let stored ←
    if cookie.domainImplicit_ then pure { cookie with domain_ := uri.host }
    else if !isValidDomainName cookie.domain_ || !domainMatches cookie.domain_ uri.host then
      throw (.cookieException (asciiBytes "The 'Domain'='" ++ cookie.domain_ ++
        asciiBytes "' part of the cookie is invalid."))
    else pure cookie
  let stored := if stored.pathImplicit_ then { stored with path_ := uri.absolutePath } else stored
  if maxCookieSize < toIntcs stored.value_.length then
    throw (.cookieException (asciiBytes "The value size of the cookie is '" ++
      IPAddress.decimal stored.value_.length ++
      asciiBytes "'. This exceeds the configured maximum size, which is '" ++
      IPAddress.decimal maxCookieSize.toNat ++ asciiBytes "'."))
  else pure stored

/-- The loop that replaces a cookie of the same identity.
SOURCE: 140-147 -/
def replaceExisting (stored : Cookie) : List Cookie → Option (List Cookie)
  | [] => none
  | existing :: rest =>
    if existing.sameIdentity stored then some (stored :: rest)
    else (replaceExisting stored rest).map (existing :: ·)

/-- SOURCE: 205-214 -/
def purged (clock : Clock) (cookies : List Cookie) : List Cookie :=
  cookies.filter fun c => !c.getExpiredProperty clock

/-- The number of the cookies of a domain.
SOURCE: 154-155, 223-226 -/
def countIn (domain : List UInt8) (cookies : List Cookie) : ℤ :=
  toIntcs (cookies.countP fun c => c.domain_ == domain)

/-- The first loop of `ageCookies`: the oldest cookies of the domain go.
SOURCE: 228-237 -/
def ageDomain (domain : List UInt8) (domainTarget : ℤ) :
    (fuel : ℕ) → List Cookie → Option (List Cookie)
  | 0, _ => none
  | fuel + 1, cookies =>
    if domainTarget < countIn domain cookies then
      if cookies.any fun c => c.domain_ == domain then
        ageDomain domain domainTarget fuel (cookies.eraseP fun c => c.domain_ == domain)
      else some cookies
    else some cookies

/-- The second loop of `ageCookies`: the oldest cookies of all go; false where none is left.
SOURCE: 239-242 -/
def ageAll (capacity : ℤ) : (fuel : ℕ) → List Cookie → Option (Bool × List Cookie)
  | 0, _ => none
  | fuel + 1, cookies =>
    if capacity ≤ toIntcs cookies.length then
      match cookies with
      | [] => some (false, [])
      | _ :: rest => ageAll capacity fuel rest
    else some (true, cookies)

/-- SOURCE: 216-244 -/
def ageCookies (clock : Clock) (domain : List UInt8) : CookieProgram Bool := do
  modify fun s => { s with cookies_ := purged clock s.cookies_ }
  let s ← get
  let domainTarget := min s.perDomainCapacity_ s.capacity_ - 1
  match ageDomain domain domainTarget (s.cookies_.length + 1) s.cookies_ with
  | none => throw .diverged
  | some cookies =>
    modify fun s => { s with cookies_ := cookies }
    match ageAll s.capacity_ (cookies.length + 1) cookies with
    | none => throw .diverged
    | some (freed, rest) =>
      modify fun s => { s with cookies_ := rest }
      if freed then pure (decide (countIn domain rest ≤ domainTarget)) else pure false

/-- What follows the checks of `add`.
SOURCE: 140-160 -/
def addVerified (clock : Clock) (stored : Cookie) : CookieProgram Unit := do
  let s ← get
  match replaceExisting stored s.cookies_ with
  | some cookies => set { s with cookies_ := cookies }
  | none =>
    if stored.getExpiredProperty clock then pure ()
    else do
      let full := decide (s.perDomainCapacity_ ≤ countIn stored.domain_ s.cookies_) ||
        decide (s.capacity_ ≤ toIntcs s.cookies_.length)
      let room ← if full then ageCookies clock stored.domain_ else pure true
      if room then modify fun s => { s with cookies_ := s.cookies_ ++ [stored] } else pure ()

/-- SOURCE: 109-161 -/
def add (clock : Clock) (uri : CookieUri) (cookie : Cookie) : CookieProgram Unit := do
  match verified (← get).maxCookieSize_ uri cookie with
  | .error e => throw e
  | .ok stored => addVerified clock stored

/-- SOURCE: 246-248 -/
def addCollection (clock : Clock) (uri : CookieUri) : List Cookie → CookieProgram Unit
  | [] => pure ()
  | c :: cookies => do
    add clock uri c
    addCollection clock uri cookies

/-- The loop of `setCapacityProperty`.
SOURCE: 183-186 -/
def shrink (clock : Clock) (capacity : ℤ) : (fuel : ℕ) → List Cookie → Option (List Cookie)
  | 0, _ => none
  | fuel + 1, cookies =>
    if capacity < toIntcs cookies.length then
      let kept := purged clock cookies
      if toIntcs (cookies.length - kept.length) = 0 then
        shrink clock capacity fuel (kept.drop 1)
      else shrink clock capacity fuel kept
    else some cookies

/-- SOURCE: 174-187 -/
def setCapacityProperty (clock : Clock) (value : Int32) : CookieProgram Unit := do
  let s ← get
  if value.toInt ≤ 0 ∨ value.toInt < s.perDomainCapacity_ then
    throw (.runtime (.argumentOutOfRange "value"
      ("'Capacity' has to be greater than '0' and less than '" ++
      toString s.perDomainCapacity_ ++ "'.")))
  else do
    modify fun s => { s with capacity_ := value.toInt }
    match shrink clock value.toInt (s.cookies_.length + 2) s.cookies_ with
    | none => throw .diverged
    | some cookies => modify fun s => { s with cookies_ := cookies }

/-- SOURCE: 189-196 -/
def setPerDomainCapacityProperty (value : Int32) : CookieProgram Unit := do
  let s ← get
  if value.toInt ≤ 0 ∨ s.capacity_ < value.toInt then
    throw (.runtime (.argumentOutOfRange "value"
      ("'PerDomainCapacity' has to be greater than '0' and less than '" ++
      toString s.capacity_ ++ "'.")))
  else modify fun s => { s with perDomainCapacity_ := value.toInt }

/-- SOURCE: 198-203 -/
def setMaxCookieSizeProperty (value : Int32) : CookieProgram Unit :=
  if value.toInt ≤ 0 then
    throw (.runtime (.argumentOutOfRange "value" "'MaxCookieSize' has to be greater than '0'."))
  else modify fun s => { s with maxCookieSize_ := value.toInt }

/-- SOURCE: 251-256 -/
def trim (s : List UInt8) : List UInt8 :=
  let blank := fun c : UInt8 => c == ' '.toUInt8 || c == '\t'.toUInt8
  ((s.dropWhile blank).reverse.dropWhile blank).reverse

/-- The parts that `std::getline` reads up to each semicolon; nothing is read behind the last one.
`part` is the part read so far, its last byte first.
SOURCE: 262-267 -/
def segmentsFrom (part : List UInt8) : List UInt8 → List (List UInt8)
  | [] => if part.isEmpty then [] else [part.reverse]
  | c :: rest =>
    if c = ';'.toUInt8 then part.reverse :: segmentsFrom [] rest else segmentsFrom (c :: part) rest

/-- What is before the first `=` and what is behind it; `none` where there is none. -/
def splitAtEquals (s : List UInt8) : Option (List UInt8 × List UInt8) :=
  (s.findIdx? (· == '='.toUInt8)).map fun eq => (s.take eq, s.drop (eq + 1))

/-- `std::stoi`, if it reads the whole text: blanks, a sign, and digits of a number that fits.
SOURCE: 304-306 -/
def stoi (s : List UInt8) : Option ℤ :=
  let isspace := fun c : UInt8 => c == 0x20 || decide (0x09 ≤ c ∧ c ≤ 0x0D)
  let text := s.dropWhile isspace
  let negative := text.head? == some '-'.toUInt8
  let digits := if negative || text.head? == some '+'.toUInt8 then text.drop 1 else text
  if digits.isEmpty || digits.any fun c => !decide ('0'.toUInt8 ≤ c ∧ c ≤ '9'.toUInt8) then none
  else
    let magnitude : ℕ := digits.foldl (fun n c => 10 * n + (c.toNat - 48)) 0
    let value : ℤ := if negative then -magnitude else magnitude
    if -2147483648 ≤ value ∧ value ≤ intcsMax then some value else none

/-- The time of a `Max-Age` attribute; `none` where something is thrown.
SOURCE: 303-310 -/
def maxAgeExpires (clock : Clock) (attrValue : List UInt8) : Option DateTime :=
  match stoi attrValue with
  | none => none
  | some seconds =>
    let expires := if seconds ≤ 0 then do
        DateTime.specifyKind (← DateTime.ofComponents 1601 1 1 0 0 0 0) DateTimeKind.utc
      else clock.utcNow.addSeconds seconds
    match expires.outcome with
    | .returned t => some t
    | _ => none

/-- One attribute; the flag says that an expiration attribute has been seen.
SOURCE: 278-319 -/
def applyAttribute (clock : Clock) (tryParseCookieDate : List UInt8 → Option DateTime)
    (cookie : Cookie) (expirationSeen : Bool) (attr : List UInt8) :
    Except CookieFault (Cookie × Bool) :=
  if attr.isEmpty then .ok (cookie, expirationSeen)
  else
    let (namePart, valuePart) := (splitAtEquals attr).getD (attr, [])
    let attrName := toLowerAscii (trim namePart)
    let attrValue := trim valuePart
    if attrName = asciiBytes "domain" then .ok (cookie.setDomainProperty attrValue, expirationSeen)
    else if attrName = asciiBytes "path" then .ok (cookie.setPathProperty attrValue, expirationSeen)
    else if attrName = asciiBytes "secure" then .ok ({ cookie with secure_ := true }, expirationSeen)
    else if attrName = asciiBytes "httponly" then
      .ok ({ cookie with httpOnly_ := true }, expirationSeen)
    else if attrName = asciiBytes "expires" ∧ expirationSeen = false then
      match tryParseCookieDate attrValue with
      | none => .error (.cookieException (asciiBytes "SetCookies: invalid Expires attribute: '" ++
          attrValue ++ asciiBytes "'."))
      | some parsed => .ok ({ cookie with expires_ := parsed }, true)
    else if attrName = asciiBytes "max-age" ∧ expirationSeen = false then
      match maxAgeExpires clock attrValue with
      | none => .error (.cookieException (asciiBytes "SetCookies: invalid Max-Age attribute: '" ++
          attrValue ++ asciiBytes "'."))
      | some expires => .ok ({ cookie with expires_ := expires }, true)
    else .ok (cookie, expirationSeen)

/-- The attributes in their order.
SOURCE: 278-319 -/
def applyAttributes (clock : Clock) (tryParseCookieDate : List UInt8 → Option DateTime) :
    (cookie : Cookie) → (expirationSeen : Bool) → List (List UInt8) → Except CookieFault Cookie
  | cookie, _, [] => .ok cookie
  | cookie, expirationSeen, attr :: attrs => do
    let (cookie, expirationSeen) ←
      applyAttribute clock tryParseCookieDate cookie expirationSeen attr
    applyAttributes clock tryParseCookieDate cookie expirationSeen attrs

/-- The cookie of a header.
SOURCE: 260-320 -/
def parseCookie (clock : Clock) (tryParseCookieDate : List UInt8 → Option DateTime)
    (cookieHeader : List UInt8) : Except CookieFault Cookie := do
  match (segmentsFrom [] cookieHeader).map trim with
  | [] => .error (.cookieException (asciiBytes "SetCookies: empty Set-Cookie header value."))
  | pair :: attrs =>
    if pair.isEmpty then
      .error (.cookieException (asciiBytes "SetCookies: empty Set-Cookie header value."))
    else
      match splitAtEquals pair with
      | none => .error (.cookieException (asciiBytes
          "SetCookies: missing '=' in cookie Name=Value pair: '" ++ pair ++ asciiBytes "'."))
      | some (name, value) => do
        let cookie ← Cookie.new (trim name) (trim value)
        applyAttributes clock tryParseCookieDate cookie false attrs

/-- SOURCE: 259-322 -/
def setCookies (clock : Clock) (tryParseCookieDate : List UInt8 → Option DateTime)
    (uri : CookieUri) (cookieHeader : List UInt8) : CookieProgram Unit := do
  match parseCookie clock tryParseCookieDate cookieHeader with
  | .error e => throw e
  | .ok cookie => add clock uri cookie

/-- SOURCE: 333-347 -/
def getCookies (clock : Clock) (uri : CookieUri) (s : CookieContainer) : List Cookie :=
  let isSecureRequest := toLowerAscii uri.scheme == asciiBytes "https"
  let path := if uri.absolutePath.isEmpty then ['/'.toUInt8] else uri.absolutePath
  s.cookies_.filter fun c =>
    !c.getExpiredProperty clock && !(c.secure_ && !isSecureRequest) &&
      domainMatches c.domain_ uri.host && pathMatches c.getPathProperty path

end CookieContainer

end SharpRuntime.Model
