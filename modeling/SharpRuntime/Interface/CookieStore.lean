import SharpRuntime.Machine.BoundedStore
import SharpRuntime.Machine.Transitions
import SharpRuntime.Model.CookieContainer

/-!
# Histories of a `CookieContainer`

The calls that change a container, each at a time and in a zone of its own, in any order.  Beside
them stand what holds of the stored cookies, and what each call promises.
-/

set_option autoImplicit false

namespace SharpRuntime.Interface.CookieStore

open Machine Model
open CookieContainer
open CookieContainer

/-- The calls that change a container. -/
inductive CookieCall where
  | add (uri : CookieUri) (cookie : Cookie)
  | addCollection (uri : CookieUri) (cookies : List Cookie)
  | setCookies (uri : CookieUri) (cookieHeader : List UInt8)
  | setCapacityProperty (value : Int32)
  | setPerDomainCapacityProperty (value : Int32)
  | setMaxCookieSizeProperty (value : Int32)

/-- A call, and the clock it reads. -/
structure CookieAction where
  clock : Clock
  call : CookieCall

variable (tryParseCookieDate : List UInt8 → Option DateTime)

def CookieAction.program (action : CookieAction) : CookieProgram Unit :=
  match action.call with
  | .add uri cookie => add action.clock uri cookie
  | .addCollection uri cookies => addCollection action.clock uri cookies
  | .setCookies uri cookieHeader =>
    setCookies action.clock tryParseCookieDate uri cookieHeader
  | .setCapacityProperty value => setCapacityProperty action.clock value
  | .setPerDomainCapacityProperty value => setPerDomainCapacityProperty value
  | .setMaxCookieSizeProperty value => setMaxCookieSizeProperty value

def step (s : CookieContainer) (action : CookieAction) : Option CookieContainer :=
  some (after (action.program tryParseCookieDate s))

/-- The next cookie of a collection; where one is refused, none follows. -/
def addNext (clock : Clock) (uri : CookieUri) (s : CookieContainer) (cookie : Cookie) :
    Option CookieContainer :=
  match add clock uri cookie s with
  | .ok _ s' => some s'
  | .error _ _ => none

def defaulted (uri : CookieUri) (cookie : Cookie) : Cookie :=
  { cookie with
    domain_ := if cookie.domainImplicit_ then uri.host else cookie.domain_
    path_ := if cookie.pathImplicit_ then uri.absolutePath else cookie.path_ }

def identity (c : Cookie) : List UInt8 × List UInt8 × List UInt8 :=
  (c.name_, c.domain_, c.getPathProperty)

/-- No two stored cookies have the same name, domain and path, and there are no more of them, of
all and of each domain, than the limits say. -/
structure StoreInvariant (s : CookieContainer) : Prop where
  bounded : Bounded identity Cookie.domain_ s.capacity_ s.perDomainCapacity_ s.cookies_
  perDomainCapacity_le : s.perDomainCapacity_ ≤ s.capacity_
  perDomainCapacity_pos : 0 < s.perDomainCapacity_
  capacity_le : s.capacity_ ≤ intcsMax

/-- An expired cookie that is not refused removes the cookie of its identity, and nothing else
changes. -/
def ExpiredRemoves (clock : Clock) (uri : CookieUri) (s : CookieContainer) (cookie : Cookie) : Prop :=
  ∀ stored, verified s.maxCookieSize_ uri cookie = .ok stored →
    stored.getExpiredProperty clock = true →
      add clock uri cookie s =
        .ok () { s with cookies_ := s.cookies_.filter fun c => decide (identity c ≠ identity stored) }

/-- What a call adds; a collection is added one cookie after another. -/
def RemovesExpired (s : CookieContainer) (action : CookieAction) : Prop :=
  match action.call with
  | .add uri cookie => ExpiredRemoves action.clock uri s cookie
  | .addCollection uri cookies =>
    Along (addNext action.clock uri) (ExpiredRemoves action.clock uri) s cookies
  | .setCookies uri cookieHeader => ∀ cookie,
    parseCookie action.clock tryParseCookieDate cookieHeader = .ok cookie →
      ExpiredRemoves action.clock uri s cookie
  | _ => True

/-- What a call leaves and promises. -/
structure Meets (s : CookieContainer) (action : CookieAction) : Prop where
  invariant : StoreInvariant (after (action.program tryParseCookieDate s))
  /-- Every loop ends. -/
  terminates : answer (action.program tryParseCookieDate s) ≠ .error .diverged
  throws_unchanged : ∀ e s', action.program tryParseCookieDate s = .error e s' → s' = s
  removesExpired : RemovesExpired tryParseCookieDate s action

/-- The cookie is refused, or is live, or finds no cookie of its identity. -/
def LiveOrNew (clock : Clock) (uri : CookieUri) (s : CookieContainer) (cookie : Cookie) : Prop :=
  match verified s.maxCookieSize_ uri cookie with
  | .error _ => True
  | .ok stored => stored.getExpiredProperty clock = true →
    ∀ c ∈ s.cookies_, identity c ≠ identity stored

def Accepted (uri : CookieUri) (s : CookieContainer) (cookie : Cookie) : Prop :=
  match verified s.maxCookieSize_ uri cookie with
  | .error _ => False
  | .ok _ => True

/-- An expired cookie finds no cookie of its identity, of a collection none but the first cookie is
refused, and `PerDomainCapacity` is not set below the number of cookies of a domain. -/
def Orderly (s : CookieContainer) (action : CookieAction) : Prop :=
  match action.call with
  | .add uri cookie => LiveOrNew action.clock uri s cookie
  | .addCollection uri cookies =>
    Along (addNext action.clock uri) (LiveOrNew action.clock uri) s cookies ∧
      ∀ cookie ∈ cookies.drop 1, Accepted uri s cookie
  | .setCookies uri cookieHeader =>
    match parseCookie action.clock tryParseCookieDate cookieHeader with
    | .ok cookie => LiveOrNew action.clock uri s cookie
    | .error _ => True
  | .setPerDomainCapacityProperty value =>
    0 < value.toInt → value.toInt ≤ s.capacity_ →
      ∀ c ∈ s.cookies_, (s.cookies_.countP (fun b => b.domain_ = c.domain_) : ℤ) ≤ value.toInt
  | _ => True

instance (clock : Clock) (uri : CookieUri) (s : CookieContainer) (cookie : Cookie) :
    Decidable (LiveOrNew clock uri s cookie) := by
  unfold LiveOrNew
  split <;> infer_instance

instance (uri : CookieUri) (s : CookieContainer) (cookie : Cookie) :
    Decidable (Accepted uri s cookie) := by
  unfold Accepted
  split <;> infer_instance

instance (s : CookieContainer) (action : CookieAction) :
    Decidable (Orderly tryParseCookieDate s action) := by
  unfold Orderly
  split
  · infer_instance
  · infer_instance
  · split <;> infer_instance
  · infer_instance
  · infer_instance

end SharpRuntime.Interface.CookieStore

/-!
# Where a cookie may be sent

The two relations of RFC 6265 between a cookie and a request, with the two conditions on domains
that the source adds to them, and what a container owes to the origins of the cookies it releases.
-/

namespace SharpRuntime.Interface.CookieRelease

open Machine Model CookieStore
open CookieContainer

def SameHost (host other : List UInt8) : Prop := toLowerAscii host = toLowerAscii other

def domainName (domain : List UInt8) : List UInt8 :=
  if (toLowerAscii domain).head? = some '.'.toUInt8 then (toLowerAscii domain).drop 1
  else toLowerAscii domain

/-- The host is the domain, or ends with a dot and the domain; then the domain has a dot itself, and
the host is not an IP address. -/
def DomainMatch (domain host : List UInt8) : Prop :=
  domainName domain ≠ [] ∧ (toLowerAscii host = domainName domain ∨
    (∃ labels, toLowerAscii host = labels ++ '.'.toUInt8 :: domainName domain) ∧
      '.'.toUInt8 ∈ domainName domain ∧ isIPLiteral host = false)

/-- The paths are the same, or the cookie's is a prefix of the request's that ends with a slash or
has one behind it. -/
def PathMatch (cookiePath requestPath : List UInt8) : Prop :=
  requestPath = cookiePath ∨ ∃ rest, requestPath = cookiePath ++ rest ∧
    (cookiePath.getLast? = some '/'.toUInt8 ∨ rest.head? = some '/'.toUInt8)

def requestPath (uri : CookieUri) : List UInt8 :=
  if uri.absolutePath = [] then ['/'.toUInt8] else uri.absolutePath

def IsSecure (uri : CookieUri) : Prop := toLowerAscii uri.scheme = asciiBytes "https"

variable (tryParseCookieDate : List UInt8 → Option DateTime)

def additions (action : CookieAction) : List (CookieUri × Cookie) :=
  match action.call with
  | .add uri cookie => [(uri, cookie)]
  | .addCollection uri cookies => cookies.map fun cookie => (uri, cookie)
  | .setCookies uri cookieHeader =>
    match parseCookie action.clock tryParseCookieDate cookieHeader with
    | .ok cookie => [(uri, cookie)]
    | .error _ => []
  | _ => []

def history (actions : List CookieAction) : CookieContainer :=
  afterAll (fun action => action.program tryParseCookieDate) actions new

/-- What may be said of a cookie that is sent with a request. -/
structure Released (actions : List CookieAction) (clock : Clock) (uri : CookieUri) (c : Cookie) :
    Prop where
  /-- It was added from a host that is the host of the request, or that its explicit domain
  matches as it matches the host of the request. -/
  origin : ∃ o cookie, (o, cookie) ∈ actions.flatMap (additions tryParseCookieDate) ∧
    c = defaulted o cookie ∧
    ((cookie.domainImplicit_ = true ∧ SameHost uri.host o.host) ∨
      (cookie.domainImplicit_ = false ∧ DomainMatch cookie.domain_ o.host ∧
        DomainMatch cookie.domain_ uri.host))
  path : PathMatch c.getPathProperty (requestPath uri)
  live : c.getExpiredProperty clock = false
  secure : c.secure_ = true → IsSecure uri

/-- A stored cookie without an explicit domain, live, not withheld from the scheme, whose path
matches the request, has the host of the request where its own has no bytes or matches it as a
domain. -/
def HostOnly (clock : Clock) (uri : CookieUri) (s : CookieContainer) : Prop :=
  ∀ c ∈ s.cookies_, c.domainImplicit_ = true → c.getExpiredProperty clock = false →
    (c.secure_ = true → IsSecure uri) → PathMatch c.getPathProperty (requestPath uri) →
      c.domain_ = [] ∨ DomainMatch c.domain_ uri.host → SameHost uri.host c.domain_

end SharpRuntime.Interface.CookieRelease
