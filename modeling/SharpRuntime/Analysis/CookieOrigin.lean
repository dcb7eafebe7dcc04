import SharpRuntime.Analysis.CookieLimits

/-!
# Cookies and their origins

A stored cookie is one that some call has added, with the defaults of its address; what the call has
checked of an explicit domain is what a later request is checked for.  A domain that was taken from
the address is checked the same way, and there the guarantee ends.
-/

set_option autoImplicit false

namespace SharpRuntime.Analysis.CookieOrigin

open Machine Model Interface.CookieStore
open Interface.CookieRelease CookieLimits
open CookieContainer
open CookieContainer

theorem endsBehind_iff {text name : List UInt8} {dot : UInt8} :
    (∃ labels, text = labels ++ dot :: name) ↔
      name.length < text.length ∧ text.drop (text.length - name.length) = name ∧
        text[text.length - name.length - 1]? = some dot := by
  constructor
  · rintro ⟨labels, rfl⟩
    have hlength : (labels ++ dot :: name).length = labels.length + 1 + name.length := by
      simp
      omega
    refine ⟨by omega, ?_, ?_⟩
    · simp [hlength]
    · grind
  · rintro ⟨hlength, hsuffix, hdot⟩
    obtain ⟨hlt, hget⟩ := List.getElem?_eq_some_iff.mp hdot
    refine ⟨text.take (text.length - name.length - 1), ?_⟩
    have hsplit := List.take_append_drop (text.length - name.length - 1) text
    rw [List.drop_eq_getElem_cons hlt, hget, Nat.sub_add_cancel (by omega), hsuffix] at hsplit
    exact hsplit.symm

variable {domain : List UInt8}

theorem domainMatches_iff (hdomain : domain ≠ []) (host : List UInt8) :
    domainMatches domain host = true ↔ DomainMatch domain host := by
  have hisEmpty : domain.isEmpty = false := by simpa using hdomain
  rw [domainMatches, hisEmpty, if_neg Bool.false_ne_true, DomainMatch]
  dsimp only
  have hname : (if ((toLowerAscii domain).head? == some '.'.toUInt8) = true then
      (toLowerAscii domain).drop 1 else toLowerAscii domain) = domainName domain := by
    simp only [domainName, beq_iff_eq]
  rw [hname, endsBehind_iff]
  generalize domainName domain = name
  by_cases hname : name = []
  · simp [hname]
  · grind

theorem domainMatches_eq (domain host : List UInt8) :
    domainMatches domain host = true ↔ domain = [] ∨ DomainMatch domain host := by
  by_cases hdomain : domain = []
  · subst hdomain
    exact iff_of_true rfl (.inl rfl)
  · rw [domainMatches_iff hdomain, or_iff_right hdomain]

theorem pathMatches_iff {cookiePath : List UInt8} (hpath : cookiePath ≠ []) (path : List UInt8) :
    pathMatches cookiePath path = true ↔ PathMatch cookiePath path := by
  have hisEmpty : cookiePath.isEmpty = false := by simpa using hpath
  rw [pathMatches, hisEmpty, if_neg Bool.false_ne_true, PathMatch]
  by_cases hequal : path = cookiePath
  · simp [hequal]
  · rw [if_neg (by simpa using hequal), or_iff_right hequal]
    split
    · next hprefix =>
      obtain ⟨rest, rfl⟩ := List.prefix_iff_eq_take.mpr hprefix.2.symm
      simp only [Bool.or_eq_true, beq_iff_eq, List.append_cancel_left_eq, exists_eq_left',
        List.getElem?_append_right (Nat.le_refl _), Nat.sub_self, List.head?_eq_getElem?]
    · grind

theorem getPathProperty_ne_nil (c : Cookie) : c.getPathProperty ≠ [] := by
  grind [Cookie.getPathProperty]

theorem mem_getCookies (clock : Clock) (uri : CookieUri) (s : CookieContainer) (c : Cookie) :
    c ∈ getCookies clock uri s ↔ c ∈ s.cookies_ ∧ c.getExpiredProperty clock = false ∧
      (c.secure_ = true → IsSecure uri) ∧ (c.domain_ = [] ∨ DomainMatch c.domain_ uri.host) ∧
      PathMatch c.getPathProperty (requestPath uri) := by
  have hpath : (if uri.absolutePath.isEmpty = true then ['/'.toUInt8] else uri.absolutePath) =
      requestPath uri := by
    simp only [requestPath, List.isEmpty_iff]
  rw [getCookies, hpath, List.mem_filter, Bool.and_eq_true, Bool.and_eq_true, Bool.and_eq_true,
    domainMatches_eq,
    pathMatches_iff (getPathProperty_ne_nil c)]
  have hsecure : (!(c.secure_ && !(toLowerAscii uri.scheme == asciiBytes "https"))) = true ↔
      (c.secure_ = true → IsSecure uri) := by
    rw [IsSecure]
    cases c.secure_ <;> simp
  rw [hsecure, Bool.not_eq_true', and_assoc, and_assoc]

variable {tryParseCookieDate : List UInt8 → Option DateTime} {s : CookieContainer} {clock : Clock}
  {uri : CookieUri}

/-- A cookie has the defaults of the address of one of the additions, whose host an explicit domain
of it matches. -/
def ComesFrom (added : List (CookieUri × Cookie)) (c : Cookie) : Prop :=
  ∃ o cookie, (o, cookie) ∈ added ∧ c = defaulted o cookie ∧
    (cookie.domainImplicit_ = false → DomainMatch cookie.domain_ o.host)

theorem ComesFrom.mono {added more : List (CookieUri × Cookie)} {c : Cookie}
    (h : ComesFrom added c) (hmore : added ⊆ more) : ComesFrom more c := by
  obtain ⟨o, cookie, hmem, hc, hmatch⟩ := h
  exact ⟨o, cookie, hmore hmem, hc, hmatch⟩

/-- Every cookie that a program leaves was there before or comes from what it adds. -/
def Adds (added : List (CookieUri × Cookie)) (program : CookieProgram Unit) : Prop :=
  ∀ s, ∀ c ∈ (after (program s)).cookies_, c ∈ s.cookies_ ∨ ComesFrom added c

theorem isValidDomainName_ne_nil (h : isValidDomainName domain = true) :
    domain ≠ [] := by
  rintro rfl
  cases h

theorem add_adds (clock : Clock) (uri : CookieUri) (cookie : Cookie) :
    Adds [(uri, cookie)] (add clock uri cookie) := by
  intro s c hc
  obtain ⟨message, hverified⟩ | ⟨hverified, hexplicit⟩ := verified_spec s.maxCookieSize_ uri cookie
  · rw [add_of_refused hverified] at hc
    exact .inl hc
  · obtain ⟨cookies, hrun, hinserts⟩ := addVerified_inserts clock (defaulted uri cookie) s
    rw [add_of_accepted hverified, hrun] at hc
    obtain hc | rfl := hinserts.mem hc
    · exact .inl hc
    · refine .inr ⟨uri, cookie, List.mem_singleton_self _, rfl, fun himplicit => ?_⟩
      obtain ⟨hvalid, hmatches⟩ := hexplicit himplicit
      exact (domainMatches_iff (isValidDomainName_ne_nil hvalid) uri.host).mp hmatches

theorem addCollection_adds (clock : Clock) (uri : CookieUri) (cookies : List Cookie) :
    Adds (cookies.map fun cookie => (uri, cookie))
      (addCollection clock uri cookies) := by
  induction cookies with
  | nil => exact fun s c hc => .inl hc
  | cons cookie cookies ih =>
    intro s c hc
    have hone := add_adds clock uri cookie s
    cases hrun : add clock uri cookie s with
    | error e t =>
      rw [addCollection, bind_error hrun] at hc
      rw [hrun] at hone
      exact (hone c hc).imp_right fun h => h.mono (by simp)
    | ok _ t =>
      rw [addCollection, bind_ok hrun] at hc
      rw [hrun] at hone
      obtain hc | hc := ih t c hc
      · exact (hone c hc).imp_right fun h => h.mono (by simp)
      · exact .inr (hc.mono (List.subset_cons_self _ _))

theorem program_adds (action : CookieAction) :
    Adds (additions tryParseCookieDate action) (action.program tryParseCookieDate) := by
  obtain ⟨clock, call⟩ := action
  cases call with
  | add uri cookie => exact add_adds clock uri cookie
  | addCollection uri cookies => exact addCollection_adds clock uri cookies
  | setCookies uri cookieHeader =>
    change Adds _ (setCookies clock tryParseCookieDate uri cookieHeader)
    dsimp only [additions]
    intro s c hc
    cases hparse : parseCookie clock tryParseCookieDate cookieHeader with
    | error e =>
      rw [setCookies_of_refused hparse] at hc
      exact .inl hc
    | ok cookie =>
      rw [setCookies_of_parsed hparse] at hc
      exact add_adds clock uri cookie s c hc
  | setCapacityProperty value =>
    intro s c hc
    obtain ⟨e, -, hrun⟩ | ⟨kept, hrun, hkept, -⟩ := setCapacityProperty_keeps clock value s
    · change c ∈ (after (setCapacityProperty clock value s)).cookies_ at hc
      rw [hrun] at hc
      exact .inl hc
    · change c ∈ (after (setCapacityProperty clock value s)).cookies_ at hc
      rw [hrun] at hc
      exact .inl (hkept.subset hc)
  | setPerDomainCapacityProperty value =>
    intro s c hc
    change c ∈ (after (setPerDomainCapacityProperty value s)).cookies_ at hc
    rw [setPerDomainCapacityProperty, get_bind] at hc
    split at hc <;> exact .inl hc
  | setMaxCookieSizeProperty value =>
    intro s c hc
    change c ∈ (after (setMaxCookieSizeProperty value s)).cookies_ at hc
    rw [setMaxCookieSizeProperty] at hc
    split at hc <;> exact .inl hc

/-- By induction on the history, from any container. -/
theorem afterAll_comesFrom (actions : List CookieAction) (s : CookieContainer) :
    ∀ c ∈ (afterAll (fun action => CookieAction.program tryParseCookieDate action) actions
      s).cookies_, c ∈ s.cookies_ ∨ ComesFrom (actions.flatMap (additions tryParseCookieDate)) c := by
  induction actions generalizing s with
  | nil => exact fun c hc => .inl hc
  | cons action actions ih =>
    intro c hc
    obtain hc | hc := ih _ c hc
    · exact (program_adds action s c hc).imp_right fun h => h.mono (List.subset_append_left _ _)
    · exact .inr (hc.mono (List.subset_append_right _ _))

theorem history_comesFrom (actions : List CookieAction) (c : Cookie)
    (hc : c ∈ (history tryParseCookieDate actions).cookies_) :
    ComesFrom (actions.flatMap (additions tryParseCookieDate)) c :=
  (afterAll_comesFrom actions new c hc).resolve_left (List.not_mem_nil)

variable {o : CookieUri} {cookie : Cookie}

theorem domain_of_implicit
    (h : (defaulted o cookie).domainImplicit_ = true) : (defaulted o cookie).domain_ = o.host := by
  have himplicit : cookie.domainImplicit_ = true := h
  rw [defaulted, if_pos himplicit]

theorem domain_of_explicit
    (h : cookie.domainImplicit_ = false) : (defaulted o cookie).domain_ = cookie.domain_ := by
  rw [defaulted, h, if_neg Bool.false_ne_true]

theorem ne_nil_of_domainMatch {host : List UInt8} (h : DomainMatch domain host) :
    domain ≠ [] := by
  rintro rfl
  exact h.1 rfl

/-- **Cookies stay with their origin exactly where a domain taken from an address matches no other
host**: after every history of calls, every cookie that a lookup returns was added from the host of
the request, or carries an explicit domain that both hosts match; its path matches, it is live and
not withheld; if and only if no stored cookie without an explicit domain that is otherwise due has
an origin with no bytes, or one that the host of the request matches as a domain and is not. -/
theorem released_iff (tryParseCookieDate : List UInt8 → Option DateTime)
    (actions : List CookieAction) (clock : Clock) (uri : CookieUri) :
    (∀ c ∈ getCookies clock uri (history tryParseCookieDate actions),
      Released tryParseCookieDate actions clock uri c) ↔
    HostOnly clock uri (history tryParseCookieDate actions) := by
  constructor
  · intro hreleased c hc himplicit hlive hsecure hpath hdomain
    obtain ⟨⟨o, cookie, -, rfl, hor⟩, -⟩ := hreleased c
      ((mem_getCookies clock uri _ c).mpr ⟨hc, hlive, hsecure, hdomain, hpath⟩)
    obtain ⟨-, hsame⟩ | ⟨hexplicit, -⟩ := hor
    · rw [domain_of_implicit himplicit]
      exact hsame
    · rw [defaulted, hexplicit] at himplicit
      cases himplicit
  · intro hhostOnly c hc
    obtain ⟨hc, hlive, hsecure, hdomain, hpath⟩ := (mem_getCookies clock uri _ c).mp hc
    obtain ⟨o, cookie, hadded, rfl, hmatch⟩ := history_comesFrom actions c hc
    refine ⟨⟨o, cookie, hadded, rfl, ?_⟩, hpath, hlive, hsecure⟩
    cases himplicit : cookie.domainImplicit_ with
    | true =>
      have hsame := hhostOnly _ hc himplicit hlive hsecure hpath hdomain
      rw [domain_of_implicit himplicit] at hsame
      exact .inl ⟨rfl, hsame⟩
    | false =>
      have horigin := hmatch himplicit
      rw [domain_of_explicit himplicit] at hdomain
      exact .inr ⟨rfl, horigin, hdomain.resolve_left (ne_nil_of_domainMatch horigin)⟩

def sessionSet : List CookieAction :=
  [⟨exampleClock, .setCookies exampleUri (asciiBytes "session=1")⟩]

def subdomainUri : CookieUri := { exampleUri with host := asciiBytes "sub.example.org" }

/-- The cookie is sent to `sub.example.org`. -/
theorem not_released :
    ¬ ∀ c ∈ getCookies exampleClock subdomainUri (history (fun _ => none) sessionSet),
      Released (fun _ => none) sessionSet exampleClock subdomainUri c := by
  intro hreleased
  have hall : ∀ added ∈ sessionSet.flatMap (additions fun _ => none),
      added.2.domainImplicit_ = true ∧ toLowerAscii subdomainUri.host ≠ toLowerAscii added.1.host := by
    decide +kernel
  have hsent : getCookies exampleClock subdomainUri (history (fun _ => none) sessionSet) ≠ [] := by
    decide +kernel
  obtain ⟨c, hc⟩ := List.exists_mem_of_ne_nil _ hsent
  obtain ⟨o, cookie, hadded, -, hor⟩ := (hreleased c hc).origin
  obtain ⟨himplicit, hdifferent⟩ := hall (o, cookie) hadded
  obtain ⟨-, hsame⟩ | ⟨hexplicit, -⟩ := hor
  · exact hdifferent hsame
  · exact Bool.false_ne_true (hexplicit.symm.trans himplicit)

end SharpRuntime.Analysis.CookieOrigin
