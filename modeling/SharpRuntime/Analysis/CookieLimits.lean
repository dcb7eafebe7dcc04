import SharpRuntime.Interface.CookieStore

/-!
# The limits of a `CookieContainer`

Every loop that ages the container forgets cookies and keeps the others in their order, so that it
keeps the bounds; what it makes room for is counted where it ends.  From a container within its
limits the numbers of cookies are the numbers the runtime counts in.
-/

set_option autoImplicit false

namespace SharpRuntime.Analysis.CookieLimits

open Machine Model Interface.CookieStore
open CookieContainer
open CookieContainer

variable {s : CookieContainer} {clock : Clock} {uri : CookieUri} {cookies : List Cookie}
  {domain : List UInt8}

/-! ## The loops that age a container -/

theorem purged_sublist (clock : Clock) (cookies : List Cookie) :
    (purged clock cookies).Sublist cookies :=
  List.filter_sublist

variable {fuel : ℕ}

theorem ageDomain_spec (domain : List UInt8) (domainTarget : ℤ) (cookies : List Cookie)
    (hfuel : cookies.length < fuel) :
    ∃ kept, ageDomain domain domainTarget fuel cookies = some kept ∧ kept.Sublist cookies := by
  induction fuel generalizing cookies with
  | zero => omega
  | succ fuel ih =>
    rw [ageDomain]
    split
    · split
      · next hany =>
        have hone : (cookies.eraseP fun c => c.domain_ == domain).length = cookies.length - 1 := by
          rw [List.length_eraseP, if_pos hany]
        have hpos : 0 < cookies.length := by grind
        obtain ⟨kept, hkept, hsub⟩ :=
          ih (cookies.eraseP fun c => c.domain_ == domain) (by omega)
        exact ⟨kept, hkept, hsub.trans List.eraseP_sublist⟩
      · exact ⟨cookies, rfl, List.Sublist.refl _⟩
    · exact ⟨cookies, rfl, List.Sublist.refl _⟩

theorem ageAll_spec (capacity : ℤ) (cookies : List Cookie) (hfuel : cookies.length < fuel) :
    ∃ freed kept, ageAll capacity fuel cookies = some (freed, kept) ∧ kept.Sublist cookies ∧
      (freed = true → toIntcs kept.length < capacity) := by
  induction fuel generalizing cookies with
  | zero => omega
  | succ fuel ih =>
    rw [ageAll.eq_def]
    dsimp only
    split
    · cases cookies with
      | nil => exact ⟨false, [], rfl, List.Sublist.refl _, fun h => nomatch h⟩
      | cons c rest => grind
    · grind

theorem shrink_spec (clock : Clock) {capacity : ℤ} (hcapacity : 0 ≤ capacity)
    (cookies : List Cookie) (hfuel : cookies.length < fuel) :
    ∃ kept, shrink clock capacity fuel cookies = some kept ∧ kept.Sublist cookies ∧
      toIntcs kept.length ≤ capacity := by
  induction fuel generalizing cookies with
  | zero => omega
  | succ fuel ih =>
    rw [shrink]
    dsimp only
    split
    · next hmore =>
      have hpos : 0 < cookies.length := by
        cases cookies with
        | nil =>
          rw [List.length_nil, toIntcs_of_le (Nat.zero_le _)] at hmore
          omega
        | cons c rest => exact Nat.succ_pos _
      have hle := (purged_sublist clock cookies).length_le
      split
      · have hlength : ((purged clock cookies).drop 1).length < fuel := by
          rw [List.length_drop]
          omega
        obtain ⟨kept, hkept, hsub, hcount⟩ := ih _ hlength
        exact ⟨kept, hkept, (hsub.trans (List.drop_sublist 1 _)).trans (purged_sublist clock cookies),
          hcount⟩
      · next hsome =>
        have hlength : (purged clock cookies).length < fuel := by
          have hne : cookies.length - (purged clock cookies).length ≠ 0 := by
            intro hzero
            rw [hzero, toIntcs_of_le (Nat.zero_le _)] at hsome
            exact hsome rfl
          omega
        obtain ⟨kept, hkept, hsub, hcount⟩ := ih _ hlength
        exact ⟨kept, hkept, hsub.trans (purged_sublist clock cookies), hcount⟩
    · next hless => exact ⟨cookies, rfl, List.Sublist.refl _, not_lt.mp hless⟩

theorem ageCookies_spec (clock : Clock) (domain : List UInt8) (s : CookieContainer) :
    ∃ room kept, ageCookies clock domain s = .ok room { s with cookies_ := kept } ∧
      kept.Sublist s.cookies_ ∧ (room = true → toIntcs kept.length < s.capacity_ ∧
        countIn domain kept < min s.perDomainCapacity_ s.capacity_) := by
  obtain ⟨t, ht⟩ : ∃ t, t = { s with cookies_ := purged clock s.cookies_ } := ⟨_, rfl⟩
  obtain ⟨few, hfew, hfewSub⟩ := ageDomain_spec domain
    (min t.perDomainCapacity_ t.capacity_ - 1) t.cookies_ (Nat.lt_add_one _)
  obtain ⟨freed, kept, hkept, hkeptSub, hless⟩ :=
    ageAll_spec t.capacity_ few (Nat.lt_add_one _)
  have hrun : ageCookies clock domain s =
      .ok (freed && decide (countIn domain kept ≤ min t.perDomainCapacity_ t.capacity_ - 1))
        { t with cookies_ := kept } := by
    rw [ageCookies, modify_bind, get_bind, ← ht, hfew]
    dsimp only
    rw [hkept, modify_bind]
    cases freed <;> rfl
  subst ht
  refine ⟨_, kept, hrun, (hkeptSub.trans hfewSub).trans (purged_sublist clock s.cookies_), ?_⟩
  intro hroom
  rw [Bool.and_eq_true, decide_eq_true_eq] at hroom
  obtain ⟨hfreed, hcount⟩ := hroom
  exact ⟨hless hfreed, Int.lt_of_le_sub_one hcount⟩

/-! ## Adding a cookie -/

theorem sameIdentity_iff (existing stored : Cookie) :
    existing.sameIdentity stored = true ↔ identity existing = identity stored := by
  simp [Cookie.sameIdentity, identity, and_assoc]

theorem replaceExisting_spec (stored : Cookie) (cookies : List Cookie) :
    (replaceExisting stored cookies = none ∧ ∀ c ∈ cookies, identity c ≠ identity stored) ∨
    ∃ before existing after, cookies = before ++ existing :: after ∧
      identity existing = identity stored ∧
      replaceExisting stored cookies = some (before ++ stored :: after) := by
  induction cookies with
  | nil => exact .inl ⟨rfl, fun c hc => (nomatch hc)⟩
  | cons c cookies ih =>
    rw [replaceExisting]
    by_cases hsame : c.sameIdentity stored = true
    · rw [if_pos hsame]
      exact .inr ⟨[], c, cookies, rfl, (sameIdentity_iff c stored).mp hsame, rfl⟩
    · rw [if_neg hsame]
      obtain ⟨hnone, hnew⟩ | ⟨before, existing, after, rfl, hidentity, hsome⟩ := ih
      · refine .inl ⟨by rw [hnone, Option.map_none], ?_⟩
        rintro c' (_ | ⟨_, hc'⟩)
        · exact fun h => hsame ((sameIdentity_iff c stored).mpr h)
        · exact hnew c' hc'
      · grind

variable {stored : Cookie}

theorem replaceExisting_eq_none (hnew : ∀ c ∈ cookies, identity c ≠ identity stored) :
    replaceExisting stored cookies = none := by
  obtain ⟨hnone, -⟩ | ⟨before, existing, after, rfl, hidentity, -⟩ :=
    replaceExisting_spec stored cookies
  · exact hnone
  · exact absurd hidentity (hnew existing (by simp))

variable {kept : List Cookie}

theorem toIntcs_length (hs : StoreInvariant s)
    (hkept : kept.Sublist s.cookies_) : toIntcs kept.length = kept.length := by
  have hlength := hs.bounded.length_le
  have hcapacity := hs.capacity_le
  have hle := hkept.length_le
  exact toIntcs_of_le (by omega)

theorem countIn_eq (hs : StoreInvariant s) (hkept : kept.Sublist s.cookies_) (domain : List UInt8) :
    countIn domain kept = kept.countP (fun c => c.domain_ = domain) := by
  have hlength := hs.bounded.length_le
  have hcapacity := hs.capacity_le
  have hle := hkept.length_le
  have hcount : kept.countP (fun c => c.domain_ == domain) ≤ kept.length := List.countP_le_length
  rw [countIn, toIntcs_of_le (by omega)]
  simp only [beq_eq_decide]

theorem invariant_sublist (hs : StoreInvariant s)
    (hkept : kept.Sublist s.cookies_) : StoreInvariant { s with cookies_ := kept } where
  bounded := hs.bounded.sublist hkept
  perDomainCapacity_le := hs.perDomainCapacity_le
  perDomainCapacity_pos := hs.perDomainCapacity_pos
  capacity_le := hs.capacity_le

theorem invariant_append (hs : StoreInvariant s)
    (hkept : kept.Sublist s.cookies_) (hnew : ∀ c ∈ s.cookies_, identity c ≠ identity stored)
    (hlength : toIntcs kept.length < s.capacity_)
    (hdomain : countIn stored.domain_ kept < s.perDomainCapacity_) :
    StoreInvariant { s with cookies_ := kept ++ [stored] } where
  bounded := by
    rw [toIntcs_length hs hkept] at hlength
    rw [countIn_eq hs hkept] at hdomain
    exact (hs.bounded.sublist hkept).append (fun c hc => hnew c (hkept.subset hc)) hlength hdomain
  perDomainCapacity_le := hs.perDomainCapacity_le
  perDomainCapacity_pos := hs.perDomainCapacity_pos
  capacity_le := hs.capacity_le

/-- What a cookie that passed the checks may do: take the place of one of its identity, not be
stored, or be stored behind what aging has kept, with room for it in both counts. -/
inductive Inserts (stored : Cookie) (s : CookieContainer) : List Cookie → Prop where
  | replaces (before : List Cookie) (existing : Cookie) (after : List Cookie) :
    s.cookies_ = before ++ existing :: after → identity existing = identity stored →
      Inserts stored s (before ++ stored :: after)
  | leaves (kept : List Cookie) : kept.Sublist s.cookies_ → Inserts stored s kept
  | appends (kept : List Cookie) : kept.Sublist s.cookies_ →
    (∀ c ∈ s.cookies_, identity c ≠ identity stored) → toIntcs kept.length < s.capacity_ →
      countIn stored.domain_ kept < s.perDomainCapacity_ → Inserts stored s (kept ++ [stored])

theorem addVerified_inserts (clock : Clock) (stored : Cookie) (s : CookieContainer) :
    ∃ cookies, addVerified clock stored s = .ok () { s with cookies_ := cookies } ∧
      Inserts stored s cookies := by
  obtain ⟨hnone, hnew⟩ | ⟨before, existing, after, hcookies, hidentity, hsome⟩ :=
    replaceExisting_spec stored s.cookies_
  · by_cases hexpired : stored.getExpiredProperty clock = true
    · refine ⟨s.cookies_, ?_, .leaves _ (List.Sublist.refl _)⟩
      simp [addVerified, get_bind, hnone, hexpired]
    · by_cases hfull : (decide (s.perDomainCapacity_ ≤ countIn stored.domain_ s.cookies_) ||
          decide (s.capacity_ ≤ toIntcs s.cookies_.length)) = true
      · obtain ⟨room, kept, hrun, hkept, hroom⟩ := ageCookies_spec clock stored.domain_ s
        cases room with
        | false =>
          refine ⟨kept, ?_, .leaves kept hkept⟩
          rw [addVerified, get_bind, hnone]
          dsimp only
          rw [if_neg hexpired, if_pos hfull, bind_ok hrun]
          rfl
        | true =>
          obtain ⟨hlength, hdomain⟩ := hroom rfl
          refine ⟨kept ++ [stored], ?_,
            .appends kept hkept hnew hlength (lt_of_lt_of_le hdomain (min_le_left _ _))⟩
          rw [addVerified, get_bind, hnone]
          dsimp only
          rw [if_neg hexpired, if_pos hfull, bind_ok hrun]
          rfl
      · have hroom := hfull
        rw [Bool.or_eq_true, decide_eq_true_eq, decide_eq_true_eq, not_or, not_le, not_le] at hroom
        refine ⟨s.cookies_ ++ [stored], ?_,
          .appends _ (List.Sublist.refl _) hnew hroom.2 hroom.1⟩
        rw [addVerified, get_bind, hnone]
        rw [if_neg hexpired, if_neg hfull]
        rfl
  · refine ⟨before ++ stored :: after, ?_, .replaces before existing after hcookies hidentity⟩
    rw [addVerified, get_bind, hsome]
    rfl

theorem Inserts.invariant (hs : StoreInvariant s)
    (h : Inserts stored s cookies) : StoreInvariant { s with cookies_ := cookies } := by
  cases h with
  | replaces before existing after hcookies hidentity =>
    have hbounded := hs.bounded
    rw [hcookies] at hbounded
    exact ⟨hbounded.replace hidentity.symm (congrArg (fun i => i.2.1) hidentity.symm),
      hs.perDomainCapacity_le, hs.perDomainCapacity_pos, hs.capacity_le⟩
  | leaves kept hkept => exact invariant_sublist hs hkept
  | appends kept hkept hnew hlength hdomain => exact invariant_append hs hkept hnew hlength hdomain

theorem Inserts.mem {c : Cookie} (h : Inserts stored s cookies) (hc : c ∈ cookies) :
    c ∈ s.cookies_ ∨ c = stored := by
  cases h with
  | replaces before existing after hcookies => grind
  | leaves kept hkept => exact .inl (hkept.subset hc)
  | appends kept hkept => grind

/-- A cookie is refused, or is stored with the defaults of its address, an explicit domain of it
being a domain name that matches the host. -/
theorem verified_spec (maxCookieSize : ℤ) (uri : CookieUri) (cookie : Cookie) :
    (∃ message, verified maxCookieSize uri cookie = .error (.cookieException message)) ∨
    (verified maxCookieSize uri cookie = .ok (defaulted uri cookie) ∧
      (cookie.domainImplicit_ = false → isValidDomainName cookie.domain_ = true ∧
        domainMatches cookie.domain_ uri.host = true)) := by
  rw [verified]
  by_cases himplicit : cookie.domainImplicit_ = true
  · have hstored : (if cookie.pathImplicit_ = true then
        { ({ cookie with domain_ := uri.host } : Cookie) with path_ := uri.absolutePath }
        else { cookie with domain_ := uri.host }) = defaulted uri cookie := by
      rw [defaulted, if_pos himplicit]
      split <;> rfl
    rw [if_pos himplicit, pure_bind]
    dsimp only
    rw [hstored]
    split
    · exact .inl ⟨_, rfl⟩
    · exact .inr ⟨rfl, fun hexplicit => by rw [himplicit] at hexplicit; cases hexplicit⟩
  · have hstored : (if cookie.pathImplicit_ = true then
        { cookie with path_ := uri.absolutePath } else cookie) = defaulted uri cookie := by
      rw [defaulted, if_neg himplicit]
      split <;> rfl
    rw [if_neg himplicit]
    by_cases hinvalid : (!isValidDomainName cookie.domain_ ||
        !domainMatches cookie.domain_ uri.host) = true
    · rw [if_pos hinvalid]
      exact .inl ⟨_, rfl⟩
    · rw [if_neg hinvalid, pure_bind]
      dsimp only
      rw [hstored]
      split
      · exact .inl ⟨_, rfl⟩
      · refine .inr ⟨rfl, fun _ => ?_⟩
        grind

variable {cookie : Cookie}

theorem add_of_refused {e : CookieFault}
    (hverified : verified s.maxCookieSize_ uri cookie = .error e) :
    CookieContainer.add clock uri cookie s = .error e s := by
  rw [CookieContainer.add, get_bind, hverified]
  rfl

theorem add_of_accepted (hverified : verified s.maxCookieSize_ uri cookie = .ok stored) :
    CookieContainer.add clock uri cookie s = addVerified clock stored s := by
  rw [CookieContainer.add, get_bind, hverified]

theorem add_spec (hs : StoreInvariant s) (clock : Clock) (uri : CookieUri) (cookie : Cookie) :
    (¬ Accepted uri s cookie ∧ ∃ e, e ≠ .diverged ∧
      add clock uri cookie s = .error e s) ∨
    ∃ cookies, add clock uri cookie s = .ok () { s with cookies_ := cookies } ∧
      StoreInvariant { s with cookies_ := cookies } := by
  obtain ⟨message, hverified⟩ | ⟨hverified, -⟩ := verified_spec s.maxCookieSize_ uri cookie
  · exact .inl ⟨by rw [Accepted, hverified]; exact id, .cookieException message,
      fun h => (nomatch h), add_of_refused hverified⟩
  · obtain ⟨cookies, hrun, hinserts⟩ := addVerified_inserts clock (defaulted uri cookie) s
    exact .inr ⟨cookies, (add_of_accepted hverified).trans hrun, hinserts.invariant hs⟩

theorem expiredRemoves_of_liveOrNew (h : LiveOrNew clock uri s cookie) :
    ExpiredRemoves clock uri s cookie := by
  intro stored hverified hexpired
  rw [LiveOrNew, hverified] at h
  have hnew := h hexpired
  have hall : (s.cookies_.filter fun c => decide (identity c ≠ identity stored)) = s.cookies_ :=
    List.filter_eq_self.mpr fun c hc => decide_eq_true (hnew c hc)
  rw [add_of_accepted hverified, addVerified, get_bind, replaceExisting_eq_none hnew, hall]
  rw [if_pos hexpired]
  rfl

/-! ## Adding a collection -/

theorem addNext_kept (hs : StoreInvariant s) {t : CookieContainer}
    (hnext : addNext clock uri s cookie = some t) :
    StoreInvariant t ∧ t.maxCookieSize_ = s.maxCookieSize_ := by
  obtain ⟨-, e, -, hrun⟩ | ⟨cookies, hrun, hkept⟩ := add_spec hs clock uri cookie
  · rw [addNext, hrun] at hnext
    cases hnext
  · grind [addNext]

theorem addCollection_ok (clock : Clock) (cookies : List Cookie) (hs : StoreInvariant s)
    (haccepted : ∀ cookie ∈ cookies, Accepted uri s cookie) :
    ∃ t, addCollection clock uri cookies s = .ok () t ∧ StoreInvariant t := by
  induction cookies generalizing s with
  | nil => exact ⟨s, rfl, hs⟩
  | cons cookie cookies ih =>
    obtain ⟨hrefused, -⟩ | ⟨stored, hrun, hkept⟩ := add_spec hs clock uri cookie
    · exact absurd (haccepted cookie List.mem_cons_self) hrefused
    · obtain ⟨t, ht, hinvariant⟩ := ih hkept fun c hc => haccepted c (List.mem_cons_of_mem _ hc)
      exact ⟨t, (bind_ok hrun).trans ht, hinvariant⟩

theorem addCollection_spec (hs : StoreInvariant s)
    (haccepted : ∀ cookie ∈ cookies.drop 1, Accepted uri s cookie) :
    (∃ e, e ≠ .diverged ∧ addCollection clock uri cookies s = .error e s) ∨
    ∃ t, addCollection clock uri cookies s = .ok () t ∧ StoreInvariant t := by
  cases cookies with
  | nil => exact .inr ⟨s, rfl, hs⟩
  | cons cookie cookies =>
    obtain ⟨-, e, he, hrun⟩ | ⟨stored, hrun, hkept⟩ := add_spec hs clock uri cookie
    · exact .inl ⟨e, he, bind_error hrun⟩
    · obtain ⟨t, ht, hinvariant⟩ := addCollection_ok clock cookies hkept haccepted
      exact .inr ⟨t, (bind_ok hrun).trans ht, hinvariant⟩

/-! ## The header -/

section Header

variable {tryParseCookieDate : List UInt8 → Option DateTime} {e : CookieFault}

theorem new_fault {name value : List UInt8} (h : Cookie.new name value = .error e) :
    ∃ message, e = .cookieException message := by
  rw [Cookie.new, Cookie.setNameProperty] at h
  split at h
  · exact ⟨_, (Except.error.inj h).symm⟩
  · split at h
    · exact ⟨_, (Except.error.inj h).symm⟩
    · cases h

variable {cookie : Cookie}

variable {expirationSeen : Bool}

theorem applyAttribute_fault {attr : List UInt8}
    (h : applyAttribute clock tryParseCookieDate cookie expirationSeen attr = .error e) :
    ∃ message, e = .cookieException message := by grind [applyAttribute]

theorem applyAttributes_fault {attrs : List (List UInt8)}
    (h : applyAttributes clock tryParseCookieDate cookie expirationSeen attrs = .error e) :
    ∃ message, e = .cookieException message := by
  induction attrs generalizing cookie expirationSeen with
  | nil => cases h
  | cons attr attrs ih =>
    rw [applyAttributes] at h
    cases hone : applyAttribute clock tryParseCookieDate cookie expirationSeen attr with
    | error e' =>
      rw [hone] at h
      obtain rfl := Except.error.inj h
      exact applyAttribute_fault hone
    | ok result =>
      rw [hone] at h
      exact ih h

variable {cookieHeader : List UInt8}

theorem parseCookie_fault (h : parseCookie clock tryParseCookieDate cookieHeader = .error e) :
    ∃ message, e = .cookieException message := by
  rw [parseCookie] at h
  split at h
  · exact ⟨_, (Except.error.inj h).symm⟩
  · split at h
    · exact ⟨_, (Except.error.inj h).symm⟩
    · split at h
      · exact ⟨_, (Except.error.inj h).symm⟩
      · next name value _ =>
        cases hnew : Cookie.new (trim name) (trim value) with
        | error e' =>
          rw [hnew] at h
          obtain rfl := Except.error.inj h
          exact new_fault hnew
        | ok cookie =>
          rw [hnew] at h
          exact applyAttributes_fault h

theorem setCookies_of_refused
    (hparse : parseCookie clock tryParseCookieDate cookieHeader = .error e) :
    setCookies clock tryParseCookieDate uri cookieHeader s = .error e s := by
  rw [setCookies.eq_def, hparse]
  rfl

theorem setCookies_of_parsed
    (hparse : parseCookie clock tryParseCookieDate cookieHeader = .ok cookie) :
    setCookies clock tryParseCookieDate uri cookieHeader s =
      add clock uri cookie s := by
  rw [setCookies.eq_def, hparse]

end Header

/-! ## The limits -/

theorem setCapacityProperty_keeps (clock : Clock) (value : Int32) (s : CookieContainer) :
    (∃ e, e ≠ .diverged ∧ setCapacityProperty clock value s = .error e s) ∨
    ∃ kept, setCapacityProperty clock value s =
        .ok () { s with cookies_ := kept, capacity_ := value.toInt } ∧
      kept.Sublist s.cookies_ ∧ toIntcs kept.length ≤ value.toInt ∧
      s.perDomainCapacity_ ≤ value.toInt := by
  by_cases hrefused : value.toInt ≤ 0 ∨ value.toInt < s.perDomainCapacity_
  · simp [setCapacityProperty, hrefused]
  · obtain ⟨kept, hrun, hkept, hcount⟩ := shrink_spec clock (show 0 ≤ value.toInt by omega)
      s.cookies_ (show s.cookies_.length < s.cookies_.length + 2 by omega)
    refine .inr ⟨kept, ?_, hkept, hcount, by omega⟩
    rw [setCapacityProperty, get_bind, if_neg hrefused, hrun]
    rfl

theorem setCapacityProperty_spec (hs : StoreInvariant s) (clock : Clock) (value : Int32) :
    (∃ e, e ≠ .diverged ∧ setCapacityProperty clock value s = .error e s) ∨
    ∃ t, setCapacityProperty clock value s = .ok () t ∧ StoreInvariant t := by
  obtain hrefused | ⟨kept, hrun, hkept, hcount, hperDomain⟩ :=
    setCapacityProperty_keeps clock value s
  · exact .inl hrefused
  · rw [toIntcs_length hs hkept] at hcount
    have hvalue := value.toInt_lt
    have hbounded := hs.bounded.sublist hkept
    refine .inr ⟨_, hrun, ⟨hbounded.distinct, hcount, hbounded.group_le⟩, hperDomain,
      hs.perDomainCapacity_pos, ?_⟩
    dsimp only [intcsMax]
    omega

theorem setPerDomainCapacityProperty_spec (hs : StoreInvariant s) (value : Int32)
    (hcount : 0 < value.toInt → value.toInt ≤ s.capacity_ →
      ∀ c ∈ s.cookies_, (s.cookies_.countP (fun b => b.domain_ = c.domain_) : ℤ) ≤ value.toInt) :
    (∃ e, e ≠ .diverged ∧ setPerDomainCapacityProperty value s = .error e s) ∨
    ∃ t, setPerDomainCapacityProperty value s = .ok () t ∧ StoreInvariant t := by
  by_cases hrefused : value.toInt ≤ 0 ∨ s.capacity_ < value.toInt
  · simp [setPerDomainCapacityProperty, hrefused]
  · rw [not_or, not_le, not_lt] at hrefused
    refine .inr ⟨{ s with perDomainCapacity_ := value.toInt }, ?_,
      hs.bounded.withBounds hs.bounded.length_le (hcount hrefused.1 hrefused.2) hrefused.1.le,
      hrefused.2, hrefused.1, hs.capacity_le⟩
    rw [setPerDomainCapacityProperty, get_bind, if_neg (by omega)]
    rfl

theorem setMaxCookieSizeProperty_spec (hs : StoreInvariant s) (value : Int32) :
    (∃ e, e ≠ .diverged ∧ setMaxCookieSizeProperty value s = .error e s) ∨
    ∃ t, setMaxCookieSizeProperty value s = .ok () t ∧ StoreInvariant t := by
  by_cases hrefused : value.toInt ≤ 0
  · simp [setMaxCookieSizeProperty, hrefused]
  · refine .inr ⟨{ s with maxCookieSize_ := value.toInt }, ?_, hs.bounded, hs.perDomainCapacity_le,
      hs.perDomainCapacity_pos, hs.capacity_le⟩
    rw [setMaxCookieSizeProperty, if_neg hrefused]
    rfl

/-! ## Histories -/

section History

variable {tryParseCookieDate : List UInt8 → Option DateTime} {action : CookieAction}

theorem meets_of_ends (hs : StoreInvariant s)
    (hends : (∃ e, e ≠ .diverged ∧ action.program tryParseCookieDate s = .error e s) ∨
      ∃ t, action.program tryParseCookieDate s = .ok () t ∧ StoreInvariant t)
    (hremoves : RemovesExpired tryParseCookieDate s action) : Meets tryParseCookieDate s action := by
  obtain ⟨e, he, hrun⟩ | ⟨t, hrun, ht⟩ := hends
  · refine ⟨?_, ?_, ?_, hremoves⟩
    · rw [hrun]
      exact hs
    · rw [hrun]
      exact fun h => he (Except.error.inj h)
    · intro e' s' h
      rw [hrun] at h
      cases h
      rfl
  · refine ⟨?_, ?_, ?_, hremoves⟩
    · rw [hrun]
      exact ht
    · rw [hrun]
      exact fun h => (nomatch h)
    · intro e' s' h
      rw [hrun] at h
      cases h

theorem add_ends (hs : StoreInvariant s) (clock : Clock) (uri : CookieUri) (cookie : Cookie) :
    (∃ e, e ≠ .diverged ∧ add clock uri cookie s = .error e s) ∨
    ∃ t, add clock uri cookie s = .ok () t ∧ StoreInvariant t := by
  obtain ⟨-, e, he, hrun⟩ | ⟨cookies, hrun, hkept⟩ := add_spec hs clock uri cookie
  · exact .inl ⟨e, he, hrun⟩
  · exact .inr ⟨_, hrun, hkept⟩

theorem meets_of_orderly (hs : StoreInvariant s) (h : Orderly tryParseCookieDate s action) :
    Meets tryParseCookieDate s action := by
  obtain ⟨clock, call⟩ := action
  cases call with
  | add uri cookie =>
    exact meets_of_ends hs (add_ends hs clock uri cookie) (expiredRemoves_of_liveOrNew h)
  | addCollection uri cookies =>
    refine meets_of_ends hs (addCollection_spec hs h.2) ?_
    exact along_of_along (fun s c t ht _ hnext => (addNext_kept ht hnext).1)
      (fun s c _ hc => expiredRemoves_of_liveOrNew hc) cookies hs h.1
  | setCookies uri cookieHeader =>
    cases hparse : parseCookie clock tryParseCookieDate cookieHeader with
    | error e =>
      obtain ⟨message, rfl⟩ := parseCookie_fault hparse
      refine meets_of_ends hs (.inl ⟨.cookieException message, (fun h => by cases h),
        setCookies_of_refused hparse⟩) ?_
      intro cookie hcookie
      rw [hparse] at hcookie
      cases hcookie
    | ok cookie =>
      refine meets_of_ends hs ?_ ?_
      · change (∃ e, e ≠ .diverged ∧
            setCookies clock tryParseCookieDate uri cookieHeader s = .error e s) ∨
          ∃ t, setCookies clock tryParseCookieDate uri cookieHeader s = .ok () t ∧
            StoreInvariant t
        rw [setCookies_of_parsed hparse]
        exact add_ends hs clock uri cookie
      · intro cookie' hcookie
        rw [hparse] at hcookie
        obtain rfl := Except.ok.inj hcookie
        dsimp only [Orderly] at h
        rw [hparse] at h
        exact expiredRemoves_of_liveOrNew h
  | setCapacityProperty value =>
    exact meets_of_ends hs (setCapacityProperty_spec hs clock value) trivial
  | setPerDomainCapacityProperty value =>
    exact meets_of_ends hs (setPerDomainCapacityProperty_spec hs value h) trivial
  | setMaxCookieSizeProperty value =>
    exact meets_of_ends hs (setMaxCookieSizeProperty_spec hs value) trivial

theorem invariant_new : StoreInvariant new where
  bounded := ⟨List.nodup_nil, by decide, fun _ => Int.natCast_nonneg 20⟩
  perDomainCapacity_le := by decide
  perDomainCapacity_pos := by decide
  capacity_le := by decide

/-- **The store keeps to its limits**: in every history of a container in which an expired cookie
finds no stored cookie of its identity, a refused cookie is not behind others of its collection, and
`PerDomainCapacity` is not set below the number of cookies of a domain, every call keeps the stored
cookies distinct and within both limits, ends, changes nothing if it throws, and lets an expired
cookie only remove. -/
theorem store_kept (tryParseCookieDate : List UInt8 → Option DateTime)
    (actions : List CookieAction)
    (h : Along (step tryParseCookieDate) (Orderly tryParseCookieDate) new actions) :
    Along (step tryParseCookieDate) (Meets tryParseCookieDate) new actions := by
  refine along_of_along (I := StoreInvariant) (fun s action t hs horderly hstep => ?_)
    (fun s action => meets_of_orderly) actions invariant_new h
  obtain rfl := Option.some.inj hstep
  exact (meets_of_orderly hs horderly).invariant

end History

def exampleClock : Clock where
  utcNow := ⟨0x4000000000000002⟩
  zone := ⟨fun _ => ⟨0⟩, fun _ => ⟨0⟩⟩

def exampleUri : CookieUri where
  scheme := asciiBytes "https"
  host := asciiBytes "example.org"
  absolutePath := asciiBytes "/"

def namedCookie (name : String) (expired : Bool) : Cookie :=
  { Cookie.default with
    name_ := asciiBytes name
    expires_ := if expired then ⟨0x4000000000000001⟩ else DateTime.default }

/-- There are three cookies in the domain when its limit is set to three; then the oldest goes for a
fourth, and an expired one is not stored. -/
def threeInDomain : List CookieAction :=
  [⟨exampleClock, .add exampleUri (namedCookie "a" false)⟩,
    ⟨exampleClock, .addCollection exampleUri [namedCookie "b" false, namedCookie "c" false]⟩,
    ⟨exampleClock, .setPerDomainCapacityProperty 3⟩,
    ⟨exampleClock, .setCookies exampleUri (asciiBytes "d=1; path=/")⟩,
    ⟨exampleClock, .add exampleUri (namedCookie "e" true)⟩]

/-- The theorem on a run that meets the limit of a domain and adds an expired cookie. -/
theorem store_kept_three :
    Along (step fun _ => none) (Orderly fun _ => none) new threeInDomain ∧
      Along (step fun _ => none) (Meets fun _ => none) new threeInDomain := by
  have horderly : Along (step fun _ => none) (Orderly fun _ => none) new
      threeInDomain := by
    decide +kernel
  exact ⟨horderly, store_kept (fun _ => none) threeInDomain horderly⟩

/-- `PerDomainCapacity` is set to one while two cookies of a domain are stored, and nothing goes; an
expired cookie is added in the place of a live one, and is stored. -/
theorem not_store_kept :
    (∃ actions s, run (step fun _ => none) new actions = some s ∧
      ¬ StoreInvariant s) ∧
    ∃ actions s action, run (step fun _ => none) new actions = some s ∧
      ¬ RemovesExpired (fun _ => none) s action := by
  refine ⟨⟨[⟨exampleClock, .add exampleUri (namedCookie "a" false)⟩,
      ⟨exampleClock, .add exampleUri (namedCookie "b" false)⟩,
      ⟨exampleClock, .setPerDomainCapacityProperty 1⟩], _, rfl, ?_⟩,
    [⟨exampleClock, .add exampleUri (namedCookie "a" false)⟩], _,
      ⟨exampleClock, .add exampleUri (namedCookie "a" true)⟩, rfl, ?_⟩
  · intro hinvariant
    have htwo := hinvariant.bounded.group_le (asciiBytes "example.org")
    revert htwo
    decide +kernel
  · intro hremoves
    have hstored := hremoves (defaulted exampleUri (namedCookie "a" true)) (by decide +kernel)
      (by decide +kernel)
    have hcookies := congrArg (fun r => (after r).cookies_) hstored
    revert hcookies
    decide +kernel

end SharpRuntime.Analysis.CookieLimits
