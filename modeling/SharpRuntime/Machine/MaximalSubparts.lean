import SharpRuntime.Machine.UnicodeReaders

/-!
# Maximal subparts of ill-formed UTF-8

Where no sequence of RFC 3629's table stands, U+FFFD is put for as many bytes as begin one, and for
one byte if none begins there (`Substituted`).  The reader of UTF-8 looks at the shape of bytes
only, and takes a tail after a first byte that does not admit it: it replaces the maximal subparts
of the texts in which no such tail stands (`exists_substituted`).
-/

set_option autoImplicit false

namespace Machine

namespace Utf8

def Begins (p : List UInt8) : Prop := ∃ rest, Admitted (p ++ rest)

/-- The bytes in front that are one maximal subpart: as many as begin a sequence, or a single
one. -/
structure MaximalSubpart (s : List UInt8) (n : ℕ) : Prop where
  pos : 0 < n
  le : n ≤ s.length
  begins : n = 1 ∨ Begins (s.take n)
  maximal : ∀ m ≤ s.length, Begins (s.take m) → m ≤ n

/-- The scalars of a text, with one U+FFFD for each maximal subpart of what is ill-formed. -/
inductive Substituted : List UInt8 → List ℕ → Prop where
  | nil : Substituted [] []
  | scalar {c : ℕ} {s : List UInt8} {cs : List ℕ} (hc : Scalar c) (hrest : Substituted s cs) :
    Substituted (utf8.encode c ++ s) (c :: cs)
  | subpart {s : List UInt8} {n : ℕ} {cs : List ℕ}
    (hnone : ∀ c, Scalar c → ¬ utf8.encode c <+: s) (hn : MaximalSubpart s n)
    (hrest : Substituted (s.drop n) cs) : Substituted s (0xFFFD :: cs)

/-- A first byte permits a tail after it only if the two begin a sequence. -/
def Permits (a b : UInt8) : Prop := 0xC0 ≤ a.toNat → a.toNat < 0xF8 → IsTail b → Begins [a, b]

theorem Begins.of_append {p q : List UInt8} (h : Begins (p ++ q)) : Begins p := by
  obtain ⟨rest, hrest⟩ := h
  exact ⟨q ++ rest, by rwa [← List.append_assoc]⟩

theorem not_read?_iff {s : List UInt8} :
    utf8.read? s = none ↔ ∀ c, Scalar c → ¬ utf8.encode c <+: s := by
  constructor
  · rintro hnone c hc ⟨rest, rfl⟩
    rw [utf8.read?_encode hc rest] at hnone
    cases hnone
  · intro h
    cases hread : utf8.read? s with
    | none => rfl
    | some r =>
      obtain ⟨hc, -, rest, hs⟩ := utf8.of_read? hread
      exact absurd ⟨rest, hs.symm⟩ (h r.1 hc)

theorem isTail_of_tails? {n acc c : ℕ} {s : List UInt8} (h : tails? n acc s = some c) :
    ∀ b ∈ s.take n, IsTail b := by
  induction n generalizing acc s with
  | zero => nofun
  | succ n ih =>
    obtain ⟨b, rest, rfl, hb, h⟩ := exists_of_tails? h
    rw [List.take_succ_cons, List.forall_mem_cons]
    exact ⟨hb, ih h⟩

theorem shape_of_admitted {b : UInt8} {u : List UInt8} (h : Admitted (b :: u)) :
    ∃ lead, lead? b = some lead ∧ u.length = lead.tails ∧ ∀ x ∈ u, IsTail x := by
  obtain ⟨c, hc, hencode⟩ := admitted_iff.mp h
  have hread := utf8.read?_encode hc []
  rw [List.append_nil] at hread
  have hcons : b :: u = utf8.encode c := hencode
  rw [← hcons, read?_cons] at hread
  obtain ⟨lead, hlead, hread⟩ := Option.bind_eq_some_iff.mp hread
  obtain ⟨d, htails, hread⟩ := Option.bind_eq_some_iff.mp hread
  have hlength : u.length = lead.tails := by grind
  refine ⟨lead, hlead, hlength, ?_⟩
  have htake := isTail_of_tails? htails
  rwa [List.take_of_length_le hlength.le] at htake

theorem shape_of_begins {b : UInt8} {u : List UInt8} (h : Begins (b :: u)) :
    ∃ lead, lead? b = some lead ∧ u.length ≤ lead.tails ∧ ∀ x ∈ u, IsTail x := by
  obtain ⟨rest, hrest⟩ := h
  rw [List.cons_append] at hrest
  obtain ⟨lead, hlead, hlength, htails⟩ := shape_of_admitted hrest
  rw [List.length_append] at hlength
  exact ⟨lead, hlead, by omega, fun x hx => htails x (List.mem_append_left rest hx)⟩

theorem admitted_tails {a b : UInt8} {u v : List UInt8} (h : Admitted (a :: b :: u))
    (hlength : v.length = u.length) (hv : ∀ x ∈ v, IsTail x) : Admitted (a :: b :: v) := by
  have hnil : u = [] → v = [] := by
    rintro rfl
    exact List.length_eq_zero_iff.mp hlength
  have hone : ∀ c, u = [c] → ∃ y, v = [y] ∧ IsTail y := by
    rintro c rfl
    obtain ⟨y, rfl⟩ := List.length_eq_one_iff.mp hlength
    exact ⟨y, rfl, hv y List.mem_cons_self⟩
  have htwo : ∀ c d, u = [c, d] → ∃ y z, v = [y, z] ∧ IsTail y ∧ IsTail z := by
    rintro c d rfl
    obtain ⟨y, z, rfl⟩ := List.length_eq_two.mp hlength
    exact ⟨y, z, rfl, hv y List.mem_cons_self, hv z (List.mem_cons_of_mem _ List.mem_cons_self)⟩
  cases h with
  | two ha hb =>
    rw [hnil rfl]
    exact .two ha hb
  | threeLow ha hb =>
    obtain ⟨y, rfl, hy⟩ := hone _ rfl
    exact .threeLow ha hb hy
  | three ha hb =>
    obtain ⟨y, rfl, hy⟩ := hone _ rfl
    exact .three ha hb hy
  | threeSurrogate ha hb =>
    obtain ⟨y, rfl, hy⟩ := hone _ rfl
    exact .threeSurrogate ha hb hy
  | threeHigh ha hb =>
    obtain ⟨y, rfl, hy⟩ := hone _ rfl
    exact .threeHigh ha hb hy
  | fourLow ha hb =>
    obtain ⟨y, z, rfl, hy, hz⟩ := htwo _ _ rfl
    exact .fourLow ha hb hy hz
  | four ha hb =>
    obtain ⟨y, z, rfl, hy, hz⟩ := htwo _ _ rfl
    exact .four ha hb hy hz
  | fourHigh ha hb =>
    obtain ⟨y, z, rfl, hy, hz⟩ := htwo _ _ rfl
    exact .fourHigh ha hb hy hz

theorem begins_tails {a b : UInt8} {u : List UInt8} {lead : Lead} (h : Begins [a, b])
    (hlead : lead? a = some lead) (hlength : u.length + 1 ≤ lead.tails) (hu : ∀ x ∈ u, IsTail x) :
    Begins (a :: b :: u) := by
  obtain ⟨rest, hrest⟩ := h
  rw [List.cons_append, List.singleton_append] at hrest
  obtain ⟨lead', hlead', hshape, -⟩ := shape_of_admitted hrest
  obtain rfl := Option.some.inj (hlead.symm.trans hlead')
  rw [List.length_cons] at hshape
  have htail : IsTail 0x80 := by decide
  refine ⟨List.replicate (rest.length - u.length) 0x80, ?_⟩
  rw [List.cons_append, List.cons_append]
  refine admitted_tails hrest ?_ ?_
  · rw [List.length_append, List.length_replicate]
    omega
  · grind

theorem lead_tails_pos {b : UInt8} {lead : Lead} (hlead : lead? b = some lead)
    (hpos : 0 < lead.tails) : 0xC0 ≤ b.toNat ∧ b.toNat < 0xF8 := by
  rw [lead?] at hlead
  split_ifs at hlead
  · cases hlead
    cases hpos
  · omega
  · omega
  · omega

theorem lead_of_range {b : UInt8} (hlow : 0xC0 ≤ b.toNat) (hhigh : b.toNat < 0xF8) :
    ∃ lead, lead? b = some lead ∧ 0 < lead.tails := by
  rw [lead?, if_neg (by omega), if_neg (by omega)]
  split_ifs
  · exact ⟨_, rfl, Nat.one_pos⟩
  · exact ⟨_, rfl, Nat.two_pos⟩
  · exact ⟨_, rfl, Nat.succ_pos 2⟩

theorem tails_of_scanTails {minimum n seen acc m : ℕ} {s : List UInt8}
    (h : scanTails true minimum n seen acc s = .bad m) :
    ∃ k, m = seen + k ∧ k ≤ n ∧ k ≤ s.length ∧ (∀ x ∈ s.take k, IsTail x) ∧
      (k < n → ∀ x rest, s.drop k = x :: rest → ¬ IsTail x) := by
  induction n generalizing seen acc s with
  | zero => grind [scanTails]
  | succ n ih =>
    cases s with
    | nil =>
      cases h
      exact ⟨0, rfl, Nat.zero_le _, le_rfl, List.forall_mem_nil _, fun _ x rest hx => by cases hx⟩
    | cons b s =>
      rw [scanTails] at h
      split at h
      case isTrue hb => grind
      case isFalse hb =>
        cases h
        refine ⟨0, rfl, Nat.zero_le _, Nat.zero_le _, List.forall_mem_nil _, ?_⟩
        rintro - x rest hx
        cases hx
        exact hb

theorem tails_of_bad {b : UInt8} {s : List UInt8} {n : ℕ} (h : reader.read true (b :: s) = .bad n) :
    ∃ k, n = k + 1 ∧ k ≤ s.length ∧ (∀ x ∈ s.take k, IsTail x) ∧
      (∀ lead, lead? b = some lead → k ≤ lead.tails ∧
        (k < lead.tails → ∀ x rest, s.drop k = x :: rest → ¬ IsTail x)) ∧
      (lead? b = none → k = 0) := by
  change scan true (b :: s) = .bad n at h
  rw [scan] at h
  cases hlead : lead? b with
  | none =>
    rw [hlead] at h
    cases h
    exact ⟨0, rfl, Nat.zero_le _, nofun, nofun, fun _ => rfl⟩
  | some lead =>
    rw [hlead] at h
    obtain ⟨k, rfl, hk, hle, htails, hstop⟩ := tails_of_scanTails h
    refine ⟨k, Nat.add_comm 1 k, hle, htails, ?_, nofun⟩
    rintro lead' heq
    obtain rfl := Option.some.inj heq
    exact ⟨hk, hstop⟩

theorem maximalSubpart_one {b : UInt8} {s : List UInt8}
    (h : ∀ x rest, s = x :: rest → ¬ Begins [b, x]) : MaximalSubpart (b :: s) 1 := by
  refine ⟨Nat.one_pos, Nat.succ_pos _, Or.inl rfl, fun m hm hbegins => ?_⟩
  by_contra hlt
  obtain ⟨k, rfl⟩ : ∃ k, m = k + 2 := ⟨m - 2, by omega⟩
  cases s with
  | nil =>
    rw [List.length_singleton] at hm
    omega
  | cons x rest =>
    exact h x rest rfl (Begins.of_append (p := [b, x]) hbegins)

theorem maximalSubpart_of_bad {b : UInt8} {s : List UInt8} {n : ℕ}
    (h : reader.read true (b :: s) = .bad n) (hfollows : ∀ x rest, s = x :: rest → Permits b x) :
    MaximalSubpart (b :: s) n := by
  obtain ⟨k, rfl, hle, htails, hsome, hnone⟩ := tails_of_bad h
  refine ⟨Nat.succ_pos k, Nat.succ_le_succ hle, ?_, fun m hm hbegins => ?_⟩
  · rcases Nat.eq_zero_or_pos k with hzero | hpos
    · exact Or.inl (by omega)
    · right
      cases hlead : lead? b with
      | none =>
        have := hnone hlead
        omega
      | some lead =>
        obtain ⟨hk, -⟩ := hsome lead hlead
        obtain ⟨j, rfl⟩ : ∃ j, k = j + 1 := ⟨k - 1, by omega⟩
        cases s with
        | nil =>
          rw [List.length_nil] at hle
          omega
        | cons x rest =>
          rw [List.take_succ_cons, List.forall_mem_cons] at htails
          obtain ⟨hlow, hhigh⟩ := lead_tails_pos hlead (by omega)
          refine begins_tails (hfollows x rest rfl hlow hhigh htails.1) hlead ?_ htails.2
          rw [List.length_take]
          omega
  · by_contra hlt
    obtain ⟨j, rfl⟩ : ∃ j, m = j + 1 := ⟨m - 1, by omega⟩
    rw [List.length_cons] at hm
    obtain ⟨lead, hlead, hlength, hall⟩ := shape_of_begins hbegins
    rw [List.length_take, Nat.min_eq_left (by omega)] at hlength
    obtain ⟨-, hstop⟩ := hsome lead hlead
    -- the byte after those that are taken would be a tail
    have hk : k < s.length := by omega
    have hmem : s[k] ∈ s.take j := by
      rw [List.mem_take_iff_getElem]
      exact ⟨k, by omega, rfl⟩
    exact hstop (by omega) s[k] (s.drop (k + 1)) (List.drop_eq_getElem_cons hk) (hall _ hmem)

theorem isChain_tails {u s : List UInt8} (hu : ∀ x ∈ u, IsTail x) :
    (u ++ s).IsChain Permits ↔ s.IsChain Permits := by
  induction u with
  | nil => rfl
  | cons x u ih =>
    rw [List.forall_mem_cons] at hu
    rw [List.cons_append, List.isChain_cons_iff, ← ih hu.2]
    have hany : ∀ y, Permits x y := by
      intro y hlow
      have hx := hu.1.2
      omega
    constructor
    · grind
    · intro h
      cases hrest : u ++ s with
      | nil => exact Or.inl rfl
      | cons y rest =>
        rw [hrest] at h
        exact Or.inr ⟨y, rest, hany y, h, rfl⟩

theorem isChain_step {b : UInt8} {s : List UInt8} {k : ℕ} (htails : ∀ x ∈ s.take k, IsTail x)
    (hfollows : ∀ x rest, s = x :: rest → Permits b x) :
    (b :: s).IsChain Permits ↔ (s.drop k).IsChain Permits := by
  have hsplit := @isChain_tails _ (s.drop k) htails
  rw [List.take_append_drop] at hsplit
  rw [← hsplit]
  cases s with
  | nil => simp
  | cons x rest =>
    rw [List.isChain_cons_cons]
    exact and_iff_right (hfollows x rest rfl)

theorem substituted_tails {u s : List UInt8} {cs : List ℕ} (hu : ∀ x ∈ u, IsTail x)
    (h : Substituted s cs) : Substituted (u ++ s) (List.replicate u.length 0xFFFD ++ cs) := by
  induction u with
  | nil => exact h
  | cons x u ih =>
    rw [List.forall_mem_cons] at hu
    obtain ⟨hlow, hhigh⟩ := hu.1
    have hlead : lead? x = none := by
      rw [lead?, if_neg (by omega), if_pos hhigh]
    rw [List.cons_append, List.length_cons, List.replicate_succ, List.cons_append]
    refine .subpart (not_read?_iff.mp ?_) (maximalSubpart_one ?_) (ih hu.2)
    · rw [read?_cons, hlead]
      rfl
    · rintro y rest - hbegins
      obtain ⟨lead, hlead', -⟩ := shape_of_begins hbegins
      rw [hlead] at hlead'
      cases hlead'

theorem bad_of_not_follows {b x : UInt8} {s : List UInt8} (h : ¬ Permits b x) :
    ∃ k, reader.read true (b :: x :: s) = .bad (k + 2) ∧ k ≤ s.length ∧
      ∀ y ∈ (x :: s).take (k + 1), IsTail y := by
  simp only [Permits, Classical.not_imp] at h
  obtain ⟨hlow, hhigh, hx, hbegins⟩ := h
  obtain ⟨lead, hlead, hpos⟩ := lead_of_range hlow hhigh
  cases hread : reader.read true (b :: x :: s) with
  | more => exact absurd hread (reader.not_more (List.cons_ne_nil b _))
  | scalar c n =>
    -- the sequence would begin with the two bytes
    obtain ⟨hc, rfl, rest, hs⟩ := utf8.of_read? ((reader.read_scalar_iff true).mp hread)
    have hadmitted : Admitted (utf8.encode c) := admitted_encode hc
    cases hcode : utf8.encode c with
    | nil => exact absurd hcode (utf8.encode_ne_nil c)
    | cons a u =>
      rw [hcode, List.cons_append] at hs
      rw [hcode] at hadmitted
      obtain ⟨rfl, hrest⟩ := List.cons.inj hs
      obtain ⟨lead', hlead', hlength, -⟩ := shape_of_admitted hadmitted
      obtain rfl := Option.some.inj (hlead.symm.trans hlead')
      cases u with
      | nil =>
        rw [List.length_nil] at hlength
        omega
      | cons y u =>
        obtain ⟨rfl, -⟩ := List.cons.inj hrest
        exact absurd ⟨u, hadmitted⟩ hbegins
  | bad n =>
    obtain ⟨k, rfl, hle, htails, hsome, -⟩ := tails_of_bad hread
    obtain ⟨hk, hstop⟩ := hsome lead hlead
    cases k with
    | zero => exact absurd hx (hstop hpos x s rfl)
    | succ k => exact ⟨k, rfl, Nat.le_of_succ_le_succ hle, htails⟩

/-- Every text has its scalars, one U+FFFD for each maximal subpart.  They are those of the reader,
if every tail follows; else the reader gives fewer, and whatever they are written in, less. -/
theorem exists_substituted (s : List UInt8) :
    ∃ cs, Substituted s cs ∧
      (s.IsChain Permits ∧ cs = utf8.replaced reader.skip s ∨ ¬ s.IsChain Permits ∧
        ∀ (β : Type) (target : ScalarCode β),
          (target.encodeAll (utf8.replaced reader.skip s)).length <
            (target.encodeAll cs).length) := by
  induction s using utf8.step_induction reader.skip with
  | nil =>
    rw [utf8.replaced_nil]
    exact ⟨[], .nil, Or.inl ⟨.nil, rfl⟩⟩
  | step s hne ih =>
    obtain ⟨cs, hcs, hcompare⟩ := ih
    rw [utf8.replaced_step reader.skip hne]
    -- the comparison, when both take the same step
    have hsame : ∀ c, (utf8.step reader.skip s).1 = c →
        (s.IsChain Permits ↔ (s.drop (utf8.step reader.skip s).2).IsChain Permits) →
        (s.IsChain Permits ∧ c :: cs = (utf8.step reader.skip s).1 ::
            utf8.replaced reader.skip (s.drop (utf8.step reader.skip s).2) ∨
          ¬ s.IsChain Permits ∧ ∀ (β : Type) (target : ScalarCode β),
            (target.encodeAll ((utf8.step reader.skip s).1 ::
              utf8.replaced reader.skip (s.drop (utf8.step reader.skip s).2))).length <
              (target.encodeAll (c :: cs)).length) := by
      rintro c rfl hchain
      rw [hchain]
      refine hcompare.imp (And.imp_right fun heq => by rw [heq]) (And.imp_right fun hlt => ?_)
      intro β target
      have := hlt β target
      rw [target.encodeAll_cons, target.encodeAll_cons, List.length_append, List.length_append]
      omega
    obtain ⟨b, s, rfl⟩ := List.exists_cons_of_ne_nil hne
    cases hread : reader.read true (b :: s) with
    | more => exact absurd hread (reader.not_more hne)
    | scalar c n =>
      have hstep := Reader.step_scalar hread
      obtain ⟨hc, rfl, rest, hs⟩ := utf8.of_read? ((reader.read_scalar_iff true).mp hread)
      rw [hstep] at hcs hsame ⊢
      refine ⟨c :: cs, ?_, hsame c rfl ?_⟩
      · rw [hs, List.drop_left] at hcs
        rw [hs]
        exact .scalar hc hcs
      · have hadmitted : Admitted (utf8.encode c) := admitted_encode hc
        cases hcode : utf8.encode c with
        | nil => exact absurd hcode (utf8.encode_ne_nil c)
        | cons a u =>
          rw [hcode] at hadmitted hs
          obtain ⟨rfl, rfl⟩ := List.cons.inj hs
          obtain ⟨lead, hlead, hlength, htails⟩ := shape_of_admitted hadmitted
          refine isChain_step (k := u.length) ?_ ?_
          · rwa [List.append_eq, List.take_left]
          · rintro x v hv hlow hhigh -
            obtain ⟨lead', hlead', hpos⟩ := lead_of_range hlow hhigh
            obtain rfl := Option.some.inj (hlead.symm.trans hlead')
            cases u with
            | nil =>
              rw [List.length_nil] at hlength
              omega
            | cons y u =>
              obtain ⟨rfl, -⟩ := List.cons.inj hv
              exact ⟨u, hadmitted⟩
    | bad n =>
      have hstep := Reader.step_bad hne hread
      have hnone : utf8.read? (b :: s) = none := by
        cases hscalar : utf8.read? (b :: s) with
        | none => rfl
        | some r =>
          rw [(reader.read_scalar_iff true).mpr hscalar] at hread
          cases hread
      rw [hstep] at hcs hsame hcompare ⊢
      by_cases hfollows : ∀ x rest, s = x :: rest → Permits b x
      · refine ⟨0xFFFD :: cs, .subpart (not_read?_iff.mp hnone)
          (maximalSubpart_of_bad hread hfollows) hcs, hsame _ rfl ?_⟩
        obtain ⟨k, rfl, -, htails, -⟩ := tails_of_bad hread
        exact isChain_step htails hfollows
      · -- the reader takes a tail too many
        push Not at hfollows
        obtain ⟨x, rest, rfl, hnot⟩ := hfollows
        obtain ⟨k, hbad, hk, htails⟩ := bad_of_not_follows (s := rest) hnot
        obtain rfl := Reading.bad.inj (hread.symm.trans hbad)
        have hlength : ((x :: rest).take (k + 1)).length = k + 1 := by
          rw [List.length_take, List.length_cons]
          omega
        have htailed := substituted_tails htails hcs
        rw [List.drop_succ_cons, List.take_append_drop, hlength] at htailed
        have hone : MaximalSubpart (b :: x :: rest) 1 := by
          refine maximalSubpart_one ?_
          rintro y v hv hbegins
          obtain ⟨rfl, -⟩ := List.cons.inj hv
          exact hnot fun _ _ _ => hbegins
        refine ⟨0xFFFD :: (List.replicate (k + 1) 0xFFFD ++ cs),
          .subpart (not_read?_iff.mp hnone) hone htailed, Or.inr ⟨?_, fun β target => ?_⟩⟩
        · rw [List.isChain_cons_cons]
          exact fun hchain => hnot hchain.1
        · have hle : (target.encodeAll (utf8.replaced reader.skip
              ((b :: x :: rest).drop (k + 2)))).length ≤ (target.encodeAll cs).length := by grind
          have hpos := target.length_encode_pos 0xFFFD
          rw [target.encodeAll_cons, target.encodeAll_cons, target.encodeAll_append,
            List.replicate_succ, target.encodeAll_cons]
          simp only [List.length_append]
          omega

theorem MaximalSubpart.unique {s : List UInt8} {n m : ℕ} (hn : MaximalSubpart s n)
    (hm : MaximalSubpart s m) : n = m := by
  have hle : ∀ {i j : ℕ}, MaximalSubpart s i → MaximalSubpart s j → i ≤ j := by
    intro i j hi hj
    rcases hi.begins with rfl | hbegins
    · exact hj.pos
    · exact hj.maximal i hi.le hbegins
  exact le_antisymm (hle hn hm) (hle hm hn)

theorem Substituted.cases {s : List UInt8} {cs : List ℕ} (h : Substituted s cs) :
    (s = [] ∧ cs = []) ∨
      (∃ c rest ds, Scalar c ∧ s = utf8.encode c ++ rest ∧ Substituted rest ds ∧ cs = c :: ds) ∨
      (∃ n ds, (∀ c, Scalar c → ¬ utf8.encode c <+: s) ∧ MaximalSubpart s n ∧
        Substituted (s.drop n) ds ∧ cs = 0xFFFD :: ds) := by
  cases h with
  | nil => exact Or.inl ⟨rfl, rfl⟩
  | scalar hc hrest => exact Or.inr (Or.inl ⟨_, _, _, hc, rfl, hrest, rfl⟩)
  | subpart hnone hn hrest => exact Or.inr (Or.inr ⟨_, _, hnone, hn, hrest, rfl⟩)

theorem Substituted.unique {s : List UInt8} {cs ds : List ℕ} (h : Substituted s cs)
    (h' : Substituted s ds) : cs = ds := by
  have hlength : ∀ {s : List UInt8} {n : ℕ}, MaximalSubpart s n → s ≠ [] := by
    rintro s n hn rfl
    have hpos := hn.pos
    have hle := hn.le
    rw [List.length_nil] at hle
    omega
  induction h generalizing ds with
  | nil =>
    rcases h'.cases with ⟨-, rfl⟩ | ⟨c, rest, es, -, hs, -⟩ | ⟨n, es, -, hn, -⟩
    · rfl
    · exact absurd (List.append_eq_nil_iff.mp hs.symm).1 (utf8.encode_ne_nil c)
    · exact absurd rfl (hlength hn)
  | @scalar c s cs hc hrest ih =>
    rcases h'.cases with ⟨hnil, -⟩ | ⟨d, rest, es, hd, hs, hes, rfl⟩ | ⟨n, es, hnone, -⟩
    · exact absurd (List.append_eq_nil_iff.mp hnil).1 (utf8.encode_ne_nil c)
    · obtain ⟨rfl, rfl⟩ := utf8.encode_append_inj hc hd hs
      rw [ih hes]
    · exact absurd ⟨s, rfl⟩ (hnone c hc)
  | @subpart s n cs hnone hn hrest ih =>
    rcases h'.cases with ⟨hnil, -⟩ | ⟨d, rest, es, hd, hs, -⟩ | ⟨m, es, -, hm, hes, rfl⟩
    · exact absurd hnil (hlength hn)
    · exact absurd ⟨rest, hs.symm⟩ (hnone d hd)
    · obtain rfl := hn.unique hm
      rw [ih hes]

end Utf8

end Machine
