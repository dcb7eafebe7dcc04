import SharpRuntime.Machine.ScalarCode

/-!
# Transcoding from one code to another

A transcoder reads scalars from units and writes them in another code, into a room that may be too
small.  It may be told that more units will follow, and to replace what it cannot read.  What a run
wrote is the transcoding of what it took (`Transcodes.written_eq`), and a sequence transcoded in two
parts is transcoded as a whole (`Transcodes.append`).
-/

set_option autoImplicit false

namespace Machine

/-- What stands in front of a sequence: the beginning of a scalar that the sequence cuts off, some
units that are no scalar, or a scalar and the units it takes. -/
inductive Reading where
  | more
  | bad (length : ℕ)
  | scalar (c length : ℕ)
deriving DecidableEq

/-- Why a run ends. -/
inductive Halt where
  | done
  | full
  | starved
  | malformed
deriving DecidableEq

variable {α β : Type}

/-- A reader of a code.  The flag says that the sequence ends where it ends, and nothing follows. -/
structure Reader (code : ScalarCode α) where
  read : Bool → List α → Reading
  read_scalar_iff : ∀ (final : Bool) {s : List α} {c n : ℕ},
    read final s = .scalar c n ↔ code.read? s = some (c, n)
  bad_length : ∀ {final : Bool} {s : List α} {n : ℕ}, s ≠ [] → read final s = .bad n →
    0 < n ∧ n ≤ s.length
  not_more : ∀ {s : List α}, s ≠ [] → read true s ≠ .more
  bad_append : ∀ {s : List α} {n : ℕ}, s ≠ [] → read false s = .bad n →
    ∀ (final : Bool) (t : List α), read final (s ++ t) = .bad n
  bad_take : ∀ {final : Bool} {s : List α} {n : ℕ}, s ≠ [] → read final s = .bad n →
    ∀ {k : ℕ}, n ≤ k → read true (s.take k) = .bad n

namespace Reader

variable {code : ScalarCode α} (reader : Reader code)

def skip (s : List α) : ℕ :=
  match reader.read true s with
  | .bad n => n - 1
  | _ => 0

variable {reader}

variable {s : List α} {n : ℕ}

theorem step_scalar {final : Bool} {c : ℕ} (h : reader.read final s = .scalar c n) :
    code.step reader.skip s = (c, n) :=
  code.step_of_read? reader.skip ((reader.read_scalar_iff _).mp h)

theorem step_bad (hne : s ≠ []) (h : reader.read true s = .bad n) :
    code.step reader.skip s = (0xFFFD, n) := by
  have hnone : code.read? s = none := by
    cases hread : code.read? s with
    | none => rfl
    | some r =>
      have hscalar := (reader.read_scalar_iff true).mpr hread
      rw [h] at hscalar
      cases hscalar
  obtain ⟨hpos, -⟩ := reader.bad_length hne h
  have hskip : reader.skip s = n - 1 := by rw [skip, h]
  rw [code.step_of_not_read? reader.skip hnone, hskip, Nat.sub_add_cancel hpos]

end Reader

section Runs

variable {code : ScalarCode α} (reader : Reader code) (target : ScalarCode β)
  (replace final : Bool)

def put (room c n : ℕ) : Halt ⊕ ℕ × ℕ :=
  if room < (target.encode c).length then .inl .full else .inr (c, n)

/-- What a run does at the beginning of a sequence: it ends, or writes a scalar and goes on after
some units. -/
def move (room : ℕ) (s : List α) : Halt ⊕ ℕ × ℕ :=
  match reader.read final s with
  | .more => .inl .starved
  | .bad n => if replace then put target room 0xFFFD n else .inl .malformed
  | .scalar c n => put target room c n

/-- The runs of a transcoder: in a room of some units a sequence is read until the run ends; it has
taken so many units and written the units of some scalars. -/
inductive Transcodes : ℕ → List α → Halt → ℕ → List β → Prop where
  | done (room : ℕ) : Transcodes room [] .done 0 []
  | stop {room : ℕ} {s : List α} {halt : Halt} (hne : s ≠ [])
    (hmove : move reader target replace final room s = .inl halt) : Transcodes room s halt 0 []
  | next {room : ℕ} {s : List α} {c n : ℕ} {halt : Halt} {taken : ℕ} {written : List β}
    (hne : s ≠ []) (hmove : move reader target replace final room s = .inr (c, n))
    (hrest : Transcodes (room - (target.encode c).length) (s.drop n) halt taken written) :
    Transcodes room s halt (n + taken) (target.encode c ++ written)

end Runs

section Moves

variable {code : ScalarCode α} {reader : Reader code} {target : ScalarCode β}
  {replace final : Bool} {room c n : ℕ} {s : List α} {halt : Halt}

theorem put_eq_inr_iff {d m : ℕ} :
    put target room c n = .inr (d, m) ↔ (target.encode c).length ≤ room ∧ c = d ∧ n = m := by
  grind [put]

theorem put_eq_inl_iff :
    put target room c n = .inl halt ↔ room < (target.encode c).length ∧ halt = .full := by
  grind [put]

theorem move_eq_inr_iff :
    move reader target replace final room s = .inr (c, n) ↔
      (target.encode c).length ≤ room ∧
        (reader.read final s = .scalar c n ∨
          replace = true ∧ c = 0xFFFD ∧ reader.read final s = .bad n) := by
  unfold move
  cases hread : reader.read final s with
  | more => exact iff_of_false nofun fun h => by simp at h
  | scalar d m => grind [put_eq_inr_iff]
  | bad m =>
    cases replace with
    | true => grind [put_eq_inr_iff]
    | false => grind

theorem of_move_inr (hne : s ≠ []) (h : move reader target replace final room s = .inr (c, n)) :
    Scalar c ∧ 0 < n ∧ n ≤ s.length := by
  obtain ⟨-, hread | ⟨-, rfl, hread⟩⟩ := (move_eq_inr_iff).mp h
  · have hread := (reader.read_scalar_iff _).mp hread
    exact ⟨(code.of_read? hread).1, code.length_of_read? hread⟩
  · exact ⟨scalar_replacement, reader.bad_length hne hread⟩

theorem move_append (hne : s ≠ []) (h : move reader target replace false room s = .inr (c, n))
    (final : Bool) {room' : ℕ} (hroom : (target.encode c).length ≤ room') (t : List α) :
    move reader target replace final room' (s ++ t) = .inr (c, n) := by
  rw [move_eq_inr_iff]
  obtain ⟨-, hread | ⟨hreplace, hc, hread⟩⟩ := (move_eq_inr_iff).mp h
  · have happend := code.read?_append ((reader.read_scalar_iff _).mp hread) t
    exact ⟨hroom, Or.inl ((reader.read_scalar_iff _).mpr happend)⟩
  · exact ⟨hroom, Or.inr ⟨hreplace, hc, reader.bad_append hne hread final t⟩⟩

end Moves

namespace Transcodes

variable {code : ScalarCode α} {reader : Reader code} {target : ScalarCode β}
  {replace final : Bool} {room : ℕ} {s : List α} {halt : Halt} {taken : ℕ} {written : List β}

theorem exists_run (reader : Reader code) (target : ScalarCode β) (replace final : Bool) (room : ℕ)
    (s : List α) : ∃ halt taken written,
      Transcodes reader target replace final room s halt taken written := by
  induction hn : s.length using Nat.strong_induction_on generalizing s room with
  | _ n ih =>
    by_cases hne : s = []
    · rw [hne]
      exact ⟨_, _, _, .done room⟩
    · cases hmove : move reader target replace final room s with
      | inl halt => exact ⟨_, _, _, .stop hne hmove⟩
      | inr r =>
        obtain ⟨-, hpos, hle⟩ := of_move_inr hne hmove
        obtain ⟨halt, taken, written, hrest⟩ := ih (s.drop r.2).length
          (by rw [List.length_drop]; omega) (room - (target.encode r.1).length) (s.drop r.2) rfl
        exact ⟨_, _, _, .next hne hmove hrest⟩

theorem unique (h : Transcodes reader target replace final room s halt taken written)
    {halt' : Halt} {taken' : ℕ} {written' : List β}
    (h' : Transcodes reader target replace final room s halt' taken' written') :
    halt = halt' ∧ taken = taken' ∧ written = written' := by
  induction h generalizing halt' taken' written' with
  | done room =>
    cases h' with
    | done => exact ⟨rfl, rfl, rfl⟩
    | stop hne => exact absurd rfl hne
    | next hne => exact absurd rfl hne
  | stop hne hmove =>
    cases h' with
    | done => exact absurd rfl hne
    | stop _ hmove' => grind
    | next _ hmove' => cases hmove.symm.trans hmove'
  | next hne hmove _ ih =>
    cases h' with
    | done => exact absurd rfl hne
    | stop _ hmove' => cases hmove.symm.trans hmove'
    | next _ hmove' hrest' => grind

theorem length_le (h : Transcodes reader target replace final room s halt taken written) :
    taken ≤ s.length ∧ written.length ≤ room := by
  induction h with
  | done room => exact ⟨le_rfl, Nat.zero_le _⟩
  | stop hne hmove => exact ⟨Nat.zero_le _, Nat.zero_le _⟩
  | next hne hmove _ ih =>
    obtain ⟨-, -, hle⟩ := of_move_inr hne hmove
    have hfits := ((move_eq_inr_iff).mp hmove).1
    rw [List.length_drop] at ih
    rw [List.length_append]
    omega

theorem of_halt (h : Transcodes reader target replace final room s halt taken written) :
    (halt = .done ↔ taken = s.length) ∧ (halt = .starved → final = false) ∧
      (halt = .malformed → replace = false) := by
  induction h with
  | done room => exact ⟨iff_of_true rfl rfl, nofun, nofun⟩
  | @stop room s halt hne hmove =>
    have hpos := List.length_pos_iff.mpr hne
    have hshort : ¬ 0 = s.length := by omega
    unfold move at hmove
    cases hread : reader.read final s with
    | more =>
      rw [hread] at hmove
      obtain rfl := Sum.inl.inj hmove
      refine ⟨iff_of_false nofun hshort, fun _ => ?_, nofun⟩
      cases final with
      | false => rfl
      | true => exact absurd hread (reader.not_more hne)
    | scalar c n =>
      rw [hread] at hmove
      obtain ⟨-, rfl⟩ := (put_eq_inl_iff).mp hmove
      exact ⟨iff_of_false nofun hshort, nofun, nofun⟩
    | bad n =>
      rw [hread] at hmove
      dsimp only at hmove
      split at hmove
      case isTrue =>
        obtain ⟨-, rfl⟩ := (put_eq_inl_iff).mp hmove
        exact ⟨iff_of_false nofun hshort, nofun, nofun⟩
      case isFalse hreplace => grind
  | next hne hmove _ ih =>
    obtain ⟨-, -, hle⟩ := of_move_inr hne hmove
    rw [List.length_drop] at ih
    exact ⟨ih.1.trans (by omega), ih.2⟩

/-- **What is written is the transcoding of what is taken.** -/
theorem written_eq (h : Transcodes reader target replace final room s halt taken written) :
    written = target.encodeAll (code.replaced reader.skip (s.take taken)) := by
  induction h with
  | done room => rw [List.take_nil, code.replaced_nil, target.encodeAll_nil]
  | stop hne hmove => rw [List.take_zero, code.replaced_nil, target.encodeAll_nil]
  | @next room s c n halt taken written hne hmove _ ih =>
    obtain ⟨-, hpos, hle⟩ := of_move_inr hne hmove
    have htake : s.take (n + taken) ≠ [] := by
      rw [← List.length_pos_iff, List.length_take]
      omega
    have hstep : code.step reader.skip (s.take (n + taken)) = (c, n) := by
      obtain ⟨-, hread | ⟨-, rfl, hread⟩⟩ := (move_eq_inr_iff).mp hmove
      · obtain ⟨hc, hn, rest, hs⟩ := code.of_read? ((reader.read_scalar_iff _).mp hread)
        have hfront : s.take (n + taken) = code.encode c ++ rest.take taken := by
          rw [hs, hn, List.take_length_add_append]
        rw [hfront, code.step_of_read? _ (code.read?_encode hc _), hn]
      · exact Reader.step_bad htake (reader.bad_take hne hread (Nat.le_add_right n taken))
    rw [code.replaced_step _ htake, hstep, target.encodeAll_cons, List.drop_take,
      Nat.add_sub_cancel_left, ← ih]

theorem wellFormed_taken (h : Transcodes reader target false final room s halt taken written) :
    code.WellFormed (s.take taken) := by
  induction h with
  | done room =>
    exact code.wellFormed_nil
  | stop hne hmove =>
    exact code.wellFormed_nil
  | @next room s c n halt taken written hne hmove _ ih =>
    obtain ⟨-, hread | ⟨hreplace, -⟩⟩ := (move_eq_inr_iff).mp hmove
    · obtain ⟨hc, hn, rest, hs⟩ := code.of_read? ((reader.read_scalar_iff _).mp hread)
      have hrest : s.drop n = rest := by rw [hs, hn, List.drop_left]
      rw [hrest] at ih
      rw [hs, hn, List.take_length_add_append]
      exact code.wellFormed_append (code.wellFormed_encode hc) ih
    · cases hreplace

/-- **A sequence in two parts**: what the first run leaves and what comes after it, in some more
room, is transcoded as it is after the first part. -/
theorem append {room₁ room₂ taken₁ taken₂ : ℕ} {s t : List α} {halt₁ halt₂ : Halt}
    {written₁ written₂ : List β}
    (h₁ : Transcodes reader target replace false room₁ s halt₁ taken₁ written₁)
    (h₂ : Transcodes reader target replace final room₂ (s.drop taken₁ ++ t) halt₂ taken₂ written₂) :
    Transcodes reader target replace final (written₁.length + room₂) (s ++ t) halt₂
      (taken₁ + taken₂) (written₁ ++ written₂) := by
  induction h₁ with
  | done room => grind
  | stop hne hmove => grind
  | @next room s c n halt taken written hne hmove _ ih =>
    obtain ⟨-, -, hle⟩ := of_move_inr hne hmove
    rw [← List.drop_drop] at h₂
    have hrest := ih h₂
    have hroom : (target.encode c).length ≤ (target.encode c ++ written).length + room₂ := by
      rw [List.length_append]
      omega
    have hmove' := move_append hne hmove final hroom t
    rw [Nat.add_assoc, List.append_assoc]
    refine .next (List.append_ne_nil_of_left_ne_nil hne t) hmove' ?_
    rw [List.drop_append_of_le_length hle]
    convert hrest using 1
    rw [List.length_append]
    omega

theorem of_room (h : Transcodes reader target replace final room s halt taken written)
    (hfull : halt ≠ .full) {room' : ℕ} (hroom : written.length ≤ room') :
    Transcodes reader target replace final room' s halt taken written := by
  induction h generalizing room' with
  | done room => exact .done room'
  | @stop room s halt hne hmove =>
    refine .stop hne ?_
    unfold move at hmove ⊢
    cases hread : reader.read final s with
    | more =>
      rw [hread] at hmove
      exact hmove
    | scalar c n =>
      rw [hread] at hmove
      exact absurd ((put_eq_inl_iff).mp hmove).2 hfull
    | bad n =>
      rw [hread] at hmove
      dsimp only at hmove ⊢
      split at hmove
      case isTrue => exact absurd ((put_eq_inl_iff).mp hmove).2 hfull
      case isFalse hreplace => rwa [if_neg hreplace]
  | @next room s c n halt taken written hne hmove _ ih =>
    rw [List.length_append] at hroom
    exact .next hne ((move_eq_inr_iff).mpr ⟨by omega, ((move_eq_inr_iff).mp hmove).2⟩)
      (ih hfull (by omega))

theorem not_full (h : Transcodes reader target replace final room s halt taken written)
    {factor : ℕ} (hscalar : ∀ c, (target.encode c).length ≤ factor * (code.encode c).length)
    (hreplacement : (target.encode 0xFFFD).length ≤ factor) (hroom : factor * s.length ≤ room) :
    halt ≠ .full := by
  have hput : ∀ {s : List α} {c n : ℕ}, n ≤ s.length → (target.encode c).length ≤ factor * n →
      (target.encode c).length ≤ factor * s.length := fun hle hlength =>
    hlength.trans (Nat.mul_le_mul_left _ hle)
  have hread : ∀ {s : List α} {c n : ℕ}, s ≠ [] →
      (reader.read final s = .scalar c n ∨ c = 0xFFFD ∧ reader.read final s = .bad n) →
      n ≤ s.length ∧ (target.encode c).length ≤ factor * n := by
    rintro s c n hne (hread | ⟨rfl, hread⟩)
    · have hread := (reader.read_scalar_iff final).mp hread
      obtain ⟨-, hn, -⟩ := code.of_read? hread
      exact ⟨(code.length_of_read? hread).2, hn ▸ hscalar c⟩
    · obtain ⟨hpos, hle⟩ := reader.bad_length hne hread
      exact ⟨hle, hreplacement.trans (Nat.le_mul_of_pos_right factor hpos)⟩
  induction h with
  | done room => nofun
  | @stop room s halt hne hmove =>
    unfold move at hmove
    rintro rfl
    cases hreading : reader.read final s with
    | more =>
      rw [hreading] at hmove
      cases hmove
    | scalar c n =>
      rw [hreading] at hmove
      obtain ⟨hle, hlength⟩ := hread hne (Or.inl hreading)
      have hfits := hput hle hlength
      have hsmall := ((put_eq_inl_iff).mp hmove).1
      omega
    | bad n =>
      rw [hreading] at hmove
      dsimp only at hmove
      split at hmove
      case isTrue =>
        obtain ⟨hle, hlength⟩ := hread hne (Or.inr ⟨rfl, hreading⟩)
        have hfits := hput hle hlength
        have hsmall := ((put_eq_inl_iff).mp hmove).1
        omega
      case isFalse => cases hmove
  | @next room s c n halt taken written hne hmove _ ih =>
    refine ih ?_
    obtain ⟨hle, hlength⟩ := hread hne
      (((move_eq_inr_iff).mp hmove).2.imp_right fun h => ⟨h.2.1, h.2.2⟩)
    rw [List.length_drop, Nat.mul_sub]
    omega

theorem of_scalars {cs : List ℕ} (hcs : ∀ c ∈ cs, Scalar c)
    (hroom : (target.encodeAll cs).length ≤ room) :
    Transcodes reader target replace final room (code.encodeAll cs) .done
      (code.encodeAll cs).length (target.encodeAll cs) := by
  induction cs generalizing room with
  | nil => exact .done room
  | cons c cs ih =>
    rw [List.forall_mem_cons] at hcs
    rw [target.encodeAll_cons, List.length_append] at hroom
    have hread := code.read?_encode hcs.1 (code.encodeAll cs)
    have hmove : move reader target replace final room (code.encode c ++ code.encodeAll cs) =
        .inr (c, (code.encode c).length) :=
      (move_eq_inr_iff).mpr ⟨by omega, Or.inl ((reader.read_scalar_iff _).mpr hread)⟩
    have hne : code.encode c ++ code.encodeAll cs ≠ [] :=
      List.append_ne_nil_of_left_ne_nil (code.encode_ne_nil c) _
    rw [code.encodeAll_cons, target.encodeAll_cons, List.length_append]
    refine .next hne hmove ?_
    rw [List.drop_left]
    exact ih hcs.2 (by omega)

end Transcodes

/-- The scalars in front of a sequence take so many units, and then it ends or has no scalar. -/
inductive ScalarCode.ReadTo (code : ScalarCode α) : List α → ℕ → Prop where
  | nil : ReadTo code [] 0
  | stop {s : List α} (hne : s ≠ []) (hread : code.read? s = none) : ReadTo code s 0
  | next {s : List α} {c n i : ℕ} (hread : code.read? s = some (c, n))
    (hrest : ReadTo code (s.drop n) i) : ReadTo code s (n + i)

namespace ScalarCode.ReadTo

variable {code : ScalarCode α} {s : List α} {i : ℕ}

theorem unique (h : code.ReadTo s i) {j : ℕ} (h' : code.ReadTo s j) : i = j := by
  induction h generalizing j with
  | nil =>
    cases h' with
    | nil => rfl
    | stop hne => exact absurd rfl hne
    | next hread =>
      rw [code.read?_nil] at hread
      cases hread
  | stop hne hread =>
    cases h' with
    | nil => rfl
    | stop => rfl
    | next hread' => cases hread.symm.trans hread'
  | next hread _ ih =>
    cases h' with
    | nil =>
      rw [code.read?_nil] at hread
      cases hread
    | stop _ hread' => cases hread.symm.trans hread'
    | next hread' hrest' => grind

end ScalarCode.ReadTo

theorem ScalarCode.exists_readTo (code : ScalarCode α) (s : List α) : ∃ i, code.ReadTo s i := by
  induction s using code.step_induction (fun _ => 0) with
  | nil => exact ⟨0, .nil⟩
  | step s hne ih =>
    cases hread : code.read? s with
    | none => exact ⟨0, .stop hne hread⟩
    | some r =>
      rw [code.step_of_read? _ hread] at ih
      obtain ⟨i, hi⟩ := ih
      exact ⟨r.2 + i, .next hread hi⟩

theorem Transcodes.readTo {code : ScalarCode α} {reader : Reader code} {target : ScalarCode β}
    {room taken : ℕ} {s : List α} {halt : Halt} {written : List β}
    (h : Transcodes reader target false true room s halt taken written) (hfull : halt ≠ .full) :
    code.ReadTo s taken := by
  induction h with
  | done room => exact .nil
  | @stop room s halt hne hmove =>
    refine .stop hne ?_
    cases hread : code.read? s with
    | none => rfl
    | some r =>
      have hscalar := (reader.read_scalar_iff true).mpr hread
      unfold move at hmove
      rw [hscalar] at hmove
      exact absurd ((put_eq_inl_iff).mp hmove).2 hfull
  | next hne hmove _ ih =>
    obtain ⟨-, hread | ⟨hreplace, -⟩⟩ := (move_eq_inr_iff).mp hmove
    · exact .next ((reader.read_scalar_iff true).mp hread) (ih hfull)
    · cases hreplace

end Machine
