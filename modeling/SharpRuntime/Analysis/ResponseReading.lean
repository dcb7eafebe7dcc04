import SharpRuntime.Interface.ResponseFraming

/-!
# Reading a response from its pieces

The line reader and the exact reader read the stream, whatever the pieces are; so the head of a
response and a framed body do not depend on them.  How much of the stream is carried over from one
read to the next does: it is less than one call of `recv` gives, and all that is left when the rest
of the stream came with the end of the last line.
-/

set_option autoImplicit false

namespace SharpRuntime.Analysis.ResponseReading

open Machine Model Model.HttpClientHandler
open Interface.ResponseFraming

variable {d d' : Delivery UInt8} {fuel : ℕ}

variable {line : List UInt8}

variable {s rest : List UInt8}

theorem firstLine_some (h : untilPair 13 10 s = some (line, rest)) :
    firstLine s = (line, rest) := by
  rw [firstLine, h]
  rfl

theorem firstLine_none (h : untilPair 13 10 s = none) : firstLine s = (s, []) := by
  rw [firstLine, h]
  rfl

theorem firstLine_length (s : List UInt8) :
    (firstLine s).1.length + (firstLine s).2.length ≤ s.length := by
  cases h : untilPair 13 10 s with
  | none => simp [firstLine_none h]
  | some lr =>
    have hlength := congrArg List.length (untilPair_eq h)
    rw [List.length_append, List.length_cons, List.length_cons] at hlength
    rw [firstLine_some h]
    dsimp only
    omega

theorem firstLine_of_line (hline : ¬ [13, 10] <:+: line) (rest : List UInt8) :
    firstLine (line ++ 13 :: 10 :: rest) = (line, rest) :=
  firstLine_some (untilPair_line (by decide) hline rest)

theorem recvLineWithin_line (h : untilPair 13 10 d.carried = some (line, rest)) :
    recvLineWithin (fuel + 1) d = .ok line { d with carried := rest } := by
  rw [recvLineWithin, get_bind, h]
  rfl

theorem recvLineWithin_end (h : untilPair 13 10 d.carried = none)
    (hend : (receive 2048 d.pieces).1 = []) :
    recvLineWithin (fuel + 1) d = .ok d.carried ⟨[], (receive 2048 d.pieces).2⟩ := by
  rw [recvLineWithin, get_bind, h]
  rw [if_pos (List.isEmpty_iff.mpr hend)]
  rfl

theorem recvLineWithin_more (h : untilPair 13 10 d.carried = none)
    (hmore : (receive 2048 d.pieces).1 ≠ []) :
    recvLineWithin (fuel + 1) d = recvLineWithin fuel
      ⟨d.carried ++ (receive 2048 d.pieces).1, (receive 2048 d.pieces).2⟩ := by
  rw [recvLineWithin, get_bind, h]
  rw [if_neg (mt List.isEmpty_iff.mp hmore)]
  rfl

variable {pieces : List (List UInt8)}

theorem receive_progress {want : ℕ} (hmore : (receive want pieces).1 ≠ [])
    (hfuel : pieces.flatten.length < fuel + 1) : (receive want pieces).2.flatten.length < fuel := by
  have hlength := congrArg List.length (receive_append want pieces)
  rw [List.length_append] at hlength
  have hpos := List.length_pos_iff.mpr hmore
  omega

theorem stream_receive (want : ℕ) (d : Delivery UInt8) :
    (⟨d.carried ++ (receive want d.pieces).1, (receive want d.pieces).2⟩ : Delivery UInt8).stream =
      d.stream := by
  rw [Delivery.stream, List.append_assoc, receive_append]
  rfl

/-- By induction on the rounds: what is in the buffer and what is to come are the stream. -/
theorem recvLineWithin_eq (hfuel : d.pieces.flatten.length < fuel) :
    ∃ d', recvLineWithin fuel d = .ok (firstLine d.stream).1 d' ∧
      d'.stream = (firstLine d.stream).2 := by
  induction fuel generalizing d with
  | zero => cases hfuel
  | succ fuel ih =>
    cases hline : untilPair 13 10 d.carried with
    | some lr =>
      have hfirst : firstLine d.stream = (lr.1, lr.2 ++ d.pieces.flatten) :=
        firstLine_some (untilPair_append hline _)
      rw [recvLineWithin_line hline, hfirst]
      exact ⟨_, rfl, rfl⟩
    | none =>
      by_cases hend : (receive 2048 d.pieces).1 = []
      · grind [receive_append, Delivery.stream, firstLine_none, recvLineWithin_end, receive_eq_nil_iff]
      · rw [recvLineWithin_more hline hend, ← stream_receive 2048 d]
        exact ih (receive_progress hend hfuel)

theorem recvLine_reads : Reads recvLine fun s => .ok (firstLine s) := by
  intro d
  obtain ⟨d', hrun, hstream⟩ := recvLineWithin_eq (Nat.lt_succ_self d.pieces.flatten.length)
  rw [recvLine, get_bind, hrun, reading, hstream]

/-- The pieces are short, or no call of `recv` gives more than so many bytes. -/
def Short (cap : ℕ) (pieces : List (List UInt8)) : Prop :=
  2048 ≤ cap ∨ ∀ piece ∈ pieces, piece.length ≤ cap

variable {cap : ℕ}

theorem short_receive (h : Short cap pieces) :
    (receive 2048 pieces).1.length ≤ cap ∧ Short cap (receive 2048 pieces).2 := by
  rcases h with h | h
  · exact ⟨(receive_length_le 2048 pieces).trans h, .inl h⟩
  · obtain ⟨hfirst, hrest⟩ := receive_short 2048 h
    exact ⟨hfirst, .inr hrest⟩

def Small (cap : ℕ) (d : Delivery UInt8) : Prop := Short cap d.pieces ∧ d.carried.length < cap

/-- By induction on the rounds: the end of a line is in what was received last. -/
theorem recvLineWithin_small (hshort : Short cap d.pieces) (hcap : 0 < cap)
    (hcarried : ∀ l r, untilPair 13 10 d.carried = some (l, r) → r.length < cap)
    (hrun : recvLineWithin fuel d = .ok line d') : Small cap d' := by
  induction fuel generalizing d with
  | zero => cases hrun
  | succ fuel ih =>
    cases hline : untilPair 13 10 d.carried with
    | some lr =>
      rw [recvLineWithin_line hline] at hrun
      cases hrun
      exact ⟨hshort, hcarried lr.1 lr.2 hline⟩
    | none =>
      obtain ⟨hfirst, hrest⟩ := short_receive hshort
      by_cases hend : (receive 2048 d.pieces).1 = []
      · rw [recvLineWithin_end hline hend] at hrun
        cases hrun
        exact ⟨hrest, hcap⟩
      · rw [recvLineWithin_more hline hend] at hrun
        exact ih hrest (fun l r h => (untilPair_added hline h).trans_le hfirst) hrun

theorem recvLine_small (h : Small cap d) (hrun : recvLine d = .ok line d') : Small cap d' := by
  refine recvLineWithin_small h.1 (Nat.zero_lt_of_lt h.2) (fun l r hline => ?_) hrun
  have hlength := congrArg List.length (untilPair_eq hline)
  rw [List.length_append, List.length_cons, List.length_cons] at hlength
  have hcarried := h.2
  omega

/-- The last piece is still to come, or all pieces have been received. -/
def Intact (last : List UInt8) (d : Delivery UInt8) : Prop :=
  (∃ before, d.pieces = before ++ [last]) ∨ d.pieces.flatten = []

variable {last : List UInt8}

theorem intact_receive (hlast : last.length ≤ 2048) (h : Intact last d)
    (carried : List UInt8) : Intact last ⟨carried, (receive 2048 d.pieces).2⟩ := by
  rcases h with ⟨before, hbefore⟩ | hflat
  · rw [Intact, hbefore]
    exact receive_last hlast before
  · refine .inr ?_
    have happend := receive_append 2048 d.pieces
    rw [hflat] at happend
    exact (List.append_eq_nil_iff.mp happend).2

theorem recvLineWithin_intact (hlast : last.length ≤ 2048)
    (h : Intact last d) (hrun : recvLineWithin fuel d = .ok line d') : Intact last d' := by
  induction fuel generalizing d with
  | zero => cases hrun
  | succ fuel ih =>
    cases hline : untilPair 13 10 d.carried with
    | some lr =>
      rw [recvLineWithin_line hline] at hrun
      cases hrun
      exact h
    | none => grind [recvLineWithin_end, recvLineWithin_more, intact_receive]

def readExact (count limit : ℕ) : StreamReader ResponseFault UInt8 (List UInt8) := fun s =>
  if limit < count then .error (responseTooLarge limit)
  else if s.length < count then .error responseEnded
  else .ok (s.take count, s.drop count)

/-- By induction on the rounds: the buffer grows until it has enough. -/
theorem fillTo_eq (count : ℕ) (hfuel : d.pieces.flatten.length < fuel) :
    (count ≤ d.stream.length ∧ ∃ d', fillTo count fuel d = .ok () d' ∧ d'.stream = d.stream ∧
      count ≤ d'.carried.length) ∨
    (d.stream.length < count ∧ ∃ d', fillTo count fuel d = .error responseEnded d') := by
  induction fuel generalizing d with
  | zero => cases hfuel
  | succ fuel ih =>
    rw [fillTo, get_bind]
    by_cases hless : d.carried.length < count
    · rw [if_pos hless]
      have hwant : 0 < min 4096 (count - d.carried.length) := by omega
      by_cases hend : (receive (min 4096 (count - d.carried.length)) d.pieces).1 = []
      · have hflat := (receive_eq_nil_iff hwant d.pieces).mp hend
        rw [if_pos (List.isEmpty_iff.mpr hend)]
        refine .inr ⟨?_, d, rfl⟩
        grind [Delivery.stream]
      · rw [if_neg (mt List.isEmpty_iff.mp hend), ← stream_receive (min 4096 (count - d.carried.length)) d]
        exact ih (receive_progress hend hfuel)
    · rw [if_neg hless]
      refine .inl ⟨?_, d, rfl, rfl, not_lt.mp hless⟩
      rw [Delivery.stream, List.length_append]
      omega

theorem recvExact_reads (count limit : ℕ) : Reads (recvExact count limit) (readExact count limit) := by
  intro d
  rw [recvExact, readExact]
  by_cases hlimit : limit < count
  · rw [if_pos hlimit, if_pos hlimit]
    rfl
  · rw [if_neg hlimit, if_neg hlimit, get_bind]
    obtain ⟨hcount, d', hfill, hstream, hcarried⟩ | ⟨hcount, d', hfill⟩ :=
      fillTo_eq count (Nat.lt_succ_self d.pieces.flatten.length)
    · rw [bind_ok hfill, get_bind, if_neg (not_lt.mpr hcount), ← hstream]
      change Except.ok (_, _ ++ _) = _
      rw [Delivery.stream, List.take_append_of_le_length hcarried,
        List.drop_append_of_le_length hcarried]
    · rw [bind_error hfill, if_pos hcount]
      rfl

variable {limit : ℕ}

theorem fillUp_end (hend : (receive 4096 d.pieces).1 = []) :
    fillUp limit (fuel + 1) d = .ok () d := by
  rw [fillUp, get_bind, if_pos (List.isEmpty_iff.mpr hend)]
  rfl

theorem fillUp_more (hmore : (receive 4096 d.pieces).1 ≠ []) : fillUp limit (fuel + 1) d =
      (if limit < (d.carried ++ (receive 4096 d.pieces).1).length then throw (responseTooLarge limit)
        else fillUp limit fuel : ResponseProgram Unit)
      ⟨d.carried ++ (receive 4096 d.pieces).1, (receive 4096 d.pieces).2⟩ := by
  rw [fillUp, get_bind, if_neg (mt List.isEmpty_iff.mp hmore)]
  rfl

/-- By induction on the rounds: what is read to the end is compared with the limit only when
something was received. -/
theorem fillUp_eq (limit : ℕ) (hfuel : d.pieces.flatten.length < fuel) :
    ((d.pieces.flatten = [] ∨ d.stream.length ≤ limit) ∧
      ∃ pieces, fillUp limit fuel d = .ok () ⟨d.stream, pieces⟩) ∨
    ((d.pieces.flatten ≠ [] ∧ limit < d.stream.length) ∧
      ∃ d', fillUp limit fuel d = .error (responseTooLarge limit) d') := by
  induction fuel generalizing d with
  | zero => cases hfuel
  | succ fuel ih =>
    by_cases hend : (receive 4096 d.pieces).1 = []
    · have hflat := (receive_eq_nil_iff (by decide) d.pieces).mp hend
      rw [fillUp_end hend]
      refine .inl ⟨.inl hflat, d.pieces, ?_⟩
      rw [Delivery.stream, hflat, List.append_nil]
    · have hmore : d.pieces.flatten ≠ [] := mt (receive_eq_nil_iff (by decide) d.pieces).mpr hend
      have hstream := stream_receive 4096 d
      have hfuel' := receive_progress hend hfuel
      rw [fillUp_more hend]
      generalize d.carried ++ (receive 4096 d.pieces).1 = carried at *
      generalize (receive 4096 d.pieces).2 = pieces at *
      have hle : carried.length ≤ d.stream.length := by grind [Delivery.stream]
      by_cases hover : limit < carried.length
      · rw [if_pos hover]
        exact .inr ⟨⟨hmore, hover.trans_le hle⟩, _, rfl⟩
      · rw [if_neg hover]
        have hstep := ih (d := ⟨carried, pieces⟩) hfuel'
        rw [hstream] at hstep
        obtain ⟨hno, hrun⟩ | ⟨hyes, hrun⟩ := hstep
        · refine .inl ⟨.inr (hno.elim (fun hflat => ?_) id), hrun⟩
          grind [Delivery.stream]
        · exact .inr ⟨⟨hmore, hyes.2⟩, hrun⟩

theorem recvAll_ok (limit : ℕ) (h : d.pieces.flatten = [] ∨ d.stream.length ≤ limit) :
    ∃ d', recvAll limit d = .ok d.stream d' := by
  rw [recvAll, get_bind]
  obtain ⟨-, pieces, hrun⟩ | ⟨⟨hmore, hover⟩, -⟩ :=
    fillUp_eq limit (Nat.lt_succ_self d.pieces.flatten.length)
  · rw [bind_ok hrun]
    exact ⟨_, rfl⟩
  · exact absurd h (not_or.mpr ⟨hmore, not_le.mpr hover⟩)

theorem recvAll_error (hmore : d.pieces.flatten ≠ []) (hover : limit < d.stream.length) :
    ∃ d', recvAll limit d = .error (responseTooLarge limit) d' := by
  rw [recvAll, get_bind]
  obtain ⟨h, -⟩ | ⟨-, d', hrun⟩ :=
    fillUp_eq limit (Nat.lt_succ_self d.pieces.flatten.length)
  · exact absurd h (not_or.mpr ⟨hmore, not_le.mpr hover⟩)
  · rw [bind_error hrun]
    exact ⟨d', rfl⟩

theorem headerLinesWithin_reads (fuel : ℕ) (head : ResponseHead) :
    Reads (headerLinesWithin fuel head) (readHeaderLines fuel head) := by
  induction fuel generalizing head with
  | zero => exact .throw _
  | succ fuel ih =>
    refine recvLine_reads.bind fun line => .ite (.pure head) ?_
    cases headerLine head line with
    | ok head => exact ih head
    | error e => exact .throw e

theorem receiveHead_reads : Reads receiveHead readHead := by
  refine recvLine_reads.bind fun statusLine => ?_
  cases headOfStatusLine statusLine with
  | ok head => exact fun d => headerLinesWithin_reads (d.stream.length + 1) head d
  | error e => exact .throw e

theorem receiveHead_keeps {K : Delivery UInt8 → Prop}
    (hline : ∀ d line d', K d → recvLine d = .ok line d' → K d') {head : ResponseHead} (h : K d)
    (hrun : receiveHead d = .ok head d') : K d' := by
  have hlines : ∀ (fuel : ℕ) (head head' : ResponseHead) (d d' : Delivery UInt8), K d →
      headerLinesWithin fuel head d = .ok head' d' → K d' := by
    intro fuel
    induction fuel with
    | zero => exact fun _ _ _ _ _ hrun => nomatch hrun
    | succ fuel ih =>
      intro head head' d d' h hrun
      obtain ⟨d₁, hrecv, -⟩ := recvLineWithin_eq (Nat.lt_succ_self d.pieces.flatten.length)
      have hrecv : recvLine d = .ok (firstLine d.stream).1 d₁ := hrecv
      have h₁ := hline d _ d₁ h hrecv
      rw [headerLinesWithin, bind_ok hrecv] at hrun
      split at hrun
      · cases hrun
        exact h₁
      · cases hhead : headerLine head (firstLine d.stream).1 <;> rw [hhead] at hrun
        · cases hrun
        · exact ih _ _ _ _ h₁ hrun
  obtain ⟨d₁, hrecv, -⟩ := recvLineWithin_eq (Nat.lt_succ_self d.pieces.flatten.length)
  have hrecv : recvLine d = .ok (firstLine d.stream).1 d₁ := hrecv
  rw [receiveHead, bind_ok hrecv] at hrun
  cases hhead : headOfStatusLine (firstLine d.stream).1 <;> rw [hhead] at hrun
  · cases hrun
  · exact hlines _ _ _ _ _ (hline d _ d₁ h hrecv) hrun

end SharpRuntime.Analysis.ResponseReading
