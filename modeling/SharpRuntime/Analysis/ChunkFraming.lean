import SharpRuntime.Analysis.ResponseReading

/-!
# Chunked bodies and lengths

The loop over the chunks returns for a body it comes to an end of, and throws for every other one.
When the body does not stray from the form of a chunked body, what is returned are the data of a
complete one; and a complete one does not stray.  So the outcome of a response is what is asked of
it exactly when the body is checked for all that matters (`framed_iff`).
-/

set_option autoImplicit false

namespace SharpRuntime.Analysis.ChunkFraming

open Machine Model Model.HttpClientHandler
open Interface.ResponseFraming ResponseReading

variable {limit fuel : ℕ} {s body : List UInt8}

/-! ## The loop over the chunks -/

def readChunks (maxBody : ℕ) : (fuel : ℕ) → (bodyBytes : List UInt8) →
    StreamReader ResponseFault UInt8 (List UInt8)
  | 0, _ => throw .diverged
  | fuel + 1, bodyBytes => do
    let chunkLine ← fun s => .ok (firstLine s)
    if (stripExtensions chunkLine).isEmpty then pure bodyBytes
    else match stoul (stripExtensions chunkLine) with
      | none => throw (.request (asciiBytes "HttpClient: malformed chunk size: '" ++
          stripExtensions chunkLine ++ asciiBytes "'"))
      | some chunkSize =>
        if chunkSize = 0 then do
          let _ ← fun s => .ok (firstLine s)
          pure bodyBytes
        else do
          let chunk ← readExact chunkSize maxBody
          let _ ← fun s => .ok (firstLine s)
          readChunks maxBody fuel (bodyBytes ++ chunk)

theorem chunksWithin_reads (maxBody fuel : ℕ) (bodyBytes : List UInt8) :
    Reads (chunksWithin maxBody fuel bodyBytes) (readChunks maxBody fuel bodyBytes) := by
  induction fuel generalizing bodyBytes with
  | zero => exact .throw _
  | succ fuel ih =>
    refine recvLine_reads.bind fun chunkLine => .ite (.pure bodyBytes) ?_
    cases stoul (stripExtensions chunkLine) with
    | none => exact .throw _
    | some chunkSize =>
      refine .ite (recvLine_reads.bind fun _ => .pure bodyBytes) ?_
      exact (recvExact_reads chunkSize maxBody).bind fun chunk =>
        recvLine_reads.bind fun _ => ih (bodyBytes ++ chunk)

theorem readChunks_succ (maxBody : ℕ) : readChunks maxBody (fuel + 1) body s =
    if sizeText s = [] then .ok (body, (firstLine s).2)
    else match stoul (sizeText s) with
      | none => .error (.request (asciiBytes "HttpClient: malformed chunk size: '" ++ sizeText s ++
          asciiBytes "'"))
      | some size =>
        if size = 0 then .ok (body, (firstLine (firstLine s).2).2)
        else if maxBody < size then .error (responseTooLarge maxBody)
        else if (firstLine s).2.length < size then .error responseEnded
        else readChunks maxBody fuel (body ++ (firstLine s).2.take size) (behind s size) := by
  change (if (sizeText s).isEmpty then _ else _ : StreamReader ResponseFault UInt8 (List UInt8))
    (firstLine s).2 = _
  by_cases hsize : sizeText s = []
  · rw [if_pos hsize, if_pos (List.isEmpty_iff.mpr hsize)]
    rfl
  · rw [if_neg hsize, if_neg (mt List.isEmpty_iff.mp hsize)]
    change (match stoul (sizeText s) with | none => _ | some size => _ :
      StreamReader ResponseFault UInt8 (List UInt8)) (firstLine s).2 = _
    cases stoul (sizeText s) with
    | none => rfl
    | some size =>
      dsimp only
      by_cases hzero : size = 0
      · rw [if_pos hzero, if_pos hzero]
        rfl
      · rw [if_neg hzero, if_neg hzero]
        change Except.bind (readExact size maxBody (firstLine s).2) _ = _
        rw [readExact]
        split
        · rfl
        · split <;> rfl

theorem stoul_nil : stoul [] = none := rfl

theorem behind_length (hsize : sizeText s ≠ []) (size : ℕ) : (behind s size).length < s.length := by
  have hline : (firstLine s).1 ≠ [] := by
    intro hnil
    rw [sizeText, hnil] at hsize
    exact hsize rfl
  have hpos := List.length_pos_iff.mpr hline
  have hfirst := firstLine_length s
  have hbehind := firstLine_length ((firstLine s).2.drop size)
  grind [behind]

variable {size : ℕ}

variable {line data : List UInt8}

theorem behind_chunk (hline : IsSizeLine line size)
    (hdata : data.length = size) (rest : List UInt8) :
    firstLine (line ++ 13 :: 10 :: (data ++ 13 :: 10 :: rest)) = (line, data ++ 13 :: 10 :: rest) ∧
      behind (line ++ 13 :: 10 :: (data ++ 13 :: 10 :: rest)) size = rest := by
  have hfirst := firstLine_of_line hline.line (data ++ 13 :: 10 :: rest)
  have hend : firstLine (13 :: 10 :: rest) = ([], rest) := firstLine_some (if_pos ⟨rfl, rfl⟩)
  refine ⟨hfirst, ?_⟩
  rw [behind, hfirst, ← hdata, List.drop_left, hend]

theorem not_ends_of_none (hnil : sizeText s ≠ []) (hsize : stoul (sizeText s) = none) :
    ¬ Ends limit s := by
  intro h
  cases h with
  | noSize h => exact hnil h
  | last h => cases hsize.symm.trans h
  | chunk h => cases hsize.symm.trans h

theorem ends_chunk_iff (hsize : stoul (sizeText s) = some size) (hpos : 0 < size) :
    Ends limit s ↔ size ≤ limit ∧ size ≤ (firstLine s).2.length ∧ Ends limit (behind s size) := by
  refine ⟨fun h => ?_, fun ⟨hlimit, hdata, hmore⟩ => .chunk hsize hpos hlimit hdata hmore⟩
  cases h with
  | noSize h =>
    rw [h, stoul_nil] at hsize
    cases hsize
  | last h => exact absurd (Option.some.inj (hsize.symm.trans h)) hpos.ne'
  | chunk h _ hlimit hdata hmore => grind

def Complete (s data : List UInt8) : Prop := ∃ text extra, s = text ++ extra ∧ ChunkedBody text data

theorem last_complete (hsize : stoul (sizeText s) = some 0) : Strays limit s ∨ Complete s [] := by
  by_cases hline : ∃ line trailer extra, IsSizeLine line 0 ∧ IsTrailer trailer ∧
      s = line ++ 13 :: 10 :: (trailer ++ 13 :: 10 :: extra)
  · obtain ⟨line, trailer, extra, hline, htrailer, rfl⟩ := hline
    exact .inr ⟨_, extra, by simp, .last hline htrailer⟩
  · exact .inl (.last hsize hline)

theorem chunk_complete {more : List UInt8} (hsize : stoul (sizeText s) = some size)
    (hpos : 0 < size) (hlimit : size ≤ limit) (hdata : size ≤ (firstLine s).2.length)
    (hends : Ends limit (behind s size))
    (hmore : Strays limit (behind s size) ∨ Complete (behind s size) more) :
    Strays limit s ∨ Complete s ((firstLine s).2.take size ++ more) := by
  obtain hstrays | ⟨text, extra, hbehind, hbody⟩ := hmore
  · exact .inl (.later hsize hpos hlimit hdata hstrays)
  · by_cases hline : ∃ line data extra, IsSizeLine line size ∧ data.length = size ∧
        s = line ++ 13 :: 10 :: (data ++ 13 :: 10 :: extra)
    · obtain ⟨line, data, rest, hline, rfl, rfl⟩ := hline
      obtain ⟨hfirst, hrest⟩ := behind_chunk hline rfl rest
      rw [hrest] at hbehind
      rw [hfirst, List.take_left]
      refine .inr ⟨_, extra, ?_, .chunk (List.length_pos_iff.mp hpos) hline hbody⟩
      rw [hbehind]
      simp
    · exact .inl (.chunk hsize hpos hlimit hdata hline hends)

/-- By induction on the rounds: the loop returns for the bodies it comes to an end of, and what it
returns are the data of a chunked body unless the body strays. -/
theorem readChunks_spec (limit : ℕ) (s body : List UInt8) (hfuel : s.length < fuel) :
    (Ends limit s ∧ ∃ data rest, readChunks limit fuel body s = .ok (body ++ data, rest) ∧
      (Strays limit s ∨ Complete s data)) ∨
    (¬ Ends limit s ∧ ∃ e, readChunks limit fuel body s = .error e ∧ IsHttpRequestException e) := by
  induction fuel generalizing s body with
  | zero => cases hfuel
  | succ fuel ih =>
    rw [readChunks_succ]
    by_cases hnil : sizeText s = []
    · rw [if_pos hnil]
      exact .inl ⟨.noSize hnil, [], _, by rw [List.append_nil], .inl (.noSize hnil)⟩
    · rw [if_neg hnil]
      cases hsize : stoul (sizeText s) with
      | none => exact .inr ⟨not_ends_of_none hnil hsize, _, rfl, _, _, rfl⟩
      | some size =>
        dsimp only
        by_cases hzero : size = 0
        · subst hzero
          rw [if_pos rfl]
          exact .inl ⟨.last hsize, [], _, by rw [List.append_nil], last_complete hsize⟩
        · have hpos := Nat.pos_of_ne_zero hzero
          rw [if_neg hzero, ends_chunk_iff hsize hpos]
          by_cases hlimit : limit < size
          · rw [if_pos hlimit]
            exact .inr ⟨fun h => absurd h.1 (not_le.mpr hlimit), _, rfl, _, _, rfl⟩
          · rw [if_neg hlimit]
            by_cases hdata : (firstLine s).2.length < size
            · rw [if_pos hdata]
              exact .inr ⟨fun h => absurd h.2.1 (not_le.mpr hdata), _, rfl, _, _, rfl⟩
            · rw [if_neg hdata]
              rw [not_lt] at hlimit hdata
              have hless := behind_length hnil size
              obtain ⟨hends, data, rest, hrun, hcomplete⟩ | ⟨hends, e, hrun, he⟩ :=
                ih (behind s size) (body ++ (firstLine s).2.take size) (by omega)
              · exact .inl ⟨⟨hlimit, hdata, hends⟩, (firstLine s).2.take size ++ data, rest,
                  by rw [hrun, List.append_assoc],
                  chunk_complete hsize hpos hlimit hdata hends hcomplete⟩
              · exact .inr ⟨fun h => hends h.2.2, e, hrun, he⟩

theorem strays_ends (h : Strays limit s) : Ends limit s := by
  induction h with
  | noSize h => exact .noSize h
  | last h => exact .last h
  | chunk h hpos hlimit hdata _ hmore => exact .chunk h hpos hlimit hdata hmore
  | later h hpos hlimit hdata _ ih => exact .chunk h hpos hlimit hdata ih

/-! ## Complete bodies do not stray -/

variable {c : UInt8}

theorem isDigit_range (h : isDigit 16 c = true) :
    (48 ≤ c.toNat ∧ c.toNat ≤ 57) ∨ (97 ≤ c.toNat ∧ c.toNat ≤ 102) ∨
      (65 ≤ c.toNat ∧ c.toNat ≤ 70) := by
  rw [isDigit, digitValue] at h
  split at h
  · next hc => exact .inl hc
  · split at h
    · next hc => exact .inr (.inl hc)
    · split at h
      · next hc => exact .inr (.inr hc)
      · cases h

theorem isDigit_not_isspace (h : isDigit 16 c = true) : isspace c = false := by
  have hrange := isDigit_range h
  rw [isspace, Bool.or_eq_false_iff, decide_eq_false_iff_not]
  refine ⟨?_, fun ⟨_, hle⟩ => ?_⟩
  · refine beq_eq_false_iff_ne.mpr ?_
    rintro rfl
    revert hrange
    decide
  · have hle' : c.toNat ≤ 13 := hle
    omega

theorem stripExtensions_line (h : IsSizeLine line size) :
    ∃ digits blanks, stripExtensions line = digits ++ blanks ∧ digits ≠ [] ∧
      (∀ c ∈ digits, isDigit 16 c = true) ∧ digitsValue 16 digits = size ∧
      ∀ c ∈ blanks, isDigit 16 c = false ∧ c ≠ 'x'.toUInt8 ∧ c ≠ 'X'.toUInt8 := by
  obtain ⟨digits, extension, rfl, hdigits, hall, hvalue, hextension⟩ := h.parts
  have hsemicolon : ∀ c ∈ digits, (c != ';'.toUInt8) = true := by
    intro c hc
    refine bne_iff_ne.mpr ?_
    rintro rfl
    exact absurd (hall _ hc) (by decide)
  rw [stripExtensions, List.takeWhile_append_of_pos hsemicolon]
  cases hextension with
  | absent => exact ⟨digits, [], rfl, hdigits, hall, hvalue, nofun⟩
  | present blanks more hblanks =>
    refine ⟨digits, blanks, ?_, hdigits, hall, hvalue, fun c hc => ?_⟩
    · rw [List.takeWhile_append_of_pos, List.takeWhile_cons_of_neg (by decide), List.append_nil]
      intro c hc
      obtain rfl | rfl := hblanks c hc <;> rfl
    · obtain rfl | rfl := hblanks c hc <;> decide

theorem splitSign_digit (h : isDigit 16 c = true) (text : List UInt8) :
    splitSign (c :: text) = (false, c :: text) := by
  have hminus : c ≠ '-'.toUInt8 := by
    rintro rfl
    exact absurd h (by decide)
  have hplus : c ≠ '+'.toUInt8 := by
    rintro rfl
    exact absurd h (by decide)
  grind [splitSign]

variable {text : List UInt8}

theorem dropPrefix_eq
    (h : ∀ c ∈ text, c ≠ 'x'.toUInt8 ∧ c ≠ 'X'.toUInt8) : dropPrefix text = text := by
  match text with
  | [] | [_] | [_, _] => rfl
  | zero :: x :: d :: rest =>
    obtain ⟨hx, hX⟩ := h x (List.mem_cons_of_mem _ List.mem_cons_self)
    exact if_neg fun hprefix => hprefix.2.1.elim hx hX

theorem stoul_digits {digits blanks : List UInt8} (hdigits : digits ≠ [])
    (hall : ∀ c ∈ digits, isDigit 16 c = true)
    (hblanks : ∀ c ∈ blanks, isDigit 16 c = false ∧ c ≠ 'x'.toUInt8 ∧ c ≠ 'X'.toUInt8) :
    stoul (digits ++ blanks) =
      if 2 ^ 64 ≤ digitsValue 16 digits then none else some (digitsValue 16 digits) := by
  have hx : ∀ c ∈ digits ++ blanks, c ≠ 'x'.toUInt8 ∧ c ≠ 'X'.toUInt8 := by
    intro c hc
    rcases List.mem_append.mp hc with hc | hc
    · constructor
      · rintro rfl
        exact absurd (hall _ hc) (by decide)
      · rintro rfl
        exact absurd (hall _ hc) (by decide)
    · exact (hblanks c hc).2
  have htake : (digits ++ blanks).takeWhile (isDigit 16) = digits := by
    rw [List.takeWhile_append_of_pos hall]
    cases blanks with
    | nil => exact List.append_nil digits
    | cons c blanks =>
      rw [List.takeWhile_cons_of_neg (by rw [(hblanks c List.mem_cons_self).1]; decide),
        List.append_nil]
  have htext : splitSign ((digits ++ blanks).dropWhile isspace) = (false, digits ++ blanks) := by
    cases digits with
    | nil => exact absurd rfl hdigits
    | cons c digits =>
      have hc := hall c List.mem_cons_self
      rw [List.cons_append, List.dropWhile_cons_of_neg (by rw [isDigit_not_isspace hc]; decide),
        splitSign_digit hc]
  have hnonempty : digits.isEmpty = false := by simpa using hdigits
  rw [stoul, htext]
  dsimp only
  rw [dropPrefix_eq hx, htake, hnonempty]
  simp

/-- A size is read from its line. -/
theorem sizeLine_read (hline : IsSizeLine line size) :
    stripExtensions line ≠ [] ∧
      stoul (stripExtensions line) = if 2 ^ 64 ≤ size then none else some size := by
  obtain ⟨digits, blanks, hstrip, hdigits, hall, rfl, hblanks⟩ := stripExtensions_line hline
  rw [hstrip]
  exact ⟨fun h => hdigits (List.append_eq_nil_iff.mp h).1, stoul_digits hdigits hall hblanks⟩

theorem last_append (line trailer extra : List UInt8) :
    (line ++ 13 :: 10 :: (trailer ++ [13, 10])) ++ extra =
      line ++ 13 :: 10 :: (trailer ++ 13 :: 10 :: extra) := by simp

theorem chunk_append (line data text extra : List UInt8) :
    (line ++ 13 :: 10 :: (data ++ 13 :: 10 :: text)) ++ extra =
      line ++ 13 :: 10 :: (data ++ 13 :: 10 :: (text ++ extra)) := by simp

/-- By induction on the chunks. -/
theorem chunkedBody_not_strays (h : ChunkedBody text data)
    (extra : List UInt8) : ¬ Strays limit (text ++ extra) := by
  have hread : ∀ {line : List UInt8} {size : ℕ}, IsSizeLine line size →
      stripExtensions line ≠ [] ∧ ∀ n, stoul (stripExtensions line) = some n → n = size := by
    intro line size hline
    refine (sizeLine_read hline).imp id fun hvalue n h => ?_
    rw [hvalue] at h
    split at h
    · cases h
    · exact (Option.some.inj h).symm
  induction h with
  | @last line trailer hline htrailer =>
    obtain ⟨hnil, hvalue⟩ := hread hline
    have hfirst := firstLine_of_line hline.line (trailer ++ 13 :: 10 :: extra)
    rw [last_append]
    intro hstrays
    cases hstrays with
    | noSize h => exact hnil (by rw [sizeText, hfirst] at h; exact h)
    | last _ hodd => exact hodd ⟨line, trailer, extra, hline, htrailer, rfl⟩
    | chunk h hpos =>
      rw [sizeText, hfirst] at h
      exact hpos.ne' (hvalue _ h)
    | later h hpos =>
      rw [sizeText, hfirst] at h
      exact hpos.ne' (hvalue _ h)
  | @chunk line data text more hdata hline hmore ih =>
    obtain ⟨hnil, hvalue⟩ := hread hline
    obtain ⟨hfirst, hbehind⟩ := behind_chunk hline rfl (text ++ extra)
    rw [chunk_append]
    intro hstrays
    cases hstrays with
    | noSize h => exact hnil (by rw [sizeText, hfirst] at h; exact h)
    | last h => grind [sizeText]
    | chunk h _ _ _ hodd => grind [sizeText]
    | later h _ _ _ hstrays =>
      rw [sizeText, hfirst] at h
      obtain rfl := hvalue _ h
      grind

/-- A complete body within the limit is read, by induction on the chunks. -/
theorem readChunks_complete (h : ChunkedBody text data) (extra : List UInt8)
    (hlimit : data.length ≤ limit) (hsize : data.length < 2 ^ 64) (body : List UInt8)
    (hfuel : (text ++ extra).length < fuel) :
    ∃ rest, readChunks limit fuel body (text ++ extra) = .ok (body ++ data, rest) := by
  induction h generalizing fuel body with
  | @last line trailer hline htrailer =>
    obtain ⟨fuel, rfl⟩ := Nat.exists_eq_succ_of_ne_zero (Nat.ne_zero_of_lt hfuel)
    obtain ⟨hnil, hvalue⟩ := sizeLine_read hline
    have hfirst := firstLine_of_line hline.line (trailer ++ 13 :: 10 :: extra)
    have htext : sizeText (line ++ 13 :: 10 :: (trailer ++ 13 :: 10 :: extra)) =
        stripExtensions line := by rw [sizeText, hfirst]
    rw [last_append, readChunks_succ, htext, if_neg hnil, hvalue, List.append_nil]
    exact ⟨_, rfl⟩
  | @chunk line data text more hdata hline hmore ih =>
    obtain ⟨fuel, rfl⟩ := Nat.exists_eq_succ_of_ne_zero (Nat.ne_zero_of_lt hfuel)
    obtain ⟨hnil, hvalue⟩ := sizeLine_read hline
    obtain ⟨hfirst, hbehind⟩ := behind_chunk hline rfl (text ++ extra)
    rw [List.length_append] at hlimit hsize
    rw [chunk_append] at hfuel ⊢
    have htext : sizeText (line ++ 13 :: 10 :: (data ++ 13 :: 10 :: (text ++ extra))) =
        stripExtensions line := by rw [sizeText, hfirst]
    have hless := behind_length (htext ▸ hnil) data.length
    rw [hbehind] at hless
    obtain ⟨rest, hrun⟩ := ih (by omega) (by omega) (body ++ data) (by omega : _ < fuel)
    have hlength : ¬ (data ++ 13 :: 10 :: (text ++ extra)).length < data.length := by
      rw [List.length_append]
      omega
    rw [if_neg (by omega)] at hvalue
    refine ⟨rest, ?_⟩
    rw [readChunks_succ, htext, if_neg hnil, hvalue]
    dsimp only
    rw [if_neg (mt List.length_eq_zero_iff.mp hdata), if_neg (by omega), hfirst, if_neg hlength,
      hbehind, List.take_left, hrun, List.append_assoc]

/-! ## Responses -/

variable {method stream rest : List UInt8} {maxBody : ℕ} {head : ResponseHead}
  {pieces : List (List UInt8)} {d d' : Delivery UInt8}

theorem stream_eq (hpieces : pieces.flatten = stream) :
    (⟨[], pieces⟩ : Delivery UInt8).stream = stream := hpieces

theorem receiveHead_ok (hhead : readHead stream = .ok (head, rest)) (hpieces : pieces.flatten = stream) :
    ∃ d, receiveHead ⟨[], pieces⟩ = .ok head d ∧ d.stream = rest :=
  receiveHead_reads.of_ok (by rw [stream_eq hpieces]; exact hhead)

theorem receiveBody_reads (maxBody : ℕ) (h : noBody method head = true ∨
    head.transferEncoding = asciiBytes "chunked" ∨ 0 ≤ head.contentLength) :
    ∃ q, Reads (receiveBody method maxBody head) q := by
  unfold receiveBody
  by_cases hno : noBody method head = true
  · rw [if_pos hno]
    exact ⟨_, .pure []⟩
  · rw [if_neg hno]
    by_cases hchunked : head.transferEncoding = asciiBytes "chunked"
    · rw [if_pos hchunked]
      exact ⟨fun s => readChunks maxBody (s.length + 1) [] s,
        fun d => chunksWithin_reads maxBody (d.stream.length + 1) [] d⟩
    · rw [if_neg hchunked, if_pos ((h.resolve_left hno).resolve_left hchunked)]
      exact ⟨_, recvExact_reads _ maxBody⟩

theorem receiveBody_chunked (hno : noBody method head = false)
    (hchunked : head.transferEncoding = asciiBytes "chunked") :
    receiveBody method maxBody head d = chunksWithin maxBody (d.stream.length + 1) [] d := by
  rw [receiveBody, if_neg (by rw [hno]; decide), if_pos hchunked]
  rfl

theorem receiveBody_length (hno : noBody method head = false)
    (hchunked : head.transferEncoding ≠ asciiBytes "chunked") (hlength : 0 ≤ head.contentLength) :
    receiveBody method maxBody head = recvExact head.contentLength.toNat maxBody := by
  rw [receiveBody, if_neg (by rw [hno]; decide), if_neg hchunked, if_pos hlength]

theorem receiveBody_all (hno : noBody method head = false)
    (hchunked : head.transferEncoding ≠ asciiBytes "chunked") (hlength : head.contentLength < 0) :
    receiveBody method maxBody head = recvAll maxBody := by
  rw [receiveBody, if_neg (by rw [hno]; decide), if_neg hchunked, if_neg (not_le.mpr hlength)]

theorem answer_response (hhead : receiveHead d = .ok head d') :
    answer (receiveResponse method maxBody d) =
      (answer (receiveBody method maxBody head d')).map fun body => (head, body) := by
  rw [receiveResponse, bind_ok hhead]
  cases hbody : receiveBody method maxBody head d' with
  | ok body d'' => rw [bind_ok hbody]; rfl
  | error e d'' => rw [bind_error hbody]; rfl

theorem firstLine_suffix (s : List UInt8) : (firstLine s).2 <:+ s := by
  cases h : untilPair 13 10 s with
  | none =>
    rw [firstLine_none h]
    exact List.nil_suffix
  | some lr =>
    refine ⟨lr.1 ++ [13, 10], ?_⟩
    rw [firstLine_some h, List.append_assoc]
    exact (untilPair_eq h).symm

theorem readHeaderLines_succ (fuel : ℕ) (head : ResponseHead) (s : List UInt8) :
    readHeaderLines (fuel + 1) head s = (if (firstLine s).1.isEmpty then pure head
      else match headerLine head (firstLine s).1 with
        | .ok head => readHeaderLines fuel head
        | .error e => throw e : StreamReader ResponseFault UInt8 ResponseHead) (firstLine s).2 := rfl

theorem readHead_eq (s : List UInt8) :
    readHead s = (match headOfStatusLine (firstLine s).1 with
      | .ok head => do readHeaderLines ((← get).length + 1) head
      | .error e => throw e : StreamReader ResponseFault UInt8 ResponseHead) (firstLine s).2 := rfl

theorem readHeaderLines_suffix {head' : ResponseHead}
    (hread : readHeaderLines fuel head s = .ok (head', rest)) : rest <:+ s := by
  induction fuel generalizing s head with
  | zero => cases hread
  | succ fuel ih =>
    rw [readHeaderLines_succ] at hread
    split at hread
    · cases hread
      exact firstLine_suffix s
    · cases hhead : headerLine head (firstLine s).1 <;> rw [hhead] at hread
      · cases hread
      · exact (ih hread).trans (firstLine_suffix s)

theorem readHead_suffix (hhead : readHead stream = .ok (head, rest)) :
    ∃ front b, stream = front ++ b :: rest := by
  rw [readHead_eq] at hhead
  have hline : (firstLine stream).1 ≠ [] := by
    intro hnil
    rw [hnil] at hhead
    cases hhead
  have hsuffix : rest <:+ (firstLine stream).2 := by
    cases hstatus : headOfStatusLine (firstLine stream).1 <;> rw [hstatus] at hhead
    · cases hhead
    · exact readHeaderLines_suffix hhead
  obtain ⟨front, hfront⟩ := hsuffix.trans (firstLine_suffix stream)
  have hpos := List.length_pos_iff.mpr hline
  have hlength := firstLine_length stream
  have hne : front ≠ [] := by
    rintro rfl
    grind
  obtain ⟨init, b, rfl⟩ := (List.eq_nil_or_concat front).resolve_left hne
  exact ⟨init, b, by rw [← hfront, List.concat_eq_append, List.append_assoc]; rfl⟩

theorem not_same (hhead : readHead stream = .ok (head, rest)) (hno : noBody method head = false)
    (hchunked : head.transferEncoding ≠ asciiBytes "chunked") (hlength : head.contentLength < 0)
    (hover : maxBody < rest.length) (hshort : rest.length < 2048) :
    ∃ pieces pieces' : List (List UInt8), pieces.flatten = stream ∧ pieces'.flatten = stream ∧
      answer (receiveResponse method maxBody ⟨[], pieces⟩) ≠
        answer (receiveResponse method maxBody ⟨[], pieces'⟩) := by
  obtain ⟨front, b, hstream⟩ := readHead_suffix hhead
  have hwhole : [front, b :: rest].flatten = stream := by rw [hstream]; simp
  have hbytes : (stream.map fun c => [c]).flatten = stream := by
    rw [← List.flatMap_def, List.flatMap_singleton']
  refine ⟨[front, b :: rest], stream.map fun c => [c], hwhole, hbytes, ?_⟩
  obtain ⟨d, hrun, hd⟩ := receiveHead_ok hhead hwhole
  obtain ⟨d', hrun', hd'⟩ := receiveHead_ok hhead hbytes
  have hintact : Intact (b :: rest) d :=
    receiveHead_keeps (fun _ _ _ => recvLineWithin_intact hshort) (.inl ⟨[front], rfl⟩) hrun
  have hsingle : Small 1 ⟨[], stream.map fun c => [c]⟩ := by
    refine ⟨.inr fun piece hpiece => ?_, Nat.one_pos⟩
    obtain ⟨c, -, rfl⟩ := List.mem_map.mp hpiece
    exact Nat.le_refl 1
  have hsmall : Small 1 d' := receiveHead_keeps (fun _ _ _ => recvLine_small) hsingle hrun'
  have hflat : d.pieces.flatten = [] := by
    refine hintact.resolve_left fun hbehind => ?_
    obtain ⟨before, hbefore⟩ := hbehind
    have hlen := congrArg List.length hd
    rw [Delivery.stream, hbefore, List.flatten_append, List.length_append, List.length_append] at hlen
    simp at hlen
    omega
  have hmore : d'.pieces.flatten ≠ [] := by
    have hcarried : d'.carried = [] := List.length_eq_zero_iff.mp (Nat.lt_one_iff.mp hsmall.2)
    intro hnil
    rw [Delivery.stream, hcarried, hnil] at hd'
    rw [← hd'] at hover
    exact Nat.not_lt_zero _ hover
  obtain ⟨e, hok⟩ := recvAll_ok maxBody (.inl hflat)
  obtain ⟨e', herror⟩ := recvAll_error hmore (hover.trans_eq (congrArg List.length hd'.symm))
  rw [answer_response hrun, answer_response hrun', receiveBody_all hno hchunked hlength, hok, herror]
  exact fun h => by cases h

/-- Unless a body up to the end of the stream is over the limit and may arrive with the head, it
does not depend on the pieces. -/
theorem same_outcome (h : Checked method maxBody stream) {pieces pieces' : List (List UInt8)}
    (hpieces : pieces.flatten = stream) (hpieces' : pieces'.flatten = stream) :
    answer (receiveResponse method maxBody ⟨[], pieces⟩) =
      answer (receiveResponse method maxBody ⟨[], pieces'⟩) := by
  cases hhead : readHead stream with
  | error e =>
    have herror : ∀ {pieces : List (List UInt8)}, pieces.flatten = stream →
        answer (receiveResponse method maxBody ⟨[], pieces⟩) = .error e := by
      intro pieces hpieces
      have hread := receiveHead_reads ⟨[], pieces⟩
      rw [stream_eq hpieces, hhead] at hread
      cases hrun : receiveHead ⟨[], pieces⟩ with
      | ok head d =>
        rw [hrun] at hread
        cases hread
      | error e' d =>
        rw [hrun] at hread
        cases hread
        rw [receiveResponse, bind_error hrun]
        rfl
    rw [herror hpieces, herror hpieces']
  | ok hr =>
    obtain ⟨head, rest⟩ := hr
    obtain ⟨d, hrun, hd⟩ := receiveHead_ok hhead hpieces
    obtain ⟨d', hrun', hd'⟩ := receiveHead_ok hhead hpieces'
    rw [answer_response hrun, answer_response hrun']
    refine congrArg _ ?_
    by_cases hframed : noBody method head = true ∨
        head.transferEncoding = asciiBytes "chunked" ∨ 0 ≤ head.contentLength
    · obtain ⟨q, hq⟩ := receiveBody_reads maxBody hframed
      exact hq.answer_eq (hd.trans hd'.symm)
    · obtain ⟨hno, hrest⟩ := not_or.mp hframed
      obtain ⟨hchunked, hlength⟩ := not_or.mp hrest
      rw [Bool.not_eq_true] at hno
      rw [not_le] at hlength
      rw [receiveBody_all hno hchunked hlength]
      have hchecked := (h head rest hhead hno).2 hchunked hlength
      by_cases hover : maxBody < rest.length
      · have hlong : 2048 ≤ rest.length := not_lt.mp fun h => hchecked ⟨hover, h⟩
        have hmore : ∀ {pieces : List (List UInt8)} {d : Delivery UInt8}, d.stream = rest →
            receiveHead ⟨[], pieces⟩ = .ok head d → d.pieces.flatten ≠ [] := by
          intro pieces d hd hrun hnil
          have hstart : Small 2048 ⟨[], pieces⟩ := ⟨.inl le_rfl, (by decide : 0 < 2048)⟩
          have hsmall := (receiveHead_keeps (fun _ _ _ => recvLine_small) hstart hrun).2
          rw [← hd, Delivery.stream, hnil, List.append_nil] at hlong
          exact absurd hsmall (not_lt.mpr hlong)
        obtain ⟨e, herror⟩ := recvAll_error (hmore hd hrun) (hover.trans_eq (congrArg _ hd.symm))
        obtain ⟨e', herror'⟩ := recvAll_error (hmore hd' hrun') (hover.trans_eq (congrArg _ hd'.symm))
        rw [herror, herror']
        rfl
      · rw [not_lt] at hover
        obtain ⟨e, hok⟩ := recvAll_ok maxBody (.inr ((congrArg List.length hd).trans_le hover))
        obtain ⟨e', hok'⟩ := recvAll_ok maxBody (.inr ((congrArg List.length hd').trans_le hover))
        rw [hok, hok', hd, hd']
        rfl

theorem chunked_outcome (hstrays : ¬ Strays maxBody d.stream) (hno : noBody method head = false)
    (hchunked : head.transferEncoding = asciiBytes "chunked") :
    FramesChunks maxBody (receiveBody method maxBody head) d := by
  rw [FramesChunks, receiveBody_chunked hno hchunked]
  have hreads := chunksWithin_reads maxBody (d.stream.length + 1) []
  rw [← and_assoc]
  refine ⟨?_, fun text extra body hstream hbody hlimit hsize => ?_⟩
  swap
  · obtain ⟨rest, hread⟩ := readChunks_complete hbody extra hlimit hsize []
      (hstream ▸ Nat.lt_succ_self d.stream.length)
    rw [← hstream] at hread
    obtain ⟨d', hrun, -⟩ := hreads.of_ok hread
    exact ⟨d', hrun⟩
  obtain ⟨-, data, rest, hread, hcomplete⟩ | ⟨-, e, hread, he⟩ :=
    readChunks_spec maxBody d.stream [] (Nat.lt_succ_self d.stream.length)
  · refine ⟨fun body d' hbody => ?_, fun e d' hbody => ?_⟩
    · have heq := hread.symm.trans (hreads.ok hbody)
      cases heq
      exact hcomplete.resolve_left hstrays
    · cases hread.symm.trans (hreads.error hbody)
  · refine ⟨fun body d' hbody => ?_, fun e d' hbody => ?_⟩
    · cases hread.symm.trans (hreads.ok hbody)
    · have heq := hread.symm.trans (hreads.error hbody)
      cases heq
      exact he

theorem length_outcome (hno : noBody method head = false)
    (hchunked : head.transferEncoding ≠ asciiBytes "chunked") (hlength : 0 ≤ head.contentLength) :
    FramesLength maxBody (receiveBody method maxBody head) d head.contentLength := by
  rw [receiveBody_length hno hchunked hlength]
  have hreads := recvExact_reads head.contentLength.toNat maxBody
  refine ⟨fun body d' hbody => ?_, fun e d' hbody => ?_, fun hlimit hcomplete => ?_⟩
  · have heq := hreads.ok hbody
    rw [readExact] at heq
    split at heq
    · cases heq
    · grind
  · have heq := hreads.error hbody
    rw [readExact] at heq
    split at heq
    · cases heq
      exact ⟨_, _, rfl⟩
    · split at heq
      · cases heq
        exact ⟨_, _, rfl⟩
      · cases heq
  · obtain ⟨n, hn⟩ : ∃ n, n = head.contentLength.toNat := ⟨_, rfl⟩
    have hread : readExact n maxBody d.stream = .ok (d.stream.take n, d.stream.drop n) := by
      rw [readExact, if_neg (by omega), if_neg (by omega)]
    obtain ⟨d', hrun, -⟩ := hreads.of_ok (hn ▸ hread)
    exact ⟨_, d', hrun⟩

theorem strays_returned (hstrays : Strays maxBody d.stream) (hno : noBody method head = false)
    (hchunked : head.transferEncoding = asciiBytes "chunked") :
    ∃ body d', receiveBody method maxBody head d = .ok body d' ∧
      ¬ ∃ text extra, d.stream = text ++ extra ∧ ChunkedBody text body := by
  rw [receiveBody_chunked hno hchunked]
  obtain ⟨-, data, rest, hread, -⟩ | ⟨hends, -⟩ :=
    readChunks_spec maxBody d.stream [] (Nat.lt_succ_self d.stream.length)
  · obtain ⟨d', hbody, -⟩ := (chunksWithin_reads maxBody _ []).of_ok hread
    refine ⟨_, d', hbody, fun ⟨text, extra, hstream, hcomplete⟩ => ?_⟩
    rw [hstream] at hstrays
    exact chunkedBody_not_strays hcomplete extra hstrays
  · exact absurd (strays_ends hstrays) hends

/-- **The outcome of a response is what is asked of it exactly when the body is checked**: it is the
same however the stream is cut, what is returned for a chunked body are the data of a complete one,
what is returned for a body with a length has that length, and all else is an
`HttpRequestException`; and a complete body within the limit is returned. -/
theorem framed_iff (method : List UInt8) (maxBody : ℕ) (stream : List UInt8) :
    Framed method maxBody stream ↔ Checked method maxBody stream := by
  constructor
  · intro h head rest hhead hno
    refine ⟨fun hchunked hstrays => ?_, fun hchunked hlength hover => ?_⟩
    · have hwhole : [stream].flatten = stream := List.flatten_singleton
      obtain ⟨d, hrun, rfl⟩ := receiveHead_ok hhead hwhole
      obtain ⟨body, d', hbody, hodd⟩ := strays_returned hstrays hno hchunked
      exact hodd ((h.chunked [stream] head d hwhole hrun hno hchunked).1 body d' hbody)
    · obtain ⟨pieces, pieces', hpieces, hpieces', hne⟩ :=
        not_same hhead hno hchunked hlength hover.1 hover.2
      exact hne (h.same pieces pieces' hpieces hpieces')
  · intro h
    refine ⟨fun pieces pieces' hpieces hpieces' => same_outcome h hpieces hpieces', ?_, ?_⟩
    · intro pieces head d hpieces hrun hno hchunked
      have hhead := receiveHead_reads.ok hrun
      rw [stream_eq hpieces] at hhead
      exact chunked_outcome ((h head d.stream hhead hno).1 hchunked) hno hchunked
    · intro pieces head d hpieces hrun hno hchunked hlength
      exact length_outcome hno hchunked hlength

def cutOff : List UInt8 :=
  asciiBytes "HTTP/1.1 200 OK\r\nTransfer-Encoding: chunked\r\n\r\n5\r\nhello\r\n"

/-- The body of a response that ends behind its first chunk is returned. -/
theorem not_framed : ¬ Framed (asciiBytes "GET") 2147483647 cutOff := by
  intro h
  have hwhole : [cutOff].flatten = cutOff := List.flatten_singleton
  obtain ⟨head, rest, hhead, hno, hchunked, hrest⟩ : ∃ head rest,
      readHead cutOff = .ok (head, rest) ∧ noBody (asciiBytes "GET") head = false ∧
        head.transferEncoding = asciiBytes "chunked" ∧ rest = asciiBytes "5\r\nhello\r\n" := by
    refine ⟨⟨200, asciiBytes "OK", [(asciiBytes "Transfer-Encoding", asciiBytes "chunked")],
      asciiBytes "chunked", -1, []⟩, asciiBytes "5\r\nhello\r\n", ?_, ?_, rfl, rfl⟩
    · decide +kernel
    · decide +kernel
  obtain ⟨d, hrun, rfl⟩ := receiveHead_ok hhead hwhole
  have hstrays : Strays 2147483647 d.stream := by
    rw [hrest]
    have hsize : stoul (sizeText (asciiBytes "5\r\nhello\r\n")) = some 5 := by decide +kernel
    exact .later hsize (by decide) (by decide) (by decide +kernel) (.noSize (by decide +kernel))
  obtain ⟨body, d', hbody, hodd⟩ := strays_returned hstrays hno hchunked
  exact hodd ((h.chunked [cutOff] head d hwhole hrun hno hchunked).1 body d' hbody)

end SharpRuntime.Analysis.ChunkFraming
