import SharpRuntime.Model.Path

/-!
# Paths and their segments

The loop of `Path` against the segments of a path: what it has written is always the segments it
has kept so far, each after a separator.
-/

set_option autoImplicit false

namespace SharpRuntime.Analysis.Paths

open Model Model.Path

abbrev slash : UInt8 := directorySeparatorChar

/-- The segments left after one more. -/
def keep (kept : List (List UInt8)) (segment : List UInt8) : List (List UInt8) :=
  if segment = [] ∨ segment = [dot] then kept
  else if segment = [dot, dot] then kept.dropLast
  else kept ++ [segment]

/-- The text the loop has written for the segments left. -/
def written (kept : List (List UInt8)) : List UInt8 := kept.flatMap (slash :: ·)

def rooted (text : List UInt8) : List UInt8 := if text = [] then [slash] else text

theorem isDirSep_iff (c : UInt8) : isDirSep c = true ↔ c = slash := by
  rw [isDirSep, Bool.or_eq_true, decide_eq_true_iff, decide_eq_true_iff]
  exact or_self_iff

theorem written_append (kept : List (List UInt8)) (segment : List UInt8) :
    written (kept ++ [segment]) = written kept ++ slash :: segment := by
  simp [written]

theorem lastSeparator_append (sb : List UInt8) {segment : List UInt8} (h : slash ∉ segment) :
    ∀ n ≤ segment.length,
      lastSeparator (sb ++ slash :: segment) 0 (sb.length + 1 + n) = some sb.length
  | 0, _ => by simp [lastSeparator, isDirSep_iff]
  | n + 1, hn => by
    have hmem : segment[n] ≠ slash := fun heq => h (heq ▸ List.getElem_mem hn)
    have hget : (sb ++ slash :: segment)[sb.length + 1 + n]? = some segment[n] := by grind
    rw [← add_assoc, lastSeparator, if_pos (by omega), hget]
    simpa [isDirSep_iff, hmem] using lastSeparator_append sb h n (by omega)

theorem unwrite_append (sb : List UInt8) {segment : List UInt8} (h : slash ∉ segment)
    (atEnd : Bool) :
    unwrite (sb ++ slash :: segment) 0 atEnd =
      if atEnd ∧ sb = [] then [slash] else sb := by
  have hlast := lastSeparator_append sb h segment.length (le_refl _)
  have hlength : (sb ++ slash :: segment).length = sb.length + 1 + segment.length := by
    simp; omega
  rw [unwrite, hlength, hlast]
  by_cases hend : atEnd = true ∧ sb = []
  · obtain ⟨rfl, rfl⟩ := hend
    simp
  · simp only [List.length_eq_zero_iff, if_neg hend, List.take_left']

theorem removeLoop_text {segment : List UInt8} (h : slash ∉ segment) (sb rest : List UInt8) :
    removeLoop 0 sb (segment ++ rest) = removeLoop 0 (sb ++ segment) rest := by
  induction segment generalizing sb with
  | nil => simp
  | cons c segment ih =>
    have hc : ¬ isDirSep c = true := by rw [isDirSep_iff]; grind
    rw [List.cons_append, removeLoop, if_neg (fun hsep => hc hsep.1), ih (by grind),
      List.append_assoc, List.singleton_append]

theorem removeLoop_segment {segment rest : List UInt8} (h : slash ∉ segment)
    (hrest : endsSegment rest = true) (hne : segment ++ rest ≠ []) (sb : List UInt8) :
    removeLoop 0 sb (slash :: (segment ++ rest)) =
      if segment = [] ∨ segment = [dot] then removeLoop 0 sb rest
      else if segment = [dot, dot] then removeLoop 0 (unwrite sb 0 rest.isEmpty) rest
      else removeLoop 0 (sb ++ slash :: segment) rest := by
  have hslash : isDirSep slash = true := by decide
  have hpush : removeLoop 0 (sb ++ [slash]) (segment ++ rest) =
      removeLoop 0 (sb ++ slash :: segment) rest := by
    rw [removeLoop_text h, List.append_assoc, List.singleton_append]
  rw [removeLoop, if_pos ⟨hslash, hne⟩, hpush]
  rcases segment with _ | ⟨a, _ | ⟨b, _ | ⟨c, segment⟩⟩⟩
  · cases rest with
    | nil => exact absurd rfl hne
    | cons c rest => simp_all [endsSegment]
  · have ha : isDirSep a = false := by grind [isDirSep_iff]
    by_cases hadot : a = dot
    · simp_all
    · cases rest <;> simp_all
  · have ha : isDirSep a = false := by grind [isDirSep_iff]
    have hb : isDirSep b = false := by grind [isDirSep_iff]
    by_cases hab : a = dot ∧ b = dot <;> simp_all [endsSegment]
  · have ha : isDirSep a = false := by grind [isDirSep_iff]
    have hb : isDirSep b = false := by grind [isDirSep_iff]
    have hc : isDirSep c = false := by grind [isDirSep_iff]
    simp_all [endsSegment]

theorem unwrite_written {kept : List (List UInt8)} (hkept : ∀ s ∈ kept, slash ∉ s)
    (atEnd : Bool) :
    unwrite (written kept) 0 atEnd =
      if atEnd ∧ kept.length = 1 then [slash] else written kept.dropLast := by
  obtain rfl | ⟨kept, segment, rfl⟩ := List.eq_nil_or_concat kept
  · simp [unwrite, written, lastSeparator]
  · rw [List.concat_eq_append] at hkept ⊢
    rw [written_append, unwrite_append _ (hkept segment (by simp)), List.dropLast_concat]
    cases kept <;> simp [written]

theorem removeLoop_next {segment : List UInt8} (h : slash ∉ segment)
    {kept : List (List UInt8)} (hkept : ∀ s ∈ kept, slash ∉ s) (rest : List UInt8) :
    removeLoop 0 (written kept) (slash :: (segment ++ slash :: rest)) =
      removeLoop 0 (written (keep kept segment)) (slash :: rest) := by
  rw [removeLoop_segment h (by simp [endsSegment, isDirSep_iff]) (by simp), keep, unwrite_written hkept]
  split_ifs <;> simp_all [written_append]

theorem removeLoop_last {segment : List UInt8} (h : slash ∉ segment)
    {kept : List (List UInt8)} (hkept : ∀ s ∈ kept, slash ∉ s) :
    rooted (removeLoop 0 (written kept) (slash :: segment)) =
      rooted (written (keep kept segment) ++ if segment = [] then [slash] else []) := by
  by_cases hne : segment = []
  · subst hne
    simp [removeLoop, keep]
  · have hloop := @removeLoop_segment segment [] h rfl (by simpa using hne) (written kept)
    rw [List.append_nil] at hloop
    rw [hloop, keep, unwrite_written hkept]
    rcases kept with - | ⟨first, - | ⟨second, kept⟩⟩ <;> split_ifs <;>
      simp_all [removeLoop, rooted, written]

theorem mem_keep {kept : List (List UInt8)} {segment s : List UInt8} (h : s ∈ keep kept segment) :
    s ∈ kept ∨ (s = segment ∧ segment ≠ [] ∧ segment ≠ [dot] ∧ segment ≠ [dot, dot]) := by
  grind [keep, List.dropLast_subset]

theorem removeLoop_segments {segments : List (List UInt8)} (hne : segments ≠ [])
    (h : ∀ s ∈ segments, slash ∉ s) {kept : List (List UInt8)} (hkept : ∀ s ∈ kept, slash ∉ s) :
    rooted (removeLoop 0 (written kept) (slash :: [slash].intercalate segments)) =
      rooted (written (segments.foldl keep kept) ++
        if segments.getLast? = some [] then [slash] else []) := by
  induction segments generalizing kept with
  | nil => exact absurd rfl hne
  | cons segment segments ih =>
    have hsegment : slash ∉ segment := h segment (by simp)
    cases segments with
    | nil => simpa using removeLoop_last hsegment hkept
    | cons next segments =>
      rw [List.intercalate_cons_cons, List.append_assoc, List.singleton_append,
        removeLoop_next hsegment hkept, ih (by simp) (by grind) (by grind [mem_keep]),
        List.getLast?_cons_cons]
      rfl

theorem written_eq {kept : List (List UInt8)} (h : kept ≠ []) :
    written kept = slash :: [slash].intercalate kept := by
  induction kept with
  | nil => exact absurd rfl h
  | cons segment kept ih =>
    cases kept with
    | nil => simp [written]
    | cons next kept =>
      rw [List.intercalate_cons_cons, List.append_assoc, List.singleton_append, ← ih (by simp)]
      rfl

theorem mem_intercalate {c : UInt8} (h : c ≠ slash) (segments : List (List UInt8)) :
    c ∈ [slash].intercalate segments ↔ ∃ s ∈ segments, c ∈ s := by
  induction segments with
  | nil => simp
  | cons segment segments ih => cases segments <;> simp_all

theorem slash_notMem_splitOn (body : List UInt8) : ∀ s ∈ body.splitOn slash, slash ∉ s := by
  induction body with
  | nil => simp
  | cons c body ih =>
    rw [List.splitOn_cons_eq_if_modifyHead]
    cases hsplit : body.splitOn slash <;> split_ifs <;> simp_all; grind

theorem mem_kept {segments kept : List (List UInt8)} {s : List UInt8}
    (h : s ∈ segments.foldl keep kept) :
    s ∈ kept ∨ (s ∈ segments ∧ s ≠ [] ∧ s ≠ [dot] ∧ s ≠ [dot, dot]) := by
  induction segments generalizing kept with
  | nil => exact .inl h
  | cons segment segments ih => grind [mem_keep]

theorem foldl_keep {segments : List (List UInt8)}
    (h : ∀ s ∈ segments, s ≠ [] ∧ s ≠ [dot] ∧ s ≠ [dot, dot]) (kept : List (List UInt8)) :
    segments.foldl keep kept = kept ++ segments := by
  induction segments generalizing kept with
  | nil => simp
  | cons segment segments ih =>
    have hsegment : keep kept segment = kept ++ [segment] := by grind [keep]
    rw [List.foldl_cons, hsegment, ih (by grind), List.append_assoc, List.singleton_append]

/-- The path of the segments left of a path with these segments. -/
def normalized (segments : List (List UInt8)) : List UInt8 :=
  let kept := segments.foldl keep []
  slash :: [slash].intercalate kept ++
    if kept ≠ [] ∧ segments.getLast? = some [] then [slash] else []

theorem getFullPath_eq {segments : List (List UInt8)} (current_path : Except String (List UInt8))
    (hne : segments ≠ []) (h : ∀ s ∈ segments, slash ∉ s ∧ 0 ∉ s) :
    getFullPath current_path (slash :: [slash].intercalate segments) =
      .ok (normalized segments) := by
  have hloop := @removeLoop_segments segments hne (fun s hs => (h s hs).1) [] nofun
  have hzero : 0 ∉ slash :: [slash].intercalate segments := by
    rw [List.mem_cons, mem_intercalate (by decide)]
    rintro (hslash | ⟨s, hs, hmem⟩)
    · exact absurd hslash (by decide)
    · exact (h s hs).2 hmem
  have hroot : ∀ text, removeRelativeSegments (slash :: text) 1 =
      rooted (removeLoop 0 [] (slash :: text)) := by
    intro text
    by_cases hsb : removeLoop 0 [] (slash :: text) = [] <;>
      simp_all [removeRelativeSegments, rooted, isDirSep_iff]
  have hlength : getRootLength (slash :: [slash].intercalate segments) = 1 := by
    simp [getRootLength, isDirSep_iff]
  have hrooted : ∀ text, rooted text ≠ [] := by grind [rooted]
  have hnormalized : rooted (written (segments.foldl keep []) ++
      if segments.getLast? = some [] then [slash] else []) = normalized segments := by
    unfold normalized
    by_cases hkept : segments.foldl keep [] = []
    · simp [hkept, written, rooted]
    · simp [hkept, written_eq hkept, rooted]
  have hcall : getFullPath current_path (slash :: [slash].intercalate segments) = .ok
      (rooted (removeRelativeSegments (slash :: [slash].intercalate segments) 1)) := by
    simp [getFullPath, hzero, isPathRooted, isDirSep_iff, hlength, pure, Except.pure, bind,
      Except.bind, rooted]
  rw [hcall, hroot, rooted, if_neg (hrooted _), ← hnormalized]
  exact congrArg _ hloop

theorem getLast?_normalized {segments : List (List UInt8)}
    (h : ∀ s ∈ segments.foldl keep [], slash ∉ s ∧ s ≠ []) :
    (normalized segments).getLast? = some slash ↔
      normalized segments = [slash] ∨ segments.getLast? = some [] := by
  by_cases hkept : segments.foldl keep [] = []
  · simp [normalized, hkept]
  by_cases hend : segments.getLast? = some []
  · simp [normalized, hkept, hend, List.getLast?_cons]
  · obtain ⟨front, last, hconcat⟩ := (List.eq_nil_or_concat _).resolve_left hkept
    rw [List.concat_eq_append] at hconcat
    have hlast := h last (by simp [hconcat])
    have hpath : normalized segments = written front ++ slash :: last := by
      rw [← written_append, ← hconcat, written_eq hkept]
      simp [normalized, hend]
    have hnot : (normalized segments).getLast? ≠ some slash := by
      intro hslash
      rw [hpath, List.getLast?_append_cons, List.getLast?_cons_of_ne_nil hlast.2] at hslash
      exact hlast.1 (List.mem_of_getLast? hslash)
    exact iff_of_false hnot (fun hor => hor.elim (fun heq => hnot (heq ▸ rfl)) hend)

theorem getFullPath_normalized (current_path : Except String (List UInt8))
    {segments : List (List UInt8)}
    (h : ∀ s ∈ segments.foldl keep [], (slash ∉ s ∧ 0 ∉ s) ∧ s ≠ [] ∧ s ≠ [dot] ∧ s ≠ [dot, dot]) :
    getFullPath current_path (normalized segments) = .ok (normalized segments) := by
  have hkeep := foldl_keep (fun s hs => (h s hs).2) []
  by_cases hkept : segments.foldl keep [] = []
  · have hpath := @getFullPath_eq [[]] current_path (by simp) (by simp)
    simpa [normalized, hkept, keep] using hpath
  by_cases hend : segments.getLast? = some []
  · have hpath := @getFullPath_eq (segments.foldl keep [] ++ [[]]) current_path (by simp)
      (by simp; grind)
    have hnormalized : normalized (segments.foldl keep [] ++ [[]]) = normalized segments := by
      simp_all [normalized, keep]
    have htext : slash :: [slash].intercalate (segments.foldl keep [] ++ [[]]) =
        normalized segments := by
      rw [← written_eq (by simp), written_append, written_eq hkept]
      simp [normalized, hkept, hend]
    rwa [hnormalized, htext] at hpath
  · have hpath := getFullPath_eq current_path hkept (fun s hs => (h s hs).1)
    have hnone : (segments.foldl keep []).getLast? ≠ some [] :=
      fun hsome => (h _ (List.mem_of_getLast? hsome)).2.1 rfl
    have hnormalized : normalized (segments.foldl keep []) = normalized segments := by
      simp_all [normalized]
    have htext : slash :: [slash].intercalate (segments.foldl keep []) = normalized segments := by
      simp [normalized, hkept, hend]
    rwa [hnormalized, htext] at hpath

/-- **A full path is the path normalised**: what is left of the segments, none of them empty or a
relative one, in their order, and full paths do not change. -/
theorem full_path (current_path : Except String (List UInt8)) {body : List UInt8}
    (h : 0 ∉ body) :
    let segments := body.splitOn slash
    let kept := segments.foldl keep []
    let path := slash :: [slash].intercalate kept ++
      if kept ≠ [] ∧ segments.getLast? = some [] then [slash] else []
    getFullPath current_path (slash :: body) = .ok path ∧
      (path.getLast? = some slash ↔ path = [slash] ∨ segments.getLast? = some []) ∧
      (∀ s ∈ kept, slash ∉ s ∧ s ≠ [] ∧ s ≠ [dot] ∧ s ≠ [dot, dot]) ∧
      getFullPath current_path path = .ok path := by
  intro segments kept path
  have hsegments : ∀ s ∈ segments, slash ∉ s ∧ 0 ∉ s := by
    intro s hs
    have hmem := mem_intercalate (c := 0) (by decide) segments
    rw [List.intercalate_splitOn] at hmem
    exact ⟨slash_notMem_splitOn body s hs, fun hzero => h (hmem.mpr ⟨s, hs, hzero⟩)⟩
  have hkept : ∀ s ∈ kept, (slash ∉ s ∧ 0 ∉ s) ∧ s ≠ [] ∧ s ≠ [dot] ∧ s ≠ [dot, dot] := by
    intro s hs
    obtain ⟨hmem, hother⟩ := (mem_kept hs).resolve_left nofun
    exact ⟨hsegments s hmem, hother⟩
  have hpath := getFullPath_eq current_path (List.splitOn_ne_nil slash body) hsegments
  rw [List.intercalate_splitOn] at hpath
  exact ⟨hpath, getLast?_normalized fun s hs => ⟨(hkept s hs).1.1, (hkept s hs).2.1⟩,
    fun s hs => ⟨(hkept s hs).1.1, (hkept s hs).2⟩, getFullPath_normalized current_path hkept⟩

/-- The full path of `/a/..//b/` is `/b/`. -/
theorem full_path_relative :
    getFullPath (.ok []) [47, 97, 47, 46, 46, 47, 47, 98, 47] = .ok [47, 98, 47] :=
  (@full_path (.ok []) [97, 47, 46, 46, 47, 47, 98, 47] (by decide)).1

end SharpRuntime.Analysis.Paths
