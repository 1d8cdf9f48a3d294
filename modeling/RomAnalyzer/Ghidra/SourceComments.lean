import RomAnalyzer.AnnotationsJson
import RomAnalyzer.Lib.Words

/-!
# Source comments

Applying labels may leave a comment line at each address that says where its label comes
from. A line with the mark is replaced; the other lines stay.
-/
namespace RomAnalyzer.Ghidra

open Lib
open AnnotationsIo (confidenceText)

/-- The mark of the tool's own lines. -/
def sourceMark : List Char := "rom-analyzer:".toList

def linesOf (text : List Char) : List (List Char) := text.splitOn '\n'

def joinLines (ls : List (List Char)) : List Char := ['\n'].intercalate ls

def marked (line : List Char) : Bool := decide (sourceMark <:+: line)

/-- The texts at the addresses that have one. -/
abbrev Comments := Nat → Option (List Char)

section Apply

variable (scoreText : ℚ → String)

/-- The score is printed with two digits. -/
def annotationOf (s : PropagatedSymbol) : List Char :=
  ("rom-analyzer: source=" ++ s.source ++ " score=" ++ scoreText s.score ++ " confidence=" ++
    confidenceText s.confidence).toList

/-- The comment after the one that was there. -/
def mergeNote (existing : Option (List Char)) (note : List Char) : List Char :=
  match existing with
  | none => note
  | some text =>
    if marked text then joinLines ((linesOf text).map fun ln => if marked ln then note else ln)
    else text ++ '\n' :: note

/-- A symbol without a source leaves no comment. -/
def commentSymbol (comments : Comments) (s : PropagatedSymbol) : Comments :=
  if s.source = "" then comments
  else Function.update comments s.newAddress
    (some (mergeNote (comments s.newAddress) (annotationOf scoreText s)))

/-- The comments after `apply_labels(.., add_comments=True)`. -/
def applyComments (comments : Comments) (symbols : List PropagatedSymbol) : Comments :=
  symbols.foldl (commentSymbol scoreText) comments

/-- Runs of the tool, one after the other. -/
def applyRuns (comments : Comments) (runs : List (List PropagatedSymbol)) : Comments :=
  runs.foldl (applyComments scoreText) comments

/-- The annotation of the last symbol at an address. -/
def lastNote (symbols : List PropagatedSymbol) (a : Nat) : Option (List Char) :=
  (symbols.reverse.find? fun s => s.source ≠ "" ∧ s.newAddress = a).map (annotationOf scoreText)

/-- No text that goes into an annotation breaks the line. -/
def OneLine (s : PropagatedSymbol) : Prop :=
  '\n' ∉ s.source.toList ∧ '\n' ∉ (scoreText s.score).toList

instance (s : PropagatedSymbol) : Decidable (OneLine scoreText s) :=
  inferInstanceAs (Decidable (_ ∧ _))

end Apply

/-- The lines without the tool's mark. -/
def unmarkedLines (text : List Char) : List (List Char) :=
  (linesOf text).filter fun ln => !marked ln

/-! ### Lines -/

theorem joinLines_linesOf (text : List Char) : joinLines (linesOf text) = text :=
  List.intercalate_splitOn '\n'

theorem linesOf_singleton {note : List Char} (h : '\n' ∉ note) : linesOf note = [note] :=
  List.splitOn_eq_singleton h

theorem notMem_of_mem_linesOf {text ln : List Char} (h : ln ∈ linesOf text) : '\n' ∉ ln :=
  notMem_of_mem_splitOn h

theorem linesOf_joinLines {ls : List (List Char)} (hls : ∀ ln ∈ ls, '\n' ∉ ln) (hne : ls ≠ []) :
    linesOf (joinLines ls) = ls :=
  List.splitOn_intercalate '\n' hls hne

theorem linesOf_append_note {note : List Char} (h : '\n' ∉ note) (text : List Char) :
    linesOf (text ++ '\n' :: note) = linesOf text ++ [note] := by
  rw [linesOf, List.splitOn_append_cons_self, ← linesOf, ← linesOf, linesOf_singleton h]

theorem marked_joinLines (ls : List (List Char)) : marked (joinLines ls) = ls.any marked := by
  have hnewline : '\n' ∉ sourceMark := by decide
  have hne : sourceMark ≠ [] := by decide
  rw [Bool.eq_iff_iff, List.any_eq_true, marked, decide_eq_true_iff]
  refine (infix_intercalate hnewline hne ls).trans (exists_congr fun l => ?_)
  rw [marked, decide_eq_true_iff]

/-- The mark is found in a text if it is found in a line. -/
theorem marked_eq_any (text : List Char) : marked text = (linesOf text).any marked := by
  rw [← marked_joinLines, joinLines_linesOf]

/-! ### One annotation -/

section Merge

variable {note note' : List Char}

/-- The lines with the tool's own replaced. -/
def replaceMarked (note : List Char) (ls : List (List Char)) : List (List Char) :=
  ls.map fun ln => if marked ln then note else ln

theorem linesOf_merge_marked (hline : '\n' ∉ note) {text : List Char} (h : marked text = true) :
    linesOf (mergeNote (some text) note) = replaceMarked note (linesOf text) := by
  rw [mergeNote, if_pos h]
  apply linesOf_joinLines
  · intro ln hln
    obtain ⟨old, hold, rfl⟩ := List.mem_map.mp hln
    by_cases hmark : marked old = true
    · rwa [if_pos hmark]
    · rw [if_neg hmark]
      exact notMem_of_mem_linesOf hold
  · intro hnil
    exact List.splitOn_ne_nil _ _ (List.map_eq_nil_iff.mp hnil)

theorem linesOf_merge_unmarked (hline : '\n' ∉ note) {text : List Char}
    (h : marked text = false) :
    linesOf (mergeNote (some text) note) = linesOf text ++ [note] := by
  rw [mergeNote, if_neg (by simp [h])]
  exact linesOf_append_note hline text

theorem replaceMarked_of_unmarked {ls : List (List Char)} (h : ls.any marked = false) :
    replaceMarked note ls = ls := by
  rw [List.any_eq_false] at h
  refine (List.map_congr_left fun ln hln => ?_).trans (List.map_id ls)
  rw [if_neg (h ln hln), id]

/-- A replaced line is replaced again. -/
theorem replaceMarked_replaceMarked (hmark : marked note = true) (ls : List (List Char)) :
    replaceMarked note' (replaceMarked note ls) = replaceMarked note' ls := by
  rw [replaceMarked, replaceMarked, List.map_map]
  refine List.map_congr_left fun ln _ => ?_
  by_cases h : marked ln = true
  · simp [h, hmark]
  · simp [h]

theorem mem_merge (hline : '\n' ∉ note) (existing : Option (List Char)) :
    note ∈ linesOf (mergeNote existing note) := by
  cases existing with
  | none =>
    rw [mergeNote, linesOf_singleton hline]
    exact List.mem_singleton_self note
  | some text =>
    cases h : marked text with
    | true =>
      rw [linesOf_merge_marked hline h]
      rw [marked_eq_any] at h
      obtain ⟨ln, hln, hmark⟩ := List.any_eq_true.mp h
      exact List.mem_map.mpr ⟨ln, hln, if_pos hmark⟩
    | false =>
      rw [linesOf_merge_unmarked hline h]
      exact List.mem_append_right _ (List.mem_singleton_self note)

theorem marked_merge (hmark : marked note = true) (hline : '\n' ∉ note)
    (existing : Option (List Char)) : marked (mergeNote existing note) = true := by
  rw [marked_eq_any]
  exact List.any_eq_true.mpr ⟨note, mem_merge hline existing, hmark⟩

/-- The tool has no line but the last one it wrote. -/
theorem eq_of_marked_merge (hline : '\n' ∉ note) {existing : Option (List Char)} {ln : List Char}
    (hln : ln ∈ linesOf (mergeNote existing note)) (hmarked : marked ln = true) :
    ln = note := by
  cases existing with
  | none =>
    rw [mergeNote, linesOf_singleton hline] at hln
    exact List.mem_singleton.mp hln
  | some text =>
    cases h : marked text with
    | true =>
      rw [linesOf_merge_marked hline h] at hln
      obtain ⟨old, -, rfl⟩ := List.mem_map.mp hln
      by_cases hold : marked old = true
      · exact if_pos hold
      · rw [if_neg hold] at hmarked
        exact absurd hmarked hold
    | false =>
      rw [linesOf_merge_unmarked hline h] at hln
      rw [marked_eq_any, List.any_eq_false] at h
      rcases List.mem_append.mp hln with hold | hnew
      · exact absurd hmarked (h ln hold)
      · exact List.mem_singleton.mp hnew

theorem unmarkedLines_merge_some (hmark : marked note = true) (hline : '\n' ∉ note)
    (text : List Char) : unmarkedLines (mergeNote (some text) note) = unmarkedLines text := by
  have hnot : (!marked note) = false := by simp [hmark]
  cases h : marked text with
  | true =>
    rw [unmarkedLines, linesOf_merge_marked hline h, replaceMarked, List.filter_map, unmarkedLines]
    have hcongr : (linesOf text).filter ((fun ln => !marked ln) ∘
        fun ln => if marked ln then note else ln) = (linesOf text).filter fun ln => !marked ln := by
      refine List.filter_congr fun ln _ => ?_
      by_cases hln : marked ln = true
      · simp [hln, hmark]
      · simp [hln]
    rw [hcongr]
    refine (List.map_congr_left fun ln hln => ?_).trans (List.map_id _)
    have hunmarked := (List.mem_filter.mp hln).2
    rw [if_neg (by simpa using hunmarked), id]
  | false =>
    rw [unmarkedLines, linesOf_merge_unmarked hline h, List.filter_append, List.filter_cons_of_neg
      (by simp [hmark]), List.filter_nil, List.append_nil, unmarkedLines]

theorem unmarkedLines_merge_none (hmark : marked note = true) (hline : '\n' ∉ note) :
    unmarkedLines (mergeNote none note) = [] := by
  rw [unmarkedLines, mergeNote, linesOf_singleton hline,
    List.filter_cons_of_neg (by simp [hmark]), List.filter_nil]

/-- An annotation over an annotation is the later one. -/
theorem merge_merge (hmark : marked note = true) (hline : '\n' ∉ note) (hline' : '\n' ∉ note')
    (existing : Option (List Char)) :
    mergeNote (some (mergeNote existing note)) note' =
      mergeNote existing note' := by
  have hmerged := marked_merge hmark hline existing
  rw [← joinLines_linesOf (mergeNote (some _) note'),
    ← joinLines_linesOf (mergeNote existing note'), linesOf_merge_marked hline' hmerged]
  congr 1
  cases existing with
  | none =>
    rw [mergeNote, mergeNote, linesOf_singleton hline, linesOf_singleton hline']
    simp [replaceMarked, hmark]
  | some text =>
    cases h : marked text with
    | true =>
      rw [linesOf_merge_marked hline h, linesOf_merge_marked hline' h,
        replaceMarked_replaceMarked hmark]
    | false =>
      rw [linesOf_merge_unmarked hline h, linesOf_merge_unmarked hline' h, replaceMarked,
        List.map_append, ← replaceMarked]
      rw [marked_eq_any] at h
      rw [replaceMarked_of_unmarked h]
      simp [hmark]

end Merge

/-! ### Runs -/

section Runs

variable {scoreText : ℚ → String} {s : PropagatedSymbol} {symbols : List PropagatedSymbol}

theorem marked_annotationOf (scoreText : ℚ → String) (s : PropagatedSymbol) :
    marked (annotationOf scoreText s) = true := by
  rw [marked, decide_eq_true_iff, annotationOf, String.append_assoc, String.append_assoc,
    String.append_assoc, String.append_assoc, String.toList_append]
  have hmark : sourceMark <:+: "rom-analyzer: source=".toList := by decide
  exact hmark.trans (List.prefix_append _ _).isInfix

theorem notMem_annotationOf (h : OneLine scoreText s) : '\n' ∉ annotationOf scoreText s := by
  have hconfidence : '\n' ∉ (confidenceText s.confidence).toList := by
    cases s.confidence <;> decide
  have hleft : '\n' ∉ "rom-analyzer: source=".toList := by decide
  have hscore : '\n' ∉ " score=".toList := by decide
  have hlabel : '\n' ∉ " confidence=".toList := by decide
  simp only [annotationOf, String.toList_append, List.mem_append, not_or]
  exact ⟨⟨⟨⟨⟨hleft, h.1⟩, hscore⟩, h.2⟩, hlabel⟩, hconfidence⟩

theorem lastNote_concat (scoreText : ℚ → String) (symbols : List PropagatedSymbol)
    (s : PropagatedSymbol) (a : Nat) :
    lastNote scoreText (symbols ++ [s]) a =
      if s.source ≠ "" ∧ s.newAddress = a then some (annotationOf scoreText s)
      else lastNote scoreText symbols a := by
  rw [lastNote, List.reverse_append, List.reverse_singleton, List.singleton_append]
  by_cases h : s.source ≠ "" ∧ s.newAddress = a
  · rw [if_pos h, List.find?_cons_of_pos (by simpa using h), Option.map_some]
  · rw [if_neg h, List.find?_cons_of_neg (by simpa using h), lastNote]

theorem lastNote_oneLine (h : ∀ s ∈ symbols, OneLine scoreText s) {a : Nat} {note : List Char}
    (hnote : lastNote scoreText symbols a = some note) :
    marked note = true ∧ '\n' ∉ note := by
  obtain ⟨s, hs, rfl⟩ := Option.map_eq_some_iff.mp hnote
  have hmem : s ∈ symbols := List.mem_reverse.mp (List.mem_of_find?_eq_some hs)
  exact ⟨marked_annotationOf scoreText s, notMem_annotationOf (h s hmem)⟩

theorem commentSymbol_apply (scoreText : ℚ → String) (comments : Comments) (s : PropagatedSymbol)
    (a : Nat) :
    commentSymbol scoreText comments s a =
      if s.source ≠ "" ∧ s.newAddress = a then
        some (mergeNote (comments a) (annotationOf scoreText s))
      else comments a := by
  rw [commentSymbol]
  by_cases hsource : s.source = ""
  · rw [if_pos hsource, if_neg (by simp [hsource])]
  · rw [if_neg hsource]
    by_cases ha : s.newAddress = a
    · subst ha
      rw [if_pos ⟨hsource, rfl⟩, Function.update_self]
    · rw [if_neg (by simp [ha]), Function.update_of_ne (Ne.symm ha)]

theorem applyComments_concat (scoreText : ℚ → String) (comments : Comments)
    (symbols : List PropagatedSymbol) (s : PropagatedSymbol) :
    applyComments scoreText comments (symbols ++ [s]) =
      commentSymbol scoreText (applyComments scoreText comments symbols) s := by
  rw [applyComments, List.foldl_append]
  rfl

/-- One run leaves the last annotation of each address, whatever came before it. -/
theorem applyComments_apply (h : ∀ s ∈ symbols, OneLine scoreText s) (comments : Comments)
    (a : Nat) :
    applyComments scoreText comments symbols a =
      (lastNote scoreText symbols a).elim (comments a)
        fun note => some (mergeNote (comments a) note) := by
  induction symbols using List.reverseRecOn with
  | nil => rfl
  | append_singleton symbols s ih =>
    have hinit : ∀ s ∈ symbols, OneLine scoreText s := fun s hs => h s (List.mem_append_left _ hs)
    have hlast : OneLine scoreText s := h s (by simp)
    have hbefore := ih hinit
    rw [applyComments_concat, commentSymbol_apply, lastNote_concat]
    by_cases hhere : s.source ≠ "" ∧ s.newAddress = a
    · rw [if_pos hhere, if_pos hhere, hbefore]
      cases hnote : lastNote scoreText symbols a with
      | none => rfl
      | some note =>
        obtain ⟨hmark, hline⟩ := lastNote_oneLine hinit hnote
        exact congrArg some (merge_merge hmark hline (notMem_annotationOf hlast) (comments a))
    · rw [if_neg hhere, if_neg hhere]
      exact hbefore

theorem applyRuns_eq_flatten (scoreText : ℚ → String) (comments : Comments)
    (runs : List (List PropagatedSymbol)) :
    applyRuns scoreText comments runs = applyComments scoreText comments runs.flatten := by
  rw [applyRuns, applyComments, List.foldl_flatten]
  rfl

/-- However often the tool ran, an address that it annotated keeps the lines without the mark,
and every line with the mark is the last annotation; going through all of the runs once more
changes no comment. -/
theorem applyRuns_comments {runs : List (List PropagatedSymbol)}
    (h : ∀ run ∈ runs, ∀ s ∈ run, OneLine scoreText s) (comments : Comments) :
    (∀ a, lastNote scoreText runs.flatten a = none →
      applyRuns scoreText comments runs a = comments a) ∧
    (∀ a note, lastNote scoreText runs.flatten a = some note →
      ∃ text, applyRuns scoreText comments runs a = some text ∧
        unmarkedLines text = (comments a).elim [] unmarkedLines ∧ note ∈ linesOf text ∧
        ∀ ln ∈ linesOf text, marked ln = true → ln = note) ∧
    applyRuns scoreText (applyRuns scoreText comments runs) runs =
      applyRuns scoreText comments runs := by
  have hall : ∀ s ∈ runs.flatten, OneLine scoreText s := by
    intro s hs
    obtain ⟨run, hrun, hmem⟩ := List.mem_flatten.mp hs
    exact h run hrun s hmem
  refine ⟨?_, ?_, ?_⟩
  · intro a hnone
    rw [applyRuns_eq_flatten, applyComments_apply hall, hnone, Option.elim_none]
  · intro a note hnote
    obtain ⟨hmark, hline⟩ := lastNote_oneLine hall hnote
    refine ⟨mergeNote (comments a) note, ?_, ?_, ?_, ?_⟩
    · rw [applyRuns_eq_flatten, applyComments_apply hall, hnote, Option.elim_some]
    · cases comments a with
      | none => exact unmarkedLines_merge_none hmark hline
      | some text => exact unmarkedLines_merge_some hmark hline text
    · exact mem_merge hline (comments a)
    · exact fun ln hln hmarked => eq_of_marked_merge hline hln hmarked
  · funext a
    rw [applyRuns_eq_flatten, applyRuns_eq_flatten, applyComments_apply hall,
      applyComments_apply hall]
    cases hnote : lastNote scoreText runs.flatten a with
    | none => rfl
    | some note =>
      obtain ⟨hmark, hline⟩ := lastNote_oneLine hall hnote
      exact congrArg some (merge_merge hmark hline hline (comments a))

/-- Two runs over a comment of two lines, the second with another score. -/
theorem applyRuns_comments_sample :
    ∃ text, applyRuns (fun q => if q = 1 then "1.00" else "0.00")
        (Function.update (fun _ => none) 0x100 (some "checked by hand\nsee table 3".toList))
        [[⟨"adc", 0x10, 0x100, .data, .high, "vt_diff", 0, "", true⟩],
          [⟨"adc", 0x10, 0x100, .data, .high, "vt_diff", 1, "", true⟩]] 0x100 = some text ∧
      unmarkedLines text = ["checked by hand".toList, "see table 3".toList] ∧
      "rom-analyzer: source=vt_diff score=1.00 confidence=high".toList ∈ linesOf text := by
  have hline : ∀ run ∈ [[(⟨"adc", 0x10, 0x100, .data, .high, "vt_diff", 0, "", true⟩ :
      PropagatedSymbol)], [⟨"adc", 0x10, 0x100, .data, .high, "vt_diff", 1, "", true⟩]],
      ∀ s ∈ run, OneLine (fun q => if q = 1 then "1.00" else "0.00") s := by
    decide
  obtain ⟨-, hnoted, -⟩ := applyRuns_comments hline
    (Function.update (fun _ => none) 0x100 (some "checked by hand\nsee table 3".toList))
  obtain ⟨text, htext, hkept, hnote, -⟩ := hnoted 0x100
    "rom-analyzer: source=vt_diff score=1.00 confidence=high".toList (by decide)
  refine ⟨text, htext, ?_, hnote⟩
  rw [hkept]
  decide

end Runs

end RomAnalyzer.Ghidra
