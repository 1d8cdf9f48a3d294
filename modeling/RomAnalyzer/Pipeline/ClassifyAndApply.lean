import RomAnalyzer.AnnotationFiles
import RomAnalyzer.Consensus
import RomAnalyzer.Lib.Loop
import RomAnalyzer.Pipeline.Arbitrate
import RomAnalyzer.Verdicts

/-!
# The enrichment run

Candidates of all cross-matches are merged and classified target by target.
Automatic ones go into the stores of their targets, which are then cleaned up and
saved; the rest becomes the reconcile file.
-/
namespace RomAnalyzer.Pipeline

open Lib
open Cleanup (cleanUp erasedAt)
open Enrich (LabelCandidate ReconcileItem classify gatherCandidates lane mergeCandidates)
open Merge (Priority)

/-! ### The run -/

/-- The arguments of `classify_and_apply`, and the files that it reads. -/
structure EnrichRun where
  results : List ReferenceMatchResult
  newEntry : ReferenceEntry
  newFnNames : Dict Nat String
  byId : Dict String ReferenceEntry
  priority : Priority
  romBytes : Bytes
  roms : Path → Bytes
  files : AnnotationFiles

namespace EnrichRun

variable (run : EnrichRun)

/-- `{f.entry_point: f.name for f in ref_store.functions}` -/
def refFnNames (ref : ReferenceEntry) : Dict Nat String :=
  Dict.ofList ((run.files ref.jsonPath).functions.map fun f => (f.entryPoint, f.name))

def resultCandidates (result : ReferenceMatchResult) : List LabelCandidate :=
  gatherCandidates run.newEntry.id result.entry.id run.newFnNames (run.refFnNames result.entry)
    result.matches_

def allCandidates : List LabelCandidate := run.results.flatMap run.resultCandidates

def mergedCandidates : List LabelCandidate := mergeCandidates run.allCandidates run.priority

/-- The entry whose image and store a target has; a target outside the registry has none. -/
def targetEntry (tid : String) : Option ReferenceEntry :=
  if tid = run.newEntry.id then some run.newEntry else run.byId.get? tid

/-- The function entries of a reference that land in erased flash. -/
def erasedAddrs (entry : ReferenceEntry) : Finset Nat :=
  (((run.files entry.jsonPath).functions.map AnnotationFunction.entryPoint).filter fun addr =>
    erasedAt (run.roms entry.romPath) addr).toFinset

def erasedByTarget (tid : String) : Finset Nat :=
  match run.targetEntry tid with
  | some entry => run.erasedAddrs entry
  | none => ∅

def classified : List Enrich.Classified :=
  (Dict.groupBy LabelCandidate.target run.mergedCandidates).entries.map fun group =>
    classify group.2 (run.erasedByTarget group.1) (some run.priority)

def autoAll : List LabelCandidate := run.classified.flatMap Enrich.Classified.auto

def reviewAll : List LabelCandidate := run.classified.flatMap Enrich.Classified.review

def autoByTarget : List (String × List LabelCandidate) :=
  (Dict.groupBy LabelCandidate.target run.autoAll).entries

end EnrichRun

/-! ### Writing the automatic candidates -/

/-- The function that a candidate adds to a store. -/
def appendedFunction (c : LabelCandidate) : AnnotationFunction where
  name := c.proposed
  entryPoint := c.address
  confidence := .medium
  source := "xref:" ++ c.source

/-- One candidate: added unless the store has a function at its address by now. -/
def appendFunction (st : AnnotationStore × Nat) (c : LabelCandidate) : AnnotationStore × Nat :=
  if c.address ∈ st.1.functions.map AnnotationFunction.entryPoint then st
  else ({ st.1 with functions := st.1.functions ++ [appendedFunction c] }, st.2 + 1)

/-- The store with the functions it lacked, and their number. -/
def appendFunctions (store : AnnotationStore) (cands : List LabelCandidate) :
    AnnotationStore × Nat :=
  cands.foldl appendFunction (store, 0)

def renameItem (tid : String) (c : LabelCandidate) : ReconcileItem where
  target := tid
  direction := c.direction
  address := c.address
  category := c.category
  current := c.current
  proposed := c.proposed
  source := c.source
  evidence := c.evidence
  verdict := "proposed"

def gapCands (cands : List LabelCandidate) : List LabelCandidate :=
  cands.filter fun c => c.current = none

def renameCands (cands : List LabelCandidate) : List LabelCandidate :=
  cands.filter fun c => c.current ≠ none

/-- A target's store after its gap fills and renames, and the number of changes. -/
def autoStore (store : AnnotationStore) (tid : String) (cands : List LabelCandidate) :
    AnnotationStore × Nat :=
  let appended := appendFunctions store (gapCands cands)
  let renamed := Enrich.applyVerdicts appended.1 ((renameCands cands).map (renameItem tid)) tid
  (renamed.1, appended.2 + renamed.2)

structure AutoState where
  files : AnnotationFiles
  totalAutoApplied : Nat

namespace EnrichRun

variable (run : EnrichRun)

def targetRom (tid : String) (entry : ReferenceEntry) : Bytes :=
  if tid = run.newEntry.id then run.romBytes else run.roms entry.romPath

/-- One target: its store is saved only if something changed. -/
def applyTarget (st : AutoState) (group : String × List LabelCandidate) : AutoState :=
  match run.byId.get? group.1 with
  | none => st
  | some entry =>
    let applied := autoStore (st.files entry.jsonPath) group.1 group.2
    { files :=
        if applied.2 = 0 then st.files
        else
          st.files.save entry.jsonPath (cleanUp applied.1 (some (run.targetRom group.1 entry)))
      totalAutoApplied := st.totalAutoApplied + applied.2 }

end EnrichRun

/-- The files that a run leaves, and what it reports. -/
structure EnrichOutcome where
  files : AnnotationFiles
  totalAutoApplied : Nat
  reconcileName : String
  items : List ReconcileItem

def classifyAndApply (run : EnrichRun) : EnrichOutcome :=
  let st := run.autoByTarget.foldl run.applyTarget ⟨run.files, 0⟩
  { files := st.files
    totalAutoApplied := st.totalAutoApplied
    reconcileName := run.newEntry.id ++ ".reconcile.toml"
    items := Enrich.buildReconcileItems run.reviewAll run.priority }

/-- Whatever a target's candidates did to its store, what is saved has unique names. -/
theorem filesDistinct_applyTarget {counted : String → Bool} {run : EnrichRun} (st : AutoState)
    (group : String × List LabelCandidate) (h : FilesDistinct counted st.files) :
    FilesDistinct counted (run.applyTarget st group).files := by
  unfold EnrichRun.applyTarget
  cases run.byId.get? group.1 with
  | none => exact h
  | some entry =>
    show FilesDistinct counted (if _ then _ else _)
    split
    · exact h
    · exact filesDistinct_save_cleanUp h _ _ _

theorem classifyAndApply_distinct {counted : String → Bool} {run : EnrichRun}
    (h : FilesDistinct counted run.files) :
    Along run.applyTarget ⟨run.files, 0⟩ run.autoByTarget fun st =>
      FilesDistinct counted st.files :=
  along_of_preserved filesDistinct_applyTarget h _

/-! ### Candidates and lanes -/

section Candidates

variable {run : EnrichRun}

theorem mem_allCandidates {c : LabelCandidate} :
    c ∈ run.allCandidates ↔ ∃ r ∈ run.results, c ∈ run.resultCandidates r :=
  List.mem_flatMap

/-- Every candidate of a run is about a function. -/
theorem allCandidates_function {c : LabelCandidate} (h : c ∈ run.allCandidates) :
    c.category = .function := by
  obtain ⟨r, _, hc⟩ := mem_allCandidates.mp h
  obtain ⟨m, _, hforward | hback⟩ := Enrich.mem_gatherCandidates.mp hc
  · exact (Enrich.forwardCandidate_spec hforward).2.2
  · exact (Enrich.backCandidate_spec hback).2.2

theorem mergedCandidates_function {c : LabelCandidate} (h : c ∈ run.mergedCandidates) :
    c.category = .function := by
  obtain ⟨c', hc', hkey⟩ := Enrich.key_mem_mergeCandidates_iff.mp ⟨c, h, rfl⟩
  have hcategory : c'.category = c.category := congrArg (fun key => key.2.2) hkey
  exact hcategory ▸ allCandidates_function hc'

/-- The cross-matches of a run over references of distinct ids, each matched
one-to-one. -/
def EnrichRun.crossMatches (run : EnrichRun)
    (ids : (run.newEntry.id :: run.results.map fun r => r.entry.id).Nodup)
    (oneToOne : ∀ r ∈ run.results, (r.matches_.map MatchedFunction.refAddress).Nodup ∧
      (r.matches_.map MatchedFunction.newAddress).Nodup) : Enrich.CrossMatches where
  newId := run.newEntry.id
  newFnNames := run.newFnNames
  results := run.results.map fun r => ⟨r.entry.id, run.refFnNames r.entry, r.matches_⟩
  ids := by
    rw [List.map_map]
    exact ids
  oneToOne := by
    intro x hx
    obtain ⟨r, hr, rfl⟩ := List.mem_map.mp hx
    exact oneToOne r hr

/-- What an enrichment run goes on with is the consensus of its references. -/
theorem mergedCandidates_consensus
    (ids : (run.newEntry.id :: run.results.map fun r => r.entry.id).Nodup)
    (oneToOne : ∀ r ∈ run.results, (r.matches_.map MatchedFunction.refAddress).Nodup ∧
      (r.matches_.map MatchedFunction.newAddress).Nodup) {c : LabelCandidate}
    (h : c ∈ run.mergedCandidates) : Enrich.Consensus run.priority run.allCandidates c := by
  have hgathered : (run.crossMatches ids oneToOne).gathered = run.allCandidates := by
    unfold Enrich.CrossMatches.gathered Enrich.gatherAll EnrichRun.crossMatches
    rw [List.flatMap_map]
    rfl
  have hvotes := (run.crossMatches ids oneToOne).oneVoteEach
  rw [hgathered] at hvotes
  exact hvotes.consensus h

/-- The classified groups are the merged candidates of their targets. -/
theorem mem_classified {cl : Enrich.Classified} :
    cl ∈ run.classified ↔ ∃ c ∈ run.mergedCandidates,
      cl = classify (run.mergedCandidates.filter fun x => x.target = c.target)
        (run.erasedByTarget c.target) (some run.priority) := by
  constructor
  · intro h
    obtain ⟨group, hgroup, rfl⟩ := List.mem_map.mp h
    obtain ⟨hfilter, c, hc, hkey⟩ := (Dict.mem_entries_groupBy _ _ _ _).mp hgroup
    refine ⟨c, hc, ?_⟩
    rw [hfilter, ← hkey]
  · intro h
    obtain ⟨c, hc, rfl⟩ := h
    exact List.mem_map.mpr ⟨(c.target, _),
      (Dict.mem_entries_groupBy _ _ _ _).mpr ⟨rfl, c, hc, rfl⟩, rfl⟩

/-- What is collected from one lane of all groups are the merged candidates that
`classify` puts there. -/
theorem mem_flatMap_classified {l : Enrich.Lane} {collect : Enrich.Classified → List LabelCandidate}
    (hcollect : ∀ cands erased priority, collect (classify cands erased priority) =
      cands.filter fun c => lane erased priority c = l) {c : LabelCandidate} :
    c ∈ run.classified.flatMap collect ↔ c ∈ run.mergedCandidates ∧
      lane (run.erasedByTarget c.target) (some run.priority) c = l := by
  rw [List.mem_flatMap]
  constructor
  · intro h
    obtain ⟨cl, hcl, hc⟩ := h
    obtain ⟨c', _, rfl⟩ := mem_classified.mp hcl
    rw [hcollect] at hc
    obtain ⟨hgroup, hlane⟩ := List.mem_filter.mp hc
    obtain ⟨hmem, htarget⟩ := List.mem_filter.mp hgroup
    rw [decide_eq_true_eq] at hlane htarget
    rw [htarget]
    exact ⟨hmem, hlane⟩
  · intro h
    obtain ⟨hmem, hlane⟩ := h
    refine ⟨_, mem_classified.mpr ⟨c, hmem, rfl⟩, ?_⟩
    rw [hcollect]
    refine List.mem_filter.mpr ⟨List.mem_filter.mpr ⟨hmem, ?_⟩, ?_⟩
    · exact decide_eq_true rfl
    · exact decide_eq_true hlane

theorem mem_autoAll {c : LabelCandidate} :
    c ∈ run.autoAll ↔ c ∈ run.mergedCandidates ∧
      lane (run.erasedByTarget c.target) (some run.priority) c = .auto :=
  mem_flatMap_classified fun _ _ _ => rfl

theorem mem_reviewAll {c : LabelCandidate} :
    c ∈ run.reviewAll ↔ c ∈ run.mergedCandidates ∧
      lane (run.erasedByTarget c.target) (some run.priority) c = .review :=
  mem_flatMap_classified fun _ _ _ => rfl

end Candidates

/-! ### Erased flash -/

section Erased

/-- The image of the target is erased at the address. -/
def ErasedInTarget (run : EnrichRun) (tid : String) (addr : Nat) : Prop :=
  ∃ entry, run.targetEntry tid = some entry ∧ erasedAt (run.roms entry.romPath) addr = true

/-- The target's store has a function at the address. -/
def HasEntry (run : EnrichRun) (tid : String) (addr : Nat) : Prop :=
  ∃ entry, run.targetEntry tid = some entry ∧
    addr ∈ (run.files entry.jsonPath).functions.map AnnotationFunction.entryPoint

/-- No candidate in erased flash passes the classification, because the erased set of
its target has the address. -/
structure DropsErased (run : EnrichRun) : Prop where
  covered : ∀ c ∈ run.mergedCandidates, c.category = .function →
    ErasedInTarget run c.target c.address → c.address ∈ run.erasedByTarget c.target
  not_applied : ∀ c ∈ run.autoAll, c.category = .function →
    ¬ ErasedInTarget run c.target c.address
  not_reviewed : ∀ c ∈ run.reviewAll, c.category = .function →
    ¬ ErasedInTarget run c.target c.address

variable {run : EnrichRun}

/-- The erased set ranges over the functions that the store has. -/
theorem mem_erasedByTarget {tid : String} {addr : Nat} :
    addr ∈ run.erasedByTarget tid ↔ ErasedInTarget run tid addr ∧ HasEntry run tid addr := by
  unfold EnrichRun.erasedByTarget ErasedInTarget HasEntry
  cases run.targetEntry tid with
  | none => simp
  | some entry =>
    simp only [EnrichRun.erasedAddrs, List.mem_toFinset, List.mem_filter, Option.some.injEq,
      exists_eq_left']
    exact and_comm

theorem lane_erased {erased : Finset Nat} {priority : Option Priority} {c : LabelCandidate}
    (hfunction : c.category = .function) (herased : c.address ∈ erased) :
    lane erased priority c = .skip := by
  simp [lane, hfunction, herased]

/-- What the erased set covers is neither applied nor reviewed. -/
theorem dropsErased_iff_covered :
    DropsErased run ↔ ∀ c ∈ run.mergedCandidates, ErasedInTarget run c.target c.address →
      HasEntry run c.target c.address := by
  constructor
  · intro h c hc herased
    exact (mem_erasedByTarget.mp (h.covered c hc (mergedCandidates_function hc) herased)).2
  · intro h
    have hcovered : ∀ c ∈ run.mergedCandidates, ErasedInTarget run c.target c.address →
        c.address ∈ run.erasedByTarget c.target :=
      fun c hc herased => mem_erasedByTarget.mpr ⟨herased, h c hc herased⟩
    refine ⟨fun c hc _ => hcovered c hc, ?_, ?_⟩
    · intro c hc hfunction herased
      obtain ⟨hmerged, hlane⟩ := mem_autoAll.mp hc
      rw [lane_erased hfunction (hcovered c hmerged herased)] at hlane
      cases hlane
    · intro c hc hfunction herased
      obtain ⟨hmerged, hlane⟩ := mem_reviewAll.mp hc
      rw [lane_erased hfunction (hcovered c hmerged herased)] at hlane
      cases hlane

/-- The merged candidates are about the addresses that the matches carry a name to. -/
theorem exists_merged_iff {tid : String} {addr : Nat} :
    (∃ c ∈ run.mergedCandidates, c.target = tid ∧ c.address = addr) ↔
      ∃ r ∈ run.results, ∃ m ∈ r.matches_,
        (Enrich.forwardName run.newFnNames (run.refFnNames r.entry) m ≠ none ∧
          run.newEntry.id = tid ∧ m.newAddress = addr) ∨
        (Enrich.backName run.newFnNames (run.refFnNames r.entry) m ≠ none ∧
          r.entry.id = tid ∧ m.refAddress = addr) := by
  rw [EnrichRun.mergedCandidates, Enrich.exists_mem_mergeCandidates_iff]
  constructor
  · intro h
    obtain ⟨c, hc, rfl, rfl⟩ := h
    obtain ⟨r, hr, hc⟩ := mem_allCandidates.mp hc
    obtain ⟨m, hm, hforward | hback⟩ := Enrich.mem_gatherCandidates.mp hc
    · obtain ⟨name, hname, rfl⟩ := Option.map_eq_some_iff.mp hforward
      exact ⟨r, hr, m, hm, Or.inl ⟨Option.ne_none_iff_exists'.mpr ⟨name, hname⟩, rfl, rfl⟩⟩
    · obtain ⟨name, hname, rfl⟩ := Option.map_eq_some_iff.mp hback
      exact ⟨r, hr, m, hm, Or.inr ⟨Option.ne_none_iff_exists'.mpr ⟨name, hname⟩, rfl, rfl⟩⟩
  · intro h
    obtain ⟨r, hr, m, hm, ⟨hname, rfl, rfl⟩ | ⟨hname, rfl, rfl⟩⟩ := h
    · obtain ⟨name, hname⟩ := Option.ne_none_iff_exists'.mp hname
      refine ⟨_, mem_allCandidates.mpr ⟨r, hr, Enrich.mem_gatherCandidates.mpr
        ⟨m, hm, Or.inl (Option.map_eq_some_iff.mpr ⟨name, hname, rfl⟩)⟩⟩, rfl, rfl⟩
    · obtain ⟨name, hname⟩ := Option.ne_none_iff_exists'.mp hname
      refine ⟨_, mem_allCandidates.mpr ⟨r, hr, Enrich.mem_gatherCandidates.mpr
        ⟨m, hm, Or.inr (Option.map_eq_some_iff.mpr ⟨name, hname, rfl⟩)⟩⟩, rfl, rfl⟩

/-- Candidates in erased flash are dropped exactly when every match that carries a
name to an erased address meets a function entry there. -/
theorem classifyAndApply_dropsErased_iff (run : EnrichRun) :
    DropsErased run ↔ ∀ r ∈ run.results, ∀ m ∈ r.matches_,
      (Enrich.forwardName run.newFnNames (run.refFnNames r.entry) m ≠ none →
        ErasedInTarget run run.newEntry.id m.newAddress →
          HasEntry run run.newEntry.id m.newAddress) ∧
      (Enrich.backName run.newFnNames (run.refFnNames r.entry) m ≠ none →
        ErasedInTarget run r.entry.id m.refAddress → HasEntry run r.entry.id m.refAddress) := by
  rw [dropsErased_iff_covered]
  constructor
  · intro h r hr m hm
    constructor
    · intro hname herased
      obtain ⟨c, hc, htarget, haddr⟩ :=
        exists_merged_iff.mpr ⟨r, hr, m, hm, Or.inl ⟨hname, rfl, rfl⟩⟩
      rw [← htarget, ← haddr] at herased ⊢
      exact h c hc herased
    · intro hname herased
      obtain ⟨c, hc, htarget, haddr⟩ :=
        exists_merged_iff.mpr ⟨r, hr, m, hm, Or.inr ⟨hname, rfl, rfl⟩⟩
      rw [← htarget, ← haddr] at herased ⊢
      exact h c hc herased
  · intro h c hc herased
    obtain ⟨r, hr, m, hm, ⟨hname, htarget, haddr⟩ | ⟨hname, htarget, haddr⟩⟩ :=
      exists_merged_iff.mp ⟨c, hc, rfl, rfl⟩
    · rw [← htarget, ← haddr] at herased ⊢
      exact (h r hr m hm).1 hname herased
    · rw [← htarget, ← haddr] at herased ⊢
      exact (h r hr m hm).2 hname herased

end Erased

/-- A registry of two: the new reference, whose image is erased from `8` on, and one
with two functions that match there. -/
def blankAreaRun : EnrichRun where
  results := [bareResult "33520003"
    [⟨"", 0x100, 0x8, 1, "vt_diff", "33520003"⟩, ⟨"", 0x200, 0x10, 1, "vt_diff", "33520003"⟩] []]
  newEntry := (bareResult "39670016" [] []).entry
  newFnNames := Dict.empty
  byId := Dict.ofList [("33520003", (bareResult "33520003" [] []).entry),
    ("39670016", (bareResult "39670016" [] []).entry)]
  priority := Dict.ofList [("33520003", 100), ("39670016", 90)]
  romBytes := List.replicate 8 0 ++ List.replicate 16 0xFF
  roms := fun path => if path = "39670016.bin" then
    List.replicate 8 0 ++ List.replicate 16 0xFF else []
  files := fun path => {
    schemaVersion := 1
    romId := path
    romSha256 := ""
    functions := if path = "33520003.json" then
      [{ name := "can0_slot11_rx_update", entryPoint := 0x100 },
        { name := "out", entryPoint := 0x200 }] else [] }

/-- The new reference has no functions yet, so nothing is erased for it: one candidate
in the blank area is applied, the other goes to review. -/
theorem blank_area_candidates_pass :
    blankAreaRun.erasedByTarget "39670016" = ∅ ∧
      blankAreaRun.autoAll.map (fun c => (c.address, c.proposed)) =
        [(0x8, "can0_slot11_rx_update")] ∧
      (classifyAndApply blankAreaRun).items.map (fun i => (i.address, i.proposed)) =
        [(0x10, "out")] ∧
      ¬ DropsErased blankAreaRun := by
  have herased : blankAreaRun.erasedByTarget "39670016" = ∅ := by decide +kernel
  have hauto : blankAreaRun.autoAll.map (fun c => (c.address, c.proposed)) =
      [(0x8, "can0_slot11_rx_update")] := by decide +kernel
  refine ⟨herased, hauto, by decide +kernel, fun h => ?_⟩
  have hmem : (0x8, "can0_slot11_rx_update") ∈
      blankAreaRun.autoAll.map fun c => (c.address, c.proposed) := by
    rw [hauto]
    exact List.mem_singleton_self _
  obtain ⟨c, hc, hcand⟩ := List.mem_map.mp hmem
  obtain ⟨hmerged, _⟩ := mem_autoAll.mp hc
  have haddr : c.address = 0x8 := congrArg Prod.fst hcand
  have htarget : ∀ c ∈ blankAreaRun.mergedCandidates, c.target = "39670016" := by decide +kernel
  refine h.not_applied c hc (mergedCandidates_function hmerged) ?_
  rw [htarget c hmerged, haddr]
  exact ⟨blankAreaRun.newEntry, rfl, by decide +kernel⟩

end RomAnalyzer.Pipeline
