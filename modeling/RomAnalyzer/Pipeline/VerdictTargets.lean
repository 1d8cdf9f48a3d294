import RomAnalyzer.Lib.Locations
import RomAnalyzer.Pipeline.ApplyEnrichment
import RomAnalyzer.Verdicts.Frame

/-!
# One target at a time

The targets of a reconcile file are taken in order, but each of them reads and writes its own
annotation file only. What a file holds afterwards is decided by the items about its own
reference, however the items of the others stand between them.
-/
namespace RomAnalyzer.Pipeline

open Lib
open AnnotationsIo (sortedByAddress)
open Enrich (ReconcileItem)

/-- The items about one target, in their order. -/
def itemsOf (items : List ReconcileItem) (tid : String) : List ReconcileItem :=
  items.filter fun it => it.target = tid

/-- No two registered references share an annotation file. -/
def PathsDistinct (byId : Dict String ReferenceEntry) : Prop :=
  ∀ tid tid' entry entry', byId.get? tid = some entry → byId.get? tid' = some entry' →
    entry.jsonPath = entry'.jsonPath → tid = tid'

theorem pathsDistinct_ofList {es : List (String × ReferenceEntry)}
    (h : (es.map fun e => e.2.jsonPath).Nodup) : PathsDistinct (Dict.ofList es) := by
  intro tid tid' entry entry' hget hget' hpath
  have hmem := Dict.mem_of_get?_ofList hget
  have hmem' := Dict.mem_of_get?_ofList hget'
  exact congrArg Prod.fst (List.inj_on_of_nodup_map h hmem hmem' hpath)

/-- What the verdicts of a target make of its file. -/
def targetStore (roms : Path → Option Bytes) (items : List ReconcileItem)
    (target : String × ReferenceEntry) (store : AnnotationStore) : AnnotationStore :=
  sortedByAddress (Cleanup.cleanUp (Enrich.applyVerdicts store (itemsOf items target.1) target.1).1
    (roms target.2.romPath))

/-- The targets that are registered, with their entries. -/
def registeredTargets (byId : Dict String ReferenceEntry) (items : List ReconcileItem) :
    List (String × ReferenceEntry) :=
  (verdictTargets items).filterMap fun tid => (byId.get? tid).map fun entry => (tid, entry)

/-- Every file is decided by the verdicts of its own target, in their order. -/
structure Separate (byId : Dict String ReferenceEntry) (roms : Path → Option Bytes)
    (items : List ReconcileItem) (before after : AnnotationFiles) : Prop where
  own : ∀ it ∈ items, ∀ entry, byId.get? it.target = some entry →
    after entry.jsonPath = targetStore roms items (it.target, entry) (before entry.jsonPath)
  others : ∀ path, (∀ it ∈ items, ∀ entry, byId.get? it.target = some entry →
    entry.jsonPath ≠ path) → after path = before path

theorem mem_verdictTargets {items : List ReconcileItem} {tid : String} :
    tid ∈ verdictTargets items ↔ ∃ it ∈ items, it.target = tid := by
  rw [verdictTargets, mem_sortBy, List.mem_dedup, List.mem_map]

/-- The verdicts of a target do not see the items of the others. -/
theorem applyVerdicts_itemsOf (store : AnnotationStore) (items : List ReconcileItem)
    (tid : String) :
    Enrich.applyVerdicts store (itemsOf items tid) tid = Enrich.applyVerdicts store items tid := by
  have heffective : (itemsOf items tid).filter (fun it => Enrich.Effective tid it) =
      items.filter fun it => Enrich.Effective tid it := by
    rw [itemsOf, List.filter_filter]
    apply List.filter_congr
    intro it _
    by_cases htarget : it.target = tid <;> simp [Enrich.Effective, htarget]
  rw [← Enrich.applyVerdicts_filter, heffective, Enrich.applyVerdicts_filter]

section Apply

variable (byId : Dict String ReferenceEntry) (roms : Path → Option Bytes)
  (items : List ReconcileItem)

theorem mem_registeredTargets {target : String × ReferenceEntry} :
    target ∈ registeredTargets byId items ↔
      (∃ it ∈ items, it.target = target.1) ∧ byId.get? target.1 = some target.2 := by
  rw [registeredTargets, List.mem_filterMap]
  constructor
  · rintro ⟨tid, htid, hentry⟩
    obtain ⟨entry, hget, rfl⟩ := Option.map_eq_some_iff.mp hentry
    exact ⟨mem_verdictTargets.mp htid, hget⟩
  · rintro ⟨hitem, hget⟩
    exact ⟨target.1, mem_verdictTargets.mpr hitem, by rw [hget]; rfl⟩

/-- The loop rewrites the files of the registered targets. -/
theorem applyEnrichment_eq (files : AnnotationFiles) :
    applyEnrichment byId roms items files =
      (registeredTargets byId items).foldl
        (rewriteStep (fun target => target.2.jsonPath) (targetStore roms items)) files := by
  unfold applyEnrichment registeredTargets
  induction verdictTargets items generalizing files with
  | nil => rfl
  | cons tid tids ih =>
    rw [List.foldl_cons, ih]
    cases hget : byId.get? tid with
    | none =>
      have hskip : applyTargetVerdicts byId roms items files tid = files := by
        rw [applyTargetVerdicts, hget]
      rw [List.filterMap_cons_none (by rw [hget]; rfl), hskip]
    | some entry =>
      have hstep : applyTargetVerdicts byId roms items files tid =
          rewriteStep (fun target : String × ReferenceEntry => target.2.jsonPath)
            (targetStore roms items) files (tid, entry) := by
        rw [applyTargetVerdicts, hget, rewriteStep, targetStore, applyVerdicts_itemsOf]
        rfl
      rw [List.filterMap_cons_some (by rw [hget]; rfl), List.foldl_cons, hstep]

variable {byId items}

theorem nodup_registeredTargets (h : PathsDistinct byId) :
    ((registeredTargets byId items).map fun target => target.2.jsonPath).Nodup := by
  have hpaths : (verdictTargets items).Pairwise fun tid tid' =>
      ∀ entry, byId.get? tid = some entry → ∀ entry', byId.get? tid' = some entry' →
        entry.jsonPath ≠ entry'.jsonPath := by
    have hnodup : (verdictTargets items).Nodup :=
      (sortBy_perm id _).nodup_iff.mpr (List.nodup_dedup _)
    apply List.Pairwise.imp _ hnodup
    intro tid tid' hne entry hget entry' hget' hpath
    exact hne (h tid tid' entry entry' hget hget' hpath)
  rw [List.Nodup, List.pairwise_map, registeredTargets, List.pairwise_filterMap]
  apply hpaths.imp
  intro tid tid' hne target htarget target' htarget'
  obtain ⟨entry, hget, rfl⟩ := Option.map_eq_some_iff.mp htarget
  obtain ⟨entry', hget', rfl⟩ := Option.map_eq_some_iff.mp htarget'
  exact hne entry hget entry' hget'

theorem separate_applyEnrichment (h : PathsDistinct byId) (files : AnnotationFiles) :
    Separate byId roms items files (applyEnrichment byId roms items files) where
  own := by
    intro it hit entry hget
    have hmem : (it.target, entry) ∈ registeredTargets byId items :=
      (mem_registeredTargets byId items).mpr ⟨⟨it, hit, rfl⟩, hget⟩
    rw [applyEnrichment_eq]
    exact foldl_rewriteStep_of_mem (nodup_registeredTargets h) hmem files
  others := by
    intro path hother
    rw [applyEnrichment_eq]
    apply foldl_rewriteStep_of_notMem
    intro hmem
    obtain ⟨target, htarget, hpath⟩ := List.mem_map.mp hmem
    obtain ⟨⟨it, hit, hid⟩, hget⟩ := (mem_registeredTargets byId items).mp htarget
    rw [← hid] at hget
    exact hother it hit target.2 hget hpath

end Apply

/-- A reconcile file rewrites the file of every registered target by that target's verdicts
alone and leaves all others as they are; two files in which each target has the same verdicts
in the same order give the same. -/
theorem applyEnrichment_separate {byId : Dict String ReferenceEntry} (h : PathsDistinct byId)
    (roms : Path → Option Bytes) (items : List ReconcileItem) (files : AnnotationFiles) :
    Separate byId roms items files (applyEnrichment byId roms items files) ∧
      ∀ items', (∀ tid, itemsOf items' tid = itemsOf items tid) →
        applyEnrichment byId roms items' files = applyEnrichment byId roms items files := by
  refine ⟨separate_applyEnrichment roms h files, fun items' hitems => ?_⟩
  have htargets : ∀ tid, (∃ it ∈ items', it.target = tid) ↔ ∃ it ∈ items, it.target = tid := by
    intro tid
    have hsome : ∀ its : List ReconcileItem,
        (∃ it ∈ its, it.target = tid) ↔ itemsOf its tid ≠ [] := by
      intro its
      rw [itemsOf, ne_eq, List.filter_eq_nil_iff]
      simp
    rw [hsome, hsome, hitems]
  have hregistered : (registeredTargets byId items').Perm (registeredTargets byId items) := by
    apply (List.perm_ext_iff_of_nodup ?_ ?_).mpr
    · intro target
      rw [mem_registeredTargets, mem_registeredTargets, htargets]
    · exact (nodup_registeredTargets h).of_map _
    · exact (nodup_registeredTargets h).of_map _
  have hstore : targetStore roms items' = targetStore roms items := by
    funext target store
    rw [targetStore, targetStore, hitems]
  funext path
  rw [applyEnrichment_eq, applyEnrichment_eq, hstore]
  by_cases hpath : path ∈ (registeredTargets byId items).map fun target => target.2.jsonPath
  · obtain ⟨target, htarget, rfl⟩ := List.mem_map.mp hpath
    rw [foldl_rewriteStep_of_mem (nodup_registeredTargets h) htarget,
      foldl_rewriteStep_of_mem (nodup_registeredTargets h) (hregistered.mem_iff.mpr htarget)]
  · have hpath' : path ∉ (registeredTargets byId items').map fun target => target.2.jsonPath :=
      fun hmem => hpath ((hregistered.map _).mem_iff.mp hmem)
    rw [foldl_rewriteStep_of_notMem hpath, foldl_rewriteStep_of_notMem hpath']

section Sample

def twoReferences : Dict String ReferenceEntry := Dict.ofList [
  ("colt", ⟨"colt", "reference/colt.json", "roms/colt.bin", "colt", "fp8000", 20, [], ""⟩),
  ("z27ag", ⟨"z27ag", "reference/z27ag.json", "roms/z27ag.bin", "z27ag", "fp8000", 10, [], ""⟩)]

def nameVerdict (tid name : String) : ReconcileItem where
  target := tid
  direction := .forward
  address := 0x1000
  category := .function
  current := none
  proposed := name
  source := "33520003"
  evidence := "callgraph_bfs"
  verdict := "proposed"

/-- Two verdicts about two references, in either order. -/
theorem applyEnrichment_separate_sample :
    let colt := nameVerdict "colt" "knock_control"
    let z27ag := nameVerdict "z27ag" "fuel_pump_update"
    let files : AnnotationFiles := fun path => ⟨1, path, "", [], [], [], []⟩
    Separate twoReferences (fun _ => none) [z27ag, colt] files
        (applyEnrichment twoReferences (fun _ => none) [z27ag, colt] files) ∧
      applyEnrichment twoReferences (fun _ => none) [colt, z27ag] files =
        applyEnrichment twoReferences (fun _ => none) [z27ag, colt] files := by
  intro colt z27ag files
  have hdistinct : PathsDistinct twoReferences := pathsDistinct_ofList (by decide)
  obtain ⟨hseparate, horder⟩ :=
    applyEnrichment_separate hdistinct (fun _ => none) [z27ag, colt] files
  refine ⟨hseparate, horder [colt, z27ag] fun tid => ?_⟩
  by_cases hcolt : "colt" = tid
  · subst hcolt
    rfl
  · have hskip : decide (colt.target = tid) = false := decide_eq_false hcolt
    rw [itemsOf, itemsOf, List.filter_cons, List.filter_cons, List.filter_cons, List.filter_cons,
      hskip]
    rfl

end Sample

end RomAnalyzer.Pipeline
