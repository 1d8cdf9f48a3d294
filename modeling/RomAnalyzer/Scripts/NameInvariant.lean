import RomAnalyzer.Pipeline.ApplyEnrichment
import RomAnalyzer.Pipeline.ClassifyAndApply
import RomAnalyzer.Scripts.BuildReference
import RomAnalyzer.Scripts.CheckReferenceNames
import RomAnalyzer.Scripts.EnrichApply

/-!
# Distinct names in every reference file

Four writers produce reference files. Three of them end with a clean-up; the naming
rounds save what they wrote.
-/
namespace RomAnalyzer.Scripts

open Lib
open Enrich (ReconcileItem)
open Pipeline (EnrichRun applyTargetVerdicts verdictTargets)

/-- From files with distinct names, every file that one of the four writers leaves has
distinct names exactly when each batch of the naming round proposes names that stand
apart in the file it goes to. The states are those of the loops of `classifyAndApply`,
`applyEnrichment` and `applyHigh`. The names that count are a parameter: all of them,
or those that the name check compares. -/
theorem writers_keepNamesDistinct_iff (counted : String → Bool)
    (run : EnrichRun)
    (byId : Dict String ReferenceEntry) (roms : Path → Option Bytes) (items : List ReconcileItem)
    (reconciled : AnnotationFiles)
    (src : ParsedSources) (romId romSha256 : String) (romBytes : Option Bytes)
    (jsonPaths : Dict String Path) (present : Path → Bool) (results : List HighResult)
    (named : AnnotationFiles)
    (hrun : FilesDistinct counted run.files) (hreconciled : FilesDistinct counted reconciled)
    (hnamed : FilesDistinct counted named) :
    (Along run.applyTarget ⟨run.files, 0⟩ run.autoByTarget
          (fun st => FilesDistinct counted st.files) ∧
        Along (applyTargetVerdicts byId roms items) reconciled (verdictTargets items)
          (FilesDistinct counted) ∧
        NamesDistinct counted (buildStore src romId romSha256 romBytes) ∧
        Along (applyBatch jsonPaths present) named (highBatches results)
          (FilesDistinct counted)) ↔
      AtSteps (applyBatch jsonPaths present) named (highBatches results) fun files batch =>
        ∀ path ∈ batchPath jsonPaths present batch, StandsApart counted (files path) batch := by
  rw [← along_iff_atSteps (filesDistinct_applyBatch_iff jsonPaths present) hnamed]
  constructor
  · exact fun h => h.2.2.2
  · intro h
    refine ⟨Pipeline.classifyAndApply_distinct hrun,
      Pipeline.applyEnrichment_distinct hreconciled, ?_, h⟩
    exact namesDistinct_of_unique (Cleanup.cleanUp_unique _ _) counted

/-- A store with one function and one variable. -/
def tachoStore : AnnotationStore where
  schemaVersion := 1
  romId := "33520003"
  romSha256 := ""
  symbols := [{ name := "tacho_state", address := 0x804000, category := .ramGlobal }]
  functions := [{ name := "tacho_set", entryPoint := 0x1000 }]

def tachoPaths : Dict String Path := Dict.ofList [("33520003", "33520003.json")]

def tachoEntry : ReferenceEntry := (Pipeline.bareResult "33520003" [] []).entry

/-- A run that reads the store everywhere and has no matches. -/
def quietRun : EnrichRun where
  results := []
  newEntry := tachoEntry
  newFnNames := Dict.empty
  byId := Dict.empty
  priority := Dict.empty
  romBytes := []
  roms := fun _ => []
  files := fun _ => tachoStore

/-- A round that names one more function. -/
theorem distinct_after_new_name :
    Along (applyBatch tachoPaths fun _ => true) (fun _ => tachoStore)
      (highBatches [⟨"33520003", false, 0x2000, "tacho_reset", none, none⟩])
      (FilesDistinct checkedName) := by
  have hnames : NamesDistinct checkedName tachoStore := by decide
  have hstore : FilesDistinct checkedName fun _ => tachoStore := fun _ => hnames
  have hbatches : highBatches [⟨"33520003", false, 0x2000, "tacho_reset", none, none⟩] =
      [⟨.function, "33520003", [⟨"33520003", false, 0x2000, "tacho_reset", none, none⟩]⟩] := rfl
  refine ((writers_keepNamesDistinct_iff checkedName quietRun Dict.empty (fun _ => none) []
    (fun _ => tachoStore) ⟨none, none, none, none⟩ "" "" none tachoPaths (fun _ => true)
    [⟨"33520003", false, 0x2000, "tacho_reset", none, none⟩] (fun _ => tachoStore)
    hstore hstore hstore).mpr ?_).2.2.2
  rw [hbatches, atSteps_singleton]
  intro path _
  show StandsApart checkedName tachoStore _
  exact ⟨by decide +kernel, by decide +kernel⟩

/-- The model proposes a name that the store already has: the saved file holds it twice,
and the name check objects. -/
theorem naming_round_repeats_name :
    let results : List HighResult := [⟨"33520003", false, 0x2000, "tacho_set", none, none⟩]
    let saved := applyHigh tachoPaths (fun _ => true) results (fun _ => tachoStore) "33520003.json"
    NamesDistinct (fun _ => true) tachoStore ∧
      saved.functions.map (fun f => (f.entryPoint, f.name)) =
        [(0x1000, "tacho_set"), (0x2000, "tacho_set")] ∧
      checkFile "33520003.json" saved =
        ["33520003.json: duplicate functions name 'tacho_set'"] ∧
      ¬ NamesDistinct (fun _ => true) saved := by
  decide +kernel

end RomAnalyzer.Scripts
