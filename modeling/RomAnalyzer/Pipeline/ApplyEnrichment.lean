import RomAnalyzer.AnnotationFiles
import RomAnalyzer.Lib.Loop
import RomAnalyzer.Verdicts

/-!
# Applying a reconcile file

The verdicts of a reconcile file go into the stores of their targets, one target
after the other. Every store is cleaned up and saved.
-/
namespace RomAnalyzer.Pipeline

open Lib
open Enrich (ReconcileItem)

/-- `sorted({it.target for it in items})` -/
def verdictTargets (items : List ReconcileItem) : List String :=
  sortBy id (items.map ReconcileItem.target).dedup

section Apply

variable (byId : Dict String ReferenceEntry) (roms : Path → Option Bytes)
variable (items : List ReconcileItem)

/-- One target. Its image is `none` if the file is missing. -/
def applyTargetVerdicts (files : AnnotationFiles) (tid : String) : AnnotationFiles :=
  match byId.get? tid with
  | none => files
  | some entry =>
    let applied := Enrich.applyVerdicts (files entry.jsonPath) items tid
    files.save entry.jsonPath (Cleanup.cleanUp applied.1 (roms entry.romPath))

def applyEnrichment (files : AnnotationFiles) : AnnotationFiles :=
  (verdictTargets items).foldl (applyTargetVerdicts byId roms items) files

variable {byId roms items}

theorem filesDistinct_applyTargetVerdicts {counted : String → Bool} (files : AnnotationFiles)
    (tid : String) (h : FilesDistinct counted files) :
    FilesDistinct counted (applyTargetVerdicts byId roms items files tid) := by
  unfold applyTargetVerdicts
  cases byId.get? tid with
  | none => exact h
  | some entry =>
    exact filesDistinct_save_cleanUp h _ _ _

theorem applyEnrichment_distinct {counted : String → Bool} {files : AnnotationFiles}
    (h : FilesDistinct counted files) :
    Along (applyTargetVerdicts byId roms items) files (verdictTargets items)
      (FilesDistinct counted) :=
  along_of_preserved filesDistinct_applyTargetVerdicts h _

end Apply

end RomAnalyzer.Pipeline
