import RomAnalyzer.Pipeline.PostMatch
import RomAnalyzer.Pipeline.Provenance

/-!
# The analyze command

One run imports the target ROM, matches every selected reference in one shared
context, and merges the results. Whether the target is the reference's own ROM
is decided once, for the first reference, and kept in that context.
-/
namespace RomAnalyzer.Pipeline

open Lib
open Ghidra (HeadlessRun)

/-- The target ROM and its import. -/
structure Target where
  romPath : Path
  romBytes : Bytes
  newRun : HeadlessRun
  newProgName : String := ""

/-- The selection of a run, which is never empty. -/
structure Selection where
  primary : SelectedReference
  others : List SelectedReference

def Selection.all (sel : Selection) : List SelectedReference := sel.primary :: sel.others

/-- `{e.id: e.priority for e in selected}` -/
def Selection.priority (sel : Selection) : Merge.Priority :=
  Dict.ofList (sel.all.map fun r => (r.entry.id, r.entry.priority))

section Analyze

variable (resolve : Path → Path) (target : Target) (sel : Selection)
  (emitMode23 : Bool) (minFlashBlock : Nat)

/-- The target's own ROM, as the file system resolves the paths. -/
def OwnRom (entry : ReferenceEntry) : Prop := resolve target.romPath = resolve entry.romPath

instance (entry : ReferenceEntry) : Decidable (OwnRom resolve target entry) :=
  inferInstanceAs (Decidable (_ = _))

def analyzeContext : RomContext where
  romPath := target.romPath
  romBytes := target.romBytes
  targetFamily := sel.primary.entry.family
  isSelfDiff := OwnRom resolve target sel.primary.entry
  emitMode23 := emitMode23
  minFlashBlock := minFlashBlock

/-- The results of all references, each matched in the shared context. -/
def analyzeResults : List ReferenceMatchResult :=
  sel.all.map (matchReference (analyzeContext resolve target sel emitMode23 minFlashBlock)
    target.newRun)

def analyzeMerged : MergeResult :=
  arbitrateReferences (analyzeResults resolve target sel emitMode23 minFlashBlock) sel.priority

/-- The single-source passes use the primary reference. -/
def analyzeKline (queries : ProgramQueries) : Option String :=
  klineLine queries (analyzeContext resolve target sel emitMode23 minFlashBlock)
    target.newProgName (analyzeMerged resolve target sel emitMode23 minFlashBlock)
    sel.primary.entry (AnnotationsIo.loadReferenceSymbols sel.primary.store) sel.primary.refRun

variable {resolve target sel emitMode23 minFlashBlock}

theorem mem_analyzeResults {r : ReferenceMatchResult} :
    r ∈ analyzeResults resolve target sel emitMode23 minFlashBlock ↔
      ∃ ref ∈ sel.all, matchReference
        (analyzeContext resolve target sel emitMode23 minFlashBlock) target.newRun ref = r :=
  List.mem_map

theorem analyzeContext_isSelfDiff :
    (analyzeContext resolve target sel emitMode23 minFlashBlock).isSelfDiff = true ↔
      OwnRom resolve target sel.primary.entry :=
  decide_eq_true_iff

end Analyze

/-- Only references of the target's own ROM go down the identity path, exactly when
the primary is none of them or no other reference has annotations to copy. -/
theorem analyze_identityPath_iff (resolve : Path → Path) (target : Target) (sel : Selection)
    (emitMode23 : Bool) (minFlashBlock : Nat) :
    (∀ r ∈ analyzeResults resolve target sel emitMode23 minFlashBlock,
      ¬ OwnRom resolve target r.entry → ¬ UsesIdentityPath r) ↔
    (OwnRom resolve target sel.primary.entry →
      ∀ ref ∈ sel.others, ¬ OwnRom resolve target ref.entry →
        ¬ HasCopyable target.newRun ref.store) := by
  constructor
  · intro h hown ref href hother hcopy
    refine h _ (mem_analyzeResults.mpr ⟨ref, List.mem_cons_of_mem _ href, rfl⟩) hother ?_
    exact usesIdentityPath_iff.mpr ⟨analyzeContext_isSelfDiff.mpr hown, hcopy⟩
  · intro h r hr hother huse
    obtain ⟨ref, href, rfl⟩ := mem_analyzeResults.mp hr
    obtain ⟨hself, hcopy⟩ := usesIdentityPath_iff.mp huse
    have hown := analyzeContext_isSelfDiff.mp hself
    rcases List.mem_cons.mp href with rfl | href
    · exact hother hown
    · exact h hown ref href hother hcopy

section Colt

/-- The ROM of the first reference is analysed next to a second reference. -/
def coltTarget : Target where
  romPath := "roms/colt.bin"
  romBytes := []
  newRun := {}

def coltSelection : Selection where
  primary := {
    entry := ⟨"colt", "reference/colt.json", "roms/colt.bin", "colt", "fp8000", 20, [], ""⟩
    store := ⟨1, "colt", "", [], [], [], []⟩
    refRun := some {}
    refBytes := []
    vtAssociations := [] }
  others := [{
    entry := ⟨"z27ag", "reference/z27ag.json", "roms/z27ag.bin", "z27ag", "fp8000", 10, [], ""⟩
    store := ⟨1, "z27ag", "", [], [{ name := "knock_control", entryPoint := 0x1000 }], [], []⟩
    refRun := some {}
    refBytes := []
    vtAssociations := [] }]

/-- Analysing the primary's own ROM next to a second reference copies the second
reference's addresses. -/
theorem second_reference_uses_identityPath :
    ¬ ∀ r ∈ analyzeResults id coltTarget coltSelection false 64,
      ¬ OwnRom id coltTarget r.entry → ¬ UsesIdentityPath r := by
  intro h
  have hcopied : ∃ r ∈ analyzeResults id coltTarget coltSelection false 64,
      ¬ OwnRom id coltTarget r.entry ∧ r.matches_ =
        [⟨"knock_control", 0x1000, 0x1000, 1, "identity", "z27ag"⟩] := by
    decide +kernel
  obtain ⟨r, hr, hother, hmatches⟩ := hcopied
  exact h r hr hother (Or.inl ⟨_, by rw [hmatches]; exact List.mem_singleton_self _, rfl⟩)

end Colt

end RomAnalyzer.Pipeline
