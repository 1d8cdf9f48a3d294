import RomAnalyzer.Lib.Ranked
import RomAnalyzer.Types

/-!
# Reference entries

The rows of the registry, and which of them a run takes. Paths are opaque; the operating
system resolves them.
-/
namespace RomAnalyzer

open Lib

abbrev Path := String

structure ReferenceEntry where
  id : String
  jsonPath : Path
  romPath : Path
  family : String
  variant : String
  priority : Int
  features : List String := []
  notes : String := ""
  deriving DecidableEq, Repr

/-- One `[[reference]]` table of `registry.toml`. -/
structure RawReference where
  id : String
  json : String
  rom : String
  family : String
  variant : String
  priority : Option Int := none
  features : Option (List String) := none
  notes : Option String := none

/-- Where the registry lies: the annotations by its side, the images under `roms/`. -/
structure RegistryPaths where
  referenceDir : String → Path
  romsDir : String → Path
  present : Path → Bool

/-- A row without annotations is an error, one without an image is not. -/
def loadEntry (paths : RegistryPaths) (raw : RawReference) : Except String ReferenceEntry :=
  let jsonPath := paths.referenceDir raw.json
  if paths.present jsonPath then
    .ok {
      id := raw.id
      jsonPath := jsonPath
      romPath := paths.romsDir raw.rom
      family := raw.family
      variant := raw.variant
      priority := raw.priority.getD 0
      features := raw.features.getD []
      notes := raw.notes.getD "" }
  else
    .error ("registry entry '" ++ raw.id ++ "': annotation JSON not found: " ++ jsonPath)

def loadRegistry (paths : RegistryPaths) (raws : List RawReference) :
    Except String (List ReferenceEntry) :=
  raws.mapM (loadEntry paths)

/-- The compatible rows, as far as they are asked for, by descending priority. -/
def selectReferences (entries : List ReferenceEntry) (variant : String)
    (includeIds excludeIds : List String) : List ReferenceEntry :=
  let kept := entries.filter fun e => e.variant = variant
  let kept := if includeIds = [] then kept else kept.filter fun e => e.id ∈ includeIds
  let kept := if excludeIds = [] then kept else kept.filter fun e => e.id ∉ excludeIds
  sortBy (fun e => OrderDual.toDual e.priority) kept

/-- The rows whose image is there, and the others. -/
def partitionAvailable (present : Path → Bool) (entries : List ReferenceEntry) :
    List ReferenceEntry × List ReferenceEntry :=
  (entries.filter fun e => present e.romPath, entries.filter fun e => !present e.romPath)

/-- The rows that are not left out. -/
def Asked (variant : String) (includeIds excludeIds : List String) (e : ReferenceEntry) : Prop :=
  e.variant = variant ∧ (includeIds = [] ∨ e.id ∈ includeIds) ∧ e.id ∉ excludeIds

instance (variant : String) (includeIds excludeIds : List String) (e : ReferenceEntry) :
    Decidable (Asked variant includeIds excludeIds e) := by
  unfold Asked
  infer_instance

theorem selectReferences_eq (entries : List ReferenceEntry) (variant : String)
    (includeIds excludeIds : List String) :
    selectReferences entries variant includeIds excludeIds =
      sortBy (fun e => OrderDual.toDual e.priority)
        (entries.filter fun e => Asked variant includeIds excludeIds e) := by
  have hkept : ∀ (p : Prop) [Decidable p] (q : ReferenceEntry → Bool) (es : List ReferenceEntry),
      (if p then es else es.filter q) = es.filter fun e => decide p || q e := by
    intro p _ q es
    by_cases hp : p <;> simp [hp]
  unfold selectReferences
  dsimp only
  rw [hkept, hkept, List.filter_filter, List.filter_filter]
  congr 1
  apply List.filter_congr
  intro e _
  rw [Bool.eq_iff_iff]
  simp only [Bool.and_eq_true, Bool.or_eq_true, decide_eq_true_eq]
  unfold Asked
  constructor
  · rintro ⟨⟨hexclude | hexclude, hinclude⟩, hvariant⟩
    · exact ⟨hvariant, hinclude, by rw [hexclude]; exact List.not_mem_nil⟩
    · exact ⟨hvariant, hinclude, hexclude⟩
  · rintro ⟨hvariant, hinclude, hexclude⟩
    exact ⟨⟨Or.inr hexclude, hinclude⟩, hvariant⟩

end RomAnalyzer
