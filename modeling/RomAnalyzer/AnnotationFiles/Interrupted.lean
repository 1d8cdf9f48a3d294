import RomAnalyzer.AgentEnrich.Rounds
import RomAnalyzer.AnnotationFiles
import RomAnalyzer.Lib.Replace
import RomAnalyzer.Scripts.ExportAnnotations

/-!
# Writers that are stopped

A store is written to a second file that then takes the place of the first. Wherever the
writers are stopped, every annotation file reads as the last store whose writer came to its
end.
-/
namespace RomAnalyzer.AnnotationsIo

open Lib
open Lib.Json (Plain PlainItems PlainFields optField)
open AgentEnrich (plainItems_map)

/-! ### The two files of a writer -/

/-- `path.with_suffix(suffix)`: what follows the last dot of the name is left out, unless the
dot begins or ends the name. -/
def withSuffix (suffix : String) (path : Path) : Path :=
  let cs := path.toList.reverse
  let name := cs.takeWhile (· ≠ '/')
  let ext := name.takeWhile (· ≠ '.')
  let hasSuffix : Bool := ext ≠ [] ∧ ext.length + 1 < name.length
  String.ofList ((if hasSuffix then cs.drop (ext.length + 1) else cs).reverse ++ suffix.toList)

/-- An annotation file, by its name. -/
def IsJsonPath (path : Path) : Prop := ".json".toList <:+ path.toList

instance (path : Path) : Decidable (IsJsonPath path) := inferInstanceAs (Decidable (_ <:+ _))

def saveReplacement (path : Path) (store : AnnotationStore) : Replacement Path where
  path := path
  tmp := withSuffix ".json.tmp" path
  text := saveAnnotations store

/-- `_write_atomic(path, data)` -/
def writeAtomic (path : Path) (data : Json) : Replacement Path where
  path := path
  tmp := path ++ ".tmp"
  text := data.dumps ++ "\n"

theorem not_isJsonPath_of_tmp {path : Path} (h : ".tmp".toList <:+ path.toList) :
    ¬IsJsonPath path := by
  intro hjson
  obtain ⟨before, hbefore⟩ := h
  obtain ⟨before', hbefore'⟩ := hjson
  have htmp : path.toList.getLast? = some 'p' := by
    rw [← hbefore]
    exact List.getLast?_append_of_ne_nil _ (by decide)
  have hson : path.toList.getLast? = some 'n' := by
    rw [← hbefore']
    exact List.getLast?_append_of_ne_nil _ (by decide)
  rw [htmp] at hson
  exact absurd hson (by decide)

theorem suffix_withSuffix (suffix : String) (path : Path) :
    suffix.toList <:+ (withSuffix suffix path).toList := by
  unfold withSuffix
  rw [String.toList_ofList]
  exact List.suffix_append _ _

theorem saveReplacement_safe {path : Path} (h : IsJsonPath path) (store : AnnotationStore) :
    (saveReplacement path store).Safe IsJsonPath where
  path := h
  tmp := by
    apply not_isJsonPath_of_tmp
    have hsuffix : ".tmp".toList <:+ ".json.tmp".toList := by decide
    exact hsuffix.trans (suffix_withSuffix ".json.tmp" path)

theorem writeAtomic_safe {path : Path} (h : IsJsonPath path) (data : Json) :
    (writeAtomic path data).Safe IsJsonPath where
  path := h
  tmp := by
    apply not_isJsonPath_of_tmp
    have htext : (path ++ ".tmp").toList = path.toList ++ ".tmp".toList := String.toList_append
    show ".tmp".toList <:+ (path ++ ".tmp").toList
    rw [htext]
    exact List.suffix_append _ _

/-! ### The text of a store reads back -/

theorem plain_optField {key : String} {value : Option String} :
    ∀ f ∈ optField key value, f.2.Plain := by
  intro f hf
  obtain ⟨s, -, rfl⟩ := by simpa [optField] using hf
  trivial

theorem plainFields_iff (fields : List (String × Json)) :
    PlainFields fields ↔ ∀ f ∈ fields, f.2.Plain := by
  induction fields with
  | nil => simp [PlainFields]
  | cons f fields ih => simp [PlainFields, ih]

theorem plain_paramJson (p : AnnotationParam) : (paramJson p).Plain :=
  ⟨by simp, trivial, trivial, trivial, trivial⟩

theorem plain_memberJson (m : StructMember) : (memberJson m).Plain :=
  ⟨by simp, trivial, trivial, trivial, trivial⟩

theorem plain_structJson (sd : StructDefinition) : (structJson sd).Plain :=
  ⟨by simp, trivial, trivial, plainItems_map plain_memberJson _, trivial⟩

theorem plain_symJson (s : AnnotationSymbol) : (symJson s).Plain := by
  constructor
  · cases s.dataType <;> cases s.verifiedBy <;> simp [optField]
  · rw [plainFields_iff]
    intro f hf
    simp only [List.mem_append, List.mem_cons, List.not_mem_nil, or_false] at hf
    rcases hf with ((((rfl | rfl | rfl) | hf) | (rfl | rfl | rfl | rfl)) | hf)
    all_goals first | trivial | exact plain_optField f hf

theorem plain_fnJson (fn : AnnotationFunction) : (fnJson fn).Plain := by
  constructor
  · cases fn.verifiedBy <;> cases fn.returnType <;> cases fn.params <;> simp [optField]
  · rw [plainFields_iff]
    intro f hf
    simp only [List.mem_append, List.mem_cons, List.not_mem_nil, or_false] at hf
    rcases hf with (((rfl | rfl | rfl | rfl | rfl | rfl) | hf) | hf) | hf
    any_goals trivial
    · exact plain_optField f hf
    · exact plain_optField f hf
    · split at hf
      · exact absurd hf List.not_mem_nil
      · rw [List.mem_singleton.mp hf]
        exact plainItems_map plain_paramJson _

theorem plain_commentJson (c : AnnotationComment) : (commentJson c).Plain := by
  constructor
  · cases c.verifiedBy <;> simp [optField]
  · rw [plainFields_iff]
    intro f hf
    simp only [List.mem_append, List.mem_cons, List.not_mem_nil, or_false] at hf
    rcases hf with (rfl | rfl | rfl | rfl | rfl) | hf
    all_goals first | trivial | exact plain_optField f hf

theorem plain_storeJson (store : AnnotationStore) : (storeJson store).Plain :=
  ⟨by simp, trivial, trivial, trivial, plainItems_map plain_symJson _,
    plainItems_map plain_fnJson _, plainItems_map plain_structJson _,
    plainItems_map plain_commentJson _, trivial⟩

section Saves

variable (floatText : String → String)

/-- `load_annotations` on the text of a file -/
def readText (text : String) : Option AnnotationStore := loadAnnotations (Json.loads floatText) text

theorem readText_saveAnnotations (store : AnnotationStore) :
    readText floatText (saveAnnotations store) = some (sortedByAddress store) := by
  rw [readText, loadAnnotations, saveAnnotations, Json.loads_dumps_newline (plain_storeJson store)]
  exact readStore_storeJson store

/-! ### Stopped runs -/

/-- A writer of an annotation file. -/
inductive Writer
  | save (path : Path) (store : AnnotationStore)
  /-- what the export writes -/
  | exported (path : Path) (data : Json)

def Writer.path : Writer → Path
  | .save path _ => path
  | .exported path _ => path

def Writer.replacement : Writer → Replacement Path
  | .save path store => saveReplacement path store
  | .exported path data => writeAtomic path data

/-- The files after the writer came to its end. -/
def Writer.apply (files : AnnotationFiles) : Writer → AnnotationFiles
  | .save path store => files.save path store
  | .exported path data => Function.update files path ((readStore data).getD (files path))

/-- The writer replaces an annotation file by a text that reads as a store. -/
def Writer.Sound : Writer → Prop
  | .save path _ => IsJsonPath path
  | .exported path data => IsJsonPath path ∧ data.Plain ∧ (readStore data).isSome

/-- The writers one after the other, each stopped where it came to. -/
def runWriters (disk : Path → Option String) (ws : List (Writer × Progress)) :
    Path → Option String :=
  ws.foldl (fun disk w => w.1.replacement.run disk w.2) disk

/-- Only the writers that came to their end count. -/
def replacedFiles (files : AnnotationFiles) (ws : List (Writer × Progress)) : AnnotationFiles :=
  ws.foldl (fun files w => if w.2 = .replaced then w.1.apply files else files) files

variable {floatText}

theorem Writer.Sound.safe {w : Writer} (h : w.Sound) : w.replacement.Safe IsJsonPath := by
  cases w with
  | save path store => exact saveReplacement_safe h store
  | exported path data => exact writeAtomic_safe h.1 data

theorem Writer.path_replacement (w : Writer) : w.replacement.path = w.path := by
  cases w <;> rfl

/-- The written text reads as what the writer stands for. -/
theorem Writer.Sound.exists_read (floatText : String → String) {w : Writer} (h : w.Sound)
    (files : AnnotationFiles) :
    ∃ store, readText floatText w.replacement.text = some store ∧
      w.apply files = Function.update files w.path store := by
  cases w with
  | save path store =>
    exact ⟨sortedByAddress store, readText_saveAnnotations floatText store, rfl⟩
  | exported path data =>
    obtain ⟨-, hplain, hread⟩ := h
    obtain ⟨store, hstore⟩ := Option.isSome_iff_exists.mp hread
    refine ⟨store, ?_, ?_⟩
    · show readText floatText (data.dumps ++ "\n") = some store
      rw [readText, loadAnnotations, Json.loads_dumps_newline hplain]
      exact hstore
    · rw [Writer.apply, hstore]
      rfl

/-- One writer, wherever it is stopped. -/
theorem holds_writer {disk : Path → Option String} {files : AnnotationFiles} {w : Writer}
    (hw : w.Sound) (h : Holds (readText floatText) IsJsonPath disk files) (p : Progress) :
    Holds (readText floatText) IsJsonPath (w.replacement.run disk p)
      (if p = .replaced then w.apply files else files) := by
  obtain ⟨store, hread, happly⟩ := hw.exists_read floatText files
  have hrun := h.run hw.safe hread p
  rw [Lib.written, w.path_replacement, ← happly] at hrun
  exact hrun

/-- However the writers of annotation files are stopped, every annotation file reads as the
store of the last writer that came to its end there, or as before when none did; and no
annotation file is lost, nor made by a writer that did not come to its end. -/
theorem interrupted_writers (floatText : String → String) {disk : Path → Option String}
    {files : AnnotationFiles} (hdisk : Holds (readText floatText) IsJsonPath disk files)
    (ws : List (Writer × Progress)) (hws : ∀ w ∈ ws, w.1.Sound) :
    Holds (readText floatText) IsJsonPath (runWriters disk ws) (replacedFiles files ws) ∧
      ∀ path, IsJsonPath path → ((runWriters disk ws path).isSome ↔
        (disk path).isSome ∨ ∃ w ∈ ws, w.2 = .replaced ∧ path = w.1.path) := by
  induction ws generalizing disk files with
  | nil => exact ⟨hdisk, fun path _ => by simp [runWriters]⟩
  | cons w ws ih =>
    obtain ⟨hhead, htail⟩ := List.forall_mem_cons.mp hws
    obtain ⟨hholds, hkept⟩ := ih (holds_writer hhead hdisk w.2) htail
    refine ⟨hholds, fun path hpath => ?_⟩
    have hstep := hhead.safe.isSome_run disk w.2 hpath
    rw [w.1.path_replacement] at hstep
    rw [runWriters, List.foldl_cons]
    rw [runWriters] at hkept
    rw [hkept path hpath, hstep, List.exists_mem_cons_iff, or_assoc]

def savedDisk (path : Path) : Option String :=
  if path = "reference/33520003.json" then some (saveAnnotations unsortedStore) else none

/-- The first save is stopped half way, the second comes to its end, the export is stopped
before it begins. -/
def stoppedWriters : List (Writer × Progress) :=
  [(.save "reference/33520003.json" { unsortedStore with symbols := [] }, .writing 40),
    (.save "reference/33520003.json" { unsortedStore with comments := [] }, .replaced),
    (.exported "reference/33520003.json" (storeJson unsortedStore), .begun)]

theorem interrupted_writers_sample :
    Holds (readText id) IsJsonPath (runWriters savedDisk stoppedWriters)
        (replacedFiles (fun _ => sortedByAddress unsortedStore) stoppedWriters) ∧
      ∀ path, IsJsonPath path → ((runWriters savedDisk stoppedWriters path).isSome ↔
        (savedDisk path).isSome ∨ ∃ w ∈ stoppedWriters, w.2 = .replaced ∧ path = w.1.path) := by
  have hdisk : Holds (readText id) IsJsonPath savedDisk fun _ => sortedByAddress unsortedStore := by
    intro f _ text htext
    unfold savedDisk at htext
    split at htext
    · rw [← Option.some.inj htext]
      exact readText_saveAnnotations id unsortedStore
    · exact absurd htext (by simp)
  have hpath : IsJsonPath "reference/33520003.json" := by decide
  apply interrupted_writers id hdisk
  intro w hw
  simp only [stoppedWriters, List.mem_cons, List.not_mem_nil, or_false] at hw
  rcases hw with rfl | rfl | rfl
  · exact hpath
  · exact hpath
  · exact ⟨hpath, plain_storeJson _, by rw [readStore_storeJson]; rfl⟩

end Saves

end RomAnalyzer.AnnotationsIo
