import RomAnalyzer.AnnotationsJson
import RomAnalyzer.Cleanup
import RomAnalyzer.Registry

/-!
# The annotation files of a run

Writers of reference stores read and replace whole files. A file is taken as the
store that reading it gives; what a save leaves is the store in written order.
-/
namespace RomAnalyzer

open AnnotationsIo (sortedByAddress)
open Cleanup (UniqueNames storeNames)

/-- What `load_annotations` returns at each path. -/
abbrev AnnotationFiles := Path → AnnotationStore

namespace AnnotationFiles

/-- `save_annotations(path, store)` -/
def save (files : AnnotationFiles) (path : Path) (store : AnnotationStore) : AnnotationFiles :=
  Function.update files path (sortedByAddress store)

end AnnotationFiles

/-- No two of the names that count are equal. -/
def NamesDistinct (counted : String → Bool) (store : AnnotationStore) : Prop :=
  ((storeNames store).filter counted).Nodup

instance (counted : String → Bool) (store : AnnotationStore) :
    Decidable (NamesDistinct counted store) :=
  inferInstanceAs (Decidable (List.Nodup _))

theorem namesDistinct_of_unique {store : AnnotationStore} (h : UniqueNames store)
    (counted : String → Bool) : NamesDistinct counted store :=
  List.Nodup.filter counted h

theorem storeNames_sortedByAddress (store : AnnotationStore) :
    (storeNames (sortedByAddress store)).Perm (storeNames store) :=
  ((Lib.sortBy_perm _ _).map _).append ((Lib.sortBy_perm _ _).map _)

theorem namesDistinct_sortedByAddress {counted : String → Bool} {store : AnnotationStore} :
    NamesDistinct counted (sortedByAddress store) ↔ NamesDistinct counted store :=
  ((storeNames_sortedByAddress store).filter counted).nodup_iff

/-- Every file has distinct names. -/
def FilesDistinct (counted : String → Bool) (files : AnnotationFiles) : Prop :=
  ∀ path, NamesDistinct counted (files path)

/-- A save keeps the files distinct exactly when the saved store is. -/
theorem filesDistinct_save_iff {counted : String → Bool} {files : AnnotationFiles}
    (hfiles : FilesDistinct counted files) (path : Path) (store : AnnotationStore) :
    FilesDistinct counted (files.save path store) ↔ NamesDistinct counted store := by
  constructor
  · intro h
    have hpath := h path
    rw [AnnotationFiles.save, Function.update_self] at hpath
    exact namesDistinct_sortedByAddress.mp hpath
  · intro h path'
    by_cases hpath : path' = path
    · rw [hpath, AnnotationFiles.save, Function.update_self]
      exact namesDistinct_sortedByAddress.mpr h
    · rw [AnnotationFiles.save, Function.update_of_ne hpath]
      exact hfiles path'

/-- A clean-up in front of the save keeps every file distinct. -/
theorem filesDistinct_save_cleanUp {counted : String → Bool} {files : AnnotationFiles}
    (hfiles : FilesDistinct counted files) (path : Path) (store : AnnotationStore)
    (rom : Option Bytes) : FilesDistinct counted (files.save path (Cleanup.cleanUp store rom)) :=
  (filesDistinct_save_iff hfiles path _).mpr
    (namesDistinct_of_unique (Cleanup.cleanUp_unique store rom) counted)

end RomAnalyzer
