import RomAnalyzer.AnnotationFiles

/-!
# The name check

The hook that looks at a reference file before it is committed. Entries without a
name are not compared.
-/
namespace RomAnalyzer.Scripts

open Lib

/-- `[name for name, count in Counter(names).items() if count > 1 and name]`, sorted -/
def dupes (names : List String) : List String :=
  sortBy id (names.dedup.filter fun name => 1 < names.count name ∧ name ≠ "")

/-- `(set(sym_names) & set(fn_names)) - {""}`, sorted -/
def crossNames (symNames fnNames : List String) : List String :=
  sortBy id (symNames.dedup.filter fun name => name ∈ fnNames ∧ name ≠ "")

/-- What the hook reports about a file that reads as `store`. -/
def checkFile (path : Path) (store : AnnotationStore) : List String :=
  let symNames := store.symbols.map AnnotationSymbol.name
  let fnNames := store.functions.map AnnotationFunction.name
  (dupes symNames).map (fun name => path ++ ": duplicate symbols name '" ++ name ++ "'") ++
    (dupes fnNames).map (fun name => path ++ ": duplicate functions name '" ++ name ++ "'") ++
    (crossNames symNames fnNames).map fun name =>
      path ++ ": name '" ++ name ++ "' appears in both symbols and functions"

/-- The names that the hook compares. -/
def checkedName (name : String) : Bool := name ≠ ""

theorem dupes_eq_nil_iff (names : List String) :
    dupes names = [] ↔ (names.filter checkedName).Nodup := by
  rw [dupes, sortBy_eq_nil_iff, List.filter_eq_nil_iff, List.nodup_iff_count_le_one]
  constructor
  · intro h name
    by_cases hname : name = ""
    · have hnot : name ∉ names.filter checkedName := by simp [checkedName, hname]
      rw [List.count_eq_zero_of_not_mem hnot]
      exact Nat.zero_le 1
    · by_contra hcount
      have hsub := List.Sublist.count_le name (List.filter_sublist (p := checkedName) (l := names))
      have hmem : name ∈ names := List.count_pos_iff.mp (by omega)
      exact h name (List.mem_dedup.mpr hmem) (by simpa [hname] using by omega)
  · intro h name _ hdupe
    rw [decide_eq_true_eq] at hdupe
    have hcount := h name
    rw [List.count_filter (by simpa [checkedName] using hdupe.2)] at hcount
    omega

theorem crossNames_eq_nil_iff (symNames fnNames : List String) :
    crossNames symNames fnNames = [] ↔
      ∀ a ∈ fnNames.filter checkedName, ∀ b ∈ symNames.filter checkedName, a ≠ b := by
  rw [crossNames, sortBy_eq_nil_iff, List.filter_eq_nil_iff]
  constructor
  · intro h a ha b hb he
    obtain ⟨hb, hchecked⟩ := List.mem_filter.mp hb
    subst he
    apply h a (List.mem_dedup.mpr hb)
    simpa [(List.mem_filter.mp ha).1, checkedName] using hchecked
  · intro h name hname hcross
    rw [decide_eq_true_eq] at hcross
    have hchecked : checkedName name = true := by simpa [checkedName] using hcross.2
    exact h name (List.mem_filter.mpr ⟨hcross.1, hchecked⟩) name
      (List.mem_filter.mpr ⟨List.mem_dedup.mp hname, hchecked⟩) rfl

/-- The hook accepts a file exactly when its names are distinct, functions and symbols
together. -/
theorem checkFile_eq_nil_iff (path : Path) (store : AnnotationStore) :
    checkFile path store = [] ↔ NamesDistinct checkedName store := by
  rw [checkFile, List.append_eq_nil_iff, List.append_eq_nil_iff, List.map_eq_nil_iff,
    List.map_eq_nil_iff, List.map_eq_nil_iff, dupes_eq_nil_iff, dupes_eq_nil_iff,
    crossNames_eq_nil_iff, NamesDistinct, Cleanup.storeNames, List.filter_append,
    List.nodup_append]
  exact ⟨fun h => ⟨h.1.2, h.1.1, h.2⟩, fun h => ⟨⟨h.2.1, h.1⟩, h.2.2⟩⟩

end RomAnalyzer.Scripts
