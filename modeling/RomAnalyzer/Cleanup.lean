import RomAnalyzer.AnnotationsIo
import RomAnalyzer.Lib.Fresh
import RomAnalyzer.Lib.Hex
import RomAnalyzer.Lib.Ranked

/-!
# Clean-up of annotation stores

Three passes that the writers of reference stores run: near duplicates from the
disassembly go, functions in erased flash go, and the names that are left become
unique over functions and symbols together.
-/
namespace RomAnalyzer.Cleanup

open Lib

/-! ### The passes that drop entries -/

def sloppySources : List String := ["colt_s", "z27ag_s"]

/-- `precise[name]`: where entries of a precise source carry the name. -/
def preciseAddrs (store : AnnotationStore) (name : String) : List Nat :=
  (store.functions.filter fun f => f.source ∉ sloppySources ∧ f.name = name).map
      AnnotationFunction.entryPoint ++
    (store.symbols.filter fun s => s.source ∉ sloppySources ∧ s.name = name).map
      AnnotationSymbol.address

/-- An entry of the disassembly that repeats a precise one a few bytes off. -/
def artifact (store : AnnotationStore) (tol : Nat) (name : String) (addr : Nat)
    (source : String) : Bool :=
  sloppySources.contains source &&
    (preciseAddrs store name).any fun pa => ((addr : Int) - pa).natAbs ≤ tol

/-- The store without the near duplicates, and how many there were. -/
def dropImpreciseSDuplicates (store : AnnotationStore) (tol : Nat := 4) :
    AnnotationStore × Nat :=
  let functions := store.functions.filter fun f => !artifact store tol f.name f.entryPoint f.source
  let symbols := store.symbols.filter fun s => !artifact store tol s.name s.address s.source
  ({ store with functions := functions, symbols := symbols },
    (store.functions.length + store.symbols.length) - (functions.length + symbols.length))

/-- The window at an address lies in the image and is all `0xFF`. -/
def erasedAt (rom : Bytes) (addr : Nat) (window : Nat := 8) : Bool :=
  addr + window ≤ rom.length && ((rom.drop addr).take window).all fun b => b = 0xFF

/-- The store without the functions in erased flash, and their names. Symbols stay: a
table can live in a blank area. -/
def dropErasedFlashEntries (store : AnnotationStore) (rom : Bytes) (window : Nat := 8) :
    AnnotationStore × List String :=
  ({ store with functions := store.functions.filter fun f => !erasedAt rom f.entryPoint window },
    (store.functions.filter fun f => erasedAt rom f.entryPoint window).map AnnotationFunction.name)

/-! ### Unique names -/

/-- The list of a store and the position in it. -/
inductive Slot
  | function (i : Nat)
  | symbol (i : Nat)
  deriving DecidableEq, Repr

structure NamedObject where
  slot : Slot
  addr : Nat
  name : String
  deriving DecidableEq, Repr

def functionObject (i : Nat) (f : AnnotationFunction) : NamedObject :=
  ⟨.function i, f.entryPoint, f.name⟩

def symbolObject (i : Nat) (s : AnnotationSymbol) : NamedObject := ⟨.symbol i, s.address, s.name⟩

def objects (store : AnnotationStore) : List NamedObject :=
  store.functions.mapIdx functionObject ++ store.symbols.mapIdx symbolObject

/-- The order in which objects take their names: by address, functions first. -/
def dedupOrder (store : AnnotationStore) : List NamedObject :=
  sortBy NamedObject.addr (objects store)

/-- The own name, then `name_<hexaddr>`, then `_x` behind it as often as it takes. -/
def objectNaming : Naming NamedObject String where
  label := NamedObject.name
  first := fun o => o.name ++ "_" ++ String.ofList (hexDigits o.addr)
  next := fun name => name ++ "_x"
  size := String.length
  size_lt_next := by
    intro name
    rw [String.length_append]
    exact Nat.lt_add_of_pos_right (by decide)

/-- The name of an object after the pass. -/
def uniqueName (store : AnnotationStore) (o : NamedObject) : String :=
  objectNaming.labelOf (dedupOrder store) o

/-- The store with unique names, and the number of objects renamed. -/
def dedupSymbolNames (store : AnnotationStore) : AnnotationStore × Nat :=
  ({ store with
      functions := store.functions.mapIdx fun i f =>
        { f with name := uniqueName store (functionObject i f) }
      symbols := store.symbols.mapIdx fun i s =>
        { s with name := uniqueName store (symbolObject i s) } },
    (objectNaming.run (dedupOrder store)).renamed)

/-- The passes that drop entries; without an image the second is left out. -/
def dropEntries (store : AnnotationStore) (rom : Option Bytes) : AnnotationStore :=
  match rom with
  | some rom => (dropErasedFlashEntries (dropImpreciseSDuplicates store).1 rom).1
  | none => (dropImpreciseSDuplicates store).1

/-- The three passes in the order of the writers. -/
def cleanUp (store : AnnotationStore) (rom : Option Bytes) : AnnotationStore :=
  (dedupSymbolNames (dropEntries store rom)).1

/-! ### What the passes leave -/

/-- The names of a store, functions first. -/
def storeNames (store : AnnotationStore) : List String :=
  store.functions.map AnnotationFunction.name ++ store.symbols.map AnnotationSymbol.name

/-- No name occurs twice, within a list or across the two. -/
def UniqueNames (store : AnnotationStore) : Prop := (storeNames store).Nodup

instance (store : AnnotationStore) : Decidable (UniqueNames store) :=
  inferInstanceAs (Decidable (List.Nodup _))

/-- The function survives the passes that drop entries. -/
def keepsFunction (store : AnnotationStore) (rom : Bytes) (f : AnnotationFunction) : Bool :=
  !artifact store 4 f.name f.entryPoint f.source && !erasedAt rom f.entryPoint

def keepsSymbol (store : AnnotationStore) (s : AnnotationSymbol) : Bool :=
  !artifact store 4 s.name s.address s.source

theorem functions_dropEntries (store : AnnotationStore) (rom : Bytes) :
    (dropEntries store (some rom)).functions = store.functions.filter (keepsFunction store rom) := by
  show (store.functions.filter _).filter _ = _
  rw [List.filter_filter]
  apply List.filter_congr
  intro f _
  exact Bool.and_comm _ _

theorem symbols_dropEntries (store : AnnotationStore) (rom : Bytes) :
    (dropEntries store (some rom)).symbols = store.symbols.filter (keepsSymbol store) :=
  rfl

theorem objects_nodup (store : AnnotationStore) : (objects store).Nodup := by
  apply List.Nodup.of_map NamedObject.slot
  have hslots : (objects store).map NamedObject.slot =
      (List.range store.functions.length).map Slot.function ++
        (List.range store.symbols.length).map Slot.symbol := by
    rw [objects, List.map_append]
    congr 1
    · apply List.ext_getElem?
      intro i
      rcases Nat.lt_or_ge i store.functions.length with hi | hi <;> simp [hi, functionObject]
    · apply List.ext_getElem?
      intro i
      rcases Nat.lt_or_ge i store.symbols.length with hi | hi <;> simp [hi, symbolObject]
  rw [hslots]
  refine List.nodup_append.mpr ⟨?_, ?_, ?_⟩
  · exact List.Nodup.map (fun i j h => Slot.function.inj h) List.nodup_range
  · exact List.Nodup.map (fun i j h => Slot.symbol.inj h) List.nodup_range
  · intro a ha b hb he
    obtain ⟨i, _, rfl⟩ := List.mem_map.mp ha
    obtain ⟨j, _, rfl⟩ := List.mem_map.mp hb
    cases he

theorem mem_objects {store : AnnotationStore} {o : NamedObject} :
    o ∈ objects store ↔ (∃ i f, store.functions[i]? = some f ∧ o = functionObject i f) ∨
      ∃ i s, store.symbols[i]? = some s ∧ o = symbolObject i s := by
  rw [objects, List.mem_append, List.mem_mapIdx, List.mem_mapIdx]
  simp only [List.getElem?_eq_some_iff]
  constructor
  · intro h
    obtain ⟨i, hi, rfl⟩ | ⟨i, hi, rfl⟩ := h
    · exact Or.inl ⟨i, _, ⟨hi, rfl⟩, rfl⟩
    · exact Or.inr ⟨i, _, ⟨hi, rfl⟩, rfl⟩
  · intro h
    obtain ⟨i, f, ⟨hi, rfl⟩, rfl⟩ | ⟨i, s, ⟨hi, rfl⟩, rfl⟩ := h
    · exact Or.inl ⟨i, hi, rfl⟩
    · exact Or.inr ⟨i, hi, rfl⟩

theorem dedupOrder_perm (store : AnnotationStore) : (dedupOrder store).Perm (objects store) :=
  sortBy_perm _ _

theorem dedupOrder_nodup (store : AnnotationStore) : (dedupOrder store).Nodup :=
  (dedupOrder_perm store).nodup_iff.mpr (objects_nodup store)

theorem mem_dedupOrder {store : AnnotationStore} {o : NamedObject} :
    o ∈ dedupOrder store ↔ o ∈ objects store :=
  (dedupOrder_perm store).mem_iff

theorem storeNames_dedup (store : AnnotationStore) :
    storeNames (dedupSymbolNames store).1 = (objects store).map (uniqueName store) := by
  rw [objects, List.map_append, storeNames]
  congr 1
  · exact List.ext_getElem? fun i => by simp [Function.comp_def, dedupSymbolNames]
  · exact List.ext_getElem? fun i => by simp [Function.comp_def, dedupSymbolNames]

theorem dedupSymbolNames_unique (store : AnnotationStore) :
    UniqueNames (dedupSymbolNames store).1 := by
  rw [UniqueNames, storeNames_dedup]
  exact objectNaming.nodup_map_labelOf (dedupOrder_nodup store) (dedupOrder_perm store).symm

/-- Whatever a writer did before, its clean-up leaves unique names. -/
theorem cleanUp_unique (store : AnnotationStore) (rom : Option Bytes) :
    UniqueNames (cleanUp store rom) :=
  dedupSymbolNames_unique _

/-! ### What renaming does -/

/-- `name_<hexaddr>` with `_x` behind it so many times. -/
def suffixedName (name : String) (addr k : Nat) : String :=
  name ++ "_" ++ String.ofList (hexDigits addr) ++ String.join (List.replicate k "_x")

/-- The name of an entry is kept, or is the old one with a suffix. -/
def KeptOrSuffixed (addr : Nat) (old new : String) : Prop :=
  new = old ∨ ∃ k, new = suffixedName old addr k

/-- The number of entries that have another name in the second store. -/
def changedNames (before after : AnnotationStore) : Nat :=
  ((storeNames before).zip (storeNames after)).countP fun names => names.1 ≠ names.2

theorem join_replicate_succ (k : Nat) :
    String.join (List.replicate (k + 1) "_x") = String.join (List.replicate k "_x") ++ "_x" := by
  rw [List.replicate_succ', String.join_append]
  rfl

theorem chain_objectNaming_succ (o : NamedObject) (k : Nat) :
    objectNaming.chain o (k + 1) = suffixedName o.name o.addr k := by
  induction k with
  | zero => simp [Naming.chain, objectNaming, suffixedName]
  | succ k ih =>
    have hlink : objectNaming.chain o (k + 2) = objectNaming.chain o (k + 1) ++ "_x" :=
      Function.iterate_succ_apply' _ _ _
    rw [hlink, ih, suffixedName, suffixedName, join_replicate_succ, String.append_assoc]

theorem uniqueName_keptOrSuffixed {store : AnnotationStore} {o : NamedObject}
    (ho : o ∈ objects store) : KeptOrSuffixed o.addr o.name (uniqueName store o) := by
  obtain ⟨k, hk, _⟩ :=
    objectNaming.labelOf_eq_chain (dedupOrder_nodup store) (mem_dedupOrder.mpr ho)
  unfold uniqueName
  rw [hk]
  cases k with
  | zero => exact Or.inl rfl
  | succ k => exact Or.inr ⟨k, chain_objectNaming_succ o k⟩

theorem storeNames_eq (store : AnnotationStore) :
    storeNames store = (objects store).map NamedObject.name := by
  rw [objects, List.map_append, storeNames]
  congr 1
  · exact List.ext_getElem? fun i => by simp [Function.comp_def, functionObject]
  · exact List.ext_getElem? fun i => by simp [Function.comp_def, symbolObject]

theorem renamed_eq_changedNames (store : AnnotationStore) :
    (dedupSymbolNames store).2 = changedNames store (dedupSymbolNames store).1 := by
  have hcount := objectNaming.renamed_eq_countP (dedupOrder_nodup store)
  rw [changedNames, storeNames_dedup, storeNames_eq, List.zip_map', List.countP_map]
  show (objectNaming.run (dedupOrder store)).renamed = _
  rw [hcount, (dedupOrder_perm store).countP_eq]
  apply List.countP_congr
  intro o _
  rw [Function.comp_apply, decide_eq_true_iff, decide_eq_true_iff]
  exact ne_comm

/-- A store with unique names is left as it is. -/
theorem dedupSymbolNames_of_unique {store : AnnotationStore} (h : UniqueNames store) :
    dedupSymbolNames store = (store, 0) := by
  have hlabels : ((dedupOrder store).map NamedObject.name).Nodup := by
    rw [((dedupOrder_perm store).map _).nodup_iff, ← storeNames_eq]
    exact h
  have hkeep : ∀ o ∈ objects store, uniqueName store o = o.name := fun o ho =>
    objectNaming.labelOf_eq_label_of_nodup hlabels (mem_dedupOrder.mpr ho)
  have hfunctions : (dedupSymbolNames store).1.functions = store.functions := by
    apply List.ext_getElem (by simp [dedupSymbolNames])
    intro i _ hi
    have hmem : functionObject i store.functions[i] ∈ objects store :=
      mem_objects.mpr (Or.inl ⟨i, _, List.getElem?_eq_getElem hi, rfl⟩)
    have hname : uniqueName store (functionObject i store.functions[i]) = store.functions[i].name :=
      hkeep _ hmem
    simp [dedupSymbolNames, hname]
  have hsymbols : (dedupSymbolNames store).1.symbols = store.symbols := by
    apply List.ext_getElem (by simp [dedupSymbolNames])
    intro i _ hi
    have hmem : symbolObject i store.symbols[i] ∈ objects store :=
      mem_objects.mpr (Or.inr ⟨i, _, List.getElem?_eq_getElem hi, rfl⟩)
    have hname : uniqueName store (symbolObject i store.symbols[i]) = store.symbols[i].name :=
      hkeep _ hmem
    simp [dedupSymbolNames, hname]
  have hstore : (dedupSymbolNames store).1 = store := by
    calc (dedupSymbolNames store).1
        = { store with
            functions := (dedupSymbolNames store).1.functions
            symbols := (dedupSymbolNames store).1.symbols } := rfl
      _ = store := by rw [hfunctions, hsymbols]
  have hcount : (dedupSymbolNames store).2 = 0 := by
    rw [renamed_eq_changedNames, hstore, changedNames, List.countP_eq_zero]
    intro names hnames
    obtain ⟨i, hi, rfl⟩ := List.getElem_of_mem hnames
    simp
  exact Prod.ext hstore hcount

theorem functions_dedupSymbolNames (store : AnnotationStore) :
    List.Forall₂ (fun f f' => f' = { f with name := f'.name } ∧
      KeptOrSuffixed f.entryPoint f.name f'.name)
      store.functions (dedupSymbolNames store).1.functions := by
  refine List.forall₂_iff_get.mpr ⟨by simp [dedupSymbolNames], ?_⟩
  intro i hi hi'
  have hmem : functionObject i store.functions[i] ∈ objects store :=
    mem_objects.mpr (Or.inl ⟨i, _, List.getElem?_eq_getElem hi, rfl⟩)
  have hname := uniqueName_keptOrSuffixed hmem
  simpa [dedupSymbolNames, functionObject] using hname

theorem symbols_dedupSymbolNames (store : AnnotationStore) :
    List.Forall₂ (fun s s' => s' = { s with name := s'.name } ∧
      KeptOrSuffixed s.address s.name s'.name)
      store.symbols (dedupSymbolNames store).1.symbols := by
  refine List.forall₂_iff_get.mpr ⟨by simp [dedupSymbolNames], ?_⟩
  intro i hi hi'
  have hmem : symbolObject i store.symbols[i] ∈ objects store :=
    mem_objects.mpr (Or.inr ⟨i, _, List.getElem?_eq_getElem hi, rfl⟩)
  have hname := uniqueName_keptOrSuffixed hmem
  simpa [dedupSymbolNames, symbolObject] using hname

/-- Every entry's search ends at the first free name of its chain, and the names it
finds are unique; nothing but names changes, each name is kept or gets its suffix, the
changed ones are counted, and a second pass has nothing to do. -/
theorem dedupSymbolNames_correct (store : AnnotationStore) :
    let after := (dedupSymbolNames store).1
    let taken := fun o => (ahead (dedupOrder store) o).map (uniqueName store)
    (∀ o ∈ dedupOrder store, ∃ k, uniqueName store o = objectNaming.chain o k ∧
      objectNaming.chain o k ∉ taken o ∧ ∀ j < k, objectNaming.chain o j ∈ taken o) ∧
    UniqueNames after ∧
    after = { store with functions := after.functions, symbols := after.symbols } ∧
    List.Forall₂ (fun f f' => f' = { f with name := f'.name } ∧
      KeptOrSuffixed f.entryPoint f.name f'.name) store.functions after.functions ∧
    List.Forall₂ (fun s s' => s' = { s with name := s'.name } ∧
      KeptOrSuffixed s.address s.name s'.name) store.symbols after.symbols ∧
    (dedupSymbolNames store).2 = changedNames store after ∧
    dedupSymbolNames after = (after, 0) := by
  intro after taken
  refine ⟨?_, dedupSymbolNames_unique store, rfl, functions_dedupSymbolNames store,
    symbols_dedupSymbolNames store, renamed_eq_changedNames store,
    dedupSymbolNames_of_unique (dedupSymbolNames_unique store)⟩
  intro o ho
  exact objectNaming.labelOf_eq_chain (dedupOrder_nodup store) ho

end RomAnalyzer.Cleanup
