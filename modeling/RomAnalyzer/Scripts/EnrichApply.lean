import RomAnalyzer.AnnotationFiles
import RomAnalyzer.Lib.Loop
import RomAnalyzer.Verdicts

/-!
# Applying naming results

The high-confidence branch of the naming rounds writes names into the reference
files, the functions of every ROM first and then the variables. It saves without a
clean-up.
-/
namespace RomAnalyzer.Scripts

open Lib
open Cleanup (storeNames)
open Enrich (EntryKind)

/-- One naming result of high confidence. -/
structure HighResult where
  rom : String
  isVariable : Bool
  address : Nat
  proposedName : String
  category : Option SymbolCategory := none
  dataType : Option String := none
  deriving DecidableEq

/-- What a result overwrites in the entry it is about. -/
structure AgentLabel where
  name : String
  source : String
  confidence : ConfidenceTier
  deriving DecidableEq

def agentLabel (r : HighResult) : AgentLabel := ⟨r.proposedName, "llm:agent", .high⟩

/-- One list of a store, and the entry that a result adds to it. -/
structure AgentColumn (ρ : Type) where
  entries : Labelled Nat AgentLabel ρ
  fresh : HighResult → ρ
  key_fresh : ∀ r, entries.key (fresh r) = r.address
  label_fresh : ∀ r, entries.label (fresh r) = agentLabel r

def agentFunctions : AgentColumn AnnotationFunction where
  entries := {
    key := AnnotationFunction.entryPoint
    label := fun f => ⟨f.name, f.source, f.confidence⟩
    relabel := fun l f => { f with name := l.name, source := l.source, confidence := l.confidence }
    key_relabel := fun _ _ => rfl
    label_relabel := fun _ _ => rfl
    relabel_label := fun _ => rfl
    relabel_relabel := fun _ _ _ => rfl }
  fresh := fun r => {
    name := r.proposedName, entryPoint := r.address, confidence := .high, source := "llm:agent" }
  key_fresh := fun _ => rfl
  label_fresh := fun _ => rfl

def agentSymbols : AgentColumn AnnotationSymbol where
  entries := {
    key := AnnotationSymbol.address
    label := fun s => ⟨s.name, s.source, s.confidence⟩
    relabel := fun l s => { s with name := l.name, source := l.source, confidence := l.confidence }
    key_relabel := fun _ _ => rfl
    label_relabel := fun _ _ => rfl
    relabel_label := fun _ => rfl
    relabel_relabel := fun _ _ _ => rfl }
  fresh := fun r => {
    name := r.proposedName, address := r.address, category := r.category.getD .ramGlobal
    dataType := r.dataType, confidence := .high, source := "llm:agent" }
  key_fresh := fun _ => rfl
  label_fresh := fun _ => rfl

/-- The entry at the address gets the name, or the result adds one. -/
def AgentColumn.write {ρ : Type} (col : AgentColumn ρ) (r : HighResult) : col.entries.Write where
  key := r.address
  label := agentLabel r
  fresh := some (col.fresh r)
  key_fresh := by
    intro e he
    rw [← Option.some.inj he, col.key_fresh]
  label_fresh := by
    intro e he
    rw [← Option.some.inj he, col.label_fresh]

/-- The results of one kind for one ROM, which one load and one save apply. -/
structure Batch where
  kind : EntryKind
  rom : String
  results : List HighResult

def writeBatch (store : AnnotationStore) (batch : Batch) : AnnotationStore :=
  match batch.kind with
  | .function => { store with
      functions :=
        agentFunctions.entries.run store.functions (batch.results.map agentFunctions.write) }
  | .symbol => { store with
      symbols := agentSymbols.entries.run store.symbols (batch.results.map agentSymbols.write) }

/-- The batches of a round in the order in which they are applied. -/
def highBatches (results : List HighResult) : List Batch :=
  let byRom := Dict.groupBy HighResult.rom (results.filter fun r => !r.isVariable)
  let byRomV := Dict.groupBy HighResult.rom (results.filter fun r => r.isVariable)
  byRom.entries.map (fun g => ⟨.function, g.1, g.2⟩) ++
    byRomV.entries.map fun g => ⟨.symbol, g.1, g.2⟩

section Apply

variable (jsonPaths : Dict String Path) (present : Path → Bool)

/-- A ROM that is not in the registry, or whose file is missing, is passed over. -/
def applyBatch (files : AnnotationFiles) (batch : Batch) : AnnotationFiles :=
  match jsonPaths.get? batch.rom with
  | none => files
  | some path => if present path then files.save path (writeBatch (files path) batch) else files

def applyHigh (results : List HighResult) (files : AnnotationFiles) : AnnotationFiles :=
  (highBatches results).foldl (applyBatch jsonPaths present) files

end Apply

/-! ### The names that a batch leaves -/

section Names

variable {ρ : Type} (col : AgentColumn ρ)

/-- The names of the entries that no result reaches: none has the address, or a later
entry shares it. -/
def AgentColumn.untouchedNames (rs : List ρ) (results : List HighResult) : List String :=
  (Labelled.unwritten (results.map col.write) rs).map fun e => (col.entries.label e).name

/-- The names that the results leave: at an address of the store the last one proposed,
elsewhere every one. -/
def AgentColumn.standingNames (rs : List ρ) (results : List HighResult) : List String :=
  (Labelled.standing (rs.map col.entries.key) (results.map col.write)).map AgentLabel.name

theorem AgentColumn.names_run_perm (rs : List ρ) (results : List HighResult) :
    ((col.entries.run rs (results.map col.write)).map fun e => (col.entries.label e).name).Perm
      (col.untouchedNames rs results ++ col.standingNames rs results) := by
  have hfresh : ∀ w ∈ results.map col.write, w.fresh ≠ none := by
    intro w hw
    obtain ⟨r, _, rfl⟩ := List.mem_map.mp hw
    exact Option.some_ne_none _
  have hperm := (Labelled.map_label_run_perm hfresh rs).map AgentLabel.name
  rw [List.map_append, List.map_map, List.map_map] at hperm
  exact hperm

theorem AgentColumn.untouchedNames_sublist (rs : List ρ) (results : List HighResult) :
    (col.untouchedNames rs results).Sublist (rs.map fun e => (col.entries.label e).name) :=
  (Labelled.unwritten_sublist _ rs).map _

end Names

/-- The names of a store that a batch leaves alone. -/
def untouchedNames (store : AnnotationStore) (batch : Batch) : List String :=
  match batch.kind with
  | .function => agentFunctions.untouchedNames store.functions batch.results ++
      store.symbols.map AnnotationSymbol.name
  | .symbol => store.functions.map AnnotationFunction.name ++
      agentSymbols.untouchedNames store.symbols batch.results

/-- The names that a batch puts into a store and does not replace itself. -/
def standingNames (store : AnnotationStore) (batch : Batch) : List String :=
  match batch.kind with
  | .function => agentFunctions.standingNames store.functions batch.results
  | .symbol => agentSymbols.standingNames store.symbols batch.results

theorem untouchedNames_sublist (store : AnnotationStore) (batch : Batch) :
    (untouchedNames store batch).Sublist (storeNames store) := by
  unfold untouchedNames storeNames
  cases batch.kind with
  | function => exact (agentFunctions.untouchedNames_sublist _ _).append_right _
  | symbol => exact (agentSymbols.untouchedNames_sublist _ _).append_left _

theorem storeNames_writeBatch_perm (store : AnnotationStore) (batch : Batch) :
    (storeNames (writeBatch store batch)).Perm
      (untouchedNames store batch ++ standingNames store batch) := by
  unfold storeNames writeBatch untouchedNames standingNames
  cases batch.kind with
  | function =>
    have hperm := (agentFunctions.names_run_perm store.functions batch.results).append_right
      (store.symbols.map AnnotationSymbol.name)
    rw [List.append_assoc] at hperm ⊢
    exact hperm.trans (List.Perm.append_left _ List.perm_append_comm)
  | symbol =>
    rw [List.append_assoc]
    exact (agentSymbols.names_run_perm store.symbols batch.results).append_left _

/-- The names that a batch puts into a store differ from one another and from those it
leaves alone. -/
structure StandsApart (counted : String → Bool) (store : AnnotationStore) (batch : Batch) :
    Prop where
  distinct : ((standingNames store batch).filter counted).Nodup
  apart : ∀ a ∈ (untouchedNames store batch).filter counted,
    ∀ b ∈ (standingNames store batch).filter counted, a ≠ b

theorem namesDistinct_writeBatch_iff {counted : String → Bool} {store : AnnotationStore}
    (hstore : NamesDistinct counted store) (batch : Batch) :
    NamesDistinct counted (writeBatch store batch) ↔ StandsApart counted store batch := by
  have hleft : ((untouchedNames store batch).filter counted).Nodup :=
    hstore.sublist ((untouchedNames_sublist store batch).filter counted)
  rw [NamesDistinct, ((storeNames_writeBatch_perm store batch).filter counted).nodup_iff,
    List.filter_append, List.nodup_append]
  constructor
  · exact fun h => ⟨h.2.1, h.2.2⟩
  · exact fun h => ⟨hleft, h.distinct, h.apart⟩

/-- The file of a batch, if it is written. -/
def batchPath (jsonPaths : Dict String Path) (present : Path → Bool) (batch : Batch) :
    Option Path :=
  (jsonPaths.get? batch.rom).filter present

/-- One batch keeps all files distinct exactly when its names stand apart in the file
that it is written to. -/
theorem filesDistinct_applyBatch_iff {counted : String → Bool} (jsonPaths : Dict String Path)
    (present : Path → Bool) (files : AnnotationFiles) (batch : Batch)
    (hfiles : FilesDistinct counted files) :
    FilesDistinct counted (applyBatch jsonPaths present files batch) ↔
      ∀ path ∈ batchPath jsonPaths present batch, StandsApart counted (files path) batch := by
  unfold applyBatch batchPath
  cases jsonPaths.get? batch.rom with
  | none => simp [hfiles]
  | some path =>
    by_cases hpresent : present path = true
    · simp [hpresent, filesDistinct_save_iff hfiles, namesDistinct_writeBatch_iff (hfiles path)]
    · simp [hpresent, hfiles]

end RomAnalyzer.Scripts
