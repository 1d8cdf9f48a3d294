import RomAnalyzer.Scripts.EnrichInitVars.Rescoring
import RomAnalyzer.Scripts.EnrichRound

/-!
# The report of a round and its files

The pass that writes the names of a round also lists their addresses for the rescoring.
What the list says is in the files: the addresses come from the batches that found their
file, and each has an entry there with the mark of the agent.
-/
namespace RomAnalyzer.Scripts

open Lib
open Enrich (EntryKind)

/-- A result of high confidence as the report reads it, with the text of its address. -/
def HighResult.reported (addressText : HighResult → String) (r : HighResult) : AgentResult where
  rom := r.rom
  address := addressText r
  confidence := "high"
  itemType := if r.isVariable then "variable" else "function"

section Round

variable (jsonPaths : Dict String Path) (present : Path → Bool)

/-- The batches that find their file, in the order in which they are applied. -/
def foundBatches (results : List HighResult) : List Batch :=
  (highBatches results).filter fun batch => (batchPath jsonPaths present batch).isSome

/-- The batches of results of one kind that find their file. -/
def foundOfKind (kind : EntryKind) (results : List HighResult) : List Batch :=
  ((Dict.groupBy HighResult.rom results).entries.map fun g => ⟨kind, g.1, g.2⟩).filter
    fun batch => (batchPath jsonPaths present batch).isSome

variable {jsonPaths present} {addressText : HighResult → String}

theorem hasFile_eq (batch : Batch) :
    hasFile jsonPaths present batch.rom = (batchPath jsonPaths present batch).isSome := by
  unfold hasFile batchPath
  cases jsonPaths.get? batch.rom with
  | none => rfl
  | some path => cases hp : present path <;> simp [hp, Option.filter]

/-! ### The addresses -/

theorem fnHigh_reported (results : List HighResult) :
    fnHigh (results.map (HighResult.reported addressText)) =
      (results.filter fun r => !r.isVariable).map (HighResult.reported addressText) := by
  rw [fnHigh, List.filter_map]
  congr 1
  refine List.filter_congr fun r _ => ?_
  cases hkind : r.isVariable <;> simp [HighResult.reported, hkind]

theorem varHigh_reported (results : List HighResult) :
    varHigh (results.map (HighResult.reported addressText)) =
      (results.filter fun r => r.isVariable).map (HighResult.reported addressText) := by
  rw [varHigh, List.filter_map]
  congr 1
  refine List.filter_congr fun r _ => ?_
  cases hkind : r.isVariable <;> simp [HighResult.reported, hkind]

theorem kind_of_mem_foundOfKind {kind : EntryKind} {results : List HighResult} {batch : Batch}
    (h : batch ∈ foundOfKind jsonPaths present kind results) : batch.kind = kind := by
  obtain ⟨g, _, rfl⟩ := List.mem_map.mp (List.mem_filter.mp h).1
  rfl

/-- Results of one kind: the groups that are written are the batches that find their file. -/
theorem written_reported (kind : EntryKind) (results : List HighResult) :
    (written jsonPaths present (results.map (HighResult.reported addressText))).map
        AgentResult.address =
      (foundOfKind jsonPaths present kind results).flatMap fun batch =>
        batch.results.map addressText := by
  have hgroups : Dict.groupBy AgentResult.rom (results.map (HighResult.reported addressText)) =
      (Dict.groupBy HighResult.rom results).mapValues
        (List.map (HighResult.reported addressText)) := Dict.groupBy_map _ _ _
  rw [written, hgroups, Dict.mapValues, List.flatMap_map, foundOfKind]
  induction (Dict.groupBy HighResult.rom results).entries with
  | nil => rfl
  | cons g groups ih =>
    rw [List.flatMap_cons, List.map_append, ih, List.map_cons, List.filter_cons,
      hasFile_eq ⟨kind, g.1, g.2⟩]
    cases (batchPath jsonPaths present ⟨kind, g.1, g.2⟩).isSome with
    | false => simp
    | true => simp [HighResult.reported]

/-- The functions are applied first. -/
theorem foundBatches_eq (results : List HighResult) :
    foundBatches jsonPaths present results =
      foundOfKind jsonPaths present .function (results.filter fun r => !r.isVariable) ++
        foundOfKind jsonPaths present .symbol (results.filter fun r => r.isVariable) :=
  List.filter_append _ _

theorem foundBatches_symbol (results : List HighResult) :
    ((foundBatches jsonPaths present results).filter fun batch => batch.kind = .symbol) =
      foundOfKind jsonPaths present .symbol (results.filter fun r => r.isVariable) := by
  have hfunctions : (foundOfKind jsonPaths present .function
      (results.filter fun r => !r.isVariable)).filter (fun batch => batch.kind = .symbol) = [] := by
    rw [List.filter_eq_nil_iff]
    intro batch hbatch
    rw [kind_of_mem_foundOfKind hbatch]
    decide
  have hsymbols : (foundOfKind jsonPaths present .symbol
      (results.filter fun r => r.isVariable)).filter (fun batch => batch.kind = .symbol) =
        foundOfKind jsonPaths present .symbol (results.filter fun r => r.isVariable) := by
    rw [List.filter_eq_self]
    intro batch hbatch
    exact decide_eq_true (kind_of_mem_foundOfKind hbatch)
  rw [foundBatches_eq, List.filter_append, hfunctions, hsymbols, List.nil_append]

/-- The report lists, in the order of the saves, the addresses of the batches that found
their file, and those of the variables once more. -/
theorem appliedThisRound_reported (results : List HighResult) :
    appliedThisRound jsonPaths present (results.map (HighResult.reported addressText)) =
      { addresses := (foundBatches jsonPaths present results).flatMap fun batch =>
          batch.results.map addressText
        varsAddresses := ((foundBatches jsonPaths present results).filter fun batch =>
          batch.kind = .symbol).flatMap fun batch => batch.results.map addressText } := by
  rw [foundBatches_symbol, foundBatches_eq, List.flatMap_append, ← written_reported .function,
    ← written_reported .symbol, ← fnHigh_reported, ← varHigh_reported, ← List.map_append]
  rfl

/-! ### The addresses of the queues -/

theorem mem_addresses_reported {results : List HighResult} {a : String} :
    a ∈ (appliedThisRound jsonPaths present
        (results.map (HighResult.reported addressText))).addresses ↔
      ∃ r ∈ results, addressText r = a ∧ hasFile jsonPaths present r.rom = true := by
  rw [mem_addresses]
  constructor
  · intro h
    obtain ⟨rom, _, hreported, rfl, haddr, hfile, _⟩ := h
    obtain ⟨r, hr, rfl⟩ := List.mem_map.mp hreported
    exact ⟨r, hr, haddr, hfile⟩
  · intro h
    obtain ⟨r, hr, haddr, hfile⟩ := h
    refine ⟨r.rom, _, List.mem_map_of_mem hr, rfl, haddr, hfile, rfl, ?_⟩
    cases hkind : r.isVariable with
    | false => exact Or.inl (by simp [HighResult.reported, hkind])
    | true => exact Or.inr (by simp [HighResult.reported, hkind])

theorem mem_varsAddresses_reported {results : List HighResult} {a : String} :
    a ∈ (appliedThisRound jsonPaths present
        (results.map (HighResult.reported addressText))).varsAddresses ↔
      ∃ r ∈ results, addressText r = a ∧ hasFile jsonPaths present r.rom = true ∧
        r.isVariable = true := by
  rw [mem_varsAddresses]
  constructor
  · intro h
    obtain ⟨rom, _, hreported, rfl, haddr, hfile, _, hkind⟩ := h
    obtain ⟨r, hr, rfl⟩ := List.mem_map.mp hreported
    refine ⟨r, hr, haddr, hfile, ?_⟩
    simpa [HighResult.reported] using hkind
  · intro h
    obtain ⟨r, hr, haddr, hfile, hkind⟩ := h
    exact ⟨r.rom, _, List.mem_map_of_mem hr, rfl, haddr, hfile, rfl,
      by simp [HighResult.reported, hkind]⟩

/-- Where every ROM has its file, the report of the function results is what the function
queue is rescored by, and both lists of the report of the variable results are what the
variable queue is rescored by. -/
theorem rescored_by_report (results : List HighResult)
    (hfiles : ∀ r ∈ results, hasFile jsonPaths present r.rom = true) :
    let report := fun rs : List HighResult =>
      appliedThisRound jsonPaths present (rs.map (HighResult.reported fun r => hexText r.address))
    (report (fnResults results)).addresses.toFinset = namedTexts results ∧
    (report (results.filter fun r => r.isVariable)).addresses.toFinset = varTexts results ∧
    (report (results.filter fun r => r.isVariable)).varsAddresses.toFinset =
      varTexts results := by
  refine ⟨?_, ?_, ?_⟩
  · ext a
    rw [List.mem_toFinset, mem_addresses_reported, namedTexts, List.mem_toFinset, List.mem_map]
    exact exists_congr fun r => and_congr_right fun hr =>
      and_iff_left (hfiles r (List.mem_filter.mp hr).1)
  · ext a
    rw [List.mem_toFinset, mem_addresses_reported, varTexts, List.mem_toFinset, List.mem_map]
    exact exists_congr fun r => and_congr_right fun hr =>
      and_iff_left (hfiles r (List.mem_filter.mp hr).1)
  · ext a
    rw [List.mem_toFinset, mem_varsAddresses_reported, varTexts, List.mem_toFinset, List.mem_map]
    refine exists_congr fun r => and_congr_right fun hr => and_iff_left ?_
    obtain ⟨hmem, hkind⟩ := List.mem_filter.mp hr
    exact ⟨hfiles r hmem, hkind⟩

end Round

/-! ### The files -/

/-- The store has the agent's mark at the address. -/
def MarkedByAgent (kind : EntryKind) (store : AnnotationStore) (address : Nat) : Prop :=
  match kind with
  | .function => ∃ f ∈ store.functions, f.entryPoint = address ∧ f.source = "llm:agent"
  | .symbol => ∃ s ∈ store.symbols, s.address = address ∧ s.source = "llm:agent"

instance (kind : EntryKind) (store : AnnotationStore) (address : Nat) :
    Decidable (MarkedByAgent kind store address) :=
  match kind with
  | .function => inferInstanceAs (Decidable (∃ _ ∈ _, _))
  | .symbol => inferInstanceAs (Decidable (∃ _ ∈ _, _))

section Column

variable {ρ : Type} (col : AgentColumn ρ)

def AgentColumn.Marked (rs : List ρ) (address : Nat) : Prop :=
  ∃ e ∈ rs, col.entries.key e = address ∧ (col.entries.label e).source = "llm:agent"

/-- Every write brings an entry for its address. -/
theorem AgentColumn.marked_of_result (rs : List ρ) {results : List HighResult} {r : HighResult}
    (hr : r ∈ results) : col.Marked (col.entries.run rs (results.map col.write)) r.address := by
  have hfresh : ∀ w ∈ results.map col.write, w.fresh ≠ none := by
    intro w hw
    obtain ⟨r, _, rfl⟩ := List.mem_map.mp hw
    exact Option.some_ne_none _
  obtain ⟨e, he, hkey, w, hw, _, hlabel⟩ :=
    Labelled.exists_written hfresh (List.mem_map_of_mem hr) rs
  obtain ⟨r', _, rfl⟩ := List.mem_map.mp hw
  exact ⟨e, he, hkey, congrArg AgentLabel.source hlabel⟩

/-- No write takes the mark away. -/
theorem AgentColumn.marked_run {rs : List ρ} {address : Nat} (h : col.Marked rs address)
    (results : List HighResult) :
    col.Marked (col.entries.run rs (results.map col.write)) address := by
  obtain ⟨e, he, hkey, hsource⟩ := h
  obtain ⟨e', he', rfl | ⟨w, hw, _, rfl⟩⟩ :=
    Labelled.exists_mem_run (results.map col.write) he
  · exact ⟨_, he', hkey, hsource⟩
  · obtain ⟨r, _, rfl⟩ := List.mem_map.mp hw
    refine ⟨_, he', (col.entries.key_relabel _ e).trans hkey, ?_⟩
    rw [col.entries.label_relabel]
    rfl

end Column

theorem markedByAgent_writeBatch {store : AnnotationStore} {batch : Batch} {r : HighResult}
    (hr : r ∈ batch.results) : MarkedByAgent batch.kind (writeBatch store batch) r.address := by
  unfold writeBatch
  cases batch.kind with
  | function => exact agentFunctions.marked_of_result store.functions hr
  | symbol => exact agentSymbols.marked_of_result store.symbols hr

theorem MarkedByAgent.writeBatch {kind : EntryKind} {store : AnnotationStore} {address : Nat}
    (h : MarkedByAgent kind store address) (batch : Batch) :
    MarkedByAgent kind (writeBatch store batch) address := by
  unfold Scripts.writeBatch
  cases batch.kind with
  | function =>
    cases kind with
    | function => exact agentFunctions.marked_run h batch.results
    | symbol => exact h
  | symbol =>
    cases kind with
    | function => exact h
    | symbol => exact agentSymbols.marked_run h batch.results

/-- The order in which a save writes the entries does not matter. -/
theorem markedByAgent_sortedByAddress {kind : EntryKind} {store : AnnotationStore}
    {address : Nat} :
    MarkedByAgent kind (AnnotationsIo.sortedByAddress store) address ↔
      MarkedByAgent kind store address := by
  cases kind with
  | function =>
    exact exists_congr fun f => and_congr_left fun _ => mem_sortBy
  | symbol =>
    exact exists_congr fun s => and_congr_left fun _ => mem_sortBy

section Files

variable {jsonPaths : Dict String Path} {present : Path → Bool} {kind : EntryKind} {path : Path}
  {address : Nat}

theorem MarkedByAgent.applyBatch {files : AnnotationFiles}
    (h : MarkedByAgent kind (files path) address) (batch : Batch) :
    MarkedByAgent kind (applyBatch jsonPaths present files batch path) address := by
  unfold Scripts.applyBatch
  cases jsonPaths.get? batch.rom with
  | none => exact h
  | some path' =>
    dsimp only
    by_cases hpresent : present path' = true
    · rw [if_pos hpresent, AnnotationFiles.save]
      by_cases hpath : path = path'
      · subst hpath
        rw [Function.update_self, markedByAgent_sortedByAddress]
        exact h.writeBatch batch
      · rw [Function.update_of_ne hpath]
        exact h
    · rw [if_neg hpresent]
      exact h

theorem markedByAgent_applyBatch (files : AnnotationFiles) {batch : Batch} {r : HighResult}
    (hr : r ∈ batch.results) (hpath : batchPath jsonPaths present batch = some path) :
    MarkedByAgent batch.kind (applyBatch jsonPaths present files batch path) r.address := by
  obtain ⟨hget, hpresent⟩ := Option.filter_eq_some_iff.mp hpath
  unfold applyBatch
  rw [hget]
  dsimp only
  rw [if_pos hpresent, AnnotationFiles.save, Function.update_self, markedByAgent_sortedByAddress]
  exact markedByAgent_writeBatch hr

/-- Once a batch is applied its marks stay through the batches behind it. -/
theorem markedByAgent_foldl {batches : List Batch} {batch : Batch} {r : HighResult}
    (hbatch : batch ∈ batches) (hr : r ∈ batch.results)
    (hpath : batchPath jsonPaths present batch = some path) (files : AnnotationFiles) :
    MarkedByAgent batch.kind (batches.foldl (applyBatch jsonPaths present) files path)
      r.address := by
  have hkeeps : ∀ (batches : List Batch) (files : AnnotationFiles),
      MarkedByAgent batch.kind (files path) r.address →
        MarkedByAgent batch.kind (batches.foldl (applyBatch jsonPaths present) files path)
          r.address := by
    intro batches
    induction batches with
    | nil => exact fun files h => h
    | cons b batches ih => exact fun files h => ih _ (h.applyBatch b)
  induction batches generalizing files with
  | nil => exact absurd hbatch List.not_mem_nil
  | cons b batches ih =>
    rw [List.foldl_cons]
    rcases List.mem_cons.mp hbatch with rfl | hlater
    · exact hkeeps batches _ (markedByAgent_applyBatch files hr hpath)
    · exact ih hlater _

/-- The report of a round and the files that it leaves come from the same batches: the
addresses are listed batch by batch, those of the variables in a list of their own too, and
each is the address of a result whose file has an entry there with the mark of the agent. -/
theorem appliedThisRound_inFiles (addressText : HighResult → String)
    (results : List HighResult) (files : AnnotationFiles) :
    appliedThisRound jsonPaths present (results.map (HighResult.reported addressText)) =
      { addresses := (foundBatches jsonPaths present results).flatMap fun batch =>
          batch.results.map addressText
        varsAddresses := ((foundBatches jsonPaths present results).filter fun batch =>
          batch.kind = .symbol).flatMap fun batch => batch.results.map addressText } ∧
    ∀ batch ∈ foundBatches jsonPaths present results, ∃ path,
      batchPath jsonPaths present batch = some path ∧
        ∀ r ∈ batch.results,
          MarkedByAgent batch.kind (applyHigh jsonPaths present results files path) r.address := by
  refine ⟨appliedThisRound_reported results, ?_⟩
  intro batch hbatch
  obtain ⟨hmem, hfound⟩ := List.mem_filter.mp hbatch
  obtain ⟨path, hpath⟩ := Option.isSome_iff_exists.mp hfound
  exact ⟨path, hpath, fun r hr => markedByAgent_foldl hmem hr hpath files⟩

end Files

end RomAnalyzer.Scripts
