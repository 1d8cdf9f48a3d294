import RomAnalyzer.Lib.Tally
import RomAnalyzer.Pipeline.EnrichCommand
import RomAnalyzer.Pipeline.Output
import RomAnalyzer.Pipeline.VerifyComments

/-!
# The match report

A run of `analyze` takes its references from the registry and reports, next to the linker
fragments, how many matches came from where and how many symbols each reference won.
-/
namespace RomAnalyzer.Pipeline

open Lib
open EmitLd (assignedSymbols hex)

/-! ### The references of a run -/

/-- The selected references, the primary first, or the message without any. -/
def ReferenceLibrary.analyzeSelection (lib : ReferenceLibrary) (files : AnnotationFiles)
    (imports : ProjectImports) (variant : String) (includeIds excludeIds : List String) :
    Except String Selection :=
  let available := (partitionAvailable (fun path => (lib.images path).isSome)
    (selectReferences lib.entries variant includeIds excludeIds)).1
  match available.map (lib.selected files imports) with
  | [] => .error "No usable references (registry empty or all bins missing)."
  | primary :: others => .ok ⟨primary, others⟩

/-- The row is asked for and its image is there. -/
def ReferenceLibrary.Usable (lib : ReferenceLibrary) (variant : String)
    (includeIds excludeIds : List String) (e : ReferenceEntry) : Prop :=
  (lib.images e.romPath).isSome ∧ Asked variant includeIds excludeIds e

instance (lib : ReferenceLibrary) (variant : String) (includeIds excludeIds : List String)
    (e : ReferenceEntry) : Decidable (lib.Usable variant includeIds excludeIds e) := by
  unfold ReferenceLibrary.Usable
  infer_instance

/-! ### The report -/

/-- How many merged matches each phase contributed. -/
def srcCounts (ms : List MatchedFunction) : Dict String Nat :=
  Dict.tally MatchedFunction.source ms

/-- How many symbols a reference won. -/
def wonCount (propagated : List PropagatedSymbol) (id : String) : Nat :=
  countOf PropagatedSymbol.reference propagated id

def labelSummary (dataLabels : List PropagatedSymbol) : String :=
  let scalarCount := (dataLabels.filter fun d => d.source = "data_refs_scalar").length
  if scalarCount = 0 then toString dataLabels.length
  else toString dataLabels.length ++ " (" ++ toString scalarCount ++ " via scalar refs)"

def signatureLines (primary : ReferenceMatchResult) : String :=
  if primary.sigMatches = [] then ""
  else
    "- RAM-signature matches: " ++ toString primary.sigMatches.length ++ "\n" ++
      "- Propagated RAM labels (p2): " ++ toString primary.ramLabelsP2.length ++ "\n" ++
      "- Propagated data labels (p2): " ++ toString primary.dataLabelsP2.length ++ "\n"

def sourceLines (ms : List MatchedFunction) : String :=
  if (srcCounts ms).entries = [] then ""
  else
    "## Match sources\n" ++
      String.join ((sortBy Prod.fst (srcCounts ms).entries).map fun e =>
        "- " ++ e.1 ++ ": " ++ toString e.2 ++ "\n") ++ "\n"

def crcLines : Option CrcRegion → String
  | none => ""
  | some crc =>
    "## CRC region\n" ++
      "- Full mode:    [" ++ hex crc.fullStart ++ ", " ++ hex crc.fullEnd ++ ")\n" ++
      "- Partial mode: [" ++ hex crc.partialStart ++ ", " ++ hex crc.partialEnd ++ ")\n"

def referenceLine (propagated : List PropagatedSymbol) (r : ReferenceMatchResult) : String :=
  "- " ++ r.entry.id ++ " (priority " ++ toString r.entry.priority ++ "): " ++
    toString r.matches_.length ++ " matches, " ++ toString (wonCount propagated r.entry.id) ++
    " symbols won\n"

/-- The text of `match-report.md`. -/
def matchReportMd (texts : OutputTexts) (merged : MergeResult) (crc : Option CrcRegion)
    (primary : ReferenceMatchResult) (results : List ReferenceMatchResult) : String :=
  "# rom-analyzer match report\n\n" ++ "Source ROM: " ++ texts.sourceRom ++ "\n" ++
    "Reference:  " ++ primary.entry.id ++ "\n" ++ "Variant:    " ++ texts.languageId ++ "\n\n" ++
    "## Summary\n- Matched functions: " ++
    texts.matchSummary merged.matchedCount merged.totalRef ++ "\n" ++
    "- Propagated data labels: " ++ labelSummary primary.dataLabels ++ "\n" ++
    "- Propagated RAM labels: " ++ toString primary.ramLabels.length ++ "\n" ++
    signatureLines primary ++ "\n" ++ sourceLines merged.matches_ ++ crcLines crc ++
    "\n## References\n" ++ String.join (results.map (referenceLine merged.propagated)) ++ "\n"

/-! ### What it counts -/

section Counts

variable {lib : ReferenceLibrary} {files : AnnotationFiles} {imports : ProjectImports}
  {variant : String} {includeIds excludeIds : List String} {sel : Selection}

/-- The usable rows, by descending priority and in the registry's order where that is equal. -/
theorem stableSort_analyzeSelection
    (h : lib.analyzeSelection files imports variant includeIds excludeIds = .ok sel) :
    StableSort (fun e : ReferenceEntry => OrderDual.toDual e.priority)
      (lib.entries.filter fun e => lib.Usable variant includeIds excludeIds e)
      (sel.all.map SelectedReference.entry) := by
  have hall : sel.all.map SelectedReference.entry =
      (selectReferences lib.entries variant includeIds excludeIds).filter
        fun e => (lib.images e.romPath).isSome := by
    unfold ReferenceLibrary.analyzeSelection at h
    dsimp only at h
    split at h
    · cases h
    · rename_i primary others hmap
      obtain rfl := Except.ok.inj h
      rw [Selection.all, ← hmap, List.map_map]
      exact List.map_id _
  have husable : (lib.entries.filter fun e => lib.Usable variant includeIds excludeIds e) =
      (lib.entries.filter fun e => Asked variant includeIds excludeIds e).filter
        fun e => (lib.images e.romPath).isSome := by
    rw [List.filter_filter]
    apply List.filter_congr
    intro e _
    rw [Bool.eq_iff_iff, Bool.and_eq_true, decide_eq_true_iff, decide_eq_true_iff]
    rfl
  rw [hall, husable, selectReferences_eq]
  exact (stableSort_sortBy _ _).filter _

/-- Every symbol but that of the MUT table was won by one of the references. -/
theorem sum_wonCount {ids : List String} (hids : ids.Nodup) (hblank : "" ∉ ids)
    {propagated : List PropagatedSymbol} (hcover : ∀ s ∈ propagated, s.reference ∈ ids)
    (mutResult : Option MutTable.MutTableResult) (refSymbols : List ReferenceSymbol) :
    (ids.map (wonCount (withMutTable mutResult refSymbols propagated))).sum +
        mutResult.toList.length =
      (withMutTable mutResult refSymbols propagated).length := by
  cases mutResult with
  | none => exact sum_countOf hids hcover
  | some r =>
    have hwon : ids.map (wonCount (withMutTable (some r) refSymbols propagated)) =
        ids.map (wonCount (propagated.filter fun p => p.name ≠ MutTable.mutTableName)) := by
      apply List.map_congr_left
      intro id hid
      -- the symbol of the table names no reference
      have hother : ¬ "" = id := fun hnone => hblank (hnone ▸ hid)
      rw [wonCount, withMutTable, countOf, List.countP_append, List.countP_singleton]
      simp [MutTable.mutTableToPropagatedSymbol, hother, wonCount, countOf]
    rw [hwon, withMutTable, List.length_append]
    congr 1
    exact sum_countOf hids fun s hs => hcover s (List.mem_filter.mp hs).1

/-- A selection has the ids of usable rows, each once. -/
theorem ids_analyzeSelection (hids : (lib.entries.map ReferenceEntry.id).Nodup)
    (h : lib.analyzeSelection files imports variant includeIds excludeIds = .ok sel) :
    (sel.all.map fun ref => ref.entry.id).Nodup ∧
      ∀ ref ∈ sel.all, ref.entry.id ∈ lib.entries.map ReferenceEntry.id := by
  have hperm := (stableSort_analyzeSelection h).perm
  have hsub : ((lib.entries.filter fun e => lib.Usable variant includeIds excludeIds e).map
      ReferenceEntry.id).Sublist (lib.entries.map ReferenceEntry.id) :=
    List.filter_sublist.map _
  constructor
  · have hnodup := (hperm.map ReferenceEntry.id).nodup_iff.mpr (hids.sublist hsub)
    rw [List.map_map] at hnodup
    exact hnodup
  · intro ref href
    have hmem := hperm.mem_iff.mp (List.mem_map_of_mem href)
    exact List.mem_map_of_mem (List.mem_filter.mp hmem).1

end Counts

section Run

variable (queries : PostMatchQueries) (resolve : Path → Path) (target : Target)
  (emitMode23 : Bool) (minFlashBlock : Nat) (emitObd : Bool) (flashBlocks : List FlashFreeBlock)

/-- The report of a run accounts for all of it: its references are the usable rows of the
registry by descending priority, the counts by source add up to the merged matches, and the
symbols won by the references, with the MUT table if it was found, are the symbols that
`description.ld` assigns. -/
theorem matchReport_accounts {lib : ReferenceLibrary} {files : AnnotationFiles}
    {imports : ProjectImports} {variant : String} {includeIds excludeIds : List String}
    {sel : Selection}
    (h : lib.analyzeSelection files imports variant includeIds excludeIds = .ok sel)
    (hids : (lib.entries.map ReferenceEntry.id).Nodup)
    (hblank : "" ∉ lib.entries.map ReferenceEntry.id) :
    let results := analyzeResults resolve target sel emitMode23 minFlashBlock
    let after := analyzePostMatch queries resolve target sel emitMode23 minFlashBlock emitObd
      flashBlocks
    StableSort (fun e : ReferenceEntry => OrderDual.toDual e.priority)
        (lib.entries.filter fun e => lib.Usable variant includeIds excludeIds e)
        (results.map ReferenceMatchResult.entry) ∧
      (srcCounts after.1.matches_).values.sum = after.1.matches_.length ∧
      (results.map fun r => wonCount after.1.propagated r.entry.id).sum +
          after.2.mutResult.toList.length = (assignedSymbols after.1.propagated).length := by
  intro results after
  have hentries : results.map ReferenceMatchResult.entry =
      sel.all.map SelectedReference.entry := by
    show (analyzeResults resolve target sel emitMode23 minFlashBlock).map _ = _
    rw [analyzeResults, List.map_map]
    rfl
  refine ⟨?_, Dict.sum_values_tally _, ?_⟩
  · rw [hentries]
    exact stableSort_analyzeSelection h
  · obtain ⟨hnodup, hmem⟩ := ids_analyzeSelection hids h
    have hcover : ∀ s ∈ (Merge.arbitrateSymbols (allPropagated results) sel.priority).1,
        s.reference ∈ sel.all.map fun ref => ref.entry.id := by
      intro s hs
      obtain ⟨ref, href, hproposed⟩ :=
        mem_allPropagated_analyzeResults.mp (Merge.mem_of_mem_arbitrateSymbols hs)
      rw [propagated_reference hproposed]
      exact List.mem_map_of_mem href
    have hnamed : "" ∉ sel.all.map fun ref => ref.entry.id := by
      intro hnone
      obtain ⟨ref, href, hid⟩ := List.mem_map.mp hnone
      exact hblank (hid ▸ hmem ref href)
    have hlists : (results.map fun r => wonCount after.1.propagated r.entry.id) =
        (sel.all.map fun ref => ref.entry.id).map (wonCount after.1.propagated) := by
      rw [List.map_map]
      show (analyzeResults resolve target sel emitMode23 minFlashBlock).map _ = _
      rw [analyzeResults, List.map_map]
      rfl
    rw [hlists, (EmitLd.assignedSymbols_perm after.1.propagated).length_eq]
    have hpropagated := analyzePostMatch_propagated queries resolve target sel emitMode23
      minFlashBlock emitObd flashBlocks
    show (List.map (wonCount (analyzePostMatch _ _ _ _ _ _ _ _).1.propagated) _).sum + _ =
      (analyzePostMatch _ _ _ _ _ _ _ _).1.propagated.length
    rw [hpropagated]
    exact sum_wonCount hnodup hnamed hcover _ _

end Run

section Sample

/-- A ROM next to both references. -/
theorem matchReport_accounts_sample :
    ∃ sel, twoRoms.analyzeSelection oneName onePair "fp8000" [] [] = .ok sel ∧
      let results := analyzeResults id coltTarget sel false 64
      let after := analyzePostMatch noQueries id coltTarget sel false 64 false []
      (srcCounts after.1.matches_).values.sum = after.1.matches_.length ∧
        (results.map fun r => wonCount after.1.propagated r.entry.id).sum +
          after.2.mutResult.toList.length = (assignedSymbols after.1.propagated).length := by
  have hids : (twoRoms.entries.map ReferenceEntry.id).Nodup := by decide
  have hblank : "" ∉ twoRoms.entries.map ReferenceEntry.id := by decide
  have hsel : ∃ sel, twoRoms.analyzeSelection oneName onePair "fp8000" [] [] = .ok sel :=
    ⟨_, rfl⟩
  obtain ⟨sel, hsel⟩ := hsel
  exact ⟨sel, hsel,
    (matchReport_accounts noQueries id coltTarget false 64 false [] hsel hids hblank).2⟩

end Sample

end RomAnalyzer.Pipeline
