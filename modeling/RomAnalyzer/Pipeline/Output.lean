import RomAnalyzer.MutTable
import RomAnalyzer.NameArbitration
import RomAnalyzer.Pipeline.Analyze
import RomAnalyzer.Pipeline.NameLookups

/-!
# Linker fragments of a run

The passes after the merge replace the label of the MUT table and collect further
bindings. `description.ld` is rendered from the merged symbols and these bindings,
`omni.ld.stub`, which includes it, from the RAM globals of the primary reference.
-/
namespace RomAnalyzer.Pipeline

open Lib
open EmitLd
open Ghidra (HeadlessRun)
open Mode23Bindings (CanSiteBinding SpliceResolution)
open MutTable (MutTableResult mutTableName mutTableToPropagatedSymbol)
open ObdAnalysis (OBDPidEntry PidTrace)

/-! ### Passes after the merge -/

structure PostMatchQueries extends ProgramQueries where
  fetchCallersOf : String → Nat → List Nat
  fetchR0ImmBefore : String → Nat → Option Int
  fetchPidDispatchEntries : String → List (Nat × Nat) → List PidTrace

/-- Queries to a project in which nothing is found. -/
def noQueries : PostMatchQueries where
  ghidriffProgramName path := path
  fetchFunctionEntry _ _ := none
  fetchDataReadSites _ _ _ := []
  fetchCallersOf _ _ := []
  fetchR0ImmBefore _ _ := none
  fetchPidDispatchEntries _ _ := []

/-- Identification of the MUT table, on a foreign ROM only. -/
def mutPass (ctx : RomContext) (newRun : HeadlessRun) (ms : List MatchedFunction) :
    Option MutTableResult :=
  if ctx.isSelfDiff ∨ newRun.dataRefs.entries = [] then none
  else MutTable.findMutTableInRun ms newRun ctx.romBytes

/-- The MUT pass is authoritative: any prior entry of its name is removed. -/
def withMutTable (mutResult : Option MutTableResult) (refSymbols : List ReferenceSymbol)
    (propagated : List PropagatedSymbol) : List PropagatedSymbol :=
  match mutResult with
  | none => propagated
  | some r =>
    (propagated.filter fun p => p.name ≠ mutTableName) ++
      [mutTableToPropagatedSymbol r ((addressOf refSymbols mutTableName).getD 0)]

/-- The functions whose PID dispatch is traced, as far as they were matched. -/
def handlerEntries (ms : List MatchedFunction) : List (Nat × Nat) :=
  handlerRefs.filterMap fun h =>
    ((matchByName ms).get? h.2).map fun m => (h.1, m.newAddress)

section PostMatch

variable (queries : PostMatchQueries) (ctx : RomContext) (newRun : HeadlessRun)
  (newProgName : String) (merged : MergeResult) (primaryEntry : ReferenceEntry)
  (refSymbols : List ReferenceSymbol) (refRun : Option HeadlessRun) (emitObd : Bool)

def pidPass : List OBDPidEntry :=
  if emitObd then
    (queries.fetchPidDispatchEntries newProgName (handlerEntries merged.matches_)).map
      ObdAnalysis.pidEntryOf
  else []

/-- What the K-Line line binds. -/
def klineBinding : Option (String × SpliceResolution) :=
  if ctx.emitMode23 = false then none
  else
    match addressOf refSymbols "obd_rest_handler_injection_location",
      addressOf refSymbols "sio0_tx_count", refRun with
    | some klineRefAddr, some txcountRef, some _ =>
      some ("obd_rest_handler_injection_location", klineResolution queries.toProgramQueries ctx
        newProgName merged primaryEntry klineRefAddr txcountRef)
    | _, _, _ => none

/-- The immediate before a call, from the listing or else from the bytes. -/
def slotBefore (call : Nat) : Option Int :=
  match queries.fetchR0ImmBefore newProgName call with
  | some imm => some imm
  | none => (Mode23Bindings.decodeLdiR0Before ctx.romBytes call).map Int.ofNat

/-- Both call sites of the matched dispatcher, and a note. -/
def canSites : Option (List CanSiteBinding × String) :=
  if ctx.emitMode23 = false then none
  else
    (canTarget.select merged.matches_).map fun target =>
      let callers := queries.fetchCallersOf newProgName target.newAddress
      Mode23Bindings.resolveCanCallSites callers
        (Dict.ofList (callers.map fun c => (c, slotBefore queries ctx newProgName c)))

/-- What the passes after the merge find. -/
structure AnalysisResult where
  flashBlocks : List FlashFreeBlock
  mutResult : Option MutTableResult
  pidEntries : List OBDPidEntry
  bindings : List (String × SpliceResolution)
  bindingNote : Option String

/-- The merged symbols with the MUT table, and the results of the passes that read
them. The free flash is scanned apart from the labels. -/
def postMatchAnalysis (flashBlocks : List FlashFreeBlock) : MergeResult × AnalysisResult :=
  let mutResult := mutPass ctx newRun merged.matches_
  let merged' := { merged with propagated := withMutTable mutResult refSymbols merged.propagated }
  let can := canSites queries ctx newProgName merged'
  (merged', {
    flashBlocks := flashBlocks
    mutResult := mutResult
    pidEntries := pidPass queries newProgName merged' emitObd
    bindings :=
      (klineBinding queries ctx newProgName merged' primaryEntry refSymbols refRun).toList ++
        (can.map fun c => c.1.map fun b => (b.name, b.resolution)).getD []
    bindingNote := can.map Prod.snd })

theorem postMatchAnalysis_propagated (flashBlocks : List FlashFreeBlock) :
    (postMatchAnalysis queries ctx newRun newProgName merged primaryEntry refSymbols refRun
        emitObd flashBlocks).1.propagated =
      withMutTable (postMatchAnalysis queries ctx newRun newProgName merged primaryEntry
        refSymbols refRun emitObd flashBlocks).2.mutResult refSymbols merged.propagated := rfl

theorem klineLine_eq :
    klineLine queries.toProgramQueries ctx newProgName merged primaryEntry refSymbols refRun =
      (klineBinding queries ctx newProgName merged primaryEntry refSymbols refRun).map
        fun b => emitMode23BindingLine b.1 b.2 := by
  unfold klineLine klineBinding
  split
  · rfl
  · cases addressOf refSymbols "obd_rest_handler_injection_location" with
    | none => rfl
    | some klineRefAddr =>
      cases addressOf refSymbols "sio0_tx_count" with
      | none => rfl
      | some txcountRef => cases refRun <;> rfl

end PostMatch

/-! ### Files -/

def AnalysisResult.mode23Lines (analysis : AnalysisResult) : List String :=
  (analysis.bindings.map fun b => emitMode23BindingLine b.1 b.2) ++ analysis.bindingNote.toList

/-- Texts of the command line and of the paths that the files quote. -/
structure OutputTexts where
  sourceRom : String
  languageId : String
  /-- of the two counts, as in `123/456 (27.0%)` -/
  matchSummary : Nat → Nat → String

def primaryRamGlobals (primary : ReferenceMatchResult) : List PropagatedSymbol :=
  primary.propagated.filter fun s => s.category = .ramGlobal

section Write

variable (texts : OutputTexts) (merged : MergeResult) (analysis : AnalysisResult)
  (primary : ReferenceMatchResult) (selectedCount : Nat)

def descriptionLd : String :=
  emitDescriptionLd merged.propagated texts.sourceRom
      (if 1 < selectedCount then "multi" else primary.entry.id) texts.languageId
      (texts.matchSummary merged.matchedCount merged.totalRef) (1 < selectedCount) ++
    (if analysis.mode23Lines = [] then ""
      else "\n/* mode 0x23 splice-site bindings (--emit-mode23) */\n" ++
        String.join analysis.mode23Lines) ++
    emitObdPidSymbols analysis.pidEntries

def omniLdStub : String := emitOmniStub analysis.flashBlocks (primaryRamGlobals primary)

end Write

section Run

variable (queries : PostMatchQueries) (resolve : Path → Path) (target : Target) (sel : Selection)
  (emitMode23 : Bool) (minFlashBlock : Nat) (emitObd : Bool) (flashBlocks : List FlashFreeBlock)

/-- The result of the first reference. -/
def analyzePrimary : ReferenceMatchResult :=
  matchReference (analyzeContext resolve target sel emitMode23 minFlashBlock) target.newRun
    sel.primary

def analyzePostMatch : MergeResult × AnalysisResult :=
  postMatchAnalysis queries (analyzeContext resolve target sel emitMode23 minFlashBlock)
    target.newRun target.newProgName (analyzeMerged resolve target sel emitMode23 minFlashBlock)
    sel.primary.entry (AnnotationsIo.loadReferenceSymbols sel.primary.store) sel.primary.refRun
    emitObd flashBlocks

/-- The symbols of `description.ld` are the winners of the arbitration, up to the MUT
table. -/
theorem analyzePostMatch_propagated :
    (analyzePostMatch queries resolve target sel emitMode23 minFlashBlock emitObd
        flashBlocks).1.propagated =
      withMutTable (analyzePostMatch queries resolve target sel emitMode23 minFlashBlock emitObd
          flashBlocks).2.mutResult (AnnotationsIo.loadReferenceSymbols sel.primary.store)
        (Merge.arbitrateSymbols (allPropagated (analyzeResults resolve target sel emitMode23
          minFlashBlock)) sel.priority).1 := by
  have hmerged : (analyzeMerged resolve target sel emitMode23 minFlashBlock).propagated =
      (Merge.arbitrateSymbols (allPropagated (analyzeResults resolve target sel emitMode23
        minFlashBlock)) sel.priority).1 := by
    unfold analyzeMerged
    generalize analyzeResults resolve target sel emitMode23 minFlashBlock = results
    rfl
  rw [← hmerged]
  unfold analyzePostMatch
  exact postMatchAnalysis_propagated ..

/-- `show_provenance = len(selected) > 1` -/
def showProvenance : Bool := 1 < sel.all.length

end Run

/-! ### Assignments -/

/-- A `name = address;` of a linker fragment and the comment behind it. -/
structure LdAssignment where
  name : String
  address : Nat
  comment : String
  deriving DecidableEq, Repr

def symbolAssignment (shown : Bool) (s : PropagatedSymbol) : LdAssignment :=
  ⟨s.name, s.newAddress, provenanceComment s shown⟩

/-- Only high confidence gives an assignment, the others a comment. -/
def bindingAssignment (b : String × SpliceResolution) : Option LdAssignment :=
  match b.2.address with
  | some a => if b.2.confidence = .high then some ⟨b.1, a, ""⟩ else none
  | none => none

/-- `PROVIDE(name = address);` -/
def pidAssignment (p : OBDPidEntry) : LdAssignment := ⟨pidName p, p.ramAddr, pidComment p⟩

/-- All assignments of `description.ld`. -/
def descriptionAssignments (shown : Bool) (propagated : List PropagatedSymbol)
    (analysis : AnalysisResult) : List LdAssignment :=
  (assignedSymbols propagated).map (symbolAssignment shown) ++
    analysis.bindings.filterMap bindingAssignment ++ analysis.pidEntries.map pidAssignment

/-- The RAM globals of `omni.ld.stub`. -/
def stubAssignments (propagatedRam : List PropagatedSymbol) : List LdAssignment :=
  (sortBy PropagatedSymbol.newAddress propagatedRam).map (symbolAssignment false)

def LdAssignment.line (a : LdAssignment) : String :=
  a.name ++ " = " ++ hex a.address ++ ";" ++ a.comment ++ "\n"

theorem assignment_eq_line (shown : Bool) (s : PropagatedSymbol) :
    assignment shown s = (symbolAssignment shown s).line := rfl

theorem emitMode23BindingLine_eq_line {b : String × SpliceResolution} {a : LdAssignment}
    (h : bindingAssignment b = some a) : emitMode23BindingLine b.1 b.2 = a.line := by
  unfold bindingAssignment at h
  split at h
  · rename_i addr haddr
    split at h
    · rename_i hhigh
      obtain rfl := Option.some.inj h
      simp [emitMode23BindingLine, haddr, hhigh, LdAssignment.line, String.append_assoc]
    · cases h
  · cases h

/-- The stub writes its RAM globals, one line each, behind the include. -/
theorem emitOmniStub_eq (flashBlocks : List FlashFreeBlock) (ram : List PropagatedSymbol) :
    ∃ tail, emitOmniStub flashBlocks ram =
      "INCLUDE ../m32170.ld\n" ++ "INCLUDE ../math.ld\n" ++ "INCLUDE description.ld\n\n" ++
        (if ram = [] then ""
          else "/* RAM globals (auto-propagated from reference) */\n" ++
            String.join ((stubAssignments ram).map LdAssignment.line) ++ "\n") ++ tail := by
  have hlines : (stubAssignments ram).map LdAssignment.line =
      (sortBy PropagatedSymbol.newAddress ram).map fun s =>
        s.name ++ " = " ++ hex s.newAddress ++ ";\n" := by
    rw [stubAssignments, List.map_map]
    apply List.map_congr_left
    intro s _
    simp [LdAssignment.line, symbolAssignment, provenanceComment, String.append_assoc]
  rw [hlines]
  unfold emitOmniStub
  simp only [String.append_assoc]
  exact ⟨_, rfl⟩

/-! ### What is assigned -/

theorem mem_withMutTable {mutResult : Option MutTableResult} {refSymbols : List ReferenceSymbol}
    {propagated : List PropagatedSymbol} {t : PropagatedSymbol} :
    t ∈ withMutTable mutResult refSymbols propagated ↔
      (t ∈ propagated ∧ (mutResult = none ∨ t.name ≠ mutTableName)) ∨
        ∃ r, mutResult = some r ∧ t = MutTable.mutTableToPropagatedSymbol r
          ((addressOf refSymbols mutTableName).getD 0) := by
  cases mutResult with
  | none => simp [withMutTable]
  | some r => simp [withMutTable]

/-- The assignments of `description.ld` come from the symbols, from the bindings of
high confidence and from the PIDs. -/
theorem mem_descriptionAssignments {shown : Bool} {propagated : List PropagatedSymbol}
    {analysis : AnalysisResult} {a : LdAssignment} :
    a ∈ descriptionAssignments shown propagated analysis ↔
      (∃ s ∈ propagated, symbolAssignment shown s = a) ∨
        (∃ b ∈ analysis.bindings, bindingAssignment b = some a) ∨
          ∃ p ∈ analysis.pidEntries, pidAssignment p = a := by
  simp only [descriptionAssignments, List.mem_append, List.mem_map, List.mem_filterMap,
    (assignedSymbols_perm propagated).mem_iff, or_assoc]

theorem bindingAssignment_eq_some {b : String × Mode23Bindings.SpliceResolution}
    {a : LdAssignment} :
    bindingAssignment b = some a ↔ b.2 = ⟨some a.address, .high⟩ ∧ b.1 = a.name ∧ a.comment = "" := by
  obtain ⟨name, address, confidence⟩ := b
  obtain ⟨name', address', comment⟩ := a
  cases address with
  | none => simp [bindingAssignment]
  | some addr =>
    by_cases hhigh : confidence = .high
    · simp [bindingAssignment, hhigh, eq_comm, and_left_comm]
    · simp [bindingAssignment, hhigh]

/-- The stub assigns exactly the RAM globals. -/
theorem mem_stubAssignments {ram : List PropagatedSymbol} {a : LdAssignment} :
    a ∈ stubAssignments ram ↔ ∃ s ∈ ram, symbolAssignment false s = a := by
  simp only [stubAssignments, List.mem_map, mem_sortBy]

end RomAnalyzer.Pipeline
