import RomAnalyzer.AnnotationsIo
import RomAnalyzer.Callgraph.Bfs
import RomAnalyzer.Callgraph.GapFill
import RomAnalyzer.Callgraph.Identity
import RomAnalyzer.DataRefs
import RomAnalyzer.Diff
import RomAnalyzer.Merge
import RomAnalyzer.RamSignature
import RomAnalyzer.Registry

/-!
# Matching one reference

What the imports, the version-tracking session and the files return is an input.
The matches of a reference come from the identity of its own ROM, or from six
phases that are concatenated and deduplicated by reference and by new address.
-/
namespace RomAnalyzer.Pipeline

open Lib
open AnnotationsIo (loadReferenceSymbols)
open Ghidra (HeadlessRun)
open Merge (matchRank)

/-- Inputs from the command line, shared by all references of a run. -/
structure RomContext where
  romPath : Path
  romBytes : Bytes
  targetFamily : String
  isSelfDiff : Bool
  emitMode23 : Bool := false
  minFlashBlock : Nat := 64

/-- A selected reference with what is read and computed for it outside. -/
structure SelectedReference where
  entry : ReferenceEntry
  store : AnnotationStore
  /-- `none` when the reference ROM is missing -/
  refRun : Option HeadlessRun
  refBytes : Bytes
  vtAssociations : List Diff.VtAssociation

structure ReferenceMatchResult where
  entry : ReferenceEntry
  matches_ : List MatchedFunction
  propagated : List PropagatedSymbol
  refRun : Option HeadlessRun
  refSymbols : List ReferenceSymbol
  dataLabels : List PropagatedSymbol
  ramLabels : List PropagatedSymbol
  sigMatches : List MatchedFunction
  ramLabelsP2 : List PropagatedSymbol
  dataLabelsP2 : List PropagatedSymbol

/-- `{s.address: s for s in ref_symbols}` -/
def symbolsByAddr (refSymbols : List ReferenceSymbol) : Dict Nat ReferenceSymbol :=
  Dict.ofList (refSymbols.map fun s => (s.address, s))

def symbolsByName (refSymbols : List ReferenceSymbol) : Dict String ReferenceSymbol :=
  Dict.ofList (refSymbols.map fun s => (s.name, s))

/-! ### Matches -/

/-- A reference function kept where it is. -/
def identityMatch (s : ReferenceSymbol) : MatchedFunction where
  refName := s.name
  refAddress := s.address
  newAddress := s.address
  similarity := 1
  source := "identity"

def identityMatches (refSymbols : List ReferenceSymbol) : List MatchedFunction :=
  (refSymbols.filter fun s => s.category = .function).map identityMatch

section Cross

variable (ctx : RomContext) (newRun : HeadlessRun) (ref : SelectedReference)
  (refRun : HeadlessRun)

def anchorsOf : List MatchedFunction :=
  let refSymbols := loadReferenceSymbols ref.store
  Callgraph.bootstrapAnchors ref.refBytes ctx.romBytes refRun newRun
    (symbolsByName refSymbols) (symbolsByAddr refSymbols)

def bfsMatchesOf : List MatchedFunction :=
  (Callgraph.bfsPreseed refRun newRun (symbolsByAddr (loadReferenceSymbols ref.store))
    (some ref.refBytes) (some ctx.romBytes) (anchorsOf ctx newRun ref refRun)).2

/-- The matches that gap-fill starts from. -/
def seedMatches : List MatchedFunction :=
  Diff.matchesFromVtsession ref.vtAssociations ++ anchorsOf ctx newRun ref refRun ++
    bfsMatchesOf ctx newRun ref refRun

def gapMatchesOf : List MatchedFunction :=
  Callgraph.gapFill refRun newRun (some ref.refBytes) (some ctx.romBytes)
    (seedMatches ctx newRun ref refRun)

/-- The matches of all six phases, in the order of the phases. -/
def crossMatches : List MatchedFunction :=
  let allMatches := seedMatches ctx newRun ref refRun ++ gapMatchesOf ctx newRun ref refRun
  allMatches ++ Callgraph.bytecodeIdentityMatch ref.refBytes ctx.romBytes refRun
    (symbolsByAddr (loadReferenceSymbols ref.store)) allMatches

end Cross

/-- Identity on the reference's own ROM, nothing without the reference ROM. -/
def candidateMatches (ctx : RomContext) (newRun : HeadlessRun) (ref : SelectedReference) :
    List MatchedFunction :=
  if ctx.isSelfDiff then identityMatches (loadReferenceSymbols ref.store)
  else
    match ref.refRun with
    | none => []
    | some refRun => crossMatches ctx newRun ref refRun

/-- Keep the highest-ranked match per reference address, then per new address; the
registry priority is constant within one reference. -/
def dedupMatches (ms : List MatchedFunction) : List MatchedFunction :=
  let bestByRef := (keepBest MatchedFunction.refAddress (matchRank Dict.empty) ms).values
  (keepBest MatchedFunction.newAddress (matchRank Dict.empty) bestByRef).values

/-! ### Labels -/

def ramGlobalLabel (s : ReferenceSymbol) : PropagatedSymbol where
  name := s.name
  refAddress := s.address
  newAddress := s.address
  category := .ramGlobal
  confidence := .high
  source := "ram_global"
  score := 1

def identityDataLabel (s : ReferenceSymbol) : PropagatedSymbol where
  name := s.name
  refAddress := s.address
  newAddress := s.address
  category := .data
  confidence := .high
  source := "identity"
  score := 1

/-- RAM globals by absolute address, for the reference's own ROM only. -/
def ramGlobals (ctx : RomContext) (newRun : HeadlessRun) (refSymbols : List ReferenceSymbol) :
    List PropagatedSymbol :=
  if ctx.isSelfDiff then
    (refSymbols.filter fun s => s.category = .ramGlobal ∧ s.address ∈ newRun.ramRefs).map
      ramGlobalLabel
  else []

/-- Both access maps, when there is a reference run and neither map is empty. -/
def accessMaps (select : HeadlessRun → Dict Nat (List DataRef)) (newRun : HeadlessRun)
    (refRun : Option HeadlessRun) : Option (Dict Nat (List DataRef) × Dict Nat (List DataRef)) :=
  match refRun with
  | none => none
  | some refRun =>
    if (select refRun).entries = [] ∨ (select newRun).entries = [] then none
    else some (select refRun, select newRun)

section Labels

variable (ctx : RomContext) (newRun : HeadlessRun) (refRun : Option HeadlessRun)
  (refSymbols : List ReferenceSymbol) (ms : List MatchedFunction)

def crossDataLabels : List PropagatedSymbol :=
  match accessMaps HeadlessRun.dataRefs newRun refRun with
  | none => []
  | some (refRefs, newRefs) =>
    DataRefs.propagateDataLabels refRefs newRefs ms (symbolsByAddr refSymbols)

def crossRamLabels : List PropagatedSymbol :=
  match accessMaps HeadlessRun.ramDataRefs newRun refRun with
  | none => []
  | some (refRefs, newRefs) =>
    DataRefs.propagateRamLabels refRefs newRefs ms (symbolsByAddr refSymbols)

def dataLabels : List PropagatedSymbol :=
  if ctx.isSelfDiff then (refSymbols.filter fun s => s.category = .data).map identityDataLabel
  else crossDataLabels newRun refRun refSymbols ms

def ramLabels : List PropagatedSymbol :=
  if ctx.isSelfDiff then [] else crossRamLabels newRun refRun refSymbols ms

/-- The names of the annotated RAM globals by address. -/
def ramGlobalNames : Dict Nat String :=
  Dict.ofList ((refSymbols.filter fun s => s.category = .ramGlobal).map fun s =>
    (s.address, s.name))

/-- Signature matches need RAM labels of the first pass to name the variables with. -/
def sigMatches : List MatchedFunction :=
  let firstPass := ramLabels ctx newRun refRun refSymbols ms
  if ctx.isSelfDiff ∨ firstPass = [] then []
  else
    match accessMaps HeadlessRun.ramDataRefs newRun refRun with
    | none => []
    | some (refRefs, newRefs) =>
      let refLabelMap := ramGlobalNames refSymbols
      let newLabelMap := Dict.ofList (firstPass.map fun ps => (ps.newAddress, ps.name))
      RamSignature.matchByRamSignature
        (RamSignature.buildRamSignatures refRefs refLabelMap)
        (RamSignature.buildRamSignatures newRefs newLabelMap) ms (symbolsByAddr refSymbols)

end Labels

section Pass

variable (ctx : RomContext) (newRun : HeadlessRun) (ref : SelectedReference)

/-- The matches left after both dedup passes. -/
def keptMatches : List MatchedFunction := dedupMatches (candidateMatches ctx newRun ref)

def signatureMatches : List MatchedFunction :=
  sigMatches ctx newRun ref.refRun (loadReferenceSymbols ref.store) (keptMatches ctx newRun ref)

def extendedMatches : List MatchedFunction :=
  keptMatches ctx newRun ref ++ signatureMatches ctx newRun ref

/-- The second pass runs only when there are signature matches. -/
def ramLabelsP2 : List PropagatedSymbol :=
  if signatureMatches ctx newRun ref = [] then []
  else crossRamLabels newRun ref.refRun (loadReferenceSymbols ref.store)
    (extendedMatches ctx newRun ref)

def dataLabelsP2 : List PropagatedSymbol :=
  if signatureMatches ctx newRun ref = [] then []
  else crossDataLabels newRun ref.refRun (loadReferenceSymbols ref.store)
    (extendedMatches ctx newRun ref)

/-- The labels of both passes, before they are stamped with their origin. -/
def proposedLabels : List PropagatedSymbol :=
  let refSymbols := loadReferenceSymbols ref.store
  let ms := keptMatches ctx newRun ref
  Propagate.propagateFunctionLabels refSymbols ms ++ ramGlobals ctx newRun refSymbols ++
    dataLabels ctx newRun ref.refRun refSymbols ms ++
    ramLabels ctx newRun ref.refRun refSymbols ms ++
    Propagate.propagateFunctionLabels refSymbols (signatureMatches ctx newRun ref) ++
    ramLabelsP2 ctx newRun ref ++ dataLabelsP2 ctx newRun ref

/-- The full matching and propagation pass for one reference. -/
def matchReference : ReferenceMatchResult :=
  let refSymbols := loadReferenceSymbols ref.store
  let ms := keptMatches ctx newRun ref
  { entry := ref.entry
    matches_ := (extendedMatches ctx newRun ref).map fun m => { m with reference := ref.entry.id }
    propagated := Propagate.applyReferenceProvenance (proposedLabels ctx newRun ref) ref.entry.id
      (ref.entry.family = ctx.targetFamily)
    refRun := ref.refRun
    refSymbols := refSymbols
    dataLabels := dataLabels ctx newRun ref.refRun refSymbols ms
    ramLabels := ramLabels ctx newRun ref.refRun refSymbols ms
    sigMatches := signatureMatches ctx newRun ref
    ramLabelsP2 := ramLabelsP2 ctx newRun ref
    dataLabelsP2 := dataLabelsP2 ctx newRun ref }

variable {ctx newRun ref}

theorem mem_matches {m : MatchedFunction} :
    m ∈ (matchReference ctx newRun ref).matches_ ↔
      ∃ k ∈ extendedMatches ctx newRun ref, { k with reference := ref.entry.id } = m :=
  List.mem_map

theorem mem_propagated {t : PropagatedSymbol} :
    t ∈ (matchReference ctx newRun ref).propagated ↔
      ∃ s ∈ proposedLabels ctx newRun ref, Propagate.stampProvenance ref.entry.id
        (ref.entry.family = ctx.targetFamily) s = t :=
  List.mem_map

end Pass

/-! ### The matches are one-to-one -/

theorem dedupMatches_nodup (ms : List MatchedFunction) :
    ((dedupMatches ms).map MatchedFunction.refAddress).Nodup ∧
      ((dedupMatches ms).map MatchedFunction.newAddress).Nodup := by
  constructor
  · exact nodup_map_keepBest _ _ MatchedFunction.refAddress (nodup_map_key_keepBest _ _ ms)
  · exact nodup_map_key_keepBest _ _ _

theorem mem_of_mem_dedupMatches {ms : List MatchedFunction} {m : MatchedFunction}
    (h : m ∈ dedupMatches ms) : m ∈ ms :=
  mem_of_mem_values_keepBest _ _ (mem_of_mem_values_keepBest _ _ h)

theorem exists_mem_dedupMatches {ms : List MatchedFunction} {m : MatchedFunction}
    (h : m ∈ ms) : ∃ k, k ∈ dedupMatches ms := by
  obtain ⟨r, hr, _⟩ :=
    exists_mem_values_keepBest MatchedFunction.refAddress (matchRank Dict.empty) h
  obtain ⟨k, hk, _⟩ :=
    exists_mem_values_keepBest MatchedFunction.newAddress (matchRank Dict.empty) hr
  exact ⟨k, hk⟩

/-- Where the signature matches of a run come from. -/
theorem sigMatches_cases (ctx : RomContext) (newRun : HeadlessRun) (refRun : Option HeadlessRun)
    (refSymbols : List ReferenceSymbol) (ms : List MatchedFunction) :
    sigMatches ctx newRun refRun refSymbols ms = [] ∨
      ∃ run newLabelMap, refRun = some run ∧ ctx.isSelfDiff = false ∧
        sigMatches ctx newRun refRun refSymbols ms =
          RamSignature.matchByRamSignature
            (RamSignature.buildRamSignatures run.ramDataRefs (ramGlobalNames refSymbols))
            (RamSignature.buildRamSignatures newRun.ramDataRefs newLabelMap) ms
            (symbolsByAddr refSymbols) := by
  unfold sigMatches
  dsimp only
  split
  · exact Or.inl rfl
  · rename_i hself
    rw [not_or, Bool.not_eq_true] at hself
    unfold accessMaps
    cases refRun with
    | none => exact Or.inl rfl
    | some run =>
      dsimp only
      split
      · exact Or.inl rfl
      · rename_i hmaps
        split at hmaps
        · cases hmaps
        · obtain ⟨rfl, rfl⟩ := Prod.mk.inj (Option.some.inj hmaps)
          exact Or.inr ⟨run, _, rfl, hself.1, rfl⟩

theorem extendedMatches_oneToOne (ctx : RomContext) (newRun : HeadlessRun)
    (ref : SelectedReference) :
    ((extendedMatches ctx newRun ref).map MatchedFunction.refAddress).Nodup ∧
      ((extendedMatches ctx newRun ref).map MatchedFunction.newAddress).Nodup := by
  have hdedup := dedupMatches_nodup (candidateMatches ctx newRun ref)
  unfold extendedMatches keptMatches
  rcases sigMatches_cases ctx newRun ref.refRun (loadReferenceSymbols ref.store)
      (keptMatches ctx newRun ref) with hnil | ⟨run, nl, _, _, hsig⟩
  · rw [signatureMatches, hnil, List.append_nil]
    exact hdedup
  · rw [signatureMatches, hsig, List.map_append, List.map_append, List.nodup_append,
      List.nodup_append]
    refine ⟨⟨hdedup.1, RamSignature.matchByRamSignature_nodup.1, ?_⟩,
      ⟨hdedup.2, RamSignature.matchByRamSignature_nodup.2, ?_⟩⟩
    · intro a ha b hb hab
      obtain ⟨m, hm, rfl⟩ := List.mem_map.mp hb
      exact (RamSignature.matchByRamSignature_apart hm).1 (hab ▸ ha)
    · intro a ha b hb hab
      obtain ⟨m, hm, rfl⟩ := List.mem_map.mp hb
      exact (RamSignature.matchByRamSignature_apart hm).2 (hab ▸ ha)

/-- The matches of one reference form a partial bijection, signature matches
included. -/
theorem matchReference_oneToOne (ctx : RomContext) (newRun : HeadlessRun)
    (ref : SelectedReference) :
    ((matchReference ctx newRun ref).matches_.map MatchedFunction.refAddress).Nodup ∧
      ((matchReference ctx newRun ref).matches_.map MatchedFunction.newAddress).Nodup := by
  have hone := extendedMatches_oneToOne ctx newRun ref
  unfold matchReference
  dsimp only
  rw [List.map_map, List.map_map]
  exact hone

end RomAnalyzer.Pipeline
