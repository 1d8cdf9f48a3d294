import RomAnalyzer.Pipeline.Analyze

/-!
# Analysing a reference's own ROM

On its own ROM a reference is copied. Where no two entries of the annotations
share an address, no stage after the copy has anything to choose: the dedup
passes, the gating by family and the arbitration hand every entry on as it is.
-/
namespace RomAnalyzer.Pipeline

open Lib
open AnnotationsIo (loadReferenceSymbols)
open Ghidra (HeadlessRun)
open Propagate (stampProvenance)

/-- The functions, the data symbols and the RAM globals the program refers to. -/
def Copied (newRun : HeadlessRun) (s : ReferenceSymbol) : Prop :=
  s.category = .function ∨ s.category = .data ∨
    s.category = .ramGlobal ∧ s.address ∈ newRun.ramRefs

instance (newRun : HeadlessRun) : DecidablePred (Copied newRun) := fun s =>
  inferInstanceAs (Decidable (s.category = .function ∨ _ ∨ _))

/-- An entry of the annotations as a label of the reference `id`. -/
def copyOf (id : String) (s : ReferenceSymbol) : PropagatedSymbol where
  name := s.name
  refAddress := s.address
  newAddress := s.address
  category := s.category
  confidence := .high
  source := if s.category = .ramGlobal then "ram_global" else "identity"
  score := 1
  reference := id
  familyMatch := true

/-- The merged result copies the annotations: one label per copied entry and no other,
in ascending order of address, nothing to report, and all functions matched. -/
structure CopiesAnnotations (newRun : HeadlessRun) (id : String)
    (refSymbols : List ReferenceSymbol) (merged : MergeResult) : Prop where
  labels : merged.propagated.Perm ((refSymbols.filter (Copied newRun)).map (copyOf id))
  ascending : (merged.propagated.map PropagatedSymbol.newAddress).Pairwise (· < ·)
  disagreements : merged.disagreements = []
  crossFamily : merged.crossFamily = []
  matchedCount : merged.matchedCount =
    (refSymbols.filter fun s => s.category = .function).length
  totalRef : merged.totalRef = (refSymbols.filter fun s => s.category = .function).length

/-- Matches that are one-to-one already all pass the dedup. -/
theorem dedupMatches_perm {ms : List MatchedFunction}
    (href : (ms.map MatchedFunction.refAddress).Nodup)
    (hnew : (ms.map MatchedFunction.newAddress).Nodup) : (dedupMatches ms).Perm ms := by
  have hfirst := (settles_keepBest MatchedFunction.refAddress (Merge.matchRank Dict.empty)
    ms).perm_of_nodup href
  have hsecond := (settles_keepBest MatchedFunction.newAddress (Merge.matchRank Dict.empty)
    (keepBest MatchedFunction.refAddress (Merge.matchRank Dict.empty) ms).values).perm_of_nodup
      ((hfirst.map _).nodup_iff.mpr hnew)
  exact hsecond.trans hfirst

section Arbitration

variable {symbols : List PropagatedSymbol}

/-- One proposal per address: all of them win. -/
theorem arbitrateSymbols_perm (priority : Merge.Priority)
    (h : (symbols.map PropagatedSymbol.newAddress).Nodup) :
    (Merge.arbitrateSymbols symbols priority).1.Perm symbols :=
  (Merge.arbitrateSymbols_settles symbols priority).perm_of_nodup h

theorem disagreements_eq_nil (priority : Merge.Priority)
    (h : (symbols.map PropagatedSymbol.newAddress).Nodup) :
    (Merge.arbitrateSymbols symbols priority).2 = [] := by
  rw [List.eq_nil_iff_forall_not_mem]
  intro d hd
  obtain ⟨s, hs, u, hu, hsa, hua, hname⟩ :=
    (Merge.mem_map_disagreements d.newAddress).mp (List.mem_map_of_mem hd)
  obtain rfl := List.inj_on_of_nodup_map h hs hu (hsa.trans hua.symm)
  exact hname rfl

/-- One match per new address: the merge of a single list keeps them all. -/
theorem mergeMatches_singleton_perm {ms : List MatchedFunction} (priority : Merge.Priority)
    (h : (ms.map MatchedFunction.newAddress).Nodup) :
    (Merge.mergeMatches [ms] priority).Perm ms := by
  have hsettles := Merge.mergeMatches_settles [ms] priority
  rw [List.flatten_singleton] at hsettles
  exact hsettles.perm_of_nodup h

end Arbitration

section SelfDiff

variable {ctx : RomContext} {newRun : HeadlessRun} {ref : SelectedReference}

theorem identityMatches_nodup {refSymbols : List ReferenceSymbol}
    (h : (refSymbols.map ReferenceSymbol.address).Nodup) :
    ((identityMatches refSymbols).map MatchedFunction.refAddress).Nodup ∧
      ((identityMatches refSymbols).map MatchedFunction.newAddress).Nodup := by
  have hfunctions : ((refSymbols.filter fun s => s.category = .function).map
      ReferenceSymbol.address).Nodup := h.sublist (List.filter_sublist.map _)
  unfold identityMatches
  rw [List.map_map, List.map_map]
  exact ⟨hfunctions, hfunctions⟩

theorem extendedMatches_perm_of_selfDiff (hself : ctx.isSelfDiff = true)
    (h : ((loadReferenceSymbols ref.store).map ReferenceSymbol.address).Nodup) :
    (extendedMatches ctx newRun ref).Perm (identityMatches (loadReferenceSymbols ref.store)) := by
  rw [extendedMatches, no_second_pass_of_selfDiff hself, List.append_nil, keptMatches,
    candidateMatches, if_pos hself]
  exact dedupMatches_perm (identityMatches_nodup h).1 (identityMatches_nodup h).2

/-- The label of an identity match is the function itself, with high confidence. -/
theorem functionLabel_identityMatch (byAddr : Dict Nat ReferenceSymbol) {s : ReferenceSymbol}
    (hcat : s.category = .function) (hname : s.name ≠ "") (id : String) :
    (Propagate.functionLabel byAddr false (identityMatch s)).map (stampProvenance id true) =
      some (copyOf id s) := by
  have hlabel : Propagate.labelName byAddr (identityMatch s) = some s.name := if_pos hname
  have htier : Propagate.tierForScore 1 = .high := by decide +kernel
  unfold Propagate.functionLabel
  rw [hlabel]
  simp [htier, stampProvenance, copyOf, identityMatch, hcat]

theorem functionLabels_identityMatches {refSymbols : List ReferenceSymbol}
    (hname : ∀ s ∈ refSymbols, s.category = .function → s.name ≠ "") (id : String) :
    (Propagate.propagateFunctionLabels refSymbols (identityMatches refSymbols)).map
        (stampProvenance id true) =
      (refSymbols.filter fun s => s.category = .function).map (copyOf id) := by
  unfold Propagate.propagateFunctionLabels identityMatches
  rw [List.filterMap_map, List.map_filterMap, ← List.filterMap_eq_map]
  apply List.filterMap_congr
  intro s hs
  obtain ⟨hs, hcat⟩ := List.mem_filter.mp hs
  have hcat := of_decide_eq_true hcat
  exact functionLabel_identityMatch _ hcat (hname s hs hcat) id

theorem stamped_ramGlobalLabels (newRun : HeadlessRun) (refSymbols : List ReferenceSymbol)
    (id : String) :
    ((refSymbols.filter fun s => s.category = .ramGlobal ∧ s.address ∈ newRun.ramRefs).map
        ramGlobalLabel).map (stampProvenance id true) =
      (refSymbols.filter fun s => s.category = .ramGlobal ∧ s.address ∈ newRun.ramRefs).map
        (copyOf id) := by
  rw [List.map_map]
  apply List.map_congr_left
  intro s hs
  obtain ⟨hcat, _⟩ := of_decide_eq_true (List.mem_filter.mp hs).2
  simp [stampProvenance, ramGlobalLabel, copyOf, hcat]

theorem stamped_identityDataLabels (refSymbols : List ReferenceSymbol) (id : String) :
    ((refSymbols.filter fun s => s.category = .data).map identityDataLabel).map
        (stampProvenance id true) =
      (refSymbols.filter fun s => s.category = .data).map (copyOf id) := by
  rw [List.map_map]
  apply List.map_congr_left
  intro s hs
  have hcat := of_decide_eq_true (List.mem_filter.mp hs).2
  simp [stampProvenance, identityDataLabel, copyOf, hcat]

/-- Without a second pass three kinds of labels are left. -/
theorem proposedLabels_of_selfDiff (hself : ctx.isSelfDiff = true) :
    proposedLabels ctx newRun ref =
      Propagate.propagateFunctionLabels (loadReferenceSymbols ref.store)
          (keptMatches ctx newRun ref) ++
        ((loadReferenceSymbols ref.store).filter fun s =>
          s.category = .ramGlobal ∧ s.address ∈ newRun.ramRefs).map ramGlobalLabel ++
        ((loadReferenceSymbols ref.store).filter fun s => s.category = .data).map
          identityDataLabel := by
  have hpass : signatureMatches ctx newRun ref = [] := no_second_pass_of_selfDiff hself
  unfold proposedLabels
  simp only [ramGlobals, dataLabels, ramLabels, ramLabelsP2, dataLabelsP2, hself, hpass,
    ↓reduceIte, Propagate.propagateFunctionLabels, List.filterMap_nil, List.append_nil]

/-- What is copied, category by category. -/
theorem copied_perm (newRun : HeadlessRun) (refSymbols : List ReferenceSymbol) :
    ((refSymbols.filter fun s => s.category = .function) ++
      (refSymbols.filter fun s => s.category = .ramGlobal ∧ s.address ∈ newRun.ramRefs) ++
      refSymbols.filter fun s => s.category = .data).Perm
        (refSymbols.filter (Copied newRun)) := by
  induction refSymbols with
  | nil => simp
  | cons s rest ih =>
    cases hcat : s.category with
    | function => simpa [Copied, hcat] using ih
    | data => simpa [Copied, hcat] using List.perm_middle.trans (List.Perm.cons s ih)
    | ramGlobal =>
      by_cases href : s.address ∈ newRun.ramRefs
      · have hmid := List.perm_middle.trans (List.Perm.cons s (by simpa using ih))
        simpa [Copied, hcat, href] using hmid
      · simpa [Copied, hcat, href] using ih

/-- The labels of the reference are its own entries. -/
theorem propagated_perm_of_selfDiff (hself : ctx.isSelfDiff = true)
    (hfamily : ref.entry.family = ctx.targetFamily)
    (haddr : ((loadReferenceSymbols ref.store).map ReferenceSymbol.address).Nodup)
    (hname : ∀ s ∈ loadReferenceSymbols ref.store, s.category = .function → s.name ≠ "") :
    (matchReference ctx newRun ref).propagated.Perm
      (((loadReferenceSymbols ref.store).filter (Copied newRun)).map (copyOf ref.entry.id)) := by
  have hkept : (keptMatches ctx newRun ref).Perm
      (identityMatches (loadReferenceSymbols ref.store)) := by
    have hext : (extendedMatches ctx newRun ref).Perm _ :=
      extendedMatches_perm_of_selfDiff hself haddr
    rwa [extendedMatches, no_second_pass_of_selfDiff hself, List.append_nil] at hext
  have hfunctions : ((Propagate.propagateFunctionLabels (loadReferenceSymbols ref.store)
      (keptMatches ctx newRun ref)).map (stampProvenance ref.entry.id true)).Perm
        (((loadReferenceSymbols ref.store).filter fun s => s.category = .function).map
          (copyOf ref.entry.id)) := by
    rw [← functionLabels_identityMatches hname]
    exact (hkept.filterMap _).map _
  have hpropagated : (matchReference ctx newRun ref).propagated =
      (proposedLabels ctx newRun ref).map (stampProvenance ref.entry.id true) := by
    unfold matchReference Propagate.applyReferenceProvenance
    rw [hfamily, decide_eq_true rfl]
  rw [hpropagated, proposedLabels_of_selfDiff hself, List.map_append, List.map_append,
    stamped_ramGlobalLabels, stamped_identityDataLabels]
  refine List.Perm.trans ?_ ((copied_perm newRun _).map _)
  rw [List.map_append, List.map_append]
  exact (hfunctions.append_right _).append_right _

end SelfDiff

/-- A single reference has its own labels and matches arbitrated. -/
theorem copiesAnnotations_of_perm {newRun : HeadlessRun} {refSymbols : List ReferenceSymbol}
    (result : ReferenceMatchResult) (priority : Merge.Priority)
    (haddr : (refSymbols.map ReferenceSymbol.address).Nodup)
    (hsymbols : result.refSymbols = refSymbols)
    (hlabels : result.propagated.Perm
      ((refSymbols.filter (Copied newRun)).map (copyOf result.entry.id)))
    (hmatches : result.matches_.Perm ((identityMatches refSymbols).map fun m =>
      { m with reference := result.entry.id })) :
    CopiesAnnotations newRun result.entry.id refSymbols
      (arbitrateReferences [result] priority) := by
  have hall : allPropagated [result] = result.propagated := List.append_nil _
  -- no two labels share an address
  have hnodup : (result.propagated.map PropagatedSymbol.newAddress).Nodup := by
    rw [(hlabels.map _).nodup_iff, List.map_map]
    exact haddr.sublist (List.filter_sublist.map _)
  have hwinners : (Merge.arbitrateSymbols result.propagated priority).1.Perm
      ((refSymbols.filter (Copied newRun)).map (copyOf result.entry.id)) :=
    (arbitrateSymbols_perm priority hnodup).trans hlabels
  have hnamed : namedRefAddrs [result] =
      (refSymbols.filter fun s => s.category = .function).map ReferenceSymbol.address := by
    show ((result.refSymbols.filter fun s => s.category = .function).map
      ReferenceSymbol.address).dedup = _
    rw [hsymbols]
    exact List.Nodup.dedup (haddr.sublist (List.filter_sublist.map _))
  have hnews : (result.matches_.map MatchedFunction.newAddress).Nodup := by
    rw [(hmatches.map _).nodup_iff, List.map_map]
    exact (identityMatches_nodup haddr).2
  have hmerged : (Merge.mergeMatches [result.matches_] priority).Perm
      ((identityMatches refSymbols).map fun m => { m with reference := result.entry.id }) :=
    (mergeMatches_singleton_perm priority hnews).trans hmatches
  constructor
  · show (Merge.arbitrateSymbols (allPropagated [result]) priority).1.Perm _
    rw [hall]
    exact hwinners
  · exact Merge.arbitrateSymbols_ascending _ _
  · show (Merge.arbitrateSymbols (allPropagated [result]) priority).2 = []
    rw [hall]
    exact disagreements_eq_nil priority hnodup
  · show ((Merge.arbitrateSymbols (allPropagated [result]) priority).1.filter fun s =>
      s.familyMatch = false) = []
    rw [hall, List.filter_eq_nil_iff]
    intro t ht
    obtain ⟨s, _, rfl⟩ := List.mem_map.mp (hwinners.mem_iff.mp ht)
    simp [copyOf]
  · show ((Merge.mergeMatches [result.matches_] priority).filter fun m =>
      m.refAddress ∈ namedRefAddrs [result]).length = _
    rw [hnamed, (hmerged.filter _).length_eq, List.filter_eq_self.mpr]
    · simp [identityMatches]
    · intro m hm
      obtain ⟨k, hk, rfl⟩ := List.mem_map.mp hm
      obtain ⟨s, hs, rfl⟩ := List.mem_map.mp hk
      exact decide_eq_true (List.mem_map_of_mem hs)
  · show (namedRefAddrs [result]).length = _
    rw [hnamed, List.length_map]

/-- Self-diff is the identity on annotations without a shared address. -/
theorem analyze_selfDiff_copiesAnnotations (resolve : Path → Path) (target : Target)
    (sel : Selection) (emitMode23 : Bool) (minFlashBlock : Nat)
    (hown : OwnRom resolve target sel.primary.entry) (hsingle : sel.others = [])
    (haddr : ((loadReferenceSymbols sel.primary.store).map ReferenceSymbol.address).Nodup)
    (hname : ∀ s ∈ loadReferenceSymbols sel.primary.store,
      s.category = .function → s.name ≠ "") :
    CopiesAnnotations target.newRun sel.primary.entry.id
      (loadReferenceSymbols sel.primary.store)
      (analyzeMerged resolve target sel emitMode23 minFlashBlock) := by
  have hself : (analyzeContext resolve target sel emitMode23 minFlashBlock).isSelfDiff = true :=
    analyzeContext_isSelfDiff.mpr hown
  have hresults : analyzeResults resolve target sel emitMode23 minFlashBlock =
      [matchReference (analyzeContext resolve target sel emitMode23 minFlashBlock)
        target.newRun sel.primary] := by
    unfold analyzeResults Selection.all
    rw [hsingle]
    rfl
  unfold analyzeMerged
  rw [hresults]
  apply copiesAnnotations_of_perm (matchReference _ target.newRun sel.primary) sel.priority
    haddr rfl
  · exact propagated_perm_of_selfDiff hself rfl haddr hname
  · exact (extendedMatches_perm_of_selfDiff hself haddr).map _

section Colt

/-- A function, a data symbol and two RAM globals, one of which the program refers to. -/
def coltStore : AnnotationStore where
  schemaVersion := 1
  romId := "colt"
  romSha256 := ""
  symbols := [
    { name := "flash_trouble_code_table", address := 0x12948, category := .data },
    { name := "age_x1.rpm", address := 0x804d5e, category := .ramGlobal },
    { name := "age_x1.load", address := 0x804d60, category := .ramGlobal }]
  functions := [{ name := "get_mut_pointer", entryPoint := 0x2000 }]

def coltSelf : Selection where
  primary := { coltSelection.primary with store := coltStore }
  others := []

/-- The Colt ROM next to its own annotations. -/
theorem copiesAnnotations_colt :
    CopiesAnnotations { coltTarget.newRun with ramRefs := [0x804d5e] } "colt"
      (loadReferenceSymbols coltStore)
      (analyzeMerged id { coltTarget with newRun := { ramRefs := [0x804d5e] } } coltSelf
        false 64) :=
  analyze_selfDiff_copiesAnnotations id { coltTarget with newRun := { ramRefs := [0x804d5e] } }
    coltSelf false 64 (by decide) rfl (by decide) (by decide)

end Colt

end RomAnalyzer.Pipeline
