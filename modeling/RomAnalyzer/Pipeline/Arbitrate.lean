import RomAnalyzer.Pipeline.Reference

/-!
# Merging the references

The results of all references are merged by target address. The summary text is
kept as its two counts.
-/
namespace RomAnalyzer.Pipeline

open Lib
open Merge (Priority Disagreement)

structure MergeResult where
  matches_ : List MatchedFunction
  propagated : List PropagatedSymbol
  disagreements : List Disagreement
  crossFamily : List PropagatedSymbol
  priority : Priority
  /-- matches at the address of a named reference function -/
  matchedCount : Nat
  /-- named functions of the first reference -/
  totalRef : Nat

/-- What all references propose, in the order of the references. -/
def allPropagated (results : List ReferenceMatchResult) : List PropagatedSymbol :=
  results.flatMap ReferenceMatchResult.propagated

/-- The addresses of the first reference's functions. -/
def namedRefAddrs (results : List ReferenceMatchResult) : List Nat :=
  match results with
  | [] => []
  | first :: _ =>
    ((first.refSymbols.filter fun s => s.category = .function).map
      ReferenceSymbol.address).dedup

def arbitrateReferences (results : List ReferenceMatchResult) (priority : Priority) :
    MergeResult :=
  let ms := Merge.mergeMatches (results.map ReferenceMatchResult.matches_) priority
  let arbitrated := Merge.arbitrateSymbols (allPropagated results) priority
  { matches_ := ms
    propagated := arbitrated.1
    disagreements := arbitrated.2
    crossFamily := arbitrated.1.filter fun s => s.familyMatch = false
    priority := priority
    matchedCount := (ms.filter fun m => m.refAddress ∈ namedRefAddrs results).length
    totalRef := (namedRefAddrs results).length }

/-! ### The verdicts -/

theorem arbitrateReferences_matches (results : List ReferenceMatchResult)
    (priority : Priority) :
    Settles MatchedFunction.newAddress (Merge.matchRank priority)
      (results.flatMap ReferenceMatchResult.matches_)
      (arbitrateReferences results priority).matches_ := by
  rw [List.flatMap_def]
  exact Merge.mergeMatches_settles _ _

theorem arbitrateReferences_propagated (results : List ReferenceMatchResult)
    (priority : Priority) :
    Settles PropagatedSymbol.newAddress (Merge.symbolRank priority) (allPropagated results)
      (arbitrateReferences results priority).propagated :=
  Merge.arbitrateSymbols_settles _ _

/-- The arbitration keeps one best match and one best symbol per target address,
reports exactly the addresses with conflicting names, and depends on the order of
the references only where several proposals share the highest rank. -/
theorem arbitrateReferences_verdicts (results : List ReferenceMatchResult)
    (priority : Priority) :
    let merged := arbitrateReferences results priority
    let allMatches := results.flatMap ReferenceMatchResult.matches_
    let proposals := allPropagated results
    Settles MatchedFunction.newAddress (Merge.matchRank priority) allMatches merged.matches_ ∧
    Settles PropagatedSymbol.newAddress (Merge.symbolRank priority) proposals
      merged.propagated ∧
    (merged.propagated.map PropagatedSymbol.newAddress).Pairwise (· < ·) ∧
    (merged.disagreements.map Disagreement.newAddress).Nodup ∧
    (∀ addr, addr ∈ merged.disagreements.map Disagreement.newAddress ↔
      ∃ s ∈ proposals, ∃ u ∈ proposals,
        s.newAddress = addr ∧ u.newAddress = addr ∧ s.name ≠ u.name) ∧
    (∀ d ∈ merged.disagreements,
      d.candidates.Perm ((proposals.filter fun s => s.newAddress = d.newAddress).map
        fun s => (s.reference, s.name)) ∧
      d.candidates.Pairwise (fun c c' => toLex c ≤ toLex c') ∧
      ∃ s ∈ merged.propagated, s.newAddress = d.newAddress ∧ d.winner = s.name) ∧
    ∀ results' : List ReferenceMatchResult, results'.Perm results →
      SameVerdicts MatchedFunction.newAddress (Merge.matchRank priority) allMatches
        merged.matches_ (arbitrateReferences results' priority).matches_ ∧
      SameVerdicts PropagatedSymbol.newAddress (Merge.symbolRank priority) proposals
        merged.propagated (arbitrateReferences results' priority).propagated := by
  intro merged allMatches proposals
  refine ⟨arbitrateReferences_matches results priority,
    arbitrateReferences_propagated results priority,
    Merge.arbitrateSymbols_ascending _ _, Merge.disagreements_nodup _ _, ?_, ?_, ?_⟩
  · exact Merge.mem_map_disagreements
  · intro d hd
    obtain ⟨w, hw, hat⟩ := Merge.mem_disagreements.mp hd
    obtain ⟨_, haddr, hcands, hwinner⟩ := Merge.disagreementAt_eq_some.mp hat
    rw [haddr, hcands]
    exact ⟨sortBy_perm _ _, sortBy_pairwise _ _, w, hw, rfl, hwinner⟩
  · intro results' hperm
    constructor
    · exact (arbitrateReferences_matches results priority).sameVerdicts_of_perm
        (arbitrateReferences_matches results' priority) (hperm.flatMap_right _)
    · exact (arbitrateReferences_propagated results priority).sameVerdicts_of_perm
        (arbitrateReferences_propagated results' priority) (hperm.flatMap_right _)

/-! ### The match summary -/

section Summary

variable (first : ReferenceMatchResult) (rest : List ReferenceMatchResult) (priority : Priority)

/-- The named functions of the first reference that one of its own merged matches
covers. -/
def coveredAddrs : List Nat :=
  (namedRefAddrs (first :: rest)).filter fun a =>
    ∃ m ∈ (arbitrateReferences (first :: rest) priority).matches_,
      m.reference = first.entry.id ∧ m.refAddress = a

/-- The merged matches the summary counts. -/
def countedMatches : List MatchedFunction :=
  (arbitrateReferences (first :: rest) priority).matches_.filter fun m =>
    m.refAddress ∈ namedRefAddrs (first :: rest)

/-- A proposal that no other proposal for its new address beats, at the address of
a named function of the first reference. -/
def WinsNamedAddr (m : MatchedFunction) : Prop :=
  Unbeaten MatchedFunction.newAddress (Merge.matchRank priority)
    ((first :: rest).flatMap ReferenceMatchResult.matches_) m ∧
  m.refAddress ∈ namedRefAddrs (first :: rest)

variable {first rest priority}

theorem mem_countedMatches {m : MatchedFunction} :
    m ∈ countedMatches first rest priority ↔ WinsNamedAddr first rest priority m := by
  rw [countedMatches, List.mem_filter, decide_eq_true_iff, WinsNamedAddr,
    ← mem_values_keepBest_iff_unbeaten, List.flatMap_def]
  rfl

theorem mem_coveredAddrs {a : Nat} :
    a ∈ coveredAddrs first rest priority ↔
      ∃ m ∈ countedMatches first rest priority,
        m.reference = first.entry.id ∧ m.refAddress = a := by
  simp only [coveredAddrs, countedMatches, List.mem_filter, decide_eq_true_iff]
  constructor
  · intro h
    obtain ⟨ha, m, hm, hid, rfl⟩ := h
    exact ⟨m, ⟨hm, ha⟩, hid, rfl⟩
  · intro h
    obtain ⟨m, ⟨hm, ha⟩, hid, rfl⟩ := h
    exact ⟨ha, m, hm, hid, rfl⟩

theorem coveredAddrs_nodup : (coveredAddrs first rest priority).Nodup :=
  (List.nodup_dedup _).filter _

theorem countedMatches_nodup : (countedMatches first rest priority).Nodup :=
  (List.Nodup.of_map _ (arbitrateReferences_matches (first :: rest) priority).nodup).filter _

theorem coveredAddrs_subset :
    coveredAddrs first rest priority ⊆
      (countedMatches first rest priority).map MatchedFunction.refAddress := by
  intro a ha
  obtain ⟨m, hm, _, rfl⟩ := mem_coveredAddrs.mp ha
  exact List.mem_map_of_mem hm

/-- The numerator of the summary is the number of named functions of the first
reference that its own merged matches cover, and stays below the denominator,
exactly when every winning proposal at a named address is the first reference's
and no two of them share the address. -/
theorem matchSummary_counts_primary_iff (first : ReferenceMatchResult)
    (rest : List ReferenceMatchResult) (priority : Priority) :
    (arbitrateReferences (first :: rest) priority).matchedCount =
        (coveredAddrs first rest priority).length ∧
      (arbitrateReferences (first :: rest) priority).matchedCount ≤
        (arbitrateReferences (first :: rest) priority).totalRef ↔
    (∀ m, WinsNamedAddr first rest priority m → m.reference = first.entry.id) ∧
      ∀ m m', WinsNamedAddr first rest priority m → WinsNamedAddr first rest priority m' →
        m.refAddress = m'.refAddress → m = m' := by
  have hcount : (arbitrateReferences (first :: rest) priority).matchedCount =
      ((countedMatches first rest priority).map MatchedFunction.refAddress).length := by
    rw [List.length_map]
    rfl
  have hcovered : (coveredAddrs first rest priority).Nodup := coveredAddrs_nodup
  have hsub := hcovered.subperm coveredAddrs_subset
  simp only [← mem_countedMatches]
  rw [hcount]
  constructor
  · intro h
    -- equal lengths make the covered addresses a rearrangement of the counted ones
    have hperm := hsub.perm_of_length_le h.1.le
    have hnodup := hperm.nodup_iff.mp hcovered
    refine ⟨?_, fun m m' hm hm' heq => List.inj_on_of_nodup_map hnodup hm hm' heq⟩
    intro m hm
    obtain ⟨p, hp, hid, haddr⟩ :=
      mem_coveredAddrs.mp (hperm.mem_iff.mpr (List.mem_map_of_mem hm))
    rw [← List.inj_on_of_nodup_map hnodup hp hm haddr]
    exact hid
  · intro h
    obtain ⟨hid, hinj⟩ := h
    have hnodup : ((countedMatches first rest priority).map
        MatchedFunction.refAddress).Nodup :=
      countedMatches_nodup.map_on fun m hm m' hm' heq => hinj m m' hm hm' heq
    have hback : (countedMatches first rest priority).map MatchedFunction.refAddress ⊆
        coveredAddrs first rest priority := by
      intro a ha
      obtain ⟨m, hm, rfl⟩ := List.mem_map.mp ha
      exact mem_coveredAddrs.mpr ⟨m, hm, hid m hm, rfl⟩
    have heq := ((hnodup.subperm hback).antisymm hsub).length_eq
    refine ⟨heq, ?_⟩
    rw [heq]
    exact List.length_filter_le _ _

end Summary

/-- A result that carries nothing but matches and reference symbols. -/
def bareResult (id : String) (ms : List MatchedFunction) (refSymbols : List ReferenceSymbol) :
    ReferenceMatchResult where
  entry := {
    id := id
    jsonPath := id ++ ".json"
    romPath := id ++ ".bin"
    family := "colt"
    variant := "fp8000"
    priority := 0 }
  matches_ := ms
  propagated := []
  refRun := none
  refSymbols := refSymbols
  dataLabels := []
  ramLabels := []
  sigMatches := []
  ramLabelsP2 := []
  dataLabelsP2 := []

/-- The second reference has another function at `0x1000`: two of one function are
reported as matched. -/
theorem matchSummary_exceeds_total :
    let primary := bareResult "33520003"
      [⟨"tacho_set", 0x1000, 0x2000, 1, "vt_diff", "33520003"⟩]
      [⟨"tacho_set", 0x1000, .function⟩]
    let other := bareResult "e5090011"
      [⟨"crank_isr", 0x1000, 0x3000, 1, "vt_diff", "e5090011"⟩]
      [⟨"crank_isr", 0x1000, .function⟩]
    let priority : Priority := Dict.ofList [("33520003", 10), ("e5090011", 5)]
    let merged := arbitrateReferences [primary, other] priority
    merged.matchedCount = 2 ∧ merged.totalRef = 1 ∧
      ¬ (merged.matchedCount = (coveredAddrs primary [other] priority).length ∧
        merged.matchedCount ≤ merged.totalRef) := by
  decide +kernel

end RomAnalyzer.Pipeline
