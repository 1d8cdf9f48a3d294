import RomAnalyzer.Pipeline.Reference

/-!
# Where matches and labels come from

Every phase tags what it contributes. The two tags of the identity path are
disjoint from the tags of all other phases, so they tell whether a reference was
taken for its own ROM.
-/
namespace RomAnalyzer.Pipeline

open Lib
open AnnotationsIo (loadReferenceSymbols)
open Ghidra (HeadlessRun)

/-- The tags of the matches of a cross-ROM run. -/
def crossSources : List String :=
  ["vt_diff", "vector_table", "icu_vector_table", "mut_table", "dtc_table", "callgraph_bfs",
    "callgraph_gap", "bytecode_identity", "ram_signature"]

/-- The tags of the data and RAM labels of a cross-ROM run. -/
def accessSources : List String := ["data_refs", "data_refs_scalar", "ram_refs"]

section Cross

variable {ctx : RomContext} {newRun refRun : HeadlessRun} {ref : SelectedReference}

theorem crossMatches_source {m : MatchedFunction} (h : m ∈ crossMatches ctx newRun ref refRun) :
    m.source ∈ crossSources := by
  simp only [crossMatches, seedMatches, List.mem_append] at h
  rcases h with (((h | h) | h) | h) | h
  · obtain ⟨a, _, rfl⟩ := Diff.mem_matchesFromVtsession h
    show "vt_diff" ∈ crossSources
    decide
  · have hs := Callgraph.bootstrapAnchors_source h
    simp only [List.mem_cons, List.not_mem_nil, or_false] at hs
    rcases hs with hs | hs | hs | hs <;> rw [hs] <;> decide
  · obtain ⟨p, sym, _, rfl⟩ := Callgraph.mem_bfsPreseed h
    show "callgraph_bfs" ∈ crossSources
    decide
  · obtain ⟨p, rfl⟩ := Callgraph.mem_gapFill h
    show "callgraph_gap" ∈ crossSources
    decide
  · rw [(Callgraph.mem_bytecodeIdentityMatch h).1.1]
    decide

end Cross

variable {ctx : RomContext} {newRun : HeadlessRun} {ref : SelectedReference}

theorem mem_crossRamLabels {refRun : Option HeadlessRun} {refSymbols : List ReferenceSymbol}
    {ms : List MatchedFunction} {s : PropagatedSymbol}
    (h : s ∈ crossRamLabels newRun refRun refSymbols ms) :
    s.category = .ramGlobal ∧ s.source = "ram_refs" ∧
      ∃ a sym, (symbolsByAddr refSymbols).get? a = some sym ∧ sym.name = s.name := by
  unfold crossRamLabels at h
  split at h
  · cases h
  · exact DataRefs.propagateRamLabels_spec h

theorem mem_crossDataLabels {refRun : Option HeadlessRun} {refSymbols : List ReferenceSymbol}
    {ms : List MatchedFunction} {s : PropagatedSymbol}
    (h : s ∈ crossDataLabels newRun refRun refSymbols ms) :
    s.category = .data ∧ (s.source = "data_refs" ∨ s.source = "data_refs_scalar") ∧
      ∃ a sym, (symbolsByAddr refSymbols).get? a = some sym ∧ sym.name = s.name := by
  unfold crossDataLabels at h
  split at h
  · cases h
  · exact DataRefs.propagateDataLabels_spec h

theorem signatureMatches_source {m : MatchedFunction}
    (h : m ∈ signatureMatches ctx newRun ref) : m.source = "ram_signature" := by
  unfold signatureMatches at h
  rcases sigMatches_cases ctx newRun ref.refRun (loadReferenceSymbols ref.store)
      (keptMatches ctx newRun ref) with hnil | ⟨run, nl, _, _, hsig⟩
  · rw [hnil] at h
    cases h
  · rw [hsig] at h
    exact RamSignature.matchByRamSignature_source h

/-- Every proposed label is a function label of a match, or a data or RAM label. -/
theorem mem_proposedLabels {s : PropagatedSymbol} :
    s ∈ proposedLabels ctx newRun ref ↔
      (∃ m ∈ extendedMatches ctx newRun ref, Propagate.functionLabel
        (Propagate.functionsByAddr (loadReferenceSymbols ref.store)) false m = some s) ∨
      s ∈ ramGlobals ctx newRun (loadReferenceSymbols ref.store) ∨
      s ∈ dataLabels ctx newRun ref.refRun (loadReferenceSymbols ref.store)
        (keptMatches ctx newRun ref) ∨
      s ∈ ramLabels ctx newRun ref.refRun (loadReferenceSymbols ref.store)
        (keptMatches ctx newRun ref) ∨
      s ∈ ramLabelsP2 ctx newRun ref ∨ s ∈ dataLabelsP2 ctx newRun ref := by
  have hfn : (∃ m ∈ extendedMatches ctx newRun ref, Propagate.functionLabel
      (Propagate.functionsByAddr (loadReferenceSymbols ref.store)) false m = some s) ↔
        s ∈ Propagate.propagateFunctionLabels (loadReferenceSymbols ref.store)
          (keptMatches ctx newRun ref) ∨
        s ∈ Propagate.propagateFunctionLabels (loadReferenceSymbols ref.store)
          (signatureMatches ctx newRun ref) := by
    rw [Propagate.mem_propagateFunctionLabels, Propagate.mem_propagateFunctionLabels]
    simp only [extendedMatches, List.mem_append, or_and_right, exists_or]
  rw [hfn]
  simp only [proposedLabels, List.mem_append]
  tauto

/-- A run on the reference's own ROM has no second pass. -/
theorem no_second_pass_of_selfDiff (h : ctx.isSelfDiff = true) :
    signatureMatches ctx newRun ref = [] := by
  rw [signatureMatches, sigMatches, if_pos (Or.inl h)]

/-- A data or RAM label that copies an address of the annotations. -/
def IdentityLabel (newRun : HeadlessRun) (store : AnnotationStore) (s : PropagatedSymbol) : Prop :=
  ∃ r ∈ loadReferenceSymbols store,
    r.category = .ramGlobal ∧ r.address ∈ newRun.ramRefs ∧ s = ramGlobalLabel r ∨
      r.category = .data ∧ s = identityDataLabel r

/-- A data or RAM label that the accesses of matched functions carry over. -/
def AccessLabel (newRun : HeadlessRun) (ref : SelectedReference) (s : PropagatedSymbol) : Prop :=
  ∃ ms, s ∈ crossRamLabels newRun ref.refRun (loadReferenceSymbols ref.store) ms ∨
    s ∈ crossDataLabels newRun ref.refRun (loadReferenceSymbols ref.store) ms

/-- The three ways to a label: from a match, by identity on the reference's own ROM,
from the accesses of matched functions elsewhere. -/
theorem proposedLabels_cases {s : PropagatedSymbol} (h : s ∈ proposedLabels ctx newRun ref) :
    (∃ m ∈ extendedMatches ctx newRun ref, Propagate.functionLabel
      (Propagate.functionsByAddr (loadReferenceSymbols ref.store)) false m = some s) ∨
    ctx.isSelfDiff = true ∧ IdentityLabel newRun ref.store s ∨
    ctx.isSelfDiff = false ∧ AccessLabel newRun ref s := by
  -- a second pass is a cross-ROM run
  have hcross : ¬ signatureMatches ctx newRun ref = [] → ctx.isSelfDiff = false := by
    intro hsig
    rw [← Bool.not_eq_true]
    exact fun hself => hsig (no_second_pass_of_selfDiff hself)
  rcases mem_proposedLabels.mp h with hfn | hs | hs | hs | hs | hs
  · exact Or.inl hfn
  · unfold ramGlobals at hs
    split at hs
    · rename_i hself
      obtain ⟨r, hr, rfl⟩ := List.mem_map.mp hs
      obtain ⟨hr, hcat⟩ := List.mem_filter.mp hr
      obtain ⟨hcat, haddr⟩ := of_decide_eq_true hcat
      exact Or.inr (Or.inl ⟨hself, r, hr, Or.inl ⟨hcat, haddr, rfl⟩⟩)
    · cases hs
  · unfold dataLabels at hs
    split at hs
    · rename_i hself
      obtain ⟨r, hr, rfl⟩ := List.mem_map.mp hs
      obtain ⟨hr, hcat⟩ := List.mem_filter.mp hr
      exact Or.inr (Or.inl ⟨hself, r, hr, Or.inr ⟨of_decide_eq_true hcat, rfl⟩⟩)
    · rename_i hself
      exact Or.inr (Or.inr ⟨Bool.eq_false_iff.mpr hself, _, Or.inr hs⟩)
  · unfold ramLabels at hs
    split at hs
    · cases hs
    · rename_i hself
      exact Or.inr (Or.inr ⟨Bool.eq_false_iff.mpr hself, _, Or.inl hs⟩)
  · unfold ramLabelsP2 at hs
    split at hs
    · cases hs
    · rename_i hsig
      exact Or.inr (Or.inr ⟨hcross hsig, _, Or.inl hs⟩)
  · unfold dataLabelsP2 at hs
    split at hs
    · cases hs
    · rename_i hsig
      exact Or.inr (Or.inr ⟨hcross hsig, _, Or.inr hs⟩)

/-! ### The identity path -/

/-- The result holds a match or a label made by copying an address of the
annotations unchanged. -/
def UsesIdentityPath (r : ReferenceMatchResult) : Prop :=
  (∃ m ∈ r.matches_, m.source = "identity") ∨
    ∃ s ∈ r.propagated, s.source = "identity" ∨ s.source = "ram_global"

/-- The annotations hold something the identity path copies. -/
def HasCopyable (newRun : HeadlessRun) (store : AnnotationStore) : Prop :=
  ∃ s ∈ loadReferenceSymbols store, s.category = .function ∨ s.category = .data ∨
    s.category = .ramGlobal ∧ s.address ∈ newRun.ramRefs

section SelfDiff

variable (h : ctx.isSelfDiff = true)
include h

/-- Identity matches are copies of function symbols. -/
theorem mem_extendedMatches_of_selfDiff {m : MatchedFunction}
    (hm : m ∈ extendedMatches ctx newRun ref) :
    ∃ s ∈ loadReferenceSymbols ref.store, s.category = .function ∧ m = identityMatch s := by
  rw [extendedMatches, no_second_pass_of_selfDiff h, List.append_nil] at hm
  have hcand := mem_of_mem_dedupMatches hm
  rw [candidateMatches, if_pos h] at hcand
  obtain ⟨s, hs, rfl⟩ := List.mem_map.mp hcand
  obtain ⟨hs, hcat⟩ := List.mem_filter.mp hs
  exact ⟨s, hs, of_decide_eq_true hcat, rfl⟩

/-- Identity labels are copies of symbols, each tagged as one. -/
theorem mem_proposedLabels_of_selfDiff {t : PropagatedSymbol}
    (ht : t ∈ proposedLabels ctx newRun ref) :
    (t.source = "identity" ∨ t.source = "ram_global") ∧
      ∃ s ∈ loadReferenceSymbols ref.store, t.refAddress = s.address ∧ t.newAddress = s.address ∧
        (s.category = .function ∨ s.category = .data ∨
          s.category = .ramGlobal ∧ s.address ∈ newRun.ramRefs) := by
  rcases proposedLabels_cases ht with ⟨m, hm, hlabel⟩ | ⟨_, r, hr, hcopy⟩ | ⟨hcross, _⟩
  · obtain ⟨href, hnew, hsource, _⟩ := Propagate.functionLabel_spec hlabel
    obtain ⟨s, hs, hcat, rfl⟩ := mem_extendedMatches_of_selfDiff h hm
    exact ⟨Or.inl hsource, s, hs, href, hnew, Or.inl hcat⟩
  · rcases hcopy with ⟨hcat, haddr, rfl⟩ | ⟨hcat, rfl⟩
    · exact ⟨Or.inr rfl, r, hr, rfl, rfl, Or.inr (Or.inr ⟨hcat, haddr⟩)⟩
    · exact ⟨Or.inl rfl, r, hr, rfl, rfl, Or.inr (Or.inl hcat)⟩
  · rw [h] at hcross
    cases hcross

/-- Whatever can be copied is. -/
theorem usesIdentityPath_of_selfDiff (hcopy : HasCopyable newRun ref.store) :
    UsesIdentityPath (matchReference ctx newRun ref) := by
  have hlabel : ∀ t ∈ proposedLabels ctx newRun ref,
      UsesIdentityPath (matchReference ctx newRun ref) := by
    intro t ht
    refine Or.inr ⟨_, mem_propagated.mpr ⟨t, ht, rfl⟩, ?_⟩
    rw [Propagate.stampProvenance_source]
    exact (mem_proposedLabels_of_selfDiff h ht).1
  obtain ⟨s, hs, hcat | hcat | hcat⟩ := hcopy
  · have hcand : identityMatch s ∈ candidateMatches ctx newRun ref := by
      rw [candidateMatches, if_pos h]
      exact List.mem_map_of_mem (List.mem_filter.mpr ⟨hs, decide_eq_true hcat⟩)
    obtain ⟨k, hk⟩ := exists_mem_dedupMatches hcand
    have hext : k ∈ extendedMatches ctx newRun ref := List.mem_append_left _ hk
    obtain ⟨_, _, _, rfl⟩ := mem_extendedMatches_of_selfDiff h hext
    exact Or.inl ⟨_, mem_matches.mpr ⟨_, hext, rfl⟩, rfl⟩
  · refine hlabel (identityDataLabel s) (mem_proposedLabels.mpr (Or.inr (Or.inr (Or.inl ?_))))
    rw [dataLabels, if_pos h]
    exact List.mem_map_of_mem (List.mem_filter.mpr ⟨hs, decide_eq_true hcat⟩)
  · refine hlabel (ramGlobalLabel s) (mem_proposedLabels.mpr (Or.inr (Or.inl ?_)))
    rw [ramGlobals, if_pos h]
    exact List.mem_map_of_mem (List.mem_filter.mpr ⟨hs, decide_eq_true hcat⟩)

end SelfDiff

/-- Without the flag every match and every label carries a cross-ROM tag. -/
theorem cross_tags_of_not_selfDiff (newRun : HeadlessRun) (ref : SelectedReference)
    (h : ctx.isSelfDiff = false) :
    (∀ m ∈ extendedMatches ctx newRun ref, m.source ∈ crossSources) ∧
      ∀ s ∈ proposedLabels ctx newRun ref, s.source ∈ crossSources ++ accessSources := by
  have hself : ¬ ctx.isSelfDiff = true := by simp [h]
  have hmatch : ∀ m ∈ extendedMatches ctx newRun ref, m.source ∈ crossSources := by
    intro m hm
    rcases List.mem_append.mp hm with hm | hm
    · have hcand := mem_of_mem_dedupMatches hm
      rw [candidateMatches, if_neg hself] at hcand
      split at hcand
      · cases hcand
      · exact crossMatches_source hcand
    · rw [signatureMatches_source hm]
      decide
  refine ⟨hmatch, fun s hs => ?_⟩
  rcases proposedLabels_cases hs with ⟨m, hm, hlabel⟩ | ⟨htrue, _⟩ | ⟨_, ms, hs | hs⟩
  · rw [(Propagate.functionLabel_spec hlabel).2.2.1]
    exact List.mem_append_left _ (hmatch m hm)
  · exact absurd htrue hself
  · rw [(mem_crossRamLabels hs).2.1]
    decide
  · rcases (mem_crossDataLabels hs).2.1 with hsource | hsource
    · rw [hsource]
      decide
    · rw [hsource]
      decide

/-- A reference goes down the identity path exactly when the flag is set and its
annotations hold something to copy. -/
theorem usesIdentityPath_iff :
    UsesIdentityPath (matchReference ctx newRun ref) ↔
      ctx.isSelfDiff = true ∧ HasCopyable newRun ref.store := by
  constructor
  · intro huse
    cases h : ctx.isSelfDiff with
    | true =>
      refine ⟨rfl, ?_⟩
      rcases huse with ⟨m, hm, _⟩ | ⟨t, ht, _⟩
      · obtain ⟨k, hk, _⟩ := mem_matches.mp hm
        obtain ⟨s, hs, hcat, _⟩ := mem_extendedMatches_of_selfDiff h hk
        exact ⟨s, hs, Or.inl hcat⟩
      · obtain ⟨u, hu, _⟩ := mem_propagated.mp ht
        obtain ⟨_, s, hs, _, _, hcat⟩ := mem_proposedLabels_of_selfDiff h hu
        exact ⟨s, hs, hcat⟩
    | false =>
      obtain ⟨hmatch, hlabel⟩ := cross_tags_of_not_selfDiff newRun ref h
      have htags : "identity" ∉ crossSources ++ accessSources ∧
          "ram_global" ∉ crossSources ++ accessSources := by decide
      rcases huse with ⟨m, hm, hsource⟩ | ⟨t, ht, hsource⟩
      · obtain ⟨k, hk, rfl⟩ := mem_matches.mp hm
        have hs := List.mem_append_left accessSources (hmatch k hk)
        exact absurd (hsource ▸ hs) htags.1
      · obtain ⟨u, hu, rfl⟩ := mem_propagated.mp ht
        rw [Propagate.stampProvenance_source] at hsource
        have hs := hlabel u hu
        rcases hsource with hsource | hsource
        · exact absurd (hsource ▸ hs) htags.1
        · exact absurd (hsource ▸ hs) htags.2
  · exact fun h => usesIdentityPath_of_selfDiff h.1 h.2

end RomAnalyzer.Pipeline
