import RomAnalyzer.DataRefs.Labels
import RomAnalyzer.NameArbitration
import RomAnalyzer.Pipeline.Arbitrate
import RomAnalyzer.Pipeline.Provenance

/-!
# The second propagation pass

Signature matches extend the list of matches, and the labels are propagated again over
the longer list. The second pass confirms the addresses of the first and can only lower
its confidence; but the labels of the first pass stay among the proposals, so what the
second one lowers may still win its address.
-/
namespace RomAnalyzer.Pipeline

open Lib
open AnnotationsIo (loadReferenceSymbols)
open DataRefs
open Ghidra (HeadlessRun)
open Merge (Priority confidenceRank proposalsAt symbolRank)

/-! ### Stability -/

/-- Every name of the first labels has one of the second labels, at the same address and
with the same confidence or a low one. -/
def Relabelled (first second : List PropagatedSymbol) : Prop :=
  ∀ s ∈ first, ∃ t ∈ second, t.name = s.name ∧ t.newAddress = s.newAddress ∧
    (t.confidence = s.confidence ∨ t.confidence = .low) ∧ ∀ u ∈ second, u.name = s.name → u = t

section Labels

variable (pass : LabelPass) (select : HeadlessRun → Dict Nat (List DataRef))
  (newRun : HeadlessRun) (refRun : Option HeadlessRun) (refSymbols : List ReferenceSymbol)
  (ms : List MatchedFunction)

/-- The labels of one of the two passes. -/
def crossLabels : List PropagatedSymbol :=
  match accessMaps select newRun refRun with
  | none => []
  | some (refRefs, newRefs) =>
    propagateLabels pass (symbolsByAddr refSymbols) 8 refRefs newRefs ms

/-- What the accesses of the matches propose in the pass. -/
def crossSightings : List Proposal :=
  match accessMaps select newRun refRun with
  | none => []
  | some (refRefs, newRefs) => sightings pass (symbolsByAddr refSymbols) 8 refRefs newRefs ms

theorem crossDataLabels_eq :
    crossDataLabels newRun refRun refSymbols ms =
      crossLabels dataPass HeadlessRun.dataRefs newRun refRun refSymbols ms := rfl

theorem crossRamLabels_eq :
    crossRamLabels newRun refRun refSymbols ms =
      crossLabels ramPass HeadlessRun.ramDataRefs newRun refRun refSymbols ms := rfl

variable {pass select newRun refRun refSymbols ms}

theorem crossLabels_relabelled (ext : List MatchedFunction) :
    Relabelled (crossLabels pass select newRun refRun refSymbols ms)
      (crossLabels pass select newRun refRun refSymbols (ms ++ ext)) := by
  unfold crossLabels
  split
  · exact fun s hs => absurd hs List.not_mem_nil
  · intro s hs
    obtain ⟨t, ht, hname, haddr, htier⟩ := exists_label_append hs ext
    refine ⟨t, ht, hname, haddr, htier, fun u hu huname => ?_⟩
    exact eq_of_name_propagateLabels hu ht (huname.trans hname.symm)

theorem exists_crossLabel_not_low_iff {name : String} {a : Nat} :
    (∃ s ∈ crossLabels pass select newRun refRun refSymbols ms,
      s.name = name ∧ s.newAddress = a ∧ s.confidence ≠ .low) ↔
      SoleAddress (crossSightings pass select newRun refRun refSymbols ms) name a := by
  unfold crossLabels crossSightings
  split
  · constructor
    · intro h
      obtain ⟨s, hs, _⟩ := h
      cases hs
    · intro h
      obtain ⟨⟨p, hp, _⟩, _⟩ := h
      cases hp
  · exact exists_label_not_low_iff

theorem crossLabels_confidence {s : PropagatedSymbol}
    (hs : s ∈ crossLabels pass select newRun refRun refSymbols ms) :
    s.confidence = .low ∨ s.confidence = .medium ∨ s.confidence = .high := by
  unfold crossLabels at hs
  split at hs
  · cases hs
  · exact propagateLabels_confidence hs

end Labels

variable {ctx : RomContext} {newRun : HeadlessRun} {ref : SelectedReference}

/-- A second pass labels what the first has labelled again, at the same address; it leaves
the confidence or makes it low. -/
theorem secondPass_stable (ctx : RomContext) (newRun : HeadlessRun) (ref : SelectedReference)
    (h : (matchReference ctx newRun ref).sigMatches ≠ []) :
    let r := matchReference ctx newRun ref
    Relabelled r.ramLabels r.ramLabelsP2 ∧ Relabelled r.dataLabels r.dataLabelsP2 := by
  intro r
  have hsig : ¬ signatureMatches ctx newRun ref = [] := h
  have hself : ¬ ctx.isSelfDiff = true := fun hself => hsig (no_second_pass_of_selfDiff hself)
  constructor
  · show Relabelled (ramLabels ..) (ramLabelsP2 ..)
    rw [ramLabels, if_neg hself, ramLabelsP2, if_neg hsig, crossRamLabels_eq, crossRamLabels_eq]
    exact crossLabels_relabelled _
  · show Relabelled (dataLabels ..) (dataLabelsP2 ..)
    rw [dataLabels, if_neg hself, dataLabelsP2, if_neg hsig, crossDataLabels_eq, crossDataLabels_eq]
    exact crossLabels_relabelled _

/-! ### Conflicts -/

section Conflicts

variable (ctx newRun ref)

/-- What the accesses of the given matches propose, in the data pass and in the RAM
pass. -/
def dataSightings (ms : List MatchedFunction) : List Proposal :=
  crossSightings dataPass HeadlessRun.dataRefs newRun ref.refRun (loadReferenceSymbols ref.store) ms

def ramSightings (ms : List MatchedFunction) : List Proposal :=
  crossSightings ramPass HeadlessRun.ramDataRefs newRun ref.refRun
    (loadReferenceSymbols ref.store) ms

/-- The accesses of the extended matches propose two addresses for the name. -/
def Conflicted (name : String) : Prop :=
  ctx.isSelfDiff = false ∧
    (TwoAddresses (dataSightings newRun ref (extendedMatches ctx newRun ref)) name ∨
      TwoAddresses (ramSightings newRun ref (extendedMatches ctx newRun ref)) name)

/-- Whoever proposes the name at the address sees no conflict: a match that carries the
name to a function, or, within the family of the target, accesses that agree on the
address, those of the first pass or those of the second. -/
def Unconflicted (name : String) (a : Nat) : Prop :=
  (∃ m ∈ extendedMatches ctx newRun ref,
    Propagate.labelName (Propagate.functionsByAddr (loadReferenceSymbols ref.store)) m =
      some name ∧ Propagate.mediumThreshold ≤ m.similarity ∧ m.newAddress = a) ∨
  ref.entry.family = ctx.targetFamily ∧
    ∃ ms ∈ [keptMatches ctx newRun ref, extendedMatches ctx newRun ref],
      SoleAddress (dataSightings newRun ref ms) name a ∨
        SoleAddress (ramSightings newRun ref ms) name a

/-- At the address a proposal of another name beats every proposal of the name. -/
def OutbidAt (proposals : List PropagatedSymbol) (priority : Priority) (name : String)
    (a : Nat) : Prop :=
  Outbid (symbolRank priority) (proposalsAt proposals a) fun p => p.name = name

/-- A name with a conflict is low wherever arbitration leaves it. -/
def ConflictsLow (priority : Priority) : Prop :=
  ∀ name, Conflicted ctx newRun ref name →
    ∀ w ∈ (arbitrateReferences [matchReference ctx newRun ref] priority).propagated,
      w.name = name → w.confidence = .low

variable {ctx newRun ref}

/-- The data and RAM labels are those of the first pass and, when there is one, of the
second; without one the matches are not extended. -/
theorem mem_accessLabels_iff (hself : ctx.isSelfDiff = false) {s : PropagatedSymbol} :
    (s ∈ dataLabels ctx newRun ref.refRun (loadReferenceSymbols ref.store)
          (keptMatches ctx newRun ref) ∨
        s ∈ ramLabels ctx newRun ref.refRun (loadReferenceSymbols ref.store)
          (keptMatches ctx newRun ref) ∨
        s ∈ ramLabelsP2 ctx newRun ref ∨ s ∈ dataLabelsP2 ctx newRun ref) ↔
      ∃ ms ∈ [keptMatches ctx newRun ref, extendedMatches ctx newRun ref],
        s ∈ crossDataLabels newRun ref.refRun (loadReferenceSymbols ref.store) ms ∨
          s ∈ crossRamLabels newRun ref.refRun (loadReferenceSymbols ref.store) ms := by
  have hcross : ¬ ctx.isSelfDiff = true := by simp [hself]
  have hpair : ∀ P : List MatchedFunction → Prop,
      (∃ ms ∈ [keptMatches ctx newRun ref, extendedMatches ctx newRun ref], P ms) ↔
        P (keptMatches ctx newRun ref) ∨ P (extendedMatches ctx newRun ref) := by
    intro P
    simp
  rw [hpair, dataLabels, ramLabels, if_neg hcross, if_neg hcross, ramLabelsP2, dataLabelsP2]
  by_cases hsig : signatureMatches ctx newRun ref = []
  · have hext : extendedMatches ctx newRun ref = keptMatches ctx newRun ref := by
      rw [extendedMatches, hsig, List.append_nil]
    rw [if_pos hsig, if_pos hsig, hext]
    simp only [List.not_mem_nil, or_false, or_self]
  · rw [if_neg hsig, if_neg hsig, or_assoc]
    exact or_congr_right (or_congr_right or_comm)

theorem crossLabel_category {ms : List MatchedFunction} {s : PropagatedSymbol}
    (h : s ∈ crossDataLabels newRun ref.refRun (loadReferenceSymbols ref.store) ms ∨
      s ∈ crossRamLabels newRun ref.refRun (loadReferenceSymbols ref.store) ms) :
    s.category = .data ∨ s.category = .ramGlobal :=
  h.imp (fun h => (mem_crossDataLabels h).1) fun h => (mem_crossRamLabels h).1

theorem crossLabel_confidence {ms : List MatchedFunction} {s : PropagatedSymbol}
    (h : s ∈ crossDataLabels newRun ref.refRun (loadReferenceSymbols ref.store) ms ∨
      s ∈ crossRamLabels newRun ref.refRun (loadReferenceSymbols ref.store) ms) :
    s.confidence = .low ∨ s.confidence = .medium ∨ s.confidence = .high :=
  h.elim crossLabels_confidence crossLabels_confidence

/-- What a reference proposes is of one of the three tiers. -/
theorem propagated_tier {t : PropagatedSymbol}
    (h : t ∈ (matchReference ctx newRun ref).propagated) :
    t.confidence = .low ∨ t.confidence = .medium ∨ t.confidence = .high := by
  obtain ⟨s, hs, rfl⟩ := mem_propagated.mp h
  have hstamp : (Propagate.stampProvenance ref.entry.id
      (ref.entry.family = ctx.targetFamily) s).confidence = .low ∨
      (Propagate.stampProvenance ref.entry.id
        (ref.entry.family = ctx.targetFamily) s).confidence = s.confidence := by
    unfold Propagate.stampProvenance
    split
    · exact Or.inl rfl
    · exact Or.inr rfl
  rcases hstamp with hlow | hsame
  · exact Or.inl hlow
  rw [hsame]
  rcases proposedLabels_cases hs with ⟨m, _, hlabel⟩ | ⟨_, r, _, hcopy⟩ | ⟨_, ms, haccess⟩
  · exact Or.inr (Propagate.functionLabel_confidence hlabel)
  · rcases hcopy with ⟨_, _, rfl⟩ | ⟨_, rfl⟩
    · exact Or.inr (Or.inr rfl)
    · exact Or.inr (Or.inr rfl)
  · exact crossLabel_confidence haccess.symm

/-- The proposals that are not low are those that see no conflict. -/
theorem exists_propagated_not_low_iff (hself : ctx.isSelfDiff = false) {name : String}
    {a : Nat} :
    (∃ t ∈ (matchReference ctx newRun ref).propagated,
      t.name = name ∧ t.newAddress = a ∧ (t.confidence = .medium ∨ t.confidence = .high)) ↔
      Unconflicted ctx newRun ref name a := by
  have hlabels : ∀ ms : List MatchedFunction,
      (∃ s, (s ∈ crossDataLabels newRun ref.refRun (loadReferenceSymbols ref.store) ms ∨
          s ∈ crossRamLabels newRun ref.refRun (loadReferenceSymbols ref.store) ms) ∧
        s.name = name ∧ s.newAddress = a ∧ s.confidence ≠ .low) ↔
      SoleAddress (dataSightings newRun ref ms) name a ∨
        SoleAddress (ramSightings newRun ref ms) name a := by
    intro ms
    rw [dataSightings, ramSightings, ← exists_crossLabel_not_low_iff,
      ← exists_crossLabel_not_low_iff, ← crossDataLabels_eq, ← crossRamLabels_eq, ← exists_or]
    simp only [or_and_right]
  constructor
  · intro h
    obtain ⟨t, ht, hname, haddr, htier⟩ := h
    obtain ⟨s, hs, rfl⟩ := mem_propagated.mp ht
    rw [Propagate.stampProvenance_name] at hname
    rw [Propagate.stampProvenance_newAddress] at haddr
    rcases mem_proposedLabels.mp hs with ⟨m, hm, hlabel⟩ | hs | hs
    · have hnamed := Propagate.exists_functionLabel_iff.mp ⟨s, hlabel, hname⟩
      exact Or.inl ⟨m, hm, hnamed.1, hnamed.2,
        (Propagate.functionLabel_spec hlabel).2.1.symm.trans haddr⟩
    · rw [ramGlobals, if_neg (by simp [hself])] at hs
      cases hs
    · obtain ⟨ms, hms, hs⟩ := (mem_accessLabels_iff hself).mp hs
      have hfamily : ref.entry.family = ctx.targetFamily := by
        by_contra hother
        have hgated := (Propagate.stampProvenance_gated ref.entry.id
          (ref.entry.family = ctx.targetFamily) s).mpr
            ⟨decide_eq_false hother, crossLabel_category hs⟩
        rw [Propagate.stampProvenance_confidence_of_gated _ _ _ hgated] at htier
        rcases htier with htier | htier <;> cases htier
      rw [decide_eq_true hfamily, Propagate.stampProvenance_confidence_of_match] at htier
      refine Or.inr ⟨hfamily, ms, hms, (hlabels ms).mp ⟨s, hs, hname, haddr, ?_⟩⟩
      intro hlow
      rw [hlow] at htier
      rcases htier with htier | htier <;> cases htier
  · intro h
    obtain ⟨m, hm, hname, hsimilar, rfl⟩ | ⟨hfamily, ms, hms, hsole⟩ := h
    · obtain ⟨s, hlabel, rfl⟩ := Propagate.exists_functionLabel_iff.mpr ⟨hname, hsimilar⟩
      refine ⟨_, mem_propagated.mpr ⟨s, mem_proposedLabels.mpr (Or.inl ⟨m, hm, hlabel⟩), rfl⟩,
        Propagate.stampProvenance_name .., ?_, ?_⟩
      · rw [Propagate.stampProvenance_newAddress, (Propagate.functionLabel_spec hlabel).2.1]
      · rw [Propagate.stampProvenance_confidence_of_function _ _ _
          (Propagate.functionLabel_category hlabel)]
        exact Propagate.functionLabel_confidence hlabel
    · obtain ⟨s, hs, rfl, rfl, hnotlow⟩ := (hlabels ms).mpr hsole
      have hproposed : s ∈ proposedLabels ctx newRun ref :=
        mem_proposedLabels.mpr (Or.inr (Or.inr ((mem_accessLabels_iff hself).mpr ⟨ms, hms, hs⟩)))
      refine ⟨_, mem_propagated.mpr ⟨s, hproposed, rfl⟩, Propagate.stampProvenance_name ..,
        Propagate.stampProvenance_newAddress .., ?_⟩
      rw [decide_eq_true hfamily, Propagate.stampProvenance_confidence_of_match]
      exact (crossLabel_confidence hs).resolve_left hnotlow

theorem arbitrateReferences_singleton (r : ReferenceMatchResult) (priority : Priority) :
    (arbitrateReferences [r] priority).propagated =
      (Merge.arbitrateSymbols r.propagated priority).1 := by
  have hproposals : allPropagated [r] = r.propagated := by simp [allPropagated]
  show (Merge.arbitrateSymbols (allPropagated [r]) priority).1 = _
  rw [hproposals]

/-- A winner of a higher confidence than low stays above low whatever it beats. -/
theorem not_low_of_winner {proposals : List PropagatedSymbol} {priority : Priority}
    {s w : PropagatedSymbol} (hs : s ∈ proposals)
    (hw : w ∈ (Merge.arbitrateSymbols proposals priority).1)
    (haddr : w.newAddress = s.newAddress)
    (htier : s.confidence = .medium ∨ s.confidence = .high) : w.confidence ≠ .low := by
  have hrank := (Merge.arbitrateSymbols_settles proposals priority).maximal w hw s hs haddr.symm
  have hconfidence : confidenceRank s.confidence ≤ confidenceRank w.confidence :=
    (Prod.Lex.toLex_le_toLex.mp hrank).elim le_of_lt fun h => h.1.le
  intro hlow
  rw [hlow] at hconfidence
  rcases htier with htier | htier
  · rw [htier] at hconfidence
    exact absurd hconfidence (by decide)
  · rw [htier] at hconfidence
    exact absurd hconfidence (by decide)

/-- Conflicts leave their names low exactly when, at every address that somebody proposes
for such a name without seeing the conflict, another name wins. -/
theorem conflictsLow_iff (ctx : RomContext) (newRun : HeadlessRun) (ref : SelectedReference)
    (priority : Priority) :
    ConflictsLow ctx newRun ref priority ↔
      ∀ name, Conflicted ctx newRun ref name → ∀ a, Unconflicted ctx newRun ref name a →
        OutbidAt (matchReference ctx newRun ref).propagated priority name a := by
  unfold ConflictsLow
  rw [arbitrateReferences_singleton]
  constructor
  · intro h name hconflict a hunseen
    obtain ⟨t, ht, rfl, rfl, htier⟩ := (exists_propagated_not_low_iff hconflict.1).mpr hunseen
    by_contra hkept
    obtain ⟨w, hw, haddr, hname⟩ := NameArbitration.exists_winner_of_not_nameOutbid ht hkept
    exact not_low_of_winner ht hw haddr htier (h _ hconflict w hw hname)
  · rintro h name hconflict w hw rfl
    have hmem := Merge.mem_of_mem_arbitrateSymbols hw
    rcases propagated_tier hmem with hlow | htier
    · exact hlow
    · have hunseen := (exists_propagated_not_low_iff hconflict.1).mp ⟨w, hmem, rfl, rfl, htier⟩
      exact absurd (h _ hconflict _ hunseen) (NameArbitration.not_nameOutbid_of_winner hw)

end Conflicts

/-! ### A masked conflict -/

section Idle

/-- Reads at offsets four bytes apart, with a label where the program has one. -/
def reads (accesses : List (Nat × Option String)) : List DataRef :=
  accesses.zipIdx.map fun e => ⟨4 * e.2, e.1.1, e.1.2, .read⟩

def engineVariables : List (Nat × String) :=
  [(0x804010, "rpm"), (0x804014, "load"), (0x804018, "tps"), (0x80401c, "ect")]

/-- Two functions of the reference read the four variables; the session matches the
first of them. -/
def idleReference : SelectedReference where
  entry := ⟨"z27ag", "reference/z27ag.json", "roms/z27ag.bin", "z27ag", "fp8000", 20, [], ""⟩
  store := {
    schemaVersion := 1
    romId := "z27ag"
    romSha256 := ""
    symbols := engineVariables.map fun v =>
      { address := v.1, name := v.2, category := .ramGlobal }
  }
  refRun := some { ramDataRefs := Dict.ofList [
    (0x1000, reads (engineVariables.map fun v => (v.1, some v.2))),
    (0x2000, reads (engineVariables.map fun v => (v.1, some v.2)))] }
  refBytes := []
  vtAssociations := [⟨0x1000, 0x3000, 1, some "idle_control"⟩]

/-- The second function of the target reads another variable where the first reads ect. -/
def idleRun : HeadlessRun where
  ramDataRefs := Dict.ofList [
    (0x3000, reads [(0x804110, none), (0x804114, none), (0x804118, none), (0x80411c, none)]),
    (0x4000, reads [(0x804110, none), (0x804114, none), (0x804118, none), (0x804200, none)])]

def idleContext : RomContext where
  romPath := "roms/colt.bin"
  romBytes := []
  targetFamily := "z27ag"
  isSelfDiff := false

theorem secondPass_stable_idle :
    Relabelled (matchReference idleContext idleRun idleReference).ramLabels
        (matchReference idleContext idleRun idleReference).ramLabelsP2 ∧
      Relabelled (matchReference idleContext idleRun idleReference).dataLabels
        (matchReference idleContext idleRun idleReference).dataLabelsP2 :=
  secondPass_stable idleContext idleRun idleReference (by decide +kernel)

/-- The first pass has seen ect at one address only, and its label wins there although
the second pass makes the name low. -/
theorem conflict_masked_by_first_pass :
    ¬ ConflictsLow idleContext idleRun idleReference (Dict.ofList [("z27ag", 20)]) := by
  intro h
  have hconflict : Conflicted idleContext idleRun idleReference "ect" := by
    refine ⟨rfl, Or.inr ⟨⟨"ect", 0x80401c, 0x80411c, .high, "ram_refs"⟩, ?_,
      ⟨"ect", 0x80401c, 0x804200, .medium, "ram_refs"⟩, ?_, rfl, rfl, by decide⟩⟩
    · decide +kernel
    · decide +kernel
  have hwinner : ∃ w ∈ (arbitrateReferences [matchReference idleContext idleRun idleReference]
      (Dict.ofList [("z27ag", 20)])).propagated, w.name = "ect" ∧ w.confidence = .high := by
    decide +kernel
  obtain ⟨w, hw, hname, hhigh⟩ := hwinner
  have hlow := h "ect" hconflict w hw hname
  rw [hhigh] at hlow
  cases hlow

end Idle

end RomAnalyzer.Pipeline
