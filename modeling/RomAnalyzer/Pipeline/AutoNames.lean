import RomAnalyzer.EmitLd
import RomAnalyzer.Enrich
import RomAnalyzer.Pipeline.Analyze

/-!
# Auto-generated names in a run

Only the enrichment path filters auto-generated names. On the analyze path a name
travels from its producer through the matches and the labels to the linker fragment;
what follows says at which of these steps it can be stopped.
-/
namespace RomAnalyzer.Pipeline

open Lib
open AnnotationsIo (loadReferenceSymbols)
open Enrich (isAutoName)
open Ghidra (HeadlessRun)
open Merge (Priority symbolRank proposalsAt mem_arbitrateSymbols mem_of_mem_arbitrateSymbols
  exists_winner)
open Propagate (functionsByAddr labelName mediumThreshold)

/-- A human name is anything that the analysis could not have made up. -/
def HumanName (name : String) : Prop := isAutoName name = false

instance (name : String) : Decidable (HumanName name) := inferInstanceAs (Decidable (_ = _))

/-- No auto-generated name is contributed for a function, wins an address, or is
written to the linker fragment. -/
structure HumanNamesOnly (results : List ReferenceMatchResult) (merged : MergeResult) : Prop where
  contributed : ∀ r ∈ results, ∀ s ∈ r.propagated, s.category = .function → HumanName s.name
  arbitrated : ∀ s ∈ merged.propagated, HumanName s.name
  written : ∀ s ∈ EmitLd.assignedSymbols merged.propagated, HumanName s.name

section Labels

variable {ctx : RomContext} {newRun : HeadlessRun} {ref : SelectedReference}

theorem mem_of_symbolsByAddr {refSymbols : List ReferenceSymbol} {a : Nat} {sym : ReferenceSymbol}
    (h : (symbolsByAddr refSymbols).get? a = some sym) : sym ∈ refSymbols := by
  obtain ⟨r, hr, he⟩ := List.mem_map.mp (Dict.mem_of_get?_ofList h)
  obtain ⟨_, rfl⟩ := Prod.mk.inj he
  exact hr

/-- A proposed label is the function label of a match, or it labels data or RAM under
the name of an entry of the annotations. -/
theorem proposedLabels_name {s : PropagatedSymbol} (h : s ∈ proposedLabels ctx newRun ref) :
    (∃ m ∈ extendedMatches ctx newRun ref, Propagate.functionLabel
      (functionsByAddr (loadReferenceSymbols ref.store)) false m = some s) ∨
    s.category ≠ .function ∧ ∃ r ∈ loadReferenceSymbols ref.store, r.name = s.name := by
  rcases proposedLabels_cases h with hfn | ⟨_, r, hr, hcopy⟩ | ⟨_, ms, hs | hs⟩
  · exact Or.inl hfn
  · rcases hcopy with ⟨_, _, rfl⟩ | ⟨_, rfl⟩
    · exact Or.inr ⟨by simp [ramGlobalLabel], r, hr, rfl⟩
    · exact Or.inr ⟨by simp [identityDataLabel], r, hr, rfl⟩
  · obtain ⟨hcat, _, a, sym, hsym, hname⟩ := mem_crossRamLabels hs
    exact Or.inr ⟨by rw [hcat]; decide, sym, mem_of_symbolsByAddr hsym, hname⟩
  · obtain ⟨hcat, _, a, sym, hsym, hname⟩ := mem_crossDataLabels hs
    exact Or.inr ⟨by rw [hcat]; decide, sym, mem_of_symbolsByAddr hsym, hname⟩

/-- The function labels of a reference are those of its matches of tier medium or
high, under the names of the matches. -/
theorem exists_function_propagated_iff {name : String} :
    (∃ s ∈ (matchReference ctx newRun ref).propagated,
        s.category = .function ∧ s.name = name) ↔
      ∃ m ∈ extendedMatches ctx newRun ref, mediumThreshold ≤ m.similarity ∧
        labelName (functionsByAddr (loadReferenceSymbols ref.store)) m = some name := by
  constructor
  · intro h
    obtain ⟨t, ht, hcat, rfl⟩ := h
    obtain ⟨s, hs, rfl⟩ := mem_propagated.mp ht
    rw [Propagate.stampProvenance_category] at hcat
    rw [Propagate.stampProvenance_name]
    rcases proposedLabels_name hs with ⟨m, hm, hlabel⟩ | ⟨hne, _⟩
    · obtain ⟨hname, htier⟩ := Propagate.exists_functionLabel_iff.mp ⟨s, hlabel, rfl⟩
      exact ⟨m, hm, htier, hname⟩
    · exact absurd hcat hne
  · intro h
    obtain ⟨m, hm, htier, hname⟩ := h
    obtain ⟨s, hlabel, rfl⟩ := Propagate.exists_functionLabel_iff.mpr ⟨hname, htier⟩
    refine ⟨_, mem_propagated.mpr ⟨s, mem_proposedLabels.mpr (Or.inl ⟨m, hm, hlabel⟩), rfl⟩, ?_, ?_⟩
    · rw [Propagate.stampProvenance_category]
      exact Propagate.functionLabel_category hlabel
    · exact Propagate.stampProvenance_name _ _ s

end Labels

theorem mem_allPropagated {results : List ReferenceMatchResult} {s : PropagatedSymbol} :
    s ∈ allPropagated results ↔ ∃ r ∈ results, s ∈ r.propagated :=
  List.mem_flatMap

theorem mem_of_mem_arbitrateReferences {results : List ReferenceMatchResult}
    {priority : Priority} {s : PropagatedSymbol}
    (h : s ∈ (arbitrateReferences results priority).propagated) : s ∈ allPropagated results :=
  mem_of_mem_arbitrateSymbols h

/-- At the address of `p`, a human name beats every auto-generated one. -/
def HumanNameWins (results : List ReferenceMatchResult) (priority : Priority)
    (p : PropagatedSymbol) : Prop :=
  Outbid (symbolRank priority) (proposalsAt (allPropagated results) p.newAddress)
    fun q => ¬ HumanName q.name

/-- Arbitration keeps out the auto-generated names that it is given, exactly when a
human name wins at each of their addresses. -/
theorem arbitrated_humanNames_iff (results : List ReferenceMatchResult) (priority : Priority) :
    (∀ s ∈ (arbitrateReferences results priority).propagated, HumanName s.name) ↔
      ∀ p ∈ allPropagated results, ¬ HumanName p.name → HumanNameWins results priority p := by
  constructor
  · intro h p hp _
    obtain ⟨w, hw, haddr⟩ := exists_winner priority hp
    have hwin : w ∈ (arbitrateReferences results priority).propagated :=
      mem_arbitrateSymbols.mpr (by rw [haddr]; exact hw)
    exact (not_of_mem_argmax_iff hw _).mp (not_not.mpr (h w hwin))
  · intro h s hs
    by_contra hauto
    have hwins := h s (mem_of_mem_arbitrateReferences hs) hauto
    exact (not_of_mem_argmax_iff (mem_arbitrateSymbols.mp hs) _).mpr hwins hauto

section Run

variable (resolve : Path → Path) (target : Target) (sel : Selection)
  (emitMode23 : Bool) (minFlashBlock : Nat)

/-- The label name of a match of tier medium or high, in one reference of a run. -/
def ContributedName (name : String) : Prop :=
  ∃ ref ∈ sel.all, ∃ m ∈ extendedMatches
    (analyzeContext resolve target sel emitMode23 minFlashBlock) target.newRun ref,
    mediumThreshold ≤ m.similarity ∧
      labelName (functionsByAddr (loadReferenceSymbols ref.store)) m = some name

theorem contributed_iff :
    (∀ r ∈ analyzeResults resolve target sel emitMode23 minFlashBlock, ∀ s ∈ r.propagated,
        s.category = .function → HumanName s.name) ↔
      ∀ name, ContributedName resolve target sel emitMode23 minFlashBlock name →
        HumanName name := by
  constructor
  · rintro h name ⟨ref, href, hmatch⟩
    obtain ⟨s, hs, hcat, rfl⟩ := exists_function_propagated_iff.mpr hmatch
    exact h _ (mem_analyzeResults.mpr ⟨ref, href, rfl⟩) s hs hcat
  · intro h r hr s hs hcat
    obtain ⟨ref, href, rfl⟩ := mem_analyzeResults.mp hr
    exact h s.name ⟨ref, href, exists_function_propagated_iff.mp ⟨s, hs, hcat, rfl⟩⟩

/-- A run keeps auto-generated names out exactly when no match of tier medium or high
has one, and every data or RAM label that has one loses its address to a human name. -/
theorem analyze_humanNamesOnly_iff :
    HumanNamesOnly (analyzeResults resolve target sel emitMode23 minFlashBlock)
        (analyzeMerged resolve target sel emitMode23 minFlashBlock) ↔
      (∀ name, ContributedName resolve target sel emitMode23 minFlashBlock name →
        HumanName name) ∧
      ∀ p ∈ allPropagated (analyzeResults resolve target sel emitMode23 minFlashBlock),
        p.category ≠ .function → ¬ HumanName p.name →
          HumanNameWins (analyzeResults resolve target sel emitMode23 minFlashBlock)
            sel.priority p := by
  constructor
  · intro h
    refine ⟨(contributed_iff resolve target sel emitMode23 minFlashBlock).mp h.contributed, ?_⟩
    intro p hp _
    exact (arbitrated_humanNames_iff _ _).mp h.arbitrated p hp
  · intro h
    obtain ⟨hnames, hlabels⟩ := h
    have hcontributed :=
      (contributed_iff resolve target sel emitMode23 minFlashBlock).mpr hnames
    have harbitrated : ∀ s ∈ (analyzeMerged resolve target sel emitMode23
        minFlashBlock).propagated, HumanName s.name := by
      apply (arbitrated_humanNames_iff _ _).mpr
      intro p hp hauto
      by_cases hcat : p.category = .function
      · obtain ⟨r, hr, hpr⟩ := mem_allPropagated.mp hp
        exact absurd (hcontributed r hr p hpr hcat) hauto
      · exact hlabels p hp hcat hauto
    refine ⟨hcontributed, harbitrated, fun s hs => ?_⟩
    exact harbitrated s ((EmitLd.assignedSymbols_perm _).mem_iff.mp hs)

end Run

section Correlated

/-- A target that two references match at one address: the first by a function that
nobody named, the second by a named one. -/
def correlatedTarget : Target where
  romPath := "roms/target.bin"
  romBytes := []
  newRun := {}

def correlatedSelection : Selection where
  primary := {
    entry := ⟨"colt", "reference/colt.json", "roms/colt.bin", "colt", "fp8000", 20, [], ""⟩
    store := ⟨1, "colt", "", [], [], [], []⟩
    refRun := some {}
    refBytes := []
    vtAssociations := [⟨0x1000, 0x2000, 1, some "FUN_00001000"⟩] }
  others := [{
    entry := ⟨"z27ag", "reference/z27ag.json", "roms/z27ag.bin", "z27ag", "fp8000", 10, [], ""⟩
    store := ⟨1, "z27ag", "", [], [{ name := "knock_control", entryPoint := 0x1800 }], [], []⟩
    refRun := some {}
    refBytes := []
    vtAssociations := [⟨0x1800, 0x2000, 1, some "knock_control"⟩] }]

/-- The name Ghidra made up for a function of the primary reference wins the address
for which the other reference has a human name. -/
theorem auto_name_wins_over_human_name :
    ((analyzeMerged id correlatedTarget correlatedSelection false 64).propagated.map
        PropagatedSymbol.name = ["FUN_00001000"]) ∧
      ¬ HumanNamesOnly (analyzeResults id correlatedTarget correlatedSelection false 64)
        (analyzeMerged id correlatedTarget correlatedSelection false 64) := by
  have hnames : (analyzeMerged id correlatedTarget correlatedSelection false 64).propagated.map
      PropagatedSymbol.name = ["FUN_00001000"] := by decide +kernel
  refine ⟨hnames, fun h => ?_⟩
  have hmem : "FUN_00001000" ∈ (analyzeMerged id correlatedTarget correlatedSelection false
      64).propagated.map PropagatedSymbol.name := by
    rw [hnames]
    exact List.mem_singleton_self _
  obtain ⟨s, hs, hname⟩ := List.mem_map.mp hmem
  have hhuman := h.arbitrated s hs
  rw [hname] at hhuman
  exact absurd hhuman (by decide +kernel)

end Correlated

/-! ### Where auto-generated names come from -/

/-- The symbols that are copied from the reference's own ROM. -/
def Copyable (newRun : HeadlessRun) (r : ReferenceSymbol) : Prop :=
  r.category = .function ∨ r.category = .data ∨
    r.category = .ramGlobal ∧ r.address ∈ newRun.ramRefs

/-- What the producers of match names read in another ROM, free of auto-generated names:
the annotations, the functions correlated well enough for a label, the program symbols,
handlers that would be named after their slot, and functions with a signature that would
be named after their address. -/
structure NamedProducers (newBytes : Bytes) (ref : SelectedReference) (refRun : HeadlessRun) :
    Prop where
  annotations : ∀ r ∈ loadReferenceSymbols ref.store, HumanName r.name
  correlated : ∀ a ∈ ref.vtAssociations, mediumThreshold ≤ a.similarityScore →
    HumanName (Diff.funcNameAt a)
  program : ∀ addr name, Callgraph.nameFor addr refRun = some name → HumanName name
  handlers : ∀ e ∈ Callgraph.vectorSlots ref.refBytes newBytes ++
    Callgraph.icuSlots ref.refBytes newBytes,
      ¬ Callgraph.HandlerUnnamed refRun (symbolsByAddr (loadReferenceSymbols ref.store)) e.2.1
  accessors : ∀ f, 3 ≤ (RamSignature.signatureOf refRun.ramDataRefs
    (ramGlobalNames (loadReferenceSymbols ref.store)) f).card →
      (symbolsByAddr (loadReferenceSymbols ref.store)).get? f ≠ none

/-- What a run reads of one reference holds no auto-generated name. -/
structure NamedInputs (own : Prop) (target : Target) (ref : SelectedReference) : Prop where
  copied : own → ∀ r ∈ loadReferenceSymbols ref.store, Copyable target.newRun r →
    HumanName r.name
  crossed : ¬ own → ∀ refRun ∈ ref.refRun, NamedProducers target.romBytes ref refRun

section Named

variable {ctx : RomContext} {newRun : HeadlessRun} {ref : SelectedReference}
  {refRun : HeadlessRun}

section Producers

variable (h : NamedProducers ctx.romBytes ref refRun)
include h

theorem humanName_of_symbol {a : Nat} {sym : ReferenceSymbol}
    (hs : (symbolsByAddr (loadReferenceSymbols ref.store)).get? a = some sym) :
    HumanName sym.name :=
  h.annotations sym (mem_of_symbolsByAddr hs)

/-- One case for each phase of the cross match. -/
theorem crossMatches_humanName {m : MatchedFunction}
    (hm : m ∈ crossMatches ctx newRun ref refRun) (htier : mediumThreshold ≤ m.similarity) :
    HumanName m.refName := by
  have hblank : HumanName "" := by decide
  have hprog : ∀ addr, HumanName (Callgraph.nameOr (Callgraph.nameFor addr refRun) "") := by
    intro addr
    rcases Callgraph.nameOr_cases (Callgraph.nameFor addr refRun) "" with hn | ⟨_, hn⟩
    · exact h.program addr _ hn
    · rw [hn]
      exact hblank
  simp only [crossMatches, seedMatches, List.mem_append] at hm
  rcases hm with (((hm | hm) | hm) | hm) | hm
  · obtain ⟨a, ha, rfl⟩ := Diff.mem_matchesFromVtsession hm
    exact h.correlated a ha htier
  · exact Callgraph.bootstrapAnchors_name (fun a sym hs => humanName_of_symbol h hs)
      h.program ⟨by decide, by decide, by decide⟩ h.handlers hm
  · obtain ⟨p, sym, hs, rfl⟩ := Callgraph.mem_bfsPreseed hm
    exact humanName_of_symbol h hs
  · obtain ⟨p, rfl⟩ := Callgraph.mem_gapFill hm
    show HumanName ((Callgraph.nameFor p.1 refRun).getD "")
    cases hn : Callgraph.nameFor p.1 refRun with
    | none => exact hblank
    | some name => exact h.program p.1 name hn
  · rw [(Callgraph.mem_bytecodeIdentityMatch hm).1.2, Callgraph.identityName]
    rcases Callgraph.nameOr_cases (((symbolsByAddr (loadReferenceSymbols ref.store)).get?
        m.refAddress).map ReferenceSymbol.name)
        (Callgraph.nameOr (Callgraph.nameFor m.refAddress refRun) "") with hn | ⟨_, hn⟩
    · obtain ⟨sym, hs, hname⟩ := Option.map_eq_some_iff.mp hn
      rw [← hname]
      exact humanName_of_symbol h hs
    · rw [hn]
      exact hprog m.refAddress

/-- A signature match is of a function that shares three names, so it has a symbol. -/
theorem signatureMatch_humanName (hrun : ref.refRun = some refRun) {m : MatchedFunction}
    (hm : m ∈ signatureMatches ctx newRun ref) : HumanName m.refName := by
  unfold signatureMatches at hm
  rcases sigMatches_cases ctx newRun ref.refRun (loadReferenceSymbols ref.store)
      (keptMatches ctx newRun ref) with hnil | ⟨run, nl, hsome, _, hsig⟩
  · rw [hnil] at hm
    cases hm
  · rw [hrun, Option.some.injEq] at hsome
    rw [hsig, ← hsome] at hm
    obtain ⟨⟨sig, hget, hshared⟩, ⟨sym, hs, hname⟩ | ⟨hs, _⟩⟩ :=
      RamSignature.matchByRamSignature_name hm
    · rw [hname]
      exact humanName_of_symbol h hs
    · rw [RamSignature.get?_buildRamSignatures hget] at hshared
      exact absurd hs (h.accessors m.refAddress hshared)

end Producers

/-- The label of a match has a human name when the match, and the symbol whose name it
would fall back on, have one. -/
theorem functionLabel_humanName {m : MatchedFunction} {s : PropagatedSymbol}
    (hlabel : Propagate.functionLabel (functionsByAddr (loadReferenceSymbols ref.store)) false m =
      some s)
    (hmatch : mediumThreshold ≤ m.similarity → HumanName m.refName)
    (hsymbols : ∀ r ∈ loadReferenceSymbols ref.store, r.category = .function →
      HumanName r.name) : HumanName s.name := by
  obtain ⟨hname, htier⟩ := Propagate.exists_functionLabel_iff.mp ⟨s, hlabel, rfl⟩
  rcases Propagate.labelName_cases hname with ⟨hname, _⟩ | ⟨r, hr, hcat, _, hname⟩
  · rw [← hname]
    exact hmatch htier
  · rw [← hname]
    exact hsymbols r hr hcat

theorem proposedLabels_humanName_of_own (hself : ctx.isSelfDiff = true)
    (h : ∀ r ∈ loadReferenceSymbols ref.store, Copyable newRun r → HumanName r.name)
    {s : PropagatedSymbol} (hs : s ∈ proposedLabels ctx newRun ref) : HumanName s.name := by
  rcases proposedLabels_cases hs with ⟨m, hm, hlabel⟩ | ⟨_, r, hr, hcopy⟩ | ⟨hcross, _⟩
  · refine functionLabel_humanName hlabel (fun _ => ?_) fun r hr hcat => h r hr (Or.inl hcat)
    obtain ⟨r, hr, hcat, rfl⟩ := mem_extendedMatches_of_selfDiff hself hm
    exact h r hr (Or.inl hcat)
  · rcases hcopy with ⟨hcat, haddr, rfl⟩ | ⟨hcat, rfl⟩
    · exact h r hr (Or.inr (Or.inr ⟨hcat, haddr⟩))
    · exact h r hr (Or.inr (Or.inl hcat))
  · rw [hself] at hcross
    cases hcross

/-- Without the reference ROM there is nothing to label. -/
theorem proposedLabels_of_noRun (hself : ctx.isSelfDiff = false) (hrun : ref.refRun = none)
    (s : PropagatedSymbol) : s ∉ proposedLabels ctx newRun ref := by
  intro hs
  have hcross : ¬ ctx.isSelfDiff = true := by simp [hself]
  rcases proposedLabels_cases hs with ⟨m, hm, _⟩ | ⟨htrue, _⟩ | ⟨_, ms, hs | hs⟩
  · rcases List.mem_append.mp hm with hm | hm
    · have hcand := mem_of_mem_dedupMatches hm
      rw [candidateMatches, if_neg hcross, hrun] at hcand
      cases hcand
    · unfold signatureMatches at hm
      rcases sigMatches_cases ctx newRun ref.refRun (loadReferenceSymbols ref.store)
          (keptMatches ctx newRun ref) with hnil | ⟨run, nl, hsome, _, _⟩
      · rw [hnil] at hm
        cases hm
      · rw [hrun] at hsome
        cases hsome
  · exact hcross htrue
  · rw [hrun] at hs
    cases hs
  · rw [hrun] at hs
    cases hs

theorem proposedLabels_humanName_of_producers (hself : ctx.isSelfDiff = false)
    (hrun : ref.refRun = some refRun) (h : NamedProducers ctx.romBytes ref refRun)
    {s : PropagatedSymbol} (hs : s ∈ proposedLabels ctx newRun ref) : HumanName s.name := by
  have hcross : ¬ ctx.isSelfDiff = true := by simp [hself]
  rcases proposedLabels_name hs with ⟨m, hm, hlabel⟩ | ⟨_, r, hr, hname⟩
  · refine functionLabel_humanName hlabel (fun htier => ?_) fun r hr _ => h.annotations r hr
    rcases List.mem_append.mp hm with hm | hm
    · have hcand := mem_of_mem_dedupMatches hm
      rw [candidateMatches, if_neg hcross, hrun] at hcand
      exact crossMatches_humanName h hcand htier
    · exact signatureMatch_humanName h hrun hm
  · rw [← hname]
    exact h.annotations r hr

end Named

/-- A run whose inputs hold no auto-generated name puts none into its output. -/
theorem analyze_humanNamesOnly_of_named (resolve : Path → Path) (target : Target)
    (sel : Selection) (emitMode23 : Bool) (minFlashBlock : Nat)
    (h : ∀ ref ∈ sel.all,
      NamedInputs (OwnRom resolve target sel.primary.entry) target ref) :
    HumanNamesOnly (analyzeResults resolve target sel emitMode23 minFlashBlock)
      (analyzeMerged resolve target sel emitMode23 minFlashBlock) := by
  have hall : ∀ r ∈ analyzeResults resolve target sel emitMode23 minFlashBlock,
      ∀ s ∈ r.propagated, HumanName s.name := by
    intro r hr s hs
    obtain ⟨ref, href, rfl⟩ := mem_analyzeResults.mp hr
    obtain ⟨u, hu, rfl⟩ := mem_propagated.mp hs
    rw [Propagate.stampProvenance_name]
    have hinputs := h ref href
    by_cases hown : OwnRom resolve target sel.primary.entry
    · exact proposedLabels_humanName_of_own (decide_eq_true hown) (hinputs.copied hown) hu
    · have hself := decide_eq_false hown
      cases hrun : ref.refRun with
      | none => exact absurd hu (proposedLabels_of_noRun hself hrun _)
      | some refRun =>
        exact proposedLabels_humanName_of_producers hself hrun
          (hinputs.crossed hown refRun hrun) hu
  have harbitrated : ∀ s ∈ (analyzeMerged resolve target sel emitMode23
      minFlashBlock).propagated, HumanName s.name := by
    intro s hs
    obtain ⟨r, hr, hsr⟩ := mem_allPropagated.mp (mem_of_mem_arbitrateReferences hs)
    exact hall r hr s hsr
  refine ⟨fun r hr s hs _ => hall r hr s hs, harbitrated, fun s hs => ?_⟩
  exact harbitrated s ((EmitLd.assignedSymbols_perm _).mem_iff.mp hs)

section NamedSample

/-- Slot 0 branches to 0x200. -/
def branchingRom : Bytes := [0xFF, 0, 0, 0x80] ++ List.replicate 0x20C 0

def namedTarget : Target where
  romPath := "roms/target.bin"
  romBytes := branchingRom
  newRun := {}

/-- The reset handler and the one function that reads three named variables are annotated.
A function that nobody named is correlated, but not well enough for a label. -/
def namedRun : HeadlessRun where
  symbols := [⟨"ram_check", 0x1800, "USER_DEFINED", "Function"⟩]
  ramDataRefs := Dict.ofList [
    (0x1800, [{ instructionOffset := 4, referencedAddress := 0x804000 },
      { instructionOffset := 8, referencedAddress := 0x804002 },
      { instructionOffset := 12, referencedAddress := 0x804004 }]),
    (0x3000, [{ instructionOffset := 4, referencedAddress := 0x804000 }])]

def namedReference : SelectedReference where
  entry := ⟨"colt", "reference/colt.json", "roms/colt.bin", "colt", "fp8000", 20, [], ""⟩
  store := ⟨1, "colt", "", [
    { name := "rpm", address := 0x804000, category := .ramGlobal },
    { name := "load", address := 0x804002, category := .ramGlobal },
    { name := "coolant_temp", address := 0x804004, category := .ramGlobal }], [
    { name := "reset_handler", entryPoint := 0x200 },
    { name := "knock_control", entryPoint := 0x1800 }], [], []⟩
  refRun := some namedRun
  refBytes := branchingRom
  vtAssociations := [⟨0x1800, 0x2000, 1, some "knock_control"⟩,
    ⟨0x3000, 0x3400, 1 / 2, some "FUN_00003000"⟩]

def namedSelection : Selection where
  primary := namedReference
  others := []

theorem namedProducers_namedReference :
    NamedProducers branchingRom namedReference namedRun where
  annotations := by decide +kernel
  correlated := by decide +kernel
  program addr name h := by
    obtain ⟨s, hs, rfl⟩ := Option.map_eq_some_iff.mp h
    rw [List.mem_singleton.mp (List.mem_of_find?_eq_some hs)]
    decide
  handlers := by
    have hslots : Callgraph.vectorSlots branchingRom branchingRom ++
        Callgraph.icuSlots branchingRom branchingRom = [(0, 0x200, 0x200)] := by decide +kernel
    intro e he hunnamed
    rw [show namedReference.refBytes = branchingRom from rfl, hslots, List.mem_singleton] at he
    rw [he] at hunnamed
    exact absurd hunnamed.1 (by decide +kernel)
  accessors f hshared := by
    by_cases hf : f ∈ namedRun.ramDataRefs.keys
    · revert hshared
      rw [show namedRun.ramDataRefs.keys = [0x1800, 0x3000] by decide] at hf
      rcases List.mem_cons.mp hf with rfl | hf
      · decide +kernel
      · rw [List.mem_singleton.mp hf]
        decide +kernel
    · rw [RamSignature.signatureOf, Dict.getD, (Dict.get?_eq_none_iff _ f).mpr hf] at hshared
      exact absurd hshared (by decide)

theorem analyze_humanNamesOnly_of_named_sample :
    HumanNamesOnly (analyzeResults id namedTarget namedSelection false 64)
      (analyzeMerged id namedTarget namedSelection false 64) := by
  refine analyze_humanNamesOnly_of_named id namedTarget namedSelection false 64 ?_
  intro ref href
  rw [List.mem_singleton.mp href]
  refine ⟨fun hown => absurd hown (by decide), fun _ refRun hrun => ?_⟩
  rw [← Option.some.inj hrun]
  exact namedProducers_namedReference

end NamedSample

end RomAnalyzer.Pipeline
