import RomAnalyzer.Pipeline.Output

/-!
# The stub and the fragment it includes

The stub takes the RAM globals as the primary reference proposed them, the
included fragment takes what arbitration made of all proposals. The two agree as
long as no other address keeps the name of one of these globals.
-/
namespace RomAnalyzer.Pipeline

open Lib
open EmitLd
open MutTable (MutTableResult mutTableName)
open NameArbitration (NameOutbid)

/-- No name is assigned two addresses across the two files. -/
def SameAddresses (stub description : List LdAssignment) : Prop :=
  ∀ a ∈ stub, ∀ b ∈ description, b.name = a.name → b.address = a.address

/-- Nothing else keeps the name of `s`: proposals of the name elsewhere lose their
address to other names or to the MUT pass, and no later pass binds the name
elsewhere. -/
structure Unopposed (proposals : List PropagatedSymbol) (priority : Merge.Priority)
    (analysis : AnalysisResult) (s : PropagatedSymbol) : Prop where
  proposals : ∀ t ∈ proposals, t.name = s.name → t.newAddress ≠ s.newAddress →
    NameOutbid proposals priority t ∨ analysis.mutResult ≠ none ∧ s.name = mutTableName
  mutTable : ∀ r, analysis.mutResult = some r → s.name = mutTableName →
    r.tableAddress = s.newAddress
  bindings : ∀ b ∈ analysis.bindings, ∀ a, b.1 = s.name → b.2 = ⟨some a, .high⟩ →
    a = s.newAddress
  pids : ∀ p ∈ analysis.pidEntries, pidName p = s.name → p.ramAddr = s.newAddress

section Agreement

variable {proposals : List PropagatedSymbol} {priority : Merge.Priority}
  {analysis : AnalysisResult} {refSymbols : List ReferenceSymbol}

/-- A symbol that nothing opposes has its address wherever its name is assigned. -/
theorem address_eq_of_unopposed {shown : Bool} {s : PropagatedSymbol} {b : LdAssignment}
    (h : Unopposed proposals priority analysis s)
    (hb : b ∈ descriptionAssignments shown (withMutTable analysis.mutResult refSymbols
      (Merge.arbitrateSymbols proposals priority).1) analysis)
    (hname : b.name = s.name) : b.address = s.newAddress := by
  rcases mem_descriptionAssignments.mp hb with ⟨t, ht, rfl⟩ | ⟨bind, hbind, hassign⟩ | ⟨p, hp, rfl⟩
  · rcases mem_withMutTable.mp ht with ⟨hwin, hkept⟩ | ⟨r, hr, rfl⟩
    · by_contra haddr
      have htn : t.name = s.name := hname
      rcases h.proposals t (Merge.mem_of_mem_arbitrateSymbols hwin) htn haddr with hout | hmut
      · exact NameArbitration.not_nameOutbid_of_winner hwin hout
      · rcases hkept with hnone | hne
        · exact hmut.1 hnone
        · exact hne (htn.trans hmut.2)
    · exact h.mutTable r hr hname.symm
  · obtain ⟨hres, hbn, _⟩ := bindingAssignment_eq_some.mp hassign
    exact h.bindings bind hbind b.address (hbn.trans hname) hres
  · exact h.pids p hp hname

/-- Whatever opposes a symbol is assigned. -/
theorem unopposed_of_address_eq {shown : Bool} {s : PropagatedSymbol}
    (h : ∀ b ∈ descriptionAssignments shown (withMutTable analysis.mutResult refSymbols
      (Merge.arbitrateSymbols proposals priority).1) analysis,
        b.name = s.name → b.address = s.newAddress) :
    Unopposed proposals priority analysis s where
  proposals := by
    intro t ht hname haddr
    by_contra hno
    rw [not_or] at hno
    obtain ⟨w, hw, hwa, hwn⟩ := NameArbitration.exists_winner_of_not_nameOutbid ht hno.1
    have hkept : analysis.mutResult = none ∨ w.name ≠ mutTableName := by
      by_contra hdrop
      rw [not_or, not_not] at hdrop
      exact hno.2 ⟨hdrop.1, by rw [← hname, ← hwn, hdrop.2]⟩
    have hassigned : symbolAssignment shown w ∈ descriptionAssignments shown
        (withMutTable analysis.mutResult refSymbols
          (Merge.arbitrateSymbols proposals priority).1) analysis :=
      mem_descriptionAssignments.mpr (Or.inl ⟨w, mem_withMutTable.mpr (Or.inl ⟨hw, hkept⟩), rfl⟩)
    have hsame : w.newAddress = s.newAddress := h _ hassigned (hwn.trans hname)
    exact haddr (hwa ▸ hsame)
  mutTable := by
    intro r hr hname
    exact h (symbolAssignment shown _) (mem_descriptionAssignments.mpr (Or.inl
      ⟨_, mem_withMutTable.mpr (Or.inr ⟨r, hr, rfl⟩), rfl⟩)) hname.symm
  bindings := by
    intro b hb a hname hres
    exact h ⟨b.1, a, ""⟩ (mem_descriptionAssignments.mpr (Or.inr (Or.inl
      ⟨b, hb, bindingAssignment_eq_some.mpr ⟨hres, rfl, rfl⟩⟩))) hname
  pids := by
    intro p hp hname
    exact h (pidAssignment p) (mem_descriptionAssignments.mpr (Or.inr (Or.inr
      ⟨p, hp, rfl⟩))) hname

theorem sameAddresses_iff_unopposed {shown : Bool} {ram : List PropagatedSymbol} :
    SameAddresses (stubAssignments ram) (descriptionAssignments shown
        (withMutTable analysis.mutResult refSymbols
          (Merge.arbitrateSymbols proposals priority).1) analysis) ↔
      ∀ s ∈ ram, Unopposed proposals priority analysis s := by
  constructor
  · intro h s hs
    apply unopposed_of_address_eq
    intro b hb hname
    exact h _ (mem_stubAssignments.mpr ⟨s, hs, rfl⟩) b hb hname
  · intro h a ha b hb hname
    obtain ⟨s, hs, rfl⟩ := mem_stubAssignments.mp ha
    exact address_eq_of_unopposed (h s hs) hb hname

end Agreement

/-- The two files of a run never assign a RAM global two addresses exactly when
nothing else keeps the name of a RAM global of the primary reference. -/
theorem analyze_stub_sameAddresses_iff (queries : PostMatchQueries) (resolve : Path → Path)
    (target : Target) (sel : Selection) (emitMode23 : Bool) (minFlashBlock : Nat)
    (emitObd : Bool) (flashBlocks : List FlashFreeBlock) :
    let post := analyzePostMatch queries resolve target sel emitMode23 minFlashBlock emitObd
      flashBlocks
    let ram := primaryRamGlobals (analyzePrimary resolve target sel emitMode23 minFlashBlock)
    SameAddresses (stubAssignments ram)
        (descriptionAssignments (showProvenance sel) post.1.propagated post.2) ↔
      ∀ s ∈ ram, Unopposed
        (allPropagated (analyzeResults resolve target sel emitMode23 minFlashBlock))
        sel.priority post.2 s := by
  intro post ram
  have hpropagated : post.1.propagated = _ := analyzePostMatch_propagated queries resolve target
    sel emitMode23 minFlashBlock emitObd flashBlocks
  rw [hpropagated]
  exact sameAddresses_iff_unopposed

section Colt

/-- The Colt ROM refers to a RAM variable at each of two addresses. -/
def coltRamTarget : Target := { coltTarget with newRun := { ramRefs := [0x804d5e, 0x804e00] } }

/-- Two references that keep one RAM variable at different addresses. -/
def coltRamSelection : Selection where
  primary := { coltSelection.primary with
    store := ⟨1, "colt", "",
      [{ name := "age_x1.rpm", address := 0x804d5e, category := .ramGlobal }], [], [], []⟩ }
  others := [{
    entry := ⟨"z37a", "reference/z37a.json", "roms/z37a.bin", "z37a", "fp8000", 10, [], ""⟩
    store := ⟨1, "z37a", "",
      [{ name := "age_x1.rpm", address := 0x804e00, category := .ramGlobal }], [], [], []⟩
    refRun := some {}
    refBytes := []
    vtAssociations := [] }]

/-- The stub has `age_x1.rpm` at the primary's address, the fragment it includes at
both. -/
theorem stub_contradicts_description :
    let post := analyzePostMatch noQueries id coltRamTarget coltRamSelection false 64 false []
    let ram := primaryRamGlobals (analyzePrimary id coltRamTarget coltRamSelection false 64)
    (stubAssignments ram).map (fun a => (a.name, a.address)) = [("age_x1.rpm", 0x804d5e)] ∧
      (descriptionAssignments (showProvenance coltRamSelection) post.1.propagated
        post.2).map (fun a => (a.name, a.address)) =
          [("age_x1.rpm", 0x804d5e), ("age_x1.rpm", 0x804e00)] ∧
      ¬ SameAddresses (stubAssignments ram) (descriptionAssignments
        (showProvenance coltRamSelection) post.1.propagated post.2) := by
  intro post ram
  have hstub : stubAssignments ram = [⟨"age_x1.rpm", 0x804d5e, ""⟩] := by decide +kernel
  have hdesc : descriptionAssignments (showProvenance coltRamSelection) post.1.propagated post.2 =
      [⟨"age_x1.rpm", 0x804d5e, "  /* from colt */"⟩,
        ⟨"age_x1.rpm", 0x804e00, "  /* VERIFY: cross-family from z37a */"⟩] := by
    decide +kernel
  rw [hstub, hdesc]
  refine ⟨rfl, rfl, fun h => ?_⟩
  have hsame := h ⟨"age_x1.rpm", 0x804d5e, ""⟩ (List.mem_singleton_self _)
    ⟨"age_x1.rpm", 0x804e00, "  /* VERIFY: cross-family from z37a */"⟩ (by simp) rfl
  exact absurd hsame (by decide)

end Colt

end RomAnalyzer.Pipeline
