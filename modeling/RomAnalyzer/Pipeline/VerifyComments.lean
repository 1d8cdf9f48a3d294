import RomAnalyzer.Pipeline.Output

/-!
# Labels of another family

A data or RAM label of a reference of another family than the target's is
downgraded when it is stamped with its origin. The rank of a proposal starts with
its confidence, so such a label wins only where nothing better was proposed, and
`description.ld` then asks to verify it.
-/
namespace RomAnalyzer.Pipeline

open Lib
open EmitLd
open Merge (arbitrateSymbols confidenceRank symbolRank)

/-- The comment that asks to verify a label of the reference `id`. -/
def verifyComment (id : String) : String := "  /* VERIFY: cross-family from " ++ id ++ " */"

theorem verifyComment_injective {id id' : String} (h : verifyComment id = verifyComment id') :
    id = id' := by
  have hlist := congrArg String.toList h
  unfold verifyComment at hlist
  rw [String.toList_append, String.toList_append, String.toList_append,
    String.toList_append] at hlist
  exact String.toList_injective (List.append_cancel_left (List.append_cancel_right hlist))

/-- Texts that differ in their first `n` characters. -/
theorem append_ne_append {n : Nat} {pre pre' : String} (hlen : n ≤ pre.toList.length)
    (hlen' : n ≤ pre'.toList.length) (hne : pre.toList.take n ≠ pre'.toList.take n)
    (rest rest' : String) : pre ++ rest ≠ pre' ++ rest' := by
  intro h
  have htake := congrArg (fun t => t.toList.take n) h
  simp only [String.toList_append, List.take_append_of_le_length hlen,
    List.take_append_of_le_length hlen'] at htake
  exact hne htake

theorem from_ne_verifyComment (id id' : String) :
    "  /* from " ++ id ++ " */" ≠ verifyComment id' := by
  unfold verifyComment
  rw [String.append_assoc, String.append_assoc]
  exact append_ne_append (n := 6) (by decide) (by decide) (by decide) _ _

theorem pidComment_ne_verifyComment (p : ObdAnalysis.OBDPidEntry) (id : String) :
    pidComment p ≠ verifyComment id := by
  unfold pidComment verifyComment
  simp only [String.append_assoc]
  exact append_ne_append (n := 6) (by decide) (by decide) (by decide) _ _

theorem empty_ne_verifyComment (id : String) : "" ≠ verifyComment id := by
  intro h
  have hlist := congrArg String.toList h
  unfold verifyComment at hlist
  rw [String.toList_append, String.toList_append, show "".toList = [] from rfl, eq_comm,
    List.append_eq_nil_iff, List.append_eq_nil_iff] at hlist
  exact absurd hlist.1.1 (by decide)

/-- The VERIFY comment stands behind gated labels of a named reference. -/
theorem provenanceComment_eq_verifyComment_iff {s : PropagatedSymbol} {shown : Bool}
    {id : String} :
    provenanceComment s shown = verifyComment id ↔
      shown = true ∧ s.reference = id ∧ id ≠ "" ∧ s.familyMatch = false ∧
        (s.category = .data ∨ s.category = .ramGlobal) := by
  unfold provenanceComment
  split
  · rename_i hblank
    refine iff_of_false (empty_ne_verifyComment id) fun h => ?_
    rcases hblank with hshown | href
    · exact absurd h.1 (by simp [hshown])
    · exact h.2.2.1 (h.2.1 ▸ href)
  · rename_i hnamed
    rw [not_or, Bool.not_eq_false] at hnamed
    split
    · rename_i hgated
      constructor
      · intro h
        obtain rfl := verifyComment_injective h
        exact ⟨hnamed.1, rfl, hnamed.2, hgated⟩
      · intro h
        rw [← h.2.1]
        rfl
    · rename_i hgated
      exact iff_of_false (from_ne_verifyComment _ _) fun h => hgated h.2.2.2

/-! ### Stamped labels -/

section Stamped

variable {ctx : RomContext} {newRun : Ghidra.HeadlessRun} {ref : SelectedReference}
  {t : PropagatedSymbol}

theorem propagated_reference (h : t ∈ (matchReference ctx newRun ref).propagated) :
    t.reference = ref.entry.id := by
  obtain ⟨s, _, rfl⟩ := mem_propagated.mp h
  exact Propagate.stampProvenance_reference ..

/-- The gated labels are the data and RAM labels of another family. -/
theorem propagated_gated_iff (h : t ∈ (matchReference ctx newRun ref).propagated) :
    t.familyMatch = false ↔ ref.entry.family ≠ ctx.targetFamily ∧
      (t.category = .data ∨ t.category = .ramGlobal) := by
  obtain ⟨s, _, rfl⟩ := mem_propagated.mp h
  rw [Propagate.stampProvenance_gated, Propagate.stampProvenance_category, decide_eq_false_iff_not]

theorem propagated_low_of_gated (h : t ∈ (matchReference ctx newRun ref).propagated)
    (hgated : t.familyMatch = false) : t.confidence = .low := by
  obtain ⟨s, _, rfl⟩ := mem_propagated.mp h
  exact Propagate.stampProvenance_confidence_of_gated _ _ _ hgated

/-- Function labels keep a confidence above low, of whatever family. -/
theorem propagated_confidence_of_function (h : t ∈ (matchReference ctx newRun ref).propagated)
    (hcat : t.category = .function) : t.confidence = .medium ∨ t.confidence = .high := by
  obtain ⟨s, hs, rfl⟩ := mem_propagated.mp h
  rw [Propagate.stampProvenance_category] at hcat
  rw [Propagate.stampProvenance_confidence_of_function _ _ _ hcat]
  rcases proposedLabels_cases hs with ⟨m, _, hlabel⟩ | ⟨_, r, _, hcopy⟩ | ⟨_, ms, haccess⟩
  · exact Propagate.functionLabel_confidence hlabel
  · rcases hcopy with ⟨_, _, rfl⟩ | ⟨_, rfl⟩
    · cases hcat
    · cases hcat
  · rcases haccess with hram | hdata
    · rw [(mem_crossRamLabels hram).1] at hcat
      cases hcat
    · rw [(mem_crossDataLabels hdata).1] at hcat
      cases hcat

end Stamped

/-! ### The whole run -/

section Run

variable (resolve : Path → Path) (target : Target) (sel : Selection)
  (emitMode23 : Bool) (minFlashBlock : Nat)

/-- What a reference proposes in the run. -/
def proposalsOf (ref : SelectedReference) : List PropagatedSymbol :=
  (matchReference (analyzeContext resolve target sel emitMode23 minFlashBlock) target.newRun
    ref).propagated

/-- A data or RAM label that a reference of another family than the target's proposed. -/
structure CrossFamilyLabel (ref : SelectedReference) (s : PropagatedSymbol) : Prop where
  selected : ref ∈ sel.all
  family : ref.entry.family ≠ sel.primary.entry.family
  proposed : s ∈ proposalsOf resolve target sel emitMode23 minFlashBlock ref
  category : s.category = .data ∨ s.category = .ramGlobal

variable {resolve target sel emitMode23 minFlashBlock}

theorem mem_allPropagated_analyzeResults {s : PropagatedSymbol} :
    s ∈ allPropagated (analyzeResults resolve target sel emitMode23 minFlashBlock) ↔
      ∃ ref ∈ sel.all, s ∈ proposalsOf resolve target sel emitMode23 minFlashBlock ref := by
  unfold allPropagated
  rw [List.mem_flatMap]
  constructor
  · intro h
    obtain ⟨r, hr, hs⟩ := h
    obtain ⟨ref, href, rfl⟩ := mem_analyzeResults.mp hr
    exact ⟨ref, href, hs⟩
  · intro h
    obtain ⟨ref, href, hs⟩ := h
    exact ⟨_, mem_analyzeResults.mpr ⟨ref, href, rfl⟩, hs⟩

theorem CrossFamilyLabel.gated {ref : SelectedReference} {s : PropagatedSymbol}
    (h : CrossFamilyLabel resolve target sel emitMode23 minFlashBlock ref s) :
    s.familyMatch = false :=
  (propagated_gated_iff h.proposed).mpr ⟨h.family, h.category⟩

/-- A winner of another family leaves every proposal for its address at low
confidence, function labels excluded. -/
theorem low_of_crossFamily_winner {ref ref' : SelectedReference} {s t : PropagatedSymbol}
    (hs : CrossFamilyLabel resolve target sel emitMode23 minFlashBlock ref s)
    (hwin : s ∈ (arbitrateSymbols (allPropagated (analyzeResults resolve target sel emitMode23
      minFlashBlock)) sel.priority).1)
    (href : ref' ∈ sel.all) (ht : t ∈ proposalsOf resolve target sel emitMode23 minFlashBlock ref')
    (haddr : t.newAddress = s.newAddress) :
    ¬ (t.confidence = .medium ∨ t.confidence = .high) := by
  intro hconf
  have hlow : s.confidence = .low := propagated_low_of_gated hs.proposed hs.gated
  have hrank : confidenceRank s.confidence < confidenceRank t.confidence := by
    rcases hconf with hmedium | hhigh
    · rw [hlow, hmedium]
      decide
    · rw [hlow, hhigh]
      decide
  -- the confidence decides before the priority is looked at
  have hlt : symbolRank sel.priority s < symbolRank sel.priority t :=
    Prod.Lex.toLex_lt_toLex.mpr (Or.inl hrank)
  have hle := (Merge.arbitrateSymbols_settles _ sel.priority).maximal s hwin t
    (mem_allPropagated_analyzeResults.mpr ⟨ref', href, ht⟩) haddr
  exact hlt.not_ge hle

end Run

section Files

variable {queries : PostMatchQueries} {resolve : Path → Path} {target : Target} {sel : Selection}
  {emitMode23 : Bool} {minFlashBlock : Nat} {emitObd : Bool} {flashBlocks : List FlashFreeBlock}

/-- A gated symbol of the file is a winner: the label of the MUT table is not gated. -/
theorem winner_of_gated {s : PropagatedSymbol}
    (hs : s ∈ (analyzePostMatch queries resolve target sel emitMode23 minFlashBlock emitObd
      flashBlocks).1.propagated) (hgated : s.familyMatch = false) :
    s ∈ (arbitrateSymbols (allPropagated (analyzeResults resolve target sel emitMode23
      minFlashBlock)) sel.priority).1 := by
  rw [analyzePostMatch_propagated] at hs
  rcases mem_withMutTable.mp hs with ⟨hwin, _⟩ | ⟨r, _, rfl⟩
  · exact hwin
  · cases hgated

/-- A gated symbol of the file was proposed by a reference of another family. -/
theorem exists_crossFamilyLabel {s : PropagatedSymbol}
    (hs : s ∈ (analyzePostMatch queries resolve target sel emitMode23 minFlashBlock emitObd
      flashBlocks).1.propagated) (hgated : s.familyMatch = false) :
    ∃ ref, CrossFamilyLabel resolve target sel emitMode23 minFlashBlock ref s ∧
      ref.entry.id = s.reference := by
  have hprop := Merge.mem_of_mem_arbitrateSymbols (winner_of_gated hs hgated)
  obtain ⟨ref, href, hs⟩ := mem_allPropagated_analyzeResults.mp hprop
  obtain ⟨hfamily, hcat⟩ := (propagated_gated_iff hs).mp hgated
  exact ⟨ref, ⟨href, hfamily, hs, hcat⟩, (propagated_reference hs).symm⟩

/-- The VERIFY comments of the file. -/
theorem comment_eq_verifyComment_iff (hmany : sel.others ≠ []) {a : LdAssignment}
    (ha : a ∈ descriptionAssignments (showProvenance sel)
      (analyzePostMatch queries resolve target sel emitMode23 minFlashBlock emitObd
        flashBlocks).1.propagated
      (analyzePostMatch queries resolve target sel emitMode23 minFlashBlock emitObd
        flashBlocks).2) {id : String} :
    a.comment = verifyComment id ↔ id ≠ "" ∧
      ∃ s ∈ (analyzePostMatch queries resolve target sel emitMode23 minFlashBlock emitObd
        flashBlocks).1.propagated, symbolAssignment (showProvenance sel) s = a ∧
          ∃ ref, CrossFamilyLabel resolve target sel emitMode23 minFlashBlock ref s ∧
            ref.entry.id = id := by
  constructor
  · intro h
    rcases mem_descriptionAssignments.mp ha with ⟨s, hs, rfl⟩ | ⟨b, _, hb⟩ | ⟨p, _, rfl⟩
    · obtain ⟨_, hid, hne, hgated, _⟩ := provenanceComment_eq_verifyComment_iff.mp h
      obtain ⟨ref, href, hrefid⟩ := exists_crossFamilyLabel hs hgated
      exact ⟨hne, s, hs, rfl, ref, href, hrefid.trans hid⟩
    · rw [(bindingAssignment_eq_some.mp hb).2.2] at h
      exact absurd h (empty_ne_verifyComment id)
    · exact absurd h (pidComment_ne_verifyComment p id)
  · intro h
    obtain ⟨hne, s, _, rfl, ref, href, rfl⟩ := h
    have hshown : showProvenance sel = true := by
      have hpos := List.length_pos_iff.mpr hmany
      simpa [showProvenance, Selection.all] using hpos
    exact provenanceComment_eq_verifyComment_iff.mpr
      ⟨hshown, propagated_reference href.proposed, hne, href.gated, href.category⟩

end Files

/-- In a run over several references an assignment of `description.ld` carries the
VERIFY comment of a reference exactly when it assigns a data or RAM label that a
reference of this name and of another family proposed; and such a label never wins
an address for which a function label, or a label of medium or high confidence of
the target's family, was proposed. -/
theorem analyze_crossFamily_verified (queries : PostMatchQueries) (resolve : Path → Path)
    (target : Target) (sel : Selection) (emitMode23 : Bool) (minFlashBlock : Nat)
    (emitObd : Bool) (flashBlocks : List FlashFreeBlock) (hmany : sel.others ≠ []) :
    let post := analyzePostMatch queries resolve target sel emitMode23 minFlashBlock emitObd
      flashBlocks
    let shown := showProvenance sel
    let Foreign := CrossFamilyLabel resolve target sel emitMode23 minFlashBlock
    let proposals := proposalsOf resolve target sel emitMode23 minFlashBlock
    (∀ a ∈ descriptionAssignments shown post.1.propagated post.2, ∀ id,
      a.comment = verifyComment id ↔ id ≠ "" ∧ ∃ s ∈ post.1.propagated,
        symbolAssignment shown s = a ∧ ∃ ref, Foreign ref s ∧ ref.entry.id = id) ∧
    ∀ s ∈ post.1.propagated, ∀ ref, Foreign ref s →
      ∀ ref' ∈ sel.all, ∀ t ∈ proposals ref', t.newAddress = s.newAddress →
        ¬ (t.category = .function ∨ ref'.entry.family = sel.primary.entry.family ∧
          (t.confidence = .medium ∨ t.confidence = .high)) := by
  intro post shown Foreign proposals
  refine ⟨fun a ha id => comment_eq_verifyComment_iff hmany ha, ?_⟩
  intro s hs ref hforeign ref' href' t ht haddr hbetter
  apply low_of_crossFamily_winner hforeign (winner_of_gated hs hforeign.gated) href' ht haddr
  rcases hbetter with hfunction | ⟨_, hconf⟩
  · exact propagated_confidence_of_function ht hfunction
  · exact hconf

section Colt

/-- The second reference of the Colt run under a given id. -/
def coltSelectionAs (id : String) : Selection where
  primary := coltSelection.primary
  others := [{
    entry := ⟨id, "reference/z37a.json", "roms/z37a.bin", "z37a", "fp8000", 10, [], ""⟩
    store := ⟨1, "z37a", "",
      [{ name := "flash_fuel_map", address := 0x4a2c0, category := .data }], [], [], []⟩
    refRun := some {}
    refBytes := []
    vtAssociations := [] }]

/-- The label of the other family is marked with its reference. -/
theorem crossFamily_verified_z37a :
    ∃ s ∈ (analyzePostMatch noQueries id coltTarget (coltSelectionAs "z37a") false 64 false
        []).1.propagated,
      symbolAssignment true s = ⟨"flash_fuel_map", 0x4a2c0, verifyComment "z37a"⟩ ∧
        ∃ ref, CrossFamilyLabel id coltTarget (coltSelectionAs "z37a") false 64 ref s ∧
          ref.entry.id = "z37a" :=
  (((analyze_crossFamily_verified noQueries id coltTarget (coltSelectionAs "z37a") false 64 false
    [] (by decide)).1 ⟨"flash_fuel_map", 0x4a2c0, verifyComment "z37a"⟩ (by decide +kernel)
      "z37a").mp rfl).2

/-- Under a blank id the label of the other family is not marked. -/
theorem crossFamily_unmarked_of_blank_id :
    let sel := coltSelectionAs ""
    let post := analyzePostMatch noQueries id coltTarget sel false 64 false []
    ∃ s ∈ post.1.propagated, ∃ ref,
      CrossFamilyLabel id coltTarget sel false 64 ref s ∧
        ∀ id, (symbolAssignment (showProvenance sel) s).comment ≠ verifyComment id := by
  intro sel post
  refine ⟨⟨"flash_fuel_map", 0x4a2c0, 0x4a2c0, .data, .low, "identity", 1, "", false⟩,
    by decide +kernel, sel.others.head (by decide), ⟨?_, by decide, by decide +kernel, Or.inl rfl⟩,
    fun id => empty_ne_verifyComment id⟩
  exact List.mem_cons_of_mem _ (List.head_mem _)

end Colt

end RomAnalyzer.Pipeline
