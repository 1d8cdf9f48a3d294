import RomAnalyzer.Callgraph.Bfs
import RomAnalyzer.Callgraph.GapFill
import RomAnalyzer.Callgraph.IdentityMatches

/-!
# Matching a program with a copy of itself

Two dumps of one image differ in the names that were read from their projects. On such a
pair every phase keeps each function where it is, however the functions resemble one
another: the alignment of a callee list with itself is the diagonal.
-/
namespace RomAnalyzer.Callgraph

open Lib
open Ghidra (HeadlessRun)

def unlabelled (r : DataRef) : DataRef := { r with label := none }

/-- The accesses of a dump, without the labels of the project they were read from. -/
def accesses (refs : Dict Nat (List DataRef)) : Dict Nat (List DataRef) :=
  refs.mapValues (List.map unlabelled)

/-- Two dumps that differ in names and labels only. -/
structure SameCode (refRun newRun : HeadlessRun) : Prop where
  entries : newRun.functions.map Ghidra.ProgramFunction.entry =
    refRun.functions.map Ghidra.ProgramFunction.entry
  callees : newRun.callees = refRun.callees
  dataRefs : accesses newRun.dataRefs = accesses refRun.dataRefs
  ramDataRefs : accesses newRun.ramDataRefs = accesses refRun.ramDataRefs

/-- The match keeps its function where it is. -/
def InPlace (m : MatchedFunction) : Prop := m.newAddress = m.refAddress

/-! ### The diagonal -/

theorem lcsWalk_self {ok : Nat → Nat → Bool} {xs : List Nat} (h : ∀ x ∈ xs, ok x x = true) :
    lcsWalk ok xs xs = xs.map fun x => (x, x) := by
  induction xs with
  | nil => rw [lcsWalk, List.map_nil]
  | cons x xs ih =>
    rw [lcsWalk, if_pos (h x List.mem_cons_self), ih fun y hy => h y (List.mem_cons_of_mem x hy),
      List.map_cons]

section Phases

variable {refRun newRun : HeadlessRun} (h : SameCode refRun newRun) {bytes : Bytes}
include h

theorem SameCode.funcSize_eq (a : Nat) : funcSize a newRun = funcSize a refRun := by
  unfold funcSize sortedEntries
  rw [h.entries]

theorem SameCode.calleesOf_eq (a : Nat) : newRun.calleesOf a = refRun.calleesOf a := by
  unfold HeadlessRun.calleesOf
  rw [h.callees]

/-- A function has the size of its copy. -/
theorem SameCode.sizeRatioOk_self {sizeTol : ℚ} (htol : 0 ≤ sizeTol) (a : Nat) :
    sizeRatioOk a a refRun newRun sizeTol = true := by
  unfold sizeRatioOk
  dsimp only
  rw [h.funcSize_eq]
  split
  · rfl
  · rename_i hknown
    have hpos : (funcSize a refRun : ℚ) ≠ 0 := by
      rw [Nat.cast_ne_zero]
      exact fun hzero => hknown (Or.inl hzero)
    rw [min_self, max_self, div_self hpos, decide_eq_true_iff]
    linarith

theorem SameCode.lcsAlign_self {sizeTol : ℚ} (htol : 0 ≤ sizeTol) (callees : List Nat) :
    lcsAlign callees callees refRun newRun sizeTol = callees.map fun a => (a, a) := by
  rw [lcsAlign, lcsWalk_self fun a _ => h.sizeRatioOk_self htol a, List.map_reverse,
    List.reverse_reverse]

/-! ### Anchors -/

theorem SameCode.findHandlerForTable_eq (tableAddr : Nat) :
    findHandlerForTable newRun tableAddr = findHandlerForTable refRun tableAddr := by
  have haccesses : ∀ run : HeadlessRun, findHandlerForTable run tableAddr =
      ((accesses run.dataRefs).entries.find? fun e =>
        e.2.any fun r => r.referencedAddress = tableAddr).map Prod.fst := by
    intro run
    show _ = ((run.dataRefs.entries.map fun e => (e.1, e.2.map unlabelled)).find? _).map Prod.fst
    rw [findHandlerForTable, List.find?_map, Option.map_map]
    congr 2
    funext e
    rw [Function.comp_apply, List.any_map]
    rfl
  rw [haccesses, haccesses, h.dataRefs]

theorem SameCode.bestMainCandidate_eq (handler : Nat) (seen : List Nat) :
    bestMainCandidate newRun bytes handler seen = bestMainCandidate refRun bytes handler seen := by
  unfold bestMainCandidate
  simp only [h.funcSize_eq, h.calleesOf_eq]

theorem SameCode.mainAnchor_inPlace {anchors : List MatchedFunction}
    (hanchors : ∀ m ∈ anchors, InPlace m) {m : MatchedFunction}
    (hm : m ∈ mainAnchor bytes bytes refRun newRun anchors) : InPlace m := by
  unfold mainAnchor at hm
  split at hm
  · cases hm
  · rename_i reset rest
    have hreset : reset.newAddress = reset.refAddress := hanchors reset List.mem_cons_self
    simp only [h.bestMainCandidate_eq, hreset] at hm
    split at hm
    · rename_i bestRef bestNew href hnew
      obtain rfl := Option.some.inj (href.symm.trans hnew)
      split at hm
      · obtain rfl := Option.some.inj hm
        rfl
      · cases hm
    · cases hm

omit h in
/-- The slots of a table branch to one place in both copies. -/
theorem vectorSlots_self {e : Nat × Nat × Nat} (he : e ∈ vectorSlots bytes bytes) :
    e.2.2 = e.2.1 := by
  obtain ⟨i, _, hslot⟩ := List.mem_filterMap.mp he
  cases hdecode : decodeBraTarget bytes (i * 4) with
  | none =>
    rw [hdecode] at hslot
    cases hslot
  | some target =>
    rw [hdecode] at hslot
    dsimp only at hslot
    split at hslot
    · cases hslot
    · obtain rfl := Option.some.inj hslot
      rfl

omit h in
theorem icuSlots_self {e : Nat × Nat × Nat} (he : e ∈ icuSlots bytes bytes) : e.2.2 = e.2.1 := by
  obtain ⟨i, _, hslot⟩ := List.mem_filterMap.mp he
  cases hdecode : decodeIcuEntry bytes (icuVectorTableBase + i * 4) with
  | none =>
    rw [hdecode] at hslot
    cases hslot
  | some target =>
    rw [hdecode] at hslot
    obtain rfl := Option.some.inj hslot
    rfl

theorem SameCode.bootstrapVectorTable_inPlace {refSymbolsByAddr : Dict Nat ReferenceSymbol}
    {m : MatchedFunction}
    (hm : m ∈ bootstrapVectorTable bytes bytes refRun newRun refSymbolsByAddr) : InPlace m := by
  have hslots : ∀ m ∈ (distinctPairs [] [] (vectorSlots bytes bytes)).map (fun e =>
      anchor "vector_table" 1 (handlerName refRun refSymbolsByAddr e.2.1
        ("isr_vector_" ++ twoDigits e.1)) e.2.1 e.2.2), InPlace m := by
    intro m hm
    obtain ⟨e, he, rfl⟩ := List.mem_map.mp hm
    exact vectorSlots_self (mem_of_mem_distinctPairs he)
  rcases List.mem_append.mp hm with hm | hm
  · exact hslots m hm
  · exact h.mainAnchor_inPlace hslots (Option.mem_toList.mp hm)

theorem SameCode.bootstrapMutTable_inPlace {refSymbolsByName : Dict String ReferenceSymbol}
    (hmut : ∀ sym a, refSymbolsByName.get? "flash_mut_variables_table" = some sym →
      findMutTableByTriplet bytes = some a → sym.address = a)
    {m : MatchedFunction} (hm : m ∈ bootstrapMutTable bytes refRun newRun refSymbolsByName) :
    InPlace m := by
  unfold bootstrapMutTable at hm
  split at hm
  · rename_i sym a hsym ha
    rw [hmut sym a hsym ha, h.findHandlerForTable_eq] at hm
    split at hm
    · rename_i refHandler newHandler href hnew
      obtain rfl := Option.some.inj (href.symm.trans hnew)
      rw [List.mem_singleton.mp hm]
      rfl
    · cases hm
  · cases hm

theorem SameCode.tableHandlers_self {e : Unit × Nat × Nat}
    (he : e ∈ tableHandlers bytes bytes refRun newRun) : e.2.2 = e.2.1 := by
  obtain ⟨tables, htables, hhandlers⟩ := List.mem_filterMap.mp he
  have hsame : tables.2 = tables.1 := by
    simp only [List.mem_cons, List.not_mem_nil, or_false] at htables
    rcases htables with rfl | rfl <;> rfl
  have hfind : findHandlerForTable newRun = findHandlerForTable refRun :=
    funext h.findHandlerForTable_eq
  rw [hsame, hfind] at hhandlers
  cases hhandler : tables.1.bind (findHandlerForTable refRun) with
  | none =>
    rw [hhandler] at hhandlers
    cases hhandlers
  | some handler =>
    rw [hhandler] at hhandlers
    obtain rfl := Option.some.inj hhandlers
    rfl

/-- The anchors stay in place where the annotated MUT table is the one the search finds. -/
theorem SameCode.bootstrapAnchors_inPlace {refSymbolsByName : Dict String ReferenceSymbol}
    {refSymbolsByAddr : Dict Nat ReferenceSymbol}
    (hmut : ∀ sym a, refSymbolsByName.get? "flash_mut_variables_table" = some sym →
      findMutTableByTriplet bytes = some a → sym.address = a)
    {m : MatchedFunction} (hm : m ∈ bootstrapAnchors bytes bytes refRun newRun refSymbolsByName
      refSymbolsByAddr) : InPlace m := by
  simp only [bootstrapAnchors, List.mem_append] at hm
  rcases hm with ((hm | hm) | hm) | hm
  · exact h.bootstrapVectorTable_inPlace hm
  · obtain ⟨e, he, rfl⟩ := List.mem_map.mp hm
    exact icuSlots_self (mem_of_mem_distinctPairs he)
  · exact h.bootstrapMutTable_inPlace hmut hm
  · obtain ⟨e, he, rfl⟩ := List.mem_map.mp hm
    exact h.tableHandlers_self (mem_of_mem_distinctPairs he)

/-! ### Discovery -/

/-- From a function and itself, only functions and themselves are reached. -/
theorem SameCode.reachIn_inPlace {refBytes newBytes : Option Bytes}
    {anchors : List MatchedFunction} (hanchors : ∀ m ∈ anchors, InPlace m) {k : Nat}
    {p : Nat × Nat}
    (hp : ReachIn (calleeSteps refRun newRun refBytes newBytes) (anchors.map pairOf) k p) :
    p.2 = p.1 := by
  induction hp with
  | root hr =>
    obtain ⟨m, hm, rfl⟩ := List.mem_map.mp hr
    exact hanchors m hm
  | @step k p q _ hq ih =>
    have halign := (List.mem_filter.mp hq).1
    rw [alignedCallees, ih, h.calleesOf_eq, h.lcsAlign_self (by norm_num)] at halign
    obtain ⟨a, _, rfl⟩ := List.mem_map.mp halign
    rfl

theorem SameCode.bfsPreseed_inPlace {refSymbolsByAddr : Dict Nat ReferenceSymbol}
    {refBytes newBytes : Option Bytes} {anchors : List MatchedFunction}
    (hanchors : ∀ m ∈ anchors, InPlace m) {m : MatchedFunction}
    (hm : m ∈ (bfsPreseed refRun newRun refSymbolsByAddr refBytes newBytes anchors).2) :
    InPlace m := by
  obtain ⟨s, found, hrun, _, hfound, hmatches, _⟩ :=
    bfsPreseed_run refRun newRun refSymbolsByAddr refBytes newBytes anchors
  rw [bfsPreseed, hrun _ le_rfl] at hm
  dsimp only at hm
  rw [hmatches] at hm
  obtain ⟨p, hp, hmatch⟩ := List.mem_filterMap.mp hm
  obtain ⟨_, k, _, _, hreach⟩ := (hfound p).mp hp
  obtain ⟨sym, _, rfl⟩ := Option.map_eq_some_iff.mp hmatch
  exact h.reachIn_inPlace hanchors hreach

/-! ### Gap-fill -/

/-- Each result is aligned by a caller that was mapped to itself before. -/
theorem SameCode.gapFill_inPlace {refBytes newBytes : Option Bytes}
    {existing : List MatchedFunction} (hexisting : ∀ m ∈ existing, InPlace m)
    {m : MatchedFunction} (hm : m ∈ gapFill refRun newRun refBytes newBytes existing) :
    InPlace m := by
  obtain ⟨last, hinv, hresults⟩ := gapFill_inv refRun newRun refBytes newBytes existing
  rw [hresults] at hm
  have hprefix : ∀ before after, last.results = before ++ after → ∀ m ∈ before, InPlace m := by
    intro before
    induction before using List.reverseRecOn with
    | nil => exact fun _ _ m hm => absurd hm List.not_mem_nil
    | append_singleton before r ih =>
      intro after hsplit m hm
      rw [List.append_assoc, List.singleton_append] at hsplit
      have hbefore := ih (r :: after) hsplit
      rcases List.mem_append.mp hm with hm | hm
      · exact hbefore m hm
      obtain ⟨c, c', refCallees, hmaps, hcallees, hpair⟩ := hinv.aligned before r after hsplit
      have hself : c' = c := by
        rcases hmaps with hget | ⟨r', hr', rfl, rfl⟩
        · obtain ⟨e, he, hpairOf⟩ := List.mem_map.mp (Dict.mem_of_get?_ofList hget)
          obtain ⟨rfl, rfl⟩ := Prod.mk.inj hpairOf
          exact hexisting e he
        · exact hbefore r' hr'
      have hnew : newRun.calleesOf c' = refCallees := by
        rw [hself, h.calleesOf_eq, HeadlessRun.calleesOf, Dict.getD, hcallees]
        rfl
      rw [gapPairs, hnew, h.lcsAlign_self (by norm_num)] at hpair
      obtain ⟨a, _, hdiag⟩ := List.mem_map.mp hpair
      obtain ⟨href, hnewAddr⟩ := Prod.mk.inj hdiag
      rw [List.mem_singleton.mp hm]
      exact hnewAddr.symm.trans href
  exact hprefix last.results [] (List.append_nil _).symm m hm

end Phases

/-! ### Bytecode identity -/

/-- A function that starts at a word is one of the aligned occurrences of its bytes. -/
theorem bytecodeIdentityMatch_inPlace {bytes : Bytes} {refRun : HeadlessRun}
    {refSymbolsByAddr : Dict Nat ReferenceSymbol} {existing : List MatchedFunction}
    {minSize maxSize : Nat} (haligned : ∀ f ∈ refRun.functions, f.entry % 4 = 0)
    {m : MatchedFunction}
    (hm : m ∈ bytecodeIdentityMatch bytes bytes refRun refSymbolsByAddr existing minSize
      maxSize) : InPlace m := by
  obtain ⟨sz, hentry, hcand⟩ := candidate_of_mem_identityMatch hm
  have hmem := fst_mem_of_mem_entrySizes hentry
  rw [sortedEntries, mem_sortBy] at hmem
  obtain ⟨f, hf, hfentry⟩ := List.mem_map.mp hmem
  have hfits := hcand.inside
  dsimp only at hfits hfentry
  have hlength : (slice bytes m.refAddress sz).length = sz := by
    rw [slice, List.length_take, List.length_drop]
    omega
  have hown : AlignedAt bytes (slice bytes m.refAddress sz) 4 m.refAddress := by
    refine ⟨hfentry ▸ haligned f hf, ?_, ?_⟩
    · rw [hlength]
      exact hfits
    · rw [hlength]
  exact (hcand.only.only m.refAddress hown).symm

end RomAnalyzer.Callgraph
