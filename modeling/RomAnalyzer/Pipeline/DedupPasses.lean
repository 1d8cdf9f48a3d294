import RomAnalyzer.Callgraph.GapTrace
import RomAnalyzer.Pipeline.PostMatch

/-!
# The two dedup passes

The passes are two greedy choices in a row, first by reference address, then by
new address. What survives is described on the candidates that enter them.
-/
namespace RomAnalyzer.Pipeline

open Lib
open AnnotationsIo (loadReferenceSymbols)
open Ghidra (HeadlessRun)
open Merge (matchRank)

/-- The rank of the passes; the registry priority plays no part in it. -/
abbrev passRank : MatchedFunction → ℕ ×ₗ ℚ ×ₗ ℤ := matchRank Dict.empty

/-- The first pass: the best match of every reference function. -/
def bestByRef (ms : List MatchedFunction) : List MatchedFunction :=
  (keepBest MatchedFunction.refAddress passRank ms).values

/-- No other match for the same reference function comes before it. -/
abbrev WinsRef (ms : List MatchedFunction) (m : MatchedFunction) : Prop :=
  Unbeaten MatchedFunction.refAddress passRank ms m

theorem mem_bestByRef {ms : List MatchedFunction} {m : MatchedFunction} :
    m ∈ bestByRef ms ↔ WinsRef ms m :=
  mem_values_keepBest_iff_unbeaten _

theorem mem_dedupMatches {ms : List MatchedFunction} {m : MatchedFunction} :
    m ∈ dedupMatches ms ↔
      Unbeaten MatchedFunction.newAddress passRank (bestByRef ms) m :=
  mem_values_keepBest_iff_unbeaten _

/-- Every candidate's reference function has a winner, of at least its rank. -/
theorem exists_winsRef {ms : List MatchedFunction} {m : MatchedFunction} (hm : m ∈ ms) :
    ∃ w, WinsRef ms w ∧ w.refAddress = m.refAddress ∧ passRank m ≤ passRank w := by
  obtain ⟨w, hw, href, hrank⟩ :=
    exists_mem_values_keepBest MatchedFunction.refAddress passRank hm
  exact ⟨w, mem_bestByRef.mp hw, href, hrank⟩

/-- Every winner's new address goes to a kept match, of at least its rank. -/
theorem exists_kept {ms : List MatchedFunction} {w : MatchedFunction} (hw : WinsRef ms w) :
    ∃ k ∈ dedupMatches ms, k.newAddress = w.newAddress ∧ passRank w ≤ passRank k :=
  exists_mem_values_keepBest MatchedFunction.newAddress passRank (mem_bestByRef.mpr hw)

/-! ### What may be lost -/

/-- A candidate with neither end matched in the result was outranked in a chain: a
match of its reference function to another address, which lost that address to a kept
match of another reference function. -/
theorem dedupMatches_loses_only_by_chain (ms : List MatchedFunction) :
    ∀ m ∈ ms,
      (∃ k ∈ dedupMatches ms, k.refAddress = m.refAddress ∨ k.newAddress = m.newAddress) ∨
      ∃ w ∈ ms, w.refAddress = m.refAddress ∧ w.newAddress ≠ m.newAddress ∧
        passRank m ≤ passRank w ∧
        ∃ k ∈ dedupMatches ms, k.newAddress = w.newAddress ∧ k.refAddress ≠ w.refAddress ∧
          passRank w ≤ passRank k := by
  intro m hm
  obtain ⟨w, hw, href, hmw⟩ := exists_winsRef hm
  obtain ⟨k, hk, hnew, hwk⟩ := exists_kept hw
  by_cases hshare : k.refAddress = m.refAddress ∨ k.newAddress = m.newAddress
  · exact Or.inl ⟨k, hk, hshare⟩
  · rw [not_or] at hshare
    refine Or.inr ⟨w, hw.1, href, ?_, hmw, k, hk, hnew, ?_, hwk⟩
    · rw [← hnew]
      exact hshare.2
    · rw [href]
      exact hshare.1

/-- The first of three matches is lost to such a chain. -/
theorem first_match_lost_by_chain :
    let first : MatchedFunction := ⟨"tacho_set", 0x100, 0x3000, 9 / 10, "vt_diff", ""⟩
    let middle : MatchedFunction := ⟨"tacho_set", 0x100, 0x2000, 8 / 10, "callgraph_bfs", ""⟩
    let last : MatchedFunction := ⟨"crank_isr", 0x200, 0x2000, 1, "vector_table", ""⟩
    ∃ w ∈ [first, last, middle], w.refAddress = first.refAddress ∧
      w.newAddress ≠ first.newAddress ∧ passRank first ≤ passRank w ∧
        ∃ k ∈ dedupMatches [first, last, middle], k.newAddress = w.newAddress ∧
          k.refAddress ≠ w.refAddress ∧ passRank w ≤ passRank k := by
  intro first middle last
  have hcases :=
    dedupMatches_loses_only_by_chain [first, last, middle] first List.mem_cons_self
  exact hcases.resolve_left (by decide +kernel)

/-- The middle match wins `0x100` from the first and loses `0x2000` to the last; the
first is gone by then, and neither `0x100` nor `0x3000` is matched. -/
theorem dedupMatches_not_maximal :
    let first : MatchedFunction := ⟨"tacho_set", 0x100, 0x3000, 9 / 10, "vt_diff", ""⟩
    let middle : MatchedFunction := ⟨"tacho_set", 0x100, 0x2000, 8 / 10, "callgraph_bfs", ""⟩
    let last : MatchedFunction := ⟨"crank_isr", 0x200, 0x2000, 1, "vector_table", ""⟩
    dedupMatches [first, last, middle] = [last] ∧
      ¬ ∀ m ∈ [first, last, middle], ∃ k ∈ dedupMatches [first, last, middle],
        k.refAddress = m.refAddress ∨ k.newAddress = m.newAddress := by
  decide +kernel

/-! ### The callers of gap-fill -/

section GapCallers

variable (refRun newRun : HeadlessRun) (refBytes newBytes : Bytes)
  (refSymbolsByAddr : Dict Nat ReferenceSymbol) (existing : List MatchedFunction)

/-- The matches that gap-fill and the bytecode search add to the existing ones. -/
def laterMatches : List MatchedFunction :=
  let gapMatches := Callgraph.gapFill refRun newRun (some refBytes) (some newBytes) existing
  gapMatches ++ Callgraph.bytecodeIdentityMatch refBytes newBytes refRun refSymbolsByAddr
    (existing ++ gapMatches)

/-- The alignments of the gap-fill run over the existing matches. -/
def alignments : List Callgraph.CallerAlignment :=
  Callgraph.gapTrace refRun newRun (some refBytes) (some newBytes) existing

/-- Gap-fill goes by the mappings that the first pass keeps: it aligns every matched
caller through a match of maximal rank, and no gap match rests on a mapping that is
discarded afterwards. -/
structure AlignsKeptMappings : Prop where
  visits : ∀ c ∈ existing.map MatchedFunction.refAddress, c ∈ refRun.callees.keys →
    ∃ al ∈ alignments refRun newRun refBytes newBytes existing, al.refCaller = c
  best : ∀ al ∈ alignments refRun newRun refBytes newBytes existing,
    al.refCaller ∈ existing.map MatchedFunction.refAddress →
    ∃ m ∈ existing, m.refAddress = al.refCaller ∧ m.newAddress = al.newCaller ∧
      ∀ u ∈ existing, u.refAddress = m.refAddress → passRank u ≤ passRank m
  kept : ∀ al ∈ alignments refRun newRun refBytes newBytes existing,
    ∃ k ∈ bestByRef (existing ++
        laterMatches refRun newRun refBytes newBytes refSymbolsByAddr existing),
      k.refAddress = al.refCaller ∧ k.newAddress = al.newCaller
  rests : ∀ m ∈ Callgraph.gapFill refRun newRun (some refBytes) (some newBytes) existing,
    ∃ al ∈ alignments refRun newRun refBytes newBytes existing, m ∈ al.found

variable {refRun newRun refBytes newBytes refSymbolsByAddr existing}

/-- Later matches take neither side of an existing one. -/
theorem laterMatches_apart {m : MatchedFunction}
    (hm : m ∈ laterMatches refRun newRun refBytes newBytes refSymbolsByAddr existing) :
    m.refAddress ∉ existing.map MatchedFunction.refAddress ∧
      m.newAddress ∉ existing.map MatchedFunction.newAddress := by
  obtain ⟨last, hinv, hresults⟩ :=
    Callgraph.gapFill_inv refRun newRun (some refBytes) (some newBytes) existing
  rcases List.mem_append.mp hm with hm | hm
  · rw [hresults] at hm
    exact hinv.apart m hm
  · have hapart := (Callgraph.mem_bytecodeIdentityMatch hm).2
    rw [List.map_append, List.map_append, List.mem_append, List.mem_append, not_or,
      not_or] at hapart
    exact ⟨hapart.1.1, hapart.2.1⟩

/-- Nothing else claims the reference function of a gap match. -/
theorem winsRef_gapMatch {m : MatchedFunction}
    (hm : m ∈ Callgraph.gapFill refRun newRun (some refBytes) (some newBytes) existing) :
    WinsRef (existing ++ laterMatches refRun newRun refBytes newBytes refSymbolsByAddr existing)
      m := by
  obtain ⟨last, hinv, hresults⟩ :=
    Callgraph.gapFill_inv refRun newRun (some refBytes) (some newBytes) existing
  have hlater : m ∈ laterMatches refRun newRun refBytes newBytes refSymbolsByAddr existing :=
    List.mem_append_left _ hm
  obtain ⟨w, hw, href, _⟩ := exists_winsRef (List.mem_append_right existing hlater)
  have hwm : w = m := by
    rcases List.mem_append.mp hw.1 with hold | hnew
    · have hclaimed := List.mem_map_of_mem (f := MatchedFunction.refAddress) hold
      rw [href] at hclaimed
      exact absurd hclaimed (laterMatches_apart hlater).1
    · rcases List.mem_append.mp hnew with hgap | hident
      · rw [hresults] at hm hgap
        exact List.inj_on_of_nodup_map hinv.refs_nodup hgap hm href
      · have hapart := (Callgraph.mem_bytecodeIdentityMatch hident).2.1
        rw [href] at hapart
        exact absurd (List.mem_map_of_mem (List.mem_append_right existing hm)) hapart
  rw [← hwm]
  exact hw

theorem winsRef_append_iff {m : MatchedFunction}
    (hm : m.refAddress ∈ existing.map MatchedFunction.refAddress) :
    WinsRef (existing ++ laterMatches refRun newRun refBytes newBytes refSymbolsByAddr existing)
      m ↔ WinsRef existing m :=
  unbeaten_append_iff _ (fun _ he => (laterMatches_apart he).1) hm

theorem get?_matchedRefOf (existing : List MatchedFunction) (c : Nat) :
    (Callgraph.matchedRefOf existing).get? c =
      (lastMatchFor existing c).map MatchedFunction.newAddress :=
  Dict.get?_ofList_map MatchedFunction.refAddress MatchedFunction.newAddress existing c

/-- Every matched caller with callees is aligned with the function of its last match. -/
theorem exists_alignment {c : Nat} (hc : c ∈ refRun.callees.keys) {last : MatchedFunction}
    (hl : lastMatchFor existing c = some last) :
    ∃ al ∈ alignments refRun newRun refBytes newBytes existing,
      al.refCaller = c ∧ al.newCaller = last.newAddress := by
  obtain ⟨_, _, hvisited⟩ :=
    Callgraph.gapTrace_run refRun newRun (some refBytes) (some newBytes) existing
  apply hvisited c hc
  left
  rw [get?_matchedRefOf, hl]
  rfl

/-- An alignment goes through the last existing match of its caller or through a gap
match. -/
theorem alignment_origin {al : Callgraph.CallerAlignment}
    (hal : al ∈ alignments refRun newRun refBytes newBytes existing) :
    (al.refCaller ∈ refRun.callees.keys ∧ ∃ last, lastMatchFor existing al.refCaller = some last ∧
      last.newAddress = al.newCaller) ∨
    ∃ m ∈ Callgraph.gapFill refRun newRun (some refBytes) (some newBytes) existing,
      m.refAddress = al.refCaller ∧ m.newAddress = al.newCaller := by
  obtain ⟨_, hmapped, _⟩ :=
    Callgraph.gapTrace_run refRun newRun (some refBytes) (some newBytes) existing
  obtain ⟨hc, hold | hgap⟩ := hmapped al hal
  · left
    rw [get?_matchedRefOf, Option.map_eq_some_iff] at hold
    exact ⟨hc, hold⟩
  · exact Or.inr hgap

/-- Gap-fill goes by the kept mappings exactly when, for every matched function with
callees, the last match names the same new function as the first of the matches of
maximal rank. -/
theorem gapFill_alignsKeptMappings_iff (refRun newRun : HeadlessRun) (refBytes newBytes : Bytes)
    (refSymbolsByAddr : Dict Nat ReferenceSymbol) (existing : List MatchedFunction) :
    AlignsKeptMappings refRun newRun refBytes newBytes refSymbolsByAddr existing ↔
      ∀ c ∈ refRun.callees.keys, ∀ last, lastMatchFor existing c = some last →
        ∃ m, WinsRef existing m ∧ m.refAddress = c ∧ m.newAddress = last.newAddress := by
  obtain ⟨_, hinv, hresults⟩ :=
    Callgraph.gapFill_inv refRun newRun (some refBytes) (some newBytes) existing
  constructor
  · intro h c hc last hl
    obtain ⟨al, hal, rfl, hnew⟩ := exists_alignment hc hl
    obtain ⟨k, hk, href, hknew⟩ := h.kept al hal
    obtain ⟨hmem, hrefLast⟩ := lastMatchFor_spec hl
    have hclaimed : k.refAddress ∈ existing.map MatchedFunction.refAddress := by
      rw [href, ← hrefLast]
      exact List.mem_map_of_mem hmem
    exact ⟨k, (winsRef_append_iff hclaimed).mp (mem_bestByRef.mp hk), href, hknew.trans hnew⟩
  · intro h
    -- an alignment goes through a winner of the existing matches or through a gap match
    have hcases : ∀ al ∈ alignments refRun newRun refBytes newBytes existing,
        (∃ m, WinsRef existing m ∧ m.refAddress = al.refCaller ∧
          m.newAddress = al.newCaller) ∨
        ∃ m ∈ Callgraph.gapFill refRun newRun (some refBytes) (some newBytes) existing,
          m.refAddress = al.refCaller ∧ m.newAddress = al.newCaller := by
      intro al hal
      rcases alignment_origin hal with ⟨hc, last, hl, hnew⟩ | hgap
      · obtain ⟨m, hm, href, hmnew⟩ := h al.refCaller hc last hl
        exact Or.inl ⟨m, hm, href, hmnew.trans hnew⟩
      · exact Or.inr hgap
    constructor
    · intro c hc hkey
      cases hl : lastMatchFor existing c with
      | none =>
        obtain ⟨m, hm, href⟩ := List.mem_map.mp hc
        exact absurd href (lastMatchFor_eq_none hl m hm)
      | some last =>
        obtain ⟨al, hal, href, _⟩ := exists_alignment hkey hl
        exact ⟨al, hal, href⟩
    · intro al hal hclaimed
      rcases hcases al hal with ⟨m, hm, href, hnew⟩ | ⟨m, hm, href, _⟩
      · refine ⟨m, hm.1, href, hnew, ?_⟩
        intro u hu hkey
        by_contra hlt
        exact hm.2 u hu hkey (Or.inl (not_le.mp hlt))
      · rw [← href] at hclaimed
        rw [hresults] at hm
        exact absurd hclaimed (hinv.apart m hm).1
    · intro al hal
      rcases hcases al hal with ⟨m, hm, href, hnew⟩ | ⟨m, hm, href, hnew⟩
      · have hclaimed : m.refAddress ∈ existing.map MatchedFunction.refAddress :=
          List.mem_map_of_mem hm.1
        exact ⟨m, mem_bestByRef.mpr ((winsRef_append_iff hclaimed).mpr hm), href, hnew⟩
      · exact ⟨m, mem_bestByRef.mpr (winsRef_gapMatch hm), href, hnew⟩
    · intro m hm
      obtain ⟨hfound, _⟩ :=
        Callgraph.gapTrace_run refRun newRun (some refBytes) (some newBytes) existing
      rw [hfound] at hm
      exact List.mem_flatMap.mp hm

end GapCallers

section Remapped

/-- A function that the vector table and the breadth-first search map differently. -/
def remappedMatches : List MatchedFunction :=
  [⟨"tacho_isr", 0x100, 0x200, 1, "vector_table", ""⟩,
   ⟨"tacho_isr", 0x100, 0x300, 8 / 10, "callgraph_bfs", ""⟩]

def remappedRefRun : HeadlessRun where
  callees := Dict.ofList [(0x100, [0x110])]

def remappedNewRun : HeadlessRun where
  callees := Dict.ofList [(0x200, [0x210]), (0x300, [0x310])]

/-- Gap-fill pairs the callees of `0x100` with those of `0x300`, although the first
pass keeps `0x200` for it. -/
theorem gapFill_follows_discarded_mapping :
    (bestByRef (remappedMatches ++ laterMatches remappedRefRun remappedNewRun [] [] Dict.empty
      remappedMatches)).map (fun m => (m.refAddress, m.newAddress)) =
        [(0x100, 0x200), (0x110, 0x310)] ∧
      ¬ AlignsKeptMappings remappedRefRun remappedNewRun [] [] Dict.empty remappedMatches := by
  have hkept : (bestByRef (remappedMatches ++ laterMatches remappedRefRun remappedNewRun [] []
      Dict.empty remappedMatches)).map (fun m => (m.refAddress, m.newAddress)) =
        [(0x100, 0x200), (0x110, 0x310)] := by decide +kernel
  have hlog : ∀ al ∈ alignments remappedRefRun remappedNewRun [] [] remappedMatches,
      al.newCaller = 0x300 := by decide +kernel
  refine ⟨hkept, ?_⟩
  intro h
  obtain ⟨al, hal, href⟩ := h.visits 0x100 (by decide) (by decide)
  obtain ⟨k, hk, hkref, hknew⟩ := h.kept al hal
  have hmem := List.mem_map_of_mem (f := fun m : MatchedFunction =>
    (m.refAddress, m.newAddress)) hk
  rw [hkept, hkref, hknew, href, hlog al hal] at hmem
  exact absurd hmem (by decide)

end Remapped

/-! ### Structural anchors -/

section Displaced

variable (ms : List MatchedFunction) (a : MatchedFunction)

/-- The position at which a reference function is first claimed. -/
def firstClaim (ref : Nat) : Nat := (ms.map MatchedFunction.refAddress).idxOf ref

/-- The best match for the reference function of `a` names another new function. -/
def DisplacedAtRef : Prop :=
  ∃ u, WinsRef ms u ∧ u.refAddress = a.refAddress ∧ u.newAddress ≠ a.newAddress

/-- The best match for another reference function names the new function of `a`, and
outranks every match of the pair, or ranks equal and is claimed first. -/
def DisplacedAtNew : Prop :=
  ∃ u, WinsRef ms u ∧ u.newAddress = a.newAddress ∧ u.refAddress ≠ a.refAddress ∧
    ∀ k ∈ ms, k.refAddress = a.refAddress → k.newAddress = a.newAddress →
      passRank k < passRank u ∨
        passRank k = passRank u ∧ firstClaim ms u.refAddress < firstClaim ms a.refAddress

variable {ms a}

theorem winsRef_unique {u v : MatchedFunction} (hu : WinsRef ms u) (hv : WinsRef ms v)
    (href : u.refAddress = v.refAddress) : u = v :=
  List.inj_on_of_nodup_map (nodup_map_key_keepBest _ _ ms) (mem_bestByRef.mpr hu)
    (mem_bestByRef.mpr hv) href

theorem rank_le_of_winsRef {k w : MatchedFunction} (hw : WinsRef ms w) (hk : k ∈ ms)
    (href : k.refAddress = w.refAddress) : passRank k ≤ passRank w := by
  by_contra hlt
  exact hw.2 k hk href (Or.inl (not_le.mp hlt))

/-- A pair survives both passes exactly when it is displaced at neither end. -/
theorem pair_kept_iff (ha : a ∈ ms) :
    (∃ k ∈ dedupMatches ms, k.refAddress = a.refAddress ∧ k.newAddress = a.newAddress) ↔
      ¬ DisplacedAtRef ms a ∧ ¬ DisplacedAtNew ms a := by
  constructor
  · intro h
    obtain ⟨k, hk, href, hnew⟩ := h
    obtain ⟨hbest, hall⟩ := mem_dedupMatches.mp hk
    have hwins := mem_bestByRef.mp hbest
    constructor
    · intro hdis
      obtain ⟨u, hu, huref, hunew⟩ := hdis
      rw [winsRef_unique hu hwins (huref.trans href.symm)] at hunew
      exact hunew hnew
    · intro hdis
      obtain ⟨u, hu, hunew, _, hbeats⟩ := hdis
      have hubest := mem_bestByRef.mpr hu
      apply hall u hubest (hunew.trans hnew.symm)
      apply (beats_values_keepBest_iff _ hubest hbest).mpr
      have hk := hbeats k hwins.1 href hnew
      rw [← href] at hk
      exact hk
  · intro h
    obtain ⟨hnotRef, hnotNew⟩ := h
    obtain ⟨w, hw, href, _⟩ := exists_winsRef ha
    have hnew : w.newAddress = a.newAddress := by
      by_contra hne
      exact hnotRef ⟨w, hw, href, hne⟩
    refine ⟨w, mem_dedupMatches.mpr ⟨mem_bestByRef.mpr hw, ?_⟩, href, hnew⟩
    intro u hu hkey hbeats
    have hwinsU := mem_bestByRef.mp hu
    have hbeats := (beats_values_keepBest_iff _ hu (mem_bestByRef.mpr hw)).mp hbeats
    apply hnotNew
    refine ⟨u, hwinsU, hkey.trans hnew, ?_, ?_⟩
    · intro huref
      rw [winsRef_unique hwinsU hw (huref.trans href.symm)] at hbeats
      rcases hbeats with hlt | ⟨_, hlt⟩
      · exact lt_irrefl _ hlt
      · exact lt_irrefl _ hlt
    · intro k hk hkref _
      have hle := rank_le_of_winsRef hw hk (hkref.trans href.symm)
      rcases hbeats with hlt | ⟨heq, hlt⟩
      · exact Or.inl (hle.trans_lt hlt)
      · rw [href] at hlt
        rcases (hle.trans heq.le).lt_or_eq with h | h
        · exact Or.inl h
        · exact Or.inr ⟨h, hlt⟩

/-- Matches that share neither side with an earlier one displace none of them. -/
theorem displacedAtRef_append_iff {later : List MatchedFunction}
    (hapart : ∀ m ∈ later, m.refAddress ∉ ms.map MatchedFunction.refAddress) (ha : a ∈ ms) :
    DisplacedAtRef (ms ++ later) a ↔ DisplacedAtRef ms a := by
  apply exists_congr
  intro u
  constructor
  · intro h
    obtain ⟨hu, href, hnew⟩ := h
    have hclaimed := List.mem_map_of_mem (f := MatchedFunction.refAddress) ha
    rw [← href] at hclaimed
    exact ⟨(unbeaten_append_iff _ hapart hclaimed).mp hu, href, hnew⟩
  · intro h
    obtain ⟨hu, href, hnew⟩ := h
    exact ⟨(unbeaten_append_iff _ hapart (List.mem_map_of_mem hu.1)).mpr hu, href, hnew⟩

theorem displacedAtNew_append_iff {later : List MatchedFunction}
    (hrefs : ∀ m ∈ later, m.refAddress ∉ ms.map MatchedFunction.refAddress)
    (hnews : ∀ m ∈ later, m.newAddress ∉ ms.map MatchedFunction.newAddress) (ha : a ∈ ms) :
    DisplacedAtNew (ms ++ later) a ↔ DisplacedAtNew ms a := by
  have hclaimed := List.mem_map_of_mem (f := MatchedFunction.refAddress) ha
  have hfirst : ∀ {ref}, ref ∈ ms.map MatchedFunction.refAddress →
      firstClaim (ms ++ later) ref = firstClaim ms ref := by
    intro ref h
    rw [firstClaim, List.map_append, List.idxOf_append_of_mem h, firstClaim]
  have hold : ∀ {k}, k ∈ ms ++ later → k.refAddress = a.refAddress → k ∈ ms := by
    intro k hk href
    rcases List.mem_append.mp hk with hk | hk
    · exact hk
    · exact absurd (href ▸ hclaimed) (hrefs k hk)
  apply exists_congr
  intro u
  constructor
  · intro h
    obtain ⟨hu, hnew, hne, hall⟩ := h
    have hums : u ∈ ms := by
      rcases List.mem_append.mp hu.1 with hum | hum
      · exact hum
      · have htaken := List.mem_map_of_mem (f := MatchedFunction.newAddress) ha
        rw [← hnew] at htaken
        exact absurd htaken (hnews u hum)
    have huref := List.mem_map_of_mem (f := MatchedFunction.refAddress) hums
    rw [hfirst huref, hfirst hclaimed] at hall
    exact ⟨(unbeaten_append_iff _ hrefs huref).mp hu, hnew, hne,
      fun k hk => hall k (List.mem_append_left _ hk)⟩
  · intro h
    obtain ⟨hu, hnew, hne, hall⟩ := h
    have huref := List.mem_map_of_mem (f := MatchedFunction.refAddress) hu.1
    refine ⟨(unbeaten_append_iff _ hrefs huref).mpr hu, hnew, hne, ?_⟩
    rw [hfirst huref, hfirst hclaimed]
    intro k hk href
    exact hall k (hold hk href) href

end Displaced

section Anchors

variable (ctx : RomContext) (newRun : HeadlessRun) (ref : SelectedReference)

/-- The run that the call-graph phases work on, if they take place. -/
def crossRun : Option HeadlessRun := if ctx.isSelfDiff then none else ref.refRun

/-- The anchors that a run of `matchReference` produces. -/
def structuralAnchors : List MatchedFunction :=
  match crossRun ctx ref with
  | none => []
  | some refRun => anchorsOf ctx newRun ref refRun

/-- The version-tracking matches, the anchors and the breadth-first matches. -/
def earlyMatches : List MatchedFunction :=
  match crossRun ctx ref with
  | none => []
  | some refRun => seedMatches ctx newRun ref refRun

/-- No other anchor shares a side with this one. -/
def SoleAnchor (anchors : List MatchedFunction) (a : MatchedFunction) : Prop :=
  a ∈ anchors ∧
    ∀ b ∈ anchors, b.refAddress = a.refAddress ∨ b.newAddress = a.newAddress → b = a

/-- The pair of the anchor survives the passes and is returned. -/
def AnchorReturned (a : MatchedFunction) : Prop :=
  ∃ k ∈ keptMatches ctx newRun ref, k.refAddress = a.refAddress ∧
    k.newAddress = a.newAddress ∧
    { k with reference := ref.entry.id } ∈ (matchReference ctx newRun ref).matches_

variable {ctx newRun ref}

theorem anchorReturned_iff {a : MatchedFunction} :
    AnchorReturned ctx newRun ref a ↔
      ∃ k ∈ keptMatches ctx newRun ref,
        k.refAddress = a.refAddress ∧ k.newAddress = a.newAddress := by
  constructor
  · intro h
    obtain ⟨k, hk, href, hnew, _⟩ := h
    exact ⟨k, hk, href, hnew⟩
  · intro h
    obtain ⟨k, hk, href, hnew⟩ := h
    exact ⟨k, hk, href, hnew, mem_matches.mpr ⟨k, List.mem_append_left _ hk, rfl⟩⟩

theorem candidateMatches_of_crossRun {refRun : HeadlessRun}
    (h : crossRun ctx ref = some refRun) :
    candidateMatches ctx newRun ref = seedMatches ctx newRun ref refRun ++
      laterMatches refRun newRun ref.refBytes ctx.romBytes
        (symbolsByAddr (loadReferenceSymbols ref.store)) (seedMatches ctx newRun ref refRun) := by
  unfold crossRun at h
  split at h
  · cases h
  · rename_i hself
    rw [candidateMatches, if_neg hself, h]
    exact List.append_assoc _ _ _

/-- The other early matches come from tier 0 or 1. -/
theorem early_tier {refRun : HeadlessRun} {m : MatchedFunction}
    (hm : m ∈ seedMatches ctx newRun ref refRun) :
    m ∈ anchorsOf ctx newRun ref refRun ∨ Merge.sourcePriority.getD m.source 0 ≤ 1 := by
  rcases List.mem_append.mp hm with hm | hm
  · rcases List.mem_append.mp hm with hm | hm
    · obtain ⟨e, _, rfl⟩ := Diff.mem_matchesFromVtsession hm
      right
      show Merge.sourcePriority.getD "vt_diff" 0 ≤ 1
      decide
    · exact Or.inl hm
  · obtain ⟨p, sym, _, rfl⟩ := Callgraph.mem_bfsPreseed hm
    right
    show Merge.sourcePriority.getD "callgraph_bfs" 0 ≤ 1
    decide

theorem anchor_tier {refRun : HeadlessRun} {a : MatchedFunction}
    (ha : a ∈ anchorsOf ctx newRun ref refRun) (hsource : a.source ≠ "dtc_table") :
    1 < Merge.sourcePriority.getD a.source 0 := by
  have hmem := Callgraph.bootstrapAnchors_source ha
  simp only [List.mem_cons, List.not_mem_nil, or_false] at hmem
  rcases hmem with h | h | h | h
  · rw [h]
    decide
  · rw [h]
    decide
  · rw [h]
    decide
  · exact absurd h hsource

/-- An anchor of a ranked source that shares no side with another anchor outranks
every early match that shares one. -/
theorem not_displaced_of_ranked {refRun : HeadlessRun} {a : MatchedFunction}
    (ha : SoleAnchor (anchorsOf ctx newRun ref refRun) a) (hsource : a.source ≠ "dtc_table") :
    ¬ DisplacedAtRef (seedMatches ctx newRun ref refRun) a ∧
      ¬ DisplacedAtNew (seedMatches ctx newRun ref refRun) a := by
  have hseed : a ∈ seedMatches ctx newRun ref refRun :=
    List.mem_append_left _ (List.mem_append_right _ ha.1)
  have houtranks : ∀ {u}, u ∈ seedMatches ctx newRun ref refRun →
      u.refAddress = a.refAddress ∨ u.newAddress = a.newAddress → u ≠ a →
      passRank u < passRank a := by
    intro u hu hshare hne
    rcases early_tier hu with hanchor | htier
    · exact absurd (ha.2 u hanchor hshare) hne
    · exact Merge.matchRank_lt_of_tier (htier.trans_lt (anchor_tier ha.1 hsource))
  constructor
  · intro h
    obtain ⟨u, hu, href, hnew⟩ := h
    have hlt := houtranks hu.1 (Or.inl href) fun he => hnew (by rw [he])
    exact (rank_le_of_winsRef hu hseed href.symm).not_gt hlt
  · intro h
    obtain ⟨u, hu, hnew, href, hall⟩ := h
    have hlt := houtranks hu.1 (Or.inr hnew) fun he => href (by rw [he])
    rcases hall a hseed rfl rfl with hgt | ⟨heq, _⟩
    · exact hgt.not_gt hlt
    · exact heq.not_gt hlt

/-- An anchor is returned exactly when no early match displaces it; the phases after
them take only what is free at both ends. -/
theorem anchorReturned_iff_not_displaced {a : MatchedFunction}
    (ha : a ∈ structuralAnchors ctx newRun ref) :
    AnchorReturned ctx newRun ref a ↔
      ¬ DisplacedAtRef (earlyMatches ctx newRun ref) a ∧
        ¬ DisplacedAtNew (earlyMatches ctx newRun ref) a := by
  unfold structuralAnchors at ha
  unfold earlyMatches
  cases hrun : crossRun ctx ref with
  | none =>
    rw [hrun] at ha
    cases ha
  | some refRun =>
    rw [hrun] at ha
    have hseed : a ∈ seedMatches ctx newRun ref refRun :=
      List.mem_append_left _ (List.mem_append_right _ ha)
    rw [anchorReturned_iff, keptMatches, candidateMatches_of_crossRun hrun,
      pair_kept_iff (List.mem_append_left _ hseed),
      displacedAtRef_append_iff (fun m hm => (laterMatches_apart hm).1) hseed,
      displacedAtNew_append_iff (fun m hm => (laterMatches_apart hm).1)
        (fun m hm => (laterMatches_apart hm).2) hseed]

/-- Every anchor that shares no side with another anchor is returned exactly when no
version-tracking or breadth-first match displaces one of the trouble-code tables: the
other sources outrank all their rivals. -/
theorem matchReference_returns_anchors_iff (ctx : RomContext) (newRun : HeadlessRun)
    (ref : SelectedReference) :
    (∀ a, SoleAnchor (structuralAnchors ctx newRun ref) a →
        AnchorReturned ctx newRun ref a) ↔
      ∀ a, SoleAnchor (structuralAnchors ctx newRun ref) a → a.source = "dtc_table" →
        ¬ DisplacedAtRef (earlyMatches ctx newRun ref) a ∧
          ¬ DisplacedAtNew (earlyMatches ctx newRun ref) a := by
  constructor
  · intro h a ha _
    exact (anchorReturned_iff_not_displaced ha.1).mp (h a ha)
  · intro h a ha
    apply (anchorReturned_iff_not_displaced ha.1).mpr
    by_cases hsource : a.source = "dtc_table"
    · exact h a ha hsource
    · unfold structuralAnchors at ha
      unfold earlyMatches
      cases hrun : crossRun ctx ref with
      | none =>
        rw [hrun] at ha
        cases ha.1
      | some refRun =>
        rw [hrun] at ha
        exact not_displaced_of_ranked ha hsource

/-- Two ROMs with the fault bitmask table at `0x10`. -/
def bitmaskRom : Bytes := List.replicate 0x10 0 ++ Callgraph.faultBitmask

/-- The handler of the table is the only function that reads it. -/
def bitmaskRun (handler : Nat) : HeadlessRun where
  dataRefs := Dict.ofList [(handler, [{ instructionOffset := 4, referencedAddress := 0x10 }])]

def bitmaskContext : RomContext where
  romPath := "roms/target.bin"
  romBytes := bitmaskRom
  targetFamily := "colt"
  isSelfDiff := false

def bitmaskReference : SelectedReference where
  entry := ⟨"z27ag", "reference/z27ag.json", "roms/z27ag.bin", "z27ag", "fp8000", 10, [], ""⟩
  store := ⟨1, "z27ag", "", [], [], [], []⟩
  refRun := some (bitmaskRun 0x1000)
  refBytes := bitmaskRom
  vtAssociations := [⟨0x1000, 0x2400, 1, some "fault_storage"⟩]

/-- The anchor `0x1000` to `0x2000` of the fault bitmask table is lost to a correlated
pair of equal rank. -/
theorem vtDiff_displaces_dtc_anchor :
    (structuralAnchors bitmaskContext (bitmaskRun 0x2000) bitmaskReference).map
        (fun a => (a.refAddress, a.newAddress, a.source)) = [(0x1000, 0x2000, "dtc_table")] ∧
      (matchReference bitmaskContext (bitmaskRun 0x2000) bitmaskReference).matches_.map
        (fun m => (m.refAddress, m.newAddress)) = [(0x1000, 0x2400)] ∧
      ¬ ∀ a, SoleAnchor (structuralAnchors bitmaskContext (bitmaskRun 0x2000)
          bitmaskReference) a →
        AnchorReturned bitmaskContext (bitmaskRun 0x2000) bitmaskReference a := by
  have hanchors : structuralAnchors bitmaskContext (bitmaskRun 0x2000) bitmaskReference =
      [⟨"dtc_handler", 0x1000, 0x2000, 1, "dtc_table", ""⟩] := by decide +kernel
  have hmatches : (matchReference bitmaskContext (bitmaskRun 0x2000)
      bitmaskReference).matches_.map (fun m => (m.refAddress, m.newAddress)) =
        [(0x1000, 0x2400)] := by decide +kernel
  refine ⟨by rw [hanchors]; rfl, hmatches, ?_⟩
  intro h
  have hsole : SoleAnchor (structuralAnchors bitmaskContext (bitmaskRun 0x2000)
      bitmaskReference) ⟨"dtc_handler", 0x1000, 0x2000, 1, "dtc_table", ""⟩ := by
    rw [hanchors]
    exact ⟨List.mem_singleton_self _, fun b hb _ => List.mem_singleton.mp hb⟩
  obtain ⟨k, _, href, hnew, hk⟩ := h _ hsole
  have hmem := List.mem_map_of_mem (f := fun m : MatchedFunction =>
    (m.refAddress, m.newAddress)) hk
  rw [hmatches, List.mem_singleton, Prod.mk.injEq] at hmem
  exact absurd (hnew.symm.trans hmem.2) (by decide)

end Anchors

end RomAnalyzer.Pipeline
