import RomAnalyzer.Types
import RomAnalyzer.Lib.Ranked

/-!
# Cross-reference arbitration

Matches and propagated symbols of several references are merged by target
address. The address is the only key: a name proposed at two addresses is
settled at each of them independently.
-/
namespace RomAnalyzer.Merge

open Lib

/-- Registry priority by reference id. -/
abbrev Priority := Dict String Int

/-- Structural ROM-invariant sources override bytecode-comparison matches. -/
def sourcePriority : Dict String Nat := Dict.ofList [
  ("vector_table", 3), ("icu_vector_table", 3),
  ("bytecode_identity", 2), ("mut_table", 2),
  ("callgraph_bfs", 1), ("callgraph_gap", 1), ("vt_diff", 0)]

def confidenceRank : ConfidenceTier → Nat
  | .verified => 5
  | .high => 4
  | .medium => 3
  | .inferred => 2
  | .low => 1
  | .auto => 0

/-- Source tier, then similarity, then registry priority. -/
def matchRank (priority : Priority) (m : MatchedFunction) : ℕ ×ₗ ℚ ×ₗ ℤ :=
  toLex (sourcePriority.getD m.source 0, toLex (m.similarity, priority.getD m.reference 0))

/-- A higher source tier outranks everything else. -/
theorem matchRank_lt_of_tier {priority : Priority} {m m' : MatchedFunction}
    (h : sourcePriority.getD m.source 0 < sourcePriority.getD m'.source 0) :
    matchRank priority m < matchRank priority m' :=
  Prod.Lex.toLex_lt_toLex.mpr (Or.inl h)

/-- The best match per target address, over all references. -/
def mergeMatches (results : List (List MatchedFunction)) (priority : Priority) :
    List MatchedFunction :=
  (keepBest MatchedFunction.newAddress (matchRank priority) results.flatten).values

theorem mergeMatches_settles (results : List (List MatchedFunction)) (priority : Priority) :
    Settles MatchedFunction.newAddress (matchRank priority) results.flatten
      (mergeMatches results priority) :=
  settles_keepBest _ _ _

structure Disagreement where
  newAddress : Nat
  /-- (reference id, name), sorted -/
  candidates : List (String × String)
  winner : String
  deriving DecidableEq, Repr

/-- Confidence tier, then registry priority, then score. -/
def symbolRank (priority : Priority) (s : PropagatedSymbol) : ℕ ×ₗ ℤ ×ₗ ℚ :=
  toLex (confidenceRank s.confidence, toLex (priority.getD s.reference 0, s.score))

/-- The record of an address for which more than one name was proposed. -/
def disagreementAt (addr : Nat) (group : List PropagatedSymbol) (winner : PropagatedSymbol) :
    Option Disagreement :=
  if (group.map PropagatedSymbol.name).dedup.length > 1 then
    some {
      newAddress := addr
      candidates := sortBy toLex (group.map fun s => (s.reference, s.name))
      winner := winner.name }
  else none

/-- What a record says, and when there is one. -/
theorem disagreementAt_eq_some {addr : Nat} {group : List PropagatedSymbol}
    {winner : PropagatedSymbol} {d : Disagreement} :
    disagreementAt addr group winner = some d ↔
      (∃ s ∈ group, ∃ u ∈ group, s.name ≠ u.name) ∧ d.newAddress = addr ∧
        d.candidates = sortBy toLex (group.map fun s => (s.reference, s.name)) ∧
        d.winner = winner.name := by
  have hnames : (group.map PropagatedSymbol.name).dedup.length > 1 ↔
      ∃ s ∈ group, ∃ u ∈ group, s.name ≠ u.name := by
    rw [← List.card_toFinset, gt_iff_lt, Finset.one_lt_card]
    simp
  unfold disagreementAt
  rw [← hnames]
  split
  · rename_i h
    obtain ⟨a, cs, w⟩ := d
    simp [h, eq_comm]
  · rename_i h
    simp [h]

theorem disagreementAt_newAddress {addr : Nat} {group : List PropagatedSymbol}
    {winner : PropagatedSymbol} {d : Disagreement}
    (h : disagreementAt addr group winner = some d) : d.newAddress = addr :=
  (disagreementAt_eq_some.mp h).2.1

/-- The verdict on one address: the first proposal of maximal rank. -/
def arbitrateGroup (priority : Priority) (addr : Nat) (group : List PropagatedSymbol) :
    Option (PropagatedSymbol × Option Disagreement) :=
  (maxBy (symbolRank priority) group).map fun winner =>
    (winner, disagreementAt addr group winner)

/-- Dedup propagated symbols by target address; the addresses are visited in
ascending order. -/
def arbitrateSymbols (symbols : List PropagatedSymbol) (priority : Priority) :
    List PropagatedSymbol × List Disagreement :=
  let byAddr := Dict.groupBy PropagatedSymbol.newAddress symbols
  let settled := (sortBy Prod.fst byAddr.entries).filterMap fun e =>
    arbitrateGroup priority e.1 e.2
  (settled.map Prod.fst, settled.filterMap Prod.snd)

/-- The proposals for one address. -/
def proposalsAt (symbols : List PropagatedSymbol) (addr : Nat) : List PropagatedSymbol :=
  symbols.filter fun s => s.newAddress = addr

/-- The verdicts, address by address. -/
def settledGroups (symbols : List PropagatedSymbol) (priority : Priority) :
    List (PropagatedSymbol × Option Disagreement) :=
  (sortBy Prod.fst (Dict.groupBy PropagatedSymbol.newAddress symbols).entries).filterMap fun e =>
    arbitrateGroup priority e.1 e.2

theorem arbitrateSymbols_eq (symbols : List PropagatedSymbol) (priority : Priority) :
    arbitrateSymbols symbols priority =
      ((settledGroups symbols priority).map Prod.fst,
        (settledGroups symbols priority).filterMap Prod.snd) := rfl

section Arbitrate

variable {symbols : List PropagatedSymbol} {priority : Priority}

/-- A verdict is the one on the proposals for some address. -/
theorem mem_settledGroups {v : PropagatedSymbol × Option Disagreement} :
    v ∈ settledGroups symbols priority ↔
      ∃ addr, arbitrateGroup priority addr (proposalsAt symbols addr) = some v := by
  unfold settledGroups
  rw [List.mem_filterMap]
  constructor
  · intro h
    obtain ⟨e, he, hv⟩ := h
    have hgroup := ((Dict.mem_entries_groupBy _ _ e.1 e.2).mp (mem_sortBy.mp he)).1
    exact ⟨e.1, by rw [proposalsAt, ← hgroup]; exact hv⟩
  · intro h
    obtain ⟨addr, hv⟩ := h
    have hne : ∃ s ∈ symbols, s.newAddress = addr := by
      obtain ⟨w, hw, _⟩ := Option.map_eq_some_iff.mp hv
      obtain ⟨hs, ha⟩ := List.mem_filter.mp (List.argmax_mem hw)
      exact ⟨w, hs, of_decide_eq_true ha⟩
    exact ⟨(addr, proposalsAt symbols addr),
      mem_sortBy.mpr ((Dict.mem_entries_groupBy _ _ addr _).mpr ⟨rfl, hne⟩), hv⟩

/-- It is the first of the best proposals for its address, with the record of the address. -/
theorem mem_settledGroups_iff {v : PropagatedSymbol × Option Disagreement} :
    v ∈ settledGroups symbols priority ↔
      v.1 ∈ maxBy (symbolRank priority) (proposalsAt symbols v.1.newAddress) ∧
        v.2 = disagreementAt v.1.newAddress (proposalsAt symbols v.1.newAddress) v.1 := by
  rw [mem_settledGroups]
  constructor
  · intro h
    obtain ⟨addr, hg⟩ := h
    obtain ⟨w, hw, rfl⟩ := Option.map_eq_some_iff.mp hg
    have haddr : w.newAddress = addr :=
      of_decide_eq_true (List.mem_filter.mp (List.argmax_mem hw)).2
    rw [haddr]
    exact ⟨hw, rfl⟩
  · intro h
    obtain ⟨hw, hd⟩ := h
    refine ⟨v.1.newAddress, ?_⟩
    rw [arbitrateGroup, Option.mem_def.mp hw, Option.map_some, ← hd]

/-- The winners are the first proposals of maximal rank for their addresses. -/
theorem mem_arbitrateSymbols {w : PropagatedSymbol} :
    w ∈ (arbitrateSymbols symbols priority).1 ↔
      w ∈ maxBy (symbolRank priority) (proposalsAt symbols w.newAddress) := by
  rw [arbitrateSymbols_eq, List.mem_map]
  constructor
  · intro h
    obtain ⟨v, hv, rfl⟩ := h
    exact (mem_settledGroups_iff.mp hv).1
  · intro hw
    exact ⟨(w, disagreementAt w.newAddress (proposalsAt symbols w.newAddress) w),
      mem_settledGroups_iff.mpr ⟨hw, rfl⟩, rfl⟩

theorem mem_of_mem_arbitrateSymbols {w : PropagatedSymbol}
    (h : w ∈ (arbitrateSymbols symbols priority).1) : w ∈ symbols :=
  (List.mem_filter.mp (List.argmax_mem (mem_arbitrateSymbols.mp h))).1

/-- Every address with a proposal has a winner. -/
theorem exists_winner (priority : Priority) {s : PropagatedSymbol} (hs : s ∈ symbols) :
    ∃ w ∈ maxBy (symbolRank priority) (proposalsAt symbols s.newAddress),
      w.newAddress = s.newAddress := by
  have hsg : s ∈ proposalsAt symbols s.newAddress := List.mem_filter.mpr ⟨hs, by simp⟩
  have hne : maxBy (symbolRank priority) (proposalsAt symbols s.newAddress) ≠ none := by
    rw [Ne, maxBy, List.argmax_eq_none]
    exact List.ne_nil_of_mem hsg
  obtain ⟨w, hw⟩ := Option.ne_none_iff_exists'.mp hne
  exact ⟨w, hw, of_decide_eq_true (List.mem_filter.mp (List.argmax_mem hw)).2⟩

/-- The verdicts stand in the order of the visited addresses. -/
theorem settledGroups_sublist (symbols : List PropagatedSymbol) (priority : Priority) :
    ((settledGroups symbols priority).map fun v => v.1.newAddress).Sublist
      ((sortBy Prod.fst (Dict.groupBy PropagatedSymbol.newAddress symbols).entries).map
        Prod.fst) := by
  refine filterMap_map_sublist fun e he v hv => ?_
  have hgroup := ((Dict.mem_entries_groupBy _ _ e.1 e.2).mp (mem_sortBy.mp he)).1
  obtain ⟨w, hw, rfl⟩ := Option.map_eq_some_iff.mp hv
  rw [hgroup] at hw
  exact of_decide_eq_true (List.mem_filter.mp (List.argmax_mem hw)).2

/-- One winner per address. -/
theorem arbitrateSymbols_nodup (symbols : List PropagatedSymbol) (priority : Priority) :
    ((arbitrateSymbols symbols priority).1.map PropagatedSymbol.newAddress).Nodup := by
  have hkeys : ((sortBy Prod.fst (Dict.groupBy PropagatedSymbol.newAddress
      symbols).entries).map Prod.fst).Nodup :=
    ((sortBy_perm _ _).map Prod.fst).nodup_iff.mpr (Dict.groupBy _ _).nodup
  rw [arbitrateSymbols_eq, List.map_map]
  exact (settledGroups_sublist symbols priority).nodup hkeys

theorem arbitrateSymbols_settles (symbols : List PropagatedSymbol) (priority : Priority) :
    Settles PropagatedSymbol.newAddress (symbolRank priority) symbols
      (arbitrateSymbols symbols priority).1 where
  nodup := arbitrateSymbols_nodup symbols priority
  keys := by
    intro a
    constructor
    · intro h
      obtain ⟨w, hw, rfl⟩ := List.mem_map.mp h
      exact List.mem_map_of_mem (mem_of_mem_arbitrateSymbols hw)
    · intro h
      obtain ⟨s, hs, rfl⟩ := List.mem_map.mp h
      obtain ⟨w, hw, haddr⟩ := exists_winner priority hs
      rw [← haddr] at hw ⊢
      exact List.mem_map_of_mem (mem_arbitrateSymbols.mpr hw)
  mem := fun _ hw => mem_of_mem_arbitrateSymbols hw
  maximal := by
    intro w hw s hs haddr
    apply List.le_of_mem_argmax _ (mem_arbitrateSymbols.mp hw)
    exact List.mem_filter.mpr ⟨hs, by simpa using haddr⟩

/-- The winners come in ascending order of address. -/
theorem arbitrateSymbols_ascending (symbols : List PropagatedSymbol) (priority : Priority) :
    ((arbitrateSymbols symbols priority).1.map PropagatedSymbol.newAddress).Pairwise (· < ·) := by
  have hle : ((arbitrateSymbols symbols priority).1.map
      PropagatedSymbol.newAddress).Pairwise (· ≤ ·) := by
    rw [arbitrateSymbols_eq, List.map_map]
    exact (sortBy_map_pairwise _ _).sublist (settledGroups_sublist symbols priority)
  have hne := arbitrateSymbols_nodup symbols priority
  exact (hle.and hne).imp fun h => lt_of_le_of_ne h.1 h.2

/-- A record is the one of the proposals at a winner's address. -/
theorem mem_disagreements {d : Disagreement} :
    d ∈ (arbitrateSymbols symbols priority).2 ↔
      ∃ w ∈ (arbitrateSymbols symbols priority).1,
        disagreementAt w.newAddress (proposalsAt symbols w.newAddress) w = some d := by
  rw [arbitrateSymbols_eq, List.mem_filterMap]
  constructor
  · intro h
    obtain ⟨v, hv, hd⟩ := h
    refine ⟨v.1, List.mem_map_of_mem hv, ?_⟩
    rw [← (mem_settledGroups_iff.mp hv).2]
    exact hd
  · intro h
    obtain ⟨w, hw, hd⟩ := h
    exact ⟨(w, disagreementAt w.newAddress (proposalsAt symbols w.newAddress) w),
      mem_settledGroups_iff.mpr ⟨mem_arbitrateSymbols.mp hw, rfl⟩, hd⟩

/-- An address at which two names were proposed is recorded with all its proposals. -/
theorem exists_disagreement (priority : Priority) {s u : PropagatedSymbol} (hs : s ∈ symbols)
    (hu : u ∈ symbols) (haddr : u.newAddress = s.newAddress) (hname : u.name ≠ s.name) :
    ∃ d ∈ (arbitrateSymbols symbols priority).2, d.newAddress = s.newAddress ∧
      (s.reference, s.name) ∈ d.candidates := by
  have hsg : s ∈ proposalsAt symbols s.newAddress := List.mem_filter.mpr ⟨hs, by simp⟩
  have hug : u ∈ proposalsAt symbols s.newAddress :=
    List.mem_filter.mpr ⟨hu, by simpa using haddr⟩
  obtain ⟨w, hw, hwa⟩ := exists_winner priority hs
  rw [← hwa] at hw hsg hug
  refine ⟨{
    newAddress := w.newAddress
    candidates := sortBy toLex ((proposalsAt symbols w.newAddress).map fun s =>
      (s.reference, s.name))
    winner := w.name }, ?_, hwa, mem_sortBy.mpr (List.mem_map_of_mem hsg)⟩
  apply mem_disagreements.mpr
  refine ⟨w, mem_arbitrateSymbols.mpr hw, ?_⟩
  exact disagreementAt_eq_some.mpr ⟨⟨u, hug, s, hsg, hname⟩, rfl, rfl, rfl⟩

/-- The addresses with a record are those with two names. -/
theorem mem_map_disagreements (addr : Nat) :
    addr ∈ (arbitrateSymbols symbols priority).2.map Disagreement.newAddress ↔
      ∃ s ∈ symbols, ∃ u ∈ symbols,
        s.newAddress = addr ∧ u.newAddress = addr ∧ s.name ≠ u.name := by
  rw [List.mem_map]
  constructor
  · intro h
    obtain ⟨d, hd, rfl⟩ := h
    obtain ⟨w, _, hat⟩ := mem_disagreements.mp hd
    obtain ⟨⟨s, hs, u, hu, hne⟩, haddr, _⟩ := disagreementAt_eq_some.mp hat
    obtain ⟨hs, hsa⟩ := List.mem_filter.mp hs
    obtain ⟨hu, hua⟩ := List.mem_filter.mp hu
    rw [haddr]
    exact ⟨s, hs, u, hu, of_decide_eq_true hsa, of_decide_eq_true hua, hne⟩
  · intro h
    obtain ⟨s, hs, u, hu, rfl, hua, hne⟩ := h
    obtain ⟨d, hd, haddr, _⟩ := exists_disagreement priority hs hu hua hne.symm
    exact ⟨d, hd, haddr⟩

/-- At most one record per address. -/
theorem disagreements_nodup (symbols : List PropagatedSymbol) (priority : Priority) :
    ((arbitrateSymbols symbols priority).2.map Disagreement.newAddress).Nodup := by
  rw [arbitrateSymbols_eq]
  refine (filterMap_map_sublist fun v hv d hd => ?_).nodup
    (by simpa [arbitrateSymbols_eq] using arbitrateSymbols_nodup symbols priority)
  have hat : v.2 = some d := hd
  rw [(mem_settledGroups_iff.mp hv).2] at hat
  exact disagreementAt_newAddress hat

end Arbitrate

end RomAnalyzer.Merge
