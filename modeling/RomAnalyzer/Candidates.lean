import RomAnalyzer.Enrich
import RomAnalyzer.Lib.Ranked

/-!
# Candidates of an enrichment run

A cross-match proposes names in both directions, unless the side that would be
renamed has a function of that name elsewhere. Proposals for one entry are merged
by a vote.
-/
namespace RomAnalyzer.Enrich

open Lib
open Merge (Priority)

/-! ### Gathering -/

/-- `q` in hundredths, rounded half to even; the sign is lost. -/
def hundredths (q : ℚ) : Nat :=
  let n := q.num.natAbs * 100
  let half := 2 * (n % q.den)
  if half < q.den ∨ half = q.den ∧ n / q.den % 2 = 0 then n / q.den else n / q.den + 1

/-- `f"{q:.2f}"` -/
def fixed2 (q : ℚ) : String :=
  let cents := hundredths q
  (if q < 0 then "-" else "") ++ toString (cents / 100) ++ "." ++
    toString (cents % 100 / 10) ++ toString (cents % 10)

def matchEvidence (m : MatchedFunction) : String := "bytecode match sim=" ++ fixed2 m.similarity

/-- `{v: k for k, v in fn_names.items()}` -/
def nameToAddr (fnNames : Dict Nat String) : Dict String Nat :=
  Dict.ofList (fnNames.entries.map fun e => (e.2, e.1))

/-- The target owns the name at another address. -/
def clashes (fnNames : Dict Nat String) (name : String) (addr : Nat) : Bool :=
  match (nameToAddr fnNames).get? name with
  | none => false
  | some clash => clash ≠ addr

section Gather

variable (newId refId : String) (newFnNames refFnNames : Dict Nat String)

/-- The name that a match carries into the new reference. -/
def forwardName (m : MatchedFunction) : Option String :=
  let refName := refFnNames.getD m.refAddress m.refName
  if refName ≠ "" ∧ clashes newFnNames refName m.newAddress = false then some refName else none

/-- The name that a match carries back into the existing reference. -/
def backName (m : MatchedFunction) : Option String :=
  match newFnNames.get? m.newAddress with
  | none => none
  | some newName =>
    if newName ≠ "" ∧ clashes refFnNames newName m.refAddress = false then some newName else none

def forwardCandidate (m : MatchedFunction) : Option LabelCandidate :=
  (forwardName newFnNames refFnNames m).map fun refName =>
    postInit newId .forward m.newAddress .function (newFnNames.get? m.newAddress) refName refId
      (matchEvidence m)

def backCandidate (m : MatchedFunction) : Option LabelCandidate :=
  (backName newFnNames refFnNames m).map fun newName =>
    postInit refId .back m.refAddress .function (refFnNames.get? m.refAddress) newName newId
      (matchEvidence m)

/-- The candidates of one cross-match, match by match, then those for RAM and data. -/
def gatherCandidates (ms : List MatchedFunction)
    (ramDataCandidates : List LabelCandidate := []) : List LabelCandidate :=
  ms.flatMap (fun m =>
    (forwardCandidate newId refId newFnNames refFnNames m).toList ++
      (backCandidate newId refId newFnNames refFnNames m).toList) ++ ramDataCandidates

variable {newId refId newFnNames refFnNames}

theorem mem_gatherCandidates {ms : List MatchedFunction} {c : LabelCandidate} :
    c ∈ gatherCandidates newId refId newFnNames refFnNames ms ↔
      ∃ m ∈ ms, forwardCandidate newId refId newFnNames refFnNames m = some c ∨
        backCandidate newId refId newFnNames refFnNames m = some c := by
  simp [gatherCandidates]

theorem forwardCandidate_spec {m : MatchedFunction} {c : LabelCandidate}
    (h : forwardCandidate newId refId newFnNames refFnNames m = some c) :
    c.target = newId ∧ c.address = m.newAddress ∧ c.category = .function := by
  obtain ⟨name, _, rfl⟩ := Option.map_eq_some_iff.mp h
  exact ⟨rfl, rfl, rfl⟩

theorem backCandidate_spec {m : MatchedFunction} {c : LabelCandidate}
    (h : backCandidate newId refId newFnNames refFnNames m = some c) :
    c.target = refId ∧ c.address = m.refAddress ∧ c.category = .function := by
  obtain ⟨name, _, rfl⟩ := Option.map_eq_some_iff.mp h
  exact ⟨rfl, rfl, rfl⟩

end Gather

/-! ### Merging -/

abbrev candidateKey (c : LabelCandidate) : String × Nat × SymbolCategory :=
  (c.target, c.address, c.category)

/-- Every proposed name with the sources that propose it. -/
def votes (group : List LabelCandidate) : Dict String (List String) :=
  group.foldl (fun d c => d.append c.proposed c.source) Dict.empty

/-- Most votes, then the highest priority among the voters, then the name. -/
def voteScore (priority : Priority) (item : String × List String) : ℕ ×ₗ ℤ ×ₗ String :=
  toLex (item.2.length,
    toLex (((item.2.map fun s => priority.getD s 0).max?).getD 0, item.1))

/-- One candidate for a group: a single one as it is, several by their vote. -/
def mergeGroup (priority : Priority) : List LabelCandidate → Option LabelCandidate
  | [] => none
  | [c] => some c
  | first :: second :: rest =>
    let group := first :: second :: rest
    (maxBy (voteScore priority) (votes group).entries).map fun winner =>
      let evidence := (group.map LabelCandidate.evidence).filter fun e => e ≠ ""
      postInit first.target first.direction first.address first.category first.current winner.1
        ((maxBy (fun s => priority.getD s 0) winner.2).getD "") ("; ".intercalate evidence) winner.2

/-- One candidate for each target, address and category, in the order in which these
first occur. -/
def mergeCandidates (candidates : List LabelCandidate) (priority : Priority) :
    List LabelCandidate :=
  (Dict.groupBy candidateKey candidates).values.filterMap (mergeGroup priority)

theorem votes_append (group : List LabelCandidate) (c : LabelCandidate) :
    votes (group ++ [c]) = (votes group).append c.proposed c.source := by
  simp [votes, List.foldl_append]

theorem votes_ne_nil {group : List LabelCandidate} (h : group ≠ []) :
    (votes group).entries ≠ [] := by
  induction group using List.reverseRecOn with
  | nil => exact absurd rfl h
  | append_singleton group c _ =>
    intro hnil
    have hget : ∃ vs, (votes (group ++ [c])).get? c.proposed = some vs := by
      rw [votes_append]
      exact ⟨_, Dict.get?_insert_self _ _ _⟩
    obtain ⟨vs, hvs⟩ := hget
    have hmem := (Dict.mem_entries_iff _ _ _).mpr hvs
    rw [hnil] at hmem
    cases hmem

/-- A merged candidate stands for the entry that its group is about. -/
theorem mergeGroup_key {priority : Priority} {group : List LabelCandidate} {c : LabelCandidate}
    (h : mergeGroup priority group = some c) : ∃ c' ∈ group, candidateKey c = candidateKey c' := by
  match group with
  | [] => cases h
  | [c'] =>
    cases h
    exact ⟨c, List.mem_singleton_self c, rfl⟩
  | first :: second :: rest =>
    obtain ⟨winner, _, rfl⟩ := Option.map_eq_some_iff.mp h
    exact ⟨first, List.mem_cons_self, rfl⟩

theorem mergeGroup_isSome (priority : Priority) {group : List LabelCandidate} (h : group ≠ []) :
    ∃ c, mergeGroup priority group = some c := by
  match group with
  | [] => exact absurd rfl h
  | [c] => exact ⟨c, rfl⟩
  | first :: second :: rest =>
    have hne := votes_ne_nil h
    cases hmax : maxBy (voteScore priority) (votes (first :: second :: rest)).entries with
    | none => exact absurd (List.argmax_eq_none.mp hmax) hne
    | some winner =>
      apply Option.isSome_iff_exists.mp
      rw [mergeGroup, hmax]
      rfl

/-- Merging neither loses an entry nor invents one. -/
theorem key_mem_mergeCandidates_iff {candidates : List LabelCandidate} {priority : Priority}
    {key : String × Nat × SymbolCategory} :
    (∃ c ∈ mergeCandidates candidates priority, candidateKey c = key) ↔
      ∃ c ∈ candidates, candidateKey c = key := by
  constructor
  · intro h
    obtain ⟨c, hc, hkey⟩ := h
    obtain ⟨group, hgroup, hmerge⟩ := List.mem_filterMap.mp hc
    obtain ⟨entry, hentry, rfl⟩ := List.mem_map.mp hgroup
    obtain ⟨c', hc', hkey'⟩ := mergeGroup_key hmerge
    obtain ⟨hfilter, _⟩ := (Dict.mem_entries_groupBy _ _ _ _).mp hentry
    rw [hfilter] at hc'
    exact ⟨c', (List.mem_filter.mp hc').1, hkey'.symm.trans hkey⟩
  · intro h
    obtain ⟨c, hc, hkey⟩ := h
    have hmem : c ∈ candidates.filter fun x => candidateKey x = key :=
      List.mem_filter.mpr ⟨hc, decide_eq_true hkey⟩
    obtain ⟨merged, hmerge⟩ := mergeGroup_isSome priority (List.ne_nil_of_mem hmem)
    have hentry := (Dict.mem_entries_groupBy candidateKey candidates key _).mpr
      ⟨rfl, c, hc, hkey⟩
    refine ⟨merged, List.mem_filterMap.mpr ⟨_, List.mem_map.mpr ⟨_, hentry, rfl⟩, hmerge⟩, ?_⟩
    obtain ⟨c', hc', hkey'⟩ := mergeGroup_key hmerge
    rw [hkey']
    exact of_decide_eq_true (List.mem_filter.mp hc').2

theorem exists_mem_mergeCandidates_iff {candidates : List LabelCandidate} {priority : Priority}
    {tid : String} {addr : Nat} :
    (∃ c ∈ mergeCandidates candidates priority, c.target = tid ∧ c.address = addr) ↔
      ∃ c ∈ candidates, c.target = tid ∧ c.address = addr := by
  constructor
  · intro h
    obtain ⟨c, hc, rfl, rfl⟩ := h
    obtain ⟨c', hc', hkey⟩ := key_mem_mergeCandidates_iff.mp ⟨c, hc, rfl⟩
    exact ⟨c', hc', congrArg Prod.fst hkey, congrArg (fun key => key.2.1) hkey⟩
  · intro h
    obtain ⟨c, hc, rfl, rfl⟩ := h
    have hsame : ∃ c' ∈ mergeCandidates candidates priority, candidateKey c' = candidateKey c :=
      key_mem_mergeCandidates_iff.mpr ⟨c, hc, rfl⟩
    obtain ⟨c', hc', hkey⟩ := hsame
    exact ⟨c', hc', congrArg Prod.fst hkey, congrArg (fun key => key.2.1) hkey⟩

end RomAnalyzer.Enrich
