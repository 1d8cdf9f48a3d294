import RomAnalyzer.Candidates

/-!
# Consensus of the references

A cross-match is one-to-one, so a reference proposes at most one name for an entry
and a vote is a reference. The name with most votes wins, then the one with the
highest-priority backer, then the greater name; nothing is left for the order of
the candidates to decide.
-/
namespace RomAnalyzer.Enrich

open Lib
open Merge (Priority)

/-! ### Votes -/

/-- The sources that propose a name, in the order of the group. -/
def backers (group : List LabelCandidate) (name : String) : List String :=
  (group.filter fun c => c.proposed = name).map LabelCandidate.source

section Votes

variable {priority : Priority} {group : List LabelCandidate}

theorem mem_backers {name source : String} :
    source ∈ backers group name ↔ ∃ c ∈ group, c.proposed = name ∧ c.source = source := by
  simp [backers, and_assoc]

theorem backers_perm {group' : List LabelCandidate} (h : group'.Perm group) (name : String) :
    (backers group' name).Perm (backers group name) :=
  (h.filter _).map _

theorem mem_entries_votes {item : String × List String} :
    item ∈ (votes group).entries ↔
      item.2 = backers group item.1 ∧ ∃ c ∈ group, c.proposed = item.1 :=
  Dict.mem_entries_collect LabelCandidate.proposed LabelCandidate.source group item.1 item.2

/-- The second component of the score is the priority of some backer, and no backer
has a higher one. -/
theorem exists_topPriority (priority : Priority) {vs : List String} (h : vs ≠ []) :
    ∃ s ∈ vs, ((vs.map fun s => priority.getD s 0).max?).getD 0 = priority.getD s 0 ∧
      ∀ s' ∈ vs, priority.getD s' 0 ≤ priority.getD s 0 := by
  cases hmax : (vs.map fun s => priority.getD s 0).max? with
  | none =>
    rw [List.max?_eq_none_iff, List.map_eq_nil_iff] at hmax
    exact absurd hmax h
  | some top =>
    obtain ⟨hmem, hle⟩ := List.max?_eq_some_iff.mp hmax
    obtain ⟨s, hs, rfl⟩ := List.mem_map.mp hmem
    exact ⟨s, hs, rfl, fun s' hs' => hle _ (List.mem_map_of_mem hs')⟩

/-- The score depends on the voters only, not on their order. -/
theorem voteScore_perm {name : String} {vs vs' : List String} (h : vs'.Perm vs) :
    voteScore priority (name, vs') = voteScore priority (name, vs) := by
  have hmax : (vs'.map fun s => priority.getD s 0).max? =
      (vs.map fun s => priority.getD s 0).max? := by
    apply Option.ext
    intro top
    rw [List.max?_eq_some_iff, List.max?_eq_some_iff]
    simp only [List.mem_map, h.mem_iff]
  simp only [voteScore, hmax, h.length_eq]

theorem name_eq_of_voteScore_eq {item item' : String × List String}
    (h : voteScore priority item = voteScore priority item') : item.1 = item'.1 := by
  have hpair := toLex.injective h
  exact (Prod.mk.inj (toLex.injective (Prod.mk.inj hpair).2)).2

/-- What a score that is not higher means, position by position. -/
theorem voteScore_le {item item' : String × List String}
    (h : voteScore priority item ≤ voteScore priority item') :
    item.2.length ≤ item'.2.length ∧ (item.2.length = item'.2.length →
      ((item.2.map fun s => priority.getD s 0).max?).getD 0 ≤
        ((item'.2.map fun s => priority.getD s 0).max?).getD 0) := by
  rcases Prod.Lex.toLex_le_toLex.mp h with hlt | ⟨heq, hrest⟩
  · exact ⟨hlt.le, fun heq => absurd heq hlt.ne⟩
  · refine ⟨heq.le, fun _ => ?_⟩
    rcases Prod.Lex.toLex_le_toLex.mp hrest with hlt | ⟨heq', _⟩
    · exact hlt.le
    · exact heq'.le

/-- A candidate as a cross-match gathers it: backed by its own source alone. -/
def SelfBacked (c : LabelCandidate) : Prop := c.corroboratingSources = [c.source]

/-- The merged candidate carries the winning name and its voters, also when there is
no one to vote against. -/
theorem mergeGroup_winner (hself : ∀ c ∈ group, SelfBacked c) {merged : LabelCandidate}
    (h : mergeGroup priority group = some merged) :
    (merged.proposed, merged.corroboratingSources) ∈
      maxBy (voteScore priority) (votes group).entries := by
  match group with
  | [] => cases h
  | [c] =>
    obtain rfl := Option.some.inj h
    rw [hself c (List.mem_singleton_self c)]
    rfl
  | first :: second :: rest =>
    obtain ⟨winner, hwinner, rfl⟩ := Option.map_eq_some_iff.mp h
    obtain ⟨hbackers, c, hc, hname⟩ := mem_entries_votes.mp (List.argmax_mem hwinner)
    have hne : winner.2 ≠ [] := by
      rw [hbackers]
      exact List.ne_nil_of_mem (mem_backers.mpr ⟨c, hc, hname, rfl⟩)
    have hcorroborating : (postInit first.target first.direction first.address first.category
        first.current winner.1 ((maxBy (fun s => priority.getD s 0) winner.2).getD "")
        ("; ".intercalate (((first :: second :: rest).map LabelCandidate.evidence).filter
          fun e => e ≠ "")) winner.2).corroboratingSources = winner.2 := if_neg hne
    rw [hcorroborating]
    exact hwinner

/-- Another order of the group gives the same name and the same voters. -/
theorem winner_unique {group' : List LabelCandidate} (hperm : group'.Perm group)
    {w w' : String × List String} (hw : w ∈ maxBy (voteScore priority) (votes group).entries)
    (hw' : w' ∈ maxBy (voteScore priority) (votes group').entries) :
    w'.1 = w.1 ∧ w'.2.Perm w.2 := by
  have hle : ∀ {g g' : List LabelCandidate}, g'.Perm g → ∀ {v v' : String × List String},
      v ∈ maxBy (voteScore priority) (votes g).entries →
      v' ∈ maxBy (voteScore priority) (votes g').entries →
        voteScore priority v ≤ voteScore priority v' := by
    intro g g' hg v v' hv hv'
    obtain ⟨hbackers, c, hc, hname⟩ := mem_entries_votes.mp (List.argmax_mem hv)
    -- the votes for the name of `v`, counted in the other order
    have hentry : (v.1, backers g' v.1) ∈ (votes g').entries :=
      mem_entries_votes.mpr ⟨rfl, c, hg.mem_iff.mpr hc, hname⟩
    calc voteScore priority v
        = voteScore priority (v.1, backers g v.1) := by rw [← hbackers]
      _ = voteScore priority (v.1, backers g' v.1) := (voteScore_perm (backers_perm hg v.1)).symm
      _ ≤ voteScore priority v' := List.le_of_mem_argmax hentry hv'
  have hname := name_eq_of_voteScore_eq ((hle hperm.symm hw' hw).antisymm (hle hperm hw hw'))
  refine ⟨hname, ?_⟩
  rw [(mem_entries_votes.mp (List.argmax_mem hw)).1,
    (mem_entries_votes.mp (List.argmax_mem hw')).1, hname]
  exact backers_perm hperm w.1

end Votes

/-! ### Merged candidates -/

section Merged

variable {cs : List LabelCandidate} {priority : Priority}

/-- The candidates for one entry. -/
def candidatesFor (cs : List LabelCandidate) (key : String × Nat × SymbolCategory) :
    List LabelCandidate :=
  cs.filter fun c => candidateKey c = key

theorem mergeCandidates_eq :
    mergeCandidates cs priority =
      (Dict.groupBy candidateKey cs).entries.filterMap fun e => mergeGroup priority e.2 := by
  unfold mergeCandidates Dict.values
  rw [List.filterMap_map]
  rfl

theorem mem_mergeCandidates {merged : LabelCandidate} :
    merged ∈ mergeCandidates cs priority ↔
      mergeGroup priority (candidatesFor cs (candidateKey merged)) = some merged := by
  rw [mergeCandidates_eq, List.mem_filterMap]
  constructor
  · intro h
    obtain ⟨e, he, hmerge⟩ := h
    obtain ⟨hgroup, _⟩ := (Dict.mem_entries_groupBy _ _ e.1 e.2).mp he
    obtain ⟨c, hc, hkey⟩ := mergeGroup_key hmerge
    rw [hgroup] at hc hmerge
    rw [candidatesFor, hkey, of_decide_eq_true (List.mem_filter.mp hc).2]
    exact hmerge
  · intro h
    obtain ⟨c, hc, hkey⟩ := mergeGroup_key h
    have hmem := (List.mem_filter.mp hc).1
    exact ⟨_, (Dict.mem_entries_groupBy candidateKey cs (candidateKey merged) _).mpr
      ⟨rfl, c, hmem, hkey.symm⟩, h⟩

theorem mergeCandidates_keys_nodup :
    ((mergeCandidates cs priority).map candidateKey).Nodup := by
  rw [mergeCandidates_eq]
  refine List.Sublist.nodup (filterMap_map_sublist fun e he merged hmerge => ?_)
    (Dict.groupBy candidateKey cs).nodup
  obtain ⟨hgroup, _⟩ := (Dict.mem_entries_groupBy _ _ e.1 e.2).mp he
  obtain ⟨c, hc, hkey⟩ := mergeGroup_key hmerge
  rw [hgroup] at hc
  rw [hkey]
  exact of_decide_eq_true (List.mem_filter.mp hc).2

end Merged

/-- The references that propose a name for an entry. -/
def proposers (cs : List LabelCandidate) (key : String × Nat × SymbolCategory) (name : String) :
    Finset String :=
  (backers (candidatesFor cs key) name).toFinset

/-- The name has the most backers, the highest-priority one among the names with as
many, and all its backers are recorded. -/
structure Consensus (priority : Priority) (cs : List LabelCandidate) (c : LabelCandidate) :
    Prop where
  most : ∀ name, (proposers cs (candidateKey c) name).card ≤
    (proposers cs (candidateKey c) c.proposed).card
  tie : ∀ name, (proposers cs (candidateKey c) name).card =
      (proposers cs (candidateKey c) c.proposed).card →
    ∀ s ∈ proposers cs (candidateKey c) name, ∃ s' ∈ proposers cs (candidateKey c) c.proposed,
      priority.getD s 0 ≤ priority.getD s' 0
  corroborating : c.corroboratingSources.Nodup ∧
    c.corroboratingSources.toFinset = proposers cs (candidateKey c) c.proposed

/-- The two results agree entry by entry on the name and its backers. -/
def SameConsensus (merged merged' : List LabelCandidate) : Prop :=
  (merged'.map candidateKey).Perm (merged.map candidateKey) ∧
    ∀ c ∈ merged, ∀ c' ∈ merged', candidateKey c' = candidateKey c →
      c'.proposed = c.proposed ∧ c'.corroboratingSources.Perm c.corroboratingSources

/-- What the vote needs of its candidates: each speaks for its own source, and no
source speaks twice on one entry. -/
structure OneVoteEach (cs : List LabelCandidate) : Prop where
  self : ∀ c ∈ cs, SelfBacked c
  once : cs.Pairwise fun c c' => candidateKey c = candidateKey c' → c.source ≠ c'.source

namespace OneVoteEach

variable {cs : List LabelCandidate} {priority : Priority}

theorem perm (h : OneVoteEach cs) {cs' : List LabelCandidate} (hperm : cs'.Perm cs) :
    OneVoteEach cs' where
  self := fun c hc => h.self c (hperm.mem_iff.mp hc)
  once := (hperm.pairwise_iff fun hne hkey => (hne hkey.symm).symm).mpr h.once

theorem backers_nodup (h : OneVoteEach cs) (key : String × Nat × SymbolCategory)
    (name : String) : (backers (candidatesFor cs key) name).Nodup := by
  unfold backers candidatesFor
  rw [List.Nodup, List.pairwise_map, List.filter_filter]
  refine (h.once.filter _).imp_of_mem fun hc hc' hne => hne ?_
  have hkey := (List.mem_filter.mp hc).2
  have hkey' := (List.mem_filter.mp hc').2
  simp only [Bool.and_eq_true, decide_eq_true_eq] at hkey hkey'
  rw [hkey.2, hkey'.2]

theorem card_proposers (h : OneVoteEach cs) (key : String × Nat × SymbolCategory)
    (name : String) :
    (proposers cs key name).card = (backers (candidatesFor cs key) name).length :=
  List.toFinset_card_of_nodup (h.backers_nodup key name)

/-- One merged candidate is a consensus. -/
theorem consensus (h : OneVoteEach cs) {c : LabelCandidate}
    (hc : c ∈ mergeCandidates cs priority) : Consensus priority cs c := by
  have hwinner := mergeGroup_winner (fun c' hc' => h.self c' (List.mem_filter.mp hc').1)
    (mem_mergeCandidates.mp hc)
  have hbackers : c.corroboratingSources = backers (candidatesFor cs (candidateKey c)) c.proposed :=
    (mem_entries_votes.mp (List.argmax_mem hwinner)).1
  -- a name without backers has no entry among the votes
  have hscore : ∀ name, backers (candidatesFor cs (candidateKey c)) name ≠ [] →
      voteScore priority (name, backers (candidatesFor cs (candidateKey c)) name) ≤
        voteScore priority (c.proposed, c.corroboratingSources) := by
    intro name hne
    obtain ⟨s, hs⟩ := List.exists_mem_of_ne_nil _ hne
    obtain ⟨c', hc', hname, _⟩ := mem_backers.mp hs
    exact List.le_of_mem_argmax (mem_entries_votes.mpr ⟨rfl, c', hc', hname⟩) hwinner
  refine ⟨fun name => ?_, fun name heq s hs => ?_, ?_, ?_⟩
  · rw [h.card_proposers, h.card_proposers, ← hbackers]
    by_cases hne : backers (candidatesFor cs (candidateKey c)) name = []
    · rw [hne]
      exact Nat.zero_le _
    · exact (voteScore_le (hscore name hne)).1
  · rw [h.card_proposers, h.card_proposers, ← hbackers] at heq
    have hmem := List.mem_toFinset.mp hs
    obtain ⟨top, _, htop, hmax⟩ := exists_topPriority priority (List.ne_nil_of_mem hmem)
    obtain ⟨top', htop', hvalue, _⟩ := exists_topPriority priority c.corroborated
    refine ⟨top', List.mem_toFinset.mpr (hbackers ▸ htop'), (hmax s hmem).trans ?_⟩
    rw [← htop, ← hvalue]
    exact (voteScore_le (hscore name (List.ne_nil_of_mem hmem))).2 heq
  · rw [hbackers]
    exact h.backers_nodup _ _
  · rw [hbackers]
    rfl

/-- Any order of the candidates gives the same consensus. -/
theorem sameConsensus (h : OneVoteEach cs) {cs' : List LabelCandidate} (hperm : cs'.Perm cs) :
    SameConsensus (mergeCandidates cs priority) (mergeCandidates cs' priority) := by
  constructor
  · refine (List.perm_ext_iff_of_nodup mergeCandidates_keys_nodup
      mergeCandidates_keys_nodup).mpr fun key => ?_
    rw [List.mem_map, List.mem_map, key_mem_mergeCandidates_iff, key_mem_mergeCandidates_iff]
    simp only [hperm.mem_iff]
  · intro c hc c' hc' hkey
    have hmerge' := mem_mergeCandidates.mp hc'
    rw [hkey] at hmerge'
    exact winner_unique (hperm.filter _)
      (mergeGroup_winner (fun x hx => h.self x (List.mem_filter.mp hx).1)
        (mem_mergeCandidates.mp hc))
      (mergeGroup_winner (fun x hx => (h.perm hperm).self x (List.mem_filter.mp hx).1) hmerge')

end OneVoteEach

/-! ### Cross-matches -/

/-- The match of the new reference against one other. -/
structure CrossMatch where
  refId : String
  refFnNames : Dict Nat String
  matches_ : List MatchedFunction

/-- The cross-matches of one enrichment: the references have distinct ids, and each
match is a partial bijection. -/
structure CrossMatches where
  newId : String
  newFnNames : Dict Nat String
  results : List CrossMatch
  ids : (newId :: results.map CrossMatch.refId).Nodup
  oneToOne : ∀ r ∈ results, (r.matches_.map MatchedFunction.refAddress).Nodup ∧
    (r.matches_.map MatchedFunction.newAddress).Nodup

/-- What all cross-matches propose, in the order of the references. -/
def gatherAll (newId : String) (newFnNames : Dict Nat String) (results : List CrossMatch) :
    List LabelCandidate :=
  results.flatMap fun r => gatherCandidates newId r.refId newFnNames r.refFnNames r.matches_

def CrossMatches.gathered (x : CrossMatches) : List LabelCandidate :=
  gatherAll x.newId x.newFnNames x.results

/-- A candidate renames the new reference on behalf of the other one, or the other
way round. -/
theorem gatherCandidates_cases {newId : String} {newFnNames : Dict Nat String} {r : CrossMatch}
    {c : LabelCandidate}
    (h : c ∈ gatherCandidates newId r.refId newFnNames r.refFnNames r.matches_) :
    SelfBacked c ∧
      (c.target = newId ∧ c.source = r.refId ∨ c.target = r.refId ∧ c.source = newId) := by
  obtain ⟨m, _, hf | hb⟩ := mem_gatherCandidates.mp h
  · obtain ⟨name, _, rfl⟩ := Option.map_eq_some_iff.mp hf
    exact ⟨rfl, Or.inl ⟨rfl, rfl⟩⟩
  · obtain ⟨name, _, rfl⟩ := Option.map_eq_some_iff.mp hb
    exact ⟨rfl, Or.inr ⟨rfl, rfl⟩⟩

/-- The candidates of one cross-match are about different entries. -/
theorem gatherCandidates_keys_pairwise {newId : String} {newFnNames : Dict Nat String}
    {r : CrossMatch} (hid : r.refId ≠ newId)
    (href : (r.matches_.map MatchedFunction.refAddress).Nodup)
    (hnew : (r.matches_.map MatchedFunction.newAddress).Nodup) :
    (gatherCandidates newId r.refId newFnNames r.refFnNames r.matches_).Pairwise
      fun c c' => candidateKey c ≠ candidateKey c' := by
  unfold gatherCandidates
  rw [List.append_nil, List.pairwise_flatMap]
  rw [List.Nodup, List.pairwise_map] at href hnew
  have htarget : ∀ {m m' c c'},
      forwardCandidate newId r.refId newFnNames r.refFnNames m = some c →
      backCandidate newId r.refId newFnNames r.refFnNames m' = some c' →
        candidateKey c ≠ candidateKey c' := by
    intro m m' c c' hf hb hkey
    have htarget : c.target = c'.target := congrArg Prod.fst hkey
    rw [(forwardCandidate_spec hf).1, (backCandidate_spec hb).1] at htarget
    exact hid htarget.symm
  constructor
  · intro m _
    rw [List.pairwise_append]
    refine ⟨?_, ?_, ?_⟩
    · cases forwardCandidate newId r.refId newFnNames r.refFnNames m <;> simp
    · cases backCandidate newId r.refId newFnNames r.refFnNames m <;> simp
    · intro c hc c' hc'
      exact htarget (Option.mem_toList.mp hc) (Option.mem_toList.mp hc')
  · refine (href.and hnew).imp fun hne c hc c' hc' hkey => ?_
    have haddr : c.address = c'.address := congrArg (fun key => key.2.1) hkey
    simp only [List.mem_append, Option.mem_toList] at hc hc'
    rcases hc with hf | hb
    · rcases hc' with hf' | hb'
      · rw [(forwardCandidate_spec hf).2.1, (forwardCandidate_spec hf').2.1] at haddr
        exact hne.2 haddr
      · exact htarget hf hb' hkey
    · rcases hc' with hf' | hb'
      · exact htarget hf' hb hkey.symm
      · rw [(backCandidate_spec hb).2.1, (backCandidate_spec hb').2.1] at haddr
        exact hne.1 haddr

/-- Each reference has one vote on each entry. -/
theorem CrossMatches.oneVoteEach (x : CrossMatches) : OneVoteEach x.gathered := by
  have hids := List.nodup_cons.mp x.ids
  have hne : ∀ r ∈ x.results, r.refId ≠ x.newId := fun r hr heq =>
    hids.1 (heq ▸ List.mem_map_of_mem hr)
  have hpair : x.results.Pairwise fun r r' => r.refId ≠ r'.refId := List.pairwise_map.mp hids.2
  constructor
  · intro c hc
    obtain ⟨r, _, hc⟩ := List.mem_flatMap.mp hc
    exact (gatherCandidates_cases hc).1
  · unfold CrossMatches.gathered gatherAll
    rw [List.pairwise_flatMap]
    constructor
    · intro r hr
      obtain ⟨href, hnew⟩ := x.oneToOne r hr
      exact (gatherCandidates_keys_pairwise (hne r hr) href hnew).imp fun hkeys hkey =>
        absurd hkey hkeys
    · refine hpair.imp_of_mem fun hr hr' hrefs c hc c' hc' hkey => ?_
      have htarget : c.target = c'.target := congrArg Prod.fst hkey
      rcases (gatherCandidates_cases hc).2 with ⟨ht, hs⟩ | ⟨ht, hs⟩
      · rcases (gatherCandidates_cases hc').2 with ⟨ht', hs'⟩ | ⟨ht', hs'⟩
        · rw [hs, hs']
          exact hrefs
        · rw [ht, ht'] at htarget
          exact absurd htarget.symm (hne _ hr')
      · rcases (gatherCandidates_cases hc').2 with ⟨ht', hs'⟩ | ⟨ht', hs'⟩
        · rw [ht, ht'] at htarget
          exact absurd htarget (hne _ hr)
        · rw [ht, ht'] at htarget
          exact absurd htarget hrefs

/-- Merging what the cross-matches propose leaves one candidate per entry, each a
consensus of the references, in whatever order references and candidates come. -/
theorem mergeCandidates_consensus (x : CrossMatches) (priority : Priority) :
    ((mergeCandidates x.gathered priority).map candidateKey).Nodup ∧
    (∀ key, key ∈ (mergeCandidates x.gathered priority).map candidateKey ↔
      key ∈ x.gathered.map candidateKey) ∧
    (∀ c ∈ mergeCandidates x.gathered priority, Consensus priority x.gathered c) ∧
    ∀ results : List CrossMatch, results.Perm x.results →
      ∀ cs : List LabelCandidate, cs.Perm (gatherAll x.newId x.newFnNames results) →
        SameConsensus (mergeCandidates x.gathered priority) (mergeCandidates cs priority) := by
  refine ⟨mergeCandidates_keys_nodup, fun key => ?_, fun c hc => x.oneVoteEach.consensus hc, ?_⟩
  · rw [List.mem_map, List.mem_map]
    exact key_mem_mergeCandidates_iff
  · intro results hresults cs hcs
    exact x.oneVoteEach.sameConsensus (hcs.trans (hresults.flatMap_right _))

/-- Two references outvote the one with the highest priority. -/
example :
    let crossMatch := fun (refId name : String) => CrossMatch.mk refId
      (Dict.ofList [(0x200, name)]) [⟨"", 0x200, 0x100, 1, "vt_diff", refId⟩]
    (mergeCandidates (gatherAll "z37a" Dict.empty [crossMatch "33520003" "call0100",
      crossMatch "30200003" "tacho_set", crossMatch "c7280010" "tacho_set"])
        (Dict.ofList [("33520003", 100), ("30200003", 40)])).map
          (fun c => (c.proposed, c.source, c.corroboratingSources)) =
      [("tacho_set", "30200003", ["30200003", "c7280010"])] := by
  decide +kernel

end RomAnalyzer.Enrich
