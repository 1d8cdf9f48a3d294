import RomAnalyzer.DataRefs

/-!
# What the label passes propose

The search around an offset finds the nearest access, and a label is read off all the
sightings of its name: the first one in the order of the matches gives the address, and
sightings at two addresses leave it low.
-/
namespace RomAnalyzer.DataRefs

open Lib
open Propagate (tierForScore)

/-! ### The nearest access -/

/-- The access at the offset, the last one when there are several. -/
def AccessAt (refs : List DataRef) (offset : Int) (r : DataRef) : Prop :=
  r.instructionOffset = offset ∧
    ∃ pre post, refs = pre ++ r :: post ∧ ∀ r' ∈ post, r'.instructionOffset ≠ offset

/-- An access in the window than which no other is nearer; the one further on if two
are equally near. -/
structure NearestAccess (refs : List DataRef) (offset : Int) (windowBytes : Nat)
    (r : DataRef) : Prop where
  access : AccessAt refs r.instructionOffset r
  in_window : (r.instructionOffset - offset).natAbs ≤ windowBytes
  nearest : ∀ r' ∈ refs,
    (r.instructionOffset - offset).natAbs ≤ (r'.instructionOffset - offset).natAbs
  forward : ∀ r' ∈ refs,
    (r'.instructionOffset - offset).natAbs = (r.instructionOffset - offset).natAbs →
      r'.instructionOffset ≤ r.instructionOffset

theorem get?_refsByOffset {refs : List DataRef} {offset : Int} {r : DataRef} :
    (refsByOffset refs).get? offset = some r ↔ AccessAt refs offset r := by
  rw [refsByOffset, Dict.get?_ofList_map_eq_some_iff, AccessAt]
  constructor
  · intro h
    obtain ⟨pre, _, post, hsplit, hoffset, rfl, hlast⟩ := h
    exact ⟨hoffset, pre, post, hsplit, hlast⟩
  · intro h
    obtain ⟨hoffset, pre, post, hsplit, hlast⟩ := h
    exact ⟨pre, r, post, hsplit, hoffset, rfl, hlast⟩

theorem AccessAt.mem {refs : List DataRef} {offset : Int} {r : DataRef}
    (h : AccessAt refs offset r) : r ∈ refs := by
  obtain ⟨_, pre, post, rfl, _⟩ := h
  exact List.mem_append_right pre List.mem_cons_self

/-- Where some reference has the offset, the access there is found. -/
theorem exists_accessAt {refs : List DataRef} {r : DataRef} (hr : r ∈ refs) :
    ∃ r', AccessAt refs r.instructionOffset r' := by
  cases hget : (refsByOffset refs).get? r.instructionOffset with
  | some r' => exact ⟨r', get?_refsByOffset.mp hget⟩
  | none =>
    rw [refsByOffset, Dict.get?_eq_none_iff, Dict.mem_keys_ofList] at hget
    exact absurd (List.mem_map.mpr ⟨_, List.mem_map_of_mem hr, rfl⟩) hget

theorem windowOffsets_eq (offset : Int) (windowBytes : Nat) :
    windowOffsets offset windowBytes =
      offset :: (List.range windowBytes).flatMap fun i : Nat =>
        [offset + ((i : Int) + 1), offset - ((i : Int) + 1)] := by
  -- the definition casts the list of distances, not each distance
  simp [windowOffsets, List.flatMap_assoc]

theorem mem_windowOffsets {offset o : Int} {windowBytes : Nat} :
    o ∈ windowOffsets offset windowBytes ↔ (o - offset).natAbs ≤ windowBytes := by
  simp only [windowOffsets_eq, List.mem_cons, List.mem_flatMap, List.mem_range, List.not_mem_nil,
    or_false]
  constructor
  · intro hcases
    obtain rfl | ⟨i, hi, rfl | rfl⟩ := hcases
    all_goals omega
  · intro h
    by_cases hzero : o = offset
    · exact Or.inl hzero
    · refine Or.inr ⟨(o - offset).natAbs - 1, by omega, ?_⟩
      omega

/-- Later offsets are further off, or as far off on the near side. -/
theorem windowOffsets_pairwise (offset : Int) (windowBytes : Nat) :
    (windowOffsets offset windowBytes).Pairwise fun o o' =>
      (o - offset).natAbs < (o' - offset).natAbs ∨
        ((o - offset).natAbs = (o' - offset).natAbs ∧ o' < o) := by
  rw [windowOffsets_eq]
  refine List.pairwise_cons.mpr ⟨?_, ?_⟩
  · intro o ho
    obtain ⟨i, _, ho⟩ := List.mem_flatMap.mp ho
    simp only [List.mem_cons, List.not_mem_nil, or_false] at ho
    omega
  · apply List.pairwise_flatMap.mpr
    constructor
    · intro i _
      refine List.pairwise_cons.mpr ⟨?_, List.pairwise_singleton _ _⟩
      intro o ho
      rw [List.mem_singleton] at ho
      omega
    · apply List.pairwise_lt_range.imp
      intro i i' hlt o ho o' ho'
      simp only [List.mem_cons, List.not_mem_nil, or_false] at ho ho'
      omega

/-- An access elsewhere is beyond the one found, or as far off on the near side. -/
theorem later_of_nearestRef {refs : List DataRef} {offset : Int} {windowBytes : Nat}
    {r r' : DataRef} (h : nearestRef (refsByOffset refs) offset windowBytes = some r)
    (hr' : r' ∈ refs) :
    (r.instructionOffset - offset).natAbs < (r'.instructionOffset - offset).natAbs ∨
      ((r.instructionOffset - offset).natAbs = (r'.instructionOffset - offset).natAbs ∧
        r'.instructionOffset ≤ r.instructionOffset) := by
  obtain ⟨before, o, after, hsplit, hget, hnone⟩ := List.findSome?_eq_some_iff.mp h
  obtain rfl : r.instructionOffset = o := (get?_refsByOffset.mp hget).1
  have hwindow : (r.instructionOffset - offset).natAbs ≤ windowBytes := by
    apply mem_windowOffsets.mp
    rw [hsplit]
    exact List.mem_append_right before List.mem_cons_self
  have hsorted := windowOffsets_pairwise offset windowBytes
  rw [hsplit] at hsorted
  have hafter := (List.pairwise_cons.mp (List.pairwise_append.mp hsorted).2.1).1
  by_cases hin : (r'.instructionOffset - offset).natAbs ≤ windowBytes
  · have hmem := mem_windowOffsets.mpr hin
    rw [hsplit] at hmem
    rcases List.mem_append.mp hmem with hbefore | hmem
    · -- the search would have stopped there
      obtain ⟨r'', hr''⟩ := exists_accessAt hr'
      have hnil := hnone _ hbefore
      rw [get?_refsByOffset.mpr hr''] at hnil
      cases hnil
    · rcases List.mem_cons.mp hmem with heq | hmem
      · omega
      · have hlt := hafter _ hmem
        omega
  · omega

theorem nearestAccess_of_nearestRef {refs : List DataRef} {offset : Int} {windowBytes : Nat}
    {r : DataRef} (h : nearestRef (refsByOffset refs) offset windowBytes = some r) :
    NearestAccess refs offset windowBytes r := by
  obtain ⟨o, ho, hget⟩ := List.exists_of_findSome?_eq_some h
  have haccess := get?_refsByOffset.mp hget
  obtain rfl : r.instructionOffset = o := haccess.1
  refine ⟨haccess, mem_windowOffsets.mp ho, ?_, ?_⟩
  · intro r' hr'
    have hlater := later_of_nearestRef h hr'
    omega
  · intro r' hr' heq
    have hlater := later_of_nearestRef h hr'
    omega

theorem NearestAccess.unique {refs : List DataRef} {offset : Int} {windowBytes : Nat}
    {r r' : DataRef} (h : NearestAccess refs offset windowBytes r)
    (h' : NearestAccess refs offset windowBytes r') : r = r' := by
  have hle := h.nearest r' h'.access.mem
  have hle' := h'.nearest r h.access.mem
  have hforward := h.forward r' h'.access.mem (by omega)
  have hforward' := h'.forward r h.access.mem (by omega)
  have hoffset : r'.instructionOffset = r.instructionOffset := by omega
  have haccess := get?_refsByOffset.mpr h'.access
  rw [hoffset, get?_refsByOffset.mpr h.access] at haccess
  exact Option.some.inj haccess

/-- The search outward from an offset finds the nearest access. -/
theorem nearestRef_eq_some_iff {refs : List DataRef} {offset : Int} {windowBytes : Nat}
    {r : DataRef} :
    nearestRef (refsByOffset refs) offset windowBytes = some r ↔
      NearestAccess refs offset windowBytes r := by
  constructor
  · exact nearestAccess_of_nearestRef
  · intro h
    cases hnear : nearestRef (refsByOffset refs) offset windowBytes with
    | none =>
      have hnil := List.findSome?_eq_none_iff.mp hnear _ (mem_windowOffsets.mpr h.in_window)
      rw [get?_refsByOffset.mpr h.access] at hnil
      cases hnil
    | some r' => rw [h.unique (nearestAccess_of_nearestRef hnear)]

/-! ### The sightings of a name -/

/-- The labelled accesses as the pass comes to them: match by match, and within a match
in the order of its reference function. -/
def visits (refRefsByFunc : Dict Nat (List DataRef)) (ms : List MatchedFunction) :
    List (MatchedFunction × DataRef) :=
  ms.flatMap fun m => (refRefsByFunc.getD m.refAddress []).map fun r => (m, r)

section Labels

variable (pass : LabelPass) (refSymbolsByAddr : Dict Nat ReferenceSymbol) (windowBytes : Nat)
  (refRefsByFunc newRefsByFunc : Dict Nat (List DataRef)) (ms : List MatchedFunction)

/-- A labelled access of a match of tier medium or high, in the range of the pass and
under a reference symbol, proposes the address of the nearest access of the new function,
if the pass takes the pair. -/
structure Sighted (v : MatchedFunction × DataRef) (p : Proposal) : Prop where
  tier : p.tier = tierForScore v.1.similarity
  matched : p.tier = .medium ∨ p.tier = .high
  labelled : v.2.label ≠ none
  in_range : pass.inRange v.2.referencedAddress = true
  ref_address : p.refAddress = v.2.referencedAddress
  symbol : ∃ sym, refSymbolsByAddr.get? v.2.referencedAddress = some sym ∧ p.name = sym.name
  nearest : ∃ found, NearestAccess (newRefsByFunc.getD v.1.newAddress [])
      v.2.instructionOffset windowBytes found ∧
    pass.source v.2 found = some p.source ∧ p.newAddress = found.referencedAddress

/-- There is one label for each name that is sighted; the first sighting gives its
address; it is low when there are sightings at two addresses, and otherwise of the tier of
a sighting. -/
structure LabelsOfSightings (labels : List PropagatedSymbol) : Prop where
  names_nodup : (labels.map PropagatedSymbol.name).Nodup
  mem_names : ∀ name, name ∈ labels.map PropagatedSymbol.name ↔
    ∃ v ∈ visits refRefsByFunc ms, ∃ p,
      Sighted pass refSymbolsByAddr windowBytes newRefsByFunc v p ∧ p.name = name
  first : ∀ s ∈ labels, ∃ before v after p, visits refRefsByFunc ms = before ++ v :: after ∧
    Sighted pass refSymbolsByAddr windowBytes newRefsByFunc v p ∧ p.name = s.name ∧
    p.newAddress = s.newAddress ∧
    ∀ v' ∈ before, ∀ p', Sighted pass refSymbolsByAddr windowBytes newRefsByFunc v' p' →
      p'.name ≠ s.name
  low_iff : ∀ s ∈ labels, s.confidence = .low ↔
    ∃ v ∈ visits refRefsByFunc ms, ∃ v' ∈ visits refRefsByFunc ms, ∃ p p',
      Sighted pass refSymbolsByAddr windowBytes newRefsByFunc v p ∧ p.name = s.name ∧
      Sighted pass refSymbolsByAddr windowBytes newRefsByFunc v' p' ∧ p'.name = s.name ∧
      p.newAddress ≠ p'.newAddress
  tier : ∀ s ∈ labels, s.confidence ≠ .low → ∃ v ∈ visits refRefsByFunc ms, ∃ p,
    Sighted pass refSymbolsByAddr windowBytes newRefsByFunc v p ∧ p.name = s.name ∧
    p.tier = s.confidence

/-- The sighting of one access. -/
def sighting (v : MatchedFunction × DataRef) : Option Proposal :=
  if tierForScore v.1.similarity = .low then none
  else proposalOf pass refSymbolsByAddr windowBytes
    (refsByOffset (newRefsByFunc.getD v.1.newAddress [])) (tierForScore v.1.similarity) v.2

/-- The sightings in the order of the pass. -/
def sightings : List Proposal :=
  (visits refRefsByFunc ms).filterMap
    (sighting pass refSymbolsByAddr windowBytes newRefsByFunc)

variable {pass refSymbolsByAddr windowBytes refRefsByFunc newRefsByFunc ms}

theorem tierForScore_medium_or_high {score : ℚ} (h : tierForScore score ≠ .low) :
    tierForScore score = .medium ∨ tierForScore score = .high := by
  unfold tierForScore at h ⊢
  by_cases hhigh : Propagate.highThreshold ≤ score
  · rw [if_pos hhigh]
    exact Or.inr rfl
  rw [if_neg hhigh] at h ⊢
  by_cases hmedium : Propagate.mediumThreshold ≤ score
  · rw [if_pos hmedium]
    exact Or.inl rfl
  · rw [if_neg hmedium] at h
    exact absurd rfl h

theorem sighting_eq_some_iff {v : MatchedFunction × DataRef} {p : Proposal} :
    sighting pass refSymbolsByAddr windowBytes newRefsByFunc v = some p ↔
      Sighted pass refSymbolsByAddr windowBytes newRefsByFunc v p := by
  constructor
  · intro h
    by_cases hlow : tierForScore v.1.similarity = .low
    · rw [sighting, if_pos hlow] at h
      cases h
    rw [sighting, if_neg hlow] at h
    obtain ⟨sym, found, hlabel, hrange, hsym, hfound, hsource, hp⟩ := proposalOf_eq_some h
    rw [hp]
    exact ⟨rfl, tierForScore_medium_or_high hlow, hlabel, hrange, rfl, ⟨sym, hsym, rfl⟩,
      ⟨found, nearestRef_eq_some_iff.mp hfound, hsource, rfl⟩⟩
  · rintro ⟨htier, hmatched, hlabel, hrange, hrefAddr, ⟨sym, hsym, hname⟩,
      found, hfound, hsource, hnewAddr⟩
    have hnotlow : tierForScore v.1.similarity ≠ .low := by
      rw [← htier]
      rcases hmatched with h | h <;> rw [h] <;> decide
    have hin : ¬ pass.inRange v.2.referencedAddress = false := by
      rw [hrange]
      decide
    cases p
    unfold sighting proposalOf
    rw [if_neg hnotlow, if_neg hlabel, if_neg hin, hsym]
    dsimp only
    rw [nearestRef_eq_some_iff.mpr hfound]
    dsimp only at htier hrefAddr hname hsource hnewAddr ⊢
    rw [hsource, htier, hrefAddr, hname, hnewAddr]
    rfl

theorem proposals_eq_sightings :
    (ms.flatMap (proposalsOfMatch pass refSymbolsByAddr windowBytes refRefsByFunc
      newRefsByFunc)) =
      sightings pass refSymbolsByAddr windowBytes refRefsByFunc newRefsByFunc ms := by
  unfold sightings visits
  induction ms with
  | nil => rfl
  | cons m ms ih =>
    rw [List.flatMap_cons, List.flatMap_cons, List.filterMap_append, ih]
    congr 1
    rw [List.filterMap_map]
    unfold proposalsOfMatch
    by_cases hlow : tierForScore m.similarity = .low
    · have hnone : ∀ r, (sighting pass refSymbolsByAddr windowBytes newRefsByFunc ∘
          fun r => (m, r)) r = none := fun r => if_pos hlow
      rw [if_pos hlow, List.filterMap_eq_nil_iff.mpr fun r _ => hnone r]
    · rw [if_neg hlow]
      apply List.filterMap_congr
      intro r _
      exact (if_neg hlow).symm

theorem mem_sightings {p : Proposal} :
    p ∈ sightings pass refSymbolsByAddr windowBytes refRefsByFunc newRefsByFunc ms ↔
      ∃ v ∈ visits refRefsByFunc ms,
        Sighted pass refSymbolsByAddr windowBytes newRefsByFunc v p := by
  rw [sightings, List.mem_filterMap]
  simp only [sighting_eq_some_iff]

/-- A label is made of the sightings of its name. -/
theorem mem_propagateLabels {s : PropagatedSymbol}
    (h : s ∈ propagateLabels pass refSymbolsByAddr windowBytes refRefsByFunc newRefsByFunc ms) :
    ∃ first rest, (sightings pass refSymbolsByAddr windowBytes refRefsByFunc newRefsByFunc
        ms).filter (fun p => p.name = s.name) = first :: rest ∧
      s.newAddress = first.newAddress ∧
      s.confidence = if ((first :: rest).map Proposal.newAddress).dedup.length > 1 then .low
        else first.tier := by
  obtain ⟨e, he, hlabel⟩ := List.mem_filterMap.mp h
  obtain ⟨hgroup, _⟩ := (Dict.mem_entries_groupBy Proposal.name _ e.1 e.2).mp he
  rw [proposals_eq_sightings] at hgroup
  obtain ⟨first, rest, hsplit, hname, haddr, _, _, hconfidence⟩ := labelOf_eq_some hlabel
  rw [hsplit] at hgroup hconfidence
  rw [hname]
  exact ⟨first, rest, hgroup.symm, haddr, hconfidence⟩

/-- Every sighted name gets a label: its reference symbol is there. -/
theorem exists_label {p : Proposal}
    (hp : p ∈ sightings pass refSymbolsByAddr windowBytes refRefsByFunc newRefsByFunc ms) :
    p.name ∈ (propagateLabels pass refSymbolsByAddr windowBytes refRefsByFunc newRefsByFunc
      ms).map PropagatedSymbol.name := by
  have hgroup : (p.name, (sightings pass refSymbolsByAddr windowBytes refRefsByFunc newRefsByFunc
      ms).filter fun q => q.name = p.name) ∈ (Dict.groupBy Proposal.name (sightings pass
        refSymbolsByAddr windowBytes refRefsByFunc newRefsByFunc ms)).entries :=
    (Dict.mem_entries_groupBy _ _ _ _).mpr ⟨rfl, p, hp, rfl⟩
  have hown : p ∈ (sightings pass refSymbolsByAddr windowBytes refRefsByFunc newRefsByFunc
      ms).filter fun q => q.name = p.name := List.mem_filter.mpr ⟨hp, decide_eq_true rfl⟩
  have hkey : p.name ∈ (Dict.ofList ((sightings pass refSymbolsByAddr windowBytes refRefsByFunc
      newRefsByFunc ms).map fun q => (q.name, q.refAddress))).keys := by
    rw [Dict.mem_keys_ofList, List.map_map]
    exact List.mem_map.mpr ⟨p, hp, rfl⟩
  obtain ⟨refAddr, hrefAddr⟩ := (Dict.mem_keys_iff _ _).mp hkey
  obtain ⟨q, hq, hqname⟩ := List.mem_map.mp (Dict.mem_of_get?_ofList hrefAddr)
  obtain ⟨v, _, hsighted⟩ := mem_sightings.mp hq
  obtain ⟨sym, hsym, _⟩ := hsighted.symbol
  rw [← hsighted.ref_address, (Prod.mk.inj hqname).2] at hsym
  obtain ⟨first, rest, hsplit⟩ := List.exists_cons_of_ne_nil (List.ne_nil_of_mem hown)
  unfold propagateLabels
  rw [proposals_eq_sightings, List.map_filterMap]
  apply List.mem_filterMap.mpr
  refine ⟨_, hgroup, ?_⟩
  dsimp only
  rw [hsplit, labelOf, hrefAddr, Option.bind_some, hsym]
  rfl

theorem one_lt_length_dedup_iff {xs : List Nat} :
    xs.dedup.length > 1 ↔ ∃ a ∈ xs, ∃ b ∈ xs, a ≠ b := by
  rw [gt_iff_lt, ← List.card_toFinset, Finset.one_lt_card]
  simp only [List.mem_toFinset]

theorem mem_sightings_named {name : String} {p : Proposal} :
    p ∈ (sightings pass refSymbolsByAddr windowBytes refRefsByFunc newRefsByFunc ms).filter
        (fun p => p.name = name) ↔
      ∃ v ∈ visits refRefsByFunc ms,
        Sighted pass refSymbolsByAddr windowBytes newRefsByFunc v p ∧ p.name = name := by
  rw [List.mem_filter, mem_sightings, decide_eq_true_iff]
  constructor
  · intro h
    obtain ⟨⟨v, hv, hsighted⟩, hname⟩ := h
    exact ⟨v, hv, hsighted, hname⟩
  · intro h
    obtain ⟨v, hv, hsighted, hname⟩ := h
    exact ⟨⟨v, hv, hsighted⟩, hname⟩

theorem Sighted.tier_ne_low {v : MatchedFunction × DataRef} {p : Proposal}
    (h : Sighted pass refSymbolsByAddr windowBytes newRefsByFunc v p) : p.tier ≠ .low := by
  rcases h.matched with htier | htier
  · rw [htier]
    decide
  · rw [htier]
    decide

/-- No name is labelled twice. -/
theorem propagateLabels_names_nodup :
    ((propagateLabels pass refSymbolsByAddr windowBytes refRefsByFunc newRefsByFunc ms).map
      PropagatedSymbol.name).Nodup := by
  refine (filterMap_map_sublist fun e _ s hs => ?_).nodup (Dict.groupBy Proposal.name _).nodup
  obtain ⟨_, _, _, hname, _⟩ := labelOf_eq_some hs
  exact hname

theorem mem_names_propagateLabels {name : String} :
    name ∈ (propagateLabels pass refSymbolsByAddr windowBytes refRefsByFunc newRefsByFunc
        ms).map PropagatedSymbol.name ↔
      ∃ v ∈ visits refRefsByFunc ms, ∃ p,
        Sighted pass refSymbolsByAddr windowBytes newRefsByFunc v p ∧ p.name = name := by
  constructor
  · intro h
    obtain ⟨s, hs, rfl⟩ := List.mem_map.mp h
    obtain ⟨first, rest, hsplit, _⟩ := mem_propagateLabels hs
    obtain ⟨v, hv, hsighted⟩ := mem_sightings_named.mp (hsplit ▸ List.mem_cons_self)
    exact ⟨v, hv, first, hsighted⟩
  · intro hsight
    obtain ⟨v, hv, p, hsighted, rfl⟩ := hsight
    exact exists_label (mem_sightings.mpr ⟨v, hv, hsighted⟩)

/-- The address of a label is that of the first access that sights its name. -/
theorem exists_first_sighting {s : PropagatedSymbol}
    (hs : s ∈ propagateLabels pass refSymbolsByAddr windowBytes refRefsByFunc newRefsByFunc
      ms) :
    ∃ before v after p, visits refRefsByFunc ms = before ++ v :: after ∧
      Sighted pass refSymbolsByAddr windowBytes newRefsByFunc v p ∧ p.name = s.name ∧
      p.newAddress = s.newAddress ∧
      ∀ v' ∈ before, ∀ p', Sighted pass refSymbolsByAddr windowBytes newRefsByFunc v' p' →
        p'.name ≠ s.name := by
  obtain ⟨first, rest, hsplit, haddr, _⟩ := mem_propagateLabels hs
  obtain ⟨earlier, later, hsightings, hearlier, hname, _⟩ := List.filter_eq_cons_iff.mp hsplit
  obtain ⟨before, behind, hvisits, hbefore, hbehind⟩ :=
    List.filterMap_eq_append_iff.mp hsightings
  obtain ⟨skipped, v, after, hsplitBehind, hskipped, hv, _⟩ :=
    List.filterMap_eq_cons_iff.mp hbehind
  refine ⟨before ++ skipped, v, after, first, ?_, sighting_eq_some_iff.mp hv,
    of_decide_eq_true hname, haddr.symm, ?_⟩
  · rw [hvisits, hsplitBehind, List.append_assoc]
  · intro v' hv' p' hsighted hsame
    have hp' := sighting_eq_some_iff.mpr hsighted
    rcases List.mem_append.mp hv' with hv' | hv'
    · have hmem : p' ∈ earlier := by
        rw [← hbefore]
        exact List.mem_filterMap.mpr ⟨v', hv', hp'⟩
      exact hearlier p' hmem (decide_eq_true hsame)
    · rw [hskipped v' hv'] at hp'
      cases hp'

theorem confidence_low_iff {s : PropagatedSymbol}
    (hs : s ∈ propagateLabels pass refSymbolsByAddr windowBytes refRefsByFunc newRefsByFunc
      ms) :
    s.confidence = .low ↔
      ∃ v ∈ visits refRefsByFunc ms, ∃ v' ∈ visits refRefsByFunc ms, ∃ p p',
        Sighted pass refSymbolsByAddr windowBytes newRefsByFunc v p ∧ p.name = s.name ∧
        Sighted pass refSymbolsByAddr windowBytes newRefsByFunc v' p' ∧ p'.name = s.name ∧
        p.newAddress ≠ p'.newAddress := by
  obtain ⟨first, rest, hsplit, _, htier⟩ := mem_propagateLabels hs
  have hmem : ∀ p, p ∈ first :: rest ↔ _ := fun p => hsplit ▸ mem_sightings_named
  obtain ⟨_, _, hsighted, _⟩ := (hmem first).mp List.mem_cons_self
  have hlow : s.confidence = .low ↔
      ((first :: rest).map Proposal.newAddress).dedup.length > 1 := by
    rw [htier]
    split
    · rename_i htwo
      exact ⟨fun _ => htwo, fun _ => rfl⟩
    · rename_i hone
      exact ⟨fun h => absurd h hsighted.tier_ne_low, fun h => absurd h hone⟩
  rw [hlow, one_lt_length_dedup_iff]
  constructor
  · intro htwo
    obtain ⟨a, ha, b, hb, hne⟩ := htwo
    obtain ⟨p, hp, rfl⟩ := List.mem_map.mp ha
    obtain ⟨p', hp', rfl⟩ := List.mem_map.mp hb
    obtain ⟨v, hv, hsighted, hname⟩ := (hmem p).mp hp
    obtain ⟨v', hv', hsighted', hname'⟩ := (hmem p').mp hp'
    exact ⟨v, hv, v', hv', p, p', hsighted, hname, hsighted', hname', hne⟩
  · intro hsights
    obtain ⟨v, hv, v', hv', p, p', hsighted, hname, hsighted', hname', hne⟩ := hsights
    have hp := (hmem p).mpr ⟨v, hv, hsighted, hname⟩
    have hp' := (hmem p').mpr ⟨v', hv', hsighted', hname'⟩
    exact ⟨_, List.mem_map_of_mem hp, _, List.mem_map_of_mem hp', hne⟩

theorem confidence_eq_tier {s : PropagatedSymbol}
    (hs : s ∈ propagateLabels pass refSymbolsByAddr windowBytes refRefsByFunc newRefsByFunc
      ms) (hnotlow : s.confidence ≠ .low) :
    ∃ v ∈ visits refRefsByFunc ms, ∃ p,
      Sighted pass refSymbolsByAddr windowBytes newRefsByFunc v p ∧ p.name = s.name ∧
      p.tier = s.confidence := by
  obtain ⟨first, rest, hsplit, _, htier⟩ := mem_propagateLabels hs
  obtain ⟨v, hv, hsighted, hname⟩ := mem_sightings_named.mp (hsplit ▸ List.mem_cons_self)
  refine ⟨v, hv, first, hsighted, hname, ?_⟩
  by_cases htwo : ((first :: rest).map Proposal.newAddress).dedup.length > 1
  · rw [if_pos htwo] at htier
    exact absurd htier hnotlow
  · rw [if_neg htwo] at htier
    exact htier.symm

theorem propagateLabels_correct :
    LabelsOfSightings pass refSymbolsByAddr windowBytes refRefsByFunc newRefsByFunc ms
      (propagateLabels pass refSymbolsByAddr windowBytes refRefsByFunc newRefsByFunc ms) where
  names_nodup := propagateLabels_names_nodup
  mem_names := fun _ => mem_names_propagateLabels
  first := fun _ hs => exists_first_sighting hs
  low_iff := fun _ hs => confidence_low_iff hs
  tier := fun _ hs hnotlow => confidence_eq_tier hs hnotlow

/-! ### A longer list of matches -/

theorem sightings_append (ext : List MatchedFunction) :
    sightings pass refSymbolsByAddr windowBytes refRefsByFunc newRefsByFunc (ms ++ ext) =
      sightings pass refSymbolsByAddr windowBytes refRefsByFunc newRefsByFunc ms ++
        sightings pass refSymbolsByAddr windowBytes refRefsByFunc newRefsByFunc ext := by
  rw [sightings, visits, List.flatMap_append, List.filterMap_append]
  rfl

theorem eq_of_name_propagateLabels {s t : PropagatedSymbol}
    (hs : s ∈ propagateLabels pass refSymbolsByAddr windowBytes refRefsByFunc newRefsByFunc ms)
    (ht : t ∈ propagateLabels pass refSymbolsByAddr windowBytes refRefsByFunc newRefsByFunc ms)
    (hname : s.name = t.name) : s = t :=
  List.inj_on_of_nodup_map propagateLabels_names_nodup hs ht hname

/-- More matches leave a label its address, as its first sighting stays the first; they
can only make it low. -/
theorem exists_label_append {s : PropagatedSymbol}
    (hs : s ∈ propagateLabels pass refSymbolsByAddr windowBytes refRefsByFunc newRefsByFunc ms)
    (ext : List MatchedFunction) :
    ∃ t ∈ propagateLabels pass refSymbolsByAddr windowBytes refRefsByFunc newRefsByFunc
        (ms ++ ext), t.name = s.name ∧ t.newAddress = s.newAddress ∧
      (t.confidence = s.confidence ∨ t.confidence = .low) := by
  obtain ⟨first, rest, hsplit, haddr, htier⟩ := mem_propagateLabels hs
  have hfirst : first ∈ sightings pass refSymbolsByAddr windowBytes refRefsByFunc newRefsByFunc
      (ms ++ ext) ∧ first.name = s.name := by
    have hmem : first ∈ _ := hsplit ▸ List.mem_cons_self
    obtain ⟨hold, hname⟩ := List.mem_filter.mp hmem
    rw [sightings_append]
    exact ⟨List.mem_append_left _ hold, of_decide_eq_true hname⟩
  obtain ⟨t, ht, htname⟩ := List.mem_map.mp (exists_label hfirst.1)
  rw [hfirst.2] at htname
  obtain ⟨first', rest', hsplit', haddr', htier'⟩ := mem_propagateLabels ht
  rw [htname, sightings_append, List.filter_append, hsplit, List.cons_append] at hsplit'
  obtain ⟨rfl, rfl⟩ := List.cons.inj hsplit'
  refine ⟨t, ht, htname, haddr'.trans haddr.symm, ?_⟩
  by_cases htwo : ((first :: (rest ++ (sightings pass refSymbolsByAddr windowBytes refRefsByFunc
      newRefsByFunc ext).filter fun p => p.name = s.name)).map
        Proposal.newAddress).dedup.length > 1
  · right
    rw [htier', if_pos htwo]
  · left
    -- what is at one address with more sightings was so with fewer
    have hone : ¬ ((first :: rest).map Proposal.newAddress).dedup.length > 1 := by
      rw [one_lt_length_dedup_iff] at htwo ⊢
      intro h
      obtain ⟨a, ha, b, hb, hne⟩ := h
      apply htwo
      rw [← List.cons_append, List.map_append]
      exact ⟨a, List.mem_append_left _ ha, b, List.mem_append_left _ hb, hne⟩
    rw [htier', htier, if_neg htwo, if_neg hone]

/-! ### One address and two -/

/-- The sightings of the name have one address, and there are some. -/
def SoleAddress (ps : List Proposal) (name : String) (a : Nat) : Prop :=
  (∃ p ∈ ps, p.name = name) ∧ ∀ p ∈ ps, p.name = name → p.newAddress = a

/-- The name is sighted at two addresses. -/
def TwoAddresses (ps : List Proposal) (name : String) : Prop :=
  ∃ p ∈ ps, ∃ q ∈ ps, p.name = name ∧ q.name = name ∧ p.newAddress ≠ q.newAddress

/-- A label is of one of the three tiers. -/
theorem propagateLabels_confidence {s : PropagatedSymbol}
    (hs : s ∈ propagateLabels pass refSymbolsByAddr windowBytes refRefsByFunc newRefsByFunc ms) :
    s.confidence = .low ∨ s.confidence = .medium ∨ s.confidence = .high := by
  by_cases hlow : s.confidence = .low
  · exact Or.inl hlow
  · obtain ⟨v, _, p, hsighted, _, htier⟩ := confidence_eq_tier hs hlow
    rw [← htier]
    exact Or.inr hsighted.matched

/-- The labels that are not low are those of the names with one address. -/
theorem exists_label_not_low_iff {name : String} {a : Nat} :
    (∃ s ∈ propagateLabels pass refSymbolsByAddr windowBytes refRefsByFunc newRefsByFunc ms,
      s.name = name ∧ s.newAddress = a ∧ s.confidence ≠ .low) ↔
      SoleAddress (sightings pass refSymbolsByAddr windowBytes refRefsByFunc newRefsByFunc ms)
        name a := by
  have hmem : ∀ p first rest, (sightings pass refSymbolsByAddr windowBytes refRefsByFunc
      newRefsByFunc ms).filter (fun p => p.name = name) = first :: rest →
        (p ∈ first :: rest ↔ p ∈ sightings pass refSymbolsByAddr windowBytes refRefsByFunc
          newRefsByFunc ms ∧ p.name = name) := by
    intro p first rest hsplit
    rw [← hsplit, List.mem_filter, decide_eq_true_iff]
  constructor
  · intro h
    obtain ⟨s, hs, rfl, rfl, hnotlow⟩ := h
    obtain ⟨first, rest, hsplit, haddr, htier⟩ := mem_propagateLabels hs
    obtain ⟨hfirst, hname⟩ := (hmem first first rest hsplit).mp List.mem_cons_self
    refine ⟨⟨first, hfirst, hname⟩, fun p hp hpname => ?_⟩
    by_contra hne
    rw [if_pos (one_lt_length_dedup_iff.mpr ⟨_, List.mem_map_of_mem
      ((hmem p first rest hsplit).mpr ⟨hp, hpname⟩), _, List.mem_map_of_mem List.mem_cons_self,
      haddr ▸ hne⟩)] at htier
    exact hnotlow htier
  · intro h
    obtain ⟨⟨p, hp, hpname⟩, hone⟩ := h
    obtain ⟨s, hs, hname⟩ := List.mem_map.mp (exists_label hp)
    rw [hpname] at hname
    subst hname
    obtain ⟨first, rest, hsplit, haddr, htier⟩ := mem_propagateLabels hs
    obtain ⟨hfirst, hfirstName⟩ := (hmem first first rest hsplit).mp List.mem_cons_self
    refine ⟨s, hs, rfl, haddr.trans (hone first hfirst hfirstName), ?_⟩
    have hsame : ¬ ((first :: rest).map Proposal.newAddress).dedup.length > 1 := by
      rw [one_lt_length_dedup_iff]
      intro h
      obtain ⟨b, hb, c, hc, hne⟩ := h
      obtain ⟨q, hq, rfl⟩ := List.mem_map.mp hb
      obtain ⟨r, hr, rfl⟩ := List.mem_map.mp hc
      obtain ⟨hq, hqname⟩ := (hmem q first rest hsplit).mp hq
      obtain ⟨hr, hrname⟩ := (hmem r first rest hsplit).mp hr
      exact hne ((hone q hq hqname).trans (hone r hr hrname).symm)
    rw [htier, if_neg hsame]
    obtain ⟨v, _, hsighted⟩ := mem_sightings.mp hfirst
    exact hsighted.tier_ne_low

end Labels

/-- Both passes give one label for each name they sight, of the first address and low
when there are two. -/
theorem propagateLabels_ofSightings (refRefsByFunc newRefsByFunc refRamByFunc newRamByFunc :
      Dict Nat (List DataRef)) (ms : List MatchedFunction)
    (refSymbolsByAddr : Dict Nat ReferenceSymbol) (windowBytes : Nat) :
    LabelsOfSightings dataPass refSymbolsByAddr windowBytes refRefsByFunc newRefsByFunc ms
      (propagateDataLabels refRefsByFunc newRefsByFunc ms refSymbolsByAddr windowBytes) ∧
    LabelsOfSightings ramPass refSymbolsByAddr windowBytes refRamByFunc newRamByFunc ms
      (propagateRamLabels refRamByFunc newRamByFunc ms refSymbolsByAddr windowBytes) :=
  ⟨propagateLabels_correct, propagateLabels_correct⟩

end RomAnalyzer.DataRefs
