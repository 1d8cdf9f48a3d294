import RomAnalyzer.DataRefs.Labels

/-!
# The order of the matches

The matches are tried in the order in which the deduplication left them. A label takes its
tier from the first match that sights its name, though the name may be sighted by better
ones behind it.
-/
namespace RomAnalyzer.DataRefs

open Lib
open Propagate (tierForScore)

section Order

variable (pass : LabelPass) (refSymbolsByAddr : Dict Nat ReferenceSymbol) (windowBytes : Nat)
  (refRefsByFunc newRefsByFunc : Dict Nat (List DataRef)) (ms : List MatchedFunction)

/-- The name is sighted, and at this address only. -/
def SoleSighted (name : String) (a : Nat) : Prop :=
  (∃ v ∈ visits refRefsByFunc ms, ∃ p,
    Sighted pass refSymbolsByAddr windowBytes newRefsByFunc v p ∧ p.name = name) ∧
  ∀ v ∈ visits refRefsByFunc ms, ∀ p,
    Sighted pass refSymbolsByAddr windowBytes newRefsByFunc v p → p.name = name →
      p.newAddress = a

/-- What a label says of a name. -/
def stated (labels : List PropagatedSymbol) : List (String × Nat × ConfidenceTier) :=
  labels.map fun s => (s.name, s.newAddress, s.confidence)

/-- In every order of the matches a name with one address gets the same label, and it is
high when a match of tier high sights the name. -/
def OrderFree (label : List MatchedFunction → List PropagatedSymbol) : Prop :=
  ∀ ms', ms'.Perm ms → ∀ name a,
    SoleSighted pass refSymbolsByAddr windowBytes refRefsByFunc newRefsByFunc ms name a →
    ∃ tier, (name, a, tier) ∈ stated (label ms) ∧ (name, a, tier) ∈ stated (label ms') ∧
      ((∃ v ∈ visits refRefsByFunc ms, ∃ p,
        Sighted pass refSymbolsByAddr windowBytes newRefsByFunc v p ∧ p.name = name ∧
          tierForScore v.1.similarity = .high) → tier = .high)

/-- The matches that sight a name with one address are of one tier. -/
def OneTier : Prop :=
  ∀ name a, SoleSighted pass refSymbolsByAddr windowBytes refRefsByFunc newRefsByFunc ms name a →
    ∀ v ∈ visits refRefsByFunc ms, ∀ p,
      Sighted pass refSymbolsByAddr windowBytes newRefsByFunc v p → p.name = name →
    ∀ v' ∈ visits refRefsByFunc ms, ∀ p',
      Sighted pass refSymbolsByAddr windowBytes newRefsByFunc v' p' → p'.name = name →
      tierForScore v.1.similarity = tierForScore v'.1.similarity

variable {pass refSymbolsByAddr windowBytes refRefsByFunc newRefsByFunc ms}

theorem visits_perm {ms' : List MatchedFunction} (h : ms'.Perm ms) :
    (visits refRefsByFunc ms').Perm (visits refRefsByFunc ms) := h.flatMap_right _

theorem mem_visits_perm {ms' : List MatchedFunction} (h : ms'.Perm ms)
    {v : MatchedFunction × DataRef} :
    v ∈ visits refRefsByFunc ms' ↔ v ∈ visits refRefsByFunc ms := (visits_perm h).mem_iff

theorem SoleSighted.perm {ms' : List MatchedFunction} (h : ms'.Perm ms) {name : String} {a : Nat}
    (hsole : SoleSighted pass refSymbolsByAddr windowBytes refRefsByFunc newRefsByFunc ms name a) :
    SoleSighted pass refSymbolsByAddr windowBytes refRefsByFunc newRefsByFunc ms' name a := by
  obtain ⟨⟨v, hv, p, hsighted, hname⟩, hone⟩ := hsole
  refine ⟨⟨v, (mem_visits_perm h).mpr hv, p, hsighted, hname⟩, ?_⟩
  intro v' hv' p' hsighted' hname'
  exact hone v' ((mem_visits_perm h).mp hv') p' hsighted' hname'

/-- The first sighting of a name with one address gives its label. -/
theorem exists_label_of_sole {name : String} {a : Nat}
    (hsole : SoleSighted pass refSymbolsByAddr windowBytes refRefsByFunc newRefsByFunc ms
      name a) :
    ∃ s ∈ propagateLabels pass refSymbolsByAddr windowBytes refRefsByFunc newRefsByFunc ms,
      ∃ first rest, (sightings pass refSymbolsByAddr windowBytes refRefsByFunc newRefsByFunc
          ms).filter (fun p => p.name = name) = first :: rest ∧
        s.name = name ∧ s.newAddress = a ∧ s.confidence = first.tier := by
  obtain ⟨⟨v, hv, p, hsighted, hname⟩, hone⟩ := hsole
  obtain ⟨s, hs, hsname⟩ := List.mem_map.mp (exists_label (mem_sightings.mpr ⟨v, hv, hsighted⟩))
  obtain ⟨first, rest, hsplit, haddr, htier⟩ := mem_propagateLabels hs
  rw [hsname, hname] at hsplit
  have haddress : ∀ q ∈ first :: rest, q.newAddress = a := by
    intro q hq
    rw [← hsplit] at hq
    obtain ⟨w, hw, hq, hqname⟩ := mem_sightings_named.mp hq
    exact hone w hw q hq hqname
  refine ⟨s, hs, first, rest, hsplit, hsname.trans hname,
    haddr.trans (haddress first List.mem_cons_self), ?_⟩
  rw [htier, if_neg]
  intro htwo
  obtain ⟨b, hb, b', hb', hne⟩ := one_lt_length_dedup_iff.mp htwo
  obtain ⟨q, hq, rfl⟩ := List.mem_map.mp hb
  obtain ⟨q', hq', rfl⟩ := List.mem_map.mp hb'
  exact hne ((haddress q hq).trans (haddress q' hq').symm)

/-- The tier stated for a name with one address is that of its first sighting. -/
theorem stated_sole_iff {name : String} {a : Nat} {tier : ConfidenceTier}
    (hsole : SoleSighted pass refSymbolsByAddr windowBytes refRefsByFunc newRefsByFunc ms
      name a) :
    (name, a, tier) ∈ stated (propagateLabels pass refSymbolsByAddr windowBytes refRefsByFunc
        newRefsByFunc ms) ↔
      ∃ first rest, (sightings pass refSymbolsByAddr windowBytes refRefsByFunc newRefsByFunc
          ms).filter (fun p => p.name = name) = first :: rest ∧ first.tier = tier := by
  obtain ⟨s, hs, first, rest, hsplit, hname, haddr, htier⟩ := exists_label_of_sole hsole
  constructor
  · intro hstated
    obtain ⟨t, ht, heq⟩ := List.mem_map.mp hstated
    obtain ⟨htname, _, hconfidence⟩ := by simpa only [Prod.mk.injEq] using heq
    obtain rfl := eq_of_name_propagateLabels hs ht (hname.trans htname.symm)
    exact ⟨first, rest, hsplit, htier.symm.trans hconfidence⟩
  · intro h
    obtain ⟨first', rest', hsplit', htier'⟩ := h
    obtain ⟨rfl, rfl⟩ := List.cons.inj (hsplit.symm.trans hsplit')
    refine List.mem_map.mpr ⟨s, hs, ?_⟩
    rw [hname, haddr, htier, htier']

theorem tier_unique_of_sole {name : String} {a : Nat} {tier tier' : ConfidenceTier}
    (hsole : SoleSighted pass refSymbolsByAddr windowBytes refRefsByFunc newRefsByFunc ms
      name a)
    (h : (name, a, tier) ∈ stated (propagateLabels pass refSymbolsByAddr windowBytes
      refRefsByFunc newRefsByFunc ms))
    (h' : (name, a, tier') ∈ stated (propagateLabels pass refSymbolsByAddr windowBytes
      refRefsByFunc newRefsByFunc ms)) :
    tier = tier' := by
  obtain ⟨first, rest, hsplit, rfl⟩ := (stated_sole_iff hsole).mp h
  obtain ⟨first', rest', hsplit', rfl⟩ := (stated_sole_iff hsole).mp h'
  obtain ⟨rfl, _⟩ := List.cons.inj (hsplit.symm.trans hsplit')
  rfl

/-- The tier is that of some match that sights the name. -/
theorem exists_sighter_of_stated {name : String} {a : Nat} {tier : ConfidenceTier}
    (hsole : SoleSighted pass refSymbolsByAddr windowBytes refRefsByFunc newRefsByFunc ms
      name a)
    (hstated : (name, a, tier) ∈ stated (propagateLabels pass refSymbolsByAddr windowBytes
      refRefsByFunc newRefsByFunc ms)) :
    ∃ v ∈ visits refRefsByFunc ms, ∃ p,
      Sighted pass refSymbolsByAddr windowBytes newRefsByFunc v p ∧ p.name = name ∧
        tierForScore v.1.similarity = tier := by
  obtain ⟨first, rest, hsplit, htier⟩ := (stated_sole_iff hsole).mp hstated
  obtain ⟨v, hv, hsighted, hname⟩ := mem_sightings_named.mp (hsplit ▸ List.mem_cons_self)
  exact ⟨v, hv, first, hsighted, hname, hsighted.tier.symm.trans htier⟩

theorem exists_stated {name : String} {a : Nat}
    (hsole : SoleSighted pass refSymbolsByAddr windowBytes refRefsByFunc newRefsByFunc ms
      name a) :
    ∃ tier, (name, a, tier) ∈ stated (propagateLabels pass refSymbolsByAddr windowBytes
      refRefsByFunc newRefsByFunc ms) := by
  obtain ⟨_, _, first, rest, hsplit, _⟩ := exists_label_of_sole hsole
  exact ⟨first.tier, (stated_sole_iff hsole).mpr ⟨first, rest, hsplit, rfl⟩⟩

/-- A match that is tried first and sights the name gives the label its tier. -/
theorem stated_of_sighter_first {name : String} {a : Nat} {m : MatchedFunction} {r : DataRef}
    {p : Proposal}
    (hsole : SoleSighted pass refSymbolsByAddr windowBytes refRefsByFunc newRefsByFunc (m :: ms)
      name a)
    (hr : r ∈ refRefsByFunc.getD m.refAddress [])
    (hsighted : Sighted pass refSymbolsByAddr windowBytes newRefsByFunc (m, r) p)
    (hname : p.name = name) :
    (name, a, tierForScore m.similarity) ∈ stated (propagateLabels pass refSymbolsByAddr
      windowBytes refRefsByFunc newRefsByFunc (m :: ms)) := by
  apply (stated_sole_iff hsole).mpr
  have hown : p ∈ (sightings pass refSymbolsByAddr windowBytes refRefsByFunc newRefsByFunc
      [m]).filter (fun p => p.name = name) := by
    apply mem_sightings_named.mpr
    refine ⟨(m, r), ?_, hsighted, hname⟩
    exact List.mem_flatMap.mpr ⟨m, List.mem_singleton_self m, List.mem_map_of_mem hr⟩
  obtain ⟨first, rest, hsplit⟩ := List.exists_cons_of_ne_nil (List.ne_nil_of_mem hown)
  obtain ⟨v, hv, hfirst, _⟩ := mem_sightings_named.mp (hsplit ▸ List.mem_cons_self)
  have hmatch : v.1 = m := by
    obtain ⟨m', hm', hv⟩ := List.mem_flatMap.mp hv
    obtain ⟨r', _, rfl⟩ := List.mem_map.mp hv
    exact List.mem_singleton.mp hm'
  refine ⟨first, rest ++ (sightings pass refSymbolsByAddr windowBytes refRefsByFunc
    newRefsByFunc ms).filter (fun p => p.name = name), ?_, ?_⟩
  · rw [← List.singleton_append, sightings_append, List.filter_append, hsplit, List.cons_append]
  · rw [hfirst.tier, hmatch]

/-- The label of a name is free of the order exactly when its sighters are of one tier. -/
theorem orderFree_propagateLabels_iff :
    OrderFree pass refSymbolsByAddr windowBytes refRefsByFunc newRefsByFunc ms
        (propagateLabels pass refSymbolsByAddr windowBytes refRefsByFunc newRefsByFunc) ↔
      OneTier pass refSymbolsByAddr windowBytes refRefsByFunc newRefsByFunc ms := by
  constructor
  · intro hfree
    -- whichever sighter is tried first, the label has its tier
    have hgiven : ∀ name a, SoleSighted pass refSymbolsByAddr windowBytes refRefsByFunc
        newRefsByFunc ms name a → ∀ v ∈ visits refRefsByFunc ms, ∀ p,
        Sighted pass refSymbolsByAddr windowBytes newRefsByFunc v p → p.name = name →
        (name, a, tierForScore v.1.similarity) ∈ stated (propagateLabels pass refSymbolsByAddr
          windowBytes refRefsByFunc newRefsByFunc ms) := by
      intro name a hsole v hv p hsighted hname
      obtain ⟨m, hm, hvm⟩ := List.mem_flatMap.mp hv
      obtain ⟨r, hr, rfl⟩ := List.mem_map.mp hvm
      have hperm : (m :: ms.erase m).Perm ms := (List.perm_cons_erase hm).symm
      have hsole' := hsole.perm hperm
      obtain ⟨tier, hstated, hstated', _⟩ := hfree _ hperm name a hsole
      have hfirst := stated_of_sighter_first hsole' hr hsighted hname
      rwa [tier_unique_of_sole hsole' hfirst hstated']
    intro name a hsole v hv p hsighted hname v' hv' p' hsighted' hname'
    exact tier_unique_of_sole hsole (hgiven name a hsole v hv p hsighted hname)
      (hgiven name a hsole v' hv' p' hsighted' hname')
  · intro hone ms' hperm name a hsole
    obtain ⟨tier, hstated⟩ := exists_stated hsole
    obtain ⟨tier', hstated'⟩ := exists_stated (hsole.perm hperm)
    obtain ⟨v, hv, p, hsighted, hname, rfl⟩ := exists_sighter_of_stated hsole hstated
    obtain ⟨v', hv', p', hsighted', hname', rfl⟩ :=
      exists_sighter_of_stated (hsole.perm hperm) hstated'
    have htier := hone name a hsole v hv p hsighted hname
    refine ⟨_, hstated, ?_, ?_⟩
    · rw [htier v' ((mem_visits_perm hperm).mp hv') p' hsighted' hname']
      exact hstated'
    · intro h
      obtain ⟨w, hw, q, hq, hqname, hhigh⟩ := h
      exact (htier w hw q hq hqname).trans hhigh

theorem soleSighted_of_soleAddress {name : String} {a : Nat}
    (h : SoleAddress (sightings pass refSymbolsByAddr windowBytes refRefsByFunc newRefsByFunc ms)
      name a) :
    SoleSighted pass refSymbolsByAddr windowBytes refRefsByFunc newRefsByFunc ms name a := by
  obtain ⟨⟨p, hp, hname⟩, hone⟩ := h
  obtain ⟨v, hv, hsighted⟩ := mem_sightings.mp hp
  refine ⟨⟨v, hv, p, hsighted, hname⟩, ?_⟩
  intro v' hv' p' hsighted' hname'
  exact hone p' (mem_sightings.mpr ⟨v', hv', hsighted'⟩) hname'

end Order

/-- The labels of either pass are free of the order of the matches exactly when no name with
one address is sighted by a match of tier medium and by one of tier high. -/
theorem labels_orderFree_iff (refRefsByFunc newRefsByFunc refRamByFunc newRamByFunc :
      Dict Nat (List DataRef)) (ms : List MatchedFunction)
    (refSymbolsByAddr : Dict Nat ReferenceSymbol) (windowBytes : Nat) :
    (OrderFree dataPass refSymbolsByAddr windowBytes refRefsByFunc newRefsByFunc ms
        (fun ms => propagateDataLabels refRefsByFunc newRefsByFunc ms refSymbolsByAddr
          windowBytes) ↔
      OneTier dataPass refSymbolsByAddr windowBytes refRefsByFunc newRefsByFunc ms) ∧
    (OrderFree ramPass refSymbolsByAddr windowBytes refRamByFunc newRamByFunc ms
        (fun ms => propagateRamLabels refRamByFunc newRamByFunc ms refSymbolsByAddr
          windowBytes) ↔
      OneTier ramPass refSymbolsByAddr windowBytes refRamByFunc newRamByFunc ms) :=
  ⟨orderFree_propagateLabels_iff, orderFree_propagateLabels_iff⟩

/-! ### A high match behind a medium one -/

def mapFlash : ReferenceSymbol := ⟨"map_flash", 0x5000, .data⟩

def labelledReads : Dict Nat (List DataRef) :=
  Dict.ofList [(0x100, [⟨4, 0x5000, some "map_flash", .read⟩]),
    (0x200, [⟨8, 0x5000, some "map_flash", .read⟩])]

def newReads : Dict Nat (List DataRef) :=
  Dict.ofList [(0x110, [⟨4, 0x5678, none, .read⟩]), (0x210, [⟨8, 0x5678, none, .read⟩])]

def mediumThenHigh : List MatchedFunction :=
  [⟨"f1", 0x100, 0x110, 9 / 10, "vt_diff", ""⟩, ⟨"f2", 0x200, 0x210, 97 / 100, "vt_diff", ""⟩]

/-- The label is medium, and would be high with the two matches exchanged. -/
theorem mediumThenHigh_not_orderFree :
    ¬ OrderFree dataPass (Dict.ofList [(0x5000, mapFlash)]) 8 labelledReads newReads
      mediumThenHigh (fun ms => propagateDataLabels labelledReads newReads ms
        (Dict.ofList [(0x5000, mapFlash)]) 8) := by
  intro hfree
  have hsightings : sightings dataPass (Dict.ofList [(0x5000, mapFlash)]) 8 labelledReads newReads
      mediumThenHigh = [⟨"map_flash", 0x5000, 0x5678, .medium, "data_refs"⟩,
        ⟨"map_flash", 0x5000, 0x5678, .high, "data_refs"⟩] := by decide +kernel
  have hsole := soleSighted_of_soleAddress (a := 0x5678) (by
    rw [hsightings]
    exact ⟨⟨_, List.mem_cons_self, rfl⟩, by decide⟩)
  obtain ⟨tier, hstated, hstated', _⟩ :=
    hfree mediumThenHigh.reverse (List.reverse_perm _) _ _ hsole
  have hmedium : stated (propagateDataLabels labelledReads newReads mediumThenHigh
      (Dict.ofList [(0x5000, mapFlash)]) 8) = [("map_flash", 0x5678, .medium)] := by decide +kernel
  have hhigh : stated (propagateDataLabels labelledReads newReads mediumThenHigh.reverse
      (Dict.ofList [(0x5000, mapFlash)]) 8) = [("map_flash", 0x5678, .high)] := by decide +kernel
  rw [hmedium] at hstated
  rw [hhigh] at hstated'
  have htiers := (List.mem_singleton.mp hstated).symm.trans (List.mem_singleton.mp hstated')
  exact absurd htiers (by decide)

end RomAnalyzer.DataRefs
