import RomAnalyzer.RamSignature

/-!
# The best match on both sides

A reference function that is dropped, or that has its best elsewhere, no longer competes
for the new functions it also fits. So a match is the strict best of its reference
function, but of its new function only among those whose own best it is.
-/
namespace RomAnalyzer.RamSignature

open Lib

section Pairs

variable (refSigs newSigs : Dict Nat (Finset String)) (existing : List MatchedFunction)
  (minShared : Nat) (minJaccard : ℚ)

/-- Two unmatched functions that meet the thresholds, with their similarity. -/
def SigPair (r n : Nat) (j : ℚ) : Prop :=
  ∃ ref new, refSigs.get? r = some ref ∧ newSigs.get? n = some new ∧
    r ∉ existing.map MatchedFunction.refAddress ∧ n ∉ existing.map MatchedFunction.newAddress ∧
    minShared ≤ (ref ∩ new).card ∧ minJaccard ≤ jaccard ref new ∧ j = jaccard ref new

/-- No other new function is as similar to the reference function. -/
def SoleBestNew (r n : Nat) (j : ℚ) : Prop :=
  SigPair refSigs newSigs existing minShared minJaccard r n j ∧
    ∀ n' j', SigPair refSigs newSigs existing minShared minJaccard r n' j' → n' ≠ n → j' < j

/-- Every match is a pair, and each other pair with its reference function or with its
new function is less similar. -/
def BestOnBothSides (refSymbolsByAddr : Dict Nat ReferenceSymbol) : Prop :=
  ∀ m ∈ matchByRamSignature refSigs newSigs existing refSymbolsByAddr minShared minJaccard,
    SigPair refSigs newSigs existing minShared minJaccard m.refAddress m.newAddress m.similarity ∧
    (∀ n j, SigPair refSigs newSigs existing minShared minJaccard m.refAddress n j →
      n ≠ m.newAddress → j < m.similarity) ∧
    ∀ r j, SigPair refSigs newSigs existing minShared minJaccard r m.newAddress j →
      r ≠ m.refAddress → j < m.similarity

/-- Where one reference function is the most similar of those that have `n` as their
sole best, it is more similar to `n` than those that have not. -/
def NoCloserOutsider : Prop :=
  ∀ r n j, SoleBestNew refSigs newSigs existing minShared minJaccard r n j →
    (∀ r' j', SoleBestNew refSigs newSigs existing minShared minJaccard r' n j' → r' ≠ r →
      j' < j) →
    ∀ r' j', SigPair refSigs newSigs existing minShared minJaccard r' n j' →
      ¬ SoleBestNew refSigs newSigs existing minShared minJaccard r' n j' → j' < j

end Pairs

/-! ### What a reduction keeps -/

/-- The sole best is strictly better than all others. -/
theorem soleBest_eq_some_iff {cands : List SigCandidate} (hnodup : cands.Nodup)
    {c : SigCandidate} :
    soleBest cands = some c ↔ c ∈ cands ∧ ∀ d ∈ cands, d ≠ c → d.jaccard < c.jaccard := by
  constructor
  · intro h
    refine ⟨mem_of_soleBest h, ?_⟩
    intro d hd hne
    unfold soleBest at h
    split at h
    · cases h
    rename_i best hbest
    split at h
    · rename_i x hx
      obtain rfl := Option.some.inj h
      have hx' : x ∈ cands.filter fun c => c.jaccard = best.jaccard :=
        hx ▸ List.mem_singleton_self x
      have htop : x.jaccard = best.jaccard := of_decide_eq_true (List.mem_filter.mp hx').2
      have hle : d.jaccard ≤ best.jaccard := List.le_of_mem_argmax hd hbest
      apply lt_of_le_of_ne (htop ▸ hle)
      intro htie
      have hd' : d ∈ cands.filter fun c => c.jaccard = best.jaccard :=
        List.mem_filter.mpr ⟨hd, decide_eq_true (htie.trans htop)⟩
      rw [hx] at hd'
      exact hne (List.mem_singleton.mp hd')
    · cases h
  · intro hgiven
    obtain ⟨hc, hbest⟩ := hgiven
    have hmax : maxBy SigCandidate.jaccard cands = some c := maxBy_eq_some_of_strict hc hbest
    have htop : (cands.filter fun d => d.jaccard = c.jaccard) = [c] := by
      apply eq_singleton_of_nodup (hnodup.filter _)
      · exact List.mem_filter.mpr ⟨hc, decide_eq_true rfl⟩
      · intro d hd
        obtain ⟨hmem, heq⟩ := List.mem_filter.mp hd
        by_contra hne
        exact absurd (of_decide_eq_true heq) (ne_of_lt (hbest d hmem hne))
    unfold soleBest
    rw [hmax]
    dsimp only
    rw [htop]

/-- A reduction keeps what is strictly better than the others of its group. -/
theorem mem_reduceTies_iff {key : SigCandidate → Nat} {cands : List SigCandidate}
    (hnodup : cands.Nodup) {c : SigCandidate} :
    c ∈ reduceTies key cands ↔
      c ∈ cands ∧ ∀ d ∈ cands, key d = key c → d ≠ c → d.jaccard < c.jaccard := by
  have hgroup : ∀ k, (cands.filter fun d => key d = k).Nodup := fun k => hnodup.filter _
  have hmem : ∀ d k, d ∈ (cands.filter fun d => key d = k) ↔ d ∈ cands ∧ key d = k := by
    intro d k
    rw [List.mem_filter, decide_eq_true_iff]
  rw [reduceTies, List.mem_filterMap]
  constructor
  · intro h
    obtain ⟨e, he, hc⟩ := h
    obtain ⟨hfilter, _⟩ := (Dict.mem_entries_groupBy key cands e.1 e.2).mp he
    rw [hfilter] at hc
    obtain ⟨hcmem, hbest⟩ := (soleBest_eq_some_iff (hgroup e.1)).mp hc
    obtain ⟨hc, hkey⟩ := (hmem c e.1).mp hcmem
    refine ⟨hc, fun d hd hsame hne => ?_⟩
    exact hbest d ((hmem d e.1).mpr ⟨hd, hsame.trans hkey⟩) hne
  · intro h
    obtain ⟨hc, hbest⟩ := h
    have hown : c ∈ cands.filter fun d => key d = key c := (hmem c _).mpr ⟨hc, rfl⟩
    refine ⟨(key c, cands.filter fun d => key d = key c), ?_, ?_⟩
    · exact (Dict.mem_entries_groupBy key cands _ _).mpr ⟨rfl, c, hc, rfl⟩
    · apply (soleBest_eq_some_iff (hgroup _)).mpr
      refine ⟨hown, fun d hd hne => ?_⟩
      obtain ⟨hd, hsame⟩ := (hmem d _).mp hd
      exact hbest d hd hsame hne

/-! ### The two reductions over the maps -/

section Matches

variable {refSigs newSigs : Dict Nat (Finset String)} {existing : List MatchedFunction}
  {minShared : Nat} {minJaccard : ℚ}

theorem SigPair.similarity_eq {r n : Nat} {j j' : ℚ}
    (h : SigPair refSigs newSigs existing minShared minJaccard r n j)
    (h' : SigPair refSigs newSigs existing minShared minJaccard r n j') : j = j' := by
  obtain ⟨ref, new, href, hnew, _, _, _, _, rfl⟩ := h
  obtain ⟨ref', new', href', hnew', _, _, _, _, rfl⟩ := h'
  rw [href, Option.some.injEq] at href'
  rw [hnew, Option.some.injEq] at hnew'
  rw [href', hnew']

theorem mem_sigCandidates_iff {c : SigCandidate} :
    c ∈ sigCandidates refSigs newSigs existing minShared minJaccard ↔
      SigPair refSigs newSigs existing minShared minJaccard c.refAddress c.newAddress
        c.jaccard := by
  simp only [sigCandidates, List.mem_flatMap, List.mem_filterMap, List.mem_filter,
    decide_eq_true_iff, sigCandidate_eq_some_iff, SigPair]
  constructor
  · intro h
    obtain ⟨ref, ⟨href, hrefFree⟩, new, ⟨hnew, hnewFree⟩, hshared, hlow, rfl⟩ := h
    exact ⟨ref.2, new.2, (Dict.mem_entries_iff _ _ _).mp href, (Dict.mem_entries_iff _ _ _).mp hnew,
      hrefFree, hnewFree, hshared, hlow, rfl⟩
  · intro h
    obtain ⟨ref, new, href, hnew, hrefFree, hnewFree, hshared, hlow, hj⟩ := h
    refine ⟨(c.refAddress, ref), ⟨(Dict.mem_entries_iff _ _ _).mpr href, hrefFree⟩,
      (c.newAddress, new), ⟨(Dict.mem_entries_iff _ _ _).mpr hnew, hnewFree⟩, hshared, hlow, ?_⟩
    rw [← hj]

/-- No pair of functions is a candidate twice. -/
theorem sigCandidates_nodup (refSigs newSigs : Dict Nat (Finset String))
    (existing : List MatchedFunction) (minShared : Nat) (minJaccard : ℚ) :
    (sigCandidates refSigs newSigs existing minShared minJaccard).Nodup := by
  have hrefs : (refSigs.entries.filter fun e =>
      e.1 ∉ existing.map MatchedFunction.refAddress).Pairwise fun e e' => e.1 ≠ e'.1 :=
    (List.pairwise_map.mp refSigs.nodup).filter _
  have hnews : (newSigs.entries.filter fun e =>
      e.1 ∉ existing.map MatchedFunction.newAddress).Pairwise fun e e' => e.1 ≠ e'.1 :=
    (List.pairwise_map.mp newSigs.nodup).filter _
  unfold sigCandidates
  apply List.nodup_flatMap.mpr
  constructor
  · intro ref _
    apply List.pairwise_filterMap.mpr
    apply hnews.imp
    rintro e e' hne c hc c' hc' rfl
    obtain ⟨_, _, rfl⟩ := sigCandidate_eq_some_iff.mp hc
    obtain ⟨_, _, hc'⟩ := sigCandidate_eq_some_iff.mp hc'
    exact hne (congrArg SigCandidate.newAddress hc')
  · apply hrefs.imp
    intro e e' hne c hc hc'
    obtain ⟨_, _, hc⟩ := List.mem_filterMap.mp hc
    obtain ⟨_, _, hc'⟩ := List.mem_filterMap.mp hc'
    obtain ⟨_, _, rfl⟩ := sigCandidate_eq_some_iff.mp hc
    obtain ⟨_, _, hc'⟩ := sigCandidate_eq_some_iff.mp hc'
    exact hne (congrArg SigCandidate.refAddress hc')

theorem eq_of_addresses {c d : SigCandidate} (hj : c.jaccard = d.jaccard)
    (href : c.refAddress = d.refAddress) (hnew : c.newAddress = d.newAddress) : c = d := by
  cases c
  cases d
  cases hj
  cases href
  cases hnew
  rfl

/-- The first reduction leaves the reference functions with a sole best. -/
theorem mem_newToBest_iff {c : SigCandidate} :
    c ∈ reduceTies SigCandidate.refAddress
        (sigCandidates refSigs newSigs existing minShared minJaccard) ↔
      SoleBestNew refSigs newSigs existing minShared minJaccard c.refAddress c.newAddress
        c.jaccard := by
  rw [mem_reduceTies_iff (sigCandidates_nodup _ _ _ _ _), mem_sigCandidates_iff]
  apply and_congr_right
  intro hc
  constructor
  · intro h n j hpair hne
    apply h ⟨j, c.refAddress, n⟩ (mem_sigCandidates_iff.mpr hpair) rfl
    exact fun he => hne (congrArg SigCandidate.newAddress he)
  · intro h d hd href hne
    have hpair := mem_sigCandidates_iff.mp hd
    rw [href] at hpair
    apply h d.newAddress d.jaccard hpair
    intro hnew
    rw [hnew] at hpair
    exact hne (eq_of_addresses (hpair.similarity_eq hc) href hnew)

/-- The second one leaves the most similar of those that share their sole best. -/
theorem mem_survivors_iff {c : SigCandidate} :
    c ∈ reduceTies SigCandidate.newAddress (reduceTies SigCandidate.refAddress
        (sigCandidates refSigs newSigs existing minShared minJaccard)) ↔
      SoleBestNew refSigs newSigs existing minShared minJaccard c.refAddress c.newAddress
        c.jaccard ∧
      ∀ r j, SoleBestNew refSigs newSigs existing minShared minJaccard r c.newAddress j →
        r ≠ c.refAddress → j < c.jaccard := by
  have hnodup := List.Nodup.of_map _ (nodup_map_reduceTies SigCandidate.refAddress
    (sigCandidates refSigs newSigs existing minShared minJaccard))
  rw [mem_reduceTies_iff hnodup, mem_newToBest_iff]
  apply and_congr_right
  intro hc
  constructor
  · intro h r j hbest hne
    apply h ⟨j, r, c.newAddress⟩ (mem_newToBest_iff.mpr hbest) rfl
    exact fun he => hne (congrArg SigCandidate.refAddress he)
  · intro h d hd hnew hne
    have hbest := mem_newToBest_iff.mp hd
    rw [hnew] at hbest
    apply h d.refAddress d.jaccard hbest
    intro href
    rw [href] at hbest
    exact hne (eq_of_addresses (hbest.1.similarity_eq hc.1) href hnew)

/-- The matches are the best on both sides exactly when no reference function that does
not compete for a new function is as similar to it as the one that wins it. -/
theorem bestOnBothSides_iff (refSigs newSigs : Dict Nat (Finset String))
    (existing : List MatchedFunction) (minShared : Nat) (minJaccard : ℚ)
    (refSymbolsByAddr : Dict Nat ReferenceSymbol) :
    BestOnBothSides refSigs newSigs existing minShared minJaccard refSymbolsByAddr ↔
      NoCloserOutsider refSigs newSigs existing minShared minJaccard := by
  constructor
  · intro h r n j hbest hwins r' j' hpair houtside
    have hmem : sigMatch refSymbolsByAddr ⟨j, r, n⟩ ∈
        matchByRamSignature refSigs newSigs existing refSymbolsByAddr minShared minJaccard :=
      List.mem_map_of_mem (mem_survivors_iff.mpr ⟨hbest, hwins⟩)
    apply (h _ hmem).2.2 r' j' hpair
    intro hr
    have hrr : r' = r := hr
    subst hrr
    exact houtside (hpair.similarity_eq hbest.1 ▸ hbest)
  · intro h m hm
    obtain ⟨c, hc, rfl⟩ := List.mem_map.mp hm
    obtain ⟨hbest, hwins⟩ := mem_survivors_iff.mp hc
    refine ⟨hbest.1, hbest.2, ?_⟩
    intro r j hpair hne
    by_cases hcompetes : SoleBestNew refSigs newSigs existing minShared minJaccard r
        c.newAddress j
    · exact hwins r j hcompetes hne
    · exact h _ _ _ hbest hwins r j hpair hcompetes

/-- `0x1000` fits both new functions equally well, `0x2000` only the first, and worse. -/
def outsiderRefSigs : Dict Nat (Finset String) :=
  Dict.ofList [(0x1000, {"rpm", "load", "tps", "duty"}), (0x2000, {"rpm", "load", "ect"})]

def outsiderNewSigs : Dict Nat (Finset String) :=
  Dict.ofList [(0x5000, {"rpm", "load", "tps", "duty", "ect"}),
    (0x6000, {"rpm", "load", "tps", "duty", "iat"})]

/-- The tied function is dropped before the new side is compared, so the worse one is
matched. -/
theorem outsider_not_compared :
    (matchByRamSignature outsiderRefSigs outsiderNewSigs [] Dict.empty).map
        (fun m => (m.refAddress, m.newAddress, m.similarity)) = [(0x2000, 0x5000, 3 / 5)] ∧
      ¬ BestOnBothSides outsiderRefSigs outsiderNewSigs [] 3 (6 / 10) Dict.empty := by
  have hmatches : (matchByRamSignature outsiderRefSigs outsiderNewSigs [] Dict.empty).map
      (fun m => (m.refAddress, m.newAddress, m.similarity)) = [(0x2000, 0x5000, 3 / 5)] := by
    decide +kernel
  refine ⟨hmatches, fun h => ?_⟩
  have hmem : ((0x2000, 0x5000, 3 / 5) : Nat × Nat × ℚ) ∈
      (matchByRamSignature outsiderRefSigs outsiderNewSigs [] Dict.empty).map
        fun m => (m.refAddress, m.newAddress, m.similarity) := by
    rw [hmatches]
    exact List.mem_singleton_self _
  obtain ⟨m, hm, hfields⟩ := List.mem_map.mp hmem
  obtain ⟨href, hnew, hsimilarity⟩ : m.refAddress = 0x2000 ∧ m.newAddress = 0x5000 ∧
      m.similarity = 3 / 5 := by simpa using hfields
  have hpair : SigPair outsiderRefSigs outsiderNewSigs [] 3 (6 / 10) 0x1000 0x5000 (4 / 5) :=
    ⟨{"rpm", "load", "tps", "duty"}, {"rpm", "load", "tps", "duty", "ect"}, rfl, rfl,
      List.not_mem_nil, List.not_mem_nil, by decide, by decide +kernel, by decide +kernel⟩
  have hless := (h m hm).2.2 0x1000 (4 / 5) (hnew ▸ hpair) (by rw [href]; decide)
  rw [hsimilarity] at hless
  norm_num at hless

end Matches

end RomAnalyzer.RamSignature
