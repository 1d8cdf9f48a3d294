import RomAnalyzer.RamSignature.Best

/-!
# Signatures of a program and its copy

In a copy a function accesses what it accesses in the reference, but only some of the
variables have their name yet. So its signature there is a part of its own, and of no other
function is it a larger part.
-/
namespace RomAnalyzer.RamSignature

open Lib

theorem get?_buildRamSignatures_of_ne_empty {refs : Dict Nat (List DataRef)}
    {labelMap : Dict Nat String} {f : Nat} (h : signatureOf refs labelMap f ≠ ∅) :
    (buildRamSignatures refs labelMap).get? f = some (signatureOf refs labelMap f) := by
  have hkey : f ∈ (buildRamSignatures refs labelMap).keys := by
    unfold buildRamSignatures
    rw [Dict.mem_keys_ofList, List.mem_map]
    cases hrefs : refs.get? f with
    | none =>
      rw [signatureOf, Dict.getD, hrefs] at h
      exact absurd rfl h
    | some rs =>
      refine ⟨(f, signatureOf refs labelMap f), List.mem_filterMap.mpr ⟨(f, rs), ?_, ?_⟩, rfl⟩
      · exact (Dict.mem_entries_iff _ _ _).mpr hrefs
      · rw [signatureOf, Dict.getD, hrefs] at h ⊢
        exact if_neg h
  obtain ⟨names, hnames⟩ := (Dict.mem_keys_iff _ _).mp hkey
  rw [hnames, get?_buildRamSignatures hnames]

/-- What both sides name, they share with no other function more than with themselves. -/
theorem jaccard_filter_le {known : String → Prop} [DecidablePred known] (ref other : Finset String) :
    jaccard ref (other.filter known) ≤ jaccard ref (ref.filter known) := by
  unfold jaccard
  have hshared : ref ∩ other.filter known ⊆ ref ∩ ref.filter known := by
    intro k hk
    rw [Finset.mem_inter, Finset.mem_filter] at hk ⊢
    exact ⟨hk.1, hk.1, hk.2.2⟩
  have hunion : ref ∪ ref.filter known = ref :=
    Finset.union_eq_left.mpr (Finset.filter_subset known ref)
  rcases ref.eq_empty_or_nonempty with rfl | hne
  · simp
  rw [hunion]
  have hpos : (0 : ℚ) < ref.card := Nat.cast_pos.mpr (Finset.card_pos.mpr hne)
  have hcard : ((ref ∩ other.filter known).card : ℚ) ≤ (ref ∩ ref.filter known).card :=
    Nat.cast_le.mpr (Finset.card_le_card hshared)
  have hlarger : (ref.card : ℚ) ≤ (ref ∪ other.filter known).card :=
    Nat.cast_le.mpr (Finset.card_le_card Finset.subset_union_left)
  exact div_le_div₀ (Nat.cast_nonneg _) hcard hpos hlarger

section Copy

variable {refs news : Dict Nat (List DataRef)} {refLabels newLabels : Dict Nat String}
  {known : String → Prop} [DecidablePred known] {existing : List MatchedFunction}
  {minShared : Nat} {minJaccard : ℚ}

/-- A function that has a sole best in the copy has it in itself. -/
theorem soleBestNew_self
    (hsig : ∀ f, signatureOf news newLabels f = (signatureOf refs refLabels f).filter known)
    (hplace : ∀ m ∈ existing, m.newAddress = m.refAddress) (hshared : 0 < minShared)
    {r n : Nat} {j : ℚ}
    (h : SoleBestNew (buildRamSignatures refs refLabels) (buildRamSignatures news newLabels)
      existing minShared minJaccard r n j) : n = r := by
  by_contra hne
  obtain ⟨⟨ref, new, href, hnew, hrefFree, _, hmany, hclose, rfl⟩, hbest⟩ := h
  have hrefSig := get?_buildRamSignatures href
  have hnewSig := get?_buildRamSignatures hnew
  rw [hsig] at hnewSig
  have hsub : ref ∩ new ⊆ ref ∩ ref.filter known := by
    intro k hk
    rw [hnewSig, Finset.mem_inter, Finset.mem_filter] at hk
    rw [Finset.mem_inter, Finset.mem_filter]
    exact ⟨hk.1, hk.1, hk.2.2⟩
  have hmanySelf : minShared ≤ (ref ∩ ref.filter known).card :=
    hmany.trans (Finset.card_le_card hsub)
  have hself : signatureOf news newLabels r = ref.filter known := by
    rw [hsig, hrefSig]
  have hnonempty : signatureOf news newLabels r ≠ ∅ := by
    rw [hself]
    intro hempty
    rw [hempty, Finset.inter_empty, Finset.card_empty] at hmanySelf
    omega
  have hselfSig := get?_buildRamSignatures_of_ne_empty hnonempty
  rw [hself] at hselfSig
  have hfree : r ∉ existing.map MatchedFunction.newAddress := by
    intro hmem
    obtain ⟨m, hm, hmr⟩ := List.mem_map.mp hmem
    exact hrefFree (List.mem_map.mpr ⟨m, hm, (hplace m hm).symm.trans hmr⟩)
  have hle : jaccard ref new ≤ jaccard ref (ref.filter known) := by
    rw [hnewSig]
    exact jaccard_filter_le ref _
  have hlt := hbest r _ ⟨ref, _, href, hselfSig, hrefFree, hfree, hmanySelf, hclose.trans hle, rfl⟩
    fun hr => hne hr.symm
  exact absurd hlt (not_lt.mpr hle)

/-- Signature matching keeps every function of a copy where it is. -/
theorem matchByRamSignature_self
    (hsig : ∀ f, signatureOf news newLabels f = (signatureOf refs refLabels f).filter known)
    (hplace : ∀ m ∈ existing, m.newAddress = m.refAddress) (hshared : 0 < minShared)
    {refSymbolsByAddr : Dict Nat ReferenceSymbol} {m : MatchedFunction}
    (hm : m ∈ matchByRamSignature (buildRamSignatures refs refLabels)
      (buildRamSignatures news newLabels) existing refSymbolsByAddr minShared minJaccard) :
    m.newAddress = m.refAddress := by
  obtain ⟨c, hc, rfl⟩ := List.mem_map.mp hm
  exact soleBestNew_self hsig hplace hshared (mem_survivors_iff.mp hc).1

end Copy

end RomAnalyzer.RamSignature
