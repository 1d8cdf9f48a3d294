import RomAnalyzer.Types
import RomAnalyzer.Lib.Ranked

/-!
# RAM-signature matching

Unmatched functions are matched by the named RAM variables they access. A
reference function must have one best new function, and that one must in turn
have one best reference function; ties on either side are dropped.
-/
namespace RomAnalyzer.RamSignature

open Lib

/-- Functions that access no labelled variable are left out. -/
def buildRamSignatures (ramDataRefsByFunc : Dict Nat (List DataRef)) (labelMap : Dict Nat String) :
    Dict Nat (Finset String) :=
  Dict.ofList (ramDataRefsByFunc.entries.filterMap fun e =>
    let names := (e.2.filterMap fun r => labelMap.get? r.referencedAddress).toFinset
    if names = ∅ then none else some (e.1, names))

structure SigCandidate where
  jaccard : ℚ
  refAddress : Nat
  newAddress : Nat
  deriving DecidableEq, Repr

/-- The pair of two unmatched functions, if their signatures are close enough. -/
def sigCandidate (minShared : Nat) (minJaccard : ℚ) (ref new : Nat × Finset String) :
    Option SigCandidate :=
  let shared := (ref.2 ∩ new.2).card
  let j : ℚ := shared / (ref.2 ∪ new.2).card
  if shared < minShared then none
  else if j < minJaccard then none
  else some ⟨j, ref.1, new.1⟩

/-- The candidate of highest similarity, unless it is tied. -/
def soleBest (cands : List SigCandidate) : Option SigCandidate :=
  match maxBy SigCandidate.jaccard cands with
  | none => none
  | some best =>
    match cands.filter fun c => c.jaccard = best.jaccard with
    | [c] => some c
    | _ => none

/-- `FUN_{addr:08x}` -/
def autoFunctionName (addr : Nat) : String :=
  "FUN_" ++ String.ofList ((Nat.toDigits 16 addr).leftpad 8 '0')

def sigMatch (refSymbolsByAddr : Dict Nat ReferenceSymbol) (c : SigCandidate) :
    MatchedFunction where
  refName := match refSymbolsByAddr.get? c.refAddress with
    | some sym => sym.name
    | none => autoFunctionName c.refAddress
  refAddress := c.refAddress
  newAddress := c.newAddress
  similarity := c.jaccard
  source := "ram_signature"

/-- The close pairs of functions that are in no existing match. -/
def sigCandidates (refSigs newSigs : Dict Nat (Finset String))
    (existingMatches : List MatchedFunction) (minShared : Nat) (minJaccard : ℚ) :
    List SigCandidate :=
  let unmatchedRef := refSigs.entries.filter fun e =>
    e.1 ∉ existingMatches.map MatchedFunction.refAddress
  let unmatchedNew := newSigs.entries.filter fun e =>
    e.1 ∉ existingMatches.map MatchedFunction.newAddress
  unmatchedRef.flatMap fun ref => unmatchedNew.filterMap (sigCandidate minShared minJaccard ref)

/-- Each group is reduced to its sole best candidate. -/
def reduceTies (key : SigCandidate → Nat) (cands : List SigCandidate) : List SigCandidate :=
  (Dict.groupBy key cands).entries.filterMap fun e => soleBest e.2

def matchByRamSignature (refSigs newSigs : Dict Nat (Finset String))
    (existingMatches : List MatchedFunction) (refSymbolsByAddr : Dict Nat ReferenceSymbol)
    (minShared : Nat := 3) (minJaccard : ℚ := 6 / 10) : List MatchedFunction :=
  let cands := sigCandidates refSigs newSigs existingMatches minShared minJaccard
  let newToBest := reduceTies SigCandidate.refAddress cands
  (reduceTies SigCandidate.newAddress newToBest).map (sigMatch refSymbolsByAddr)

/-- The share of the names in both signatures among the names in either. -/
def jaccard (ref new : Finset String) : ℚ := ((ref ∩ new).card : ℚ) / (ref ∪ new).card

theorem sigCandidate_eq_some_iff {minShared : Nat} {minJaccard : ℚ} {ref new : Nat × Finset String}
    {c : SigCandidate} :
    sigCandidate minShared minJaccard ref new = some c ↔
      minShared ≤ (ref.2 ∩ new.2).card ∧ minJaccard ≤ jaccard ref.2 new.2 ∧
        c = ⟨jaccard ref.2 new.2, ref.1, new.1⟩ := by
  unfold sigCandidate
  dsimp only
  by_cases hshared : (ref.2 ∩ new.2).card < minShared
  · rw [if_pos hshared]
    constructor
    · intro h
      cases h
    · intro hgiven
      obtain ⟨hle, _⟩ := hgiven
      omega
  rw [if_neg hshared]
  by_cases hlow : jaccard ref.2 new.2 < minJaccard
  · rw [jaccard] at hlow
    rw [if_pos hlow]
    constructor
    · intro h
      cases h
    · intro hgiven
      obtain ⟨_, hle, _⟩ := hgiven
      exact absurd hle (not_le.mpr hlow)
  · rw [jaccard] at hlow ⊢
    rw [if_neg hlow, Option.some.injEq]
    constructor
    · rintro rfl
      exact ⟨by omega, not_lt.mp hlow, rfl⟩
    · intro hgiven
      obtain ⟨_, _, rfl⟩ := hgiven
      rfl

theorem mem_of_soleBest {cands : List SigCandidate} {c : SigCandidate}
    (h : soleBest cands = some c) : c ∈ cands := by
  unfold soleBest at h
  split at h
  · cases h
  · split at h
    · rename_i x hx
      obtain rfl := Option.some.inj h
      exact (List.mem_filter.mp (hx ▸ List.mem_singleton_self x)).1
    · cases h

theorem mem_of_mem_reduceTies {key : SigCandidate → Nat} {cands : List SigCandidate}
    {c : SigCandidate} (h : c ∈ reduceTies key cands) : c ∈ cands := by
  obtain ⟨e, he, hc⟩ := List.mem_filterMap.mp h
  have hgroup := ((Dict.mem_entries_groupBy key cands e.1 e.2).mp he).1
  have hmem := mem_of_soleBest hc
  rw [hgroup] at hmem
  exact (List.mem_filter.mp hmem).1

/-- One survivor per group. -/
theorem nodup_map_reduceTies (key : SigCandidate → Nat) (cands : List SigCandidate) :
    ((reduceTies key cands).map key).Nodup := by
  refine (filterMap_map_sublist fun e he c hc => ?_).nodup (Dict.groupBy key cands).nodup
  have hgroup := ((Dict.mem_entries_groupBy key cands e.1 e.2).mp he).1
  have hmem := mem_of_soleBest hc
  rw [hgroup] at hmem
  exact of_decide_eq_true (List.mem_filter.mp hmem).2

/-- A reduction keeps any other labelling that was injective. -/
theorem nodup_map_reduceTies_of_nodup (key label : SigCandidate → Nat)
    {cands : List SigCandidate} (h : (cands.map label).Nodup) :
    ((reduceTies key cands).map label).Nodup := by
  have hnd : (reduceTies key cands).Nodup :=
    List.Nodup.of_map key (nodup_map_reduceTies key cands)
  apply hnd.map_on
  intro c hc d hd hcd
  exact List.inj_on_of_nodup_map h (mem_of_mem_reduceTies hc) (mem_of_mem_reduceTies hd) hcd

section Matches

variable {refSigs newSigs : Dict Nat (Finset String)} {existing : List MatchedFunction}
  {refSymbolsByAddr : Dict Nat ReferenceSymbol} {minShared : Nat} {minJaccard : ℚ}

theorem mem_sigCandidates {c : SigCandidate}
    (h : c ∈ sigCandidates refSigs newSigs existing minShared minJaccard) :
    (∃ sig, refSigs.get? c.refAddress = some sig ∧ minShared ≤ sig.card) ∧
      c.refAddress ∉ existing.map MatchedFunction.refAddress ∧
      c.newAddress ∉ existing.map MatchedFunction.newAddress := by
  obtain ⟨ref, href, hc⟩ := List.mem_flatMap.mp h
  obtain ⟨new, hnew, hcand⟩ := List.mem_filterMap.mp hc
  obtain ⟨hshared, _, rfl⟩ := sigCandidate_eq_some_iff.mp hcand
  rw [List.mem_filter, decide_eq_true_eq] at href hnew
  have hcard : minShared ≤ ref.2.card :=
    hshared.trans (Finset.card_le_card Finset.inter_subset_left)
  exact ⟨⟨ref.2, (Dict.mem_entries_iff _ _ _).mp href.1, hcard⟩, href.2, hnew.2⟩

/-- Signature matches are those of candidates left after both reductions. -/
theorem mem_matchByRamSignature {m : MatchedFunction}
    (h : m ∈ matchByRamSignature refSigs newSigs existing refSymbolsByAddr minShared minJaccard) :
    ∃ c ∈ sigCandidates refSigs newSigs existing minShared minJaccard,
      m = sigMatch refSymbolsByAddr c := by
  obtain ⟨c, hc, rfl⟩ := List.mem_map.mp h
  exact ⟨c, mem_of_mem_reduceTies (mem_of_mem_reduceTies hc), rfl⟩

/-- Signature matches are one-to-one and new on both sides. -/
theorem matchByRamSignature_nodup :
    ((matchByRamSignature refSigs newSigs existing refSymbolsByAddr minShared
        minJaccard).map MatchedFunction.refAddress).Nodup ∧
      ((matchByRamSignature refSigs newSigs existing refSymbolsByAddr minShared
        minJaccard).map MatchedFunction.newAddress).Nodup := by
  unfold matchByRamSignature
  rw [List.map_map, List.map_map]
  constructor
  · exact nodup_map_reduceTies_of_nodup SigCandidate.newAddress SigCandidate.refAddress
      (nodup_map_reduceTies SigCandidate.refAddress _)
  · exact nodup_map_reduceTies SigCandidate.newAddress _

theorem matchByRamSignature_apart {m : MatchedFunction}
    (h : m ∈ matchByRamSignature refSigs newSigs existing refSymbolsByAddr minShared minJaccard) :
    m.refAddress ∉ existing.map MatchedFunction.refAddress ∧
      m.newAddress ∉ existing.map MatchedFunction.newAddress := by
  obtain ⟨c, hc, rfl⟩ := mem_matchByRamSignature h
  exact (mem_sigCandidates hc).2

theorem matchByRamSignature_source {m : MatchedFunction}
    (h : m ∈ matchByRamSignature refSigs newSigs existing refSymbolsByAddr minShared minJaccard) :
    m.source = "ram_signature" := by
  obtain ⟨c, _, rfl⟩ := mem_matchByRamSignature h
  rfl

/-- A signature match is named after the symbol at its address, or automatically; its
function has a signature of enough names. -/
theorem matchByRamSignature_name {m : MatchedFunction}
    (h : m ∈ matchByRamSignature refSigs newSigs existing refSymbolsByAddr minShared minJaccard) :
    (∃ sig, refSigs.get? m.refAddress = some sig ∧ minShared ≤ sig.card) ∧
      ((∃ sym, refSymbolsByAddr.get? m.refAddress = some sym ∧ m.refName = sym.name) ∨
        refSymbolsByAddr.get? m.refAddress = none ∧
          m.refName = autoFunctionName m.refAddress) := by
  obtain ⟨c, hc, rfl⟩ := mem_matchByRamSignature h
  refine ⟨(mem_sigCandidates hc).1, ?_⟩
  cases hsym : refSymbolsByAddr.get? c.refAddress with
  | none => exact Or.inr ⟨hsym, by simp [sigMatch, hsym]⟩
  | some sym => exact Or.inl ⟨sym, hsym, by simp [sigMatch, hsym]⟩

end Matches

/-- The names that the accesses of a function spell under the labels. -/
def signatureOf (refs : Dict Nat (List DataRef)) (labelMap : Dict Nat String) (f : Nat) :
    Finset String :=
  ((refs.getD f []).filterMap fun r => labelMap.get? r.referencedAddress).toFinset

theorem get?_buildRamSignatures {refs : Dict Nat (List DataRef)} {labelMap : Dict Nat String}
    {f : Nat} {names : Finset String}
    (h : (buildRamSignatures refs labelMap).get? f = some names) :
    names = signatureOf refs labelMap f := by
  obtain ⟨e, he, hsig⟩ := List.mem_filterMap.mp (Dict.mem_of_get?_ofList h)
  dsimp only at hsig
  split at hsig
  · cases hsig
  · obtain ⟨rfl, rfl⟩ := Prod.mk.inj (Option.some.inj hsig)
    rw [signatureOf, Dict.getD, (Dict.mem_entries_iff refs e.1 e.2).mp he]
    rfl

end RomAnalyzer.RamSignature
