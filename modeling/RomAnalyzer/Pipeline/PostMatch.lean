import RomAnalyzer.EmitLd
import RomAnalyzer.Merge
import RomAnalyzer.Pipeline.Arbitrate

/-!
# The K-Line splice

The splice site is searched in the function of the new ROM that corresponds to
the reference function around the injection location. That function is looked
up among the merged matches by its bare reference address.
-/
namespace RomAnalyzer.Pipeline

open Lib
open Ghidra (HeadlessRun)
open Mode23Bindings (SpliceResolution resolveNearestSite)

/-- Queries to the open project, by program name. -/
structure ProgramQueries where
  ghidriffProgramName : Path → String
  fetchFunctionEntry : String → Nat → Option Nat
  fetchDataReadSites : String → Nat → Nat → List Nat

/-- `{m.ref_address: m for m in matches}` -/
def matchByRef (ms : List MatchedFunction) : Dict Nat MatchedFunction :=
  Dict.ofList (ms.map fun m => (m.refAddress, m))

/-- The entry of the function to search, given that of the reference function. -/
def klineNewContainer (isSelfDiff : Bool) (ms : List MatchedFunction)
    (refContainer : Option Nat) : Option Nat :=
  if isSelfDiff then refContainer
  else
    match refContainer with
    | none => none
    | some rc => ((matchByRef ms).get? rc).map MatchedFunction.newAddress

/-- The first symbol of a name. -/
def addressOf (refSymbols : List ReferenceSymbol) (name : String) : Option Nat :=
  (refSymbols.find? fun s => s.name = name).map ReferenceSymbol.address

/-- `{p.name: p.new_address for p in propagated_all}` -/
def propByName (propagated : List PropagatedSymbol) : Dict String Nat :=
  Dict.ofList (propagated.map fun p => (p.name, p.newAddress))

section Kline

variable (queries : ProgramQueries) (ctx : RomContext) (newProgName : String)
  (merged : MergeResult) (primaryEntry : ReferenceEntry)

/-- The site nearest the injection location's offset, among the reads of the
transmit counter in the corresponding function. -/
def klineResolution (klineRefAddr txcountRef : Nat) : SpliceResolution :=
  let refProgName := queries.ghidriffProgramName primaryEntry.romPath
  let refContainer := queries.fetchFunctionEntry refProgName klineRefAddr
  let newContainer := klineNewContainer ctx.isSelfDiff merged.matches_ refContainer
  let txcountNew := (propByName merged.propagated).getD "sio0_tx_count" txcountRef
  match refContainer, newContainer with
  | some rc, some nc =>
    let expected : Int := nc + ((klineRefAddr : Int) - rc)
    resolveNearestSite (queries.fetchDataReadSites newProgName txcountNew nc) expected
  | _, _ => resolveNearestSite [] 0

/-- The K-Line binding line, when the reference has what it takes to search. -/
def klineLine (refSymbols : List ReferenceSymbol) (refRun : Option HeadlessRun) : Option String :=
  if ctx.emitMode23 = false then none
  else
    match addressOf refSymbols "obd_rest_handler_injection_location",
      addressOf refSymbols "sio0_tx_count", refRun with
    | some klineRefAddr, some txcountRef, some _ =>
      some (EmitLd.emitMode23BindingLine "obd_rest_handler_injection_location"
        (klineResolution queries ctx newProgName merged primaryEntry klineRefAddr txcountRef))
    | _, _, _ => none

end Kline

/-! ### Whose match decides -/

/-- A match of the reference `primary` for the function at `rc`. -/
def IsPrimaryMatch (primary : String) (rc : Nat) (m : MatchedFunction) : Prop :=
  m.reference = primary ∧ m.refAddress = rc

/-- The function to search is the new address of the primary reference's match, and
there is none when the primary has no match. -/
def FollowsPrimary (primary : String) (ms : List MatchedFunction) (rc : Nat)
    (newContainer : Option Nat) : Prop :=
  (∀ a, newContainer = some a → ∃ m ∈ ms, IsPrimaryMatch primary rc m ∧ m.newAddress = a) ∧
    (newContainer = none → ∀ m ∈ ms, ¬ IsPrimaryMatch primary rc m)

/-- The last match for the function at `rc`, of whatever reference. -/
def lastMatchFor (ms : List MatchedFunction) (rc : Nat) : Option MatchedFunction :=
  ms.findRev? fun m => m.refAddress = rc

theorem get?_matchByRef (ms : List MatchedFunction) (rc : Nat) :
    (matchByRef ms).get? rc = lastMatchFor ms rc := by
  rw [matchByRef, Dict.get?_ofList_map, Option.map_id', lastMatchFor]

theorem lastMatchFor_spec {ms : List MatchedFunction} {rc : Nat} {m : MatchedFunction}
    (h : lastMatchFor ms rc = some m) : m ∈ ms ∧ m.refAddress = rc := by
  rw [lastMatchFor, List.findRev?_eq_find?_reverse] at h
  have hrc := List.find?_some h
  exact ⟨List.mem_reverse.mp (List.mem_of_find?_eq_some h), of_decide_eq_true hrc⟩

theorem lastMatchFor_eq_none {ms : List MatchedFunction} {rc : Nat}
    (h : lastMatchFor ms rc = none) : ∀ m ∈ ms, m.refAddress ≠ rc := by
  rw [lastMatchFor, List.findRev?_eq_find?_reverse, List.find?_eq_none] at h
  intro m hm hrc
  exact h m (List.mem_reverse.mpr hm) (decide_eq_true hrc)

theorem mergeMatches_news_nodup (results : List (List MatchedFunction))
    (priority : Merge.Priority) :
    ((Merge.mergeMatches results priority).map MatchedFunction.newAddress).Nodup :=
  nodup_map_key_keepBest _ _ _

/-- For a cross-ROM run the primary reference decides the splice exactly when no
match of another reference is the last one for the container's address; for a
self-diff, exactly when the primary's identity match of the container survived
the merge. -/
theorem klineNewContainer_followsPrimary_iff (results : List (List MatchedFunction))
    (priority : Merge.Priority) (primary : String) (isSelfDiff : Bool) (rc : Nat) :
    FollowsPrimary primary (Merge.mergeMatches results priority) rc
        (klineNewContainer isSelfDiff (Merge.mergeMatches results priority) (some rc)) ↔
      if isSelfDiff then
        ∃ m ∈ Merge.mergeMatches results priority,
          IsPrimaryMatch primary rc m ∧ m.newAddress = rc
      else ∀ m, lastMatchFor (Merge.mergeMatches results priority) rc = some m →
        m.reference = primary := by
  have hnews := mergeMatches_news_nodup results priority
  revert hnews
  generalize Merge.mergeMatches results priority = ms
  intro hnews
  cases isSelfDiff with
  | true =>
    simp only [klineNewContainer, FollowsPrimary, ↓reduceIte]
    constructor
    · intro h
      exact h.1 rc rfl
    · intro h
      refine ⟨fun a ha => ?_, fun hn => by cases hn⟩
      obtain rfl := Option.some.inj ha
      exact h
  | false =>
    simp only [klineNewContainer, Bool.false_eq_true, ↓reduceIte, get?_matchByRef]
    cases hlast : lastMatchFor ms rc with
    | none =>
      have hnone := lastMatchFor_eq_none hlast
      constructor
      · intro _ m hm
        cases hm
      · intro _
        exact ⟨fun a ha => (by cases ha), fun _ m hm hp => hnone m hm hp.2⟩
    | some last =>
      obtain ⟨hmem, href⟩ := lastMatchFor_spec hlast
      constructor
      · intro h m hm
        obtain rfl := Option.some.inj hm
        obtain ⟨p, hp, hprimary, hnew⟩ := h.1 _ rfl
        -- merged matches are told apart by their new address
        obtain rfl := List.inj_on_of_nodup_map hnews hp hmem hnew
        exact hprimary.1
      · intro h
        refine ⟨fun a ha => ?_, fun hn => by cases hn⟩
        exact ⟨last, hmem, ⟨h last rfl, href⟩, Option.some.inj ha⟩

/-- Two references whose address spaces overlap at `0x100`: the second one decides. -/
theorem klineNewContainer_other_reference_decides :
    let primary : MatchedFunction := ⟨"dispatch", 0x100, 0x2000, 1, "vt_diff", "primary"⟩
    let other : MatchedFunction := ⟨"helper", 0x100, 0x3000, 1, "vt_diff", "other"⟩
    let merged := Merge.mergeMatches [[primary], [other]]
      (Dict.ofList [("primary", 10), ("other", 5)])
    klineNewContainer false merged (some 0x100) = some 0x3000 ∧
      ¬ FollowsPrimary "primary" merged 0x100 (klineNewContainer false merged (some 0x100)) := by
  intro primary other merged
  have hmerged : merged = [primary, other] := by decide +kernel
  have hnew : klineNewContainer false merged (some 0x100) = some 0x3000 := by
    rw [hmerged]
    decide +kernel
  refine ⟨hnew, fun h => ?_⟩
  obtain ⟨m, hm, hprimary, haddr⟩ := h.1 _ hnew
  rw [hmerged, List.mem_cons, List.mem_singleton] at hm
  rcases hm with rfl | rfl
  · exact absurd haddr (by decide)
  · exact absurd hprimary.1 (by decide)

end RomAnalyzer.Pipeline
