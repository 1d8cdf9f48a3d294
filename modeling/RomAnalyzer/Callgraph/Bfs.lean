import RomAnalyzer.Callgraph.Align
import RomAnalyzer.Lib.Bfs

/-!
# BFS pre-seed

Discovery from the anchor pairs over aligned callees, three levels deep. The
round below carries the outputs of the search along; without them it is the
round of `Lib.bfsRound` on the graph of alignment steps.
-/
namespace RomAnalyzer.Callgraph

open Lib
open Ghidra (HeadlessRun)

def maxBfsDepth : Nat := 3

def pairOf (m : MatchedFunction) : Nat × Nat := (m.refAddress, m.newAddress)

/-- The label for the new ROM's project. -/
def bfsOverlay (sym : ReferenceSymbol) (p : Nat × Nat) : ReferenceSymbol :=
  ⟨sym.name, p.2, sym.category⟩

def bfsMatch (sym : ReferenceSymbol) (p : Nat × Nat) : MatchedFunction where
  refName := sym.name
  refAddress := p.1
  newAddress := p.2
  similarity := 8 / 10
  source := "callgraph_bfs"

structure PreseedState where
  queue : List (Nat × Nat × Nat)
  matched : List (Nat × Nat)
  newOverlays : List ReferenceSymbol := []
  newMatches : List MatchedFunction := []

section Preseed

variable (refRun newRun : HeadlessRun) (refSymbolsByAddr : Dict Nat ReferenceSymbol)
  (refBytes newBytes : Option Bytes)

/-- The aligned callees of a caller pair. -/
def alignedCallees (p : Nat × Nat) : List (Nat × Nat) :=
  lcsAlign (refRun.calleesOf p.1) (newRun.calleesOf p.2) refRun newRun

/-- One alignment step that passes the gate. -/
def calleeSteps (p : Nat × Nat) : List (Nat × Nat) :=
  (alignedCallees refRun newRun p).filter (passesGate refRun newRun refBytes newBytes)

def preseedPair (depth : Nat) (s : PreseedState) (p : Nat × Nat) : PreseedState :=
  if p ∈ s.matched then s
  else if passesGate refRun newRun refBytes newBytes p = false then s
  else
    let s := { s with
      matched := s.matched ++ [p]
      queue := s.queue ++ [(p.1, p.2, depth + 1)] }
    match refSymbolsByAddr.get? p.1 with
    | none => s
    | some sym => { s with
        newOverlays := s.newOverlays ++ [bfsOverlay sym p]
        newMatches := s.newMatches ++ [bfsMatch sym p] }

def preseedRound (s : PreseedState) : PreseedState × Bool :=
  match s.queue with
  | [] => (s, false)
  | (refAddr, newAddr, depth) :: rest =>
    if maxBfsDepth ≤ depth then ({ s with queue := rest }, true)
    else ((alignedCallees refRun newRun (refAddr, newAddr)).foldl
      (preseedPair refRun newRun refSymbolsByAddr refBytes newBytes depth)
      { s with queue := rest }, true)

def preseedInit (anchors : List MatchedFunction) : PreseedState where
  queue := anchors.map fun a => (a.refAddress, a.newAddress, 0)
  matched := anchors.map pairOf

/-- Every anchor and every pair of callees is queued at most once. -/
def preseedFuel (anchors : List MatchedFunction) : Nat :=
  anchors.length + (refRun.allCallees.product newRun.allCallees).length

def bfsPreseed (anchors : List MatchedFunction) : List ReferenceSymbol × List MatchedFunction :=
  match doWhile (preseedRound refRun newRun refSymbolsByAddr refBytes newBytes)
      (preseedFuel refRun newRun anchors) (preseedInit anchors) with
  | some s => (s.newOverlays, s.newMatches)
  | none => ([], [])

/-- The match of a discovered pair whose reference side has a symbol. -/
def matchOfPair (p : Nat × Nat) : Option MatchedFunction :=
  (refSymbolsByAddr.get? p.1).map fun sym => bfsMatch sym p

def overlayOfPair (p : Nat × Nat) : Option ReferenceSymbol :=
  (refSymbolsByAddr.get? p.1).map fun sym => bfsOverlay sym p

/-- What the search is for: the pairs at alignment distance 1 to 3 from the anchors. -/
def Discovered (anchors : List MatchedFunction) (p : Nat × Nat) : Prop :=
  p ∉ anchors.map pairOf ∧ ∃ k, 1 ≤ k ∧ k ≤ maxBfsDepth ∧
    ReachIn (calleeSteps refRun newRun refBytes newBytes) (anchors.map pairOf) k p

/-! ### The round is a round of the plain search -/

/-- The search state, with the outputs written for the pairs found so far. -/
structure Carries (roots : List (Nat × Nat)) (s : PreseedState) (t : BfsState (Nat × Nat)) :
    Prop where
  queue_eq : s.queue = t.queue.map fun e => (e.1.1, e.1.2, e.2)
  matched_eq : s.matched = t.seen
  outputs : ∃ found, t.seen = roots ++ found ∧
    s.newMatches = found.filterMap (matchOfPair refSymbolsByAddr) ∧
    s.newOverlays = found.filterMap (overlayOfPair refSymbolsByAddr)

variable {refRun newRun refSymbolsByAddr refBytes newBytes} {roots : List (Nat × Nat)}
  {s : PreseedState} {t : BfsState (Nat × Nat)}

theorem carries_preseedPair (h : Carries refSymbolsByAddr roots s t) (depth : Nat)
    {p : Nat × Nat} (hp : passesGate refRun newRun refBytes newBytes p = true) :
    Carries refSymbolsByAddr roots
      (preseedPair refRun newRun refSymbolsByAddr refBytes newBytes depth s p)
      (bfsVisit depth t p) := by
  unfold preseedPair bfsVisit
  rw [h.matched_eq]
  by_cases hm : p ∈ t.seen
  · rw [if_pos hm, if_pos hm]
    exact h
  · rw [if_neg hm, if_neg hm, if_neg (by simp [hp])]
    obtain ⟨found, hseen, hmatches, hoverlays⟩ := h.outputs
    have hq : s.queue ++ [(p.1, p.2, depth + 1)] =
        (t.queue ++ [(p, depth + 1)]).map fun e => (e.1.1, e.1.2, e.2) := by
      rw [h.queue_eq]
      simp
    have hfound : t.seen ++ [p] = roots ++ (found ++ [p]) := by
      rw [hseen, List.append_assoc]
    cases hsym : refSymbolsByAddr.get? p.1 with
    | none =>
      refine ⟨hq, rfl, found ++ [p], hfound, ?_, ?_⟩
      · simp [hmatches, matchOfPair, hsym]
      · simp [hoverlays, overlayOfPair, hsym]
    | some sym =>
      refine ⟨hq, rfl, found ++ [p], hfound, ?_, ?_⟩
      · simp [hmatches, matchOfPair, hsym]
      · simp [hoverlays, overlayOfPair, hsym]

/-- A pair that fails the gate leaves no trace, so the fold sees only the steps. -/
theorem carries_foldl (depth : Nat) (pairs : List (Nat × Nat)) :
    ∀ {s : PreseedState} {t : BfsState (Nat × Nat)}, Carries refSymbolsByAddr roots s t →
      Carries refSymbolsByAddr roots
        (pairs.foldl (preseedPair refRun newRun refSymbolsByAddr refBytes newBytes depth) s)
        ((pairs.filter (passesGate refRun newRun refBytes newBytes)).foldl (bfsVisit depth) t) := by
  induction pairs with
  | nil => exact fun h => h
  | cons p pairs ih =>
    intro s t h
    rw [List.foldl_cons]
    cases hp : passesGate refRun newRun refBytes newBytes p with
    | true =>
      rw [List.filter_cons_of_pos hp, List.foldl_cons]
      exact ih (carries_preseedPair h depth hp)
    | false =>
      have hskip : preseedPair refRun newRun refSymbolsByAddr refBytes newBytes depth s p = s := by
        unfold preseedPair
        rw [if_pos hp]
        split <;> rfl
      rw [List.filter_cons_of_neg (by simp [hp]), hskip]
      exact ih h

theorem carries_round (h : Carries refSymbolsByAddr roots s t) :
    Carries refSymbolsByAddr roots
        (preseedRound refRun newRun refSymbolsByAddr refBytes newBytes s).1
        (bfsRound (calleeSteps refRun newRun refBytes newBytes) maxBfsDepth t).1 ∧
      (preseedRound refRun newRun refSymbolsByAddr refBytes newBytes s).2 =
        (bfsRound (calleeSteps refRun newRun refBytes newBytes) maxBfsDepth t).2 := by
  have hq := h.queue_eq
  unfold preseedRound bfsRound
  cases ht : t.queue with
  | nil =>
    rw [ht, List.map_nil] at hq
    rw [hq]
    exact ⟨h, rfl⟩
  | cons e rest =>
    obtain ⟨p, d⟩ := e
    rw [ht, List.map_cons] at hq
    have hpop : Carries refSymbolsByAddr roots
        { s with queue := rest.map fun e => (e.1.1, e.1.2, e.2) } ⟨rest, t.seen⟩ :=
      ⟨rfl, h.matched_eq, h.outputs⟩
    rw [hq]
    by_cases hd : maxBfsDepth ≤ d
    · simp only [hd, ↓reduceIte]
      exact ⟨hpop, trivial⟩
    · simp only [hd, ↓reduceIte]
      exact ⟨carries_foldl d _ hpop, trivial⟩

variable (refRun newRun refSymbolsByAddr refBytes newBytes)

theorem carries_init (anchors : List MatchedFunction) :
    Carries refSymbolsByAddr (anchors.map pairOf) (preseedInit anchors)
      (bfsInit (anchors.map pairOf)) where
  queue_eq := by simp [preseedInit, bfsInit, pairOf]
  matched_eq := rfl
  outputs := ⟨[], by simp [bfsInit], rfl, rfl⟩

theorem mem_universe_of_calleeSteps {p q : Nat × Nat}
    (h : q ∈ calleeSteps refRun newRun refBytes newBytes p) :
    q ∈ refRun.allCallees.product newRun.allCallees := by
  have halign := mem_of_mem_lcsAlign (List.mem_filter.mp h).1
  exact List.mem_product.mpr ⟨HeadlessRun.mem_allCallees halign.1,
    HeadlessRun.mem_allCallees halign.2⟩

theorem map_pairOf_filterMap (found : List (Nat × Nat)) :
    (found.filterMap (matchOfPair refSymbolsByAddr)).map pairOf =
      found.filter fun p => (refSymbolsByAddr.get? p.1).isSome := by
  induction found with
  | nil => rfl
  | cons p found ih =>
    cases hsym : refSymbolsByAddr.get? p.1 with
    | none => simp [matchOfPair, hsym, ← ih]
    | some sym => simp [matchOfPair, hsym, bfsMatch, pairOf, ← ih]

/-- The run of the search, with the pairs it found. -/
theorem bfsPreseed_run (anchors : List MatchedFunction) :
    ∃ (s : PreseedState) (found : List (Nat × Nat)),
      (∀ fuel, preseedFuel refRun newRun anchors ≤ fuel →
        doWhile (preseedRound refRun newRun refSymbolsByAddr refBytes newBytes) fuel
          (preseedInit anchors) = some s) ∧
      found.Nodup ∧
      (∀ p, p ∈ found ↔ Discovered refRun newRun refBytes newBytes anchors p) ∧
      s.newMatches = found.filterMap (matchOfPair refSymbolsByAddr) ∧
      s.newOverlays = found.filterMap (overlayOfPair refSymbolsByAddr) := by
  have hfuel : (anchors.map pairOf).length + (refRun.allCallees.product newRun.allCallees).length ≤
      preseedFuel refRun newRun anchors := by
    rw [List.length_map]
    exact le_rfl
  obtain ⟨t, found, hrun, hseen, hnd, hfound⟩ :=
    bfs_total (calleeSteps refRun newRun refBytes newBytes) (anchors.map pairOf) maxBfsDepth
      (fun p q hq => mem_universe_of_calleeSteps refRun newRun refBytes newBytes hq) hfuel
  obtain ⟨s, hs, hcarries⟩ := doWhile_simulates (Carries refSymbolsByAddr (anchors.map pairOf))
    (fun s t h => carries_round h) _ _ _ (carries_init refSymbolsByAddr anchors) t hrun
  obtain ⟨found', hseen', hmatches, hoverlays⟩ := hcarries.outputs
  obtain rfl : found' = found := List.append_cancel_left (hseen'.symm.trans hseen)
  refine ⟨s, found', fun fuel hle => doWhile_mono hs hle, hnd, fun p => ?_, hmatches, hoverlays⟩
  rw [hfound p]
  constructor
  · intro h
    obtain ⟨hp, k, hk, hr⟩ := h
    cases hr with
    | root hr => exact absurd hr hp
    | @step j x _ hx hpx => exact ⟨hp, j + 1, by omega, hk, .step hx hpx⟩
  · intro h
    obtain ⟨hp, k, _, hk, hr⟩ := h
    exact ⟨hp, k, hk, hr⟩

/-- The search halts with the discovered pairs, each once: the matches and the
overlays are those of the pairs whose reference side has a symbol. -/
theorem bfsPreseed_finds_discovered (anchors : List MatchedFunction) :
    ∃ (s : PreseedState) (found : List (Nat × Nat)),
      (∀ fuel, preseedFuel refRun newRun anchors ≤ fuel →
        doWhile (preseedRound refRun newRun refSymbolsByAddr refBytes newBytes) fuel
          (preseedInit anchors) = some s) ∧
      bfsPreseed refRun newRun refSymbolsByAddr refBytes newBytes anchors =
        (s.newOverlays, s.newMatches) ∧
      found.Nodup ∧
      (∀ p, p ∈ found ↔ Discovered refRun newRun refBytes newBytes anchors p) ∧
      s.newMatches = found.filterMap (matchOfPair refSymbolsByAddr) ∧
      s.newOverlays = found.filterMap (overlayOfPair refSymbolsByAddr) ∧
      (s.newMatches.map pairOf).Nodup ∧
      ∀ p, p ∈ s.newMatches.map pairOf ↔
        Discovered refRun newRun refBytes newBytes anchors p ∧
          (refSymbolsByAddr.get? p.1).isSome = true := by
  obtain ⟨s, found, hrun, hnd, hfound, hmatches, hoverlays⟩ :=
    bfsPreseed_run refRun newRun refSymbolsByAddr refBytes newBytes anchors
  refine ⟨s, found, hrun, ?_, hnd, hfound, hmatches, hoverlays, ?_, fun p => ?_⟩
  · rw [bfsPreseed, hrun _ le_rfl]
  · rw [hmatches, map_pairOf_filterMap]
    exact hnd.filter _
  · rw [hmatches, map_pairOf_filterMap, List.mem_filter, hfound p]

variable {refRun newRun refSymbolsByAddr refBytes newBytes}

/-- A pre-seed match is named after the symbol at its reference address. -/
theorem mem_bfsPreseed {anchors : List MatchedFunction} {m : MatchedFunction}
    (h : m ∈ (bfsPreseed refRun newRun refSymbolsByAddr refBytes newBytes anchors).2) :
    ∃ p sym, refSymbolsByAddr.get? p.1 = some sym ∧ m = bfsMatch sym p := by
  obtain ⟨s, found, hrun, _, _, hmatches, _⟩ :=
    bfsPreseed_run refRun newRun refSymbolsByAddr refBytes newBytes anchors
  rw [bfsPreseed, hrun _ le_rfl] at h
  dsimp only at h
  rw [hmatches] at h
  obtain ⟨p, _, hp⟩ := List.mem_filterMap.mp h
  obtain ⟨sym, hsym, rfl⟩ := Option.map_eq_some_iff.mp hp
  exact ⟨p, sym, hsym, rfl⟩

end Preseed

end RomAnalyzer.Callgraph
