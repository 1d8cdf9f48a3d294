import RomAnalyzer.Callgraph.Align
import RomAnalyzer.Lib.Loop

/-!
# Gap-fill

Passes over the callers of the reference program are repeated until one of them
adds nothing. The mapping is updated while a pass is under way, so later callers
of the same pass see what earlier ones found.
-/
namespace RomAnalyzer.Callgraph

open Lib
open Ghidra (HeadlessRun)

structure GapState where
  matchedRef : Dict Nat Nat
  matchedNew : List Nat
  results : List MatchedFunction
  changed : Bool

/-- `{m.ref_address: m.new_address for m in existing_matches}` -/
def matchedRefOf (existing : List MatchedFunction) : Dict Nat Nat :=
  Dict.ofList (existing.map fun m => (m.refAddress, m.newAddress))

def gapInit (existing : List MatchedFunction) : GapState where
  matchedRef := matchedRefOf existing
  matchedNew := existing.map MatchedFunction.newAddress
  results := []
  changed := true

section GapFill

variable (refRun newRun : HeadlessRun) (refBytes newBytes : Option Bytes)

/-- The aligned callees of a mapped caller; the size test is looser than in the BFS. -/
def gapPairs (refCallees : List Nat) (newCaller : Nat) : List (Nat × Nat) :=
  lcsAlign refCallees (newRun.calleesOf newCaller) refRun newRun (5 / 10)

def gapMatch (p : Nat × Nat) : MatchedFunction where
  refName := (nameFor p.1 refRun).getD ""
  refAddress := p.1
  newAddress := p.2
  similarity := 7 / 10
  source := "callgraph_gap"

/-- A pair is open when neither side is matched and it passes the gate. -/
def gapOpen (s : GapState) (p : Nat × Nat) : Bool :=
  decide (p.1 ∉ s.matchedRef.keys) && decide (p.2 ∉ s.matchedNew) &&
    passesGate refRun newRun refBytes newBytes p

def gapPair (s : GapState) (p : Nat × Nat) : GapState :=
  if gapOpen refRun newRun refBytes newBytes s p then {
    matchedRef := s.matchedRef.insert p.1 p.2
    matchedNew := s.matchedNew ++ [p.2]
    results := s.results ++ [gapMatch refRun p]
    changed := true }
  else s

def gapCaller (s : GapState) (e : Nat × List Nat) : GapState :=
  match s.matchedRef.get? e.1 with
  | none => s
  | some newCaller =>
    (gapPairs refRun newRun e.2 newCaller).foldl
      (gapPair refRun newRun refBytes newBytes) s

/-- One round of `while changed`. -/
def gapPass (s : GapState) : GapState × Bool :=
  let s := refRun.callees.entries.foldl (gapCaller refRun newRun refBytes newBytes)
    { s with changed := false }
  (s, s.changed)

/-- A pass that goes on matches a callee for good. -/
def gapFuel : Nat := refRun.allCallees.length

def gapFill (existing : List MatchedFunction) : List MatchedFunction :=
  match doWhile (gapPass refRun newRun refBytes newBytes) (gapFuel refRun) (gapInit existing) with
  | some s => s.results
  | none => []

/-- `c` is mapped to `c'` by the existing matches or by one of the results. -/
def MapsTo (existing results : List MatchedFunction) (c c' : Nat) : Prop :=
  (matchedRefOf existing).get? c = some c' ∨
    ∃ m ∈ results, m.refAddress = c ∧ m.newAddress = c'

/-- Some caller pair mapped by `existing` and `results` aligns the pair. -/
def AlignedBy (existing results : List MatchedFunction) (p : Nat × Nat) : Prop :=
  ∃ c c' refCallees, MapsTo existing results c c' ∧
    refRun.callees.get? c = some refCallees ∧ p ∈ gapPairs refRun newRun refCallees c'

/-! ### What one step can do -/

/-- A pair is passed over, or it is matched and opens another round. -/
theorem gapPair_cases (s : GapState) (p : Nat × Nat) :
    (gapOpen refRun newRun refBytes newBytes s p = false ∧
      gapPair refRun newRun refBytes newBytes s p = s) ∨
    (gapOpen refRun newRun refBytes newBytes s p = true ∧
      gapPair refRun newRun refBytes newBytes s p = {
        matchedRef := s.matchedRef.insert p.1 p.2
        matchedNew := s.matchedNew ++ [p.2]
        results := s.results ++ [gapMatch refRun p]
        changed := true }) := by
  unfold gapPair
  cases hopen : gapOpen refRun newRun refBytes newBytes s p with
  | false => exact Or.inl ⟨rfl, by rw [if_neg (by simp)]⟩
  | true => exact Or.inr ⟨rfl, by rw [if_pos rfl]⟩

variable {refRun newRun refBytes newBytes}

theorem gapOpen_eq_true {s : GapState} {p : Nat × Nat}
    (h : gapOpen refRun newRun refBytes newBytes s p = true) :
    p.1 ∉ s.matchedRef.keys ∧ p.2 ∉ s.matchedNew ∧
      passesGate refRun newRun refBytes newBytes p = true := by
  simpa [gapOpen, and_assoc] using h

/-- A mapped caller is never remapped: only unmatched callees are matched. -/
theorem get?_gapPair {s : GapState} {c c' : Nat} (h : s.matchedRef.get? c = some c')
    (p : Nat × Nat) :
    (gapPair refRun newRun refBytes newBytes s p).matchedRef.get? c = some c' := by
  rcases gapPair_cases refRun newRun refBytes newBytes s p with ⟨_, hs⟩ | ⟨hopen, hs⟩
  · rw [hs]
    exact h
  · have hkey : c ∈ s.matchedRef.keys := (Dict.mem_keys_iff _ c).mpr ⟨c', h⟩
    have hne : c ≠ p.1 := fun he => (gapOpen_eq_true hopen).1 (he ▸ hkey)
    rw [hs]
    show (s.matchedRef.insert p.1 p.2).get? c = some c'
    rw [Dict.get?_insert, if_neg hne]
    exact h

/-- What matching the aligned callees of a mapped caller keeps, the caller keeps. -/
theorem gapCaller_induction {P : GapState → Prop} {s : GapState} {e : Nat × List Nat} (hs : P s)
    (hstep : ∀ s c' p, P s → s.matchedRef.get? e.1 = some c' →
      p ∈ gapPairs refRun newRun e.2 c' → P (gapPair refRun newRun refBytes newBytes s p)) :
    P (gapCaller refRun newRun refBytes newBytes s e) := by
  unfold gapCaller
  cases hc : s.matchedRef.get? e.1 with
  | none => exact hs
  | some c' =>
    have hpairs : P ((gapPairs refRun newRun e.2 c').foldl
        (gapPair refRun newRun refBytes newBytes) s) ∧
        ((gapPairs refRun newRun e.2 c').foldl
          (gapPair refRun newRun refBytes newBytes) s).matchedRef.get? e.1 = some c' := by
      refine List.foldlRecOn (motive := fun s => P s ∧ s.matchedRef.get? e.1 = some c')
        _ _ ⟨hs, hc⟩ fun s hs p hp => ?_
      exact ⟨hstep s c' p hs.1 hs.2 hp, get?_gapPair hs.2 p⟩
    exact hpairs.1

/-- ... and a pass keeps. -/
theorem gapPass_induction {P : GapState → Prop} {s : GapState}
    (hreset : P { s with changed := false })
    (hstep : ∀ s c c' refCallees p, P s → refRun.callees.get? c = some refCallees →
      s.matchedRef.get? c = some c' → p ∈ gapPairs refRun newRun refCallees c' →
      P (gapPair refRun newRun refBytes newBytes s p)) :
    P (gapPass refRun newRun refBytes newBytes s).1 := by
  apply List.foldlRecOn refRun.callees.entries _ hreset
  intro s hs e he
  have hcallees := (Dict.mem_entries_iff _ e.1 e.2).mp he
  exact gapCaller_induction hs fun s c' p hs hc hp => hstep s e.1 c' e.2 p hs hcallees hc hp

/-! ### The invariant -/

variable (refRun newRun)

/-- What is matched is what existed or was found; nothing is matched twice; every
result has a caller pair that was mapped before it. -/
structure GapInv (existing : List MatchedFunction) (s : GapState) : Prop where
  maps : ∀ c c', s.matchedRef.get? c = some c' ↔ MapsTo existing s.results c c'
  news : s.matchedNew = (existing ++ s.results).map MatchedFunction.newAddress
  refs_nodup : (s.results.map MatchedFunction.refAddress).Nodup
  news_nodup : (s.results.map MatchedFunction.newAddress).Nodup
  apart : ∀ m ∈ s.results, m.refAddress ∉ existing.map MatchedFunction.refAddress ∧
    m.newAddress ∉ existing.map MatchedFunction.newAddress
  aligned : ∀ before m after, s.results = before ++ m :: after →
    AlignedBy refRun newRun existing before (m.refAddress, m.newAddress)
  made : ∀ m ∈ s.results, ∃ p, m = gapMatch refRun p

variable {refRun newRun} {existing : List MatchedFunction}

theorem mapsTo_append {results : List MatchedFunction} {m : MatchedFunction} {c c' : Nat} :
    MapsTo existing (results ++ [m]) c c' ↔
      MapsTo existing results c c' ∨ m.refAddress = c ∧ m.newAddress = c' := by
  simp only [MapsTo, List.mem_append, List.mem_singleton, or_and_right, exists_or,
    exists_eq_left, or_assoc]

theorem GapInv.mem_keys {s : GapState} (h : GapInv refRun newRun existing s) (a : Nat) :
    a ∈ s.matchedRef.keys ↔ a ∈ (existing ++ s.results).map MatchedFunction.refAddress := by
  have hexisting : (∃ c', (matchedRefOf existing).get? a = some c') ↔
      a ∈ existing.map MatchedFunction.refAddress := by
    rw [← Dict.mem_keys_iff, matchedRefOf, Dict.mem_keys_ofList, List.map_map]
    rfl
  rw [Dict.mem_keys_iff, List.map_append, List.mem_append, ← hexisting]
  simp only [h.maps, MapsTo, exists_or, List.mem_map]
  apply or_congr_right
  constructor
  · intro h
    obtain ⟨c', m, hm, hr, _⟩ := h
    exact ⟨m, hm, hr⟩
  · intro h
    obtain ⟨m, hm, hr⟩ := h
    exact ⟨m.newAddress, m, hm, hr, rfl⟩

theorem gapInv_init (existing : List MatchedFunction) :
    GapInv refRun newRun existing (gapInit existing) where
  maps := by simp [gapInit, MapsTo]
  news := by simp [gapInit]
  refs_nodup := List.nodup_nil
  news_nodup := List.nodup_nil
  apart := fun m hm => absurd hm List.not_mem_nil
  aligned := fun before m after h => by simp [gapInit] at h
  made := fun m hm => absurd hm List.not_mem_nil

theorem gapInv_gapPair {s : GapState} (h : GapInv refRun newRun existing s)
    {c c' : Nat} {refCallees : List Nat} {p : Nat × Nat}
    (hcallees : refRun.callees.get? c = some refCallees)
    (hc : s.matchedRef.get? c = some c') (hp : p ∈ gapPairs refRun newRun refCallees c') :
    GapInv refRun newRun existing (gapPair refRun newRun refBytes newBytes s p) := by
  rcases gapPair_cases refRun newRun refBytes newBytes s p with ⟨_, hs⟩ | ⟨hopen, hs⟩
  · rw [hs]
    exact h
  obtain ⟨href, hnew, _⟩ := gapOpen_eq_true hopen
  have hrefs : p.1 ∉ (existing ++ s.results).map MatchedFunction.refAddress :=
    fun hm => href ((h.mem_keys p.1).mpr hm)
  have hnews : p.2 ∉ (existing ++ s.results).map MatchedFunction.newAddress := h.news ▸ hnew
  rw [List.map_append, List.mem_append, not_or] at hrefs hnews
  rw [hs]
  constructor
  · intro d d'
    show (s.matchedRef.insert p.1 p.2).get? d = some d' ↔ _
    rw [mapsTo_append, ← h.maps, Dict.get?_insert]
    by_cases hd : d = p.1
    · have hnone : s.matchedRef.get? d = none := by
        rw [Dict.get?_eq_none_iff, hd]
        exact href
      simp [hd ▸ hnone, hd, gapMatch]
    · have hd' : ¬ p.1 = d := fun he => hd he.symm
      simp [hd, hd', gapMatch]
  · simp [h.news, gapMatch]
  · rw [List.map_append, List.map_singleton, ← List.concat_eq_append]
    exact List.Nodup.concat hrefs.2 h.refs_nodup
  · rw [List.map_append, List.map_singleton, ← List.concat_eq_append]
    exact List.Nodup.concat hnews.2 h.news_nodup
  · intro m hm
    rcases List.mem_append.mp hm with hm | hm
    · exact h.apart m hm
    · rw [List.mem_singleton.mp hm]
      exact ⟨hrefs.1, hnews.1⟩
  · intro before m after hsplit
    rcases List.eq_nil_or_concat after with rfl | ⟨after, last, rfl⟩
    · obtain ⟨rfl, hm⟩ := List.append_inj' hsplit rfl
      obtain rfl := List.singleton_inj.mp hm
      exact ⟨c, c', refCallees, (h.maps c c').mp hc, hcallees, hp⟩
    · rw [List.concat_eq_append, ← List.cons_append, ← List.append_assoc] at hsplit
      exact h.aligned before m after (List.append_inj' hsplit rfl).1
  · intro m hm
    rcases List.mem_append.mp hm with hm | hm
    · exact h.made m hm
    · exact ⟨p, List.mem_singleton.mp hm⟩

theorem gapInv_gapPass {s : GapState} (h : GapInv refRun newRun existing s) :
    GapInv refRun newRun existing (gapPass refRun newRun refBytes newBytes s).1 := by
  refine gapPass_induction ?_ fun s c c' refCallees p hs hcallees hc hp =>
    gapInv_gapPair hs hcallees hc hp
  exact ⟨h.maps, h.news, h.refs_nodup, h.news_nodup, h.apart, h.aligned, h.made⟩

/-! ### Termination and the fixpoint -/

/-- Callees of the reference program that are still unmatched. -/
def gapMeasure (refRun : HeadlessRun) (s : GapState) : Nat :=
  (refRun.allCallees.toFinset \ s.matchedRef.keys.toFinset).card

theorem mem_allCallees_of_gapPairs {c c' : Nat} {refCallees : List Nat} {p : Nat × Nat}
    (hcallees : refRun.callees.get? c = some refCallees)
    (hp : p ∈ gapPairs refRun newRun refCallees c') : p.1 ∈ refRun.allCallees := by
  have hmem : p.1 ∈ refRun.calleesOf c := by
    rw [HeadlessRun.calleesOf, Dict.getD, hcallees]
    exact (mem_of_mem_lcsAlign hp).1
  exact HeadlessRun.mem_allCallees hmem

theorem gapMeasure_gapPair {s : GapState} {p : Nat × Nat} (hp : p.1 ∈ refRun.allCallees) :
    gapPair refRun newRun refBytes newBytes s p = s ∨
      gapMeasure refRun (gapPair refRun newRun refBytes newBytes s p) < gapMeasure refRun s := by
  rcases gapPair_cases refRun newRun refBytes newBytes s p with ⟨_, hs⟩ | ⟨hopen, hs⟩
  · exact Or.inl hs
  · right
    rw [hs]
    refine Finset.card_lt_card (Finset.ssubset_iff_of_subset ?_ |>.mpr ⟨p.1, ?_, ?_⟩)
    · intro a ha
      rw [Finset.mem_sdiff, List.mem_toFinset, List.mem_toFinset, Dict.mem_keys_insert] at ha
      rw [Finset.mem_sdiff, List.mem_toFinset, List.mem_toFinset]
      exact ⟨ha.1, fun hk => ha.2 (Or.inr hk)⟩
    · rw [Finset.mem_sdiff, List.mem_toFinset, List.mem_toFinset]
      exact ⟨hp, (gapOpen_eq_true hopen).1⟩
    · rw [Finset.mem_sdiff, List.mem_toFinset, List.mem_toFinset, Dict.mem_keys_insert]
      exact fun h => h.2 (Or.inl rfl)

/-- A pass that asks for another one has matched a callee. -/
theorem gapMeasure_gapPass {s : GapState}
    (h : (gapPass refRun newRun refBytes newBytes s).2 = true) :
    gapMeasure refRun (gapPass refRun newRun refBytes newBytes s).1 < gapMeasure refRun s := by
  have hpass : gapMeasure refRun (gapPass refRun newRun refBytes newBytes s).1 ≤
      gapMeasure refRun s ∧ ((gapPass refRun newRun refBytes newBytes s).1.changed = true →
        gapMeasure refRun (gapPass refRun newRun refBytes newBytes s).1 < gapMeasure refRun s) := by
    refine gapPass_induction (P := fun t => gapMeasure refRun t ≤ gapMeasure refRun s ∧
      (t.changed = true → gapMeasure refRun t < gapMeasure refRun s))
      ⟨le_rfl, fun hc => by cases hc⟩ fun t c c' refCallees p ht hcallees _ hp => ?_
    rcases gapMeasure_gapPair (mem_allCallees_of_gapPairs hcallees hp) with hs | hlt
    · rw [hs]
      exact ht
    · have hlt' := hlt.trans_le ht.1
      exact ⟨hlt'.le, fun _ => hlt'⟩
  exact hpass.2 h

theorem gapPair_quiet (s : GapState) (p : Nat × Nat) :
    gapPair refRun newRun refBytes newBytes s p = s ∨
      (gapPair refRun newRun refBytes newBytes s p).changed = true := by
  rcases gapPair_cases refRun newRun refBytes newBytes s p with ⟨_, hs⟩ | ⟨_, hs⟩
  · exact Or.inl hs
  · exact Or.inr (by rw [hs])

theorem gapCaller_quiet (s : GapState) (e : Nat × List Nat) :
    gapCaller refRun newRun refBytes newBytes s e = s ∨
      (gapCaller refRun newRun refBytes newBytes s e).changed = true := by
  unfold gapCaller
  cases s.matchedRef.get? e.1 with
  | none => exact Or.inl rfl
  | some c' =>
    show List.foldl _ s _ = s ∨ (List.foldl _ s _).changed = true
    cases hflag : ((gapPairs refRun newRun e.2 c').foldl
        (gapPair refRun newRun refBytes newBytes) s).changed with
    | true => exact Or.inr rfl
    | false => exact Or.inl (foldl_quiet GapState.changed gapPair_quiet _ s hflag).1

/-- The pass that ends the loop changed nothing: every aligned pair of every mapped
caller was closed to it. -/
theorem gapPass_stop {s : GapState}
    (h : (gapPass refRun newRun refBytes newBytes s).2 = false) :
    (gapPass refRun newRun refBytes newBytes s).1 = { s with changed := false } ∧
      ∀ c c' refCallees, refRun.callees.get? c = some refCallees →
        s.matchedRef.get? c = some c' → ∀ p ∈ gapPairs refRun newRun refCallees c',
          gapOpen refRun newRun refBytes newBytes s p = false := by
  obtain ⟨hsame, hcallers⟩ := foldl_quiet GapState.changed gapCaller_quiet _ _ h
  refine ⟨hsame, fun c c' refCallees hcallees hc p hp => ?_⟩
  have hcaller := hcallers (c, refCallees) ((Dict.mem_entries_iff _ c refCallees).mpr hcallees)
  have hfold : (gapPairs refRun newRun refCallees c').foldl
      (gapPair refRun newRun refBytes newBytes) { s with changed := false } =
        { s with changed := false } := by
    simpa [gapCaller, hc] using hcaller
  have hpairs := (foldl_quiet GapState.changed gapPair_quiet _ _
    (congrArg GapState.changed hfold)).2 p hp
  rcases gapPair_cases refRun newRun refBytes newBytes { s with changed := false } p with
    ⟨hclosed, _⟩ | ⟨_, hs⟩
  · exact hclosed
  · rw [hs] at hpairs
    have hflag := congrArg GapState.changed hpairs
    cases hflag

/-- The run of the loop, with the state before its last pass. -/
theorem gapFill_run (refRun newRun : HeadlessRun) (refBytes newBytes : Option Bytes)
    (existing : List MatchedFunction) :
    ∃ last : GapState, GapInv refRun newRun existing last ∧
      (gapPass refRun newRun refBytes newBytes last).2 = false ∧
      ∀ fuel, gapFuel refRun ≤ fuel →
        doWhile (gapPass refRun newRun refBytes newBytes) fuel (gapInit existing) =
          some { last with changed := false } := by
  have hfuel : gapMeasure refRun (gapInit existing) ≤ gapFuel refRun :=
    (Finset.card_le_card Finset.sdiff_subset).trans (List.toFinset_card_le _)
  obtain ⟨last, hinv, hstop, hrun⟩ :=
    doWhile_total (GapInv refRun newRun existing) (gapMeasure refRun)
      (fun s hs => gapInv_gapPass hs) (fun s _ hb => gapMeasure_gapPass hb) (gapFuel refRun)
      (gapInit existing) (gapInv_init existing) hfuel
  rw [(gapPass_stop hstop).1] at hrun
  exact ⟨last, hinv, hstop, fun fuel hle => doWhile_mono hrun hle⟩

/-- The results of gap-fill are those of a state with the invariant. -/
theorem gapFill_inv (refRun newRun : HeadlessRun) (refBytes newBytes : Option Bytes)
    (existing : List MatchedFunction) :
    ∃ last : GapState, GapInv refRun newRun existing last ∧
      gapFill refRun newRun refBytes newBytes existing = last.results := by
  obtain ⟨last, hinv, _, hrun⟩ := gapFill_run refRun newRun refBytes newBytes existing
  refine ⟨last, hinv, ?_⟩
  rw [gapFill, hrun _ le_rfl]

/-- Gap-fill halts. Its results are new on both sides, each is an aligned pair of a
caller pair mapped by the existing matches or an earlier result, and nothing that
passes the gate is left to match. -/
theorem gapFill_total (refRun newRun : HeadlessRun) (refBytes newBytes : Option Bytes)
    (existing : List MatchedFunction) :
    ∃ s : GapState,
      (∀ fuel, gapFuel refRun ≤ fuel →
        doWhile (gapPass refRun newRun refBytes newBytes) fuel (gapInit existing) = some s) ∧
      gapFill refRun newRun refBytes newBytes existing = s.results ∧
      (s.results.map MatchedFunction.refAddress).Nodup ∧
      (s.results.map MatchedFunction.newAddress).Nodup ∧
      (∀ m ∈ s.results, m.refAddress ∉ existing.map MatchedFunction.refAddress ∧
        m.newAddress ∉ existing.map MatchedFunction.newAddress) ∧
      (∀ before m after, s.results = before ++ m :: after →
        AlignedBy refRun newRun existing before (m.refAddress, m.newAddress)) ∧
      ∀ c c' refCallees, MapsTo existing s.results c c' →
        refRun.callees.get? c = some refCallees →
        ∀ p ∈ gapPairs refRun newRun refCallees c',
          passesGate refRun newRun refBytes newBytes p = true →
          p.1 ∈ (existing ++ s.results).map MatchedFunction.refAddress ∨
            p.2 ∈ (existing ++ s.results).map MatchedFunction.newAddress := by
  obtain ⟨last, hinv, hstop, hrun⟩ := gapFill_run refRun newRun refBytes newBytes existing
  refine ⟨{ last with changed := false }, hrun, ?_, hinv.refs_nodup, hinv.news_nodup,
    hinv.apart, hinv.aligned, ?_⟩
  · rw [gapFill, hrun _ le_rfl]
  · intro c c' refCallees hmaps hcallees p hp hgate
    have hc := (hinv.maps c c').mpr hmaps
    have hpair := (gapPass_stop hstop).2 c c' refCallees hcallees hc p hp
    rw [← hinv.mem_keys]
    show p.1 ∈ last.matchedRef.keys ∨ p.2 ∈ (existing ++ last.results).map _
    rw [← hinv.news]
    by_contra hopen
    rw [not_or] at hopen
    simp [gapOpen, hopen.1, hopen.2, hgate] at hpair

/-- A gap match is named after the program symbol at its reference address, if any. -/
theorem mem_gapFill {m : MatchedFunction}
    (h : m ∈ gapFill refRun newRun refBytes newBytes existing) :
    ∃ p, m = gapMatch refRun p := by
  obtain ⟨last, hinv, hresults⟩ := gapFill_inv refRun newRun refBytes newBytes existing
  rw [hresults] at h
  exact hinv.made m h

end GapFill

end RomAnalyzer.Callgraph
