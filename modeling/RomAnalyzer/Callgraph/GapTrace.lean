import RomAnalyzer.Callgraph.GapFill

/-!
# The callers that gap-fill aligns

Gap-fill with a log of its alignments: which mapped caller was aligned through
which mapping, and what was matched there. The log changes nothing, and what it
records is all there is: the results are the finds of the log in order.
-/
namespace RomAnalyzer.Callgraph

open Lib
open Ghidra (HeadlessRun)

/-- One visit of a mapped caller, with the matches made there. -/
structure CallerAlignment where
  refCaller : Nat
  newCaller : Nat
  found : List MatchedFunction

structure TracedState where
  state : GapState
  log : List CallerAlignment

section GapTrace

variable (refRun newRun : HeadlessRun) (refBytes newBytes : Option Bytes)

def tracedCaller (t : TracedState) (e : Nat × List Nat) : TracedState :=
  match t.state.matchedRef.get? e.1 with
  | none => t
  | some newCaller =>
    let s := gapCaller refRun newRun refBytes newBytes t.state e
    { state := s
      log := t.log ++ [{
        refCaller := e.1
        newCaller := newCaller
        found := s.results.drop t.state.results.length }] }

def tracedPass (t : TracedState) : TracedState × Bool :=
  let t := refRun.callees.entries.foldl (tracedCaller refRun newRun refBytes newBytes)
    { t with state := { t.state with changed := false } }
  (t, t.state.changed)

/-- The alignments of a run of gap-fill, in order. -/
def gapTrace (existing : List MatchedFunction) : List CallerAlignment :=
  match doWhile (tracedPass refRun newRun refBytes newBytes) (gapFuel refRun)
      ⟨gapInit existing, []⟩ with
  | some t => t.log
  | none => []

/-! ### The log changes nothing -/

variable {refRun newRun refBytes newBytes}

theorem tracedCaller_state (t : TracedState) (e : Nat × List Nat) :
    (tracedCaller refRun newRun refBytes newBytes t e).state =
      gapCaller refRun newRun refBytes newBytes t.state e := by
  unfold tracedCaller
  cases hc : t.state.matchedRef.get? e.1 with
  | none => simp [gapCaller, hc]
  | some c' => rfl

theorem foldl_tracedCaller_state (es : List (Nat × List Nat)) (t : TracedState) :
    (es.foldl (tracedCaller refRun newRun refBytes newBytes) t).state =
      es.foldl (gapCaller refRun newRun refBytes newBytes) t.state := by
  induction es generalizing t with
  | nil => rfl
  | cons e es ih => rw [List.foldl_cons, List.foldl_cons, ih, tracedCaller_state]

theorem tracedPass_state (t : TracedState) :
    (tracedPass refRun newRun refBytes newBytes t).1.state =
        (gapPass refRun newRun refBytes newBytes t.state).1 ∧
      (tracedPass refRun newRun refBytes newBytes t).2 =
        (gapPass refRun newRun refBytes newBytes t.state).2 := by
  have hstate : (tracedPass refRun newRun refBytes newBytes t).1.state =
      (gapPass refRun newRun refBytes newBytes t.state).1 :=
    foldl_tracedCaller_state refRun.callees.entries
      { t with state := { t.state with changed := false } }
  exact ⟨hstate, congrArg GapState.changed hstate⟩

/-! ### What the log records -/

theorem get?_gapCaller {s : GapState} {c c' : Nat} (h : s.matchedRef.get? c = some c')
    (e : Nat × List Nat) :
    (gapCaller refRun newRun refBytes newBytes s e).matchedRef.get? c = some c' :=
  gapCaller_induction (P := fun s => s.matchedRef.get? c = some c') h
    fun _ _ p hs _ _ => get?_gapPair hs p

/-- Results are only ever appended. -/
theorem gapCaller_results (s : GapState) (e : Nat × List Nat) :
    s.results <+: (gapCaller refRun newRun refBytes newBytes s e).results := by
  apply gapCaller_induction (P := fun t => s.results <+: t.results) (List.prefix_refl _)
  intro t c' p ht _ _
  rcases gapPair_cases refRun newRun refBytes newBytes t p with ⟨_, hs⟩ | ⟨_, hs⟩
  · rw [hs]
    exact ht
  · rw [hs]
    exact ht.trans (List.prefix_append _ _)

variable (refRun newRun)

/-- The log lists callers with their callees, under mappings that still stand, and
its finds are the results. -/
structure TraceInv (existing : List MatchedFunction) (t : TracedState) : Prop where
  gap : GapInv refRun newRun existing t.state
  callers : ∀ al ∈ t.log, al.refCaller ∈ refRun.callees.keys
  mapped : ∀ al ∈ t.log, t.state.matchedRef.get? al.refCaller = some al.newCaller
  results : t.state.results = t.log.flatMap CallerAlignment.found

variable {refRun newRun} {existing : List MatchedFunction}

theorem traceInv_tracedCaller {t : TracedState} (h : TraceInv refRun newRun existing t)
    {e : Nat × List Nat} (he : e ∈ refRun.callees.entries) :
    TraceInv refRun newRun existing (tracedCaller refRun newRun refBytes newBytes t e) := by
  have hgap : GapInv refRun newRun existing
      (gapCaller refRun newRun refBytes newBytes t.state e) :=
    gapCaller_induction h.gap fun _ _ _ hs hc hp =>
      gapInv_gapPair hs ((Dict.mem_entries_iff _ e.1 e.2).mp he) hc hp
  unfold tracedCaller
  cases hc : t.state.matchedRef.get? e.1 with
  | none => exact h
  | some c' =>
    refine ⟨hgap, ?_, ?_, ?_⟩
    · intro al hal
      rcases List.mem_append.mp hal with hal | hal
      · exact h.callers al hal
      · rw [List.mem_singleton.mp hal]
        exact List.mem_map_of_mem he
    · intro al hal
      rcases List.mem_append.mp hal with hal | hal
      · exact get?_gapCaller (h.mapped al hal) e
      · rw [List.mem_singleton.mp hal]
        exact get?_gapCaller hc e
    · have hprefix : t.state.results <+:
          (gapCaller refRun newRun refBytes newBytes t.state e).results :=
        gapCaller_results t.state e
      obtain ⟨found, hfound⟩ := hprefix
      dsimp only
      rw [List.flatMap_append, ← h.results, ← hfound, List.drop_left]
      simp

theorem traceInv_tracedPass {t : TracedState} (h : TraceInv refRun newRun existing t) :
    TraceInv refRun newRun existing (tracedPass refRun newRun refBytes newBytes t).1 := by
  refine List.foldlRecOn (motive := TraceInv refRun newRun existing) refRun.callees.entries _
    ?_ fun t ht e he => traceInv_tracedCaller ht he
  exact ⟨⟨h.gap.maps, h.gap.news, h.gap.refs_nodup, h.gap.news_nodup, h.gap.apart,
    h.gap.aligned, h.gap.made⟩, h.callers, h.mapped, h.results⟩

/-- A pass visits every caller that is mapped when it starts. -/
theorem exists_alignment_of_foldl {c c' : Nat} (es : List (Nat × List Nat)) (t : TracedState)
    (hc : t.state.matchedRef.get? c = some c') (he : c ∈ es.map Prod.fst) :
    ∃ al ∈ (es.foldl (tracedCaller refRun newRun refBytes newBytes) t).log,
      al.refCaller = c ∧ al.newCaller = c' := by
  have hlog : ∀ (es : List (Nat × List Nat)) (t : TracedState) (al : CallerAlignment),
      al ∈ t.log → al ∈ (es.foldl (tracedCaller refRun newRun refBytes newBytes) t).log := by
    intro es t al hal
    apply List.foldlRecOn (motive := fun t : TracedState => al ∈ t.log) es _ hal
    intro t ht e _
    unfold tracedCaller
    split
    · exact ht
    · exact List.mem_append_left _ ht
  induction es generalizing t with
  | nil => cases he
  | cons e es ih =>
    rw [List.foldl_cons]
    rw [List.map_cons, List.mem_cons] at he
    rcases he with he | he
    · have hvisit : ∃ al ∈ (tracedCaller refRun newRun refBytes newBytes t e).log,
          al.refCaller = c ∧ al.newCaller = c' := by
        unfold tracedCaller
        rw [← he, hc]
        exact ⟨_, List.mem_append_right _ (List.mem_singleton_self _), rfl, rfl⟩
      obtain ⟨al, hal, hpair⟩ := hvisit
      exact ⟨al, hlog es _ al hal, hpair⟩
    · apply ih _ _ he
      rw [tracedCaller_state]
      exact get?_gapCaller hc e

/-! ### The whole run -/

/-- The log of a run of gap-fill: its finds are the results, every alignment goes
through a mapping of the existing matches or of a result, and every mapped caller
is aligned. -/
theorem gapTrace_run (refRun newRun : HeadlessRun) (refBytes newBytes : Option Bytes)
    (existing : List MatchedFunction) :
    gapFill refRun newRun refBytes newBytes existing =
        (gapTrace refRun newRun refBytes newBytes existing).flatMap CallerAlignment.found ∧
      (∀ al ∈ gapTrace refRun newRun refBytes newBytes existing,
        al.refCaller ∈ refRun.callees.keys ∧
          MapsTo existing (gapFill refRun newRun refBytes newBytes existing)
            al.refCaller al.newCaller) ∧
      ∀ c ∈ refRun.callees.keys, ∀ c',
        MapsTo existing (gapFill refRun newRun refBytes newBytes existing) c c' →
        ∃ al ∈ gapTrace refRun newRun refBytes newBytes existing,
          al.refCaller = c ∧ al.newCaller = c' := by
  have hinit : TraceInv refRun newRun existing ⟨gapInit existing, []⟩ :=
    ⟨gapInv_init existing, by simp, by simp, rfl⟩
  have hfuel : gapMeasure refRun (gapInit existing) ≤ gapFuel refRun :=
    (Finset.card_le_card Finset.sdiff_subset).trans (List.toFinset_card_le _)
  have hpass : ∀ t, TraceInv refRun newRun existing t →
      TraceInv refRun newRun existing (tracedPass refRun newRun refBytes newBytes t).1 :=
    fun t ht => traceInv_tracedPass ht
  have hdec : ∀ t : TracedState, TraceInv refRun newRun existing t →
      (tracedPass refRun newRun refBytes newBytes t).2 = true →
      gapMeasure refRun (tracedPass refRun newRun refBytes newBytes t).1.state <
        gapMeasure refRun t.state := by
    intro t _ hb
    rw [(tracedPass_state t).1]
    exact gapMeasure_gapPass ((tracedPass_state t).2 ▸ hb)
  have hround : ∀ (s : GapState) (t : TracedState), s = t.state →
      (gapPass refRun newRun refBytes newBytes s).1 =
          (tracedPass refRun newRun refBytes newBytes t).1.state ∧
        (gapPass refRun newRun refBytes newBytes s).2 =
          (tracedPass refRun newRun refBytes newBytes t).2 := by
    intro s t hst
    rw [hst]
    exact ⟨(tracedPass_state t).1.symm, (tracedPass_state t).2.symm⟩
  obtain ⟨last, hinv, hstop, hrun⟩ := doWhile_total (TraceInv refRun newRun existing)
    (fun t => gapMeasure refRun t.state) hpass hdec (gapFuel refRun) _ hinit hfuel
  obtain ⟨s, hs, hR⟩ := doWhile_simulates (fun (s : GapState) (t : TracedState) => s = t.state)
    hround (gapFuel refRun) (gapInit existing) _ rfl _ hrun
  have hfill : gapFill refRun newRun refBytes newBytes existing =
      (tracedPass refRun newRun refBytes newBytes last).1.state.results := by
    rw [gapFill, hs, ← hR]
  have htrace : gapTrace refRun newRun refBytes newBytes existing =
      (tracedPass refRun newRun refBytes newBytes last).1.log := by
    rw [gapTrace, hrun]
  have hend := hpass last hinv
  rw [hfill, htrace]
  refine ⟨hend.results, ?_, ?_⟩
  · intro al hal
    exact ⟨hend.callers al hal, (hend.gap.maps _ _).mp (hend.mapped al hal)⟩
  · intro c hc c' hmaps
    -- the last pass changes nothing, so it starts with every mapping there is
    have hquiet := (gapPass_stop ((tracedPass_state last).2 ▸ hstop)).1
    have hget := (hend.gap.maps c c').mpr hmaps
    rw [(tracedPass_state last).1, hquiet] at hget
    exact exists_alignment_of_foldl _ _ hget hc

end GapTrace

end RomAnalyzer.Callgraph
