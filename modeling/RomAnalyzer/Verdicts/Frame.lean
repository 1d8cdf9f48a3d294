import RomAnalyzer.Verdicts

/-!
# What verdicts leave alone

Applying the verdicts of a target gives entries new names and adds entries for gaps, and
nothing else: no entry moves, goes or changes in another field, and items that are not
about the target or decide nothing might as well not be there.
-/
namespace RomAnalyzer.Enrich

open Lib

/-- The item is the target's and decides on a name. -/
def Effective (target : String) (it : ReconcileItem) : Prop :=
  it.target = target ∧ it.verdict ≠ "keep" ∧ it.verdict ≠ "drop"

instance (target : String) (it : ReconcileItem) : Decidable (Effective target it) := by
  unfold Effective
  infer_instance

/-- Some item of the target decides that the entry of the kind at the address has the
name. -/
def DecidesName (items : List ReconcileItem) (target : String) (kind : EntryKind) (addr : Nat)
    (name : String) : Prop :=
  ∃ it ∈ items, it.target = target ∧ kindOf it.category = kind ∧ it.address = addr ∧
    resolvedName it = some name

/-- The entries of one kind: those of before, in their order and with other names at most,
and behind them entries for gaps. -/
def ColumnFrame {ρ : Type} (col : Column ρ) (kind : EntryKind) (items : List ReconcileItem)
    (target : String) (before after : List ρ) : Prop :=
  ∃ kept added, after = kept ++ added ∧
    List.Forall₂ (fun r r' => r' = r ∨ ∃ name, r' = col.entries.relabel name r ∧
      DecidesName items target kind (col.entries.key r) name) before kept ∧
    ∀ r ∈ added, ∃ it ∈ items, ∃ name, it.target = target ∧ kindOf it.category = kind ∧
      resolvedName it = some name ∧ it.current = none ∧
      it.address ∉ before.map col.entries.key ∧ r = col.fresh it name

/-- What a run of verdicts may do to a store. -/
structure VerdictFrame (items : List ReconcileItem) (target : String)
    (before after : AnnotationStore) : Prop where
  functions : ColumnFrame functionColumn .function items target before.functions after.functions
  symbols : ColumnFrame symbolColumn .symbol items target before.symbols after.symbols
  rest : { after with functions := before.functions, symbols := before.symbols } = before

/-! ### Items without effect -/

theorem resolvedName_eq_none_iff {it : ReconcileItem} :
    resolvedName it = none ↔ it.verdict = "keep" ∨ it.verdict = "drop" := by
  unfold resolvedName
  by_cases hproposed : it.verdict = "proposed"
  · simp [hproposed]
  · by_cases hkeep : it.verdict = "keep"
    · simp [hkeep]
    · by_cases hdrop : it.verdict = "drop"
      · simp [hdrop]
      · simp [hproposed, hkeep, hdrop]

theorem applyVerdict_of_not_effective {target : String} {it : ReconcileItem}
    (h : ¬ Effective target it) (fnByAddr symByAddr : Dict Nat Nat) (st : AnnotationStore × Nat) :
    applyVerdict fnByAddr symByAddr target st it = st := by
  unfold applyVerdict
  by_cases htarget : it.target = target
  · have hnone : resolvedName it = none := by
      apply resolvedName_eq_none_iff.mpr
      by_contra hdecides
      rw [not_or] at hdecides
      exact h ⟨htarget, hdecides⟩
    rw [if_neg (not_not.mpr htarget), hnone]
  · rw [if_pos htarget]

theorem applyVerdicts_filter (store : AnnotationStore) (items : List ReconcileItem)
    (target : String) :
    applyVerdicts store (items.filter fun it => Effective target it) target =
      applyVerdicts store items target := by
  unfold applyVerdicts
  generalize (store, 0) = st
  induction items generalizing st with
  | nil => rfl
  | cons it items ih =>
    by_cases heffective : Effective target it
    · rw [List.filter_cons_of_pos (by simpa using heffective), List.foldl_cons, List.foldl_cons]
      exact ih _
    · rw [List.filter_cons_of_neg (by simpa using heffective), List.foldl_cons,
        applyVerdict_of_not_effective heffective]
      exact ih st

/-! ### The count -/

/-- An item that counts no mutation changes nothing. -/
theorem applyVerdict_count (fnByAddr symByAddr : Dict Nat Nat) (target : String)
    (st : AnnotationStore × Nat) (it : ReconcileItem) :
    st.2 ≤ (applyVerdict fnByAddr symByAddr target st it).2 ∧
      ((applyVerdict fnByAddr symByAddr target st it).2 = st.2 →
        applyVerdict fnByAddr symByAddr target st it = st) := by
  unfold applyVerdict
  split
  · exact ⟨le_rfl, fun _ => rfl⟩
  · split
    · exact ⟨le_rfl, fun _ => rfl⟩
    · split
      · refine ⟨Nat.le_add_right _ _, fun h => ?_⟩
        dsimp only at h ⊢
        rw [Labelled.upsert_of_count_eq_zero (by omega), h]
      · refine ⟨Nat.le_add_right _ _, fun h => ?_⟩
        dsimp only at h ⊢
        rw [Labelled.upsert_of_count_eq_zero (by omega), h]

theorem foldl_applyVerdict_count (fnByAddr symByAddr : Dict Nat Nat) (target : String)
    (items : List ReconcileItem) (st : AnnotationStore × Nat) :
    st.2 ≤ (items.foldl (applyVerdict fnByAddr symByAddr target) st).2 ∧
      ((items.foldl (applyVerdict fnByAddr symByAddr target) st).2 = st.2 →
        items.foldl (applyVerdict fnByAddr symByAddr target) st = st) := by
  induction items generalizing st with
  | nil => exact ⟨le_rfl, fun _ => rfl⟩
  | cons it items ih =>
    obtain ⟨hle, hsame⟩ := applyVerdict_count fnByAddr symByAddr target st it
    obtain ⟨hle', hsame'⟩ := ih (applyVerdict fnByAddr symByAddr target st it)
    rw [List.foldl_cons]
    refine ⟨hle.trans hle', fun h => ?_⟩
    -- the count never falls, so it has not risen at this item either
    have hstep := hsame (by omega)
    rw [hsame' (by omega), hstep]

/-! ### The columns -/

theorem columnFrame_run {ρ : Type} (col : Column ρ) (kind : EntryKind)
    (items : List ReconcileItem) (target : String) (rs : List ρ) :
    ColumnFrame col kind items target rs
      (col.entries.run rs (writes col kind items target)) := by
  refine ⟨_, _, Labelled.run_eq_settleLast rs _, ?_, ?_⟩
  · refine (Labelled.forall₂_settleLast (writes col kind items target) rs).imp ?_
    rintro r r' (hsame | ⟨w, hw, hkey, hr'⟩)
    · exact Or.inl hsame
    · obtain ⟨it, hit, htarget, hkind, hname, hwrite⟩ := mem_writes _ _ _ _ hw
      refine Or.inr ⟨w.label, hr', it, hit, htarget, hkind, ?_, hname⟩
      rw [← hkey, hwrite]
      rfl
  · intro r hr
    obtain ⟨w, hw, hkey, hfresh⟩ := Labelled.mem_added hr
    obtain ⟨it, hit, htarget, hkind, hname, hwrite⟩ := mem_writes _ _ _ _ hw
    rw [hwrite] at hkey hfresh
    by_cases hgap : it.current = none
    · refine ⟨it, hit, w.label, htarget, hkind, hname, hgap, hkey, ?_⟩
      simpa [Column.write, hgap] using hfresh.symm
    · simp [Column.write, hgap] at hfresh

/-- Verdicts give names and fill gaps; the items of other targets and those that keep or
drop have no effect; and a store is as it was when no mutation is counted. -/
theorem applyVerdicts_frame (store : AnnotationStore) (items : List ReconcileItem)
    (target : String) :
    applyVerdicts store items target =
        applyVerdicts store (items.filter fun it => Effective target it) target ∧
      VerdictFrame items target store (applyVerdicts store items target).1 ∧
      ((applyVerdicts store items target).2 = 0 →
        (applyVerdicts store items target).1 = store) := by
  refine ⟨(applyVerdicts_filter store items target).symm, ?_, ?_⟩
  · rw [applyVerdicts, foldl_applyVerdict]
    exact ⟨columnFrame_run functionColumn .function items target store.functions,
      columnFrame_run symbolColumn .symbol items target store.symbols, rfl⟩
  · intro h
    have hcount := (foldl_applyVerdict_count (functionColumn.entries.positions store.functions)
      (symbolColumn.entries.positions store.symbols) target items (store, 0)).2 h
    rw [applyVerdicts, hcount]

end RomAnalyzer.Enrich
