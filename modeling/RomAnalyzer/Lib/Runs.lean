import Mathlib

/-!
# Maximal runs of a property in a list

`runs` skips to the next element with the property, takes it and its successors
as long as they have it, and goes on behind them. `MaximalRun` says the same
thing about positions, with no reference to a scan.
-/
namespace Lib

universe u

variable {α : Type u}

/-- Position `i` exists and its element has the property. -/
def HoldsAt (p : α → Bool) (xs : List α) (i : Nat) : Prop := ∃ a, xs[i]? = some a ∧ p a = true

/-- `[s, e)` is nonempty, has the property throughout, and cannot be widened. -/
structure MaximalRun (p : α → Bool) (xs : List α) (s e : Nat) : Prop where
  nonempty : s < e
  holds : ∀ i, s ≤ i → i < e → HoldsAt p xs i
  left : s = 0 ∨ ¬ HoldsAt p xs (s - 1)
  right : ¬ HoldsAt p xs e

def runLength (p : α → Bool) (xs : List α) : Nat := (xs.takeWhile p).length

/-- The runs of `xs` in order, with positions counted from `i`. -/
def runs (p : α → Bool) (i : Nat) : List α → List (Nat × Nat)
  | [] => []
  | a :: as =>
    if p a then
      (i, i + runLength p (a :: as)) ::
        runs p (i + runLength p (a :: as)) (as.drop (runLength p as))
    else runs p (i + 1) as
termination_by xs => xs.length
decreasing_by all_goals simp only [List.length_drop, List.length_cons]; omega

variable {p : α → Bool}

@[simp] theorem holdsAt_nil (i : Nat) : ¬ HoldsAt p ([] : List α) i := by
  simp [HoldsAt]

@[simp] theorem holdsAt_cons_zero (a : α) (as : List α) :
    HoldsAt p (a :: as) 0 ↔ p a = true := by
  simp [HoldsAt]

@[simp] theorem holdsAt_cons_succ (a : α) (as : List α) (i : Nat) :
    HoldsAt p (a :: as) (i + 1) ↔ HoldsAt p as i := by
  simp [HoldsAt]

theorem holdsAt_drop (xs : List α) (n i : Nat) :
    HoldsAt p (xs.drop n) i ↔ HoldsAt p xs (n + i) := by
  simp [HoldsAt, List.getElem?_drop]

/-- A run ends where the property first fails. -/
theorem holdsAt_of_lt_runLength {xs : List α} {i : Nat} (h : i < runLength p xs) :
    HoldsAt p xs i := by
  induction xs generalizing i with
  | nil => simp [runLength] at h
  | cons a as ih =>
    by_cases ha : p a = true
    · cases i with
      | zero => exact (holdsAt_cons_zero a as).mpr ha
      | succ i =>
        refine (holdsAt_cons_succ a as i).mpr (ih ?_)
        simpa [runLength, ha] using h
    · simp [runLength, ha] at h

theorem not_holdsAt_runLength (xs : List α) : ¬ HoldsAt p xs (runLength p xs) := by
  induction xs with
  | nil => simp
  | cons a as ih =>
    by_cases ha : p a = true
    · simpa [runLength, ha] using ih
    · simp [runLength, ha]

theorem maximalRun_cons_of_not {a : α} {as : List α} {s e : Nat} (ha : ¬ p a = true) :
    MaximalRun p (a :: as) s e ↔ 1 ≤ s ∧ MaximalRun p as (s - 1) (e - 1) := by
  constructor
  · intro h
    have hs : 1 ≤ s := by
      by_contra hc
      obtain rfl : s = 0 := by omega
      exact ha ((holdsAt_cons_zero a as).mp (h.holds 0 le_rfl h.nonempty))
    obtain ⟨s, rfl⟩ : ∃ t, s = t + 1 := ⟨s - 1, by omega⟩
    obtain ⟨e, rfl⟩ : ∃ t, e = t + 1 := ⟨e - 1, by have hlt := h.nonempty; omega⟩
    have hne := h.nonempty
    refine ⟨hs, by omega, fun i hi hie => ?_, ?_, ?_⟩
    · exact (holdsAt_cons_succ a as i).mp (h.holds (i + 1) (by omega) (by omega))
    · rcases h.left with h0 | h0
      · omega
      · cases s with
        | zero => exact Or.inl rfl
        | succ s => exact Or.inr fun hh => h0 ((holdsAt_cons_succ a as s).mpr hh)
    · exact fun hh => h.right ((holdsAt_cons_succ a as e).mpr hh)
  · intro h
    obtain ⟨hs, h⟩ := h
    obtain ⟨s, rfl⟩ : ∃ t, s = t + 1 := ⟨s - 1, by omega⟩
    have hne := h.nonempty
    obtain ⟨e, rfl⟩ : ∃ t, e = t + 1 := ⟨e - 1, by omega⟩
    simp only [Nat.add_sub_cancel] at h hne
    refine ⟨by omega, fun i hi hie => ?_, Or.inr ?_, ?_⟩
    · obtain ⟨i, rfl⟩ : ∃ t, i = t + 1 := ⟨i - 1, by omega⟩
      exact (holdsAt_cons_succ a as i).mpr (h.holds i (by omega) (by omega))
    · cases s with
      | zero => simpa using ha
      | succ s =>
        rcases h.left with h0 | h0
        · omega
        · simpa using h0
    · simpa using h.right

/-- Behind its first run a list has the runs of the rest, shifted. -/
theorem maximalRun_of_runLength {xs : List α} {n s e : Nat} (hn : n = runLength p xs)
    (hpos : 0 < n) :
    MaximalRun p xs s e ↔
      (s = 0 ∧ e = n) ∨ (n ≤ s ∧ n ≤ e ∧ MaximalRun p (xs.drop n) (s - n) (e - n)) := by
  have hlt : ∀ i < n, HoldsAt p xs i := fun i hi => holdsAt_of_lt_runLength (hn ▸ hi)
  have hend : ¬ HoldsAt p xs n := hn ▸ not_holdsAt_runLength xs
  constructor
  · intro h
    rcases Nat.lt_or_ge s n with hsn | hsn
    · -- the run starts inside the first one, so it is the first one
      left
      have hs0 : s = 0 := by
        rcases h.left with h0 | h0
        · exact h0
        · exact absurd (hlt (s - 1) (by omega)) h0
      refine ⟨hs0, ?_⟩
      rcases Nat.lt_trichotomy e n with hen | hen | hen
      · exact absurd (hlt e hen) h.right
      · exact hen
      · exact absurd (h.holds n (by omega) hen) hend
    · right
      have hne := h.nonempty
      refine ⟨hsn, by omega, by omega, fun i hi hie => ?_, ?_, ?_⟩
      · exact (holdsAt_drop xs n i).mpr (h.holds (n + i) (by omega) (by omega))
      · rcases Nat.eq_zero_or_pos (s - n) with h0 | h0
        · exact Or.inl h0
        · apply Or.inr
          intro hh
          rw [holdsAt_drop, show n + (s - n - 1) = s - 1 by omega] at hh
          rcases h.left with hl | hl
          · omega
          · exact hl hh
      · rw [holdsAt_drop, show n + (e - n) = e by omega]
        exact h.right
  · intro hgiven
    obtain ⟨rfl, rfl⟩ | ⟨hs, he, h⟩ := hgiven
    · exact ⟨hpos, fun i _ hi => hlt i hi, Or.inl rfl, hend⟩
    · have hne := h.nonempty
      have hs0 : 0 < s - n := by
        by_contra hc
        obtain hz : s - n = 0 := by omega
        have hh := h.holds 0 (by omega) (by omega)
        rw [holdsAt_drop] at hh
        exact hend hh
      refine ⟨by omega, fun i hi hie => ?_, Or.inr ?_, ?_⟩
      · have hh := h.holds (i - n) (by omega) (by omega)
        rwa [holdsAt_drop, show n + (i - n) = i by omega] at hh
      · rcases h.left with hl | hl
        · omega
        · rwa [holdsAt_drop, show n + (s - n - 1) = s - 1 by omega] at hl
      · have hr := h.right
        rwa [holdsAt_drop, show n + (e - n) = e by omega] at hr

theorem mem_runs_iff (i : Nat) (xs : List α) (s e : Nat) :
    (s, e) ∈ runs p i xs ↔ i ≤ s ∧ i ≤ e ∧ MaximalRun p xs (s - i) (e - i) := by
  fun_induction runs p i xs generalizing s e with
  | case1 i =>
    simp only [List.not_mem_nil, false_iff]
    intro h
    obtain ⟨_, _, h⟩ := h
    exact holdsAt_nil _ (h.holds _ le_rfl h.nonempty)
  | case2 i a as ha ih =>
    have hlen : runLength p (a :: as) = runLength p as + 1 := by simp [runLength, ha]
    have hdrop : as.drop (runLength p as) = (a :: as).drop (runLength p (a :: as)) := by
      rw [hlen, List.drop_succ_cons]
    rw [List.mem_cons, ih, Prod.mk.injEq, hdrop,
      maximalRun_of_runLength (n := runLength p (a :: as)) rfl (by omega)]
    constructor
    · intro hgiven
      obtain ⟨rfl, rfl⟩ | ⟨hs, he, h⟩ := hgiven
      · exact ⟨le_rfl, by omega, Or.inl ⟨by omega, by omega⟩⟩
      · refine ⟨by omega, by omega, Or.inr ⟨by omega, by omega, ?_⟩⟩
        rwa [Nat.sub_sub, Nat.sub_sub]
    · intro hgiven
      obtain ⟨hs, he, ⟨h0, h1⟩ | ⟨h0, h1, h⟩⟩ := hgiven
      · exact Or.inl ⟨by omega, by omega⟩
      · refine Or.inr ⟨by omega, by omega, ?_⟩
        rwa [Nat.sub_sub, Nat.sub_sub] at h
  | case3 i a as ha ih =>
    rw [ih, maximalRun_cons_of_not ha, Nat.sub_sub, Nat.sub_sub]
    constructor
    · intro h
      obtain ⟨hs, he, h⟩ := h
      exact ⟨by omega, by omega, by omega, h⟩
    · intro h
      obtain ⟨hs, he, h1, h⟩ := h
      have hne := h.nonempty
      exact ⟨by omega, by omega, h⟩

/-- The runs come in order, none begins before the last one ended. -/
theorem runs_pairwise (i : Nat) (xs : List α) :
    (runs p i xs).Pairwise fun run run' => run.2 ≤ run'.1 := by
  fun_induction runs p i xs with
  | case1 i => exact List.Pairwise.nil
  | case2 i a as ha ih =>
    refine List.pairwise_cons.mpr ⟨?_, ih⟩
    intro run hrun
    exact ((mem_runs_iff _ _ run.1 run.2).mp hrun).1
  | case3 i a as ha ih => exact ih

/-- The scan of a whole list finds its maximal runs. -/
theorem mem_runs_zero_iff (xs : List α) (s e : Nat) :
    (s, e) ∈ runs p 0 xs ↔ MaximalRun p xs s e := by
  rw [mem_runs_iff]
  simp

/-- Scanning a list in place: a run is taken whole, anything else is skipped. -/
theorem runs_drop_of_pos {xs : List α} {i : Nat} (h : i < xs.length) (hp : p xs[i] = true) :
    runs p i (xs.drop i) =
      (i, i + runLength p (xs.drop i)) ::
        runs p (i + runLength p (xs.drop i)) (xs.drop (i + runLength p (xs.drop i))) := by
  have hlen : runLength p (xs.drop i) = runLength p (xs.drop (i + 1)) + 1 := by
    rw [List.drop_eq_getElem_cons h]
    simp only [runLength, List.takeWhile_cons, hp, ↓reduceIte, List.length_cons]
  have hrest : (xs.drop (i + 1)).drop (runLength p (xs.drop (i + 1))) =
      xs.drop (i + runLength p (xs.drop i)) := by
    rw [List.drop_drop, hlen]
    congr 1
    omega
  have hcons := List.drop_eq_getElem_cons h
  rw [hcons, runs, if_pos hp, ← hcons, hrest]

theorem runs_drop_of_neg {xs : List α} {i : Nat} (h : i < xs.length) (hp : ¬ p xs[i] = true) :
    runs p i (xs.drop i) = runs p (i + 1) (xs.drop (i + 1)) := by
  rw [List.drop_eq_getElem_cons h, runs, if_neg hp]

end Lib
