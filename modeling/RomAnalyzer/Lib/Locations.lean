import Mathlib

/-!
# Steps at locations of their own

Each step rewrites one location from what that location holds. Where no two steps share a
location, every location holds what its own step makes of it, so the order of the steps
does not matter.
-/
namespace Lib

variable {α κ ν : Type*} [DecidableEq κ]

/-- The step of `x` rewrites the location of `x`. -/
def rewriteStep (location : α → κ) (rewrite : α → ν → ν) (s : κ → ν) (x : α) : κ → ν :=
  Function.update s (location x) (rewrite x (s (location x)))

variable {location : α → κ} {rewrite : α → ν → ν} {xs : List α}

/-- Where no step is, nothing changes. -/
theorem foldl_rewriteStep_of_notMem {k : κ} (h : k ∉ xs.map location) (s : κ → ν) :
    xs.foldl (rewriteStep location rewrite) s k = s k := by
  induction xs generalizing s with
  | nil => rfl
  | cons x xs ih =>
    rw [List.map_cons, List.mem_cons, not_or] at h
    rw [List.foldl_cons, ih h.2, rewriteStep, Function.update_of_ne h.1]

/-- A location holds what its step makes of what was there at first. -/
theorem foldl_rewriteStep_of_mem (hdistinct : (xs.map location).Nodup) {x : α} (hx : x ∈ xs)
    (s : κ → ν) :
    xs.foldl (rewriteStep location rewrite) s (location x) = rewrite x (s (location x)) := by
  induction xs generalizing s with
  | nil => cases hx
  | cons y ys ih =>
    rw [List.map_cons, List.nodup_cons] at hdistinct
    rw [List.foldl_cons]
    rcases List.mem_cons.mp hx with rfl | hx
    · rw [foldl_rewriteStep_of_notMem hdistinct.1, rewriteStep, Function.update_self]
    · have hother : location x ≠ location y := by
        intro he
        exact hdistinct.1 (he ▸ List.mem_map_of_mem hx)
      rw [ih hdistinct.2 hx, rewriteStep, Function.update_of_ne hother]

/-- A step that also counts what it changes. -/
def countedStep (location : α → κ) (rewrite : α → ν → ν) (count : α → ν → Nat)
    (s : (κ → ν) × Nat) (x : α) : (κ → ν) × Nat :=
  (rewriteStep location rewrite s.1 x, s.2 + count x (s.1 (location x)))

/-- The total counts every step at what its location held at first. -/
theorem foldl_countedStep {count : α → ν → Nat} (hdistinct : (xs.map location).Nodup)
    (s : κ → ν) (n : Nat) :
    xs.foldl (countedStep location rewrite count) (s, n) =
      (xs.foldl (rewriteStep location rewrite) s,
        n + (xs.map fun x => count x (s (location x))).sum) := by
  induction xs generalizing s n with
  | nil => rfl
  | cons y ys ih =>
    rw [List.map_cons, List.nodup_cons] at hdistinct
    have hothers : (ys.map fun x => count x (rewriteStep location rewrite s y (location x))) =
        ys.map fun x => count x (s (location x)) := by
      apply List.map_congr_left
      intro x hx
      have hother : location x ≠ location y := by
        intro he
        exact hdistinct.1 (he ▸ List.mem_map_of_mem hx)
      rw [rewriteStep, Function.update_of_ne hother]
    rw [List.foldl_cons, countedStep, ih hdistinct.2, hothers, List.foldl_cons, List.map_cons,
      List.sum_cons, Nat.add_assoc]

end Lib
