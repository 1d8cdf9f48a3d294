import RomAnalyzer.Lib.Dict

/-!
# Counting by key

A list is counted key by key. Whatever keys are asked for, as long as they are distinct and
every element has one of them, the counts add up to the length of the list.
-/
namespace Lib

variable {α : Type*} {κ : Type*} [DecidableEq κ]

/-- How many elements have the key. -/
def countOf (key : α → κ) (xs : List α) (k : κ) : Nat := xs.countP fun x => key x = k

variable {key : α → κ}

theorem countOf_cons (x : α) (xs : List α) (k : κ) :
    countOf key (x :: xs) k = countOf key xs k + if key x = k then 1 else 0 := by
  rw [countOf, List.countP_cons, countOf]
  simp only [decide_eq_true_eq]

/-- A key counts one among distinct keys. -/
theorem sum_map_one_of_nodup {ks : List κ} (hks : ks.Nodup) {k : κ} (hk : k ∈ ks) :
    (ks.map fun k' => if k = k' then 1 else 0).sum = 1 := by
  have hcount : ∀ ks : List κ, (ks.map fun k' => if k = k' then 1 else 0).sum = ks.count k := by
    intro ks
    induction ks with
    | nil => rfl
    | cons k' ks ih =>
      rw [List.map_cons, List.sum_cons, ih, List.count_cons, Nat.add_comm]
      by_cases hk' : k = k'
      · simp [hk']
      · simp [hk', Ne.symm hk']
  rw [hcount, List.count_eq_one_of_mem hks hk]

/-- Distinct keys that every element has one of count every element once. -/
theorem sum_countOf {ks : List κ} (hks : ks.Nodup) {xs : List α} (hcover : ∀ x ∈ xs, key x ∈ ks) :
    (ks.map (countOf key xs)).sum = xs.length := by
  induction xs with
  | nil =>
    have hzero : ks.map (countOf key ([] : List α)) = ks.map fun _ => 0 :=
      List.map_congr_left fun _ _ => rfl
    rw [hzero]
    simp
  | cons x xs ih =>
    have hsplit : ks.map (countOf key (x :: xs)) =
        ks.map fun k => countOf key xs k + if key x = k then 1 else 0 :=
      List.map_congr_left fun k _ => countOf_cons x xs k
    rw [hsplit, List.sum_map_add, ih fun y hy => hcover y (List.mem_cons_of_mem _ hy),
      sum_map_one_of_nodup hks (hcover x List.mem_cons_self), List.length_cons]

namespace Dict

/-- `counts[k] = counts.get(k, 0) + 1` -/
def tally (key : α → κ) (xs : List α) : Dict κ Nat :=
  xs.foldl (fun d x => d.insert (key x) (d.getD (key x) 0 + 1)) empty

theorem tally_append (xs : List α) (x : α) :
    tally key (xs ++ [x]) =
      (tally key xs).insert (key x) ((tally key xs).getD (key x) 0 + 1) := by
  rw [tally, List.foldl_append]
  rfl

theorem mem_keys_tally {xs : List α} {k : κ} : k ∈ (tally key xs).keys ↔ ∃ x ∈ xs, key x = k := by
  induction xs using List.reverseRecOn with
  | nil => simp [tally, empty, keys]
  | append_singleton xs x ih =>
    rw [tally_append, mem_keys_insert, ih]
    simp [or_comm, eq_comm, or_and_right, exists_or]

theorem getD_tally (xs : List α) (k : κ) : (tally key xs).getD k 0 = countOf key xs k := by
  induction xs using List.reverseRecOn with
  | nil => rfl
  | append_singleton xs x ih =>
    rw [tally_append, getD, get?_insert, countOf, List.countP_append, List.countP_singleton]
    by_cases hk : k = key x
    · subst hk
      rw [if_pos rfl, ih]
      simp [countOf]
    · have hne : ¬ key x = k := fun h => hk h.symm
      rw [getD, countOf] at ih
      simp [hk, hne, ih]

theorem values_tally (xs : List α) :
    (tally key xs).values = (tally key xs).keys.map (countOf key xs) := by
  rw [values, keys, List.map_map]
  apply List.map_congr_left
  intro e he
  have hget := ((tally key xs).mem_entries_iff e.1 e.2).mp he
  rw [Function.comp_apply, ← getD_tally, getD, hget]
  rfl

/-- The counts of a tally add up to the length of the list. -/
theorem sum_values_tally (xs : List α) : (tally key xs).values.sum = xs.length := by
  rw [values_tally]
  exact sum_countOf (tally key xs).nodup fun x hx => mem_keys_tally.mpr ⟨x, hx, rfl⟩

end Dict

end Lib
