import Mathlib

/-!
# Scans

A scan over increasing positions stops at the least one that passes its test, a scan over
decreasing ones at the greatest.
-/
namespace Lib

/-- `range(start, stop, 4)` -/
def range4 (start stop : Nat) : List Nat :=
  (List.range ((stop - start + 3) / 4)).map fun i => start + 4 * i

theorem mem_range4 {start stop a : Nat} :
    a ∈ range4 start stop ↔ start ≤ a ∧ a < stop ∧ a % 4 = start % 4 := by
  rw [range4, List.mem_map]
  constructor
  · intro h
    obtain ⟨i, hi, rfl⟩ := h
    have hlt := List.mem_range.mp hi
    omega
  · intro h
    refine ⟨(a - start) / 4, List.mem_range.mpr ?_, ?_⟩
    · omega
    · omega

theorem range4_pairwise (start stop : Nat) : (range4 start stop).Pairwise (· < ·) := by
  rw [range4, List.pairwise_map]
  refine List.pairwise_lt_range.imp ?_
  intro i j hlt
  omega

variable {α : Type*} [Preorder α] {xs : List α} {p : α → Bool} {a : α}

/-- An increasing list is searched for the least element that passes. -/
theorem find?_eq_some_iff_isLeast (h : xs.Pairwise (· < ·)) :
    xs.find? p = some a ↔ IsLeast {x | x ∈ xs ∧ p x = true} a := by
  rw [List.find?_eq_some_iff_append]
  constructor
  · intro hfind
    obtain ⟨hp, before, after, rfl, hnone⟩ := hfind
    refine ⟨⟨List.mem_append_right _ List.mem_cons_self, hp⟩, ?_⟩
    intro x hx
    rcases List.mem_append.mp hx.1 with hbefore | hcons
    · have hfalse := hnone x hbefore
      rw [hx.2] at hfalse
      cases hfalse
    · rcases List.mem_cons.mp hcons with rfl | hafter
      · exact le_rfl
      · exact le_of_lt ((List.pairwise_cons.mp (List.pairwise_append.mp h).2.1).1 x hafter)
  · intro hleast
    obtain ⟨⟨hmem, hp⟩, hlower⟩ := hleast
    obtain ⟨before, after, rfl⟩ := List.append_of_mem hmem
    refine ⟨hp, before, after, rfl, ?_⟩
    intro x hx
    have hlt : x < a := (List.pairwise_append.mp h).2.2 x hx a List.mem_cons_self
    rw [Bool.not_eq_true']
    by_contra hpx
    have hle := hlower ⟨List.mem_append_left _ hx, Bool.not_eq_false _ ▸ hpx⟩
    exact absurd hlt (not_lt_of_ge hle)

/-- A decreasing list is searched for the greatest element that passes. -/
theorem find?_eq_some_iff_isGreatest (h : xs.Pairwise (· > ·)) :
    xs.find? p = some a ↔ IsGreatest {x | x ∈ xs ∧ p x = true} a :=
  find?_eq_some_iff_isLeast (α := αᵒᵈ) h

omit [Preorder α] in
/-- A list in which at most one element passes is searched for that one. -/
theorem find?_eq_some_iff_of_unique
    (hunique : ∀ x ∈ xs, ∀ y ∈ xs, p x = true → p y = true → x = y) :
    xs.find? p = some a ↔ a ∈ xs ∧ p a = true := by
  constructor
  · intro hfind
    exact ⟨List.mem_of_find?_eq_some hfind, List.find?_some hfind⟩
  · intro h
    obtain ⟨hmem, hp⟩ := h
    cases hfind : xs.find? p with
    | none => exact absurd hp (List.find?_eq_none.mp hfind a hmem)
    | some b =>
      rw [hunique b (List.mem_of_find?_eq_some hfind) a hmem (List.find?_some hfind) hp]

omit [Preorder α] in
/-- With keys of their own, the elements behind the first ones are those whose keys are not
among the keys of the first ones. -/
theorem filter_not_mem_take {κ : Type*} [BEq κ] [LawfulBEq κ] {key : α → κ}
    (hnodup : (xs.map key).Nodup) (n : Nat) :
    (xs.filter fun x => key x ∉ (xs.take n).map key) = xs.drop n := by
  rw [← List.take_append_drop n xs, List.map_append, List.nodup_append] at hnodup
  have htake : (xs.take n).filter (fun x => key x ∉ (xs.take n).map key) = [] := by
    apply List.filter_eq_nil_iff.mpr
    intro x hx hkept
    exact of_decide_eq_true hkept (List.mem_map_of_mem hx)
  have hdrop : (xs.drop n).filter (fun x => key x ∉ (xs.take n).map key) = xs.drop n := by
    apply List.filter_eq_self.mpr
    intro x hx
    apply decide_eq_true
    intro hmem
    exact hnodup.2.2 _ hmem _ (List.mem_map_of_mem hx) rfl
  calc (xs.filter fun x => key x ∉ (xs.take n).map key)
      = ((xs.take n ++ xs.drop n).filter fun x => key x ∉ (xs.take n).map key) := by
        rw [List.take_append_drop]
    _ = xs.drop n := by rw [List.filter_append, htake, hdrop, List.nil_append]

/-- On a list that the test cuts in two, nothing behind the cut passes. -/
theorem takeWhile_eq_filter {α : Type*} {p : α → Bool} {xs : List α}
    (h : xs.Pairwise fun x y => p y = true → p x = true) : xs.takeWhile p = xs.filter p := by
  induction xs with
  | nil => rfl
  | cons y ys ih =>
    obtain ⟨hhead, htail⟩ := List.pairwise_cons.mp h
    by_cases hy : p y = true
    · rw [List.takeWhile_cons_of_pos hy, List.filter_cons_of_pos hy, ih htail]
    · rw [List.takeWhile_cons_of_neg hy, List.filter_cons_of_neg hy, eq_comm,
        List.filter_eq_nil_iff]
      exact fun x hx hpx => hy (hhead x hx hpx)

theorem mem_takeWhile_iff {α : Type*} {p : α → Bool} {xs : List α}
    (h : xs.Pairwise fun x y => p y = true → p x = true) {x : α} :
    x ∈ xs.takeWhile p ↔ x ∈ xs ∧ p x = true := by
  rw [takeWhile_eq_filter h, List.mem_filter]

/-- In a list with increasing keys, what comes before the last element below a bound is what is
below that element. -/
theorem filter_lt_of_eq_concat {α κ : Type*} [LinearOrder κ] {key : α → κ} {xs init : List α}
    {last : α} {bound : κ} (hsorted : xs.Pairwise fun x y => key x < key y)
    (h : (xs.filter fun x => key x < bound) = init ++ [last]) :
    (xs.filter fun x => key x < key last) = init := by
  have hlast : last ∈ xs.filter fun x => key x < bound := by
    rw [h]
    exact List.mem_append_right init (List.mem_singleton_self last)
  have hbound : key last < bound := of_decide_eq_true (List.mem_filter.mp hlast).2
  have hbelow := hsorted.filter fun x => key x < bound
  rw [h, List.pairwise_append] at hbelow
  calc (xs.filter fun x => key x < key last)
      = (xs.filter fun x => key x < bound).filter fun x => key x < key last := by
        rw [List.filter_filter]
        refine List.filter_congr fun x _ => ?_
        rw [Bool.eq_iff_iff, Bool.and_eq_true, decide_eq_true_iff, decide_eq_true_iff]
        exact ⟨fun hx => ⟨hx, hx.trans hbound⟩, fun hx => hx.1⟩
    _ = init := by
        rw [h, List.filter_append, List.filter_cons_of_neg (by simp), List.filter_nil,
          List.append_nil, List.filter_eq_self]
        exact fun x hx => decide_eq_true (hbelow.2.2 x hx last (List.mem_singleton_self last))

section Decreasing

variable {α β κ : Type*} [LinearOrder κ] {key : α → κ} {f : α → Option β}

theorem filter_le_of_decreasing {before behind : List α} {x : α}
    (h : (before ++ x :: behind).Pairwise fun y z => key z < key y) :
    ((before ++ x :: behind).filter fun y => key x ≤ key y) = before ++ [x] := by
  obtain ⟨-, hbehind, hcross⟩ := List.pairwise_append.mp h
  have hafter := (List.pairwise_cons.mp hbehind).1
  have hkept : (before.filter fun y => key x ≤ key y) = before :=
    List.filter_eq_self.mpr fun y hy => decide_eq_true (hcross y hy x List.mem_cons_self).le
  have hdropped : (behind.filter fun y => key x ≤ key y) = [] := by
    apply List.filter_eq_nil_iff.mpr
    intro y hy hle
    exact absurd (hafter y hy) (not_lt_of_ge (of_decide_eq_true hle))
  rw [List.filter_append, List.filter_cons_of_pos (by simp), hkept, hdropped]

/-- A bounded search down a list with decreasing keys finds the highest hit, if it is near
enough to the top. -/
theorem findSome?_take_eq_some_iff (key : α → κ) {xs : List α} (h : xs.Pairwise fun x y => key y < key x)
    (n : Nat) (b : β) :
    (xs.take n).findSome? f = some b ↔
      ∃ x ∈ xs, f x = some b ∧ (∀ y ∈ xs, key x < key y → f y = none) ∧
        (xs.filter fun y => key x ≤ key y).length ≤ n := by
  rw [List.findSome?_eq_some_iff]
  constructor
  · rintro ⟨before, x, behind, htake, hx, hnone⟩
    have hxs : xs = before ++ x :: (behind ++ xs.drop n) := by
      rw [← List.cons_append, ← List.append_assoc, ← htake, List.take_append_drop]
    have hlength : before.length + 1 ≤ n := by
      have hle := List.length_take_le n xs
      rw [htake, List.length_append, List.length_cons] at hle
      omega
    rw [hxs] at h ⊢
    have hfilter := filter_le_of_decreasing h
    refine ⟨x, List.mem_append_right _ List.mem_cons_self, hx, ?_, ?_⟩
    · intro y hy hlt
      have hkept : y ∈ before ++ [x] := by
        rw [← hfilter]
        exact List.mem_filter.mpr ⟨hy, decide_eq_true hlt.le⟩
      rcases List.mem_append.mp hkept with hbefore | hlast
      · exact hnone y hbefore
      · rw [List.mem_singleton.mp hlast] at hlt
        exact absurd hlt (lt_irrefl _)
    · rw [hfilter, List.length_append, List.length_singleton]
      exact hlength
  · rintro ⟨x, hmem, hx, hnone, hlength⟩
    obtain ⟨before, behind, rfl⟩ := List.append_of_mem hmem
    rw [filter_le_of_decreasing h, List.length_append, List.length_singleton] at hlength
    refine ⟨before, x, behind.take (n - before.length - 1), ?_, hx, ?_⟩
    · rw [List.take_append, List.take_of_length_le (by omega)]
      obtain ⟨k, hk⟩ : ∃ k, n - before.length = k + 1 := ⟨n - before.length - 1, by omega⟩
      rw [hk, List.take_succ_cons, Nat.add_sub_cancel]
    · intro y hy
      have hcross := (List.pairwise_append.mp h).2.2
      exact hnone y (List.mem_append_left _ hy) (hcross y hy x List.mem_cons_self)

end Decreasing

/-! ### Positions -/

/-- The neighbours in a list. -/
theorem mem_zip_tail_iff {α : Type*} {xs : List α} {x y : α} :
    (x, y) ∈ xs.zip xs.tail ↔ [x, y] <:+: xs := by
  induction xs with
  | nil => simp
  | cons a xs ih =>
    cases xs with
    | nil =>
      refine iff_of_false List.not_mem_nil ?_
      intro h
      have hle := h.length_le
      rw [List.length_cons, List.length_singleton, List.length_singleton] at hle
      omega
    | cons b xs =>
      rw [List.tail_cons, List.zip_cons_cons, List.mem_cons, Prod.mk.injEq, List.infix_cons_iff,
        List.cons_prefix_cons, List.cons_prefix_cons]
      refine or_congr ?_ ih
      exact ⟨fun h => ⟨h.1, h.2, List.nil_prefix⟩, fun h => ⟨h.1, h.2.1⟩⟩

/-- In a list with increasing keys, the position of an element is the number of those below. -/
theorem mem_zipIdx_iff_count {α κ : Type*} [LinearOrder κ] {key : α → κ} {xs : List α}
    (h : xs.Pairwise fun x y => key x < key y) {x : α} {n : Nat} :
    (x, n) ∈ xs.zipIdx ↔ x ∈ xs ∧ n = (xs.filter fun y => key y < key x).length := by
  have hcount : ∀ before behind, xs = before ++ x :: behind →
      (xs.filter fun y => key y < key x).length = before.length := by
    intro before behind hxs
    rw [hxs] at h
    obtain ⟨-, hbehind, hcross⟩ := List.pairwise_append.mp h
    have hafter := (List.pairwise_cons.mp hbehind).1
    have hkept : (before.filter fun y => key y < key x) = before :=
      List.filter_eq_self.mpr fun y hy => decide_eq_true (hcross y hy x List.mem_cons_self)
    have hdropped : (behind.filter fun y => key y < key x) = [] := by
      apply List.filter_eq_nil_iff.mpr
      intro y hy hlt
      exact absurd (hafter y hy) (not_lt_of_gt (of_decide_eq_true hlt))
    rw [hxs, List.filter_append, List.filter_cons_of_neg (by simp), hkept, hdropped,
      List.append_nil]
  rw [List.mk_mem_zipIdx_iff_getElem?]
  constructor
  · intro hget
    obtain ⟨hlt, hx⟩ := List.getElem?_eq_some_iff.mp hget
    have hxs : xs = xs.take n ++ x :: xs.drop (n + 1) := by
      rw [← hx, ← List.drop_eq_getElem_cons hlt, List.take_append_drop]
    refine ⟨List.mem_of_getElem? hget, ?_⟩
    rw [hcount _ _ hxs, List.length_take]
    omega
  · rintro ⟨hmem, rfl⟩
    obtain ⟨before, behind, hxs⟩ := List.append_of_mem hmem
    rw [hcount before behind hxs]
    rw [hxs, List.getElem?_append_right (le_refl _), Nat.sub_self, List.getElem?_cons_zero]

end Lib
