import Mathlib

/-!
# Gaps between sorted points

The gaps of an interval are read off by pairing each point's successor with the point
after it, the ends of the interval standing in at both sides.
-/
namespace Lib

/-- `[s, e)` is nonempty, lies in `[lo, hi)`, has none of the points, and cannot be
widened. -/
structure MaximalGap (point : Int → Prop) (lo hi s e : Int) : Prop where
  nonempty : s < e
  lo_le : lo ≤ s
  le_hi : e ≤ hi
  free : ∀ a, s ≤ a → a < e → ¬ point a
  left : s = lo ∨ point (s - 1)
  right : e = hi ∨ point e

/-- The intervals between neighbouring points, empty ones included. -/
def gaps (lo hi : Int) (points : List Int) : List (Int × Int) :=
  (lo :: points.map (· + 1)).zip (points ++ [hi])

/-- Strictly ascending points of `[lo, hi)`. -/
structure PointsWithin (lo hi : Int) (points : List Int) : Prop where
  sorted : points.Pairwise (· < ·)
  within : ∀ a ∈ points, lo ≤ a ∧ a < hi

theorem gaps_cons (lo hi x : Int) (points : List Int) :
    gaps lo hi (x :: points) = (lo, x) :: gaps (x + 1) hi points :=
  rfl

variable {lo hi x : Int} {points : List Int}

theorem PointsWithin.tail (h : PointsWithin lo hi (x :: points)) :
    PointsWithin (x + 1) hi points := by
  obtain ⟨hlt, hsorted⟩ := List.pairwise_cons.mp h.sorted
  refine ⟨hsorted, ?_⟩
  intro a ha
  have hxa := hlt a ha
  have hhi := (h.within a (List.mem_cons_of_mem x ha)).2
  omega

theorem PointsWithin.lt_of_mem (h : PointsWithin lo hi (x :: points)) {a : Int}
    (ha : a ∈ points) : x < a :=
  (List.pairwise_cons.mp h.sorted).1 a ha

/-- A gap that ends at the first point or before it is all there is up to that point. -/
theorem MaximalGap.eq_of_le_point {s e : Int} (h : PointsWithin lo hi (x :: points))
    (hgap : MaximalGap (· ∈ x :: points) lo hi s e) (hex : e ≤ x) : s = lo ∧ e = x := by
  have hne := hgap.nonempty
  have hxhi := (h.within x List.mem_cons_self).2
  constructor
  · rcases hgap.left with hleft | hleft
    · exact hleft
    · rcases List.mem_cons.mp hleft with hleft | hleft
      · omega
      · have hlt := h.lt_of_mem hleft
        omega
  · rcases hgap.right with hright | hright
    · omega
    · rcases List.mem_cons.mp hright with hright | hright
      · exact hright
      · have hlt := h.lt_of_mem hright
        omega

/-- A gap that ends behind the first point lies behind it. -/
theorem MaximalGap.behind_point {s e : Int} (h : PointsWithin lo hi (x :: points))
    (hgap : MaximalGap (· ∈ x :: points) lo hi s e) (hxe : x < e) :
    MaximalGap (· ∈ points) (x + 1) hi s e := by
  have hlox := (h.within x List.mem_cons_self).1
  have hxs : x < s := by
    by_contra hc
    exact hgap.free x (by omega) hxe List.mem_cons_self
  refine ⟨hgap.nonempty, by omega, hgap.le_hi, ?_, ?_, ?_⟩
  · intro a hsa hae ha
    exact hgap.free a hsa hae (List.mem_cons_of_mem x ha)
  · rcases hgap.left with hleft | hleft
    · omega
    · rcases List.mem_cons.mp hleft with hleft | hleft
      · left
        omega
      · exact Or.inr hleft
  · rcases hgap.right with hright | hright
    · exact Or.inl hright
    · rcases List.mem_cons.mp hright with hright | hright
      · omega
      · exact Or.inr hright

/-- A gap of the points behind the first is one of all of them. -/
theorem MaximalGap.cons_point {s e : Int} (h : PointsWithin lo hi (x :: points))
    (hgap : MaximalGap (· ∈ points) (x + 1) hi s e) :
    MaximalGap (· ∈ x :: points) lo hi s e := by
  have hlox := (h.within x List.mem_cons_self).1
  have hlo := hgap.lo_le
  refine ⟨hgap.nonempty, by omega, hgap.le_hi, ?_, Or.inr ?_, ?_⟩
  · intro a hsa hae ha
    rcases List.mem_cons.mp ha with ha | ha
    · omega
    · exact hgap.free a hsa hae ha
  · rcases hgap.left with hleft | hleft
    · have hx : s - 1 = x := by omega
      rw [hx]
      exact List.mem_cons_self
    · exact List.mem_cons_of_mem x hleft
  · exact hgap.right.imp id (List.mem_cons_of_mem x)

/-- Up to the first point there is one gap; behind it are those of the other points. -/
theorem maximalGap_cons_iff (h : PointsWithin lo hi (x :: points)) (s e : Int) :
    MaximalGap (· ∈ x :: points) lo hi s e ↔
      (s = lo ∧ e = x ∧ lo < x) ∨ MaximalGap (· ∈ points) (x + 1) hi s e := by
  constructor
  · intro hgap
    have hne := hgap.nonempty
    rcases lt_or_ge x e with hxe | hex
    · exact Or.inr (hgap.behind_point h hxe)
    · obtain ⟨hs, he⟩ := hgap.eq_of_le_point h hex
      exact Or.inl ⟨hs, he, by omega⟩
  · intro hgiven
    obtain ⟨rfl, rfl, hlt⟩ | hgap := hgiven
    · have hxhi := (h.within e List.mem_cons_self).2
      refine ⟨hlt, le_rfl, hxhi.le, ?_, Or.inl rfl, Or.inr List.mem_cons_self⟩
      intro a _ hae ha
      rcases List.mem_cons.mp ha with ha | ha
      · omega
      · have hlt := h.lt_of_mem ha
        omega
    · exact hgap.cons_point h

/-- The nonempty gaps are the maximal intervals without a point. -/
theorem mem_gaps_iff (h : PointsWithin lo hi points) (s e : Int) :
    (s, e) ∈ gaps lo hi points ∧ s < e ↔ MaximalGap (· ∈ points) lo hi s e := by
  induction points generalizing lo with
  | nil =>
    have hgaps : gaps lo hi [] = [(lo, hi)] := rfl
    rw [hgaps, List.mem_singleton, Prod.mk.injEq]
    constructor
    · intro hgiven
      obtain ⟨⟨rfl, rfl⟩, hlt⟩ := hgiven
      exact ⟨hlt, le_rfl, le_rfl, fun _ _ _ => List.not_mem_nil, Or.inl rfl, Or.inl rfl⟩
    · intro hgap
      have hs : s = lo := hgap.left.resolve_right List.not_mem_nil
      have he : e = hi := hgap.right.resolve_right List.not_mem_nil
      exact ⟨⟨hs, he⟩, hgap.nonempty⟩
  | cons x points ih =>
    rw [maximalGap_cons_iff h, ← ih h.tail, gaps_cons, List.mem_cons, Prod.mk.injEq]
    constructor
    · intro hgiven
      obtain ⟨⟨rfl, rfl⟩ | hmem, hlt⟩ := hgiven
      · exact Or.inl ⟨rfl, rfl, hlt⟩
      · exact Or.inr ⟨hmem, hlt⟩
    · intro hgiven
      obtain ⟨rfl, rfl, hlt⟩ | ⟨hmem, hlt⟩ := hgiven
      · exact ⟨Or.inl ⟨rfl, rfl⟩, hlt⟩
      · exact ⟨Or.inr hmem, hlt⟩

theorem lo_le_of_mem_gaps (h : PointsWithin lo hi points) {gap : Int × Int}
    (hgap : gap ∈ gaps lo hi points) : lo ≤ gap.1 := by
  induction points generalizing lo with
  | nil =>
    rw [List.mem_singleton.mp hgap]
  | cons x points ih =>
    rw [gaps_cons] at hgap
    rcases List.mem_cons.mp hgap with rfl | hgap
    · exact le_rfl
    · have hrest := ih h.tail hgap
      have hlox := (h.within x List.mem_cons_self).1
      omega

/-- The gaps come in order, a point between any two. -/
theorem gaps_pairwise (h : PointsWithin lo hi points) :
    (gaps lo hi points).Pairwise fun gap gap' => gap.2 < gap'.1 := by
  induction points generalizing lo with
  | nil => exact List.pairwise_singleton _ _
  | cons x points ih =>
    rw [gaps_cons]
    refine List.pairwise_cons.mpr ⟨?_, ih h.tail⟩
    intro gap hgap
    have hlo := lo_le_of_mem_gaps h.tail hgap
    show x < gap.1
    omega

end Lib
