import Mathlib

/-!
# Order-preserving pairings of two lists

The pairs take their left parts at increasing positions of the one list, their right
parts at increasing positions of the other, and each pair is allowed by a relation of
which nothing is assumed.
-/
namespace Lib

universe u v

variable {α : Type u} {β : Type v}

/-- The `k`-th pair stands at positions `f k` and `g k`, for increasing `f` and `g`. -/
structure OrderPreserving (ok : α → β → Bool) (xs : List α) (ys : List β)
    (pairs : List (α × β)) : Prop where
  left : ∃ f : ℕ ↪o ℕ, ∀ k : ℕ, (pairs.map Prod.fst)[k]? = xs[f k]?
  right : ∃ g : ℕ ↪o ℕ, ∀ k : ℕ, (pairs.map Prod.snd)[k]? = ys[g k]?
  allowed : ∀ p ∈ pairs, ok p.1 p.2 = true

/-- A pairing that no other one has more pairs than. -/
structure LongestPairing (ok : α → β → Bool) (xs : List α) (ys : List β)
    (pairs : List (α × β)) : Prop where
  pairing : OrderPreserving ok xs ys pairs
  longest : ∀ pairs', OrderPreserving ok xs ys pairs' → pairs'.length ≤ pairs.length

variable {ok : α → β → Bool} {xs : List α} {ys : List β} {pairs : List (α × β)}

theorem orderPreserving_iff_sublist :
    OrderPreserving ok xs ys pairs ↔
      (pairs.map Prod.fst).Sublist xs ∧ (pairs.map Prod.snd).Sublist ys ∧
        ∀ p ∈ pairs, ok p.1 p.2 = true := by
  rw [List.sublist_iff_exists_orderEmbedding_getElem?_eq,
    List.sublist_iff_exists_orderEmbedding_getElem?_eq]
  exact ⟨fun h => ⟨h.left, h.right, h.allowed⟩, fun h => ⟨h.1, h.2.1, h.2.2⟩⟩

namespace OrderPreserving

theorem eq_nil_left (h : OrderPreserving ok [] ys pairs) : pairs = [] :=
  List.map_eq_nil_iff.mp (List.sublist_nil.mp (orderPreserving_iff_sublist.mp h).1)

theorem eq_nil_right (h : OrderPreserving ok xs [] pairs) : pairs = [] :=
  List.map_eq_nil_iff.mp (List.sublist_nil.mp (orderPreserving_iff_sublist.mp h).2.1)

/-- Read backwards it is a pairing of the lists read backwards. -/
theorem reverse (h : OrderPreserving ok xs ys pairs) :
    OrderPreserving ok xs.reverse ys.reverse pairs.reverse := by
  obtain ⟨hleft, hright, hok⟩ := orderPreserving_iff_sublist.mp h
  apply orderPreserving_iff_sublist.mpr
  rw [List.map_reverse, List.map_reverse]
  refine ⟨hleft.reverse, hright.reverse, ?_⟩
  intro p hp
  exact hok p (List.mem_reverse.mp hp)

/-- Without its first pair it does without the heads of both lists. -/
theorem tail {x : α} {y : β} (h : OrderPreserving ok (x :: xs) (y :: ys) pairs) :
    OrderPreserving ok xs ys pairs.tail := by
  obtain ⟨hleft, hright, hok⟩ := orderPreserving_iff_sublist.mp h
  apply orderPreserving_iff_sublist.mpr
  rw [List.map_tail, List.map_tail]
  refine ⟨hleft.tail, hright.tail, ?_⟩
  intro p hp
  exact hok p (List.mem_of_mem_tail hp)

/-- Heads that are not allowed together are not both used. -/
theorem skips_head {x : α} {y : β} (h : OrderPreserving ok (x :: xs) (y :: ys) pairs)
    (hxy : ok x y = false) :
    OrderPreserving ok xs (y :: ys) pairs ∨ OrderPreserving ok (x :: xs) ys pairs := by
  obtain ⟨hleft, hright, hok⟩ := orderPreserving_iff_sublist.mp h
  rcases List.sublist_cons_iff.mp hleft with hskip | ⟨rest, hx, _⟩
  · exact Or.inl (orderPreserving_iff_sublist.mpr ⟨hskip, hright, hok⟩)
  rcases List.sublist_cons_iff.mp hright with hskip | ⟨rest', hy, _⟩
  · exact Or.inr (orderPreserving_iff_sublist.mpr ⟨hleft, hskip, hok⟩)
  · cases pairs with
    | nil => cases hx
    | cons p pairs =>
      -- the first pair would be that of the two heads
      have hfst : p.1 = x := (List.cons.inj hx).1
      have hsnd : p.2 = y := (List.cons.inj hy).1
      have hallowed := hok p List.mem_cons_self
      rw [hfst, hsnd, hxy] at hallowed
      cases hallowed

end OrderPreserving

theorem LongestPairing.reverse (h : LongestPairing ok xs ys pairs) :
    LongestPairing ok xs.reverse ys.reverse pairs.reverse where
  pairing := h.pairing.reverse
  longest := by
    intro pairs' hpairs'
    have hback := hpairs'.reverse
    rw [List.reverse_reverse, List.reverse_reverse] at hback
    have hlength := h.longest _ hback
    rw [List.length_reverse] at hlength ⊢
    exact hlength

end Lib
