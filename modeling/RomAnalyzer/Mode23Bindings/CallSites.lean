import RomAnalyzer.Mode23Bindings

/-!
# Call sites by slot

The two calls of the dispatcher are told apart by the slot that each of them passes. The sites
are bound by slot only when there are two callers and they pass the two slots.
-/
namespace RomAnalyzer.Mode23Bindings

open Lib

/-- Two callers and no other, the first with slot 2 and the other with slot 1. -/
structure BySlot (callers : List Nat) (slotOf : Dict Nat (Option Int)) (a b : Nat) : Prop where
  ne : a ≠ b
  only : ∀ c, c ∈ callers ↔ c = a ∨ c = b
  slot12 : slotAt slotOf a = some 2
  slot15 : slotAt slotOf b = some 1

variable {callers : List Nat} {slotOf : Dict Nat (Option Int)}

theorem sortedSites_of_pair {a b : Nat} (hne : a ≠ b) (honly : ∀ c, c ∈ callers ↔ c = a ∨ c = b) :
    sortedSites callers = [a, b] ∨ sortedSites callers = [b, a] := by
  have hperm : (sortedSites callers).Perm [a, b] := by
    refine (List.perm_ext_iff_of_nodup (nodup_sortedSites callers) (by simp [hne])).mpr ?_
    intro c
    rw [mem_sortedSites, honly]
    simp
  exact List.perm_pair.mp hperm

/-- The test of the code for it. -/
theorem exists_bySlot_iff :
    (∃ a b, BySlot callers slotOf a b) ↔ (sortedSites callers).length = 2 ∧
      sortBy id ((sortedSites callers).filterMap (slotAt slotOf)) = [1, 2] := by
  constructor
  · rintro ⟨a, b, h⟩
    rcases sortedSites_of_pair h.ne h.only with hsorted | hsorted
    · rw [hsorted]
      refine ⟨rfl, ?_⟩
      rw [List.filterMap_cons_some h.slot12, List.filterMap_cons_some h.slot15, List.filterMap_nil]
      rfl
    · rw [hsorted]
      refine ⟨rfl, ?_⟩
      rw [List.filterMap_cons_some h.slot15, List.filterMap_cons_some h.slot12, List.filterMap_nil]
      rfl
  · rintro ⟨hlength, hslots⟩
    have hnodup := nodup_sortedSites callers
    have hmem : ∀ c, c ∈ callers ↔ c ∈ sortedSites callers := fun c => mem_sortedSites.symm
    obtain ⟨a, b, hsorted⟩ := List.length_eq_two.mp hlength
    rw [hsorted] at hslots hnodup hmem
    have hne : a ≠ b := by
      rintro rfl
      exact absurd (List.mem_singleton_self a) (List.nodup_cons.mp hnodup).1
    have hperm : ([a, b].filterMap (slotAt slotOf)).Perm [1, 2] := by
      rw [← hslots]
      exact (sortBy_perm id _).symm
    have honly : ∀ c, c ∈ callers ↔ c = a ∨ c = b := by
      intro c
      rw [hmem]
      simp
    cases ha : slotAt slotOf a with
    | none =>
      rw [List.filterMap_cons_none ha] at hperm
      have hle := hperm.length_eq.symm.le.trans (List.length_filterMap_le _ _)
      rw [List.length_cons, List.length_cons, List.length_cons] at hle
      omega
    | some i =>
      cases hb : slotAt slotOf b with
      | none =>
        rw [List.filterMap_cons_some ha, List.filterMap_cons_none hb] at hperm
        exact absurd hperm.length_eq (by simp)
      | some j =>
        rw [List.filterMap_cons_some ha, List.filterMap_cons_some hb, List.filterMap_nil] at hperm
        rcases List.perm_pair.mp hperm with heq | heq
        · simp only [List.cons.injEq, and_true] at heq
          refine ⟨b, a, hne.symm, fun c => (honly c).trans or_comm, ?_, ?_⟩
          · rw [hb, heq.2]
          · rw [ha, heq.1]
        · simp only [List.cons.injEq, and_true] at heq
          refine ⟨a, b, hne, honly, ?_, ?_⟩
          · rw [ha, heq.1]
          · rw [hb, heq.2]

/-- `{c: slot(c) for c in callers}` -/
theorem slotAt_ofList {slot : Nat → Option Int} {c : Nat} (h : c ∈ callers) :
    slotAt (Dict.ofList (callers.map fun c => (c, slot c))) c = slot c := by
  have hget : (Dict.ofList (callers.map fun c => (c, slot c))).get? c = some (slot c) := by
    rw [Dict.get?_ofList_map, List.findRev?_eq_find?_reverse, Option.map_eq_some_iff]
    cases hfind : callers.reverse.find? fun x => x = c with
    | none =>
      have hnot := List.find?_eq_none.mp hfind c (List.mem_reverse.mpr h)
      exact absurd (decide_eq_true rfl) hnot
    | some x =>
      have hx := List.find?_some hfind
      rw [decide_eq_true_iff] at hx
      exact ⟨x, rfl, by rw [hx]⟩
  rw [slotAt, hget]
  rfl

/-- Sites bound by slot are certain. Otherwise the first two callers are bound, with low
confidence. -/
theorem resolveCanCallSites_cases (callers : List Nat) (slotOf : Dict Nat (Option Int)) :
    (∃ a b, BySlot callers slotOf a b ∧ (resolveCanCallSites callers slotOf).1 =
      [⟨slot12Name, ⟨some a, .high⟩⟩, ⟨slot15Name, ⟨some b, .high⟩⟩]) ∨
    ((¬∃ a b, BySlot callers slotOf a b) ∧ (resolveCanCallSites callers slotOf).1 =
      [⟨slot12Name, ⟨(sortedSites callers)[0]?, .low⟩⟩,
        ⟨slot15Name, ⟨(sortedSites callers)[1]?, .low⟩⟩]) := by
  unfold resolveCanCallSites
  dsimp only
  by_cases h : ∃ a b, BySlot callers slotOf a b
  · left
    obtain ⟨a, b, hslots⟩ := h
    refine ⟨a, b, hslots, ?_⟩
    rw [if_pos (exists_bySlot_iff.mp ⟨a, b, hslots⟩)]
    have hget : ∀ sites : List Nat, ∀ slot : Option Int,
        (Dict.ofList (sites.map fun c => (slotAt slotOf c, c))).get? slot =
          sites.findRev? fun c => slotAt slotOf c = slot := by
      intro sites slot
      rw [Dict.get?_ofList_map, Option.map_id']
    rw [hget, hget]
    rcases sortedSites_of_pair hslots.ne hslots.only with hsorted | hsorted
    · rw [hsorted]
      simp [List.findRev?_eq_find?_reverse, hslots.slot12, hslots.slot15]
    · rw [hsorted]
      simp [List.findRev?_eq_find?_reverse, hslots.slot12, hslots.slot15]
  · right
    refine ⟨h, ?_⟩
    rw [if_neg (mt exists_bySlot_iff.mpr h)]

end RomAnalyzer.Mode23Bindings
