import Mathlib.Data.List.MinMax
import Mathlib.Order.Nat

/-!
# The best so far

A scan keeps a candidate that scores higher than all before it, starting at zero. It ends
with the first of the candidates of the highest score.
-/
namespace Lib

variable {α : Type*} (p : α → Prop) [DecidablePred p] (score : α → Nat)

def bestStep (best : Option α × Nat) (x : α) : Option α × Nat :=
  if p x ∧ best.2 < score x then (some x, score x) else best

def bestSoFar (xs : List α) : Option α × Nat := xs.foldl (bestStep p score) (none, 0)

/-- A candidate of positive score that scores higher than the candidates before it, and no
lower than those behind it. -/
structure FirstBest (xs : List α) (x : α) : Prop where
  candidate : p x
  positive : 0 < score x
  first : ∃ before behind, xs = before ++ x :: behind ∧
    (∀ y ∈ before, p y → score y < score x) ∧ ∀ y ∈ behind, p y → score y ≤ score x

variable {p score}

omit [DecidablePred p] in
theorem FirstBest.le {xs : List α} {x : α} (h : FirstBest p score xs x) {y : α} (hy : y ∈ xs)
    (hp : p y) : score y ≤ score x := by
  obtain ⟨before, behind, rfl, hbefore, hbehind⟩ := h.first
  rcases List.mem_append.mp hy with hy | hy
  · exact le_of_lt (hbefore y hy hp)
  · rcases List.mem_cons.mp hy with rfl | hy
    · exact le_refl _
    · exact hbehind y hy hp

omit [DecidablePred p] in
theorem FirstBest.mem {xs : List α} {x : α} (h : FirstBest p score xs x) : x ∈ xs := by
  obtain ⟨before, behind, rfl, -⟩ := h.first
  exact List.mem_append_right before List.mem_cons_self

omit [DecidablePred p] in
/-- There is only one. -/
theorem FirstBest.unique {xs : List α} {x y : α} (hx : FirstBest p score xs x)
    (hy : FirstBest p score xs y) : x = y := by
  obtain ⟨before, behind, rfl, hbefore, hbehind⟩ := hx.first
  obtain ⟨before', behind', heq, hbefore', hbehind'⟩ := hy.first
  rcases List.append_eq_append_iff.mp heq with ⟨k, rfl, hk⟩ | ⟨k, rfl, hk⟩
  · cases k with
    | nil => exact (List.cons.inj hk).1
    | cons z k =>
      obtain ⟨rfl, rfl⟩ := List.cons.inj hk
      have hlt := hbefore' x (List.mem_append_right _ List.mem_cons_self) hx.candidate
      have hle := hbehind y (List.mem_append_right _ List.mem_cons_self) hy.candidate
      omega
  · cases k with
    | nil => exact (List.cons.inj hk).1.symm
    | cons z k =>
      obtain ⟨rfl, rfl⟩ := List.cons.inj hk
      have hlt := hbefore y (List.mem_append_right _ List.mem_cons_self) hy.candidate
      have hle := hbehind' x (List.mem_append_right _ List.mem_cons_self) hx.candidate
      omega

/-- What the scan has found: nothing when no candidate scores, or the first best and its
score. -/
def Found (p : α → Prop) (score : α → Nat) (xs : List α) (best : Option α × Nat) : Prop :=
  (best = (none, 0) ∧ ∀ x ∈ xs, p x → score x = 0) ∨
    ∃ x, best = (some x, score x) ∧ FirstBest p score xs x

/-- One more element. -/
theorem Found.step {xs : List α} {best : Option α × Nat} (h : Found p score xs best) (y : α) :
    Found p score (xs ++ [y]) (bestStep p score best y) := by
  unfold bestStep
  by_cases htaken : p y ∧ best.2 < score y
  · rw [if_pos htaken]
    obtain ⟨hp, hlt⟩ := htaken
    refine Or.inr ⟨y, rfl, hp, by omega, xs, [], rfl, ?_, fun _ hz => nomatch hz⟩
    intro z hz hpz
    rcases h with ⟨rfl, hzero⟩ | ⟨x, rfl, hfirst⟩
    · rw [hzero z hz hpz]
      exact hlt
    · exact lt_of_le_of_lt (hfirst.le hz hpz) hlt
  · rw [if_neg htaken]
    have hle : p y → score y ≤ best.2 := fun hp => by
      by_contra hlt
      exact htaken ⟨hp, by omega⟩
    rcases h with ⟨rfl, hzero⟩ | ⟨x, rfl, hfirst⟩
    · refine Or.inl ⟨rfl, fun z hz hpz => ?_⟩
      rcases List.mem_append.mp hz with hz | hz
      · exact hzero z hz hpz
      · rw [List.mem_singleton.mp hz] at hpz ⊢
        exact Nat.le_zero.mp (hle hpz)
    · obtain ⟨before, behind, rfl, hbefore, hbehind⟩ := hfirst.first
      refine Or.inr ⟨x, rfl, hfirst.candidate, hfirst.positive, before, behind ++ [y], ?_,
        hbefore, ?_⟩
      · rw [List.append_assoc, List.cons_append]
      · intro z hz hpz
        rcases List.mem_append.mp hz with hz | hz
        · exact hbehind z hz hpz
        · rw [List.mem_singleton.mp hz] at hpz ⊢
          exact hle hpz

variable (p score) in
theorem found_bestSoFar (xs : List α) : Found p score xs (bestSoFar p score xs) := by
  induction xs using List.reverseRecOn with
  | nil => exact Or.inl ⟨rfl, fun _ hx => nomatch hx⟩
  | append_singleton xs x ih =>
    rw [bestSoFar, List.foldl_append]
    exact ih.step x

theorem firstBest_of_bestSoFar {xs : List α} {x : α} (h : (bestSoFar p score xs).1 = some x) :
    (bestSoFar p score xs).2 = score x ∧ FirstBest p score xs x := by
  rcases found_bestSoFar p score xs with ⟨hbest, -⟩ | ⟨y, hbest, hfirst⟩
  · rw [hbest] at h
    cases h
  · rw [hbest] at h ⊢
    obtain rfl := Option.some.inj h
    exact ⟨rfl, hfirst⟩

theorem bestSoFar_eq_some_iff {xs : List α} {x : α} :
    (bestSoFar p score xs).1 = some x ↔ FirstBest p score xs x := by
  constructor
  · exact fun h => (firstBest_of_bestSoFar h).2
  · intro h
    rcases found_bestSoFar p score xs with ⟨-, hzero⟩ | ⟨y, hbest, hfirst⟩
    · have hpos := h.positive
      rw [hzero x h.mem h.candidate] at hpos
      omega
    · rw [hbest, hfirst.unique h]

theorem bestSoFar_eq_none_iff {xs : List α} :
    (bestSoFar p score xs).1 = none ↔ ∀ x ∈ xs, p x → score x = 0 := by
  rcases found_bestSoFar p score xs with ⟨hbest, hzero⟩ | ⟨y, hbest, hfirst⟩
  · rw [hbest]
    exact ⟨fun _ => hzero, fun _ => rfl⟩
  · rw [hbest]
    constructor
    · intro h
      cases h
    · intro h
      have hzero := h y hfirst.mem hfirst.candidate
      have hpos := hfirst.positive
      omega

end Lib
