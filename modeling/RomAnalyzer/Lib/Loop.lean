import Mathlib

/-!
# Loops run on fuel

`doWhile body` runs `body` and repeats as long as it asks for another round.
Out of fuel is `none`, never a partial result, so a result is the state in which
the unbounded loop would have stopped. A measure that every repeated round
lowers is enough fuel.
-/
namespace Lib

universe u v

variable {σ : Type u} {τ : Type v}

def doWhile (body : σ → σ × Bool) : Nat → σ → Option σ
  | 0, s => if (body s).2 then none else some (body s).1
  | fuel + 1, s => if (body s).2 then doWhile body fuel (body s).1 else some (body s).1

theorem doWhile_stop {body : σ → σ × Bool} {s : σ} (h : (body s).2 = false) (fuel : Nat) :
    doWhile body fuel s = some (body s).1 := by
  cases fuel <;> simp [doWhile, h]

theorem doWhile_again {body : σ → σ × Bool} {s : σ} (h : (body s).2 = true) (fuel : Nat) :
    doWhile body (fuel + 1) s = doWhile body fuel (body s).1 := by
  simp [doWhile, h]

/-- More fuel never changes a result. -/
theorem doWhile_mono {body : σ → σ × Bool} {t : σ} :
    ∀ {n : Nat} {s : σ}, doWhile body n s = some t →
      ∀ {m : Nat}, n ≤ m → doWhile body m s = some t := by
  intro n
  induction n with
  | zero =>
    intro s h m _
    by_cases hb : (body s).2 = true
    · simp [doWhile, hb] at h
    · rw [Bool.not_eq_true] at hb
      rw [doWhile_stop hb] at h ⊢
      exact h
  | succ n ih =>
    intro s h m hm
    by_cases hb : (body s).2 = true
    · cases m with
      | zero => omega
      | succ m =>
        rw [doWhile_again hb] at h ⊢
        exact ih h (Nat.le_of_succ_le_succ hm)
    · rw [Bool.not_eq_true] at hb
      rw [doWhile_stop hb] at h ⊢
      exact h

/-- Total correctness: an invariant of the rounds and a measure that every
repeated round lowers. The last round is exposed, because what it found is the
reason the loop stopped. -/
theorem doWhile_total {body : σ → σ × Bool} (Inv : σ → Prop) (measure : σ → Nat)
    (hinv : ∀ s, Inv s → Inv (body s).1)
    (hdec : ∀ s, Inv s → (body s).2 = true → measure (body s).1 < measure s) :
    ∀ (fuel : Nat) (s : σ), Inv s → measure s ≤ fuel →
      ∃ last, Inv last ∧ (body last).2 = false ∧
        doWhile body fuel s = some (body last).1 := by
  intro fuel
  induction fuel with
  | zero =>
    intro s hs hm
    by_cases hb : (body s).2 = true
    · have hlt := hdec s hs hb
      omega
    · rw [Bool.not_eq_true] at hb
      exact ⟨s, hs, hb, doWhile_stop hb 0⟩
  | succ fuel ih =>
    intro s hs hm
    by_cases hb : (body s).2 = true
    · have hlt := hdec s hs hb
      obtain ⟨last, hl, hstop, hrun⟩ := ih (body s).1 (hinv s hs) (by omega)
      exact ⟨last, hl, hstop, (doWhile_again hb fuel).trans hrun⟩
    · rw [Bool.not_eq_true] at hb
      exact ⟨s, hs, hb, doWhile_stop hb _⟩

/-- Two loops whose rounds stay related and stop together give related results. -/
theorem doWhile_simulates {body : σ → σ × Bool} {body' : τ → τ × Bool} (R : σ → τ → Prop)
    (hround : ∀ s t, R s t → R (body s).1 (body' t).1 ∧ (body s).2 = (body' t).2) :
    ∀ (fuel : Nat) (s : σ) (t : τ), R s t → ∀ t', doWhile body' fuel t = some t' →
      ∃ s', doWhile body fuel s = some s' ∧ R s' t' := by
  intro fuel
  induction fuel with
  | zero =>
    intro s t hst t' ht
    obtain ⟨hr, hb⟩ := hround s t hst
    by_cases hs : (body' t).2 = true
    · simp [doWhile, hs] at ht
    · rw [Bool.not_eq_true] at hs
      rw [doWhile_stop hs, Option.some.injEq] at ht
      exact ⟨_, doWhile_stop (hb.trans hs) 0, ht ▸ hr⟩
  | succ fuel ih =>
    intro s t hst t' ht
    obtain ⟨hr, hb⟩ := hround s t hst
    by_cases hs : (body' t).2 = true
    · rw [doWhile_again hs] at ht
      obtain ⟨s', hs', hR⟩ := ih _ _ hr t' ht
      exact ⟨s', (doWhile_again (hb.trans hs) fuel).trans hs', hR⟩
    · rw [Bool.not_eq_true] at hs
      rw [doWhile_stop hs, Option.some.injEq] at ht
      exact ⟨_, doWhile_stop (hb.trans hs) _, ht ▸ hr⟩

/-- A fold whose steps do nothing unless they raise a flag: if the flag is down at
the end, no step did anything. -/
theorem foldl_quiet {α : Type v} {op : σ → α → σ} (flag : σ → Bool)
    (hstep : ∀ s a, op s a = s ∨ flag (op s a) = true) :
    ∀ (xs : List α) (s : σ), flag (xs.foldl op s) = false →
      xs.foldl op s = s ∧ ∀ a ∈ xs, op s a = s := by
  intro xs
  induction xs with
  | nil => exact fun s _ => ⟨rfl, by simp⟩
  | cons x xs ih =>
    intro s h
    rw [List.foldl_cons] at h ⊢
    obtain ⟨hrest, hquiet⟩ := ih (op s x) h
    rw [hrest] at h ⊢
    have hx : op s x = s := by
      rcases hstep s x with hs | hs
      · exact hs
      · rw [h] at hs
        cases hs
    rw [hx] at hquiet ⊢
    refine ⟨rfl, fun a ha => ?_⟩
    rcases List.mem_cons.mp ha with he | ha
    · rw [he, hx]
    · exact hquiet a ha

/-- The property holds in every state of the fold, the first and the last included. -/
def Along {α : Type v} (op : σ → α → σ) (s : σ) (xs : List α) (P : σ → Prop) : Prop :=
  ∀ pre, pre <+: xs → P (pre.foldl op s)

/-- The relation holds of every step of the fold and the state that it is taken in. -/
def AtSteps {α : Type v} (op : σ → α → σ) (s : σ) (xs : List α) (C : σ → α → Prop) : Prop :=
  ∀ pre a, pre ++ [a] <+: xs → C (pre.foldl op s) a

theorem atSteps_singleton {α : Type v} {op : σ → α → σ} {s : σ} {a : α} {C : σ → α → Prop} :
    AtSteps op s [a] C ↔ C s a := by
  constructor
  · exact fun h => h [] a (List.prefix_refl [a])
  · intro h pre b hpre
    have hlen := hpre.length_le
    rw [List.length_append, List.length_singleton, List.length_singleton] at hlen
    obtain rfl : pre = [] := List.length_eq_zero_iff.mp (by omega)
    obtain ⟨rfl, _⟩ := List.cons_prefix_cons.mp hpre
    exact h

/-- Where a condition decides whether a step preserves the property, the condition at
every step decides whether it holds along the fold. -/
theorem along_iff_atSteps {α : Type v} {op : σ → α → σ} {P : σ → Prop} {C : σ → α → Prop}
    (hstep : ∀ s a, P s → (P (op s a) ↔ C s a)) {s : σ} (hs : P s) (xs : List α) :
    Along op s xs P ↔ AtSteps op s xs C := by
  have hlast : ∀ (pre : List α) (a : α), (pre ++ [a]).foldl op s = op (pre.foldl op s) a := by
    intro pre a
    rw [List.foldl_append, List.foldl_cons, List.foldl_nil]
  constructor
  · intro h pre a hpre
    have hbefore := h pre ((List.prefix_append pre [a]).trans hpre)
    apply (hstep _ a hbefore).mp
    rw [← hlast]
    exact h (pre ++ [a]) hpre
  · intro h pre
    induction pre using List.reverseRecOn with
    | nil => exact fun _ => hs
    | append_singleton pre a ih =>
      intro hpre
      rw [hlast]
      exact (hstep _ a (ih ((List.prefix_append pre [a]).trans hpre))).mpr (h pre a hpre)

/-- A property that every step preserves holds along the fold. -/
theorem along_of_preserved {α : Type v} {op : σ → α → σ} {P : σ → Prop}
    (hstep : ∀ s a, P s → P (op s a)) {s : σ} (hs : P s) (xs : List α) : Along op s xs P :=
  (along_iff_atSteps (C := fun _ _ => True) (fun s a h => iff_true_intro (hstep s a h)) hs xs).mpr
    fun _ _ _ => trivial

end Lib
