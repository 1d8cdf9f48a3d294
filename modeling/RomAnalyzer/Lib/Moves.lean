import Mathlib

/-!
# Straight-line moves

Code that only loads constants and copies registers. What a register holds at the end is
found by following it back: to a constant, or to a register it held at the start.
-/
namespace Lib

variable {ρ ν : Type*} [DecidableEq ρ]

inductive Move (ρ ν : Type*) where
  | load (dest : ρ) (value : ν)
  | copy (dest source : ρ)

/-- Where a value comes from: a constant, or what a register holds further up. -/
inductive Source (ρ ν : Type*) where
  | value (v : ν)
  | register (r : ρ)
  deriving DecidableEq

namespace Move

def exec (regs : ρ → ν) : Move ρ ν → ρ → ν
  | load d v => Function.update regs d v
  | copy d s => Function.update regs d (regs s)

/-- Execution forwards. -/
def run (regs : ρ → ν) (code : List (Move ρ ν)) : ρ → ν := code.foldl exec regs

/-- One instruction further up. -/
def back : Source ρ ν → Move ρ ν → Source ρ ν
  | .value v, _ => .value v
  | .register r, load d v => if r = d then .value v else .register r
  | .register r, copy d s => if r = d then .register s else .register r

/-- The way back, over instructions that are listed nearest first. -/
def trace (src : Source ρ ν) (nearest : List (Move ρ ν)) : Source ρ ν := nearest.foldl back src

/-- The register that is written. -/
def dest : Move ρ ν → ρ
  | load d _ => d
  | copy d _ => d

/-- One copy further up; constants are passed over. -/
def followStep (r : ρ) : Move ρ ν → ρ
  | load _ _ => r
  | copy d s => if r = d then s else r

/-- The register that the copies lead back to, whatever is loaded on the way. -/
def follow (r : ρ) (nearest : List (Move ρ ν)) : ρ := nearest.foldl followStep r

end Move

namespace Source

def eval (regs : ρ → ν) : Source ρ ν → ν
  | value v => v
  | register r => regs r

end Source

namespace Move

@[simp] theorem back_load_self (d : ρ) (v : ν) : back (.register d) (load d v) = .value v :=
  if_pos rfl

theorem back_load_of_ne {r d : ρ} (h : d ≠ r) (v : ν) :
    back (.register r) (load d v) = .register r := if_neg h.symm

@[simp] theorem back_copy_self (d s : ρ) :
    back (.register d) (copy d s) = (.register s : Source ρ ν) := if_pos rfl

theorem back_copy_of_ne {r d : ρ} (h : d ≠ r) (s : ρ) :
    back (.register r) (copy d s) = (.register r : Source ρ ν) := if_neg h.symm

@[simp] theorem trace_nil (src : Source ρ ν) : trace src [] = src := rfl

@[simp] theorem trace_cons (src : Source ρ ν) (m : Move ρ ν) (nearest : List (Move ρ ν)) :
    trace src (m :: nearest) = trace (back src m) nearest := rfl

@[simp] theorem trace_value (v : ν) (nearest : List (Move ρ ν)) :
    trace (.value v) nearest = (.value v : Source ρ ν) := by
  induction nearest with
  | nil => rfl
  | cons m nearest ih => exact ih

theorem trace_append (src : Source ρ ν) (near far : List (Move ρ ν)) :
    trace src (near ++ far) = trace (trace src near) far := List.foldl_append

/-- A constant found on the way is the constant of the whole way. -/
theorem trace_eq_value_of_take {src : Source ρ ν} {nearest : List (Move ρ ν)} {n : Nat} {v : ν}
    (h : trace src (nearest.take n) = .value v) : trace src nearest = .value v := by
  rw [← List.take_append_drop n nearest, trace_append, h, trace_value]

theorem eval_back (regs : ρ → ν) (src : Source ρ ν) (m : Move ρ ν) :
    (back src m).eval regs = src.eval (m.exec regs) := by
  cases src with
  | value v => rfl
  | register r =>
    cases m with
    | load d v =>
      by_cases h : r = d
      · simp [back, exec, Source.eval, h]
      · simp [back, exec, Source.eval, h]
    | copy d s =>
      by_cases h : r = d
      · simp [back, exec, Source.eval, h]
      · simp [back, exec, Source.eval, h]

@[simp] theorem follow_nil (r : ρ) : follow r ([] : List (Move ρ ν)) = r := rfl

@[simp] theorem follow_cons (r : ρ) (m : Move ρ ν) (nearest : List (Move ρ ν)) :
    follow r (m :: nearest) = follow (followStep r m) nearest := rfl

@[simp] theorem followStep_load (r d : ρ) (v : ν) : followStep r (load d v) = r := rfl

@[simp] theorem followStep_copy_self (d s : ρ) : followStep d (copy d s : Move ρ ν) = s := if_pos rfl

theorem followStep_copy_of_ne {r d : ρ} (h : d ≠ r) (s : ρ) :
    followStep r (copy d s : Move ρ ν) = r := if_neg h.symm

/-- Where nothing copies into a register, its value is the nearest constant loaded into it. -/
theorem trace_eq_value_iff {q : ρ} {nearest : List (Move ρ ν)}
    (hcopy : ∀ s, copy q s ∉ nearest) {v : ν} :
    trace (.register q) nearest = .value v ↔
      ∃ near far, nearest = near ++ load q v :: far ∧ ∀ m ∈ near, m.dest ≠ q := by
  induction nearest with
  | nil => simp
  | cons m nearest ih =>
    have hrest := ih fun s hs => hcopy s (List.mem_cons_of_mem m hs)
    have hskip : m.dest ≠ q → ((∃ near far, m :: nearest = near ++ load q v :: far ∧
        ∀ m ∈ near, m.dest ≠ q) ↔
          ∃ near far, nearest = near ++ load q v :: far ∧ ∀ m ∈ near, m.dest ≠ q) := by
      intro hm
      constructor
      · rintro ⟨near, far, hsplit, hnear⟩
        cases near with
        | nil =>
          obtain ⟨rfl, _⟩ := List.cons.inj hsplit
          exact absurd rfl hm
        | cons m' near =>
          obtain ⟨_, hsplit⟩ := List.cons.inj hsplit
          exact ⟨near, far, hsplit, fun k hk => hnear k (List.mem_cons_of_mem m' hk)⟩
      · rintro ⟨near, far, hsplit, hnear⟩
        refine ⟨m :: near, far, by rw [hsplit, List.cons_append], fun k hk => ?_⟩
        rcases List.mem_cons.mp hk with rfl | hk
        · exact hm
        · exact hnear k hk
    cases m with
    | load d w =>
      by_cases hd : d = q
      · subst hd
        rw [trace_cons, back_load_self, trace_value]
        constructor
        · intro hw
          exact ⟨[], nearest, by rw [Source.value.inj hw, List.nil_append], by simp⟩
        · rintro ⟨near, far, hsplit, hnear⟩
          cases near with
          | nil =>
            obtain ⟨hload, _⟩ := List.cons.inj hsplit
            rw [(load.inj hload).2]
          | cons m' near =>
            obtain ⟨rfl, _⟩ := List.cons.inj hsplit
            exact absurd rfl (hnear _ List.mem_cons_self)
      · rw [trace_cons, back_load_of_ne hd, hrest, hskip hd]
    | copy d s =>
      have hd : d ≠ q := by
        rintro rfl
        exact hcopy s List.mem_cons_self
      rw [trace_cons, back_copy_of_ne hd, hrest, hskip hd]

/-- Following a register back gives what execution leaves in it. -/
theorem run_eq_eval_trace (regs : ρ → ν) (code : List (Move ρ ν)) (r : ρ) :
    run regs code r = (trace (.register r) code.reverse).eval regs := by
  induction code generalizing regs with
  | nil => rfl
  | cons m code ih =>
    rw [List.reverse_cons, trace_append, trace_cons, trace_nil, eval_back]
    exact ih (m.exec regs)

end Move

end Lib
