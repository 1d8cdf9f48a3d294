import Mathlib.Logic.Function.Basic
import Mathlib.Data.String.Basic

/-!
# Files that are replaced whole

A writer writes its text to a second file, and then puts that file in the place of the
first. It may stop at any point; a file of the kind that is read is then as it was, or
holds the whole text.
-/
namespace Lib

variable {κ : Type*} [DecidableEq κ]

structure Replacement (κ : Type*) where
  path : κ
  tmp : κ
  text : String

/-- How far a writer came. -/
inductive Progress
  | begun
  /-- so many characters are in the second file -/
  | writing (length : Nat)
  | replaced
  deriving DecidableEq, Repr

/-- The files after a writer that came so far. -/
def Replacement.run (w : Replacement κ) (disk : κ → Option String) : Progress → κ → Option String
  | .begun => disk
  | .writing length =>
    Function.update disk w.tmp (some (String.ofList (w.text.toList.take length)))
  | .replaced => Function.update (Function.update disk w.path (some w.text)) w.tmp none

/-- A writer replaces a file of the kind that is read, and no reader takes its second file. -/
structure Replacement.Safe (kept : κ → Prop) (w : Replacement κ) : Prop where
  path : kept w.path
  tmp : ¬kept w.tmp

section Run

variable {kept : κ → Prop} {w : Replacement κ}

/-- A reader finds the whole text, or what was there. -/
theorem Replacement.Safe.run_apply (disk : κ → Option String) (h : w.Safe kept) (p : Progress)
    {f : κ} (hf : kept f) :
    w.run disk p f = if p = .replaced ∧ f = w.path then some w.text else disk f := by
  have hne : f ≠ w.tmp := fun he => h.tmp (he ▸ hf)
  cases p with
  | begun => rfl
  | writing length =>
    rw [Replacement.run, Function.update_of_ne hne]
    rfl
  | replaced =>
    rw [Replacement.run, Function.update_of_ne hne]
    by_cases hpath : f = w.path
    · rw [hpath, Function.update_self, if_pos ⟨rfl, rfl⟩]
    · rw [Function.update_of_ne hpath, if_neg fun hp => hpath hp.2]

theorem Replacement.Safe.isSome_run (disk : κ → Option String) (h : w.Safe kept) (p : Progress)
    {f : κ} (hf : kept f) :
    (w.run disk p f).isSome ↔ (disk f).isSome ∨ p = .replaced ∧ f = w.path := by
  rw [h.run_apply disk p hf]
  split
  · rename_i hp
    simp only [Option.isSome_some, true_iff]
    exact Or.inr hp
  · rename_i hp
    simp only [hp, or_false]

variable {α : Type*} {read : String → Option α} {disk : κ → Option String} {files : κ → α}

/-- Every file of the kind that is there reads as its value. -/
def Holds (read : String → Option α) (kept : κ → Prop) (disk : κ → Option String)
    (files : κ → α) : Prop :=
  ∀ f, kept f → ∀ text, disk f = some text → read text = some (files f)

/-- The values after a writer that came so far. -/
def written (w : Replacement κ) (value : α) (files : κ → α) (p : Progress) : κ → α :=
  if p = .replaced then Function.update files w.path value else files

theorem Holds.run (h : Holds read kept disk files) (hw : w.Safe kept) {value : α}
    (hvalue : read w.text = some value) (p : Progress) :
    Holds read kept (w.run disk p) (written w value files p) := by
  intro f hf text htext
  rw [hw.run_apply disk p hf] at htext
  unfold written
  by_cases hp : p = .replaced
  · rw [if_pos hp]
    by_cases hpath : f = w.path
    · rw [if_pos ⟨hp, hpath⟩] at htext
      rw [hpath, Function.update_self, ← Option.some.inj htext]
      exact hvalue
    · rw [if_neg fun hboth => hpath hboth.2] at htext
      rw [Function.update_of_ne hpath]
      exact h f hf text htext
  · rw [if_neg fun hboth => hp hboth.1] at htext
    rw [if_neg hp]
    exact h f hf text htext

end Run

end Lib
