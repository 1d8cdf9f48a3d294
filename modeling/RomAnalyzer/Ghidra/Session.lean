import RomAnalyzer.Types
import RomAnalyzer.Lib.Dict

/-!
# Program dumps

What one import of a ROM returns. The dictionaries keep the order in which the
functions of the program were visited.
-/
namespace RomAnalyzer.Ghidra

open Lib

structure ProgramFunction where
  name : String
  entry : Nat
  deriving DecidableEq, Repr

structure ProgramSymbol where
  name : String
  address : Nat
  source : String
  type : String
  deriving DecidableEq, Repr

structure HeadlessRun where
  functions : List ProgramFunction := []
  symbols : List ProgramSymbol := []
  ramRefs : List Nat := []
  dataRefs : Dict Nat (List DataRef) := Dict.empty
  callees : Dict Nat (List Nat) := Dict.empty
  ramDataRefs : Dict Nat (List DataRef) := Dict.empty

/-- `run.callees.get(entry, [])` -/
def HeadlessRun.calleesOf (run : HeadlessRun) (entry : Nat) : List Nat :=
  run.callees.getD entry []

/-- Every callee entry the program mentions. -/
def HeadlessRun.allCallees (run : HeadlessRun) : List Nat := run.callees.values.flatten

theorem HeadlessRun.mem_allCallees {run : HeadlessRun} {caller callee : Nat}
    (h : callee ∈ run.calleesOf caller) : callee ∈ run.allCallees := by
  unfold calleesOf Dict.getD at h
  cases hg : run.callees.get? caller with
  | none => simp [hg] at h
  | some callees =>
    rw [hg] at h
    exact List.mem_flatten.mpr ⟨callees, (Dict.mem_values_iff _ _).mpr ⟨caller, hg⟩, h⟩

end RomAnalyzer.Ghidra
