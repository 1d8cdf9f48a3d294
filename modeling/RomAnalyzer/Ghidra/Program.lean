import RomAnalyzer.Ghidra.DtcCallSites
import RomAnalyzer.Lib.Scan

/-!
# The program database

What the queries see of an imported program: its functions with their bodies, the
instructions, the symbols, and the references between addresses. An address is the signed
offset that `getOffset` returns.
-/
namespace RomAnalyzer.Ghidra

open Lib

structure Func where
  name : String
  entry : Int
  /-- ascending -/
  body : List Int
  deriving DecidableEq, Repr

/-- A reference with the tests that its type answers. -/
structure Reference where
  fromAddress : Int
  toAddress : Option Int
  isCall : Bool := false
  isFlow : Bool := false
  isData : Bool := false
  isRead : Bool := false
  isWrite : Bool := false
  deriving DecidableEq, Repr

structure Instr where
  address : Int
  mnemonic : String
  operands : List String := []
  /-- one for each operand -/
  scalars : List (Option Int) := []
  deriving DecidableEq, Repr

structure Sym where
  name : String
  address : Option Int
  source : String := "DEFAULT"
  type : String := "Label"
  deriving DecidableEq, Repr

/-- Functions have entries of their own, inside bodies that share no address; bodies and
the sites of references lie in the space of 32 bits; instructions and references are listed
by the address they are at. -/
structure Program where
  functions : List Func
  references : List Reference
  instructions : List Instr := []
  symbols : List Sym := []
  entries_nodup : (functions.map Func.entry).Nodup
  body_range : ∀ f ∈ functions, ∀ a ∈ f.body, 0 ≤ a ∧ a < 0x100000000
  entry_mem_body : ∀ f ∈ functions, f.entry ∈ f.body
  bodies_disjoint : ∀ f ∈ functions, ∀ g ∈ functions, ∀ a ∈ f.body, a ∈ g.body → f = g
  body_sorted : ∀ f ∈ functions, f.body.Pairwise (· < ·)
  references_sorted : references.Pairwise fun r s => r.fromAddress ≤ s.fromAddress
  reference_range : ∀ r ∈ references, 0 ≤ r.fromAddress ∧ r.fromAddress < 0x100000000
  instructions_sorted : instructions.Pairwise fun i j => i.address < j.address
  symbol_range : ∀ s ∈ symbols, ∀ a ∈ s.address, 0 ≤ a

theorem instructions_sorted_nil :
    ([] : List Instr).Pairwise fun i j => i.address < j.address := List.Pairwise.nil

theorem symbol_range_nil : ∀ s ∈ ([] : List Sym), ∀ a ∈ s.address, 0 ≤ a := by
  intro s hs
  cases hs

namespace Program

variable (program : Program)

def functionAt (a : Int) : Option Func := program.functions.find? fun f => f.entry = a

def functionContaining (a : Int) : Option Func := program.functions.find? fun f => a ∈ f.body

def referencesTo (a : Int) : List Reference :=
  program.references.filter fun r => r.toAddress = some a

def referencesFrom (a : Int) : List Reference :=
  program.references.filter fun r => r.fromAddress = a

/-- The instructions of a function, in the order of their addresses. -/
def instructionsOf (f : Func) : List Instr :=
  program.instructions.filter fun i => i.address ∈ f.body

def instructionsFrom (a : Int) : List Instr := program.instructions.filter fun i => a ≤ i.address

/-- `getInstructionBefore` -/
def instructionBefore (a : Int) : Option Instr :=
  (program.instructions.filter fun i => i.address < a).getLast?

variable {program}

theorem functionAt_eq_some_iff {a : Int} {f : Func} :
    program.functionAt a = some f ↔ f ∈ program.functions ∧ f.entry = a := by
  unfold functionAt
  rw [find?_eq_some_iff_of_unique, decide_eq_true_iff]
  intro f hf g hg hfa hga
  rw [decide_eq_true_iff] at hfa hga
  exact List.inj_on_of_nodup_map program.entries_nodup hf hg (hfa.trans hga.symm)

theorem functionContaining_eq_some_iff {a : Int} {f : Func} :
    program.functionContaining a = some f ↔ f ∈ program.functions ∧ a ∈ f.body := by
  unfold functionContaining
  rw [find?_eq_some_iff_of_unique, decide_eq_true_iff]
  intro f hf g hg hfa hga
  exact program.bodies_disjoint f hf g hg a (of_decide_eq_true hfa) (of_decide_eq_true hga)

/-- An address of a body keeps its value under the mask. -/
theorem cast_offset32_body {f : Func} (hf : f ∈ program.functions) {a : Int} (ha : a ∈ f.body) :
    (offset32 a : Int) = a := by
  have hrange := program.body_range f hf a ha
  unfold offset32
  omega

/-- So does the site of a reference. -/
theorem cast_offset32_site {r : Reference} (hr : r ∈ program.references) :
    (offset32 r.fromAddress : Int) = r.fromAddress := by
  have hrange := program.reference_range r hr
  unfold offset32
  omega

theorem cast_offset32_entry {f : Func} (hf : f ∈ program.functions) :
    (offset32 f.entry : Int) = f.entry :=
  cast_offset32_body hf (program.entry_mem_body f hf)

theorem offset32_entry_inj {f g : Func} (hf : f ∈ program.functions) (hg : g ∈ program.functions)
    (h : offset32 f.entry = offset32 g.entry) : f = g := by
  have hcast : f.entry = g.entry := by
    rw [← cast_offset32_entry hf, ← cast_offset32_entry hg, h]
  exact List.inj_on_of_nodup_map program.entries_nodup hf hg hcast

/-! ### New names -/

variable (program)

/-- The program with other names for its functions. -/
def rename (name : Func → String) : Program where
  functions := program.functions.map fun f => { f with name := name f }
  references := program.references
  instructions := program.instructions
  symbols := program.symbols
  entries_nodup := by
    rw [List.map_map]
    exact program.entries_nodup
  body_range := List.forall_mem_map.mpr program.body_range
  entry_mem_body := List.forall_mem_map.mpr program.entry_mem_body
  bodies_disjoint := by
    refine List.forall_mem_map.mpr fun f hf => List.forall_mem_map.mpr fun g hg a ha hag => ?_
    rw [program.bodies_disjoint f hf g hg a ha hag]
  body_sorted := List.forall_mem_map.mpr program.body_sorted
  references_sorted := program.references_sorted
  reference_range := program.reference_range
  instructions_sorted := program.instructions_sorted
  symbol_range := program.symbol_range

/-- `getFunctionAt(toAddr(address)).setName(name)`, where there is a function. -/
def setName (address : Nat) (name : String) : Program :=
  program.rename fun f => if f.entry = address then name else f.name

end Program

end RomAnalyzer.Ghidra
