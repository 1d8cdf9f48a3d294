import RomAnalyzer.Ghidra.Dump
import RomAnalyzer.Mode23Bindings

/-!
# Queries to a program

What the passes after the matching ask of an open program: who calls a function and whom it
calls, the reads of an address within a function, and the constant loaded before a call.
-/
namespace RomAnalyzer.Ghidra

open Lib
open Mode23Bindings (sortedSites mem_sortedSites)

section Queries

variable (program : Program)

/-- The function around the address, or else what follows it; no list is empty. -/
def fetchInstructionsAt (address : Nat) (maxInstructions : Nat := 200) : Option (List Instr) :=
  let instrs := match program.functionContaining address with
    | some f => program.instructionsOf f
    | none => (program.instructionsFrom address).take maxInstructions
  if instrs = [] then none else some instrs

def fetchFunctionEntry (address : Nat) : Option Nat :=
  (program.functionContaining address).map fun f => offset32 f.entry

/-- The low byte of the immediate of an `ldi r0,#imm`. -/
def r0Imm (instr : Instr) : Option Int :=
  if instr.mnemonic = "ldi" ∧ 2 ≤ instr.operands.length ∧ instr.operands[0]? = some "r0" then
    ((instr.scalars[1]?).join).map fun value => value % 0x100
  else none

/-- The walk back through the listing. -/
def r0ImmFrom : Nat → Option Instr → Option Int
  | 0, _ => none
  | _ + 1, none => none
  | steps + 1, some cur =>
    match r0Imm cur with
    | some imm => some imm
    | none => r0ImmFrom steps (program.instructionBefore cur.address)

def fetchR0ImmBefore (callSite : Nat) (maxBack : Nat := 6) : Option Int :=
  r0ImmFrom program maxBack (program.instructionBefore callSite)

def fetchCallersOf (targetAddress : Nat) : List Nat :=
  sortedSites (((program.referencesTo targetAddress).filter Reference.isCall).map
    fun r => offset32 r.fromAddress)

/-- The function that starts where the reference calls. -/
def calleeOf (r : Reference) : Option Nat :=
  if r.isCall then (r.toAddress.bind program.functionAt).map fun g => offset32 g.entry else none

def fetchCalleesOf (functionAddress : Nat) : List Nat :=
  match program.functionAt functionAddress with
  | none => []
  | some f => sortedSites (f.body.flatMap fun a =>
      (program.referencesFrom a).filterMap (calleeOf program))

def fetchFunctionName (entryPoint : Nat) : Option String :=
  (program.functionAt entryPoint).map Func.name

def fetchDataReadSites (targetAddress containerEntry : Nat) : List Nat :=
  match program.functionContaining containerEntry with
  | none => []
  | some container => sortedSites (((program.referencesTo targetAddress).filter fun r =>
      r.fromAddress ∈ container.body ∧ r.isRead).map fun r => offset32 r.fromAddress)

end Queries

variable {program : Program}

theorem mem_referencesTo {a : Int} {r : Reference} :
    r ∈ program.referencesTo a ↔ r ∈ program.references ∧ r.toAddress = some a := by
  rw [Program.referencesTo, List.mem_filter, decide_eq_true_iff]

/-! ### Reads -/

/-- An instruction of the function at the site reads the address. -/
def ReadsAt (program : Program) (f : Func) (a site : Nat) : Prop :=
  (site : Int) ∈ f.body ∧ ∃ r ∈ program.references, r.fromAddress = site ∧
    r.toAddress = some (a : Int) ∧ r.isRead = true

theorem mem_fetchDataReadSites {f : Func} {container : Nat}
    (hf : program.functionContaining container = some f) {a site : Nat} :
    site ∈ fetchDataReadSites program a container ↔ ReadsAt program f a site := by
  rw [fetchDataReadSites, hf, mem_sortedSites, List.mem_map]
  constructor
  · rintro ⟨r, hr, rfl⟩
    obtain ⟨hto, hread⟩ := List.mem_filter.mp hr
    obtain ⟨hmem, hto⟩ := mem_referencesTo.mp hto
    obtain ⟨hbody, hread⟩ := of_decide_eq_true hread
    have hcast := Program.cast_offset32_site hmem
    refine ⟨?_, r, hmem, hcast.symm, hto, hread⟩
    rwa [hcast]
  · rintro ⟨hbody, r, hmem, hsite, hto, hread⟩
    refine ⟨r, List.mem_filter.mpr ⟨mem_referencesTo.mpr ⟨hmem, hto⟩, ?_⟩, ?_⟩
    · exact decide_eq_true ⟨hsite ▸ hbody, hread⟩
    · have hcast := Program.cast_offset32_site hmem
      omega

/-! ### The constant before a call -/

/-- The walk sees the instructions in front of the address, the nearest first. -/
theorem r0ImmFrom_instructionBefore (steps : Nat) (a : Int) :
    r0ImmFrom program steps (program.instructionBefore a) =
      ((program.instructions.filter fun i => i.address < a).reverse.take steps).findSome? r0Imm := by
  induction steps generalizing a with
  | zero => rfl
  | succ steps ih =>
    rw [Program.instructionBefore]
    rcases List.eq_nil_or_concat' (program.instructions.filter fun i => i.address < a) with
      hnil | ⟨init, last, hconcat⟩
    · rw [hnil]
      rfl
    · have hbelow := filter_lt_of_eq_concat program.instructions_sorted hconcat
      rw [hconcat, List.getLast?_concat, List.reverse_concat, List.take_succ_cons,
        List.findSome?_cons, r0ImmFrom, ih, hbelow]
      cases r0Imm last <;> rfl

/-- The instruction is one of the nearest in front of the site, and of those the nearest that
loads a constant into the register. -/
def R0LoadBefore (program : Program) (site : Int) (maxBack : Nat) (imm : Int) : Prop :=
  ∃ load ∈ program.instructions, load.address < site ∧ r0Imm load = some imm ∧
    (∀ i ∈ program.instructions, load.address < i.address → i.address < site →
      r0Imm i = none) ∧
    (program.instructions.filter fun i =>
      load.address ≤ i.address ∧ i.address < site).length ≤ maxBack

theorem fetchR0ImmBefore_eq_some_iff {callSite maxBack : Nat} {imm : Int} :
    fetchR0ImmBefore program callSite maxBack = some imm ↔
      R0LoadBefore program callSite maxBack imm := by
  have hsorted : (program.instructions.filter fun i => i.address < (callSite : Int)).reverse.Pairwise
      fun i j => j.address < i.address :=
    List.pairwise_reverse.mpr (program.instructions_sorted.filter _)
  rw [fetchR0ImmBefore, r0ImmFrom_instructionBefore,
    findSome?_take_eq_some_iff Instr.address hsorted]
  have hmem : ∀ i, i ∈ (program.instructions.filter fun i => i.address < (callSite : Int)).reverse ↔
      i ∈ program.instructions ∧ i.address < (callSite : Int) := by
    intro i
    rw [List.mem_reverse, List.mem_filter, decide_eq_true_iff]
  have hlength : ∀ load : Instr, ((program.instructions.filter fun i =>
      i.address < (callSite : Int)).reverse.filter fun i => load.address ≤ i.address).length =
      (program.instructions.filter fun i =>
        load.address ≤ i.address ∧ i.address < (callSite : Int)).length := by
    intro load
    rw [List.filter_reverse, List.length_reverse, List.filter_filter]
    simp only [Bool.decide_and]
  simp only [hmem, hlength, R0LoadBefore]
  constructor
  · rintro ⟨load, ⟨hload, hbefore⟩, himm, hnone, hnear⟩
    exact ⟨load, hload, hbefore, himm, fun i hi hafter hsite => hnone i ⟨hi, hsite⟩ hafter, hnear⟩
  · rintro ⟨load, hload, hbefore, himm, hnone, hnear⟩
    exact ⟨load, ⟨hload, hbefore⟩, himm, fun i hi hafter => hnone i hi.1 hafter hi.2, hnear⟩

/-! ### Callers and callees -/

theorem mem_fetchCallersOf {target site : Nat} :
    site ∈ fetchCallersOf program target ↔
      ∃ r ∈ program.references, r.toAddress = some (target : Int) ∧ r.isCall = true ∧
        offset32 r.fromAddress = site := by
  rw [fetchCallersOf, mem_sortedSites, List.mem_map]
  constructor
  · rintro ⟨r, hr, hsite⟩
    obtain ⟨hto, hcall⟩ := List.mem_filter.mp hr
    obtain ⟨hmem, hto⟩ := mem_referencesTo.mp hto
    exact ⟨r, hmem, hto, hcall, hsite⟩
  · rintro ⟨r, hmem, hto, hcall, hsite⟩
    exact ⟨r, List.mem_filter.mpr ⟨mem_referencesTo.mpr ⟨hmem, hto⟩, hcall⟩, hsite⟩

theorem functionAt_offset32 {f : Func} (hf : f ∈ program.functions) :
    program.functionAt (offset32 f.entry) = some f :=
  Program.functionAt_eq_some_iff.mpr ⟨hf, (Program.cast_offset32_entry hf).symm⟩

theorem calleeOf_eq_some_iff {g : Func} (hg : g ∈ program.functions) {r : Reference} :
    calleeOf program r = some (offset32 g.entry) ↔
      r.isCall = true ∧ r.toAddress = some g.entry := by
  unfold calleeOf
  rw [Option.ite_none_right_eq_some]
  refine and_congr_right fun _ => ?_
  rw [Option.map_eq_some_iff]
  constructor
  · rintro ⟨h, hat, hentry⟩
    obtain ⟨a, hto, hat⟩ := Option.bind_eq_some_iff.mp hat
    obtain ⟨hmem, rfl⟩ := Program.functionAt_eq_some_iff.mp hat
    rw [hto, Program.offset32_entry_inj hmem hg hentry]
  · intro hto
    refine ⟨g, ?_, rfl⟩
    rw [hto, Option.bind_some]
    exact Program.functionAt_eq_some_iff.mpr ⟨hg, rfl⟩

theorem mem_fetchCalleesOf {f g : Func} (hf : f ∈ program.functions)
    (hg : g ∈ program.functions) :
    offset32 g.entry ∈ fetchCalleesOf program (offset32 f.entry) ↔
      ∃ r ∈ program.references, r.fromAddress ∈ f.body ∧ r.isCall = true ∧
        r.toAddress = some g.entry := by
  rw [fetchCalleesOf, functionAt_offset32 hf, mem_sortedSites, List.mem_flatMap]
  constructor
  · rintro ⟨a, ha, hmem⟩
    obtain ⟨r, hfrom, hcallee⟩ := List.mem_filterMap.mp hmem
    obtain ⟨hr, rfl⟩ := mem_referencesFrom.mp hfrom
    exact ⟨r, hr, ha, (calleeOf_eq_some_iff hg).mp hcallee⟩
  · rintro ⟨r, hr, hbody, hcall⟩
    exact ⟨r.fromAddress, hbody, List.mem_filterMap.mpr
      ⟨r, mem_referencesFrom.mpr ⟨hr, rfl⟩, (calleeOf_eq_some_iff hg).mpr hcall⟩⟩

/-- The two queries agree: a function is listed among the callees of another exactly when one
of the sites that call it lies in the other's body. The dump, which also follows calls into
the middle of a function, lists no fewer. -/
theorem callees_callers (program : Program) {f g : Func} (hf : f ∈ program.functions)
    (hg : g ∈ program.functions) :
    (offset32 g.entry ∈ fetchCalleesOf program (offset32 f.entry) ↔
      ∃ site ∈ fetchCallersOf program (offset32 g.entry),
        program.functionContaining site = some f) ∧
    (g ≠ f → offset32 g.entry ∈ fetchCalleesOf program (offset32 f.entry) →
      ∀ collectDataRefs, g.entry.toNat ∈
        (dumpProgram program collectDataRefs).calleesOf f.entry.toNat) := by
  have hcast := Program.cast_offset32_entry hg
  constructor
  · rw [mem_fetchCalleesOf hf hg]
    constructor
    · rintro ⟨r, hr, hbody, hcall, hto⟩
      refine ⟨offset32 r.fromAddress, mem_fetchCallersOf.mpr ⟨r, hr, ?_, hcall, rfl⟩, ?_⟩
      · rw [hto, hcast]
      · rw [Program.cast_offset32_site hr]
        exact Program.functionContaining_eq_some_iff.mpr ⟨hf, hbody⟩
    · rintro ⟨site, hsite, hcontaining⟩
      obtain ⟨r, hr, hto, hcall, rfl⟩ := mem_fetchCallersOf.mp hsite
      rw [Program.cast_offset32_site hr] at hcontaining
      rw [hcast] at hto
      exact ⟨r, hr, (Program.functionContaining_eq_some_iff.mp hcontaining).2, hcall, hto⟩
  · intro hne hmem collectDataRefs
    obtain ⟨r, hr, hbody, hcall, hto⟩ := (mem_fetchCalleesOf hf hg).mp hmem
    have hcallees : (dumpProgram program collectDataRefs).callees.get? f.entry.toNat =
        some ((orderedCallees program f).map Int.toNat) :=
      get?_byEntry.mpr ⟨f, hf, rfl, rfl⟩
    rw [HeadlessRun.calleesOf, Dict.getD, hcallees, Option.getD_some]
    refine List.mem_map_of_mem (((orderedCallees_inOrder hf).mem_iff g.entry).mpr ?_)
    exact ⟨g, hg, hne, rfl, r.fromAddress, r, hr, hcall, rfl, hbody, g.entry,
      program.entry_mem_body g hg, hto⟩

theorem callees_callers_calling :
    offset32 0x300 ∈ fetchCalleesOf callingProgram 0x100 ↔
      ∃ site ∈ fetchCallersOf callingProgram 0x300,
        callingProgram.functionContaining site = some callingFunc :=
  (callees_callers callingProgram (f := callingFunc)
    (g := ⟨"last", 0x300, [0x300, 0x304]⟩) (by decide) (by decide)).1

end RomAnalyzer.Ghidra
