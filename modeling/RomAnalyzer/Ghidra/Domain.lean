import RomAnalyzer.Ghidra.DtcCallSites
import RomAnalyzer.Ghidra.Program
import RomAnalyzer.Lib.BestSoFar
import RomAnalyzer.ObdAnalysis

/-!
# Diagnostic code in a program

The handlers of the diagnostic modes compare the identifier that is asked for and branch; what
the code behind the branch loads from RAM is the value of that identifier. The functions that
set and clear trouble codes are known by the instructions they are made of.
-/
namespace RomAnalyzer.Ghidra

open Lib
open ObdAnalysis (PidTrace)

def Instr.mnem (instr : Instr) : String := instr.mnemonic.toLower

section Dispatch

variable (program : Program)

def ramLo : Nat := 0x800000

def loadMnems : List String := ["ld", "ldh", "lduh", "ldb", "ldub"]

def branchMnems : List String := ["beq", "bne", "bc", "bnc", "blt", "bge", "bltu", "bgeu"]

def cmpMnems : List String := ["cmp", "cmpi", "cmpu", "cmpui"]

/-- The low byte of the first operand that is an immediate. -/
def pidVal (instr : Instr) : Option Nat :=
  (instr.scalars.findSome? id).map fun value => (value % 0x100).toNat

/-- Where the branch behind a compare goes. -/
def branchTargets (instr next : Instr) : List (Nat × Nat) :=
  if instr.mnem ∈ cmpMnems then
    match pidVal instr with
    | none => []
    | some pid =>
      if next.mnem ∈ branchMnems then
        (program.referencesFrom next.address).filterMap fun r =>
          if r.isFlow then r.toAddress.map fun target => (pid, offset32 target) else none
      else []
  else []

/-- The dispatch pass: an identifier and the code for it. -/
def pidTargets (f : Func) : List (Nat × Nat) :=
  let instrs := program.instructionsOf f
  (instrs.zip instrs.tail).flatMap fun pair => branchTargets program pair.1 pair.2

def loadSize (mnem : String) : Nat :=
  if 'b' ∈ mnem.toList then 1 else if 'h' ∈ mnem.toList then 2 else 4

/-- The first RAM address that an instruction reads. -/
def ramRead (instr : Instr) : Option Nat :=
  (program.referencesFrom instr.address).findSome? fun r =>
    if r.isRead then
      (r.toAddress.map offset32).bind fun ramAddr => if ramLo ≤ ramAddr then some ramAddr else none
    else none

def loadTrace (mode pid : Nat) (instr : Instr) (count : Nat) : Option PidTrace :=
  if instr.mnem ∈ loadMnems then
    (ramRead program instr).map fun ramAddr =>
      ⟨mode, pid, ramAddr, loadSize instr.mnem, if count < 5 then "high" else "medium"⟩
  else none

/-- The load pass: the loads among the first twenty instructions behind the branch. -/
def loadTraces (mode : Nat) (target : Nat × Nat) : List PidTrace :=
  ((program.instructionsFrom target.2).take 20).zipIdx.filterMap fun instr =>
    loadTrace program mode target.1 instr.1 instr.2

def fetchPidDispatchEntries (handlerEntries : List (Nat × Nat)) : List PidTrace :=
  handlerEntries.flatMap fun handler =>
    match program.functionContaining handler.2 with
    | none => []
    | some f => (pidTargets program f).flatMap (loadTraces program handler.1)

end Dispatch

/-! ### What is traced -/

section Traced

variable (program : Program)

/-- A compare with the identifier stands right before a branch that may go to the target. -/
def Dispatches (f : Func) (pid target : Nat) : Prop :=
  ∃ cmp branch, [cmp, branch] <:+: program.instructionsOf f ∧ cmp.mnem ∈ cmpMnems ∧
    pidVal cmp = some pid ∧ branch.mnem ∈ branchMnems ∧
      ∃ r ∈ program.references, r.fromAddress = branch.address ∧ r.isFlow = true ∧
        ∃ a, r.toAddress = some a ∧ offset32 a = target

/-- The number of instructions from one address up to another. -/
def distance (a b : Int) : Nat :=
  (program.instructions.filter fun i => a ≤ i.address ∧ i.address < b).length

/-- A load near behind the target reads the RAM address. -/
def Loads (target : Nat) (load : Instr) (ramAddr : Nat) : Prop :=
  load ∈ program.instructions ∧ (target : Int) ≤ load.address ∧
    distance program target load.address < 20 ∧ load.mnem ∈ loadMnems ∧
      ramRead program load = some ramAddr

end Traced

variable {program : Program}

theorem mem_pidTargets {f : Func} {pid target : Nat} :
    (pid, target) ∈ pidTargets program f ↔ Dispatches program f pid target := by
  have hbranch : ∀ instr next, (pid, target) ∈ branchTargets program instr next ↔
      instr.mnem ∈ cmpMnems ∧ pidVal instr = some pid ∧ next.mnem ∈ branchMnems ∧
        ∃ r ∈ program.references, r.fromAddress = next.address ∧ r.isFlow = true ∧
          ∃ a, r.toAddress = some a ∧ offset32 a = target := by
    intro instr next
    unfold branchTargets
    by_cases hcmp : instr.mnem ∈ cmpMnems
    · rw [if_pos hcmp]
      cases hpid : pidVal instr with
      | none => simp
      | some p =>
        dsimp only
        by_cases hnext : next.mnem ∈ branchMnems
        · rw [if_pos hnext]
          simp only [List.mem_filterMap, Option.ite_none_right_eq_some, Option.map_eq_some_iff,
            Prod.mk.injEq, Program.referencesFrom, List.mem_filter, decide_eq_true_eq]
          constructor
          · rintro ⟨r, ⟨hr, hfrom⟩, hflow, a, ha, rfl, htarget⟩
            exact ⟨hcmp, rfl, hnext, r, hr, hfrom, hflow, a, ha, htarget⟩
          · rintro ⟨-, hp, -, r, hr, hfrom, hflow, a, ha, htarget⟩
            exact ⟨r, ⟨hr, hfrom⟩, hflow, a, ha, Option.some.inj hp, htarget⟩
        · simp [hnext]
    · simp [hcmp]
  rw [pidTargets, List.mem_flatMap, Dispatches]
  constructor
  · rintro ⟨⟨instr, next⟩, hpair, hmem⟩
    obtain ⟨hcmp, hpid, hnext, href⟩ := (hbranch instr next).mp hmem
    exact ⟨instr, next, mem_zip_tail_iff.mp hpair, hcmp, hpid, hnext, href⟩
  · rintro ⟨instr, next, hpair, hcmp, hpid, hnext, href⟩
    exact ⟨(instr, next), mem_zip_tail_iff.mpr hpair, (hbranch instr next).mpr
      ⟨hcmp, hpid, hnext, href⟩⟩

theorem mem_window {target : Nat} {instr : Instr} {count : Nat} :
    (instr, count) ∈ ((program.instructionsFrom target).take 20).zipIdx ↔
      instr ∈ program.instructions ∧ (target : Int) ≤ instr.address ∧
        count = distance program target instr.address ∧ count < 20 := by
  have hsorted : (program.instructionsFrom target).Pairwise fun i j => i.address < j.address :=
    program.instructions_sorted.filter _
  have hposition := mem_zipIdx_iff_count hsorted (x := instr) (n := count)
  rw [List.mk_mem_zipIdx_iff_getElem?] at hposition
  rw [List.mk_mem_zipIdx_iff_getElem?, List.getElem?_take, Option.ite_none_right_eq_some,
    hposition, Program.instructionsFrom, List.filter_filter, List.mem_filter, decide_eq_true_iff]
  have hdistance : (program.instructions.filter fun i =>
      decide (i.address < instr.address) && decide ((target : Int) ≤ i.address)) =
      program.instructions.filter fun i =>
        (target : Int) ≤ i.address ∧ i.address < instr.address := by
    refine List.filter_congr fun i _ => ?_
    rw [Bool.decide_and, Bool.and_comm]
  rw [hdistance, ← distance]
  constructor
  · rintro ⟨hlt, ⟨hmem, hfrom⟩, hcount⟩
    exact ⟨hmem, hfrom, hcount, hlt⟩
  · rintro ⟨hmem, hfrom, hcount, hlt⟩
    exact ⟨hlt, ⟨hmem, hfrom⟩, hcount⟩

theorem mem_loadTraces {mode pid target : Nat} {t : PidTrace} :
    t ∈ loadTraces program mode (pid, target) ↔
      ∃ load ramAddr, Loads program target load ramAddr ∧
        t = ⟨mode, pid, ramAddr, loadSize load.mnem,
          if distance program target load.address < 5 then "high" else "medium"⟩ := by
  rw [loadTraces, List.mem_filterMap]
  constructor
  · rintro ⟨⟨load, count⟩, hwindow, htrace⟩
    obtain ⟨hmem, hfrom, rfl, hlt⟩ := mem_window.mp hwindow
    obtain ⟨hload, htrace⟩ := Option.ite_none_right_eq_some.mp htrace
    obtain ⟨ramAddr, hread, rfl⟩ := Option.map_eq_some_iff.mp htrace
    exact ⟨load, ramAddr, ⟨hmem, hfrom, hlt, hload, hread⟩, rfl⟩
  · rintro ⟨load, ramAddr, ⟨hmem, hfrom, hlt, hload, hread⟩, rfl⟩
    refine ⟨(load, distance program target load.address),
      mem_window.mpr ⟨hmem, hfrom, rfl, hlt⟩, ?_⟩
    rw [loadTrace, if_pos hload, hread, Option.map_some]

/-- What is traced is what is there: the handler compares the identifier right before a branch
to code that loads from the RAM address within twenty instructions. -/
theorem mem_fetchPidDispatchEntries (program : Program) (handlerEntries : List (Nat × Nat))
    (t : PidTrace) :
    t ∈ fetchPidDispatchEntries program handlerEntries ↔
      ∃ entry, (t.mode, entry) ∈ handlerEntries ∧
        ∃ f ∈ program.functions, (entry : Int) ∈ f.body ∧
          ∃ target, Dispatches program f t.pid target ∧
            ∃ load, Loads program target load t.ramAddr ∧ t.ramSize = loadSize load.mnem ∧
              t.confidence =
                if distance program target load.address < 5 then "high" else "medium" := by
  rw [fetchPidDispatchEntries, List.mem_flatMap]
  constructor
  · rintro ⟨⟨mode, entry⟩, hhandler, hmem⟩
    cases hcontaining : program.functionContaining entry with
    | none =>
      rw [hcontaining] at hmem
      cases hmem
    | some f =>
      rw [hcontaining] at hmem
      obtain ⟨⟨pid, target⟩, htarget, hload⟩ := List.mem_flatMap.mp hmem
      obtain ⟨hf, hbody⟩ := Program.functionContaining_eq_some_iff.mp hcontaining
      obtain ⟨load, ramAddr, hloads, rfl⟩ := mem_loadTraces.mp hload
      exact ⟨entry, hhandler, f, hf, hbody, target, mem_pidTargets.mp htarget, load, hloads,
        rfl, rfl⟩
  · rintro ⟨entry, hhandler, f, hf, hbody, target, hdispatch, load, hloads, hsize, hconfidence⟩
    refine ⟨(t.mode, entry), hhandler, ?_⟩
    rw [Program.functionContaining_eq_some_iff.mpr ⟨hf, hbody⟩]
    refine List.mem_flatMap.mpr ⟨(t.pid, target), mem_pidTargets.mpr hdispatch, ?_⟩
    refine mem_loadTraces.mpr ⟨load, t.ramAddr, hloads, ?_⟩
    cases t
    dsimp only at hsize hconfidence
    rw [hsize, hconfidence]

/-! ### The functions that set and clear codes -/

section Helpers

variable (program : Program)

def mnemsOf (f : Func) : List String := (program.instructionsOf f).map Instr.mnem

/-- How often the instructions stand in a row. -/
def countRow (row mnems : List String) : Nat := mnems.tails.countP row.isPrefixOf

/-- `or` and `sth` pairs -/
def orSth (f : Func) : Nat := countRow ["or", "sth"] (mnemsOf program f)

/-- `not`, `and` and `sth` triples -/
def notAndSth (f : Func) : Nat := countRow ["not", "and", "sth"] (mnemsOf program f)

/-- A short function that shifts by a constant. -/
def ShiftsMask (f : Func) : Prop :=
  (program.instructionsOf f).length ≤ 40 ∧ "slli" ∈ mnemsOf program f

instance (f : Func) : Decidable (ShiftsMask program f) := inferInstanceAs (Decidable (_ ∧ _))

structure HelperScan where
  setAddr : Option Nat := none
  resetAddr : Option Nat := none
  setScore : Nat := 0
  resetScore : Nat := 0

def scanStep (scan : HelperScan) (f : Func) : HelperScan :=
  if ShiftsMask program f then
    let setter := 3 ≤ orSth program f ∧ scan.setScore < orSth program f
    let resetter := 1 ≤ notAndSth program f ∧ scan.resetScore < notAndSth program f
    { setAddr := if setter then some (offset32 f.entry) else scan.setAddr
      setScore := if setter then orSth program f else scan.setScore
      resetAddr := if resetter then some (offset32 f.entry) else scan.resetAddr
      resetScore := if resetter then notAndSth program f else scan.resetScore }
  else scan

def helperScan : HelperScan := program.functions.foldl (scanStep program) {}

def fetchDtcHelpersStructural : Option Nat × Option Nat :=
  ((helperScan program).setAddr, (helperScan program).resetAddr)

/-- The scan for one of the two helpers: so many rows of its kind at least. -/
def helperBest (rows : Func → Nat) (least : Nat) : Option Func × Nat :=
  bestSoFar (fun f => ShiftsMask program f ∧ least ≤ rows f) rows program.functions

theorem bestStep_helper (rows : Func → Nat) (least : Nat) (best : Option Func × Nat) (f : Func) :
    bestStep (fun f => ShiftsMask program f ∧ least ≤ rows f) rows best f =
      if ShiftsMask program f then
        (if least ≤ rows f ∧ best.2 < rows f then some f else best.1,
          if least ≤ rows f ∧ best.2 < rows f then rows f else best.2)
      else best := by
  unfold bestStep
  by_cases hshift : ShiftsMask program f
  · by_cases hrows : least ≤ rows f ∧ best.2 < rows f
    · rw [if_pos ⟨⟨hshift, hrows.1⟩, hrows.2⟩, if_pos hshift, if_pos hrows, if_pos hrows]
    · rw [if_neg fun h => hrows ⟨h.1.2, h.2⟩, if_pos hshift, if_neg hrows, if_neg hrows]
  · rw [if_neg fun h => hshift h.1.1, if_neg hshift]

/-- The two scans go over the functions side by side. -/
theorem helperScan_eq :
    helperScan program =
      { setAddr := (helperBest program (orSth program) 3).1.map fun f => offset32 f.entry
        setScore := (helperBest program (orSth program) 3).2
        resetAddr := (helperBest program (notAndSth program) 1).1.map fun f => offset32 f.entry
        resetScore := (helperBest program (notAndSth program) 1).2 } := by
  unfold helperScan helperBest bestSoFar
  induction program.functions using List.reverseRecOn with
  | nil => rfl
  | append_singleton fs f ih =>
    rw [List.foldl_append, ih, List.foldl_append, List.foldl_append, List.foldl_cons,
      List.foldl_nil, List.foldl_cons, List.foldl_nil, List.foldl_cons, List.foldl_nil,
      bestStep_helper, bestStep_helper, scanStep]
    by_cases hshift : ShiftsMask program f
    · simp only [if_pos hshift, apply_ite (Option.map fun f : Func => offset32 f.entry),
        Option.map_some]
    · simp only [if_neg hshift]

/-- The functions at the found addresses, if any, are the first with the most rows of their
kind. -/
theorem fetchDtcHelpersStructural_spec :
    (∀ a, (fetchDtcHelpersStructural program).1 = some a ↔ ∃ f, offset32 f.entry = a ∧
      FirstBest (fun f => ShiftsMask program f ∧ 3 ≤ orSth program f) (orSth program)
        program.functions f) ∧
    ∀ a, (fetchDtcHelpersStructural program).2 = some a ↔ ∃ f, offset32 f.entry = a ∧
      FirstBest (fun f => ShiftsMask program f ∧ 1 ≤ notAndSth program f) (notAndSth program)
        program.functions f := by
  have hfound : ∀ (rows : Func → Nat) (least a : Nat),
      ((helperBest program rows least).1.map fun f => offset32 f.entry) = some a ↔
        ∃ f, offset32 f.entry = a ∧ FirstBest (fun f => ShiftsMask program f ∧ least ≤ rows f)
          rows program.functions f := by
    intro rows least a
    rw [Option.map_eq_some_iff]
    refine exists_congr fun f => ?_
    rw [and_comm, helperBest, bestSoFar_eq_some_iff]
  constructor
  · intro a
    rw [fetchDtcHelpersStructural, helperScan_eq]
    exact hfound (orSth program) 3 a
  · intro a
    rw [fetchDtcHelpersStructural, helperScan_eq]
    exact hfound (notAndSth program) 1 a

/-! ### Their calls -/

def listingInstruction (i : Instr) : ListingInstruction :=
  ⟨i.mnemonic, i.operands, (i.scalars[1]?).join⟩

/-- A reference with the listing in front of it and the function around it. -/
def callRef (r : Reference) : CallRef where
  fromAddress := r.fromAddress
  isCall := r.isCall
  before := (program.instructions.filter fun i => i.address < r.fromAddress).map listingInstruction
  caller := (program.functionContaining r.fromAddress).map fun f => (f.entry, f.name)

def callRefsTo (a : Nat) : List CallRef := (program.referencesTo a).map (callRef program)

end Helpers

end RomAnalyzer.Ghidra
