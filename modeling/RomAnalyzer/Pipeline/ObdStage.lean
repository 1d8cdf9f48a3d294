import RomAnalyzer.ObdAnalysis.Dtc
import RomAnalyzer.Pipeline.ProjectQueries

/-!
# Trouble codes in a project

The functions that set and clear a code are matched by name, or else known by their
instructions. Their calls in the new program tell which code is set where.
-/
namespace RomAnalyzer.Pipeline

open Lib
open Ghidra (DtcCallSite Func Program callRef dtcCallSite)
open ObdAnalysis (DTCEntry DTCSetterInfo OBDAnalysis setterInfo sitesAt)

section Stage

/-- `set_addr or scan_set`: an address of zero counts as none. -/
def orAddr : Option Nat → Option Nat → Option Nat
  | some (a + 1), _ => some (a + 1)
  | _, scan => scan

/-- The program is scanned when one of the two functions was not matched. -/
def dtcHelpers (program : Program) (ms : List MatchedFunction) : Option Nat × Option Nat :=
  let setAddr := (setMatch.select ms).map MatchedFunction.newAddress
  let resetAddr := (resetMatch.select ms).map MatchedFunction.newAddress
  if setAddr = none ∨ resetAddr = none then
    let scan := Ghidra.fetchDtcHelpersStructural program
    (orAddr setAddr scan.1, orAddr resetAddr scan.2)
  else (setAddr, resetAddr)

/-- The address in the reference ROM stands in for a table that was not carried over. -/
def dtcTableAddrNew (propagated : List PropagatedSymbol) : Nat :=
  ((propagated.find? fun p => p.name = "flash_trouble_code_table").map
    PropagatedSymbol.newAddress).getD 0x12948

def obdStage (program : Program) (ctx : RomContext) (merged : MergeResult) : OBDAnalysis :=
  let helpers := dtcHelpers program merged.matches_
  ObdAnalysis.runObdAnalysis ctx.romBytes (dtcTableAddrNew merged.propagated)
    (Ghidra.fetchPidDispatchEntries program (handlerEntries merged.matches_))
    (Ghidra.callRefsTo program) helpers.1 helpers.2

end Stage

/-! ### The helpers -/

/-- The match of a helper, or what the scan finds when there is none; a match at address zero
counts when the other helper is matched too. -/
def HelperAt (own other : Option MatchedFunction) (Best : Func → Prop) (a : Nat) : Prop :=
  (∃ m, own = some m ∧ m.newAddress = a ∧ (a ≠ 0 ∨ other ≠ none)) ∨
    ((own = none ∨ other = none ∧ ∃ m, own = some m ∧ m.newAddress = 0) ∧
      ∃ f, Ghidra.offset32 f.entry = a ∧ Best f)

/-- Among the functions that shift a mask, the first that stores the most words it has set or
cleared a bit of. -/
def StoresMost (program : Program) (rows : Func → Nat) (least : Nat) (f : Func) : Prop :=
  FirstBest (fun f => Ghidra.ShiftsMask program f ∧ least ≤ rows f) rows program.functions f

/-- The helper that sets a code, or the one that clears it. -/
def IsHelper (program : Program) (ms : List MatchedFunction) (isSet : Bool) (a : Nat) : Prop :=
  if isSet then
    HelperAt (setMatch.select ms) (resetMatch.select ms)
      (StoresMost program (Ghidra.orSth program) 3) a
  else
    HelperAt (resetMatch.select ms) (setMatch.select ms)
      (StoresMost program (Ghidra.notAndSth program) 1) a

variable {program : Program} {ms : List MatchedFunction}

/-- Either helper, as the code takes it. -/
theorem helper_eq_some_iff (own other : Option MatchedFunction) {scan : Option Nat}
    {Best : Func → Prop} (hscan : ∀ a, scan = some a ↔ ∃ f, Ghidra.offset32 f.entry = a ∧ Best f)
    (a : Nat) :
    (if own.map MatchedFunction.newAddress = none ∨ other.map MatchedFunction.newAddress = none then
        orAddr (own.map MatchedFunction.newAddress) scan
      else own.map MatchedFunction.newAddress) = some a ↔ HelperAt own other Best a := by
  unfold HelperAt
  rw [← hscan]
  cases own with
  | none => simp [orAddr]
  | some m =>
    cases other with
    | some m' => simp
    | none =>
      cases haddr : m.newAddress with
      | zero =>
        simp only [Option.map_some, Option.map_none, or_true, if_true, haddr, orAddr]
        constructor
        · intro h
          exact Or.inr ⟨Or.inr ⟨trivial, m, rfl, haddr⟩, h⟩
        · rintro (⟨_, heq, rfl, hne⟩ | ⟨-, h⟩)
          · obtain rfl := Option.some.inj heq
            rcases hne with hne | hne
            · exact absurd haddr hne
            · exact absurd rfl hne
          · exact h
      | succ n =>
        simp only [Option.map_some, Option.map_none, or_true, if_true, haddr, orAddr]
        constructor
        · rintro h
          obtain rfl := Option.some.inj h
          exact Or.inl ⟨m, rfl, haddr, Or.inl (Nat.succ_ne_zero n)⟩
        · rintro (⟨_, heq, rfl, -⟩ | ⟨hmissing, -⟩)
          · obtain rfl := Option.some.inj heq
            rw [haddr]
          · rcases hmissing with hnone | ⟨-, _, heq, hzero⟩
            · cases hnone
            · obtain rfl := Option.some.inj heq
              rw [haddr] at hzero
              cases hzero

theorem dtcHelpers_eq_some_iff (isSet : Bool) (a : Nat) :
    (if isSet then (dtcHelpers program ms).1 else (dtcHelpers program ms).2) = some a ↔
      IsHelper program ms isSet a := by
  obtain ⟨hset, hreset⟩ := Ghidra.fetchDtcHelpersStructural_spec program
  unfold IsHelper
  cases isSet with
  | true =>
    refine Iff.trans ?_ (helper_eq_some_iff (setMatch.select ms) (resetMatch.select ms) hset a)
    rw [if_pos rfl, dtcHelpers, apply_ite Prod.fst]
  | false =>
    refine Iff.trans ?_ (helper_eq_some_iff (resetMatch.select ms) (setMatch.select ms) hreset a)
    rw [if_neg Bool.false_ne_true, dtcHelpers, apply_ite Prod.snd]
    simp only [or_comm]

/-! ### The setters -/

theorem mem_fetchDtcCallSites {refs : Nat → List Ghidra.CallRef} {setAddr resetAddr : Option Nat}
    {cs : DtcCallSite} :
    cs ∈ Ghidra.fetchDtcCallSites refs setAddr resetAddr ↔
      ∃ isSet a, (if isSet then setAddr else resetAddr) = some a ∧
        ∃ r ∈ refs a, r.isCall = true ∧ dtcCallSite isSet 8 r = cs := by
  simp only [Ghidra.fetchDtcCallSites, List.flatMap_cons, List.flatMap_nil, List.append_nil,
    List.mem_append, Bool.exists_bool]
  refine or_comm.trans (or_congr ?_ ?_)
  · cases resetAddr with
    | none => simp
    | some a => simp [and_assoc]
  · cases setAddr with
    | none => simp
    | some a => simp [and_assoc]

/-- What stands at an entry are the calls of the two helpers in the new program that pass the
bit and the word of the entry; and the helpers are those that were matched, or else the first
functions that store the most words with a bit set or cleared. -/
theorem obdStage_setters (program : Program) (ctx : RomContext) (merged : MergeResult)
    {e : DTCEntry} (he : e ∈ (obdStage program ctx merged).dtcEntries) (s : DTCSetterInfo) :
    s ∈ e.setters ↔
      ∃ isSet a, IsHelper program merged.matches_ isSet a ∧
        ∃ r ∈ program.references, r.isCall = true ∧ r.toAddress = some (a : Int) ∧
          let cs := dtcCallSite isSet 8 (callRef program r)
          cs.mask = some (2 ^ e.bit) ∧ cs.idx = some e.word ∧ s = setterInfo cs := by
  rw [obdStage, ObdAnalysis.dtcEntries_eq] at he
  obtain ⟨cell, hcell, rfl⟩ := List.mem_map.mp he
  obtain ⟨word, bit, raw, -, rfl⟩ := ObdAnalysis.mem_parseDtcTable.mp hcell
  have hnone : (ObdAnalysis.dtcEntry word bit raw).setters = [] := rfl
  rw [hnone, List.nil_append, List.mem_map]
  simp only [sitesAt, List.mem_filter, mem_fetchDtcCallSites, dtcHelpers_eq_some_iff,
    decide_eq_true_eq]
  constructor
  · rintro ⟨cs, ⟨⟨isSet, a, hhelper, r, hr, hcall, rfl⟩, hmask, hidx⟩, rfl⟩
    obtain ⟨ref, href, rfl⟩ := List.mem_map.mp hr
    obtain ⟨hmem, hto⟩ := Ghidra.mem_referencesTo.mp href
    exact ⟨isSet, a, hhelper, ref, hmem, hcall, hto, hmask, hidx, rfl⟩
  · rintro ⟨isSet, a, hhelper, ref, hmem, hcall, hto, hmask, hidx, rfl⟩
    refine ⟨dtcCallSite isSet 8 (callRef program ref), ⟨⟨isSet, a, hhelper, callRef program ref,
      List.mem_map_of_mem (Ghidra.mem_referencesTo.mpr ⟨hmem, hto⟩), hcall, rfl⟩, hmask, hidx⟩, rfl⟩

/-- A call of the matched function, with mask and index in front of it. -/
theorem obdStage_setters_sample :
    ∃ isSet a, IsHelper sampleProgram sampleMerged.matches_ isSet a ∧
      ∃ r ∈ sampleProgram.references, r.isCall = true ∧ r.toAddress = some (a : Int) := by
  have hentry : (⟨0, 0, 105, "P0105", some "map_circuit_malfunction",
      [⟨0x304, 0x300, some "main", true⟩]⟩ : DTCEntry) ∈
      (obdStage sampleProgram sampleContext sampleMerged).dtcEntries := by
    decide +kernel
  obtain ⟨isSet, a, hhelper, r, hr, hcall, hto, -⟩ :=
    (obdStage_setters sampleProgram sampleContext sampleMerged hentry
      ⟨0x304, 0x300, some "main", true⟩).mp List.mem_cons_self
  exact ⟨isSet, a, hhelper, r, hr, hcall, hto⟩

end RomAnalyzer.Pipeline
