import RomAnalyzer.AgentEnrich.Rounds
import RomAnalyzer.Ghidra.Program
import RomAnalyzer.Scripts.EnrichApply

/-!
# Setting up the naming queue

The functions without a human name become the entries of the queue. An entry lists the
functions that call it and those that it calls, and counts the named ones among them.
-/
namespace RomAnalyzer.Scripts

open Lib
open AgentEnrich (QueueEntry sortDescending)
open Enrich (isAutoName isPlaceholder)
open Ghidra (Func Program offset32)

/-- A reference ROM in the shared project: its registry id, its program, to which the
annotations have been applied, and its annotation store. -/
structure RomProgram where
  id : String
  progName : String
  program : Program
  store : AnnotationStore

/-- The name is neither Ghidra's own nor a placeholder. -/
def isHumanName (name : String) : Bool :=
  !(Enrich.startsWith "FUN_" name || isAutoName name || isPlaceholder name)

/-- `sorted(f"0x{a:x}" for a in eps)` -/
def sortedTexts (eps : Finset Nat) : List String := (eps.image hexText).sort

def entryPoint (f : Func) : Nat := offset32 f.entry

def entryPoints (fs : List Func) : Finset Nat := (fs.map entryPoint).toFinset

section Neighbors

variable (program : Program) (f : Func)

def callers : List Func :=
  (program.referencesTo (entryPoint f)).filterMap fun ref =>
    if ref.isCall then program.functionContaining ref.fromAddress else none

def callees : List Func :=
  f.body.flatMap fun a => (program.referencesFrom a).filterMap fun ref =>
    if ref.isCall then ref.toAddress.bind program.functionAt else none

def neighbors : List Func := callers program f ++ callees program f

def neighborEps : Finset Nat := entryPoints (neighbors program f)

def namedEps : Finset Nat :=
  entryPoints ((neighbors program f).filter fun g => isHumanName g.name)

end Neighbors

namespace RomProgram

variable (rom : RomProgram)

def allEps : List Nat := rom.store.functions.map AnnotationFunction.entryPoint

def placeholderEps : List Nat :=
  (rom.store.functions.filter fun f => isAutoName f.name || isPlaceholder f.name).map
    AnnotationFunction.entryPoint

/-- An unnamed function that the store does not know, or one with a placeholder there. -/
def isCandidate (f : Func) : Bool :=
  (Enrich.startsWith "FUN_" f.name && !rom.allEps.contains (entryPoint f)) ||
    rom.placeholderEps.contains (entryPoint f)

def queueEntry (f : Func) : QueueEntry where
  rom := rom.id
  address := hexText (entryPoint f)
  currentName := f.name
  progName := rom.progName
  namedNeighborCount := (namedEps rom.program f).card
  priority := (namedEps rom.program f).card
  neighborAddresses := sortedTexts (neighborEps rom.program f)

def candidates : List QueueEntry :=
  (rom.program.functions.filter rom.isCandidate).map rom.queueEntry

end RomProgram

/-- The queue over the ROMs whose images are available. -/
def initQueue (roms : List RomProgram) : List QueueEntry :=
  sortDescending (roms.flatMap RomProgram.candidates)

/-! ### Calls in both directions -/

section Symmetry

variable {program : Program} {f g : Func}

theorem mem_callers_iff (hf : f ∈ program.functions) :
    g ∈ callers program f ↔ g ∈ program.functions ∧
      ∃ ref ∈ program.references, ref.isCall = true ∧ ref.toAddress = some f.entry ∧
        ref.fromAddress ∈ g.body := by
  unfold callers entryPoint Program.referencesTo
  rw [Program.cast_offset32_entry hf]
  simp only [List.mem_filterMap, List.mem_filter, decide_eq_true_eq, Option.ite_none_right_eq_some,
    Program.functionContaining_eq_some_iff]
  constructor
  · intro h
    obtain ⟨ref, ⟨href, hto⟩, hcall, hg, hbody⟩ := h
    exact ⟨hg, ref, href, hcall, hto, hbody⟩
  · intro h
    obtain ⟨hg, ref, href, hcall, hto, hbody⟩ := h
    exact ⟨ref, ⟨href, hto⟩, hcall, hg, hbody⟩

theorem mem_callees_iff :
    g ∈ callees program f ↔ g ∈ program.functions ∧
      ∃ ref ∈ program.references, ref.isCall = true ∧ ref.toAddress = some g.entry ∧
        ref.fromAddress ∈ f.body := by
  unfold callees Program.referencesFrom
  simp only [List.mem_flatMap, List.mem_filterMap, List.mem_filter, decide_eq_true_eq,
    Option.ite_none_right_eq_some, Option.bind_eq_some_iff, Program.functionAt_eq_some_iff]
  constructor
  · intro h
    obtain ⟨a, ha, ref, ⟨href, rfl⟩, hcall, target, hto, hg, rfl⟩ := h
    exact ⟨hg, ref, href, hcall, hto, ha⟩
  · intro h
    obtain ⟨hg, ref, href, hcall, hto, hbody⟩ := h
    exact ⟨ref.fromAddress, hbody, ref, ⟨href, rfl⟩, hcall, g.entry, hto, hg, rfl⟩

/-- Who calls is looked up by bodies, who is called by entries; both find the same calls. -/
theorem mem_callers_iff_mem_callees (hf : f ∈ program.functions) (hg : g ∈ program.functions) :
    g ∈ callers program f ↔ f ∈ callees program g := by
  rw [mem_callers_iff hf, mem_callees_iff]
  exact and_congr_left fun _ => iff_of_true hg hf

theorem mem_neighbors_comm (hf : f ∈ program.functions) (hg : g ∈ program.functions) :
    g ∈ neighbors program f ↔ f ∈ neighbors program g := by
  unfold neighbors
  rw [List.mem_append, List.mem_append, mem_callers_iff_mem_callees hf hg,
    mem_callers_iff_mem_callees hg hf, or_comm]

theorem mem_functions_of_mem_neighbors (hf : f ∈ program.functions)
    (h : g ∈ neighbors program f) : g ∈ program.functions := by
  rcases List.mem_append.mp h with hcaller | hcallee
  · exact ((mem_callers_iff hf).mp hcaller).1
  · exact (mem_callees_iff.mp hcallee).1

end Symmetry

/-! ### Neighbours in the queue -/

theorem hexText_injective : Function.Injective hexText := by
  intro a b h
  have hread := congrArg readHex h
  rw [readHex_hexText, readHex_hexText] at hread
  exact Option.some.inj hread

theorem mem_entryPoints {fs : List Func} {a : Nat} :
    a ∈ entryPoints fs ↔ ∃ f ∈ fs, entryPoint f = a := by
  rw [entryPoints, List.mem_toFinset, List.mem_map]

theorem mem_sortedTexts {eps : Finset Nat} {a : Nat} : hexText a ∈ sortedTexts eps ↔ a ∈ eps := by
  rw [sortedTexts, Finset.mem_sort, Finset.mem_image]
  constructor
  · intro h
    obtain ⟨b, hb, heq⟩ := h
    rwa [← hexText_injective heq]
  · exact fun ha => ⟨a, ha, rfl⟩

/-- An entry of the queue stands for a function of one of the ROMs. -/
theorem mem_initQueue_iff {roms : List RomProgram} {e : QueueEntry} :
    e ∈ initQueue roms ↔ ∃ rom ∈ roms, ∃ f ∈ rom.program.functions,
      rom.isCandidate f = true ∧ rom.queueEntry f = e := by
  rw [initQueue, (AgentEnrich.sortDescending_perm _).mem_iff]
  simp only [List.mem_flatMap, RomProgram.candidates, List.mem_map, List.mem_filter, and_assoc]

theorem mem_neighborEps_iff {program : Program} {f g : Func} (hf : f ∈ program.functions)
    (hg : g ∈ program.functions) :
    entryPoint g ∈ neighborEps program f ↔ g ∈ neighbors program f := by
  rw [neighborEps, mem_entryPoints]
  constructor
  · intro h
    obtain ⟨g', hg', heq⟩ := h
    rwa [← Program.offset32_entry_inj (mem_functions_of_mem_neighbors hf hg') hg heq]
  · exact fun hmem => ⟨g, hmem, rfl⟩

/-- Two unnamed functions and a named one; the first is called by both others. -/
def sampleProgram : Program where
  functions := [⟨"FUN_00000100", 0x100, [0x100]⟩, ⟨"FUN_00000200", 0x200, [0x200, 0x204]⟩,
    ⟨"main", 0x300, [0x300, 0x304]⟩]
  references := [{ fromAddress := 0x204, toAddress := some 0x100, isCall := true },
    { fromAddress := 0x304, toAddress := some 0x100, isCall := true }]
  entries_nodup := by decide
  body_range := by decide
  entry_mem_body := by decide
  bodies_disjoint := by decide
  body_sorted := by decide
  references_sorted := by decide
  reference_range := by decide
  instructions_sorted := Ghidra.instructions_sorted_nil
  symbol_range := Ghidra.symbol_range_nil

def sampleRom : RomProgram :=
  ⟨"33520003", "test.bin", sampleProgram, { schemaVersion := 1, romId := "", romSha256 := "" }⟩

def sampleRoms : List RomProgram := [sampleRom]

def sampleCallee : Func := ⟨"FUN_00000100", 0x100, [0x100]⟩

def sampleCaller : Func := ⟨"FUN_00000200", 0x200, [0x200, 0x204]⟩

theorem sampleRoms_ids : (sampleRoms.map RomProgram.id).Nodup := by decide

theorem sampleCallee_mem : sampleRom.queueEntry sampleCallee ∈ initQueue sampleRoms :=
  mem_initQueue_iff.mpr
    ⟨sampleRom, List.mem_singleton.mpr rfl, sampleCallee, by decide, by decide, rfl⟩

theorem sampleCaller_mem : sampleRom.queueEntry sampleCaller ∈ initQueue sampleRoms :=
  mem_initQueue_iff.mpr
    ⟨sampleRom, List.mem_singleton.mpr rfl, sampleCaller, by decide, by decide, rfl⟩

end RomAnalyzer.Scripts
