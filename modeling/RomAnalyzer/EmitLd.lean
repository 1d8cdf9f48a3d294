import RomAnalyzer.Mode23Bindings
import RomAnalyzer.ObdAnalysis

/-!
# Rendering linker fragments
-/
namespace RomAnalyzer.EmitLd

open Lib
open Mode23Bindings (SpliceResolution)
open ObdAnalysis (OBDPidEntry)

/-- `0x{n:x}` -/
def hex (n : Nat) : String := "0x" ++ String.ofList (Nat.toDigits 16 n)

def provenanceComment (s : PropagatedSymbol) (shown : Bool) : String :=
  if shown = false ∨ s.reference = "" then ""
  else if s.familyMatch = false ∧ (s.category = .data ∨ s.category = .ramGlobal) then
    "  /* VERIFY: cross-family from " ++ s.reference ++ " */"
  else "  /* from " ++ s.reference ++ " */"

/-- The symbols of one category, in ascending order of address. -/
def byCat (symbols : List PropagatedSymbol) (c : SymbolCategory) : List PropagatedSymbol :=
  sortBy PropagatedSymbol.newAddress (symbols.filter fun s => s.category = c)

/-- The order in which the fragment assigns its symbols. -/
def categoryOrder : List (SymbolCategory × String) :=
  [(.data, "/* Flash table addresses */\n"),
   (.ramGlobal, "/* RAM globals */\n"),
   (.function, "/* Function entry points */\n")]

/-- The symbols `description.ld` assigns, in the order of the file. -/
def assignedSymbols (symbols : List PropagatedSymbol) : List PropagatedSymbol :=
  categoryOrder.flatMap fun c => byCat symbols c.1

def assignment (shown : Bool) (s : PropagatedSymbol) : String :=
  s.name ++ " = " ++ hex s.newAddress ++ ";" ++ provenanceComment s shown ++ "\n"

def assignmentBlock (shown : Bool) (title : String) (symbols : List PropagatedSymbol) : String :=
  if symbols = [] then "" else title ++ String.join (symbols.map (assignment shown)) ++ "\n"

def emitDescriptionLd (symbols : List PropagatedSymbol)
    (sourceRom referenceName variant matchSummary : String) (showProvenance : Bool := false) :
    String :=
  "/* Generated by rom-analyzer from " ++ sourceRom ++ "\n" ++
    " * Reference: " ++ referenceName ++ "\n" ++
    " * Variant:   " ++ variant ++ "\n" ++
    " * Matched:   " ++ matchSummary ++ "\n" ++
    " */\n\n" ++
    String.join (categoryOrder.map fun c =>
      assignmentBlock showProvenance c.2 (byCat symbols c.1))

def emitMode23BindingLine (name : String) (res : SpliceResolution) : String :=
  match res.address with
  | some a =>
    if res.confidence = .high then name ++ " = " ++ hex a ++ ";\n"
    else "/* VERIFY: " ++ name ++ " = " ++ hex a ++ "; (low confidence — confirm in Ghidra) */\n"
  | none =>
    "/* VERIFY: " ++ name ++ " = <unresolved> (no matching call site — locate manually) */\n"

/-- The unprotected blocks, longest first. -/
def unprotectedBlocks (flashBlocks : List FlashFreeBlock) : List FlashFreeBlock :=
  sortBy (fun b => OrderDual.toDual b.length) (flashBlocks.filter fun b => b.band = .unprotected)

/-- The block the free-space range is filled from, when one stands out. -/
def freeSpaceBlock (flashBlocks : List FlashFreeBlock) : Option FlashFreeBlock :=
  match unprotectedBlocks flashBlocks with
  | [] => none
  | [b] => some b
  | b :: second :: _ => if b.length > 2 * second.length then some b else none

def emitOmniStub (flashBlocks : List FlashFreeBlock) (propagatedRam : List PropagatedSymbol) :
    String :=
  "INCLUDE ../m32170.ld\n" ++ "INCLUDE ../math.ld\n" ++ "INCLUDE description.ld\n\n" ++
    (if propagatedRam = [] then ""
      else "/* RAM globals (auto-propagated from reference) */\n" ++
        String.join ((sortBy PropagatedSymbol.newAddress propagatedRam).map fun s =>
          s.name ++ " = " ++ hex s.newAddress ++ ";\n") ++ "\n") ++
    "/* === BELOW: human-curated placeholders === */\n\n" ++
    "/* Free space region (auto-filled when unambiguous) */\n" ++
    (match freeSpaceBlock flashBlocks with
      | some b =>
        "free_space_start = " ++ hex b.start ++ ";\n" ++
          "free_space_end   = " ++ hex b.end_ ++ ";\n"
      | none =>
        "/* TODO: free_space_start = ???; */\n" ++ "/* TODO: free_space_end   = ???; */\n") ++
    "\n" ++
    "/* Per-ROM patch parameters (compare against mmc-patches/m32r/) */\n" ++
    "/* TODO: post_fuel_cut_enrichment = ???; */\n\n" ++
    "/* Call-site hook locations (extract from match-report.md) */\n" ++
    "/* TODO: load400 bindings */\n"

/-- `f"{n:02x}"` -/
def hex02 (n : Nat) : String :=
  (if n < 16 then "0" else "") ++ String.ofList (Nat.toDigits 16 n)

/-- The standard name, or one made of mode and PID. -/
def pidName (p : OBDPidEntry) : String :=
  match p.stdName with
  | some name => if name ≠ "" then name else oemName
  | none => oemName
where
  oemName : String := "oem_mode" ++ hex02 p.mode ++ "_pid_" ++ hex02 p.pid ++ "_source"

def pidComment (p : OBDPidEntry) : String :=
  "  /* mode=" ++ hex p.mode ++ " pid=" ++ hex p.pid ++ " confidence=" ++ p.confidence ++ " */"

def emitObdPidSymbols (pidEntries : List OBDPidEntry) : String :=
  if pidEntries = [] then ""
  else
    "\n/* OBD PID source RAM addresses (auto-discovered by --emit-obd) */\n" ++
      String.join (pidEntries.map fun p =>
        "PROVIDE(" ++ pidName p ++ " = " ++ hex p.ramAddr ++ ");" ++ pidComment p ++ "\n")

/-- Every symbol is assigned, and nothing is assigned twice. -/
theorem assignedSymbols_perm (symbols : List PropagatedSymbol) :
    (assignedSymbols symbols).Perm symbols := by
  have hsplit : assignedSymbols symbols =
      byCat symbols .data ++ (byCat symbols .ramGlobal ++ byCat symbols .function) := by
    simp [assignedSymbols, categoryOrder]
  have hsort : ∀ c, (byCat symbols c).Perm (symbols.filter fun s => s.category = c) :=
    fun c => sortBy_perm _ _
  rw [hsplit]
  apply ((hsort _).append ((hsort _).append (hsort _))).trans
  -- what is not data is a RAM global or a function
  have hrest : ((symbols.filter fun s => s.category = .ramGlobal) ++
      symbols.filter fun s => s.category = .function).Perm
        (symbols.filter fun s => ¬ s.category = .data) := by
    induction symbols with
    | nil => simp
    | cons s rest ih =>
      have ih := ih (by simp [assignedSymbols, categoryOrder]) fun c => sortBy_perm _ _
      cases hc : s.category with
      | function => simpa [hc] using List.perm_middle.trans (List.Perm.cons s ih)
      | data => simpa [hc] using ih
      | ramGlobal => simpa [hc] using List.Perm.cons s ih
  apply (List.Perm.append_left _ hrest).trans
  simpa using List.filter_append_perm (fun s => decide (s.category = .data)) symbols

/-- The free-space range comes from an unprotected block. -/
theorem mem_of_freeSpaceBlock {flashBlocks : List FlashFreeBlock} {b : FlashFreeBlock}
    (h : freeSpaceBlock flashBlocks = some b) : b ∈ flashBlocks ∧ b.band = .unprotected := by
  have hmem : b ∈ unprotectedBlocks flashBlocks := by
    unfold freeSpaceBlock at h
    split at h
    · cases h
    · rename_i hb
      obtain rfl := Option.some.inj h
      simp [hb]
    · rename_i hb
      split at h
      · obtain rfl := Option.some.inj h
        simp [hb]
      · cases h
  simpa [unprotectedBlocks] using hmem

end RomAnalyzer.EmitLd
