import RomAnalyzer.Scripts.EnrichInit

/-!
# Setting up the variable queue

The unnamed symbols of RAM and flash become the entries of the variable queue. An entry is
scored by the named functions that access it and the named symbols around it, and lists the
other entries around it.
-/
namespace RomAnalyzer.Scripts

open Lib
open AgentEnrich (QueueEntry sortDescending sortDescending_perm)
open Enrich (isAutoName isPlaceholder)
open Ghidra (Func Program Reference Sym offset32)

def ramMin : Nat := 0x804000

def ramMax : Nat := 0x80FFFF

def flashMax : Nat := 0x7FFFF

/-- `_category`: the region of an address, if it is one of the two. -/
def regionOf (addr : Nat) : Option String :=
  if ramMin ≤ addr ∧ addr ≤ ramMax then some "ram_global"
  else if addr ≤ flashMax then some "data"
  else none

def isUnnamed (name : String) : Bool := isAutoName name || isPlaceholder name

/-- The shape of the symbols that get into the queue. -/
def isVariableStub (name : String) : Bool := Enrich.startsWith "DAT_" name || isUnnamed name

/-- The addresses of the symbols that the store has a name for. -/
def RomProgram.coveredAddrs (rom : RomProgram) : Finset Nat :=
  ((rom.store.symbols.filter fun s => !isUnnamed s.name).map AnnotationSymbol.address).toFinset

/-- `0 < abs(b - a) <= window` -/
def Near (window : Int) (a b : Nat) : Prop := 0 < |(b : Int) - a| ∧ |(b : Int) - a| ≤ window

instance (window : Int) (a b : Nat) : Decidable (Near window a b) :=
  inferInstanceAs (Decidable (_ ∧ _))

/-- The accesses of an address from functions with a name. -/
def namedAccesses (program : Program) (addr : Nat) : List (Reference × Func) :=
  (program.referencesTo addr).filterMap fun ref =>
    if ref.isData then
      match program.functionContaining ref.fromAddress with
      | some caller => if isUnnamed caller.name then none else some (ref, caller)
      | none => none
    else none

section Entries

variable (window : Int) (rom : RomProgram)

def namedWriters (addr : Nat) : Finset String :=
  (((namedAccesses rom.program addr).filter fun a => a.1.isWrite).map fun a => a.2.name).toFinset

def namedReaders (addr : Nat) : Finset String :=
  (((namedAccesses rom.program addr).filter fun a => !a.1.isWrite).map fun a => a.2.name).toFinset

def namedRefEps (addr : Nat) : Finset Nat :=
  entryPoints ((namedAccesses rom.program addr).map Prod.snd)

def namedSiblingCount (addr : Nat) (region : String) : Nat :=
  (rom.coveredAddrs.filter fun a => Near window addr a ∧ regionOf a = some region).card

/-- The region of a symbol that becomes an entry: an unnamed one where the store has no
name and no function starts. -/
def variableRegion (sym : Sym) (addr : Nat) : Option String :=
  if isVariableStub sym.name then
    match regionOf addr with
    | some region =>
      if addr ∈ rom.coveredAddrs then none
      else if (rom.program.functionAt addr).isSome then none
      else some region
    | none => none
  else none

def variableEntry (name : String) (addr : Nat) (region : String) : QueueEntry where
  rom := rom.id
  address := hexText addr
  currentName := name
  progName := rom.progName
  namedNeighborCount := (namedReaders rom addr).card + (namedWriters rom addr).card
  priority := (namedReaders rom addr).card + (namedWriters rom addr).card +
    namedSiblingCount window rom addr region
  neighborAddresses := sortedTexts (namedRefEps rom addr)
  itemType := "variable"
  category := region

def variableEntryOf (sym : Sym) : Option QueueEntry := do
  let offset ← sym.address
  let region ← variableRegion rom sym (offset32 offset)
  return variableEntry window rom sym.name (offset32 offset) region

def variableCandidates : List QueueEntry :=
  rom.program.symbols.filterMap (variableEntryOf window rom)

end Entries

/-- `int(e.address, 16)`; the address of an entry is hexadecimal text. -/
def addressOf (e : QueueEntry) : Nat := (readHex e.address).getD 0

/-- The second pass: the other entries of the ROM around an entry, as sorted texts. -/
def withSiblings (window : Int) (raw : List QueueEntry) (e : QueueEntry) : QueueEntry :=
  { e with
    siblingAddresses := sortBy id ((raw.filter fun c => c.rom = e.rom ∧ c.address ≠ e.address ∧
      c.category = e.category ∧ Near window (addressOf e) (addressOf c)).map QueueEntry.address) }

def rawVarQueue (window : Int) (roms : List RomProgram) : List QueueEntry :=
  roms.flatMap (variableCandidates window)

def initVarQueue (window : Int) (roms : List RomProgram) : List QueueEntry :=
  sortDescending ((rawVarQueue window roms).map (withSiblings window (rawVarQueue window roms)))

/-! ### Entries -/

/-- A named access comes from a function of the program that has a name. -/
theorem mem_namedAccesses {program : Program} {addr : Nat} {access : Reference × Func}
    (h : access ∈ namedAccesses program addr) :
    access.2 ∈ program.functions ∧ isUnnamed access.2.name = false := by
  obtain ⟨ref, _, hsome⟩ := List.mem_filterMap.mp h
  split at hsome
  · split at hsome
    · rename_i caller hcontaining
      split at hsome
      · cases hsome
      · rename_i hname
        rw [Option.some.injEq] at hsome
        subst hsome
        exact ⟨(Program.functionContaining_eq_some_iff.mp hcontaining).1,
          Bool.eq_false_of_not_eq_true hname⟩
    · cases hsome
  · cases hsome

section Members

variable {window : Int} {rom : RomProgram} {roms : List RomProgram} {e e' : QueueEntry}

@[simp] theorem addressOf_variableEntry (name : String) (addr : Nat) (region : String) :
    addressOf (variableEntry window rom name addr region) = addr := by
  unfold addressOf variableEntry
  rw [readHex_hexText, Option.getD_some]

theorem mem_variableCandidates_iff :
    e ∈ variableCandidates window rom ↔ ∃ sym ∈ rom.program.symbols, ∃ offset region,
      sym.address = some offset ∧ variableRegion rom sym (offset32 offset) = some region ∧
        variableEntry window rom sym.name (offset32 offset) region = e := by
  unfold variableCandidates variableEntryOf
  simp only [List.mem_filterMap, Option.bind_eq_bind, Option.bind_eq_some_iff, Option.pure_def,
    Option.some.injEq]
  constructor
  · intro h
    obtain ⟨sym, hsym, offset, hoffset, region, hregion, heq⟩ := h
    exact ⟨sym, hsym, offset, region, hoffset, hregion, heq⟩
  · intro h
    obtain ⟨sym, hsym, offset, region, hoffset, hregion, heq⟩ := h
    exact ⟨sym, hsym, offset, hoffset, region, hregion, heq⟩

/-- What an address needs for an entry. -/
theorem variableRegion_eq_some {sym : Sym} {addr : Nat} {region : String}
    (h : variableRegion rom sym addr = some region) :
    regionOf addr = some region ∧ addr ∉ rom.coveredAddrs ∧
      rom.program.functionAt addr = none := by
  unfold variableRegion at h
  split at h
  · split at h
    · rename_i region' hregion
      split at h
      · cases h
      · rename_i hcovered
        split at h
        · cases h
        · rename_i hfunction
          rw [Option.some.injEq] at h
          subst h
          exact ⟨hregion, hcovered, Option.not_isSome_iff_eq_none.mp hfunction⟩
    · cases h
  · cases h

theorem mem_rawVarQueue_iff :
    e ∈ rawVarQueue window roms ↔ ∃ rom ∈ roms, e ∈ variableCandidates window rom :=
  List.mem_flatMap

theorem mem_initVarQueue_iff :
    e ∈ initVarQueue window roms ↔
      ∃ c ∈ rawVarQueue window roms, withSiblings window (rawVarQueue window roms) c = e := by
  rw [initVarQueue, (sortDescending_perm _).mem_iff, List.mem_map]

/-- The address of an entry is the text of its number. -/
theorem hexText_addressOf (h : e ∈ rawVarQueue window roms) : hexText (addressOf e) = e.address := by
  obtain ⟨rom, _, hcandidate⟩ := mem_rawVarQueue_iff.mp h
  obtain ⟨sym, _, offset, region, _, _, rfl⟩ := mem_variableCandidates_iff.mp hcandidate
  rw [addressOf_variableEntry]
  rfl

theorem mem_siblingAddresses_iff {raw : List QueueEntry} {text : String} :
    text ∈ (withSiblings window raw e).siblingAddresses ↔ ∃ c ∈ raw, c.rom = e.rom ∧
      c.address ≠ e.address ∧ c.category = e.category ∧
        Near window (addressOf e) (addressOf c) ∧ c.address = text := by
  unfold withSiblings
  simp only [mem_sortBy, List.mem_map, List.mem_filter, decide_eq_true_eq, and_assoc]

end Members

end RomAnalyzer.Scripts
