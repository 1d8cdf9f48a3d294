import RomAnalyzer.Scripts.EnrichInitVars.Rescoring

/-!
# The contexts of a batch

For each entry of a batch a context is written: for a function the named functions around it,
for a variable the named functions that access it and the named symbols near it. A variable
about which nothing is named gets none.
-/
namespace RomAnalyzer.Scripts

open Lib
open AgentEnrich (QueueEntry StateDir)
open Enrich (isAutoName isPlaceholder)
open Ghidra (Func Program Reference Sym offset32)

structure FunctionContext where
  rom : String
  address : String
  currentName : String
  progName : String
  decompiled : String
  callers : List String
  callees : List String
  deriving DecidableEq, Repr

structure AdjacentSymbol where
  name : String
  offset : Int
  dataType : Option String
  deriving DecidableEq, Repr

structure VariableContext where
  rom : String
  address : String
  currentName : String
  category : String
  dataType : Option String
  namedReaders : List String
  namedWriters : List String
  adjacentSymbols : List AdjacentSymbol
  writerDecompile : Option String
  deriving DecidableEq, Repr

/-- `sorted(set(names))` -/
def sortedNames (names : List String) : List String := sortBy id names.dedup

section Build

variable (decompile : Func → Option String) (program : Program)

/-- The human names among functions. -/
def humanNames (fs : List Func) : List String := (fs.map Func.name).filter isHumanName

/-- `_build_function_ctx` -/
def buildFunctionCtx (item : QueueEntry) : Option FunctionContext := do
  let func ← program.functionAt (addressOf item)
  let decompiled ← decompile func
  return {
    rom := item.rom
    address := item.address
    currentName := item.currentName
    progName := item.progName
    decompiled := decompiled
    callers := sortedNames (humanNames ((program.referencesTo (addressOf item)).filterMap fun ref =>
      if ref.isCall then program.functionContaining ref.fromAddress else none))
    callees := sortedNames (humanNames (func.body.flatMap fun a =>
      (program.referencesFrom a).filterMap fun ref =>
        if ref.isCall then ref.toAddress.bind program.functionAt else none)) }

/-- The accesses of an address from functions with a human name. -/
def humanAccesses (addr : Nat) : List (Reference × Func) :=
  (program.referencesTo addr).filterMap fun ref =>
    if ref.isData then
      (program.functionContaining ref.fromAddress).bind fun caller =>
        if isHumanName caller.name then some (ref, caller) else none
    else none

def writersOf (addr : Nat) : List (Reference × Func) :=
  (humanAccesses program addr).filter fun a => a.1.isWrite

/-- What writes is no reader, and what neither reads nor writes is passed over. -/
def readersOf (addr : Nat) : List (Reference × Func) :=
  (humanAccesses program addr).filter fun a => !a.1.isWrite && a.1.isRead

def adjacentSymbols (store : AnnotationStore) (window : Int) (addr : Nat) : List AdjacentSymbol :=
  sortBy AdjacentSymbol.offset
    ((store.symbols.filter fun s => !isUnnamed s.name && decide (Near window addr s.address)).map
      fun s => ⟨s.name, (s.address : Int) - addr, s.dataType⟩)

/-- The only function that writes is decompiled too. -/
def writerDecompile (writers : List (Reference × Func)) : Option String :=
  if (writers.map fun a => a.2.name).toFinset.card = 1 then
    writers.head?.bind fun a => decompile a.2
  else none

/-- `_build_variable_ctx` -/
def buildVariableCtx (dataTypeAt : Nat → Option String) (store : AnnotationStore) (window : Int)
    (item : QueueEntry) : Option VariableContext :=
  let addr := addressOf item
  let readers := sortedNames ((readersOf program addr).map fun a => a.2.name)
  let writers := sortedNames ((writersOf program addr).map fun a => a.2.name)
  let adjacent := adjacentSymbols store window addr
  if readers = [] ∧ writers = [] ∧ adjacent = [] then none
  else some {
    rom := item.rom
    address := item.address
    currentName := item.currentName
    category := item.category
    dataType := dataTypeAt addr
    namedReaders := readers
    namedWriters := writers
    adjacentSymbols := adjacent
    writerDecompile := writerDecompile decompile (writersOf program addr) }

end Build

/-! ### Functions -/

theorem mem_sortedNames {names : List String} {name : String} :
    name ∈ sortedNames names ↔ name ∈ names := by
  rw [sortedNames, mem_sortBy, List.mem_dedup]

theorem sortedNames_eq_nil_iff {names : List String} : sortedNames names = [] ↔ names = [] := by
  rw [sortedNames, sortBy_eq_nil_iff, List.dedup_eq_nil]

theorem mem_humanNames {fs : List Func} {name : String} :
    name ∈ humanNames fs ↔ ∃ f ∈ fs, isHumanName f.name = true ∧ f.name = name := by
  rw [humanNames, List.mem_filter, List.mem_map]
  constructor
  · rintro ⟨⟨f, hf, rfl⟩, hhuman⟩
    exact ⟨f, hf, hhuman, rfl⟩
  · rintro ⟨f, hf, hhuman, rfl⟩
    exact ⟨⟨f, hf, rfl⟩, hhuman⟩

section Function

variable {decompile : Func → Option String} {rom : RomProgram} {f : Func}

@[simp] theorem addressOf_queueEntry (rom : RomProgram) (f : Func) :
    addressOf (rom.queueEntry f) = entryPoint f := by
  unfold addressOf RomProgram.queueEntry
  rw [readHex_hexText, Option.getD_some]

theorem functionAt_entryPoint (hf : f ∈ rom.program.functions) :
    rom.program.functionAt (entryPoint f) = some f :=
  Program.functionAt_eq_some_iff.mpr ⟨hf, (Program.cast_offset32_entry hf).symm⟩

/-- The context of an entry asks for the neighbours that the entry counts. -/
theorem buildFunctionCtx_queueEntry (hf : f ∈ rom.program.functions) :
    buildFunctionCtx decompile rom.program (rom.queueEntry f) =
      (decompile f).map fun text =>
        { rom := rom.id
          address := hexText (entryPoint f)
          currentName := f.name
          progName := rom.progName
          decompiled := text
          callers := sortedNames (humanNames (callers rom.program f))
          callees := sortedNames (humanNames (callees rom.program f)) } := by
  unfold buildFunctionCtx
  rw [addressOf_queueEntry, functionAt_entryPoint hf, Option.bind_eq_bind, Option.bind_some,
    Option.bind_eq_bind]
  cases decompile f with
  | none => rfl
  | some text => rfl

theorem mem_neighbors_iff_mem_neighborAddresses (hf : f ∈ rom.program.functions) {g : Func}
    (hg : g ∈ rom.program.functions) :
    hexText (entryPoint g) ∈ (rom.queueEntry f).neighborAddresses ↔
      g ∈ neighbors rom.program f := by
  show hexText (entryPoint g) ∈ sortedTexts (neighborEps rom.program f) ↔ _
  rw [mem_sortedTexts, mem_neighborEps_iff hf hg]

theorem namedNeighborCount_eq_zero_iff (f : Func) :
    (rom.queueEntry f).namedNeighborCount = 0 ↔
      ∀ g ∈ neighbors rom.program f, isHumanName g.name = false := by
  show ((namedEps rom.program f).card : Int) = 0 ↔ _
  rw [Int.natCast_eq_zero, Finset.card_eq_zero, Finset.eq_empty_iff_forall_notMem]
  simp only [namedEps, mem_entryPoints, List.mem_filter]
  constructor
  · intro h g hg
    rw [Bool.eq_false_iff]
    exact fun hhuman => h (entryPoint g) ⟨g, ⟨hg, hhuman⟩, rfl⟩
  · rintro h a ⟨g, ⟨hg, hhuman⟩, -⟩
    rw [h g hg] at hhuman
    cases hhuman

end Function

/-! ### Variables -/

section Variable

variable {program : Program} {addr : Nat} {ref : Reference} {f : Func}

theorem mem_namedAccesses_iff :
    (ref, f) ∈ namedAccesses program addr ↔ ref ∈ program.referencesTo addr ∧ ref.isData = true ∧
      program.functionContaining ref.fromAddress = some f ∧ isUnnamed f.name = false := by
  rw [namedAccesses, List.mem_filterMap]
  constructor
  · rintro ⟨r, hr, hsome⟩
    obtain ⟨hdata, hsome⟩ := Option.ite_none_right_eq_some.mp hsome
    cases hcontaining : program.functionContaining r.fromAddress with
    | none =>
      rw [hcontaining] at hsome
      cases hsome
    | some caller =>
      rw [hcontaining] at hsome
      obtain ⟨hnamed, hpair⟩ := Option.ite_none_left_eq_some.mp hsome
      obtain ⟨rfl, rfl⟩ := Prod.mk.inj (Option.some.inj hpair)
      exact ⟨hr, hdata, hcontaining, Bool.eq_false_of_not_eq_true hnamed⟩
  · rintro ⟨hr, hdata, hcontaining, hnamed⟩
    refine ⟨ref, hr, ?_⟩
    rw [if_pos hdata, hcontaining]
    exact if_neg (by simp [hnamed])

/-- Human names are those that are neither placeholders nor begin like Ghidra's own. -/
theorem isHumanName_eq_true_iff {name : String} :
    isHumanName name = true ↔ Enrich.startsWith "FUN_" name = false ∧ isUnnamed name = false := by
  simp only [isHumanName, isUnnamed, Bool.not_eq_true', Bool.or_eq_false_iff, and_assoc]

theorem mem_humanAccesses_iff :
    (ref, f) ∈ humanAccesses program addr ↔
      (ref, f) ∈ namedAccesses program addr ∧ Enrich.startsWith "FUN_" f.name = false := by
  rw [mem_namedAccesses_iff, humanAccesses, List.mem_filterMap]
  constructor
  · rintro ⟨r, hr, hsome⟩
    obtain ⟨hdata, hsome⟩ := Option.ite_none_right_eq_some.mp hsome
    obtain ⟨caller, hcontaining, hsome⟩ := Option.bind_eq_some_iff.mp hsome
    obtain ⟨hhuman, hpair⟩ := Option.ite_none_right_eq_some.mp hsome
    obtain ⟨rfl, rfl⟩ := Prod.mk.inj (Option.some.inj hpair)
    obtain ⟨hghidra, hnamed⟩ := isHumanName_eq_true_iff.mp hhuman
    exact ⟨⟨hr, hdata, hcontaining, hnamed⟩, hghidra⟩
  · rintro ⟨⟨hr, hdata, hcontaining, hnamed⟩, hghidra⟩
    refine ⟨ref, hr, ?_⟩
    rw [if_pos hdata, hcontaining, Option.bind_some,
      if_pos (isHumanName_eq_true_iff.mpr ⟨hghidra, hnamed⟩)]

theorem adjacentSymbols_ne_nil_iff {store : AnnotationStore} {window : Int} :
    adjacentSymbols store window addr ≠ [] ↔
      ∃ s ∈ store.symbols, isUnnamed s.name = false ∧ Near window addr s.address := by
  rw [adjacentSymbols, ne_eq, sortBy_eq_nil_iff, List.map_eq_nil_iff, List.filter_eq_nil_iff]
  push Not
  simp only [Bool.and_eq_true, Bool.not_eq_true', decide_eq_true_eq]

/-- A context is written when something with a name touches the variable or is near it. -/
theorem isSome_buildVariableCtx_iff {decompile : Func → Option String}
    {dataTypeAt : Nat → Option String} {store : AnnotationStore} {window : Int}
    {item : QueueEntry} :
    (buildVariableCtx decompile program dataTypeAt store window item).isSome = true ↔
      (∃ a ∈ humanAccesses program (addressOf item), a.1.isRead = true ∨ a.1.isWrite = true) ∨
        ∃ s ∈ store.symbols, isUnnamed s.name = false ∧
          Near window (addressOf item) s.address := by
  have hreaders : readersOf program (addressOf item) ≠ [] ↔
      ∃ a ∈ humanAccesses program (addressOf item), a.1.isWrite = false ∧ a.1.isRead = true := by
    rw [readersOf, ne_eq, List.filter_eq_nil_iff]
    push Not
    simp only [Bool.and_eq_true, Bool.not_eq_true']
  have hwriters : writersOf program (addressOf item) ≠ [] ↔
      ∃ a ∈ humanAccesses program (addressOf item), a.1.isWrite = true := by
    rw [writersOf, ne_eq, List.filter_eq_nil_iff]
    push Not
    rfl
  have hsome : (buildVariableCtx decompile program dataTypeAt store window item).isSome = true ↔
      readersOf program (addressOf item) ≠ [] ∨ writersOf program (addressOf item) ≠ [] ∨
        adjacentSymbols store window (addressOf item) ≠ [] := by
    unfold buildVariableCtx
    dsimp only
    simp only [sortedNames_eq_nil_iff, List.map_eq_nil_iff]
    split
    · rename_i hnone
      simp [hnone.1, hnone.2.1, hnone.2.2]
    · rename_i hsome
      refine iff_of_true rfl ?_
      by_contra hall
      push Not at hall
      exact hsome hall
  rw [hsome, hreaders, hwriters, adjacentSymbols_ne_nil_iff, ← or_assoc]
  refine or_congr ?_ Iff.rfl
  constructor
  · rintro (⟨a, ha, -, hread⟩ | ⟨a, ha, hwrite⟩)
    · exact ⟨a, ha, Or.inl hread⟩
    · exact ⟨a, ha, Or.inr hwrite⟩
  · rintro ⟨a, ha, haccess⟩
    cases hwrite : a.1.isWrite with
    | true => exact Or.inr ⟨a, ha, hwrite⟩
    | false =>
      rw [hwrite] at haccess
      exact Or.inl ⟨a, ha, hwrite, haccess.resolve_right Bool.false_ne_true⟩

end Variable

section Scores

variable {window : Int} {rom : RomProgram} {addr : Nat} {region : String}

theorem namedReaders_pos_iff :
    0 < (namedReaders rom addr).card ↔
      ∃ a ∈ namedAccesses rom.program addr, a.1.isWrite = false := by
  rw [Finset.card_pos, namedReaders, List.toFinset_nonempty_iff, ne_eq, List.map_eq_nil_iff,
    List.filter_eq_nil_iff]
  push Not
  simp only [Bool.not_eq_true']

theorem namedWriters_pos_iff :
    0 < (namedWriters rom addr).card ↔
      ∃ a ∈ namedAccesses rom.program addr, a.1.isWrite = true := by
  rw [Finset.card_pos, namedWriters, List.toFinset_nonempty_iff, ne_eq, List.map_eq_nil_iff,
    List.filter_eq_nil_iff]
  push Not
  rfl

theorem mem_coveredAddrs {a : Nat} :
    a ∈ rom.coveredAddrs ↔ ∃ s ∈ rom.store.symbols, isUnnamed s.name = false ∧ s.address = a := by
  rw [RomProgram.coveredAddrs, List.mem_toFinset, List.mem_map]
  simp only [List.mem_filter, Bool.not_eq_true', and_assoc]

theorem namedSiblingCount_pos_iff :
    0 < namedSiblingCount window rom addr region ↔ ∃ s ∈ rom.store.symbols,
      isUnnamed s.name = false ∧ Near window addr s.address ∧
        regionOf s.address = some region := by
  rw [namedSiblingCount, Finset.card_pos]
  constructor
  · rintro ⟨a, ha⟩
    obtain ⟨hcovered, hnear, hregion⟩ := Finset.mem_filter.mp ha
    obtain ⟨s, hs, hnamed, rfl⟩ := mem_coveredAddrs.mp hcovered
    exact ⟨s, hs, hnamed, hnear, hregion⟩
  · rintro ⟨s, hs, hnamed, hnear, hregion⟩
    exact ⟨s.address, Finset.mem_filter.mpr
      ⟨mem_coveredAddrs.mpr ⟨s, hs, hnamed, rfl⟩, hnear, hregion⟩⟩

/-- The variable that an entry of the queue stands for. -/
structure StandsFor (window : Int) (rom : RomProgram) (e : QueueEntry) : Prop where
  id : e.rom = rom.id
  priority : e.priority = (namedReaders rom (addressOf e)).card +
    (namedWriters rom (addressOf e)).card +
      namedSiblingCount window rom (addressOf e) e.category

theorem exists_standsFor {roms : List RomProgram} {e e' : QueueEntry}
    (he' : e' ∈ initVarQueue window roms) (h : scored e' = scored e) :
    ∃ rom ∈ roms, StandsFor window rom e := by
  obtain ⟨c, hc, rfl⟩ := mem_initVarQueue_iff.mp he'
  obtain ⟨rom, hrom, hcandidate⟩ := mem_rawVarQueue_iff.mp hc
  obtain ⟨sym, _, offset, region, _, _, rfl⟩ := mem_variableCandidates_iff.mp hcandidate
  simp only [scored, withSiblings, variableEntry, Scored.mk.injEq] at h
  obtain ⟨hid, haddress, -, hcategory, hpriority⟩ := h
  have haddr : addressOf e = offset32 offset := by
    rw [addressOf, ← haddress, readHex_hexText, Option.getD_some]
  refine ⟨rom, hrom, hid.symm, ?_⟩
  rw [haddr, ← hcategory, ← hpriority]

end Scores

/-- What the agent is shown is what the queue counts. After any run of batches and admissible
rounds, a variable with a positive score gets a context, unless all that it is scored for are
accesses that neither read nor write, or come from functions named like Ghidra's own; and what
gets a context has a positive score, unless the named symbols near it lie in another region. -/
theorem variableContexts_of_queue (floatText : String → String) (window : Int)
    (roms : List RomProgram) (stateDir : StateDir) (hids : (roms.map RomProgram.id).Nodup)
    (hkeys : ((initVarQueue window roms).map queueKey).Nodup) {s : NamingState}
    (hrun : VarRun floatText ⟨⟨initVarQueue window roms, [], stateDir⟩, roms⟩ s) {e : QueueEntry}
    (he : e ∈ s.loop.queue) (decompile : Func → Option String) (dataTypeAt : Nat → Option String) :
    ∃ rom ∈ s.roms, rom.id = e.rom ∧
      let ctx := buildVariableCtx decompile rom.program dataTypeAt rom.store window e
      (0 < e.priority → ctx.isSome = true ∨ namedAccesses rom.program (addressOf e) ≠ [] ∧
        ∀ a ∈ namedAccesses rom.program (addressOf e), Enrich.startsWith "FUN_" a.2.name = true ∨
          a.1.isRead = false ∧ a.1.isWrite = false) ∧
      (ctx.isSome = true → 0 < e.priority ∨
        ∃ x ∈ rom.store.symbols, isUnnamed x.name = false ∧ Near window (addressOf e) x.address ∧
          regionOf x.address ≠ some e.category) := by
  have hscored : scored e ∈ s.loop.queue.map scored := List.mem_map_of_mem he
  rw [(hrun.recomputed hids hkeys).scores.mem_iff] at hscored
  obtain ⟨e', he', hsame⟩ := List.mem_map.mp hscored
  obtain ⟨rom, hrom, hstands⟩ := exists_standsFor (List.mem_of_mem_filter he') hsame
  refine ⟨rom, hrom, hstands.id.symm, ?_⟩
  intro ctx
  have hsome : ctx.isSome = true ↔ _ := isSome_buildVariableCtx_iff
  have hpriority : 0 < e.priority ↔
      (∃ a ∈ namedAccesses rom.program (addressOf e), a.1.isWrite = false) ∨
      (∃ a ∈ namedAccesses rom.program (addressOf e), a.1.isWrite = true) ∨
      ∃ x ∈ rom.store.symbols, isUnnamed x.name = false ∧ Near window (addressOf e) x.address ∧
        regionOf x.address = some e.category := by
    rw [← namedReaders_pos_iff, ← namedWriters_pos_iff, ← namedSiblingCount_pos_iff,
      hstands.priority]
    omega
  constructor
  · intro hpos
    rw [hpriority] at hpos
    by_cases hctx : ctx.isSome = true
    · exact Or.inl hctx
    · rw [hsome, not_or] at hctx
      obtain ⟨haccess, hadjacent⟩ := hctx
      have hsilent : ∀ a ∈ namedAccesses rom.program (addressOf e),
          Enrich.startsWith "FUN_" a.2.name = true ∨ a.1.isRead = false ∧ a.1.isWrite = false := by
        rintro ⟨ref, f⟩ ha
        cases hghidra : Enrich.startsWith "FUN_" f.name with
        | true => exact Or.inl rfl
        | false =>
          have hhuman := mem_humanAccesses_iff.mpr ⟨ha, hghidra⟩
          refine Or.inr ⟨Bool.eq_false_iff.mpr ?_, Bool.eq_false_iff.mpr ?_⟩
          · exact fun hread => haccess ⟨(ref, f), hhuman, Or.inl hread⟩
          · exact fun hwrite => haccess ⟨(ref, f), hhuman, Or.inr hwrite⟩
      rcases hpos with ⟨a, ha, -⟩ | ⟨a, ha, -⟩ | ⟨x, hx, hnamed, hnear, -⟩
      · exact Or.inr ⟨List.ne_nil_of_mem ha, hsilent⟩
      · exact Or.inr ⟨List.ne_nil_of_mem ha, hsilent⟩
      · exact absurd ⟨x, hx, hnamed, hnear⟩ hadjacent
  · rw [hsome, hpriority]
    rintro (⟨⟨ref, f⟩, ha, -⟩ | ⟨x, hx, hnamed, hnear⟩)
    · have hnamed := (mem_humanAccesses_iff.mp ha).1
      cases hwrite : ref.isWrite with
      | true => exact Or.inl (Or.inr (Or.inl ⟨(ref, f), hnamed, hwrite⟩))
      | false => exact Or.inl (Or.inl ⟨(ref, f), hnamed, hwrite⟩)
    · by_cases hregion : regionOf x.address = some e.category
      · exact Or.inl (Or.inr (Or.inr ⟨x, hx, hnamed, hnear, hregion⟩))
      · exact Or.inr ⟨x, hx, hnamed, hnear, hregion⟩

theorem variableContexts_of_queue_sample :
    ∃ e ∈ initVarQueue 64 sampleVarRoms, ∃ rom ∈ sampleVarRoms, rom.id = e.rom ∧
      (0 < e.priority → (buildVariableCtx (fun _ => none) rom.program (fun _ => none) rom.store 64
        e).isSome = true ∨ namedAccesses rom.program (addressOf e) ≠ [] ∧
          ∀ a ∈ namedAccesses rom.program (addressOf e), Enrich.startsWith "FUN_" a.2.name = true ∨
            a.1.isRead = false ∧ a.1.isWrite = false) := by
  obtain ⟨e, he⟩ := List.exists_mem_of_ne_nil (initVarQueue 64 sampleVarRoms) (by decide)
  obtain ⟨rom, hrom, hid, hscored, -⟩ := variableContexts_of_queue id 64 sampleVarRoms
    (fun _ => none) (by decide) (by decide) .start he (fun _ => none) fun _ => none
  exact ⟨e, he, rom, hrom, hid, hscored⟩

end RomAnalyzer.Scripts
