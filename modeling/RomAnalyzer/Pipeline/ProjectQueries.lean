import RomAnalyzer.Ghidra.Domain
import RomAnalyzer.Ghidra.Fetch
import RomAnalyzer.Mode23Bindings.CallSites
import RomAnalyzer.Pipeline.Output

/-!
# The passes on an open project

The passes after the merge only ask the project. Here the project is a set of programs, and the
queries are those of the program database.
-/
namespace RomAnalyzer.Pipeline

open Lib
open Ghidra (Func Program)
open Mode23Bindings

/-- The programs of a project, by name. -/
structure Project where
  programName : Path → String
  program : String → Program

def Project.queries (project : Project) : PostMatchQueries where
  ghidriffProgramName := project.programName
  fetchFunctionEntry name := Ghidra.fetchFunctionEntry (project.program name)
  fetchDataReadSites name := Ghidra.fetchDataReadSites (project.program name)
  fetchCallersOf name := Ghidra.fetchCallersOf (project.program name)
  fetchR0ImmBefore name site := Ghidra.fetchR0ImmBefore (project.program name) site
  fetchPidDispatchEntries name := Ghidra.fetchPidDispatchEntries (project.program name)

section Project

variable (project : Project) (ctx : RomContext) (newProgName : String) (merged : MergeResult)
  (primaryEntry : ReferenceEntry)

/-! ### The K-Line splice -/

/-- The transmit counter in the new ROM. -/
def txcountNew (txcountRef : Nat) : Nat :=
  (propByName merged.propagated).getD "sio0_tx_count" txcountRef

/-- The functions around the injection location, in the reference and in the new ROM. -/
structure Containers (klineRefAddr : Nat) (rf nf : Func) (newEntry : Nat) : Prop where
  reference : (project.program (project.programName primaryEntry.romPath)).functionContaining
    klineRefAddr = some rf
  entry : klineNewContainer ctx.isSelfDiff merged.matches_ (some (Ghidra.offset32 rf.entry)) =
    some newEntry
  new : (project.program newProgName).functionContaining newEntry = some nf

/-- The splice site is a read of the counter in the function that was matched, none nearer to
the place that the reference tells; without such a read there is none. It is certain when it
is that place or the only read. On the reference's own ROM the annotated place is bound
itself. -/
theorem klineResolution_reads {klineRefAddr txcountRef : Nat} {rf nf : Func} {newEntry : Nat}
    (h : Containers project ctx newProgName merged primaryEntry klineRefAddr rf nf newEntry) :
    let res := klineResolution project.queries.toProgramQueries ctx newProgName merged
      primaryEntry klineRefAddr txcountRef
    let expected : Int := newEntry + ((klineRefAddr : Int) - Ghidra.offset32 rf.entry)
    let Read := Ghidra.ReadsAt (project.program newProgName) nf (txcountNew merged txcountRef)
    (∀ a, res.address = some a → Read a ∧
      ∀ b, Read b → ((a : Int) - expected).natAbs ≤ ((b : Int) - expected).natAbs) ∧
    (res.address = none ↔ ∀ a, ¬Read a) ∧
    (res.confidence = .high ↔
      (∃ a, Read a) ∧ ((∃ a, Read a ∧ (a : Int) = expected) ∨ ∀ a b, Read a → Read b → a = b)) ∧
    (ctx.isSelfDiff = true → Read klineRefAddr → res = ⟨some klineRefAddr, .high⟩) := by
  intro res expected Read
  have hres : res = resolveNearestSite (Ghidra.fetchDataReadSites (project.program newProgName)
      (txcountNew merged txcountRef) newEntry) expected := by
    have hentry : Ghidra.fetchFunctionEntry
        (project.program (project.programName primaryEntry.romPath)) klineRefAddr =
        some (Ghidra.offset32 rf.entry) := by
      rw [Ghidra.fetchFunctionEntry, h.reference, Option.map_some]
    show klineResolution _ _ _ _ _ _ _ = _
    unfold klineResolution
    simp only [Project.queries, hentry, h.entry]
    rfl
  have hmem : ∀ a, a ∈ Ghidra.fetchDataReadSites (project.program newProgName)
      (txcountNew merged txcountRef) newEntry ↔ Read a :=
    fun a => Ghidra.mem_fetchDataReadSites h.new
  rw [hres]
  refine ⟨?_, ?_, ?_, ?_⟩
  · intro a ha
    refine ⟨(hmem a).mp (mem_of_resolveNearestSite ha), fun b hb => ?_⟩
    exact le_of_resolveNearestSite ha ((hmem b).mpr hb)
  · rw [resolveNearestSite_eq_none_iff, List.eq_nil_iff_forall_not_mem]
    exact forall_congr' fun a => not_congr (hmem a)
  · have hsome : ∀ sites : List Nat, sites ≠ [] ↔ ∃ a, a ∈ sites := by
      intro sites
      exact ⟨List.exists_mem_of_ne_nil sites, fun hsome => List.ne_nil_of_mem hsome.choose_spec⟩
    rw [resolveNearestSite_high_iff, hsome]
    simp only [hmem]
    refine and_congr_right fun _ => or_congr Iff.rfl ?_
    exact ⟨fun h a b ha hb => h a ha b hb, fun h a ha b hb => h a b ha hb⟩
  · intro hself hread
    have hentry := h.entry
    rw [klineNewContainer, if_pos hself] at hentry
    have hexpected : expected = klineRefAddr := by
      have heq := Option.some.inj hentry
      show (newEntry : Int) + ((klineRefAddr : Int) - Ghidra.offset32 rf.entry) = klineRefAddr
      omega
    rw [hexpected]
    exact resolveNearestSite_of_mem ((hmem klineRefAddr).mpr hread)

/-! ### The CAN splices -/

/-- What the walk before a call finds, in the listing or else in the bytes. -/
def CallsWith (target site : Nat) (slot : Int) : Prop :=
  site ∈ Ghidra.fetchCallersOf (project.program newProgName) target ∧
    (Ghidra.R0LoadBefore (project.program newProgName) site 6 slot ∨
      (∀ imm, ¬Ghidra.R0LoadBefore (project.program newProgName) site 6 imm) ∧
        ∃ imm : Nat, decodeLdiR0Before ctx.romBytes site = some imm ∧ slot = imm)

theorem slotBefore_eq_some_iff {site : Nat} {slot : Int} :
    slotBefore project.queries ctx newProgName site = some slot ↔
      Ghidra.R0LoadBefore (project.program newProgName) site 6 slot ∨
        (∀ imm, ¬Ghidra.R0LoadBefore (project.program newProgName) site 6 imm) ∧
          ∃ imm : Nat, decodeLdiR0Before ctx.romBytes site = some imm ∧ slot = imm := by
  have hload : ∀ imm, project.queries.fetchR0ImmBefore newProgName site = some imm ↔
      Ghidra.R0LoadBefore (project.program newProgName) site 6 imm :=
    fun imm => Ghidra.fetchR0ImmBefore_eq_some_iff
  unfold slotBefore
  cases hfetch : project.queries.fetchR0ImmBefore newProgName site with
  | some imm =>
    have himm := (hload imm).mp hfetch
    simp only [← hload, hfetch, Option.some.injEq]
    constructor
    · exact Or.inl
    · rintro (rfl | ⟨hnone, -⟩)
      · rfl
      · exact absurd rfl (hnone imm)
  | none =>
    simp only [← hload, hfetch, reduceCtorEq, not_false_eq_true, implies_true, true_and, false_or,
      Option.map_eq_some_iff]
    exact exists_congr fun imm => and_congr_right fun _ => eq_comm

theorem sortedSites_fetchCallersOf (program : Program) (target : Nat) :
    sortedSites (Ghidra.fetchCallersOf program target) = Ghidra.fetchCallersOf program target := by
  have hnodup := nodup_sortedSites (((program.referencesTo target).filter
    Ghidra.Reference.isCall).map fun r => Ghidra.offset32 r.fromAddress)
  rw [Ghidra.fetchCallersOf, sortedSites, List.Nodup.dedup hnodup, sortedSites, sortBy_sortBy]

/-- The two calls of the dispatcher are bound with certainty when there are just two and slot
2 is passed at the one and slot 1 at the other; each is bound to the splice of its slot.
Otherwise the two lowest calls are bound, if there are that many, and not with certainty. -/
theorem canSites_calls {bs : List CanSiteBinding} {note : String}
    (h : canSites project.queries ctx newProgName merged = some (bs, note)) :
    ∃ m, canTarget.select merged.matches_ = some m ∧
      let callers := Ghidra.fetchCallersOf (project.program newProgName) m.newAddress
      let Call := CallsWith project ctx newProgName m.newAddress
      let Told := fun a b => a ≠ b ∧ (∀ site, site ∈ callers ↔ site = a ∨ site = b) ∧
        Call a 2 ∧ Call b 1
      (∃ a b, Told a b ∧
        bs = [⟨slot12Name, ⟨some a, .high⟩⟩, ⟨slot15Name, ⟨some b, .high⟩⟩]) ∨
      ((¬∃ a b, Told a b) ∧
        bs = [⟨slot12Name, ⟨callers[0]?, .low⟩⟩, ⟨slot15Name, ⟨callers[1]?, .low⟩⟩]) := by
  unfold canSites at h
  rw [Option.ite_none_left_eq_some] at h
  obtain ⟨m, hm, hresolve⟩ := Option.map_eq_some_iff.mp h.2
  refine ⟨m, hm, ?_⟩
  intro callers Call Told
  have hbs : bs = (resolveCanCallSites callers
      (Dict.ofList (callers.map fun c => (c, slotBefore project.queries ctx newProgName c)))).1 :=
    (congrArg Prod.fst hresolve).symm
  have htold : ∀ a b, BySlot callers
      (Dict.ofList (callers.map fun c => (c, slotBefore project.queries ctx newProgName c))) a b ↔
        Told a b := by
    intro a b
    constructor
    · intro hslots
      have ha : a ∈ callers := (hslots.only a).mpr (Or.inl rfl)
      have hb : b ∈ callers := (hslots.only b).mpr (Or.inr rfl)
      have h12 := hslots.slot12
      have h15 := hslots.slot15
      rw [slotAt_ofList ha, slotBefore_eq_some_iff] at h12
      rw [slotAt_ofList hb, slotBefore_eq_some_iff] at h15
      exact ⟨hslots.ne, hslots.only, ⟨ha, h12⟩, ⟨hb, h15⟩⟩
    · rintro ⟨hne, honly, ⟨ha, h12⟩, ⟨hb, h15⟩⟩
      refine ⟨hne, honly, ?_, ?_⟩
      · rw [slotAt_ofList ha, slotBefore_eq_some_iff]
        exact h12
      · rw [slotAt_ofList hb, slotBefore_eq_some_iff]
        exact h15
  simp only [← htold]
  have hsorted : sortedSites callers = callers := sortedSites_fetchCallersOf _ _
  have hcases := resolveCanCallSites_cases callers
    (Dict.ofList (callers.map fun c => (c, slotBefore project.queries ctx newProgName c)))
  rw [hsorted, ← hbs] at hcases
  exact hcases

end Project

/-! ### A project -/

def sampleMain : Func := ⟨"main", 0x300, [0x300, 0x302, 0x304, 0x308]⟩

/-- A function that passes two constants to another one and then reads a counter, and one that
calls the dispatcher for two slots. -/
def sampleProgram : Program where
  functions := [⟨"FUN_00000100", 0x100, [0x100]⟩, ⟨"FUN_00000200", 0x200, [0x200]⟩, sampleMain,
    ⟨"can_rx", 0x400, [0x400, 0x402, 0x404, 0x406]⟩]
  references := [{ fromAddress := 0x304, toAddress := some 0x100, isCall := true, isFlow := true },
    { fromAddress := 0x308, toAddress := some 0x804010, isData := true, isRead := true },
    { fromAddress := 0x402, toAddress := some 0x200, isCall := true, isFlow := true },
    { fromAddress := 0x406, toAddress := some 0x200, isCall := true, isFlow := true }]
  instructions := [⟨0x300, "ldi", ["r0", "#0x1"], [none, some 1]⟩,
    ⟨0x302, "ldi", ["r1", "#0x0"], [none, some 0]⟩, ⟨0x304, "bl", ["0x100"], [none]⟩,
    ⟨0x308, "lduh", ["r2", "@r3"], [none, none]⟩, ⟨0x400, "ldi", ["r0", "#0x2"], [none, some 2]⟩,
    ⟨0x402, "bl", ["0x200"], [none]⟩, ⟨0x404, "ldi", ["r0", "#0x1"], [none, some 1]⟩,
    ⟨0x406, "bl", ["0x200"], [none]⟩]
  entries_nodup := by decide
  body_range := by decide
  entry_mem_body := by decide
  bodies_disjoint := by decide
  body_sorted := by decide
  references_sorted := by decide
  reference_range := by decide
  instructions_sorted := by decide
  symbol_range := Ghidra.symbol_range_nil

def sampleProject : Project := ⟨id, fun _ => sampleProgram⟩

def sampleContext : RomContext where
  romPath := "test.bin"
  romBytes := [0x01, 0x05]
  targetFamily := "colt"
  isSelfDiff := true
  emitMode23 := true

def sampleMerged : MergeResult where
  matches_ := [{ refName := "probably_set_dtc", refAddress := 0x100, newAddress := 0x100, similarity := 1 },
    { refName := "canrx12_15_process", refAddress := 0x200, newAddress := 0x200, similarity := 1 }]
  propagated := [⟨"flash_trouble_code_table", 0, 0, .data, .high, "", 0, "", true⟩]
  disagreements := []
  crossFamily := []
  priority := Dict.empty
  matchedCount := 2
  totalRef := 2

def sampleEntry : ReferenceEntry where
  id := "33520003"
  jsonPath := "test.json"
  romPath := "test.bin"
  family := "colt"
  variant := "m32r"
  priority := 1

theorem klineResolution_reads_sample :
    klineResolution sampleProject.queries.toProgramQueries sampleContext "test.bin" sampleMerged
      sampleEntry 0x308 0x804010 = ⟨some 0x308, .high⟩ := by
  have hcontainers : Containers sampleProject sampleContext "test.bin" sampleMerged sampleEntry
      0x308 sampleMain sampleMain 0x300 := ⟨by decide, by decide, by decide⟩
  have hread : Ghidra.ReadsAt sampleProgram sampleMain 0x804010 0x308 :=
    ⟨by decide, { fromAddress := 0x308, toAddress := some 0x804010, isData := true, isRead := true },
      by decide, by decide, by decide, by decide⟩
  exact (klineResolution_reads sampleProject sampleContext "test.bin" sampleMerged sampleEntry
    hcontainers).2.2.2 rfl hread

theorem canSites_calls_sample :
    ∃ a b, CallsWith sampleProject sampleContext "test.bin" 0x200 a 2 ∧
      CallsWith sampleProject sampleContext "test.bin" 0x200 b 1 := by
  have hsites : ((canSites sampleProject.queries sampleContext "test.bin" sampleMerged).map
      fun c => c.1.map fun b => b.resolution.confidence) = some [.high, .high] := by
    decide
  obtain ⟨⟨bs, note⟩, hbs, hhigh⟩ := Option.map_eq_some_iff.mp hsites
  obtain ⟨m, hm, hcases⟩ := canSites_calls sampleProject sampleContext "test.bin" sampleMerged hbs
  have htarget : m.newAddress = 0x200 := by
    have hselect : (canTarget.select sampleMerged.matches_).map MatchedFunction.newAddress =
        some 0x200 := by decide
    rw [hm] at hselect
    exact Option.some.inj hselect
  rw [htarget] at hcases
  rcases hcases with ⟨a, b, ⟨-, -, h12, h15⟩, -⟩ | ⟨-, hlow⟩
  · exact ⟨a, b, h12, h15⟩
  · rw [hlow] at hhigh
    exact absurd hhigh (by simp)

end RomAnalyzer.Pipeline
