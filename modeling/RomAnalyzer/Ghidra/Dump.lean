import RomAnalyzer.DataRefs.Labels
import RomAnalyzer.Ghidra.Program
import RomAnalyzer.Ghidra.Session
import RomAnalyzer.Lib.Ranked
import RomAnalyzer.RamSpace

/-!
# Dumping a program

One walk over the program database collects what the passes need: the callees of each
function in the order of their calls, its accesses to flash and to RAM, and the RAM
addresses that are referred to at all.
-/
namespace RomAnalyzer.Ghidra

open Lib
open DataRefs (propagateDataLabels propagateRamLabels visits Sighted)
open Propagate (tierForScore)
open RamSpace (RamFreeBlock findFreeRamBlocks ramStart ramEnd suspiciousLargeGap)

section Collect

variable (program : Program)

/-! ### Callees -/

/-- The references from the body: the iterator starts at its first address and is left after
its last one. -/
def referencesIn (f : Func) : List Reference :=
  let fromMin := program.references.filter fun r => f.body.headD 0 ≤ r.fromAddress
  let toMax := fromMin.takeWhile fun r => r.fromAddress ≤ f.body.getLastD 0
  toMax.filter fun r => r.fromAddress ∈ f.body

/-- The entry of another function that a reference calls, and where from. -/
def callOf (f : Func) (r : Reference) : Option (Int × Int) :=
  if r.isCall then
    (r.toAddress.bind program.functionContaining).bind fun callee =>
      if callee.entry = f.entry then none else some (callee.entry, r.fromAddress)
  else none

/-- `_ordered_callees`: each callee has the first offset that calls it, and the callees are
sorted by that. -/
def orderedCallees (f : Func) : List Int :=
  let seen := keepBest Prod.fst (fun c : Int × Int => OrderDual.toDual c.2)
    ((referencesIn program f).filterMap (callOf program f))
  (sortBy Prod.snd seen.values).map Prod.fst

/-! ### Accesses -/

/-- `list(sym_table.getSymbols(target))[0]` -/
def labelAt (target : Int) : Option String :=
  (program.symbols.find? fun s => s.address = some target).map Sym.name

def accessOf (refType : Reference → Option DataRefType) (inRange : Nat → Bool) (offset : Int)
    (r : Reference) : Option DataRef :=
  (refType r).bind fun type => r.toAddress.bind fun target =>
    if inRange (offset32 target) then some ⟨offset, offset32 target, labelAt program target, type⟩
    else none

/-- The accesses of a function, instruction by instruction. -/
def collectRefsWithin (refType : Reference → Option DataRefType) (inRange : Nat → Bool)
    (f : Func) : List DataRef :=
  (program.instructionsOf f).flatMap fun instr =>
    (program.referencesFrom instr.address).filterMap
      (accessOf program refType inRange (instr.address - f.entry))

/-- What is no read is a scalar that was taken for an address. -/
def flashType (r : Reference) : Option DataRefType :=
  if r.isData then some (if r.isRead then .read else .scalar) else none

/-- Scalars are passed over. -/
def ramType (r : Reference) : Option DataRefType :=
  if r.isData ∧ (r.isRead ∨ r.isWrite) then some (if r.isRead then .read else .write) else none

def isFlash (a : Nat) : Bool := a < 0x80000

def isRam (a : Nat) : Bool := 0x804000 ≤ a ∧ a < 0x820000

def collectDataRefsWithin : Func → List DataRef := collectRefsWithin program flashType isFlash

def collectRamRefsWithin : Func → List DataRef := collectRefsWithin program ramType isRam

/-! ### The dump -/

/-- The RAM address that a reference points to. -/
def ramTarget (r : Reference) : Option Nat :=
  r.toAddress.bind fun offset =>
    if 0x804000 ≤ offset ∧ offset < 0x820000 then some offset.toNat else none

/-- One entry for each function. -/
def byEntry {ν : Type} (collect : Func → ν) : Dict Nat ν :=
  Dict.ofList (program.functions.map fun f => (f.entry.toNat, collect f))

def dumpProgram (collectDataRefs : Bool) : HeadlessRun where
  functions := program.functions.map fun f => ⟨f.name, f.entry.toNat⟩
  symbols := program.symbols.filterMap fun s =>
    s.address.map fun a => ⟨s.name, a.toNat, s.source, s.type⟩
  ramRefs := sortBy id (program.references.filterMap ramTarget).dedup
  dataRefs := if collectDataRefs then byEntry program (collectDataRefsWithin program) else Dict.empty
  callees := byEntry program fun f => (orderedCallees program f).map Int.toNat
  ramDataRefs :=
    if collectDataRefs then byEntry program (collectRamRefsWithin program) else Dict.empty

/-! ### What it says -/

/-- The function calls the other one at the site. -/
def CallsAt (f g : Func) (site : Int) : Prop :=
  ∃ r ∈ program.references, r.isCall = true ∧ r.fromAddress = site ∧ site ∈ f.body ∧
    ∃ a ∈ g.body, r.toAddress = some a

/-- Every other function that is called is listed once, and an earlier one is called no later
than any call of a later one. -/
structure CalleesInOrder (f : Func) (callees : List Int) : Prop where
  nodup : callees.Nodup
  mem_iff : ∀ a, a ∈ callees ↔
    ∃ g ∈ program.functions, g ≠ f ∧ g.entry = a ∧ ∃ site, CallsAt program f g site
  ordered : callees.Pairwise fun a b =>
    ∀ g ∈ program.functions, g.entry = b → ∀ site, CallsAt program f g site →
      ∃ h ∈ program.functions, h.entry = a ∧ ∃ earlier ≤ site, CallsAt program f h earlier

/-- An instruction of the function at the offset from its entry has a data reference to the
address. -/
def AccessesAt (f : Func) (offset : Int) (a : Nat) : Prop :=
  ∃ instr ∈ program.instructions, instr.address ∈ f.body ∧ instr.address - f.entry = offset ∧
    ∃ r ∈ program.references, r.fromAddress = instr.address ∧ r.isData = true ∧
      ∃ target, r.toAddress = some target ∧ offset32 target = a

end Collect

variable {program : Program}

/-! ### References of a body -/

theorem head_le_of_mem {xs : List Int} (h : xs.Pairwise (· < ·)) {x : Int} (hx : x ∈ xs) :
    xs.headD 0 ≤ x := by
  cases xs with
  | nil => cases hx
  | cons y ys =>
    rcases List.mem_cons.mp hx with rfl | hx
    · exact le_refl _
    · exact le_of_lt ((List.pairwise_cons.mp h).1 x hx)

theorem le_getLastD_of_mem {xs : List Int} (h : xs.Pairwise (· < ·)) {x : Int} (hx : x ∈ xs) :
    x ≤ xs.getLastD 0 := by
  induction xs using List.reverseRecOn with
  | nil => cases hx
  | append_singleton ys y _ =>
    rw [List.getLastD_concat]
    rcases List.mem_append.mp hx with hx | hx
    · exact le_of_lt ((List.pairwise_append.mp h).2.2 x hx y (List.mem_singleton_self y))
    · rw [List.mem_singleton.mp hx]

/-- The iterator misses no reference of the body. -/
theorem mem_referencesIn {f : Func} (hf : f ∈ program.functions) {r : Reference} :
    r ∈ referencesIn program f ↔ r ∈ program.references ∧ r.fromAddress ∈ f.body := by
  have hsorted := program.body_sorted f hf
  unfold referencesIn
  rw [List.mem_filter, decide_eq_true_iff,
    mem_takeWhile_iff ((program.references_sorted.filter _).imp fun {a b} hab hb => by
      rw [decide_eq_true_iff] at hb ⊢
      exact hab.trans hb),
    List.mem_filter, decide_eq_true_iff, decide_eq_true_iff]
  constructor
  · intro h
    exact ⟨h.1.1.1, h.2⟩
  · intro h
    exact ⟨⟨⟨h.1, head_le_of_mem hsorted h.2⟩, le_getLastD_of_mem hsorted h.2⟩, h.2⟩

/-! ### Callees -/

theorem callOf_eq_some_iff {f : Func} {r : Reference} {entry site : Int} :
    callOf program f r = some (entry, site) ↔
      r.isCall = true ∧ r.fromAddress = site ∧ entry ≠ f.entry ∧
        ∃ g ∈ program.functions, g.entry = entry ∧ ∃ a ∈ g.body, r.toAddress = some a := by
  unfold callOf
  rw [Option.ite_none_right_eq_some]
  simp only [Option.bind_eq_some_iff, Option.ite_none_left_eq_some, Option.some.injEq,
    Prod.mk.injEq]
  constructor
  · rintro ⟨hcall, g, ⟨a, ha, hg⟩, hne, rfl, rfl⟩
    obtain ⟨hmem, hbody⟩ := Program.functionContaining_eq_some_iff.mp hg
    exact ⟨hcall, rfl, hne, g, hmem, rfl, a, hbody, ha⟩
  · rintro ⟨hcall, rfl, hne, g, hmem, rfl, a, hbody, ha⟩
    exact ⟨hcall, g, ⟨a, ha, Program.functionContaining_eq_some_iff.mpr ⟨hmem, hbody⟩⟩, hne,
      rfl, rfl⟩

/-- The calls that the walk sees. -/
theorem mem_calls_iff {f : Func} (hf : f ∈ program.functions) {entry site : Int} :
    (entry, site) ∈ (referencesIn program f).filterMap (callOf program f) ↔
      ∃ g ∈ program.functions, g ≠ f ∧ g.entry = entry ∧ CallsAt program f g site := by
  rw [List.mem_filterMap]
  constructor
  · rintro ⟨r, hr, hsome⟩
    obtain ⟨hrefs, hbody⟩ := (mem_referencesIn hf).mp hr
    obtain ⟨hcall, rfl, hne, g, hg, rfl, ha⟩ := callOf_eq_some_iff.mp hsome
    exact ⟨g, hg, fun he => hne (he ▸ rfl), rfl, r, hrefs, hcall, rfl, hbody, ha⟩
  · rintro ⟨g, hg, hne, rfl, r, hrefs, hcall, rfl, hbody, ha⟩
    refine ⟨r, (mem_referencesIn hf).mpr ⟨hrefs, hbody⟩, callOf_eq_some_iff.mpr
      ⟨hcall, rfl, ?_, g, hg, rfl, ha⟩⟩
    exact fun he => hne (List.inj_on_of_nodup_map program.entries_nodup hg hf he)

theorem orderedCallees_inOrder {f : Func} (hf : f ∈ program.functions) :
    CalleesInOrder program f (orderedCallees program f) := by
  unfold orderedCallees
  have hperm := sortBy_perm Prod.snd (keepBest Prod.fst (fun c : Int × Int => OrderDual.toDual c.2)
    ((referencesIn program f).filterMap (callOf program f))).values
  refine ⟨?_, ?_, ?_⟩
  · apply (hperm.map Prod.fst).nodup_iff.mpr
    exact nodup_map_key_keepBest _ _ _
  · intro a
    rw [(hperm.map Prod.fst).mem_iff, map_key_values_keepBest, mem_keys_keepBest, List.mem_map]
    constructor
    · rintro ⟨⟨entry, site⟩, hcall, rfl⟩
      obtain ⟨g, hg, hne, hentry, hsite⟩ := (mem_calls_iff hf).mp hcall
      exact ⟨g, hg, hne, hentry, site, hsite⟩
    · rintro ⟨g, hg, hne, rfl, site, hsite⟩
      exact ⟨(g.entry, site), (mem_calls_iff hf).mpr ⟨g, hg, hne, rfl, hsite⟩, rfl⟩
  · apply List.pairwise_map.mpr
    apply (sortBy_pairwise Prod.snd _).imp_of_mem
    intro c d hc hd hle g hg hentry site hsite
    have hc := hperm.mem_iff.mp hc
    have hd := hperm.mem_iff.mp hd
    obtain ⟨h, hh, hhne, hhentry, hearlier⟩ := (mem_calls_iff hf).mp
      (mem_of_mem_values_keepBest _ _ hc)
    have hne : g ≠ f := by
      obtain ⟨g', hg', hne', hentry', -⟩ := (mem_calls_iff hf).mp
        (mem_of_mem_values_keepBest _ _ hd)
      have hsame := List.inj_on_of_nodup_map program.entries_nodup hg hg'
        (hentry.trans hentry'.symm)
      exact hsame ▸ hne'
    have hcall := (mem_calls_iff hf).mpr ⟨g, hg, hne, hentry, hsite⟩
    have hfirst := rank_le_of_mem_values_keepBest _ _ hd hcall rfl
    exact ⟨h, hh, hhentry, c.2, hle.trans (OrderDual.toDual_le_toDual.mp hfirst), hearlier⟩

/-! ### One entry for each function -/

theorem toNat_entry_inj {f g : Func} (hf : f ∈ program.functions) (hg : g ∈ program.functions)
    (h : f.entry.toNat = g.entry.toNat) : f = g := by
  have hfrange := program.body_range f hf _ (program.entry_mem_body f hf)
  have hgrange := program.body_range g hg _ (program.entry_mem_body g hg)
  have hentry : f.entry = g.entry := by omega
  exact List.inj_on_of_nodup_map program.entries_nodup hf hg hentry

theorem get?_byEntry {ν : Type} {collect : Func → ν} {entry : Nat} {v : ν} :
    (byEntry program collect).get? entry = some v ↔
      ∃ f ∈ program.functions, f.entry.toNat = entry ∧ collect f = v := by
  have hnodup : ((program.functions.map fun f => (f.entry.toNat, collect f)).map
      Prod.fst).Nodup := by
    rw [List.map_map]
    have hfunctions := List.Nodup.of_map _ program.entries_nodup
    exact hfunctions.map_on fun f hf g hg h => toNat_entry_inj hf hg h
  rw [byEntry, ← Dict.mem_entries_iff, Dict.entries_ofList hnodup, List.mem_map]
  simp only [Prod.mk.injEq]

/-- The dump lists for every function the others that it calls, once each, in the order of
their first calls. -/
theorem dump_callees (program : Program) (collectDataRefs : Bool) {f : Func}
    (hf : f ∈ program.functions) :
    ∃ callees : List Int, (dumpProgram program collectDataRefs).callees.get? f.entry.toNat =
        some (callees.map Int.toNat) ∧
      CalleesInOrder program f callees :=
  ⟨orderedCallees program f, get?_byEntry.mpr ⟨f, hf, rfl, rfl⟩, orderedCallees_inOrder hf⟩

def callingFunc : Func := ⟨"main", 0x100, [0x100, 0x104, 0x108, 0x10c]⟩

/-- A function that calls the last one before the middle one, and then again. -/
def callingProgram : Program where
  functions := [callingFunc, ⟨"middle", 0x200, [0x200]⟩,
    ⟨"last", 0x300, [0x300, 0x304]⟩]
  references := [⟨0x100, some 0x304, true, true, false, false, false⟩,
    ⟨0x104, some 0x200, true, true, false, false, false⟩,
    ⟨0x108, some 0x300, true, true, false, false, false⟩,
    ⟨0x10c, some 0x804010, false, false, true, true, false⟩]
  instructions := []
  symbols := []
  entries_nodup := by decide
  body_range := by decide
  entry_mem_body := by decide
  bodies_disjoint := by decide
  body_sorted := by decide
  references_sorted := by decide
  reference_range := by decide
  instructions_sorted := instructions_sorted_nil
  symbol_range := symbol_range_nil

theorem dump_callees_calling :
    ∃ callees : List Int,
      (dumpProgram callingProgram false).callees.get? callingFunc.entry.toNat =
          some (callees.map Int.toNat) ∧
        CalleesInOrder callingProgram callingFunc callees :=
  dump_callees callingProgram false (f := callingFunc) (by decide)

example : orderedCallees callingProgram callingFunc = [0x300, 0x200] := by decide

/-! ### Labels -/

theorem mem_referencesFrom {a : Int} {r : Reference} :
    r ∈ program.referencesFrom a ↔ r ∈ program.references ∧ r.fromAddress = a := by
  rw [Program.referencesFrom, List.mem_filter, decide_eq_true_iff]

theorem accessesAt_of_mem {refType : Reference → Option DataRefType} {inRange : Nat → Bool}
    (htype : ∀ r type, refType r = some type → r.isData = true) {f : Func} {d : DataRef}
    (hd : d ∈ collectRefsWithin program refType inRange f) :
    AccessesAt program f d.instructionOffset d.referencedAddress ∧
      inRange d.referencedAddress = true := by
  obtain ⟨instr, hinstr, hd⟩ := List.mem_flatMap.mp hd
  obtain ⟨r, hr, haccess⟩ := List.mem_filterMap.mp hd
  obtain ⟨hrefs, hfrom⟩ := mem_referencesFrom.mp hr
  obtain ⟨hinstr, hbody⟩ := List.mem_filter.mp hinstr
  unfold accessOf at haccess
  obtain ⟨type, htyped, haccess⟩ := Option.bind_eq_some_iff.mp haccess
  obtain ⟨target, htarget, haccess⟩ := Option.bind_eq_some_iff.mp haccess
  rw [Option.ite_none_right_eq_some] at haccess
  obtain ⟨hrange, haccess⟩ := haccess
  obtain rfl := Option.some.inj haccess
  exact ⟨⟨instr, hinstr, of_decide_eq_true hbody, rfl, r, hrefs, hfrom, htype r type htyped, target,
    htarget, rfl⟩, hrange⟩

/-- The label is read off a match of a function of either program: an instruction of the one
accesses an address under the symbol of its name, and one of the other, not further off than
the window, the labelled address. Both addresses are in range. -/
def Accessed (inRange : Nat → Bool) (refProgram newProgram : Program)
    (ms : List MatchedFunction) (refSymbolsByAddr : Dict Nat ReferenceSymbol) (windowBytes : Nat)
    (s : PropagatedSymbol) : Prop :=
  ∃ m ∈ ms, tierForScore m.similarity ≠ .low ∧
    ∃ f ∈ refProgram.functions, f.entry.toNat = m.refAddress ∧
    ∃ g ∈ newProgram.functions, g.entry.toNat = m.newAddress ∧
    ∃ offset a sym, AccessesAt refProgram f offset a ∧ inRange a = true ∧
      refSymbolsByAddr.get? a = some sym ∧ sym.name = s.name ∧
    ∃ offset', AccessesAt newProgram g offset' s.newAddress ∧ inRange s.newAddress = true ∧
      (offset' - offset).natAbs ≤ windowBytes

section Labels

variable {refProgram newProgram : Program} {ms : List MatchedFunction}
  {refSymbolsByAddr : Dict Nat ReferenceSymbol} {windowBytes : Nat}

theorem Accessed.inRange {inRange : Nat → Bool} {s : PropagatedSymbol}
    (h : Accessed inRange refProgram newProgram ms refSymbolsByAddr windowBytes s) :
    inRange s.newAddress = true := by
  obtain ⟨m, -, -, f, -, -, g, -, -, offset, a, sym, -, -, -, -, offset', -, hrange, -⟩ := h
  exact hrange

theorem mem_getD_byEntry {ν : Type} {collect : Func → List ν} {entry : Nat} {x : ν}
    (h : x ∈ (byEntry program collect).getD entry []) :
    ∃ f ∈ program.functions, f.entry.toNat = entry ∧ x ∈ collect f := by
  unfold Dict.getD at h
  cases hget : (byEntry program collect).get? entry with
  | none =>
    rw [hget] at h
    cases h
  | some xs =>
    rw [hget] at h
    obtain ⟨f, hf, hentry, rfl⟩ := get?_byEntry.mp hget
    exact ⟨f, hf, hentry, h⟩

/-- One pass over what one collection found. -/
theorem accessed_of_mem {pass : DataRefs.LabelPass} {refType : Reference → Option DataRefType}
    {inRange : Nat → Bool} (htype : ∀ r type, refType r = some type → r.isData = true)
    {s : PropagatedSymbol}
    (hs : s ∈ DataRefs.propagateLabels pass refSymbolsByAddr windowBytes
      (byEntry refProgram (collectRefsWithin refProgram refType inRange))
      (byEntry newProgram (collectRefsWithin newProgram refType inRange)) ms) :
    Accessed inRange refProgram newProgram ms refSymbolsByAddr windowBytes s := by
  obtain ⟨before, v, after, p, hvisits, hsighted, hname, haddr, -⟩ :=
    DataRefs.exists_first_sighting hs
  have hv : v ∈ visits (byEntry refProgram (collectRefsWithin refProgram refType inRange)) ms := by
    rw [hvisits]
    exact List.mem_append_right before List.mem_cons_self
  obtain ⟨m, hm, hv⟩ := List.mem_flatMap.mp hv
  obtain ⟨d, hd, rfl⟩ := List.mem_map.mp hv
  obtain ⟨f, hf, hfentry, hdf⟩ := mem_getD_byEntry hd
  obtain ⟨hrefAccess, hrefRange⟩ := accessesAt_of_mem htype hdf
  obtain ⟨sym, hsym, hsymName⟩ := hsighted.symbol
  obtain ⟨found, hnearest, -, hfound⟩ := hsighted.nearest
  obtain ⟨g, hg, hgentry, hfoundg⟩ := mem_getD_byEntry hnearest.access.mem
  obtain ⟨hnewAccess, hnewRange⟩ := accessesAt_of_mem htype hfoundg
  rw [← hfound, haddr] at hnewAccess hnewRange
  have htier : tierForScore m.similarity ≠ .low := by
    rw [← hsighted.tier]
    rcases hsighted.matched with hmedium | hhigh
    · rw [hmedium]
      decide
    · rw [hhigh]
      decide
  exact ⟨m, hm, htier, f, hf, hfentry, g, hg, hgentry, d.instructionOffset, d.referencedAddress,
    sym, hrefAccess, hrefRange, hsym, hsymName.symm.trans hname, found.instructionOffset,
    hnewAccess, hnewRange, hnearest.in_window⟩

end Labels

theorem isData_of_flashType {r : Reference} {type : DataRefType} (h : flashType r = some type) :
    r.isData = true := by
  unfold flashType at h
  exact (Option.ite_none_right_eq_some.mp h).1

theorem isData_of_ramType {r : Reference} {type : DataRefType} (h : ramType r = some type) :
    r.isData = true := by
  unfold ramType at h
  exact (Option.ite_none_right_eq_some.mp h).1.1

/-- What the label passes say of the dumps of two programs: every data label is a flash address
and every RAM label a RAM address that an instruction of a matched function accesses, near
the offset at which its counterpart accesses the address of the named symbol. -/
theorem labels_of_dumps_accessed (refProgram newProgram : Program) (ms : List MatchedFunction)
    (refSymbolsByAddr : Dict Nat ReferenceSymbol) (windowBytes : Nat) :
    (∀ s ∈ propagateDataLabels (dumpProgram refProgram true).dataRefs
        (dumpProgram newProgram true).dataRefs ms refSymbolsByAddr windowBytes,
      s.newAddress < 0x80000 ∧
        Accessed isFlash refProgram newProgram ms refSymbolsByAddr windowBytes s) ∧
    ∀ s ∈ propagateRamLabels (dumpProgram refProgram true).ramDataRefs
        (dumpProgram newProgram true).ramDataRefs ms refSymbolsByAddr windowBytes,
      (0x804000 ≤ s.newAddress ∧ s.newAddress < 0x820000) ∧
        Accessed isRam refProgram newProgram ms refSymbolsByAddr windowBytes s := by
  constructor
  · intro s hs
    have haccessed := accessed_of_mem (fun _ _ => isData_of_flashType) hs
    exact ⟨of_decide_eq_true haccessed.inRange, haccessed⟩
  · intro s hs
    have haccessed := accessed_of_mem (fun _ _ => isData_of_ramType) hs
    exact ⟨of_decide_eq_true haccessed.inRange, haccessed⟩

/-! ### Free RAM -/

/-- `find_free_ram_blocks(set(run.ram_refs), min_length)` -/
def freeRamBlocks (run : HeadlessRun) (minLength : Int) : List RamFreeBlock :=
  findFreeRamBlocks (run.ramRefs.map fun n : Nat => (n : Int)).toFinset minLength

theorem mem_ramRefs {collectDataRefs : Bool} {a : Int} :
    a ∈ ((dumpProgram program collectDataRefs).ramRefs.map fun n : Nat => (n : Int)).toFinset ↔
      (∃ r ∈ program.references, r.toAddress = some a) ∧ ramStart ≤ a ∧ a < ramEnd := by
  rw [List.mem_toFinset, List.mem_map]
  simp only [dumpProgram, mem_sortBy, List.mem_dedup, List.mem_filterMap, ramTarget,
    Option.bind_eq_some_iff, Option.ite_none_right_eq_some, Option.some.injEq]
  unfold ramStart ramEnd
  constructor
  · rintro ⟨n, ⟨r, hr, offset, hto, hrange, rfl⟩, rfl⟩
    have hcast : ((offset.toNat : Nat) : Int) = offset := Int.toNat_of_nonneg (by omega)
    rw [hcast]
    exact ⟨⟨r, hr, hto⟩, hrange⟩
  · rintro ⟨⟨r, hr, hto⟩, hrange⟩
    exact ⟨a.toNat, ⟨r, hr, a, hto, hrange, rfl⟩, Int.toNat_of_nonneg (by omega)⟩

/-- The free blocks of a dumped program are the maximal stretches of RAM, long enough, that no
reference of the program points into. -/
theorem free_ram_of_dump (program : Program) (collectDataRefs : Bool) {minLength : Int}
    (hmin : 1 ≤ minLength) (b : RamFreeBlock) :
    b ∈ freeRamBlocks (dumpProgram program collectDataRefs) minLength ↔
      ∃ s e, MaximalGap (fun a => ∃ r ∈ program.references, r.toAddress = some a)
          ramStart ramEnd s e ∧ minLength ≤ e - s ∧
        b = ⟨s, e, e - s, if 1024 ≤ e - s then suspiciousLargeGap else ""⟩ := by
  let targets := (program.references.filterMap Reference.toAddress).toFinset
  have htargets : ∀ a, a ∈ targets ↔ ∃ r ∈ program.references, r.toAddress = some a := by
    intro a
    rw [List.mem_toFinset, List.mem_filterMap]
  have hinRange : RamSpace.inRange
      ((dumpProgram program collectDataRefs).ramRefs.map fun n : Nat => (n : Int)).toFinset =
        RamSpace.inRange targets := by
    have hfilter : (((dumpProgram program collectDataRefs).ramRefs.map
        fun n : Nat => (n : Int)).toFinset.filter fun a => ramStart ≤ a ∧ a < ramEnd) =
          targets.filter fun a => ramStart ≤ a ∧ a < ramEnd := by
      ext a
      rw [Finset.mem_filter, Finset.mem_filter, mem_ramRefs, htargets]
      tauto
    unfold RamSpace.inRange
    rw [hfilter]
  rw [freeRamBlocks, RamSpace.findFreeRamBlocks_congr hinRange,
    RamSpace.mem_findFreeRamBlocks hmin]
  have hpred : (fun a => a ∈ targets) =
      fun a => ∃ r ∈ program.references, r.toAddress = some a := by
    funext a
    exact propext (htargets a)
  rw [hpred]

/-- The RAM below the one address that is read. -/
theorem free_ram_of_calling :
    ⟨ramStart, 0x804010, 16, ""⟩ ∈ freeRamBlocks (dumpProgram callingProgram false) 4 := by
  apply (free_ram_of_dump callingProgram false (by decide) _).mpr
  refine ⟨ramStart, 0x804010, ⟨by decide, by decide, by decide, ?_, Or.inl rfl, Or.inr ?_⟩,
    by decide, by decide⟩
  · intro a hlo hhi href
    obtain ⟨r, hr, hto⟩ := href
    unfold ramStart at hlo
    have htargets : ∀ r ∈ callingProgram.references, ∀ a ∈ r.toAddress,
        a < 0x804000 ∨ 0x804010 ≤ a := by decide
    have htarget := htargets r hr a hto
    omega
  · exact ⟨⟨0x10c, some 0x804010, false, false, true, true, false⟩, by decide, rfl⟩

end RomAnalyzer.Ghidra
