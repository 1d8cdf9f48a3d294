import RomAnalyzer.Scripts.EnrichInit.Rescoring
import RomAnalyzer.Scripts.EnrichInitVars

/-!
# Rescoring variables and setting up again

A round that names variables raises the entries around them. A new set-up finds the new
names among the symbols of the stores.
-/
namespace RomAnalyzer.Scripts

open Lib
open AgentEnrich (QueueEntry StateDir sortDescending sortDescending_perm raise overlap
  totalGain rescoreVarNeighbors rescoreVarNeighbors_perm popBatch settled)
open Ghidra (Func Program Sym offset32)

/-! ### What a round does -/

/-- The variable results of a round for one ROM. -/
def romVarResults (id : String) (results : List HighResult) : List HighResult :=
  (results.filter fun r => r.isVariable).filter fun r => r.rom = id

/-- `apply_labels`, for symbols. -/
def applyVarLabels (program : Program) (rs : List HighResult) : Program :=
  { program with
    symbols := program.symbols ++ rs.map fun r =>
      { name := r.proposedName, address := some (r.address : Int), source := "USER_DEFINED" }
    symbol_range := by
      intro s hs a ha
      rcases List.mem_append.mp hs with hs | hs
      · exact program.symbol_range s hs a ha
      · obtain ⟨r, -, rfl⟩ := List.mem_map.mp hs
        rw [← Option.some.inj ha]
        exact Int.natCast_nonneg _ }

def RomProgram.applyVarResults (rom : RomProgram) (results : List HighResult) : RomProgram :=
  { rom with
    program := applyVarLabels rom.program (romVarResults rom.id results)
    store := writeBatch rom.store ⟨.symbol, rom.id, romVarResults rom.id results⟩ }

/-- The variable addresses that the round reports. -/
def varTexts (results : List HighResult) : Finset String :=
  ((results.filter fun r => r.isVariable).map fun r => hexText r.address).toFinset

/-- The addresses that a round names in one ROM. -/
def varAddrs (id : String) (results : List HighResult) : Finset Nat :=
  ((romVarResults id results).map HighResult.address).toFinset

inductive VarMove
  | pop (k : Int)
  | saveLoad
  | name (results : List HighResult)

/-- A round in which only variables are named reports their addresses in both lists. -/
def varStep (floatText : String → String) (s : NamingState) : VarMove → Option NamingState
  | .pop k => (AgentEnrich.step floatText s.loop (.pop k)).map fun loop => ⟨loop, s.roms⟩
  | .saveLoad => (AgentEnrich.step floatText s.loop .saveLoadVar).map fun loop => ⟨loop, s.roms⟩
  | .name results =>
    (AgentEnrich.step floatText s.loop (.rescoreVar (varTexts results) (varTexts results))).map
      fun loop => ⟨loop, s.roms.map fun rom => rom.applyVarResults results⟩

/-- A round names, with names of human shape, variables that were taken from the queue and
that the store has no name for; a listed address that it names in some ROM, it names in the
ROM of the entry too. -/
structure VarAdmissible (s : NamingState) (results : List HighResult) : Prop where
  taken : ∀ rom ∈ s.roms, ∀ r ∈ romVarResults rom.id results, (r.rom, hexText r.address) ∈ s.taken
  human : ∀ rom ∈ s.roms, ∀ r ∈ romVarResults rom.id results,
    isVariableStub r.proposedName = false
  unnamed : ∀ rom ∈ s.roms, ∀ r ∈ romVarResults rom.id results, r.address ∉ rom.coveredAddrs
  own : ∀ e ∈ s.loop.queue, ∀ text ∈ e.neighborAddresses ++ e.siblingAddresses,
    text ∈ varTexts results → text ∈ (varAddrs e.rom results).image hexText

def VarMove.Admissible (s : NamingState) : VarMove → Prop
  | .name results => VarAdmissible s results
  | _ => True

/-- The states that admissible moves lead to. -/
inductive VarRun (floatText : String → String) (start : NamingState) : NamingState → Prop
  | start : VarRun floatText start start
  | move {s t : NamingState} {m : VarMove} (before : VarRun floatText start s)
      (admissible : m.Admissible s) (step : varStep floatText s m = some t) :
      VarRun floatText start t

/-- What a new set-up and the rescored queue have to agree on. -/
structure Scored where
  rom : String
  address : String
  currentName : String
  category : String
  priority : Int
  deriving DecidableEq, Repr

def scored (e : QueueEntry) : Scored := ⟨e.rom, e.address, e.currentName, e.category, e.priority⟩

/-! ### The new set-up -/

section SetUp

variable {window : Int} {rom : RomProgram} {results : List HighResult} {s : NamingState}

/-- The addresses around another one, of one region. -/
def around (window : Int) (addr : Nat) (region : String) (named : Finset Nat) : Finset Nat :=
  named.filter fun a => Near window addr a ∧ regionOf a = some region

theorem mem_symbols_applyVarResults {x : AnnotationSymbol}
    (hout : x.address ∉ varAddrs rom.id results) :
    x ∈ (rom.applyVarResults results).store.symbols ↔ x ∈ rom.store.symbols := by
  let p : Nat → Bool := fun k => decide (k ∉ varAddrs rom.id results)
  have hwrites : ∀ w ∈ (romVarResults rom.id results).map agentSymbols.write, p w.key = false := by
    intro w hw
    obtain ⟨r, hr, rfl⟩ := List.mem_map.mp hw
    exact decide_eq_false (not_not_intro (List.mem_toFinset.mpr (List.mem_map_of_mem hr)))
  have hfilter := Labelled.filter_run hwrites rom.store.symbols
  have hp : p (agentSymbols.entries.key x) = true := decide_eq_true hout
  have hmem : ∀ xs : List AnnotationSymbol,
      x ∈ xs ↔ x ∈ xs.filter fun y => p (agentSymbols.entries.key y) := by
    intro xs
    rw [List.mem_filter, and_iff_left hp]
  rw [hmem rom.store.symbols, ← hfilter, ← hmem]
  rfl

theorem VarAdmissible.isUnnamed_eq_false (h : VarAdmissible s results) (hrom : rom ∈ s.roms)
    {r : HighResult} (hr : r ∈ romVarResults rom.id results) : isUnnamed r.proposedName = false :=
  (Bool.or_eq_false_iff.mp (h.human rom hrom r hr)).2

theorem VarAdmissible.coveredAddrs_eq (h : VarAdmissible s results) (hrom : rom ∈ s.roms) :
    (rom.applyVarResults results).coveredAddrs = rom.coveredAddrs ∪ varAddrs rom.id results := by
  ext a
  rw [Finset.mem_union]
  unfold RomProgram.coveredAddrs
  simp only [List.mem_toFinset, List.mem_map, List.mem_filter, Bool.not_eq_true']
  by_cases hin : a ∈ varAddrs rom.id results
  · refine iff_of_true ?_ (Or.inr hin)
    obtain ⟨r, hr, rfl⟩ := List.mem_map.mp (List.mem_toFinset.mp hin)
    have hfresh : ∀ w ∈ (romVarResults rom.id results).map agentSymbols.write,
        w.fresh ≠ none := by
      intro w hw
      obtain ⟨r', _, rfl⟩ := List.mem_map.mp hw
      exact Option.some_ne_none _
    obtain ⟨x, hx, hkey, w', hw', _, hlabel⟩ :=
      Labelled.exists_written hfresh (List.mem_map_of_mem hr) rom.store.symbols
    obtain ⟨r', hr', rfl⟩ := List.mem_map.mp hw'
    refine ⟨x, ⟨hx, ?_⟩, hkey⟩
    have hname : x.name = r'.proposedName := congrArg AgentLabel.name hlabel
    rw [hname]
    exact h.isUnnamed_eq_false hrom hr'
  · rw [or_iff_left hin]
    refine exists_congr fun x => and_congr_left fun hx => and_congr_left fun _ => ?_
    exact mem_symbols_applyVarResults (hx ▸ hin)

theorem VarAdmissible.namedSiblingCount_eq (h : VarAdmissible s results) (hrom : rom ∈ s.roms)
    (addr : Nat) (region : String) :
    namedSiblingCount window (rom.applyVarResults results) addr region =
      namedSiblingCount window rom addr region +
        (around window addr region (varAddrs rom.id results)).card := by
  unfold namedSiblingCount around
  rw [h.coveredAddrs_eq hrom, Finset.filter_union, Finset.card_union_of_disjoint]
  apply Finset.disjoint_filter_filter
  rw [Finset.disjoint_right]
  intro a ha
  obtain ⟨r, hr, rfl⟩ := List.mem_map.mp (List.mem_toFinset.mp ha)
  exact h.unnamed rom hrom r hr

/-- What the names of a round add to the priority of an entry. -/
def bump (window : Int) (results : List HighResult) (t : Scored) : Scored :=
  { t with
    priority := t.priority +
      (around window ((readHex t.address).getD 0) t.category (varAddrs t.rom results)).card }

theorem variableRegion_of_covered {sym : Sym} {addr : Nat} (h : addr ∈ rom.coveredAddrs) :
    variableRegion rom sym addr = none := by
  cases hregion : variableRegion rom sym addr with
  | none => rfl
  | some region => exact absurd h (variableRegion_eq_some hregion).2.1

theorem VarAdmissible.variableRegion_eq (h : VarAdmissible s results) (hrom : rom ∈ s.roms)
    {sym : Sym} {addr : Nat} (hout : addr ∉ varAddrs rom.id results) :
    variableRegion (rom.applyVarResults results) sym addr = variableRegion rom sym addr := by
  have hcovered : addr ∈ (rom.applyVarResults results).coveredAddrs ↔ addr ∈ rom.coveredAddrs := by
    rw [h.coveredAddrs_eq hrom, Finset.mem_union, or_iff_left hout]
  unfold variableRegion
  simp only [hcovered]
  rfl

theorem VarAdmissible.scored_variableEntry (h : VarAdmissible s results) (hrom : rom ∈ s.roms)
    (name : String) (addr : Nat) (region : String) :
    scored (variableEntry window (rom.applyVarResults results) name addr region) =
      bump window results (scored (variableEntry window rom name addr region)) := by
  unfold scored bump variableEntry
  simp only [h.namedSiblingCount_eq hrom, readHex_hexText, Option.getD_some]
  rw [Scored.mk.injEq]
  refine ⟨rfl, rfl, rfl, rfl, ?_⟩
  push_cast
  rw [← add_assoc]
  rfl

/-- A symbol gives the same entry as before, with the score that the round adds, or its
entry was taken. -/
theorem VarAdmissible.variableEntryOf_eq (h : VarAdmissible s results) (hrom : rom ∈ s.roms)
    (sym : Sym) :
    ((variableEntryOf window (rom.applyVarResults results) sym).filter
        fun e => queueKey e ∉ s.taken).map scored =
      ((variableEntryOf window rom sym).filter fun e => queueKey e ∉ s.taken).map
        fun e => bump window results (scored e) := by
  unfold variableEntryOf
  cases sym.address with
  | none => rfl
  | some offset =>
    simp only [Option.bind_eq_bind, Option.bind_some, Option.pure_def]
    by_cases hin : offset32 offset ∈ varAddrs rom.id results
    · have hcovered : offset32 offset ∈ (rom.applyVarResults results).coveredAddrs := by
        rw [h.coveredAddrs_eq hrom]
        exact Finset.mem_union_right _ hin
      rw [variableRegion_of_covered hcovered]
      cases variableRegion rom sym (offset32 offset) with
      | none => rfl
      | some region =>
        obtain ⟨r, hr, heq⟩ := List.mem_map.mp (List.mem_toFinset.mp hin)
        have hid : r.rom = rom.id := of_decide_eq_true (List.mem_filter.mp hr).2
        have htaken : queueKey (variableEntry window rom sym.name (offset32 offset) region) ∈
            s.taken := by
          have hmem := h.taken rom hrom r hr
          rw [hid, heq] at hmem
          exact hmem
        rw [Option.bind_some, Option.filter_some, if_neg]
        · rfl
        · rw [decide_eq_true_iff]
          exact not_not_intro htaken
    · rw [h.variableRegion_eq hrom hin]
      cases variableRegion rom sym (offset32 offset) with
      | none => rfl
      | some region =>
        rw [Option.bind_some, Option.bind_some, Option.filter_some, Option.filter_some]
        by_cases htaken : (rom.id, hexText (offset32 offset)) ∈ s.taken
        · rw [if_neg, if_neg]
          · rfl
          · rw [decide_eq_true_iff]
            exact not_not_intro htaken
          · rw [decide_eq_true_iff]
            exact not_not_intro htaken
        · have hkept : ∀ rom' : RomProgram, rom'.id = rom.id →
              decide (queueKey (variableEntry window rom' sym.name (offset32 offset) region) ∉
                s.taken) = true := by
            intro rom' hid
            apply decide_eq_true
            rwa [queueKey, variableEntry, hid]
          rw [if_pos (hkept (rom.applyVarResults results) rfl), if_pos (hkept rom rfl),
            Option.map_some, Option.map_some, h.scored_variableEntry hrom]

theorem VarAdmissible.variableCandidates_eq (h : VarAdmissible s results) (hrom : rom ∈ s.roms) :
    ((variableCandidates window (rom.applyVarResults results)).filter
        fun e => queueKey e ∉ s.taken).map scored =
      ((variableCandidates window rom).filter fun e => queueKey e ∉ s.taken).map
        fun e => bump window results (scored e) := by
  have hnew : ∀ r ∈ romVarResults rom.id results,
      variableEntryOf window (rom.applyVarResults results)
        { name := r.proposedName, address := some (r.address : Int), source := "USER_DEFINED" } =
          none := by
    intro r hr
    unfold variableEntryOf variableRegion
    simp [h.human rom hrom r hr]
  unfold variableCandidates
  have hsymbols : (rom.applyVarResults results).program.symbols =
      rom.program.symbols ++ (romVarResults rom.id results).map fun r =>
        { name := r.proposedName, address := some (r.address : Int), source := "USER_DEFINED" } :=
    rfl
  rw [hsymbols, List.filterMap_append, List.filterMap_map]
  have hnone : (romVarResults rom.id results).filterMap
      (variableEntryOf window (rom.applyVarResults results) ∘ fun r =>
        { name := r.proposedName, address := some (r.address : Int), source := "USER_DEFINED" }) =
          [] := by
    apply List.filterMap_eq_nil_iff.mpr
    exact hnew
  rw [hnone, List.append_nil, List.filter_filterMap, List.filter_filterMap, List.map_filterMap,
    List.map_filterMap]
  apply List.filterMap_congr
  intro sym _
  exact h.variableEntryOf_eq hrom sym

/-- The scores of a new set-up, entry by entry. -/
theorem map_scored_initVarQueue_perm (window : Int) (roms : List RomProgram)
    (p : String × String → Bool) :
    (((initVarQueue window roms).filter fun e => p (queueKey e)).map scored).Perm
      (((rawVarQueue window roms).filter fun e => p (queueKey e)).map scored) := by
  refine (((sortDescending_perm _).filter _).map scored).trans (List.Perm.of_eq ?_)
  rw [List.filter_map, List.map_map]
  rfl

theorem VarAdmissible.initVarQueue_perm (h : VarAdmissible s results) :
    (((initVarQueue window (s.roms.map fun rom => rom.applyVarResults results)).filter
        fun e => queueKey e ∉ s.taken).map scored).Perm
      ((((initVarQueue window s.roms).filter fun e => queueKey e ∉ s.taken).map scored).map
        (bump window results)) := by
  refine (map_scored_initVarQueue_perm window _ fun k => decide (k ∉ s.taken)).trans
    (List.Perm.trans ?_ ((map_scored_initVarQueue_perm window s.roms
      fun k => decide (k ∉ s.taken)).map _).symm)
  unfold rawVarQueue
  rw [List.flatMap_map, List.filter_flatMap, List.filter_flatMap, List.map_flatMap,
    List.map_flatMap, List.map_flatMap]
  apply List.Perm.flatMap_left
  intro rom hrom
  rw [h.variableCandidates_eq hrom, List.map_map]
  rfl

end SetUp

/-! ### The gain of an entry -/

section Gain

variable {window : Int} {roms : List RomProgram} {s : NamingState} {results : List HighResult}
  {e e₀ : QueueEntry}

/-- A listed text is named by the round when the ROM of the entry names its address. -/
theorem overlap_of_own {texts : List String} {named : Finset Nat} {reported : Finset String}
    (hsub : named.image hexText ⊆ reported)
    (hown : ∀ text ∈ texts, text ∈ reported → text ∈ named.image hexText) :
    overlap texts reported = (named.filter fun a => hexText a ∈ texts).card := by
  have hinter : texts.toFinset ∩ reported =
      (named.filter fun a => hexText a ∈ texts).image hexText := by
    ext text
    rw [Finset.mem_inter, List.mem_toFinset, Finset.mem_image]
    constructor
    · intro hmem
      obtain ⟨a, ha, rfl⟩ := Finset.mem_image.mp (hown text hmem.1 hmem.2)
      exact ⟨a, Finset.mem_filter.mpr ⟨ha, hmem.1⟩, rfl⟩
    · intro hmem
      obtain ⟨a, ha, rfl⟩ := hmem
      obtain ⟨hnamed, htexts⟩ := Finset.mem_filter.mp ha
      exact ⟨htexts, hsub (Finset.mem_image_of_mem _ hnamed)⟩
  rw [overlap, hinter, Finset.card_image_of_injective _ hexText_injective]

theorem image_varAddrs_subset (id : String) : (varAddrs id results).image hexText ⊆
    varTexts results := by
  intro text htext
  obtain ⟨a, ha, rfl⟩ := Finset.mem_image.mp htext
  obtain ⟨r, hr, rfl⟩ := List.mem_map.mp (List.mem_toFinset.mp ha)
  exact List.mem_toFinset.mpr (List.mem_map.mpr ⟨r, (List.mem_filter.mp hr).1, rfl⟩)

/-- The taken variables were queued, each in its region and where no function starts. -/
structure Queued (roms : List RomProgram) (window : Int) (id : String) (a : Nat) : Prop where
  candidate : ∃ c ∈ rawVarQueue window roms, c.rom = id ∧ addressOf c = a ∧
    regionOf a = some c.category
  noFunction : ∀ rom ∈ roms, rom.id = id → rom.program.functionAt a = none

theorem queued_of_mem (hids : (roms.map RomProgram.id).Nodup) {c : QueueEntry}
    (hc : c ∈ rawVarQueue window roms) : Queued roms window c.rom (addressOf c) := by
  obtain ⟨rom, hrom, hcandidate⟩ := mem_rawVarQueue_iff.mp hc
  obtain ⟨sym, _, offset, region, _, hregion, rfl⟩ := mem_variableCandidates_iff.mp hcandidate
  obtain ⟨hin, _, hfunction⟩ := variableRegion_eq_some hregion
  rw [addressOf_variableEntry]
  constructor
  · exact ⟨_, hc, rfl, addressOf_variableEntry _ _ _, hin⟩
  · intro rom' hrom' hid
    obtain rfl : rom' = rom := List.inj_on_of_nodup_map hids hrom' hrom hid
    exact hfunction

/-- No queued variable is the entry point of an accessing function. -/
theorem hexText_not_mem_neighborAddresses {a : Nat} (h : Queued roms window e₀.rom a)
    (he₀ : e₀ ∈ rawVarQueue window roms) : hexText a ∉ e₀.neighborAddresses := by
  obtain ⟨rom, hrom, hcandidate⟩ := mem_rawVarQueue_iff.mp he₀
  obtain ⟨sym, _, offset, region, _, _, rfl⟩ := mem_variableCandidates_iff.mp hcandidate
  change hexText a ∉ sortedTexts (namedRefEps rom (offset32 offset))
  rw [mem_sortedTexts, namedRefEps, mem_entryPoints]
  intro hmem
  obtain ⟨f, hf, rfl⟩ := hmem
  obtain ⟨⟨ref, caller⟩, haccess, rfl⟩ := List.mem_map.mp hf
  have hcaller : caller ∈ rom.program.functions := (mem_namedAccesses haccess).1
  have hnone := h.noFunction rom hrom rfl
  have hat : rom.program.functionAt (entryPoint caller) = some caller :=
    Program.functionAt_eq_some_iff.mpr ⟨hcaller, (Program.cast_offset32_entry hcaller).symm⟩
  rw [hat] at hnone
  cases hnone

/-- The listed siblings are the queued variables around the entry. -/
theorem hexText_mem_siblingAddresses_iff {a : Nat} (h : Queued roms window e₀.rom a) :
    hexText a ∈ (withSiblings window (rawVarQueue window roms) e₀).siblingAddresses ↔
      Near window (addressOf e₀) a ∧ regionOf a = some e₀.category := by
  rw [mem_siblingAddresses_iff]
  obtain ⟨c, hc, hcrom, rfl, hregion⟩ := h.candidate
  constructor
  · intro hsibling
    obtain ⟨c', hc', _, _, hcategory, hnear, htext⟩ := hsibling
    have haddress : addressOf c' = addressOf c := by
      apply hexText_injective
      rw [hexText_addressOf hc', htext]
    obtain ⟨rom', hrom', hcandidate'⟩ := mem_rawVarQueue_iff.mp hc'
    obtain ⟨sym, _, offset, region, _, hregion', rfl⟩ := mem_variableCandidates_iff.mp hcandidate'
    have hin := (variableRegion_eq_some hregion').1
    rw [addressOf_variableEntry] at haddress hnear
    rw [← haddress]
    refine ⟨hnear, ?_⟩
    rw [← hcategory]
    exact hin
  · intro hnear
    refine ⟨c, hc, hcrom, ?_, Option.some.inj (hregion.symm.trans hnear.2), hnear.1,
      (hexText_addressOf hc).symm⟩
    intro heq
    have haddress : addressOf c = addressOf e₀ := by
      unfold addressOf
      rw [heq]
    have hpositive := hnear.1.1
    rw [haddress, sub_self, abs_zero] at hpositive
    exact lt_irrefl _ hpositive

end Gain

/-! ### A whole run -/

/-- The scores of the queue are those of a new set-up less the entries taken; of each entry
all but the counts is as it was set up first, and what was taken was queued. -/
structure VarRecomputed (window : Int) (roms : List RomProgram) (s : NamingState) : Prop where
  scores : (s.loop.queue.map scored).Perm
    (((initVarQueue window s.roms).filter fun e => queueKey e ∉ s.taken).map scored)
  origin : ∀ e ∈ s.loop.queue, ∃ e₀ ∈ initVarQueue window roms, settled e = settled e₀
  taken : ∀ k ∈ s.taken, ∃ c ∈ rawVarQueue window roms, queueKey c = k
  keys : (s.loop.queue.map queueKey).Nodup
  ids : s.roms.map RomProgram.id = roms.map RomProgram.id

section Preserved

variable {floatText : String → String} {window : Int} {roms : List RomProgram}
  {s t : NamingState} {results : List HighResult} {e e₀ : QueueEntry}

theorem queueKey_of_settled (h : settled e = settled e₀) : queueKey e = queueKey e₀ := by
  have hrom : e.rom = e₀.rom := congrArg (fun u => u.1.rom) h
  have haddress : e.address = e₀.address := congrArg (fun u => u.1.address) h
  rw [queueKey, hrom, haddress, queueKey]

theorem VarRecomputed.queued (h : VarRecomputed window roms s)
    (hids : (roms.map RomProgram.id).Nodup) (hadmissible : VarAdmissible s results) {id : String}
    {a : Nat} (hid : id ∈ roms.map RomProgram.id) (ha : a ∈ varAddrs id results) :
    Queued roms window id a := by
  obtain ⟨r, hr, rfl⟩ := List.mem_map.mp (List.mem_toFinset.mp ha)
  rw [← h.ids] at hid
  obtain ⟨rom, hrom, rfl⟩ := List.mem_map.mp hid
  obtain ⟨c, hc, hkey⟩ := h.taken _ (hadmissible.taken rom hrom r hr)
  have hqueued := queued_of_mem hids hc
  obtain ⟨hcrom, hcaddress⟩ := Prod.mk.inj hkey
  have hrrom : r.rom = rom.id := of_decide_eq_true (List.mem_filter.mp hr).2
  have haddress : addressOf c = r.address :=
    hexText_injective ((hexText_addressOf hc).trans hcaddress)
  rwa [haddress, hcrom, hrrom] at hqueued

/-- An entry gains by its siblings that its own ROM names, and by nothing else. -/
theorem VarRecomputed.totalGain_eq (h : VarRecomputed window roms s)
    (hids : (roms.map RomProgram.id).Nodup) (hadmissible : VarAdmissible s results)
    (he : e ∈ s.loop.queue) :
    totalGain (varTexts results) (varTexts results) e =
      (around window (addressOf e) e.category (varAddrs e.rom results)).card := by
  obtain ⟨e₁, he₁, hsettled⟩ := h.origin e he
  obtain ⟨e₀, he₀, rfl⟩ := mem_initVarQueue_iff.mp he₁
  have hrom : e.rom = e₀.rom := congrArg (fun u => u.1.rom) hsettled
  have haddress : addressOf e = addressOf e₀ := by
    have htext : e.address = e₀.address := congrArg (fun u => u.1.address) hsettled
    unfold addressOf
    rw [htext]
  have hcategory : e.category = e₀.category := congrArg (fun u => u.1.category) hsettled
  have hneighbors : e.neighborAddresses = e₀.neighborAddresses :=
    congrArg (fun u => u.1.neighborAddresses) hsettled
  have hsiblings : e.siblingAddresses =
      (withSiblings window (rawVarQueue window roms) e₀).siblingAddresses :=
    congrArg (fun u => u.1.siblingAddresses) hsettled
  have hid : e₀.rom ∈ roms.map RomProgram.id := by
    obtain ⟨rom, hmem, hcandidate⟩ := mem_rawVarQueue_iff.mp he₀
    obtain ⟨sym, _, offset, region, _, _, rfl⟩ := mem_variableCandidates_iff.mp hcandidate
    exact List.mem_map_of_mem hmem
  have hown := hadmissible.own e he
  rw [totalGain, overlap_of_own (image_varAddrs_subset e.rom) fun text htext =>
      hown text (List.mem_append_left _ htext),
    overlap_of_own (image_varAddrs_subset e.rom) fun text htext =>
      hown text (List.mem_append_right _ htext),
    hrom, haddress, hcategory, hneighbors, hsiblings]
  have hnone : (varAddrs e₀.rom results).filter (fun a => hexText a ∈ e₀.neighborAddresses) = ∅ := by
    apply Finset.filter_eq_empty_iff.mpr
    intro a ha
    exact hexText_not_mem_neighborAddresses (h.queued hids hadmissible hid ha) he₀
  rw [hnone, Finset.card_empty, Nat.zero_add, around]
  congr 1
  apply Finset.filter_congr
  intro a ha
  exact hexText_mem_siblingAddresses_iff (h.queued hids hadmissible hid ha)

theorem scored_raise (h : VarRecomputed window roms s) (hids : (roms.map RomProgram.id).Nodup)
    (hadmissible : VarAdmissible s results) (he : e ∈ s.loop.queue) :
    scored (raise e (totalGain (varTexts results) (varTexts results) e)) =
      bump window results (scored e) := by
  rw [h.totalGain_eq hids hadmissible he]
  unfold raise scored bump addressOf
  split
  · rfl
  · rename_i hzero
    have hcard : (around window ((readHex e.address).getD 0) e.category
        (varAddrs e.rom results)).card = 0 := Nat.eq_zero_of_not_pos hzero
    simp only [hcard]
    simp

theorem VarRecomputed.pop (h : VarRecomputed window roms s) (k : Int) :
    VarRecomputed window roms ⟨⟨(popBatch s.loop.queue k).2,
      s.loop.batches ++ [(popBatch s.loop.queue k).1], s.loop.stateDir⟩, s.roms⟩ := by
  refine ⟨?_, fun e he => h.origin e (List.mem_of_mem_drop he), ?_,
    h.keys.sublist ((List.drop_sublist _ _).map _), h.ids⟩
  · -- the key of an entry can be read off its score
    have hkeys : ((s.loop.queue.map scored).map fun u => (u.rom, u.address)).Nodup := by
      rw [List.map_map]
      exact h.keys
    have hrest := filter_not_mem_take hkeys (AgentEnrich.sliceIndex s.loop.queue.length k)
    have hperm := h.scores.filter fun u => (u.rom, u.address) ∉
      ((s.loop.queue.map scored).take (AgentEnrich.sliceIndex s.loop.queue.length k)).map
        fun u => (u.rom, u.address)
    rw [hrest, List.filter_map, List.filter_filter, ← List.map_drop, ← List.map_take,
      List.map_map] at hperm
    rw [taken_pop]
    simp only [decide_not_mem_append]
    exact hperm
  · rw [taken_pop]
    intro key hkey
    rcases List.mem_append.mp hkey with hold | hnew
    · exact h.taken key hold
    · obtain ⟨e, he, rfl⟩ := List.mem_map.mp hnew
      obtain ⟨e₁, he₁, hsettled⟩ := h.origin e (List.mem_of_mem_take he)
      obtain ⟨e₀, he₀, rfl⟩ := mem_initVarQueue_iff.mp he₁
      exact ⟨e₀, he₀, (queueKey_of_settled hsettled).symm⟩

/-- A queue that holds the same entries but for their counts, with the scores of the named
project. -/
theorem VarRecomputed.requeue (h : VarRecomputed window roms s) {queue : List QueueEntry}
    {roms' : List RomProgram} (stateDir : StateDir)
    (hsettled : (queue.map settled).Perm (s.loop.queue.map settled))
    (hids : roms'.map RomProgram.id = s.roms.map RomProgram.id)
    (hscores : (queue.map scored).Perm
      (((initVarQueue window roms').filter fun e => queueKey e ∉ s.taken).map scored)) :
    VarRecomputed window roms ⟨⟨queue, s.loop.batches, stateDir⟩, roms'⟩ := by
  refine ⟨hscores, ?_, h.taken, ?_, hids.trans h.ids⟩
  · intro e he
    have hmem := hsettled.mem_iff.mp (List.mem_map_of_mem (f := settled) he)
    obtain ⟨e', he', heq⟩ := List.mem_map.mp hmem
    obtain ⟨e₀, he₀, horigin⟩ := h.origin e' he'
    exact ⟨e₀, he₀, heq.symm.trans horigin⟩
  · have hkey : ∀ xs : List QueueEntry, xs.map queueKey =
        (xs.map settled).map fun u => (u.1.rom, u.1.address) := by
      intro xs
      rw [List.map_map]
      rfl
    rw [hkey, (hsettled.map _).nodup_iff, ← hkey]
    exact h.keys

theorem VarRecomputed.step (h : VarRecomputed window roms s)
    (hids : (roms.map RomProgram.id).Nodup) {m : VarMove} (hm : m.Admissible s)
    (hstep : varStep floatText s m = some t) : VarRecomputed window roms t := by
  cases m with
  | pop k =>
    obtain rfl := Option.some.inj hstep
    exact h.pop k
  | saveLoad =>
    rw [varStep, AgentEnrich.step, AgentEnrich.loadVarQueue, AgentEnrich.saveVarQueue,
      AgentEnrich.loadEntries_saveEntries] at hstep
    obtain rfl := Option.some.inj hstep
    exact h.requeue _ ((sortDescending_perm _).map _) rfl
      (((sortDescending_perm _).map scored).trans h.scores)
  | name results =>
    obtain rfl := Option.some.inj hstep
    refine h.requeue _ (AgentEnrich.map_settled_rescoreVarNeighbors _ _ _) ?_ ?_
    · rw [List.map_map]
      rfl
    · refine ((rescoreVarNeighbors_perm _ _ _).map scored).trans ?_
      have hraised : (s.loop.queue.map fun e =>
          raise e (totalGain (varTexts results) (varTexts results) e)).map scored =
            (s.loop.queue.map scored).map (bump window results) := by
        rw [List.map_map, List.map_map]
        apply List.map_congr_left
        intro e he
        exact scored_raise h hids hm he
      rw [hraised]
      exact (h.scores.map _).trans hm.initVarQueue_perm.symm

end Preserved

theorem VarRun.recomputed {floatText : String → String} {window : Int} {roms : List RomProgram}
    {stateDir : StateDir} (hids : (roms.map RomProgram.id).Nodup)
    (hkeys : ((initVarQueue window roms).map queueKey).Nodup) {s : NamingState}
    (hrun : VarRun floatText ⟨⟨initVarQueue window roms, [], stateDir⟩, roms⟩ s) :
    VarRecomputed window roms s := by
  induction hrun with
  | start =>
    refine ⟨List.Perm.of_eq (congrArg _ (List.filter_eq_self.mpr fun e _ => ?_).symm), ?_, ?_,
      hkeys, rfl⟩
    · exact decide_eq_true List.not_mem_nil
    · exact fun e he => ⟨e, he, rfl⟩
    · exact fun k hk => absurd hk List.not_mem_nil
  | move _ hadmissible hstep ih => exact ih.step hids hadmissible hstep

/-- Rescoring by siblings agrees with setting up again. After any run of batches, saves and
admissible rounds that name variables, the entries left in the queue are those of a new
set-up for the symbols not yet taken, with the same priorities. -/
theorem rescored_varQueue_recomputed (floatText : String → String) (window : Int)
    (roms : List RomProgram) (stateDir : StateDir) (hids : (roms.map RomProgram.id).Nodup)
    (hkeys : ((initVarQueue window roms).map queueKey).Nodup) {s : NamingState}
    (hrun : VarRun floatText ⟨⟨initVarQueue window roms, [], stateDir⟩, roms⟩ s) :
    (s.loop.queue.map scored).Perm
      (((initVarQueue window s.roms).filter fun e => queueKey e ∉ s.taken).map scored) :=
  (hrun.recomputed hids hkeys).scores

/-- An access from a named function and two variables, the first of which is accessed. -/
def sampleVarProgram : Program where
  functions := [⟨"FUN_00000100", 0x100, [0x100]⟩, ⟨"main", 0x300, [0x300, 0x304]⟩]
  references := [{ fromAddress := 0x304, toAddress := some 0x804000, isData := true, isRead := true }]
  symbols := [{ name := "DAT_00804000", address := some 0x804000 },
    { name := "DAT_00804010", address := some 0x804010 }]
  entries_nodup := by decide
  body_range := by decide
  entry_mem_body := by decide
  bodies_disjoint := by decide
  body_sorted := by decide
  references_sorted := by decide
  reference_range := by decide
  instructions_sorted := Ghidra.instructions_sorted_nil
  symbol_range := by decide

def sampleVarRoms : List RomProgram :=
  [⟨"33520003", "test.bin", sampleVarProgram, { schemaVersion := 1, romId := "", romSha256 := "" }⟩]

def sampleVarNaming : List HighResult :=
  [{ rom := "33520003", isVariable := true, address := 0x804000, proposedName := "engine_rpm" }]

def sampleVarTaken : NamingState :=
  ⟨⟨(popBatch (initVarQueue 64 sampleVarRoms) 1).2, [(popBatch (initVarQueue 64 sampleVarRoms) 1).1],
    fun _ => none⟩, sampleVarRoms⟩

theorem rom_sampleVarTaken : ∀ e ∈ sampleVarTaken.loop.queue, e.rom = "33520003" := by decide

theorem sampleVarNaming_admissible : VarAdmissible sampleVarTaken sampleVarNaming where
  taken := by decide
  human := by decide
  unnamed := by decide
  own := by
    intro e he text _ hin
    rw [rom_sampleVarTaken e he]
    exact hin

def sampleVarNamed : NamingState :=
  ⟨⟨rescoreVarNeighbors sampleVarTaken.loop.queue (varTexts sampleVarNaming)
      (varTexts sampleVarNaming), sampleVarTaken.loop.batches, fun _ => none⟩,
    sampleVarRoms.map fun rom => rom.applyVarResults sampleVarNaming⟩

theorem rescored_varQueue_recomputed_sample :
    (sampleVarNamed.loop.queue.map scored).Perm
      (((initVarQueue 64 sampleVarNamed.roms).filter
        fun e => queueKey e ∉ sampleVarNamed.taken).map scored) :=
  rescored_varQueue_recomputed id 64 sampleVarRoms (fun _ => none) (by decide) (by decide)
    (.move (s := sampleVarTaken) (m := .name sampleVarNaming)
      (.move (m := .pop 1) .start trivial rfl) sampleVarNaming_admissible rfl)

/-! ### Named functions -/

theorem overlap_eq_zero {texts : List String} {named : Finset String}
    (h : ∀ text ∈ texts, text ∉ named) : overlap texts named = 0 := by
  unfold overlap
  rw [Finset.card_eq_zero, Finset.eq_empty_iff_forall_notMem]
  intro text htext
  obtain ⟨hlisted, hnamed⟩ := Finset.mem_inter.mp htext
  exact h text (List.mem_toFinset.mp hlisted) hnamed

/-- The neighbours of an entry are functions that had a name when it was set up. -/
theorem exists_named_neighbor {window : Int} {roms : List RomProgram} {e : QueueEntry}
    (he : e ∈ rawVarQueue window roms) {text : String} (htext : text ∈ e.neighborAddresses) :
    ∃ rom ∈ roms, rom.id = e.rom ∧ ∃ f ∈ rom.program.functions,
      hexText (entryPoint f) = text ∧ isUnnamed f.name = false := by
  obtain ⟨rom, hrom, hcandidate⟩ := mem_rawVarQueue_iff.mp he
  obtain ⟨sym, _, offset, region, _, _, rfl⟩ := mem_variableCandidates_iff.mp hcandidate
  have hsorted : text ∈ sortedTexts (namedRefEps rom (offset32 offset)) := htext
  rw [sortedTexts, Finset.mem_sort, Finset.mem_image] at hsorted
  obtain ⟨a, ha, rfl⟩ := hsorted
  obtain ⟨f, hf, rfl⟩ := mem_entryPoints.mp ha
  obtain ⟨access, haccess, rfl⟩ := List.mem_map.mp hf
  obtain ⟨hcaller, hname⟩ := mem_namedAccesses haccess
  exact ⟨rom, hrom, rfl, access.2, hcaller, rfl, hname⟩

/-- The function signal of the variable queue is silent. Whatever was taken, saved and
rescored before, naming functions that had no name when the queue was set up raises no
variable: the neighbours that an entry lists had names already. -/
theorem functions_raise_no_variable (floatText : String → String) (window : Int)
    (roms : List RomProgram) (stateDir : StateDir) (steps : List AgentEnrich.Step)
    {s : AgentEnrich.Loop}
    (hrun : AgentEnrich.run floatText ⟨initVarQueue window roms, [], stateDir⟩ steps = some s)
    (results : List HighResult)
    (hunnamed : ∀ rom ∈ roms, ∀ f ∈ rom.program.functions,
      entryPoint f ∈ (romResults rom.id results).map HighResult.address →
        isUnnamed f.name = true)
    (hown : ∀ e ∈ s.queue, ∀ text ∈ e.neighborAddresses, text ∈ namedTexts results →
      text ∈ (romResults e.rom results).map fun r => hexText r.address)
    (varNames : Finset String) :
    rescoreVarNeighbors s.queue (namedTexts results) varNames =
      rescoreVarNeighbors s.queue ∅ varNames := by
  have haccounted : AgentEnrich.Accounted (initVarQueue window roms)
      ⟨initVarQueue window roms, [], stateDir⟩ :=
    ⟨List.Perm.refl _, AgentEnrich.sortDescending_descending _⟩
  have hsteps : ∃ s', AgentEnrich.run floatText _ steps = some s' ∧ _ := haccounted.run steps
  obtain ⟨s', hs', hsettled⟩ := hsteps
  rw [hrun] at hs'
  obtain rfl := Option.some.inj hs'
  have hsilent : ∀ e ∈ s.queue, totalGain (namedTexts results) varNames e =
      totalGain ∅ varNames e := by
    intro e he
    have hmem : settled e ∈ (initVarQueue window roms).map settled :=
      hsettled.settled.mem_iff.mp (List.mem_map_of_mem (List.mem_append_right _ he))
    obtain ⟨e₁, he₁, horigin⟩ := List.mem_map.mp hmem
    obtain ⟨e₀, he₀, rfl⟩ := mem_initVarQueue_iff.mp he₁
    have hrom : e₀.rom = e.rom := congrArg (fun u => u.1.rom) horigin
    have hneighbors : e₀.neighborAddresses = e.neighborAddresses :=
      congrArg (fun u => u.1.neighborAddresses) horigin
    have hzero : overlap e.neighborAddresses (namedTexts results) = 0 := by
      apply overlap_eq_zero
      intro text htext hnamed
      obtain ⟨r, hr, hrtext⟩ := List.mem_map.mp (hown e he text htext hnamed)
      rw [← hneighbors] at htext
      obtain ⟨rom, hmemrom, hid, f, hf, hftext, hname⟩ := exists_named_neighbor he₀ htext
      have haddress : r.address = entryPoint f := hexText_injective (hrtext.trans hftext.symm)
      have hin : entryPoint f ∈ (romResults rom.id results).map HighResult.address := by
        rw [hid, hrom, ← haddress]
        exact List.mem_map_of_mem hr
      rw [hunnamed rom hmemrom f hf hin] at hname
      cases hname
    have hempty : overlap e.neighborAddresses ∅ = 0 :=
      overlap_eq_zero fun text _ => Finset.notMem_empty text
    unfold totalGain
    rw [hzero, hempty]
  have hmap : (s.queue.map fun e => (raise e (totalGain (namedTexts results) varNames e),
      totalGain (namedTexts results) varNames e)) =
        s.queue.map fun e => (raise e (totalGain ∅ varNames e), totalGain ∅ varNames e) := by
    apply List.map_congr_left
    intro e he
    rw [hsilent e he]
  unfold rescoreVarNeighbors
  exact congrArg (fun ts => (sortBy (fun t : QueueEntry × Nat =>
    OrderDual.toDual (toLex (t.1.priority, t.2))) ts).map Prod.fst) hmap

theorem rom_sampleVarQueue : ∀ e ∈ initVarQueue 64 sampleVarRoms, e.rom = "33520003" := by decide

def sampleFnNaming : List HighResult :=
  [{ rom := "33520003", isVariable := false, address := 0x100, proposedName := "can_rx" }]

theorem functions_raise_no_variable_sample :
    rescoreVarNeighbors (initVarQueue 64 sampleVarRoms) (namedTexts sampleFnNaming) ∅ =
      rescoreVarNeighbors (initVarQueue 64 sampleVarRoms) ∅ ∅ :=
  functions_raise_no_variable id 64 sampleVarRoms (fun _ => none) [] rfl
    sampleFnNaming (by decide)
    (by
      intro e he text _ hin
      rw [rom_sampleVarQueue e he]
      exact List.mem_toFinset.mp hin) ∅

end RomAnalyzer.Scripts
