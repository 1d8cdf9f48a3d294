import RomAnalyzer.Scripts.EnrichInit

/-!
# Rescoring and setting up again

A round puts names into the programs and the stores and raises what is left of the queue by
the addresses that it named. Setting up the queue again over the named programs is the other
way to the new scores.
-/
namespace RomAnalyzer.Scripts

open Lib
open AgentEnrich (QueueEntry StateDir sortDescending sortDescending_perm raise overlap
  rescoreNeighbors rescoreNeighbors_perm popBatch)
open Enrich (isAutoName isPlaceholder)
open Ghidra (Func Program)

/-! ### What a round does -/

/-- The function results of a round. -/
def fnResults (results : List HighResult) : List HighResult := results.filter fun r => !r.isVariable

/-- Those for one ROM. -/
def romResults (id : String) (results : List HighResult) : List HighResult :=
  (fnResults results).filter fun r => r.rom = id

/-- `apply_labels`, for functions that exist. -/
def applyLabels (program : Program) (rs : List HighResult) : Program :=
  rs.foldl (fun p r => p.setName r.address r.proposedName) program

def RomProgram.applyResults (rom : RomProgram) (results : List HighResult) : RomProgram :=
  { rom with
    program := applyLabels rom.program (romResults rom.id results)
    store := writeBatch rom.store ⟨.function, rom.id, romResults rom.id results⟩ }

/-- The function addresses that the round reports. -/
def namedTexts (results : List HighResult) : Finset String :=
  ((fnResults results).map fun r => hexText r.address).toFinset

/-- The queue in memory with its files, and the project. -/
structure NamingState where
  loop : AgentEnrich.Loop
  roms : List RomProgram

inductive NamingMove
  | pop (k : Int)
  | saveLoad
  | name (results : List HighResult)

def namingStep (floatText : String → String) (s : NamingState) : NamingMove → Option NamingState
  | .pop k => (AgentEnrich.step floatText s.loop (.pop k)).map fun loop => ⟨loop, s.roms⟩
  | .saveLoad => (AgentEnrich.step floatText s.loop .saveLoad).map fun loop => ⟨loop, s.roms⟩
  | .name results =>
    (AgentEnrich.step floatText s.loop (.rescore (namedTexts results))).map fun loop =>
      ⟨loop, s.roms.map fun rom => rom.applyResults results⟩

def queueKey (e : QueueEntry) : String × String := (e.rom, e.address)

/-- The keys of all entries that were taken from the queue. -/
def NamingState.taken (s : NamingState) : List (String × String) :=
  s.loop.batches.flatten.map queueKey

/-- A round names, with names of human shape, unnamed functions whose entries were taken
from the queue, and no neighbour address of a function is named in another ROM only. -/
structure Admissible (s : NamingState) (results : List HighResult) : Prop where
  taken : ∀ r ∈ fnResults results, (r.rom, hexText r.address) ∈ s.taken
  human : ∀ r ∈ fnResults results, isHumanName r.proposedName = true
  unnamed : ∀ rom ∈ s.roms, ∀ f ∈ rom.program.functions,
    entryPoint f ∈ (romResults rom.id results).map HighResult.address → isHumanName f.name = false
  own : ∀ rom ∈ s.roms, ∀ f ∈ rom.program.functions, ∀ a ∈ neighborEps rom.program f,
    hexText a ∈ namedTexts results → a ∈ (romResults rom.id results).map HighResult.address

def NamingMove.Admissible (s : NamingState) : NamingMove → Prop
  | .name results => Scripts.Admissible s results
  | _ => True

/-- The states that admissible moves lead to. -/
inductive NamingRun (floatText : String → String) (start : NamingState) : NamingState → Prop
  | start : NamingRun floatText start start
  | move {s t : NamingState} {m : NamingMove} (before : NamingRun floatText start s)
      (admissible : m.Admissible s) (step : namingStep floatText s m = some t) :
      NamingRun floatText start t

/-! ### New names in a program -/

/-- The name that the labels leave a function with. -/
def newName (rs : List HighResult) (f : Func) : String :=
  rs.foldl (fun name r => if f.entry = r.address then r.proposedName else name) f.name

def relabel (rs : List HighResult) (f : Func) : Func := { f with name := newName rs f }

theorem applyLabels_eq_rename (program : Program) (rs : List HighResult) :
    applyLabels program rs = program.rename (newName rs) := by
  induction rs generalizing program with
  | nil =>
    unfold applyLabels newName Program.rename
    simp
  | cons r rs ih =>
    have hstep : applyLabels program (r :: rs) =
        applyLabels (program.setName r.address r.proposedName) rs := rfl
    rw [hstep, ih]
    unfold Program.setName Program.rename
    simp only [List.map_map]
    rfl

theorem functions_applyLabels (program : Program) (rs : List HighResult) :
    (applyLabels program rs).functions = program.functions.map (relabel rs) := by
  rw [applyLabels_eq_rename]
  rfl

theorem newName_of_not_mem {rs : List HighResult} {f : Func}
    (h : entryPoint f ∉ rs.map HighResult.address) (hf : (entryPoint f : Int) = f.entry) :
    newName rs f = f.name := by
  unfold newName
  induction rs with
  | nil => rfl
  | cons r rs ih =>
    rw [List.map_cons, List.mem_cons, not_or] at h
    have hne : f.entry ≠ r.address := by
      rw [← hf]
      exact fun he => h.1 (Int.ofNat.inj he)
    rw [List.foldl_cons, if_neg hne]
    exact ih h.2

theorem exists_newName {rs : List HighResult} {f : Func}
    (h : entryPoint f ∈ rs.map HighResult.address) (hf : (entryPoint f : Int) = f.entry) :
    ∃ r ∈ rs, newName rs f = r.proposedName := by
  induction rs using List.reverseRecOn with
  | nil => cases h
  | append_singleton rs r ih =>
    have hlast : newName (rs ++ [r]) f =
        if f.entry = r.address then r.proposedName else newName rs f := by
      simp [newName]
    by_cases hr : f.entry = r.address
    · exact ⟨r, List.mem_append_right _ (List.mem_singleton.mpr rfl), by rw [hlast, if_pos hr]⟩
    · rw [List.map_append, List.mem_append, List.map_singleton, List.mem_singleton] at h
      have hmem : entryPoint f ∈ rs.map HighResult.address := by
        refine h.resolve_right fun he => hr ?_
        rw [← hf, he]
      obtain ⟨r', hr', heq⟩ := ih hmem
      exact ⟨r', List.mem_append_left _ hr', by rw [hlast, if_neg hr, heq]⟩

section Relabelled

variable {program : Program} {rs : List HighResult}

theorem functionAt_applyLabels (a : Int) :
    (applyLabels program rs).functionAt a = (program.functionAt a).map (relabel rs) := by
  unfold Program.functionAt
  rw [functions_applyLabels, List.find?_map]
  rfl

theorem functionContaining_applyLabels (a : Int) :
    (applyLabels program rs).functionContaining a =
      (program.functionContaining a).map (relabel rs) := by
  unfold Program.functionContaining
  rw [functions_applyLabels, List.find?_map]
  rfl

theorem references_applyLabels : (applyLabels program rs).references = program.references := by
  rw [applyLabels_eq_rename]
  rfl

theorem neighbors_applyLabels (f : Func) :
    neighbors (applyLabels program rs) (relabel rs f) =
      (neighbors program f).map (relabel rs) := by
  have hcallers : callers (applyLabels program rs) (relabel rs f) =
      (callers program f).map (relabel rs) := by
    unfold callers Program.referencesTo
    rw [references_applyLabels, List.map_filterMap]
    apply List.filterMap_congr
    intro ref _
    rw [functionContaining_applyLabels]
    split <;> rfl
  have hcallees : callees (applyLabels program rs) (relabel rs f) =
      (callees program f).map (relabel rs) := by
    unfold callees Program.referencesFrom
    rw [references_applyLabels, List.map_flatMap]
    refine congrArg (fun find => f.body.flatMap find) (funext fun a => ?_)
    rw [List.map_filterMap]
    apply List.filterMap_congr
    intro ref _
    cases ref.toAddress with
    | none => split <;> rfl
    | some target =>
      rw [Option.bind_some, Option.bind_some, functionAt_applyLabels]
      split <;> rfl
  unfold neighbors
  rw [hcallers, hcallees, List.map_append]

theorem neighborEps_applyLabels (f : Func) :
    neighborEps (applyLabels program rs) (relabel rs f) = neighborEps program f := by
  unfold neighborEps entryPoints
  rw [neighbors_applyLabels, List.map_map]
  rfl

/-- Human names of unnamed functions add the neighbours that get one, and only these. -/
theorem namedEps_applyLabels {f : Func} (hf : f ∈ program.functions)
    (hhuman : ∀ r ∈ rs, isHumanName r.proposedName = true) :
    namedEps (applyLabels program rs) (relabel rs f) =
      namedEps program f ∪ neighborEps program f ∩ (rs.map HighResult.address).toFinset := by
  ext a
  unfold namedEps neighborEps
  rw [neighbors_applyLabels, Finset.mem_union, Finset.mem_inter, List.mem_toFinset,
    mem_entryPoints, mem_entryPoints, mem_entryPoints]
  constructor
  · intro h
    obtain ⟨g', hg', rfl⟩ := h
    obtain ⟨hmem, hname⟩ := List.mem_filter.mp hg'
    obtain ⟨g, hg, rfl⟩ := List.mem_map.mp hmem
    by_cases hin : entryPoint g ∈ rs.map HighResult.address
    · exact Or.inr ⟨⟨g, hg, rfl⟩, hin⟩
    · have hcast := Program.cast_offset32_entry (mem_functions_of_mem_neighbors hf hg)
      have hkept : (relabel rs g).name = g.name := newName_of_not_mem hin hcast
      rw [hkept] at hname
      exact Or.inl ⟨g, List.mem_filter.mpr ⟨hg, hname⟩, rfl⟩
  · intro h
    obtain ⟨g, hg, rfl⟩ | ⟨⟨g, hg, rfl⟩, hin⟩ := h
    · obtain ⟨hmem, hname⟩ := List.mem_filter.mp hg
      refine ⟨relabel rs g, List.mem_filter.mpr ⟨List.mem_map_of_mem hmem, ?_⟩, rfl⟩
      have hcast := Program.cast_offset32_entry (mem_functions_of_mem_neighbors hf hmem)
      by_cases hin : entryPoint g ∈ rs.map HighResult.address
      · obtain ⟨r, hr, heq⟩ := exists_newName hin hcast
        exact (congrArg isHumanName heq).trans (hhuman r hr)
      · exact (congrArg isHumanName (newName_of_not_mem hin hcast)).trans hname
    · refine ⟨relabel rs g, List.mem_filter.mpr ⟨List.mem_map_of_mem hg, ?_⟩, rfl⟩
      have hcast := Program.cast_offset32_entry (mem_functions_of_mem_neighbors hf hg)
      obtain ⟨r, hr, heq⟩ := exists_newName hin hcast
      exact (congrArg isHumanName heq).trans (hhuman r hr)

theorem card_namedEps_applyLabels {f : Func} (hf : f ∈ program.functions)
    (hhuman : ∀ r ∈ rs, isHumanName r.proposedName = true)
    (hunnamed : ∀ g ∈ program.functions, entryPoint g ∈ rs.map HighResult.address →
      isHumanName g.name = false) :
    (namedEps (applyLabels program rs) (relabel rs f)).card =
      (namedEps program f).card +
        (neighborEps program f ∩ (rs.map HighResult.address).toFinset).card := by
  rw [namedEps_applyLabels hf hhuman, Finset.card_union_of_disjoint]
  rw [Finset.disjoint_left]
  intro a hnamed hnew
  obtain ⟨g, hg, rfl⟩ := mem_entryPoints.mp hnamed
  obtain ⟨hmem, hname⟩ := List.mem_filter.mp hg
  have hin := List.mem_toFinset.mp (Finset.mem_inter.mp hnew).2
  rw [hunnamed g (mem_functions_of_mem_neighbors hf hmem) hin] at hname
  cases hname

end Relabelled

/-! ### One round -/

theorem overlap_sortedTexts (eps : Finset Nat) (texts : Finset String) :
    overlap (sortedTexts eps) texts = (eps.filter fun a => hexText a ∈ texts).card := by
  have hinter : eps.image hexText ∩ texts =
      (eps.filter fun a => hexText a ∈ texts).image hexText := by
    rw [← Finset.filter_mem_eq_inter, Finset.filter_image]
  rw [overlap, sortedTexts, Finset.sort_toFinset, hinter,
    Finset.card_image_of_injective _ hexText_injective]

section Round

variable {s : NamingState} {results : List HighResult} {rom : RomProgram} {f : Func}

theorem hexText_mem_namedTexts {id : String} {a : Nat}
    (h : a ∈ (romResults id results).map HighResult.address) :
    hexText a ∈ namedTexts results := by
  obtain ⟨r, hr, rfl⟩ := List.mem_map.mp h
  exact List.mem_toFinset.mpr (List.mem_map.mpr ⟨r, (List.mem_filter.mp hr).1, rfl⟩)

/-- An entry is raised by the number of neighbours that its own ROM names. -/
theorem Admissible.overlap_eq (h : Admissible s results) (hrom : rom ∈ s.roms)
    (hf : f ∈ rom.program.functions) :
    overlap (rom.queueEntry f).neighborAddresses (namedTexts results) =
      (neighborEps rom.program f ∩
        ((romResults rom.id results).map HighResult.address).toFinset).card := by
  have hfilter : (neighborEps rom.program f).filter (fun a => hexText a ∈ namedTexts results) =
      neighborEps rom.program f ∩
        ((romResults rom.id results).map HighResult.address).toFinset := by
    ext a
    rw [Finset.mem_filter, Finset.mem_inter, List.mem_toFinset]
    exact and_congr_right fun ha => ⟨h.own rom hrom f hf a ha, hexText_mem_namedTexts⟩
  exact (overlap_sortedTexts _ _).trans (congrArg Finset.card hfilter)

theorem Admissible.human_romResults (h : Admissible s results) (id : String) :
    ∀ r ∈ romResults id results, isHumanName r.proposedName = true := by
  intro r hr
  exact h.human r (List.mem_filter.mp hr).1

theorem Admissible.queueEntry_applyResults (h : Admissible s results) (hrom : rom ∈ s.roms)
    (hf : f ∈ rom.program.functions)
    (hout : entryPoint f ∉ (romResults rom.id results).map HighResult.address) :
    (rom.applyResults results).queueEntry (relabel (romResults rom.id results) f) =
      raise (rom.queueEntry f)
        (overlap (rom.queueEntry f).neighborAddresses (namedTexts results)) := by
  have hcard := card_namedEps_applyLabels hf (h.human_romResults rom.id) (h.unnamed rom hrom)
  have hname : newName (romResults rom.id results) f = f.name :=
    newName_of_not_mem hout (Program.cast_offset32_entry hf)
  rw [h.overlap_eq hrom hf]
  unfold raise RomProgram.queueEntry RomProgram.applyResults
  simp only [hcard, neighborEps_applyLabels]
  unfold relabel
  rw [hname]
  split
  · push_cast
    rfl
  · rename_i hzero
    rw [Nat.eq_zero_of_not_pos hzero]
    rfl

/-- What the store says of an address that the round does not name. -/
theorem mem_functions_applyResults {g : AnnotationFunction}
    (hout : g.entryPoint ∉ (romResults rom.id results).map HighResult.address) :
    g ∈ (rom.applyResults results).store.functions ↔ g ∈ rom.store.functions := by
  let p : Nat → Bool := fun k => decide (k ∉ (romResults rom.id results).map HighResult.address)
  have hwrites : ∀ w ∈ (romResults rom.id results).map agentFunctions.write, p w.key = false := by
    intro w hw
    obtain ⟨r, hr, rfl⟩ := List.mem_map.mp hw
    exact decide_eq_false (not_not_intro (List.mem_map_of_mem hr))
  have hfilter := Labelled.filter_run hwrites rom.store.functions
  have hp : p (agentFunctions.entries.key g) = true := decide_eq_true hout
  have hmem : ∀ gs : List AnnotationFunction,
      g ∈ gs ↔ g ∈ gs.filter fun x => p (agentFunctions.entries.key x) := by
    intro gs
    rw [List.mem_filter, and_iff_left hp]
  rw [hmem rom.store.functions, ← hfilter, ← hmem]
  rfl

theorem isCandidate_applyResults (hf : f ∈ rom.program.functions)
    (hout : entryPoint f ∉ (romResults rom.id results).map HighResult.address) :
    (rom.applyResults results).isCandidate (relabel (romResults rom.id results) f) =
      rom.isCandidate f := by
  have hname : (relabel (romResults rom.id results) f).name = f.name :=
    newName_of_not_mem hout (Program.cast_offset32_entry hf)
  have hkey : entryPoint (relabel (romResults rom.id results) f) = entryPoint f := rfl
  have hall : (rom.applyResults results).allEps.contains (entryPoint f) =
      rom.allEps.contains (entryPoint f) := by
    rw [Bool.eq_iff_iff, List.contains_iff_mem, List.contains_iff_mem]
    unfold RomProgram.allEps
    rw [List.mem_map, List.mem_map]
    refine exists_congr fun g => and_congr_left fun hg => ?_
    exact mem_functions_applyResults (hg ▸ hout)
  have hplaceholder : (rom.applyResults results).placeholderEps.contains (entryPoint f) =
      rom.placeholderEps.contains (entryPoint f) := by
    rw [Bool.eq_iff_iff, List.contains_iff_mem, List.contains_iff_mem]
    unfold RomProgram.placeholderEps
    rw [List.mem_map, List.mem_map]
    refine exists_congr fun g => and_congr_left fun hg => ?_
    rw [List.mem_filter, List.mem_filter, mem_functions_applyResults (hg ▸ hout)]
  unfold RomProgram.isCandidate
  rw [hkey, hname, hall, hplaceholder]

/-- Of the entries that are still to be taken, the named program has the raised ones. -/
theorem Admissible.candidates_applyResults (h : Admissible s results) (hrom : rom ∈ s.roms) :
    ((rom.applyResults results).candidates.filter fun e => queueKey e ∉ s.taken) =
      (rom.candidates.filter fun e => queueKey e ∉ s.taken).map fun e =>
        raise e (overlap e.neighborAddresses (namedTexts results)) := by
  have hout : ∀ f, (rom.id, hexText (entryPoint f)) ∉ s.taken →
      entryPoint f ∉ (romResults rom.id results).map HighResult.address := by
    intro f hkey hin
    obtain ⟨r, hr, heq⟩ := List.mem_map.mp hin
    obtain ⟨hfn, hid⟩ := List.mem_filter.mp hr
    apply hkey
    rw [← of_decide_eq_true hid, ← heq]
    exact h.taken r hfn
  unfold RomProgram.candidates
  have hfunctions : (rom.applyResults results).program.functions =
      rom.program.functions.map (relabel (romResults rom.id results)) :=
    functions_applyLabels _ _
  rw [hfunctions]
  simp only [List.filter_map, List.map_map, List.filter_filter]
  have hsame : ∀ f ∈ rom.program.functions,
      (((fun e => decide (queueKey e ∉ s.taken)) ∘
          (rom.applyResults results).queueEntry ∘ relabel (romResults rom.id results)) f &&
        ((rom.applyResults results).isCandidate ∘ relabel (romResults rom.id results)) f) =
      (((fun e => decide (queueKey e ∉ s.taken)) ∘ rom.queueEntry) f && rom.isCandidate f) := by
    intro f hf
    by_cases hkey : (rom.id, hexText (entryPoint f)) ∉ s.taken
    · exact congrArg _ (isCandidate_applyResults hf (hout f hkey))
    · have hfalse : decide ((rom.id, hexText (entryPoint f)) ∉ s.taken) = false :=
        decide_eq_false hkey
      change (decide ((rom.id, hexText (entryPoint f)) ∉ s.taken) && _) =
        (decide ((rom.id, hexText (entryPoint f)) ∉ s.taken) && _)
      rw [hfalse, Bool.false_and, Bool.false_and]
  rw [List.filter_congr hsame]
  apply List.map_congr_left
  intro f hf
  obtain ⟨hmem, hkept⟩ := List.mem_filter.mp hf
  rw [Bool.and_eq_true] at hkept
  exact h.queueEntry_applyResults hrom hmem (hout f (of_decide_eq_true hkept.1))

theorem initQueue_perm (roms : List RomProgram) :
    (initQueue roms).Perm (roms.flatMap RomProgram.candidates) := sortDescending_perm _

/-- Of the entries still to be taken, a new set-up has the raised ones. -/
theorem Admissible.initQueue_applyResults (h : Admissible s results) :
    ((initQueue (s.roms.map fun rom => rom.applyResults results)).filter
        fun e => queueKey e ∉ s.taken).Perm
      (((initQueue s.roms).filter fun e => queueKey e ∉ s.taken).map fun e =>
        raise e (overlap e.neighborAddresses (namedTexts results))) := by
  refine ((initQueue_perm _).filter _).trans
    (List.Perm.trans ?_ (((initQueue_perm s.roms).filter _).map _).symm)
  rw [List.flatMap_map, List.filter_flatMap, List.filter_flatMap, List.map_flatMap]
  apply List.Perm.flatMap_left
  intro rom hrom
  rw [h.candidates_applyResults hrom]

end Round

/-! ### A whole run -/

/-- Functions of one program have addresses of their own, and ROMs have ids of their own. -/
theorem nodup_keys_initQueue {roms : List RomProgram} (hids : (roms.map RomProgram.id).Nodup) :
    ((initQueue roms).map queueKey).Nodup := by
  rw [((initQueue_perm roms).map queueKey).nodup_iff, List.map_flatMap, List.nodup_flatMap]
  have hkeys : ∀ rom : RomProgram, rom.candidates.map queueKey =
      (rom.program.functions.filter rom.isCandidate).map fun f =>
        (rom.id, hexText (entryPoint f)) := by
    intro rom
    unfold RomProgram.candidates
    rw [List.map_map]
    rfl
  constructor
  · intro rom _
    rw [hkeys]
    apply List.Nodup.map_on
    · intro f hf g hg heq
      exact Program.offset32_entry_inj (List.mem_filter.mp hf).1 (List.mem_filter.mp hg).1
        (hexText_injective (Prod.mk.inj heq).2)
    · exact (List.Nodup.of_map _ rom.program.entries_nodup).filter _
  · apply (List.pairwise_map.mp hids).imp
    intro rom rom' hne
    rw [Function.onFun, hkeys, hkeys]
    intro k hk hk'
    obtain ⟨f, _, rfl⟩ := List.mem_map.mp hk
    obtain ⟨f', _, heq⟩ := List.mem_map.mp hk'
    exact hne (Prod.mk.inj heq).1.symm

/-- The queue holds what a new set-up would, less the entries taken. -/
structure Recomputed (s : NamingState) : Prop where
  ids : (s.roms.map RomProgram.id).Nodup
  queue : s.loop.queue.Perm ((initQueue s.roms).filter fun e => queueKey e ∉ s.taken)

section Preserved

variable {floatText : String → String} {s t : NamingState}

theorem Recomputed.nodup_keys (h : Recomputed s) : (s.loop.queue.map queueKey).Nodup := by
  rw [(h.queue.map queueKey).nodup_iff]
  exact (nodup_keys_initQueue h.ids).sublist (List.filter_sublist.map queueKey)

theorem taken_pop (s : NamingState) (k : Int) :
    NamingState.taken ⟨⟨(popBatch s.loop.queue k).2,
      s.loop.batches ++ [(popBatch s.loop.queue k).1], s.loop.stateDir⟩, s.roms⟩ =
        s.taken ++ (popBatch s.loop.queue k).1.map queueKey := by
  simp [NamingState.taken]

theorem decide_not_mem_append {κ : Type*} [BEq κ] [LawfulBEq κ] (k : κ) (xs ys : List κ) :
    decide (k ∉ xs ++ ys) = (decide (k ∉ ys) && decide (k ∉ xs)) := by
  rw [← Bool.decide_and, decide_eq_decide, List.mem_append, not_or, and_comm]

theorem Recomputed.pop (h : Recomputed s) (k : Int) :
    Recomputed ⟨⟨(popBatch s.loop.queue k).2, s.loop.batches ++ [(popBatch s.loop.queue k).1],
      s.loop.stateDir⟩, s.roms⟩ := by
  refine ⟨h.ids, ?_⟩
  have hperm := h.queue.filter fun e => queueKey e ∉ (popBatch s.loop.queue k).1.map queueKey
  rw [List.filter_filter] at hperm
  rw [taken_pop]
  simp only [decide_not_mem_append]
  have hrest := filter_not_mem_take h.nodup_keys (AgentEnrich.sliceIndex s.loop.queue.length k)
  exact (List.Perm.of_eq hrest.symm).trans hperm

theorem Recomputed.name {results : List HighResult} (h : Recomputed s)
    (hadmissible : Admissible s results) :
    Recomputed ⟨⟨rescoreNeighbors s.loop.queue (namedTexts results), s.loop.batches,
      s.loop.stateDir⟩, s.roms.map fun rom => rom.applyResults results⟩ := by
  constructor
  · rw [List.map_map]
    exact h.ids
  · exact (rescoreNeighbors_perm _ _).trans
      ((h.queue.map _).trans hadmissible.initQueue_applyResults.symm)

/-- Every admissible move keeps the queue up with a new set-up. -/
theorem Recomputed.step (h : Recomputed s) {m : NamingMove} (hm : m.Admissible s)
    (hstep : namingStep floatText s m = some t) : Recomputed t := by
  cases m with
  | pop k =>
    obtain rfl := Option.some.inj hstep
    exact h.pop k
  | saveLoad =>
    rw [namingStep, AgentEnrich.step, AgentEnrich.loadQueue, AgentEnrich.saveQueue,
      AgentEnrich.loadEntries_saveEntries] at hstep
    obtain rfl := Option.some.inj hstep
    exact ⟨h.ids, (sortDescending_perm _).trans h.queue⟩
  | name results =>
    obtain rfl := Option.some.inj hstep
    exact h.name hm

end Preserved

theorem NamingRun.recomputed {floatText : String → String} {roms : List RomProgram}
    {stateDir : StateDir} (hids : (roms.map RomProgram.id).Nodup) {s : NamingState}
    (hrun : NamingRun floatText ⟨⟨initQueue roms, [], stateDir⟩, roms⟩ s) : Recomputed s := by
  induction hrun with
  | start =>
    refine ⟨hids, List.Perm.of_eq (List.filter_eq_self.mpr fun e _ => ?_).symm⟩
    exact decide_eq_true List.not_mem_nil
  | move _ hadmissible hstep ih => exact ih.step hadmissible hstep

/-- A batch of one entry, and a name for it. -/
def sampleNaming : List HighResult :=
  [{ rom := "33520003", isVariable := false, address := 0x100, proposedName := "can_rx" }]

def sampleTaken : NamingState :=
  ⟨⟨(popBatch (initQueue sampleRoms) 1).2, [(popBatch (initQueue sampleRoms) 1).1],
    fun _ => none⟩, sampleRoms⟩

theorem sampleNaming_admissible : Admissible sampleTaken sampleNaming where
  taken := by decide
  human := by decide
  unnamed := by decide
  own := by decide

def sampleNamed : NamingState :=
  ⟨⟨rescoreNeighbors sampleTaken.loop.queue (namedTexts sampleNaming), sampleTaken.loop.batches,
    fun _ => none⟩, sampleRoms.map fun rom => rom.applyResults sampleNaming⟩

end RomAnalyzer.Scripts
