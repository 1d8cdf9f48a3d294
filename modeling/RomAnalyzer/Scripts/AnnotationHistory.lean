import RomAnalyzer.Pipeline.EnrichCommand
import RomAnalyzer.Scripts.EnrichApply

/-!
# What a history of commands keeps

Enrichment runs, reconcile files and naming rounds rewrite the annotation files in any order.
None of them takes away an entry of a precise source, unless the image is blank at a
function: they add entries and rename them, and a naming round signs what it names.
-/
namespace RomAnalyzer.Scripts

open Lib
open AnnotationsIo (sortedByAddress)
open Cleanup (cleanUp erasedAt sloppySources)
open Enrich (LabelCandidate ReconcileItem)
open Pipeline (EnrichRun ProjectImports ReferenceLibrary appendedFunction oneName onePair twoRoms)

/-- A command that rewrites annotation files. -/
inductive Command
  | enrich (newId : String) (imports : ProjectImports)
  | applyEnrichment (items : List ReconcileItem)
  | applyRound (results : List HighResult)

/-- The files after a command; one that stops with a message leaves them as they were. The
registry was loaded, so its annotation files are there. -/
def runCommand (lib : ReferenceLibrary) (files : AnnotationFiles) : Command → AnnotationFiles
  | .enrich newId imports =>
    match lib.enrich files newId imports with
    | .ok outcome => outcome.files
    | .error _ => files
  | .applyEnrichment items => Pipeline.applyEnrichment lib.byId lib.images items files
  | .applyRound results => applyHigh lib.jsonPaths (fun _ => true) results files

def history (lib : ReferenceLibrary) (files : AnnotationFiles) (commands : List Command) :
    AnnotationFiles :=
  commands.foldl (runCommand lib) files

/-! ### Kept entries -/

/-- The same function, with another name and signature at most. -/
structure FunctionKept (f f' : AnnotationFunction) : Prop where
  fields : f' = { f with name := f'.name, confidence := f'.confidence, source := f'.source }
  precise : f'.source ∉ sloppySources

structure SymbolKept (s s' : AnnotationSymbol) : Prop where
  fields : s' = { s with name := s'.name, confidence := s'.confidence, source := s'.source }
  precise : s'.source ∉ sloppySources

/-- The entries of precise sources are still there, the functions as far as they are spared. -/
structure StoreKept (spared : Nat → Prop) (before after : AnnotationStore) : Prop where
  functions : ∀ f ∈ before.functions, f.source ∉ sloppySources → spared f.entryPoint →
    ∃ f' ∈ after.functions, FunctionKept f f'
  symbols : ∀ s ∈ before.symbols, s.source ∉ sloppySources →
    ∃ s' ∈ after.symbols, SymbolKept s s'

/-- Every file keeps its entries, except for functions in blank flash. -/
def FilesKept (lib : ReferenceLibrary) (before after : AnnotationFiles) : Prop :=
  ∀ path, StoreKept (lib.Inhabited path) (before path) (after path)

variable {lib : ReferenceLibrary} {spared : Nat → Prop}

theorem FunctionKept.trans {f g k : AnnotationFunction} (h : FunctionKept f g)
    (h' : FunctionKept g k) : FunctionKept f k where
  fields := by
    rw [h'.fields, h.fields]
  precise := h'.precise

theorem SymbolKept.trans {s t u : AnnotationSymbol} (h : SymbolKept s t) (h' : SymbolKept t u) :
    SymbolKept s u where
  fields := by
    rw [h'.fields, h.fields]
  precise := h'.precise

theorem FunctionKept.entryPoint {f g : AnnotationFunction} (h : FunctionKept f g) :
    g.entryPoint = f.entryPoint := by
  rw [h.fields]

theorem StoreKept.refl (store : AnnotationStore) : StoreKept spared store store where
  functions f hf hprecise _ := ⟨f, hf, rfl, hprecise⟩
  symbols s hs hprecise := ⟨s, hs, rfl, hprecise⟩

theorem StoreKept.trans {a b c : AnnotationStore} (h : StoreKept spared a b)
    (h' : StoreKept spared b c) : StoreKept spared a c where
  functions := by
    intro f hf hprecise hspared
    obtain ⟨g, hg, hkept⟩ := h.functions f hf hprecise hspared
    rw [← hkept.entryPoint] at hspared
    obtain ⟨k, hk, hkept'⟩ := h'.functions g hg hkept.precise hspared
    exact ⟨k, hk, hkept.trans hkept'⟩
  symbols := by
    intro s hs hprecise
    obtain ⟨t, ht, hkept⟩ := h.symbols s hs hprecise
    obtain ⟨u, hu, hkept'⟩ := h'.symbols t ht hkept.precise
    exact ⟨u, hu, hkept.trans hkept'⟩

theorem FilesKept.refl (files : AnnotationFiles) : FilesKept lib files files :=
  fun path => StoreKept.refl (files path)

theorem FilesKept.trans {a b c : AnnotationFiles} (h : FilesKept lib a b)
    (h' : FilesKept lib b c) : FilesKept lib a c :=
  fun path => (h path).trans (h' path)

/-- Steps that keep the entries make a loop that does. -/
theorem FilesKept.foldl {α : Type*} {step : AnnotationFiles → α → AnnotationFiles}
    (hstep : ∀ files x, FilesKept lib files (step files x)) (xs : List α)
    (files : AnnotationFiles) : FilesKept lib files (xs.foldl step files) := by
  induction xs generalizing files with
  | nil => exact FilesKept.refl files
  | cons x xs ih => exact (hstep files x).trans (ih (step files x))

theorem FilesKept.save {files : AnnotationFiles} {path : Path} {store : AnnotationStore}
    (h : StoreKept (lib.Inhabited path) (files path) store) :
    FilesKept lib files (files.save path store) := by
  intro path'
  by_cases hpath : path' = path
  · subst hpath
    rw [AnnotationFiles.save, Function.update_self]
    constructor
    · intro f hf hprecise hspared
      obtain ⟨f', hf', hkept⟩ := h.functions f hf hprecise hspared
      exact ⟨f', Pipeline.mem_functions_sortedByAddress.mpr hf', hkept⟩
    · intro s hs hprecise
      obtain ⟨s', hs', hkept⟩ := h.symbols s hs hprecise
      exact ⟨s', mem_sortBy.mpr hs', hkept⟩
  · rw [AnnotationFiles.save, Function.update_of_ne hpath]
    exact StoreKept.refl _

/-! ### What each operation keeps -/

theorem appendFunctions_kept (store : AnnotationStore) (cands : List LabelCandidate) :
    StoreKept spared store (Pipeline.appendFunctions store cands).1 := by
  induction cands using List.reverseRecOn with
  | nil => exact StoreKept.refl store
  | append_singleton cands c ih =>
    rw [Pipeline.appendFunctions_append, Pipeline.appendFunction]
    split
    · exact ih
    · refine ih.trans ⟨fun f hf hprecise _ => ?_, fun s hs hprecise => ⟨s, hs, rfl, hprecise⟩⟩
      exact ⟨f, List.mem_append_left _ hf, rfl, hprecise⟩

theorem applyVerdicts_kept (store : AnnotationStore) (items : List ReconcileItem)
    (tid : String) : StoreKept spared store (Enrich.applyVerdicts store items tid).1 := by
  rw [Enrich.applyVerdicts, Enrich.foldl_applyVerdict]
  constructor
  · intro f hf hprecise _
    obtain ⟨f', hf', rfl | ⟨w, _, _, rfl⟩⟩ := Labelled.exists_mem_run
      (Enrich.writes Enrich.functionColumn .function items tid) hf
    · exact ⟨f', hf', rfl, hprecise⟩
    · exact ⟨_, hf', rfl, hprecise⟩
  · intro s hs hprecise
    obtain ⟨s', hs', rfl | ⟨w, _, _, rfl⟩⟩ := Labelled.exists_mem_run
      (Enrich.writes Enrich.symbolColumn .symbol items tid) hs
    · exact ⟨s', hs', rfl, hprecise⟩
    · exact ⟨_, hs', rfl, hprecise⟩

theorem autoStore_kept (store : AnnotationStore) (tid : String) (cands : List LabelCandidate) :
    StoreKept spared store (Pipeline.autoStore store tid cands).1 :=
  (appendFunctions_kept store _).trans (applyVerdicts_kept _ _ tid)

/-- The clean-up takes imprecise duplicates and what is in blank flash. -/
theorem cleanUp_kept {rom : Option Bytes}
    (hflash : ∀ image, rom = some image → ∀ addr, spared addr → erasedAt image addr = false)
    (store : AnnotationStore) : StoreKept spared store (cleanUp store rom) where
  functions := by
    intro f hf hprecise hspared
    obtain ⟨f', hf', hfields, _⟩ := Pipeline.exists_mem_cleanUp hf hprecise fun image himage =>
      hflash image himage f.entryPoint hspared
    refine ⟨f', hf', ?_, ?_⟩
    · rw [hfields]
    · rw [hfields]
      exact hprecise
  symbols := by
    intro s hs hprecise
    obtain ⟨s', hs', hfields⟩ := Pipeline.exists_symbol_mem_cleanUp rom hs hprecise
    refine ⟨s', hs', ?_, ?_⟩
    · rw [hfields]
    · rw [hfields]
      exact hprecise

/-- A naming round signs what it names, and its signature is precise. -/
theorem writeBatch_kept (store : AnnotationStore) (batch : Batch) :
    StoreKept spared store (writeBatch store batch) := by
  have hagent : "llm:agent" ∉ sloppySources := by decide
  obtain ⟨kind, rom, results⟩ := batch
  cases kind with
  | function =>
    refine ⟨fun f hf hprecise _ => ?_, fun s hs hprecise => ⟨s, hs, rfl, hprecise⟩⟩
    obtain ⟨f', hf', rfl | ⟨w, hw, _, rfl⟩⟩ := Labelled.exists_mem_run
      (results.map agentFunctions.write) hf
    · exact ⟨f', hf', rfl, hprecise⟩
    · obtain ⟨r, _, rfl⟩ := List.mem_map.mp hw
      exact ⟨_, hf', rfl, hagent⟩
  | symbol =>
    refine ⟨fun f hf hprecise _ => ⟨f, hf, rfl, hprecise⟩, fun s hs hprecise => ?_⟩
    obtain ⟨s', hs', rfl | ⟨w, hw, _, rfl⟩⟩ := Labelled.exists_mem_run
      (results.map agentSymbols.write) hs
    · exact ⟨s', hs', rfl, hprecise⟩
    · obtain ⟨r, _, rfl⟩ := List.mem_map.mp hw
      exact ⟨_, hs', rfl, hagent⟩

/-! ### What each command keeps -/

theorem enrich_kept {files : AnnotationFiles} {newId : String} {run : EnrichRun}
    (h : lib.RunOf files newId run) :
    FilesKept lib files (Pipeline.classifyAndApply run).files := by
  have hstep : ∀ (st : Pipeline.AutoState) (group : String × List LabelCandidate),
      FilesKept lib st.files (run.applyTarget st group).files := by
    intro st group
    unfold EnrichRun.applyTarget
    cases hget : run.byId.get? group.1 with
    | none => exact FilesKept.refl _
    | some entry =>
      dsimp only
      split
      · exact FilesKept.refl _
      · rw [h.byId] at hget
        apply FilesKept.save
        refine (autoStore_kept _ group.1 group.2).trans ?_
        apply cleanUp_kept
        rintro image ⟨⟩ addr hspared
        rw [h.targetRom hget]
        exact hspared group.1 entry hget rfl
  have hfold : ∀ (groups : List (String × List LabelCandidate)) (st : Pipeline.AutoState),
      FilesKept lib st.files (groups.foldl run.applyTarget st).files := by
    intro groups
    induction groups with
    | nil => exact fun st => FilesKept.refl _
    | cons group groups ih => exact fun st => (hstep st group).trans (ih _)
  rw [← h.files]
  exact hfold run.autoByTarget ⟨run.files, 0⟩

theorem applyEnrichment_kept (items : List ReconcileItem) (files : AnnotationFiles) :
    FilesKept lib files (Pipeline.applyEnrichment lib.byId lib.images items files) := by
  apply FilesKept.foldl
  intro files tid
  unfold Pipeline.applyTargetVerdicts
  cases hget : lib.byId.get? tid with
  | none => exact FilesKept.refl _
  | some entry =>
    apply FilesKept.save
    refine (applyVerdicts_kept _ items tid).trans ?_
    apply cleanUp_kept
    intro image himage addr hspared
    have himageBytes := hspared tid entry hget rfl
    rw [ReferenceLibrary.imageBytes, himage] at himageBytes
    exact himageBytes

theorem applyHigh_kept (results : List HighResult) (files : AnnotationFiles) :
    FilesKept lib files (applyHigh lib.jsonPaths (fun _ => true) results files) := by
  apply FilesKept.foldl
  intro files batch
  unfold applyBatch
  cases lib.jsonPaths.get? batch.rom with
  | none => exact FilesKept.refl _
  | some path => exact FilesKept.save (writeBatch_kept _ batch)

/-- One command keeps the entries. -/
theorem runCommand_kept (files : AnnotationFiles) (command : Command) :
    FilesKept lib files (runCommand lib files command) := by
  cases command with
  | enrich newId imports =>
    rw [runCommand, ReferenceLibrary.enrich]
    cases hrun : lib.enrichRun files newId imports with
    | error message => exact FilesKept.refl files
    | ok run => exact enrich_kept (ReferenceLibrary.runOf_enrichRun hrun)
  | applyEnrichment items => exact applyEnrichment_kept items files
  | applyRound results => exact applyHigh_kept results files

theorem history_append (files : AnnotationFiles) (earlier later : List Command) :
    history lib files (earlier ++ later) = history lib (history lib files earlier) later :=
  List.foldl_append

theorem history_kept (files : AnnotationFiles) (commands : List Command) :
    FilesKept lib files (history lib files commands) :=
  FilesKept.foldl runCommand_kept commands files

/-- Whatever commands follow, the files keep the functions and symbols of precise sources that
they have at some time, each with all it says but its name and signature; only functions in
blank flash go. -/
theorem history_keepsEntries (lib : ReferenceLibrary) (files : AnnotationFiles)
    (earlier later : List Command) :
    FilesKept lib (history lib files earlier) (history lib files (earlier ++ later)) := by
  rw [history_append]
  exact history_kept _ later

/-- A gap that an enrichment run fills stays filled: for every automatic candidate without a
present name, the file of its target has the candidate's function from then on, under this or
a later name, unless its image is blank there. -/
theorem history_fillsGaps (lib : ReferenceLibrary)
    (hids : (lib.entries.map ReferenceEntry.id).Nodup)
    (hpaths : (lib.entries.map ReferenceEntry.jsonPath).Nodup) (files : AnnotationFiles)
    (earlier later : List Command) (newId : String) (imports : ProjectImports) (run : EnrichRun)
    (hrun : lib.enrichRun (history lib files earlier) newId imports = .ok run) :
    ∀ c ∈ run.autoAll, c.current = none → ∀ entry, lib.byId.get? c.target = some entry →
      lib.Inhabited entry.jsonPath c.address →
      ∃ f ∈ (history lib files (earlier ++ .enrich newId imports :: later)
          entry.jsonPath).functions, FunctionKept (appendedFunction c) f := by
  intro c hc hgap entry hget hinhabited
  have hof := ReferenceLibrary.runOf_enrichRun hrun
  have hdistinct : Pipeline.PathsDistinct run.byId := by
    rw [hof.byId]
    apply Pipeline.pathsDistinct_ofList
    rw [List.map_map]
    exact hpaths
  have hfree := Pipeline.gap_of_current_eq_none hids hof (Pipeline.mem_autoAll.mp hc).1 hgap hget
  have hflash : erasedAt (run.targetRom c.target entry) c.address = false := by
    rw [hof.targetRom hget]
    exact hinhabited c.target entry hget rfl
  rw [← hof.files] at hfree
  have hregistered : run.byId.get? c.target = some entry := by
    rw [hof.byId]
    exact hget
  -- the run leaves the function, and what follows keeps it
  obtain ⟨f, hf, hfields, _⟩ := Pipeline.classifyAndApply_fillsGaps run hdistinct c hc hgap entry
    hregistered hfree hflash
  have hprecise : f.source ∉ sloppySources := by
    rw [hfields]
    exact Pipeline.appendedFunction_precise c
  have haddr : f.entryPoint = c.address := by
    rw [hfields]
    rfl
  have hlater : FilesKept lib (Pipeline.classifyAndApply run).files (history lib _ later) :=
    history_kept _ later
  obtain ⟨f', hf', hkept⟩ := (hlater entry.jsonPath).functions f hf hprecise
    (haddr ▸ hinhabited)
  have hcommand : runCommand lib (history lib files earlier) (.enrich newId imports) =
      (Pipeline.classifyAndApply run).files := by
    rw [runCommand, ReferenceLibrary.enrich, hrun]
    rfl
  refine ⟨f', ?_, ?_⟩
  · rw [history_append, history, List.foldl_cons, hcommand]
    exact hf'
  · apply FunctionKept.trans _ hkept
    exact ⟨by rw [hfields], hprecise⟩

section Sample

/-- A function found by its match, which a naming round names anew. -/
theorem history_fillsGaps_sample :
    ∃ f ∈ (history twoRoms oneName [.enrich "39670016" onePair,
        .applyRound [⟨"39670016", false, 0x8, "can0_rx_update", none, none⟩]]
          "39670016.json").functions, f.entryPoint = 0x8 := by
  have hfilled : ∃ run, twoRoms.enrichRun oneName "39670016" onePair = .ok run ∧
      ∃ c ∈ run.autoAll, c.address = 0x8 ∧ c.target = "39670016" ∧ c.current = none := by
    refine ⟨_, rfl, ?_⟩
    decide +kernel
  obtain ⟨run, hrun, c, hc, haddr, htarget, hgap⟩ := hfilled
  have hget : twoRoms.byId.get? c.target =
      some ⟨"39670016", "39670016.json", "39670016.bin", "z27a", "fp8000", 90, [], ""⟩ := by
    rw [htarget]
    rfl
  have hinhabited : twoRoms.Inhabited "39670016.json" c.address := by
    intro tid entry _ _
    rw [haddr]
    show erasedAt (List.replicate 24 0) 0x8 = false
    decide +kernel
  obtain ⟨f, hf, hkept⟩ := history_fillsGaps twoRoms (by decide) (by decide) oneName [] _
    "39670016" onePair run hrun c hc hgap _ hget hinhabited
  exact ⟨f, hf, hkept.entryPoint.trans haddr⟩

end Sample

end RomAnalyzer.Scripts
