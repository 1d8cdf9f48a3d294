import RomAnalyzer.Cleanup.Sequence
import RomAnalyzer.Pipeline.ClassifyAndApply
import RomAnalyzer.Pipeline.VerdictTargets

/-!
# What an enrichment run writes

The automatic candidates of a target go into its own file, and what is reported are the
changes in all of them. A gap that is filled stays filled: the clean-up behind it neither
takes the function for a duplicate nor finds it in blank flash.
-/
namespace RomAnalyzer.Pipeline

open Lib
open AnnotationsIo (sortedByAddress)
open Cleanup (KeptOrSuffixed cleanUp erasedAt)
open Enrich (LabelCandidate candidateKey)

/-! ### Gaps in a store -/

theorem appendFunctions_append (store : AnnotationStore) (cands : List LabelCandidate)
    (c : LabelCandidate) :
    appendFunctions store (cands ++ [c]) = appendFunction (appendFunctions store cands) c := by
  rw [appendFunctions, List.foldl_append]
  rfl

/-- What is in the store then was there, or fills the gap of a candidate. -/
theorem mem_appendFunctions {store : AnnotationStore} {cands : List LabelCandidate}
    {f : AnnotationFunction} (hf : f ∈ (appendFunctions store cands).1.functions) :
    f ∈ store.functions ∨ ∃ c ∈ cands, f = appendedFunction c := by
  induction cands using List.reverseRecOn with
  | nil => exact Or.inl hf
  | append_singleton cands c ih =>
    rw [appendFunctions_append, appendFunction] at hf
    have hbefore : f ∈ (appendFunctions store cands).1.functions →
        f ∈ store.functions ∨ ∃ c' ∈ cands ++ [c], f = appendedFunction c' := by
      intro hold
      rcases ih hold with hstore | ⟨c', hc', hmade⟩
      · exact Or.inl hstore
      · exact Or.inr ⟨c', List.mem_append_left _ hc', hmade⟩
    split at hf
    · exact hbefore hf
    · rcases List.mem_append.mp hf with hold | hnew
      · exact hbefore hold
      · exact Or.inr ⟨c, List.mem_append_right _ (List.mem_singleton_self c),
          List.mem_singleton.mp hnew⟩

/-- Every candidate meets a function at its address afterwards. -/
theorem address_mem_appendFunctions {store : AnnotationStore} {cands : List LabelCandidate}
    {c : LabelCandidate} (hc : c ∈ cands) :
    c.address ∈ (appendFunctions store cands).1.functions.map AnnotationFunction.entryPoint := by
  induction cands using List.reverseRecOn with
  | nil => cases hc
  | append_singleton cands last ih =>
    rw [appendFunctions_append, appendFunction]
    split
    · rename_i hthere
      rcases List.mem_append.mp hc with hc | hc
      · exact ih hc
      · rw [List.mem_singleton.mp hc]
        exact hthere
    · rw [List.map_append, List.mem_append]
      rcases List.mem_append.mp hc with hc | hc
      · exact Or.inl (ih hc)
      · rw [List.mem_singleton.mp hc]
        exact Or.inr (List.mem_singleton_self _)

theorem appendFunctions_count (store : AnnotationStore) (cands : List LabelCandidate) :
    (appendFunctions store cands).1 = store ∨ 0 < (appendFunctions store cands).2 := by
  induction cands using List.reverseRecOn with
  | nil => exact Or.inl rfl
  | append_singleton cands c ih =>
    rw [appendFunctions_append, appendFunction]
    split
    · exact ih
    · exact Or.inr (Nat.succ_pos _)

theorem functions_applyVerdicts (store : AnnotationStore) (items : List Enrich.ReconcileItem)
    (tid : String) :
    (Enrich.applyVerdicts store items tid).1.functions =
      Enrich.functionColumn.entries.run store.functions
        (Enrich.writes Enrich.functionColumn .function items tid) := by
  rw [Enrich.applyVerdicts, Enrich.foldl_applyVerdict]
  rfl

/-- A function that the renames are not about is among those they leave. -/
theorem mem_functions_applyVerdicts {store : AnnotationStore} {items : List Enrich.ReconcileItem}
    {tid : String} {f : AnnotationFunction} (hf : f ∈ store.functions)
    (hother : ∀ it ∈ items, it.address ≠ f.entryPoint) :
    f ∈ (Enrich.applyVerdicts store items tid).1.functions := by
  rw [functions_applyVerdicts]
  obtain ⟨f', hf', rfl | ⟨w, hw, hkey, _⟩⟩ := Labelled.exists_mem_run
    (Enrich.writes Enrich.functionColumn .function items tid) hf
  · exact hf'
  · obtain ⟨it, hit, _, _, _, hwrite⟩ := Enrich.mem_writes _ _ _ _ hw
    rw [hwrite] at hkey
    exact absurd hkey (hother it hit)

theorem mem_functions_sortedByAddress {store : AnnotationStore} {f : AnnotationFunction} :
    f ∈ (sortedByAddress store).functions ↔ f ∈ store.functions :=
  mem_sortBy

/-- Only listings have near duplicates. -/
theorem not_artifact_of_precise {store : AnnotationStore} {name source : String} {addr : Nat}
    (h : source ∉ Cleanup.sloppySources) :
    (!Cleanup.artifact store 4 name addr source) = true := by
  rw [Bool.not_eq_true', Cleanup.artifact, Bool.and_eq_false_iff]
  left
  rw [← Bool.not_eq_true, List.contains_iff_mem]
  exact h

/-- A function of a precise source that is not in blank flash survives the clean-up, with its
name or a suffixed one. -/
theorem exists_mem_cleanUp {store : AnnotationStore} {rom : Option Bytes}
    {f : AnnotationFunction} (hf : f ∈ store.functions)
    (hprecise : f.source ∉ Cleanup.sloppySources)
    (hflash : ∀ image, rom = some image → erasedAt image f.entryPoint = false) :
    ∃ f' ∈ (cleanUp store rom).functions, f' = { f with name := f'.name } ∧
      KeptOrSuffixed f.entryPoint f.name f'.name := by
  have hnot : (!Cleanup.artifact store 4 f.name f.entryPoint f.source) = true :=
    not_artifact_of_precise hprecise
  have hmem : f ∈ (Cleanup.dropEntries store rom).functions := by
    cases rom with
    | none => exact List.mem_filter.mpr ⟨hf, hnot⟩
    | some image =>
      rw [Cleanup.functions_dropEntries, List.mem_filter, Cleanup.keepsFunction, hnot,
        hflash image rfl]
      exact ⟨hf, rfl⟩
  have hnames := Cleanup.functions_dedupSymbolNames (Cleanup.dropEntries store rom)
  obtain ⟨i, hi, hget⟩ := List.getElem_of_mem hmem
  have hi' := hnames.length_eq ▸ hi
  have hpair := List.Forall₂.get hnames hi hi'
  simp only [List.get_eq_getElem, hget] at hpair
  exact ⟨_, List.getElem_mem hi', hpair⟩

theorem exists_symbol_mem_cleanUp {store : AnnotationStore} (rom : Option Bytes)
    {s : AnnotationSymbol} (hs : s ∈ store.symbols) (hprecise : s.source ∉ Cleanup.sloppySources) :
    ∃ s' ∈ (cleanUp store rom).symbols, s' = { s with name := s'.name } := by
  have hnot : (!Cleanup.artifact store 4 s.name s.address s.source) = true :=
    not_artifact_of_precise hprecise
  have hmem : s ∈ (Cleanup.dropEntries store rom).symbols := by
    cases rom with
    | none => exact List.mem_filter.mpr ⟨hs, hnot⟩
    | some image => exact List.mem_filter.mpr ⟨hs, hnot⟩
  have hnames := Cleanup.symbols_dedupSymbolNames (Cleanup.dropEntries store rom)
  obtain ⟨i, hi, hget⟩ := List.getElem_of_mem hmem
  have hi' := hnames.length_eq ▸ hi
  have hpair := List.Forall₂.get hnames hi hi'
  simp only [List.get_eq_getElem, hget] at hpair
  exact ⟨_, List.getElem_mem hi', hpair.1⟩

theorem appendedFunction_precise (c : LabelCandidate) :
    (appendedFunction c).source ∉ Cleanup.sloppySources := by
  have hhead : ∀ name ∈ Cleanup.sloppySources, name.toList.head? ≠ some 'x' := by decide
  intro hmem
  apply hhead _ hmem
  simp [appendedFunction]

namespace EnrichRun

variable (run : EnrichRun)

/-! ### The files of the targets -/

abbrev TargetGroup := (String × List LabelCandidate) × ReferenceEntry

/-- The automatic candidates of a target. -/
def autoOf (tid : String) : List LabelCandidate := run.autoAll.filter fun c => c.target = tid

/-- The targets with automatic candidates that are registered. -/
def registeredGroups : List TargetGroup :=
  run.autoByTarget.filterMap fun group =>
    (run.byId.get? group.1).map fun entry => (group, entry)

/-- What the automatic candidates of a target make of its file. -/
def enrichedStore (target : TargetGroup) (store : AnnotationStore) : AnnotationStore :=
  let applied := autoStore store target.1.1 target.1.2
  if applied.2 = 0 then store
  else sortedByAddress (cleanUp applied.1 (some (run.targetRom target.1.1 target.2)))

/-- The changes that they amount to. -/
def changes (target : TargetGroup) (store : AnnotationStore) : Nat :=
  (autoStore store target.1.1 target.1.2).2

theorem applyTarget_eq (st : AutoState) (target : TargetGroup)
    (hentry : run.byId.get? target.1.1 = some target.2) :
    ((run.applyTarget st target.1).files, (run.applyTarget st target.1).totalAutoApplied) =
      countedStep (fun target => target.2.jsonPath) run.enrichedStore changes
        (st.files, st.totalAutoApplied) target := by
  unfold applyTarget
  rw [hentry]
  dsimp only
  rw [countedStep, rewriteStep, enrichedStore, changes]
  dsimp only
  split
  · rw [Function.update_eq_self]
  · rfl

/-- The loop over the groups takes the registered ones. -/
theorem foldl_applyTarget (st : AutoState) :
    ((run.autoByTarget.foldl run.applyTarget st).files,
        (run.autoByTarget.foldl run.applyTarget st).totalAutoApplied) =
      run.registeredGroups.foldl
        (countedStep (fun target => target.2.jsonPath) run.enrichedStore changes)
        (st.files, st.totalAutoApplied) := by
  unfold registeredGroups
  induction run.autoByTarget generalizing st with
  | nil => rfl
  | cons group groups ih =>
    rw [List.foldl_cons, ih]
    cases hget : run.byId.get? group.1 with
    | none =>
      have hskip : run.applyTarget st group = st := by
        rw [applyTarget, hget]
      rw [List.filterMap_cons_none (by rw [hget]; rfl), hskip]
    | some entry =>
      rw [List.filterMap_cons_some (by rw [hget]; rfl), List.foldl_cons,
        run.applyTarget_eq st (group, entry) hget]

variable {run}

theorem mem_registeredGroups {target : TargetGroup} :
    target ∈ run.registeredGroups ↔
      target.1 ∈ run.autoByTarget ∧ run.byId.get? target.1.1 = some target.2 := by
  rw [registeredGroups, List.mem_filterMap]
  constructor
  · rintro ⟨group, hgroup, hentry⟩
    obtain ⟨entry, hget, rfl⟩ := Option.map_eq_some_iff.mp hentry
    exact ⟨hgroup, hget⟩
  · rintro ⟨hgroup, hget⟩
    exact ⟨target.1, hgroup, by rw [hget]; rfl⟩

theorem nodup_registeredGroups (h : PathsDistinct run.byId) :
    (run.registeredGroups.map fun target => target.2.jsonPath).Nodup := by
  have hkeys : run.autoByTarget.Pairwise fun group group' => group.1 ≠ group'.1 :=
    List.pairwise_map.mp (Dict.groupBy LabelCandidate.target run.autoAll).nodup
  rw [List.Nodup, List.pairwise_map, registeredGroups, List.pairwise_filterMap]
  apply hkeys.imp
  intro group group' hne target htarget target' htarget' hpath
  obtain ⟨entry, hget, rfl⟩ := Option.map_eq_some_iff.mp htarget
  obtain ⟨entry', hget', rfl⟩ := Option.map_eq_some_iff.mp htarget'
  exact hne (h _ _ _ _ hget hget' hpath)

theorem files_classifyAndApply :
    (classifyAndApply run).files = run.registeredGroups.foldl
      (rewriteStep (fun target => target.2.jsonPath) run.enrichedStore) run.files := by
  have hfold := congrArg Prod.fst (run.foldl_applyTarget ⟨run.files, 0⟩)
  have hfiles : ∀ (targets : List TargetGroup) (s : AnnotationFiles × Nat),
      (targets.foldl (countedStep (fun target => target.2.jsonPath) run.enrichedStore changes)
        s).1 = targets.foldl (rewriteStep (fun target => target.2.jsonPath) run.enrichedStore)
          s.1 := by
    intro targets
    induction targets with
    | nil => exact fun s => rfl
    | cons target targets ih =>
      intro s
      rw [List.foldl_cons, List.foldl_cons, ih]
      rfl
  rw [hfiles] at hfold
  exact hfold

/-- An automatic candidate is in the group of its target. -/
theorem mem_autoByTarget {c : LabelCandidate} (hc : c ∈ run.autoAll) :
    (c.target, run.autoOf c.target) ∈ run.autoByTarget :=
  (Dict.mem_entries_groupBy _ _ _ _).mpr ⟨rfl, c, hc, rfl⟩

/-- A target has one automatic candidate at an address. -/
theorem autoAll_unique {c c' : LabelCandidate} (hc : c ∈ run.autoAll) (hc' : c' ∈ run.autoAll)
    (htarget : c'.target = c.target) (haddr : c'.address = c.address) : c' = c := by
  have hmerged := (mem_autoAll.mp hc).1
  have hmerged' := (mem_autoAll.mp hc').1
  apply List.inj_on_of_nodup_map Enrich.mergeCandidates_keys_nodup hmerged' hmerged
  rw [candidateKey, candidateKey, htarget, haddr, mergedCandidates_function hmerged,
    mergedCandidates_function hmerged']

/-- What a run leaves in the files: of a registered target with automatic candidates what
these make of its own file, of all others what was there. -/
structure FilesEnriched (run : EnrichRun) (after : AnnotationFiles) : Prop where
  own : ∀ c ∈ run.autoAll, ∀ entry, run.byId.get? c.target = some entry →
    after entry.jsonPath = run.enrichedStore
      ((c.target, run.autoOf c.target), entry) (run.files entry.jsonPath)
  others : ∀ path, (∀ c ∈ run.autoAll, ∀ entry, run.byId.get? c.target = some entry →
    entry.jsonPath ≠ path) → after path = run.files path

theorem filesEnriched (h : PathsDistinct run.byId) :
    FilesEnriched run (classifyAndApply run).files where
  own := by
    intro c hc entry hget
    rw [files_classifyAndApply]
    have hmem : ((c.target, run.autoOf c.target), entry) ∈ run.registeredGroups :=
      mem_registeredGroups.mpr ⟨mem_autoByTarget hc, hget⟩
    exact foldl_rewriteStep_of_mem (nodup_registeredGroups h) hmem run.files
  others := by
    intro path hother
    rw [files_classifyAndApply]
    apply foldl_rewriteStep_of_notMem
    intro hmem
    obtain ⟨target, htarget, hpath⟩ := List.mem_map.mp hmem
    obtain ⟨hgroup, hget⟩ := mem_registeredGroups.mp htarget
    obtain ⟨_, c, hc, hid⟩ := (Dict.mem_entries_groupBy _ _ _ _).mp hgroup
    rw [← hid] at hget
    exact hother c hc target.2 hget hpath

/-- What fills a gap is the function of the only candidate about it. -/
theorem mem_autoStore {c : LabelCandidate} (hc : c ∈ run.autoAll) (hgap : c.current = none)
    {store : AnnotationStore}
    (hfree : c.address ∉ store.functions.map AnnotationFunction.entryPoint) :
    appendedFunction c ∈ (autoStore store c.target (run.autoOf c.target)).1.functions ∧
      (autoStore store c.target (run.autoOf c.target)).2 ≠ 0 := by
  have hsame : ∀ c' ∈ run.autoOf c.target, c'.address = c.address → c' = c := by
    intro c' hc' haddr
    obtain ⟨hauto, htarget⟩ := List.mem_filter.mp hc'
    exact autoAll_unique hc hauto (of_decide_eq_true htarget) haddr
  have hmem : c ∈ gapCands (run.autoOf c.target) :=
    List.mem_filter.mpr ⟨List.mem_filter.mpr ⟨hc, decide_eq_true rfl⟩, decide_eq_true hgap⟩
  have hadded : appendedFunction c ∈
      (appendFunctions store (gapCands (run.autoOf c.target))).1.functions := by
    obtain ⟨f, hf, haddr⟩ := List.mem_map.mp (address_mem_appendFunctions hmem)
    rcases mem_appendFunctions hf with hold | ⟨c', hc', rfl⟩
    · exact absurd (haddr ▸ List.mem_map_of_mem hold) hfree
    · have hown := hsame c' (List.mem_filter.mp hc').1 haddr
      rw [hown] at hf
      exact hf
  constructor
  · apply mem_functions_applyVerdicts hadded
    intro it hit haddr
    obtain ⟨c', hc', rfl⟩ := List.mem_map.mp hit
    obtain ⟨hgroup, hrename⟩ := List.mem_filter.mp hc'
    rw [hsame c' hgroup haddr, hgap] at hrename
    exact absurd rfl (of_decide_eq_true hrename)
  · rcases appendFunctions_count store (gapCands (run.autoOf c.target)) with hstore | hcount
    · rw [hstore] at hadded
      exact absurd (List.mem_map_of_mem hadded) hfree
    · intro hzero
      unfold autoStore at hzero
      dsimp only at hzero
      omega

variable (run) in
theorem enrichedStore_of_changes (group : String × List LabelCandidate) (entry : ReferenceEntry)
    (store : AnnotationStore) (h : (autoStore store group.1 group.2).2 ≠ 0) :
    run.enrichedStore (group, entry) store = sortedByAddress
      (cleanUp (autoStore store group.1 group.2).1 (some (run.targetRom group.1 entry))) := by
  rw [enrichedStore]
  exact if_neg h

/-- A filled gap is in the store of its target when the run is over. -/
theorem exists_enriched {c : LabelCandidate} (hc : c ∈ run.autoAll) (hgap : c.current = none)
    {entry : ReferenceEntry} {store : AnnotationStore}
    (hfree : c.address ∉ store.functions.map AnnotationFunction.entryPoint)
    (hflash : erasedAt (run.targetRom c.target entry) c.address = false) :
    ∃ f ∈ (run.enrichedStore ((c.target, run.autoOf c.target), entry) store).functions,
      f = { appendedFunction c with name := f.name } ∧
        KeptOrSuffixed c.address c.proposed f.name := by
  obtain ⟨hmem, hchanged⟩ := mem_autoStore hc hgap hfree
  have hclean : ∀ image, some (run.targetRom c.target entry) = some image →
      erasedAt image c.address = false := by
    rintro image ⟨⟩
    exact hflash
  obtain ⟨f, hf, hfields, hname⟩ := exists_mem_cleanUp hmem (appendedFunction_precise c) hclean
  have hstore := run.enrichedStore_of_changes (c.target, run.autoOf c.target) entry store hchanged
  refine ⟨f, ?_, hfields, hname⟩
  rw [hstore, mem_functions_sortedByAddress]
  exact hf

end EnrichRun

/-- A run changes the file of a registered target as the target's own automatic candidates
say and no other file, and it reports the changes in all of them. -/
theorem classifyAndApply_separate (run : EnrichRun) (h : PathsDistinct run.byId) :
    EnrichRun.FilesEnriched run (classifyAndApply run).files ∧
      (classifyAndApply run).totalAutoApplied = (run.registeredGroups.map fun target =>
        EnrichRun.changes target (run.files target.2.jsonPath)).sum := by
  refine ⟨EnrichRun.filesEnriched h, ?_⟩
  have hfold := run.foldl_applyTarget ⟨run.files, 0⟩
  rw [foldl_countedStep (EnrichRun.nodup_registeredGroups h), Nat.zero_add] at hfold
  exact congrArg Prod.snd hfold

section Sample

/-- The run of two references, over an image that is not blank. -/
def filledGapRun : EnrichRun :=
  { blankAreaRun with romBytes := List.replicate 24 0 }

theorem classifyAndApply_separate_sample :
    EnrichRun.FilesEnriched filledGapRun (classifyAndApply filledGapRun).files ∧
      (classifyAndApply filledGapRun).totalAutoApplied =
        (filledGapRun.registeredGroups.map fun target =>
          EnrichRun.changes target (filledGapRun.files target.2.jsonPath)).sum :=
  classifyAndApply_separate filledGapRun (pathsDistinct_ofList (by decide))

end Sample

/-- Every automatic candidate for an address where its registered target has no function yet
is in the target's file afterwards, under the proposed name or that name with a suffix, unless
the image is blank there. -/
theorem classifyAndApply_fillsGaps (run : EnrichRun) (h : PathsDistinct run.byId) :
    ∀ c ∈ run.autoAll, c.current = none → ∀ entry, run.byId.get? c.target = some entry →
      c.address ∉ (run.files entry.jsonPath).functions.map AnnotationFunction.entryPoint →
      erasedAt (run.targetRom c.target entry) c.address = false →
      ∃ f ∈ ((classifyAndApply run).files entry.jsonPath).functions,
        f = { appendedFunction c with name := f.name } ∧
          KeptOrSuffixed c.address c.proposed f.name := by
  intro c hc hgap entry hget hfree hflash
  rw [(EnrichRun.filesEnriched h).own c hc entry hget]
  exact EnrichRun.exists_enriched hc hgap hfree hflash

end RomAnalyzer.Pipeline
