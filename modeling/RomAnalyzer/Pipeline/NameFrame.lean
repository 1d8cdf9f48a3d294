import RomAnalyzer.Pipeline.ClassifyAndApply

/-!
# What an enrichment run may rename

A target's candidates add functions and rename some. The clean-up behind them can
rename any entry, since a name that is taken further ahead has to give way.
-/
namespace RomAnalyzer.Pipeline

open Lib
open Cleanup (NamedObject UniqueNames cleanUp dedupOrder dropEntries functionObject keepsFunction
  keepsSymbol objectNaming objects storeNames symbolObject uniqueName)
open Enrich (LabelCandidate ReconcileItem functionColumn symbolColumn)

/-! ### Lists mapped with their positions -/

theorem filter_mapIdx_eq_iff {α : Type} {p : α → Bool} {g : Nat → α → α}
    (hp : ∀ i x, p (g i x) = p x) (xs : List α) :
    (xs.mapIdx g).filter p = xs.filter p ↔
      ∀ i x, xs[i]? = some x → p x = true → g i x = x := by
  induction xs generalizing g with
  | nil => simp
  | cons x xs ih =>
    have hrest := ih (g := fun i => g (i + 1)) fun i => hp (i + 1)
    rw [List.mapIdx_cons, List.filter_cons, List.filter_cons, hp]
    have hshift : (∀ i y, (x :: xs)[i]? = some y → p y = true → g i y = y) ↔
        (p x = true → g 0 x = x) ∧ ∀ i y, xs[i]? = some y → p y = true → g (i + 1) y = y := by
      constructor
      · exact fun h => ⟨h 0 x rfl, fun i y hy => h (i + 1) y hy⟩
      · intro h i y hy
        cases i with
        | zero =>
          obtain rfl : x = y := Option.some.inj hy
          exact h.1
        | succ i => exact h.2 i y hy
    rw [hshift, ← hrest]
    by_cases hx : p x = true
    · rw [if_pos hx, if_pos hx, List.cons.injEq]
      exact and_congr_left fun _ => ⟨fun h _ => h, fun h => h hx⟩
    · rw [if_neg hx, if_neg hx]
      exact ⟨fun h => ⟨fun hc => absurd hc hx, h⟩, fun h => h.2⟩

theorem map_filter_mapIdx {α β γ : Type} {f : Nat → α → β} {Q : β → Bool} {q : α → Bool}
    {label : β → γ} {label' : α → γ} (hQ : ∀ i x, Q (f i x) = q x)
    (hlabel : ∀ i x, label (f i x) = label' x) (xs : List α) :
    ((xs.mapIdx f).filter Q).map label = (xs.filter q).map label' := by
  induction xs generalizing f with
  | nil => rfl
  | cons x xs ih =>
    have hrest := ih (f := fun i => f (i + 1)) (fun i => hQ (i + 1)) fun i => hlabel (i + 1)
    rw [List.mapIdx_cons, List.filter_cons, List.filter_cons, hQ]
    split
    · rw [List.map_cons, List.map_cons, hlabel, hrest]
    · exact hrest

/-! ### The step of one target -/

/-- Some candidate is about the address. -/
def addressed (cands : List LabelCandidate) (addr : Nat) : Bool :=
  cands.any fun c => c.address = addr

theorem addressed_eq_true_iff {cands : List LabelCandidate} {addr : Nat} :
    addressed cands addr = true ↔ ∃ c ∈ cands, c.address = addr := by
  simp [addressed]

theorem addressed_of_mem {cands : List LabelCandidate} {c : LabelCandidate} (h : c ∈ cands) :
    addressed cands c.address = true :=
  addressed_eq_true_iff.mpr ⟨c, h, rfl⟩

section Step

variable {store : AnnotationStore} {tid : String} {cands : List LabelCandidate}

/-- Appending adds functions at the addresses of candidates, behind those of the store. -/
theorem appendFunctions_spec (store : AnnotationStore) (cands : List LabelCandidate) :
    ∃ extra, (appendFunctions store cands).1 =
        { store with functions := store.functions ++ extra } ∧
      ∀ f ∈ extra, addressed cands f.entryPoint = true := by
  induction cands using List.reverseRecOn with
  | nil => exact ⟨[], by rw [List.append_nil]; rfl, fun f hf => absurd hf List.not_mem_nil⟩
  | append_singleton cands c ih =>
    obtain ⟨extra, heq, hextra⟩ := ih
    have hstep : appendFunctions store (cands ++ [c]) =
        appendFunction (appendFunctions store cands) c := by
      simp [appendFunctions, List.foldl_append]
    have hwider : ∀ f ∈ extra, addressed (cands ++ [c]) f.entryPoint = true := by
      intro f hf
      obtain ⟨c', hc', haddr⟩ := addressed_eq_true_iff.mp (hextra f hf)
      exact addressed_eq_true_iff.mpr ⟨c', List.mem_append_left _ hc', haddr⟩
    rw [hstep, appendFunction]
    split
    · exact ⟨extra, heq, hwider⟩
    · refine ⟨extra ++ [appendedFunction c], ?_, ?_⟩
      · rw [heq, ← List.append_assoc]
      · intro f hf
        rcases List.mem_append.mp hf with hf | hf
        · exact hwider f hf
        · rw [List.mem_singleton.mp hf]
          exact addressed_of_mem (List.mem_append_right _ (List.mem_singleton_self c))

theorem renameItem_function (hfunction : ∀ c ∈ cands, c.category = .function)
    {it : ReconcileItem} (h : it ∈ (renameCands cands).map (renameItem tid)) :
    it.category = .function ∧ addressed cands it.address = true := by
  obtain ⟨c, hc, rfl⟩ := List.mem_map.mp h
  have hmem := (List.mem_filter.mp hc).1
  exact ⟨hfunction c hmem, addressed_of_mem hmem⟩

/-- Before the clean-up the symbols are those of the store. -/
theorem symbols_autoStore (hfunction : ∀ c ∈ cands, c.category = .function) :
    (autoStore store tid cands).1.symbols = store.symbols := by
  obtain ⟨extra, heq, _⟩ := appendFunctions_spec store (gapCands cands)
  have hnone : Enrich.writes symbolColumn .symbol
      ((renameCands cands).map (renameItem tid)) tid = [] := by
    apply List.eq_nil_iff_forall_not_mem.mpr
    intro w hw
    obtain ⟨it, hit, _, hkind, _, _⟩ := Enrich.mem_writes symbolColumn .symbol _ tid hw
    rw [(renameItem_function hfunction hit).1] at hkind
    cases hkind
  rw [autoStore, Enrich.applyVerdicts, Enrich.foldl_applyVerdict, heq, hnone]
  rfl

/-- Before the clean-up the functions that no candidate is about are those of the
store. -/
theorem functions_autoStore (hfunction : ∀ c ∈ cands, c.category = .function) :
    ((autoStore store tid cands).1.functions.filter fun f => !addressed cands f.entryPoint) =
      store.functions.filter fun f => !addressed cands f.entryPoint := by
  obtain ⟨extra, heq, hextra⟩ := appendFunctions_spec store (gapCands cands)
  have hwrites : ∀ w ∈ Enrich.writes functionColumn .function
      ((renameCands cands).map (renameItem tid)) tid, (!addressed cands w.key) = false := by
    intro w hw
    obtain ⟨it, hit, _, _, _, hwrite⟩ := Enrich.mem_writes functionColumn .function _ tid hw
    have hkey : w.key = it.address := by
      rw [hwrite]
      rfl
    rw [hkey, (renameItem_function hfunction hit).2]
    rfl
  have hnone : (extra.filter fun f => !addressed cands f.entryPoint) = [] := by
    apply List.filter_eq_nil_iff.mpr
    intro f hf
    obtain ⟨c, hc, haddr⟩ := addressed_eq_true_iff.mp (hextra f hf)
    rw [addressed_eq_true_iff.mpr ⟨c, (List.mem_filter.mp hc).1, haddr⟩]
    exact Bool.false_ne_true
  have hrun := Labelled.filter_run (p := fun addr => !addressed cands addr) hwrites
    (store.functions ++ extra)
  rw [autoStore, Enrich.applyVerdicts, Enrich.foldl_applyVerdict, heq]
  refine Eq.trans hrun ?_
  rw [List.filter_append]
  exact (congrArg _ hnone).trans (List.append_nil _)

/-! ### The frame -/

/-- The store that the clean-up is given, without the entries that it drops. -/
def trimmedStore (store : AnnotationStore) (tid : String) (cands : List LabelCandidate)
    (rom : Bytes) : AnnotationStore :=
  dropEntries (autoStore store tid cands).1 (some rom)

/-- The object is a function that a candidate is about. -/
def candidateObject (cands : List LabelCandidate) (o : NamedObject) : Bool :=
  match o.slot with
  | .function _ => addressed cands o.addr
  | .symbol _ => false

/-- The functions that no candidate is about and all symbols are, as far as they survive
the clean-up, the same in the saved store as in the one that was read. -/
structure KeepsOtherNames (store : AnnotationStore) (tid : String) (cands : List LabelCandidate)
    (rom : Bytes) : Prop where
  functions :
    ((cleanUp (autoStore store tid cands).1 (some rom)).functions.filter fun f =>
        !addressed cands f.entryPoint) =
      (store.functions.filter fun f => !addressed cands f.entryPoint).filter
        (keepsFunction (autoStore store tid cands).1 rom)
  symbols : (cleanUp (autoStore store tid cands).1 (some rom)).symbols =
    store.symbols.filter (keepsSymbol (autoStore store tid cands).1)

instance (store : AnnotationStore) (tid : String) (cands : List LabelCandidate) (rom : Bytes) :
    Decidable (KeepsOtherNames store tid cands rom) :=
  decidable_of_iff (_ ∧ _) ⟨fun h => ⟨h.1, h.2⟩, fun h => ⟨h.functions, h.symbols⟩⟩

/-- No function that a candidate is about reaches the name of another surviving entry
behind it, when names are given in the order of the addresses: neither by its own name
nor by `name_<hexaddr>` and its continuations, as far as the earlier ones are in use in
front of it. -/
def LeavesOtherNames (store : AnnotationStore) (tid : String) (cands : List LabelCandidate)
    (rom : Bytes) : Prop :=
  let order := dedupOrder (trimmedStore store tid cands rom)
  ∀ o ∈ order, candidateObject cands o = false →
    ∀ b ∈ ahead order o, candidateObject cands b = true →
      ∀ k, objectNaming.chain b k = o.name →
        ∃ j < k, ¬ objectNaming.InUse order b (objectNaming.chain b j)

theorem functions_trimmed (hfunction : ∀ c ∈ cands, c.category = .function) (rom : Bytes) :
    ((trimmedStore store tid cands rom).functions.filter fun f =>
        !addressed cands f.entryPoint) =
      (store.functions.filter fun f => !addressed cands f.entryPoint).filter
        (keepsFunction (autoStore store tid cands).1 rom) := by
  rw [trimmedStore, Cleanup.functions_dropEntries, ← functions_autoStore hfunction,
    List.filter_filter, List.filter_filter]
  apply List.filter_congr
  intro f _
  exact Bool.and_comm _ _

theorem symbols_trimmed (hfunction : ∀ c ∈ cands, c.category = .function) (rom : Bytes) :
    (trimmedStore store tid cands rom).symbols =
      store.symbols.filter (keepsSymbol (autoStore store tid cands).1) := by
  rw [trimmedStore, Cleanup.symbols_dropEntries, symbols_autoStore hfunction]

/-- Saving keeps the other entries exactly when each of their objects keeps its name. -/
theorem keepsOtherNames_iff_uniqueName (hfunction : ∀ c ∈ cands, c.category = .function)
    (rom : Bytes) :
    KeepsOtherNames store tid cands rom ↔
      ∀ o ∈ dedupOrder (trimmedStore store tid cands rom), candidateObject cands o = false →
        uniqueName (trimmedStore store tid cands rom) o = o.name := by
  have hsplit : KeepsOtherNames store tid cands rom ↔
      ((Cleanup.dedupSymbolNames (trimmedStore store tid cands rom)).1.functions.filter fun f =>
          !addressed cands f.entryPoint) =
        ((trimmedStore store tid cands rom).functions.filter fun f =>
          !addressed cands f.entryPoint) ∧
      (Cleanup.dedupSymbolNames (trimmedStore store tid cands rom)).1.symbols =
        (trimmedStore store tid cands rom).symbols := by
    rw [functions_trimmed hfunction, symbols_trimmed hfunction]
    exact ⟨fun h => ⟨h.functions, h.symbols⟩, fun h => ⟨h.1, h.2⟩⟩
  rw [hsplit]
  generalize trimmedStore store tid cands rom = trimmed
  have hfunctions := filter_mapIdx_eq_iff (p := fun f => !addressed cands f.entryPoint)
    (g := fun i f => { f with name := uniqueName trimmed (functionObject i f) })
    (fun _ _ => rfl) trimmed.functions
  refine (and_congr hfunctions List.mapIdx_eq_iff).trans ?_
  constructor
  · intro h o ho hother
    rcases Cleanup.mem_objects.mp (Cleanup.mem_dedupOrder.mp ho) with
      ⟨i, f, hf, rfl⟩ | ⟨i, s, hs, rfl⟩
    · have haddr : (!addressed cands f.entryPoint) = true := by
        rw [Bool.not_eq_true']
        exact hother
      exact congrArg AnnotationFunction.name (h.1 i f hf haddr)
    · have hsame := h.2 i
      rw [hs, Option.map_some, Option.some.injEq] at hsame
      exact (congrArg AnnotationSymbol.name hsame).symm
  · intro h
    constructor
    · intro i f hf haddr
      have hkept := h (functionObject i f)
        (Cleanup.mem_dedupOrder.mpr (Cleanup.mem_objects.mpr (Or.inl ⟨i, f, hf, rfl⟩)))
        (by rwa [Bool.not_eq_true'] at haddr)
      rw [hkept]
      rfl
    · intro i
      cases hs : trimmed.symbols[i]? with
      | none => rfl
      | some s =>
        have hkept := h (symbolObject i s)
          (Cleanup.mem_dedupOrder.mpr (Cleanup.mem_objects.mpr (Or.inr ⟨i, s, hs, rfl⟩))) rfl
        rw [Option.map_some, hkept]
        rfl

/-- The other entries have distinct names before the pass, since the store had. -/
theorem other_names_distinct (hstore : UniqueNames store)
    (hfunction : ∀ c ∈ cands, c.category = .function) (rom : Bytes) {a b : NamedObject}
    (ha : a ∈ dedupOrder (trimmedStore store tid cands rom))
    (hb : b ∈ dedupOrder (trimmedStore store tid cands rom))
    (hqa : candidateObject cands a = false) (hqb : candidateObject cands b = false)
    (hname : a.name = b.name) : a = b := by
  have hnames : ((objects (trimmedStore store tid cands rom)).filter fun o =>
        !candidateObject cands o).map NamedObject.name =
      ((store.functions.filter fun f => !addressed cands f.entryPoint).filter
          (keepsFunction (autoStore store tid cands).1 rom)).map AnnotationFunction.name ++
        (store.symbols.filter (keepsSymbol (autoStore store tid cands).1)).map
          AnnotationSymbol.name := by
    rw [← functions_trimmed hfunction, ← symbols_trimmed hfunction rom, objects,
      List.filter_append, List.map_append]
    congr 1
    · exact map_filter_mapIdx (f := functionObject) (fun _ _ => rfl) (fun _ _ => rfl) _
    · conv_rhs => rw [← List.filter_true (trimmedStore store tid cands rom).symbols]
      exact map_filter_mapIdx (f := symbolObject) (fun _ _ => rfl) (fun _ _ => rfl) _
  have hnodup : (((objects (trimmedStore store tid cands rom)).filter fun o =>
      !candidateObject cands o).map NamedObject.name).Nodup := by
    rw [hnames]
    apply List.Nodup.sublist _ hstore
    apply List.Sublist.append
    · exact (List.filter_sublist.trans List.filter_sublist).map _
    · exact List.filter_sublist.map _
  apply List.inj_on_of_nodup_map hnodup _ _ hname
  · exact List.mem_filter.mpr ⟨Cleanup.mem_dedupOrder.mp ha, by rw [hqa]; rfl⟩
  · exact List.mem_filter.mpr ⟨Cleanup.mem_dedupOrder.mp hb, by rw [hqb]; rfl⟩

/-- One target's step keeps the other names exactly when the functions of its
candidates leave them. -/
theorem keepsOtherNames_iff (hstore : UniqueNames store)
    (hfunction : ∀ c ∈ cands, c.category = .function) (rom : Bytes) :
    KeepsOtherNames store tid cands rom ↔ LeavesOtherNames store tid cands rom := by
  rw [keepsOtherNames_iff_uniqueName hfunction]
  have hkept := objectNaming.labels_kept_iff_chain
    (Cleanup.dedupOrder_nodup (trimmedStore store tid cands rom))
    (Q := fun o => candidateObject cands o = false)
    fun a ha b hb hqa hqb hname => other_names_distinct hstore hfunction rom ha hb hqa hqb hname
  simp only [Bool.not_eq_false] at hkept
  exact hkept

/-- The same condition, read off the names that are given. -/
theorem leavesOtherNames_of_uniqueName (hstore : UniqueNames store)
    (hfunction : ∀ c ∈ cands, c.category = .function) {rom : Bytes}
    (h : ∀ o ∈ dedupOrder (trimmedStore store tid cands rom), candidateObject cands o = false →
      ∀ b ∈ ahead (dedupOrder (trimmedStore store tid cands rom)) o,
        candidateObject cands b = true →
          uniqueName (trimmedStore store tid cands rom) b ≠ o.name) :
    LeavesOtherNames store tid cands rom := by
  apply (keepsOtherNames_iff hstore hfunction rom).mp
  apply (keepsOtherNames_iff_uniqueName hfunction rom).mpr
  apply (objectNaming.labels_kept_iff (Cleanup.dedupOrder_nodup _)
    (Q := fun o => candidateObject cands o = false)
    fun a ha b hb hqa hqb hname =>
      other_names_distinct hstore hfunction rom ha hb hqa hqb hname).mpr
  intro o ho hother b hb hcand
  rw [Bool.not_eq_false] at hcand
  exact h o ho hother b hb hcand

end Step

/-! ### The run -/

/-- If the step saves a store, the entries without a candidate keep their names. -/
def StepKeepsNames (run : EnrichRun) (st : AutoState) (group : String × List LabelCandidate) :
    Prop :=
  ∀ entry ∈ run.byId.get? group.1,
    (autoStore (st.files entry.jsonPath) group.1 group.2).2 ≠ 0 →
      KeepsOtherNames (st.files entry.jsonPath) group.1 group.2 (run.targetRom group.1 entry)

/-- If the step saves a store, the functions of its candidates leave the other names. -/
def StepLeavesNames (run : EnrichRun) (st : AutoState) (group : String × List LabelCandidate) :
    Prop :=
  ∀ entry ∈ run.byId.get? group.1,
    (autoStore (st.files entry.jsonPath) group.1 group.2).2 ≠ 0 →
      LeavesOtherNames (st.files entry.jsonPath) group.1 group.2 (run.targetRom group.1 entry)

instance (run : EnrichRun) (st : AutoState) (group : String × List LabelCandidate) :
    Decidable (StepKeepsNames run st group) := by
  unfold StepKeepsNames
  infer_instance

theorem autoByTarget_function {run : EnrichRun} {group : String × List LabelCandidate}
    (h : group ∈ run.autoByTarget) : ∀ c ∈ group.2, c.category = .function := by
  intro c hc
  obtain ⟨hfilter, _⟩ := (Dict.mem_entries_groupBy _ _ _ _).mp h
  rw [hfilter] at hc
  exact mergedCandidates_function (mem_autoAll.mp (List.mem_filter.mp hc).1).1

/-- From stores with unique names, every step of a run renames only functions at the
addresses of its candidates exactly when in every step the functions of the candidates
leave the names of the other entries. -/
theorem classifyAndApply_keepsNames_iff (run : EnrichRun)
    (hfiles : ∀ path, UniqueNames (run.files path)) :
    AtSteps run.applyTarget ⟨run.files, 0⟩ run.autoByTarget (StepKeepsNames run) ↔
      AtSteps run.applyTarget ⟨run.files, 0⟩ run.autoByTarget (StepLeavesNames run) := by
  have hdistinct : FilesDistinct (fun _ => true) run.files :=
    fun path => namesDistinct_of_unique (hfiles path) _
  have hstep : ∀ pre group, pre ++ [group] <+: run.autoByTarget →
      (StepKeepsNames run (pre.foldl run.applyTarget ⟨run.files, 0⟩) group ↔
        StepLeavesNames run (pre.foldl run.applyTarget ⟨run.files, 0⟩) group) := by
    intro pre group hpre
    have hreached := classifyAndApply_distinct hdistinct pre
      ((List.prefix_append pre [group]).trans hpre)
    have hmem := hpre.subset (List.mem_append_right _ (List.mem_singleton_self group))
    apply forall_congr'
    intro entry
    apply forall_congr'
    intro _
    apply forall_congr'
    intro _
    have hunique := hreached entry.jsonPath
    rw [NamesDistinct, List.filter_true] at hunique
    exact keepsOtherNames_iff hunique (autoByTarget_function hmem) _
  exact forall_congr' fun pre => forall_congr' fun group => forall_congr' (hstep pre group)

/-- The known reference has one function, the new one a table at `0x2000`. -/
def tableStore (table : String) (path : Path) : AnnotationStore where
  schemaVersion := 1
  romId := path
  romSha256 := ""
  symbols := if path = "39670016.json" then
    [{ name := table, address := 0x2000, category := .data }] else []
  functions := if path = "33520003.json" then
    [{ name := "knock_retard", entryPoint := 0x100 }] else []

/-- The function of the known reference matches at `0x1000` of the new one. -/
def tableRun (table : String) : EnrichRun where
  results := [bareResult "33520003" [⟨"", 0x100, 0x1000, 1, "vt_diff", "33520003"⟩] []]
  newEntry := (bareResult "39670016" [] []).entry
  newFnNames := Dict.empty
  byId := Dict.ofList [("33520003", (bareResult "33520003" [] []).entry),
    ("39670016", (bareResult "39670016" [] []).entry)]
  priority := Dict.ofList [("33520003", 100), ("39670016", 90)]
  romBytes := []
  roms := fun _ => []
  files := tableStore table

theorem uniqueNames_tableStore (table : String) (path : Path) :
    UniqueNames (tableStore table path) := by
  by_cases hknown : path = "33520003.json"
  · rw [hknown]
    exact List.nodup_singleton "knock_retard"
  · by_cases hnew : path = "39670016.json"
    · rw [hnew]
      exact List.nodup_singleton table
    · have hnames : storeNames (tableStore table path) = [] := by
        simp [storeNames, tableStore, hknown, hnew]
      rw [UniqueNames, hnames]
      exact List.nodup_nil

/-- A table of another name stays as it is. -/
theorem keepsNames_of_other_table :
    AtSteps (tableRun "knock_map").applyTarget ⟨(tableRun "knock_map").files, 0⟩
      (tableRun "knock_map").autoByTarget (StepKeepsNames (tableRun "knock_map")) := by
  apply (classifyAndApply_keepsNames_iff _ (uniqueNames_tableStore "knock_map")).mpr
  have hlen : (tableRun "knock_map").autoByTarget.length = 1 := by decide +kernel
  have hgiven : ∀ group ∈ (tableRun "knock_map").autoByTarget,
      ∀ entry ∈ (tableRun "knock_map").byId.get? group.1,
        let trimmed := trimmedStore (tableStore "knock_map" entry.jsonPath) group.1 group.2
          ((tableRun "knock_map").targetRom group.1 entry)
        ∀ o ∈ dedupOrder trimmed, candidateObject group.2 o = false →
          ∀ b ∈ ahead (dedupOrder trimmed) o, candidateObject group.2 b = true →
            uniqueName trimmed b ≠ o.name := by
    decide +kernel
  obtain ⟨group, hgroup⟩ := List.length_eq_one_iff.mp hlen
  have hmem : group ∈ (tableRun "knock_map").autoByTarget := by
    rw [hgroup]
    exact List.mem_singleton_self group
  rw [hgroup, atSteps_singleton]
  intro entry hentry _
  exact leavesOtherNames_of_uniqueName (uniqueNames_tableStore "knock_map" _)
    (autoByTarget_function hmem) (hgiven group hmem entry hentry)

/-- The clash check looks at functions only: the name of the match is that of the table,
which has to give way although no candidate is about it. -/
theorem appended_function_renames_table :
    let run := tableRun "knock_retard"
    (∀ path, UniqueNames (run.files path)) ∧
      run.autoAll.map (fun c => (c.target, c.address, c.proposed)) =
        [("39670016", 0x1000, "knock_retard")] ∧
      storeNames ((classifyAndApply run).files "39670016.json") =
        ["knock_retard", "knock_retard_2000"] ∧
      ¬ AtSteps run.applyTarget ⟨run.files, 0⟩ run.autoByTarget (StepKeepsNames run) := by
  intro run
  refine ⟨uniqueNames_tableStore "knock_retard", by decide +kernel, by decide +kernel,
    fun h => ?_⟩
  have hlen : run.autoByTarget.length = 1 := by decide +kernel
  have hrenames : ∀ group ∈ run.autoByTarget, ¬ StepKeepsNames run ⟨run.files, 0⟩ group := by
    decide +kernel
  obtain ⟨group, hgroup⟩ := List.length_eq_one_iff.mp hlen
  rw [hgroup] at h hrenames
  exact hrenames group (List.mem_singleton_self group) (atSteps_singleton.mp h)

end RomAnalyzer.Pipeline
