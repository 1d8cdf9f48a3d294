import RomAnalyzer.Pipeline.EnrichedFiles

/-!
# The enrich command

A new reference is matched against all others of its variant whose images are there, and the
candidates of these matches are classified and applied.
-/
namespace RomAnalyzer.Pipeline

open Lib
open Enrich (LabelCandidate candidateKey)
open Ghidra (HeadlessRun)

/-- `VARIANT_TO_LANGUAGE` -/
def variantToLanguage : Dict String String :=
  Dict.ofList [("fp8000", "m32r:2:fp8000"), ("fpc000", "m32r:2:default")]

/-- The registry, and the images that are there. -/
structure ReferenceLibrary where
  entries : List ReferenceEntry
  images : Path → Option Bytes

/-- What the project knows of the new ROM and of its references. -/
structure ProjectImports where
  newRun : HeadlessRun
  refRun : ReferenceEntry → Option HeadlessRun
  vtAssociations : ReferenceEntry → List Diff.VtAssociation

namespace ReferenceLibrary

variable (lib : ReferenceLibrary)

/-- `{e.id: e for e in entries}` -/
def byId : Dict String ReferenceEntry := Dict.ofList (lib.entries.map fun e => (e.id, e))

/-- `{e.id: e.priority for e in entries}` -/
def priority : Merge.Priority := Dict.ofList (lib.entries.map fun e => (e.id, e.priority))

/-- `{e.id: e.json_path for e in registry}` -/
def jsonPaths : Dict String Path := Dict.ofList (lib.entries.map fun e => (e.id, e.jsonPath))

/-- What is read of an image; a missing one is not asked for. -/
def imageBytes (path : Path) : Bytes := (lib.images path).getD []

def enrichContext (newEntry : ReferenceEntry) (romBytes : Bytes) : RomContext where
  romPath := newEntry.romPath
  romBytes := romBytes
  targetFamily := newEntry.family
  isSelfDiff := false

/-- The other references whose images are there. -/
def others (newId : String) : List ReferenceEntry :=
  lib.entries.filter fun e => e.id ≠ newId ∧ (lib.images e.romPath).isSome

/-- A row with its annotations, its image and what the project knows of it. -/
def selected (files : AnnotationFiles) (imports : ProjectImports) (e : ReferenceEntry) :
    SelectedReference where
  entry := e
  store := files e.jsonPath
  refRun := imports.refRun e
  refBytes := lib.imageBytes e.romPath
  vtAssociations := imports.vtAssociations e

/-- Cross-variant matching is not supported. -/
def crossMatch (files : AnnotationFiles) (imports : ProjectImports) (newEntry : ReferenceEntry)
    (romBytes : Bytes) : List ReferenceMatchResult :=
  ((lib.others newEntry.id).filter fun e => e.variant = newEntry.variant).map fun e =>
    matchReference (enrichContext newEntry romBytes) imports.newRun (lib.selected files imports e)

/-- `{f.entry_point: f.name for f in new_store.functions}` -/
def newFnNames (files : AnnotationFiles) (newEntry : ReferenceEntry) : Dict Nat String :=
  Dict.ofList ((files newEntry.jsonPath).functions.map fun f => (f.entryPoint, f.name))

/-- The run of the command, or the message with which it stops. -/
def enrichRun (files : AnnotationFiles) (newId : String) (imports : ProjectImports) :
    Except String EnrichRun :=
  match lib.byId.get? newId with
  | none => .error ("Reference id '" ++ newId ++ "' not found in registry")
  | some newEntry =>
    match lib.images newEntry.romPath with
    | none => .error ("ROM for " ++ newId ++ " not found at " ++ newEntry.romPath)
    | some romBytes =>
      if lib.others newId = [] then
        .error "No other references with available ROMs to cross-match against"
      else
        match variantToLanguage.get? newEntry.variant with
        | none => .error ("Unknown variant '" ++ newEntry.variant ++ "' for " ++ newId)
        | some _ =>
          .ok {
            results := lib.crossMatch files imports newEntry romBytes
            newEntry := newEntry
            newFnNames := newFnNames files newEntry
            byId := lib.byId
            priority := lib.priority
            romBytes := romBytes
            roms := lib.imageBytes
            files := files }

def enrich (files : AnnotationFiles) (newId : String) (imports : ProjectImports) :
    Except String EnrichOutcome :=
  (lib.enrichRun files newId imports).map classifyAndApply

/-- No image of the file's references is blank there. -/
def Inhabited (path : Path) (addr : Nat) : Prop :=
  ∀ tid entry, lib.byId.get? tid = some entry → entry.jsonPath = path →
    Cleanup.erasedAt (lib.imageBytes entry.romPath) addr = false

/-! ### What the command is run on -/

/-- A run of the command reads the registry, its images and the files as they are. -/
structure RunOf (files : AnnotationFiles) (newId : String) (run : EnrichRun) : Prop where
  registered : lib.byId.get? newId = some run.newEntry
  image : lib.images run.newEntry.romPath = some run.romBytes
  results : ∃ imports, run.results = lib.crossMatch files imports run.newEntry run.romBytes
  names : run.newFnNames = newFnNames files run.newEntry
  byId : run.byId = lib.byId
  roms : run.roms = lib.imageBytes
  files : run.files = files

variable {lib} {files : AnnotationFiles} {newId : String} {imports : ProjectImports}
  {run : EnrichRun}

theorem runOf_enrichRun (h : lib.enrichRun files newId imports = .ok run) :
    lib.RunOf files newId run := by
  unfold enrichRun at h
  split at h
  · cases h
  · rename_i newEntry hentry
    split at h
    · cases h
    · rename_i romBytes himage
      split at h
      · cases h
      · split at h
        · cases h
        · obtain rfl := Except.ok.inj h
          exact ⟨hentry, himage, ⟨imports, rfl⟩, rfl, rfl, rfl, rfl⟩

/-- An entry goes by its own id. -/
theorem id_of_byId {tid : String} {entry : ReferenceEntry}
    (h : lib.byId.get? tid = some entry) : entry.id = tid ∧ entry ∈ lib.entries := by
  obtain ⟨e, he, hpair⟩ := List.mem_map.mp (Dict.mem_of_get?_ofList h)
  obtain ⟨rfl, rfl⟩ := Prod.mk.inj hpair
  exact ⟨rfl, he⟩

/-- The image that a target is cleaned up with is the registered one. -/
theorem RunOf.targetRom (h : lib.RunOf files newId run) {tid : String} {entry : ReferenceEntry}
    (hget : lib.byId.get? tid = some entry) :
    run.targetRom tid entry = lib.imageBytes entry.romPath := by
  unfold EnrichRun.targetRom
  split
  · rename_i hnew
    have hid : run.newEntry.id = newId := (id_of_byId h.registered).1
    have hsame : some run.newEntry = some entry := by
      rw [← h.registered, ← hget, hnew, hid]
    rw [← Option.some.inj hsame, imageBytes, h.image]
    rfl
  · rw [h.roms]

end ReferenceLibrary

/-! ### Gaps -/

section Gaps

variable {lib : ReferenceLibrary} {files : AnnotationFiles} {newId : String} {run : EnrichRun}

/-- A merged candidate quotes the present name that some candidate of its group quotes. -/
theorem mergeGroup_current {priority : Merge.Priority} {group : List LabelCandidate}
    {c : LabelCandidate} (h : Enrich.mergeGroup priority group = some c) :
    ∃ c' ∈ group, candidateKey c = candidateKey c' ∧ c.current = c'.current := by
  match group with
  | [] => cases h
  | [c'] =>
    cases h
    exact ⟨c, List.mem_singleton_self c, rfl, rfl⟩
  | first :: second :: rest =>
    obtain ⟨winner, _, rfl⟩ := Option.map_eq_some_iff.mp h
    exact ⟨first, List.mem_cons_self, rfl, rfl⟩

theorem mergeCandidates_current {priority : Merge.Priority} {candidates : List LabelCandidate}
    {c : LabelCandidate} (h : c ∈ Enrich.mergeCandidates candidates priority) :
    ∃ c' ∈ candidates, candidateKey c = candidateKey c' ∧ c.current = c'.current := by
  obtain ⟨group, hgroup, hmerge⟩ := List.mem_filterMap.mp h
  obtain ⟨entry, hentry, rfl⟩ := List.mem_map.mp hgroup
  obtain ⟨c', hc', hkey, hcurrent⟩ := mergeGroup_current hmerge
  rw [((Dict.mem_entries_groupBy _ _ _ _).mp hentry).1] at hc'
  exact ⟨c', (List.mem_filter.mp hc').1, hkey, hcurrent⟩

/-- A dictionary of the functions' names has every entry point. -/
theorem get?_fnNames_eq_none_iff {fs : List AnnotationFunction} {addr : Nat} :
    (Dict.ofList (fs.map fun f => (f.entryPoint, f.name))).get? addr = none ↔
      addr ∉ fs.map AnnotationFunction.entryPoint := by
  rw [Dict.get?_eq_none_iff, Dict.mem_keys_ofList, List.map_map]
  rfl

/-- What a candidate of the command calls a gap is one in the file of its target. -/
theorem gap_of_current_eq_none (hids : (lib.entries.map ReferenceEntry.id).Nodup)
    (hrun : lib.RunOf files newId run) {c : LabelCandidate} (hc : c ∈ run.mergedCandidates)
    (hgap : c.current = none) {entry : ReferenceEntry}
    (hget : lib.byId.get? c.target = some entry) :
    c.address ∉ (files entry.jsonPath).functions.map AnnotationFunction.entryPoint := by
  obtain ⟨c', hc', hkey, hcurrent⟩ := mergeCandidates_current hc
  obtain ⟨htarget, haddr, _⟩ : c.target = c'.target ∧ c.address = c'.address ∧
      c.category = c'.category := by
    simpa [candidateKey] using hkey
  rw [hgap] at hcurrent
  obtain ⟨r, hr, hcand⟩ := mem_allCandidates.mp hc'
  obtain ⟨m, _, hforward | hback⟩ := Enrich.mem_gatherCandidates.mp hcand
  · -- the candidate is about the new reference, whose file gave the names
    obtain ⟨name, _, rfl⟩ := Option.map_eq_some_iff.mp hforward
    have hnone : run.newFnNames.get? m.newAddress = none := hcurrent.symm
    have hentry : run.newEntry = entry := by
      have hid := (ReferenceLibrary.id_of_byId hrun.registered).1
      have htid : c.target = newId := htarget.trans hid
      rw [htid, hrun.registered] at hget
      exact Option.some.inj hget
    rw [hrun.names, ReferenceLibrary.newFnNames, get?_fnNames_eq_none_iff, hentry] at hnone
    rw [haddr]
    exact hnone
  · -- it is about a matched reference, whose file was read for the names
    obtain ⟨name, _, rfl⟩ := Option.map_eq_some_iff.mp hback
    have hnone : (run.refFnNames r.entry).get? m.refAddress = none := hcurrent.symm
    obtain ⟨imports, hresults⟩ := hrun.results
    rw [hresults] at hr
    obtain ⟨e, he, rfl⟩ := List.mem_map.mp hr
    have hmem : e ∈ lib.entries := (List.mem_filter.mp (List.mem_filter.mp he).1).1
    have hentry : e = entry := by
      obtain ⟨hid, hentries⟩ := ReferenceLibrary.id_of_byId hget
      exact List.inj_on_of_nodup_map hids hmem hentries (htarget.symm.trans hid.symm)
    rw [EnrichRun.refFnNames, hrun.files, get?_fnNames_eq_none_iff] at hnone
    rw [haddr, ← hentry]
    exact hnone

end Gaps

section Sample

def twoRoms : ReferenceLibrary where
  entries := [⟨"33520003", "33520003.json", "33520003.bin", "z27ag", "fp8000", 100, [], ""⟩,
    ⟨"39670016", "39670016.json", "39670016.bin", "z27a", "fp8000", 90, [], ""⟩]
  images _ := some (List.replicate 24 0)

/-- The diff pairs one function. -/
def onePair : ProjectImports where
  newRun := {}
  refRun _ := some {}
  vtAssociations _ := [⟨0x100, 0x8, 1, some "can0_slot11_rx_update"⟩]

def oneName : AnnotationFiles := fun path => {
  schemaVersion := 1
  romId := path
  romSha256 := ""
  functions := if path = "33520003.json" then
    [{ name := "can0_slot11_rx_update", entryPoint := 0x100 }] else [] }

end Sample

end RomAnalyzer.Pipeline
