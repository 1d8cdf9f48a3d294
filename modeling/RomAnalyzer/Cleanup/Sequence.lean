import RomAnalyzer.Cleanup

/-!
# The clean-up as a sequence

What the three passes do to one another: the names that the last one gives leave the
first one nothing to do, and the second one can drop the entry for whose sake the first
one dropped another.
-/
namespace RomAnalyzer.Cleanup

open Lib

/-- What the dropping passes look at of a function or a symbol. -/
structure StoreEntry where
  isFunction : Bool
  name : String
  addr : Nat
  source : String
  deriving DecidableEq, Repr

def functionEntry (f : AnnotationFunction) : StoreEntry := ⟨true, f.name, f.entryPoint, f.source⟩

def symbolEntry (s : AnnotationSymbol) : StoreEntry := ⟨false, s.name, s.address, s.source⟩

def storeEntries (store : AnnotationStore) : List StoreEntry :=
  store.functions.map functionEntry ++ store.symbols.map symbolEntry

/-- The entry comes from a disassembly listing. -/
def StoreEntry.sloppy (e : StoreEntry) : Bool := sloppySources.contains e.source

/-- A listing's entry with a precise entry of its name at most four bytes off. -/
def NearDuplicate (store : AnnotationStore) (e : StoreEntry) : Prop :=
  e.sloppy ∧ ∃ p ∈ storeEntries store,
    p.sloppy = false ∧ p.name = e.name ∧ ((e.addr : Int) - p.addr).natAbs ≤ 4

/-- A function whose first eight bytes are erased. -/
def InErasedFlash (rom : Bytes) (e : StoreEntry) : Prop := e.isFunction ∧ erasedAt rom e.addr

instance (store : AnnotationStore) (e : StoreEntry) : Decidable (NearDuplicate store e) := by
  unfold NearDuplicate
  infer_instance

instance (rom : Bytes) (e : StoreEntry) : Decidable (InErasedFlash rom e) := by
  unfold InErasedFlash
  infer_instance

variable {store : AnnotationStore}

theorem mem_storeEntries {e : StoreEntry} :
    e ∈ storeEntries store ↔ (∃ f ∈ store.functions, functionEntry f = e) ∨
      ∃ s ∈ store.symbols, symbolEntry s = e := by
  rw [storeEntries, List.mem_append, List.mem_map, List.mem_map]

theorem map_name_storeEntries (store : AnnotationStore) :
    (storeEntries store).map StoreEntry.name = storeNames store := by
  rw [storeEntries, List.map_append, List.map_map, List.map_map]
  rfl

theorem mem_preciseAddrs {name : String} {pa : Nat} :
    pa ∈ preciseAddrs store name ↔
      ∃ p ∈ storeEntries store, p.sloppy = false ∧ p.name = name ∧ p.addr = pa := by
  simp only [preciseAddrs, List.mem_append, List.mem_map, List.mem_filter, decide_eq_true_iff,
    mem_storeEntries, StoreEntry.sloppy, List.contains_eq_mem, decide_eq_false_iff_not]
  constructor
  · intro h
    obtain ⟨f, ⟨hf, hsource, hname⟩, haddr⟩ | ⟨s, ⟨hs, hsource, hname⟩, haddr⟩ := h
    · exact ⟨_, Or.inl ⟨f, hf, rfl⟩, hsource, hname, haddr⟩
    · exact ⟨_, Or.inr ⟨s, hs, rfl⟩, hsource, hname, haddr⟩
  · intro h
    obtain ⟨p, ⟨f, hf, rfl⟩ | ⟨s, hs, rfl⟩, hsource, hname, haddr⟩ := h
    · exact Or.inl ⟨f, ⟨hf, hsource, hname⟩, haddr⟩
    · exact Or.inr ⟨s, ⟨hs, hsource, hname⟩, haddr⟩

theorem artifact_iff (e : StoreEntry) :
    artifact store 4 e.name e.addr e.source ↔ NearDuplicate store e := by
  simp only [artifact, Bool.and_eq_true, List.any_eq_true, decide_eq_true_iff, mem_preciseAddrs,
    NearDuplicate, StoreEntry.sloppy]
  apply and_congr_right
  intro _
  constructor
  · intro h
    obtain ⟨_, ⟨p, hp, hprecise, hname, rfl⟩, hnear⟩ := h
    exact ⟨p, hp, hprecise, hname, hnear⟩
  · intro h
    obtain ⟨p, hp, hprecise, hname, hnear⟩ := h
    exact ⟨p.addr, ⟨p, hp, hprecise, hname, rfl⟩, hnear⟩

theorem not_artifact_iff (e : StoreEntry) :
    (!artifact store 4 e.name e.addr e.source) = true ↔ ¬ NearDuplicate store e := by
  rw [← artifact_iff, Bool.not_eq_true', Bool.not_eq_true]

/-- The first pass drops the near duplicates. -/
theorem mem_dropImpreciseSDuplicates {e : StoreEntry} :
    e ∈ storeEntries (dropImpreciseSDuplicates store).1 ↔
      e ∈ storeEntries store ∧ ¬ NearDuplicate store e := by
  simp only [mem_storeEntries, dropImpreciseSDuplicates, List.mem_filter]
  constructor
  · intro h
    obtain ⟨f, ⟨hf, hkept⟩, rfl⟩ | ⟨s, ⟨hs, hkept⟩, rfl⟩ := h
    · exact ⟨Or.inl ⟨f, hf, rfl⟩, (not_artifact_iff (functionEntry f)).mp hkept⟩
    · exact ⟨Or.inr ⟨s, hs, rfl⟩, (not_artifact_iff (symbolEntry s)).mp hkept⟩
  · intro h
    obtain ⟨⟨f, hf, rfl⟩ | ⟨s, hs, rfl⟩, hkept⟩ := h
    · exact Or.inl ⟨f, ⟨hf, (not_artifact_iff (functionEntry f)).mpr hkept⟩, rfl⟩
    · exact Or.inr ⟨s, ⟨hs, (not_artifact_iff (symbolEntry s)).mpr hkept⟩, rfl⟩

/-- The second pass drops the functions in erased flash. -/
theorem mem_dropErasedFlashEntries {rom : Bytes} {e : StoreEntry} :
    e ∈ storeEntries (dropErasedFlashEntries store rom).1 ↔
      e ∈ storeEntries store ∧ ¬ InErasedFlash rom e := by
  simp only [mem_storeEntries, dropErasedFlashEntries, List.mem_filter, Bool.not_eq_true',
    InErasedFlash]
  constructor
  · intro h
    obtain ⟨f, ⟨hf, hkept⟩, rfl⟩ | ⟨s, hs, rfl⟩ := h
    · exact ⟨Or.inl ⟨f, hf, rfl⟩, by simp [functionEntry, hkept]⟩
    · exact ⟨Or.inr ⟨s, hs, rfl⟩, by simp [symbolEntry]⟩
  · intro h
    obtain ⟨⟨f, hf, rfl⟩ | ⟨s, hs, rfl⟩, hkept⟩ := h
    · exact Or.inl ⟨f, ⟨hf, by simpa [functionEntry] using hkept⟩, rfl⟩
    · exact Or.inr ⟨s, hs, rfl⟩

theorem mem_dropEntries {rom : Bytes} {e : StoreEntry} :
    e ∈ storeEntries (dropEntries store (some rom)) ↔
      e ∈ storeEntries store ∧ ¬ NearDuplicate store e ∧ ¬ InErasedFlash rom e := by
  rw [dropEntries, mem_dropErasedFlashEntries, mem_dropImpreciseSDuplicates, and_assoc]

/-! ### A second clean-up -/

/-- Under unique names no listing's entry shares its name with a precise one. -/
theorem not_nearDuplicate_of_unique (h : UniqueNames store) {e : StoreEntry}
    (he : e ∈ storeEntries store) : ¬ NearDuplicate store e := by
  intro hgiven
  obtain ⟨hsloppy, p, hp, hprecise, hname, _⟩ := hgiven
  rw [UniqueNames, ← map_name_storeEntries] at h
  have hsame : p = e := List.inj_on_of_nodup_map h hp he hname
  rw [hsame, hsloppy] at hprecise
  cases hprecise

theorem dropImpreciseSDuplicates_of_none
    (h : ∀ e ∈ storeEntries store, ¬ NearDuplicate store e) :
    dropImpreciseSDuplicates store = (store, 0) := by
  have hfunctions : (store.functions.filter fun f =>
      !artifact store 4 f.name f.entryPoint f.source) = store.functions := by
    apply List.filter_eq_self.mpr
    intro f hf
    have hkept := h (functionEntry f) (mem_storeEntries.mpr (Or.inl ⟨f, hf, rfl⟩))
    exact (not_artifact_iff (functionEntry f)).mpr hkept
  have hsymbols : (store.symbols.filter fun s =>
      !artifact store 4 s.name s.address s.source) = store.symbols := by
    apply List.filter_eq_self.mpr
    intro s hs
    have hkept := h (symbolEntry s) (mem_storeEntries.mpr (Or.inr ⟨s, hs, rfl⟩))
    exact (not_artifact_iff (symbolEntry s)).mpr hkept
  rw [dropImpreciseSDuplicates, hfunctions, hsymbols, Nat.sub_self]

theorem dropErasedFlashEntries_of_none {rom : Bytes}
    (h : ∀ f ∈ store.functions, erasedAt rom f.entryPoint = false) :
    dropErasedFlashEntries store rom = (store, []) := by
  have hkept : (store.functions.filter fun f => !erasedAt rom f.entryPoint 8) =
      store.functions := by
    apply List.filter_eq_self.mpr
    intro f hf
    rw [Bool.not_eq_true']
    exact h f hf
  have hdropped : (store.functions.filter fun f => erasedAt rom f.entryPoint 8) = [] := by
    apply List.filter_eq_nil_iff.mpr
    intro f hf
    exact Bool.not_eq_true _ ▸ h f hf
  rw [dropErasedFlashEntries, hkept, hdropped, List.map_nil]

/-- Renaming moves no function. -/
theorem exists_function_of_mem_dedup {f : AnnotationFunction}
    (hf : f ∈ (dedupSymbolNames store).1.functions) :
    ∃ f' ∈ store.functions, f'.entryPoint = f.entryPoint := by
  obtain ⟨i, hi, rfl⟩ := List.mem_mapIdx.mp hf
  exact ⟨store.functions[i], List.getElem_mem hi, rfl⟩

/-- No function of a cleaned store lies in erased flash. -/
theorem erasedAt_cleanUp (store : AnnotationStore) (rom : Bytes) :
    ∀ f ∈ (cleanUp store (some rom)).functions, erasedAt rom f.entryPoint = false := by
  intro f hf
  obtain ⟨f', hf', haddr⟩ := exists_function_of_mem_dedup hf
  have hkept := (List.mem_filter.mp hf').2
  rw [haddr] at hkept
  rwa [Bool.not_eq_true'] at hkept

theorem dropImpreciseSDuplicates_cleanUp (store : AnnotationStore) (rom : Option Bytes) :
    dropImpreciseSDuplicates (cleanUp store rom) = (cleanUp store rom, 0) :=
  dropImpreciseSDuplicates_of_none fun _ he =>
    not_nearDuplicate_of_unique (cleanUp_unique store rom) he

/-- Each pass of a second clean-up removes nothing and renames nothing; so does the
clean-up of a writer that has no image. -/
theorem cleanUp_idempotent (store : AnnotationStore) (rom : Bytes) :
    let after := cleanUp store (some rom)
    dropImpreciseSDuplicates after = (after, 0) ∧
      dropErasedFlashEntries after rom = (after, []) ∧
      dedupSymbolNames after = (after, 0) ∧
      cleanUp after (some rom) = after ∧
      cleanUp (cleanUp store none) none = cleanUp store none := by
  intro after
  have himprecise : dropImpreciseSDuplicates after = (after, 0) :=
    dropImpreciseSDuplicates_cleanUp store (some rom)
  have herased : dropErasedFlashEntries after rom = (after, []) :=
    dropErasedFlashEntries_of_none (erasedAt_cleanUp store rom)
  have hnames : dedupSymbolNames after = (after, 0) :=
    dedupSymbolNames_of_unique (cleanUp_unique store (some rom))
  refine ⟨himprecise, herased, hnames, ?_, ?_⟩
  · rw [cleanUp, dropEntries, himprecise, herased, hnames]
  · rw [cleanUp, dropEntries, dropImpreciseSDuplicates_cleanUp,
      dedupSymbolNames_of_unique (cleanUp_unique store none)]

/-! ### Names that are lost -/

/-- For every entry that the first pass drops, some entry of the name that was in the
store is still there after the second. -/
def KeepsDroppedNames (store : AnnotationStore) (rom : Bytes) : Prop :=
  ∀ e ∈ storeEntries store, e ∉ storeEntries (dropImpreciseSDuplicates store).1 →
    ∃ e' ∈ storeEntries store, e'.name = e.name ∧
      e' ∈ storeEntries (dropEntries store (some rom))

instance (store : AnnotationStore) (rom : Bytes) : Decidable (KeepsDroppedNames store rom) := by
  unfold KeepsDroppedNames
  infer_instance

/-- Each name that a near duplicate carries is also that of a precise entry outside
erased flash, or of a listing's entry outside it that is far from all precise ones. -/
def HasSoundEntry (store : AnnotationStore) (rom : Bytes) : Prop :=
  ∀ e ∈ storeEntries store, NearDuplicate store e →
    (∃ p ∈ storeEntries store, p.name = e.name ∧ p.sloppy = false ∧ ¬ InErasedFlash rom p) ∨
      ∃ s ∈ storeEntries store, s.name = e.name ∧ s.sloppy ∧ ¬ InErasedFlash rom s ∧
        ∀ p ∈ storeEntries store, p.sloppy = false → p.name = e.name →
          4 < ((s.addr : Int) - p.addr).natAbs

/-- An entry survives the first pass when it is precise or far from all precise ones. -/
theorem not_nearDuplicate_iff {e : StoreEntry} :
    ¬ NearDuplicate store e ↔ e.sloppy = false ∨ e.sloppy ∧
      ∀ p ∈ storeEntries store, p.sloppy = false → p.name = e.name →
        4 < ((e.addr : Int) - p.addr).natAbs := by
  unfold NearDuplicate
  cases e.sloppy with
  | false => simp
  | true => simp

theorem keepsDroppedNames_iff (store : AnnotationStore) (rom : Bytes) :
    KeepsDroppedNames store rom ↔ HasSoundEntry store rom := by
  constructor
  · intro h e he hnear
    have hdropped : e ∉ storeEntries (dropImpreciseSDuplicates store).1 := fun hin =>
      (mem_dropImpreciseSDuplicates.mp hin).2 hnear
    obtain ⟨e', he', hname, hkept⟩ := h e he hdropped
    obtain ⟨_, hfar, hsound⟩ := mem_dropEntries.mp hkept
    rcases not_nearDuplicate_iff.mp hfar with hprecise | ⟨hsloppy, hfar⟩
    · exact Or.inl ⟨e', he', hname, hprecise, hsound⟩
    · rw [hname] at hfar
      exact Or.inr ⟨e', he', hname, hsloppy, hsound, hfar⟩
  · intro h e he hdropped
    have hnear : NearDuplicate store e := by
      by_contra hfar
      exact hdropped (mem_dropImpreciseSDuplicates.mpr ⟨he, hfar⟩)
    rcases h e he hnear with ⟨p, hp, hname, hprecise, hsound⟩ | ⟨s, hs, hname, hsloppy, hsound, hfar⟩
    · have hkept : ¬ NearDuplicate store p := not_nearDuplicate_iff.mpr (Or.inl hprecise)
      exact ⟨p, hp, hname, mem_dropEntries.mpr ⟨hp, hkept, hsound⟩⟩
    · rw [← hname] at hfar
      have hkept : ¬ NearDuplicate store s := not_nearDuplicate_iff.mpr (Or.inr ⟨hsloppy, hfar⟩)
      exact ⟨s, hs, hname, mem_dropEntries.mpr ⟨hs, hkept, hsound⟩⟩

/-- The last code bytes before an erased block. -/
def erasedTail : Bytes := [0x70, 0x00, 0x1F, 0xCE] ++ List.replicate 8 0xFF

/-- The listing has the function at the code, the flash file four bytes off. -/
def mistypedStore : AnnotationStore where
  schemaVersion := 1
  romId := "33520003"
  romSha256 := ""
  functions := [{ name := "can0_slot11_rx_update", entryPoint := 4, source := "colt_flash" },
    { name := "can0_slot11_rx_update", entryPoint := 0, source := "colt_s" }]

/-- The first pass drops the right entry for the sake of the mistyped one, the second
drops that. -/
theorem mistyped_function_lost :
    storeEntries (dropImpreciseSDuplicates mistypedStore).1 =
        [⟨true, "can0_slot11_rx_update", 4, "colt_flash"⟩] ∧
      storeEntries (dropEntries mistypedStore (some erasedTail)) = [] ∧
      ¬ KeepsDroppedNames mistypedStore erasedTail := by
  refine ⟨by decide +kernel, by decide +kernel, by decide +kernel⟩

end RomAnalyzer.Cleanup
