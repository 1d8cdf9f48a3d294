import RomAnalyzer.Cleanup

/-!
# Canonical owners

The entry that should keep a name is the one of the lowest address that has it. The
names that the pass generates can be in its way: an entry in front of it whose suffixed
name is already the owner's own.
-/
namespace RomAnalyzer.Cleanup

open Lib

/-- For each name of the store, an entry of the lowest address with the name has it
afterwards too. -/
def KeepsCanonicalNames (store : AnnotationStore) : Prop :=
  ∀ name ∈ storeNames store, ∃ o ∈ objects store,
    o.name = name ∧ (∀ b ∈ objects store, b.name = name → o.addr ≤ b.addr) ∧
      o ∈ objects (dedupSymbolNames store).1

instance (store : AnnotationStore) : Decidable (KeepsCanonicalNames store) := by
  unfold KeepsCanonicalNames
  infer_instance

/-- The first entry with its name in the order of the pass. -/
def CanonicalOwner (store : AnnotationStore) (o : NamedObject) : Prop :=
  o ∈ dedupOrder store ∧ ∀ b ∈ ahead (dedupOrder store) o, b.name ≠ o.name

/-- The name is in use when the pass comes to the entry. -/
def nameInUse (store : AnnotationStore) (o : NamedObject) (name : String) : Prop :=
  objectNaming.InUse (dedupOrder store) o name

/-- Whenever the name of an owner is a suffixed name of an entry in front of it that
repeats a name, a shorter suffix is still free when the pass comes to that entry. -/
def SuffixesSpareOwners (store : AnnotationStore) : Prop :=
  ∀ o, CanonicalOwner store o → ∀ b ∈ ahead (dedupOrder store) o, ¬ CanonicalOwner store b →
    ∀ k, o.name = suffixedName b.name b.addr k →
      ∃ j < k, ¬ nameInUse store b (suffixedName b.name b.addr j)

variable {store : AnnotationStore}

theorem mem_dedupOrder_of_mem_ahead {o b : NamedObject} (hb : b ∈ ahead (dedupOrder store) o) :
    b ∈ dedupOrder store :=
  (List.takeWhile_sublist _).subset hb

theorem addr_le_of_mem_ahead {o b : NamedObject} (ho : o ∈ dedupOrder store)
    (hb : b ∈ ahead (dedupOrder store) o) : b.addr ≤ o.addr := by
  obtain ⟨post, hsplit⟩ := Naming.eq_ahead_append ho
  have hsorted : (dedupOrder store).Pairwise fun x y => x.addr ≤ y.addr :=
    sortBy_pairwise NamedObject.addr (objects store)
  rw [hsplit] at hsorted
  exact (List.pairwise_append.mp hsorted).2.2 b hb o List.mem_cons_self

/-- Two owners of one name are one entry. -/
theorem CanonicalOwner.eq_of_name {o o' : NamedObject} (h : CanonicalOwner store o)
    (h' : CanonicalOwner store o') (hname : o.name = o'.name) : o = o' := by
  by_contra hne
  rcases Naming.mem_ahead_or_mem_ahead h.1 h'.1 hne with hahead | hahead
  · exact h'.2 o hahead hname
  · exact h.2 o' hahead hname.symm

/-- An owner has the lowest address of its name. -/
theorem CanonicalOwner.addr_le {o b : NamedObject} (h : CanonicalOwner store o)
    (hb : b ∈ objects store) (hname : b.name = o.name) : o.addr ≤ b.addr := by
  by_cases hne : o = b
  · rw [hne]
  have hmem : b ∈ dedupOrder store := mem_dedupOrder.mpr hb
  rcases Naming.mem_ahead_or_mem_ahead h.1 hmem hne with hahead | hahead
  · exact addr_le_of_mem_ahead hmem hahead
  · exact absurd hname (h.2 b hahead)

theorem exists_canonicalOwner {b : NamedObject} (hb : b ∈ objects store) :
    ∃ o, CanonicalOwner store o ∧ o.name = b.name := by
  obtain ⟨o, ho, hname, hfirst⟩ :=
    Naming.exists_first (p := fun o => o.name = b.name) (mem_dedupOrder.mpr hb) rfl
  refine ⟨o, ⟨ho, ?_⟩, hname⟩
  intro c hc hcname
  exact hfirst c hc (hcname.trans hname)

theorem mem_storeNames {name : String} :
    name ∈ storeNames store ↔ ∃ o ∈ objects store, o.name = name := by
  rw [storeNames_eq, List.mem_map]

/-- An entry is in the store after the pass exactly when it keeps its name. -/
theorem mem_objects_dedup {o : NamedObject} (ho : o ∈ objects store) :
    o ∈ objects (dedupSymbolNames store).1 ↔ uniqueName store o = o.name := by
  rw [mem_objects]
  rcases mem_objects.mp ho with ⟨i, f, hf, rfl⟩ | ⟨i, s, hs, rfl⟩
  · simp [dedupSymbolNames, hf, functionObject, symbolObject, eq_comm]
  · simp [dedupSymbolNames, hs, functionObject, symbolObject, eq_comm]

/-- If any entry keeps a name, its owner does. -/
theorem CanonicalOwner.keeps_of_kept {o o' : NamedObject} (h : CanonicalOwner store o)
    (ho' : o' ∈ dedupOrder store) (hname : o'.name = o.name)
    (hkept : uniqueName store o' = o'.name) : uniqueName store o = o.name := by
  have hnodup := dedupOrder_nodup store
  by_cases hne : o = o'
  · rw [hne]
    exact hkept
  have hahead : o ∈ ahead (dedupOrder store) o' := by
    rcases Naming.mem_ahead_or_mem_ahead h.1 ho' hne with hahead | hahead
    · exact hahead
    · exact absurd hname (h.2 o' hahead)
  obtain ⟨rest, hrest⟩ := Naming.ahead_sublist_of_mem hahead
  apply (objectNaming.labelOf_eq_label_iff hnodup h.1).mpr
  intro b hb htaken
  -- who takes the owner's name in front of it takes the name of `o'` as well
  have hb' : b ∈ ahead (dedupOrder store) o' := by
    rw [hrest]
    exact List.mem_append_left _ hb
  exact (objectNaming.labelOf_eq_label_iff hnodup ho').mp hkept b hb' (htaken.trans hname.symm)

theorem keepsCanonicalNames_iff_owners :
    KeepsCanonicalNames store ↔ ∀ o, CanonicalOwner store o → uniqueName store o = o.name := by
  constructor
  · intro h o ho
    have hmem : o ∈ objects store := mem_dedupOrder.mp ho.1
    obtain ⟨o', ho', hname, _, hkept⟩ := h o.name (mem_storeNames.mpr ⟨o, hmem, rfl⟩)
    exact ho.keeps_of_kept (mem_dedupOrder.mpr ho') hname ((mem_objects_dedup ho').mp hkept)
  · intro h name hname
    obtain ⟨b, hb, rfl⟩ := mem_storeNames.mp hname
    obtain ⟨o, ho, hsame⟩ := exists_canonicalOwner hb
    have hmem : o ∈ objects store := mem_dedupOrder.mp ho.1
    refine ⟨o, hmem, hsame, ?_, (mem_objects_dedup hmem).mpr (h o ho)⟩
    intro c hc hcname
    exact ho.addr_le hc (hcname.trans hsame.symm)

/-- An entry that shares its name with no other is then not renamed. -/
theorem KeepsCanonicalNames.unshared (h : KeepsCanonicalNames store) {o : NamedObject}
    (ho : o ∈ objects store) (hsole : ∀ b ∈ objects store, b.name = o.name → b = o) :
    uniqueName store o = o.name := by
  obtain ⟨o', ho', hname, _, hkept⟩ := h o.name (mem_storeNames.mpr ⟨o, ho, rfl⟩)
  rw [hsole o' ho' hname] at hkept
  exact (mem_objects_dedup ho).mp hkept

/-- An entry that is no owner finds its own name in use. -/
theorem nameInUse_of_not_owner {b : NamedObject} (hb : b ∈ dedupOrder store)
    (hnot : ¬ CanonicalOwner store b) : nameInUse store b b.name := by
  have hrepeat : ∃ c ∈ ahead (dedupOrder store) b, c.name = b.name := by
    by_contra hnone
    push Not at hnone
    exact hnot ⟨hb, hnone⟩
  obtain ⟨c, hc, hname⟩ := hrepeat
  have hlink : objectNaming.InUse (dedupOrder store) b (objectNaming.chain c 0) :=
    Naming.InUse.link hc fun j hj => by omega
  have hzero : objectNaming.chain c 0 = b.name := hname
  rw [hzero] at hlink
  exact hlink

/-- The lowest entry of every name keeps it exactly when no suffixed name that the pass
settles on is the name of an owner further up. -/
theorem keepsCanonicalNames_iff (store : AnnotationStore) :
    KeepsCanonicalNames store ↔ SuffixesSpareOwners store := by
  have hchain := objectNaming.labels_kept_iff_chain (dedupOrder_nodup store)
    (Q := CanonicalOwner store) fun a _ b _ ha hb hname => ha.eq_of_name hb hname
  have hlabels : (∀ o, CanonicalOwner store o → uniqueName store o = o.name) ↔
      ∀ o ∈ dedupOrder store, CanonicalOwner store o →
        objectNaming.labelOf (dedupOrder store) o = objectNaming.label o :=
    ⟨fun h o _ ho => h o ho, fun h o ho => h o ho.1 ho⟩
  rw [keepsCanonicalNames_iff_owners, hlabels, hchain]
  constructor
  · intro h o ho b hb hnot k hk
    have hlink : objectNaming.chain b (k + 1) = o.name := by
      rw [chain_objectNaming_succ, hk]
    obtain ⟨j, hj, hfree⟩ := h o ho.1 ho b hb hnot (k + 1) hlink
    cases j with
    | zero => exact absurd (nameInUse_of_not_owner (mem_dedupOrder_of_mem_ahead hb) hnot) hfree
    | succ j =>
      rw [chain_objectNaming_succ] at hfree
      exact ⟨j, by omega, hfree⟩
  · intro h o _ ho b hb hnot k hk
    cases k with
    | zero => exact absurd hk (ho.2 b hb)
    | succ k =>
      rw [chain_objectNaming_succ] at hk
      obtain ⟨j, hj, hfree⟩ := h o ho b hb hnot k hk.symm
      refine ⟨j + 1, by omega, ?_⟩
      rw [chain_objectNaming_succ]
      exact hfree

/-- A function mirrored at `0x2000`, and one whose own name ends in that address. -/
def mirroredStore : AnnotationStore where
  schemaVersion := 1
  romId := "33520003"
  romSha256 := ""
  functions := [{ name := "can_rx", entryPoint := 0x1000 },
    { name := "can_rx", entryPoint := 0x2000 },
    { name := "can_rx_2000", entryPoint := 0x3000 }]

/-- The mirror takes the name of the third function, which no other entry had. -/
theorem mirrored_takes_owner_name :
    storeNames (dedupSymbolNames mirroredStore).1 =
        ["can_rx", "can_rx_2000", "can_rx_2000_3000"] ∧
      ¬ KeepsCanonicalNames mirroredStore := by
  refine ⟨by decide +kernel, by decide +kernel⟩

end RomAnalyzer.Cleanup
