import RomAnalyzer.MutTable

/-!
# The MUT table from the addresses read

The two roles have one candidate each among the references, not among the addresses. A
candidate that two instructions read is none.
-/
namespace RomAnalyzer.MutTable

open Lib
open Callgraph (byteAt findMutTableByTriplet)
open Ghidra (HeadlessRun)

/-! ### What the addresses say -/

/-- A word in the configuration area that may be the size of the table. -/
def IsSizeAddress (romBytes : Bytes) (addr : Nat) : Prop :=
  addr < sizeAddrMax ∧ addr + 2 ≤ romBytes.length ∧
    sizeMin ≤ unpackU16 romBytes addr ∧ unpackU16 romBytes addr ≤ sizeMax

/-- A RAM pointer beyond that area. -/
def IsTableAddress (romBytes : Bytes) (addr : Nat) : Prop :=
  sizeAddrMax ≤ addr ∧ addr + 4 ≤ romBytes.length ∧
    ramPtrLo ≤ unpackU32 romBytes addr ∧ unpackU32 romBytes addr < ramPtrHi

instance (romBytes : Bytes) : DecidablePred (IsSizeAddress romBytes) :=
  fun _ => inferInstanceAs (Decidable (_ ∧ _))

instance (romBytes : Bytes) : DecidablePred (IsTableAddress romBytes) :=
  fun _ => inferInstanceAs (Decidable (_ ∧ _))

/-- The result for the two addresses. -/
def tableResult (romBytes : Bytes) (sizeAddr tableAddr : Nat) : MutTableResult where
  tableAddress := tableAddr
  tableSize := unpackU16 romBytes sizeAddr
  sizeAddress := sizeAddr
  tripletMismatch :=
    match findMutTableByTriplet romBytes with
    | none => false
    | some tripletAddr => tripletAddr ≠ tableAddr

/-- The result for a set of addresses: there is one if each role has one of them. -/
def tableOfAddresses (romBytes : Bytes) (addrs : Finset Nat) : Option MutTableResult :=
  match (addrs.filter (IsSizeAddress romBytes)).sort (· ≤ ·),
    (addrs.filter (IsTableAddress romBytes)).sort (· ≤ ·) with
  | [sizeAddr], [tableAddr] => some (tableResult romBytes sizeAddr tableAddr)
  | _, _ => none

section Reads

variable (ms : List MatchedFunction) (newRun : HeadlessRun) (romBytes : Bytes)

/-- The addresses that `get_mut_pointer` reads, one for each reference. -/
def readAddresses : List Nat :=
  match ms.find? fun m => m.refName = "get_mut_pointer" with
  | none => []
  | some gmp => ((newRun.dataRefs.getD gmp.newAddress []).filter fun r =>
      r.refType = .read).map DataRef.referencedAddress

/-- The result depends on the set of addresses read. -/
def DependsOnAddresses : Prop :=
  findMutTableInRun ms newRun romBytes =
    tableOfAddresses romBytes (readAddresses ms newRun).toFinset

end Reads

/-! ### One reference and one address -/

/-- A list holds one element of a kind, once. -/
theorem filter_eq_singleton_iff {α : Type*} [DecidableEq α] (xs : List α) (p : α → Prop)
    [DecidablePred p] (a : α) :
    (xs.filter fun x => p x) = [a] ↔ xs.toFinset.filter p = {a} ∧ xs.count a = 1 := by
  have hset : xs.toFinset.filter p = (xs.filter fun x => p x).toFinset := by
    simp [List.toFinset_filter]
  rw [hset]
  constructor
  · intro h
    have ha : p a := by
      have hmem : a ∈ xs.filter fun x => p x := h ▸ List.mem_singleton_self a
      exact of_decide_eq_true (List.mem_filter.mp hmem).2
    have hcount : (xs.filter fun x => p x).count a = xs.count a :=
      List.count_filter (decide_eq_true ha)
    rw [h]
    refine ⟨rfl, ?_⟩
    rw [← hcount, h, List.count_singleton_self]
  · intro h
    obtain ⟨hone, hcount⟩ := h
    have hall : ∀ x ∈ xs.filter fun x => p x, x = a := by
      intro x hx
      rw [← List.mem_toFinset, hone] at hx
      exact Finset.mem_singleton.mp hx
    have hmem : a ∈ xs.filter fun x => p x := by
      rw [← List.mem_toFinset, hone]
      exact Finset.mem_singleton_self a
    have ha : p a := of_decide_eq_true (List.mem_filter.mp hmem).2
    have hrepeat := List.eq_replicate_of_mem hall
    have hlength : (xs.filter fun x => p x).length = 1 := by
      have hfiltered : (xs.filter fun x => p x).count a = xs.count a :=
        List.count_filter (decide_eq_true ha)
      rw [hrepeat, List.count_replicate_self, hcount] at hfiltered
      exact hfiltered
    rw [hrepeat, hlength]
    rfl

theorem sort_eq_singleton_iff (addrs : Finset Nat) (a : Nat) :
    addrs.sort (· ≤ ·) = [a] ↔ addrs = {a} := by
  constructor
  · intro h
    rw [← Finset.sort_toFinset addrs (· ≤ ·), h]
    rfl
  · intro h
    rw [h, Finset.sort_singleton]

section Roles

variable (romBytes : Bytes)

theorem sizeCandidate_eq (r : DataRef) :
    sizeCandidate romBytes r =
      if IsSizeAddress romBytes r.referencedAddress then
        some (r, unpackU16 romBytes r.referencedAddress)
      else none := by
  by_cases hsize : IsSizeAddress romBytes r.referencedAddress
  · rw [if_pos hsize]
    obtain ⟨hlt, hfits, hval⟩ := hsize
    rw [sizeCandidate, if_pos ⟨hlt, hfits⟩, if_pos hval]
  · rw [if_neg hsize]
    unfold sizeCandidate
    dsimp only
    split
    · rename_i haddr
      rw [if_neg fun hval => hsize ⟨haddr.1, haddr.2, hval⟩]
    · rfl

/-- The candidates for the size, by their addresses. -/
theorem map_sizeCandidate (refs : List DataRef) :
    (refs.filterMap (sizeCandidate romBytes)).map (fun c => c.1.referencedAddress) =
        (refs.map DataRef.referencedAddress).filter (fun a => IsSizeAddress romBytes a) ∧
      ∀ c ∈ refs.filterMap (sizeCandidate romBytes),
        c.2 = unpackU16 romBytes c.1.referencedAddress := by
  induction refs with
  | nil => exact ⟨rfl, by simp⟩
  | cons r refs ih =>
    obtain ⟨haddrs, hvals⟩ := ih
    rw [List.filterMap_cons, sizeCandidate_eq, List.map_cons, List.filter_cons]
    by_cases hsize : IsSizeAddress romBytes r.referencedAddress
    · rw [if_pos hsize, if_pos (decide_eq_true hsize)]
      refine ⟨congrArg (List.cons r.referencedAddress) haddrs, ?_⟩
      intro c hc
      rcases List.mem_cons.mp hc with rfl | hc
      · rfl
      · exact hvals c hc
    · rw [if_neg hsize, if_neg fun h => hsize (of_decide_eq_true h)]
      exact ⟨haddrs, hvals⟩

/-- The candidates for the table, by their addresses. -/
theorem map_isTableCandidate (refs : List DataRef) :
    (refs.filter (isTableCandidate romBytes)).map DataRef.referencedAddress =
      (refs.map DataRef.referencedAddress).filter (fun a => IsTableAddress romBytes a) := by
  rw [List.filter_map]
  rfl

/-- What is found is made of the addresses of the references, one by one. -/
theorem findMutTableInRun_eq_some_iff (ms : List MatchedFunction) (newRun : HeadlessRun)
    (result : MutTableResult) :
    findMutTableInRun ms newRun romBytes = some result ↔
      ∃ sizeAddr tableAddr,
        (readAddresses ms newRun).filter (fun a => IsSizeAddress romBytes a) = [sizeAddr] ∧
        (readAddresses ms newRun).filter (fun a => IsTableAddress romBytes a) = [tableAddr] ∧
        result = tableResult romBytes sizeAddr tableAddr := by
  unfold findMutTableInRun readAddresses
  cases ms.find? fun m => m.refName = "get_mut_pointer" with
  | none => simp
  | some gmp =>
    dsimp only
    generalize (newRun.dataRefs.getD gmp.newAddress []).filter (fun r => r.refType = .read) = refs
    obtain ⟨hsizes, hvals⟩ := map_sizeCandidate romBytes refs
    have htables := map_isTableCandidate romBytes refs
    rw [← hsizes, ← htables]
    constructor
    · intro h
      split at h
      · rename_i sizeRef tableSize tableRef hs ht
        refine ⟨sizeRef.referencedAddress, tableRef.referencedAddress, ?_, ?_, ?_⟩
        · rw [hs]
          rfl
        · rw [ht]
          rfl
        · obtain rfl : tableSize = unpackU16 romBytes sizeRef.referencedAddress :=
            hvals (sizeRef, tableSize) (hs ▸ List.mem_singleton_self _)
          exact (Option.some.inj h).symm
      · cases h
    · intro h
      obtain ⟨sizeAddr, tableAddr, hs, ht, rfl⟩ := h
      obtain ⟨⟨sizeRef, tableSize⟩, hsplit, rfl⟩ := List.map_eq_singleton_iff.mp hs
      obtain ⟨tableRef, htable, rfl⟩ := List.map_eq_singleton_iff.mp ht
      have hsize : tableSize = unpackU16 romBytes sizeRef.referencedAddress :=
        hvals (sizeRef, tableSize) (hsplit ▸ List.mem_singleton_self _)
      rw [hsplit, htable, hsize]
      rfl

theorem tableOfAddresses_eq_some_iff (addrs : Finset Nat) (result : MutTableResult) :
    tableOfAddresses romBytes addrs = some result ↔
      ∃ sizeAddr tableAddr, addrs.filter (IsSizeAddress romBytes) = {sizeAddr} ∧
        addrs.filter (IsTableAddress romBytes) = {tableAddr} ∧
        result = tableResult romBytes sizeAddr tableAddr := by
  unfold tableOfAddresses
  constructor
  · intro h
    split at h
    · rename_i sizeAddr tableAddr hs ht
      exact ⟨sizeAddr, tableAddr, (sort_eq_singleton_iff _ _).mp hs,
        (sort_eq_singleton_iff _ _).mp ht, (Option.some.inj h).symm⟩
    · cases h
  · intro h
    obtain ⟨sizeAddr, tableAddr, hs, ht, rfl⟩ := h
    rw [(sort_eq_singleton_iff _ _).mpr hs, (sort_eq_singleton_iff _ _).mpr ht]

end Roles

/-- The result depends on the set of addresses read exactly when, if each role has one
address in it, each of the two is read by one reference. -/
theorem dependsOnAddresses_iff (ms : List MatchedFunction) (newRun : HeadlessRun)
    (romBytes : Bytes) :
    DependsOnAddresses ms newRun romBytes ↔
      ∀ sizeAddr tableAddr,
        (readAddresses ms newRun).toFinset.filter (IsSizeAddress romBytes) = {sizeAddr} →
        (readAddresses ms newRun).toFinset.filter (IsTableAddress romBytes) = {tableAddr} →
        (readAddresses ms newRun).count sizeAddr = 1 ∧
          (readAddresses ms newRun).count tableAddr = 1 := by
  unfold DependsOnAddresses
  constructor
  · intro h sizeAddr tableAddr hsize htable
    have hset := (tableOfAddresses_eq_some_iff romBytes _ _).mpr
      ⟨sizeAddr, tableAddr, hsize, htable, rfl⟩
    rw [← h] at hset
    obtain ⟨s, t, hs, ht, _⟩ := (findMutTableInRun_eq_some_iff romBytes ms newRun _).mp hset
    obtain ⟨hs', hcountSize⟩ := (filter_eq_singleton_iff _ _ _).mp hs
    obtain ⟨ht', hcountTable⟩ := (filter_eq_singleton_iff _ _ _).mp ht
    rw [Finset.singleton_inj.mp (hs'.symm.trans hsize)] at hcountSize
    rw [Finset.singleton_inj.mp (ht'.symm.trans htable)] at hcountTable
    exact ⟨hcountSize, hcountTable⟩
  · intro h
    apply Option.ext
    intro result
    rw [findMutTableInRun_eq_some_iff, tableOfAddresses_eq_some_iff]
    constructor
    · intro hfound
      obtain ⟨s, t, hs, ht, hresult⟩ := hfound
      exact ⟨s, t, ((filter_eq_singleton_iff _ _ _).mp hs).1,
        ((filter_eq_singleton_iff _ _ _).mp ht).1, hresult⟩
    · intro hset
      obtain ⟨s, t, hs, ht, hresult⟩ := hset
      obtain ⟨hcountSize, hcountTable⟩ := h s t hs ht
      exact ⟨s, t, (filter_eq_singleton_iff _ _ _).mpr ⟨hs, hcountSize⟩,
        (filter_eq_singleton_iff _ _ _).mpr ⟨ht, hcountTable⟩, hresult⟩

section TwoReads

/-- A size word at the start, a RAM pointer behind the configuration area. -/
def tableRom : Bytes :=
  [0x01, 0x00] ++ List.replicate 0x1FFFE 0 ++ [0x00, 0x80, 0x4D, 0x5E]

def getMutPointer : MatchedFunction where
  refName := "get_mut_pointer"
  refAddress := 0x5000
  newAddress := 0x5000
  similarity := 1
  source := "vt_diff"

/-- The size is read by two instructions. -/
def twoReadsRun : HeadlessRun where
  dataRefs := Dict.ofList [(0x5000, [⟨0, 0, none, .read⟩, ⟨4, 0x20000, none, .read⟩,
    ⟨8, 0, none, .read⟩])]

theorem readAddresses_twoReads : readAddresses [getMutPointer] twoReadsRun = [0, 0x20000, 0] := by
  decide

theorem unpackU16_of_bytes {romBytes : Bytes} {pos high low : Nat}
    (hhigh : byteAt romBytes pos = high) (hlow : byteAt romBytes (pos + 1) = low) :
    unpackU16 romBytes pos = high * 0x100 + low := by
  rw [unpackU16, hhigh, hlow]

theorem unpackU32_of_words {romBytes : Bytes} {pos high low : Nat}
    (hhigh : unpackU16 romBytes pos = high) (hlow : unpackU16 romBytes (pos + 2) = low) :
    unpackU32 romBytes pos = high * 0x10000 + low := by
  rw [unpackU32, hhigh, hlow]

theorem unpack_tableRom :
    unpackU16 tableRom 0 = 0x100 ∧ unpackU32 tableRom 0x20000 = 0x804D5E ∧
      tableRom.length = 0x20004 := by
  have hlength : ([0x01, 0x00] ++ List.replicate 0x1FFFE (0 : UInt8)).length = 0x20000 := by
    rw [List.length_append, List.length_replicate]
    rfl
  have hhead : ∀ i < 2, byteAt tableRom i = byteAt [0x01, 0x00] i := by
    intro i hi
    rw [byteAt, tableRom, List.append_assoc, List.getD_append _ _ _ _ hi]
    rfl
  have htail : ∀ i, byteAt tableRom (0x20000 + i) = byteAt [0x00, 0x80, 0x4D, 0x5E] i := by
    intro i
    rw [byteAt, tableRom, List.getD_append_right _ _ _ _ (by omega), hlength, Nat.add_sub_cancel_left]
    rfl
  refine ⟨?_, ?_, ?_⟩
  · exact unpackU16_of_bytes (hhead 0 (by omega)) (hhead (0 + 1) (by omega))
  · exact unpackU32_of_words (unpackU16_of_bytes (htail 0) (htail 1))
      (unpackU16_of_bytes (htail 2) (htail 3))
  · rw [tableRom, List.length_append, hlength]
    rfl

/-- With the size read twice nothing is found, though one address has each role. -/
theorem sizeReadTwice_not_found :
    findMutTableInRun [getMutPointer] twoReadsRun tableRom = none ∧
      ¬ DependsOnAddresses [getMutPointer] twoReadsRun tableRom := by
  obtain ⟨hsizeWord, htableWord, hlength⟩ := unpack_tableRom
  have hsize : IsSizeAddress tableRom 0 := by
    rw [IsSizeAddress, hsizeWord, hlength]
    decide
  have htable : IsTableAddress tableRom 0x20000 := by
    rw [IsTableAddress, htableWord, hlength]
    decide
  have hnotSize : ¬ IsSizeAddress tableRom 0x20000 := fun h => absurd h.1 (by decide)
  have hnotTable : ¬ IsTableAddress tableRom 0 := fun h => absurd h.1 (by decide)
  have hnone : findMutTableInRun [getMutPointer] twoReadsRun tableRom = none := by
    apply Option.eq_none_iff_forall_ne_some.mpr
    intro result h
    obtain ⟨s, _, hs, _⟩ := (findMutTableInRun_eq_some_iff tableRom _ _ _).mp h
    rw [readAddresses_twoReads] at hs
    have htwice := congrArg List.length hs
    simp [hsize, hnotSize] at htwice
  refine ⟨hnone, ?_⟩
  intro h
  have hset : tableOfAddresses tableRom {0, 0x20000} = some (tableResult tableRom 0 0x20000) := by
    apply (tableOfAddresses_eq_some_iff tableRom _ _).mpr
    refine ⟨0, 0x20000, ?_, ?_, rfl⟩
    · simp [Finset.filter_insert, Finset.filter_singleton, hsize, hnotSize]
    · simp [Finset.filter_insert, Finset.filter_singleton, htable, hnotTable]
  have haddrs : (readAddresses [getMutPointer] twoReadsRun).toFinset = {0, 0x20000} := by
    rw [readAddresses_twoReads]
    decide
  rw [DependsOnAddresses, hnone, haddrs, hset] at h
  cases h

end TwoReads

end RomAnalyzer.MutTable
