import RomAnalyzer.Callgraph.Anchors

/-!
# The MUT table

`get_mut_pointer` reads two flash words: the size of the table, in the
configuration area, and its first entry, a RAM pointer. The result stands only if
each of the two roles has exactly one candidate.
-/
namespace RomAnalyzer.MutTable

open Lib
open Callgraph (byteAt findMutTableByTriplet)
open Ghidra (HeadlessRun)

/-- scalars / config region ceiling -/
def sizeAddrMax : Nat := 0x20000
def ramPtrLo : Nat := 0x00800000
/-- exclusive -/
def ramPtrHi : Nat := 0x00C00000
def sizeMin : Nat := 50
def sizeMax : Nat := 2000

structure MutTableResult where
  tableAddress : Nat
  tableSize : Nat
  sizeAddress : Nat
  /-- the scan for the byte triplet found another table -/
  tripletMismatch : Bool := false
  deriving DecidableEq, Repr

/-- `struct.unpack_from(">H", rom_bytes, addr)` -/
def unpackU16 (romBytes : Bytes) (addr : Nat) : Nat :=
  byteAt romBytes addr * 0x100 + byteAt romBytes (addr + 1)

/-- `struct.unpack_from(">I", rom_bytes, addr)` -/
def unpackU32 (romBytes : Bytes) (addr : Nat) : Nat :=
  unpackU16 romBytes addr * 0x10000 + unpackU16 romBytes (addr + 2)

/-- The table size a reference in the configuration area may point at. -/
def sizeCandidate (romBytes : Bytes) (r : DataRef) : Option (DataRef × Nat) :=
  let addr := r.referencedAddress
  if addr < sizeAddrMax ∧ addr + 2 ≤ romBytes.length then
    let val := unpackU16 romBytes addr
    if sizeMin ≤ val ∧ val ≤ sizeMax then some (r, val) else none
  else none

/-- A reference beyond that area at a RAM pointer. -/
def isTableCandidate (romBytes : Bytes) (r : DataRef) : Bool :=
  let addr := r.referencedAddress
  sizeAddrMax ≤ addr ∧ addr + 4 ≤ romBytes.length ∧
    ramPtrLo ≤ unpackU32 romBytes addr ∧ unpackU32 romBytes addr < ramPtrHi

def findMutTableInRun (ms : List MatchedFunction) (newRun : HeadlessRun) (romBytes : Bytes) :
    Option MutTableResult :=
  match ms.find? fun m => m.refName = "get_mut_pointer" with
  | none => none
  | some gmp =>
    let readRefs := (newRun.dataRefs.getD gmp.newAddress []).filter fun r => r.refType = .read
    match readRefs.filterMap (sizeCandidate romBytes),
      readRefs.filter (isTableCandidate romBytes) with
    | [(sizeRef, tableSize)], [tableRef] =>
      let mismatch :=
        match findMutTableByTriplet romBytes with
        | none => false
        | some tripletAddr => tripletAddr ≠ tableRef.referencedAddress
      some ⟨tableRef.referencedAddress, tableSize, sizeRef.referencedAddress, mismatch⟩
    | _, _ => none

def mutTableName : String := "flash_mut_variables_table"

def mutTableToPropagatedSymbol (result : MutTableResult) (refTableAddr : Nat) :
    PropagatedSymbol where
  name := mutTableName
  refAddress := refTableAddr
  newAddress := result.tableAddress
  category := .data
  confidence := .high
  source := "mut_table_data_refs"
  score := 1

/-- The table lies in the ROM, beyond the configuration area that holds its size. -/
theorem findMutTableInRun_spec {ms : List MatchedFunction} {newRun : HeadlessRun}
    {romBytes : Bytes} {r : MutTableResult} (h : findMutTableInRun ms newRun romBytes = some r) :
    sizeAddrMax ≤ r.tableAddress ∧ r.tableAddress + 4 ≤ romBytes.length ∧
      r.sizeAddress < sizeAddrMax ∧ sizeMin ≤ r.tableSize ∧ r.tableSize ≤ sizeMax := by
  unfold findMutTableInRun at h
  split at h
  · cases h
  dsimp only at h
  split at h
  · rename_i sizeRef tableSize tableRef hsizes htables
    obtain rfl := Option.some.inj h
    have hsize : (sizeRef, tableSize) ∈ _ := hsizes ▸ List.mem_singleton_self _
    have htable : tableRef ∈ _ := htables ▸ List.mem_singleton_self _
    obtain ⟨s, _, hs⟩ := List.mem_filterMap.mp hsize
    obtain ⟨hlo, hhi, _⟩ := of_decide_eq_true (List.mem_filter.mp htable).2
    unfold sizeCandidate at hs
    dsimp only at hs
    split at hs
    · rename_i haddr
      split at hs
      · rename_i hval
        obtain ⟨rfl, rfl⟩ := Prod.mk.inj (Option.some.inj hs)
        exact ⟨hlo, hhi, haddr.1, hval.1, hval.2⟩
      · cases hs
    · cases hs
  · cases h

end RomAnalyzer.MutTable
