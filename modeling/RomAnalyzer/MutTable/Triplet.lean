import RomAnalyzer.Lib.Scan
import RomAnalyzer.MutTable

/-!
# The byte triplet of the MUT table

The search compares bytes, so the three pointers it accepts lie in one page of 256 bytes
and wrap around inside it.
-/
namespace RomAnalyzer.MutTable

open Lib
open Callgraph (byteAt findMutTableByTriplet isMutTriplet)

/-- The pointer `k` bytes on, within the page of 256 bytes. -/
def inPage (p k : Nat) : Nat := p / 0x100 * 0x100 + (p + k) % 0x100

/-- A pointer to 0x8000 and up is followed by the pointers one and three bytes on, as
`next` counts them. -/
structure TripletAt (next : Nat → Nat → Nat) (romBytes : Bytes) (addr : Nat) : Prop where
  lower : 0x00800000 ≤ unpackU32 romBytes addr
  upper : unpackU32 romBytes addr ≤ 0x0080FFFF
  second : unpackU32 romBytes (addr + 4) = next (unpackU32 romBytes addr) 1
  third : unpackU32 romBytes (addr + 8) = next (unpackU32 romBytes addr) 3

/-- The base of a table with the triplet in its rows 0x80 to 0x82. -/
structure TripletBase (next : Nat → Nat → Nat) (romBytes : Bytes) (base : Nat) : Prop where
  aligned : base % 4 = 0
  fits : base + 0x20C ≤ romBytes.length
  triplet : TripletAt next romBytes (base + 0x200)

theorem byteAt_lt (romBytes : Bytes) (i : Nat) : byteAt romBytes i < 0x100 :=
  (romBytes.getD i 0).toNat_lt

/-- The bytes of the three words, one by one, say that they are a triplet of one page. -/
theorem isMutTriplet_iff (romBytes : Bytes) (addr : Nat) :
    isMutTriplet romBytes addr = true ↔ TripletAt inPage romBytes addr := by
  have hmask : ∀ n : Nat, n &&& 0xFF = n % 0x100 := fun n => Nat.and_two_pow_sub_one_eq_mod n 8
  have hlt := byteAt_lt romBytes
  have h0 := hlt addr
  have h1 := hlt (addr + 1)
  have h2 := hlt (addr + 2)
  have h3 := hlt (addr + 3)
  have h4 := hlt (addr + 4)
  have h5 := hlt (addr + 5)
  have h6 := hlt (addr + 6)
  have h7 := hlt (addr + 7)
  have h8 := hlt (addr + 8)
  have h9 := hlt (addr + 9)
  have h10 := hlt (addr + 10)
  have h11 := hlt (addr + 11)
  simp only [isMutTriplet, hmask, decide_eq_true_iff, Nat.add_zero]
  constructor
  · intro h
    constructor
    all_goals
      simp only [unpackU32, unpackU16, inPage, Nat.add_assoc, Nat.reduceAdd]
      omega
  · intro h
    obtain ⟨hlower, hupper, hsecond, hthird⟩ := h
    simp only [unpackU32, unpackU16, inPage, Nat.add_assoc, Nat.reduceAdd] at hlower hupper hsecond hthird
    omega

/-- The search stops at the least base that leaves 0x410 bytes. -/
theorem findMutTableByTriplet_eq_some_iff (romBytes : Bytes) (base : Nat) :
    findMutTableByTriplet romBytes = some base ↔
      IsLeast {b | TripletBase inPage romBytes b ∧ b + 0x410 < romBytes.length} base := by
  have hscan : ∀ candidate, candidate ∈ range4 0 (romBytes.length - 0x210) ∧
      decide (0x200 ≤ candidate ∧ isMutTriplet romBytes candidate = true) = true ↔
        ∃ b, candidate = b + 0x200 ∧ TripletBase inPage romBytes b ∧
          b + 0x410 < romBytes.length := by
    intro candidate
    rw [mem_range4, decide_eq_true_iff, isMutTriplet_iff]
    constructor
    · intro h
      obtain ⟨⟨_, hlt, haligned⟩, hle, htriplet⟩ := h
      refine ⟨candidate - 0x200, by omega, ⟨by omega, by omega, ?_⟩, by omega⟩
      rw [Nat.sub_add_cancel hle]
      exact htriplet
    · intro h
      obtain ⟨b, rfl, hbase, hlt⟩ := h
      have haligned := hbase.aligned
      exact ⟨⟨by omega, by omega, by omega⟩, by omega, hbase.triplet⟩
  rw [findMutTableByTriplet, Option.map_eq_some_iff]
  simp only [find?_eq_some_iff_isLeast (range4_pairwise _ _), hscan]
  constructor
  · intro h
    obtain ⟨candidate, ⟨⟨b, rfl, hb⟩, hleast⟩, rfl⟩ := h
    rw [Nat.add_sub_cancel]
    refine ⟨hb, ?_⟩
    intro b' hb'
    have hle := hleast ⟨b', rfl, hb'⟩
    omega
  · intro h
    obtain ⟨hb, hleast⟩ := h
    refine ⟨base + 0x200, ⟨⟨base, rfl, hb⟩, ?_⟩, by omega⟩
    intro candidate hcandidate
    obtain ⟨b', rfl, hb'⟩ := hcandidate
    have hle := hleast hb'
    omega

/-- A base that is found is the least one of all; one is found where some base leaves 0x410
bytes. -/
theorem findMutTableByTriplet_correct (romBytes : Bytes) :
    (∀ base, findMutTableByTriplet romBytes = some base →
      IsLeast {b | TripletBase inPage romBytes b} base) ∧
    ∀ base, TripletBase inPage romBytes base → base + 0x410 < romBytes.length →
      ∃ found, findMutTableByTriplet romBytes = some found := by
  constructor
  · intro base hfind
    obtain ⟨⟨hbase, hroom⟩, hleast⟩ := (findMutTableByTriplet_eq_some_iff romBytes base).mp hfind
    refine ⟨hbase, ?_⟩
    intro b hb
    by_contra hlt
    exact hlt (hleast ⟨hb, by omega⟩)
  · intro base hbase hroom
    have hne : ∃ b, TripletBase inPage romBytes b ∧ b + 0x410 < romBytes.length :=
      ⟨base, hbase, hroom⟩
    classical
    refine ⟨Nat.find hne, (findMutTableByTriplet_eq_some_iff romBytes _).mpr ?_⟩
    exact ⟨Nat.find_spec hne, fun b hb => Nat.find_min' hne hb⟩

/-- The result is the least base of three consecutive pointers, and there is one when
there is such a base. -/
def FindsConsecutive (romBytes : Bytes) : Prop :=
  ∀ base, findMutTableByTriplet romBytes = some base ↔
    IsLeast {b | TripletBase (· + ·) romBytes b} base

/-- The pointers 0x8054FF, 0x805400 and 0x805402 at 0x200. -/
def wrappedRom : Bytes :=
  List.replicate 0x200 0 ++ [0x00, 0x80, 0x54, 0xFF, 0x00, 0x80, 0x54, 0x00, 0x00, 0x80, 0x54, 0x02] ++
    List.replicate 0x210 0

/-- Pointers that wrap around in their page are taken for consecutive ones. -/
theorem wrappedRom_not_consecutive : ¬ FindsConsecutive wrappedRom := by
  intro h
  have hfound : findMutTableByTriplet wrappedRom = some 0 := by decide +kernel
  have hsecond := ((h 0).mp hfound).1.triplet.second
  revert hsecond
  decide +kernel

end RomAnalyzer.MutTable
