import RomAnalyzer.Callgraph.Anchors
import RomAnalyzer.Lib.BestSoFar

/-!
# CAN slots

Each of the sixteen mailboxes has an identifier of eleven bits, kept in two byte tables.
The addresses of the tables are among the immediates of the function that checks them; the
pair is taken whose identifiers are known the most.
-/
namespace RomAnalyzer.CanSlots

open Lib
open Callgraph (byteAt)

/-- Names by identifier. -/
def canSidNames : Dict Nat String := Dict.ofList [
  (0x139, "apps_tps"), (0x13d, "rpm"), (0x14d, "dash_revolutions_odometer_coolant"),
  (0x152, "trip_computer"), (0x159, "engine_flaggy"), (0x210, "rpm_apps"),
  (0x312, "asc_torques"), (0x7e8, "obd_tool"), (0x7e0, "obd_tool"), (0x1b1, "engine_rx_1b1"),
  (0x231, "abs"), (0x2f1, "eps"), (0x300, "asc"), (0x443, "ac")]

structure CanSlot where
  slot : Nat
  sid : Nat
  semantic : Option String
  rxHandler : Option Nat := none
  txHandler : Option Nat := none
  deriving DecidableEq, Repr

section Decode

variable (romBytes : Bytes)

def slotSid (sid0Addr sid1Addr slot : Nat) : Nat :=
  ((byteAt romBytes (sid0Addr + slot) &&& 0x1F) <<< 6) |||
    (byteAt romBytes (sid1Addr + slot) &&& 0x3F)

/-- The slots end where one of the tables leaves the ROM. -/
def decodeCanSids (sid0Addr sid1Addr : Nat) (count : Nat := 16) : List (Nat × Nat) :=
  let slots := (List.range count).takeWhile fun slot =>
    ¬(romBytes.length ≤ sid0Addr + slot ∨ romBytes.length ≤ sid1Addr + slot)
  slots.map fun slot => (slot, slotSid romBytes sid0Addr sid1Addr slot)

def sidSemantic (sid : Nat) : Option String := canSidNames.get? sid

/-- `ld24 Rd, #imm24` -/
def ld24Immediate (off : Nat) : Option Nat :=
  if byteAt romBytes off &&& 0xF0 = 0xE0 then
    some (byteAt romBytes (off + 1) * 0x10000 + byteAt romBytes (off + 2) * 0x100 +
      byteAt romBytes (off + 3))
  else none

/-- The first place of an immediate in the ROM counts. -/
def addImmediate (imms : List Nat) (imm : Nat) : List Nat :=
  if imm < romBytes.length ∧ imm ∉ imms then imms ++ [imm] else imms

def findLd24Immediates (funcAddr : Nat) (window : Nat := 0x80) : List Nat :=
  let offs := range4 funcAddr (min (funcAddr + window) (romBytes.length - 3))
  (offs.filterMap (ld24Immediate romBytes)).foldl (addImmediate romBytes) []

/-- `_score_table_pair` -/
def scoreTablePair (count : Nat) (pair : Nat × Nat) : Nat :=
  (decodeCanSids romBytes pair.1 pair.2 count).countP fun d => (canSidNames.get? d.2).isSome

/-- `for a in imms: for b in imms` -/
def orderedPairs (imms : List Nat) : List (Nat × Nat) :=
  imms.flatMap fun a => imms.map fun b => (a, b)

/-- The pair and its score. -/
def locateSidTables (checkSidAddr : Nat) (count : Nat := 16) : Option (Nat × Nat) × Nat :=
  bestSoFar (fun pair => pair.1 ≠ pair.2) (scoreTablePair romBytes count)
    (orderedPairs (findLd24Immediates romBytes checkSidAddr))

def analyzeCanSlots (checkSidAddr : Nat) (slotHandlers : Dict Nat (Option Nat × Option Nat))
    (count : Nat := 16) : List CanSlot :=
  match (locateSidTables romBytes checkSidAddr count).1 with
  | none => []
  | some (sid0, sid1) =>
    (decodeCanSids romBytes sid0 sid1 count).map fun d =>
      let handlers := slotHandlers.getD d.1 (none, none)
      { slot := d.1
        sid := d.2
        semantic := sidSemantic d.2
        rxHandler := handlers.1
        txHandler := handlers.2 }

end Decode

inductive Direction
  | rx
  | tx
  deriving DecidableEq, Repr

def Direction.text : Direction → List Char
  | .rx => "rx".toList
  | .tx => "tx".toList

/-- The plain name when the identifier is not known. -/
def proposeHandlerName (slot : Nat) (semantic : Option String) (direction : Direction) : String :=
  let middle := match semantic with
    | some s => if s = "" then [] else s.toList ++ ['_']
    | none => []
  String.ofList ("can0_slot".toList ++ Nat.toDigits 10 slot ++ '_' :: middle ++ direction.text ++
    "_update".toList)

/-! ### The tables -/

section Tables

variable {romBytes : Bytes}

theorem foldl_addImmediate (found imms : List Nat) (h : imms.Nodup) :
    (found.foldl (addImmediate romBytes) imms).Nodup ∧
      ∀ imm, imm ∈ found.foldl (addImmediate romBytes) imms ↔
        imm ∈ imms ∨ imm ∈ found ∧ imm < romBytes.length := by
  induction found generalizing imms with
  | nil => exact ⟨h, fun imm => by simp⟩
  | cons x found ih =>
    rw [List.foldl_cons]
    by_cases hnew : x < romBytes.length ∧ x ∉ imms
    · have hadd : addImmediate romBytes imms x = imms ++ [x] := if_pos hnew
      have hnodup : (imms ++ [x]).Nodup :=
        List.nodup_append.mpr ⟨h, List.nodup_singleton x, fun a ha b hb =>
          fun he => hnew.2 (List.mem_singleton.mp hb ▸ he ▸ ha)⟩
      rw [hadd]
      refine ⟨(ih _ hnodup).1, fun imm => ?_⟩
      rw [(ih _ hnodup).2, List.mem_append, List.mem_singleton, List.mem_cons]
      constructor
      · rintro ((hmem | rfl) | hmem)
        · exact Or.inl hmem
        · exact Or.inr ⟨Or.inl rfl, hnew.1⟩
        · exact Or.inr ⟨Or.inr hmem.1, hmem.2⟩
      · rintro (hmem | ⟨rfl | hmem, hlt⟩)
        · exact Or.inl (Or.inl hmem)
        · exact Or.inl (Or.inr rfl)
        · exact Or.inr ⟨hmem, hlt⟩
    · have hskip : addImmediate romBytes imms x = imms := if_neg hnew
      rw [hskip]
      refine ⟨(ih _ h).1, fun imm => ?_⟩
      rw [(ih _ h).2, List.mem_cons]
      constructor
      · rintro (hmem | hmem)
        · exact Or.inl hmem
        · exact Or.inr ⟨Or.inr hmem.1, hmem.2⟩
      · rintro (hmem | ⟨rfl | hmem, hlt⟩)
        · exact Or.inl hmem
        · left
          by_contra hout
          exact hnew ⟨hlt, hout⟩
        · exact Or.inr ⟨hmem, hlt⟩

/-- Some `ld24` of the window of the function loads the address, and it lies in the ROM. -/
def LoadsAddress (romBytes : Bytes) (funcAddr window imm : Nat) : Prop :=
  imm < romBytes.length ∧ ∃ off, funcAddr ≤ off ∧ off < funcAddr + window ∧
    off + 3 < romBytes.length ∧ (off - funcAddr) % 4 = 0 ∧ ld24Immediate romBytes off = some imm

theorem mem_findLd24Immediates {funcAddr window imm : Nat} :
    imm ∈ findLd24Immediates romBytes funcAddr window ↔
      LoadsAddress romBytes funcAddr window imm := by
  unfold findLd24Immediates LoadsAddress
  simp only [(foldl_addImmediate _ [] List.nodup_nil).2, List.not_mem_nil, false_or,
    List.mem_filterMap, mem_range4, lt_min_iff]
  constructor
  · rintro ⟨⟨off, ⟨hstart, ⟨hwindow, hrom⟩, hword⟩, himm⟩, hlt⟩
    exact ⟨hlt, off, hstart, hwindow, by omega, by omega, himm⟩
  · rintro ⟨hlt, off, hstart, hwindow, hrom, hword, himm⟩
    exact ⟨⟨off, ⟨hstart, ⟨hwindow, by omega⟩, by omega⟩, himm⟩, hlt⟩

theorem mem_orderedPairs {imms : List Nat} {a b : Nat} :
    (a, b) ∈ orderedPairs imms ↔ a ∈ imms ∧ b ∈ imms := by
  simp [orderedPairs]

/-- The place of a slot in both tables lies in the ROM. -/
def InTables (romBytes : Bytes) (sid0Addr sid1Addr slot : Nat) : Prop :=
  sid0Addr + slot < romBytes.length ∧ sid1Addr + slot < romBytes.length

instance (sid0Addr sid1Addr : Nat) : DecidablePred (InTables romBytes sid0Addr sid1Addr) :=
  fun _ => inferInstanceAs (Decidable (_ ∧ _))

theorem decodeCanSids_eq (sid0Addr sid1Addr count : Nat) :
    decodeCanSids romBytes sid0Addr sid1Addr count =
      ((List.range count).filter fun slot => InTables romBytes sid0Addr sid1Addr slot).map
        fun slot => (slot, slotSid romBytes sid0Addr sid1Addr slot) := by
  have hinside : ∀ slot, (¬(romBytes.length ≤ sid0Addr + slot ∨
      romBytes.length ≤ sid1Addr + slot)) ↔ InTables romBytes sid0Addr sid1Addr slot := by
    intro slot
    unfold InTables
    omega
  unfold decodeCanSids
  simp only [hinside]
  rw [takeWhile_eq_filter]
  apply List.pairwise_lt_range.imp
  intro slot slot' hlt h
  rw [decide_eq_true_iff] at h ⊢
  unfold InTables at h ⊢
  omega

/-- Five bits of the one table and six of the other. -/
theorem slotSid_eq (sid0Addr sid1Addr slot : Nat) :
    slotSid romBytes sid0Addr sid1Addr slot =
      byteAt romBytes (sid0Addr + slot) % 32 * 64 + byteAt romBytes (sid1Addr + slot) % 64 := by
  have hhigh : byteAt romBytes (sid0Addr + slot) &&& 0x1F =
      byteAt romBytes (sid0Addr + slot) % 32 := Nat.and_two_pow_sub_one_eq_mod _ 5
  have hlow : byteAt romBytes (sid1Addr + slot) &&& 0x3F =
      byteAt romBytes (sid1Addr + slot) % 64 := Nat.and_two_pow_sub_one_eq_mod _ 6
  have hlt : byteAt romBytes (sid1Addr + slot) % 64 < 2 ^ 6 := Nat.mod_lt _ (by decide)
  rw [slotSid, hhigh, hlow, ← Nat.shiftLeft_add_eq_or_of_lt hlt, Nat.shiftLeft_eq]

/-- The slots are read from the two tables: every place inside the ROM is decoded, in order. -/
structure DecodedFrom (romBytes : Bytes) (sid0Addr sid1Addr count : Nat)
    (slotHandlers : Dict Nat (Option Nat × Option Nat)) (slots : List CanSlot) : Prop where
  slots_eq : slots.map CanSlot.slot =
    (List.range count).filter fun slot => InTables romBytes sid0Addr sid1Addr slot
  sid : ∀ s ∈ slots, s.sid = byteAt romBytes (sid0Addr + s.slot) % 32 * 64 +
    byteAt romBytes (sid1Addr + s.slot) % 64
  semantic : ∀ s ∈ slots, s.semantic = canSidNames.get? s.sid
  handlers : ∀ s ∈ slots, (s.rxHandler, s.txHandler) = slotHandlers.getD s.slot (none, none)

/-- Two different addresses that the function loads. -/
def TablePair (romBytes : Bytes) (checkSidAddr : Nat) (pair : Nat × Nat) : Prop :=
  LoadsAddress romBytes checkSidAddr 0x80 pair.1 ∧ LoadsAddress romBytes checkSidAddr 0x80 pair.2 ∧
    pair.1 ≠ pair.2

/-- No pair of the loaded addresses decodes to a known identifier, and there are no slots; or
the slots are read from the pair that decodes to the most, the first such pair in the order
in which the function loads the addresses. -/
theorem analyzeCanSlots_decodes (romBytes : Bytes) (checkSidAddr : Nat)
    (slotHandlers : Dict Nat (Option Nat × Option Nat)) (count : Nat) :
    (analyzeCanSlots romBytes checkSidAddr slotHandlers count = [] ∧
      ∀ pair, TablePair romBytes checkSidAddr pair → scoreTablePair romBytes count pair = 0) ∨
    ∃ best, TablePair romBytes checkSidAddr best ∧
      FirstBest (fun pair => pair.1 ≠ pair.2) (scoreTablePair romBytes count)
        (orderedPairs (findLd24Immediates romBytes checkSidAddr)) best ∧
      (∀ pair, TablePair romBytes checkSidAddr pair →
        scoreTablePair romBytes count pair ≤ scoreTablePair romBytes count best) ∧
      DecodedFrom romBytes best.1 best.2 count slotHandlers
        (analyzeCanSlots romBytes checkSidAddr slotHandlers count) := by
  have hpairs : ∀ pair, pair ∈ orderedPairs (findLd24Immediates romBytes checkSidAddr) ∧
      pair.1 ≠ pair.2 ↔ TablePair romBytes checkSidAddr pair := by
    intro pair
    rw [TablePair, ← mem_findLd24Immediates, ← mem_findLd24Immediates, ← and_assoc]
    exact and_congr_left fun _ => mem_orderedPairs
  cases hlocate : (locateSidTables romBytes checkSidAddr count).1 with
  | none =>
    left
    constructor
    · unfold analyzeCanSlots
      rw [hlocate]
    · intro pair hpair
      obtain ⟨hmem, hne⟩ := (hpairs pair).mpr hpair
      exact bestSoFar_eq_none_iff.mp hlocate pair hmem hne
  | some best =>
    right
    obtain ⟨-, hfirst⟩ := firstBest_of_bestSoFar hlocate
    refine ⟨best, (hpairs best).mp ⟨hfirst.mem, hfirst.candidate⟩, hfirst, ?_, ?_⟩
    · intro pair hpair
      obtain ⟨hmem, hne⟩ := (hpairs pair).mpr hpair
      exact hfirst.le hmem hne
    · have hslots : analyzeCanSlots romBytes checkSidAddr slotHandlers count =
          (decodeCanSids romBytes best.1 best.2 count).map fun d =>
            { slot := d.1
              sid := d.2
              semantic := sidSemantic d.2
              rxHandler := (slotHandlers.getD d.1 (none, none)).1
              txHandler := (slotHandlers.getD d.1 (none, none)).2 } := by
        unfold analyzeCanSlots
        rw [hlocate]
      rw [hslots, decodeCanSids_eq, List.map_map]
      constructor
      · rw [List.map_map]
        exact List.map_id _
      · exact List.forall_mem_map.mpr fun slot _ => slotSid_eq best.1 best.2 slot
      · exact List.forall_mem_map.mpr fun _ _ => rfl
      · exact List.forall_mem_map.mpr fun _ _ => rfl

end Tables

end RomAnalyzer.CanSlots
