import RomAnalyzer.Lib.Runs
import RomAnalyzer.EmitLd

/-!
# Free flash by CRC band

A block is a maximal run of pad bytes with its end rounded down, and its band is
read off its first byte alone. `BandsKept` is what the bands are documented to
mean; it comes down to no long enough run crossing an edge of the CRC region.
-/
namespace RomAnalyzer.FlashSpace

open Lib

def isPad (padValue : Nat) (b : UInt8) : Bool := b.toNat = padValue

/-- `run_end & ~(alignment - 1)` -/
def alignDown (n alignment : Nat) : Nat := n.ldiff (alignment - 1)

/-- The band of a block, from its first address. -/
def classify (start : Nat) (crc : CrcRegion) : CrcBand :=
  if crc.partialStart ≤ start ∧ start < crc.partialEnd then .partialCrc
  else if crc.fullStart ≤ start ∧ start < crc.partialStart then .fullCrcOnly
  else .unprotected

/-- The inner loop: past the pad bytes from `i` on. -/
def runEnd (rom : Bytes) (padValue i : Nat) : Nat :=
  if h : i < rom.length then
    if isPad padValue rom[i] then runEnd rom padValue (i + 1) else i
  else i
termination_by rom.length - i

theorem le_runEnd (rom : Bytes) (padValue i : Nat) : i ≤ runEnd rom padValue i := by
  fun_induction runEnd rom padValue i <;> omega

theorem lt_runEnd {rom : Bytes} {padValue i : Nat} (h : i < rom.length)
    (hp : isPad padValue rom[i] = true) : i < runEnd rom padValue i := by
  rw [runEnd, dif_pos h, if_pos hp]
  exact le_runEnd rom padValue (i + 1)

/-- The block of a run, unless rounding leaves it too short. -/
def freeBlock (crc : CrcRegion) (minLength alignment : Nat) (run : Nat × Nat) :
    Option FlashFreeBlock :=
  let alignedEnd := alignDown run.2 alignment
  -- the source compares the signed length, which may be negative
  if (alignedEnd : Int) - run.1 < minLength then none
  else some {
    band := classify run.1 crc
    start := run.1
    end_ := alignedEnd
    length := alignedEnd - run.1 }

/-- The outer loop, from index `i` on. -/
def scanFrom (rom : Bytes) (crc : CrcRegion) (minLength alignment padValue i : Nat) :
    List FlashFreeBlock :=
  if h : i < rom.length then
    if hp : isPad padValue rom[i] = true then
      match freeBlock crc minLength alignment (i, runEnd rom padValue i) with
      | none => scanFrom rom crc minLength alignment padValue (runEnd rom padValue i)
      | some b => b :: scanFrom rom crc minLength alignment padValue (runEnd rom padValue i)
    else scanFrom rom crc minLength alignment padValue (i + 1)
  else []
termination_by rom.length - i
decreasing_by
  all_goals first
    | (have hlt := lt_runEnd h hp; omega)
    | omega

def findFreeBlocks (rom : Bytes) (crc : CrcRegion) (minLength : Nat := 64)
    (alignment : Nat := 16) (padValue : Nat := 0xFF) : List FlashFreeBlock :=
  scanFrom rom crc minLength alignment padValue 0

/-! ### The scan finds the maximal runs -/

theorem runEnd_eq (rom : Bytes) (padValue i : Nat) :
    runEnd rom padValue i = i + runLength (isPad padValue) (rom.drop i) := by
  fun_induction runEnd rom padValue i with
  | case1 i h hp ih =>
    rw [ih, List.drop_eq_getElem_cons h]
    simp only [runLength, List.takeWhile_cons, hp, ↓reduceIte, List.length_cons]
    omega
  | case2 i h hp =>
    rw [List.drop_eq_getElem_cons h]
    simp [runLength, hp]
  | case3 i h =>
    rw [List.drop_eq_nil_of_le (by omega)]
    simp [runLength]

theorem scanFrom_eq_runs (rom : Bytes) (crc : CrcRegion)
    (minLength alignment padValue i : Nat) :
    scanFrom rom crc minLength alignment padValue i =
      (runs (isPad padValue) i (rom.drop i)).filterMap (freeBlock crc minLength alignment) := by
  fun_induction scanFrom rom crc minLength alignment padValue i with
  | case1 i h hp hnone ih =>
    rw [ih, runs_drop_of_pos h hp, ← runEnd_eq, List.filterMap_cons, hnone]
  | case2 i h hp b hsome ih =>
    rw [ih, runs_drop_of_pos h hp, ← runEnd_eq, List.filterMap_cons, hsome]
  | case3 i h hp ih =>
    rw [ih, runs_drop_of_neg h hp]
  | case4 i h =>
    rw [List.drop_eq_nil_of_le (by omega), runs]
    rfl

/-- The free blocks are the maximal runs of pad bytes that stay long enough. -/
theorem mem_findFreeBlocks {rom : Bytes} {crc : CrcRegion}
    {minLength alignment padValue : Nat} {b : FlashFreeBlock} :
    b ∈ findFreeBlocks rom crc minLength alignment padValue ↔
      ∃ s e, MaximalRun (isPad padValue) rom s e ∧
        freeBlock crc minLength alignment (s, e) = some b := by
  have hscan := scanFrom_eq_runs rom crc minLength alignment padValue 0
  rw [List.drop_zero] at hscan
  rw [findFreeBlocks, hscan, List.mem_filterMap, Prod.exists]
  simp only [mem_runs_zero_iff]

/-- For a power of two, clearing the low bits rounds down to a multiple. -/
theorem alignDown_two_pow (n k : Nat) : alignDown n (2 ^ k) = n / 2 ^ k * 2 ^ k := by
  have hbit : alignDown n (2 ^ k) = n >>> k <<< k := by
    apply Nat.eq_of_testBit_eq
    intro i
    rw [alignDown, Nat.testBit_ldiff, Nat.testBit_two_pow_sub_one, Nat.testBit_shiftLeft,
      Nat.testBit_shiftRight]
    by_cases hik : i < k
    · have hn : ¬ k ≤ i := by omega
      simp [hik, hn]
    · have hk : k ≤ i := by omega
      have hi : k + (i - k) = i := by omega
      simp [hik, hk, hi]
  rw [hbit, Nat.shiftLeft_eq, Nat.shiftRight_eq_div_pow]

theorem freeBlock_eq_some {crc : CrcRegion} {minLength alignment s e : Nat}
    {b : FlashFreeBlock} (h : freeBlock crc minLength alignment (s, e) = some b) :
    s + minLength ≤ alignDown e alignment ∧ b.band = classify s crc ∧ b.start = s ∧
      b.end_ = alignDown e alignment := by
  simp only [freeBlock] at h
  split at h
  · cases h
  · obtain rfl := Option.some.inj h
    refine ⟨?_, rfl, rfl, rfl⟩
    omega

theorem freeBlock_of_long (crc : CrcRegion) {minLength alignment s e : Nat}
    (h : s + minLength ≤ alignDown e alignment) :
    freeBlock crc minLength alignment (s, e) =
      some ⟨classify s crc, s, alignDown e alignment, alignDown e alignment - s⟩ := by
  have hlong : ¬ (alignDown e alignment : Int) - s < minLength := by omega
  simp [freeBlock, hlong]

/-! ### The blocks are the usable runs -/

theorem le_of_alignDown_two_pow (n k : Nat) : alignDown n (2 ^ k) ≤ n := by
  rw [alignDown_two_pow]
  exact Nat.div_mul_le_self n (2 ^ k)

/-- A block begins at its run and ends within it. -/
theorem freeBlock_within {crc : CrcRegion} {minLength k padValue : Nat} {rom : Bytes}
    {b : FlashFreeBlock} {run : Nat × Nat}
    (hrun : run ∈ runs (isPad padValue) 0 rom)
    (hb : freeBlock crc minLength (2 ^ k) run = some b) :
    b.start = run.1 ∧ b.end_ ≤ run.2 ∧ run.1 < run.2 := by
  obtain ⟨_, _, hstart, hend⟩ := freeBlock_eq_some hb
  have hmaximal := (mem_runs_zero_iff rom run.1 run.2).mp hrun
  refine ⟨hstart, ?_, hmaximal.nonempty⟩
  rw [hend]
  exact le_of_alignDown_two_pow run.2 k

theorem findFreeBlocks_pairwise (rom : Bytes) (crc : CrcRegion) (minLength k padValue : Nat) :
    (findFreeBlocks rom crc minLength (2 ^ k) padValue).Pairwise fun b b' =>
      b.start < b'.start ∧ b.end_ ≤ b'.start := by
  rw [findFreeBlocks, scanFrom_eq_runs, List.drop_zero, List.pairwise_filterMap]
  apply List.Pairwise.imp_of_mem _ (runs_pairwise 0 rom)
  intro run run' hrun hrun' horder b hb b' hb'
  obtain ⟨hstart, hend, hlt⟩ := freeBlock_within hrun hb
  obtain ⟨hstart', _, _⟩ := freeBlock_within hrun' hb'
  omega

theorem mem_findFreeBlocks_two_pow {rom : Bytes} {crc : CrcRegion}
    {minLength k padValue : Nat} {b : FlashFreeBlock} :
    b ∈ findFreeBlocks rom crc minLength (2 ^ k) padValue ↔
      ∃ s e, MaximalRun (isPad padValue) rom s e ∧ s + minLength ≤ e / 2 ^ k * 2 ^ k ∧
        b = ⟨classify s crc, s, e / 2 ^ k * 2 ^ k, e / 2 ^ k * 2 ^ k - s⟩ := by
  rw [mem_findFreeBlocks]
  constructor
  · intro h
    obtain ⟨s, e, hrun, hb⟩ := h
    obtain ⟨hlong, _⟩ := freeBlock_eq_some hb
    rw [freeBlock_of_long crc hlong, alignDown_two_pow, Option.some.injEq] at hb
    rw [alignDown_two_pow] at hlong
    exact ⟨s, e, hrun, hlong, hb.symm⟩
  · intro h
    obtain ⟨s, e, hrun, hlong, rfl⟩ := h
    rw [← alignDown_two_pow] at hlong ⊢
    exact ⟨s, e, hrun, freeBlock_of_long crc hlong⟩

/-- One block for each maximal run of pad bytes that stays long enough when its end is
rounded down, in ascending order, disjoint, and of pad bytes only. -/
theorem findFreeBlocks_correct (rom : Bytes) (crc : CrcRegion) (minLength k padValue : Nat) :
    let blocks := findFreeBlocks rom crc minLength (2 ^ k) padValue
    (∀ b, b ∈ blocks ↔
      ∃ s e, MaximalRun (isPad padValue) rom s e ∧ s + minLength ≤ e / 2 ^ k * 2 ^ k ∧
        b = ⟨classify s crc, s, e / 2 ^ k * 2 ^ k, e / 2 ^ k * 2 ^ k - s⟩) ∧
    (blocks.Pairwise fun b b' => b.start < b'.start ∧ b.end_ ≤ b'.start) ∧
    ∀ b ∈ blocks, ∀ a, b.start ≤ a → a < b.end_ → HoldsAt (isPad padValue) rom a := by
  intro blocks
  refine ⟨fun b => mem_findFreeBlocks_two_pow,
    findFreeBlocks_pairwise rom crc minLength k padValue, ?_⟩
  intro b hb a hstart hend
  obtain ⟨s, e, hrun, _, rfl⟩ := mem_findFreeBlocks_two_pow.mp hb
  have hround : e / 2 ^ k * 2 ^ k ≤ e := Nat.div_mul_le_self e (2 ^ k)
  have hlt : a < e / 2 ^ k * 2 ^ k := hend
  exact hrun.holds a hstart (by omega)

/-! ### Blocks against bands -/

/-- The addresses a band is documented to cover. -/
def InBand (crc : CrcRegion) (a : Nat) : CrcBand → Prop
  | .partialCrc => crc.partialStart ≤ a ∧ a < crc.partialEnd
  | .fullCrcOnly => crc.fullStart ≤ a ∧ a < crc.partialStart
  | .unprotected => ¬ (crc.fullStart ≤ a ∧ a < crc.fullEnd)

/-- Every address of every block is in the block's band. -/
def BandsKept (crc : CrcRegion) (blocks : List FlashFreeBlock) : Prop :=
  ∀ b ∈ blocks, ∀ a, b.start ≤ a → a < b.end_ → InBand crc a b.band

/-- No address of the auto-filled free space is CRC-protected. -/
def FreeSpaceUnprotected (crc : CrcRegion) (blocks : List FlashFreeBlock) : Prop :=
  ∀ b, EmitLd.freeSpaceBlock blocks = some b →
    ∀ a, b.start ≤ a → a < b.end_ → ¬ (crc.fullStart ≤ a ∧ a < crc.fullEnd)

/-- `[s, e)` crosses the edge between two bands. -/
def CrossesEdge (crc : CrcRegion) (s e : Nat) : Prop :=
  (s < crc.fullStart ∧ crc.fullStart < e ∧ crc.fullStart < crc.fullEnd) ∨
  (crc.fullStart ≤ s ∧ s < crc.partialStart ∧ crc.partialStart < e) ∨
  (crc.partialStart ≤ s ∧ s < crc.partialEnd ∧ crc.partialEnd < e)

/-- The partial range is a tail of the full one. -/
structure CrcRegion.Nested (crc : CrcRegion) : Prop where
  start_le : crc.fullStart ≤ crc.partialStart
  le_end : crc.partialStart ≤ crc.fullEnd
  end_eq : crc.fullEnd = crc.partialEnd

/-- A nonempty interval classified by its start stays in that band exactly when it
crosses no edge. -/
theorem inBand_classify_iff {crc : CrcRegion} (hcrc : CrcRegion.Nested crc) {s e : Nat}
    (hse : s < e) :
    (∀ a, s ≤ a → a < e → InBand crc a (classify s crc)) ↔ ¬ CrossesEdge crc s e := by
  obtain ⟨h1, h2, h3⟩ := hcrc
  unfold classify CrossesEdge
  by_cases hp : crc.partialStart ≤ s ∧ s < crc.partialEnd
  · rw [if_pos hp]
    simp only [InBand]
    constructor
    · intro h hc
      have hlast := h (e - 1) (by omega) (by omega)
      omega
    · intro h a hsa hae
      omega
  · rw [if_neg hp]
    by_cases hf : crc.fullStart ≤ s ∧ s < crc.partialStart
    · rw [if_pos hf]
      simp only [InBand]
      constructor
      · intro h hc
        have hlast := h (e - 1) (by omega) (by omega)
        omega
      · intro h a hsa hae
        omega
    · rw [if_neg hf]
      simp only [InBand]
      constructor
      · intro h hc
        have hedge := h crc.fullStart
        omega
      · intro h a hsa hae
        omega

/-- Whatever block the free space is filled from keeps out of the CRC region once
the bands are kept. -/
theorem freeSpaceUnprotected_of_bandsKept {crc : CrcRegion} {blocks : List FlashFreeBlock}
    (h : BandsKept crc blocks) : FreeSpaceUnprotected crc blocks := by
  intro b hb a hsa hae
  obtain ⟨hmem, hband⟩ := EmitLd.mem_of_freeSpaceBlock hb
  have hin := h b hmem a hsa hae
  rw [hband] at hin
  exact hin

/-- The blocks keep their bands, and the free space keeps out of the CRC region,
exactly when no pad run that is long enough crosses an edge between bands. -/
theorem findFreeBlocks_bandsKept_iff (rom : Bytes) (crc : CrcRegion)
    (minLength k padValue : Nat) (hcrc : CrcRegion.Nested crc) (hmin : 1 ≤ minLength) :
    (BandsKept crc (findFreeBlocks rom crc minLength (2 ^ k) padValue) ∧
      FreeSpaceUnprotected crc (findFreeBlocks rom crc minLength (2 ^ k) padValue)) ↔
    ∀ s e, MaximalRun (isPad padValue) rom s e → s + minLength ≤ alignDown e (2 ^ k) →
      ¬ CrossesEdge crc s (alignDown e (2 ^ k)) := by
  constructor
  · intro h s e hrun hlong
    obtain ⟨hkept, _⟩ := h
    have hblock := freeBlock_of_long crc hlong
    have hmem := mem_findFreeBlocks.mpr ⟨s, e, hrun, hblock⟩
    exact (inBand_classify_iff hcrc (by omega)).mp (hkept _ hmem)
  · intro h
    have hkept : BandsKept crc (findFreeBlocks rom crc minLength (2 ^ k) padValue) := by
      intro b hb
      obtain ⟨s, e, hrun, hblock⟩ := mem_findFreeBlocks.mp hb
      obtain ⟨hlong, hband, hstart, hend⟩ := freeBlock_eq_some hblock
      rw [hband, hstart, hend]
      exact (inBand_classify_iff hcrc (by omega)).mpr (h s e hrun hlong)
    exact ⟨hkept, freeSpaceUnprotected_of_bandsKept hkept⟩

/-- A ROM whose only pad run lies in the full-CRC band keeps its bands. -/
theorem bandsKept_of_inner_run :
    let rom : Bytes := List.replicate 4 0 ++ List.replicate 12 0xFF ++ List.replicate 16 0
    let crc : CrcRegion := ⟨0, 32, 16, 32⟩
    BandsKept crc (findFreeBlocks rom crc 4 (2 ^ 2)) ∧
      FreeSpaceUnprotected crc (findFreeBlocks rom crc 4 (2 ^ 2)) := by
  intro rom crc
  refine (findFreeBlocks_bandsKept_iff rom crc 4 2 0xFF ⟨by decide, by decide, by decide⟩
    (by decide)).mpr fun s e hrun _ => ?_
  have hscan : runs (isPad 0xFF) 0 rom = [(4, 16)] := by decide +kernel
  have hmem := (mem_runs_zero_iff rom s e).mpr hrun
  rw [hscan, List.mem_singleton, Prod.mk.injEq] at hmem
  obtain ⟨rfl, rfl⟩ := hmem
  unfold CrossesEdge
  decide +kernel

/-- A pad run over the start of the CRC region is one unprotected block, and the
free space is filled from it. -/
theorem not_bandsKept_of_crossing_run :
    let rom : Bytes := List.replicate 0x10 0 ++ List.replicate 0x30 0xFF
    let crc : CrcRegion := ⟨0x20, 0x40, 0x30, 0x40⟩
    ¬ (BandsKept crc (findFreeBlocks rom crc 16 (2 ^ 4)) ∧
      FreeSpaceUnprotected crc (findFreeBlocks rom crc 16 (2 ^ 4))) ∧
    ¬ FreeSpaceUnprotected crc (findFreeBlocks rom crc 16 (2 ^ 4)) := by
  intro rom crc
  have hblocks : findFreeBlocks rom crc 16 (2 ^ 4) = [⟨.unprotected, 0x10, 0x40, 0x30⟩] := by
    decide +kernel
  have hfree : ¬ FreeSpaceUnprotected crc (findFreeBlocks rom crc 16 (2 ^ 4)) := by
    rw [hblocks]
    intro h
    exact h ⟨.unprotected, 0x10, 0x40, 0x30⟩ (by decide) 0x20 (by decide) (by decide) (by decide)
  exact ⟨fun h => hfree h.2, hfree⟩

end RomAnalyzer.FlashSpace
