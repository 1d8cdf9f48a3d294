import RomAnalyzer.Lib.Gaps

/-!
# Free RAM

The gaps between the referenced addresses of the RAM window, from a minimum length on.
Long ones carry a note: a stack or a DMA buffer leaves no references either.
-/
namespace RomAnalyzer.RamSpace

open Lib

def ramStart : Int := 0x804000

def ramEnd : Int := 0x820000

structure RamFreeBlock where
  start : Int
  end_ : Int
  length : Int
  note : String
  deriving DecidableEq, Repr

def suspiciousLargeGap : String := "suspicious_large_gap — possible stack/DMA region, verify"

/-- `in_range` -/
def inRange (referenced : Finset Int) : List Int :=
  (referenced.filter fun a => ramStart ≤ a ∧ a < ramEnd).sort (· ≤ ·)

def ramBlock (minLength largeGapThreshold : Int) (gap : Int × Int) : Option RamFreeBlock :=
  if gap.2 - gap.1 < minLength then none
  else some {
    start := gap.1
    end_ := gap.2
    length := gap.2 - gap.1
    note := if gap.2 - gap.1 ≥ largeGapThreshold then suspiciousLargeGap else "" }

def findFreeRamBlocks (referenced : Finset Int) (minLength : Int := 4)
    (largeGapThreshold : Int := 1024) : List RamFreeBlock :=
  let boundaryStarts := ramStart :: (inRange referenced).map (· + 1)
  let boundaryEnds := inRange referenced ++ [ramEnd]
  (boundaryStarts.zip boundaryEnds).filterMap (ramBlock minLength largeGapThreshold)

variable {referenced : Finset Int} {minLength largeGapThreshold : Int}

theorem mem_inRange {a : Int} :
    a ∈ inRange referenced ↔ a ∈ referenced ∧ ramStart ≤ a ∧ a < ramEnd := by
  rw [inRange, Finset.mem_sort, Finset.mem_filter]

theorem pointsWithin_inRange (referenced : Finset Int) :
    PointsWithin ramStart ramEnd (inRange referenced) where
  sorted := (Finset.sortedLT_sort _).pairwise
  within := fun _ ha => (mem_inRange.mp ha).2

theorem findFreeRamBlocks_eq (referenced : Finset Int) (minLength largeGapThreshold : Int) :
    findFreeRamBlocks referenced minLength largeGapThreshold =
      (gaps ramStart ramEnd (inRange referenced)).filterMap
        (ramBlock minLength largeGapThreshold) :=
  rfl

theorem ramBlock_eq_some_iff {s e : Int} {b : RamFreeBlock} :
    ramBlock minLength largeGapThreshold (s, e) = some b ↔
      minLength ≤ e - s ∧
        b = ⟨s, e, e - s, if largeGapThreshold ≤ e - s then suspiciousLargeGap else ""⟩ := by
  unfold ramBlock
  by_cases hshort : e - s < minLength
  · rw [if_pos hshort]
    constructor
    · intro h
      cases h
    · intro hgiven
      obtain ⟨hlong, _⟩ := hgiven
      omega
  · rw [if_neg hshort, Option.some.injEq]
    constructor
    · rintro rfl
      exact ⟨by omega, rfl⟩
    · intro hgiven
      obtain ⟨_, rfl⟩ := hgiven
      rfl

/-- Inside the window, a gap of the referenced addresses is a gap of those in range. -/
theorem maximalGap_inRange_iff {s e : Int} :
    MaximalGap (· ∈ inRange referenced) ramStart ramEnd s e ↔
      MaximalGap (· ∈ referenced) ramStart ramEnd s e := by
  constructor
  · intro h
    refine ⟨h.nonempty, h.lo_le, h.le_hi, ?_, ?_, ?_⟩
    · intro a hsa hae ha
      have hlo := h.lo_le
      have hhi := h.le_hi
      exact h.free a hsa hae (mem_inRange.mpr ⟨ha, by omega, by omega⟩)
    · exact h.left.imp id fun hleft => (mem_inRange.mp hleft).1
    · exact h.right.imp id fun hright => (mem_inRange.mp hright).1
  · intro h
    have hne := h.nonempty
    have hlo := h.lo_le
    have hhi := h.le_hi
    refine ⟨hne, hlo, hhi, ?_, ?_, ?_⟩
    · exact fun a hsa hae ha => h.free a hsa hae (mem_inRange.mp ha).1
    · by_cases hs : s = ramStart
      · exact Or.inl hs
      · exact Or.inr (mem_inRange.mpr ⟨h.left.resolve_left hs, by omega, by omega⟩)
    · by_cases he : e = ramEnd
      · exact Or.inl he
      · exact Or.inr (mem_inRange.mpr ⟨h.right.resolve_left he, by omega, by omega⟩)

/-- The blocks are the maximal unreferenced intervals of the window that are long
enough. -/
theorem mem_findFreeRamBlocks (hmin : 1 ≤ minLength) {b : RamFreeBlock} :
    b ∈ findFreeRamBlocks referenced minLength largeGapThreshold ↔
      ∃ s e, MaximalGap (· ∈ referenced) ramStart ramEnd s e ∧ minLength ≤ e - s ∧
        b = ⟨s, e, e - s, if largeGapThreshold ≤ e - s then suspiciousLargeGap else ""⟩ := by
  rw [findFreeRamBlocks_eq, List.mem_filterMap, Prod.exists]
  constructor
  · intro h
    obtain ⟨s, e, hmem, hb⟩ := h
    obtain ⟨hlong, hb⟩ := ramBlock_eq_some_iff.mp hb
    have hgap := (mem_gaps_iff (pointsWithin_inRange referenced) s e).mp ⟨hmem, by omega⟩
    exact ⟨s, e, maximalGap_inRange_iff.mp hgap, hlong, hb⟩
  · intro h
    obtain ⟨s, e, hgap, hlong, hb⟩ := h
    have hinside := maximalGap_inRange_iff.mpr hgap
    obtain ⟨hmem, _⟩ := (mem_gaps_iff (pointsWithin_inRange referenced) s e).mpr hinside
    exact ⟨s, e, hmem, ramBlock_eq_some_iff.mpr ⟨hlong, hb⟩⟩

theorem findFreeRamBlocks_pairwise (hmin : 1 ≤ minLength) :
    (findFreeRamBlocks referenced minLength largeGapThreshold).Pairwise fun b b' =>
      b.start < b'.start ∧ b.end_ < b'.start := by
  rw [findFreeRamBlocks_eq, List.pairwise_filterMap]
  apply (gaps_pairwise (pointsWithin_inRange referenced)).imp
  rintro ⟨s, e⟩ ⟨s', e'⟩ horder b hb b' hb'
  obtain ⟨hlong, rfl⟩ := ramBlock_eq_some_iff.mp hb
  obtain ⟨_, rfl⟩ := ramBlock_eq_some_iff.mp hb'
  have hlt : e < s' := horder
  show s < s' ∧ e < s'
  omega

/-- Addresses outside the window have no effect. -/
theorem findFreeRamBlocks_congr {referenced' : Finset Int}
    (h : inRange referenced = inRange referenced') :
    findFreeRamBlocks referenced minLength largeGapThreshold =
      findFreeRamBlocks referenced' minLength largeGapThreshold := by
  rw [findFreeRamBlocks_eq, findFreeRamBlocks_eq, h]

theorem inRange_filter (referenced : Finset Int) :
    inRange (referenced.filter fun a => ramStart ≤ a ∧ a < ramEnd) = inRange referenced := by
  simp only [inRange, Finset.filter_filter, and_self]

theorem suspicious_iff {b : RamFreeBlock}
    (hb : b ∈ findFreeRamBlocks referenced minLength largeGapThreshold) :
    b.length = b.end_ - b.start ∧
      (b.note = suspiciousLargeGap ↔ largeGapThreshold ≤ b.length) ∧
      (b.note = "" ↔ b.length < largeGapThreshold) := by
  rw [findFreeRamBlocks_eq, List.mem_filterMap] at hb
  obtain ⟨⟨s, e⟩, _, hb⟩ := hb
  obtain ⟨_, rfl⟩ := ramBlock_eq_some_iff.mp hb
  refine ⟨rfl, ?_⟩
  by_cases hlarge : largeGapThreshold ≤ e - s
  · simp [hlarge, suspiciousLargeGap]
  · simp [hlarge, suspiciousLargeGap, not_le.mp hlarge]

/-- The blocks are exactly the maximal unreferenced intervals of the window from the
minimum length on, ascending, flagged from the threshold on; what is referenced outside
the window does not matter. -/
theorem findFreeRamBlocks_correct (referenced : Finset Int)
    (minLength largeGapThreshold : Int) (hmin : 1 ≤ minLength) :
    (∀ b, b ∈ findFreeRamBlocks referenced minLength largeGapThreshold ↔
      ∃ s e, MaximalGap (· ∈ referenced) ramStart ramEnd s e ∧ minLength ≤ e - s ∧
        b = ⟨s, e, e - s, if largeGapThreshold ≤ e - s then suspiciousLargeGap else ""⟩) ∧
    ((findFreeRamBlocks referenced minLength largeGapThreshold).Pairwise fun b b' =>
      b.start < b'.start ∧ b.end_ < b'.start) ∧
    (∀ b ∈ findFreeRamBlocks referenced minLength largeGapThreshold,
      b.length = b.end_ - b.start ∧
      (b.note = suspiciousLargeGap ↔ largeGapThreshold ≤ b.length) ∧
      (b.note = "" ↔ b.length < largeGapThreshold)) ∧
    findFreeRamBlocks (referenced.filter fun a => ramStart ≤ a ∧ a < ramEnd) minLength
      largeGapThreshold = findFreeRamBlocks referenced minLength largeGapThreshold := by
  refine ⟨fun b => mem_findFreeRamBlocks hmin, findFreeRamBlocks_pairwise hmin,
    fun b hb => suspicious_iff hb, ?_⟩
  exact findFreeRamBlocks_congr (inRange_filter referenced)

/-- Between the references at offsets 4 and 32 lies a block of 27 bytes. -/
theorem block_between_references :
    ⟨ramStart + 5, ramStart + 32, 27, ""⟩ ∈
      findFreeRamBlocks {ramStart, ramStart + 4, ramStart + 32} 4 1024 := by
  apply ((findFreeRamBlocks_correct {ramStart, ramStart + 4, ramStart + 32} 4 1024
    (by decide)).1 _).mpr
  refine ⟨ramStart + 5, ramStart + 32, ⟨by decide, by decide, by decide, ?_, ?_, ?_⟩,
    by decide, by decide⟩
  · intro a hlo hhi ha
    simp only [Finset.mem_insert, Finset.mem_singleton] at ha
    omega
  · exact Or.inr (by decide)
  · exact Or.inr (by decide)

end RomAnalyzer.RamSpace
