import RomAnalyzer.Callgraph.Identity

/-!
# Searching the single aligned occurrence

The loop asks for the next occurrence from one byte behind the last, so overlapping ones
are seen, and counts the aligned ones until there are two. It finds what
`findUniqueAligned` says it should.
-/
namespace RomAnalyzer.Callgraph

open Lib

/-- The pattern stands at a position that is a multiple of the alignment. -/
structure AlignedAt (haystack needle : Bytes) (alignment i : Nat) : Prop where
  aligned : i % alignment = 0
  fits : i + needle.length ≤ haystack.length
  equal : slice haystack i needle.length = needle

/-- It stands there and at no other such position. -/
structure OnlyAlignedAt (haystack needle : Bytes) (alignment i : Nat) : Prop where
  occurs : AlignedAt haystack needle alignment i
  only : ∀ j, AlignedAt haystack needle alignment j → j = i

/-- `haystack.find(needle, pos)` -/
def bytesFind (haystack needle : Bytes) (pos : Nat) : Option Nat :=
  if pos + needle.length ≤ haystack.length then
    if slice haystack pos needle.length = needle then some pos
    else bytesFind haystack needle (pos + 1)
  else none
termination_by haystack.length + 1 - pos

variable {haystack needle : Bytes} {alignment : Nat}

theorem bytesFind_eq_some {pos idx : Nat} (h : bytesFind haystack needle pos = some idx) :
    pos ≤ idx ∧ idx + needle.length ≤ haystack.length ∧
      slice haystack idx needle.length = needle ∧
      ∀ j, pos ≤ j → j < idx → slice haystack j needle.length ≠ needle := by
  fun_induction bytesFind haystack needle pos with
  | case1 pos hfits heq =>
    obtain rfl := Option.some.inj h
    exact ⟨le_rfl, hfits, heq, fun j hj hlt => by omega⟩
  | case2 pos hfits hne ih =>
    obtain ⟨hle, hidx, heq, hbefore⟩ := ih h
    refine ⟨by omega, hidx, heq, ?_⟩
    intro j hj hlt
    rcases Nat.eq_or_lt_of_le hj with hjpos | hjpos
    · exact hjpos ▸ hne
    · exact hbefore j hjpos hlt
  | case3 pos hshort => cases h

theorem bytesFind_eq_none {pos : Nat} (h : bytesFind haystack needle pos = none) :
    ∀ j, pos ≤ j → j + needle.length ≤ haystack.length →
      slice haystack j needle.length ≠ needle := by
  fun_induction bytesFind haystack needle pos with
  | case1 pos hfits heq => cases h
  | case2 pos hfits hne ih =>
    intro j hj hjfits
    rcases Nat.eq_or_lt_of_le hj with hjpos | hjpos
    · exact hjpos ▸ hne
    · exact ih h j hjpos hjfits
  | case3 pos hshort =>
    intro j hj hjfits
    omega

/-- `while pos <= len(haystack) - len(needle)`, with the aligned hit found so far. -/
def searchUniqueAligned (haystack needle : Bytes) (alignment : Nat) (found : Option Nat)
    (pos : Nat) : Option Nat :=
  if pos + needle.length ≤ haystack.length then
    match hidx : bytesFind haystack needle pos with
    | none => found
    | some idx =>
      if idx % alignment = 0 then
        if found.isSome then none
        else searchUniqueAligned haystack needle alignment (some idx) (idx + 1)
      else searchUniqueAligned haystack needle alignment found (idx + 1)
  else found
termination_by haystack.length + 1 - pos
decreasing_by
  all_goals
    obtain ⟨hle, hend, _⟩ := bytesFind_eq_some hidx
    omega

/-- What the loop has still to decide on: the hit so far, and the aligned occurrences
from the position on. -/
def HitFrom (haystack needle : Bytes) (alignment : Nat) (found : Option Nat)
    (pos j : Nat) : Prop :=
  found = some j ∨ (pos ≤ j ∧ AlignedAt haystack needle alignment j)

/-- Behind the last occurrence only the hit so far is left. -/
theorem hitFrom_iff_found {found : Option Nat} {pos : Nat}
    (h : ∀ j, pos ≤ j → ¬ AlignedAt haystack needle alignment j) (j : Nat) :
    HitFrom haystack needle alignment found pos j ↔ found = some j := by
  constructor
  · intro hgiven
    obtain hfound | ⟨hj, hat⟩ := hgiven
    · exact hfound
    · exact absurd hat (h j hj)
  · exact Or.inl

/-- Past the next occurrence it is that one, if aligned, and the later ones. -/
theorem alignedAt_from_iff {pos idx : Nat} (h : bytesFind haystack needle pos = some idx)
    (j : Nat) :
    pos ≤ j ∧ AlignedAt haystack needle alignment j ↔
      (j = idx ∧ idx % alignment = 0) ∨
        (idx + 1 ≤ j ∧ AlignedAt haystack needle alignment j) := by
  obtain ⟨hle, hfits, heq, hbefore⟩ := bytesFind_eq_some h
  constructor
  · intro hgiven
    obtain ⟨hj, hat⟩ := hgiven
    rcases Nat.lt_trichotomy j idx with hlt | rfl | hlt
    · exact absurd hat.equal (hbefore j hj hlt)
    · exact Or.inl ⟨rfl, hat.aligned⟩
    · exact Or.inr ⟨hlt, hat⟩
  · intro hgiven
    obtain ⟨rfl, haligned⟩ | ⟨hj, hat⟩ := hgiven
    · exact ⟨hle, haligned, hfits, heq⟩
    · exact ⟨by omega, hat⟩

/-- A first aligned occurrence becomes the hit so far. -/
theorem hitFrom_aligned {pos idx : Nat} (h : bytesFind haystack needle pos = some idx)
    (haligned : idx % alignment = 0) (j : Nat) :
    HitFrom haystack needle alignment none pos j ↔
      HitFrom haystack needle alignment (some idx) (idx + 1) j := by
  unfold HitFrom
  rw [alignedAt_from_iff h]
  simp [haligned, eq_comm]

/-- An unaligned occurrence changes nothing. -/
theorem hitFrom_unaligned {found : Option Nat} {pos idx : Nat}
    (h : bytesFind haystack needle pos = some idx) (hnot : ¬ idx % alignment = 0) (j : Nat) :
    HitFrom haystack needle alignment found pos j ↔
      HitFrom haystack needle alignment found (idx + 1) j := by
  unfold HitFrom
  rw [alignedAt_from_iff h]
  simp [hnot]

/-- A hit so far is the only one when nothing aligned follows. -/
theorem eq_some_iff_only_hit {found : Option Nat} {pos : Nat}
    (h : ∀ j, pos ≤ j → ¬ AlignedAt haystack needle alignment j) (i : Nat) :
    found = some i ↔ HitFrom haystack needle alignment found pos i ∧
      ∀ j, HitFrom haystack needle alignment found pos j → j = i := by
  simp only [hitFrom_iff_found h]
  refine ⟨fun hi => ⟨hi, ?_⟩, fun hi => hi.1⟩
  intro j hj
  exact Option.some.inj (hj.symm.trans hi)

/-- The loop returns the only hit there is, if it is only one. -/
theorem searchUniqueAligned_eq_some_iff {found : Option Nat} {pos : Nat}
    (hfound : ∀ f ∈ found, f < pos) (i : Nat) :
    searchUniqueAligned haystack needle alignment found pos = some i ↔
      HitFrom haystack needle alignment found pos i ∧
        ∀ j, HitFrom haystack needle alignment found pos j → j = i := by
  fun_induction searchUniqueAligned haystack needle alignment found pos with
  | case1 found pos hfits hnone =>
    apply eq_some_iff_only_hit
    exact fun j hj hat => bytesFind_eq_none hnone j hj hat.fits hat.equal
  | case2 found pos hfits idx hsome haligned htwo =>
    -- two hits: the one found before and this one
    obtain ⟨f, rfl⟩ := Option.isSome_iff_exists.mp htwo
    have hlt := hfound f rfl
    obtain ⟨hle, hidx, heq, _⟩ := bytesFind_eq_some hsome
    constructor
    · intro h
      cases h
    · intro hgiven
      obtain ⟨_, honly⟩ := hgiven
      have hf := honly f (Or.inl rfl)
      have hi := honly idx (Or.inr ⟨hle, haligned, hidx, heq⟩)
      omega
  | case3 found pos hfits idx hsome haligned hone ih =>
    obtain rfl : found = none := Option.not_isSome_iff_eq_none.mp hone
    simp only [hitFrom_aligned hsome haligned]
    apply ih
    intro f hf
    obtain rfl := Option.some.inj hf
    omega
  | case4 found pos hfits idx hsome hnot ih =>
    simp only [hitFrom_unaligned hsome hnot]
    apply ih
    intro f hf
    have hlt := hfound f hf
    have hle := (bytesFind_eq_some hsome).1
    omega
  | case5 found pos hshort =>
    apply eq_some_iff_only_hit
    intro j hj hat
    have hfits := hat.fits
    omega

theorem mem_alignedOccurrences {i : Nat} :
    i ∈ alignedOccurrences haystack needle alignment ↔
      AlignedAt haystack needle alignment i := by
  rw [alignedOccurrences, List.mem_filter, List.mem_range, decide_eq_true_iff]
  constructor
  · intro hgiven
    obtain ⟨hlt, haligned, heq⟩ := hgiven
    exact ⟨haligned, by omega, heq⟩
  · intro h
    have hfits := h.fits
    exact ⟨by omega, h.aligned, h.equal⟩

theorem findUniqueAligned_eq_some_iff (i : Nat) :
    findUniqueAligned haystack needle alignment = some i ↔
      OnlyAlignedAt haystack needle alignment i := by
  have hnodup : (alignedOccurrences haystack needle alignment).Nodup :=
    List.nodup_range.filter _
  unfold findUniqueAligned
  constructor
  · intro h
    split at h
    · rename_i idx hidx
      obtain rfl := Option.some.inj h
      refine ⟨mem_alignedOccurrences.mp (hidx ▸ List.mem_singleton_self idx), ?_⟩
      intro j hj
      have hmem := mem_alignedOccurrences.mpr hj
      rw [hidx] at hmem
      exact List.mem_singleton.mp hmem
    · cases h
  · intro h
    have hsole : alignedOccurrences haystack needle alignment = [i] :=
      eq_singleton_of_nodup hnodup (mem_alignedOccurrences.mpr h.occurs)
        fun j hj => h.only j (mem_alignedOccurrences.mp hj)
    rw [hsole]

/-- The source's loop finds the single aligned occurrence. -/
theorem searchUniqueAligned_eq (haystack needle : Bytes) (alignment : Nat) :
    searchUniqueAligned haystack needle alignment none 0 =
      findUniqueAligned haystack needle alignment := by
  apply Option.ext
  intro i
  rw [searchUniqueAligned_eq_some_iff (fun f hf => absurd hf (Option.not_mem_none f)),
    findUniqueAligned_eq_some_iff]
  simp only [HitFrom, reduceCtorEq, false_or, Nat.zero_le, true_and]
  exact ⟨fun h => ⟨h.1, h.2⟩, fun h => ⟨h.occurs, h.only⟩⟩

end RomAnalyzer.Callgraph
