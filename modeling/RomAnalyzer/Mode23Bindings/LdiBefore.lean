import RomAnalyzer.Lib.Scan
import RomAnalyzer.Mode23Bindings

/-!
# The `ldi r0` before a call

Code is a sequence of aligned words, so the bytes before a call determine where its
instructions begin. The scan knows only the halfword in front of a candidate: it also
skips an `ldi r0` at the start of a word when the word in front ends in a halfword with
bit 15 set.
-/
namespace RomAnalyzer.Mode23Bindings

open Lib

/-! ### Code words -/

structure Halfword where
  high : UInt8
  low : UInt8
  deriving DecidableEq, Repr

def Halfword.bit15 (h : Halfword) : Prop := h.high.toNat &&& 0x80 ≠ 0

instance (h : Halfword) : Decidable h.bit15 := inferInstanceAs (Decidable (_ ≠ _))

/-- One 32-bit instruction, or two 16-bit ones. Bit 15 of the first halfword tells them
apart; that of the second says nothing. -/
inductive CodeWord where
  | long (first second : Halfword) (h : first.bit15)
  | pair (left right : Halfword) (h : ¬ left.bit15)

namespace CodeWord

def first : CodeWord → Halfword
  | long first _ _ => first
  | pair left _ _ => left

def second : CodeWord → Halfword
  | long _ second _ => second
  | pair _ right _ => right

def bytes (w : CodeWord) : Bytes := [w.first.high, w.first.low, w.second.high, w.second.low]

/-- Where the instructions of a word begin. -/
def starts (base : Nat) : CodeWord → List Nat
  | long _ _ _ => [base]
  | pair _ _ _ => [base, base + 2]

theorem mem_starts {base off : Nat} {w : CodeWord} :
    off ∈ w.starts base ↔ off = base ∨ off = base + 2 ∧ ¬ w.first.bit15 := by
  cases w with
  | long first second h => simp [starts, CodeWord.first, h]
  | pair left right h => simp [starts, CodeWord.first, h]

end CodeWord

/-- Where the instructions of a sequence of words begin. -/
def instructionStarts (base : Nat) : List CodeWord → List Nat
  | [] => []
  | w :: ws => w.starts base ++ instructionStarts (base + 4) ws

/-- A call in code that begins at offset 0. -/
structure CodeImage where
  words : List CodeWord
  /-- what follows the words -/
  rest : Bytes
  callSite : Nat
  aligned : callSite % 2 = 0
  in_code : callSite ≤ 4 * words.length

namespace CodeImage

def rom (c : CodeImage) : Bytes := c.words.flatMap CodeWord.bytes ++ c.rest

def halfwordAt (c : CodeImage) (off : Nat) : Halfword :=
  ⟨c.rom.getD off 0, c.rom.getD (off + 1) 0⟩

/-- An `ldi r0` begins there, at most `maxBack` bytes before the call. -/
structure LdiBefore (c : CodeImage) (maxBack off : Nat) : Prop where
  start : off ∈ instructionStarts 0 c.words
  ldi : (c.halfwordAt off).high.toNat = 0x60
  before : off < c.callSite
  window : c.callSite ≤ off + maxBack

/-- A word begins there, and the one in front ends in a halfword with bit 15 set. -/
def Shadowed (c : CodeImage) (off : Nat) : Prop :=
  off % 4 = 0 ∧ 2 ≤ off ∧ (c.halfwordAt (off - 2)).bit15

/-- The immediate of the nearest `ldi r0` is decoded, and nothing if there is none. -/
def DecodesNearest (c : CodeImage) (maxBack : Nat) : Prop :=
  (∀ off, IsGreatest {o | c.LdiBefore maxBack o} off →
    decodeLdiR0Before c.rom c.callSite maxBack = some (c.halfwordAt off).low.toNat) ∧
  (decodeLdiR0Before c.rom c.callSite maxBack = none ↔ ∀ off, ¬ c.LdiBefore maxBack off)

end CodeImage

/-! ### The scan -/

theorem mem_instructionStarts {base off : Nat} {words : List CodeWord} :
    off ∈ instructionStarts base words ↔
      ∃ (i : Nat) (w : CodeWord), words[i]? = some w ∧ off ∈ w.starts (base + 4 * i) := by
  induction words generalizing base with
  | nil => simp [instructionStarts]
  | cons w ws ih =>
    rw [instructionStarts, List.mem_append, ih]
    constructor
    · intro h
      rcases h with h | ⟨i, w', hi, hoff⟩
      · exact ⟨0, w, rfl, h⟩
      · refine ⟨i + 1, w', hi, ?_⟩
        rw [show base + 4 * (i + 1) = base + 4 + 4 * i by omega]
        exact hoff
    · intro h
      obtain ⟨i, w', hi, hoff⟩ := h
      cases i with
      | zero =>
        obtain rfl := Option.some.inj hi
        exact Or.inl hoff
      | succ i =>
        rw [show base + 4 * (i + 1) = base + 4 + 4 * i by omega] at hoff
        exact Or.inr ⟨i, w', hi, hoff⟩

/-- The bytes of the words lie one word behind the other. -/
theorem getElem?_words {words : List CodeWord} (rest : Bytes) {i j : Nat} {w : CodeWord}
    (h : words[i]? = some w) (hj : j < 4) :
    (words.flatMap CodeWord.bytes ++ rest)[4 * i + j]? = w.bytes[j]? := by
  induction words generalizing i with
  | nil => cases h
  | cons v vs ih =>
    rw [List.flatMap_cons, List.append_assoc]
    cases i with
    | zero =>
      obtain rfl := Option.some.inj h
      rw [Nat.mul_zero, Nat.zero_add, List.getElem?_append_left hj]
    | succ i =>
      have hlength : v.bytes.length = 4 := rfl
      rw [List.getElem?_append_right (by omega), hlength,
        show 4 * (i + 1) + j - 4 = 4 * i + j by omega]
      exact ih h

/-- Every even offset of the words begins an instruction, except those behind the first
halfword of a 32-bit instruction. -/
theorem CodeImage.mem_instructionStarts_iff (c : CodeImage) {off : Nat} :
    off ∈ instructionStarts 0 c.words ↔
      off < 4 * c.words.length ∧ off % 2 = 0 ∧
        (off % 4 = 2 → ¬ (c.halfwordAt (off - 2)).bit15) := by
  have hfirst : ∀ (i : Nat) (w : CodeWord), c.words[i]? = some w → c.halfwordAt (4 * i) = w.first := by
    intro i w hi
    have hhigh := getElem?_words c.rest hi (show 0 < 4 by omega)
    have hlow := getElem?_words c.rest hi (show 1 < 4 by omega)
    rw [halfwordAt, rom, List.getD_eq_getElem?_getD, List.getD_eq_getElem?_getD, hlow]
    rw [Nat.add_zero] at hhigh
    rw [hhigh]
    rfl
  rw [mem_instructionStarts]
  constructor
  · intro h
    obtain ⟨i, w, hi, hoff⟩ := h
    obtain ⟨hlt, _⟩ := List.getElem?_eq_some_iff.mp hi
    rcases CodeWord.mem_starts.mp hoff with rfl | ⟨rfl, hpair⟩
    · exact ⟨by omega, by omega, fun h => by omega⟩
    · refine ⟨by omega, by omega, fun _ => ?_⟩
      rw [Nat.add_sub_cancel, Nat.zero_add, hfirst i w hi]
      exact hpair
  · intro h
    obtain ⟨hlt, heven, hpair⟩ := h
    have hi := List.getElem?_eq_getElem (l := c.words) (i := off / 4) (by omega)
    refine ⟨off / 4, _, hi, CodeWord.mem_starts.mpr ?_⟩
    rcases Nat.lt_or_ge (off % 4) 2 with hrem | hrem
    · exact Or.inl (by omega)
    · refine Or.inr ⟨by omega, ?_⟩
      rw [← hfirst _ _ hi, show 4 * (off / 4) = off - 2 by omega]
      exact hpair (by omega)

namespace CodeImage

variable {c : CodeImage} {maxBack off : Nat}

/-- What the scan accepts, over the offsets it goes through. -/
theorem accepted_iff (hlt : off < c.callSite) (heven : off % 2 = 0)
    (hwindow : c.callSite ≤ off + maxBack) :
    (off + 1 < c.rom.length ∧ (c.rom.getD off 0).toNat = 0x60 ∧
      ¬ (2 ≤ off ∧ (c.rom.getD (off - 2) 0).toNat &&& 0x80 ≠ 0)) ↔
      c.LdiBefore maxBack off ∧ ¬ c.Shadowed off := by
  have hcode := c.in_code
  have hcall := c.aligned
  have hlength : 4 * c.words.length ≤ c.rom.length := by
    rw [rom, List.length_append, List.length_flatMap]
    have hsum : (c.words.map fun w => w.bytes.length).sum = 4 * c.words.length := by
      rw [List.map_congr_left (fun w _ => (rfl : w.bytes.length = 4)), List.map_const',
        List.sum_replicate]
      simp [Nat.mul_comm]
    omega
  constructor
  · intro h
    obtain ⟨_, hldi, hprevious⟩ := h
    refine ⟨⟨c.mem_instructionStarts_iff.mpr ⟨by omega, heven, ?_⟩, hldi, hlt, hwindow⟩, ?_⟩
    · intro hrem hbit
      exact hprevious ⟨by omega, hbit⟩
    · intro hshadowed
      exact hprevious hshadowed.2
  · intro h
    obtain ⟨hbefore, hshadowed⟩ := h
    refine ⟨by omega, hbefore.ldi, ?_⟩
    intro hprevious
    obtain ⟨_, _, hstart⟩ := c.mem_instructionStarts_iff.mp hbefore.start
    rcases Nat.lt_or_ge (off % 4) 2 with hrem | hrem
    · exact hshadowed ⟨by omega, hprevious⟩
    · exact hstart (by omega) hprevious.2

/-- The offsets of the scan, nearest first. -/
def scanOffsets (callSite maxBack : Nat) : List Nat :=
  (((List.range (maxBack / 2)).map fun i => 2 * (i + 1)).filter (· ≤ callSite)).map (callSite - ·)

theorem mem_scanOffsets {callSite : Nat} :
    off ∈ scanOffsets callSite maxBack ↔
      off < callSite ∧ callSite ≤ off + maxBack ∧ off % 2 = callSite % 2 := by
  simp only [scanOffsets, List.mem_map, List.mem_filter, List.mem_range, decide_eq_true_iff]
  constructor
  · intro h
    obtain ⟨_, ⟨⟨i, hi, rfl⟩, hle⟩, rfl⟩ := h
    omega
  · intro h
    refine ⟨callSite - off, ⟨⟨(callSite - off) / 2 - 1, ?_, ?_⟩, ?_⟩, ?_⟩
    all_goals omega

theorem scanOffsets_pairwise (callSite maxBack : Nat) :
    (scanOffsets callSite maxBack).Pairwise (· > ·) := by
  rw [scanOffsets, List.pairwise_map, List.pairwise_filter, List.pairwise_map]
  refine List.pairwise_lt_range.imp ?_
  intro i j hlt hi hj
  rw [decide_eq_true_iff] at hi hj
  omega

theorem decode_eq_find? (c : CodeImage) (maxBack : Nat) :
    decodeLdiR0Before c.rom c.callSite maxBack =
      ((scanOffsets c.callSite maxBack).find? fun off =>
        off + 1 < c.rom.length ∧ (c.rom.getD off 0).toNat = 0x60 ∧
          ¬ (2 ≤ off ∧ (c.rom.getD (off - 2) 0).toNat &&& 0x80 ≠ 0)).map
        fun off => (c.halfwordAt off).low.toNat := by
  rw [decodeLdiR0Before, scanOffsets, List.find?_map, Option.map_map]
  rfl

theorem mem_scan_iff :
    (off ∈ scanOffsets c.callSite maxBack ∧
      decide (off + 1 < c.rom.length ∧ (c.rom.getD off 0).toNat = 0x60 ∧
        ¬ (2 ≤ off ∧ (c.rom.getD (off - 2) 0).toNat &&& 0x80 ≠ 0)) = true) ↔
      c.LdiBefore maxBack off ∧ ¬ c.Shadowed off := by
  have hcall := c.aligned
  rw [mem_scanOffsets, decide_eq_true_iff]
  constructor
  · intro h
    obtain ⟨⟨hlt, hwindow, heven⟩, haccepted⟩ := h
    exact (accepted_iff hlt (by omega) hwindow).mp haccepted
  · intro h
    obtain ⟨_, heven, _⟩ := c.mem_instructionStarts_iff.mp h.1.start
    exact ⟨⟨h.1.before, h.1.window, by omega⟩,
      (accepted_iff h.1.before heven h.1.window).mpr h⟩

/-- The scan decodes the nearest `ldi r0` that is not shadowed. -/
theorem decode_eq_some_iff {n : Nat} :
    decodeLdiR0Before c.rom c.callSite maxBack = some n ↔
      ∃ off, IsGreatest {o | c.LdiBefore maxBack o ∧ ¬ c.Shadowed o} off ∧
        (c.halfwordAt off).low.toNat = n := by
  rw [decode_eq_find?, Option.map_eq_some_iff]
  simp only [find?_eq_some_iff_isGreatest (scanOffsets_pairwise _ _), mem_scan_iff]

theorem decode_eq_none_iff :
    decodeLdiR0Before c.rom c.callSite maxBack = none ↔
      ∀ off, c.LdiBefore maxBack off → c.Shadowed off := by
  rw [decode_eq_find?, Option.map_eq_none_iff, List.find?_eq_none]
  constructor
  · intro h off hbefore
    by_contra hshadowed
    obtain ⟨hmem, haccepted⟩ := mem_scan_iff.mpr ⟨hbefore, hshadowed⟩
    exact h off hmem haccepted
  · intro h off hmem haccepted
    obtain ⟨hbefore, hshadowed⟩ := mem_scan_iff.mp ⟨hmem, haccepted⟩
    exact hshadowed (h off hbefore)

theorem exists_nearest (h : c.LdiBefore maxBack off) :
    ∃ nearest, IsGreatest {o | c.LdiBefore maxBack o} nearest := by
  have hbounded : BddAbove {o | c.LdiBefore maxBack o} := ⟨c.callSite, fun _ ho => ho.before.le⟩
  exact ⟨_, Nat.sSup_mem ⟨off, h⟩ hbounded, fun _ ho => le_csSup hbounded ho⟩

end CodeImage

/-- The nearest `ldi r0` is decoded exactly when it is not shadowed, or the nearest one that
is not shadowed has the same immediate. -/
theorem decodesNearest_iff (c : CodeImage) (maxBack : Nat) :
    c.DecodesNearest maxBack ↔
      ∀ off, IsGreatest {o | c.LdiBefore maxBack o} off → c.Shadowed off →
        ∃ open_, IsGreatest {o | c.LdiBefore maxBack o ∧ ¬ c.Shadowed o} open_ ∧
          (c.halfwordAt open_).low = (c.halfwordAt off).low := by
  constructor
  · intro h off hnearest _
    obtain ⟨open_, hopen, himm⟩ := CodeImage.decode_eq_some_iff.mp (h.1 off hnearest)
    exact ⟨open_, hopen, UInt8.toNat_inj.mp himm⟩
  · intro h
    constructor
    · intro off hnearest
      apply CodeImage.decode_eq_some_iff.mpr
      by_cases hshadowed : c.Shadowed off
      · obtain ⟨open_, hopen, himm⟩ := h off hnearest hshadowed
        exact ⟨open_, hopen, congrArg UInt8.toNat himm⟩
      · exact ⟨off, ⟨⟨hnearest.1, hshadowed⟩, fun o ho => hnearest.2 ho.1⟩, rfl⟩
    · rw [CodeImage.decode_eq_none_iff]
      constructor
      · intro hall off hbefore
        obtain ⟨nearest, hnearest⟩ := CodeImage.exists_nearest hbefore
        obtain ⟨open_, hopen, _⟩ := h nearest hnearest (hall nearest hnearest.1)
        exact hopen.1.2 (hall open_ hopen.1.1)
      · intro hnone off hbefore
        exact absurd hbefore (hnone off)

/-- A nop with a nop in its parallel slot, then the `ldi r0` of the call. -/
def nopPairImage : CodeImage where
  words := [.pair ⟨0x70, 0x00⟩ ⟨0xf0, 0x00⟩ (by decide), .pair ⟨0x60, 0x05⟩ ⟨0xf0, 0x00⟩ (by decide)]
  rest := [0xfe, 0x00, 0x00, 0x94]
  callSite := 8
  aligned := rfl
  in_code := by decide

/-- The parallel slot passes for the start of a 32-bit instruction, and the `ldi r0` behind
it is skipped. -/
theorem nopPairImage_not_decoded : ¬ nopPairImage.DecodesNearest 12 := by
  intro h
  have hnone : decodeLdiR0Before nopPairImage.rom nopPairImage.callSite 12 = none := by
    decide +kernel
  refine h.2.mp hnone 4 ⟨?_, ?_, ?_, ?_⟩
  all_goals decide +kernel

end RomAnalyzer.Mode23Bindings
