import RomAnalyzer.Callgraph.Anchors

/-!
# Encoding a branch

A `bra` holds the distance to its target in words, as a signed 24-bit number. The decoder
returns a target exactly when the four bytes are the encoding of that target, the target
being in the ROM and in reach.
-/
namespace RomAnalyzer.Callgraph

/-- `0xFF` and the distance in words, in two's complement. -/
def encodeBra (target pos : Nat) : Bytes :=
  let disp24 := (((target : Int) - pos) / 4 % 0x1000000).toNat
  [0xFF, (disp24 / 0x10000).toUInt8, (disp24 / 0x100).toUInt8, disp24.toUInt8]

example : encodeBra 0x1b680 0 = [0xFF, 0x00, 0x6D, 0xA0] := by decide

/-- The four bytes at a position branch to the target. -/
structure BraAt (romBytes : Bytes) (pos target : Nat) : Prop where
  fits : pos + 4 ≤ romBytes.length
  positive : 0 < target
  inside : target < romBytes.length
  aligned : target % 4 = pos % 4
  lower : -0x800000 ≤ ((target : Int) - pos) / 4
  upper : ((target : Int) - pos) / 4 < 0x800000
  bytes : (romBytes.drop pos).take 4 = encodeBra target pos

/-- The bytes of a word, put together. -/
theorem disp24_eq {a b c : Nat} (hb : b < 0x100) (hc : c < 0x100) :
    (a <<< 16) ||| (b <<< 8) ||| c = a * 0x10000 + b * 0x100 + c := by
  have hlow : (b <<< 8) ||| c = b <<< 8 + c := (Nat.shiftLeft_add_eq_or_of_lt hc b).symm
  have hlt : b <<< 8 + c < 2 ^ 16 := by
    rw [Nat.shiftLeft_eq]
    omega
  rw [Nat.or_assoc, hlow, ← Nat.shiftLeft_add_eq_or_of_lt hlt a, Nat.shiftLeft_eq, Nat.shiftLeft_eq]
  omega

/-- The sign bit of a 24-bit number. -/
theorem signBit_ne_zero_iff {d : Nat} (h : d < 0x1000000) :
    d &&& 0x800000 ≠ 0 ↔ 0x800000 ≤ d := by
  have hbit : d &&& 0x800000 = (d.testBit 23).toNat * 2 ^ 23 := Nat.and_two_pow d 23
  rw [hbit, Nat.testBit_eq_decide_div_mod_eq]
  cases hset : decide (d / 2 ^ 23 % 2 = 1) with
  | true =>
    have hodd := of_decide_eq_true hset
    simp only [Bool.toNat_true]
    omega
  | false =>
    have heven := of_decide_eq_false hset
    simp only [Bool.toNat_false]
    omega

/-- A 24-bit number, read with its sign. -/
def signExtend24 (d : Nat) : Int := if 0x800000 ≤ d then (d : Int) - 0x1000000 else d

/-- The distance that three bytes hold. -/
def wordOf (b1 b2 b3 : UInt8) : Nat := b1.toNat * 0x10000 + b2.toNat * 0x100 + b3.toNat

theorem wordOf_lt (b1 b2 b3 : UInt8) : wordOf b1 b2 b3 < 0x1000000 := by
  have h1 := b1.toNat_lt
  have h2 := b2.toNat_lt
  have h3 := b3.toNat_lt
  unfold wordOf
  omega

/-- A distance in reach has one encoding. -/
theorem wordOf_eq_iff {q : Int} (hlower : -0x800000 ≤ q) (hupper : q < 0x800000)
    (b1 b2 b3 : UInt8) :
    wordOf b1 b2 b3 = (q % 0x1000000).toNat ↔ signExtend24 (wordOf b1 b2 b3) = q := by
  have hlt := wordOf_lt b1 b2 b3
  unfold signExtend24
  split <;> omega

/-- Three bytes are the big-endian text of the number that they hold. -/
theorem bigEndian_eq_iff {d : Nat} (h : d < 0x1000000) (b1 b2 b3 : UInt8) :
    [b1, b2, b3] = [(d / 0x10000).toUInt8, (d / 0x100).toUInt8, d.toUInt8] ↔
      wordOf b1 b2 b3 = d := by
  have h1 := b1.toNat_lt
  have h2 := b2.toNat_lt
  have h3 := b3.toNat_lt
  simp only [List.cons.injEq, and_true, ← UInt8.toNat_inj, Nat.toUInt8, UInt8.toNat_ofNat', wordOf]
  omega

theorem exists_four_bytes {romBytes : Bytes} {pos : Nat} (h : pos + 4 ≤ romBytes.length) :
    ∃ b0 b1 b2 b3, (romBytes.drop pos).take 4 = [b0, b1, b2, b3] ∧
      byteAt romBytes pos = b0.toNat ∧ byteAt romBytes (pos + 1) = b1.toNat ∧
      byteAt romBytes (pos + 2) = b2.toNat ∧ byteAt romBytes (pos + 3) = b3.toNat := by
  refine ⟨romBytes[pos], romBytes[pos + 1], romBytes[pos + 2], romBytes[pos + 3], ?_, ?_⟩
  · rw [List.drop_eq_getElem_cons (by omega), List.drop_eq_getElem_cons (by omega),
      List.drop_eq_getElem_cons (by omega), List.drop_eq_getElem_cons (by omega)]
    rfl
  · have hget : ∀ i (hi : i < romBytes.length), byteAt romBytes i = romBytes[i].toNat := by
      intro i hi
      rw [byteAt, List.getD_eq_getElem _ _ hi]
    exact ⟨hget _ _, hget _ _, hget _ _, hget _ _⟩

/-- What is decoded: the opcode, and the distance with its sign. -/
theorem decodeBraTarget_of_bytes {romBytes : Bytes} {pos target : Nat} {b0 b1 b2 b3 : UInt8}
    (hfits : pos + 4 ≤ romBytes.length) (h0 : byteAt romBytes pos = b0.toNat)
    (h1 : byteAt romBytes (pos + 1) = b1.toNat) (h2 : byteAt romBytes (pos + 2) = b2.toNat)
    (h3 : byteAt romBytes (pos + 3) = b3.toNat) :
    decodeBraTarget romBytes pos = some target ↔
      b0 = 0xFF ∧ (target : Int) = pos + signExtend24 (wordOf b1 b2 b3) * 4 ∧
        0 < target ∧ target < romBytes.length := by
  have hshort : ¬ romBytes.length < pos + 4 := by omega
  have hopcode : b0.toNat = 0xFF ↔ b0 = 0xFF := by
    rw [← UInt8.toNat_inj]
    rfl
  have hsigned : (if wordOf b1 b2 b3 &&& 0x800000 ≠ 0 then (wordOf b1 b2 b3 : Int) - 0x1000000
      else wordOf b1 b2 b3) = signExtend24 (wordOf b1 b2 b3) := by
    simp only [signExtend24, signBit_ne_zero_iff (wordOf_lt b1 b2 b3)]
  have hword : b1.toNat * 0x10000 + b2.toNat * 0x100 + b3.toNat = wordOf b1 b2 b3 := rfl
  simp only [decodeBraTarget, if_neg hshort, h0, h1, h2, h3,
    disp24_eq (UInt8.toNat_lt b2) (UInt8.toNat_lt b3), hword, hsigned, ne_eq, hopcode]
  by_cases hbra : b0 = 0xFF
  · rw [if_neg (not_not.mpr hbra)]
    clear h0 h1 h2 h3
    constructor
    · intro h
      split at h
      · rename_i hrange
        have htarget := Option.some.inj h
        exact ⟨hbra, by omega, by omega, by omega⟩
      · cases h
    · intro h
      obtain ⟨_, htarget, hpos, hlt⟩ := h
      rw [← htarget, if_pos (by omega), Int.toNat_natCast]
  · rw [if_pos hbra]
    constructor
    · intro h
      cases h
    · intro h
      exact absurd h.1 hbra

/-- The decoder returns a target exactly when the four bytes encode it there. -/
theorem decodeBraTarget_eq_some_iff (romBytes : Bytes) (pos target : Nat) :
    decodeBraTarget romBytes pos = some target ↔ BraAt romBytes pos target := by
  by_cases hfits : pos + 4 ≤ romBytes.length
  · obtain ⟨b0, b1, b2, b3, hbytes, h0, h1, h2, h3⟩ := exists_four_bytes hfits
    rw [decodeBraTarget_of_bytes hfits h0 h1 h2 h3]
    clear h0 h1 h2 h3
    constructor
    · intro h
      obtain ⟨rfl, htarget, hpos, hlt⟩ := h
      have hlt24 := wordOf_lt b1 b2 b3
      have hq : ((target : Int) - pos) / 4 = signExtend24 (wordOf b1 b2 b3) := by omega
      have hrange : -0x800000 ≤ signExtend24 (wordOf b1 b2 b3) ∧
          signExtend24 (wordOf b1 b2 b3) < 0x800000 := by
        unfold signExtend24
        split <;> omega
      refine ⟨hfits, hpos, hlt, by omega, hq ▸ hrange.1, hq ▸ hrange.2, ?_⟩
      have hword := (wordOf_eq_iff hrange.1 hrange.2 b1 b2 b3).mpr rfl
      rw [hbytes, encodeBra, hq]
      exact congrArg (List.cons 0xFF) ((bigEndian_eq_iff (by omega) b1 b2 b3).mpr hword)
    · intro h
      have hencoded := h.bytes
      rw [hbytes, encodeBra] at hencoded
      obtain ⟨hopcode, hrest⟩ := List.cons.inj hencoded
      have hword := (bigEndian_eq_iff (by omega) b1 b2 b3).mp hrest
      have hq := (wordOf_eq_iff h.lower h.upper b1 b2 b3).mp hword
      have haligned := h.aligned
      exact ⟨hopcode, by omega, h.positive, h.inside⟩
  · constructor
    · intro h
      rw [decodeBraTarget, if_pos (by omega)] at h
      cases h
    · intro h
      exact absurd h.fits hfits

end RomAnalyzer.Callgraph
