import Mathlib

/-!
# Hexadecimal text

Naturals written in base sixteen, lower case and without leading zeros, and read
back digit by digit.
-/
namespace Lib

/-- `f"{n:x}"` -/
def hexDigits (n : Nat) : List Char := Nat.toDigits 16 n

/-- `f"0x{n:x}"` -/
def hexText (n : Nat) : String := "0x" ++ String.ofList (hexDigits n)

def hexDigit? (c : Char) : Option Nat :=
  if '0' ≤ c ∧ c ≤ '9' then some (c.toNat - '0'.toNat)
  else if 'a' ≤ c ∧ c ≤ 'f' then some (c.toNat - 'a'.toNat + 10)
  else if 'A' ≤ c ∧ c ≤ 'F' then some (c.toNat - 'A'.toNat + 10)
  else none

/-- Read digits after the value of those before them. -/
def readHexFrom (acc : Nat) : List Char → Option Nat
  | [] => some acc
  | c :: cs =>
    match hexDigit? c with
    | none => none
    | some d => readHexFrom (16 * acc + d) cs

/-- `int(text, 16)` on an unsigned numeral without separators; the prefix may be
left out. -/
def readHex (text : String) : Option Nat :=
  let digits :=
    match text.toList with
    | '0' :: 'x' :: rest => rest
    | '0' :: 'X' :: rest => rest
    | digits => digits
  if digits = [] then none else readHexFrom 0 digits

theorem hexDigit?_digitChar {d : Nat} (h : d < 16) : hexDigit? (Nat.digitChar d) = some d := by
  revert d
  decide

theorem readHexFrom_append (acc : Nat) (xs ys : List Char) :
    readHexFrom acc (xs ++ ys) = (readHexFrom acc xs).bind fun a => readHexFrom a ys := by
  induction xs generalizing acc with
  | nil => rfl
  | cons c cs ih =>
    rw [List.cons_append, readHexFrom, readHexFrom]
    cases hexDigit? c with
    | none => rfl
    | some d => exact ih _

theorem readHexFrom_hexDigits (n : Nat) : readHexFrom 0 (hexDigits n) = some n := by
  unfold hexDigits
  induction n using Nat.strong_induction_on with
  | _ n ih =>
    by_cases h : n < 16
    · rw [Nat.toDigits_of_lt_base h, readHexFrom, hexDigit?_digitChar h]
      show some (16 * 0 + n) = some n
      rw [Nat.mul_zero, Nat.zero_add]
    · have hquot : n / 16 < n := by omega
      have hdigit : n % 16 < 16 := by omega
      rw [Nat.toDigits_of_base_le (by decide) (by omega), readHexFrom_append, ih _ hquot]
      show readHexFrom (n / 16) [Nat.digitChar (n % 16)] = some n
      rw [readHexFrom, hexDigit?_digitChar hdigit]
      show some (16 * (n / 16) + n % 16) = some n
      rw [Nat.div_add_mod]

/-- What is written is read back. -/
theorem readHex_hexText (n : Nat) : readHex (hexText n) = some n := by
  have htext : (hexText n).toList = '0' :: 'x' :: hexDigits n := by
    simp [hexText]
  have hne : hexDigits n ≠ [] := Nat.toDigits_ne_nil
  unfold readHex
  rw [htext]
  show (if hexDigits n = [] then none else readHexFrom 0 (hexDigits n)) = some n
  rw [if_neg hne]
  exact readHexFrom_hexDigits n

/-! ### Numerals of a fixed width -/

/-- The last digits of a number, so many. -/
def fixedDigits (base : Nat) : Nat → Nat → List Char
  | 0, _ => []
  | width + 1, n => fixedDigits base width (n / base) ++ [Nat.digitChar (n % base)]

@[simp] theorem length_fixedDigits (base width n : Nat) :
    (fixedDigits base width n).length = width := by
  induction width generalizing n with
  | zero => rfl
  | succ width ih => rw [fixedDigits, List.length_append, ih, List.length_singleton]

theorem fixedDigits_zero (base width : Nat) : fixedDigits base width 0 = List.replicate width '0' := by
  induction width with
  | zero => rfl
  | succ width ih =>
    rw [fixedDigits, Nat.zero_div, Nat.zero_mod, ih, List.replicate_succ']
    rfl

/-- A numeral that fits is padded with zeros. -/
theorem leftpad_toDigits {base width n : Nat} (hbase : 1 < base) (hwidth : 0 < width)
    (hn : n < base ^ width) :
    (Nat.toDigits base n).leftpad width '0' = fixedDigits base width n := by
  induction width generalizing n with
  | zero => omega
  | succ width ih =>
    rw [fixedDigits]
    by_cases hsmall : n < base
    · rw [Nat.toDigits_of_lt_base hsmall, Nat.div_eq_of_lt hsmall, Nat.mod_eq_of_lt hsmall,
        fixedDigits_zero]
      rfl
    · have hquot : n / base < base ^ width := by
        rw [Nat.div_lt_iff_lt_mul (by omega), ← Nat.pow_succ]
        exact hn
      have hpos : 0 < width := by
        rcases Nat.eq_zero_or_pos width with rfl | hpos
        · rw [zero_add, pow_one] at hn
          omega
        · exact hpos
      rw [Nat.toDigits_of_base_le hbase (by omega), ← ih hpos hquot, List.leftpad, List.leftpad,
        List.length_append, List.length_singleton, Nat.add_sub_add_right, List.append_assoc]

end Lib
