import RomAnalyzer.Lib.Hex
import RomAnalyzer.Lib.Regex

/-!
# Text as Python reads it

White space, lines and integer literals. The classes go beyond ASCII, as those of
`str.isspace`, `str.splitlines` and `int` do.
-/
namespace Lib

/-- `str.isspace`, one character -/
def isSpace (c : Char) : Bool :=
  let n := c.toNat
  (9 ≤ n && n ≤ 13) || (0x1c ≤ n && n ≤ 0x20) || n == 0x85 || n == 0xa0 || n == 0x1680 ||
    (0x2000 ≤ n && n ≤ 0x200a) || n == 0x2028 || n == 0x2029 || n == 0x202f || n == 0x205f ||
    n == 0x3000

theorem isAsciiWord_iff {c : Char} :
    isAsciiWord c = true ↔ (48 ≤ c.toNat ∧ c.toNat ≤ 57) ∨ (97 ≤ c.toNat ∧ c.toNat ≤ 122) ∨
      (65 ≤ c.toNat ∧ c.toNat ≤ 90) ∨ c.toNat = 95 := by
  have hunderscore : c = '_' ↔ c.toNat = 95 := by
    rw [← Char.toNat_inj]
    rfl
  simp only [isAsciiWord, Bool.or_eq_true, Bool.and_eq_true, decide_eq_true_eq, beq_iff_eq,
    ge_iff_le, UInt32.le_iff_toNat_le, hunderscore, or_assoc]
  rfl

theorem isHexDigit_iff {c : Char} :
    isHexDigit c = true ↔ (48 ≤ c.toNat ∧ c.toNat ≤ 57) ∨ (97 ≤ c.toNat ∧ c.toNat ≤ 102) ∨
      65 ≤ c.toNat ∧ c.toNat ≤ 70 := by
  simp only [isHexDigit, Bool.or_eq_true, Bool.and_eq_true, decide_eq_true_eq, ge_iff_le,
    UInt32.le_iff_toNat_le, or_assoc]
  rfl

theorem isAsciiWord_of_isSpace {c : Char} (h : isSpace c = true) : isAsciiWord c = false := by
  rw [← Bool.not_eq_true, isAsciiWord_iff]
  simp only [isSpace, Bool.or_eq_true, Bool.and_eq_true, decide_eq_true_eq, beq_iff_eq] at h
  omega

theorem isHexDigit_of_isSpace {c : Char} (h : isSpace c = true) : isHexDigit c = false := by
  rw [← Bool.not_eq_true, isHexDigit_iff]
  simp only [isSpace, Bool.or_eq_true, Bool.and_eq_true, decide_eq_true_eq, beq_iff_eq] at h
  omega

/-- `str.strip()` -/
def strip (cs : List Char) : List Char := cs.rdropWhile isSpace |>.dropWhile isSpace

/-- `\w`: on ASCII the letters, the digits and the underscore; beyond it whatever
Unicode has for a word, and never white space. -/
structure WordClass where
  isWord : Char → Bool
  ascii : ∀ c : Char, c.toNat < 128 → isWord c = isAsciiWord c
  not_space : ∀ c, isSpace c = true → isWord c = false

/-- `\w` under the flag `re.ASCII`. -/
def asciiWords : WordClass := ⟨isAsciiWord, fun _ _ => rfl, fun _ => isAsciiWord_of_isSpace⟩

/-! ### Lines -/

/-- Where `str.splitlines` ends a line. -/
def isLineEnd (c : Char) : Bool :=
  let n := c.toNat
  (10 ≤ n && n ≤ 13) || (0x1c ≤ n && n ≤ 0x1e) || n == 0x85 || n == 0x2028 || n == 0x2029

/-- `str.splitlines()`: a final line end starts no further line. -/
def splitLines : List Char → List (List Char)
  | [] => []
  | c :: cs =>
    -- of a carriage return and a line feed the latter ends the line
    if c = '\r' ∧ cs.head? = some '\n' then splitLines cs
    else if isLineEnd c then [] :: splitLines cs
    else
      match splitLines cs with
      | [] => [[c]]
      | line :: lines => (c :: line) :: lines

/-- Line ends are white space. -/
theorem isSpace_of_isLineEnd {c : Char} (h : isLineEnd c = true) : isSpace c = true := by
  simp only [isLineEnd, isSpace, Bool.or_eq_true, Bool.and_eq_true, decide_eq_true_eq,
    beq_iff_eq] at h ⊢
  omega

theorem splitLines_ne_nil {cs : List Char} (h : cs ≠ []) : splitLines cs ≠ [] := by
  induction cs with
  | nil => exact absurd rfl h
  | cons c cs ih =>
    rw [splitLines]
    split
    · rename_i hcrlf
      apply ih
      rintro rfl
      exact absurd hcrlf.2 (by simp)
    · split
      · exact List.cons_ne_nil _ _
      · split <;> exact List.cons_ne_nil _ _

/-- A line feed ends a line whatever stands before it. -/
theorem splitLines_append_newline (block rest : List Char) :
    splitLines (block ++ '\n' :: rest) = splitLines (block ++ ['\n']) ++ splitLines rest := by
  induction block with
  | nil => rfl
  | cons c block ih =>
    have hhead : (block ++ '\n' :: rest).head? = (block ++ ['\n']).head? := by
      cases block <;> rfl
    rw [List.cons_append, List.cons_append, splitLines, splitLines, hhead, ih]
    split
    · rfl
    · split
      · rfl
      · cases hlines : splitLines (block ++ ['\n']) with
        | nil => exact absurd hlines (splitLines_ne_nil (by simp))
        | cons line lines => rfl

/-- What has no line end goes to the front of the first line. -/
theorem splitLines_append_of_lines {pre cs line : List Char} {lines : List (List Char)}
    (h : ∀ c ∈ pre, isLineEnd c = false) (hcs : splitLines cs = line :: lines) :
    splitLines (pre ++ cs) = (pre ++ line) :: lines := by
  induction pre with
  | nil => exact hcs
  | cons c pre ih =>
    have ih := ih fun d hd => h d (List.mem_cons_of_mem _ hd)
    have hc := h c List.mem_cons_self
    have hne : ¬ c = '\r' := by
      rintro rfl
      exact absurd hc (by decide)
    rw [List.cons_append, splitLines, if_neg fun hr => hne hr.1, hc, ih]
    rfl

/-! ### Integers -/

/-- The two classes of hexadecimal digits are one. -/
theorem hexDigit?_isSome {c : Char} : (hexDigit? c).isSome = isHexDigit c := by
  have hranges : isHexDigit c = decide (('0' ≤ c ∧ c ≤ '9' ∨ 'a' ≤ c ∧ c ≤ 'f') ∨
      'A' ≤ c ∧ c ≤ 'F') := by
    unfold isHexDigit
    simp only [Bool.decide_or, Bool.decide_and]
    rfl
  rw [hranges]
  unfold hexDigit?
  split
  · rename_i h
    simp [h]
  · split
    · rename_i h
      simp [h]
    · split
      · rename_i h
        simp [h]
      · rename_i h₁ h₂ h₃
        simp [h₁, h₂, h₃]

theorem readHexFrom_isSome (acc : Nat) {cs : List Char} (h : ∀ c ∈ cs, isHexDigit c = true) :
    ∃ n, readHexFrom acc cs = some n := by
  induction cs generalizing acc with
  | nil => exact ⟨acc, rfl⟩
  | cons c cs ih =>
    obtain ⟨d, hd⟩ := Option.isSome_iff_exists.mp
      (hexDigit?_isSome.trans (h c List.mem_cons_self))
    rw [readHexFrom, hd]
    exact ih _ fun e he => h e (List.mem_cons_of_mem _ he)

theorem isHexDigit_of_mem_hexDigits {n : Nat} : ∀ c ∈ hexDigits n, isHexDigit c = true := by
  unfold hexDigits
  induction n using Nat.strong_induction_on with
  | _ n ih =>
    by_cases h : n < 16
    · rw [Nat.toDigits_of_lt_base h]
      intro c hc
      rw [List.mem_singleton.mp hc, ← hexDigit?_isSome, hexDigit?_digitChar h]
      rfl
    · have hquot : n / 16 < n := by omega
      have hdigit : n % 16 < 16 := by omega
      rw [Nat.toDigits_of_base_le (by decide) (by omega)]
      intro c hc
      rcases List.mem_append.mp hc with hc | hc
      · exact ih _ hquot c hc
      · rw [List.mem_singleton.mp hc, ← hexDigit?_isSome, hexDigit?_digitChar hdigit]
        rfl

/-- `int` reads any decimal digit and any white space, not only the ASCII ones. -/
def toAscii (c : Char) : Char :=
  if c.toNat < 127 then c
  else if isSpace c then ' '
  else
    match decimalZeros.find? fun z => z ≤ c.toNat && c.toNat < z + 10 with
    | some z => Char.ofNat ('0'.toNat + (c.toNat - z))
    | none => '?'

/-- The value of a digit or a letter, below the base. -/
def digitValue (base : Nat) (c : Char) : Option Nat :=
  let value :=
    if '0' ≤ c ∧ c ≤ '9' then some (c.toNat - '0'.toNat)
    else if 'a' ≤ c ∧ c ≤ 'z' then some (c.toNat - 'a'.toNat + 10)
    else if 'A' ≤ c ∧ c ≤ 'Z' then some (c.toNat - 'A'.toNat + 10)
    else none
  value.filter fun d => d < base

/-- Digits, with single underscores between them. -/
def readDigits (base acc : Nat) (afterDigit : Bool) : List Char → Option Nat
  | [] => if afterDigit then some acc else none
  | c :: cs =>
    if c = '_' then if afterDigit then readDigits base acc false cs else none
    else
      match digitValue base c with
      | none => none
      | some d => readDigits base (base * acc + d) true cs

/-- The digits after a prefix, which one underscore may follow. -/
def prefixed (base : Nat) (cs : List Char) : Option Nat :=
  match cs with
  | '_' :: rest => readDigits base 0 false rest
  | _ => readDigits base 0 false cs

/-- Decimal digits; the interpreter refuses to convert more than 4300 of them. -/
def readDecimal (cs : List Char) : Option Nat :=
  if (cs.filter fun c => c ≠ '_').length ≤ 4300 then readDigits 10 0 false cs else none

/-- A numeral without sign in base 16, or in the base that its prefix names. -/
def readNumeral (base : Nat) (cs : List Char) : Option Nat :=
  match cs with
  | '0' :: x :: rest =>
    if x = 'x' ∨ x = 'X' then prefixed 16 rest
    else if base ≠ 0 then readDigits base 0 false cs
    else if x = 'o' ∨ x = 'O' then prefixed 8 rest
    else if x = 'b' ∨ x = 'B' then prefixed 2 rest
    -- without a prefix a leading zero is for zero only
    else (readDecimal cs).filter fun n => n = 0
  | _ => if base = 0 then readDecimal cs else readDigits base 0 false cs

/-- `int(text, base)` for the bases 16 and 0; `none` is a `ValueError`. -/
def readInt (base : Nat) (cs : List Char) : Option Int :=
  let ascii := cs.map toAscii
  let space := fun c : Char => c = ' ' ∨ 9 ≤ c.toNat ∧ c.toNat ≤ 13
  match (ascii.rdropWhile space).dropWhile space with
  | '-' :: rest => (readNumeral base rest).map fun n => -(n : Int)
  | '+' :: rest => (readNumeral base rest).map fun n => (n : Int)
  | rest => (readNumeral base rest).map fun n => (n : Int)

end Lib
