import RomAnalyzer.Lib.Hex
import RomAnalyzer.Lib.Json
import RomAnalyzer.Lib.Words

/-!
# Reading JSON text

The text of a value as Python's `json.loads` reads it, and that it reads back what
`json.dumps` wrote. What becomes of a number with a fraction or an exponent is left open.
-/
namespace Lib.Json

/-! ### White space and marks -/

def isSpace (c : Char) : Bool := c = ' ' || c = '\t' || c = '\n' || c = '\r'

def skipSpace (cs : List Char) : List Char := cs.dropWhile isSpace

/-- What follows the mark, when the text starts with it. -/
def afterMark (mark : Char) : List Char → Option (List Char)
  | [] => none
  | c :: cs => if c = mark then some cs else none

/-! ### Strings -/

def simpleEscape (c : Char) : Option Nat :=
  if c = '"' ∨ c = '\\' ∨ c = '/' then some c.toNat
  else if c = 'b' then some 8
  else if c = 'f' then some 12
  else if c = 'n' then some 10
  else if c = 'r' then some 13
  else if c = 't' then some 9
  else none

/-- The codes up to the closing quote, and what follows it. An escape of four digits is one
code, also when it is one half of a pair. -/
def scanString : List Char → Option (List Nat × List Char)
  | [] => none
  | c :: cs =>
    if c = '"' then some ([], cs)
    else if c = '\\' then
      match cs with
      | [] => none
      | e :: cs =>
        if e = 'u' then
          match cs with
          | h₁ :: h₂ :: h₃ :: h₄ :: cs =>
            (readHexFrom 0 [h₁, h₂, h₃, h₄]).bind fun code =>
              (scanString cs).map fun r => (code :: r.1, r.2)
          | _ => none
        else (simpleEscape e).bind fun code => (scanString cs).map fun r => (code :: r.1, r.2)
    else if c.toNat < 0x20 then none
    else (scanString cs).map fun r => (c.toNat :: r.1, r.2)

def isHigh (code : Nat) : Prop := 0xd800 ≤ code ∧ code < 0xdc00

def isLow (code : Nat) : Prop := 0xdc00 ≤ code ∧ code < 0xe000

instance (code : Nat) : Decidable (isHigh code) := inferInstanceAs (Decidable (_ ∧ _))

instance (code : Nat) : Decidable (isLow code) := inferInstanceAs (Decidable (_ ∧ _))

/-- Two halves make one character; a half that stands alone is no character. -/
def joinCodes : List Nat → Option (List Char)
  | [] => some []
  | code :: codes =>
    if isHigh code then
      match codes with
      | [] => none
      | low :: codes =>
        if isLow low then
          (joinCodes codes).map
            (Char.ofNat (0x10000 + (code - 0xd800) * 0x400 + (low - 0xdc00)) :: ·)
        else none
    else if isLow code then none
    else (joinCodes codes).map (Char.ofNat code :: ·)

/-- A string, its opening quote already read. -/
def readString (cs : List Char) : Option (String × List Char) :=
  (scanString cs).bind fun r => (joinCodes r.1).map fun chars => (String.ofList chars, r.2)

/-! ### Numbers -/

def digitsOf (cs : List Char) : List Char := cs.takeWhile Char.isDigit

def afterDigits (cs : List Char) : List Char := cs.dropWhile Char.isDigit

/-- `0|[1-9]\d*` -/
def intPart (cs : List Char) : Option (List Char × List Char) :=
  match afterMark '0' cs with
  | some rest => some (['0'], rest)
  | none => if digitsOf cs = [] then none else some (digitsOf cs, afterDigits cs)

/-- `(\.\d+)?` -/
def fraction (cs : List Char) : List Char × List Char :=
  match afterMark '.' cs with
  | some rest => if digitsOf rest = [] then ([], cs) else ('.' :: digitsOf rest, afterDigits rest)
  | none => ([], cs)

/-- `[-+]?` -/
def expSign : List Char → List Char × List Char
  | [] => ([], [])
  | s :: cs => if s = '-' ∨ s = '+' then ([s], cs) else ([], s :: cs)

/-- `([eE][-+]?\d+)?` -/
def exponent : List Char → List Char × List Char
  | [] => ([], [])
  | e :: cs =>
    if (e = 'e' ∨ e = 'E') ∧ digitsOf (expSign cs).2 ≠ [] then
      (e :: (expSign cs).1 ++ digitsOf (expSign cs).2, afterDigits (expSign cs).2)
    else ([], e :: cs)

def signOf (cs : List Char) : List Char × List Char :=
  match afterMark '-' cs with
  | some rest => (['-'], rest)
  | none => ([], cs)

def signed (sign digits : List Char) : Int :=
  if sign = [] then decimalValue digits else -decimalValue digits

section Values

variable (floatText : String → String)

def readNumber (cs : List Char) : Option (Json × List Char) :=
  let sign := signOf cs
  (intPart sign.2).map fun digits =>
    let frac := fraction digits.2
    let exp := exponent frac.2
    if frac.1 = [] ∧ exp.1 = [] then (.int (signed sign.1 digits.1), exp.2)
    else (.float (floatText (String.ofList (sign.1 ++ digits.1 ++ frac.1 ++ exp.1))), exp.2)

def literals : List (List Char × Json) :=
  [("null".toList, .null), ("true".toList, .bool true), ("false".toList, .bool false),
    ("NaN".toList, .float "NaN"), ("Infinity".toList, .float "Infinity"),
    ("-Infinity".toList, .float "-Infinity")]

def readLiteral (cs : List Char) : Option (Json × List Char) :=
  literals.findSome? fun l =>
    if l.1.isPrefixOf cs then some (l.2, cs.drop l.1.length) else none

/-! ### Values -/

def quoteMark : Char := '"'

def openBrace : Char := Char.ofNat 0x7b

def closeBrace : Char := Char.ofNat 0x7d

mutual

/-- A value and what follows it. A key that an object has twice keeps its last value. -/
def readValue : Nat → List Char → Option (Json × List Char)
  | 0, _ => none
  | _, [] => none
  | fuel + 1, c :: cs =>
    if c = quoteMark then (readString cs).map fun r => (.str r.1, r.2)
    else if c = '[' then
      match afterMark ']' (skipSpace cs) with
      | some rest => some (.list [], rest)
      | none =>
        (readValue fuel (skipSpace cs)).bind fun r =>
          (readItems fuel r.2).map fun rs => (.list (r.1 :: rs.1), rs.2)
    else if c = openBrace then
      match afterMark closeBrace (skipSpace cs) with
      | some rest => some (.obj [], rest)
      | none =>
        (readField fuel (skipSpace cs)).bind fun r =>
          (readFields fuel r.2).map fun rs => (.obj (Dict.ofList (r.1 :: rs.1)).entries, rs.2)
    else (readNumber floatText (c :: cs)).or (readLiteral (c :: cs))

/-- The items behind one that is read. -/
def readItems : Nat → List Char → Option (List Json × List Char)
  | 0, _ => none
  | fuel + 1, cs =>
    match afterMark ',' (skipSpace cs) with
    | some rest =>
      (readValue fuel (skipSpace rest)).bind fun r =>
        (readItems fuel r.2).map fun rs => (r.1 :: rs.1, rs.2)
    | none => (afterMark ']' (skipSpace cs)).map fun rest => ([], rest)

def readField : Nat → List Char → Option ((String × Json) × List Char)
  | 0, _ => none
  | fuel + 1, cs =>
    (afterMark quoteMark cs).bind fun rest =>
      (readString rest).bind fun key =>
        (afterMark ':' (skipSpace key.2)).bind fun rest =>
          (readValue fuel (skipSpace rest)).map fun r => ((key.1, r.1), r.2)

/-- The fields behind one that is read. -/
def readFields : Nat → List Char → Option (List (String × Json) × List Char)
  | 0, _ => none
  | fuel + 1, cs =>
    match afterMark ',' (skipSpace cs) with
    | some rest =>
      (readField fuel (skipSpace rest)).bind fun r =>
        (readFields fuel r.2).map fun rs => (r.1 :: rs.1, rs.2)
    | none => (afterMark closeBrace (skipSpace cs)).map fun rest => ([], rest)

end

/-- `json.loads(text)`; every value takes up some of the text. -/
def loads (text : String) : Option Json :=
  match readValue floatText (text.length + 1) (skipSpace text.toList) with
  | none => none
  | some r => if skipSpace r.2 = [] then some r.1 else none

end Values

/-! ### Reading what was written: strings -/

/-- The codes that a character is written by. -/
def charCodes (c : Char) : List Nat :=
  if c.toNat < 0x10000 then [c.toNat]
  else [0xd800 + (c.toNat - 0x10000) / 0x400, 0xdc00 + (c.toNat - 0x10000) % 0x400]

theorem readHexFrom_leftpad (n k : Nat) :
    readHexFrom 0 ((Nat.toDigits 16 n).leftpad k '0') = some n := by
  have hzeros : ∀ m, readHexFrom 0 (List.replicate m '0') = some 0 := by
    intro m
    induction m with
    | zero => rfl
    | succ m ih => exact ih
  rw [List.leftpad, readHexFrom_append, hzeros]
  exact readHexFrom_hexDigits n

theorem scanString_unicodeEscape {code : Nat} (h : code < 0x10000) (rest : List Char) :
    scanString (unicodeEscape code ++ rest) =
      (scanString rest).map fun r => (code :: r.1, r.2) := by
  have hlength : ((Nat.toDigits 16 code).leftpad 4 '0').length = 4 := by
    have hle := (Nat.length_toDigits_le_iff (b := 16) (k := 4) (by decide) (by decide)).mpr h
    rw [List.length_leftpad]
    omega
  have hread := readHexFrom_leftpad code 4
  unfold unicodeEscape
  generalize (Nat.toDigits 16 code).leftpad 4 '0' = digits at hlength hread
  match digits, hlength with
  | [h₁, h₂, h₃, h₄], _ =>
    show ((readHexFrom 0 [h₁, h₂, h₃, h₄]).bind fun code =>
      (scanString rest).map fun r => (code :: r.1, r.2)) = _
    rw [hread]
    rfl

theorem char_toNat_cases (c : Char) : c.toNat < 0xd800 ∨ 0xdfff < c.toNat ∧ c.toNat < 0x110000 :=
  c.valid

theorem scanString_escaped {e : Char} {code : Nat} (hplain : e ≠ 'u')
    (hcode : simpleEscape e = some code) (rest : List Char) :
    scanString (['\\', e] ++ rest) = (scanString rest).map fun r => (code :: r.1, r.2) := by
  have hquote : ¬ '\\' = '"' := by decide
  rw [List.cons_append, List.singleton_append, scanString.eq_def]
  simp only [if_neg hquote, if_neg hplain, hcode, Option.bind_some, reduceIte]

/-- A written character is scanned as its codes. -/
theorem scanString_escapeChar (c : Char) (rest : List Char) :
    scanString (escapeChar c ++ rest) =
      (scanString rest).map fun r => (charCodes c ++ r.1, r.2) := by
  have hrange := char_toNat_cases c
  unfold escapeChar
  split
  · subst c
    exact scanString_escaped (by decide) (by decide) rest
  split
  · subst c
    exact scanString_escaped (by decide) (by decide) rest
  split
  · subst c
    exact scanString_escaped (by decide) (by decide) rest
  split
  · subst c
    exact scanString_escaped (by decide) (by decide) rest
  split
  · subst c
    exact scanString_escaped (by decide) (by decide) rest
  split
  · rename_i h
    have hcodes : charCodes c = [8] := by rw [charCodes, h]; rfl
    rw [hcodes]
    exact scanString_escaped (by decide) (by decide) rest
  split
  · rename_i h
    have hcodes : charCodes c = [12] := by rw [charCodes, h]; rfl
    rw [hcodes]
    exact scanString_escaped (by decide) (by decide) rest
  split
  · rename_i hquote hback _ _ _ _ _ hplain
    have hcodes : charCodes c = [c.toNat] := if_pos (by omega)
    have hnot : ¬ c.toNat < 0x20 := by omega
    rw [List.singleton_append, scanString.eq_def]
    simp only [if_neg hquote, if_neg hback, if_neg hnot, hcodes, List.singleton_append]
  split
  · rename_i hplane
    have hcodes : charCodes c = [c.toNat] := if_pos hplane
    rw [scanString_unicodeEscape hplane, hcodes]
    rfl
  · rename_i hplane
    have hcodes : charCodes c = _ := if_neg hplane
    rw [List.append_assoc, scanString_unicodeEscape (by omega),
      scanString_unicodeEscape (by omega), Option.map_map, hcodes]
    rfl

theorem scanString_quoted (cs rest : List Char) :
    scanString (cs.flatMap escapeChar ++ '"' :: rest) = some (cs.flatMap charCodes, rest) := by
  induction cs with
  | nil =>
    rw [List.flatMap_nil, List.nil_append, scanString.eq_def]
    exact if_pos rfl
  | cons c cs ih =>
    rw [List.flatMap_cons, List.append_assoc, scanString_escapeChar, ih]
    rfl

theorem joinCodes_charCodes (c : Char) (codes : List Nat) :
    joinCodes (charCodes c ++ codes) = (joinCodes codes).map (c :: ·) := by
  have hrange := char_toNat_cases c
  unfold charCodes
  split
  · rename_i hplane
    have hhigh : ¬ isHigh c.toNat := by
      unfold isHigh
      omega
    have hlow : ¬ isLow c.toNat := by
      unfold isLow
      omega
    rw [List.singleton_append, joinCodes.eq_def]
    simp only [if_neg hhigh, if_neg hlow, Char.ofNat_toNat]
  · rename_i hplane
    have hhigh : isHigh (0xd800 + (c.toNat - 0x10000) / 0x400) := by
      unfold isHigh
      omega
    have hlow : isLow (0xdc00 + (c.toNat - 0x10000) % 0x400) := by
      unfold isLow
      omega
    have hcode : 0x10000 + (0xd800 + (c.toNat - 0x10000) / 0x400 - 0xd800) * 0x400 +
        (0xdc00 + (c.toNat - 0x10000) % 0x400 - 0xdc00) = c.toNat := by omega
    rw [List.cons_append, List.singleton_append, joinCodes.eq_def]
    simp only [if_pos hhigh, if_pos hlow, hcode, Char.ofNat_toNat]

theorem joinCodes_flatMap (cs : List Char) : joinCodes (cs.flatMap charCodes) = some cs := by
  induction cs with
  | nil => rfl
  | cons c cs ih =>
    rw [List.flatMap_cons, joinCodes_charCodes, ih]
    rfl

/-- A quoted string is read back. -/
theorem readString_quoted (s : String) (rest : List Char) :
    readString (s.toList.flatMap escapeChar ++ '"' :: rest) = some (s, rest) := by
  rw [readString, scanString_quoted, Option.bind_some, joinCodes_flatMap, Option.map_some,
    String.ofList_toList]

/-! ### Reading what was written: numbers -/

/-- What stands behind a number and does not belong to it. -/
def EndsNumber (rest : List Char) : Prop :=
  ∀ c ∈ rest.head?, c.isDigit = false ∧ c ≠ '.' ∧ c ≠ 'e' ∧ c ≠ 'E'

theorem EndsNumber.cons {c : Char} (rest : List Char)
    (h : c.isDigit = false ∧ c ≠ '.' ∧ c ≠ 'e' ∧ c ≠ 'E') : EndsNumber (c :: rest) := by
  intro d hd
  rwa [← Option.some.inj hd]

theorem afterMark_self (mark : Char) (cs : List Char) : afterMark mark (mark :: cs) = some cs :=
  if_pos rfl

theorem afterMark_eq_none {mark : Char} {cs : List Char} (h : ∀ c ∈ cs.head?, c ≠ mark) :
    afterMark mark cs = none := by
  cases cs with
  | nil => rfl
  | cons c cs => exact if_neg (h c rfl)

theorem digitsOf_append {digits rest : List Char} (hdigits : ∀ c ∈ digits, c.isDigit = true)
    (hrest : EndsNumber rest) :
    digitsOf (digits ++ rest) = digits ∧ afterDigits (digits ++ rest) = rest := by
  have hnil : rest.takeWhile Char.isDigit = [] ∧ rest.dropWhile Char.isDigit = rest := by
    cases rest with
    | nil => exact ⟨rfl, rfl⟩
    | cons c rest =>
      have hc : ¬ c.isDigit = true := by
        rw [(hrest c rfl).1]
        decide
      exact ⟨List.takeWhile_cons_of_neg hc, List.dropWhile_cons_of_neg hc⟩
  constructor
  · rw [digitsOf, List.takeWhile_append_of_pos hdigits, hnil.1, List.append_nil]
  · rw [afterDigits, List.dropWhile_append_of_pos hdigits, hnil.2]

theorem isDigit_of_mem_decimalDigits {n : Nat} {c : Char} (h : c ∈ decimalDigits n) :
    c.isDigit = true := Nat.isDigit_of_mem_toDigits (by decide) (by decide) h

/-- Only zero is written with a zero in front. -/
theorem head_decimalDigits_ne_zero {n : Nat} (hn : 0 < n) (rest : List Char) :
    ∀ c ∈ (decimalDigits n ++ rest).head?, c ≠ '0' := by
  have hdigit : ∀ d < 10, 0 < d → Nat.digitChar d ≠ '0' := by decide
  unfold decimalDigits
  induction n using Nat.strong_induction_on generalizing rest with
  | _ n ih =>
    by_cases h : n < 10
    · rw [Nat.toDigits_of_lt_base h]
      intro c hc
      rw [← Option.some.inj hc]
      exact hdigit n h hn
    · rw [Nat.toDigits_of_base_le (by decide) (by omega), List.append_assoc]
      exact ih (n / 10) (by omega) (by omega) _

theorem intPart_decimalDigits (n : Nat) {rest : List Char} (hrest : EndsNumber rest) :
    intPart (decimalDigits n ++ rest) = some (decimalDigits n, rest) := by
  obtain rfl | hn := Nat.eq_zero_or_pos n
  · rfl
  · have hdigits := digitsOf_append (fun c hc => isDigit_of_mem_decimalDigits (n := n) hc) hrest
    rw [intPart, afterMark_eq_none (head_decimalDigits_ne_zero hn rest)]
    simp only [hdigits.1, hdigits.2, if_neg (decimalDigits_ne_nil n)]

theorem fraction_eq_nil {rest : List Char} (hrest : EndsNumber rest) :
    fraction rest = ([], rest) := by
  rw [fraction, afterMark_eq_none fun c hc => (hrest c hc).2.1]

theorem exponent_eq_nil {rest : List Char} (hrest : EndsNumber rest) :
    exponent rest = ([], rest) := by
  cases rest with
  | nil => rfl
  | cons c rest =>
    have hc := hrest c rfl
    exact if_neg fun h => h.1.elim hc.2.2.1 hc.2.2.2

theorem toList_toString_ofNat (m : Nat) : (toString (Int.ofNat m)).toList = decimalDigits m := by
  show (Nat.repr m).toList = _
  rw [Nat.repr_eq_ofList_toDigits, String.toList_ofList, decimalDigits]

theorem toList_toString_negSucc (m : Nat) :
    (toString (Int.negSucc m)).toList = '-' :: decimalDigits (m + 1) := by
  show ("-" ++ Nat.repr (m + 1)).toList = _
  rw [Nat.repr_eq_ofList_toDigits, String.toList_append, String.toList_ofList,
    String.toList_ofList, decimalDigits, List.singleton_append]

section Values

variable {floatText : String → String}

/-- A number without a fraction or an exponent is read back. -/
theorem readNumber_decimalDigits {cs rest : List Char} {sign : List Char} {n : Nat}
    (hsign : signOf cs = (sign, decimalDigits n ++ rest)) (hrest : EndsNumber rest) :
    readNumber floatText cs = some (.int (signed sign (decimalDigits n)), rest) := by
  unfold readNumber
  rw [hsign]
  dsimp only
  rw [intPart_decimalDigits n hrest]
  dsimp only [Option.map_some]
  rw [fraction_eq_nil hrest]
  dsimp only
  rw [exponent_eq_nil hrest, if_pos ⟨rfl, rfl⟩]

theorem readNumber_toString (n : Int) {rest : List Char} (hrest : EndsNumber rest) :
    readNumber floatText ((toString n).toList ++ rest) = some (.int n, rest) := by
  cases n with
  | ofNat m =>
    have hsign : signOf (decimalDigits m ++ rest) = ([], decimalDigits m ++ rest) := by
      rw [signOf, afterMark_eq_none]
      intro c hc hminus
      obtain ⟨d, ds, hsplit⟩ := List.exists_cons_of_ne_nil (decimalDigits_ne_nil m)
      have hd : d.isDigit = true := isDigit_of_mem_decimalDigits (hsplit ▸ List.mem_cons_self)
      rw [hsplit, List.cons_append] at hc
      rw [Option.some.inj hc, hminus] at hd
      exact absurd hd (by decide)
    rw [toList_toString_ofNat, readNumber_decimalDigits hsign hrest]
    show some (Json.int (decimalValue (decimalDigits m)), rest) = _
    rw [decimalValue_decimalDigits]
    rfl
  | negSucc m =>
    have hsign : signOf ('-' :: decimalDigits (m + 1) ++ rest) =
        (['-'], decimalDigits (m + 1) ++ rest) := by
      rw [signOf, List.cons_append, afterMark_self]
    rw [toList_toString_negSucc, readNumber_decimalDigits hsign hrest]
    show some (Json.int (-(decimalValue (decimalDigits (m + 1)) : Int)), rest) = _
    rw [decimalValue_decimalDigits]
    rfl

end Values

/-! ### Reading what was written: values -/

mutual

/-- No number has a fraction or an exponent, and no object has a key twice. -/
def Plain : Json → Prop
  | .float _ => False
  | .list items => PlainItems items
  | .obj fields => (fields.map Prod.fst).Nodup ∧ PlainFields fields
  | _ => True

def PlainItems : List Json → Prop
  | [] => True
  | item :: items => Plain item ∧ PlainItems items

def PlainFields : List (String × Json) → Prop
  | [] => True
  | (_, value) :: fields => Plain value ∧ PlainFields fields

end

theorem skipSpace_cons {c : Char} (cs : List Char) (h : isSpace c = false) :
    skipSpace (c :: cs) = c :: cs := by
  rw [skipSpace, List.dropWhile_cons_of_neg]
  rw [h]
  decide

theorem skipSpace_newline (depth : Nat) (cs : List Char) :
    skipSpace (newline depth ++ cs) = skipSpace cs := by
  apply List.dropWhile_append_of_pos
  intro c hc
  rcases List.mem_cons.mp hc with rfl | hc
  · rfl
  · rw [List.eq_of_mem_replicate hc]
    rfl

theorem isDigit_start {c : Char} (h : c.isDigit = true) :
    isSpace c = false ∧ c ≠ ']' ∧ c ≠ quoteMark ∧ c ≠ '[' ∧ c ≠ openBrace := by
  refine ⟨?_, ?_, ?_, ?_, ?_⟩
  · rw [Bool.eq_false_iff]
    intro hspace
    simp only [isSpace, Bool.or_eq_true, decide_eq_true_iff] at hspace
    obtain ((rfl | rfl) | rfl) | rfl := hspace
    all_goals exact absurd h (by decide)
  all_goals
    rintro rfl
    exact absurd h (by decide)

/-- What a number is written by starts with a digit or a minus. -/
theorem exists_toString_cons (n : Int) : ∃ c cs, (toString n).toList = c :: cs ∧
    isSpace c = false ∧ c ≠ ']' ∧ c ≠ quoteMark ∧ c ≠ '[' ∧ c ≠ openBrace := by
  cases n with
  | ofNat m =>
    obtain ⟨c, cs, hsplit⟩ := List.exists_cons_of_ne_nil (decimalDigits_ne_nil m)
    have hdigit : c.isDigit = true := isDigit_of_mem_decimalDigits (hsplit ▸ List.mem_cons_self)
    exact ⟨c, cs, (toList_toString_ofNat m).trans hsplit, isDigit_start hdigit⟩
  | negSucc m => exact ⟨'-', _, toList_toString_negSucc m, by decide⟩

/-- What a value starts with: no white space, and no mark that closes a list. -/
theorem exists_render_cons {v : Json} (hv : v.Plain) (depth : Nat) :
    ∃ c cs, render depth v = c :: cs ∧ isSpace c = false ∧ c ≠ ']' := by
  cases v with
  | null => exact ⟨'n', _, by rw [render]; rfl, by decide⟩
  | bool b =>
    cases b with
    | true => exact ⟨'t', _, by rw [render]; rfl, by decide⟩
    | false => exact ⟨'f', _, by rw [render]; rfl, by decide⟩
  | str s => exact ⟨'"', _, by rw [render, quote, List.cons_append], by decide⟩
  | int n =>
    obtain ⟨c, cs, hsplit, hspace, hclose, _⟩ := exists_toString_cons n
    exact ⟨c, cs, by rw [render, hsplit], hspace, hclose⟩
  | float text => exact hv.elim
  | list items =>
    cases items with
    | nil => exact ⟨'[', _, by rw [render], by decide⟩
    | cons item items => exact ⟨'[', _, by rw [render]; rfl, by decide⟩
  | obj fields =>
    cases fields with
    | nil => exact ⟨openBrace, _, by rw [render]; rfl, by decide⟩
    | cons field fields => exact ⟨openBrace, _, by rw [render]; rfl, by decide⟩

theorem skipSpace_render {v : Json} (hv : v.Plain) (depth : Nat) (rest : List Char) :
    skipSpace (render depth v ++ rest) = render depth v ++ rest := by
  obtain ⟨c, cs, hsplit, hspace, _⟩ := exists_render_cons hv depth
  rw [hsplit, List.cons_append, skipSpace_cons _ hspace]

section Values

variable {floatText : String → String}

theorem readValue_scalar {c : Char} (cs : List Char) (fuel : Nat)
    (hquote : c ≠ quoteMark) (hlist : c ≠ '[') (hobj : c ≠ openBrace) :
    readValue floatText (fuel + 1) (c :: cs) =
      (readNumber floatText (c :: cs)).or (readLiteral (c :: cs)) := by
  rw [readValue, if_neg hquote, if_neg hlist, if_neg hobj]

/-- A field is read back when its value is. -/
theorem readField_quote (key : String) {v : Json} (hv : v.Plain) {depth fuel : Nat}
    {rest : List Char}
    (hvalue : readValue floatText fuel (render depth v ++ rest) = some (v, rest)) :
    readField floatText (fuel + 1) (quote key ++ [':', ' '] ++ render depth v ++ rest) =
      some ((key, v), rest) := by
  have htext : quote key ++ [':', ' '] ++ render depth v ++ rest =
      quoteMark :: (key.toList.flatMap escapeChar ++
        '"' :: ':' :: ' ' :: (render depth v ++ rest)) := by
    simp only [quote, quoteMark, List.cons_append, List.append_assoc, List.nil_append]
  have hblank : skipSpace (' ' :: (render depth v ++ rest)) = render depth v ++ rest :=
    (List.dropWhile_cons_of_pos rfl).trans (skipSpace_render hv depth rest)
  rw [htext, readField, afterMark_self, Option.bind_some, readString_quoted, Option.bind_some]
  dsimp only
  rw [skipSpace_cons _ (by decide), afterMark_self, Option.bind_some, hblank, hvalue]
  rfl

/-- The mark that closes a list or an object is found behind its items. -/
theorem close_newline (mark : Char) (hspace : isSpace mark = false) (hcomma : mark ≠ ',')
    (depth : Nat) (rest : List Char) :
    afterMark ',' (skipSpace (newline depth ++ mark :: rest)) = none ∧
      afterMark mark (skipSpace (newline depth ++ mark :: rest)) = some rest := by
  rw [skipSpace_newline, skipSpace_cons _ hspace]
  exact ⟨if_neg hcomma, afterMark_self mark rest⟩

theorem endsNumber_items (depth depth' : Nat) (items : List Json) (rest : List Char) :
    EndsNumber (renderItems depth items ++ (newline depth' ++ rest)) := by
  cases items with
  | nil => exact EndsNumber.cons _ (by decide)
  | cons item items =>
    rw [renderItems]
    exact EndsNumber.cons _ (by decide)

theorem endsNumber_fields (depth depth' : Nat) (fields : List (String × Json))
    (rest : List Char) :
    EndsNumber (renderFields depth fields ++ (newline depth' ++ rest)) := by
  cases fields with
  | nil => exact EndsNumber.cons _ (by decide)
  | cons field fields =>
    rw [renderFields]
    exact EndsNumber.cons _ (by decide)

theorem length_newline (depth : Nat) : (newline depth).length = 2 * depth + 1 := by
  rw [newline, List.length_cons, List.length_replicate]

/-- The item behind a bracket or a comma is come to over the line end. -/
theorem skipSpace_newline_render {v : Json} (hv : v.Plain) (depth depth' : Nat)
    (rest : List Char) :
    skipSpace (newline depth' ++ (render depth v ++ rest)) = render depth v ++ rest := by
  rw [skipSpace_newline, skipSpace_render hv]

theorem skipSpace_newline_quote (key : String) (depth : Nat) (rest : List Char) :
    skipSpace (newline depth ++ (quote key ++ rest)) = quote key ++ rest := by
  rw [skipSpace_newline, quote, List.cons_append]
  exact skipSpace_cons _ (by decide)

mutual

/-- A value is read back from its text, whatever stands behind it that does not continue a
number. -/
theorem readValue_render : ∀ (v : Json), v.Plain → ∀ (depth fuel : Nat) (rest : List Char),
    (render depth v).length ≤ fuel → EndsNumber rest →
      readValue floatText fuel (render depth v ++ rest) = some (v, rest)
  | v, hv, depth, 0, rest, hfuel, hrest => by
    obtain ⟨c, cs, hsplit, _⟩ := exists_render_cons hv depth
    rw [hsplit] at hfuel
    exact absurd hfuel (Nat.not_succ_le_zero _)
  | .null, _, depth, fuel + 1, rest, _, _ => by
    rw [render]
    exact readValue_scalar _ fuel (by decide) (by decide) (by decide)
  | .bool true, _, depth, fuel + 1, rest, _, _ => by
    rw [render]
    exact readValue_scalar _ fuel (by decide) (by decide) (by decide)
  | .bool false, _, depth, fuel + 1, rest, _, _ => by
    rw [render]
    exact readValue_scalar _ fuel (by decide) (by decide) (by decide)
  | .str s, _, depth, fuel + 1, rest, _, _ => by
    rw [render, quote, List.cons_append, List.cons_append, readValue, if_pos (by decide),
      List.append_assoc, List.singleton_append, readString_quoted]
    rfl
  | .int n, _, depth, fuel + 1, rest, _, hrest => by
    obtain ⟨c, cs, hsplit, _, _, hquote, hlist, hobj⟩ := exists_toString_cons n
    have hnumber : readNumber floatText _ = _ := readNumber_toString n hrest
    rw [render]
    rw [hsplit, List.cons_append] at hnumber ⊢
    rw [readValue_scalar _ fuel hquote hlist hobj, hnumber]
    rfl
  | .float text, hv, _, _, _, _, _ => hv.elim
  | .list [], _, depth, fuel + 1, rest, _, _ => by
    rw [render]
    rfl
  | .list (item :: items), hv, depth, fuel + 1, rest, hfuel, _ => by
    obtain ⟨hitem, hitems⟩ := hv
    have htext : render depth (.list (item :: items)) ++ rest = '[' :: (newline (depth + 1) ++
        (render (depth + 1) item ++ (renderItems (depth + 1) items ++
          (newline depth ++ ']' :: rest)))) := by
      rw [render]
      simp only [List.cons_append, List.append_assoc, List.nil_append]
    have hlength := congrArg List.length htext
    simp only [List.length_cons, List.length_append, length_newline] at hlength
    have hopen : afterMark ']' (render (depth + 1) item ++ (renderItems (depth + 1) items ++
        (newline depth ++ ']' :: rest))) = none := by
      obtain ⟨c, cs, hsplit, _, hclose⟩ := exists_render_cons hitem (depth + 1)
      rw [hsplit]
      exact if_neg hclose
    rw [htext, readValue, if_neg (by decide), if_pos rfl, skipSpace_newline_render hitem, hopen]
    dsimp only
    rw [readValue_render item hitem _ _ _ (by omega) (endsNumber_items _ _ _ _), Option.bind_some,
      readItems_render items hitems _ _ _ _ (by omega)]
    rfl
  | .obj [], _, depth, fuel + 1, rest, _, _ => by
    rw [render]
    rfl
  | .obj ((key, value) :: fields), hv, depth, 1, rest, hfuel, _ => by
    rw [render] at hfuel
    simp only [List.length_cons, List.length_append, length_newline] at hfuel
    omega
  | .obj ((key, value) :: fields), hv, depth, fuel + 2, rest, hfuel, _ => by
    obtain ⟨hkeys, hvalue, hfields⟩ := hv
    have htext : render depth (.obj ((key, value) :: fields)) ++ rest =
        openBrace :: (newline (depth + 1) ++ (quote key ++ ([':', ' '] ++
          (render (depth + 1) value ++ (renderFields (depth + 1) fields ++
            (newline depth ++ closeBrace :: rest)))))) := by
      rw [render]
      simp only [List.cons_append, List.append_assoc, List.nil_append, openBrace, closeBrace]
    have hlength := congrArg List.length htext
    simp only [List.length_cons, List.length_append, length_newline] at hlength
    have hread := readField_quote key hvalue (readValue_render value hvalue (depth + 1)
      fuel _ (by omega) (endsNumber_fields (depth + 1) depth fields (closeBrace :: rest)))
    rw [List.append_assoc, List.append_assoc] at hread
    rw [htext, readValue, if_neg (by decide), if_neg (by decide), if_pos rfl,
      skipSpace_newline_quote]
    show ((readField floatText (fuel + 1) _).bind _) = _
    rw [hread, Option.bind_some, readFields_render fields hfields _ _ _ _ (by omega),
      Option.map_some, Dict.entries_ofList hkeys]

theorem readItems_render : ∀ (items : List Json), PlainItems items →
    ∀ (depth depth' fuel : Nat) (rest : List Char), (renderItems depth items).length < fuel →
      readItems floatText fuel (renderItems depth items ++ (newline depth' ++ ']' :: rest)) =
        some (items, rest)
  | _, _, _, _, 0, _, hfuel => absurd hfuel (Nat.not_lt_zero _)
  | [], _, depth, depth', fuel + 1, rest, _ => by
    obtain ⟨hcomma, hclose⟩ := close_newline ']' (by decide) (by decide) depth' rest
    rw [renderItems, List.nil_append, readItems, hcomma]
    dsimp only
    rw [hclose]
    rfl
  | item :: items, hplain, depth, depth', fuel + 1, rest, hfuel => by
    obtain ⟨hitem, hitems⟩ := hplain
    have htext : renderItems depth (item :: items) ++ (newline depth' ++ ']' :: rest) =
        ',' :: (newline depth ++ (render depth item ++ (renderItems depth items ++
          (newline depth' ++ ']' :: rest)))) := by
      rw [renderItems]
      simp only [List.cons_append, List.append_assoc]
    have hlength := congrArg List.length htext
    simp only [List.length_cons, List.length_append, length_newline] at hlength
    rw [htext, readItems, skipSpace_cons _ (by decide), afterMark_self]
    dsimp only
    rw [skipSpace_newline_render hitem,
      readValue_render item hitem _ _ _ (by omega) (endsNumber_items _ _ _ _), Option.bind_some,
      readItems_render items hitems _ _ _ _ (by omega)]
    rfl

theorem readFields_render : ∀ (fields : List (String × Json)), PlainFields fields →
    ∀ (depth depth' fuel : Nat) (rest : List Char), (renderFields depth fields).length < fuel →
      readFields floatText fuel
          (renderFields depth fields ++ (newline depth' ++ closeBrace :: rest)) =
        some (fields, rest)
  | _, _, _, _, 0, _, hfuel => absurd hfuel (Nat.not_lt_zero _)
  | [], _, depth, depth', fuel + 1, rest, _ => by
    obtain ⟨hcomma, hclose⟩ :=
      close_newline closeBrace (by decide) (by decide) depth' rest
    rw [renderFields, List.nil_append, readFields, hcomma]
    dsimp only
    rw [hclose]
    rfl
  | (key, value) :: fields, hplain, depth, depth', 1, rest, hfuel => by
    rw [renderFields] at hfuel
    simp only [List.length_cons, List.length_append, length_newline] at hfuel
    omega
  | (key, value) :: fields, hplain, depth, depth', fuel + 2, rest, hfuel => by
    obtain ⟨hvalue, hfields⟩ := hplain
    have htext : renderFields depth ((key, value) :: fields) ++
        (newline depth' ++ closeBrace :: rest) =
        ',' :: (newline depth ++ (quote key ++ ([':', ' '] ++ (render depth value ++
          (renderFields depth fields ++ (newline depth' ++ closeBrace :: rest)))))) := by
      rw [renderFields]
      simp only [List.cons_append, List.append_assoc, List.nil_append]
    have hlength := congrArg List.length htext
    simp only [List.length_cons, List.length_append, length_newline] at hlength
    have hread := readField_quote key hvalue (readValue_render value hvalue depth fuel _
      (by omega) (endsNumber_fields depth depth' fields (closeBrace :: rest)))
    rw [List.append_assoc, List.append_assoc] at hread
    rw [htext, readFields, skipSpace_cons _ (by decide), afterMark_self]
    dsimp only
    rw [skipSpace_newline_quote, hread, Option.bind_some,
      readFields_render fields hfields _ _ _ _ (by omega)]
    rfl

end

/-- What `dumps` writes `loads` reads back. -/
theorem loads_dumps {v : Json} (hv : v.Plain) : loads floatText (dumps v) = some v := by
  have hread : readValue floatText _ _ = _ :=
    readValue_render v hv 0 ((render 0 v).length + 1) [] (Nat.le_succ _) fun _ h => nomatch h
  have hstart := skipSpace_render hv 0 []
  rw [List.append_nil] at hread hstart
  rw [loads, dumps, String.length_ofList, String.toList_ofList, hstart, hread]
  rfl

/-- A text file ends in a newline, which is passed over. -/
theorem loads_dumps_newline {v : Json} (hv : v.Plain) :
    loads floatText (dumps v ++ "\n") = some v := by
  have hread : readValue floatText _ _ = _ :=
    readValue_render v hv 0 ((render 0 v).length + 2) ['\n'] (Nat.le_add_right _ 2)
      (EndsNumber.cons [] (by decide))
  have hstart := skipSpace_render hv 0 ['\n']
  rw [loads, dumps, String.length_append, String.toList_append, String.length_ofList,
    String.toList_ofList]
  have hnewline : "\n".toList = ['\n'] := rfl
  have hone : "\n".length = 1 := rfl
  rw [hnewline, hone, hstart, hread]
  rfl

end Values

end Lib.Json
