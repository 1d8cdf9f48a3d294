import Mathlib

/-!
# The fragment of Python's `re` that boolean searches need

A pattern maps a position to every position where a match of it can end. A
position is what is left of the text, with a flag for its very start. Repetition
is of single-character classes only, so a match never needs fuel.
-/
namespace Lib

inductive Regex
  | char (p : Char → Bool)
  | seq (r s : Regex)
  | alt (r s : Regex)
  /-- `[class]{least,}` -/
  | rep (p : Char → Bool) (least : Nat)
  | bol
  | eol
  /-- `(?=...)` -/
  | ahead (r : Regex)

namespace Regex

structure Pos where
  atStart : Bool
  rest : List Char

/-- The ends of runs of at least `least` characters of a class. -/
def runs (p : Char → Bool) : Nat → Bool → List Char → List Pos
  | 0, start, [] => [⟨start, []⟩]
  | _ + 1, _, [] => []
  | 0, start, c :: cs => ⟨start, c :: cs⟩ :: (if p c then runs p 0 false cs else [])
  | n + 1, _, c :: cs => if p c then runs p n false cs else []

def ends : Regex → Pos → List Pos
  | char p, at_ =>
    match at_.rest with
    | [] => []
    | c :: cs => if p c then [⟨false, cs⟩] else []
  | seq r s, at_ => (ends r at_).flatMap (ends s)
  | alt r s, at_ => ends r at_ ++ ends s at_
  | rep p least, at_ => runs p least at_.atStart at_.rest
  | bol, at_ => if at_.atStart then [at_] else []
  -- without MULTILINE, `$` also matches before one final newline
  | eol, at_ => if at_.rest = [] ∨ at_.rest = ['\n'] then [at_] else []
  | ahead r, at_ => if (ends r at_).isEmpty then [] else [at_]

def startsAt (r : Regex) (at_ : Pos) : Bool := !(ends r at_).isEmpty

/-- `re.match`: at the start of the text. -/
def matchStart (r : Regex) (text : String) : Bool := startsAt r ⟨true, text.toList⟩

def searchFrom (r : Regex) (start : Bool) : List Char → Bool
  | [] => startsAt r ⟨start, []⟩
  | c :: cs => startsAt r ⟨start, c :: cs⟩ || searchFrom r false cs

/-- `re.search`: anywhere in the text. -/
def search (r : Regex) (text : String) : Bool := searchFrom r true text.toList

/-- A literal of at least one character. -/
def lit : Char → List Char → Regex
  | c, [] => char (· == c)
  | c, d :: cs => seq (char (· == c)) (lit d cs)

end Regex

/-- `[0-9a-fA-F]` -/
def isHexDigit (c : Char) : Bool :=
  (c.val ≥ 48 && c.val ≤ 57) || (c.val ≥ 97 && c.val ≤ 102) || (c.val ≥ 65 && c.val ≤ 70)

/-- `[a-zA-Z0-9_]` -/
def isAsciiWord (c : Char) : Bool :=
  (c.val ≥ 48 && c.val ≤ 57) || (c.val ≥ 97 && c.val ≤ 122) || (c.val ≥ 65 && c.val ≤ 90) ||
    c == '_'

/-- The zeros of the decimal digit blocks (Unicode category `Nd`). -/
def decimalZeros : List Nat :=
  [0x30, 0x660, 0x6f0, 0x7c0, 0x966, 0x9e6, 0xa66, 0xae6, 0xb66, 0xbe6, 0xc66, 0xce6, 0xd66,
    0xde6, 0xe50, 0xed0, 0xf20, 0x1040, 0x1090, 0x17e0, 0x1810, 0x1946, 0x19d0, 0x1a80, 0x1a90,
    0x1b50, 0x1bb0, 0x1c40, 0x1c50, 0xa620, 0xa8d0, 0xa900, 0xa9d0, 0xa9f0, 0xaa50, 0xabf0,
    0xff10, 0x104a0, 0x10d30, 0x11066, 0x110f0, 0x11136, 0x111d0, 0x112f0, 0x11450, 0x114d0,
    0x11650, 0x116c0, 0x11730, 0x118e0, 0x11950, 0x11c50, 0x11d50, 0x11da0, 0x16a60, 0x16ac0,
    0x16b50, 0x1d7ce, 0x1d7d8, 0x1d7e2, 0x1d7ec, 0x1d7f6, 0x1e140, 0x1e2f0, 0x1e950, 0x1fbf0]

/-- `\d` on text: any decimal digit, not only the ASCII ones. -/
def isDecimal (c : Char) : Bool :=
  decimalZeros.any fun z => z ≤ c.toNat && c.toNat < z + 10

end Lib
