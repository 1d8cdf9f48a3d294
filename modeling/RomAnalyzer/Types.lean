import Mathlib

/-!
# Shared records

The records the stages hand to one another. Addresses are naturals. Scores and
similarities are floats that are only compared, or formed as quotients of
counts; they are rationals here, which keeps every comparison decidable.
-/
namespace RomAnalyzer

inductive SymbolCategory
  | function
  | data
  | ramGlobal
  deriving DecidableEq, Repr

inductive ConfidenceTier
  | auto
  | inferred
  | low
  | medium
  | high
  | verified
  deriving DecidableEq, Repr

inductive CrcBand
  | partialCrc
  | fullCrcOnly
  | unprotected
  deriving DecidableEq, Repr

/-- A ROM image. -/
abbrev Bytes := List UInt8

structure ReferenceSymbol where
  name : String
  address : Nat
  category : SymbolCategory
  deriving DecidableEq, Repr

structure MatchedFunction where
  refName : String
  refAddress : Nat
  newAddress : Nat
  similarity : ℚ
  source : String := "vt_diff"
  /-- origin reference id -/
  reference : String := ""
  deriving DecidableEq, Repr

structure PropagatedSymbol where
  name : String
  refAddress : Nat
  newAddress : Nat
  category : SymbolCategory
  confidence : ConfidenceTier
  source : String := ""
  score : ℚ := 0
  /-- origin reference id -/
  reference : String := ""
  /-- `false` marks a cross-family RAM or data label -/
  familyMatch : Bool := true
  deriving DecidableEq, Repr

structure CrcRegion where
  fullStart : Nat
  fullEnd : Nat
  partialStart : Nat
  partialEnd : Nat
  deriving DecidableEq, Repr

structure FlashFreeBlock where
  band : CrcBand
  start : Nat
  end_ : Nat
  length : Nat
  deriving DecidableEq, Repr

/-- Read memory, written memory, or a scalar operand taken for an address. -/
inductive DataRefType
  | read
  | write
  | scalar
  deriving DecidableEq, Repr

structure DataRef where
  instructionOffset : Int
  referencedAddress : Nat
  label : Option String := none
  refType : DataRefType := .read
  deriving DecidableEq, Repr

end RomAnalyzer
