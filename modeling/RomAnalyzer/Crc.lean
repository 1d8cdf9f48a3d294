import RomAnalyzer.Lib.Hex
import RomAnalyzer.Lib.Ranked
import RomAnalyzer.Lib.Text
import RomAnalyzer.Types

/-!
# The CRC region

The bounds of the checked flash are read off the instructions of
`rom_crc_check_step`: constants loaded twice bound the region, constants that a
store follows start it. The instructions are text, so a constant may be any
integer.
-/
namespace RomAnalyzer.Crc

open Lib

structure Instruction where
  mnemonic : String
  operands : List String
  deriving DecidableEq, Repr

/-- The bounds as extracted. -/
structure Region where
  fullStart : Int
  fullEnd : Int
  partialStart : Int
  partialEnd : Int
  deriving DecidableEq, Repr

/-- An immediate constant load. -/
structure ConstLoad where
  /-- of the SETH for pairs -/
  index : Nat
  value : Int
  /-- destination register, in lower case -/
  reg : String
  /-- instructions consumed -/
  width : Nat
  deriving DecidableEq, Repr

/-! ### Extraction -/

/-- Mnemonics and operands are ASCII. -/
def lower (s : String) : String := s.toLower

/-- `s.replace(" ", "")` -/
def squeeze (s : String) : String := String.ofList (s.toList.filter fun c => c ≠ ' ')

def parseImm (operand : String) : Option Int :=
  readInt 0 (strip (operand.toList.dropWhile fun c => c = '#'))

/-- The immediate of ADD3 is sign-extended from sixteen bits. -/
def signExtend16 (l : Int) : Int :=
  let l16 := l % 0x10000
  if 0x8000 ≤ l16 then l16 - 0x10000 else l16

/-- SETH and ADD3 on one register. -/
def pairLoad (i : Nat) (a b : Instruction) : Option ConstLoad :=
  if lower a.mnemonic = "seth" ∧ lower b.mnemonic = "add3" then
    match a.operands, b.operands with
    | x :: hi :: _, y :: z :: lo :: _ =>
      if lower x = lower y ∧ lower y = lower z then
        match parseImm hi, parseImm lo with
        | some h, some l => some ⟨i, h * 0x10000 + signExtend16 l, lower x, 2⟩
        | _, _ => none
      else none
    | _, _ => none
  else none

/-- LD24, unless its operand is rendered as a symbol name. -/
def singleLoad (i : Nat) (a : Instruction) : Option ConstLoad :=
  if lower a.mnemonic = "ld24" then
    match a.operands with
    | x :: imm :: _ => (parseImm imm).map fun v => ⟨i, v, lower x, 1⟩
    | _ => none
  else none

def collectFrom : Nat → List Instruction → List ConstLoad
  | _, [] => []
  | i, [a] => (singleLoad i a).toList
  | i, a :: b :: rest =>
    match pairLoad i a b with
    | some l => l :: collectFrom (i + 2) rest
    | none => (singleLoad i a).toList ++ collectFrom (i + 1) (b :: rest)

/-- All immediate constant loads, in the order of the stream. -/
def collectConstants (instrs : List Instruction) : List ConstLoad := collectFrom 0 instrs

/-- The four instructions behind a load. -/
def window (instrs : List Instruction) (l : ConstLoad) : List Instruction :=
  (instrs.drop (l.index + l.width)).take 4

def isCompare (a : Instruction) : Bool :=
  lower a.mnemonic = "cmpu" || lower a.mnemonic = "cmp"

/-- The register of the load is the first operand. -/
def comparesFirst (l : ConstLoad) (a : Instruction) : Bool :=
  match a.operands with
  | x :: _ :: _ => squeeze (lower x) = squeeze l.reg
  | _ => false

/-- The end of the region: one past the bound if the first load of the bound is compared
as `bound < ptr`, and the bound itself otherwise. -/
def findExclusiveEnd (instrs : List Instruction) (loads : List ConstLoad) (endBound : Int) : Int :=
  match loads.find? fun l => l.value = endBound with
  | none => endBound
  | some l =>
    match (window instrs l).find? isCompare with
    | none => endBound
    | some a => if comparesFirst l a then endBound + 1 else endBound

def storeFollows (instrs : List Instruction) (l : ConstLoad) : Bool :=
  (window instrs l).any fun a => lower a.mnemonic = "st"

/-- The values that are loaded at least twice. -/
def repeated (loads : List ConstLoad) : List Int :=
  let values := loads.map ConstLoad.value
  values.dedup.filter fun v => 2 ≤ values.count v

/-- The loads of other values that an ST follows. -/
def startLoads (instrs : List Instruction) (loads : List ConstLoad) (endBound : Int) :
    List ConstLoad :=
  loads.filter fun l => l.value ≠ endBound ∧ storeFollows instrs l

inductive CrcExtractionError
  | noLoads
  | noRepeated (loads : List ConstLoad)
  | fewStarts (starts : List Int) (loads : List ConstLoad)
  | swapped (fullStart partialStart : Int)
  deriving DecidableEq, Repr

/-- `hex(v)` -/
def hex (v : Int) : String := (if v < 0 then "-" else "") ++ hexText v.natAbs

/-- `[hex(v) for v in values]`, as a list is printed -/
def hexList (values : List Int) : String :=
  "[" ++ ", ".intercalate (values.map fun v => "'" ++ hex v ++ "'") ++ "]"

def CrcExtractionError.message : CrcExtractionError → String
  | .noLoads => "No immediate constant loads (seth/add3 or ld24) found in instruction stream"
  | .noRepeated loads =>
    "No constant value appears ≥2 times (expected end bound in both branches); values found: " ++
      hexList (sortBy id (loads.map ConstLoad.value).dedup)
  | .fewStarts starts loads =>
    "Expected two wrap-around start constants stored to fp slot; got " ++ hexList starts ++
      ". Loads: [" ++ ", ".intercalate (loads.map fun l =>
        "('" ++ hex l.value ++ "', " ++ toString l.index ++ ")") ++ "]"
  | .swapped fullStart partialStart =>
    "Branch ordering sanity check failed: expected full_start (" ++ hex fullStart ++
      ") <= partial_start (" ++ hex partialStart ++
      "); Ghidra may have decoded branches in reverse order."

def extractCrcRegion (instrs : List Instruction) : Except CrcExtractionError Region :=
  let loads := collectConstants instrs
  if loads = [] then .error .noLoads
  else
    match (repeated loads).max? with
    | none => .error (.noRepeated loads)
    | some endBound =>
      let exclusiveEnd := findExclusiveEnd instrs loads endBound
      match (startLoads instrs loads endBound).map ConstLoad.value with
      | fullStart :: partialStart :: _ =>
        if partialStart < fullStart then .error (.swapped fullStart partialStart)
        else .ok ⟨fullStart, exclusiveEnd, partialStart, exclusiveEnd⟩
      | starts => .error (.fewStarts starts loads)

/-! ### The loads of a stream -/

/-- The load that the first instructions of a list are, if they are one. -/
def headLoad (i : Nat) : List Instruction → Option ConstLoad
  | [] => none
  | [a] => singleLoad i a
  | a :: b :: _ => (pairLoad i a b).or (singleLoad i a)

/-- The load stands in the stream. -/
def LoadOf (instrs : List Instruction) (l : ConstLoad) : Prop :=
  headLoad l.index (instrs.drop l.index) = some l

theorem singleLoad_spec {i : Nat} {a : Instruction} {l : ConstLoad}
    (h : singleLoad i a = some l) : lower a.mnemonic = "ld24" ∧ l.index = i ∧ l.width = 1 := by
  unfold singleLoad at h
  split at h
  · rename_i hm
    split at h
    · obtain ⟨v, _, rfl⟩ := Option.map_eq_some_iff.mp h
      exact ⟨hm, rfl, rfl⟩
    · cases h
  · cases h

theorem pairLoad_spec {i : Nat} {a b : Instruction} {l : ConstLoad}
    (h : pairLoad i a b = some l) :
    lower a.mnemonic = "seth" ∧ lower b.mnemonic = "add3" ∧ l.index = i ∧ l.width = 2 := by
  unfold pairLoad at h
  split at h
  · rename_i hm
    split at h
    · split at h
      · split at h
        · obtain rfl := Option.some.inj h
          exact ⟨hm.1, hm.2, rfl, rfl⟩
        · cases h
      · cases h
    · cases h
  · cases h

/-- A load is a pair of two instructions or a single one, at its index. -/
theorem headLoad_spec {i : Nat} {instrs : List Instruction} {l : ConstLoad}
    (h : headLoad i instrs = some l) :
    l.index = i ∧
      ((∃ a b rest, instrs = a :: b :: rest ∧ lower a.mnemonic = "seth" ∧
          lower b.mnemonic = "add3" ∧ l.width = 2) ∨
        ∃ a rest, instrs = a :: rest ∧ lower a.mnemonic = "ld24" ∧ l.width = 1) := by
  match instrs, h with
  | [a], h =>
    obtain ⟨hm, hi, hw⟩ := singleLoad_spec h
    exact ⟨hi, Or.inr ⟨a, [], rfl, hm, hw⟩⟩
  | a :: b :: rest, h =>
    rcases Option.or_eq_some_iff.mp h with hpair | ⟨_, hsingle⟩
    · obtain ⟨ha, hb, hi, hw⟩ := pairLoad_spec hpair
      exact ⟨hi, Or.inl ⟨a, b, rest, rfl, ha, hb, hw⟩⟩
    · obtain ⟨hm, hi, hw⟩ := singleLoad_spec hsingle
      exact ⟨hi, Or.inr ⟨a, b :: rest, rfl, hm, hw⟩⟩

/-- What an ADD3 starts is no load. -/
theorem headLoad_of_add3 {a : Instruction} (hm : lower a.mnemonic = "add3") (i : Nat)
    (rest : List Instruction) : headLoad i (a :: rest) = none := by
  by_contra hne
  obtain ⟨l, hl⟩ := Option.ne_none_iff_exists'.mp hne
  rcases (headLoad_spec hl).2 with ⟨a', b, rest', heq, ha, _⟩ | ⟨a', rest', heq, ha, _⟩
  · obtain ⟨rfl, _⟩ := List.cons.inj heq
    exact absurd (hm.symm.trans ha) (by decide)
  · obtain ⟨rfl, _⟩ := List.cons.inj heq
    exact absurd (hm.symm.trans ha) (by decide)

/-- Skipping the ADD3 of a pair loses no load. -/
theorem mem_collectFrom {i : Nat} {instrs : List Instruction} {l : ConstLoad} :
    l ∈ collectFrom i instrs ↔ ∃ k, headLoad (i + k) (instrs.drop k) = some l := by
  induction i, instrs using collectFrom.induct with
  | case1 i => simp [collectFrom, headLoad]
  | case2 i a =>
    rw [collectFrom, Option.mem_toList]
    constructor
    · exact fun h => ⟨0, h⟩
    · intro hgiven
      obtain ⟨k, hk⟩ := hgiven
      cases k with
      | zero => exact hk
      | succ k => simp [headLoad] at hk
  | case3 i a b rest l' hpair ih =>
    have hhead : headLoad i (a :: b :: rest) = some l' := by
      rw [headLoad, hpair, Option.some_or]
    rw [collectFrom, hpair, List.mem_cons, ih]
    constructor
    · intro hgiven
      obtain rfl | ⟨k, hk⟩ := hgiven
      · exact ⟨0, hhead⟩
      · have hidx : i + (k + 2) = i + 2 + k := by omega
        exact ⟨k + 2, by rw [hidx]; exact hk⟩
    · intro hgiven
      obtain ⟨k, hk⟩ := hgiven
      match k, hk with
      | 0, hk => exact Or.inl (Option.some.inj (hk.symm.trans hhead))
      | 1, hk =>
        rw [List.drop_one, List.tail_cons, headLoad_of_add3 (pairLoad_spec hpair).2.1] at hk
        cases hk
      | k + 2, hk =>
        have hidx : i + (k + 2) = i + 2 + k := by omega
        rw [hidx] at hk
        exact Or.inr ⟨k, hk⟩
  | case4 i a b rest hpair ih =>
    have hhead : headLoad i (a :: b :: rest) = singleLoad i a := by
      rw [headLoad, hpair, Option.none_or]
    rw [collectFrom, hpair, List.mem_append, Option.mem_toList, ih]
    constructor
    · intro hgiven
      obtain h | ⟨k, hk⟩ := hgiven
      · exact ⟨0, hhead.trans h⟩
      · have hidx : i + (k + 1) = i + 1 + k := by omega
        exact ⟨k + 1, by rw [hidx]; exact hk⟩
    · intro hgiven
      obtain ⟨k, hk⟩ := hgiven
      match k, hk with
      | 0, hk => exact Or.inl (hhead.symm.trans hk)
      | k + 1, hk =>
        have hidx : i + (k + 1) = i + 1 + k := by omega
        rw [hidx] at hk
        exact Or.inr ⟨k, hk⟩

theorem mem_collectConstants {instrs : List Instruction} {l : ConstLoad} :
    l ∈ collectConstants instrs ↔ LoadOf instrs l := by
  rw [collectConstants, mem_collectFrom]
  constructor
  · intro hgiven
    obtain ⟨k, hk⟩ := hgiven
    rw [Nat.zero_add] at hk
    rw [LoadOf, (headLoad_spec hk).1]
    exact hk
  · intro h
    exact ⟨l.index, by rw [Nat.zero_add]; exact h⟩

theorem collectFrom_pairwise (i : Nat) (instrs : List Instruction) :
    (collectFrom i instrs).Pairwise fun l l' => l.index < l'.index := by
  have hlater : ∀ {i instrs l}, l ∈ collectFrom i instrs → i ≤ l.index := by
    intro i instrs l hl
    obtain ⟨k, hk⟩ := mem_collectFrom.mp hl
    rw [(headLoad_spec hk).1]
    exact Nat.le_add_right i k
  induction i, instrs using collectFrom.induct with
  | case1 i => exact List.Pairwise.nil
  | case2 i a =>
    rw [collectFrom]
    cases singleLoad i a with
    | none => exact List.Pairwise.nil
    | some l => exact List.pairwise_singleton _ l
  | case3 i a b rest l hpair ih =>
    rw [collectFrom, hpair, List.pairwise_cons]
    refine ⟨fun l' hl' => ?_, ih⟩
    have hi := (pairLoad_spec hpair).2.2.1
    have hle := hlater hl'
    omega
  | case4 i a b rest hpair ih =>
    rw [collectFrom, hpair]
    cases hsingle : singleLoad i a with
    | none => exact ih
    | some l =>
      show (l :: collectFrom (i + 1) (b :: rest)).Pairwise _
      rw [List.pairwise_cons]
      refine ⟨fun l' hl' => ?_, ih⟩
      have hi := (singleLoad_spec hsingle).2.1
      have hle := hlater hl'
      omega

end RomAnalyzer.Crc
