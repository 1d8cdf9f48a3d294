import RomAnalyzer.Callgraph.Align
import RomAnalyzer.Lib.Scan

/-!
# Bootstrap anchors

Anchor pairs from tables both ROMs have: the two vector tables, the MUT table,
and the DTC and fault-bitmask tables.
-/
namespace RomAnalyzer.Callgraph

open Lib
open Ghidra (HeadlessRun)

/-! ### Bytes -/

def byteAt (data : Bytes) (i : Nat) : Nat := (data.getD i 0).toNat

/-- `haystack.find(needle, start)` -/
def findBytes (haystack needle : Bytes) (start : Nat) : Option Nat :=
  (List.range (haystack.length + 1 - needle.length)).find? fun i =>
    start ≤ i ∧ slice haystack i needle.length = needle

/-- The position of a pattern that occurs exactly once. -/
def findOnce (haystack needle : Bytes) : Option Nat :=
  match findBytes haystack needle 0 with
  | none => none
  | some pos => if (findBytes haystack needle (pos + 1)).isSome then none else some pos

def hexDigitValue (c : Char) : Nat :=
  if c.isDigit then c.toNat - '0'.toNat else c.toNat - 'a'.toNat + 10

def fromHex : List Char → Bytes
  | hi :: lo :: rest => UInt8.ofNat (16 * hexDigitValue hi + hexDigitValue lo) :: fromHex rest
  | _ => []

/-- An M32R `bra` is `0xFF` and a signed 24-bit word displacement. -/
def decodeBraTarget (romBytes : Bytes) (pos : Nat) : Option Nat :=
  if romBytes.length < pos + 4 then none
  else if byteAt romBytes pos ≠ 0xFF then none
  else
    let disp24 : Nat := (byteAt romBytes (pos + 1) <<< 16) ||| (byteAt romBytes (pos + 2) <<< 8) |||
      byteAt romBytes (pos + 3)
    let disp : Int := if disp24 &&& 0x800000 ≠ 0 then disp24 - 0x1000000 else disp24
    let target : Int := pos + disp * 4
    if 0 < target ∧ target < romBytes.length then some target.toNat else none

/-- A plain big-endian handler address, unless unset, unaligned or out of the ROM. -/
def decodeIcuEntry (romBytes : Bytes) (pos : Nat) : Option Nat :=
  if romBytes.length < pos + 4 then none
  else
    let addr := byteAt romBytes pos * 0x1000000 + byteAt romBytes (pos + 1) * 0x10000 +
      byteAt romBytes (pos + 2) * 0x100 + byteAt romBytes (pos + 3)
    if addr = 0 ∨ addr = 0xFFFFFFFF then none
    else if addr % 4 ≠ 0 then none
    else if romBytes.length ≤ addr then none
    else some addr

/-- The PIDs 0x80..0x82 point at consecutive RAM bytes `A`, `A+1` and `A+3`. -/
def isMutTriplet (romBytes : Bytes) (candidate : Nat) : Bool :=
  let b := fun i => byteAt romBytes (candidate + i)
  b 0 = 0x00 ∧ b 1 = 0x80 ∧ b 4 = 0x00 ∧ b 5 = 0x80 ∧ b 8 = 0x00 ∧ b 9 = 0x80 ∧
    b 6 = b 2 ∧ b 10 = b 2 ∧ b 7 = (b 3 + 1) &&& 0xFF ∧ b 11 = (b 3 + 3) &&& 0xFF

def findMutTableByTriplet (romBytes : Bytes) : Option Nat :=
  ((range4 0 (romBytes.length - 0x210)).find? fun candidate =>
    0x200 ≤ candidate ∧ isMutTriplet romBytes candidate).map fun candidate => candidate - 0x200

/-- The first function whose data references include the table. -/
def findHandlerForTable (run : HeadlessRun) (tableAddr : Nat) : Option Nat :=
  (run.dataRefs.entries.find? fun e =>
    e.2.any fun r => r.referencedAddress = tableAddr).map Prod.fst

/-- The last `bra` of a function body that leaves it for a plausible entry point. -/
def findBraTailCall (romBytes : Bytes) (funcStart funcSize : Nat) (exclude : List Nat) :
    Option Nat :=
  let end_ := funcStart + funcSize
  ((range4 funcStart end_).filterMap fun pos =>
    match decodeBraTarget romBytes pos with
    | none => none
    | some target =>
      if funcStart ≤ target ∧ target < end_ then none
      else if target < 0x200 then none
      else if target % 4 ≠ 0 then none
      else if target ∈ exclude then none
      else some target).getLast?

/-! ### Names and duplicates -/

/-- `a or b` on an optional name: a blank name counts as missing. -/
def nameOr (name : Option String) (fallback : String) : String :=
  match name with
  | none => fallback
  | some n => if n = "" then fallback else n

/-- `f"{i:02d}"` -/
def twoDigits (i : Nat) : String := String.ofList ((Nat.toDigits 10 i).leftpad 2 '0')

/-- The pairs that repeat neither side of an earlier pair. -/
def distinctPairs {α : Type} (seenRef seenNew : List Nat) :
    List (α × Nat × Nat) → List (α × Nat × Nat)
  | [] => []
  | (a, ref, new) :: rest =>
    if ref ∈ seenRef ∨ new ∈ seenNew then distinctPairs seenRef seenNew rest
    else (a, ref, new) :: distinctPairs (ref :: seenRef) (new :: seenNew) rest

def anchor (source : String) (similarity : ℚ) (name : String) (ref new : Nat) :
    MatchedFunction where
  refName := name
  refAddress := ref
  newAddress := new
  similarity := similarity
  source := source

section Bootstrap

variable (refBytes newBytes : Bytes) (refRun newRun : HeadlessRun)
  (refSymbolsByName : Dict String ReferenceSymbol) (refSymbolsByAddr : Dict Nat ReferenceSymbol)

/-- The name of a vector handler: its symbol, else a program symbol, else the slot. -/
def handlerName (ref : Nat) (slotName : String) : String :=
  match refSymbolsByAddr.get? ref with
  | some sym => sym.name
  | none => nameOr (nameFor ref refRun) slotName

/-- The slots of the EIT vector table that branch out of the table in both ROMs. -/
def vectorSlots : List (Nat × Nat × Nat) :=
  (List.range 64).filterMap fun i =>
    match decodeBraTarget refBytes (i * 4), decodeBraTarget newBytes (i * 4) with
    | some ref, some new => if ref < 0x200 ∨ new < 0x200 then none else some (i, ref, new)
    | _, _ => none

def bestMainCandidate (run : HeadlessRun) (romBytes : Bytes) (resetAddr : Nat)
    (seen : List Nat) : Option Nat :=
  match findBraTailCall romBytes resetAddr (funcSize resetAddr run) seen with
  | some target => some target
  | none =>
    maxBy (fun a => funcSize a run) ((run.calleesOf resetAddr).filter fun a => a ∉ seen)

/-- `main`, from the reset handler in slot 0. -/
def mainAnchor (anchors : List MatchedFunction) : Option MatchedFunction :=
  match anchors with
  | [] => none
  | reset :: _ =>
    let seenRef := anchors.map MatchedFunction.refAddress
    let seenNew := anchors.map MatchedFunction.newAddress
    match bestMainCandidate refRun refBytes reset.refAddress (seenRef ++ seenNew),
      bestMainCandidate newRun newBytes reset.newAddress (seenRef ++ seenNew) with
    | some bestRef, some bestNew =>
      if bestRef ∉ seenRef ∧ bestNew ∉ seenNew then
        some (anchor "vector_table" (9 / 10) "main" bestRef bestNew)
      else none
    | _, _ => none

def bootstrapVectorTable : List MatchedFunction :=
  let anchors := (distinctPairs [] [] (vectorSlots refBytes newBytes)).map fun e =>
    anchor "vector_table" 1
      (handlerName refRun refSymbolsByAddr e.2.1 ("isr_vector_" ++ twoDigits e.1)) e.2.1 e.2.2
  anchors ++ (mainAnchor refBytes newBytes refRun newRun anchors).toList

def icuVectorTableBase : Nat := 0x0094
def icuVectorTableCount : Nat := 32

def icuSlots : List (Nat × Nat × Nat) :=
  (List.range icuVectorTableCount).filterMap fun i =>
    match decodeIcuEntry refBytes (icuVectorTableBase + i * 4),
      decodeIcuEntry newBytes (icuVectorTableBase + i * 4) with
    | some ref, some new => some (i, ref, new)
    | _, _ => none

def bootstrapIcuVectorTable : List MatchedFunction :=
  (distinctPairs [] [] (icuSlots refBytes newBytes)).map fun e =>
    anchor "icu_vector_table" 1
      (handlerName refRun refSymbolsByAddr e.2.1 ("icu_isr_" ++ twoDigits e.1)) e.2.1 e.2.2

def bootstrapMutTable : List MatchedFunction :=
  match refSymbolsByName.get? "flash_mut_variables_table", findMutTableByTriplet newBytes with
  | some refSym, some newTableAddr =>
    match findHandlerForTable refRun refSym.address, findHandlerForTable newRun newTableAddr with
    | some refHandler, some newHandler =>
      [anchor "mut_table" 1 (nameOr (nameFor refHandler refRun) "get_mut_pointer")
        refHandler newHandler]
    | _, _ => []
  | _, _ => []

def dtcInvariantOffset : Nat := 0x80

/-- Rows 4 to 6 of the trouble-code table, shared by all variants. -/
def dtcInvariant : Bytes := fromHex (
  "1715175017910705" ++ "1751074007650760" ++ "0755075007150720" ++ "0710179507251600" ++
  "0340033501150000" ++ "0225011001000000" ++ "0000000005130622" ++ "0000032501050500" ++
  "0000130011021101" ++ "0660000000000000" ++ "0000122701900000" ++ "1515000000000000").toList

/-- The bit weights of the fault storage routines. -/
def faultBitmask : Bytes := fromHex (
  "8000400020001000" ++ "0800040002000100" ++ "0080004000200010" ++ "0008000400020001").toList

def findDtcTable (romBytes : Bytes) : Option Nat :=
  match findOnce romBytes dtcInvariant with
  | none => none
  | some pos => if dtcInvariantOffset ≤ pos then some (pos - dtcInvariantOffset) else none

def findFaultBitmaskTable (romBytes : Bytes) : Option Nat := findOnce romBytes faultBitmask

/-- The handlers of the two tables, where both ROMs have them. -/
def tableHandlers : List (Unit × Nat × Nat) :=
  [(findDtcTable refBytes, findDtcTable newBytes),
   (findFaultBitmaskTable refBytes, findFaultBitmaskTable newBytes)].filterMap fun tables =>
    match tables.1.bind (findHandlerForTable refRun),
      tables.2.bind (findHandlerForTable newRun) with
    | some ref, some new => some ((), ref, new)
    | _, _ => none

def bootstrapDtcBitmask : List MatchedFunction :=
  (distinctPairs [] [] (tableHandlers refBytes newBytes refRun newRun)).map fun e =>
    anchor "dtc_table" 1
      (nameOr ((refSymbolsByAddr.get? e.2.1).map ReferenceSymbol.name)
        (nameOr (nameFor e.2.1 refRun) "dtc_handler")) e.2.1 e.2.2

def bootstrapAnchors : List MatchedFunction :=
  bootstrapVectorTable refBytes newBytes refRun newRun refSymbolsByAddr ++
    bootstrapIcuVectorTable refBytes newBytes refRun refSymbolsByAddr ++
    bootstrapMutTable newBytes refRun newRun refSymbolsByName ++
    bootstrapDtcBitmask refBytes newBytes refRun newRun refSymbolsByAddr

/-- The handlers of the vector tables whose anchors would be named after a slot. -/
def HandlerUnnamed (ref : Nat) : Prop :=
  refSymbolsByAddr.get? ref = none ∧ (nameFor ref refRun).getD "" = ""

variable {refBytes newBytes refRun newRun refSymbolsByName refSymbolsByAddr}

theorem mem_of_mem_distinctPairs {α : Type} {seenRef seenNew : List Nat}
    {pairs : List (α × Nat × Nat)} {e : α × Nat × Nat}
    (h : e ∈ distinctPairs seenRef seenNew pairs) : e ∈ pairs := by
  induction pairs generalizing seenRef seenNew with
  | nil => cases h
  | cons p pairs ih =>
    obtain ⟨a, ref, new⟩ := p
    unfold distinctPairs at h
    split at h
    · exact List.mem_cons_of_mem _ (ih h)
    · rcases List.mem_cons.mp h with he | h
      · rw [he]
        exact List.mem_cons_self
      · exact List.mem_cons_of_mem _ (ih h)

theorem mainAnchor_spec {anchors : List MatchedFunction} {m : MatchedFunction}
    (h : m ∈ mainAnchor refBytes newBytes refRun newRun anchors) :
    m.source = "vector_table" ∧ m.refName = "main" := by
  unfold mainAnchor at h
  split at h
  · cases h
  · dsimp only at h
    split at h
    · split at h
      · obtain rfl := Option.some.inj h
        exact ⟨rfl, rfl⟩
      · cases h
    · cases h

theorem mem_bootstrapVectorTable {m : MatchedFunction}
    (h : m ∈ bootstrapVectorTable refBytes newBytes refRun newRun refSymbolsByAddr) :
    m.source = "vector_table" ∧ (m.refName = "main" ∨ ∃ e ∈ vectorSlots refBytes newBytes,
      m.refName = handlerName refRun refSymbolsByAddr e.2.1 ("isr_vector_" ++ twoDigits e.1)) := by
  rcases List.mem_append.mp h with h | h
  · obtain ⟨e, he, rfl⟩ := List.mem_map.mp h
    exact ⟨rfl, Or.inr ⟨e, mem_of_mem_distinctPairs he, rfl⟩⟩
  · obtain ⟨hsource, hname⟩ := mainAnchor_spec (Option.mem_toList.mp h)
    exact ⟨hsource, Or.inl hname⟩

theorem mem_bootstrapIcuVectorTable {m : MatchedFunction}
    (h : m ∈ bootstrapIcuVectorTable refBytes newBytes refRun refSymbolsByAddr) :
    m.source = "icu_vector_table" ∧ ∃ e ∈ icuSlots refBytes newBytes,
      m.refName = handlerName refRun refSymbolsByAddr e.2.1 ("icu_isr_" ++ twoDigits e.1) := by
  obtain ⟨e, he, rfl⟩ := List.mem_map.mp h
  exact ⟨rfl, e, mem_of_mem_distinctPairs he, rfl⟩

theorem mem_bootstrapMutTable {m : MatchedFunction}
    (h : m ∈ bootstrapMutTable newBytes refRun newRun refSymbolsByName) :
    m.source = "mut_table" ∧
      m.refName = nameOr (nameFor m.refAddress refRun) "get_mut_pointer" := by
  unfold bootstrapMutTable at h
  split at h
  · split at h
    · rw [List.mem_singleton.mp h]
      exact ⟨rfl, rfl⟩
    · cases h
  · cases h

theorem mem_bootstrapDtcBitmask {m : MatchedFunction}
    (h : m ∈ bootstrapDtcBitmask refBytes newBytes refRun newRun refSymbolsByAddr) :
    m.source = "dtc_table" ∧
      m.refName = nameOr ((refSymbolsByAddr.get? m.refAddress).map ReferenceSymbol.name)
        (nameOr (nameFor m.refAddress refRun) "dtc_handler") := by
  obtain ⟨e, _, rfl⟩ := List.mem_map.mp h
  exact ⟨rfl, rfl⟩

/-- The tags of the anchors. -/
theorem bootstrapAnchors_source {m : MatchedFunction}
    (h : m ∈ bootstrapAnchors refBytes newBytes refRun newRun refSymbolsByName refSymbolsByAddr) :
    m.source ∈ ["vector_table", "icu_vector_table", "mut_table", "dtc_table"] := by
  simp only [bootstrapAnchors, List.mem_append] at h
  rcases h with ((h | h) | h) | h
  · simp [(mem_bootstrapVectorTable h).1]
  · simp [(mem_bootstrapIcuVectorTable h).1]
  · simp [(mem_bootstrapMutTable h).1]
  · simp [(mem_bootstrapDtcBitmask h).1]

theorem nameOr_cases (name : Option String) (fallback : String) :
    name = some (nameOr name fallback) ∨ name.getD "" = "" ∧ nameOr name fallback = fallback := by
  cases name with
  | none => exact Or.inr ⟨rfl, rfl⟩
  | some n =>
    by_cases hn : n = ""
    · exact Or.inr ⟨hn, by simp [nameOr, hn]⟩
    · exact Or.inl (by simp [nameOr, hn])

/-- A property of every name an anchor can take: those of the symbols at function
addresses, the three fixed ones, and the slot names of unnamed handlers. -/
theorem bootstrapAnchors_name {P : String → Prop}
    (hsym : ∀ a sym, refSymbolsByAddr.get? a = some sym → P sym.name)
    (hprog : ∀ a n, nameFor a refRun = some n → P n)
    (hfixed : P "main" ∧ P "get_mut_pointer" ∧ P "dtc_handler")
    (hslots : ∀ e ∈ vectorSlots refBytes newBytes ++ icuSlots refBytes newBytes,
      ¬ HandlerUnnamed refRun refSymbolsByAddr e.2.1)
    {m : MatchedFunction}
    (h : m ∈ bootstrapAnchors refBytes newBytes refRun newRun refSymbolsByName refSymbolsByAddr) :
    P m.refName := by
  have hhandler : ∀ e ∈ vectorSlots refBytes newBytes ++ icuSlots refBytes newBytes,
      ∀ slot, P (handlerName refRun refSymbolsByAddr e.2.1 slot) := by
    intro e he slot
    have hnamed := hslots e he
    unfold handlerName
    cases hs : refSymbolsByAddr.get? e.2.1 with
    | some sym => exact hsym _ sym hs
    | none =>
      rcases nameOr_cases (nameFor e.2.1 refRun) slot with hn | ⟨hn, _⟩
      · exact hprog _ _ hn
      · exact absurd ⟨hs, hn⟩ hnamed
  have hor : ∀ a fallback, P fallback → P (nameOr (nameFor a refRun) fallback) := by
    intro a fallback hf
    rcases nameOr_cases (nameFor a refRun) fallback with hn | ⟨_, hn⟩
    · exact hprog _ _ hn
    · rw [hn]
      exact hf
  simp only [bootstrapAnchors, List.mem_append] at h
  rcases h with ((h | h) | h) | h
  · rcases (mem_bootstrapVectorTable h).2 with hn | ⟨e, he, hn⟩
    · rw [hn]
      exact hfixed.1
    · rw [hn]
      exact hhandler e (List.mem_append_left _ he) _
  · obtain ⟨_, e, he, hn⟩ := mem_bootstrapIcuVectorTable h
    rw [hn]
    exact hhandler e (List.mem_append_right _ he) _
  · rw [(mem_bootstrapMutTable h).2]
    exact hor _ _ hfixed.2.1
  · rw [(mem_bootstrapDtcBitmask h).2]
    rcases nameOr_cases ((refSymbolsByAddr.get? m.refAddress).map ReferenceSymbol.name)
        (nameOr (nameFor m.refAddress refRun) "dtc_handler") with hn | ⟨_, hn⟩
    · obtain ⟨sym, hs, hname⟩ := Option.map_eq_some_iff.mp hn
      rw [← hname]
      exact hsym _ sym hs
    · rw [hn]
      exact hor _ _ hfixed.2.2

end Bootstrap

end RomAnalyzer.Callgraph
