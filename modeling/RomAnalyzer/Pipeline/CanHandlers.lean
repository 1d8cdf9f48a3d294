import RomAnalyzer.CanSlots
import RomAnalyzer.Lib.Words
import RomAnalyzer.Pipeline.PostMatch

/-!
# CAN slot handlers

The handlers of a slot are found by their names. The names that the decoded slots suggest
for them are found again: a later run on the renamed project decodes the same slots.
-/
namespace RomAnalyzer.Pipeline

open Lib
open CanSlots (CanSlot Direction analyzeCanSlots proposeHandlerName canSidNames DecodedFrom)

/-! ### Names -/

/-- What follows the text. -/
def afterText (text cs : List Char) : Option (List Char) :=
  if text.isPrefixOf cs then some (cs.drop text.length) else none

/-- What stands in front of the text at the end. -/
def beforeText (text cs : List Char) : Option (List Char) :=
  if text.isSuffixOf cs then some (cs.take (cs.length - text.length)) else none

/-- `$` stands also in front of a line end that is the last character. -/
def lineText (cs : List Char) : List Char :=
  if cs.getLast? = some '\n' then cs.dropLast else cs

/-- `(?:.+_)?` -/
def isMiddle (cs : List Char) : Bool :=
  cs = [] ∨ (cs.getLast? = some '_' ∧ 2 ≤ cs.length ∧ '\n' ∉ cs)

/-- `(?:.+_)?(rx|tx)_update` -/
def directionOf (cs : List Char) : Option Direction :=
  [Direction.rx, Direction.tx].find? fun d =>
    (beforeText (d.text ++ "_update".toList) cs).any isMiddle

/-- `^can0_slot(\d+)_(?:.+_)?(rx|tx)_update$` -/
def handlerName (name : String) : Option (Nat × Direction) := do
  let numbered ← afterText "can0_slot".toList name.toList
  let digits := numbered.takeWhile isDecimal
  if digits = [] then none
  let rest ← afterText ['_'] (numbered.dropWhile isDecimal)
  let direction ← directionOf (lineText rest)
  return (decimalValue digits, direction)

/-! ### Handlers -/

def lowest (held : Option Nat) (a : Nat) : Option Nat :=
  match held with
  | none => some a
  | some h => if a < h then some a else some h

/-- A name that occurs twice stands for its lowest address. -/
def noteHandler (slotHandlers : Dict Nat (Option Nat × Option Nat)) (p : PropagatedSymbol) :
    Dict Nat (Option Nat × Option Nat) :=
  match handlerName p.name with
  | none => slotHandlers
  | some (slot, direction) =>
    let held := slotHandlers.getD slot (none, none)
    slotHandlers.insert slot
      (match direction with
      | .rx => (lowest held.1 p.newAddress, held.2)
      | .tx => (held.1, lowest held.2 p.newAddress))

def slotHandlersOf (propagated : List PropagatedSymbol) : Dict Nat (Option Nat × Option Nat) :=
  propagated.foldl noteHandler Dict.empty

/-- The address of the check, propagated or matched. -/
def checkSidAddr (ms : List MatchedFunction) (propagated : List PropagatedSymbol) : Option Nat :=
  match (propByName propagated).get? "can0_slot_check_sid" with
  | some a => some a
  | none =>
    (ms.find? fun m => m.refName = "can0_slot_check_sid").map MatchedFunction.newAddress

/-- Nothing is decoded when the check is not located. -/
def canSlotsResult (romBytes : Bytes) (ms : List MatchedFunction)
    (propagated : List PropagatedSymbol) : Option (List CanSlot) :=
  (checkSidAddr ms propagated).map fun check =>
    analyzeCanSlots romBytes check (slotHandlersOf propagated)

/-! ### Suggested names -/

def semanticOf (slots : List CanSlot) (slot : Nat) : Option String :=
  (slots.find? fun s => s.slot = slot).bind CanSlot.semantic

/-- A handler gets the name that is suggested for its slot. -/
def renameHandler (slots : List CanSlot) (p : PropagatedSymbol) : PropagatedSymbol :=
  match handlerName p.name with
  | none => p
  | some (slot, direction) =>
    { p with name := proposeHandlerName slot (semanticOf slots slot) direction }

/-! ### Suggested names are read back -/

theorem beforeText_append (cs text : List Char) : beforeText text (cs ++ text) = some cs := by
  unfold beforeText
  rw [if_pos (List.isSuffixOf_iff_suffix.mpr (List.suffix_append cs text)), List.length_append,
    Nat.add_sub_cancel, List.take_left']
  rfl

theorem beforeText_append_of_ne {cs text other : List Char} (hlen : text.length = other.length)
    (hne : text ≠ other) : beforeText text (cs ++ other) = none := by
  unfold beforeText
  rw [if_neg]
  intro hsuffix
  have htext := List.isSuffixOf_iff_suffix.mp hsuffix
  have hother := List.suffix_of_suffix_length_le htext (List.suffix_append cs other) (by omega)
  exact hne (hother.eq_of_length hlen)

theorem afterText_append (text cs : List Char) : afterText text (text ++ cs) = some cs := by
  unfold afterText
  rw [if_pos (List.isPrefixOf_iff_prefix.mpr (List.prefix_append text cs)), List.drop_left']
  rfl

theorem directionOf_append {middle : List Char} (hmiddle : isMiddle middle = true)
    (direction : Direction) :
    directionOf (middle ++ (direction.text ++ "_update".toList)) = some direction := by
  unfold directionOf
  cases direction with
  | rx => rw [List.find?_cons_of_pos (by rw [beforeText_append]; exact hmiddle)]
  | tx =>
    have hother : beforeText (Direction.rx.text ++ "_update".toList)
        (middle ++ (Direction.tx.text ++ "_update".toList)) = none :=
      beforeText_append_of_ne (by decide) (by decide)
    rw [List.find?_cons_of_neg (by rw [hother]; exact Bool.false_ne_true),
      List.find?_cons_of_pos (by rw [beforeText_append]; exact hmiddle)]

/-- What stands between the slot and the direction of a suggested name. -/
def middleOf : Option String → List Char
  | some s => if s = "" then [] else s.toList ++ ['_']
  | none => []

theorem toList_proposeHandlerName (slot : Nat) (semantic : Option String)
    (direction : Direction) :
    (proposeHandlerName slot semantic direction).toList = "can0_slot".toList ++
      (decimalDigits slot ++ '_' :: (middleOf semantic ++ (direction.text ++ "_update".toList))) := by
  unfold proposeHandlerName
  rw [String.toList_ofList]
  simp only [List.append_assoc, List.cons_append]
  rfl

theorem isMiddle_middleOf {semantic : Option String}
    (h : ∀ s ∈ semantic, '\n' ∉ s.toList) : isMiddle (middleOf semantic) = true := by
  unfold isMiddle
  rw [decide_eq_true_iff]
  cases semantic with
  | none => exact Or.inl rfl
  | some s =>
    by_cases hempty : s = ""
    · exact Or.inl (if_pos hempty)
    · right
      have hne : s.toList ≠ [] := fun he => hempty (String.toList_eq_nil_iff.mp he)
      have hpos := List.length_pos_iff.mpr hne
      rw [middleOf, if_neg hempty]
      refine ⟨List.getLast?_concat, ?_, ?_⟩
      · rw [List.length_append, List.length_singleton]
        omega
      · rw [List.mem_append, List.mem_singleton]
        rintro (hmem | hmark)
        · exact h s rfl hmem
        · exact absurd hmark (by decide)

/-- A suggested name is a handler name of its slot and direction. -/
theorem handlerName_proposeHandlerName (slot : Nat) {semantic : Option String}
    (h : ∀ s ∈ semantic, '\n' ∉ s.toList) (direction : Direction) :
    handlerName (proposeHandlerName slot semantic direction) = some (slot, direction) := by
  have hdigits : ∀ c ∈ decimalDigits slot, isDecimal c = true :=
    fun c hc => isDecimal_of_mem_decimalDigits hc
  have hmark : isDecimal '_' = false := by decide
  have hline : lineText (middleOf semantic ++ (direction.text ++ "_update".toList)) =
      middleOf semantic ++ (direction.text ++ "_update".toList) := by
    unfold lineText
    rw [if_neg]
    rw [← List.append_assoc, List.getLast?_append_of_ne_nil _ (by decide)]
    decide
  have hrest : afterText ['_']
      ('_' :: (middleOf semantic ++ (direction.text ++ "_update".toList))) =
        some (middleOf semantic ++ (direction.text ++ "_update".toList)) :=
    afterText_append ['_'] _
  unfold handlerName
  rw [toList_proposeHandlerName, afterText_append, Option.bind_eq_bind, Option.bind_some]
  dsimp only
  rw [takeWhile_append_cons hdigits hmark, dropWhile_append_cons hdigits hmark,
    if_neg (decimalDigits_ne_nil slot)]
  simp only [hrest, hline, directionOf_append (isMiddle_middleOf h), decimalValue_decimalDigits,
    Option.pure_def, Option.bind_eq_bind, Option.bind_some]

/-! ### The lowest address -/

/-- The addresses of the handlers of a slot for one direction. -/
def handlerAddresses (propagated : List PropagatedSymbol) (slot : Nat) (direction : Direction) :
    List Nat :=
  (propagated.filter fun p => handlerName p.name = some (slot, direction)).map
    PropagatedSymbol.newAddress

theorem min?_concat (xs : List Nat) (a : Nat) : (xs ++ [a]).min? = lowest xs.min? a := by
  cases xs with
  | nil => rfl
  | cons x xs =>
    have hstep : (x :: xs ++ [a]).min? = some (min (xs.foldl min x) a) := by
      rw [List.cons_append, List.min?_cons', List.foldl_append]
      rfl
    rw [hstep, List.min?_cons', lowest]
    by_cases hlt : a < xs.foldl min x
    · rw [if_pos hlt, min_eq_right (by omega)]
    · rw [if_neg hlt, min_eq_left (by omega)]

/-- Each slot has the lowest of its addresses for either direction. -/
theorem getD_slotHandlersOf (propagated : List PropagatedSymbol) (slot : Nat) :
    (slotHandlersOf propagated).getD slot (none, none) =
      ((handlerAddresses propagated slot .rx).min?,
        (handlerAddresses propagated slot .tx).min?) := by
  induction propagated using List.reverseRecOn with
  | nil => rfl
  | append_singleton ps p ih =>
    have hadded : ∀ d, handlerAddresses (ps ++ [p]) slot d = handlerAddresses ps slot d ++
        if handlerName p.name = some (slot, d) then [p.newAddress] else [] := by
      intro d
      unfold handlerAddresses
      rw [List.filter_append, List.map_append, List.filter_singleton]
      by_cases hname : handlerName p.name = some (slot, d)
      · simp [hname]
      · simp [hname]
    have hstep : slotHandlersOf (ps ++ [p]) = noteHandler (slotHandlersOf ps) p := by
      rw [slotHandlersOf, List.foldl_append]
      rfl
    rw [hstep, hadded, hadded]
    unfold noteHandler
    cases hname : handlerName p.name with
    | none => simpa [hname] using ih
    | some key =>
      obtain ⟨slot', d⟩ := key
      dsimp only
      unfold Dict.getD at ih ⊢
      rw [Dict.get?_insert]
      by_cases hslot : slot = slot'
      · subst hslot
        rw [if_pos rfl, Option.getD_some, ih]
        cases d with
        | rx => simp [min?_concat]
        | tx => simp [min?_concat]
      · have hother : ∀ d', some (slot', d) ≠ some (slot, d') := by
          intro d' he
          exact hslot (congrArg Prod.fst (Option.some.inj he)).symm
        rw [if_neg hslot, if_neg (hother .rx), if_neg (hother .tx), List.append_nil,
          List.append_nil]
        exact ih

/-! ### Renaming -/

/-- The slots have no names but the known ones. -/
def KnownSemantics (slots : List CanSlot) : Prop :=
  ∀ s ∈ slots, ∀ name ∈ s.semantic, name ∈ canSidNames.values

theorem not_newline_of_known {name : String} (h : name ∈ canSidNames.values) :
    '\n' ∉ name.toList := by
  have hall : ∀ s ∈ canSidNames.values, '\n' ∉ s.toList := by decide
  exact hall name h

section Rename

variable {slots : List CanSlot}

theorem newAddress_renameHandler (p : PropagatedSymbol) :
    (renameHandler slots p).newAddress = p.newAddress := by
  unfold renameHandler
  split
  · rfl
  · rfl

variable (hslots : KnownSemantics slots)
include hslots

theorem handlerName_renameHandler (p : PropagatedSymbol) :
    handlerName (renameHandler slots p).name = handlerName p.name := by
  unfold renameHandler
  cases hname : handlerName p.name with
  | none => exact hname
  | some key =>
    obtain ⟨slot, direction⟩ := key
    apply handlerName_proposeHandlerName
    intro s hs
    obtain ⟨found, hfound, hsemantic⟩ := Option.bind_eq_some_iff.mp hs
    exact not_newline_of_known (hslots found (List.mem_of_find?_eq_some hfound) s hsemantic)

theorem renameHandler_renameHandler (p : PropagatedSymbol) :
    renameHandler slots (renameHandler slots p) = renameHandler slots p := by
  have hname := handlerName_renameHandler hslots p
  cases hkey : handlerName p.name with
  | none =>
    have hsame : renameHandler slots p = p := by
      unfold renameHandler
      rw [hkey]
    rw [hsame, hsame]
  | some key =>
    rw [hkey] at hname
    conv_lhs => rw [renameHandler, hname]
    rw [renameHandler, hkey]

theorem slotHandlersOf_map_renameHandler (propagated : List PropagatedSymbol) :
    slotHandlersOf (propagated.map (renameHandler slots)) = slotHandlersOf propagated := by
  have hnote : ∀ handlers p, noteHandler handlers (renameHandler slots p) = noteHandler handlers p := by
    intro handlers p
    unfold noteHandler
    rw [handlerName_renameHandler hslots, newAddress_renameHandler]
  unfold slotHandlersOf
  rw [List.foldl_map]
  simp only [hnote]

/-- The check keeps its name, and nothing else gets it. -/
theorem checkSidAddr_map_renameHandler (ms : List MatchedFunction)
    (propagated : List PropagatedSymbol) :
    checkSidAddr ms (propagated.map (renameHandler slots)) = checkSidAddr ms propagated := by
  have hcheck : handlerName "can0_slot_check_sid" = none := by decide
  have hkept : ∀ p : PropagatedSymbol, (renameHandler slots p).name = "can0_slot_check_sid" ↔
      p.name = "can0_slot_check_sid" := by
    intro p
    constructor
    · intro h
      have hname := handlerName_renameHandler hslots p
      rw [h, hcheck] at hname
      unfold renameHandler at h
      rw [← hname] at h
      exact h
    · intro h
      unfold renameHandler
      rw [h, hcheck]
      exact h
  have hget : (propByName (propagated.map (renameHandler slots))).get? "can0_slot_check_sid" =
      (propByName propagated).get? "can0_slot_check_sid" := by
    unfold propByName
    rw [List.map_map, Dict.get?_ofList_map, Dict.get?_ofList_map]
    simp only [Function.comp_apply, newAddress_renameHandler, hkept]
  unfold checkSidAddr
  rw [hget]

end Rename

theorem knownSemantics_analyze (romBytes : Bytes) (check : Nat)
    (slotHandlers : Dict Nat (Option Nat × Option Nat)) :
    KnownSemantics (analyzeCanSlots romBytes check slotHandlers) := by
  intro s hs name hname
  unfold analyzeCanSlots at hs
  split at hs
  · exact absurd hs List.not_mem_nil
  · obtain ⟨d, -, rfl⟩ := List.mem_map.mp hs
    exact (Dict.mem_values_iff _ _).mpr ⟨d.2, hname⟩

/-- Every decoded slot has the lowest address of its handlers for either direction; and once the
handlers have the suggested names, the same slots are decoded, and renaming again changes
nothing. -/
theorem canSlotsResult_rename (romBytes : Bytes) (ms : List MatchedFunction)
    (propagated : List PropagatedSymbol) {slots : List CanSlot}
    (h : canSlotsResult romBytes ms propagated = some slots) :
    (∀ s ∈ slots, s.rxHandler = (handlerAddresses propagated s.slot .rx).min? ∧
      s.txHandler = (handlerAddresses propagated s.slot .tx).min?) ∧
    canSlotsResult romBytes ms (propagated.map (renameHandler slots)) = some slots ∧
    (propagated.map (renameHandler slots)).map (renameHandler slots) =
      propagated.map (renameHandler slots) := by
  obtain ⟨check, hcheck, hslots⟩ := Option.map_eq_some_iff.mp h
  have hknown : KnownSemantics slots := by
    rw [← hslots]
    exact knownSemantics_analyze romBytes check _
  refine ⟨?_, ?_, ?_⟩
  · intro s hs
    rw [← hslots] at hs
    unfold analyzeCanSlots at hs
    split at hs
    · exact absurd hs List.not_mem_nil
    · obtain ⟨d, -, rfl⟩ := List.mem_map.mp hs
      rw [getD_slotHandlersOf]
      exact ⟨rfl, rfl⟩
  · rw [canSlotsResult, checkSidAddr_map_renameHandler hknown,
      slotHandlersOf_map_renameHandler hknown]
    exact h
  · rw [List.map_map]
    apply List.map_congr_left
    intro p _
    exact renameHandler_renameHandler hknown p

/-- Two loads of the tables at 8 and 12, and the identifiers `0x231` and `0x443`. -/
def canRom : Bytes :=
  [0xE0, 0x00, 0x00, 0x08, 0xE1, 0x00, 0x00, 0x0C, 0x08, 0x11, 0x00, 0x00, 0x31, 0x03]

def canSymbols : List PropagatedSymbol :=
  [⟨"can0_slot_check_sid", 0x4000, 0, .function, .high, "", 1, "", true⟩,
    ⟨"can0_slot0_rx_update", 0x5000, 0x300, .function, .high, "", 1, "", true⟩,
    ⟨"can0_slot0_abs_rx_update", 0x5000, 0x200, .function, .high, "", 1, "", true⟩]

def canDecoded : List CanSlot :=
  [⟨0, 0x231, some "abs", some 0x200, none⟩, ⟨1, 0x443, some "ac", none, none⟩]

theorem canSlotsResult_rename_sample :
    (∀ s ∈ canDecoded, s.rxHandler = (handlerAddresses canSymbols s.slot .rx).min? ∧
      s.txHandler = (handlerAddresses canSymbols s.slot .tx).min?) ∧
    canSlotsResult canRom [] (canSymbols.map (renameHandler canDecoded)) = some canDecoded ∧
    (canSymbols.map (renameHandler canDecoded)).map (renameHandler canDecoded) =
      canSymbols.map (renameHandler canDecoded) :=
  canSlotsResult_rename canRom [] canSymbols (by decide)

end RomAnalyzer.Pipeline
