import RomAnalyzer.Lib.Regex
import RomAnalyzer.Merge

/-!
# Reference enrichment

Candidates of a cross-match are split into automatic ones and ones for review;
the latter get a suggested verdict. The two decisions are written independently.
-/
namespace RomAnalyzer.Enrich

open Lib
open Merge (Priority)

/-! ### Shapes of names -/

/-- `^(FUN|LAB|DAT|SUB)_[0-9a-fA-F]+$|^(icu_isr|isr_vector)_\d+$` -/
def autoRe : Regex :=
  let ghidra := Regex.alt (.lit 'F' "UN".toList) <| .alt (.lit 'L' "AB".toList) <|
    .alt (.lit 'D' "AT".toList) (.lit 'S' "UB".toList)
  let handler := Regex.alt (.lit 'i' "cu_isr".toList) (.lit 'i' "sr_vector".toList)
  .alt (.seq .bol <| .seq ghidra <| .seq (.char (· == '_')) <| .seq (.rep isHexDigit 1) .eol)
    (.seq .bol <| .seq handler <| .seq (.char (· == '_')) <| .seq (.rep isDecimal 1) .eol)

/-- Address-derived placeholder names a real name should beat:
`(^|_)(call|nop|ret\d*|reset_call|sub)[0-9a-fA-F_]{4,}(?=_|$|[^a-zA-Z0-9_])` or
`(^|_)fp[0-9a-fA-F]{3,}(_|$)` -/
def placeholderRe : Regex :=
  let edge := Regex.alt .bol (.char (· == '_'))
  let stem := Regex.alt (.lit 'c' "all".toList) <| .alt (.lit 'n' "op".toList) <|
    .alt (.seq (.lit 'r' "et".toList) (.rep isDecimal 0)) <|
    .alt (.lit 'r' "eset_call".toList) (.lit 's' "ub".toList)
  let boundary := Regex.alt (.char (· == '_')) <| .alt .eol (.char fun c => !isAsciiWord c)
  .alt
    (.seq edge <| .seq stem <| .seq (.rep (fun c => isHexDigit c || c == '_') 4)
      (.ahead boundary))
    (.seq edge <| .seq (.lit 'f' "p".toList) <| .seq (.rep isHexDigit 3)
      (.alt (.char (· == '_')) .eol))

/-- Real-looking but meaningless names that should never silently fill a gap. -/
def junkNames : List String :=
  ["out", "in", "tmp", "temp", "foo", "bar", "data", "val", "value", "ptr",
    "ret", "end", "sub", "fn", "func", "stub", "todo", "tbd", "unknown", "x"]

/-- `str.lower` as far as ASCII results go: besides the capitals only the Kelvin
sign has an ASCII lower case. -/
def lowerChar (c : Char) : Char :=
  if c = '\u212a' then 'k' else c.toLower

def isAutoName (name : String) : Bool := autoRe.matchStart name

def isGeneric (name : String) : Bool :=
  name.length ≤ 3 || junkNames.contains (String.ofList (name.toList.map lowerChar))

def isPlaceholder (name : String) : Bool := placeholderRe.search name

/-! ### Candidates and items -/

inductive Direction
  /-- into the new reference -/
  | forward
  /-- into an existing reference -/
  | back
  deriving DecidableEq, Repr

structure LabelCandidate where
  /-- the reference being modified -/
  target : String
  direction : Direction
  address : Nat
  category : SymbolCategory
  /-- the target's name at the address; `none` is a gap -/
  current : Option String
  proposed : String
  source : String
  evidence : String
  corroboratingSources : List String
  corroborated : corroboratingSources ≠ []
  deriving DecidableEq

/-- Without corroboration a candidate corroborates itself. -/
def postInit (target : String) (direction : Direction) (address : Nat)
    (category : SymbolCategory) (current : Option String) (proposed source : String)
    (evidence : String := "") (corroboratingSources : List String := []) : LabelCandidate where
  target := target
  direction := direction
  address := address
  category := category
  current := current
  proposed := proposed
  source := source
  evidence := evidence
  corroboratingSources :=
    if corroboratingSources = [] then [source] else corroboratingSources
  corroborated := by
    split
    · exact List.cons_ne_nil _ _
    · assumption

structure ReconcileItem where
  target : String
  direction : Direction
  address : Nat
  category : SymbolCategory
  current : Option String
  proposed : String
  source : String
  evidence : String
  /-- `"proposed"`, `"keep"`, `"drop"` or a custom name -/
  verdict : String
  corroboratedBy : List String := []
  deriving DecidableEq

/-- One naming result of medium or low confidence. -/
structure NamingResult where
  rom : String
  address : Nat
  isVariable : Bool
  category : Option SymbolCategory := none
  currentName : Option String := none
  proposedName : String
  reasoning : String := ""
  deriving DecidableEq

/-- The item that the review branch appends to the reconcile file. -/
def reviewItem (r : NamingResult) : ReconcileItem where
  target := r.rom
  direction := .forward
  address := r.address
  category := if r.isVariable then r.category.getD .ramGlobal else .function
  current := r.currentName
  proposed := r.proposedName
  source := "llm:agent"
  evidence := r.reasoning
  verdict := "proposed"

structure Classified where
  /-- new functions and endorsed renames, safe to apply now -/
  auto : List LabelCandidate
  /-- conflicts and RAM or data, which need verdicts -/
  review : List LabelCandidate

/-! ### The automatic path -/

/-- The highest-priority reference is among the sources. -/
def authorityAgrees (sources : List String) (priority : Priority) : Bool :=
  match maxBy Prod.snd priority.entries with
  | none => false
  | some top => sources.contains top.1

inductive Lane
  | auto
  | review
  | skip
  deriving DecidableEq, Repr

/-- Where the loop of `classify` puts one candidate. -/
def lane (erased : Finset Nat) (priority : Option Priority) (c : LabelCandidate) : Lane :=
  if isAutoName c.proposed then .skip
  else if c.current = some c.proposed then .skip
  else if c.category = .function then
    if c.address ∈ erased then .skip
    else if c.current.isSome && !isGeneric c.proposed &&
        priority.any (authorityAgrees c.corroboratingSources) then .auto
    else if c.current = none then if isGeneric c.proposed then .review else .auto
    else .review
  else .review

def classify (candidates : List LabelCandidate) (erased : Finset Nat)
    (priority : Option Priority := none) : Classified where
  auto := candidates.filter fun c => lane erased priority c = .auto
  review := candidates.filter fun c => lane erased priority c = .review

/-- A rename that the top reference endorses and no guard of `classify` stops. -/
structure EndorsedRename (erased : Finset Nat) (priority : Priority) (c : LabelCandidate)
    (cur : String) : Prop where
  conflict : c.current = some cur
  differs : cur ≠ c.proposed
  function : c.category = .function
  not_auto_name : isAutoName c.proposed = false
  not_generic : isGeneric c.proposed = false
  not_erased : c.address ∉ erased
  endorsed : authorityAgrees c.corroboratingSources priority = true

/-- The renames among the automatic candidates are the endorsed ones. -/
theorem mem_auto_rename_iff {candidates : List LabelCandidate} {erased : Finset Nat}
    {priority : Priority} {c : LabelCandidate} {cur : String} :
    c ∈ (classify candidates erased (some priority)).auto ∧ c.current = some cur ↔
      c ∈ candidates ∧ EndorsedRename erased priority c cur := by
  rw [classify, List.mem_filter, and_assoc, and_congr_right_iff]
  intro _
  rw [decide_eq_true_eq]
  constructor
  · intro h
    obtain ⟨hlane, hcur⟩ := h
    unfold lane at hlane
    rw [hcur] at hlane
    split_ifs at hlane with hauto hdiff hfun herased hend hgap
    · simp only [Option.isSome_some, Bool.true_and, Option.any_some, Bool.and_eq_true,
        Bool.not_eq_true'] at hend
      exact ⟨hcur, fun h => hdiff (congrArg some h), hfun, Bool.eq_false_iff.mpr hauto,
        hend.1, herased, hend.2⟩
    · cases hgap
  · intro h
    refine ⟨?_, h.conflict⟩
    simp [lane, h.conflict, h.differs, h.function, h.not_auto_name, h.not_generic,
      h.not_erased, h.endorsed]

/-! ### The suggested verdict -/

/-- `str.startswith` -/
def startsWith (pre name : String) : Bool := pre.toList.isPrefixOf name.toList

/-- A deliberately standardised name. -/
def sioHeld (name : String) : Bool := startsWith "sio0" name || startsWith "sio1" name

/-- A name that a descriptive one beats. -/
def curPlaceholder (cur : String) : Bool := isPlaceholder cur || cur = ""

/-- Suggest the name and the default verdict for a candidate. -/
def autoResolve (c : LabelCandidate) (priority : Priority) : String × String :=
  let cur := c.current.getD ""
  if sioHeld cur then (cur, "keep")
  else
    let curPh := curPlaceholder cur
    let propPh := isPlaceholder c.proposed
    if curPh && !propPh then (c.proposed, "proposed")
    else if propPh && !curPh then (cur, "keep")
    else if priority.getD c.source 0 > priority.getD c.target 0 then (c.proposed, "proposed")
    else (cur, "keep")

/-- The rules of `autoResolve` allow `c` to replace `cur`: it is not held, and the
proposed name describes more, or as much and its source outranks the target. -/
structure RenameAllowed (priority : Priority) (c : LabelCandidate) (cur : String) : Prop where
  not_held : sioHeld cur = false
  describes : curPlaceholder cur = true ∧ isPlaceholder c.proposed = false ∨
    curPlaceholder cur = isPlaceholder c.proposed ∧
      priority.getD c.target 0 < priority.getD c.source 0

theorem autoResolve_eq_proposed_iff {c : LabelCandidate} {cur : String}
    (hcur : c.current = some cur) (priority : Priority) :
    autoResolve c priority = (c.proposed, "proposed") ↔ RenameAllowed priority c cur := by
  have hkeep : ∀ name : String, (name, "keep") ≠ (c.proposed, "proposed") := by
    intro name h
    have hverdict : "keep" = "proposed" := congrArg Prod.snd h
    exact absurd hverdict (by decide)
  rw [autoResolve, hcur, Option.getD_some]
  by_cases hheld : sioHeld cur = true
  · rw [if_pos hheld]
    constructor
    · exact fun h => absurd h (hkeep cur)
    · exact fun h => absurd hheld (Bool.eq_false_iff.mp h.not_held)
  rw [if_neg hheld]
  rw [Bool.not_eq_true] at hheld
  have hallowed : RenameAllowed priority c cur ↔
      curPlaceholder cur = true ∧ isPlaceholder c.proposed = false ∨
        curPlaceholder cur = isPlaceholder c.proposed ∧
          priority.getD c.target 0 < priority.getD c.source 0 :=
    ⟨RenameAllowed.describes, fun h => ⟨hheld, h⟩⟩
  rw [hallowed]
  cases hc : curPlaceholder cur with
  | true =>
    cases hp : isPlaceholder c.proposed with
    | true => simp
    | false => simp
  | false =>
    cases hp : isPlaceholder c.proposed with
    | true => simp
    | false => simp

/-- The automatic path agrees with the suggested verdicts exactly when every endorsed
rename is one the rules allow. -/
theorem classify_agrees_iff (candidates : List LabelCandidate) (erased : Finset Nat)
    (priority : Priority) :
    (∀ c ∈ (classify candidates erased (some priority)).auto, c.current ≠ none →
        autoResolve c priority = (c.proposed, "proposed")) ↔
      ∀ c ∈ candidates, ∀ cur, EndorsedRename erased priority c cur →
        RenameAllowed priority c cur := by
  constructor
  · intro h c hc cur hend
    have hauto := mem_auto_rename_iff.mpr ⟨hc, hend⟩
    refine (autoResolve_eq_proposed_iff hauto.2 priority).mp (h c hauto.1 ?_)
    rw [hauto.2]
    exact Option.some_ne_none cur
  · intro h c hauto hcur
    obtain ⟨cur, hcur⟩ := Option.ne_none_iff_exists'.mp hcur
    obtain ⟨hc, hend⟩ := mem_auto_rename_iff.mp ⟨hauto, hcur⟩
    exact (autoResolve_eq_proposed_iff hcur priority).mpr (h c hc cur hend)

/-- The top reference renames a held name; the suggestion for the same candidate is to
keep it. -/
theorem classify_renames_held_name :
    let c := postInit "39670016" .forward 0x18520 .function (some "sio1_tx_process_check")
      "si1_request_transmit_checked" "33520003"
    let priority : Priority := Dict.ofList [("33520003", 100), ("39670016", 90)]
    (classify [c] ∅ (some priority)).auto = [c] ∧
      autoResolve c priority = ("sio1_tx_process_check", "keep") ∧
      ¬ ∀ c ∈ (classify [c] ∅ (some priority)).auto, c.current ≠ none →
        autoResolve c priority = (c.proposed, "proposed") := by
  intro c priority
  have hauto : (classify [c] ∅ (some priority)).auto = [c] := by decide +kernel
  have hkeep : autoResolve c priority = ("sio1_tx_process_check", "keep") := by decide +kernel
  refine ⟨hauto, hkeep, fun h => ?_⟩
  have hmem : c ∈ (classify [c] ∅ (some priority)).auto := by
    rw [hauto]
    exact List.mem_singleton_self c
  have hproposed := h c hmem (Option.some_ne_none _)
  rw [hkeep] at hproposed
  have hverdict : "keep" = "proposed" := congrArg Prod.snd hproposed
  exact absurd hverdict (by decide)

end RomAnalyzer.Enrich
