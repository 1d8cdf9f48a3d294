import RomAnalyzer.AnnotationsJson
import RomAnalyzer.Enrich

/-!
# The reconcile file

Items that wait for a verdict are kept in a TOML file, to which every naming round appends
its own. Tables, lists and texts are taken as the JSON values of the same shape; the TOML
writer and reader are parameters.
-/
namespace RomAnalyzer.Enrich

open Lib
open Lib.Json (reqStr strOr listOf)
open AnnotationsIo (categoryText readCategory readCategory_categoryText)

def directionText : Direction → String
  | .forward => "forward"
  | .back => "back"

def readDirection (text : String) : Option Direction :=
  if text = "forward" then some .forward
  else if text = "back" then some .back
  else none

/-! ### Writing and reading -/

/-- A gap has an empty current name, and empty corroboration is left out. -/
def reconcileRow (i : ReconcileItem) : Json :=
  .obj ([
    ("target", .str i.target), ("direction", .str (directionText i.direction)),
    ("address", .str (hexText i.address)), ("category", .str (categoryText i.category)),
    ("current", .str (i.current.getD "")), ("proposed", .str i.proposed),
    ("source", .str i.source), ("evidence", .str i.evidence), ("verdict", .str i.verdict)] ++
    if i.corroboratedBy = [] then []
    else [("corroborated_by", .list (i.corroboratedBy.map .str))])

def reconcileDocument (items : List ReconcileItem) : Json :=
  .obj [("item", .list (items.map reconcileRow))]

/-- `text or None` -/
def nonempty? (text : String) : Option String := if text = "" then none else some text

def readRow (r : Json) : Option ReconcileItem := do
  let target ← reqStr "target" r
  let direction ← (reqStr "direction" r).bind readDirection
  let address ← (reqStr "address" r).bind readHex
  let category ← (reqStr "category" r).bind readCategory
  let current ← (reqStr "current" r).map nonempty?
  let proposed ← reqStr "proposed" r
  let source ← reqStr "source" r
  let evidence ← strOr "evidence" "" r
  let verdict ← reqStr "verdict" r
  let corroboratedBy ← listOf "corroborated_by" Json.str? r
  return {
    target, direction, address, category, current, proposed, source, evidence, verdict,
    corroboratedBy }

/-- What `write_reconcile` leaves in the file. -/
def writeReconcile (dumps : Json → String) (items : List ReconcileItem) : String :=
  dumps (reconcileDocument items)

def readReconcile (loads : String → Option Json) (text : String) : Option (List ReconcileItem) :=
  (loads text).bind (listOf "item" readRow)

theorem readDirection_directionText (d : Direction) : readDirection (directionText d) = some d := by
  cases d with
  | forward => rfl
  | back => rfl

theorem nonempty?_getD {current : Option String} (h : current ≠ some "") :
    nonempty? (current.getD "") = current := by
  cases current with
  | none => rfl
  | some name => exact if_neg fun hname => h (congrArg some hname)

theorem corroboratedBy_reconcileRow (i : ReconcileItem) :
    listOf "corroborated_by" Json.str? (reconcileRow i) = some i.corroboratedBy := by
  by_cases hempty : i.corroboratedBy = []
  · have hfield : (reconcileRow i).field? "corroborated_by" = none := by
      rw [reconcileRow, if_pos hempty]
      rfl
    rw [listOf, hfield, hempty]
  · have hfield : (reconcileRow i).field? "corroborated_by" =
        some (.list (i.corroboratedBy.map .str)) := by
      rw [reconcileRow, if_neg hempty]
      rfl
    rw [listOf, hfield]
    exact Json.mapM_str i.corroboratedBy

/-- A row gives its item back, unless the current name of the item is empty. -/
theorem readRow_reconcileRow {i : ReconcileItem} (hcurrent : i.current ≠ some "") :
    readRow (reconcileRow i) = some i := by
  have hdirection : (reqStr "direction" (reconcileRow i)).bind readDirection = some i.direction :=
    readDirection_directionText i.direction
  have haddress : (reqStr "address" (reconcileRow i)).bind readHex = some i.address :=
    readHex_hexText i.address
  have hcategory : (reqStr "category" (reconcileRow i)).bind readCategory = some i.category :=
    readCategory_categoryText i.category
  have hname : (reqStr "current" (reconcileRow i)).map nonempty? = some i.current :=
    congrArg some (nonempty?_getD hcurrent)
  unfold readRow
  rw [hdirection, haddress, hcategory, hname, corroboratedBy_reconcileRow]
  rfl

/-- No item has an empty current name. -/
def CurrentsNamed (items : List ReconcileItem) : Prop := ∀ i ∈ items, i.current ≠ some ""

instance (items : List ReconcileItem) : Decidable (CurrentsNamed items) :=
  inferInstanceAs (Decidable (∀ i ∈ items, _))

theorem mapM_reconcileRow {items : List ReconcileItem} (h : CurrentsNamed items) :
    (items.map reconcileRow).mapM readRow = some items := by
  induction items with
  | nil => rfl
  | cons i items ih =>
    obtain ⟨hi, hitems⟩ := List.forall_mem_cons.mp h
    rw [List.map_cons, List.mapM_cons, readRow_reconcileRow hi, ih hitems]
    rfl

/-- The writer and the reader of the file format are inverse on the document of the items. -/
def Inverts (dumps : Json → String) (loads : String → Option Json) (items : List ReconcileItem) :
    Prop :=
  loads (dumps (reconcileDocument items)) = some (reconcileDocument items)

theorem readReconcile_writeReconcile {dumps : Json → String} {loads : String → Option Json}
    {items : List ReconcileItem} (hinverts : Inverts dumps loads items)
    (hnamed : CurrentsNamed items) :
    readReconcile loads (writeReconcile dumps items) = some items := by
  rw [readReconcile, writeReconcile, hinverts]
  exact mapM_reconcileRow hnamed

/-! ### Naming rounds -/

section Rounds

variable (dumps : Json → String) (loads : String → Option Json)

/-- The items of the file; there are none when it is missing. -/
def existingItems : Option String → Option (List ReconcileItem)
  | none => some []
  | some text => readReconcile loads text

/-- One round: the file is written only when there is something to review. -/
def appendReview (file : Option String) (allReview : List NamingResult) : Option (Option String) :=
  if allReview = [] then some file
  else (existingItems loads file).map fun existing =>
    some (writeReconcile dumps (existing ++ allReview.map reviewItem))

def appendRounds (file : Option String) : List (List NamingResult) → Option (Option String)
  | [] => some file
  | round :: rounds => (appendReview dumps loads file round).bind fun file' =>
      appendRounds file' rounds

end Rounds

section Kept

variable {dumps : Json → String} {loads : String → Option Json}

theorem existingItems_appendReview {file : Option String} {items : List ReconcileItem}
    (hfile : existingItems loads file = some items) (round : List NamingResult)
    (hinverts : Inverts dumps loads (items ++ round.map reviewItem))
    (hnamed : CurrentsNamed (items ++ round.map reviewItem)) :
    ∃ file', appendReview dumps loads file round = some file' ∧
      existingItems loads file' = some (items ++ round.map reviewItem) := by
  by_cases hempty : round = []
  · refine ⟨file, if_pos hempty, ?_⟩
    rw [hempty, List.map_nil, List.append_nil, hfile]
  · refine ⟨some (writeReconcile dumps (items ++ round.map reviewItem)), ?_,
      readReconcile_writeReconcile hinverts hnamed⟩
    rw [appendReview, if_neg hempty, hfile]
    rfl

/-- The items after some rounds are the earlier ones followed by those of each round. -/
theorem existingItems_appendRounds (rounds : List (List NamingResult)) {file : Option String}
    {items : List ReconcileItem} (hfile : existingItems loads file = some items)
    (hinverts : ∀ done, done <+: rounds →
      Inverts dumps loads (items ++ done.flatten.map reviewItem))
    (hnamed : CurrentsNamed (items ++ rounds.flatten.map reviewItem)) :
    ∃ file', appendRounds dumps loads file rounds = some file' ∧
      existingItems loads file' = some (items ++ rounds.flatten.map reviewItem) := by
  induction rounds generalizing file items with
  | nil =>
    refine ⟨file, rfl, ?_⟩
    rw [List.flatten_nil, List.map_nil, List.append_nil, hfile]
  | cons round rounds ih =>
    rw [List.flatten_cons, List.map_append, ← List.append_assoc] at hnamed ⊢
    have hfirst := hinverts [round] (List.prefix_append [round] rounds)
    rw [List.flatten_singleton] at hfirst
    obtain ⟨file', hround, hfile'⟩ := existingItems_appendReview hfile round hfirst
      fun i hi => hnamed i (List.mem_append_left _ hi)
    obtain ⟨file'', hrounds, hfile''⟩ := ih hfile' (by
      intro done hdone
      have hlater := hinverts (round :: done) (List.cons_prefix_cons.mpr ⟨rfl, hdone⟩)
      rwa [List.flatten_cons, List.map_append, ← List.append_assoc] at hlater) hnamed
    refine ⟨file'', ?_, hfile''⟩
    rw [appendRounds, hround, Option.bind_some, hrounds]

end Kept

/-- Items that are written are read back, and every naming round puts its own behind the
items that are there. -/
theorem reconcile_items_kept (dumps : Json → String) (loads : String → Option Json)
    (items : List ReconcileItem) (rounds : List (List NamingResult)) (file : Option String)
    (hnamed : CurrentsNamed items)
    (hreviews : ∀ round ∈ rounds, CurrentsNamed (round.map reviewItem))
    (hinverts : ∀ done, done <+: rounds →
      Inverts dumps loads (items ++ done.flatten.map reviewItem))
    (hfile : existingItems loads file = some items) :
    readReconcile loads (writeReconcile dumps items) = some items ∧
      ∃ file', appendRounds dumps loads file rounds = some file' ∧
        existingItems loads file' = some (items ++ rounds.flatten.map reviewItem) := by
  have hnone := hinverts [] (List.nil_prefix ..)
  rw [List.flatten_nil, List.map_nil, List.append_nil] at hnone
  refine ⟨readReconcile_writeReconcile hnone hnamed,
    existingItems_appendRounds rounds hfile hinverts ?_⟩
  intro i hi
  rcases List.mem_append.mp hi with hi | hi
  · exact hnamed i hi
  · obtain ⟨r, hr, rfl⟩ := List.mem_map.mp hi
    obtain ⟨round, hround, hr⟩ := List.mem_flatten.mp hr
    exact hreviews round hround _ (List.mem_map_of_mem hr)

def tachoItem : ReconcileItem where
  target := "33520003"
  direction := .back
  address := 0x804d5e
  category := .ramGlobal
  current := some "fp12962_u16"
  proposed := "tacho_output_state"
  source := "e5090011"
  evidence := "usage-equiv"
  verdict := "proposed"

def knockResult : NamingResult where
  rom := "33520003"
  isVariable := false
  address := 0x1a3f0
  proposedName := "knock_window_open"
  reasoning := "two named callers"

/-- One line of a table. -/
def tomlLine : String × Json → String
  | (key, .str text) => key ++ " = \"" ++ text ++ "\"\n"
  | _ => ""

def tomlTable : Json → String
  | .obj fields => "[[item]]\n" ++ String.join (fields.map tomlLine)
  | _ => ""

/-- The text of a document whose rows hold plain words. -/
def tomlDumps : Json → String
  | .obj [(_, .list rows)] => "\n".intercalate (rows.map tomlTable)
  | _ => ""

/-- A reader of the texts of two lists. -/
def tomlLoads (text : String) : Option Json :=
  if text = writeReconcile tomlDumps [tachoItem] then some (reconcileDocument [tachoItem])
  else if text = writeReconcile tomlDumps [tachoItem, reviewItem knockResult] then
    some (reconcileDocument [tachoItem, reviewItem knockResult])
  else none

theorem inverts_tachoItem : Inverts tomlDumps tomlLoads [tachoItem] := if_pos rfl

theorem inverts_knockResult : Inverts tomlDumps tomlLoads [tachoItem, reviewItem knockResult] := by
  have hother : ¬ tomlDumps (reconcileDocument [tachoItem, reviewItem knockResult]) =
      writeReconcile tomlDumps [tachoItem] := by decide +kernel
  exact (if_neg hother).trans (if_pos rfl)

theorem reconcile_items_kept_tacho :
    readReconcile tomlLoads (writeReconcile tomlDumps [tachoItem]) = some [tachoItem] ∧
      ∃ file', appendRounds tomlDumps tomlLoads
          (some (writeReconcile tomlDumps [tachoItem])) [[], [knockResult]] = some file' ∧
        existingItems tomlLoads file' = some [tachoItem, reviewItem knockResult] := by
  apply reconcile_items_kept tomlDumps tomlLoads [tachoItem] [[], [knockResult]]
  · decide
  · decide
  · intro done hdone
    have hcases : done = [] ∨ done = [[]] ∨ done = [[], [knockResult]] := by
      simpa using (List.mem_inits _ _).mpr hdone
    obtain rfl | rfl | rfl := hcases
    · exact inverts_tachoItem
    · exact inverts_tachoItem
    · exact inverts_knockResult
  · exact readReconcile_writeReconcile inverts_tachoItem (by decide)

end RomAnalyzer.Enrich
