import RomAnalyzer.AnnotationsJson
import RomAnalyzer.Lib.Text
import RomAnalyzer.Lib.Upsert

/-!
# Exporting annotations from the program

The symbols, functions and comments that people left in the program are merged into
the annotation file. What the file holds as verified is only replaced when somebody is
asked, and a run with script arguments asks nobody.
-/
namespace RomAnalyzer.Scripts.ExportAnnotations

open Lib
open AnnotationsIo

/-! ### The program -/

structure Parameter where
  name : String
  register : Option String
  /-- `none` where the parameter is not on the stack -/
  stackOffset : Option Int
  dataType : String

structure ProgramFunction where
  returnType : String
  parameters : List Parameter

structure ProgramSymbol where
  source : String
  offset : Option Int
  name : String
  /-- The function at the address of the symbol -/
  function : Option ProgramFunction

inductive CommentType
  | eol
  | pre
  | post
  | plate
  | repeatable

/-- `_COMMENT_TYPES` -/
def commentTypes : List (CommentType × String) :=
  [(.eol, "end-of-line"), (.pre, "pre"), (.post, "post"), (.plate, "plate"),
    (.repeatable, "repeatable")]

/-- A unit that the comment iterator visits. -/
structure CommentedUnit where
  offset : Int
  comment : CommentType → Option String

structure Program where
  name : String
  symbols : List ProgramSymbol
  units : List CommentedUnit

/-! ### Collecting -/

/-- A value of an entry that the program gives. -/
inductive Value
  | text (s : String)
  | params (ps : List AnnotationParam)

namespace Value

def json : Value → Json
  | .text s => .str s
  | .params ps => .list (ps.map paramJson)

end Value

def skipSources : List String := ["DEFAULT", "IMPORTED", "ANALYSIS"]

/-- `"0x%x"`, with the sign behind the prefix -/
def hexAddr (offset : Int) : String :=
  if offset < 0 then "0x-" ++ String.ofList (hexDigits offset.natAbs)
  else hexText offset.natAbs

def extractParams (func : ProgramFunction) : List AnnotationParam :=
  func.parameters.map fun p =>
    let storage :=
      match p.register, p.stackOffset with
      | some reg, _ => reg
      | none, some offset => "stack+" ++ toString offset
      | none, none => "stack"
    ⟨p.name, storage, p.dataType⟩

def functionEntry (name hexAddr : String) (func : ProgramFunction) : Dict String Value :=
  let entry := Dict.ofList [("name", .text name), ("entry_point", .text hexAddr)]
  let entry :=
    if func.returnType = "void" ∨ "undefined".toList.isPrefixOf func.returnType.toList then entry
    else entry.insert "return_type" (.text func.returnType)
  if extractParams func = [] then entry
  else entry.insert "params" (.params (extractParams func))

def symbolEntry (name hexAddr : String) (offset : Int) : Dict String Value :=
  Dict.ofList [("name", .text name), ("address", .text hexAddr),
    ("category", .text (categoryText (if 0x800000 ≤ offset then .ramGlobal else .data)))]

/-- Symbols and functions by the text of their address. -/
structure Collected where
  symbols : Dict String (Dict String Value) := Dict.empty
  functions : Dict String (Dict String Value) := Dict.empty

def collectSymbol (found : Collected) (sym : ProgramSymbol) : Collected :=
  if sym.source ∈ skipSources then found
  else
    match sym.offset with
    | none => found
    | some offset =>
      let addr := hexAddr offset
      match sym.function with
      | some func =>
        { found with functions := found.functions.insert addr (functionEntry sym.name addr func) }
      | none =>
        { found with symbols := found.symbols.insert addr (symbolEntry sym.name addr offset) }

def collectSymbolsAndFunctions (program : Program) : Collected :=
  program.symbols.foldl collectSymbol {}

structure NewComment where
  address : String
  type : String
  text : String

/-- Comments by address and type; an empty text is no comment. -/
def collectComments (program : Program) : Dict (String × String) NewComment :=
  program.units.foldl (fun comments unit =>
    commentTypes.foldl (fun comments type =>
      match unit.comment type.1 with
      | none => comments
      | some text =>
        if text = "" then comments
        else comments.insert (hexAddr unit.offset, type.2) ⟨hexAddr unit.offset, type.2, text⟩)
      comments) Dict.empty

/-! ### Merging -/

/-- An entry of the file. -/
abbrev Entry := Dict String Json

structure Provenance where
  confidence : String
  source : String
  verifiedBy : String
  session : String
  timestamp : String

def provenance (user session ts : String) : Provenance where
  confidence := "verified"
  source := "ghidra"
  verifiedBy := user
  session := session
  timestamp := ts

def Provenance.fields (prov : Provenance) : List (String × Json) :=
  [("confidence", .str prov.confidence), ("source", .str prov.source),
    ("verified_by", .str prov.verifiedBy), ("session", .str prov.session),
    ("timestamp", .str prov.timestamp)]

def Provenance.commentFields (prov : Provenance) : List (String × Json) :=
  [("verified_by", .str prov.verifiedBy), ("session", .str prov.session),
    ("timestamp", .str prov.timestamp)]

/-- A field of an entry, if it is a text. -/
def text? (field : String) (entry : Entry) : Option String := (entry.get? field).bind Json.str?

/-- `dict(new_entry)` with the provenance on top -/
def stamped (prov : Provenance) (new : Dict String Value) : Entry :=
  (new.mapValues Value.json).update prov.fields

def NewComment.entry (new : NewComment) : Entry :=
  Dict.ofList [("address", .str new.address), ("type", .str new.type), ("text", .str new.text)]

def stampedComment (prov : Provenance) (new : NewComment) : Entry :=
  new.entry.update prov.commentFields

/-- An object is a dictionary. -/
def dict? : Json → Option Entry
  | .obj fields => some (Dict.ofList fields)
  | _ => none

/-- A list of parameters is compared item by item, and an item is an object with
the three texts, in whatever order. -/
def isParam (item : Json) (p : AnnotationParam) : Bool :=
  match dict? item with
  | none => false
  | some fields => fields.entries.length = 3 ∧ text? "name" fields = some p.name ∧
      text? "storage" fields = some p.storage ∧ text? "type" fields = some p.type

def Value.isSame : Value → Json → Bool
  | .text s, .str t => s = t
  | .params ps, .list items => items.length = ps.length ∧
      (items.zip ps).all fun p => isParam p.1 p.2
  | _, _ => false

def provKeys : List String := ["confidence", "source", "verified_by", "session", "timestamp"]

def valueFields {α : Type} (fields : List (String × α)) : List (String × α) :=
  fields.filter fun f => f.1 ∉ provKeys

/-- `old_vals == new_vals`: as many fields, and the same under every name -/
def sameValues (old : List (String × Json)) (new : List (String × Value)) : Bool :=
  old.length = new.length ∧ new.all fun f => (find f.1 old).any f.2.isSame

inductive MergeStatus
  | added
  | overwritten
  | unchanged
  | replaced
  | kept
  deriving DecidableEq

/-- What a merge returns, and the dictionary as it leaves it. -/
structure Merged (κ : Type) [DecidableEq κ] where
  entry : Entry
  status : MergeStatus
  existing : Dict κ Entry

/-- `askYesNo` about an address, the old values and the new; `none` where it throws. -/
abbrev Ask := String → List (String × Json) → List (String × Value) → Option Bool

def mergeEntry (interactive : Bool) (ask : Ask) (prov : Provenance) (label : String)
    (new : Dict String Value) (existing : Dict String Entry) : Merged String :=
  let result := stamped prov new
  match existing.get? label with
  | none => ⟨result, .added, existing.insert label result⟩
  | some old =>
    let oldVals := valueFields old.entries
    let newVals := valueFields new.entries
    if text? "confidence" old ≠ some "verified" then
      ⟨result, .overwritten, existing.insert label result⟩
    else if sameValues oldVals newVals then ⟨old, .unchanged, existing⟩
    else if interactive && (ask label oldVals newVals).getD false then
      ⟨result, .replaced, existing.insert label result⟩
    else ⟨old, .kept, existing⟩

def mergeComment (prov : Provenance) (key : String × String) (new : NewComment)
    (existing : Dict (String × String) Entry) : Merged (String × String) :=
  let result := stampedComment prov new
  match existing.get? key with
  | none => ⟨result, .added, existing.insert key result⟩
  | some old =>
    if text? "text" old = some new.text then ⟨old, .unchanged, existing⟩
    else ⟨result, .replaced, existing.insert key result⟩

/-! ### A run of the script -/

structure Run where
  args : List String
  /-- The time of the run, in its two forms -/
  ts : String
  compact : String
  /-- The system's user name, unless it cannot be read -/
  userName : Option String
  ask : Ask

def romId (program : Program) : String :=
  String.ofList (program.name.toList.takeWhile fun c => c ≠ '-')

def Run.session (run : Run) (program : Program) : String :=
  run.args[1]?.getD (romId program ++ "-manual-" ++ run.compact)

def Run.user (run : Run) : String :=
  run.args[2]?.getD ((run.userName.filter fun name => name ≠ "").getD "unknown")

def Run.interactive (run : Run) : Bool := run.args.length = 0

/-- The list under a name; what is no list of objects is no annotation file. -/
def readEntries (field : String) (data : Entry) : Option (List Entry) :=
  match data.get? field with
  | none => some []
  | some (.list items) => items.mapM dict?
  | some _ => none

/-- Both are texts in a comment of an annotation file. -/
def commentKey (entry : Entry) : Option (String × String) :=
  (text? "address" entry).bind fun addr => (text? "type" entry).map fun type => (addr, type)

/-- `_sort_key_hex`; a field that is no text has made the run fail before -/
def sortKeyHex (field : String) (entry : Entry) : Int :=
  ((text? field entry).bind fun text => readInt 16 text.toList).getD 0

def entriesJson (entries : List Entry) : Json := .list (entries.map fun e => .obj e.entries)

def outputJson (data : Entry) (romId : String) (symbols functions comments : List Entry) : Json :=
  .obj [
    ("schema_version", data.getD "schema_version" (.int 1)),
    ("rom_id", data.getD "rom_id" (.str romId)),
    ("rom_sha256", data.getD "rom_sha256" (.str "")),
    ("symbols", entriesJson symbols),
    ("functions", entriesJson functions),
    ("struct_definitions", data.getD "struct_definitions" (.list [])),
    ("comments", entriesJson comments)]

/-- The merge and the rebuild of `main`; `none` is an exception before anything is written. -/
def mergeAndRebuild (run : Run) (program : Program) (data : Entry) : Option Json := do
  let prov := provenance run.user (run.session program) run.ts
  let new := collectSymbolsAndFunctions program
  let newComments := collectComments program
  let exSymbols ← (← readEntries "symbols" data) |> Dict.keyed (text? "address")
  let exFunctions ← (← readEntries "functions" data) |> Dict.keyed (text? "entry_point")
  let exComments ← (← readEntries "comments" data) |> Dict.keyed commentKey
  let exSymbols := new.symbols.entries.foldl (fun existing e =>
    (mergeEntry run.interactive run.ask prov e.1 e.2 existing).existing) exSymbols
  let exFunctions := new.functions.entries.foldl (fun existing e =>
    (mergeEntry run.interactive run.ask prov e.1 e.2 existing).existing) exFunctions
  let exComments := newComments.entries.foldl (fun existing e =>
    (mergeComment prov e.1 e.2 existing).existing) exComments
  return outputJson data (romId program)
    (sortBy (sortKeyHex "address") exSymbols.values)
    (sortBy (sortKeyHex "entry_point") exFunctions.values)
    (sortBy (sortKeyHex "address") exComments.values)

/-- What is used when there is no file that can be read. -/
def noAnnotations (program : Program) : Entry :=
  Dict.ofList [("schema_version", .int 1), ("rom_id", .str (romId program)),
    ("rom_sha256", .str ""), ("symbols", .list []), ("functions", .list []),
    ("struct_definitions", .list []), ("comments", .list [])]

/-- `_load_existing`; a file that holds `null` counts as none. -/
def loadExisting (loads : String → Option Json) (file : Option String) : Option Json :=
  match file.bind loads with
  | some .null => none
  | data => data

/-- The text that a run leaves in the file, given the text that is there. -/
def main (loads : String → Option Json) (run : Run) (program : Program) (file : Option String) :
    Option String := do
  let data ←
    match loadExisting loads file with
    | none => some (noAnnotations program)
    | some data => dict? data
  let output ← mergeAndRebuild run program data
  return output.dumps ++ "\n"

/-! ### What a merge leaves under its key -/

/-- An entry that the file holds as verified. -/
def Verified (entry : Entry) : Prop := text? "confidence" entry = some "verified"

instance (entry : Entry) : Decidable (Verified entry) := inferInstanceAs (Decidable (_ = _))

/-- A verified entry stays, everything else gives way. -/
def settledEntry (prov : Provenance) : Dict String Value → Option Entry → Entry :=
  keepOr (fun _ old => Verified old) (stamped prov)

/-- A comment with the same text stays. -/
def settledComment (prov : Provenance) : NewComment → Option Entry → Entry :=
  keepOr (fun new old => text? "text" old = some new.text) (stampedComment prov)

/-- Where nobody is asked, a merge writes the settled entry and nothing else. -/
theorem mergeEntry_existing (ask : Ask) (prov : Provenance) (label : String)
    (new : Dict String Value) (existing : Dict String Entry) :
    (mergeEntry false ask prov label new existing).existing =
      existing.insert label (settledEntry prov new (existing.get? label)) := by
  unfold mergeEntry
  cases hold : existing.get? label with
  | none => rfl
  | some old =>
    by_cases hverified : text? "confidence" old = some "verified"
    · have hsettled : settledEntry prov new (some old) = old := if_pos hverified
      rw [hsettled, Dict.insert_of_get? hold]
      simp only [hverified, ne_eq, not_true_eq_false, ↓reduceIte, Bool.false_and,
        Bool.false_eq_true]
      split <;> rfl
    · have hsettled : settledEntry prov new (some old) = stamped prov new := if_neg hverified
      rw [hsettled]
      simp only [ne_eq, hverified, not_false_eq_true, ↓reduceIte]

theorem mergeComment_existing (prov : Provenance) (key : String × String) (new : NewComment)
    (existing : Dict (String × String) Entry) :
    (mergeComment prov key new existing).existing =
      existing.insert key (settledComment prov new (existing.get? key)) := by
  unfold mergeComment
  cases hold : existing.get? key with
  | none => rfl
  | some old =>
    by_cases htext : text? "text" old = some new.text
    · have hsettled : settledComment prov new (some old) = old := if_pos htext
      rw [hsettled, Dict.insert_of_get? hold]
      simp only [htext, ↓reduceIte]
    · have hsettled : settledComment prov new (some old) = stampedComment prov new :=
        if_neg htext
      rw [hsettled]
      simp only [htext, ↓reduceIte]

/-- Provenance leaves every other field as the program gives it. -/
theorem text?_stamped {field : String} (h : field ∉ provKeys) (prov : Provenance)
    (new : Dict String Value) :
    text? field (stamped prov new) = (new.get? field).bind fun v => v.json.str? := by
  have hfields : field ∉ prov.fields.map Prod.fst := h
  unfold text? stamped
  rw [Dict.get?_update_of_not_mem hfields, Dict.get?_mapValues, Option.bind_map]
  rfl

theorem verified_stamped {prov : Provenance} (h : prov.confidence = "verified")
    (new : Dict String Value) : Verified (stamped prov new) := by
  unfold Verified text? stamped Provenance.fields Dict.update
  simp only [List.foldl_cons, List.foldl_nil, Dict.get?_insert, String.reduceEq, ↓reduceIte,
    Option.bind_some, Json.str?, h]

theorem text?_stampedComment {field : String}
    (h : field ∉ ["verified_by", "session", "timestamp"]) (prov : Provenance)
    (new : NewComment) : text? field (stampedComment prov new) = text? field new.entry := by
  have hfields : field ∉ prov.commentFields.map Prod.fst := h
  unfold text? stampedComment
  rw [Dict.get?_update_of_not_mem hfields]

/-! ### A stamped entry has the values it was made of -/

theorem isParam_paramJson (p : AnnotationParam) : isParam (paramJson p) p = true := by
  have hfields : dict? (paramJson p) = some (Dict.ofList
      [("name", .str p.name), ("storage", .str p.storage), ("type", .str p.type)]) := rfl
  have hlength : (Dict.ofList [("name", Json.str p.name), ("storage", .str p.storage),
      ("type", .str p.type)]).entries.length = 3 := rfl
  unfold isParam
  rw [hfields]
  simp only [hlength, decide_eq_true_eq]
  exact ⟨trivial, rfl, rfl, rfl⟩

theorem isSame_json (v : Value) : v.isSame v.json = true := by
  cases v with
  | text s => simp [Value.json, Value.isSame]
  | params ps =>
    have hall : ((ps.map paramJson).zip ps).all (fun p => isParam p.1 p.2) = true := by
      rw [List.zip_map_left, List.all_map, List.all_eq_true]
      intro p hp
      have hself : p.1 = p.2 := by
        rw [List.zip_eq_zipWith, List.zipWith_self] at hp
        obtain ⟨q, _, rfl⟩ := List.mem_map.mp hp
        rfl
      show isParam (paramJson p.1) p.2 = true
      rw [hself, isParam_paramJson]
    simp [Value.json, Value.isSame, hall]

theorem valueFields_put {k : String} (hk : k ∈ provKeys) (v : Json)
    (es : List (String × Json)) : valueFields (put k v es) = valueFields es := by
  induction es with
  | nil => simp [put, valueFields, hk]
  | cons f es ih =>
    unfold valueFields at ih ⊢
    unfold put
    split
    · rename_i hf
      simp [hf, hk]
    · rw [List.filter_cons, List.filter_cons, ih]

/-- Provenance is no value field. -/
theorem valueFields_update {fields : List (String × Json)} (h : ∀ f ∈ fields, f.1 ∈ provKeys)
    (e : Entry) : valueFields (e.update fields).entries = valueFields e.entries := by
  induction fields generalizing e with
  | nil => rfl
  | cons f fields ih =>
    have hfields := List.forall_mem_cons.mp h
    show valueFields ((e.insert f.1 f.2).update fields).entries = _
    rw [ih hfields.2]
    exact valueFields_put hfields.1 f.2 e.entries

theorem sameValues_stamped (prov : Provenance) (new : Dict String Value) :
    sameValues (valueFields (stamped prov new).entries) (valueFields new.entries) = true := by
  have hprov : ∀ f ∈ prov.fields, f.1 ∈ provKeys := by
    intro f hf
    have hkeys : prov.fields.map Prod.fst = provKeys := rfl
    rw [← hkeys]
    exact List.mem_map_of_mem hf
  have hvalues : valueFields (stamped prov new).entries =
      (valueFields new.entries).map fun f => (f.1, f.2.json) := by
    unfold stamped
    rw [valueFields_update hprov]
    unfold valueFields Dict.mapValues
    rw [List.filter_map]
    rfl
  have hnodup : ((valueFields new.entries).map Prod.fst).Nodup :=
    new.nodup.sublist (List.filter_sublist.map Prod.fst)
  let fields : Dict String Value := ⟨valueFields new.entries, hnodup⟩
  have hfind : ∀ f ∈ valueFields new.entries,
      find f.1 ((valueFields new.entries).map fun f => (f.1, f.2.json)) = some f.2.json := by
    intro f hf
    have hget : fields.get? f.1 = some f.2 := (fields.mem_entries_iff f.1 f.2).mp hf
    have hmap := Dict.get?_mapValues Value.json fields f.1
    rw [hget] at hmap
    exact hmap
  unfold sameValues
  rw [hvalues, List.length_map]
  simp only [true_and, decide_eq_true_eq, List.all_eq_true]
  intro f hf
  rw [hfind f hf]
  exact isSame_json f.2

/-- An entry that a merge has written is unchanged for the next one, whoever runs it. -/
theorem mergeEntry_again {prov : Provenance} (h : prov.confidence = "verified")
    (interactive interactive' : Bool) (ask ask' : Ask) (prov' : Provenance) (label : String)
    (new : Dict String Value) (existing : Dict String Entry)
    (hwritten : (mergeEntry interactive ask prov label new existing).status ∈
      [MergeStatus.added, .overwritten, .replaced]) :
    (mergeEntry interactive' ask' prov' label new
      (mergeEntry interactive ask prov label new existing).existing).status = .unchanged := by
  have hexisting : (mergeEntry interactive ask prov label new existing).existing =
      existing.insert label (stamped prov new) := by
    unfold mergeEntry at hwritten ⊢
    split at hwritten
    · rfl
    · dsimp only at hwritten ⊢
      split at hwritten
      · rw [if_pos (by assumption)]
      split at hwritten
      · simp at hwritten
      split at hwritten
      · rw [if_neg (by assumption), if_neg (by assumption), if_pos (by assumption)]
      · simp at hwritten
  rw [hexisting]
  unfold mergeEntry
  have hverified : text? "confidence" (stamped prov new) = some "verified" :=
    verified_stamped h new
  rw [Dict.get?_insert_self]
  simp only [hverified, ne_eq, not_true_eq_false, ↓reduceIte, sameValues_stamped]

/-! ### What is collected names its key -/

/-- Every entry that is collected has its key in it. -/
structure Addressed (found : Collected) : Prop where
  symbols : ∀ k n, found.symbols.get? k = some n → n.get? "address" = some (.text k)
  functions : ∀ k n, found.functions.get? k = some n → n.get? "entry_point" = some (.text k)

theorem get?_functionEntry (name hexAddr : String) (func : ProgramFunction) :
    (functionEntry name hexAddr func).get? "entry_point" = some (.text hexAddr) := by
  have hentry : (Dict.ofList [("name", Value.text name), ("entry_point", .text hexAddr)]).get?
      "entry_point" = some (.text hexAddr) := rfl
  unfold functionEntry
  split <;> split <;> simp only [Dict.get?_insert, String.reduceEq, ↓reduceIte, hentry]

theorem addressed_collectSymbol {found : Collected} (h : Addressed found) (sym : ProgramSymbol) :
    Addressed (collectSymbol found sym) := by
  unfold collectSymbol
  split
  · exact h
  split
  · exact h
  rename_i offset _
  split
  · rename_i func _
    exact ⟨h.symbols, Dict.forall_get?_insert h.functions (get?_functionEntry _ _ func)⟩
  · exact ⟨Dict.forall_get?_insert h.symbols rfl, h.functions⟩

theorem addressed_collect (program : Program) :
    Addressed (collectSymbolsAndFunctions program) := by
  have hempty : Addressed {} := ⟨nofun, nofun⟩
  exact List.foldlRecOn (motive := Addressed) program.symbols collectSymbol hempty
    fun found h sym _ => addressed_collectSymbol h sym

/-- Every comment stands under its address and type. -/
def AddressedComments (comments : Dict (String × String) NewComment) : Prop :=
  ∀ k n, comments.get? k = some n → (n.address, n.type) = k

theorem addressed_collectComments (program : Program) :
    AddressedComments (collectComments program) := by
  unfold collectComments
  refine List.foldlRecOn (motive := AddressedComments) program.units _ nofun ?_
  intro comments hcomments unit _
  refine List.foldlRecOn (motive := AddressedComments) commentTypes _ hcomments ?_
  intro comments hcomments type _
  split
  · exact hcomments
  split
  · exact hcomments
  · exact Dict.forall_get?_insert hcomments rfl

/-! ### Settling -/

def Run.prov (run : Run) (program : Program) : Provenance :=
  provenance run.user (run.session program) run.ts

theorem settling_entries (program : Program) {field : String} (hfield : field ∉ provKeys)
    {news : Dict String (Dict String Value)}
    (hnews : ∀ k n, news.get? k = some n → n.get? field = some (.text k)) :
    Settling (text? field) (fun (run : Run) _ => settledEntry (run.prov program))
      news.entries := by
  refine settling_keepOr news.nodup ?_ ?_
  · intro run k n hn
    rw [text?_stamped hfield, hnews k n ((Dict.mem_entries_iff news k n).mp hn)]
    rfl
  · intro run n
    have hprov : (run.prov program).confidence = "verified" := rfl
    exact verified_stamped hprov n

theorem settling_comments (program : Program) {news : Dict (String × String) NewComment}
    (hnews : AddressedComments news) :
    Settling commentKey (fun (run : Run) _ => settledComment (run.prov program))
      news.entries := by
  refine settling_keepOr news.nodup ?_ ?_
  · intro run k n hn
    unfold commentKey
    rw [text?_stampedComment (by decide), text?_stampedComment (by decide),
      ← hnews k n ((Dict.mem_entries_iff news k n).mp hn)]
    rfl
  · intro run n
    exact text?_stampedComment (by decide) (run.prov program) n

/-! ### The whole run -/

def mergedSymbols (run : Run) (program : Program) : List Entry → Option (List Entry) :=
  rebuild (text? "address") (sortKeyHex "address") (fun _ => settledEntry (run.prov program))
    (collectSymbolsAndFunctions program).symbols.entries

def mergedFunctions (run : Run) (program : Program) : List Entry → Option (List Entry) :=
  rebuild (text? "entry_point") (sortKeyHex "entry_point")
    (fun _ => settledEntry (run.prov program))
    (collectSymbolsAndFunctions program).functions.entries

def mergedComments (run : Run) (program : Program) : List Entry → Option (List Entry) :=
  rebuild commentKey (sortKeyHex "address") (fun _ => settledComment (run.prov program))
    (collectComments program).entries

/-- The loop over what the program gives settles entry by entry. -/
theorem foldl_mergeEntry (ask : Ask) (prov : Provenance)
    (news : List (String × Dict String Value)) (existing : Dict String Entry) :
    news.foldl (fun existing e => (mergeEntry false ask prov e.1 e.2 existing).existing) existing =
      existing.settleAll (fun _ => settledEntry prov) news := by
  unfold Dict.settleAll
  congr 1
  funext existing e
  exact mergeEntry_existing ask prov e.1 e.2 existing

theorem foldl_mergeComment (prov : Provenance) (news : List ((String × String) × NewComment))
    (existing : Dict (String × String) Entry) :
    news.foldl (fun existing e => (mergeComment prov e.1 e.2 existing).existing) existing =
      existing.settleAll (fun _ => settledComment prov) news := by
  unfold Dict.settleAll
  congr 1
  funext existing e
  exact mergeComment_existing prov e.1 e.2 existing

/-- An annotation table whose entries name their keys, each a key of its own. -/
structure Table {κ : Type} (key : Entry → Option κ) (field : String) (data : Entry) where
  entries : List Entry
  reads : readEntries field data = some entries
  keyed : ∀ e ∈ entries, ∃ k, key e = some k
  distinct : (entries.map key).Nodup

/-- An annotation file with at most one symbol and one function per address, and one
comment per address and type. -/
structure AnnotationFile (data : Entry) where
  symbols : Table (text? "address") "symbols" data
  functions : Table (text? "entry_point") "functions" data
  comments : Table commentKey "comments" data

/-- A run that asks nobody rebuilds the three tables. -/
theorem mergeAndRebuild_of_merged {run : Run} (hrun : run.interactive = false)
    {program : Program} {data : Entry} (file : AnnotationFile data)
    {symbols functions comments : List Entry}
    (hsymbols : mergedSymbols run program file.symbols.entries = some symbols)
    (hfunctions : mergedFunctions run program file.functions.entries = some functions)
    (hcomments : mergedComments run program file.comments.entries = some comments) :
    mergeAndRebuild run program data =
      some (outputJson data (romId program) symbols functions comments) := by
  obtain ⟨exSymbols, hexSymbols, rfl⟩ := Option.map_eq_some_iff.mp hsymbols
  obtain ⟨exFunctions, hexFunctions, rfl⟩ := Option.map_eq_some_iff.mp hfunctions
  obtain ⟨exComments, hexComments, rfl⟩ := Option.map_eq_some_iff.mp hcomments
  unfold mergeAndRebuild
  rw [hrun]
  simp only [file.symbols.reads, file.functions.reads, file.comments.reads, hexSymbols,
    hexFunctions, hexComments, foldl_mergeEntry, foldl_mergeComment, Option.bind_eq_bind,
    Option.bind_some]
  rfl

/-! ### Reading what was written -/

theorem dict?_obj (e : Entry) : dict? (.obj e.entries) = some e := by
  show some (Dict.ofList e.entries) = some e
  rw [Dict.ofList_entries]

theorem readEntries_of_get? {field : String} {data : Entry} {entries : List Entry}
    (h : data.get? field = some (entriesJson entries)) :
    readEntries field data = some entries := by
  unfold readEntries
  rw [h]
  exact Json.mapM_map_of_inverse dict?_obj entries

/-- The output is read as the tables it was made of, and has all the rest of the file. -/
theorem readEntries_output (data : Entry) (romId : String)
    (symbols functions comments : List Entry) :
    ∃ out, dict? (outputJson data romId symbols functions comments) = some out ∧
      readEntries "symbols" out = some symbols ∧
      readEntries "functions" out = some functions ∧
      readEntries "comments" out = some comments ∧
      ∀ romId' symbols' functions' comments',
        outputJson out romId' symbols' functions' comments' =
          outputJson data romId symbols' functions' comments' :=
  ⟨_, rfl, readEntries_of_get? rfl, readEntries_of_get? rfl, readEntries_of_get? rfl,
    fun _ _ _ _ => rfl⟩

theorem main_of_merged {loads : String → Option Json} {run : Run} {program : Program}
    {text : String} {data : Entry} (hload : (loads text).bind dict? = some data)
    {output : Json} (h : mergeAndRebuild run program data = some output) :
    main loads run program (some text) = some (output.dumps ++ "\n") := by
  obtain ⟨json, hjson, hdict⟩ := Option.bind_eq_some_iff.mp hload
  have hloaded : loadExisting loads (some text) = some json := by
    unfold loadExisting
    rw [Option.bind_some, hjson]
    cases json <;> first | rfl | cases hdict
  unfold main
  rw [hloaded]
  show (dict? json).bind (fun data => (mergeAndRebuild run program data).bind fun output =>
    some (output.dumps ++ "\n")) = _
  rw [hdict, Option.bind_some, h, Option.bind_some]

/-- A run with script arguments on a file with at most one entry per address: every
verified symbol and function is in the file afterwards, no entry is lost, and whatever
the session, user and time of the next such run, it leaves the file as it is. Of the
JSON parser it is assumed that it reads what was written. -/
theorem main_keepsVerified_idempotent (loads : String → Option Json) (program : Program)
    (run : Run) (hrun : run.args ≠ []) {data : Entry} (before : AnnotationFile data)
    (text : String) (hload : (loads text).bind dict? = some data)
    (hround : ∀ output, mergeAndRebuild run program data = some output →
      loads (output.dumps ++ "\n") = some output) :
    ∃ text' data', ∃ after : AnnotationFile data',
      main loads run program (some text) = some text' ∧
      (loads text').bind dict? = some data' ∧
      Retains (text? "address") (collectSymbolsAndFunctions program).symbols.keys
        before.symbols.entries after.symbols.entries ∧
      Retains (text? "entry_point") (collectSymbolsAndFunctions program).functions.keys
        before.functions.entries after.functions.entries ∧
      Retains commentKey (collectComments program).keys
        before.comments.entries after.comments.entries ∧
      (∀ e ∈ before.symbols.entries, Verified e → e ∈ after.symbols.entries) ∧
      (∀ e ∈ before.functions.entries, Verified e → e ∈ after.functions.entries) ∧
      ∀ run' : Run, run'.args ≠ [] → main loads run' program (some text') = some text' := by
  have hasks : ∀ {r : Run}, r.args ≠ [] → r.interactive = false := by
    intro r hr
    simpa [Run.interactive] using hr
  have haddressed := addressed_collect program
  -- the three tables, each with the fixed point that every later run finds
  obtain ⟨symbols, hsymbols, hretS, hkeepS, hkeyedS, hdistinctS, hfixS⟩ :
      ∃ symbols, mergedSymbols run program before.symbols.entries = some symbols ∧ _ :=
    rebuild_keeps (settling_entries program (by decide) haddressed.symbols) run
      before.symbols.keyed before.symbols.distinct
  obtain ⟨functions, hfunctions, hretF, hkeepF, hkeyedF, hdistinctF, hfixF⟩ :
      ∃ functions, mergedFunctions run program before.functions.entries = some functions ∧ _ :=
    rebuild_keeps (settling_entries program (by decide) haddressed.functions) run
      before.functions.keyed before.functions.distinct
  obtain ⟨comments, hcomments, hretC, -, hkeyedC, hdistinctC, hfixC⟩ :
      ∃ comments, mergedComments run program before.comments.entries = some comments ∧ _ :=
    rebuild_keeps (settling_comments program (addressed_collectComments program)) run
      before.comments.keyed before.comments.distinct
  have hmerged := mergeAndRebuild_of_merged (hasks hrun) before hsymbols hfunctions hcomments
  obtain ⟨out, hout, hreadS, hreadF, hreadC, hrest⟩ :=
    readEntries_output data (romId program) symbols functions comments
  let after : AnnotationFile out :=
    ⟨⟨symbols, hreadS, hkeyedS, hdistinctS⟩, ⟨functions, hreadF, hkeyedF, hdistinctF⟩,
      ⟨comments, hreadC, hkeyedC, hdistinctC⟩⟩
  have hloaded := hround _ hmerged
  refine ⟨_, out, after, main_of_merged hload hmerged, ?_, hretS, hretF, hretC, ?_, ?_, ?_⟩
  · rw [hloaded]
    exact hout
  · exact fun e he hverified => hkeepS e he fun _ _ => if_pos hverified
  · exact fun e he hverified => hkeepF e he fun _ _ => if_pos hverified
  · intro run' hrun'
    refine main_of_merged (by rw [hloaded]; exact hout) ?_
    have hagain : mergeAndRebuild run' program out =
        some (outputJson out (romId program) symbols functions comments) :=
      mergeAndRebuild_of_merged (hasks hrun') after (hfixS run') (hfixF run') (hfixC run')
    rw [hagain, hrest]

section Colt

/-- A variable that was verified under another name, a function, and a comment on it. -/
def coltProgram : Program where
  name := "33520003-colt.bin"
  symbols := [
    ⟨"USER_DEFINED", some 0x804d5e, "tps_raw", none⟩,
    ⟨"ANALYSIS", some 0x2d72, "DAT_00002d72", none⟩,
    ⟨"USER_DEFINED", some 0x14ed8, "tacho_set",
      some ⟨"void", [⟨"rpm", some "R0", none, "ushort"⟩]⟩⟩]
  units := [⟨0x14ed8, fun
    | .plate => some "tacho output"
    | _ => none⟩]

def throttleEntry : Entry :=
  Dict.ofList [("name", .str "tps_adc"), ("address", .str "0x804d5e"),
    ("category", .str "ram_global"), ("confidence", .str "verified")]

def coltAnnotations : Entry :=
  Dict.ofList [("rom_id", .str "33520003"), ("symbols", entriesJson [throttleEntry])]

def coltFile : AnnotationFile coltAnnotations where
  symbols := ⟨[throttleEntry], readEntries_of_get? rfl,
    List.forall_mem_singleton.mpr ⟨"0x804d5e", rfl⟩, List.nodup_singleton _⟩
  functions := ⟨[], rfl, nofun, List.nodup_nil⟩
  comments := ⟨[], rfl, nofun, List.nodup_nil⟩

def coltRun (session user ts : String) : Run where
  args := ["annotations.json", session, user]
  ts := ts
  compact := ""
  userName := none
  ask := fun _ _ _ => none

/-- A parser of the file before the export and of the one after it. -/
def coltLoads (text : String) : Option Json :=
  if text = (Json.obj coltAnnotations.entries).dumps ++ "\n" then
    some (.obj coltAnnotations.entries)
  else
    (mergeAndRebuild (coltRun "bench" "tuner" "2026-06-16T00:00:00Z") coltProgram
      coltAnnotations).filter fun output => text = output.dumps ++ "\n"

theorem main_colt : ∃ text',
    main coltLoads (coltRun "bench" "tuner" "2026-06-16T00:00:00Z") coltProgram
        (some ((Json.obj coltAnnotations.entries).dumps ++ "\n")) = some text' ∧
      main coltLoads (coltRun "later" "driver" "2026-06-17T00:00:00Z") coltProgram (some text') =
        some text' := by
  have hload : (coltLoads ((Json.obj coltAnnotations.entries).dumps ++ "\n")).bind dict? =
      some coltAnnotations := by
    unfold coltLoads
    rw [if_pos rfl]
    exact dict?_obj coltAnnotations
  have hround : ∀ output, mergeAndRebuild (coltRun "bench" "tuner" "2026-06-16T00:00:00Z")
      coltProgram coltAnnotations = some output →
        coltLoads (output.dumps ++ "\n") = some output := by
    intro output h
    have hchanged : (mergeAndRebuild (coltRun "bench" "tuner" "2026-06-16T00:00:00Z")
        coltProgram coltAnnotations).map (fun output => output.dumps ++ "\n") ≠
          some ((Json.obj coltAnnotations.entries).dumps ++ "\n") := by
      decide +kernel
    rw [h, Option.map_some, ne_eq, Option.some_inj] at hchanged
    unfold coltLoads
    rw [if_neg hchanged, h]
    simp
  obtain ⟨text', _, _, htext, _, _, _, _, _, _, hagain⟩ :=
    main_keepsVerified_idempotent coltLoads coltProgram
      (coltRun "bench" "tuner" "2026-06-16T00:00:00Z") (List.cons_ne_nil _ _) coltFile _ hload hround
  exact ⟨text', htext, hagain _ (List.cons_ne_nil _ _)⟩

end Colt

end RomAnalyzer.Scripts.ExportAnnotations
