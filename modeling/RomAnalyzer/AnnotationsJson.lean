import RomAnalyzer.AnnotationsIo
import RomAnalyzer.Lib.Hex
import RomAnalyzer.Lib.Json
import RomAnalyzer.Lib.Ranked

/-!
# Annotation files

How a store is written to its file and read back. Categories and confidence
tiers are written by their names; a text that names none of them is not read.
-/
namespace RomAnalyzer.AnnotationsIo

open Lib
open Lib.Json (reqStr reqInt strOr intOr optStr listOf optField)

def categoryText : SymbolCategory → String
  | .function => "function"
  | .data => "data"
  | .ramGlobal => "ram_global"

def readCategory (text : String) : Option SymbolCategory :=
  if text = "function" then some .function
  else if text = "data" then some .data
  else if text = "ram_global" then some .ramGlobal
  else none

def confidenceText : ConfidenceTier → String
  | .auto => "auto"
  | .inferred => "inferred"
  | .low => "low"
  | .medium => "medium"
  | .high => "high"
  | .verified => "verified"

def readConfidence (text : String) : Option ConfidenceTier :=
  if text = "auto" then some .auto
  else if text = "inferred" then some .inferred
  else if text = "low" then some .low
  else if text = "medium" then some .medium
  else if text = "high" then some .high
  else if text = "verified" then some .verified
  else none

/-! ### Writing -/

def symJson (s : AnnotationSymbol) : Json :=
  .obj (
    [("name", .str s.name), ("address", .str (hexText s.address)),
      ("category", .str (categoryText s.category))] ++
    optField "data_type" s.dataType ++
    [("confidence", .str (confidenceText s.confidence)), ("source", .str s.source),
      ("session", .str s.session), ("timestamp", .str s.timestamp)] ++
    optField "verified_by" s.verifiedBy)

def paramJson (p : AnnotationParam) : Json :=
  .obj [("name", .str p.name), ("storage", .str p.storage), ("type", .str p.type)]

def fnJson (f : AnnotationFunction) : Json :=
  .obj (
    [("name", .str f.name), ("entry_point", .str (hexText f.entryPoint)),
      ("confidence", .str (confidenceText f.confidence)), ("source", .str f.source),
      ("session", .str f.session), ("timestamp", .str f.timestamp)] ++
    optField "verified_by" f.verifiedBy ++
    optField "return_type" f.returnType ++
    if f.params = [] then [] else [("params", .list (f.params.map paramJson))])

def memberJson (m : StructMember) : Json :=
  .obj [("name", .str m.name), ("offset", .int m.offset), ("type", .str m.type)]

def structJson (sd : StructDefinition) : Json :=
  .obj [("name", .str sd.name), ("size", .int sd.size),
    ("members", .list (sd.members.map memberJson))]

def commentJson (c : AnnotationComment) : Json :=
  .obj (
    [("address", .str (hexText c.address)), ("type", .str c.type), ("text", .str c.text),
      ("session", .str c.session), ("timestamp", .str c.timestamp)] ++
    optField "verified_by" c.verifiedBy)

def storeJson (store : AnnotationStore) : Json :=
  .obj [
    ("schema_version", .int store.schemaVersion),
    ("rom_id", .str store.romId),
    ("rom_sha256", .str store.romSha256),
    ("symbols", .list ((sortBy AnnotationSymbol.address store.symbols).map symJson)),
    ("functions", .list ((sortBy AnnotationFunction.entryPoint store.functions).map fnJson)),
    ("struct_definitions", .list (store.structDefinitions.map structJson)),
    ("comments", .list ((sortBy AnnotationComment.address store.comments).map commentJson))]

/-- The text that `save_annotations` leaves in the file. -/
def saveAnnotations (store : AnnotationStore) : String := (storeJson store).dumps ++ "\n"

/-! ### Reading -/

def readSymbol (s : Json) : Option AnnotationSymbol := do
  let name ← reqStr "name" s
  let address ← (reqStr "address" s).bind readHex
  let category ← (reqStr "category" s).bind readCategory
  let dataType ← optStr "data_type" s
  let confidence ← (strOr "confidence" "high" s).bind readConfidence
  let source ← strOr "source" "" s
  let verifiedBy ← optStr "verified_by" s
  let session ← strOr "session" "" s
  let timestamp ← strOr "timestamp" "" s
  return { name, address, category, dataType, confidence, source, verifiedBy, session, timestamp }

def readParam (p : Json) : Option AnnotationParam := do
  let name ← reqStr "name" p
  let storage ← reqStr "storage" p
  let type ← reqStr "type" p
  return { name, storage, type }

def readFunction (f : Json) : Option AnnotationFunction := do
  let name ← reqStr "name" f
  let entryPoint ← (reqStr "entry_point" f).bind readHex
  let confidence ← (strOr "confidence" "high" f).bind readConfidence
  let source ← strOr "source" "" f
  let verifiedBy ← optStr "verified_by" f
  let session ← strOr "session" "" f
  let timestamp ← strOr "timestamp" "" f
  let returnType ← optStr "return_type" f
  let params ← listOf "params" readParam f
  return {
    name, entryPoint, confidence, source, verifiedBy, session, timestamp, returnType, params }

def readMember (m : Json) : Option StructMember := do
  let name ← reqStr "name" m
  let offset ← reqInt "offset" m
  let type ← reqStr "type" m
  return { name, offset, type }

def readStruct (sd : Json) : Option StructDefinition := do
  let name ← reqStr "name" sd
  let size ← reqInt "size" sd
  let members ← listOf "members" readMember sd
  return { name, size, members }

def readComment (c : Json) : Option AnnotationComment := do
  let address ← (reqStr "address" c).bind readHex
  let type ← reqStr "type" c
  let text ← reqStr "text" c
  let verifiedBy ← optStr "verified_by" c
  let session ← strOr "session" "" c
  let timestamp ← strOr "timestamp" "" c
  return { address, type, text, verifiedBy, session, timestamp }

def readStore (data : Json) : Option AnnotationStore := do
  let symbols ← listOf "symbols" readSymbol data
  let functions ← listOf "functions" readFunction data
  let structDefinitions ← listOf "struct_definitions" readStruct data
  let comments ← listOf "comments" readComment data
  let schemaVersion ← intOr "schema_version" 1 data
  let romId ← strOr "rom_id" "" data
  let romSha256 ← strOr "rom_sha256" "" data
  return {
    schemaVersion, romId, romSha256, symbols, functions, structDefinitions, comments }

/-- `load_annotations`, given the text of the file; `loads` is the JSON parser. -/
def loadAnnotations (loads : String → Option Json) (text : String) : Option AnnotationStore :=
  (loads text).bind readStore

/-! ### Record by record -/

theorem readCategory_categoryText (c : SymbolCategory) :
    readCategory (categoryText c) = some c := by
  cases c <;> decide

theorem readConfidence_confidenceText (c : ConfidenceTier) :
    readConfidence (confidenceText c) = some c := by
  cases c <;> decide

theorem readSymbol_symJson (s : AnnotationSymbol) : readSymbol (symJson s) = some s := by
  simp [readSymbol, symJson, reqStr, strOr, optStr, Json.field?, Json.str?, find,
    readHex_hexText, readCategory_categoryText, readConfidence_confidenceText]

theorem readParam_paramJson (p : AnnotationParam) : readParam (paramJson p) = some p := by
  simp [readParam, paramJson, reqStr, Json.field?, Json.str?, find]

/-- An empty parameter list is left out and read as empty again. -/
theorem readFunction_fnJson (f : AnnotationFunction) : readFunction (fnJson f) = some f := by
  have hparams := Json.mapM_map_of_inverse readParam_paramJson f.params
  by_cases h : f.params = []
  · obtain ⟨name, entryPoint, confidence, source, verifiedBy, session, ts, returnType, params⟩ := f
    obtain rfl : params = [] := h
    simp [readFunction, fnJson, reqStr, strOr, optStr, listOf, Json.field?, Json.str?, find,
      readHex_hexText, readConfidence_confidenceText]
  · simp [readFunction, fnJson, reqStr, strOr, optStr, listOf, Json.field?, Json.str?, find,
      readHex_hexText, readConfidence_confidenceText, h, hparams]

theorem readMember_memberJson (m : StructMember) : readMember (memberJson m) = some m := by
  simp [readMember, memberJson, reqStr, reqInt, Json.field?, Json.str?, Json.int?, find]

theorem readStruct_structJson (sd : StructDefinition) : readStruct (structJson sd) = some sd := by
  have hmembers := Json.mapM_map_of_inverse readMember_memberJson sd.members
  simp [readStruct, structJson, reqStr, reqInt, listOf, Json.field?, Json.str?, Json.int?, find,
    hmembers]

theorem readComment_commentJson (c : AnnotationComment) :
    readComment (commentJson c) = some c := by
  simp [readComment, commentJson, reqStr, strOr, optStr, Json.field?, Json.str?, find,
    readHex_hexText]

/-! ### The whole file -/

/-- A store with its lists in the order in which they are written. -/
def sortedByAddress (store : AnnotationStore) : AnnotationStore :=
  { store with
    symbols := sortBy AnnotationSymbol.address store.symbols
    functions := sortBy AnnotationFunction.entryPoint store.functions
    comments := sortBy AnnotationComment.address store.comments }

theorem readStore_storeJson (store : AnnotationStore) :
    readStore (storeJson store) = some (sortedByAddress store) := by
  have hsymbols := Json.mapM_map_of_inverse readSymbol_symJson
    (sortBy AnnotationSymbol.address store.symbols)
  have hfunctions := Json.mapM_map_of_inverse readFunction_fnJson
    (sortBy AnnotationFunction.entryPoint store.functions)
  have hstructs := Json.mapM_map_of_inverse readStruct_structJson store.structDefinitions
  have hcomments := Json.mapM_map_of_inverse readComment_commentJson
    (sortBy AnnotationComment.address store.comments)
  simp [readStore, storeJson, strOr, intOr, listOf, Json.field?, Json.str?, Json.int?, find,
    hsymbols, hfunctions, hstructs, hcomments, sortedByAddress]

/-- Writing sorts, so what is sorted already is written alike. -/
theorem storeJson_sortedByAddress (store : AnnotationStore) :
    storeJson (sortedByAddress store) = storeJson store := by
  simp only [storeJson, sortedByAddress, sortBy_sortBy]

/-- Given a parser that inverts the writer on the text of the store, reading a saved
store gives the store back with its three address lists stably sorted, and saving it
again leaves the text as it is. -/
theorem load_save_roundTrip (loads : String → Option Json) (store : AnnotationStore)
    (hloads : loads ((storeJson store).dumps ++ "\n") = some (storeJson store)) :
    ∃ loaded, loadAnnotations loads (saveAnnotations store) = some loaded ∧
      StableSort AnnotationSymbol.address store.symbols loaded.symbols ∧
      StableSort AnnotationFunction.entryPoint store.functions loaded.functions ∧
      StableSort AnnotationComment.address store.comments loaded.comments ∧
      loaded = { store with
        symbols := loaded.symbols
        functions := loaded.functions
        comments := loaded.comments } ∧
      saveAnnotations loaded = saveAnnotations store := by
  refine ⟨sortedByAddress store, ?_, stableSort_sortBy _ _, stableSort_sortBy _ _,
    stableSort_sortBy _ _, rfl, ?_⟩
  · rw [loadAnnotations, saveAnnotations, hloads]
    exact readStore_storeJson store
  · rw [saveAnnotations, storeJson_sortedByAddress]
    rfl

/-- Two symbols out of order, and a function with a parameter. -/
def unsortedStore : AnnotationStore where
  schemaVersion := 1
  romId := "33520003"
  romSha256 := ""
  symbols := [
    { name := "knock_map", address := 0x2d74, category := .data, dataType := some "uint8_t" },
    { name := "tps_raw", address := 0x804d5e, category := .ramGlobal, source := "colt_map" },
    { name := "ac_off", address := 0x2d72, category := .data, verifiedBy := some "bench" }]
  functions := [{
    name := "tacho_set"
    entryPoint := 0x14ed8
    confidence := .medium
    returnType := some "void"
    params := [⟨"rpm", "R0", "uint16_t"⟩] }]
  structDefinitions := [⟨"slot", 4, [⟨"sid", 0, "uint16_t"⟩]⟩]
  comments := [{ address := 0x14ed8, type := "plate", text := "tacho output" }]

/-- A parser of one text. -/
def loadsOnly (value : Json) (text : String) : Option Json :=
  if text = value.dumps ++ "\n" then some value else none

theorem load_save_roundTrip_unsortedStore :
    ∃ loaded, loadAnnotations (loadsOnly (storeJson unsortedStore))
        (saveAnnotations unsortedStore) = some loaded ∧
      StableSort AnnotationSymbol.address unsortedStore.symbols loaded.symbols ∧
      StableSort AnnotationFunction.entryPoint unsortedStore.functions loaded.functions ∧
      StableSort AnnotationComment.address unsortedStore.comments loaded.comments ∧
      loaded = { unsortedStore with
        symbols := loaded.symbols
        functions := loaded.functions
        comments := loaded.comments } ∧
      saveAnnotations loaded = saveAnnotations unsortedStore :=
  load_save_roundTrip (loadsOnly (storeJson unsortedStore)) unsortedStore (if_pos rfl)

end RomAnalyzer.AnnotationsIo
