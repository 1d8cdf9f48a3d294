import RomAnalyzer.Lib.JsonText
import RomAnalyzer.Lib.Ranked

/-!
# The naming queue

The candidates of the naming rounds: the best are taken from the front, the others are
raised when a neighbour gets a name, and a JSON file keeps them between two rounds. A field
of an entry that is not of its kind is not read.
-/
namespace RomAnalyzer.AgentEnrich

open Lib
open Lib.Json (reqStr reqInt strOr listOf)

structure QueueEntry where
  rom : String
  /-- hexadecimal text -/
  address : String
  currentName : String
  progName : String
  namedNeighborCount : Int
  priority : Int
  neighborAddresses : List String := []
  /-- function or variable -/
  itemType : String := "function"
  category : String := ""
  siblingAddresses : List String := []
  deriving DecidableEq, Repr

def toDict (e : QueueEntry) : Json :=
  .obj [
    ("rom", .str e.rom),
    ("address", .str e.address),
    ("current_name", .str e.currentName),
    ("prog_name", .str e.progName),
    ("named_neighbor_count", .int e.namedNeighborCount),
    ("priority", .int e.priority),
    ("neighbor_addresses", .list (e.neighborAddresses.map .str)),
    ("item_type", .str e.itemType),
    ("category", .str e.category),
    ("sibling_addresses", .list (e.siblingAddresses.map .str))]

def fromDict (d : Json) : Option QueueEntry := do
  let rom ← reqStr "rom" d
  let address ← reqStr "address" d
  let currentName ← reqStr "current_name" d
  let progName ← strOr "prog_name" "" d
  let namedNeighborCount ← reqInt "named_neighbor_count" d
  let priority ← reqInt "priority" d
  let neighborAddresses ← listOf "neighbor_addresses" Json.str? d
  let itemType ← strOr "item_type" "function" d
  let category ← strOr "category" "" d
  let siblingAddresses ← listOf "sibling_addresses" Json.str? d
  return {
    rom, address, currentName, progName, namedNeighborCount, priority, neighborAddresses,
    itemType, category, siblingAddresses }

/-- Descending by priority, entries of one priority as they were. -/
def sortDescending (queue : List QueueEntry) : List QueueEntry :=
  sortBy (fun e => OrderDual.toDual e.priority) queue

/-! ### Files -/

/-- The texts of the files of the state directory. -/
abbrev StateDir := String → Option String

/-- What a loop over a JSON value visits. -/
def iterate : Json → Option (List Json)
  | .list items => some items
  | .obj fields => some (fields.map fun f => .str f.1)
  | .str s => some (s.toList.map fun c => .str (String.singleton c))
  | _ => none

def saveEntries (file : String) (stateDir : StateDir) (queue : List QueueEntry) : StateDir :=
  Function.update stateDir file (some (Json.dumps (.list (queue.map toDict))))

section Load

variable (floatText : String → String)

def loadEntries (file : String) (stateDir : StateDir) : Option (List QueueEntry) :=
  match stateDir file with
  | none => some []
  | some text => do
    let data ← Json.loads floatText text
    let items ← iterate data
    let entries ← items.mapM fromDict
    return sortDescending entries

def loadQueue : StateDir → Option (List QueueEntry) := loadEntries floatText "queue.json"

def loadVarQueue : StateDir → Option (List QueueEntry) := loadEntries floatText "queue_vars.json"

end Load

def saveQueue : StateDir → List QueueEntry → StateDir := saveEntries "queue.json"

def saveVarQueue : StateDir → List QueueEntry → StateDir := saveEntries "queue_vars.json"

/-! ### Rounds -/

/-- Where `xs[:k]` ends and `xs[k:]` starts; a negative index counts from the end. -/
def sliceIndex (length : Nat) (k : Int) : Nat := if 0 ≤ k then k.toNat else (length + k).toNat

def popBatch (queue : List QueueEntry) (k : Int) : List QueueEntry × List QueueEntry :=
  (queue.take (sliceIndex queue.length k), queue.drop (sliceIndex queue.length k))

/-- Both counts grow by the gain. -/
def raise (e : QueueEntry) (gain : Nat) : QueueEntry :=
  if 0 < gain then
    { e with namedNeighborCount := e.namedNeighborCount + gain, priority := e.priority + gain }
  else e

/-- `len(set(addresses) & named)` -/
def overlap (addresses : List String) (named : Finset String) : Nat :=
  (addresses.toFinset ∩ named).card

def rescoreNeighbors (queue : List QueueEntry) (newlyNamed : Finset String) : List QueueEntry :=
  sortDescending (queue.map fun e => raise e (overlap e.neighborAddresses newlyNamed))

def totalGain (newlyNamed newlyNamedVars : Finset String) (e : QueueEntry) : Nat :=
  overlap e.neighborAddresses newlyNamed + overlap e.siblingAddresses newlyNamedVars

/-- Among entries of one priority those with the larger gain come first. -/
def rescoreVarNeighbors (queue : List QueueEntry) (newlyNamed newlyNamedVars : Finset String) :
    List QueueEntry :=
  let gain := totalGain newlyNamed newlyNamedVars
  (sortBy (fun t : QueueEntry × Nat => OrderDual.toDual (toLex (t.1.priority, t.2)))
    (queue.map fun e => (raise e (gain e), gain e))).map Prod.fst

end RomAnalyzer.AgentEnrich
