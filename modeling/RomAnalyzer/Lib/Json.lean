import RomAnalyzer.Lib.Dict

/-!
# JSON values

The values that annotation files are made of, their text as Python's
`json.dumps(..., indent=2)` writes it, and readers for the fields of an object.
A reader fails when a required field is missing or has the wrong kind.
-/
namespace Lib

inductive Json
  | null
  | bool (b : Bool)
  | str (s : String)
  | int (n : Int)
  /-- A number with a fraction or an exponent, by the text that `repr` gives it. -/
  | float (text : String)
  | list (items : List Json)
  | obj (fields : List (String × Json))

namespace Json

/-! ### Text -/

/-- `\uXXXX` -/
def unicodeEscape (code : Nat) : List Char :=
  ['\\', 'u'] ++ (Nat.toDigits 16 code).leftpad 4 '0'

/-- Everything outside printable ASCII is escaped, beyond the first plane by a pair. -/
def escapeChar (c : Char) : List Char :=
  if c = '"' then ['\\', '"']
  else if c = '\\' then ['\\', '\\']
  else if c = '\n' then ['\\', 'n']
  else if c = '\r' then ['\\', 'r']
  else if c = '\t' then ['\\', 't']
  else if c.toNat = 8 then ['\\', 'b']
  else if c.toNat = 12 then ['\\', 'f']
  else if 0x20 ≤ c.toNat ∧ c.toNat < 0x7f then [c]
  else if c.toNat < 0x10000 then unicodeEscape c.toNat
  else unicodeEscape (0xd800 + (c.toNat - 0x10000) / 0x400) ++
    unicodeEscape (0xdc00 + (c.toNat - 0x10000) % 0x400)

def quote (s : String) : List Char := '"' :: s.toList.flatMap escapeChar ++ ['"']

def newline (depth : Nat) : List Char := '\n' :: List.replicate (2 * depth) ' '

mutual

def render (depth : Nat) : Json → List Char
  | .null => "null".toList
  | .bool b => (if b then "true" else "false").toList
  | .str s => quote s
  | .int n => (toString n).toList
  | .float text => text.toList
  | .list [] => ['[', ']']
  | .list (item :: items) =>
    '[' :: newline (depth + 1) ++ render (depth + 1) item ++ renderItems (depth + 1) items ++
      newline depth ++ [']']
  | .obj [] => [Char.ofNat 0x7b, Char.ofNat 0x7d]
  | .obj ((key, value) :: fields) =>
    Char.ofNat 0x7b :: newline (depth + 1) ++ quote key ++ [':', ' '] ++
      render (depth + 1) value ++ renderFields (depth + 1) fields ++
      newline depth ++ [Char.ofNat 0x7d]

def renderItems (depth : Nat) : List Json → List Char
  | [] => []
  | item :: items => ',' :: newline depth ++ render depth item ++ renderItems depth items

def renderFields (depth : Nat) : List (String × Json) → List Char
  | [] => []
  | (key, value) :: fields =>
    ',' :: newline depth ++ quote key ++ [':', ' '] ++ render depth value ++
      renderFields depth fields

end

/-- `json.dumps(value, indent=2)` -/
def dumps (value : Json) : String := String.ofList (render 0 value)

/-! ### Fields -/

def str? : Json → Option String
  | .str s => some s
  | _ => none

def int? : Json → Option Int
  | .int n => some n
  | _ => none

def field? (key : String) : Json → Option Json
  | .obj fields => find key fields
  | _ => none

/-- `data[key]`, a string -/
def reqStr (key : String) (data : Json) : Option String := (data.field? key).bind str?

def reqInt (key : String) (data : Json) : Option Int := (data.field? key).bind int?

/-- `data.get(key, dflt)`, a string -/
def strOr (key dflt : String) (data : Json) : Option String :=
  match data.field? key with
  | none => some dflt
  | some value => value.str?

def intOr (key : String) (dflt : Int) (data : Json) : Option Int :=
  match data.field? key with
  | none => some dflt
  | some value => value.int?

def optValue : Option Json → Option (Option String)
  | none => some none
  | some .null => some none
  | some value => value.str?.map some

/-- `data.get(key)`, a string or nothing -/
def optStr (key : String) (data : Json) : Option (Option String) := optValue (data.field? key)

/-- `[read(x) for x in data.get(key, [])]` -/
def listOf {α : Type} (key : String) (read : Json → Option α) (data : Json) : Option (List α) :=
  match data.field? key with
  | none => some []
  | some (.list items) => items.mapM read
  | some _ => none

/-- A field that is left out when there is nothing to write. -/
def optField (key : String) (value : Option String) : List (String × Json) :=
  (value.map fun s => (key, Json.str s)).toList

/-! ### Reading what was written -/

@[simp] theorem find_append (key : String) (fs gs : List (String × Json)) :
    find key (fs ++ gs) = (find key fs).or (find key gs) := by
  induction fs with
  | nil => simp [find]
  | cons e rest ih =>
    by_cases h : e.1 = key
    · simp [find, h]
    · simp [find, h, ih]

@[simp] theorem find_optField (key key' : String) (value : Option String) :
    find key (optField key' value) = if key' = key then value.map Json.str else none := by
  cases value with
  | none => simp [optField, find]
  | some s => simp [optField, find]

@[simp] theorem optValue_map_str (value : Option String) :
    optValue (value.map Json.str) = some value := by
  cases value with
  | none => rfl
  | some s => rfl

theorem mapM_map_of_inverse {α : Type} {write : α → Json} {read : Json → Option α}
    (h : ∀ a, read (write a) = some a) (xs : List α) : (xs.map write).mapM read = some xs := by
  induction xs with
  | nil => rfl
  | cons x xs ih =>
    rw [List.map_cons, List.mapM_cons, h, ih]
    rfl

theorem mapM_str (texts : List String) : (texts.map str).mapM str? = some texts := by
  have hread : ∀ s, str? (str s) = some s := fun _ => rfl
  exact mapM_map_of_inverse hread texts

end Json

end Lib
