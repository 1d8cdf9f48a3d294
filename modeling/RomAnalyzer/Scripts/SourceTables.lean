import RomAnalyzer.Scripts.Declarations

/-!
# The tables of a reference

A flash table and a RAM map have one object on a line, in columns between tabs. In an annotated
listing a comment names the object whose address line follows it. Lines of any other kind are
passed over.
-/
namespace RomAnalyzer.Scripts

open Lib

/-! ### Parsing -/

/-- What one place of a source declares. -/
inductive Declared
  | symbol (s : AnnotationSymbol)
  | function (f : AnnotationFunction)
  deriving DecidableEq

def Declared.symbol? : Declared → Option AnnotationSymbol
  | .symbol s => some s
  | .function _ => none

def Declared.function? : Declared → Option AnnotationFunction
  | .symbol _ => none
  | .function f => some f

/-- The two lists that a parser returns. -/
def splitDeclared (items : List Declared) : List AnnotationSymbol × List AnnotationFunction :=
  (items.filterMap Declared.symbol?, items.filterMap Declared.function?)

/-- `_ADDR_RE`, and the number: `0x` and hexadecimal digits. -/
def readAddr : List Char → Option Nat
  | '0' :: 'x' :: digits => if digits = [] then none else readHexFrom 0 digits
  | _ => none

/-- The address decides the category. -/
def flashOrRam (addr : Nat) : SymbolCategory := if addr < 0x800000 then .data else .ramGlobal

/-- `^fp[+-]\d+$` -/
def isFpOffset : List Char → Bool
  | 'f' :: 'p' :: sign :: digits =>
    (sign = '+' || sign = '-') && !digits.isEmpty && digits.all isDecimal
  | _ => false

/-- What stands for no declaration. -/
def isBlankDecl (decl : List Char) : Bool := decl = [] || decl = ['-'] || decl = ['?']

section Parse

variable (word : WordClass)

def declaredSymbol (source : String) (category : SymbolCategory) (addr : Nat)
    (parsed : String × Option String) : AnnotationSymbol where
  name := parsed.1
  address := addr
  category := category
  dataType := parsed.2
  confidence := .high
  source := source

def declaredFunction (source : String) (addr : Nat)
    (parsed : String × Option String × List AnnotationParam) : AnnotationFunction where
  name := parsed.1
  entryPoint := addr
  confidence := .high
  source := source
  returnType := parsed.2.1
  params := parsed.2.2

/-- A declaration in flash: a function if it has a signature. -/
def declare (source : String) (category : SymbolCategory) (addr : Nat) (decl : List Char) :
    Option Declared :=
  if isFunction decl then
    (parseFunctionDecl word decl).map fun p => .function (declaredFunction source addr p)
  else (parseDataDecl word decl).map fun p => .symbol (declaredSymbol source category addr p)

def flashLine (line : List Char) : Option Declared :=
  if strip line = [] ∨ "/*".toList <+: line.dropWhile isSpace then none
  else
    let fields := line.splitOn '\t'
    match readAddr (strip (fields.headD [])) with
    | none => none
    | some addr =>
      let decl := strip (fields.getD 2 [])
      if isBlankDecl decl ∨ "**".toList <+: decl then none
      else declare word "colt_flash" .data addr decl

def parseColtFlash (text : List Char) : List AnnotationSymbol × List AnnotationFunction :=
  splitDeclared ((splitLines text).filterMap (flashLine word))

/-- The first field behind the offset that is not empty. -/
def declBehindOffset (fields : List (List Char)) : List Char :=
  match fields.dropWhile fun f => !isFpOffset f with
  | [] => []
  | _ :: behind => (behind.find? fun f => f ≠ []).getD []

def mapLine (line : List Char) : Option AnnotationSymbol :=
  if strip line = [] ∨ (line.dropWhile isSpace).head? = some '#' then none
  else
    let fields := (line.splitOn '\t').map strip
    match readAddr (fields.headD []) with
    | none => none
    | some addr =>
      let decl := declBehindOffset fields
      if isBlankDecl decl then none
      else (parseDataDecl word decl).map (declaredSymbol "colt_map" .ramGlobal addr)

def parseColtMap (text : List Char) : List AnnotationSymbol :=
  (splitLines text).filterMap (mapLine word)

/-- `_S_COMMENT_RE`: what stands between the marks of a line that is a comment. A line end
cannot occur, so the inner text goes to the last mark. -/
def commentText (line : List Char) : Option (List Char) :=
  match strip line with
  | '/' :: '*' :: rest =>
    match rest.reverse with
    | '/' :: '*' :: content => if content = [] then none else some content.reverse
    | _ => none
  | _ => none

/-- `_S_ADDR_RE`: the address in front of a colon. -/
def lineAddr (line : List Char) : Option Nat :=
  let rest := line.dropWhile isSpace
  match rest.dropWhile isHexDigit with
  | ':' :: c :: _ =>
    if isSpace c = false ∨ rest.takeWhile isHexDigit = [] then none
    else readHexFrom 0 (rest.takeWhile isHexDigit)
  | _ => none

/-- `pending.split(" - ")[0].strip().rstrip("^").strip()` -/
def pendingDecl (pending : List Char) : List Char :=
  strip ((strip (beforeFirst " - ".toList pending)).rdropWhile fun c => c = '^')

/-- The object that a comment names at the address of the line behind it. -/
def listedAt (pending line : List Char) : Option Declared :=
  match lineAddr line with
  | none => none
  | some addr =>
    let decl := pendingDecl pending
    if decl = [] then none else declare word "colt_s" (flashOrRam addr) addr decl

/-- A comment waits for the next line, and any other line ends the wait. -/
def listingStep (st : Option (List Char) × List Declared) (line : List Char) :
    Option (List Char) × List Declared :=
  match commentText line with
  | some content => (some (strip content), st.2)
  | none =>
    match st.1 with
    | none => (none, st.2)
    | some pending => (none, st.2 ++ (listedAt word pending line).toList)

def parseAnnotatedS (text : List Char) : List AnnotationSymbol × List AnnotationFunction :=
  splitDeclared ((splitLines text).foldl (listingStep word) (none, [])).2

end Parse

/-! ### What the sources say -/

/-- An object as a source declares it. -/
inductive Entry (word : WordClass)
  | data (h : DeclHead word) (dims : List Nat)
  | function (h : DeclHead word) (args : List (DeclHead word))

namespace Entry

variable {word : WordClass}

/-- The text declares the object. -/
def Written : Entry word → List Char → Prop
  | data h dims, text => IsData h dims text
  | function h args, text => IsFunctionDecl h args text

def declared (source : String) (category : SymbolCategory) (addr : Nat) : Entry word → Declared
  | data h dims =>
    .symbol (declaredSymbol source category addr (h.nameText, some (h.typeText dims)))
  | function h args =>
    .function (declaredFunction source addr (h.nameText, some (h.typeText []),
      args.zipIdx.map fun a => a.1.param a.2))

theorem Written.declare {e : Entry word} {text : List Char} (h : e.Written text) (source : String)
    (category : SymbolCategory) (addr : Nat) :
    Scripts.declare word source category addr text = some (e.declared source category addr) := by
  cases e with
  | data head dims =>
    rw [Scripts.declare, isFunction_data h, parseDataDecl_data h]
    rfl
  | function head args =>
    rw [Scripts.declare, isFunction_function h, parseFunctionDecl_function h]
    rfl

/-- A declaration starts with the words of its head. -/
theorem Written.head {e : Entry word} {text : List Char} (h : e.Written text) :
    ∃ (head : DeclHead word) (dims : List Nat) (body rest : List Char), text = body ++ rest ∧
      words body = head.tokens dims := by
  cases e with
  | data head dims =>
    obtain ⟨body, tail, rfl, hwords, _⟩ := h
    exact ⟨head, dims, body, tail, rfl, hwords⟩
  | function head args =>
    obtain ⟨body, inside, tail, rfl, hwords, _⟩ := h
    exact ⟨head, [], body, _, List.append_assoc .., hwords⟩

end Entry

section Written

variable {word : WordClass} {e : Entry word} {text : List Char}

theorem declare_of_isBlankDecl {decl : List Char} (h : isBlankDecl decl = true) (source : String)
    (category : SymbolCategory) (addr : Nat) :
    declare word source category addr decl = none := by
  simp only [isBlankDecl, Bool.or_eq_true, decide_eq_true_eq] at h
  obtain (rfl | rfl) | rfl := h
  all_goals rfl

theorem not_isBlankDecl_of_written (h : e.Written text) : isBlankDecl text = false := by
  rw [← Bool.not_eq_true]
  intro hblank
  have hnone := h.declare "" .data 0
  rw [declare_of_isBlankDecl hblank] at hnone
  cases hnone

/-- The first word of a head is a word of the type. -/
theorem isWord_of_tokens_cons {h : DeclHead word} {dims : List Nat} {t : List Char}
    {ts : List (List Char)} (htokens : h.tokens dims = t :: ts) {c : Char} (hc : c ∈ t) :
    word.isWord c = true := by
  have hne : h.typeTokens ≠ [] := by
    intro hnil
    exact h.types_ne (List.map_eq_nil_iff.mp (List.append_eq_nil_iff.mp hnil).2)
  obtain ⟨first, more, hfirst⟩ := List.exists_cons_of_ne_nil hne
  have hmem : t ∈ h.typeTokens := by
    rw [DeclHead.tokens, hfirst, List.cons_append] at htokens
    rw [hfirst, (List.cons.inj htokens).1]
    exact List.mem_cons_self
  rcases List.mem_append.mp hmem with hkeyword | htype
  · have haggregate := h.is_aggregate t (Option.mem_toList.mp hkeyword)
    exact isWord_of_isAsciiWord (isAsciiWord_of_mem_aggregate haggregate hc)
  · obtain ⟨name, _, rfl⟩ := List.mem_map.mp htype
    exact isWord_of_mem_name name.isName hc

/-- A declaration does not start with a star. -/
theorem not_star_of_written (h : e.Written text) : text.head? ≠ some '*' := by
  obtain ⟨head, dims, body, rest, rfl, hwords⟩ := h.head
  intro hstar
  cases body with
  | nil =>
    have hlength := one_lt_length_tokens head dims
    rw [← hwords] at hlength
    exact absurd hlength (by decide)
  | cons c body =>
    obtain rfl : c = '*' := Option.some.inj hstar
    obtain ⟨w, ws, hcons⟩ := words_cons (c := '*') (by decide) body
    have hword := isWord_of_tokens_cons (hwords.symm.trans hcons) List.mem_cons_self
    rw [word.ascii '*' (by decide)] at hword
    exact absurd hword (by decide)

end Written

/-! ### Tables -/

/-- `0x` and the digits of an address. -/
def IsAddrText (text : List Char) (addr : Nat) : Prop :=
  ∃ digits, digits ≠ [] ∧ text = '0' :: 'x' :: digits ∧ readHexFrom 0 digits = some addr

/-- The columns of a line. -/
def IsLineOf (fields : List (List Char)) (line : List Char) : Prop :=
  line = ['\t'].intercalate fields ∧ ∀ f ∈ fields, '\t' ∉ f

section Tables

variable {word : WordClass}

/-- A line of the flash table: address, size, declaration and any notes. -/
def FlashRow (addr : Nat) (e : Entry word) (line : List Char) : Prop :=
  ∃ addrField size decl notes, IsLineOf (addrField :: size :: decl :: notes) line ∧
    IsAddrText (strip addrField) addr ∧ e.Written (strip decl)

/-- A line of the RAM map: behind the address an offset to the frame pointer, and behind it,
past empty columns, the declaration. -/
def MapRow (addr : Nat) (h : DeclHead word) (dims : List Nat) (line : List Char) : Prop :=
  ∃ addrField before offset gap decl notes,
    IsLineOf (addrField :: before ++ offset :: gap ++ decl :: notes) line ∧
    IsAddrText (strip addrField) addr ∧ (∀ f ∈ before, isFpOffset (strip f) = false) ∧
    isFpOffset (strip offset) = true ∧ (∀ f ∈ gap, strip f = []) ∧ IsData h dims (strip decl)

theorem readAddr_of_isAddrText {text : List Char} {addr : Nat} (h : IsAddrText text addr) :
    readAddr text = some addr := by
  obtain ⟨digits, hne, rfl, hread⟩ := h
  rw [readAddr, if_neg hne]
  exact hread

theorem splitOn_of_isLineOf {fields : List (List Char)} {line : List Char}
    (h : IsLineOf fields line) (hne : fields ≠ []) : line.splitOn '\t' = fields := by
  rw [h.1]
  exact List.splitOn_intercalate '\t' h.2 hne

/-- Behind white space a line of a table starts with its address. -/
theorem dropWhile_of_isLineOf {addrField line : List Char} {fields : List (List Char)} {addr : Nat}
    (h : IsLineOf (addrField :: fields) line) (haddr : IsAddrText (strip addrField) addr) :
    ∃ rest, line.dropWhile isSpace = '0' :: rest := by
  obtain ⟨digits, _, hstrip, _⟩ := haddr
  obtain ⟨left, right, hfield, hleft, _, _⟩ := exists_strip addrField
  rw [hstrip] at hfield
  have hline : ∃ more, line = left ++ '0' :: more := by
    rw [h.1, hfield]
    cases fields with
    | nil =>
      refine ⟨'x' :: digits ++ right, ?_⟩
      simp
    | cons f fields =>
      refine ⟨'x' :: digits ++ right ++ ('\t' :: ['\t'].intercalate (f :: fields)), ?_⟩
      rw [List.intercalate_cons_of_ne_nil (List.cons_ne_nil f fields)]
      simp
  obtain ⟨more, rfl⟩ := hline
  exact ⟨more, dropWhile_append_cons hleft (by decide)⟩

/-- Such a line is neither blank nor a comment. -/
theorem not_skipped_of_isLineOf {addrField line : List Char} {fields : List (List Char)}
    {addr : Nat} (h : IsLineOf (addrField :: fields) line)
    (haddr : IsAddrText (strip addrField) addr) :
    strip line ≠ [] ∧ ¬ "/*".toList <+: line.dropWhile isSpace ∧
      (line.dropWhile isSpace).head? ≠ some '#' := by
  obtain ⟨rest, hrest⟩ := dropWhile_of_isLineOf h haddr
  refine ⟨?_, ?_, ?_⟩
  · intro hblank
    have hwords : words line = [] := by
      rw [← words_strip, hblank]
      rfl
    have hmem : '0' ∈ line := (List.dropWhile_suffix isSpace).subset (hrest ▸ List.mem_cons_self)
    exact absurd (isSpace_of_words_nil hwords hmem) (by decide)
  · rw [hrest]
    rintro ⟨tail, htail⟩
    exact absurd (List.cons.inj htail).1 (by decide)
  · rw [hrest]
    intro hhead
    exact absurd (Option.some.inj hhead) (by decide)

theorem flashLine_row {addr : Nat} {e : Entry word} {line : List Char}
    (h : FlashRow addr e line) :
    flashLine word line = some (e.declared "colt_flash" .data addr) := by
  obtain ⟨addrField, size, decl, notes, hline, haddr, hwritten⟩ := h
  obtain ⟨hblank, hcomment, _⟩ := not_skipped_of_isLineOf hline haddr
  have hmarker : ¬ (isBlankDecl (strip decl) = true ∨ "**".toList <+: strip decl) := by
    rw [not_isBlankDecl_of_written hwritten]
    rintro (hfalse | ⟨tail, htail⟩)
    · cases hfalse
    · exact not_star_of_written hwritten (htail ▸ rfl)
  rw [flashLine, if_neg (not_or.mpr ⟨hblank, hcomment⟩),
    splitOn_of_isLineOf hline (List.cons_ne_nil _ _)]
  have hfirst : (addrField :: size :: decl :: notes).headD [] = addrField := rfl
  have hthird : (addrField :: size :: decl :: notes).getD 2 [] = decl := rfl
  dsimp only
  rw [hfirst, hthird, readAddr_of_isAddrText haddr]
  dsimp only
  rw [if_neg hmarker]
  exact hwritten.declare _ _ _

/-- An address is no offset to the frame pointer. -/
theorem not_isFpOffset_of_isAddrText {text : List Char} {addr : Nat} (h : IsAddrText text addr) :
    isFpOffset text = false := by
  obtain ⟨digits, _, rfl, _⟩ := h
  rfl

theorem declBehindOffset_eq {before gap notes : List (List Char)} {offset decl : List Char}
    (hbefore : ∀ f ∈ before, isFpOffset f = false) (hoffset : isFpOffset offset = true)
    (hgap : ∀ f ∈ gap, f = []) (hdecl : decl ≠ []) :
    declBehindOffset (before ++ offset :: gap ++ decl :: notes) = decl := by
  have hdrop : (before ++ offset :: gap ++ decl :: notes).dropWhile (fun f => !isFpOffset f) =
      offset :: (gap ++ decl :: notes) := by
    rw [List.append_assoc, List.cons_append]
    apply dropWhile_append_cons
    · intro f hf
      rw [hbefore f hf]
      rfl
    · rw [hoffset]
      rfl
  have hfind : (gap ++ decl :: notes).find? (fun f => f ≠ []) = some decl := by
    rw [List.find?_append, List.find?_eq_none.mpr fun f hf => by simp [hgap f hf]]
    simp [hdecl]
  rw [declBehindOffset, hdrop]
  dsimp only
  rw [hfind]
  rfl

theorem mapLine_row {addr : Nat} {h : DeclHead word} {dims : List Nat} {line : List Char}
    (hrow : MapRow addr h dims line) :
    mapLine word line = some (declaredSymbol "colt_map" .ramGlobal addr
      (h.nameText, some (h.typeText dims))) := by
  obtain ⟨addrField, before, offset, gap, decl, notes, hline, haddr, hbefore, hoffset, hgap,
    hdata⟩ := hrow
  obtain ⟨hblank, _, hcomment⟩ := not_skipped_of_isLineOf hline haddr
  have hwritten : (Entry.data h dims).Written (strip decl) := hdata
  have hnotBlank := not_isBlankDecl_of_written hwritten
  have hne : strip decl ≠ [] := by
    intro hnil
    rw [hnil] at hnotBlank
    cases hnotBlank
  have hdecl : declBehindOffset ((addrField :: before ++ offset :: gap ++ decl :: notes).map
      strip) = strip decl := by
    rw [List.map_append, List.map_append, List.map_cons, List.map_cons, List.map_cons]
    apply declBehindOffset_eq _ hoffset _ hne
    · intro f hf
      rcases List.mem_cons.mp hf with rfl | hf
      · exact not_isFpOffset_of_isAddrText haddr
      · obtain ⟨field, hfield, rfl⟩ := List.mem_map.mp hf
        exact hbefore field hfield
    · intro f hf
      obtain ⟨field, hfield, rfl⟩ := List.mem_map.mp hf
      exact hgap field hfield
  rw [mapLine, if_neg (not_or.mpr ⟨hblank, hcomment⟩),
    splitOn_of_isLineOf hline (List.cons_ne_nil _ _)]
  have hfirst : ((addrField :: before ++ offset :: gap ++ decl :: notes).map strip).headD [] =
      strip addrField := rfl
  dsimp only
  rw [hdecl, hnotBlank, hfirst, readAddr_of_isAddrText haddr, parseDataDecl_data hdata]
  rfl

variable (word) in
/-- What a line of the flash table says, if it says anything. -/
inductive FlashSays : Option (Nat × Entry word) → List Char → Prop
  | row {addr : Nat} {e : Entry word} {line : List Char} (h : FlashRow addr e line) :
    FlashSays (some (addr, e)) line
  | blank {line : List Char} (h : strip line = []) : FlashSays none line
  | comment {line : List Char} (h : "/*".toList <+: line.dropWhile isSpace) : FlashSays none line
  | noAddress {line : List Char}
    (h : ∀ addr, ¬ IsAddrText (strip ((line.splitOn '\t').headD [])) addr) : FlashSays none line
  | unnamed {line : List Char} (h : isBlankDecl (strip ((line.splitOn '\t').getD 2 [])) = true) :
    FlashSays none line

variable (word) in
/-- What a line of the RAM map says. -/
inductive MapSays : Option (Nat × DeclHead word × List Nat) → List Char → Prop
  | row {addr : Nat} {h : DeclHead word} {dims : List Nat} {line : List Char}
    (hrow : MapRow addr h dims line) : MapSays (some (addr, h, dims)) line
  | blank {line : List Char} (h : strip line = []) : MapSays none line
  | comment {line : List Char} (h : (line.dropWhile isSpace).head? = some '#') : MapSays none line
  | noAddress {line : List Char}
    (h : ∀ addr, ¬ IsAddrText (strip ((line.splitOn '\t').headD [])) addr) : MapSays none line
  | noOffset {line : List Char} (h : ∀ f ∈ line.splitOn '\t', isFpOffset (strip f) = false) :
    MapSays none line

theorem readAddr_eq_none {text : List Char} (h : ∀ addr, ¬ IsAddrText text addr) :
    readAddr text = none := by
  cases hread : readAddr text with
  | none => rfl
  | some addr =>
    unfold readAddr at hread
    split at hread
    · rename_i digits
      split at hread
      · cases hread
      · rename_i hne
        exact absurd ⟨digits, hne, rfl, hread⟩ (h addr)
    · cases hread

theorem flashLine_says {row : Option (Nat × Entry word)} {line : List Char}
    (h : FlashSays word row line) :
    flashLine word line = row.map fun r => r.2.declared "colt_flash" .data r.1 := by
  cases h with
  | row h => exact flashLine_row h
  | blank h => rw [flashLine, if_pos (Or.inl h)]; rfl
  | comment h => rw [flashLine, if_pos (Or.inr h)]; rfl
  | noAddress h =>
    rw [flashLine]
    split
    · rfl
    · dsimp only
      rw [readAddr_eq_none h]
      rfl
  | unnamed h =>
    rw [flashLine]
    split
    · rfl
    · dsimp only
      cases readAddr (strip ((line.splitOn '\t').headD [])) with
      | none => rfl
      | some addr =>
        dsimp only
        rw [if_pos (Or.inl h)]
        rfl

theorem mapLine_says {row : Option (Nat × DeclHead word × List Nat)} {line : List Char}
    (h : MapSays word row line) :
    mapLine word line = row.map fun r =>
      declaredSymbol "colt_map" .ramGlobal r.1 (r.2.1.nameText, some (r.2.1.typeText r.2.2)) := by
  have hfirst : ∀ fields : List (List Char),
      (fields.map strip).headD [] = strip (fields.headD []) := by
    intro fields
    cases fields <;> rfl
  cases h with
  | row h => exact mapLine_row h
  | blank h => rw [mapLine, if_pos (Or.inl h)]; rfl
  | comment h => rw [mapLine, if_pos (Or.inr h)]; rfl
  | noAddress h =>
    rw [mapLine]
    split
    · rfl
    · dsimp only
      rw [hfirst, readAddr_eq_none h]
      rfl
  | noOffset h =>
    have hnone : declBehindOffset ((line.splitOn '\t').map strip) = [] := by
      have hdrop : ((line.splitOn '\t').map strip).dropWhile (fun f => !isFpOffset f) = [] := by
        rw [List.dropWhile_eq_nil_iff]
        intro f hf
        obtain ⟨field, hfield, rfl⟩ := List.mem_map.mp hf
        rw [h field hfield]
        rfl
      rw [declBehindOffset, hdrop]
    rw [mapLine]
    split
    · rfl
    · dsimp only
      cases readAddr (((line.splitOn '\t').map strip).headD []) with
      | none => rfl
      | some addr =>
        dsimp only
        rw [hnone]
        rfl

/-- Lines that are read as what they say make a list that is. -/
theorem filterMap_of_forall₂ {α β γ : Type*} {f : α → Option γ} {g : β → Option γ} {xs : List α}
    {ys : List β} (h : List.Forall₂ (fun x y => g y = f x) xs ys) :
    ys.filterMap g = xs.filterMap f := by
  induction h with
  | nil => rfl
  | cons hhead _ ih => rw [List.filterMap_cons, List.filterMap_cons, hhead, ih]

end Tables

/-- The objects of a flash table and of a RAM map are read in their order, each at its address
with the name, the type and the parameters that its row declares, and all other lines are
passed over. -/
theorem sourceTables_recovered (word : WordClass) :
    (∀ (text : List Char) (rows : List (Option (Nat × Entry word))),
      List.Forall₂ (FlashSays word) rows (splitLines text) →
        parseColtFlash word text = splitDeclared (rows.filterMap fun row =>
          row.map fun r => r.2.declared "colt_flash" .data r.1)) ∧
    ∀ (text : List Char) (rows : List (Option (Nat × DeclHead word × List Nat))),
      List.Forall₂ (MapSays word) rows (splitLines text) →
        parseColtMap word text = rows.filterMap fun row => row.map fun r =>
          declaredSymbol "colt_map" .ramGlobal r.1
            (r.2.1.nameText, some (r.2.1.typeText r.2.2)) := by
  constructor
  · intro text rows h
    rw [parseColtFlash, filterMap_of_forall₂ (h.imp fun _ _ => flashLine_says)]
  · intro text rows h
    exact filterMap_of_forall₂ (h.imp fun _ _ => mapLine_says)

section Sample

def flashTable : List Char :=
  "ADDR\tSIZE\tNAME\n0x1000\t16\tuint8_t flash_password[16];\n0x10a4\t60\tvoid adc_run(int ch, uint16_t *result);\tpolled".toList

def ramMap : List Char := "# globals\n0x804000\t16\tfp-100\t\tuint8_t flash_password[16];".toList

theorem flashTable_says : List.Forall₂ (FlashSays asciiWords)
    [none, some (0x1000, .data passwordHead [16]), some (0x10a4, .function adcRunHead adcRunArgs)]
    (splitLines flashTable) := by
  have hlines : splitLines flashTable = ["ADDR\tSIZE\tNAME".toList,
      "0x1000\t16\tuint8_t flash_password[16];".toList,
      "0x10a4\t60\tvoid adc_run(int ch, uint16_t *result);\tpolled".toList] := by decide
  rw [hlines]
  refine .cons (.noAddress ?_) (.cons (.row ?_) (.cons (.row ?_) .nil))
  · rintro addr ⟨digits, _, htext, _⟩
    exact absurd (List.cons.inj htext).1 (by decide)
  · exact ⟨"0x1000".toList, "16".toList, "uint8_t flash_password[16];".toList, [],
      ⟨by decide, by decide⟩, ⟨"1000".toList, by decide, by decide, by decide⟩, isData_password⟩
  · exact ⟨"0x10a4".toList, "60".toList, "void adc_run(int ch, uint16_t *result);".toList,
      ["polled".toList], ⟨by decide, by decide⟩,
      ⟨"10a4".toList, by decide, by decide, by decide⟩, isFunctionDecl_adcRun⟩

theorem ramMap_says : List.Forall₂ (MapSays asciiWords)
    [none, some (0x804000, passwordHead, [16])] (splitLines ramMap) := by
  have hlines : splitLines ramMap = ["# globals".toList,
      "0x804000\t16\tfp-100\t\tuint8_t flash_password[16];".toList] := by decide
  rw [hlines]
  refine .cons (.comment (by decide)) (.cons (.row ?_) .nil)
  exact ⟨"0x804000".toList, ["16".toList], "fp-100".toList, [[]],
    "uint8_t flash_password[16];".toList, [], ⟨by decide, by decide⟩,
    ⟨"804000".toList, by decide, by decide, by decide⟩, by decide, by decide, by decide,
    isData_password⟩

/-- A header, a table, a function and a global. -/
theorem sourceTables_recovered_sample :
    parseColtFlash asciiWords flashTable =
        ([{ name := "flash_password", address := 0x1000, category := .data
            dataType := some "uint8_t[16]", source := "colt_flash" }],
          [{ name := "adc_run", entryPoint := 0x10a4, source := "colt_flash"
             returnType := some "void"
             params := [⟨"ch", "R0", "int"⟩, ⟨"result", "R1", "uint16_t *"⟩] }]) ∧
      parseColtMap asciiWords ramMap =
        [{ name := "flash_password", address := 0x804000, category := .ramGlobal
           dataType := some "uint8_t[16]", source := "colt_map" }] :=
  ⟨(sourceTables_recovered asciiWords).1 _ _ flashTable_says,
    (sourceTables_recovered asciiWords).2 _ _ ramMap_says⟩

end Sample

end RomAnalyzer.Scripts
