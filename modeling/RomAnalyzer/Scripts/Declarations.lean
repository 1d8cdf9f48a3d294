import RomAnalyzer.AnnotationsIo
import RomAnalyzer.Scripts.DescriptionLd

/-!
# C declarations of the tables

A declaration is cut at its comment, its initializer and its parentheses, and the last
word of what is left is the declarator: stars, a name and dimensions.
-/
namespace RomAnalyzer.Scripts

open Lib

/-! ### Parsing -/

/-- `[A-Za-z_]\w*` -/
def isIdent (word : WordClass) : List Char → Bool
  | [] => false
  | c :: cs => isNameStart c && cs.all word.isWord

/-- The words that `_format_type` leaves out. -/
def aggregates : List (List Char) := ["struct".toList, "union".toList, "enum".toList]

def stripComment (text : List Char) : List Char :=
  let stripped := strip (beforeFirst "//".toList text)
  strip ((stripped.rdropWhile fun c => c = '?').dropWhile fun c => c = '?')

def stripInitializer (decl : List Char) : List Char := strip (beforeFirst " = ".toList decl)

/-- `_strip_initializer(_strip_comment(decl)).rstrip(";").strip()` -/
def cleanDecl (decl : List Char) : List Char :=
  strip ((stripInitializer (stripComment decl)).rdropWhile fun c => c = ';')

/-- `\[(\d+)\]`, behind the opening bracket. -/
def dimAt (cs : List Char) : Option Nat :=
  match cs.dropWhile isDecimal with
  | ']' :: _ =>
    if cs.takeWhile isDecimal = [] then none else some (decimalValue (cs.takeWhile isDecimal))
  | _ => none

/-- All dimensions from left to right. A match holds no second opening bracket, so the
search may go on inside it. -/
def findDims : List Char → List Nat
  | [] => []
  | c :: cs => if c = '[' then (dimAt cs).toList ++ findDims cs else findDims cs

/-- `re.sub(r"\[[^\]]*\]", "", token)`, behind an opening bracket or not. -/
def dropBrackets : Bool → List Char → List Char
  | _, [] => []
  | true, c :: cs => dropBrackets (c ≠ ']') cs
  | false, c :: cs =>
    if c = '[' ∧ ']' ∈ cs then dropBrackets true cs else c :: dropBrackets false cs

/-- The stars, the dimensions and the name of a declarator. -/
def splitDeclarator (token : List Char) : Nat × List Nat × List Char :=
  let rest := token.dropWhile fun c => c = '*'
  ((token.takeWhile fun c => c = '*').length, findDims rest, strip (dropBrackets false rest))

/-- `" " + "*" * nptr`, if there are stars. -/
def starsText (nptr : Nat) : List Char :=
  if nptr = 0 then [] else ' ' :: List.replicate nptr '*'

/-- `f"[{d}]"` -/
def dimText (d : Nat) : List Char := '[' :: (decimalDigits d ++ [']'])

def formatType (baseTokens : List (List Char)) (nptr : Nat) (dims : List Nat) :
    Option (List Char) :=
  let base := [' '].intercalate (baseTokens.filter fun t => t ∉ aggregates)
  if base = [] then none else some (base ++ starsText nptr ++ dims.flatMap dimText)

section Decl

variable (word : WordClass)

/-- The name, if it is an identifier, and the type. -/
def parseDataDecl (text : List Char) : Option (String × Option String) :=
  let decl := cleanDecl text
  if decl = [] ∨ decl = ['-'] ∨ decl = ['?'] then none
  else if '{' ∈ decl then
    -- an anonymous struct or union: the name follows the closing brace
    let tail := if '}' ∈ decl then strip (decl.rtakeWhile fun c => c ≠ '}') else []
    match (words tail).getLast? with
    | none => none
    | some token =>
      let (_, _, name) := splitDeclarator token
      if isIdent word name then some (String.ofList name, none) else none
  else
    match (words decl).getLast? with
    | none => none
    | some token =>
      let (nptr, dims, name) := splitDeclarator token
      if isIdent word name = false then none
      else if (words decl).length = 1 then some (String.ofList name, none)
      else some (String.ofList name,
        (formatType (words decl).dropLast nptr dims).map String.ofList)

def splitArgs (args : List Char) : List (List Char) :=
  if strip args = [] ∨ strip args = "void".toList then []
  else (((strip args).splitOn ',').map strip).filter (· ≠ [])

def argRegs : List String := ["R0", "R1", "R2", "R3"]

/-- Registers for the first arguments, the stack for the others. -/
def argStorage (index : Nat) : String := argRegs.getD index "stack"

/-- `f"p{index}"` -/
def argName (index : Nat) : String := "p" ++ String.ofList (decimalDigits index)

def parseArg (arg : List Char) (index : Nat) : AnnotationParam :=
  match (words arg).getLast? with
  -- an argument has a word
  | none => ⟨argName index, argStorage index, ""⟩
  | some token =>
    let (nptr, _, name) := splitDeclarator token
    if (words arg).length = 1 then
      let base := strip (token.filter fun c => c ≠ '*')
      ⟨argName index, argStorage index, String.ofList (base ++ starsText nptr)⟩
    else
      let base := [' '].intercalate ((words arg).dropLast.filter fun t => t ∉ aggregates)
      ⟨if name = [] then argName index else String.ofList name, argStorage index,
        String.ofList (base ++ starsText nptr)⟩

/-- The name, the return type and the parameters. -/
def parseFunctionDecl (text : List Char) :
    Option (String × Option String × List AnnotationParam) :=
  let decl := cleanDecl text
  let head := strip (decl.takeWhile fun c => c ≠ '(')
  match decl.dropWhile fun c => c ≠ '(' with
  | [] => none
  | _ :: behind =>
    if ')' ∉ behind then none
    else
      match (words head).getLast? with
      | none => none
      | some token =>
        let (nptr, _, name) := splitDeclarator token
        if isIdent word name = false then none
        else
          let retTokens := (words head).dropLast.filter fun t => t ∉ aggregates
          let returnType :=
            if retTokens ≠ [] then some ([' '].intercalate retTokens ++ starsText nptr)
            else if nptr ≠ 0 then some (List.replicate nptr '*')
            else none
          let args := (behind.rdropWhile fun c => c ≠ ')').dropLast
          some (String.ofList name, returnType.map String.ofList,
            (splitArgs args).zipIdx.map fun a => parseArg a.1 a.2)

end Decl

/-- `d.endswith(")") and "(" in d` -/
def isFunction (text : List Char) : Bool :=
  (cleanDecl text).getLast? = some ')' ∧ '(' ∈ cleanDecl text

/-! ### The grammar -/

section Grammar

variable (word : WordClass)

structure Identifier where
  chars : List Char
  isName : IsName word chars

/-- A word of a type other than struct, union and enum. -/
structure TypeName extends Identifier word where
  not_aggregate : chars ∉ aggregates

/-- The words of a type, possibly led by struct, union or enum, and a name with its stars. -/
structure DeclHead where
  keyword : Option (List Char)
  is_aggregate : ∀ k ∈ keyword, k ∈ aggregates
  types : List (TypeName word)
  types_ne : types ≠ []
  stars : Nat
  name : Identifier word

variable {word}

/-- The words of the type without the keyword. -/
def DeclHead.typeNames (h : DeclHead word) : List (List Char) := h.types.map fun t => t.chars

def DeclHead.typeTokens (h : DeclHead word) : List (List Char) := h.keyword.toList ++ h.typeNames

def DeclHead.declarator (h : DeclHead word) (dims : List Nat) : List Char :=
  List.replicate h.stars '*' ++ (h.name.chars ++ dims.flatMap dimText)

/-- The words of the head, with dimensions behind the name. -/
def DeclHead.tokens (h : DeclHead word) (dims : List Nat) : List (List Char) :=
  h.typeTokens ++ [h.declarator dims]

/-- The type as a text: its words, the stars and the dimensions. -/
def DeclHead.typeText (h : DeclHead word) (dims : List Nat) : String :=
  String.ofList ([' '].intercalate h.typeNames ++ starsText h.stars ++ dims.flatMap dimText)

def DeclHead.nameText (h : DeclHead word) : String := String.ofList h.name.chars

/-- What may follow a declaration: a semicolon and a comment. -/
def IsTail (tail : List Char) : Prop :=
  ∃ sp semicolon sp' comment, tail = sp ++ (semicolon ++ (sp' ++ comment)) ∧
    (∀ c ∈ sp, isSpace c = true) ∧ (∀ c ∈ sp', isSpace c = true) ∧
    (semicolon = [] ∨ semicolon = [';']) ∧
    (comment = [] ∨ ∃ note, comment = "//".toList ++ note)

/-- A data declaration, its words separated by any white space. -/
def IsData (h : DeclHead word) (dims : List Nat) (text : List Char) : Prop :=
  ∃ body tail, text = body ++ tail ∧ words body = h.tokens dims ∧ IsTail tail

/-- Arguments between commas. An empty list may be written `void`. -/
def IsArgs (args : List (DeclHead word)) (text : List Char) : Prop :=
  (args = [] ∧ (words text = [] ∨ words text = ["void".toList])) ∨
    (args ≠ [] ∧ ∃ parts, text = [','].intercalate parts ∧
      parts.map words = args.map fun a => a.tokens [])

/-- A function declaration. -/
def IsFunctionDecl (h : DeclHead word) (args : List (DeclHead word)) (text : List Char) : Prop :=
  ∃ body inside tail, text = body ++ ('(' :: (inside ++ [')'])) ++ tail ∧
    words body = h.tokens [] ∧ IsArgs args inside ∧ IsTail tail

end Grammar

/-! ### Characters -/

/-- The characters at which a declaration is cut. -/
def cutChars : List Char := ['/', '?', ';', '=', '{', '(', ')', ',']

section Characters

variable {word : WordClass}

theorem isWord_of_isAsciiWord {c : Char} (h : isAsciiWord c = true) : word.isWord c = true := by
  rw [word.ascii c, h]
  rw [isAsciiWord_iff] at h
  omega

theorem isWord_of_mem_name {name : List Char} (h : IsName word name) {c : Char} (hc : c ∈ name) :
    word.isWord c = true := by
  obtain ⟨first, rest, rfl, hfirst, hrest⟩ := h
  rcases List.mem_cons.mp hc with rfl | hc
  · rw [isNameStart, Bool.and_eq_true] at hfirst
    exact isWord_of_isAsciiWord hfirst.1
  · exact hrest c hc

theorem not_space_of_isWord {c : Char} (h : word.isWord c = true) : isSpace c = false := by
  by_contra hspace
  rw [word.not_space c ((Bool.not_eq_false _).mp hspace)] at h
  cases h

theorem isAsciiWord_of_mem_aggregate {k : List Char} (hk : k ∈ aggregates) {c : Char} (hc : c ∈ k) :
    isAsciiWord c = true := by
  have hletters : c ∈ ['s', 't', 'r', 'u', 'c', 'i', 'o', 'n', 'e', 'm'] := by
    simp only [aggregates, List.mem_cons, List.not_mem_nil, or_false] at hk
    rcases hk with rfl | rfl | rfl
    all_goals
      simp at hc ⊢
      tauto
  simp only [List.mem_cons, List.not_mem_nil, or_false] at hletters
  rcases hletters with rfl | rfl | rfl | rfl | rfl | rfl | rfl | rfl | rfl | rfl
  all_goals decide

/-- A character of a head is a word character, a star or a bracket. -/
theorem mem_tokens {h : DeclHead word} {dims : List Nat} {t : List Char} {c : Char}
    (ht : t ∈ h.tokens dims) (hc : c ∈ t) :
    word.isWord c = true ∨ c ∈ ['*', '[', ']'] := by
  rcases List.mem_append.mp ht with ht | ht
  · rcases List.mem_append.mp ht with ht | ht
    · have haggregate := h.is_aggregate t (Option.mem_toList.mp ht)
      exact Or.inl (isWord_of_isAsciiWord (isAsciiWord_of_mem_aggregate haggregate hc))
    · obtain ⟨name, _, rfl⟩ := List.mem_map.mp ht
      exact Or.inl (isWord_of_mem_name name.isName hc)
  · rw [List.mem_singleton.mp ht] at hc
    rcases List.mem_append.mp hc with hc | hc
    · rw [List.eq_of_mem_replicate hc]
      exact Or.inr (by decide)
    · rcases List.mem_append.mp hc with hc | hc
      · exact Or.inl (isWord_of_mem_name h.name.isName hc)
      · obtain ⟨d, _, hc⟩ := List.mem_flatMap.mp hc
        rcases List.mem_cons.mp hc with rfl | hc
        · exact Or.inr (by decide)
        · rcases List.mem_append.mp hc with hc | hc
          · have hdigit := Nat.isDigit_of_mem_toDigits (by decide) (by decide) hc
            have hascii : isAsciiWord c = true := by
              rw [isAsciiWord_iff]
              have hrange : 48 ≤ c.toNat ∧ c.toNat ≤ 57 := by
                simpa [Char.isDigit, UInt32.le_iff_toNat_le] using hdigit
              exact Or.inl hrange
            exact Or.inl (isWord_of_isAsciiWord hascii)
          · rw [List.mem_singleton.mp hc]
            exact Or.inr (by decide)

/-- The text of a head has no character at which a declaration is cut. -/
theorem not_mem_body {h : DeclHead word} {dims : List Nat} {body : List Char}
    (hbody : words body = h.tokens dims) {c : Char} (hcut : c ∈ cutChars) : c ∉ body := by
  intro hc
  have hascii : ∀ d ∈ cutChars, d.toNat < 128 ∧ isAsciiWord d = false ∧ isSpace d = false ∧
      d ∉ ['*', '[', ']'] := by
    intro d hd
    simp only [cutChars, List.mem_cons, List.not_mem_nil, or_false] at hd
    rcases hd with rfl | rfl | rfl | rfl | rfl | rfl | rfl | rfl
    all_goals decide
  obtain ⟨hlt, hnotword, hspace, hother⟩ := hascii c hcut
  obtain ⟨t, ht, hct⟩ := exists_word hc hspace
  rw [hbody] at ht
  rcases mem_tokens ht hct with hword | hmem
  · rw [word.ascii c hlt, hnotword] at hword
    cases hword
  · exact hother hmem

end Characters

/-! ### Cleaning -/

theorem not_mem_of_spaces {sp : List Char} (hsp : ∀ c ∈ sp, isSpace c = true) {c : Char}
    (hc : isSpace c = false) : c ∉ sp := by
  intro hmem
  rw [hsp c hmem] at hc
  cases hc

/-- Nothing is stripped of a text without question marks. -/
theorem stripComment_eq {body comment : List Char} (hslash : '/' ∉ body) (hquestion : '?' ∉ body)
    (hcomment : comment = [] ∨ ∃ note, comment = "//".toList ++ note) :
    stripComment (body ++ comment) = strip body := by
  have hcut : beforeFirst "//".toList (body ++ comment) = body := by
    rcases hcomment with rfl | ⟨note, rfl⟩
    · rw [List.append_nil]
      exact beforeFirst_of_not_mem (c := '/') (by decide) hslash
    · exact beforeFirst_append hslash note
  have hplain : ∀ c ∈ strip body, (decide (c = '?')) = false := by
    intro c hc
    obtain ⟨left, right, hbody, _⟩ := exists_strip body
    rw [decide_eq_false_iff_not]
    rintro rfl
    apply hquestion
    rw [hbody]
    exact List.mem_append_left _ (List.mem_append_right _ hc)
  have hright : (strip body).rdropWhile (fun c => c = '?') = strip body :=
    List.rdropWhile_eq_self_iff.mpr fun hne => by
      rw [hplain _ (List.getLast_mem hne)]
      decide
  have hleft : (strip body).dropWhile (fun c => c = '?') = strip body :=
    List.dropWhile_eq_self_iff.mpr fun hlt => by
      rw [hplain _ (List.getElem_mem hlt)]
      decide
  rw [stripComment, hcut, hright, hleft, strip_of_trimmed_self (trimmed_strip body)]

theorem mem_of_mem_strip {c : Char} {cs : List Char} (h : c ∈ strip cs) : c ∈ cs := by
  obtain ⟨left, right, hcs, _⟩ := exists_strip cs
  rw [hcs]
  exact List.mem_append_left _ (List.mem_append_right _ h)

theorem stripInitializer_eq {decl : List Char} (hequals : '=' ∉ decl) :
    stripInitializer decl = strip decl := by
  rw [stripInitializer, beforeFirst_of_not_mem (c := '=') (by decide) hequals]

/-- A semicolon behind the text is taken off with the white space around it. -/
theorem strip_semicolon {body sp : List Char} (hsp : ∀ c ∈ sp, isSpace c = true)
    (hsemicolon : ';' ∉ body) :
    strip ((strip (body ++ sp ++ [';'])).rdropWhile fun c => c = ';') = strip body := by
  have hleft : strip (body ++ sp ++ [';']) = (body ++ sp).dropWhile isSpace ++ [';'] :=
    strip_concat (by decide) (body ++ sp)
  have hplain : ';' ∉ (body ++ sp).dropWhile isSpace := by
    intro hmem
    rcases List.mem_append.mp ((List.dropWhile_suffix isSpace).subset hmem) with hmem | hmem
    · exact hsemicolon hmem
    · exact not_mem_of_spaces hsp (by decide) hmem
  have hright : ((body ++ sp).dropWhile isSpace ++ [';']).rdropWhile (fun c => c = ';') =
      (body ++ sp).dropWhile isSpace := by
    rw [List.rdropWhile_concat_pos _ _ _ (by decide)]
    exact List.rdropWhile_eq_self_iff.mpr fun hne hlast =>
      hplain (of_decide_eq_true hlast ▸ List.getLast_mem hne)
  have hspaces : ∀ c ∈ (body ++ sp).takeWhile isSpace, isSpace c = true :=
    fun c hc => List.mem_takeWhile_imp hc
  have hstrip := strip_spaces_append hspaces ((body ++ sp).dropWhile isSpace)
  rw [List.takeWhile_append_dropWhile] at hstrip
  rw [hleft, hright, ← hstrip, strip_append_spaces hsp]

/-- The declaration is left when it holds no character of a cut. -/
theorem cleanDecl_eq {body tail : List Char} (htail : IsTail tail) (hslash : '/' ∉ body)
    (hquestion : '?' ∉ body) (hsemicolon : ';' ∉ body) (hequals : '=' ∉ body) :
    cleanDecl (body ++ tail) = strip body := by
  obtain ⟨sp, semicolon, sp', comment, rfl, hsp, hsp', hsemi, hcomment⟩ := htail
  have hfree : ∀ c, c ∉ body → isSpace c = false → c ≠ ';' → c ∉ body ++ (sp ++ (semicolon ++ sp')) := by
    intro c hbody hspace hne hmem
    simp only [List.mem_append] at hmem
    rcases hmem with hmem | hmem | hmem | hmem
    · exact hbody hmem
    · exact not_mem_of_spaces hsp hspace hmem
    · rcases hsemi with rfl | rfl
      · cases hmem
      · exact hne (List.mem_singleton.mp hmem)
    · exact not_mem_of_spaces hsp' hspace hmem
  have htext : body ++ (sp ++ (semicolon ++ (sp' ++ comment))) =
      body ++ (sp ++ (semicolon ++ sp')) ++ comment := by
    simp only [List.append_assoc]
  have hinitializer : '=' ∉ strip (body ++ (sp ++ (semicolon ++ sp'))) :=
    fun hmem => hfree '=' hequals (by decide) (by decide) (mem_of_mem_strip hmem)
  rw [cleanDecl, htext, stripComment_eq (hfree '/' hslash (by decide) (by decide))
      (hfree '?' hquestion (by decide) (by decide)) hcomment,
    stripInitializer_eq hinitializer, strip_of_trimmed_self (trimmed_strip _)]
  rcases hsemi with rfl | rfl
  · have hspaces : ∀ c ∈ sp ++ sp', isSpace c = true :=
      fun c hc => (List.mem_append.mp hc).elim (hsp c) (hsp' c)
    have hright : (strip body).rdropWhile (fun c => c = ';') = strip body :=
      List.rdropWhile_eq_self_iff.mpr fun hne hlast =>
        hsemicolon (mem_of_mem_strip (of_decide_eq_true hlast ▸ List.getLast_mem hne))
    rw [List.nil_append, strip_append_spaces hspaces, hright,
      strip_of_trimmed_self (trimmed_strip body)]
  · rw [← List.append_assoc, ← List.append_assoc, strip_append_spaces hsp']
    exact strip_semicolon hsp hsemicolon

/-! ### Declarators -/

section Declarator

theorem findDims_append {xs : List Char} (h : '[' ∉ xs) (ys : List Char) :
    findDims (xs ++ ys) = findDims ys := by
  induction xs with
  | nil => rfl
  | cons c xs ih =>
    have hc : ¬ c = '[' := fun hc => h (hc ▸ List.mem_cons_self)
    rw [List.cons_append, findDims, if_neg hc, ih fun hmem => h (List.mem_cons_of_mem _ hmem)]

theorem bracket_not_mem_digits (d : Nat) : '[' ∉ decimalDigits d ∧ ']' ∉ decimalDigits d := by
  constructor
  · intro hmem
    exact absurd (isDecimal_of_mem_decimalDigits hmem) (by decide)
  · intro hmem
    exact absurd (isDecimal_of_mem_decimalDigits hmem) (by decide)

/-- Each dimension is found once, with its value. -/
theorem findDims_dims (dims : List Nat) : findDims (dims.flatMap dimText) = dims := by
  induction dims with
  | nil => rfl
  | cons d dims ih =>
    have hdigits : ∀ c ∈ decimalDigits d, isDecimal c = true :=
      fun c hc => isDecimal_of_mem_decimalDigits hc
    have hstop : isDecimal ']' = false := by decide
    have hdim : dimAt (decimalDigits d ++ ']' :: dims.flatMap dimText) = some d := by
      unfold dimAt
      rw [dropWhile_append_cons hdigits hstop, takeWhile_append_cons hdigits hstop,
        if_neg (decimalDigits_ne_nil d), decimalValue_decimalDigits]
      rfl
    have hclose : findDims (']' :: dims.flatMap dimText) = dims := by
      rw [findDims, if_neg (by decide), ih]
    rw [List.flatMap_cons, dimText, List.cons_append, List.append_assoc, List.singleton_append,
      findDims, if_pos rfl, hdim, findDims_append (bracket_not_mem_digits d).1, hclose]
    rfl

theorem dropBrackets_append {xs : List Char} (h : '[' ∉ xs) (ys : List Char) :
    dropBrackets false (xs ++ ys) = xs ++ dropBrackets false ys := by
  induction xs with
  | nil => rfl
  | cons c xs ih =>
    have hc : ¬ (c = '[' ∧ ']' ∈ xs ++ ys) := fun hc => h (hc.1 ▸ List.mem_cons_self)
    rw [List.cons_append, dropBrackets, if_neg hc, ih fun hmem => h (List.mem_cons_of_mem _ hmem)]
    rfl

/-- Inside brackets everything goes up to the closing one. -/
theorem dropBrackets_inside {xs : List Char} (h : ']' ∉ xs) (ys : List Char) :
    dropBrackets true (xs ++ ']' :: ys) = dropBrackets false ys := by
  induction xs with
  | nil => rfl
  | cons c xs ih =>
    have hc : (decide (c ≠ ']')) = true := decide_eq_true fun hc => h (hc ▸ List.mem_cons_self)
    rw [List.cons_append, dropBrackets, hc, ih fun hmem => h (List.mem_cons_of_mem _ hmem)]

theorem dropBrackets_dims (dims : List Nat) : dropBrackets false (dims.flatMap dimText) = [] := by
  induction dims with
  | nil => rfl
  | cons d dims ih =>
    have hopen : ('[' = '[') ∧ ']' ∈ decimalDigits d ++ ']' :: dims.flatMap dimText :=
      ⟨rfl, List.mem_append_right _ List.mem_cons_self⟩
    rw [List.flatMap_cons, dimText, List.cons_append, List.append_assoc, List.singleton_append,
      dropBrackets, if_pos hopen, dropBrackets_inside (bracket_not_mem_digits d).2, ih]

variable {word : WordClass}

theorem not_mem_name {name : List Char} (h : IsName word name) {c : Char} (hlt : c.toNat < 128)
    (hascii : isAsciiWord c = false) : c ∉ name := by
  intro hmem
  have hword := isWord_of_mem_name h hmem
  rw [word.ascii c hlt, hascii] at hword
  cases hword

theorem trimmed_name {name : List Char} (h : IsName word name) : Trimmed name :=
  trimmed_of_forall fun _ hc => not_space_of_isWord (isWord_of_mem_name h hc)

/-- A declarator is taken apart into what it is made of. -/
theorem splitDeclarator_declarator (h : DeclHead word) (dims : List Nat) :
    splitDeclarator (h.declarator dims) = (h.stars, dims, h.name.chars) := by
  have hstar : '*' ∉ h.name.chars := not_mem_name h.name.isName (by decide) (by decide)
  have hbracket : '[' ∉ h.name.chars := not_mem_name h.name.isName (by decide) (by decide)
  obtain ⟨c, cs, hname, _, _⟩ := h.name.isName
  have hstars : ∀ d ∈ List.replicate h.stars '*', (fun d : Char => decide (d = '*')) d = true := by
    intro d hd
    exact decide_eq_true (List.eq_of_mem_replicate hd)
  have hfirst : (fun d : Char => decide (d = '*')) c = false :=
    decide_eq_false fun hc => hstar (by rw [hname, hc]; exact List.mem_cons_self)
  have hdrop : (h.declarator dims).dropWhile (fun d => d = '*') =
      h.name.chars ++ dims.flatMap dimText := by
    rw [DeclHead.declarator, hname, List.cons_append]
    exact dropWhile_append_cons hstars hfirst
  have htake : (h.declarator dims).takeWhile (fun d => d = '*') = List.replicate h.stars '*' := by
    rw [DeclHead.declarator, hname, List.cons_append]
    exact takeWhile_append_cons hstars hfirst
  rw [splitDeclarator, hdrop, htake, List.length_replicate, findDims_append hbracket, findDims_dims,
    dropBrackets_append hbracket, dropBrackets_dims, List.append_nil,
    strip_of_trimmed_self (trimmed_name h.name.isName)]

theorem isIdent_iff {name : List Char} : isIdent word name = true ↔ IsName word name := by
  constructor
  · intro h
    cases name with
    | nil => cases h
    | cons c cs =>
      rw [isIdent, Bool.and_eq_true, List.all_eq_true] at h
      exact ⟨c, cs, rfl, h⟩
  · intro h
    obtain ⟨c, cs, rfl, hc, hcs⟩ := h
    rw [isIdent, hc, Bool.true_and]
    exact List.all_eq_true.mpr hcs

theorem filter_typeTokens (h : DeclHead word) :
    (h.typeTokens.filter fun t => t ∉ aggregates) = h.typeNames := by
  have hkeyword : (h.keyword.toList.filter fun t => t ∉ aggregates) = [] := by
    apply List.filter_eq_nil_iff.mpr
    intro t ht
    simpa using h.is_aggregate t (Option.mem_toList.mp ht)
  have htypes : (h.typeNames.filter fun t => t ∉ aggregates) = h.typeNames := by
    apply List.filter_eq_self.mpr
    intro t ht
    obtain ⟨name, _, rfl⟩ := List.mem_map.mp ht
    exact decide_eq_true name.not_aggregate
  rw [DeclHead.typeTokens, List.filter_append, hkeyword, htypes, List.nil_append]

theorem name_ne_nil {name : List Char} (h : IsName word name) : name ≠ [] := by
  obtain ⟨c, cs, rfl, _⟩ := h
  exact List.cons_ne_nil c cs

theorem typeNames_ne (h : DeclHead word) : h.typeNames ≠ [] := by
  intro hnil
  exact h.types_ne (List.map_eq_nil_iff.mp hnil)

theorem base_ne_nil (h : DeclHead word) : [' '].intercalate h.typeNames ≠ [] := by
  obtain ⟨t, rest, htypes⟩ := List.exists_cons_of_ne_nil h.types_ne
  intro hnil
  rw [DeclHead.typeNames, htypes, List.map_cons] at hnil
  have hfirst : t.chars = [] := by
    cases rest with
    | nil => simpa [List.intercalate_singleton] using hnil
    | cons u rest =>
      rw [List.map_cons, List.intercalate_cons_cons, List.append_assoc] at hnil
      exact (List.append_eq_nil_iff.mp hnil).1
  exact name_ne_nil t.isName hfirst

theorem formatType_typeTokens (h : DeclHead word) (dims : List Nat) :
    (formatType h.typeTokens h.stars dims).map String.ofList = some (h.typeText dims) := by
  rw [formatType, filter_typeTokens, if_neg (base_ne_nil h)]
  rfl

theorem getLast?_tokens (h : DeclHead word) (dims : List Nat) :
    (h.tokens dims).getLast? = some (h.declarator dims) := List.getLast?_concat ..

theorem dropLast_tokens (h : DeclHead word) (dims : List Nat) :
    (h.tokens dims).dropLast = h.typeTokens := List.dropLast_concat

/-- A head has a word for its type and one for the declarator. -/
theorem one_lt_length_tokens (h : DeclHead word) (dims : List Nat) : 1 < (h.tokens dims).length := by
  have hpos : 0 < h.types.length := List.length_pos_iff.mpr h.types_ne
  rw [DeclHead.tokens, DeclHead.typeTokens, DeclHead.typeNames, List.length_append,
    List.length_append, List.length_map]
  simp only [List.length_singleton]
  omega

end Declarator

/-! ### Data declarations -/

section Data

variable {word : WordClass} {h : DeclHead word} {dims : List Nat} {text : List Char}

/-- Cleaning leaves the words of the head and no character of a cut. -/
theorem cleanDecl_data (hdata : IsData h dims text) :
    words (cleanDecl text) = h.tokens dims ∧ ∀ c ∈ cutChars, c ∉ cleanDecl text := by
  obtain ⟨body, tail, rfl, hbody, htail⟩ := hdata
  have hcut : ∀ c ∈ cutChars, c ∉ body := fun c hc => not_mem_body hbody hc
  rw [cleanDecl_eq htail (hcut '/' (by decide)) (hcut '?' (by decide)) (hcut ';' (by decide))
    (hcut '=' (by decide)), words_strip]
  exact ⟨hbody, fun c hc hmem => hcut c hc (mem_of_mem_strip hmem)⟩

theorem isFunction_data (hdata : IsData h dims text) : isFunction text = false := by
  have hopen := (cleanDecl_data hdata).2 '(' (by decide)
  rw [isFunction, decide_eq_false_iff_not]
  exact fun hfun => hopen hfun.2

theorem parseDataDecl_data (hdata : IsData h dims text) :
    parseDataDecl word text = some (h.nameText, some (h.typeText dims)) := by
  obtain ⟨hwords, hcut⟩ := cleanDecl_data hdata
  have hlength := one_lt_length_tokens h dims
  have hempty : ¬ (cleanDecl text = [] ∨ cleanDecl text = ['-'] ∨ cleanDecl text = ['?']) := by
    rw [← hwords] at hlength
    intro hgiven
    obtain hempty | hempty | hempty := hgiven
    all_goals
      rw [hempty] at hlength
      exact absurd hlength (by decide)
  have hsingle : ¬ (h.tokens dims).length = 1 := by omega
  have hident := isIdent_iff.mpr h.name.isName
  simp only [parseDataDecl, if_neg hempty, if_neg (hcut '{' (by decide)), hwords, getLast?_tokens,
    splitDeclarator_declarator, hident, Bool.true_eq_false, if_false, if_neg hsingle,
    dropLast_tokens, formatType_typeTokens]
  rfl

end Data

/-! ### Function declarations -/

section Functions

variable {word : WordClass}

/-- The pieces between commas do not change when the whole is stripped first. -/
theorem map_strip_splitOn_strip (text : List Char) :
    ((strip text).splitOn ',').map strip = (text.splitOn ',').map strip := by
  obtain ⟨left, right, htext, hleft, hright, _⟩ := exists_strip text
  have hcomma : ∀ sp : List Char, (∀ c ∈ sp, isSpace c = true) → ',' ∉ sp :=
    fun sp hsp => not_mem_of_spaces hsp (by decide)
  obtain ⟨init, last, hstripped, happended⟩ := splitOn_append (hcomma right hright) (strip text)
  obtain ⟨first, rest, hbehind, hwhole⟩ := splitOn_prepend (hcomma left hleft) (strip text ++ right)
  have hends : (text.splitOn ',').map strip = ((strip text ++ right).splitOn ',').map strip := by
    conv_lhs => rw [htext, List.append_assoc]
    rw [hwhole, hbehind, List.map_cons, List.map_cons, strip_spaces_append hleft]
  rw [hends, happended, hstripped, List.map_append, List.map_append, List.map_singleton,
    List.map_singleton, strip_append_spaces hright]

/-- A part between commas is the text of an argument. -/
theorem exists_arg_of_mem {parts : List (List Char)} {args : List (DeclHead word)}
    (hparts : parts.map words = args.map fun a => a.tokens []) {part : List Char}
    (hpart : part ∈ parts) : ∃ a ∈ args, words part = a.tokens [] := by
  have hmem : words part ∈ args.map fun a => a.tokens [] := hparts ▸ List.mem_map_of_mem hpart
  obtain ⟨a, ha, htokens⟩ := List.mem_map.mp hmem
  exact ⟨a, ha, htokens.symm⟩

/-- The stripped arguments, in their order. -/
theorem splitArgs_parts {parts : List (List Char)} {args : List (DeclHead word)} (hne : args ≠ [])
    (hparts : parts.map words = args.map fun a => a.tokens []) :
    splitArgs ([','].intercalate parts) = parts.map strip := by
  have hlength : ∀ part ∈ parts, 1 < (words (strip part)).length := by
    intro part hpart
    obtain ⟨a, _, hwords⟩ := exists_arg_of_mem hparts hpart
    rw [words_strip, hwords]
    exact one_lt_length_tokens a []
  have hpartsNe : parts ≠ [] := by
    rintro rfl
    exact hne (List.map_eq_nil_iff.mp hparts.symm)
  have hcommas : ∀ part ∈ parts, ',' ∉ part := by
    intro part hpart
    obtain ⟨a, _, hwords⟩ := exists_arg_of_mem hparts hpart
    exact not_mem_body hwords (by decide)
  have hsplit := map_strip_splitOn_strip ([','].intercalate parts)
  rw [List.splitOn_intercalate ',' hcommas hpartsNe] at hsplit
  -- a text without a comma would be the only part, and have one word at most
  have hwhole : ∀ text : List Char, ',' ∉ text → (words (strip text)).length ≤ 1 →
      ¬ strip ([','].intercalate parts) = text := by
    intro text hcomma hshort htext
    rw [htext, List.splitOn_eq_singleton hcomma, List.map_singleton] at hsplit
    obtain ⟨part, hpart⟩ := List.exists_mem_of_ne_nil parts hpartsNe
    have hmem : strip part ∈ [strip text] := hsplit ▸ List.mem_map_of_mem hpart
    have hlong := hlength part hpart
    rw [List.mem_singleton.mp hmem] at hlong
    omega
  have hempty := hwhole [] (by decide) (by decide)
  have hvoid := hwhole "void".toList (by decide) (by decide)
  rw [splitArgs, if_neg (not_or.mpr ⟨hempty, hvoid⟩), hsplit, List.filter_eq_self]
  intro piece hpiece
  obtain ⟨part, hpart, rfl⟩ := List.mem_map.mp hpiece
  apply decide_eq_true
  intro hnil
  have hlong := hlength part hpart
  rw [hnil] at hlong
  exact absurd hlong (by decide)

/-- The parameter of an argument, by its position. -/
def DeclHead.param (a : DeclHead word) (index : Nat) : AnnotationParam :=
  ⟨a.nameText, argStorage index, a.typeText []⟩

theorem parseArg_arg {part : List Char} {a : DeclHead word} (hwords : words part = a.tokens [])
    (index : Nat) : parseArg part index = a.param index := by
  have hsingle : ¬ (a.tokens []).length = 1 := by
    have hlength := one_lt_length_tokens a []
    omega
  simp only [parseArg, hwords, getLast?_tokens, splitDeclarator_declarator, if_neg hsingle,
    dropLast_tokens, filter_typeTokens, if_neg (name_ne_nil a.name.isName)]
  rw [DeclHead.param, DeclHead.nameText, DeclHead.typeText, List.flatMap_nil, List.append_nil]

theorem parseArgs_parts {parts : List (List Char)} {args : List (DeclHead word)}
    (hparts : parts.map words = args.map fun a => a.tokens []) (start : Nat) :
    (((parts.map strip).zipIdx start).map fun p => parseArg p.1 p.2) =
      (args.zipIdx start).map fun a => a.1.param a.2 := by
  induction parts generalizing args start with
  | nil =>
    rw [List.map_eq_nil_iff.mp hparts.symm]
    rfl
  | cons part parts ih =>
    cases args with
    | nil => cases hparts
    | cons a args =>
      obtain ⟨hpart, hrest⟩ := List.cons.inj hparts
      rw [List.map_cons, List.zipIdx_cons, List.zipIdx_cons, List.map_cons, List.map_cons,
        ih hrest, parseArg_arg ((words_strip part).trans hpart)]

theorem splitArgs_args {args : List (DeclHead word)} {inside : List Char}
    (hargs : IsArgs args inside) :
    ((splitArgs inside).zipIdx.map fun p => parseArg p.1 p.2) =
      args.zipIdx.map fun a => a.1.param a.2 := by
  rcases hargs with ⟨rfl, hempty⟩ | ⟨hne, parts, rfl, hparts⟩
  · have hstrip : strip inside = [] ∨ strip inside = "void".toList :=
      hempty.imp strip_of_words_nil strip_of_words_singleton
    rw [splitArgs, if_pos hstrip]
    rfl
  · rw [splitArgs_parts hne hparts]
    exact parseArgs_parts hparts 0

theorem not_cut_of_space_or_void {c : Char} (h : isSpace c = true ∨ c ∈ "void".toList) :
    c ∉ cutChars := by
  intro hcut
  simp only [cutChars, List.mem_cons, List.not_mem_nil, or_false] at hcut
  rcases hcut with rfl | rfl | rfl | rfl | rfl | rfl | rfl | rfl
  all_goals exact absurd h (by decide)

/-- Inside the parentheses only commas cut. -/
theorem not_mem_inside {args : List (DeclHead word)} {inside : List Char}
    (hargs : IsArgs args inside) {c : Char} (hcut : c ∈ cutChars) (hcomma : c ≠ ',') :
    c ∉ inside := by
  intro hc
  rcases hargs with ⟨_, hblank | hvoid⟩ | ⟨_, parts, rfl, hparts⟩
  · exact not_cut_of_space_or_void (Or.inl (isSpace_of_words_nil hblank hc)) hcut
  · by_cases hspace : isSpace c = true
    · exact not_cut_of_space_or_void (Or.inl hspace) hcut
    · obtain ⟨w, hw, hcw⟩ := exists_word hc ((Bool.not_eq_true _).mp hspace)
      rw [hvoid, List.mem_singleton] at hw
      exact not_cut_of_space_or_void (Or.inr (hw ▸ hcw)) hcut
  · rcases mem_of_mem_intercalate hc with hsep | ⟨part, hpart, hmem⟩
    · exact hcomma (List.mem_singleton.mp hsep)
    · obtain ⟨a, _, hwords⟩ := exists_arg_of_mem hparts hpart
      exact not_mem_body hwords hcut hmem

variable {h : DeclHead word} {args : List (DeclHead word)} {text : List Char}

/-- Cleaning leaves the head, stripped on the left, and the arguments in parentheses. -/
theorem cleanDecl_function (hfun : IsFunctionDecl h args text) :
    ∃ head inside, cleanDecl text = head ++ '(' :: (inside ++ [')']) ∧
      words head = h.tokens [] ∧ IsArgs args inside ∧ '(' ∉ head := by
  obtain ⟨body, inside, tail, rfl, hbody, hargs, htail⟩ := hfun
  have hfree : ∀ c ∈ ['/', '?', ';', '='], c ∉ body ++ '(' :: (inside ++ [')']) := by
    intro c hc hmem
    have hcut : c ∈ cutChars := List.mem_append_left _ hc
    have hother : c ≠ ',' ∧ c ≠ '(' ∧ c ≠ ')' := by
      simp only [List.mem_cons, List.not_mem_nil, or_false] at hc
      rcases hc with rfl | rfl | rfl | rfl
      all_goals decide
    rcases List.mem_append.mp hmem with hmem | hmem
    · exact not_mem_body hbody hcut hmem
    · rcases List.mem_cons.mp hmem with hopen | hmem
      · exact hother.2.1 hopen
      · rcases List.mem_append.mp hmem with hmem | hmem
        · exact not_mem_inside hargs hcut hother.1 hmem
        · exact hother.2.2 (List.mem_singleton.mp hmem)
  have hstrip : strip (body ++ '(' :: (inside ++ [')'])) =
      body.dropWhile isSpace ++ '(' :: (inside ++ [')']) := by
    rw [← List.cons_append, ← List.append_assoc, strip_concat (by decide),
      dropWhile_append_of_neg (by decide), List.append_assoc]
  refine ⟨body.dropWhile isSpace, inside, ?_, ?_, hargs, ?_⟩
  · rw [cleanDecl_eq htail (hfree '/' (by decide)) (hfree '?' (by decide)) (hfree ';' (by decide))
      (hfree '=' (by decide)), hstrip]
  · have hspaces : ∀ c ∈ body.takeWhile isSpace, isSpace c = true :=
      fun c hc => List.mem_takeWhile_imp hc
    have hwords := words_spaces_append hspaces (body.dropWhile isSpace)
    rw [List.takeWhile_append_dropWhile] at hwords
    rw [← hwords, hbody]
  · intro hmem
    exact not_mem_body hbody (by decide) ((List.dropWhile_suffix isSpace).subset hmem)

theorem isFunction_function (hfun : IsFunctionDecl h args text) : isFunction text = true := by
  obtain ⟨head, inside, hclean, _⟩ := cleanDecl_function hfun
  rw [isFunction, decide_eq_true_iff, hclean]
  constructor
  · rw [← List.cons_append, ← List.append_assoc]
    exact List.getLast?_concat ..
  · exact List.mem_append_right _ List.mem_cons_self

theorem parseFunctionDecl_function (hfun : IsFunctionDecl h args text) :
    parseFunctionDecl word text = some (h.nameText, some (h.typeText []),
      args.zipIdx.map fun a => a.1.param a.2) := by
  obtain ⟨head, inside, hclean, hwords, hargs, hhead⟩ := cleanDecl_function hfun
  have hall : ∀ c ∈ head, (fun c : Char => decide (c ≠ '(')) c = true :=
    fun c hc => decide_eq_true fun heq => hhead (heq ▸ hc)
  have hstop : (fun c : Char => decide (c ≠ '(')) '(' = false := by decide
  have htake : (head ++ '(' :: (inside ++ [')'])).takeWhile (fun c => c ≠ '(') = head :=
    takeWhile_append_cons hall hstop
  have hdrop : (head ++ '(' :: (inside ++ [')'])).dropWhile (fun c => c ≠ '(') =
      '(' :: (inside ++ [')']) := dropWhile_append_cons hall hstop
  have hclose : ')' ∈ inside ++ [')'] := List.mem_append_right _ List.mem_cons_self
  have hargsText : ((inside ++ [')']).rdropWhile fun c => c ≠ ')').dropLast = inside := by
    rw [List.rdropWhile_concat_neg _ _ _ (by decide), List.dropLast_concat]
  have hident := isIdent_iff.mpr h.name.isName
  simp only [parseFunctionDecl, hclean, htake, hdrop, hclose, not_true_eq_false, if_false,
    words_strip, hwords, getLast?_tokens, splitDeclarator_declarator, hident, Bool.true_eq_false,
    dropLast_tokens, filter_typeTokens, hargsText, splitArgs_args hargs]
  rw [if_pos (typeNames_ne h), DeclHead.typeText, List.flatMap_nil, List.append_nil]
  rfl

end Functions

/-- Every declaration of the grammar is told apart and read as what it says. -/
theorem declarations_recovered (word : WordClass) :
    (∀ (h : DeclHead word) (dims : List Nat) (text : List Char), IsData h dims text →
      isFunction text = false ∧
        parseDataDecl word text = some (h.nameText, some (h.typeText dims))) ∧
    ∀ (h : DeclHead word) (args : List (DeclHead word)) (text : List Char),
      IsFunctionDecl h args text →
      isFunction text = true ∧
        parseFunctionDecl word text = some (h.nameText, some (h.typeText []),
          args.zipIdx.map fun a => a.1.param a.2) := by
  constructor
  · intro h dims text hdata
    exact ⟨isFunction_data hdata, parseDataDecl_data hdata⟩
  · intro h args text hfun
    exact ⟨isFunction_function hfun, parseFunctionDecl_function hfun⟩

/-- A type word, a name with its stars. -/
def plainHead (type name : List Char) (stars : Nat) (htype : isIdent asciiWords type = true)
    (hplain : type ∉ aggregates) (hname : isIdent asciiWords name = true) :
    DeclHead asciiWords where
  keyword := none
  is_aggregate := by simp
  types := [⟨⟨type, isIdent_iff.mp htype⟩, hplain⟩]
  types_ne := List.cons_ne_nil _ _
  stars := stars
  name := ⟨name, isIdent_iff.mp hname⟩

def passwordHead : DeclHead asciiWords :=
  plainHead "uint8_t".toList "flash_password".toList 0 (by decide) (by decide) (by decide)

def adcRunHead : DeclHead asciiWords :=
  plainHead "void".toList "adc_run".toList 0 (by decide) (by decide) (by decide)

def adcRunArgs : List (DeclHead asciiWords) :=
  [plainHead "int".toList "ch".toList 0 (by decide) (by decide) (by decide),
    plainHead "uint16_t".toList "result".toList 1 (by decide) (by decide) (by decide)]

theorem isTail_semicolon : IsTail [';'] :=
  ⟨[], [';'], [], [], rfl, by simp, by simp, Or.inr rfl, Or.inl rfl⟩

theorem isData_password :
    IsData passwordHead [16] "uint8_t flash_password[16];".toList :=
  ⟨"uint8_t flash_password[16]".toList, [';'], by decide, by decide, isTail_semicolon⟩

theorem isFunctionDecl_adcRun :
    IsFunctionDecl adcRunHead adcRunArgs "void adc_run(int ch, uint16_t *result);".toList :=
  ⟨"void adc_run".toList, "int ch, uint16_t *result".toList, [';'], by decide, by decide,
    Or.inr ⟨by decide, ["int ch".toList, " uint16_t *result".toList], by decide, by decide⟩,
    isTail_semicolon⟩

theorem declarations_recovered_flash :
    isFunction "uint8_t flash_password[16];".toList = false ∧
      parseDataDecl asciiWords "uint8_t flash_password[16];".toList =
        some ("flash_password", some "uint8_t[16]") ∧
      isFunction "void adc_run(int ch, uint16_t *result);".toList = true ∧
      parseFunctionDecl asciiWords "void adc_run(int ch, uint16_t *result);".toList =
        some ("adc_run", some "void",
          [⟨"ch", "R0", "int"⟩, ⟨"result", "R1", "uint16_t *"⟩]) := by
  have hdata := (declarations_recovered asciiWords).1 passwordHead [16] _ isData_password
  have hfun := (declarations_recovered asciiWords).2 adcRunHead adcRunArgs _ isFunctionDecl_adcRun
  exact ⟨hdata.1, hdata.2, hfun.1, hfun.2⟩

end RomAnalyzer.Scripts
