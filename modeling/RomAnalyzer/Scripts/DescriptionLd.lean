import RomAnalyzer.AnnotationsIo
import RomAnalyzer.EmitLd
import RomAnalyzer.Lib.Words

/-!
# Reading a linker fragment back

`_LD_ASSIGN_RE` is applied line by line. Names in it are words; a name with a dot,
which the writer emits like any other, is not one of them.
-/
namespace RomAnalyzer.Scripts

open Lib
open EmitLd

/-! ### One line -/

/-- `[A-Za-z_]` -/
def isNameStart (c : Char) : Bool := isAsciiWord c && !(48 ≤ c.val && c.val ≤ 57)

section Line

variable (word : WordClass)

/-- `_LD_ASSIGN_RE.match(line)`: the name and the digits of the address. No class
overlaps with what follows it, so each takes all it can. -/
def matchAssign (line : List Char) : Option (List Char × List Char) :=
  match line.dropWhile isSpace with
  | [] => none
  | c :: cs =>
    if isNameStart c = false then none
    else
      match (cs.dropWhile word.isWord).dropWhile isSpace with
      | '=' :: value =>
        match value.dropWhile isSpace with
        | '0' :: 'x' :: digits =>
          match (digits.dropWhile isHexDigit).dropWhile isSpace with
          | ';' :: _ =>
            if digits.takeWhile isHexDigit = [] then none
            else some (c :: cs.takeWhile word.isWord, digits.takeWhile isHexDigit)
          | _ => none
        | _ => none
      | _ => none

/-- The address decides the category. -/
def descriptionSymbol (name : List Char) (addr : Nat) : AnnotationSymbol where
  name := String.ofList name
  address := addr
  category := if addr < 0x800000 then .data else .ramGlobal
  dataType := none
  confidence := .high
  source := "description_ld"

def parseLine (line : List Char) : Option AnnotationSymbol :=
  (matchAssign word line).bind fun m => (readHexFrom 0 m.2).map (descriptionSymbol m.1)

def parseLines (text : List Char) : List AnnotationSymbol :=
  (splitLines text).filterMap (parseLine word)

def parseDescriptionLd (text : String) : List AnnotationSymbol := parseLines word text.toList

/-- `[A-Za-z_]\w*` -/
def IsName (name : List Char) : Prop :=
  ∃ c cs, name = c :: cs ∧ isNameStart c = true ∧ ∀ d ∈ cs, word.isWord d = true

/-- What the expression asks of a line. -/
structure AssignLine (line name digits : List Char) : Prop where
  isName : IsName word name
  isHex : digits ≠ [] ∧ ∀ d ∈ digits, isHexDigit d = true
  parts : ∃ sp₁ sp₂ sp₃ sp₄ rest, (∀ c ∈ sp₁ ++ sp₂ ++ sp₃ ++ sp₄, isSpace c = true) ∧
    line = sp₁ ++ name ++ sp₂ ++ '=' :: (sp₃ ++ '0' :: 'x' :: (digits ++ sp₄ ++ ';' :: rest))

end Line

section Match

variable {word : WordClass}

/-- A class stops before white space and the character behind it. -/
theorem span_before_spaces {p : Char → Bool} {xs sp ys : List Char} {y : Char}
    (hxs : ∀ c ∈ xs, p c = true) (hsp : ∀ c ∈ sp, isSpace c = true)
    (hp : ∀ c, isSpace c = true → p c = false) (hy : p y = false) (hys : isSpace y = false) :
    (xs ++ (sp ++ y :: ys)).takeWhile p = xs ∧
      ((xs ++ (sp ++ y :: ys)).dropWhile p).dropWhile isSpace = y :: ys := by
  cases sp with
  | nil =>
    rw [List.nil_append, takeWhile_append_cons hxs hy, dropWhile_append_cons hxs hy,
      List.dropWhile_cons_of_neg (by simp [hys])]
    exact ⟨rfl, rfl⟩
  | cons d sp =>
    have hd := hp d (hsp d List.mem_cons_self)
    rw [List.cons_append, takeWhile_append_cons hxs hd, dropWhile_append_cons hxs hd,
      ← List.cons_append, dropWhile_append_cons hsp hys]
    exact ⟨rfl, rfl⟩

theorem not_space_of_isNameStart {c : Char} (h : isNameStart c = true) : isSpace c = false := by
  rw [isNameStart, Bool.and_eq_true] at h
  by_contra hspace
  rw [Bool.not_eq_false] at hspace
  rw [isAsciiWord_of_isSpace hspace] at h
  exact absurd h.1 (by decide)

theorem matchAssign_of_assignLine {line name digits : List Char}
    (h : AssignLine word line name digits) : matchAssign word line = some (name, digits) := by
  obtain ⟨⟨c, cs, rfl, hc, hcs⟩, ⟨hne, hdigits⟩, sp₁, sp₂, sp₃, sp₄, rest, hsp, rfl⟩ := h
  simp only [List.mem_append] at hsp
  have hsp₁ : ∀ d ∈ sp₁, isSpace d = true := fun d hd => hsp d (by simp [hd])
  have hsp₂ : ∀ d ∈ sp₂, isSpace d = true := fun d hd => hsp d (by simp [hd])
  have hsp₃ : ∀ d ∈ sp₃, isSpace d = true := fun d hd => hsp d (by simp [hd])
  have hsp₄ : ∀ d ∈ sp₄, isSpace d = true := fun d hd => hsp d (by simp [hd])
  obtain ⟨value, hvalue⟩ :
      ∃ value, value = sp₃ ++ '0' :: 'x' :: (digits ++ (sp₄ ++ ';' :: rest)) := ⟨_, rfl⟩
  have hstart : (sp₁ ++ c :: (cs ++ (sp₂ ++ '=' :: value))).dropWhile isSpace =
      c :: (cs ++ (sp₂ ++ '=' :: value)) :=
    dropWhile_append_cons hsp₁ (not_space_of_isNameStart hc)
  have hname : (cs ++ (sp₂ ++ '=' :: value)).takeWhile word.isWord = cs ∧
      ((cs ++ (sp₂ ++ '=' :: value)).dropWhile word.isWord).dropWhile isSpace = '=' :: value :=
    span_before_spaces hcs hsp₂ word.not_space (word.ascii '=' (by decide)) (by decide)
  have hprefix : value.dropWhile isSpace = '0' :: 'x' :: (digits ++ (sp₄ ++ ';' :: rest)) := by
    rw [hvalue]
    exact dropWhile_append_cons hsp₃ (by decide)
  have hhex : (digits ++ (sp₄ ++ ';' :: rest)).takeWhile isHexDigit = digits ∧
      ((digits ++ (sp₄ ++ ';' :: rest)).dropWhile isHexDigit).dropWhile isSpace = ';' :: rest :=
    span_before_spaces hdigits hsp₄ (fun _ => isHexDigit_of_isSpace) (by decide) (by decide)
  have hline : sp₁ ++ c :: cs ++ sp₂ ++ '=' ::
      (sp₃ ++ '0' :: 'x' :: (digits ++ sp₄ ++ ';' :: rest)) =
        sp₁ ++ c :: (cs ++ (sp₂ ++ '=' :: value)) := by
    rw [hvalue]
    simp only [List.append_assoc, List.cons_append]
  unfold matchAssign
  rw [hline, hstart]
  simp only [hc, Bool.true_eq_false, ↓reduceIte, hname.1, hname.2, hprefix, hhex.1, hhex.2, hne]

theorem assignLine_of_matchAssign {line name digits : List Char}
    (h : matchAssign word line = some (name, digits)) : AssignLine word line name digits := by
  unfold matchAssign at h
  split at h
  · cases h
  rename_i c cs hstart
  split at h
  · cases h
  rename_i hc
  split at h
  swap
  · cases h
  rename_i value hvalue
  split at h
  swap
  · cases h
  rename_i hex hhex
  split at h
  swap
  · cases h
  rename_i rest hrest
  split at h
  · cases h
  rename_i hne
  obtain ⟨rfl, rfl⟩ := Prod.mk.inj (Option.some.inj h)
  have hspaces : ∀ xs : List Char, ∀ d ∈ xs.takeWhile isSpace, isSpace d = true :=
    fun xs d hd => List.mem_takeWhile_imp hd
  refine ⟨⟨c, _, rfl, by simpa using hc, fun d hd => List.mem_takeWhile_imp hd⟩,
    ⟨hne, fun d hd => List.mem_takeWhile_imp hd⟩,
    line.takeWhile isSpace, (cs.dropWhile word.isWord).takeWhile isSpace,
    value.takeWhile isSpace, (hex.dropWhile isHexDigit).takeWhile isSpace, rest, ?_, ?_⟩
  · intro d hd
    simp only [List.mem_append] at hd
    rcases hd with ((hd | hd) | hd) | hd <;> exact hspaces _ d hd
  · -- put the line together again, from its end
    calc line = line.takeWhile isSpace ++ (c :: cs) := by
          rw [← hstart, List.takeWhile_append_dropWhile]
      _ = line.takeWhile isSpace ++ (c :: (cs.takeWhile word.isWord ++
            ((cs.dropWhile word.isWord).takeWhile isSpace ++ '=' :: value))) := by
          rw [← hvalue, List.takeWhile_append_dropWhile, List.takeWhile_append_dropWhile]
      _ = line.takeWhile isSpace ++ (c :: (cs.takeWhile word.isWord ++
            ((cs.dropWhile word.isWord).takeWhile isSpace ++ '=' ::
              (value.takeWhile isSpace ++ '0' :: 'x' :: hex)))) := by
          rw [← hhex, List.takeWhile_append_dropWhile]
      _ = line.takeWhile isSpace ++ (c :: (cs.takeWhile word.isWord ++
            ((cs.dropWhile word.isWord).takeWhile isSpace ++ '=' ::
              (value.takeWhile isSpace ++ '0' :: 'x' :: (hex.takeWhile isHexDigit ++
                ((hex.dropWhile isHexDigit).takeWhile isSpace ++ ';' :: rest)))))) := by
          rw [← hrest, List.takeWhile_append_dropWhile, List.takeWhile_append_dropWhile]
      _ = _ := by simp only [List.append_assoc, List.cons_append]

/-- The greedy scan finds what the expression describes. -/
theorem matchAssign_eq_some_iff {line name digits : List Char} :
    matchAssign word line = some (name, digits) ↔ AssignLine word line name digits :=
  ⟨assignLine_of_matchAssign, matchAssign_of_assignLine⟩

end Match

/-! ### Lines of the fragment -/

section Lines

variable (word : WordClass)

/-- An identifier, possibly with dots. -/
def LegalName (name : String) : Prop :=
  ∃ c cs, name.toList = c :: cs ∧ isNameStart c = true ∧ ∀ d ∈ cs, word.isWord d = true ∨ d = '.'

def Dotted (name : String) : Prop := '.' ∈ name.toList

instance (name : String) : Decidable (Dotted name) := inferInstanceAs (Decidable (_ ∈ _))

/-- What a quoted text starts on lines of its own, when it has line ends. -/
def strays (text : String) : List AnnotationSymbol :=
  (splitLines (text.toList ++ ['\n'])).tail.filterMap (parseLine word)

/-- No line of a quoted text, after its first, is an assignment. -/
def StrayFree (text : String) : Prop :=
  ∀ line ∈ (splitLines (text.toList ++ ['\n'])).tail, ∀ name digits,
    ¬ AssignLine word line name digits

/-- A text without line ends that starts no assignment. -/
def isCommentStart (pre : List Char) : Bool :=
  pre.all (fun c => !isLineEnd c) &&
    match pre.dropWhile isSpace with
    | [] => false
    | c :: _ => !isNameStart c

end Lines

section Parse

variable {word : WordClass}

/-- Nothing is read from a line exactly when it is no assignment: the digits of an
assignment are a number. -/
theorem parseLine_eq_none_iff {line : List Char} :
    parseLine word line = none ↔ ∀ name digits, ¬ AssignLine word line name digits := by
  constructor
  · intro h name digits hassign
    obtain ⟨addr, haddr⟩ := readHexFrom_isSome 0 hassign.isHex.2
    unfold parseLine at h
    rw [matchAssign_of_assignLine hassign, Option.bind_some, haddr] at h
    cases h
  · intro h
    unfold parseLine
    rw [Option.bind_eq_none_iff]
    intro m hm
    exact absurd (assignLine_of_matchAssign hm) (h m.1 m.2)

theorem strays_eq_nil_iff {text : String} : strays word text = [] ↔ StrayFree word text := by
  unfold strays StrayFree
  simp only [List.filterMap_eq_nil_iff, parseLine_eq_none_iff]

theorem parseLine_commentStart {pre : List Char} (h : isCommentStart pre = true)
    (rest : List Char) : parseLine word (pre ++ rest) = none := by
  rw [isCommentStart, Bool.and_eq_true] at h
  have hmatch := h.2
  split at hmatch
  · cases hmatch
  · rename_i c cs hdrop
    have hstart : (pre ++ rest).dropWhile isSpace = c :: (cs ++ rest) := by
      rw [List.dropWhile_append, hdrop]
      rfl
    unfold parseLine matchAssign
    rw [hstart]
    simp only [Bool.not_eq_true'] at hmatch
    simp [hmatch]

/-- A name without dots is read back with its address, whatever follows on the line. -/
theorem parseLine_assignment {name : String} (h : LegalName word name) (hdot : ¬ Dotted name)
    (addr : Nat) (rest : List Char) :
    parseLine word (name.toList ++ " = 0x".toList ++ hexDigits addr ++ ';' :: rest) =
      some (descriptionSymbol name.toList addr) := by
  obtain ⟨c, cs, hname, hc, hcs⟩ := h
  have hword : ∀ d ∈ cs, word.isWord d = true := by
    intro d hd
    rcases hcs d hd with hw | rfl
    · exact hw
    · exact absurd (show '.' ∈ name.toList by rw [hname]; exact List.mem_cons_of_mem _ hd) hdot
  have hassign : AssignLine word (name.toList ++ " = 0x".toList ++ hexDigits addr ++ ';' :: rest)
      name.toList (hexDigits addr) := by
    refine ⟨⟨c, cs, hname, hc, hword⟩, ⟨Nat.toDigits_ne_nil, isHexDigit_of_mem_hexDigits⟩,
      [], [' '], [' '], [], rest, fun d hd => ?_, ?_⟩
    · obtain rfl : d = ' ' := by simpa using hd
      decide
    show name.toList ++ [' ', '=', ' ', '0', 'x'] ++ hexDigits addr ++ ';' :: rest = _
    simp
  unfold parseLine
  rw [matchAssign_of_assignLine hassign]
  show (readHexFrom 0 (hexDigits addr)).map (descriptionSymbol name.toList) = _
  rw [readHexFrom_hexDigits]
  rfl

theorem dropWhile_of_dot {cs : List Char} (h : ∀ d ∈ cs, word.isWord d = true ∨ d = '.')
    (hdot : '.' ∈ cs) (rest : List Char) :
    ∃ tail, (cs ++ rest).dropWhile word.isWord = '.' :: tail := by
  induction cs with
  | nil => cases hdot
  | cons d cs ih =>
    rw [List.cons_append]
    by_cases hd : word.isWord d = true
    · rw [List.dropWhile_cons_of_pos hd]
      apply ih fun e he => h e (List.mem_cons_of_mem _ he)
      rcases List.mem_cons.mp hdot with rfl | hmem
      · have hnot := word.ascii '.' (by decide)
        rw [hd] at hnot
        exact absurd hnot (by decide)
      · exact hmem
    · rw [List.dropWhile_cons_of_neg hd, (h d List.mem_cons_self).resolve_left hd]
      exact ⟨_, rfl⟩

/-- A name with a dot is not a word, and its line is none to the expression. -/
theorem parseLine_dotted {name : String} (h : LegalName word name) (hdot : Dotted name)
    (rest : List Char) : parseLine word (name.toList ++ rest) = none := by
  obtain ⟨c, cs, hname, hc, hcs⟩ := h
  have hmem : '.' ∈ cs := by
    have hin : '.' ∈ c :: cs := hname ▸ hdot
    rcases List.mem_cons.mp hin with rfl | hmem
    · exact absurd hc (by decide)
    · exact hmem
  obtain ⟨tail, htail⟩ := dropWhile_of_dot hcs hmem rest
  have hspace : ¬ isSpace c = true := by simp [not_space_of_isNameStart hc]
  have hdotspace : ¬ isSpace '.' = true := by decide
  unfold parseLine matchAssign
  rw [hname, List.cons_append, List.dropWhile_cons_of_neg hspace]
  simp only [hc, Bool.true_eq_false, ↓reduceIte, htail, List.dropWhile_cons_of_neg hdotspace]
  rfl

/-- The names that are read are words: no line gives a name with a dot. -/
theorem not_dotted_of_parseLine {line : List Char} {s : AnnotationSymbol}
    (h : parseLine word line = some s) : ¬ Dotted s.name := by
  obtain ⟨m, hm, hs⟩ := Option.bind_eq_some_iff.mp h
  obtain ⟨addr, _, rfl⟩ := Option.map_eq_some_iff.mp hs
  obtain ⟨c, cs, hname, hc, hcs⟩ := (matchAssign_eq_some_iff.mp hm).isName
  show '.' ∉ (String.ofList m.1).toList
  rw [String.toList_ofList, hname]
  intro hdot
  rcases List.mem_cons.mp hdot with rfl | hmem
  · exact absurd hc (by decide)
  · have hnot := word.ascii '.' (by decide)
    rw [hcs '.' hmem] at hnot
    exact absurd hnot (by decide)

end Parse

/-! ### The whole fragment -/

section Fragment

variable (word : WordClass)

/-- What is read from the line of one symbol. -/
def recovered (shown : Bool) (s : PropagatedSymbol) : List AnnotationSymbol :=
  (if Dotted s.name then [] else [descriptionSymbol s.name.toList s.newAddress]) ++
    strays word (provenanceComment s shown)

variable {word}

/-- A piece of text that ends with a line feed, unless it is empty. -/
def EndsLine (piece : List Char) : Prop := piece = [] ∨ ∃ init, piece = init ++ ['\n']

theorem EndsLine.append {a b : List Char} (ha : EndsLine a) (hb : EndsLine b) :
    EndsLine (a ++ b) := by
  rcases hb with rfl | ⟨init, rfl⟩
  · rw [List.append_nil]
    exact ha
  · exact Or.inr ⟨a ++ init, (List.append_assoc a init ['\n']).symm⟩

/-- Such pieces are read one after the other. -/
theorem parseLines_append {piece : List Char} (h : EndsLine piece) (rest : List Char) :
    parseLines word (piece ++ rest) = parseLines word piece ++ parseLines word rest := by
  rcases h with rfl | ⟨init, rfl⟩
  · rfl
  · unfold parseLines
    rw [List.append_assoc, List.singleton_append, splitLines_append_newline,
      List.filterMap_append]

theorem parseLines_flatMap {α : Type*} {xs : List α} {piece : α → List Char}
    (h : ∀ x ∈ xs, EndsLine (piece x)) :
    EndsLine (xs.flatMap piece) ∧
      parseLines word (xs.flatMap piece) = xs.flatMap fun x => parseLines word (piece x) := by
  induction xs with
  | nil => exact ⟨Or.inl rfl, rfl⟩
  | cons x xs ih =>
    obtain ⟨hends, hparse⟩ := ih fun y hy => h y (List.mem_cons_of_mem _ hy)
    have hx := h x List.mem_cons_self
    rw [List.flatMap_cons, List.flatMap_cons, parseLines_append hx, hparse]
    exact ⟨hx.append hends, rfl⟩

theorem parseLines_quote {pre : List Char} (hpre : ∀ c ∈ pre, isLineEnd c = false)
    (text : String) :
    ∃ first, parseLines word (pre ++ text.toList ++ ['\n']) =
      (parseLine word (pre ++ first)).toList ++ strays word text := by
  cases hlines : splitLines (text.toList ++ ['\n']) with
  | nil => exact absurd hlines (splitLines_ne_nil (by simp))
  | cons first lines =>
    refine ⟨first, ?_⟩
    unfold parseLines strays
    rw [List.append_assoc, splitLines_append_of_lines hpre hlines, hlines, List.tail_cons,
      List.filterMap_cons]
    cases parseLine word (pre ++ first) <;> rfl

theorem parseLines_comment {pre : List Char} (h : isCommentStart pre = true) (text : String) :
    parseLines word (pre ++ text.toList ++ ['\n']) = strays word text := by
  have hpre : ∀ c ∈ pre, isLineEnd c = false := by
    rw [isCommentStart, Bool.and_eq_true, List.all_eq_true] at h
    intro c hc
    simpa using h.1 c hc
  obtain ⟨first, hparse⟩ := parseLines_quote hpre text
  rw [hparse, parseLine_commentStart h]
  rfl

theorem not_isLineEnd_of_legal {name : String} (h : LegalName word name) :
    ∀ c ∈ name.toList, isLineEnd c = false := by
  obtain ⟨d, ds, hname, hd, hds⟩ := h
  have hspace : ∀ c, isSpace c = false → isLineEnd c = false := by
    intro c hc
    by_contra hend
    rw [isSpace_of_isLineEnd (by simpa using hend)] at hc
    cases hc
  rw [hname]
  intro c hc
  apply hspace
  rcases List.mem_cons.mp hc with rfl | hc
  · exact not_space_of_isNameStart hd
  · rcases hds c hc with hword | rfl
    · by_contra hsp
      rw [word.not_space c (by simpa using hsp)] at hword
      cases hword
    · decide

theorem assignment_toList (shown : Bool) (s : PropagatedSymbol) :
    (assignment shown s).toList = s.name.toList ++ " = 0x".toList ++ hexDigits s.newAddress ++
      [';'] ++ (provenanceComment s shown).toList ++ ['\n'] := by
  have hsplit : " = 0x".toList = " = ".toList ++ "0x".toList := rfl
  unfold assignment hex
  rw [hsplit]
  simp only [String.toList_append, String.toList_ofList, List.append_assoc]
  rfl

theorem parseLines_assignment {s : PropagatedSymbol} (h : LegalName word s.name) (shown : Bool) :
    parseLines word (assignment shown s).toList = recovered word shown s := by
  have hpre : ∀ c ∈ s.name.toList ++ " = 0x".toList ++ hexDigits s.newAddress ++ [';'],
      isLineEnd c = false := by
    intro c hc
    simp only [List.mem_append] at hc
    rcases hc with ((hc | hc) | hc) | hc
    · exact not_isLineEnd_of_legal h c hc
    · have hall : " = 0x".toList.all (fun c => !isLineEnd c) = true := by decide
      simpa using List.all_eq_true.mp hall c hc
    · by_contra hend
      have hspace := isHexDigit_of_isSpace (isSpace_of_isLineEnd (by simpa using hend))
      rw [isHexDigit_of_mem_hexDigits c hc] at hspace
      cases hspace
    · rw [List.mem_singleton.mp hc]
      decide
  obtain ⟨first, hparse⟩ := parseLines_quote hpre (provenanceComment s shown)
  have hline : s.name.toList ++ " = 0x".toList ++ hexDigits s.newAddress ++ [';'] ++ first =
      s.name.toList ++ " = 0x".toList ++ hexDigits s.newAddress ++ ';' :: first := by
    simp only [List.append_assoc, List.singleton_append]
  rw [assignment_toList, hparse, recovered, hline]
  congr 1
  by_cases hdot : Dotted s.name
  · rw [if_pos hdot, List.append_assoc, List.append_assoc, parseLine_dotted h hdot]
    rfl
  · rw [if_neg hdot, parseLine_assignment h hdot]
    rfl

theorem parseLines_join {symbols : List PropagatedSymbol}
    (h : ∀ s ∈ symbols, LegalName word s.name) (shown : Bool) :
    EndsLine (String.join (symbols.map (assignment shown))).toList ∧
      parseLines word (String.join (symbols.map (assignment shown))).toList =
        symbols.flatMap (recovered word shown) := by
  have hline : ∀ s ∈ symbols, EndsLine (assignment shown s).toList :=
    fun s _ => Or.inr ⟨_, assignment_toList shown s⟩
  obtain ⟨hends, hparse⟩ := parseLines_flatMap hline
  rw [String.toList_join, List.flatMap_map]
  refine ⟨hends, hparse.trans ?_⟩
  exact List.flatMap_congr fun s hs => parseLines_assignment (h s hs) shown

/-- A title is a comment of one line. -/
structure IsTitle (title : String) : Prop where
  comment : ∃ pre, isCommentStart pre = true ∧ title.toList = pre ++ ['\n']

theorem isTitle_of_mem {c : SymbolCategory × String} (h : c ∈ categoryOrder) : IsTitle c.2 := by
  simp only [categoryOrder, List.mem_cons, List.not_mem_nil, or_false] at h
  rcases h with rfl | rfl | rfl
  · exact ⟨"/* Flash table addresses */".toList, by decide, rfl⟩
  · exact ⟨"/* RAM globals */".toList, by decide, rfl⟩
  · exact ⟨"/* Function entry points */".toList, by decide, rfl⟩

theorem parseLines_title {title : String} (h : IsTitle title) :
    parseLines word title.toList = [] := by
  obtain ⟨pre, hpre, htitle⟩ := h.comment
  have hquote : parseLines word (pre ++ "".toList ++ ['\n']) = strays word "" :=
    parseLines_comment hpre ""
  rw [show "".toList = [] from rfl, List.append_nil] at hquote
  rw [htitle, hquote]
  rfl

/-- A category is read back symbol by symbol. -/
theorem parseLines_assignmentBlock {title : String} (htitle : IsTitle title)
    {symbols : List PropagatedSymbol} (h : ∀ s ∈ symbols, LegalName word s.name) (shown : Bool) :
    EndsLine (assignmentBlock shown title symbols).toList ∧
      parseLines word (assignmentBlock shown title symbols).toList =
        symbols.flatMap (recovered word shown) := by
  unfold assignmentBlock
  split
  · rename_i hnil
    rw [hnil]
    exact ⟨Or.inl rfl, rfl⟩
  · obtain ⟨pre, _, hpre⟩ := htitle.comment
    obtain ⟨hends, hjoin⟩ := parseLines_join h shown
    have hends' : EndsLine title.toList := Or.inr ⟨pre, hpre⟩
    rw [String.toList_append, String.toList_append, List.append_assoc, parseLines_append hends',
      parseLines_title htitle, List.nil_append, parseLines_append hends, hjoin]
    exact ⟨hends'.append (hends.append (Or.inr ⟨[], rfl⟩)), List.append_nil _⟩

/-- A line of the header quotes a text behind the start of a comment. -/
theorem parseLines_header (pre : String) (h : isCommentStart pre.toList = true)
    (text : String) (rest : List Char) :
    parseLines word (pre.toList ++ (text.toList ++ ("\n".toList ++ rest))) =
      strays word text ++ parseLines word rest := by
  have hends : EndsLine (pre.toList ++ text.toList ++ "\n".toList) := Or.inr ⟨_, rfl⟩
  have hquote : parseLines word (pre.toList ++ text.toList ++ "\n".toList) = strays word text :=
    parseLines_comment h text
  rw [← List.append_assoc, ← List.append_assoc, parseLines_append hends, hquote]

/-- What is read from a fragment: the stray lines of the header, then symbol by symbol
what the line of the symbol gives. -/
theorem parseDescriptionLd_emitDescriptionLd {symbols : List PropagatedSymbol}
    (h : ∀ s ∈ symbols, LegalName word s.name)
    (sourceRom referenceName variant matchSummary : String) (shown : Bool) :
    parseDescriptionLd word
        (emitDescriptionLd symbols sourceRom referenceName variant matchSummary shown) =
      strays word sourceRom ++ (strays word referenceName ++ (strays word variant ++
        (strays word matchSummary ++
          (assignedSymbols symbols).flatMap (recovered word shown)))) := by
  have hbody : parseLines word (String.join (categoryOrder.map fun c =>
      assignmentBlock shown c.2 (byCat symbols c.1))).toList =
        (assignedSymbols symbols).flatMap (recovered word shown) := by
    have hblock : ∀ c ∈ categoryOrder,
        EndsLine (assignmentBlock shown c.2 (byCat symbols c.1)).toList ∧
          parseLines word (assignmentBlock shown c.2 (byCat symbols c.1)).toList =
            (byCat symbols c.1).flatMap (recovered word shown) := by
      intro c hc
      apply parseLines_assignmentBlock (isTitle_of_mem hc)
      intro s hs
      exact h s (List.mem_filter.mp (mem_sortBy.mp hs)).1
    rw [String.toList_join, List.flatMap_map, (parseLines_flatMap fun c hc => (hblock c hc).1).2,
      assignedSymbols, List.flatMap_assoc]
    exact List.flatMap_congr fun c hc => (hblock c hc).2
  have hclose : ∀ rest, parseLines word (" */\n\n".toList ++ rest) = parseLines word rest := by
    intro rest
    have hends : EndsLine " */\n\n".toList := Or.inr ⟨" */\n".toList, rfl⟩
    rw [parseLines_append hends]
    rfl
  unfold parseDescriptionLd emitDescriptionLd
  simp only [String.toList_append, List.append_assoc]
  rw [parseLines_header _ (by decide), parseLines_header _ (by decide),
    parseLines_header _ (by decide), parseLines_header _ (by decide), hclose, hbody]

theorem recovered_of_not_dotted {shown : Bool} {s : PropagatedSymbol} (h : ¬ Dotted s.name) :
    recovered word shown s = descriptionSymbol s.name.toList s.newAddress ::
      strays word (provenanceComment s shown) := by
  rw [recovered, if_neg h]
  rfl

theorem length_flatMap_recovered {shown : Bool} {symbols : List PropagatedSymbol}
    (h : ∀ s ∈ symbols, ¬ Dotted s.name) :
    (symbols.flatMap (recovered word shown)).length = symbols.length +
      (symbols.flatMap fun s => strays word (provenanceComment s shown)).length := by
  induction symbols with
  | nil => rfl
  | cons s symbols ih =>
    have ih := ih fun t ht => h t (List.mem_cons_of_mem _ ht)
    rw [List.flatMap_cons, List.flatMap_cons, recovered_of_not_dotted (h s List.mem_cons_self)]
    simp only [List.length_append, List.length_cons, ih]
    omega

/-- Nothing that is read has a name with a dot. -/
theorem not_dotted_of_mem_parse {text : String} {a : AnnotationSymbol}
    (h : a ∈ parseDescriptionLd word text) : ¬ Dotted a.name := by
  obtain ⟨line, _, hline⟩ := List.mem_filterMap.mp h
  exact not_dotted_of_parseLine hline

end Fragment

/-- A fragment is read back exactly when no name has a dot and no text that it quotes
has an assignment on a line of its own. -/
theorem parse_emitDescriptionLd_iff (word : WordClass) (symbols : List PropagatedSymbol)
    (hlegal : ∀ s ∈ symbols, LegalName word s.name)
    (sourceRom referenceName variant matchSummary : String) (shown : Bool) :
    (parseDescriptionLd word (emitDescriptionLd symbols sourceRom referenceName variant
        matchSummary shown)).map (fun a => (a.name, a.address)) =
      (assignedSymbols symbols).map (fun s => (s.name, s.newAddress)) ↔
    (∀ s ∈ symbols, ¬ Dotted s.name) ∧
      (∀ text ∈ [sourceRom, referenceName, variant, matchSummary], StrayFree word text) ∧
      ∀ s ∈ symbols, StrayFree word (provenanceComment s shown) := by
  have hmem : ∀ s, s ∈ assignedSymbols symbols ↔ s ∈ symbols :=
    fun s => (assignedSymbols_perm symbols).mem_iff
  simp only [List.forall_mem_cons, List.not_mem_nil, false_implies, implies_true, and_true,
    ← strays_eq_nil_iff]
  constructor
  · intro h
    have hdots : ∀ s ∈ symbols, ¬ Dotted s.name := by
      intro s hs
      have hpair : (s.name, s.newAddress) ∈ (assignedSymbols symbols).map
          fun s => (s.name, s.newAddress) := List.mem_map_of_mem ((hmem s).mpr hs)
      rw [← h] at hpair
      obtain ⟨a, ha, heq⟩ := List.mem_map.mp hpair
      rw [← (Prod.mk.inj heq).1]
      exact not_dotted_of_mem_parse ha
    -- as many as were emitted are read for their own lines; there is no room for more
    have hlength := congrArg List.length h
    rw [parseDescriptionLd_emitDescriptionLd hlegal, List.length_map, List.length_map] at hlength
    simp only [List.length_append,
      length_flatMap_recovered fun s hs => hdots s ((hmem s).mp hs)] at hlength
    have hcomments : (assignedSymbols symbols).flatMap (fun s =>
        strays word (provenanceComment s shown)) = [] := List.length_eq_zero_iff.mp (by omega)
    refine ⟨hdots, ⟨?_, ?_, ?_, ?_⟩, ?_⟩
    · exact List.length_eq_zero_iff.mp (by omega)
    · exact List.length_eq_zero_iff.mp (by omega)
    · exact List.length_eq_zero_iff.mp (by omega)
    · exact List.length_eq_zero_iff.mp (by omega)
    · intro s hs
      exact List.flatMap_eq_nil_iff.mp hcomments s ((hmem s).mpr hs)
  · intro h
    obtain ⟨hdots, ⟨hsource, hreference, hvariant, hsummary⟩, hcomments⟩ := h
    have hown : (assignedSymbols symbols).flatMap (recovered word shown) =
        (assignedSymbols symbols).map fun s => descriptionSymbol s.name.toList s.newAddress := by
      rw [List.map_eq_flatMap]
      refine List.flatMap_congr fun s hs => ?_
      rw [recovered_of_not_dotted (hdots s ((hmem s).mp hs)), hcomments s ((hmem s).mp hs)]
    rw [parseDescriptionLd_emitDescriptionLd hlegal, hsource, hreference, hvariant, hsummary,
      List.nil_append, List.nil_append, List.nil_append, List.nil_append, hown, List.map_map]
    refine List.map_congr_left fun s _ => ?_
    simp [descriptionSymbol]

section Colt

/-- A RAM variable of the first reference, as the stub has it. -/
def rpmSymbol : PropagatedSymbol where
  name := "age_x1.rpm"
  refAddress := 0x8048f8
  newAddress := 0x8048f8
  category := .ramGlobal
  confidence := .high

theorem legalName_rpm : LegalName asciiWords rpmSymbol.name := by
  refine ⟨'a', "ge_x1.rpm".toList, rfl, by decide, fun d hd => ?_⟩
  have hall : "ge_x1.rpm".toList.all (fun d => asciiWords.isWord d || d == '.') = true := by
    decide
  simpa using List.all_eq_true.mp hall d hd

/-- The RAM variable with a dot in its name is emitted, but not read back. -/
theorem parse_emitDescriptionLd_loses_dotted :
    (∀ s ∈ [rpmSymbol], LegalName asciiWords s.name) ∧
      (assignedSymbols [rpmSymbol]).map (fun s => (s.name, s.newAddress)) =
        [("age_x1.rpm", 0x8048f8)] ∧
      (parseDescriptionLd asciiWords (emitDescriptionLd [rpmSymbol] "colt.bin" "33520003"
        "m32r:2:fp8000" "1/1 (100.0%)")).map (fun a => (a.name, a.address)) = [] := by
  refine ⟨fun s hs => ?_, by decide +kernel, by decide +kernel⟩
  rw [List.mem_singleton.mp hs]
  exact legalName_rpm

def startSymbol : PropagatedSymbol := { rpmSymbol with name := "start", newAddress := 0x804000 }

/-- A name without a dot is read back. -/
theorem parse_emitDescriptionLd_start :
    (parseDescriptionLd asciiWords (emitDescriptionLd [startSymbol] "colt.bin" "33520003"
        "m32r:2:fp8000" "1/1 (100.0%)")).map (fun a => (a.name, a.address)) =
      (assignedSymbols [startSymbol]).map (fun s => (s.name, s.newAddress)) := by
  refine (parse_emitDescriptionLd_iff asciiWords [startSymbol] ?_ "colt.bin" "33520003"
    "m32r:2:fp8000" "1/1 (100.0%)" false).mpr ⟨by decide, ?_, ?_⟩
  · intro s hs
    rw [List.mem_singleton.mp hs]
    refine ⟨'s', "tart".toList, rfl, by decide, fun d hd => Or.inl ?_⟩
    have hall : "tart".toList.all asciiWords.isWord = true := by decide
    exact List.all_eq_true.mp hall d hd
  · simp only [List.forall_mem_cons, List.not_mem_nil, false_implies, implies_true, and_true,
      ← strays_eq_nil_iff]
    decide +kernel
  · intro s hs
    rw [List.mem_singleton.mp hs, ← strays_eq_nil_iff]
    decide +kernel

end Colt

end RomAnalyzer.Scripts
