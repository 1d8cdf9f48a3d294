import RomAnalyzer.Scripts.Declarations

/-!
# Type strings of the overlay

The overlay takes a type string apart from the right: the dimensions, then the stars, one
star and the blank in front of it at a time. The reference builder writes one blank in
front of all stars.
-/
namespace RomAnalyzer.Ghidra

open Lib
open Scripts

structure ParsedType where
  base : String
  pointerDepth : Nat := 0
  arrayDims : List Nat := []
  isStruct : Bool := false
  deriving DecidableEq, Repr

/-- The canonical base and the extra pointer depth of an alias. -/
def scalarAliases : List (List Char × (String × Nat)) :=
  [("g8_t".toList, ("uint8_t", 0)), ("int8_t".toList, ("uint8_t", 0)),
    ("pointer".toList, ("void", 1))]

/-- `re.search(r"\[(\d+)\]$", s)` on a stripped text: what stands in front of the match,
and the number. -/
def trailingDim (s : List Char) : Option (List Char × Nat) :=
  if s.getLast? = some ']' then
    let digits := s.dropLast.rtakeWhile isDecimal
    let front := s.dropLast.rdropWhile isDecimal
    if digits ≠ [] ∧ front.getLast? = some '[' then some (front.dropLast, decimalValue digits)
    else none
  else none

theorem length_of_trailingDim {s front : List Char} {d : Nat}
    (h : trailingDim s = some (front, d)) : (strip front).length < s.length := by
  unfold trailingDim at h
  split at h
  · rename_i hlast
    have hpos : 0 < s.length := List.length_pos_iff.mpr fun hnil => by
      rw [hnil] at hlast
      cases hlast
    simp only [ne_eq] at h
    split at h
    · obtain ⟨rfl, _⟩ := Prod.mk.inj (Option.some.inj h)
      have hstrip := length_strip_le (s.dropLast.rdropWhile isDecimal).dropLast
      have hprefix := (List.rdropWhile_prefix isDecimal s.dropLast).length_le
      rw [List.length_dropLast] at hstrip hprefix
      omega
    · cases h
  · cases h

/-- The loop over the dimensions, from right to left. -/
def stripDims (s : List Char) (arrayDims : List Nat) : List Char × List Nat :=
  match _h : trailingDim s with
  | some (front, d) => stripDims (strip front) (d :: arrayDims)
  | none => (s, arrayDims)
termination_by s.length
decreasing_by exact length_of_trailingDim _h

/-- The loop over the stars. -/
def stripStars (s : List Char) (pointerDepth : Nat) : List Char × Nat :=
  if h : [' ', '*'] <:+ s then stripStars (strip (s.take (s.length - 2))) (pointerDepth + 1)
  else (s, pointerDepth)
termination_by s.length
decreasing_by
  have hlength := h.length_le
  have hstrip := length_strip_le (s.take (s.length - 2))
  simp only [List.length_cons, List.length_nil, List.length_take] at hlength hstrip
  omega

def stripConst (s : List Char) : List Char :=
  if "const ".toList <+: s then strip (s.drop 6) else s

/-- The name, without dimensions and stars. -/
def parseBase (s : List Char) (pointerDepth : Nat) (arrayDims : List Nat) : ParsedType :=
  if s = "undefined".toList then ⟨"void", pointerDepth, arrayDims, false⟩
  else if "struct ".toList <+: s then
    ⟨String.ofList (strip (s.drop 7)), pointerDepth, arrayDims, true⟩
  else
    match find s scalarAliases with
    | some (canonical, extraDepth) => ⟨canonical, pointerDepth + extraDepth, arrayDims, false⟩
    | none => ⟨String.ofList s, pointerDepth, arrayDims, false⟩

def parseTypeStr (typeStr : List Char) : Option ParsedType :=
  let s := strip typeStr
  if s = [] then none
  else if s = "pointer".toList then some ⟨"void", 1, [], false⟩
  else
    let (s, arrayDims) := stripDims (stripConst s) []
    let (s, pointerDepth) := stripStars s 0
    some (parseBase s pointerDepth arrayDims)

/-! ### The loops on a rendered type -/

section Loops

theorem trailingDim_dimText (front : List Char) (d : Nat) :
    trailingDim (front ++ dimText d) = some (front, d) := by
  have hdigits : ∀ c ∈ decimalDigits d, isDecimal c = true :=
    fun c hc => isDecimal_of_mem_decimalDigits hc
  have hopen : isDecimal '[' = false := by decide
  have htext : front ++ dimText d = front ++ '[' :: decimalDigits d ++ [']'] := by
    simp [dimText]
  have hlast : (front ++ '[' :: decimalDigits d ++ [']']).getLast? = some ']' :=
    List.getLast?_concat ..
  have hdrop : (front ++ '[' :: decimalDigits d ++ [']']).dropLast =
      front ++ '[' :: decimalDigits d := List.dropLast_concat
  have hfront : decimalDigits d ≠ [] ∧ (front ++ ['[']).getLast? = some '[' :=
    ⟨decimalDigits_ne_nil d, List.getLast?_concat ..⟩
  simp only [trailingDim, htext, if_pos hlast, hdrop, rtakeWhile_append_cons hdigits hopen,
    rdropWhile_append_cons hdigits hopen, if_pos hfront]
  rw [List.dropLast_concat, decimalValue_decimalDigits]

theorem trailingDim_none {s : List Char} (h : ']' ∉ s) : trailingDim s = none := by
  rw [trailingDim, if_neg fun hlast => h (List.mem_of_getLast? hlast)]

theorem stripDims_of_none {s : List Char} (h : trailingDim s = none) (arrayDims : List Nat) :
    stripDims s arrayDims = (s, arrayDims) := by
  rw [stripDims]
  split
  · rename_i hsome
    rw [h] at hsome
    cases hsome
  · rfl

theorem stripDims_of_some {s front : List Char} {d : Nat} (h : trailingDim s = some (front, d))
    (arrayDims : List Nat) : stripDims s arrayDims = stripDims (strip front) (d :: arrayDims) := by
  rw [stripDims]
  split
  · rename_i hsome
    obtain ⟨rfl, rfl⟩ := Prod.mk.inj (Option.some.inj (h.symm.trans hsome))
    rfl
  · rename_i hnone
    rw [h] at hnone
    cases hnone

theorem trimmed_dims {core : List Char} (hcore : Trimmed core) (hne : core ≠ [])
    (dims : List Nat) : Trimmed (core ++ dims.flatMap dimText) := by
  rcases List.eq_nil_or_concat dims with rfl | ⟨init, d, rfl⟩
  · rwa [List.flatMap_nil, List.append_nil]
  · have hend : (init.flatMap dimText ++ dimText d).getLast? = some ']' := by
      rw [dimText, ← List.cons_append, ← List.append_assoc]
      exact List.getLast?_concat ..
    rw [List.concat_eq_append, List.flatMap_append, List.flatMap_singleton]
    apply trimmed_append hcore.1 hne
    · intro c hc
      rw [Option.mem_def, hend] at hc
      rw [← Option.some.inj hc]
      decide
    · exact List.append_ne_nil_of_right_ne_nil _ (List.cons_ne_nil _ _)

/-- All dimensions behind a text without brackets are taken, in their order. -/
theorem stripDims_dims {core : List Char} (hcore : Trimmed core) (hne : core ≠ [])
    (hbracket : ']' ∉ core) (dims arrayDims : List Nat) :
    stripDims (core ++ dims.flatMap dimText) arrayDims = (core, dims ++ arrayDims) := by
  induction dims using List.reverseRecOn generalizing arrayDims with
  | nil =>
    rw [List.flatMap_nil, List.append_nil, List.nil_append]
    exact stripDims_of_none (trailingDim_none hbracket) arrayDims
  | append_singleton dims d ih =>
    have hdim := trailingDim_dimText (core ++ dims.flatMap dimText) d
    rw [List.flatMap_append, List.flatMap_singleton, ← List.append_assoc,
      stripDims_of_some hdim, strip_of_trimmed_self (trimmed_dims hcore hne dims), ih,
      List.append_assoc, List.singleton_append]

theorem stripStars_of_no_blank {s : List Char} (h : ' ' ∉ s) (pointerDepth : Nat) :
    stripStars s pointerDepth = (s, pointerDepth) := by
  rw [stripStars, dif_neg fun hsuffix => h (hsuffix.subset List.mem_cons_self)]

/-- One star behind a name is counted. -/
theorem stripStars_one {base : List Char} (htrimmed : Trimmed base) (hblank : ' ' ∉ base)
    (pointerDepth : Nat) :
    stripStars (base ++ [' ', '*']) pointerDepth = (base, pointerDepth + 1) := by
  have hsuffix : [' ', '*'] <:+ base ++ [' ', '*'] := List.suffix_append ..
  have htake : (base ++ [' ', '*']).take ((base ++ [' ', '*']).length - 2) = base := by simp
  rw [stripStars, dif_pos hsuffix, htake, strip_of_trimmed_self htrimmed,
    stripStars_of_no_blank hblank]

/-- Of two stars side by side none is counted. -/
theorem stripStars_two (front : List Char) (pointerDepth : Nat) :
    stripStars (front ++ ['*', '*']) pointerDepth = (front ++ ['*', '*'], pointerDepth) := by
  have hsuffix : ¬ [' ', '*'] <:+ front ++ ['*', '*'] := by
    intro h
    have hboth := List.suffix_of_suffix_length_le h (List.suffix_append front ['*', '*']) le_rfl
    exact absurd (hboth.eq_of_length rfl) (by decide)
  rw [stripStars, dif_neg hsuffix]

end Loops

/-! ### The round trip -/

/-- The names that are read as something else. -/
def typeKeywords : List (List Char) := scalarAliases.map Prod.fst ++ ["undefined".toList]

/-- The rendered type is read back as the base, the stars and the dimensions it is made of. -/
def RoundTrips (baseTokens : List (List Char)) (base : List Char) (nptr : Nat)
    (dims : List Nat) : Prop :=
  ∃ parsed, (formatType baseTokens nptr dims).bind parseTypeStr = some parsed ∧
    parsed.base = String.ofList base ∧ parsed.pointerDepth = nptr ∧ parsed.arrayDims = dims

section RoundTrip

variable {word : WordClass} {base : List Char}

/-- A word that is no keyword is passed through. -/
theorem parseBase_word {s : List Char} (hblank : ' ' ∉ s) (hplain : s ∉ typeKeywords)
    (pointerDepth : Nat) (arrayDims : List Nat) :
    parseBase s pointerDepth arrayDims = ⟨String.ofList s, pointerDepth, arrayDims, false⟩ := by
  rw [typeKeywords, List.mem_append, not_or, List.mem_singleton] at hplain
  have hstruct : ¬ "struct ".toList <+: s := fun h => hblank (h.subset (by decide))
  rw [parseBase, if_neg hplain.2, if_neg hstruct, (find_eq_none_iff s scalarAliases).mpr hplain.1]

/-- An alias adds one star at most. -/
theorem pointerDepth_parseBase_le (s : List Char) (pointerDepth : Nat) (arrayDims : List Nat) :
    (parseBase s pointerDepth arrayDims).pointerDepth ≤ pointerDepth + 1 := by
  have hkeys : (scalarAliases.map Prod.fst).Nodup := by decide
  have hextra : ∀ e ∈ scalarAliases, e.2.2 ≤ 1 := by decide
  unfold parseBase
  split
  · exact Nat.le_succ pointerDepth
  · split
    · exact Nat.le_succ pointerDepth
    · split
      · rename_i canonical extraDepth halias
        have hle : extraDepth ≤ 1 := hextra _ ((mem_iff_find hkeys _ _).mpr halias)
        show pointerDepth + extraDepth ≤ pointerDepth + 1
        omega
      · exact Nat.le_succ pointerDepth

theorem blank_not_mem_name (hbase : IsName word base) : ' ' ∉ base :=
  not_mem_name hbase (by decide) (by decide)

theorem trimmed_starsText (hbase : IsName word base) (nptr : Nat) :
    Trimmed (base ++ starsText nptr) := by
  cases nptr with
  | zero =>
    rw [starsText, if_pos rfl, List.append_nil]
    exact trimmed_name hbase
  | succ n =>
    have hend : (' ' :: List.replicate (n + 1) '*').getLast? = some '*' := by
      rw [List.replicate_succ', ← List.cons_append]
      exact List.getLast?_concat ..
    rw [starsText, if_neg (Nat.succ_ne_zero n)]
    apply trimmed_append (trimmed_name hbase).1 (name_ne_nil hbase)
    · intro c hc
      rw [Option.mem_def, hend] at hc
      rw [← Option.some.inj hc]
      decide
    · exact List.cons_ne_nil _ _

theorem not_mem_starsText {c : Char} (hblank : c ≠ ' ') (hstar : c ≠ '*') (nptr : Nat) :
    c ∉ starsText nptr := by
  intro hc
  unfold starsText at hc
  split at hc
  · cases hc
  · rcases List.mem_cons.mp hc with hc | hc
    · exact hblank hc
    · exact hstar (List.eq_of_mem_replicate hc)

/-- What stands behind the base: nothing, a blank or an opening bracket. -/
theorem head?_behind_base (nptr : Nat) (dims : List Nat) :
    ∀ c ∈ (starsText nptr ++ dims.flatMap dimText).head?, c = ' ' ∧ nptr ≠ 0 ∨ c = '[' := by
  intro c hc
  by_cases hn : nptr = 0
  · rw [starsText, if_pos hn, List.nil_append] at hc
    cases dims with
    | nil => cases hc
    | cons d dims => exact Or.inr (Option.some.inj hc).symm
  · rw [starsText, if_neg hn] at hc
    exact Or.inl ⟨(Option.some.inj hc).symm, hn⟩

/-- A rendered type is a word only when it is the base. -/
theorem eq_base_of_rendered {keyword : List Char} (hblank : ' ' ∉ keyword)
    (hbracket : '[' ∉ keyword) {nptr : Nat} {dims : List Nat}
    (h : base ++ starsText nptr ++ dims.flatMap dimText = keyword) : base = keyword := by
  have hhead := head?_behind_base nptr dims
  rw [List.append_assoc] at h
  cases hrest : starsText nptr ++ dims.flatMap dimText with
  | nil => rwa [hrest, List.append_nil] at h
  | cons c rest =>
    have hmem : c ∈ keyword := by
      rw [← h, hrest]
      exact List.mem_append_right _ List.mem_cons_self
    rcases hhead c (by rw [hrest]; rfl) with ⟨rfl, _⟩ | rfl
    · exact absurd hmem hblank
    · exact absurd hmem hbracket

/-- The qualifier is seen only when it is the base, with a star behind it. -/
theorem stripConst_rendered (hbase : IsName word base) (nptr : Nat) (dims : List Nat)
    (hconst : base ≠ "const".toList ∨ nptr = 0) :
    stripConst (base ++ starsText nptr ++ dims.flatMap dimText) =
      base ++ starsText nptr ++ dims.flatMap dimText := by
  have hbehind : ∀ c ∈ (starsText nptr ++ dims.flatMap dimText).head?, c ∉ "const".toList := by
    intro c hc
    rcases head?_behind_base nptr dims c hc with ⟨rfl, _⟩ | rfl
    · decide
    · decide
  rw [stripConst, if_neg]
  intro h
  rw [List.append_assoc] at h
  obtain ⟨hsame, hblank⟩ := eq_of_keyword_prefix (blank_not_mem_name hbase) hbehind h
  rcases head?_behind_base nptr dims ' ' hblank with ⟨_, hnptr⟩ | habsurd
  · rcases hconst with hconst | hconst
    · exact hconst hsame
    · exact hnptr hconst
  · exact absurd habsurd (by decide)

/-- Without the qualifier the base is read with the stars that the loop counts. -/
theorem parseTypeStr_rendered (hbase : IsName word base) (hplain : base ∉ typeKeywords)
    (nptr : Nat) (dims : List Nat) (hconst : base ≠ "const".toList ∨ nptr = 0) :
    parseTypeStr (base ++ starsText nptr ++ dims.flatMap dimText) =
      some (parseBase (stripStars (base ++ starsText nptr) 0).1
        (stripStars (base ++ starsText nptr) 0).2 dims) := by
  have hcore := trimmed_starsText hbase nptr
  have hne : base ++ starsText nptr ≠ [] :=
    List.append_ne_nil_of_left_ne_nil (name_ne_nil hbase) _
  have hbracket : ']' ∉ base ++ starsText nptr := by
    intro hmem
    rcases List.mem_append.mp hmem with hmem | hmem
    · exact not_mem_name hbase (by decide) (by decide) hmem
    · exact not_mem_starsText (by decide) (by decide) nptr hmem
  have hpointer : base ++ starsText nptr ++ dims.flatMap dimText ≠ "pointer".toList := by
    intro h
    have hsame := eq_base_of_rendered (by decide) (by decide) h
    exact hplain (hsame ▸ by decide)
  have htext : base ++ starsText nptr ++ dims.flatMap dimText ≠ [] :=
    List.append_ne_nil_of_left_ne_nil hne _
  have hdims := stripDims_dims hcore hne hbracket dims []
  rw [List.append_nil] at hdims
  simp only [parseTypeStr, strip_of_trimmed_self (trimmed_dims hcore hne dims), if_neg htext,
    if_neg hpointer, stripConst_rendered hbase nptr dims hconst, hdims]

/-- With the qualifier for a base, the stars are left as a name. -/
theorem parseTypeStr_const (n : Nat) (dims : List Nat) :
    parseTypeStr ("const".toList ++ starsText (n + 1) ++ dims.flatMap dimText) =
      some ⟨String.ofList (List.replicate (n + 1) '*'), 0, dims, false⟩ := by
  have hbase : IsName asciiWords "const".toList := isIdent_iff.mp (by decide)
  have hstar : ∀ c ∈ List.replicate (n + 1) '*', c = '*' := fun c hc => List.eq_of_mem_replicate hc
  have hstars : Trimmed (List.replicate (n + 1) '*') := by
    apply trimmed_of_forall
    intro c hc
    rw [hstar c hc]
    decide
  have hne : List.replicate (n + 1) '*' ≠ [] := List.cons_ne_nil _ _
  have hnot : ∀ c, c ≠ '*' → c ∉ List.replicate (n + 1) '*' := fun c hc hmem => hc (hstar c hmem)
  have hwhole := trimmed_dims (trimmed_starsText hbase (n + 1))
    (List.append_ne_nil_of_left_ne_nil (name_ne_nil hbase) _) dims
  have htext : "const".toList ++ starsText (n + 1) ++ dims.flatMap dimText =
      "const ".toList ++ (List.replicate (n + 1) '*' ++ dims.flatMap dimText) := by
    rw [starsText, if_neg (Nat.succ_ne_zero n)]
    simp
  have hpointer : "const".toList ++ starsText (n + 1) ++ dims.flatMap dimText ≠
      "pointer".toList := fun h =>
    absurd (eq_base_of_rendered (by decide) (by decide) h) (by decide)
  have hempty : "const".toList ++ starsText (n + 1) ++ dims.flatMap dimText ≠ [] :=
    List.cons_ne_nil _ _
  have hconst : stripConst ("const".toList ++ starsText (n + 1) ++ dims.flatMap dimText) =
      List.replicate (n + 1) '*' ++ dims.flatMap dimText := by
    rw [htext, stripConst, if_pos (List.prefix_append ..),
      List.drop_left' (by decide), strip_of_trimmed_self (trimmed_dims hstars hne dims)]
  have hdims := stripDims_dims hstars hne (hnot ']' (by decide)) dims []
  rw [List.append_nil] at hdims
  have hplain : List.replicate (n + 1) '*' ∉ typeKeywords := by
    intro hmem
    have hletters : ∀ k ∈ typeKeywords, '*' ∉ k := by decide
    exact hletters _ hmem List.mem_cons_self
  simp only [parseTypeStr, strip_of_trimmed_self hwhole, if_neg hempty, if_neg hpointer, hconst,
    hdims, stripStars_of_no_blank (hnot ' ' (by decide)),
    parseBase_word (hnot ' ' (by decide)) hplain]

/-- One star at most is read back. -/
theorem parseTypeStr_short (hbase : IsName word base) (hplain : base ∉ typeKeywords) {nptr : Nat}
    (dims : List Nat) (hshort : nptr = 0 ∨ nptr = 1 ∧ base ≠ "const".toList) :
    parseTypeStr (base ++ starsText nptr ++ dims.flatMap dimText) =
      some ⟨String.ofList base, nptr, dims, false⟩ := by
  have hblank := blank_not_mem_name hbase
  rcases hshort with rfl | ⟨rfl, hconst⟩
  · rw [parseTypeStr_rendered hbase hplain 0 dims (Or.inr rfl), starsText, if_pos rfl,
      List.append_nil, stripStars_of_no_blank hblank, parseBase_word hblank hplain]
  · have hstar : starsText 1 = [' ', '*'] := rfl
    rw [parseTypeStr_rendered hbase hplain 1 dims (Or.inl hconst), hstar,
      stripStars_one (trimmed_name hbase) hblank, parseBase_word hblank hplain]

/-- More stars are not counted; an alias may add one. -/
theorem parseTypeStr_long (hbase : IsName word base) (hplain : base ∉ typeKeywords) (n : Nat)
    (dims : List Nat) (hconst : base ≠ "const".toList) :
    ∃ parsed, parseTypeStr (base ++ starsText (n + 2) ++ dims.flatMap dimText) = some parsed ∧
      parsed.pointerDepth ≤ 1 := by
  have hstars : base ++ starsText (n + 2) =
      (base ++ ' ' :: List.replicate n '*') ++ ['*', '*'] := by
    rw [starsText, if_neg (Nat.succ_ne_zero _), List.replicate_succ', List.replicate_succ']
    simp
  rw [parseTypeStr_rendered hbase hplain (n + 2) dims (Or.inl hconst), hstars, stripStars_two]
  exact ⟨_, rfl, pointerDepth_parseBase_le _ 0 dims⟩

end RoundTrip

/-- A rendered type is read back exactly when it has one star at most. -/
theorem roundTrips_iff (word : WordClass) (baseTokens : List (List Char)) (base : List Char)
    (hbase : IsName word base) (hplain : base ∉ typeKeywords)
    (htokens : (baseTokens.filter fun t => t ∉ aggregates) = [base]) (nptr : Nat)
    (dims : List Nat) :
    RoundTrips baseTokens base nptr dims ↔
      nptr = 0 ∨ nptr = 1 ∧ base ≠ "const".toList := by
  have hformat : formatType baseTokens nptr dims =
      some (base ++ starsText nptr ++ dims.flatMap dimText) := by
    rw [formatType, htokens, List.intercalate_singleton, if_neg (name_ne_nil hbase)]
  rw [RoundTrips, hformat, Option.bind_some]
  constructor
  · intro h
    obtain ⟨parsed, hparsed, _, hdepth, _⟩ := h
    by_cases hconst : base = "const".toList
    · cases nptr with
      | zero => exact Or.inl rfl
      | succ n =>
        rw [hconst, parseTypeStr_const] at hparsed
        rw [← Option.some.inj hparsed] at hdepth
        cases hdepth
    · obtain _ | _ | n := nptr
      · exact Or.inl rfl
      · exact Or.inr ⟨rfl, hconst⟩
      · obtain ⟨long, hlong, hle⟩ := parseTypeStr_long hbase hplain n dims hconst
        rw [Option.some.inj (hlong.symm.trans hparsed)] at hle
        omega
  · intro hshort
    exact ⟨_, parseTypeStr_short hbase hplain dims hshort, rfl, rfl, rfl⟩

/-- `uint8_t *[16]` -/
theorem roundTrips_pointers : RoundTrips ["uint8_t".toList] "uint8_t".toList 1 [16] :=
  (roundTrips_iff asciiWords ["uint8_t".toList] "uint8_t".toList (isIdent_iff.mp (by decide))
    (by decide) (by decide) 1 [16]).mpr (Or.inr ⟨rfl, by decide⟩)

/-- A declaration of the tables with two stars: its type is read as a name with stars. -/
theorem doublePointer_not_read_back :
    parseDataDecl asciiWords "void **ram_start;".toList = some ("ram_start", some "void **") ∧
      parseTypeStr "void **".toList = some ⟨"void **", 0, [], false⟩ ∧
      ¬ RoundTrips ["void".toList] "void".toList 2 [] := by
  have hvoid : IsName asciiWords "void".toList := isIdent_iff.mp (by decide)
  have hparsed : parseTypeStr "void **".toList = some ⟨"void **", 0, [], false⟩ := by
    have hrendered := parseTypeStr_rendered hvoid (by decide) 2 [] (Or.inl (by decide))
    have hstars : "void".toList ++ starsText 2 = "void ".toList ++ ['*', '*'] := by decide
    rw [List.flatMap_nil, List.append_nil, hstars, stripStars_two] at hrendered
    exact hrendered.trans (by decide)
  refine ⟨by decide, hparsed, ?_⟩
  intro h
  obtain ⟨parsed, hformat, _, hdepth, _⟩ := h
  have htext : formatType ["void".toList] 2 [] = some "void **".toList := by decide
  rw [htext, Option.bind_some, hparsed] at hformat
  rw [← Option.some.inj hformat] at hdepth
  cases hdepth

end RomAnalyzer.Ghidra
