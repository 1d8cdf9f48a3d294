import RomAnalyzer.Lib.Text

/-!
# Words and cuts

Texts are stripped, split at white space and cut at patterns; decimal numerals are
written and read.
-/
namespace Lib

/-! ### Prefixes of a class -/

section Span

variable {α : Type*} {p : α → Bool} {xs ys : List α} {a : α}

theorem dropWhile_append_cons (hxs : ∀ x ∈ xs, p x = true) (ha : p a = false) :
    (xs ++ a :: ys).dropWhile p = a :: ys := by
  rw [List.dropWhile_append_of_pos hxs, List.dropWhile_cons_of_neg (by simp [ha])]

theorem takeWhile_append_cons (hxs : ∀ x ∈ xs, p x = true) (ha : p a = false) :
    (xs ++ a :: ys).takeWhile p = xs := by
  rw [List.takeWhile_append_of_pos hxs, List.takeWhile_cons_of_neg (by simp [ha]),
    List.append_nil]

theorem dropWhile_append_of_neg (ha : p a = false) :
    (xs ++ a :: ys).dropWhile p = xs.dropWhile p ++ a :: ys := by
  rw [List.dropWhile_append]
  by_cases hall : (xs.dropWhile p).isEmpty = true
  · rw [if_pos hall, List.isEmpty_iff.mp hall, List.dropWhile_cons_of_neg (by simp [ha])]
    rfl
  · rw [if_neg hall]

theorem rdropWhile_append_cons (hys : ∀ y ∈ ys, p y = true) (ha : p a = false) :
    (xs ++ a :: ys).rdropWhile p = xs ++ [a] := by
  have hreverse : ∀ y ∈ ys.reverse, p y = true := fun y hy => hys y (List.mem_reverse.mp hy)
  rw [List.rdropWhile, List.reverse_append, List.reverse_cons, List.append_assoc,
    List.singleton_append, dropWhile_append_cons hreverse ha, List.reverse_cons,
    List.reverse_reverse]

theorem rtakeWhile_append_cons (hys : ∀ y ∈ ys, p y = true) (ha : p a = false) :
    (xs ++ a :: ys).rtakeWhile p = ys := by
  have hreverse : ∀ y ∈ ys.reverse, p y = true := fun y hy => hys y (List.mem_reverse.mp hy)
  rw [List.rtakeWhile, List.reverse_append, List.reverse_cons, List.append_assoc,
    List.singleton_append, takeWhile_append_cons hreverse ha, List.reverse_reverse]

end Span

/-! ### Stripping -/

/-- Neither end is white space. -/
def Trimmed (cs : List Char) : Prop :=
  (∀ c ∈ cs.head?, isSpace c = false) ∧ ∀ c ∈ cs.getLast?, isSpace c = false

theorem trimmed_of_forall {cs : List Char} (h : ∀ c ∈ cs, isSpace c = false) : Trimmed cs := by
  constructor
  · exact fun c hc => h c (List.mem_of_mem_head? hc)
  · exact fun c hc => h c (List.mem_of_getLast? hc)

/-- A text is what is left of it between white space. -/
theorem strip_of_trimmed {core sp sp' : List Char} (hsp : ∀ c ∈ sp, isSpace c = true)
    (hsp' : ∀ c ∈ sp', isSpace c = true) (hcore : Trimmed core) :
    strip (sp ++ core ++ sp') = core := by
  have hright : (sp ++ core ++ sp').rdropWhile isSpace = (sp ++ core).rdropWhile isSpace := by
    rw [List.rdropWhile, List.rdropWhile, List.reverse_append, List.dropWhile_append_of_pos]
    intro c hc
    exact hsp' c (List.mem_reverse.mp hc)
  rw [strip, hright]
  rcases List.eq_nil_or_concat core with rfl | ⟨init, last, rfl⟩
  · rw [List.append_nil]
    have hall : sp.rdropWhile isSpace = [] := List.rdropWhile_eq_nil_iff.mpr hsp
    rw [hall]
    rfl
  · have hlast : isSpace last = false := hcore.2 last (by simp)
    rw [List.concat_eq_append, ← List.append_assoc, List.rdropWhile_concat_neg _ _ _ (by simp [hlast]),
      List.append_assoc, List.dropWhile_append_of_pos hsp]
    cases init with
    | nil => exact List.dropWhile_cons_of_neg (by simp [hlast])
    | cons first init =>
      have hfirst : isSpace first = false := hcore.1 first (by simp)
      exact List.dropWhile_cons_of_neg (by simp [hfirst])

/-- Every text is its stripped text between white space. -/
theorem exists_strip (cs : List Char) :
    ∃ sp sp', cs = sp ++ strip cs ++ sp' ∧ (∀ c ∈ sp, isSpace c = true) ∧
      (∀ c ∈ sp', isSpace c = true) ∧ Trimmed (strip cs) := by
  refine ⟨(cs.rdropWhile isSpace).takeWhile isSpace, cs.rtakeWhile isSpace, ?_, ?_, ?_, ?_, ?_⟩
  · rw [strip, List.takeWhile_append_dropWhile, List.rdropWhile_append_rtakeWhile]
  · exact fun c hc => List.mem_takeWhile_imp hc
  · exact fun c hc => List.mem_rtakeWhile_imp hc
  · intro c hc
    have hnot := List.head?_dropWhile_not isSpace (cs.rdropWhile isSpace)
    rw [Option.mem_def] at hc
    rw [strip] at hc
    rw [hc] at hnot
    simpa using hnot
  · intro c hc
    -- the last character is that of the text stripped on the right
    have hsuffix : strip cs <:+ cs.rdropWhile isSpace := List.dropWhile_suffix isSpace
    obtain ⟨pre, hpre⟩ := hsuffix
    have hne : cs.rdropWhile isSpace ≠ [] := by
      intro hnil
      rw [hnil] at hpre
      rw [(List.append_eq_nil_iff.mp hpre).2] at hc
      cases hc
    have hlast := List.rdropWhile_last_not isSpace cs hne
    have hsame : (cs.rdropWhile isSpace).getLast hne = c := by
      apply Option.some.inj
      rw [← List.getLast?_eq_some_getLast hne, ← hpre, List.getLast?_append_of_ne_nil]
      · exact hc
      · rintro hnil
        rw [hnil] at hc
        cases hc
    rw [hsame] at hlast
    simpa using hlast

theorem trimmed_strip (cs : List Char) : Trimmed (strip cs) := by
  obtain ⟨_, _, _, _, _, htrimmed⟩ := exists_strip cs
  exact htrimmed

theorem strip_of_trimmed_self {cs : List Char} (h : Trimmed cs) : strip cs = cs := by
  have hnone : ∀ c ∈ ([] : List Char), isSpace c = true := by simp
  have hstrip := strip_of_trimmed hnone hnone h
  rwa [List.nil_append, List.append_nil] at hstrip

theorem strip_spaces_append {sp : List Char} (hsp : ∀ c ∈ sp, isSpace c = true)
    (cs : List Char) : strip (sp ++ cs) = strip cs := by
  obtain ⟨left, right, hcs, hleft, hright, htrimmed⟩ := exists_strip cs
  have hspaces : ∀ c ∈ sp ++ left, isSpace c = true := by
    intro c hc
    exact (List.mem_append.mp hc).elim (hsp c) (hleft c)
  have hstrip := strip_of_trimmed hspaces hright htrimmed
  rwa [List.append_assoc, List.append_assoc, ← List.append_assoc left, ← hcs] at hstrip

theorem strip_append_spaces {sp : List Char} (hsp : ∀ c ∈ sp, isSpace c = true)
    (cs : List Char) : strip (cs ++ sp) = strip cs := by
  obtain ⟨left, right, hcs, hleft, hright, htrimmed⟩ := exists_strip cs
  have hspaces : ∀ c ∈ right ++ sp, isSpace c = true := by
    intro c hc
    exact (List.mem_append.mp hc).elim (hright c) (hsp c)
  have hstrip := strip_of_trimmed hleft hspaces htrimmed
  rwa [← List.append_assoc, ← hcs] at hstrip

/-- The last character stays if it is no white space. -/
theorem strip_concat {c : Char} (hc : isSpace c = false) (cs : List Char) :
    strip (cs ++ [c]) = cs.dropWhile isSpace ++ [c] := by
  rw [strip, List.rdropWhile_concat_neg _ _ _ (by simp [hc]), dropWhile_append_of_neg hc]

theorem length_strip_le (cs : List Char) : (strip cs).length ≤ cs.length :=
  ((List.dropWhile_suffix isSpace).length_le).trans (List.rdropWhile_prefix isSpace cs).length_le

theorem trimmed_append {xs ys : List Char} (hxs : ∀ c ∈ xs.head?, isSpace c = false) (hx : xs ≠ [])
    (hys : ∀ c ∈ ys.getLast?, isSpace c = false) (hy : ys ≠ []) : Trimmed (xs ++ ys) := by
  constructor
  · rw [List.head?_append_of_ne_nil _ hx]
    exact hxs
  · rw [List.getLast?_append_of_ne_nil _ hy]
    exact hys

/-! ### Words -/

/-- `str.split()` -/
def words (cs : List Char) : List (List Char) := (cs.splitOnP isSpace).filter (· ≠ [])

@[simp] theorem words_nil : words [] = [] := rfl

/-- White space separates words. -/
theorem words_append_space (xs ys : List Char) {c : Char} (hc : isSpace c = true) :
    words (xs ++ c :: ys) = words xs ++ words ys := by
  rw [words, List.splitOnP_append_cons xs ys hc, List.filter_append]
  rfl

/-- A text that starts with a word's character starts with that word. -/
theorem words_cons {c : Char} (hc : isSpace c = false) (cs : List Char) :
    ∃ w ws, words (c :: cs) = (c :: w) :: ws := by
  obtain ⟨w, ws, hcs⟩ := List.exists_cons_of_ne_nil (List.splitOnP_ne_nil isSpace cs)
  have hsplit : (c :: cs).splitOnP isSpace = (c :: w) :: ws := by
    rw [List.splitOnP_cons_eq_if_modifyHead, hc, hcs]
    rfl
  refine ⟨w, ws.filter (· ≠ []), ?_⟩
  rw [words, hsplit, List.filter_cons]
  simp

theorem words_spaces_append {sp : List Char} (hsp : ∀ c ∈ sp, isSpace c = true)
    (cs : List Char) : words (sp ++ cs) = words cs := by
  induction sp with
  | nil => rfl
  | cons c sp ih =>
    have hword := words_append_space [] (sp ++ cs) (hsp c List.mem_cons_self)
    rw [List.nil_append, words_nil, List.nil_append] at hword
    rw [List.cons_append, hword]
    exact ih fun d hd => hsp d (List.mem_cons_of_mem _ hd)

theorem words_append_spaces {sp : List Char} (hsp : ∀ c ∈ sp, isSpace c = true)
    (cs : List Char) : words (cs ++ sp) = words cs := by
  cases sp with
  | nil => rw [List.append_nil]
  | cons c sp =>
    have hrest : words sp = [] := by
      rw [← List.append_nil sp, words_spaces_append (fun d hd => hsp d (List.mem_cons_of_mem _ hd)),
        words_nil]
    rw [words_append_space cs sp (hsp c List.mem_cons_self), hrest, List.append_nil]

theorem words_strip (cs : List Char) : words (strip cs) = words cs := by
  obtain ⟨left, right, hcs, hleft, hright, _⟩ := exists_strip cs
  conv_rhs => rw [hcs]
  rw [words_append_spaces hright, words_spaces_append hleft]

/-- What is not white space is in some word. -/
theorem exists_word {c : Char} {cs : List Char} (hc : c ∈ cs) (hspace : isSpace c = false) :
    ∃ w ∈ words cs, c ∈ w := by
  have hpiece : ∃ w ∈ cs.splitOnP isSpace, c ∈ w := by
    induction cs with
    | nil => cases hc
    | cons d cs ih =>
      rw [List.splitOnP_cons_eq_if_modifyHead]
      by_cases hd : isSpace d = true
      · rw [if_pos hd]
        rcases List.mem_cons.mp hc with rfl | hc
        · rw [hd] at hspace
          cases hspace
        · obtain ⟨w, hw, hcw⟩ := ih hc
          exact ⟨w, List.mem_cons_of_mem _ hw, hcw⟩
      · obtain ⟨first, rest, hsplit⟩ :=
          List.exists_cons_of_ne_nil (List.splitOnP_ne_nil isSpace cs)
        rw [if_neg hd, hsplit, List.modifyHead_cons]
        rcases List.mem_cons.mp hc with rfl | hc
        · exact ⟨_, List.mem_cons_self, List.mem_cons_self⟩
        · obtain ⟨w, hw, hcw⟩ := ih hc
          rw [hsplit] at hw
          rcases List.mem_cons.mp hw with rfl | hw
          · exact ⟨_, List.mem_cons_self, List.mem_cons_of_mem _ hcw⟩
          · exact ⟨w, List.mem_cons_of_mem _ hw, hcw⟩
  obtain ⟨w, hw, hcw⟩ := hpiece
  exact ⟨w, List.mem_filter.mpr ⟨hw, decide_eq_true (List.ne_nil_of_mem hcw)⟩, hcw⟩

theorem isSpace_of_words_nil {cs : List Char} (h : words cs = []) {c : Char} (hc : c ∈ cs) :
    isSpace c = true := by
  by_contra hspace
  obtain ⟨w, hw, _⟩ := exists_word hc ((Bool.not_eq_true _).mp hspace)
  rw [h] at hw
  cases hw

theorem strip_of_words_nil {cs : List Char} (h : words cs = []) : strip cs = [] := by
  have hstrip := strip_append_spaces (fun _ hc => isSpace_of_words_nil h hc) []
  rw [List.nil_append] at hstrip
  exact hstrip

theorem words_eq_singleton {cs : List Char} (hcs : ∀ c ∈ cs, isSpace c = false) (hne : cs ≠ []) :
    words cs = [cs] := by
  have hsplit : cs.splitOnP isSpace = [cs] := List.splitOnP_eq_singleton hcs
  rw [words, hsplit]
  exact List.filter_eq_self.mpr fun w hw => decide_eq_true (List.mem_singleton.mp hw ▸ hne)

/-- White space inside a trimmed text has a word on either side. -/
theorem one_lt_length_words {xs ys : List Char} {c : Char} (hc : isSpace c = true)
    (htrimmed : Trimmed (xs ++ c :: ys)) : 1 < (words (xs ++ c :: ys)).length := by
  have hleft : ∃ x ∈ xs, isSpace x = false := by
    cases xs with
    | nil =>
      have hfirst := htrimmed.1 c rfl
      rw [hc] at hfirst
      cases hfirst
    | cons x xs => exact ⟨x, List.mem_cons_self, htrimmed.1 x rfl⟩
  have hright : ∃ y ∈ ys, isSpace y = false := by
    rcases List.eq_nil_or_concat ys with rfl | ⟨init, y, rfl⟩
    · have hlast := htrimmed.2 c (List.getLast?_concat ..)
      rw [hc] at hlast
      cases hlast
    · refine ⟨y, by simp, htrimmed.2 y ?_⟩
      rw [List.concat_eq_append, ← List.cons_append, ← List.append_assoc]
      exact List.getLast?_concat ..
  obtain ⟨x, hx, hxspace⟩ := hleft
  obtain ⟨y, hy, hyspace⟩ := hright
  obtain ⟨u, hu, _⟩ := exists_word hx hxspace
  obtain ⟨v, hv, _⟩ := exists_word hy hyspace
  have hposLeft := List.length_pos_of_mem hu
  have hposRight := List.length_pos_of_mem hv
  rw [words_append_space xs ys hc, List.length_append]
  omega

/-- A text of one word is that word, stripped. -/
theorem strip_of_words_singleton {cs w : List Char} (h : words cs = [w]) : strip cs = w := by
  rw [← words_strip] at h
  have hspace : ∀ c ∈ strip cs, isSpace c = false := by
    intro c hc
    by_contra hspace
    obtain ⟨xs, ys, hstrip⟩ := List.append_of_mem hc
    have htrimmed := trimmed_strip cs
    rw [hstrip] at h htrimmed
    have hlength := one_lt_length_words ((Bool.not_eq_false _).mp hspace) htrimmed
    rw [h, List.length_singleton] at hlength
    omega
  have hne : strip cs ≠ [] := by
    intro hnil
    rw [hnil, words_nil] at h
    cases h
  rw [words_eq_singleton hspace hne] at h
  exact List.singleton_inj.mp h

/-! ### Cuts -/

/-- The text in front of the first occurrence of a pattern, or all of it. -/
def beforeFirst (pat : List Char) : List Char → List Char
  | [] => []
  | c :: cs => if pat.isPrefixOf (c :: cs) then [] else c :: beforeFirst pat cs

/-- Nothing is cut off a text that lacks a character of the pattern. -/
theorem beforeFirst_of_not_mem {pat cs : List Char} {c : Char} (hpat : c ∈ pat) (hcs : c ∉ cs) :
    beforeFirst pat cs = cs := by
  induction cs with
  | nil => rfl
  | cons d cs ih =>
    have hprefix : ¬ pat.isPrefixOf (d :: cs) = true := by
      intro h
      exact hcs ((List.isPrefixOf_iff_prefix.mp h).subset hpat)
    rw [beforeFirst, if_neg hprefix, ih fun h => hcs (List.mem_cons_of_mem _ h)]

/-- A pattern is found behind a text without its first character. -/
theorem beforeFirst_append {pat body : List Char} {c : Char} (h : c ∉ body) (rest : List Char) :
    beforeFirst (c :: pat) (body ++ (c :: pat ++ rest)) = body := by
  induction body with
  | nil =>
    have hprefix : (c :: pat).isPrefixOf (c :: (pat ++ rest)) = true :=
      List.isPrefixOf_iff_prefix.mpr ⟨rest, rfl⟩
    rw [List.nil_append, List.cons_append, beforeFirst, if_pos hprefix]
  | cons d body ih =>
    have hprefix : ¬ (c :: pat).isPrefixOf (d :: (body ++ (c :: pat ++ rest))) = true := by
      intro hprefix
      have hhead := List.cons_prefix_cons.mp (List.isPrefixOf_iff_prefix.mp hprefix)
      exact h (hhead.1 ▸ List.mem_cons_self)
    rw [List.cons_append, beforeFirst, if_neg hprefix,
      ih fun hmem => h (List.mem_cons_of_mem _ hmem)]

/-- A keyword and a blank lead a text only when its first word is the keyword. -/
theorem eq_of_keyword_prefix {keyword base rest : List Char} {c : Char} (hbase : c ∉ base)
    (hrest : ∀ d ∈ rest.head?, d ∉ keyword) (h : keyword ++ [c] <+: base ++ rest) :
    base = keyword ∧ rest.head? = some c := by
  obtain ⟨tail, htail⟩ := h
  rw [List.append_assoc, List.singleton_append] at htail
  rcases List.append_eq_append_iff.mp htail with ⟨mid, hmid, hsame⟩ | ⟨mid, hmid, hsame⟩
  · -- the keyword ends inside the base
    cases mid with
    | nil =>
      rw [List.nil_append] at hsame
      rw [← hsame]
      exact ⟨by simpa using hmid, rfl⟩
    | cons d mid =>
      obtain ⟨rfl, _⟩ := List.cons.inj hsame
      exact absurd (hmid ▸ List.mem_append_right _ List.mem_cons_self) hbase
  · -- the base ends inside the keyword
    cases mid with
    | nil =>
      rw [List.append_nil] at hmid
      rw [hsame]
      exact ⟨hmid.symm, rfl⟩
    | cons d mid =>
      have hd : d ∈ rest.head? := by
        rw [hsame]
        rfl
      exact absurd (hmid ▸ List.mem_append_right _ List.mem_cons_self) (hrest d hd)

theorem mem_of_mem_intercalate {α : Type*} {a : α} {sep : List α} {parts : List (List α)}
    (h : a ∈ sep.intercalate parts) : a ∈ sep ∨ ∃ part ∈ parts, a ∈ part := by
  induction parts with
  | nil => cases h
  | cons part parts ih =>
    cases parts with
    | nil =>
      rw [List.intercalate_singleton] at h
      exact Or.inr ⟨part, List.mem_cons_self, h⟩
    | cons next parts =>
      rw [List.intercalate_cons_cons] at h
      rcases List.mem_append.mp h with h | h
      · rcases List.mem_append.mp h with h | h
        · exact Or.inr ⟨part, List.mem_cons_self, h⟩
        · exact Or.inl h
      · rcases ih h with hsep | ⟨piece, hpiece, hmem⟩
        · exact Or.inl hsep
        · exact Or.inr ⟨piece, List.mem_cons_of_mem _ hpiece, hmem⟩

/-- What has no separator goes to the last piece when it is appended. -/
theorem splitOn_append {α : Type*} [BEq α] [LawfulBEq α] {a : α} {ys : List α} (h : a ∉ ys)
    (xs : List α) :
    ∃ init last, xs.splitOn a = init ++ [last] ∧ (xs ++ ys).splitOn a = init ++ [last ++ ys] := by
  induction xs with
  | nil => exact ⟨[], [], rfl, List.splitOn_eq_singleton h⟩
  | cons x xs ih =>
    obtain ⟨init, last, hxs, hall⟩ := ih
    rw [List.cons_append, List.splitOn_cons_eq_if_modifyHead, List.splitOn_cons_eq_if_modifyHead,
      hxs, hall]
    by_cases hx : (x == a) = true
    · rw [if_pos hx, if_pos hx]
      exact ⟨[] :: init, last, rfl, rfl⟩
    · rw [if_neg hx, if_neg hx]
      cases init with
      | nil => exact ⟨[], x :: last, rfl, rfl⟩
      | cons first init => exact ⟨(x :: first) :: init, last, rfl, rfl⟩

/-- It goes to the first piece when it stands in front. -/
theorem splitOn_prepend {α : Type*} [BEq α] [LawfulBEq α] {a : α} {ys : List α} (h : a ∉ ys)
    (xs : List α) :
    ∃ first rest, xs.splitOn a = first :: rest ∧ (ys ++ xs).splitOn a = (ys ++ first) :: rest := by
  obtain ⟨first, rest, hxs⟩ := List.exists_cons_of_ne_nil (List.splitOn_ne_nil a xs)
  refine ⟨first, rest, hxs, ?_⟩
  induction ys with
  | nil => exact hxs
  | cons y ys ih =>
    have hy : ¬ (y == a) = true := by
      rw [beq_iff_eq]
      exact fun hy => h (hy ▸ List.mem_cons_self)
    rw [List.cons_append, List.splitOn_cons_eq_if_modifyHead, if_neg hy,
      ih fun hmem => h (List.mem_cons_of_mem _ hmem)]
    rfl

/-! ### Texts within cut texts -/

/-- No part holds the separator. -/
theorem notMem_of_mem_splitOn {α : Type*} [BEq α] [LawfulBEq α] {a : α} {xs part : List α}
    (h : part ∈ xs.splitOn a) : a ∉ part := by
  induction xs generalizing part with
  | nil =>
    rw [List.mem_singleton.mp h]
    exact List.not_mem_nil
  | cons x xs ih =>
    obtain ⟨first, rest, hxs⟩ := List.exists_cons_of_ne_nil (List.splitOn_ne_nil a xs)
    rw [List.splitOn_cons_eq_if_modifyHead] at h
    rw [hxs] at h ih
    by_cases hx : (x == a) = true
    · rw [if_pos hx] at h
      rcases List.mem_cons.mp h with rfl | hpart
      · exact List.not_mem_nil
      · exact ih hpart
    · rw [if_neg hx] at h
      rcases List.mem_cons.mp h with rfl | hpart
      · intro hmem
        rcases List.mem_cons.mp hmem with rfl | hfirst
        · exact hx (BEq.refl a)
        · exact ih List.mem_cons_self hfirst
      · exact ih (List.mem_cons_of_mem first hpart)

/-- A text without the separator is found on one side of it. -/
theorem infix_append_cons {α : Type*} {a : α} {m : List α} (hm : a ∉ m) (hne : m ≠ [])
    (xs ys : List α) : m <:+: xs ++ a :: ys ↔ m <:+: xs ∨ m <:+: ys := by
  constructor
  · rintro ⟨s, t, h⟩
    rw [List.append_assoc] at h
    rcases List.append_eq_append_iff.mp h with ⟨k, rfl, hk⟩ | ⟨k, rfl, hk⟩
    · rcases List.append_eq_append_iff.mp hk with ⟨j, rfl, hj⟩ | ⟨j, rfl, hj⟩
      · exact Or.inl ⟨s, j, by rw [List.append_assoc]⟩
      · left
        cases j with
        | nil => exact ⟨s, [], by simp⟩
        | cons b j =>
          rw [List.cons_append] at hj
          obtain ⟨rfl, -⟩ := List.cons.inj hj
          exact absurd (List.mem_append_right k List.mem_cons_self) hm
    · cases k with
      | nil =>
        cases m with
        | nil => exact absurd rfl hne
        | cons b m =>
          rw [List.nil_append, List.cons_append] at hk
          obtain ⟨rfl, -⟩ := List.cons.inj hk
          exact absurd List.mem_cons_self hm
      | cons b k =>
        rw [List.cons_append] at hk
        obtain ⟨-, rfl⟩ := List.cons.inj hk
        exact Or.inr ⟨k, t, by rw [List.append_assoc]⟩
  · intro h
    rcases h with hleft | hright
    · exact hleft.trans (List.prefix_append xs _).isInfix
    · exact hright.trans
        ((List.suffix_cons a ys).isInfix.trans (List.suffix_append xs (a :: ys)).isInfix)

/-- A text without the separator is found in one of the parts. -/
theorem infix_intercalate {α : Type*} {a : α} {m : List α} (hm : a ∉ m) (hne : m ≠ [])
    (ls : List (List α)) : m <:+: [a].intercalate ls ↔ ∃ l ∈ ls, m <:+: l := by
  induction ls with
  | nil => simp [hne]
  | cons l ls ih =>
    cases ls with
    | nil => simp
    | cons l' ls =>
      rw [List.intercalate_cons_cons, List.append_assoc, List.singleton_append,
        infix_append_cons hm hne, ih]
      exact (List.exists_mem_cons_iff _ l (l' :: ls)).symm

/-! ### Decimal numerals -/

/-- `str(n)` -/
def decimalDigits (n : Nat) : List Char := Nat.toDigits 10 n

/-- The value of a character of the class `\d`. -/
def decimalDigit (c : Char) : Nat :=
  match decimalZeros.find? fun z => z ≤ c.toNat && c.toNat < z + 10 with
  | some z => c.toNat - z
  | none => 0

/-- `int(text)` on a text of the class `\d` -/
def decimalValue (digits : List Char) : Nat :=
  digits.foldl (fun n c => 10 * n + decimalDigit c) 0

theorem decimalValue_decimalDigits (n : Nat) : decimalValue (decimalDigits n) = n := by
  have hdigit : ∀ d < 10, decimalDigit (Nat.digitChar d) = d := by decide
  unfold decimalDigits
  induction n using Nat.strong_induction_on with
  | _ n ih =>
    by_cases h : n < 10
    · rw [Nat.toDigits_of_lt_base h]
      show 10 * 0 + decimalDigit (Nat.digitChar n) = n
      rw [hdigit n h]
      omega
    · have hquot := ih (n / 10) (by omega)
      rw [decimalValue] at hquot
      rw [Nat.toDigits_of_base_le (by decide) (by omega), decimalValue, List.foldl_append, hquot]
      show 10 * (n / 10) + decimalDigit (Nat.digitChar (n % 10)) = n
      rw [hdigit (n % 10) (by omega)]
      omega

theorem isDecimal_of_mem_decimalDigits {n : Nat} {c : Char} (h : c ∈ decimalDigits n) :
    isDecimal c = true := by
  have hdigit := Nat.isDigit_of_mem_toDigits (by decide) (by decide) h
  have hrange : 48 ≤ c.toNat ∧ c.toNat ≤ 57 := by
    simpa [Char.isDigit, UInt32.le_iff_toNat_le] using hdigit
  have hzero : 0x30 ∈ decimalZeros := by decide
  refine List.any_eq_true.mpr ⟨0x30, hzero, ?_⟩
  rw [Bool.and_eq_true, decide_eq_true_iff, decide_eq_true_iff]
  omega

theorem decimalDigits_ne_nil (n : Nat) : decimalDigits n ≠ [] := Nat.toDigits_ne_nil

end Lib
