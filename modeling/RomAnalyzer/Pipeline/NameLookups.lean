import RomAnalyzer.Pipeline.PostMatch

/-!
# Looking up a merged match by name

The single-source passes look a function up by its reference name. Three of them
take the first merged match of the name; the others read a dictionary, in which
the last one stands.
-/
namespace RomAnalyzer.Pipeline

open Lib
open Merge (matchRank Priority)

/-- `next((m for m in matches if m.ref_name == name), None)` -/
def firstNamed (ms : List MatchedFunction) (name : String) : Option MatchedFunction :=
  ms.find? fun m => m.refName = name

/-- `{m.ref_name: m for m in matches if m.ref_name}` -/
def matchByName (ms : List MatchedFunction) : Dict String MatchedFunction :=
  Dict.ofList ((ms.filter fun m => m.refName ≠ "").map fun m => (m.refName, m))

/-- A name that the passes look up, with the look-up they use for it. -/
structure NameLookup where
  name : String
  select : List MatchedFunction → Option MatchedFunction

def firstHit (name : String) : NameLookup := ⟨name, fun ms => firstNamed ms name⟩

def dictHit (name : String) : NameLookup := ⟨name, fun ms => (matchByName ms).get? name⟩

/-- The checksum routine, for a target that is not the reference itself. -/
def crcMatch : NameLookup := firstHit "rom_crc_check_step"

/-- The handler whose data references give the MUT table. -/
def gmp : NameLookup := firstHit "get_mut_pointer"

/-- The slot check, when no propagated symbol has its name. -/
def checkSidMatch : NameLookup := firstHit "can0_slot_check_sid"

/-- The handlers of the diagnostic modes. -/
def handlerRefs : List (Nat × String) :=
  [(1, "sio0_obd_request_data_by_pid"), (2, "obd_get_freeze_frame0"),
   (0x18, "obd_mode18_handler"), (0x59, "obd_mode59_handler")]

def setMatch : NameLookup := dictHit "probably_set_dtc"

def resetMatch : NameLookup := dictHit "probably_reset_dtc"

/-- The dispatcher whose callers are the CAN splice sites. -/
def canTarget : NameLookup := dictHit "canrx12_15_process"

/-- Every look-up by name of the passes after the merge. -/
def nameLookups : List NameLookup :=
  [crcMatch, gmp, checkSidMatch] ++ handlerRefs.map (fun e => dictHit e.2) ++
    [setMatch, resetMatch, canTarget]

/-- The look-up finds a match when there is one, of maximal rank for the name, and
either way of looking the name up gives the same target address. -/
structure SelectsBest (priority : Priority) (ms : List MatchedFunction) (l : NameLookup) :
    Prop where
  found : ∀ m ∈ ms, m.refName = l.name → l.select ms ≠ none
  best : ∀ m, l.select ms = some m → m ∈ ms ∧ m.refName = l.name ∧
    ∀ u ∈ ms, u.refName = l.name → matchRank priority u ≤ matchRank priority m
  agree : ∀ m m', firstNamed ms l.name = some m → (matchByName ms).get? l.name = some m' →
    m.newAddress = m'.newAddress

variable {ms : List MatchedFunction} {name : String}

theorem firstNamed_eq_head? (ms : List MatchedFunction) (name : String) :
    firstNamed ms name = (ms.filter fun m => m.refName = name).head? :=
  List.head?_filter.symm

/-- The dictionary holds the last match of a name. -/
theorem get?_matchByName (ms : List MatchedFunction) (hname : name ≠ "") :
    (matchByName ms).get? name = (ms.filter fun m => m.refName = name).getLast? := by
  have hfilter : ((ms.filter fun m => m.refName ≠ "").filter fun m => m.refName = name) =
      ms.filter fun m => m.refName = name := by
    rw [List.filter_filter]
    apply List.filter_congr
    intro m _
    by_cases h : m.refName = name
    · simp [h, hname]
    · simp [h]
  rw [matchByName, ← hfilter]
  generalize (ms.filter fun m => m.refName ≠ "") = named
  rw [Dict.get?_ofList_map, Option.map_id', List.findRev?_eq_find?_reverse,
    List.getLast?_eq_head?_reverse, ← List.filter_reverse, List.head?_filter]

/-- Both look-ups find an element of the matches of the name, if there is one. -/
theorem nameLookups_select {l : NameLookup} (hl : l ∈ nameLookups) (ms : List MatchedFunction) :
    l.name ≠ "" ∧ (l.select ms = (ms.filter fun m => m.refName = l.name).head? ∨
      l.select ms = (ms.filter fun m => m.refName = l.name).getLast?) := by
  have hkind : ∀ l ∈ nameLookups, l.name ≠ "" ∧ (l = firstHit l.name ∨ l = dictHit l.name) := by
    intro l hl
    simp only [nameLookups, handlerRefs, List.map_cons, List.map_nil, List.cons_append,
      List.nil_append, List.mem_cons, List.not_mem_nil, or_false] at hl
    rcases hl with rfl | rfl | rfl | rfl | rfl | rfl | rfl | rfl | rfl | rfl
    all_goals
      refine ⟨by decide, ?_⟩
      first
        | exact Or.inl rfl
        | exact Or.inr rfl
  obtain ⟨hne, hfirst | hdict⟩ := hkind l hl
  · refine ⟨hne, Or.inl ?_⟩
    rw [hfirst]
    exact firstNamed_eq_head? ms l.name
  · refine ⟨hne, Or.inr ?_⟩
    rw [hdict]
    exact get?_matchByName ms hne

/-- The first and the last of a list without repetition are the same only when there
is no other. -/
theorem eq_of_head?_eq_getLast? {α : Type} {xs : List α} (hnodup : xs.Nodup) {a : α}
    (hfirst : xs.head? = some a) (hlast : xs.getLast? = some a) : ∀ x ∈ xs, x = a := by
  cases xs with
  | nil => cases hfirst
  | cons b xs =>
    obtain rfl := Option.some.inj hfirst
    cases xs with
    | nil =>
      intro x hx
      exact List.mem_singleton.mp hx
    | cons c xs =>
      rw [List.getLast?_cons_cons] at hlast
      exact absurd (List.mem_of_getLast? hlast) (List.nodup_cons.mp hnodup).1

/-- Every look-up by name selects a match of maximal rank, and the two kinds of
look-up agree, exactly when no two winning matches carry the same looked-up name. -/
theorem nameLookups_selectBest_iff (results : List (List MatchedFunction))
    (priority : Priority) :
    (∀ l ∈ nameLookups, SelectsBest priority (Merge.mergeMatches results priority) l) ↔
      ∀ l ∈ nameLookups, ∀ m m',
        Unbeaten MatchedFunction.newAddress (matchRank priority) results.flatten m →
        Unbeaten MatchedFunction.newAddress (matchRank priority) results.flatten m' →
        m.refName = l.name → m'.refName = l.name → m = m' := by
  have hmerged : ∀ m, Unbeaten MatchedFunction.newAddress (matchRank priority)
      results.flatten m ↔ m ∈ Merge.mergeMatches results priority :=
    fun m => (mem_values_keepBest_iff_unbeaten _).symm
  have hnews := mergeMatches_news_nodup results priority
  simp only [hmerged]
  revert hnews
  generalize Merge.mergeMatches results priority = ms
  intro hnews
  apply forall₂_congr
  intro l hl
  obtain ⟨hname, hselect⟩ := nameLookups_select hl ms
  have hnamed : ∀ m, m ∈ (ms.filter fun m => m.refName = l.name) ↔
      m ∈ ms ∧ m.refName = l.name := by
    intro m
    rw [List.mem_filter, decide_eq_true_iff]
  constructor
  · intro h m m' hm hm' hmn hmn'
    have hne : (ms.filter fun m => m.refName = l.name) ≠ [] :=
      List.ne_nil_of_mem ((hnamed m).mpr ⟨hm, hmn⟩)
    obtain ⟨a, ha⟩ := Option.isSome_iff_exists.mp (List.isSome_head?.mpr hne)
    obtain ⟨b, hb⟩ := Option.isSome_iff_exists.mp (List.getLast?_isSome.mpr hne)
    have hab : a.newAddress = b.newAddress :=
      h.agree a b ((firstNamed_eq_head? ms l.name).trans ha) ((get?_matchByName ms hname).trans hb)
    have hams := ((hnamed a).mp (List.mem_of_head? ha)).1
    have hbms := ((hnamed b).mp (List.mem_of_getLast? hb)).1
    obtain rfl := List.inj_on_of_nodup_map hnews hams hbms hab
    have hall := eq_of_head?_eq_getLast? ((List.Nodup.of_map _ hnews).filter _) ha hb
    rw [hall m ((hnamed m).mpr ⟨hm, hmn⟩), hall m' ((hnamed m').mpr ⟨hm', hmn'⟩)]
  · intro h
    have hmem : ∀ m, l.select ms = some m → m ∈ ms ∧ m.refName = l.name := by
      intro m hm
      rw [← hnamed]
      rcases hselect with hs | hs
      · exact List.mem_of_head? (hs.symm.trans hm)
      · exact List.mem_of_getLast? (hs.symm.trans hm)
    constructor
    · intro m hm hmn hnone
      have hne : (ms.filter fun m => m.refName = l.name) ≠ [] :=
        List.ne_nil_of_mem ((hnamed m).mpr ⟨hm, hmn⟩)
      rcases hselect with hs | hs
      · exact hne (List.head?_eq_none_iff.mp (hs.symm.trans hnone))
      · exact hne (List.getLast?_eq_none_iff.mp (hs.symm.trans hnone))
    · intro m hm
      obtain ⟨hms, hmn⟩ := hmem m hm
      refine ⟨hms, hmn, ?_⟩
      intro u hu hun
      rw [h u m hu hms hun hmn]
    · intro m m' hfirst hlast
      rw [firstNamed_eq_head?] at hfirst
      rw [get?_matchByName ms hname] at hlast
      obtain ⟨hm, hmn⟩ := (hnamed m).mp (List.mem_of_head? hfirst)
      obtain ⟨hm', hmn'⟩ := (hnamed m').mp (List.mem_of_getLast? hlast)
      rw [h m m' hm hm' hmn hmn']

/-- The dictionary resolves the handler to the match of the lower rank. -/
theorem handler_lookup_takes_lower_rank :
    let primary : MatchedFunction :=
      ⟨"obd_mode18_handler", 0x100, 0x2000, 1, "vector_table", "33520003"⟩
    let other : MatchedFunction :=
      ⟨"obd_mode18_handler", 0x180, 0x3000, 7 / 10, "callgraph_gap", "e5090011"⟩
    let priority : Priority := Dict.ofList [("33520003", 10), ("e5090011", 5)]
    let merged := Merge.mergeMatches [[primary], [other]] priority
    (dictHit "obd_mode18_handler").select merged = some other ∧
      firstNamed merged "obd_mode18_handler" = some primary ∧
      ¬ ∀ l ∈ nameLookups, SelectsBest priority merged l := by
  intro primary other priority merged
  have hdict : (matchByName merged).get? "obd_mode18_handler" = some other := by decide +kernel
  have hfirst : firstNamed merged "obd_mode18_handler" = some primary := by decide +kernel
  refine ⟨hdict, hfirst, ?_⟩
  intro h
  have hmem : dictHit "obd_mode18_handler" ∈ nameLookups := by simp [nameLookups, handlerRefs]
  exact absurd ((h _ hmem).agree primary other hfirst hdict) (by decide)

end RomAnalyzer.Pipeline
