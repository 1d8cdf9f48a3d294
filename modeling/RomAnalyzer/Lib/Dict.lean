import Mathlib

/-!
# Dictionaries that keep insertion order

An association list with pairwise distinct keys. Writing to a key that is
present replaces its value in place and leaves its position; a new key goes to
the end. The distinctness of the keys is a field, so no lookup can depend on
which of two entries is met first.
-/
namespace Lib

universe u v

variable {κ : Type u} {ν : Type v} [DecidableEq κ]

/-- Overwrite the value at `k` in place, or append a new entry. -/
def put (k : κ) (v : ν) : List (κ × ν) → List (κ × ν)
  | [] => [(k, v)]
  | e :: rest => if e.1 = k then (k, v) :: rest else e :: put k v rest

def find (k : κ) : List (κ × ν) → Option ν
  | [] => none
  | e :: rest => if e.1 = k then some e.2 else find k rest

theorem find_put (k k' : κ) (v : ν) (es : List (κ × ν)) :
    find k' (put k v es) = if k' = k then some v else find k' es := by
  induction es with
  | nil =>
    by_cases h : k' = k
    · simp [put, find, h]
    · have hne : ¬ k = k' := fun hk => h hk.symm
      simp [put, find, h, hne]
  | cons e rest ih =>
    by_cases he : e.1 = k
    · by_cases h : k' = k
      · simp [put, find, he, h]
      · have hne : ¬ k = k' := fun hk => h hk.symm
        simp [put, find, he, h, hne]
    · by_cases h : e.1 = k'
      · have hne : ¬ k' = k := fun hk => he (h.trans hk)
        simp [put, find, h, hne]
      · simpa [put, find, he, h] using ih

theorem keys_put (k : κ) (v : ν) (es : List (κ × ν)) :
    (put k v es).map Prod.fst =
      if k ∈ es.map Prod.fst then es.map Prod.fst else es.map Prod.fst ++ [k] := by
  induction es with
  | nil => simp [put]
  | cons e rest ih =>
    by_cases he : e.1 = k
    · simp [put, he]
    · have hne : ¬ k = e.1 := fun h => he h.symm
      simp only [put, he, ↓reduceIte, List.map_cons, ih, List.mem_cons, hne, false_or]
      split <;> simp

theorem nodup_put (k : κ) (v : ν) {es : List (κ × ν)} (h : (es.map Prod.fst).Nodup) :
    ((put k v es).map Prod.fst).Nodup := by
  rw [keys_put]
  split
  · exact h
  · rename_i hk
    rw [← List.concat_eq_append]
    exact List.Nodup.concat hk h

theorem mem_iff_find {es : List (κ × ν)} (h : (es.map Prod.fst).Nodup) (k : κ) (v : ν) :
    (k, v) ∈ es ↔ find k es = some v := by
  induction es with
  | nil => simp [find]
  | cons e rest ih =>
    obtain ⟨k₀, v₀⟩ := e
    rw [List.map_cons, List.nodup_cons] at h
    by_cases hk : k₀ = k
    · subst hk
      have hnot : (k₀, v) ∉ rest := fun hm =>
        h.1 (List.mem_map.mpr ⟨(k₀, v), hm, rfl⟩)
      simp [find, hnot, eq_comm]
    · have hne : ¬ k = k₀ := fun he => hk he.symm
      simpa [find, hk, hne] using ih h.2

theorem find_eq_none_iff (k : κ) (es : List (κ × ν)) :
    find k es = none ↔ k ∉ es.map Prod.fst := by
  induction es with
  | nil => simp [find]
  | cons e rest ih =>
    by_cases hk : e.1 = k
    · simp [find, hk]
    · have hne : ¬ k = e.1 := fun he => hk he.symm
      simpa [find, hk, hne] using ih

/-- A dictionary in insertion order. -/
structure Dict (κ : Type u) (ν : Type v) where
  entries : List (κ × ν)
  nodup : (entries.map Prod.fst).Nodup

namespace Dict

def empty : Dict κ ν := ⟨[], List.nodup_nil⟩

def keys (d : Dict κ ν) : List κ := d.entries.map Prod.fst

def values (d : Dict κ ν) : List ν := d.entries.map Prod.snd

def get? (d : Dict κ ν) (k : κ) : Option ν := find k d.entries

def getD (d : Dict κ ν) (k : κ) (dflt : ν) : ν := (d.get? k).getD dflt

def insert (d : Dict κ ν) (k : κ) (v : ν) : Dict κ ν :=
  ⟨put k v d.entries, nodup_put k v d.nodup⟩

/-- A literal or comprehension: later entries overwrite earlier ones. -/
def ofList (es : List (κ × ν)) : Dict κ ν :=
  es.foldl (fun d e => d.insert e.1 e.2) empty

/-- Write one entry after the other. -/
def update (d : Dict κ ν) (es : List (κ × ν)) : Dict κ ν :=
  es.foldl (fun d e => d.insert e.1 e.2) d

/-- The same keys with other values. -/
def mapValues {α : Type*} (f : ν → α) (d : Dict κ ν) : Dict κ α where
  entries := d.entries.map fun e => (e.1, f e.2)
  nodup := by
    rw [List.map_map]
    exact d.nodup

/-- `setdefault(k, []).append(v)` -/
def append {α : Type v} (d : Dict κ (List α)) (k : κ) (a : α) : Dict κ (List α) :=
  d.insert k (d.getD k [] ++ [a])

@[simp] theorem get?_empty (k : κ) : (empty : Dict κ ν).get? k = none := rfl

theorem get?_insert (d : Dict κ ν) (k k' : κ) (v : ν) :
    (d.insert k v).get? k' = if k' = k then some v else d.get? k' :=
  find_put k k' v d.entries

@[simp] theorem get?_insert_self (d : Dict κ ν) (k : κ) (v : ν) :
    (d.insert k v).get? k = some v := by
  rw [get?_insert, if_pos rfl]

/-- What holds of every entry still holds after an entry that meets it. -/
theorem forall_get?_insert {P : κ → ν → Prop} {d : Dict κ ν} {k : κ} {v : ν}
    (h : ∀ k v, d.get? k = some v → P k v) (hv : P k v) :
    ∀ k' v', (d.insert k v).get? k' = some v' → P k' v' := by
  intro k' v' hget
  rw [get?_insert] at hget
  split at hget
  · rename_i hk
    rw [hk, ← Option.some.inj hget]
    exact hv
  · exact h k' v' hget

theorem get?_update_of_not_mem {k : κ} {es : List (κ × ν)} (h : k ∉ es.map Prod.fst)
    (d : Dict κ ν) : (d.update es).get? k = d.get? k := by
  induction es generalizing d with
  | nil => rfl
  | cons e es ih =>
    rw [List.map_cons, List.mem_cons, not_or] at h
    show ((d.insert e.1 e.2).update es).get? k = d.get? k
    rw [ih h.2, get?_insert, if_neg h.1]

theorem get?_mapValues {α : Type*} (f : ν → α) (d : Dict κ ν) (k : κ) :
    (d.mapValues f).get? k = (d.get? k).map f := by
  show find k (d.entries.map fun e => (e.1, f e.2)) = (find k d.entries).map f
  induction d.entries with
  | nil => rfl
  | cons e es ih =>
    rw [List.map_cons, find, find]
    split
    · rfl
    · exact ih

theorem mem_entries_iff (d : Dict κ ν) (k : κ) (v : ν) :
    (k, v) ∈ d.entries ↔ d.get? k = some v :=
  mem_iff_find d.nodup k v

theorem get?_eq_none_iff (d : Dict κ ν) (k : κ) : d.get? k = none ↔ k ∉ d.keys :=
  find_eq_none_iff k d.entries

theorem mem_keys_iff (d : Dict κ ν) (k : κ) : k ∈ d.keys ↔ ∃ v, d.get? k = some v := by
  rw [← Option.isSome_iff_exists, ← not_iff_not, Option.not_isSome_iff_eq_none]
  exact (d.get?_eq_none_iff k).symm

theorem mem_values_iff (d : Dict κ ν) (v : ν) : v ∈ d.values ↔ ∃ k, d.get? k = some v := by
  simp only [values, List.mem_map, Prod.exists, exists_eq_right, mem_entries_iff]

theorem keys_insert (d : Dict κ ν) (k : κ) (v : ν) :
    (d.insert k v).keys = if k ∈ d.keys then d.keys else d.keys ++ [k] :=
  keys_put k v d.entries

theorem mem_keys_insert (d : Dict κ ν) (k k' : κ) (v : ν) :
    k' ∈ (d.insert k v).keys ↔ k' = k ∨ k' ∈ d.keys := by
  rw [keys_insert]
  split
  · rename_i hk
    exact ⟨Or.inr, fun h => h.elim (fun he => he ▸ hk) id⟩
  · simp [or_comm]

theorem ofList_append (es : List (κ × ν)) (e : κ × ν) :
    ofList (es ++ [e]) = (ofList es).insert e.1 e.2 := by
  simp [ofList, List.foldl_append]

/-- Reading a comprehension returns the last entry written for the key. -/
theorem get?_ofList (es : List (κ × ν)) (k : κ) :
    (ofList es).get? k = (es.findRev? fun e => e.1 = k).map Prod.snd := by
  induction es using List.reverseRecOn with
  | nil => rfl
  | append_singleton es e ih =>
    rw [ofList_append, get?_insert, List.findRev?_eq_find?_reverse, List.reverse_append,
      List.reverse_singleton, List.singleton_append, List.find?_cons]
    by_cases h : e.1 = k
    · simp [h]
    · have hne : ¬ k = e.1 := fun he => h he.symm
      simp only [hne, h, ↓reduceIte, decide_false, ih, List.findRev?_eq_find?_reverse]

/-- A comprehension over a list holds the last element with the key. -/
theorem get?_ofList_map {α : Type v} (key : α → κ) (val : α → ν) (xs : List α) (k : κ) :
    (ofList (xs.map fun x => (key x, val x))).get? k =
      (xs.findRev? fun x => key x = k).map val := by
  rw [get?_ofList, List.findRev?_eq_find?_reverse, List.findRev?_eq_find?_reverse,
    ← List.map_reverse, List.find?_map, Option.map_map]
  rfl

/-- What a comprehension holds under a key is the last element that has it. -/
theorem get?_ofList_map_eq_some_iff {α : Type v} {key : α → κ} {val : α → ν} {xs : List α} {k : κ}
    {v : ν} :
    (ofList (xs.map fun x => (key x, val x))).get? k = some v ↔
      ∃ pre x post, xs = pre ++ x :: post ∧ key x = k ∧ val x = v ∧ ∀ y ∈ post, key y ≠ k := by
  rw [get?_ofList_map, List.findRev?_eq_find?_reverse, Option.map_eq_some_iff]
  constructor
  · intro h
    obtain ⟨x, hx, hval⟩ := h
    obtain ⟨hkey, post, pre, hsplit, hnone⟩ := List.find?_eq_some_iff_append.mp hx
    refine ⟨pre.reverse, x, post.reverse, ?_, of_decide_eq_true hkey, hval, ?_⟩
    · rw [← List.reverse_reverse xs, hsplit, List.reverse_append, List.reverse_cons,
        List.append_assoc, List.singleton_append]
    · intro y hy
      simpa using hnone y (List.mem_reverse.mp hy)
  · intro h
    obtain ⟨pre, x, post, rfl, hkey, hval, hnone⟩ := h
    refine ⟨x, List.find?_eq_some_iff_append.mpr ⟨decide_eq_true hkey, post.reverse, pre.reverse,
      ?_, ?_⟩, hval⟩
    · rw [List.reverse_append, List.reverse_cons, List.append_assoc, List.singleton_append]
    · intro y hy
      simpa using hnone y (List.mem_reverse.mp hy)

theorem mem_of_get?_ofList {es : List (κ × ν)} {k : κ} {v : ν}
    (h : (ofList es).get? k = some v) : (k, v) ∈ es := by
  rw [get?_ofList, Option.map_eq_some_iff] at h
  obtain ⟨e, he, rfl⟩ := h
  rw [List.findRev?_eq_find?_reverse] at he
  have hk : e.1 = k := by simpa using List.find?_some he
  exact hk ▸ List.mem_reverse.mp (List.mem_of_find?_eq_some he)

theorem mem_keys_ofList (es : List (κ × ν)) (k : κ) :
    k ∈ (ofList es).keys ↔ k ∈ es.map Prod.fst := by
  induction es using List.reverseRecOn with
  | nil => rfl
  | append_singleton es e ih =>
    rw [ofList_append, mem_keys_insert, ih]
    simp [or_comm]

/-- Collect values by key; groups and their members keep the order of the list. -/
def collect {α : Type*} {β : Type v} (key : α → κ) (val : α → β) (xs : List α) :
    Dict κ (List β) :=
  xs.foldl (fun d x => d.append (key x) (val x)) empty

section Collect

variable {α : Type*} {β : Type v} (key : α → κ) (val : α → β)

theorem collect_append (xs : List α) (x : α) :
    collect key val (xs ++ [x]) = (collect key val xs).append (key x) (val x) := by
  simp [collect, List.foldl_append]

theorem getD_collect (xs : List α) (k : κ) :
    (collect key val xs).getD k [] = (xs.filter fun x => key x = k).map val := by
  induction xs using List.reverseRecOn with
  | nil => rfl
  | append_singleton xs x ih =>
    rw [collect_append, List.filter_append]
    by_cases hk : k = key x
    · subst hk
      simp [getD, append, ← ih]
    · have hne : ¬ key x = k := fun h => hk h.symm
      simp only [getD, append, get?_insert, hk, ↓reduceIte] at ih ⊢
      simp [ih, hne]

theorem mem_keys_collect (xs : List α) (k : κ) :
    k ∈ (collect key val xs).keys ↔ ∃ x ∈ xs, key x = k := by
  induction xs using List.reverseRecOn with
  | nil => simp [collect, empty, keys]
  | append_singleton xs x ih =>
    rw [collect_append, append, mem_keys_insert, ih]
    constructor
    · intro hgiven
      obtain rfl | ⟨y, hy, rfl⟩ := hgiven
      · exact ⟨x, by simp, rfl⟩
      · exact ⟨y, List.mem_append_left _ hy, rfl⟩
    · intro h
      obtain ⟨y, hy, rfl⟩ := h
      rcases List.mem_append.mp hy with hy | hy
      · exact Or.inr ⟨y, hy, rfl⟩
      · exact Or.inl (by rw [List.mem_singleton.mp hy])

/-- The entries of a collection are the nonempty groups. -/
theorem mem_entries_collect (xs : List α) (k : κ) (g : List β) :
    (k, g) ∈ (collect key val xs).entries ↔
      g = (xs.filter fun x => key x = k).map val ∧ ∃ x ∈ xs, key x = k := by
  rw [mem_entries_iff, ← mem_keys_collect key val, mem_keys_iff, ← getD_collect, getD]
  constructor
  · intro h
    simp [h]
  · intro h
    obtain ⟨rfl, v, hv⟩ := h
    simp [hv]

end Collect

/-- Group a list by key; groups and their members keep the order of the list. -/
def groupBy {α : Type v} (key : α → κ) (xs : List α) : Dict κ (List α) :=
  xs.foldl (fun d x => d.append (key x) x) empty

theorem groupBy_eq_collect {α : Type v} (key : α → κ) (xs : List α) :
    groupBy key xs = collect key id xs := rfl

/-- The entries of a grouping are the nonempty groups. -/
theorem mem_entries_groupBy {α : Type v} (key : α → κ) (xs : List α) (k : κ) (g : List α) :
    (k, g) ∈ (groupBy key xs).entries ↔
      g = xs.filter (fun x => key x = k) ∧ ∃ x ∈ xs, key x = k := by
  rw [groupBy_eq_collect, mem_entries_collect, List.map_id]

theorem mapValues_append {α β : Type v} (f : α → β) (d : Dict κ (List α)) (k : κ) (a : α) :
    (d.append k a).mapValues (List.map f) = (d.mapValues (List.map f)).append k (f a) := by
  have hput : ∀ (v : List α) (es : List (κ × List α)),
      (put k v es).map (fun e => (e.1, e.2.map f)) =
        put k (v.map f) (es.map fun e => (e.1, e.2.map f)) := by
    intro v es
    induction es with
    | nil => rfl
    | cons e es ih =>
      simp only [put, List.map_cons]
      split
      · rfl
      · rw [List.map_cons, ih]
  unfold append
  rw [getD, getD, get?_mapValues]
  unfold insert mapValues
  congr 1
  rw [hput, List.map_append]
  cases d.get? k with
  | none => rfl
  | some v => rfl

/-- Grouping what a function makes of a list that the key reads alike. -/
theorem groupBy_map {α β : Type v} (key : β → κ) (f : α → β) (xs : List α) :
    groupBy key (xs.map f) = (groupBy (fun x => key (f x)) xs).mapValues (List.map f) := by
  induction xs using List.reverseRecOn with
  | nil => rfl
  | append_singleton xs x ih =>
    rw [List.map_append, groupBy_eq_collect, List.map_singleton, collect_append, id,
      ← groupBy_eq_collect, ih, groupBy_eq_collect, groupBy_eq_collect, collect_append,
      mapValues_append, id]

/-! ### Writing what is there, and what is not -/

theorem put_of_find {k : κ} {v : ν} {es : List (κ × ν)} (h : find k es = some v) :
    put k v es = es := by
  induction es with
  | nil => cases h
  | cons f es ih =>
    unfold find at h
    unfold put
    split at h
    · rename_i hk
      obtain rfl := Option.some.inj h
      rw [if_pos hk, ← hk]
    · rename_i hk
      rw [if_neg hk, ih h]

theorem put_of_not_mem {k : κ} (v : ν) {es : List (κ × ν)} (h : k ∉ es.map Prod.fst) :
    put k v es = es ++ [(k, v)] := by
  induction es with
  | nil => rfl
  | cons f es ih =>
    rw [List.map_cons, List.mem_cons, not_or] at h
    unfold put
    rw [if_neg fun hf => h.1 hf.symm, ih h.2, List.cons_append]

/-- Writing what is there already changes nothing. -/
theorem insert_of_get? {d : Dict κ ν} {k : κ} {v : ν} (h : d.get? k = some v) :
    d.insert k v = d := by
  obtain ⟨entries, hnodup⟩ := d
  unfold insert
  congr 1
  exact put_of_find h

/-- Distinct keys are listed as they are. -/
theorem entries_ofList {es : List (κ × ν)} (h : (es.map Prod.fst).Nodup) :
    (ofList es).entries = es := by
  induction es using List.reverseRecOn with
  | nil => rfl
  | append_singleton es e ih =>
    rw [List.map_append, List.nodup_append] at h
    have hnew : e.1 ∉ es.map Prod.fst := fun hmem => h.2.2 _ hmem _ (by simp) rfl
    rw [ofList_append]
    show put e.1 e.2 (ofList es).entries = es ++ [e]
    rw [ih h.1, put_of_not_mem e.2 hnew]

theorem ofList_entries (d : Dict κ ν) : ofList d.entries = d := by
  have hentries := entries_ofList d.nodup
  obtain ⟨entries, hnodup⟩ := d
  cases h : ofList entries with
  | mk entries' hnodup' =>
    rw [h] at hentries
    congr 1

end Dict

/-- Keeping at most one result per element, labelled like the element, keeps the
order of the labels. -/
theorem filterMap_map_sublist {α β γ : Type*} {f : α → Option β} {label : β → γ}
    {label' : α → γ} {xs : List α}
    (h : ∀ a ∈ xs, ∀ b, f a = some b → label b = label' a) :
    ((xs.filterMap f).map label).Sublist (xs.map label') := by
  induction xs with
  | nil => exact List.Sublist.slnil
  | cons a xs ih =>
    have ih := ih fun a' ha' => h a' (List.mem_cons_of_mem _ ha')
    cases hf : f a with
    | none =>
      rw [List.filterMap_cons_none hf, List.map_cons]
      exact ih.cons _
    | some b =>
      rw [List.filterMap_cons_some hf, List.map_cons, List.map_cons,
        h a List.mem_cons_self b hf]
      exact ih.cons_cons _

end Lib
