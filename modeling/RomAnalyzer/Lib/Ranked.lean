import RomAnalyzer.Lib.Dict

/-!
# Choosing the best of each group

`maxBy` is the first element of maximal rank. Folding "replace the holder
of the key when the newcomer ranks strictly higher" over a list computes that
choice for every key at once. The last section says, position by position, when
an element with a given property fails to be chosen.
-/
namespace Lib

universe u v w

variable {α : Type u} {κ : Type v} {ρ : Type w} [DecidableEq κ] [LinearOrder ρ]

/-- Python's `max(xs, key=...)`: the first element of maximal rank. -/
def maxBy {α : Type u} {ρ : Type w} [LinearOrder ρ] (rank : α → ρ) (xs : List α) : Option α :=
  xs.argmax rank

/-- A list without repetitions of which only one element is a member. -/
theorem eq_singleton_of_nodup {α : Type*} {xs : List α} {a : α} (hnodup : xs.Nodup)
    (ha : a ∈ xs) (honly : ∀ b ∈ xs, b = a) : xs = [a] := by
  apply List.perm_singleton.mp
  apply (List.perm_ext_iff_of_nodup hnodup (List.nodup_singleton a)).mpr
  intro b
  rw [List.mem_singleton]
  exact ⟨honly b, fun h => h ▸ ha⟩

/-- One newcomer: it takes its key if the key is free or the holder ranks lower. -/
def keepBestStep (key : α → κ) (rank : α → ρ) (best : Dict κ α) (x : α) : Dict κ α :=
  match best.get? (key x) with
  | none => best.insert (key x) x
  | some holder => if rank holder < rank x then best.insert (key x) x else best

def keepBest (key : α → κ) (rank : α → ρ) (xs : List α) : Dict κ α :=
  xs.foldl (keepBestStep key rank) Dict.empty

variable (key : α → κ) (rank : α → ρ)

theorem keepBest_append (xs : List α) (x : α) :
    keepBest key rank (xs ++ [x]) = keepBestStep key rank (keepBest key rank xs) x := by
  simp [keepBest, List.foldl_append]

theorem get?_keepBestStep_of_ne (best : Dict κ α) (x : α) {k : κ} (h : k ≠ key x) :
    (keepBestStep key rank best x).get? k = best.get? k := by
  unfold keepBestStep
  split
  · rw [Dict.get?_insert, if_neg h]
  · split
    · rw [Dict.get?_insert, if_neg h]
    · rfl

/-- The holder of a key is the first element of maximal rank with that key. -/
theorem get?_keepBest (xs : List α) (k : κ) :
    (keepBest key rank xs).get? k = maxBy rank (xs.filter fun x => key x = k) := by
  unfold maxBy
  induction xs using List.reverseRecOn with
  | nil => rfl
  | append_singleton xs x ih =>
    rw [keepBest_append, List.filter_append]
    by_cases hk : k = key x
    · subst hk
      rw [List.filter_singleton, decide_eq_true rfl, Bool.cond_true, List.argmax_concat, ← ih]
      unfold keepBestStep
      cases hb : (keepBest key rank xs).get? (key x) with
      | none => simp
      | some holder =>
        by_cases hlt : rank holder < rank x
        · simp [hlt]
        · simp [hlt, hb]
    · have hne : ¬ key x = k := fun h => hk h.symm
      rw [get?_keepBestStep_of_ne key rank _ x hk, ih, List.filter_singleton]
      simp [hne]

theorem mem_values_keepBest {xs : List α} {x : α} :
    x ∈ (keepBest key rank xs).values ↔
      x ∈ maxBy rank (xs.filter fun y => key y = key x) := by
  rw [Dict.mem_values_iff]
  constructor
  · intro h
    obtain ⟨k, hk⟩ := h
    have hmem := List.argmax_mem ((get?_keepBest key rank xs k).symm.trans hk)
    have hkey : key x = k := by simpa using (List.mem_filter.mp hmem).2
    rw [hkey, Option.mem_def, ← get?_keepBest, hk]
  · intro h
    exact ⟨key x, (get?_keepBest key rank xs (key x)).trans h⟩

theorem mem_of_mem_values_keepBest {xs : List α} {x : α}
    (h : x ∈ (keepBest key rank xs).values) : x ∈ xs :=
  (List.mem_filter.mp (List.argmax_mem ((mem_values_keepBest key rank).mp h))).1

theorem rank_le_of_mem_values_keepBest {xs : List α} {x y : α}
    (hx : x ∈ (keepBest key rank xs).values) (hy : y ∈ xs) (hkey : key y = key x) :
    rank y ≤ rank x := by
  apply List.le_of_mem_argmax _ ((mem_values_keepBest key rank).mp hx)
  exact List.mem_filter.mpr ⟨hy, by simpa using hkey⟩

/-- Every key keeps a representative that outranks all its rivals. -/
theorem exists_mem_values_keepBest {xs : List α} {y : α} (hy : y ∈ xs) :
    ∃ x ∈ (keepBest key rank xs).values, key x = key y ∧ rank y ≤ rank x := by
  have hmem : y ∈ xs.filter fun x => key x = key y :=
    List.mem_filter.mpr ⟨hy, by simp⟩
  have hne : maxBy rank (xs.filter fun x => key x = key y) ≠ none := by
    rw [Ne, maxBy, List.argmax_eq_none]
    exact List.ne_nil_of_mem hmem
  obtain ⟨x, hx⟩ := Option.ne_none_iff_exists'.mp hne
  have hkey : key x = key y := by simpa using (List.mem_filter.mp (List.argmax_mem hx)).2
  refine ⟨x, (mem_values_keepBest key rank).mpr ?_, hkey, List.le_of_mem_argmax hmem hx⟩
  rw [hkey]
  exact hx

theorem map_key_values_keepBest (xs : List α) :
    (keepBest key rank xs).values.map key = (keepBest key rank xs).keys := by
  rw [Dict.values, Dict.keys, List.map_map]
  apply List.map_congr_left
  intro e he
  have hget := (Dict.mem_entries_iff _ e.1 e.2).mp he
  rw [get?_keepBest] at hget
  simpa using (List.mem_filter.mp (List.argmax_mem hget)).2

theorem nodup_map_key_keepBest (xs : List α) :
    ((keepBest key rank xs).values.map key).Nodup := by
  rw [map_key_values_keepBest]
  exact (keepBest key rank xs).nodup

/-- Choosing representatives keeps any other labelling that was injective. -/
theorem nodup_map_keepBest {β : Type*} (label : α → β) {xs : List α}
    (h : (xs.map label).Nodup) : ((keepBest key rank xs).values.map label).Nodup := by
  have hvals : (keepBest key rank xs).values.Nodup :=
    List.Nodup.of_map key (nodup_map_key_keepBest key rank xs)
  apply hvals.map_on
  intro x hx y hy hxy
  exact List.inj_on_of_nodup_map h (mem_of_mem_values_keepBest key rank hx)
    (mem_of_mem_values_keepBest key rank hy) hxy

theorem mem_keys_keepBest {xs : List α} {k : κ} :
    k ∈ (keepBest key rank xs).keys ↔ k ∈ xs.map key := by
  rw [← map_key_values_keepBest]
  constructor
  · intro h
    obtain ⟨x, hx, rfl⟩ := List.mem_map.mp h
    exact List.mem_map_of_mem (mem_of_mem_values_keepBest key rank hx)
  · intro h
    obtain ⟨y, hy, rfl⟩ := List.mem_map.mp h
    obtain ⟨x, hx, hkey, _⟩ := exists_mem_values_keepBest key rank hy
    exact hkey ▸ List.mem_map_of_mem hx

/-- A newcomer brings its key to the end, or the keys stay as they are. -/
theorem keys_keepBest_append (xs : List α) (x : α) :
    (keepBest key rank (xs ++ [x])).keys =
      if key x ∈ xs.map key then (keepBest key rank xs).keys
      else (keepBest key rank xs).keys ++ [key x] := by
  simp only [← mem_keys_keepBest key rank]
  rw [keepBest_append, keepBestStep]
  cases hget : (keepBest key rank xs).get? (key x) with
  | none => exact Dict.keys_insert _ _ _
  | some holder =>
    have hmem : key x ∈ (keepBest key rank xs).keys :=
      (Dict.mem_keys_iff _ _).mpr ⟨holder, hget⟩
    rw [if_pos hmem]
    dsimp only
    split
    · rw [Dict.keys_insert, if_pos hmem]
    · rfl

/-- The keys stand in the order in which they first occur. -/
theorem idxOf_keys_keepBest_lt_iff {xs : List α} {k k' : κ} (hk : k ∈ xs.map key)
    (hk' : k' ∈ xs.map key) :
    (keepBest key rank xs).keys.idxOf k < (keepBest key rank xs).keys.idxOf k' ↔
      (xs.map key).idxOf k < (xs.map key).idxOf k' := by
  induction xs using List.reverseRecOn generalizing k k' with
  | nil => cases hk
  | append_singleton xs x ih =>
    have hold : ∀ {k}, k ∈ xs.map key →
        (keepBest key rank (xs ++ [x])).keys.idxOf k = (keepBest key rank xs).keys.idxOf k ∧
          ((xs ++ [x]).map key).idxOf k = (xs.map key).idxOf k := by
      intro k h
      have hkeys := (mem_keys_keepBest key rank).mpr h
      rw [keys_keepBest_append, List.map_append]
      refine ⟨?_, List.idxOf_append_of_mem h⟩
      split
      · rfl
      · exact List.idxOf_append_of_mem hkeys
    have hnew : ∀ {k}, k ∉ xs.map key → k = key x →
        (keepBest key rank (xs ++ [x])).keys.idxOf k = (keepBest key rank xs).keys.length ∧
          ((xs ++ [x]).map key).idxOf k = (xs.map key).length := by
      intro k h hx
      have hkeys : k ∉ (keepBest key rank xs).keys :=
        fun hm => h ((mem_keys_keepBest key rank).mp hm)
      rw [keys_keepBest_append, if_neg (hx ▸ h), List.map_append,
        List.idxOf_append_of_notMem hkeys, List.idxOf_append_of_notMem h]
      simp [hx]
    have hlt : ∀ {k}, k ∈ xs.map key →
        (keepBest key rank xs).keys.idxOf k < (keepBest key rank xs).keys.length ∧
          (xs.map key).idxOf k < (xs.map key).length := fun h =>
      ⟨List.idxOf_lt_length_of_mem ((mem_keys_keepBest key rank).mpr h),
        List.idxOf_lt_length_of_mem h⟩
    have hlast : ∀ {k}, k ∈ (xs ++ [x]).map key → k ∉ xs.map key → k = key x := by
      intro k h hn
      rw [List.map_append, List.mem_append] at h
      simpa using h.resolve_left hn
    by_cases h : k ∈ xs.map key
    · by_cases h' : k' ∈ xs.map key
      · rw [(hold h).1, (hold h).2, (hold h').1, (hold h').2]
        exact ih h h'
      · obtain ⟨hn, hm⟩ := hnew h' (hlast hk' h')
        rw [(hold h).1, (hold h).2, hn, hm]
        exact iff_of_true (hlt h).1 (hlt h).2
    · obtain ⟨hn, hm⟩ := hnew h (hlast hk h)
      rw [hn, hm]
      by_cases h' : k' ∈ xs.map key
      · rw [(hold h').1, (hold h').2]
        exact iff_of_false (hlt h').1.not_gt (hlt h').2.not_gt
      · obtain ⟨hn', hm'⟩ := hnew h' (hlast hk' h')
        rw [hn', hm']
        exact iff_of_false (lt_irrefl _) (lt_irrefl _)

/-! ### One best element per key -/

section Settles

variable {α : Type u} {κ : Type v} {ρ : Type w} [LinearOrder ρ]

/-- `ys` settles `xs`: for every key of `xs` it holds exactly one element, of
maximal rank among those with the key. -/
structure Settles (key : α → κ) (rank : α → ρ) (xs ys : List α) : Prop where
  nodup : (ys.map key).Nodup
  keys : ∀ k, k ∈ ys.map key ↔ k ∈ xs.map key
  mem : ∀ y ∈ ys, y ∈ xs
  maximal : ∀ y ∈ ys, ∀ x ∈ xs, key x = key y → rank x ≤ rank y

theorem settles_keepBest [DecidableEq κ] (key : α → κ) (rank : α → ρ) (xs : List α) :
    Settles key rank xs (keepBest key rank xs).values where
  nodup := nodup_map_key_keepBest key rank xs
  keys := by
    intro k
    rw [map_key_values_keepBest]
    exact mem_keys_keepBest key rank
  mem := fun _ hy => mem_of_mem_values_keepBest key rank hy
  maximal := fun _ hy _ hx hkey => rank_le_of_mem_values_keepBest key rank hy hx hkey

/-- Where no key occurs twice there is nothing to choose. -/
theorem Settles.perm_of_nodup {key : α → κ} {rank : α → ρ} {xs ys : List α}
    (h : Settles key rank xs ys) (hkeys : (xs.map key).Nodup) : ys.Perm xs := by
  refine (List.perm_ext_iff_of_nodup (List.Nodup.of_map key h.nodup)
    (List.Nodup.of_map key hkeys)).mpr fun x => ⟨h.mem x, fun hx => ?_⟩
  obtain ⟨y, hy, hkey⟩ := List.mem_map.mp ((h.keys _).mpr (List.mem_map_of_mem hx))
  obtain rfl := List.inj_on_of_nodup_map hkeys (h.mem y hy) hx hkey
  exact hy

/-- Two choices from `xs` agree on what does not depend on the order of `xs`: the
keys, the ranks that win them, and the winners that no other element ties with. -/
structure SameVerdicts (key : α → κ) (rank : α → ρ) (xs ys ys' : List α) : Prop where
  keys : ∀ k, k ∈ ys'.map key ↔ k ∈ ys.map key
  ranks : ∀ y ∈ ys, ∀ y' ∈ ys', key y' = key y → rank y' = rank y
  winners : ∀ y ∈ ys, (∀ x ∈ xs, key x = key y → rank x = rank y → x = y) → y ∈ ys'

theorem Settles.sameVerdicts_of_perm {key : α → κ} {rank : α → ρ} {xs xs' ys ys' : List α}
    (h : Settles key rank xs ys) (h' : Settles key rank xs' ys') (hperm : xs'.Perm xs) :
    SameVerdicts key rank xs ys ys' := by
  have hkeys : ∀ k, k ∈ ys'.map key ↔ k ∈ ys.map key := by
    intro k
    rw [h.keys, h'.keys]
    exact (hperm.map key).mem_iff
  have hranks : ∀ y ∈ ys, ∀ y' ∈ ys', key y' = key y → rank y' = rank y := by
    intro y hy y' hy' hkey
    apply le_antisymm
    · exact h.maximal y hy y' (hperm.mem_iff.mp (h'.mem y' hy')) hkey
    · exact h'.maximal y' hy' y (hperm.mem_iff.mpr (h.mem y hy)) hkey.symm
  refine ⟨hkeys, hranks, ?_⟩
  intro y hy honce
  obtain ⟨y', hy', hkey⟩ := List.mem_map.mp ((hkeys _).mpr (List.mem_map_of_mem hy))
  have heq : y' = y :=
    honce y' (hperm.mem_iff.mp (h'.mem y' hy')) hkey (hranks y hy y' hy' hkey)
  rw [← heq]
  exact hy'

end Settles

/-! ### Losing the choice -/

section Outbid

variable {α : Type u} {ρ : Type w} [DecidableEq α] [LinearOrder ρ]

/-- `u` comes before `v` in the order of choice of `xs`: it ranks higher, or it
ranks equal and stands earlier. -/
def Beats (rank : α → ρ) (xs : List α) (u v : α) : Prop :=
  rank v < rank u ∨ rank v = rank u ∧ xs.idxOf u < xs.idxOf v

instance (rank : α → ρ) (xs : List α) (u v : α) : Decidable (Beats rank xs u v) :=
  inferInstanceAs (Decidable (_ ∨ _))

/-- Some element without the property beats every element that has it. -/
def Outbid (rank : α → ρ) (xs : List α) (Q : α → Prop) : Prop :=
  ∃ u ∈ xs, ¬ Q u ∧ ∀ v ∈ xs, Q v → Beats rank xs u v

variable {rank : α → ρ} {xs : List α} {w : α}

theorem not_beats_of_mem_argmax (hw : w ∈ maxBy rank xs) {u : α} (hu : u ∈ xs) :
    ¬ Beats rank xs u w := by
  intro h
  obtain hlt | ⟨heq, hidx⟩ := h
  · exact (List.le_of_mem_argmax hu hw).not_gt hlt
  · exact (List.index_of_argmax hw hu heq.le).not_gt hidx

omit [DecidableEq α] in
/-- What is strictly above all others is the maximum. -/
theorem maxBy_eq_some_of_strict (hw : w ∈ xs) (hbest : ∀ u ∈ xs, u ≠ w → rank u < rank w) :
    maxBy rank xs = some w := by
  cases hmax : maxBy rank xs with
  | none =>
    rw [maxBy, List.argmax_eq_none] at hmax
    rw [hmax] at hw
    cases hw
  | some u =>
    by_contra hne
    have huw : u ≠ w := fun h => hne (congrArg some h)
    have hlt := hbest u (List.argmax_mem hmax) huw
    exact absurd (List.le_of_mem_argmax hw hmax) (not_le.mpr hlt)

theorem beats_of_mem_argmax (hw : w ∈ maxBy rank xs) {v : α} (hv : v ∈ xs) (hne : v ≠ w) :
    Beats rank xs w v := by
  rcases (List.le_of_mem_argmax hv hw).lt_or_eq with hlt | heq
  · exact Or.inl hlt
  · have hle := List.index_of_argmax hw hv heq.ge
    have hidx : xs.idxOf w ≠ xs.idxOf v := fun h =>
      hne ((List.idxOf_inj hv).mp h.symm)
    exact Or.inr ⟨heq, lt_of_le_of_ne hle hidx⟩

/-- The chosen element lacks `Q` exactly when the elements with `Q` are outbid. -/
theorem not_of_mem_argmax_iff (hw : w ∈ maxBy rank xs) (Q : α → Prop) :
    ¬ Q w ↔ Outbid rank xs Q := by
  constructor
  · intro hQ
    refine ⟨w, List.argmax_mem hw, hQ, fun v hv hQv => ?_⟩
    exact beats_of_mem_argmax hw hv fun h => hQ (h ▸ hQv)
  · intro h hQ
    obtain ⟨u, hu, _, hall⟩ := h
    exact not_beats_of_mem_argmax hw hu (hall w (List.argmax_mem hw) hQ)

/-- Leaving other elements out does not change which of two comes first. -/
theorem idxOf_filter_lt_iff {p : α → Bool} {u v : α} (hpu : p u) (hpv : p v) :
    (xs.filter p).idxOf u < (xs.filter p).idxOf v ↔ xs.idxOf u < xs.idxOf v := by
  induction xs with
  | nil => rfl
  | cons a xs ih =>
    by_cases hau : a = u
    · subst hau
      by_cases hav : a = v
      · simp [hav]
      · simp [hpu, hav]
    · by_cases hav : a = v
      · subst hav
        simp [hpv, hau]
      · by_cases hpa : p a
        · simp [hpa, hau, hav, ih, List.idxOf_cons_ne]
        · simp [hpa, hau, hav, ih, List.idxOf_cons_ne]

theorem beats_filter_iff {p : α → Bool} {u v : α} (hpu : p u) (hpv : p v) :
    Beats rank (xs.filter p) u v ↔ Beats rank xs u v := by
  unfold Beats
  rw [idxOf_filter_lt_iff hpu hpv]

/-- No element with the key of `x` beats `x`. -/
def Unbeaten (key : α → κ) (rank : α → ρ) (xs : List α) (x : α) : Prop :=
  x ∈ xs ∧ ∀ u ∈ xs, key u = key x → ¬ Beats rank xs u x

instance (key : α → κ) (rank : α → ρ) (xs : List α) (x : α) :
    Decidable (Unbeaten key rank xs x) :=
  inferInstanceAs (Decidable (_ ∧ _))

/-- The fold keeps exactly the unbeaten elements. -/
theorem mem_values_keepBest_iff_unbeaten (key : α → κ) {x : α} :
    x ∈ (keepBest key rank xs).values ↔ Unbeaten key rank xs x := by
  constructor
  · intro h
    refine ⟨mem_of_mem_values_keepBest key rank h, ?_⟩
    intro u hu hkey hbeats
    apply not_beats_of_mem_argmax ((mem_values_keepBest key rank).mp h)
      (List.mem_filter.mpr ⟨hu, by simpa using hkey⟩)
    exact (beats_filter_iff (by simpa using hkey) (by simp)).mpr hbeats
  · intro h
    obtain ⟨hx, hall⟩ := h
    obtain ⟨w, hw, hkey, _⟩ := exists_mem_values_keepBest key rank hx
    by_cases hxw : x = w
    · rw [hxw]
      exact hw
    · have hbeats : Beats rank (xs.filter fun y => key y = key w) w x :=
        beats_of_mem_argmax ((mem_values_keepBest key rank).mp hw)
          (List.mem_filter.mpr ⟨hx, by simpa using hkey.symm⟩) hxw
      have hwx : Beats rank xs w x :=
        (beats_filter_iff (by simp) (by simpa using hkey.symm)).mp hbeats
      exact absurd hwx (hall w (mem_of_mem_values_keepBest key rank hw) hkey)

theorem idxOf_map_of_nodup (key : α → κ) (h : (xs.map key).Nodup) {x : α} (hx : x ∈ xs) :
    (xs.map key).idxOf (key x) = xs.idxOf x := by
  have hlt : xs.idxOf x < xs.length := List.idxOf_lt_length_of_mem hx
  have hlt' : xs.idxOf x < (xs.map key).length := by simpa using hlt
  have hget : (xs.map key)[xs.idxOf x] = key x := by
    rw [List.getElem_map, List.getElem_idxOf hlt]
  rw [← hget]
  exact h.idxOf_getElem _ _

/-- Among the kept elements the one whose key was met first comes first. -/
theorem beats_values_keepBest_iff (key : α → κ) {u v : α}
    (hu : u ∈ (keepBest key rank xs).values) (hv : v ∈ (keepBest key rank xs).values) :
    Beats rank (keepBest key rank xs).values u v ↔
      rank v < rank u ∨
        rank v = rank u ∧ (xs.map key).idxOf (key u) < (xs.map key).idxOf (key v) := by
  have hnodup := nodup_map_key_keepBest key rank xs
  have hmem : ∀ {w}, w ∈ (keepBest key rank xs).values → key w ∈ xs.map key := fun hw =>
    List.mem_map_of_mem (mem_of_mem_values_keepBest key rank hw)
  unfold Beats
  rw [← idxOf_map_of_nodup key hnodup hu, ← idxOf_map_of_nodup key hnodup hv,
    map_key_values_keepBest, idxOf_keys_keepBest_lt_iff key rank (hmem hu) (hmem hv)]

omit [DecidableEq κ] in
/-- Elements with other keys do not matter. -/
theorem unbeaten_append_iff (key : α → κ) {extra : List α} {x : α}
    (hextra : ∀ e ∈ extra, key e ∉ xs.map key) (hx : key x ∈ xs.map key) :
    Unbeaten key rank (xs ++ extra) x ↔ Unbeaten key rank xs x := by
  have hmem : ∀ {u}, key u = key x → u ∈ xs ++ extra → u ∈ xs := by
    intro u hkey hu
    rcases List.mem_append.mp hu with hu | hu
    · exact hu
    · exact absurd (hkey ▸ hx) (hextra u hu)
  have hbeats : ∀ {u}, u ∈ xs → x ∈ xs →
      (Beats rank (xs ++ extra) u x ↔ Beats rank xs u x) := by
    intro u hu hx
    unfold Beats
    rw [List.idxOf_append_of_mem hu, List.idxOf_append_of_mem hx]
  constructor
  · intro h
    obtain ⟨hin, hall⟩ := h
    have hxs := hmem rfl hin
    exact ⟨hxs, fun u hu hkey hb =>
      hall u (List.mem_append_left _ hu) hkey ((hbeats hu hxs).mpr hb)⟩
  · intro h
    obtain ⟨hxs, hall⟩ := h
    exact ⟨List.mem_append_left _ hxs, fun u hu hkey hb =>
      hall u (hmem hkey hu) hkey ((hbeats (hmem hkey hu) hxs).mp hb)⟩

end Outbid

/-! ### Sorting by a key -/

section SortBy

variable {α : Type u} {ρ : Type w} [LinearOrder ρ]

/-- Python's `sorted(xs, key=...)`: ascending and stable. -/
def sortBy (key : α → ρ) (xs : List α) : List α :=
  xs.insertionSort fun a b => key a ≤ key b

@[simp] theorem mem_sortBy {key : α → ρ} {xs : List α} {x : α} : x ∈ sortBy key xs ↔ x ∈ xs :=
  List.mem_insertionSort _

theorem sortBy_perm (key : α → ρ) (xs : List α) : (sortBy key xs).Perm xs :=
  List.perm_insertionSort _ xs

theorem sortBy_eq_nil_iff {key : α → ρ} {xs : List α} : sortBy key xs = [] ↔ xs = [] := by
  rw [← List.length_eq_zero_iff, (sortBy_perm key xs).length_eq, List.length_eq_zero_iff]

theorem sortBy_pairwise (key : α → ρ) (xs : List α) :
    (sortBy key xs).Pairwise fun a b => key a ≤ key b := by
  have htotal : Std.Total fun a b : α => key a ≤ key b := ⟨fun a b => le_total (key a) (key b)⟩
  have htrans : IsTrans α fun a b : α => key a ≤ key b :=
    ⟨fun _ _ _ hab hbc => le_trans hab hbc⟩
  exact List.pairwise_insertionSort _ xs

theorem sortBy_map_pairwise (key : α → ρ) (xs : List α) :
    ((sortBy key xs).map key).Pairwise (· ≤ ·) :=
  List.pairwise_map.mpr (sortBy_pairwise key xs)

theorem sortBy_sortBy (key : α → ρ) (xs : List α) : sortBy key (sortBy key xs) = sortBy key xs :=
  (sortBy_pairwise key xs).insertionSort_eq

/-- `ys` is `xs` in ascending order of the key, elements of one key as they were. -/
structure StableSort (key : α → ρ) (xs ys : List α) : Prop where
  perm : ys.Perm xs
  ordered : ys.Pairwise fun a b => key a ≤ key b
  stable : ∀ k, (ys.filter fun a => key a = k) = xs.filter fun a => key a = k

/-- What is taken out of a sorted list was sorted by itself. -/
theorem StableSort.filter {key : α → ρ} {xs ys : List α} (h : StableSort key xs ys)
    (p : α → Bool) : StableSort key (xs.filter p) (ys.filter p) where
  perm := h.perm.filter p
  ordered := h.ordered.filter p
  stable := by
    intro k
    rw [List.filter_filter, List.filter_filter]
    simp only [Bool.and_comm (decide _)]
    rw [← List.filter_filter, ← List.filter_filter, h.stable]

theorem filter_orderedInsert (key : α → ρ) (k : ρ) (x : α) (xs : List α) :
    ((xs.orderedInsert (fun a b => key a ≤ key b) x).filter fun a => key a = k) =
      (x :: xs).filter fun a => key a = k := by
  induction xs with
  | nil => rfl
  | cons y xs ih =>
    rw [List.orderedInsert_cons]
    split
    · rfl
    · rename_i hlt
      rw [List.filter_cons, ih, List.filter_cons, List.filter_cons, List.filter_cons]
      by_cases hx : key x = k
      · have hy : ¬ key y = k := fun hy => hlt (hx.trans hy.symm).le
        simp [hx, hy]
      · simp [hx]

theorem stableSort_sortBy (key : α → ρ) (xs : List α) : StableSort key xs (sortBy key xs) where
  perm := sortBy_perm key xs
  ordered := sortBy_pairwise key xs
  stable := by
    intro k
    induction xs with
    | nil => rfl
    | cons x xs ih =>
      show ((List.orderedInsert (fun a b => key a ≤ key b) x (sortBy key xs)).filter _) = _
      rw [filter_orderedInsert, List.filter_cons, ih, List.filter_cons]

end SortBy

end Lib
