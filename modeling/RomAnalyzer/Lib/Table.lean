import RomAnalyzer.Lib.Dict

/-!
# Tables indexed once and written many times

A table is a list of records with a key that never changes and a label that can
be replaced. The index from keys to positions is taken before the first write and
never brought up to date: a write at an indexed key relabels in place, any other
write adds its record, if it brings one, also when an earlier write added one there.
-/
namespace Lib

universe u v w

/-- Access to the key and the label of a record; the label is a lens. -/
structure Labelled (κ : Type u) (ν : Type v) (ρ : Type w) where
  key : ρ → κ
  label : ρ → ν
  relabel : ν → ρ → ρ
  key_relabel : ∀ v r, key (relabel v r) = key r
  label_relabel : ∀ v r, label (relabel v r) = v
  relabel_label : ∀ r, relabel (label r) r = r
  relabel_relabel : ∀ v v' r, relabel v (relabel v' r) = relabel v r

attribute [simp] Labelled.key_relabel Labelled.label_relabel Labelled.relabel_label
  Labelled.relabel_relabel

namespace Labelled

variable {κ : Type u} {ν : Type v} {ρ : Type w} [DecidableEq κ]

/-- Put `label` at `key`; `fresh` is the record to add where the key is not indexed. -/
structure Write (L : Labelled κ ν ρ) where
  key : κ
  label : ν
  fresh : Option ρ
  key_fresh : ∀ r ∈ fresh, L.key r = key
  label_fresh : ∀ r ∈ fresh, L.label r = label

/-- The position of every key; of several records with one key, the last. -/
def positions (L : Labelled κ ν ρ) (rs : List ρ) : Dict κ Nat :=
  Dict.ofList (rs.zipIdx.map fun e => (L.key e.1, e.2))

/-- One write, with the number of records it changed. -/
def upsert [DecidableEq ν] (L : Labelled κ ν ρ) (index : Dict κ Nat) (rs : List ρ) (w : L.Write) :
    List ρ × Nat :=
  match index.get? w.key with
  | some i =>
    match rs[i]? with
    | some r => if L.label r ≠ w.label then (rs.set i (L.relabel w.label r), 1) else (rs, 0)
    | none => (rs, 0)
  | none =>
    match w.fresh with
    | some r => (rs ++ [r], 1)
    | none => (rs, 0)

/-- Writes one after the other, with one index for all of them. -/
def writeAll [DecidableEq ν] (L : Labelled κ ν ρ) (index : Dict κ Nat) (rs : List ρ)
    (ws : List L.Write) : List ρ :=
  ws.foldl (fun rs w => (L.upsert index rs w).1) rs

def run [DecidableEq ν] (L : Labelled κ ν ρ) (rs : List ρ) (ws : List L.Write) : List ρ :=
  L.writeAll (L.positions rs) rs ws

/-- The labels at a key, in the order of the table. -/
def labelsAt (L : Labelled κ ν ρ) (rs : List ρ) (k : κ) : List ν :=
  (rs.filter fun r => L.key r = k).map L.label

/-- The label last written at a key. -/
def lastLabel {L : Labelled κ ν ρ} (ws : List L.Write) (k : κ) : Option ν :=
  ((ws.filter fun w => w.key = k).map Write.label).getLast?

/-- The records that writes at a key bring. -/
def freshAt {L : Labelled κ ν ρ} (ws : List L.Write) (k : κ) : List ρ :=
  (ws.filter fun w => w.key = k).filterMap Write.fresh

theorem lastLabel_append {L : Labelled κ ν ρ} (ws : List L.Write) (w : L.Write) (k : κ) :
    lastLabel (ws ++ [w]) k = if w.key = k then some w.label else lastLabel ws k := by
  unfold lastLabel
  rw [List.filter_append, List.map_append]
  by_cases hk : w.key = k
  · simp [hk]
  · simp [hk]

/-! ### One write -/

section Step

variable {L : Labelled κ ν ρ} {rs : List ρ}

theorem get?_positions_eq_none_iff (k : κ) :
    (L.positions rs).get? k = none ↔ k ∉ rs.map L.key := by
  rw [Dict.get?_eq_none_iff, positions, Dict.mem_keys_ofList, List.map_map, not_iff_not,
    List.mem_map, List.mem_map]
  constructor
  · intro h
    obtain ⟨e, he, hk⟩ := h
    exact ⟨e.1, List.mem_of_getElem? (List.mem_zipIdx_iff_getElem?.mp he), hk⟩
  · intro h
    obtain ⟨r, hr, hk⟩ := h
    obtain ⟨i, hi⟩ := List.getElem?_of_mem hr
    exact ⟨(r, i), List.mem_zipIdx_iff_getElem?.mpr hi, hk⟩

theorem getElem?_of_positions {k : κ} {i : Nat} (h : (L.positions rs).get? k = some i) :
    ∃ r, rs[i]? = some r ∧ L.key r = k := by
  obtain ⟨e, he, heq⟩ := List.mem_map.mp (Dict.mem_of_get?_ofList h)
  rw [Prod.mk.injEq] at heq
  obtain ⟨hk, rfl⟩ := heq
  exact ⟨e.1, List.mem_zipIdx_iff_getElem?.mp he, hk⟩

/-- The position of a key is that of the last record with it. -/
theorem not_mem_drop_of_positions {k : κ} {i : Nat} (h : (L.positions rs).get? k = some i) :
    k ∉ (rs.drop (i + 1)).map L.key := by
  induction rs using List.reverseRecOn with
  | nil => cases h
  | append_singleton rs r ih =>
    have happend : L.positions (rs ++ [r]) = (L.positions rs).insert (L.key r) rs.length := by
      simp [positions, List.zipIdx_append, Dict.ofList_append]
    rw [happend, Dict.get?_insert] at h
    by_cases hk : k = L.key r
    · rw [if_pos hk, Option.some.injEq] at h
      subst h
      rw [List.drop_of_length_le (by rw [List.length_append]; exact Nat.le_refl _)]
      exact List.not_mem_nil
    · rw [if_neg hk] at h
      obtain ⟨r', hr', _⟩ := getElem?_of_positions h
      obtain ⟨hlt, _⟩ := List.getElem?_eq_some_iff.mp hr'
      rw [List.drop_append_of_le_length hlt, List.map_append, List.mem_append]
      intro hgiven
      obtain hmem | hmem := hgiven
      · exact ih h hmem
      · rw [List.map_singleton, List.mem_singleton] at hmem
        exact hk hmem

/-- A write at an indexed key relabels the record at its position. -/
theorem upsert_indexed [DecidableEq ν] {index : Dict κ Nat} {w : L.Write} {i : Nat} {r : ρ}
    (hi : index.get? w.key = some i) (hr : rs[i]? = some r) :
    (L.upsert index rs w).1 = rs.set i (L.relabel w.label r) := by
  rw [upsert, hi]
  simp only [hr]
  split
  · rfl
  · rename_i hsame
    rw [not_not] at hsame
    obtain ⟨hlt, hget⟩ := List.getElem?_eq_some_iff.mp hr
    rw [← hsame, L.relabel_label, ← hget, List.set_getElem_self]

/-- Any other write adds the record that it brings. -/
theorem upsert_unindexed [DecidableEq ν] {index : Dict κ Nat} {w : L.Write}
    (hi : index.get? w.key = none) : (L.upsert index rs w).1 = rs ++ w.fresh.toList := by
  rw [upsert, hi]
  cases hf : w.fresh with
  | none => simp
  | some r => simp

/-- A write that changes no record leaves the table as it is. -/
theorem upsert_of_count_eq_zero [DecidableEq ν] {index : Dict κ Nat} {w : L.Write}
    (h : (L.upsert index rs w).2 = 0) : (L.upsert index rs w).1 = rs := by
  cases hi : index.get? w.key with
  | some i =>
    cases hr : rs[i]? with
    | some r =>
      by_cases hne : L.label r ≠ w.label
      · simp [upsert, hi, hr, hne] at h
      · simp [upsert, hi, hr, hne]
    | none => simp [upsert, hi, hr]
  | none =>
    cases hf : w.fresh with
    | some r => simp [upsert, hi, hf] at h
    | none => simp [upsert, hi, hf]

end Step

/-! ### A whole run -/

section Run

variable {L : Labelled κ ν ρ}

/-- A record of the original table after the writes. -/
def settled (ws : List L.Write) (r : ρ) : ρ :=
  L.relabel ((lastLabel ws (L.key r)).getD (L.label r)) r

/-- The records that the writes at unindexed keys bring. -/
def added (rs : List ρ) (ws : List L.Write) : List ρ :=
  (ws.filter fun w => w.key ∉ rs.map L.key).filterMap Write.fresh

@[simp] theorem key_settled (ws : List L.Write) (r : ρ) : L.key (settled ws r) = L.key r :=
  L.key_relabel _ r

theorem settled_append_of_ne (ws : List L.Write) {w : L.Write} {r : ρ}
    (h : L.key r ≠ w.key) : settled (ws ++ [w]) r = settled ws r := by
  rw [settled, lastLabel_append, if_neg fun he => h he.symm, settled]

theorem settled_append_self (ws : List L.Write) {w : L.Write} {r : ρ}
    (h : L.key r = w.key) :
    settled (ws ++ [w]) r = L.relabel w.label (settled ws r) := by
  rw [settled, lastLabel_append, if_pos h.symm, Option.getD_some, settled,
    L.relabel_relabel]

/-- The original table after the writes: of several records with one key, the index
leads to the last, and the others stay. -/
def settleLast (ws : List L.Write) : List ρ → List ρ
  | [] => []
  | r :: rs => (if L.key r ∈ rs.map L.key then r else settled ws r) :: settleLast ws rs

theorem getElem?_settleLast (ws : List L.Write) (rs : List ρ) (j : Nat) :
    (settleLast ws rs)[j]? =
      rs[j]?.map fun r => if L.key r ∈ (rs.drop (j + 1)).map L.key then r else settled ws r := by
  induction rs generalizing j with
  | nil => simp [settleLast]
  | cons r rs ih =>
    cases j with
    | zero => simp [settleLast]
    | succ j => simpa [settleLast] using ih j

theorem settleLast_of_nodup {rs : List ρ} (hnd : (rs.map L.key).Nodup) (ws : List L.Write) :
    settleLast ws rs = rs.map (settled ws) := by
  induction rs with
  | nil => rfl
  | cons r rs ih =>
    rw [List.map_cons, List.nodup_cons] at hnd
    rw [settleLast, if_neg hnd.1, ih hnd.2, List.map_cons]

/-- Relabelling the last record with the key of the newest write. -/
theorem set_settleLast {rs : List ρ} (ws : List L.Write) {w : L.Write} {i : Nat} {r : ρ}
    (hi : (L.positions rs).get? w.key = some i) (hr : rs[i]? = some r) (hk : L.key r = w.key) :
    (settleLast ws rs).set i (L.relabel w.label (settled ws r)) = settleLast (ws ++ [w]) rs := by
  have hlast := not_mem_drop_of_positions hi
  obtain ⟨hlt, _⟩ := List.getElem?_eq_some_iff.mp hr
  refine List.ext_getElem? fun j => ?_
  rw [List.getElem?_set, getElem?_settleLast, getElem?_settleLast]
  by_cases hij : i = j
  · subst hij
    have hlen : i < (settleLast ws rs).length := by
      have hsome : (settleLast ws rs)[i]? ≠ none := by
        rw [getElem?_settleLast, hr]
        exact Option.some_ne_none _
      rw [Ne, List.getElem?_eq_none_iff] at hsome
      omega
    rw [if_pos rfl, if_pos hlen, hr, Option.map_some, if_neg (hk ▸ hlast),
      settled_append_self ws hk]
  · rw [if_neg hij]
    cases hj : rs[j]? with
    | none => rfl
    | some r' =>
      rw [Option.map_some, Option.map_some]
      by_cases hk' : L.key r' = w.key
      · -- a record with the same key elsewhere stands in front of the last one
        obtain ⟨hjlt, hjr⟩ := List.getElem?_eq_some_iff.mp hj
        have hbefore : j < i := by
          rcases Nat.lt_or_ge j i with h | h
          · exact h
          · apply absurd (List.mem_map.mpr ⟨r', ?_, hk'⟩) hlast
            have hget : (rs.drop (i + 1))[j - (i + 1)]? = some r' := by
              rw [List.getElem?_drop, ← hj]
              congr 1
              omega
            exact List.mem_of_getElem? hget
        have hmem : L.key r' ∈ (rs.drop (j + 1)).map L.key := by
          refine List.mem_map.mpr ⟨r, ?_, hk.trans hk'.symm⟩
          have hget : (rs.drop (j + 1))[i - (j + 1)]? = some r := by
            rw [List.getElem?_drop, ← hr]
            congr 1
            omega
          exact List.mem_of_getElem? hget
        rw [if_pos hmem, if_pos hmem]
      · rw [settled_append_of_ne ws hk']

theorem added_append_of_mem {rs : List ρ} (ws : List L.Write) {w : L.Write}
    (h : w.key ∈ rs.map L.key) : added rs (ws ++ [w]) = added rs ws := by
  unfold added
  rw [List.filter_append, List.filter_singleton]
  simp [h]

theorem added_append_of_not_mem {rs : List ρ} (ws : List L.Write) {w : L.Write}
    (h : w.key ∉ rs.map L.key) : added rs (ws ++ [w]) = added rs ws ++ w.fresh.toList := by
  unfold added
  rw [List.filter_append, List.filterMap_append, List.filter_singleton]
  cases hf : w.fresh <;> simp [h, hf]

/-- A run relabels records of the original table in place and adds the rest behind
them, one for each write at an unindexed key that brings a record. -/
theorem run_eq_settleLast [DecidableEq ν] (rs : List ρ) (ws : List L.Write) :
    L.run rs ws = settleLast ws rs ++ added rs ws := by
  induction ws using List.reverseRecOn with
  | nil =>
    have hid : settleLast ([] : List L.Write) rs = rs := by
      induction rs with
      | nil => rfl
      | cons r rs ih =>
        have hr : settled ([] : List L.Write) r = r := L.relabel_label r
        rw [settleLast, ih, hr, ite_self]
    rw [hid]
    exact (List.append_nil rs).symm
  | append_singleton ws w ih =>
    have hstep : L.run rs (ws ++ [w]) = (L.upsert (L.positions rs) (L.run rs ws) w).1 := by
      simp [run, writeAll, List.foldl_append]
    rw [hstep, ih]
    cases hi : (L.positions rs).get? w.key with
    | some i =>
      obtain ⟨r, hr, hk⟩ := getElem?_of_positions hi
      have hlast := not_mem_drop_of_positions hi
      have hsettled : (settleLast ws rs)[i]? = some (settled ws r) := by
        rw [getElem?_settleLast, hr, Option.map_some, if_neg (hk ▸ hlast)]
      obtain ⟨hlt, _⟩ := List.getElem?_eq_some_iff.mp hsettled
      have hget : (settleLast ws rs ++ added rs ws)[i]? = some (settled ws r) := by
        rw [List.getElem?_append_left hlt, hsettled]
      rw [upsert_indexed hi hget, List.set_append_left _ _ hlt, set_settleLast ws hi hr hk,
        added_append_of_mem ws (List.mem_map.mpr ⟨r, List.mem_of_getElem? hr, hk⟩)]
    | none =>
      have hk := (get?_positions_eq_none_iff w.key).mp hi
      rw [upsert_unindexed hi, added_append_of_not_mem ws hk, List.append_assoc]
      congr 1
      apply List.ext_getElem?
      intro j
      rw [getElem?_settleLast, getElem?_settleLast]
      cases hj : rs[j]? with
      | none => rfl
      | some r =>
        have hne : L.key r ≠ w.key := fun he =>
          hk (List.mem_map.mpr ⟨r, List.mem_of_getElem? hj, he⟩)
        rw [Option.map_some, Option.map_some, settled_append_of_ne ws hne]

/-- With distinct keys every record of the original table takes its last write. -/
theorem run_eq [DecidableEq ν] {rs : List ρ} (hnd : (rs.map L.key).Nodup) (ws : List L.Write) :
    L.run rs ws = rs.map (settled ws) ++ added rs ws := by
  rw [run_eq_settleLast, settleLast_of_nodup hnd]

theorem labelsAt_eq_nil_iff {rs : List ρ} {k : κ} :
    L.labelsAt rs k = [] ↔ k ∉ rs.map L.key := by
  rw [labelsAt, List.map_eq_nil_iff, List.filter_eq_nil_iff, List.mem_map]
  simp

/-- A table with distinct keys has one label at each of them. -/
theorem exists_labelsAt_eq {rs : List ρ} (hnd : (rs.map L.key).Nodup) {k : κ}
    (hk : k ∈ rs.map L.key) : ∃ v, L.labelsAt rs k = [v] := by
  induction rs with
  | nil => cases hk
  | cons r rs ih =>
    rw [List.map_cons, List.nodup_cons] at hnd
    by_cases hr : L.key r = k
    · have hrest : L.labelsAt rs k = [] := labelsAt_eq_nil_iff.mpr (hr ▸ hnd.1)
      refine ⟨L.label r, ?_⟩
      rw [labelsAt] at hrest ⊢
      rw [List.filter_cons_of_pos (by simpa using hr), List.map_cons, hrest]
    · rw [List.map_cons, List.mem_cons] at hk
      obtain ⟨v, hv⟩ := ih hnd.2 (hk.resolve_left fun he => hr he.symm)
      refine ⟨v, ?_⟩
      rw [labelsAt, List.filter_cons_of_neg (by simpa using hr)]
      exact hv

theorem labelsAt_map_settled (rs : List ρ) (ws : List L.Write) (k : κ) :
    L.labelsAt (rs.map (settled ws)) k =
      (L.labelsAt rs k).map fun v => (lastLabel ws k).getD v := by
  induction rs with
  | nil => rfl
  | cons r rs ih =>
    simp only [labelsAt, List.map_cons] at ih ⊢
    by_cases hr : L.key r = k
    · rw [List.filter_cons_of_pos (by simpa using hr), List.filter_cons_of_pos (by simpa using hr),
        List.map_cons, List.map_cons, List.map_cons, ih, settled, L.label_relabel, hr]
    · rw [List.filter_cons_of_neg (by simpa using hr), List.filter_cons_of_neg (by simpa using hr),
        ih]

theorem labelsAt_added_of_mem {rs : List ρ} (ws : List L.Write) {k : κ}
    (hk : k ∈ rs.map L.key) : L.labelsAt (added rs ws) k = [] := by
  rw [labelsAt_eq_nil_iff, List.mem_map]
  intro h
  obtain ⟨r, hr, rfl⟩ := h
  obtain ⟨w, hw, hfresh⟩ := List.mem_filterMap.mp hr
  have hnot := (List.mem_filter.mp hw).2
  rw [decide_eq_true_eq, ← w.key_fresh r hfresh] at hnot
  exact hnot hk

theorem labelsAt_added_of_not_mem {rs : List ρ} (ws : List L.Write) {k : κ}
    (hk : k ∉ rs.map L.key) : L.labelsAt (added rs ws) k = (freshAt ws k).map L.label := by
  induction ws using List.reverseRecOn with
  | nil => rfl
  | append_singleton ws w ih =>
    have hfresh : freshAt (ws ++ [w]) k =
        freshAt ws k ++ if w.key = k then w.fresh.toList else [] := by
      unfold freshAt
      rw [List.filter_append, List.filterMap_append, List.filter_singleton]
      by_cases hw : w.key = k
      · cases hf : w.fresh <;> simp [hw, hf]
      · simp [hw]
    have hlast : L.labelsAt w.fresh.toList k =
        (if w.key = k then w.fresh.toList else []).map L.label := by
      cases hf : w.fresh with
      | none => simp [labelsAt]
      | some r =>
        have hr := w.key_fresh r hf
        by_cases hw : w.key = k
        · simp [labelsAt, hr, hw]
        · simp [labelsAt, hr, hw]
    by_cases hw : w.key ∈ rs.map L.key
    · have hne : ¬ w.key = k := fun he => hk (he ▸ hw)
      rw [added_append_of_mem ws hw, ih, hfresh, if_neg hne, List.append_nil]
    · rw [added_append_of_not_mem ws hw, labelsAt, List.filter_append, List.map_append,
        hfresh, List.map_append, ← hlast, ← ih]
      rfl

/-- The labels at a key after a run. Where the table had the key, the last write
wins; elsewhere every record that a write brings is there. -/
theorem labelsAt_run [DecidableEq ν] {rs : List ρ} (hnd : (rs.map L.key).Nodup)
    (ws : List L.Write) (k : κ) :
    L.labelsAt (L.run rs ws) k =
      if k ∈ rs.map L.key then (L.labelsAt rs k).map fun v => (lastLabel ws k).getD v
      else (freshAt ws k).map L.label := by
  have hsplit : L.labelsAt (L.run rs ws) k =
      L.labelsAt (rs.map (settled ws)) k ++ L.labelsAt (added rs ws) k := by
    rw [run_eq hnd, labelsAt, List.filter_append, List.map_append]
    rfl
  rw [hsplit, labelsAt_map_settled]
  split
  · rename_i hk
    rw [labelsAt_added_of_mem ws hk, List.append_nil]
  · rename_i hk
    rw [labelsAt_added_of_not_mem ws hk, labelsAt_eq_nil_iff.mpr hk]
    rfl

/-- The last write at a key is all the table has there exactly when the key was there
before, or the writes at it bring one record and it carries the last label. -/
theorem labelsAt_run_eq_singleton_iff [DecidableEq ν] {rs : List ρ}
    (hnd : (rs.map L.key).Nodup) (ws : List L.Write) {k : κ} {v : ν}
    (hv : lastLabel ws k = some v) :
    L.labelsAt (L.run rs ws) k = [v] ↔
      L.labelsAt rs k ≠ [] ∨ (freshAt ws k).map L.label = [v] := by
  rw [labelsAt_run hnd, hv, Ne, labelsAt_eq_nil_iff, not_not]
  by_cases hk : k ∈ rs.map L.key
  · obtain ⟨old, hold⟩ := exists_labelsAt_eq hnd hk
    simp [hk, hold]
  · simp [hk]

theorem settled_of_no_write {ws : List L.Write} {r : ρ} (h : ∀ w ∈ ws, w.key ≠ L.key r) :
    settled ws r = r := by
  have hnil : (ws.filter fun w => w.key = L.key r) = [] := by
    apply List.filter_eq_nil_iff.mpr
    intro w hw
    simpa using h w hw
  rw [settled, lastLabel, hnil]
  exact L.relabel_label r

theorem filter_settleLast {p : κ → Bool} {ws : List L.Write} (hp : ∀ w ∈ ws, p w.key = false)
    (rs : List ρ) :
    ((settleLast ws rs).filter fun r => p (L.key r)) = rs.filter fun r => p (L.key r) := by
  induction rs with
  | nil => rfl
  | cons r rs ih =>
    rw [settleLast]
    by_cases hr : p (L.key r) = true
    · have hno : ∀ w ∈ ws, w.key ≠ L.key r := by
        intro w hw he
        rw [← he, hp w hw] at hr
        cases hr
      rw [settled_of_no_write hno, ite_self, List.filter_cons, List.filter_cons, if_pos hr,
        if_pos hr, ih]
    · have hkey : L.key (if L.key r ∈ rs.map L.key then r else settled ws r) = L.key r := by
        split
        · rfl
        · exact key_settled ws r
      rw [List.filter_cons, List.filter_cons, hkey, if_neg hr, if_neg hr, ih]

/-- Records whose key no write names are the same before and after a run. -/
theorem filter_run [DecidableEq ν] {p : κ → Bool} {ws : List L.Write}
    (hp : ∀ w ∈ ws, p w.key = false) (rs : List ρ) :
    ((L.run rs ws).filter fun r => p (L.key r)) = rs.filter fun r => p (L.key r) := by
  have hadded : ((added rs ws).filter fun r => p (L.key r)) = [] := by
    apply List.filter_eq_nil_iff.mpr
    intro r hr
    obtain ⟨w, hw, hfresh⟩ := List.mem_filterMap.mp hr
    rw [w.key_fresh r hfresh, hp w (List.mem_filter.mp hw).1]
    exact Bool.false_ne_true
  rw [run_eq_settleLast, List.filter_append, hadded, List.append_nil, filter_settleLast hp]

theorem mem_of_lastLabel {ws : List L.Write} {k : κ} {v : ν} (h : lastLabel ws k = some v) :
    ∃ w ∈ ws, w.key = k ∧ w.label = v := by
  obtain ⟨w, hw, hv⟩ := List.mem_map.mp (List.mem_of_getLast? h)
  obtain ⟨hmem, hk⟩ := List.mem_filter.mp hw
  exact ⟨w, hmem, of_decide_eq_true hk, hv⟩

/-- A record stays, or takes the label of a write at its key. -/
theorem settled_cases (ws : List L.Write) (r : ρ) :
    settled ws r = r ∨ ∃ w ∈ ws, w.key = L.key r ∧ settled ws r = L.relabel w.label r := by
  cases hlast : lastLabel ws (L.key r) with
  | none =>
    left
    rw [settled, hlast]
    exact L.relabel_label r
  | some v =>
    obtain ⟨w, hw, hk, rfl⟩ := mem_of_lastLabel hlast
    right
    refine ⟨w, hw, hk, ?_⟩
    rw [settled, hlast, Option.getD_some]

/-- The original records stand in their places, with other labels at most where a write
has their key. -/
theorem forall₂_settleLast (ws : List L.Write) (rs : List ρ) :
    List.Forall₂ (fun r r' => r' = r ∨ ∃ w ∈ ws, w.key = L.key r ∧ r' = L.relabel w.label r)
      rs (settleLast ws rs) := by
  induction rs with
  | nil => exact List.Forall₂.nil
  | cons r rs ih =>
    rw [settleLast]
    refine List.Forall₂.cons ?_ ih
    split
    · exact Or.inl rfl
    · exact settled_cases ws r

/-- No record is lost, at most relabelled by a write at its key. -/
theorem exists_mem_run [DecidableEq ν] (ws : List L.Write) {rs : List ρ} {r : ρ} (hr : r ∈ rs) :
    ∃ r' ∈ L.run rs ws, r' = r ∨ ∃ w ∈ ws, w.key = L.key r ∧ r' = L.relabel w.label r := by
  obtain ⟨i, hi, rfl⟩ := List.getElem_of_mem hr
  have hsettled := forall₂_settleLast ws rs
  have hi' : i < (settleLast ws rs).length := hsettled.length_eq ▸ hi
  refine ⟨(settleLast ws rs)[i], ?_, List.Forall₂.get hsettled hi hi'⟩
  rw [run_eq_settleLast]
  exact List.mem_append_left _ (List.getElem_mem hi')

/-- An added record is brought by a write at a key that the table has not. -/
theorem mem_added {rs : List ρ} {ws : List L.Write} {r : ρ} (h : r ∈ added rs ws) :
    ∃ w ∈ ws, w.key ∉ rs.map L.key ∧ w.fresh = some r := by
  obtain ⟨w, hw, hfresh⟩ := List.mem_filterMap.mp h
  obtain ⟨hmem, hkey⟩ := List.mem_filter.mp hw
  exact ⟨w, hmem, of_decide_eq_true hkey, hfresh⟩

/-- The last record with a key takes the last write at it. -/
theorem exists_settled_mem (ws : List L.Write) {rs : List ρ} {k : κ} (hk : k ∈ rs.map L.key) :
    ∃ r ∈ rs, L.key r = k ∧ settled ws r ∈ settleLast ws rs := by
  induction rs with
  | nil => cases hk
  | cons r rs ih =>
    rw [settleLast]
    by_cases htail : k ∈ rs.map L.key
    · obtain ⟨r', hr', hkey, hmem⟩ := ih htail
      exact ⟨r', List.mem_cons_of_mem _ hr', hkey, List.mem_cons_of_mem _ hmem⟩
    · rw [List.map_cons, List.mem_cons] at hk
      obtain rfl := hk.resolve_right htail
      refine ⟨r, List.mem_cons_self, rfl, ?_⟩
      rw [if_neg htail]
      exact List.mem_cons_self

/-- Where every write brings a record, a written key has one with a label written there. -/
theorem exists_written [DecidableEq ν] {ws : List L.Write} (hfresh : ∀ w ∈ ws, w.fresh ≠ none)
    {w : L.Write} (hw : w ∈ ws) (rs : List ρ) :
    ∃ r ∈ L.run rs ws, L.key r = w.key ∧ ∃ w' ∈ ws, w'.key = w.key ∧ L.label r = w'.label := by
  rw [run_eq_settleLast]
  by_cases hk : w.key ∈ rs.map L.key
  · obtain ⟨r, _, hkey, hmem⟩ := exists_settled_mem ws hk
    obtain ⟨v, hv⟩ : ∃ v, lastLabel ws w.key = some v := by
      rw [← Option.ne_none_iff_exists', lastLabel, Ne, List.getLast?_eq_none_iff,
        List.map_eq_nil_iff]
      exact List.ne_nil_of_mem (List.mem_filter.mpr ⟨hw, decide_eq_true rfl⟩)
    obtain ⟨w', hw', hkey', rfl⟩ := mem_of_lastLabel hv
    refine ⟨_, List.mem_append_left _ hmem, (key_settled ws r).trans hkey, w', hw', hkey', ?_⟩
    rw [settled, hkey, hv, Option.getD_some, L.label_relabel]
  · obtain ⟨r, hr⟩ := Option.ne_none_iff_exists'.mp (hfresh w hw)
    refine ⟨r, List.mem_append_right _ ?_, w.key_fresh r hr, w, hw, rfl, w.label_fresh r hr⟩
    exact List.mem_filterMap.mpr ⟨w, List.mem_filter.mpr ⟨hw, decide_eq_true hk⟩, hr⟩

end Run

/-! ### All labels of a run -/

section Labels

variable {L : Labelled κ ν ρ}

/-- The records that no write reaches. -/
def unwritten (ws : List L.Write) : List ρ → List ρ
  | [] => []
  | r :: rs =>
    if L.key r ∈ rs.map L.key ∨ lastLabel ws (L.key r) = none then r :: unwritten ws rs
    else unwritten ws rs

/-- The labels that the writes leave: the last one at each key of the table, and every
one at another key. -/
def standing (stored : List κ) (ws : List L.Write) : List ν :=
  stored.dedup.filterMap (lastLabel ws) ++ (ws.filter fun w => w.key ∉ stored).map Write.label

theorem unwritten_sublist [DecidableEq ν] (ws : List L.Write) (rs : List ρ) :
    (unwritten ws rs).Sublist rs := by
  induction rs with
  | nil => exact List.Sublist.slnil
  | cons r rs ih =>
    unfold unwritten
    split
    · exact ih.cons_cons r
    · exact ih.cons r

theorem map_label_settleLast_perm [DecidableEq ν] (ws : List L.Write) (rs : List ρ) :
    ((settleLast ws rs).map L.label).Perm
      ((unwritten ws rs).map L.label ++ (rs.map L.key).dedup.filterMap (lastLabel ws)) := by
  induction rs with
  | nil => exact List.Perm.nil
  | cons r rs ih =>
    rw [settleLast, List.map_cons, List.map_cons]
    by_cases hmem : L.key r ∈ rs.map L.key
    · rw [if_pos hmem, unwritten, if_pos (Or.inl hmem), List.dedup_cons_of_mem hmem,
        List.map_cons, List.cons_append]
      exact ih.cons _
    · rw [if_neg hmem, List.dedup_cons_of_notMem hmem]
      cases hlast : lastLabel ws (L.key r) with
      | none =>
        rw [unwritten, if_pos (Or.inr hlast), List.filterMap_cons_none hlast, List.map_cons,
          List.cons_append, settled, hlast, Option.getD_none, L.relabel_label]
        exact ih.cons _
      | some v =>
        have hwritten : ¬ (L.key r ∈ rs.map L.key ∨ lastLabel ws (L.key r) = none) := by
          simp [hmem, hlast]
        rw [unwritten, if_neg hwritten, List.filterMap_cons_some hlast, settled, hlast,
          Option.getD_some, L.label_relabel]
        exact (ih.cons v).trans List.perm_middle.symm

theorem map_label_added {ws : List L.Write} (hfresh : ∀ w ∈ ws, w.fresh ≠ none) (rs : List ρ) :
    (added rs ws).map L.label =
      (ws.filter fun w => w.key ∉ rs.map L.key).map Write.label := by
  rw [added, List.map_filterMap, ← List.filterMap_eq_map (f := Labelled.Write.label)]
  apply List.filterMap_congr
  intro w hw
  obtain ⟨r, hr⟩ := Option.ne_none_iff_exists'.mp (hfresh w (List.mem_filter.mp hw).1)
  rw [hr, Option.map_some, w.label_fresh r hr]
  rfl

/-- After a run in which every write brings a record, the labels are those of the
records that no write reached and those that the writes leave. -/
theorem map_label_run_perm [DecidableEq ν] {ws : List L.Write}
    (hfresh : ∀ w ∈ ws, w.fresh ≠ none) (rs : List ρ) :
    ((L.run rs ws).map L.label).Perm
      ((unwritten ws rs).map L.label ++ standing (rs.map L.key) ws) := by
  rw [run_eq_settleLast, List.map_append, map_label_added hfresh, standing, ← List.append_assoc]
  exact (map_label_settleLast_perm ws rs).append_right _

end Labels

end Labelled

end Lib
