import RomAnalyzer.Lib.Dict

/-!
# Distinct labels along a list

Each element takes its own label if none before it has it; otherwise the first
unused label of a chain of substitutes. No link of the chain occurs twice, so a
search of as many links as there are used labels always finds an unused one. The
last section says which labels are in use without running the list.
-/
namespace Lib

universe u v

/-- `while x in used: x = next(x)`, for at most the given number of rounds. -/
def skipUsed {ν : Type v} [DecidableEq ν] (next : ν → ν) (used : List ν) : Nat → ν → ν
  | 0, x => x
  | fuel + 1, x => if x ∈ used then skipUsed next used fuel (next x) else x

/-- The label of an element, and its substitutes: `first`, `next` of it, and so on. -/
structure Naming (α : Type u) (ν : Type v) where
  label : α → ν
  first : α → ν
  next : ν → ν
  size : ν → Nat
  size_lt_next : ∀ x, size x < size (next x)

/-- The elements so far with the labels they took, and how many took a substitute. -/
structure Assigned (α : Type u) (ν : Type v) where
  pairs : List (α × ν)
  renamed : Nat

/-- The labels in use. -/
def Assigned.used {α : Type u} {ν : Type v} (st : Assigned α ν) : List ν := st.pairs.map Prod.snd

/-- The elements in front of `a`. -/
def ahead {α : Type u} [DecidableEq α] (xs : List α) (a : α) : List α :=
  xs.takeWhile fun b => b ≠ a

namespace Naming

variable {α : Type u} {ν : Type v} [DecidableEq ν] (N : Naming α ν)

/-- The own label, then the substitutes. -/
def chain (a : α) : Nat → ν
  | 0 => N.label a
  | k + 1 => N.next^[k] (N.first a)

def choose (used : List ν) (a : α) : ν :=
  if N.label a ∈ used then skipUsed N.next used used.length (N.first a) else N.label a

def step (st : Assigned α ν) (a : α) : Assigned α ν where
  pairs := st.pairs ++ [(a, N.choose st.used a)]
  renamed := if N.label a ∈ st.used then st.renamed + 1 else st.renamed

def run (xs : List α) : Assigned α ν := xs.foldl N.step ⟨[], 0⟩

/-- The label that `a` takes when the list is run. -/
def labelOf [DecidableEq α] (xs : List α) (a : α) : ν :=
  (find a (N.run xs).pairs).getD (N.label a)

/-! ### The search -/

theorem skipUsed_spec (next : ν → ν) (used : List ν) (fuel : Nat) (x : ν) :
    ∃ k ≤ fuel, skipUsed next used fuel x = next^[k] x ∧
      (∀ j < k, next^[j] x ∈ used) ∧ (next^[k] x ∈ used → k = fuel) := by
  induction fuel generalizing x with
  | zero => exact ⟨0, Nat.le_refl 0, rfl, fun j hj => by omega, fun _ => rfl⟩
  | succ fuel ih =>
    by_cases hx : x ∈ used
    · obtain ⟨k, hk, heq, hbefore, hstuck⟩ := ih (next x)
      refine ⟨k + 1, by omega, ?_, ?_, fun h => congrArg Nat.succ (hstuck h)⟩
      · rw [skipUsed, if_pos hx, heq]
        rfl
      · intro j hj
        cases j with
        | zero => exact hx
        | succ j => exact hbefore j (by omega)
    · refine ⟨0, Nat.zero_le _, ?_, fun j hj => by omega, fun h => absurd h hx⟩
      rw [skipUsed, if_neg hx]
      rfl

omit [DecidableEq ν] in
theorem iterate_next_injective (x : ν) : Function.Injective fun k => N.next^[k] x := by
  have hmono : StrictMono fun k => N.size (N.next^[k] x) := by
    apply strictMono_nat_of_lt_succ
    intro k
    rw [Function.iterate_succ_apply']
    exact N.size_lt_next _
  intro j k hjk
  exact hmono.injective (congrArg N.size hjk)

/-- The used labels cannot fill one link more than there are of them. -/
theorem exists_unused_link (used : List ν) (x : ν) :
    ∃ k ≤ used.length, N.next^[k] x ∉ used := by
  by_contra hnone
  push Not at hnone
  have hnodup : ((List.range (used.length + 1)).map fun k => N.next^[k] x).Nodup :=
    List.Nodup.map (N.iterate_next_injective x) List.nodup_range
  have hsub : ((List.range (used.length + 1)).map fun k => N.next^[k] x) ⊆ used := by
    intro y hy
    obtain ⟨k, hk, rfl⟩ := List.mem_map.mp hy
    have hlt := List.mem_range.mp hk
    exact hnone k (by omega)
  have hlen := (List.subperm_of_subset hnodup hsub).length_le
  rw [List.length_map, List.length_range] at hlen
  omega

/-- The search ends at the first unused link, before the rounds run out. -/
theorem skipUsed_eq_first_unused (used : List ν) (x : ν) :
    ∃ k, skipUsed N.next used used.length x = N.next^[k] x ∧ N.next^[k] x ∉ used ∧
      ∀ j < k, N.next^[j] x ∈ used := by
  obtain ⟨k, hk, heq, hbefore, hstuck⟩ := skipUsed_spec N.next used used.length x
  refine ⟨k, heq, ?_, hbefore⟩
  intro hused
  obtain ⟨j, hj, hfree⟩ := N.exists_unused_link used x
  have hlast := hstuck hused
  rcases Nat.lt_or_ge j k with hlt | hge
  · exact hfree (hbefore j hlt)
  · have heq : j = k := by omega
    exact hfree (heq ▸ hused)

/-- An element takes the first link of its chain that is not in use. -/
theorem choose_eq_chain (used : List ν) (a : α) :
    ∃ k, N.choose used a = N.chain a k ∧ N.chain a k ∉ used ∧ ∀ j < k, N.chain a j ∈ used := by
  unfold choose
  by_cases ha : N.label a ∈ used
  · obtain ⟨k, heq, hfree, hbefore⟩ := N.skipUsed_eq_first_unused used (N.first a)
    rw [if_pos ha]
    refine ⟨k + 1, heq, hfree, ?_⟩
    intro j hj
    cases j with
    | zero => exact ha
    | succ j => exact hbefore j (by omega)
  · rw [if_neg ha]
    exact ⟨0, rfl, ha, fun j hj => by omega⟩

theorem choose_not_mem (used : List ν) (a : α) : N.choose used a ∉ used := by
  obtain ⟨k, heq, hfree, _⟩ := N.choose_eq_chain used a
  rw [heq]
  exact hfree

/-- An element keeps its label when the label is not in use, and only then. -/
theorem choose_eq_label_iff (used : List ν) (a : α) :
    N.choose used a = N.label a ↔ N.label a ∉ used := by
  constructor
  · intro h
    exact h ▸ N.choose_not_mem used a
  · exact fun h => if_neg h

/-! ### The labels of a run -/

theorem run_append (xs : List α) (a : α) : N.run (xs ++ [a]) = N.step (N.run xs) a := by
  simp [run, List.foldl_append]

theorem used_step (st : Assigned α ν) (a : α) :
    (N.step st a).used = st.used ++ [N.choose st.used a] := by
  simp [step, Assigned.used]

theorem map_fst_run (xs : List α) : (N.run xs).pairs.map Prod.fst = xs := by
  induction xs using List.reverseRecOn with
  | nil => rfl
  | append_singleton xs a ih =>
    rw [run_append, step, List.map_append, ih]
    rfl

theorem nodup_used_run (xs : List α) : (N.run xs).used.Nodup := by
  induction xs using List.reverseRecOn with
  | nil => exact List.nodup_nil
  | append_singleton xs a ih =>
    rw [run_append, used_step, ← List.concat_eq_append]
    exact List.Nodup.concat (N.choose_not_mem _ a) ih

/-- What a run has done stays when it goes on. -/
theorem pairs_run_prefix (pre post : List α) :
    (N.run pre).pairs <+: (N.run (pre ++ post)).pairs := by
  induction post using List.reverseRecOn with
  | nil => rw [List.append_nil]
  | append_singleton post a ih =>
    rw [← List.append_assoc, run_append, step]
    exact ih.trans (List.prefix_append _ _)

variable [DecidableEq α] {xs : List α}

theorem labelOf_of_mem (hnodup : xs.Nodup) {e : α × ν} (he : e ∈ (N.run xs).pairs) :
    N.labelOf xs e.1 = e.2 := by
  have hkeys : ((N.run xs).pairs.map Prod.fst).Nodup := by
    rw [map_fst_run]
    exact hnodup
  rw [labelOf, (mem_iff_find hkeys e.1 e.2).mp he, Option.getD_some]

theorem map_labelOf_prefix (hnodup : xs.Nodup) {pre : List α} (hpre : pre <+: xs) :
    pre.map (N.labelOf xs) = (N.run pre).used := by
  obtain ⟨post, rfl⟩ := hpre
  have hfst : pre.map (N.labelOf (pre ++ post)) =
      ((N.run pre).pairs.map Prod.fst).map (N.labelOf (pre ++ post)) := by
    rw [map_fst_run]
  rw [hfst, List.map_map, Assigned.used]
  apply List.map_congr_left
  intro e he
  exact N.labelOf_of_mem hnodup ((N.pairs_run_prefix pre post).subset he)

/-- No two elements take the same label, in whatever order they are listed. -/
theorem nodup_map_labelOf (hnodup : xs.Nodup) {ys : List α} (hperm : ys.Perm xs) :
    (ys.map (N.labelOf xs)).Nodup := by
  rw [(hperm.map (N.labelOf xs)).nodup_iff, N.map_labelOf_prefix hnodup (List.prefix_refl xs)]
  exact N.nodup_used_run xs

omit [DecidableEq ν] in
theorem eq_ahead_append {a : α} (ha : a ∈ xs) : ∃ post, xs = ahead xs a ++ a :: post := by
  refine ⟨(xs.dropWhile fun b => b ≠ a).tail, ?_⟩
  have hne : (xs.dropWhile fun b => b ≠ a) ≠ [] := by
    intro h
    have hall := List.dropWhile_eq_nil_iff.mp h a ha
    simp at hall
  have hhead : (xs.dropWhile fun b => b ≠ a).head hne = a := by
    have hstop := List.head_dropWhile_not (fun b => decide (b ≠ a)) hne
    simpa using hstop
  calc xs = ahead xs a ++ xs.dropWhile fun b => b ≠ a := (List.takeWhile_append_dropWhile).symm
    _ = ahead xs a ++ a :: (xs.dropWhile fun b => b ≠ a).tail := by
      conv_lhs => rw [← List.cons_head_tail hne, hhead]

omit [DecidableEq ν] in
theorem ahead_append {pre post : List α} {a : α} (ha : a ∉ pre) :
    ahead (pre ++ a :: post) a = pre := by
  unfold ahead
  rw [List.takeWhile_append_of_pos]
  · simp
  · intro b hb
    simpa using fun he : b = a => ha (he ▸ hb)

/-- An element chooses among the labels that those in front of it left. -/
theorem labelOf_eq_choose (hnodup : xs.Nodup) {a : α} (ha : a ∈ xs) :
    N.labelOf xs a = N.choose ((ahead xs a).map (N.labelOf xs)) a := by
  obtain ⟨post, hxs⟩ := eq_ahead_append ha
  have hpre : ahead xs a ++ [a] <+: xs := by
    refine ⟨post, ?_⟩
    rw [List.append_assoc, List.singleton_append, ← hxs]
  have hmem : (a, N.choose (N.run (ahead xs a)).used a) ∈ (N.run xs).pairs := by
    obtain ⟨rest, hrest⟩ := hpre
    have hsub := (N.pairs_run_prefix (ahead xs a ++ [a]) rest).subset
    rw [hrest, run_append] at hsub
    exact hsub (List.mem_append_right _ (List.mem_singleton_self _))
  rw [N.map_labelOf_prefix hnodup ((List.prefix_append _ _).trans hpre)]
  exact N.labelOf_of_mem hnodup hmem

/-- An element keeps its label exactly when none in front of it took the label. -/
theorem labelOf_eq_label_iff (hnodup : xs.Nodup) {a : α} (ha : a ∈ xs) :
    N.labelOf xs a = N.label a ↔ ∀ b ∈ ahead xs a, N.labelOf xs b ≠ N.label a := by
  rw [N.labelOf_eq_choose hnodup ha, choose_eq_label_iff]
  constructor
  · exact fun h b hb he => h (List.mem_map.mpr ⟨b, hb, he⟩)
  · intro h hmem
    obtain ⟨b, hb, he⟩ := List.mem_map.mp hmem
    exact h b hb he

/-- Elements whose own labels are distinct all keep them exactly when no other element
in front of one of them takes its label. -/
theorem labels_kept_iff (hnodup : xs.Nodup) {Q : α → Prop}
    (hQ : ∀ a ∈ xs, ∀ b ∈ xs, Q a → Q b → N.label a = N.label b → a = b) :
    (∀ a ∈ xs, Q a → N.labelOf xs a = N.label a) ↔
      ∀ a ∈ xs, Q a → ∀ b ∈ ahead xs a, ¬ Q b → N.labelOf xs b ≠ N.label a := by
  constructor
  · intro h a ha hqa b hb _
    exact (N.labelOf_eq_label_iff hnodup ha).mp (h a ha hqa) b hb
  · intro h
    have hprefix : ∀ pre, pre <+: xs → ∀ a ∈ pre, Q a → N.labelOf xs a = N.label a := by
      intro pre
      induction pre using List.reverseRecOn with
      | nil => exact fun _ a ha => absurd ha List.not_mem_nil
      | append_singleton pre c ih =>
        intro hpre a ha hqa
        have hshort : pre <+: xs := (List.prefix_append pre [c]).trans hpre
        rcases List.mem_append.mp ha with ha | ha
        · exact ih hshort a ha hqa
        rw [List.mem_singleton] at ha
        subst ha
        obtain ⟨post, hxs⟩ := hpre
        have hnot : a ∉ pre := by
          rw [← hxs, List.append_assoc, List.singleton_append] at hnodup
          exact fun hin => (List.nodup_append.mp hnodup).2.2 a hin a List.mem_cons_self rfl
        have hahead : ahead xs a = pre := by
          rw [← hxs, List.append_assoc, List.singleton_append, ahead_append hnot]
        have hmem : a ∈ xs := by
          rw [← hxs]
          exact List.mem_append_left _ (List.mem_append_right _ (List.mem_singleton_self a))
        apply (N.labelOf_eq_label_iff hnodup hmem).mpr
        intro b hb he
        by_cases hqb : Q b
        · -- a kept label in front of `a` is the label of another element
          rw [hahead] at hb
          rw [ih hshort b hb hqb] at he
          have hab := hQ b (hshort.subset hb) a hmem hqb hqa he
          exact hnot (hab ▸ hb)
        · exact h a hmem hqa b hb hqb he
    exact hprefix xs (List.prefix_refl xs)

/-- An element takes the first link of its chain that none in front of it took. -/
theorem labelOf_eq_chain (hnodup : xs.Nodup) {a : α} (ha : a ∈ xs) :
    ∃ k, N.labelOf xs a = N.chain a k ∧ N.chain a k ∉ (ahead xs a).map (N.labelOf xs) ∧
      ∀ j < k, N.chain a j ∈ (ahead xs a).map (N.labelOf xs) := by
  rw [N.labelOf_eq_choose hnodup ha]
  exact N.choose_eq_chain _ a

/-- Distinct labels are all kept. -/
theorem labelOf_eq_label_of_nodup (hlabels : (xs.map N.label).Nodup) {a : α} (ha : a ∈ xs) :
    N.labelOf xs a = N.label a := by
  have hinj : ∀ a ∈ xs, ∀ b ∈ xs, True → True → N.label a = N.label b → a = b :=
    fun a ha b hb _ _ h => List.inj_on_of_nodup_map hlabels ha hb h
  apply (N.labels_kept_iff (List.Nodup.of_map _ hlabels) hinj).mpr _ a ha trivial
  intro a _ _ b _ hb
  exact absurd trivial hb

omit [DecidableEq α] in
theorem renamed_run (xs : List α) :
    (N.run xs).renamed = (N.run xs).pairs.countP fun e => e.2 ≠ N.label e.1 := by
  induction xs using List.reverseRecOn with
  | nil => rfl
  | append_singleton xs a ih =>
    have hlast := N.choose_eq_label_iff (N.run xs).used a
    rw [run_append, step, List.countP_append, List.countP_singleton, ← ih]
    by_cases hused : N.label a ∈ (N.run xs).used
    · have hne : N.choose (N.run xs).used a ≠ N.label a := fun h => hlast.mp h hused
      simp [hused, hne]
    · simp [hused, hlast.mpr hused]

/-- The count of a run is the number of elements that lost their label. -/
theorem renamed_eq_countP (hnodup : xs.Nodup) :
    (N.run xs).renamed = xs.countP fun a => N.labelOf xs a ≠ N.label a := by
  have hfst : xs.countP (fun a => N.labelOf xs a ≠ N.label a) =
      ((N.run xs).pairs.map Prod.fst).countP fun a => N.labelOf xs a ≠ N.label a := by
    rw [map_fst_run]
  rw [renamed_run, hfst, List.countP_map]
  apply List.countP_congr
  intro e he
  simp [N.labelOf_of_mem hnodup he]

/-! ### The labels in use -/

omit [DecidableEq ν] in
/-- What stands in front of something in front of `a` stands in front of `a`. -/
theorem ahead_sublist_of_mem {a b : α} (hb : b ∈ ahead xs a) :
    ∃ rest, ahead xs a = ahead xs b ++ b :: rest := by
  have hax : xs = ahead xs a ++ xs.dropWhile fun c => c ≠ a :=
    List.takeWhile_append_dropWhile.symm
  obtain ⟨rest, hrest⟩ := eq_ahead_append hb
  have hsame : ahead xs b = ahead (ahead xs a) b := by
    have hnot : b ∉ ahead (ahead xs a) b := by
      intro h
      have hne := List.mem_takeWhile_imp h
      simp at hne
    conv_lhs => rw [hax, hrest, List.append_assoc, List.cons_append, ahead_append hnot]
  refine ⟨rest, ?_⟩
  rw [hsame]
  exact hrest

omit [DecidableEq ν] in
/-- Of two elements one stands in front of the other. -/
theorem mem_ahead_or_mem_ahead {a b : α} (ha : a ∈ xs) (hb : b ∈ xs) (hne : a ≠ b) :
    a ∈ ahead xs b ∨ b ∈ ahead xs a := by
  induction xs with
  | nil => exact absurd ha List.not_mem_nil
  | cons x xs ih =>
    unfold ahead at ih ⊢
    by_cases hxa : x = a
    · subst hxa
      exact Or.inl (by simp [hne])
    · by_cases hxb : x = b
      · subst hxb
        exact Or.inr (by simp [hxa])
      · have hrest := ih (List.mem_of_ne_of_mem (Ne.symm hxa) ha)
          (List.mem_of_ne_of_mem (Ne.symm hxb) hb)
        simp only [List.takeWhile_cons, ne_eq, hxa, hxb, not_false_eq_true, decide_true, if_true]
        exact hrest.imp (List.mem_cons_of_mem x) (List.mem_cons_of_mem x)

omit [DecidableEq ν] in
/-- What holds of some element holds of a first one. -/
theorem exists_first {p : α → Prop} {a : α} (ha : a ∈ xs) (hp : p a) :
    ∃ a ∈ xs, p a ∧ ∀ b ∈ ahead xs a, ¬ p b := by
  induction hlen : (ahead xs a).length using Nat.strong_induction_on generalizing a with
  | _ n ih =>
    by_cases hfirst : ∀ b ∈ ahead xs a, ¬ p b
    · exact ⟨a, ha, hp, hfirst⟩
    · push Not at hfirst
      obtain ⟨b, hb, hpb⟩ := hfirst
      obtain ⟨rest, hrest⟩ := ahead_sublist_of_mem hb
      have hshorter : (ahead xs b).length < n := by
        rw [← hlen, hrest, List.length_append, List.length_cons]
        omega
      exact ih _ hshorter ((List.takeWhile_sublist _).subset hb) hpb rfl

/-- A label is in use in front of `a` when some `b` there has it as a link of its chain
and all earlier links of that chain are in use in front of `b`. -/
inductive InUse (N : Naming α ν) (xs : List α) : α → ν → Prop
  | link {a b : α} {k : Nat} (hb : b ∈ ahead xs a)
      (hbefore : ∀ j < k, InUse N xs b (N.chain b j)) : InUse N xs a (N.chain b k)

theorem exists_labelOf_of_inUse (hnodup : xs.Nodup) {a : α} {x : ν} (h : N.InUse xs a x) :
    ∃ b ∈ ahead xs a, N.labelOf xs b = x := by
  induction h with
  | @link a b k hb _ ih =>
    obtain ⟨rest, hrest⟩ := ahead_sublist_of_mem hb
    obtain ⟨i, heq, hfree, hused⟩ := N.choose_eq_chain ((ahead xs b).map (N.labelOf xs)) b
    rw [← N.labelOf_eq_choose hnodup ((List.takeWhile_sublist _).subset hb)] at heq
    rcases Nat.lt_trichotomy i k with hik | hik | hik
    · -- an earlier link is in use, so `b` cannot have taken it
      exact absurd (List.mem_map.mpr (ih i hik)) hfree
    · exact ⟨b, hb, hik ▸ heq⟩
    · obtain ⟨b', hb', hlabel⟩ := List.mem_map.mp (hused k hik)
      refine ⟨b', ?_, hlabel⟩
      rw [hrest]
      exact List.mem_append_left _ hb'

theorem inUse_of_labelOf (hnodup : xs.Nodup) {a b : α} (hb : b ∈ ahead xs a) :
    N.InUse xs a (N.labelOf xs b) := by
  induction hlen : (ahead xs a).length using Nat.strong_induction_on generalizing a b with
  | _ n ih =>
    obtain ⟨rest, hrest⟩ := ahead_sublist_of_mem hb
    have hshorter : (ahead xs b).length < n := by
      rw [← hlen, hrest, List.length_append, List.length_cons]
      omega
    obtain ⟨k, heq, _, hused⟩ := N.choose_eq_chain ((ahead xs b).map (N.labelOf xs)) b
    rw [N.labelOf_eq_choose hnodup ((List.takeWhile_sublist _).subset hb), heq]
    refine InUse.link hb fun j hj => ?_
    obtain ⟨b', hb', hlabel⟩ := List.mem_map.mp (hused j hj)
    rw [← hlabel]
    exact ih _ hshorter hb' rfl

/-- Elements whose own labels are distinct all keep them exactly when no other element
in front of one of them reaches its label by way of labels in use. -/
theorem labels_kept_iff_chain (hnodup : xs.Nodup) {Q : α → Prop}
    (hQ : ∀ a ∈ xs, ∀ b ∈ xs, Q a → Q b → N.label a = N.label b → a = b) :
    (∀ a ∈ xs, Q a → N.labelOf xs a = N.label a) ↔
      ∀ a ∈ xs, Q a → ∀ b ∈ ahead xs a, ¬ Q b → ∀ k, N.chain b k = N.label a →
        ∃ j < k, ¬ N.InUse xs b (N.chain b j) := by
  constructor
  · intro h a ha hqa b hb _ k hk
    by_contra hall
    push Not at hall
    obtain ⟨b', hb', hlabel⟩ :=
      N.exists_labelOf_of_inUse hnodup (InUse.link (N := N) hb hall)
    exact (N.labelOf_eq_label_iff hnodup ha).mp (h a ha hqa) b' hb' (hlabel.trans hk)
  · intro h
    apply (N.labels_kept_iff hnodup hQ).mpr
    intro a ha hqa b hb hqb hlabel
    obtain ⟨k, heq, _, hused⟩ := N.choose_eq_chain ((ahead xs b).map (N.labelOf xs)) b
    rw [← N.labelOf_eq_choose hnodup ((List.takeWhile_sublist _).subset hb)] at heq
    obtain ⟨j, hj, hfree⟩ := h a ha hqa b hb hqb k (heq.symm.trans hlabel)
    obtain ⟨b', hb', hlabel'⟩ := List.mem_map.mp (hused j hj)
    apply hfree
    rw [← hlabel']
    exact N.inUse_of_labelOf hnodup hb'

end Naming

end Lib
