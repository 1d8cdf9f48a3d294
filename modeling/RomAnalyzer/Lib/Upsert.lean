import RomAnalyzer.Lib.Ranked

/-!
# Merging new values into a keyed table

Every new value is settled against the element that is there under its key, and the
table is put in order afterwards. When settling the same values again changes nothing
under a key, doing the whole merge again changes nothing in the table.
-/
namespace Lib

universe u v w

namespace Dict

variable {κ : Type u} {ν : Type v} {ε : Type w} [DecidableEq κ]

/-! ### Settling -/

/-- Settle each new value against the element under its key. -/
def settleAll (settle : κ → ν → Option ε → ε) (news : List (κ × ν)) (d : Dict κ ε) : Dict κ ε :=
  news.foldl (fun d n => d.insert n.1 (settle n.1 n.2 (d.get? n.1))) d

section SettleAll

variable {settle : κ → ν → Option ε → ε} {news : List (κ × ν)}

theorem settleAll_cons (n : κ × ν) (news : List (κ × ν)) (d : Dict κ ε) :
    settleAll settle (n :: news) d =
      settleAll settle news (d.insert n.1 (settle n.1 n.2 (d.get? n.1))) := rfl

theorem get?_settleAll_of_not_mem {k : κ} (hk : k ∉ news.map Prod.fst) (d : Dict κ ε) :
    (settleAll settle news d).get? k = d.get? k := by
  induction news generalizing d with
  | nil => rfl
  | cons n news ih =>
    rw [List.map_cons, List.mem_cons, not_or] at hk
    rw [settleAll_cons, ih hk.2, get?_insert, if_neg hk.1]

theorem get?_settleAll_of_mem (hnews : (news.map Prod.fst).Nodup) {k : κ} {n : ν}
    (hn : (k, n) ∈ news) (d : Dict κ ε) :
    (settleAll settle news d).get? k = some (settle k n (d.get? k)) := by
  induction news generalizing d with
  | nil => cases hn
  | cons m news ih =>
    rw [List.map_cons, List.nodup_cons] at hnews
    rw [settleAll_cons]
    rcases List.mem_cons.mp hn with rfl | hmem
    · rw [get?_settleAll_of_not_mem hnews.1, get?_insert_self]
    · have hne : k ≠ m.1 := by
        rintro rfl
        exact hnews.1 (List.mem_map.mpr ⟨_, hmem, rfl⟩)
      rw [ih hnews.2 hmem, get?_insert, if_neg hne]

/-- Where every new value has settled, settling leaves the table as it is. -/
theorem settleAll_eq_self {d : Dict κ ε}
    (h : ∀ k n, (k, n) ∈ news → ∃ e, d.get? k = some e ∧ settle k n (some e) = e) :
    settleAll settle news d = d := by
  induction news with
  | nil => rfl
  | cons n news ih =>
    obtain ⟨e, he, hsettle⟩ := h n.1 n.2 List.mem_cons_self
    rw [settleAll_cons, he, hsettle, insert_of_get? he]
    exact ih fun k m hm => h k m (List.mem_cons_of_mem _ hm)

end SettleAll

/-! ### Elements that name their key -/

/-- A comprehension over elements; an element without a key makes it fail. -/
def keyed (key : ε → Option κ) (xs : List ε) : Option (Dict κ ε) :=
  (xs.mapM fun x => (key x).map fun k => (k, x)).map ofList

/-- Every element stands under its own key. -/
def KeyedBy (key : ε → Option κ) (d : Dict κ ε) : Prop :=
  ∀ k e, d.get? k = some e → key e = some k

section Keyed

variable {key : ε → Option κ}

theorem KeyedBy.get?_eq_some_iff {d : Dict κ ε} (h : KeyedBy key d) {k : κ} {e : ε} :
    d.get? k = some e ↔ e ∈ d.values ∧ key e = some k := by
  rw [mem_values_iff]
  constructor
  · intro hget
    exact ⟨⟨k, hget⟩, h k e hget⟩
  · intro hgiven
    obtain ⟨⟨k', hget⟩, hkey⟩ := hgiven
    rw [h k' e hget] at hkey
    rwa [← Option.some.inj hkey]

theorem KeyedBy.map_values {d : Dict κ ε} (h : KeyedBy key d) :
    d.values.map key = d.keys.map some := by
  unfold values keys
  rw [List.map_map, List.map_map]
  refine List.map_congr_left fun e he => ?_
  exact h e.1 e.2 ((mem_entries_iff d e.1 e.2).mp he)

/-- Elements with keys of their own are listed in their order. -/
theorem keyed_of_nodup {xs : List ε} (hsome : ∀ x ∈ xs, ∃ k, key x = some k)
    (hnodup : (xs.map key).Nodup) :
    ∃ d, keyed key xs = some d ∧ d.values = xs ∧ KeyedBy key d := by
  obtain ⟨es, hes, hsnd, hkeys⟩ : ∃ es : List (κ × ε),
      xs.mapM (fun x => (key x).map fun k => (k, x)) = some es ∧ es.map Prod.snd = xs ∧
        ∀ e ∈ es, key e.2 = some e.1 := by
    clear hnodup
    induction xs with
    | nil => exact ⟨[], rfl, rfl, fun e he => absurd he List.not_mem_nil⟩
    | cons x xs ih =>
      obtain ⟨k, hk⟩ := hsome x List.mem_cons_self
      obtain ⟨es, hes, hsnd, hkeys⟩ := ih fun y hy => hsome y (List.mem_cons_of_mem _ hy)
      refine ⟨(k, x) :: es, ?_, by rw [List.map_cons, hsnd], ?_⟩
      · rw [List.mapM_cons, hk, hes]
        rfl
      · exact List.forall_mem_cons.mpr ⟨hk, hkeys⟩
  have hfst : es.map (fun e => some e.1) = xs.map key := by
    rw [← hsnd, List.map_map]
    exact List.map_congr_left fun e he => (hkeys e he).symm
  have hdistinct : (es.map Prod.fst).Nodup := by
    rw [← hfst] at hnodup
    have hmap : es.map (fun e => some e.1) = (es.map Prod.fst).map some := by
      rw [List.map_map]
      rfl
    rw [hmap] at hnodup
    exact hnodup.of_map some
  have hentries := entries_ofList hdistinct
  refine ⟨ofList es, by rw [keyed, hes, Option.map_some], ?_, ?_⟩
  · unfold values
    rw [hentries, hsnd]
  · intro k e hget
    rw [← mem_entries_iff, hentries] at hget
    exact hkeys _ hget

theorem keyedBy_settleAll {settle : κ → ν → Option ε → ε} {news : List (κ × ν)} {d : Dict κ ε}
    (hd : KeyedBy key d) (hnews : (news.map Prod.fst).Nodup)
    (hsettle : ∀ k n, (k, n) ∈ news → ∀ o, (∀ e, o = some e → key e = some k) →
      key (settle k n o) = some k) :
    KeyedBy key (settleAll settle news d) := by
  intro k e hget
  by_cases hk : k ∈ news.map Prod.fst
  · obtain ⟨n, hn, rfl⟩ := List.mem_map.mp hk
    rw [get?_settleAll_of_mem hnews hn] at hget
    rw [← Option.some.inj hget]
    exact hsettle n.1 n.2 hn _ fun e he => hd n.1 e he
  · rw [get?_settleAll_of_not_mem hk] at hget
    exact hd k e hget

end Keyed

end Dict

/-! ### A table as a list in order -/

section Rebuild

variable {κ : Type u} {ν : Type v} {ε : Type w} {σ ρ : Type*} [DecidableEq κ] [LinearOrder ρ]

/-- Key the elements, settle the new values, and put the table in order. -/
def rebuild (key : ε → Option κ) (order : ε → ρ) (settle : κ → ν → Option ε → ε)
    (news : List (κ × ν)) (xs : List ε) : Option (List ε) :=
  (Dict.keyed key xs).map fun d => sortBy order (d.settleAll settle news).values

/-- What settling has to keep: a settled element has the key it is settled for, and
settling once more, in whatever circumstances, leaves it alone. -/
structure Settling (key : ε → Option κ) (settle : σ → κ → ν → Option ε → ε)
    (news : List (κ × ν)) : Prop where
  nodup : (news.map Prod.fst).Nodup
  key_settle : ∀ s k n, (k, n) ∈ news → ∀ o, (∀ e, o = some e → key e = some k) →
    key (settle s k n o) = some k
  settle_settle : ∀ s s' k n, (k, n) ∈ news → ∀ o,
    settle s' k n (some (settle s k n o)) = settle s k n o

/-- An element that meets the test of the new value stays, any other gives way. -/
def keepOr (keeps : ν → ε → Prop) [∀ n e, Decidable (keeps n e)] (fresh : ν → ε) (n : ν) :
    Option ε → ε
  | none => fresh n
  | some old => if keeps n old then old else fresh n

/-- What is left meets the test, when every new element does. -/
theorem keeps_keepOr {keeps : ν → ε → Prop} [∀ n e, Decidable (keeps n e)] {fresh : ν → ε}
    {n : ν} (h : keeps n (fresh n)) (old : Option ε) : keeps n (keepOr keeps fresh n old) := by
  cases old with
  | none => exact h
  | some old =>
    show keeps n (if keeps n old then old else fresh n)
    split
    · assumption
    · exact h

omit [DecidableEq κ] in
theorem settling_keepOr {key : ε → Option κ} {keeps : ν → ε → Prop}
    [∀ n e, Decidable (keeps n e)] {fresh : σ → ν → ε} {news : List (κ × ν)}
    (hnodup : (news.map Prod.fst).Nodup)
    (hkey : ∀ s k n, (k, n) ∈ news → key (fresh s n) = some k)
    (hkeeps : ∀ s n, keeps n (fresh s n)) :
    Settling key (fun s _ => keepOr keeps (fresh s)) news where
  nodup := hnodup
  key_settle := by
    intro s k n hn old hold
    cases old with
    | none => exact hkey s k n hn
    | some old =>
      show key (if keeps n old then old else fresh s n) = some k
      split
      · exact hold old rfl
      · exact hkey s k n hn
  settle_settle := by
    intro s s' k n _ old
    exact if_pos (keeps_keepOr (hkeeps s n) old)

/-- A table after a rebuild: no key is lost, and what no new value has the key of is
there as it was. -/
structure Retains (key : ε → Option κ) (news : List κ) (before after : List ε) : Prop where
  keys : ∀ x ∈ before, ∃ y ∈ after, key y = key x
  untouched : ∀ x ∈ before, (∀ k ∈ news, key x ≠ some k) → x ∈ after

variable {key : ε → Option κ} {order : ε → ρ} {settle : σ → κ → ν → Option ε → ε}
  {news : List (κ × ν)} {xs : List ε}

/-- What stands under its key in a table that was settled. -/
theorem retains_settleAll (h : Settling key settle news) (s : σ)
    (hsome : ∀ x ∈ xs, ∃ k, key x = some k) {ys : List ε}
    (hout : ∀ x ∈ xs, ∀ k, key x = some k → k ∉ news.map Prod.fst → x ∈ ys)
    (hin : ∀ x ∈ xs, ∀ k n, key x = some k → (k, n) ∈ news → settle s k n (some x) ∈ ys) :
    Retains key (news.map Prod.fst) xs ys where
  keys := by
    intro x hx
    obtain ⟨k, hk⟩ := hsome x hx
    by_cases hmem : k ∈ news.map Prod.fst
    · obtain ⟨n, hn, rfl⟩ := List.mem_map.mp hmem
      refine ⟨_, hin x hx n.1 n.2 hk hn, ?_⟩
      rw [hk]
      apply h.key_settle s n.1 n.2 hn
      intro e he
      rwa [← Option.some.inj he]
    · exact ⟨x, hout x hx k hk hmem, rfl⟩
  untouched := by
    intro x hx hnot
    obtain ⟨k, hk⟩ := hsome x hx
    exact hout x hx k hk fun hmem => hnot k hmem hk

/-- The table of a dictionary, put in order, has the keys of the dictionary. -/
theorem table_of_keyedBy {d : Dict κ ε} (hd : Dict.KeyedBy key d) :
    (∀ y ∈ sortBy order d.values, ∃ k, key y = some k) ∧
      ((sortBy order d.values).map key).Nodup := by
  constructor
  · intro y hy
    obtain ⟨k, hk⟩ := (Dict.mem_values_iff d y).mp (mem_sortBy.mp hy)
    exact ⟨k, hd k y hk⟩
  · rw [((sortBy_perm order d.values).map key).nodup_iff, hd.map_values]
    exact d.nodup.map (Option.some_injective κ)

/-- A table in which every new value has settled is rebuilt as it is. -/
theorem rebuild_of_settled {d : Dict κ ε} (hd : Dict.KeyedBy key d) {f : κ → ν → Option ε → ε}
    (hself : ∀ k n, (k, n) ∈ news → ∃ e, d.get? k = some e ∧ f k n (some e) = e) :
    rebuild key order f news (sortBy order d.values) = some (sortBy order d.values) := by
  have htable : (∀ y ∈ sortBy order d.values, ∃ k, key y = some k) ∧
      ((sortBy order d.values).map key).Nodup := table_of_keyedBy hd
  obtain ⟨d', hd', hvalues, hkeyed⟩ := Dict.keyed_of_nodup htable.1 htable.2
  have hsettled : d'.settleAll f news = d' := by
    apply Dict.settleAll_eq_self
    intro k n hn
    obtain ⟨e, he, hsettle⟩ := hself k n hn
    refine ⟨e, ?_, hsettle⟩
    rw [hkeyed.get?_eq_some_iff, hvalues, mem_sortBy]
    exact hd.get?_eq_some_iff.mp he
  rw [rebuild, hd', Option.map_some, hsettled, hvalues, sortBy_sortBy]

/-- A table with distinct keys is rebuilt. No key is lost, an element that every new value
settles to itself stays, and another rebuild with the same values changes nothing. -/
theorem rebuild_keeps (h : Settling key settle news) (s : σ)
    (hsome : ∀ x ∈ xs, ∃ k, key x = some k) (hnodup : (xs.map key).Nodup) :
    ∃ ys, rebuild key order (settle s) news xs = some ys ∧
      Retains key (news.map Prod.fst) xs ys ∧
      (∀ x ∈ xs, (∀ k n, settle s k n (some x) = x) → x ∈ ys) ∧
      (∀ y ∈ ys, ∃ k, key y = some k) ∧ (ys.map key).Nodup ∧
      ∀ s', rebuild key order (settle s') news ys = some ys := by
  obtain ⟨d, hd, hvalues, hkeyed⟩ := Dict.keyed_of_nodup hsome hnodup
  have hkeyed' : Dict.KeyedBy key (d.settleAll (settle s) news) :=
    Dict.keyedBy_settleAll hkeyed h.nodup (h.key_settle s)
  have hget : ∀ x ∈ xs, ∀ k, key x = some k → d.get? k = some x := by
    intro x hx k hk
    exact hkeyed.get?_eq_some_iff.mpr ⟨hvalues ▸ hx, hk⟩
  have hout : ∀ x ∈ xs, ∀ k, key x = some k → k ∉ news.map Prod.fst →
      x ∈ sortBy order (d.settleAll (settle s) news).values := by
    intro x hx k hk hnot
    rw [mem_sortBy, Dict.mem_values_iff]
    refine ⟨k, ?_⟩
    rw [Dict.get?_settleAll_of_not_mem hnot]
    exact hget x hx k hk
  have hin : ∀ x ∈ xs, ∀ k n, key x = some k → (k, n) ∈ news →
      settle s k n (some x) ∈ sortBy order (d.settleAll (settle s) news).values := by
    intro x hx k n hk hn
    rw [mem_sortBy, Dict.mem_values_iff]
    refine ⟨k, ?_⟩
    rw [Dict.get?_settleAll_of_mem h.nodup hn, hget x hx k hk]
  have htable : (∀ y ∈ sortBy order (d.settleAll (settle s) news).values, ∃ k, key y = some k) ∧
      ((sortBy order (d.settleAll (settle s) news).values).map key).Nodup :=
    table_of_keyedBy hkeyed'
  refine ⟨_, by rw [rebuild, hd, Option.map_some], retains_settleAll h s hsome hout hin, ?_,
    htable.1, htable.2, ?_⟩
  · intro x hx hself
    obtain ⟨k, hk⟩ := hsome x hx
    by_cases hnew : k ∈ news.map Prod.fst
    · obtain ⟨n, hn, rfl⟩ := List.mem_map.mp hnew
      have hsettled := hin x hx n.1 n.2 hk hn
      rwa [hself] at hsettled
    · exact hout x hx k hk hnew
  · intro s'
    apply rebuild_of_settled hkeyed'
    intro k n hn
    exact ⟨_, Dict.get?_settleAll_of_mem h.nodup hn d, h.settle_settle s s' k n hn _⟩

end Rebuild

end Lib
