import RomAnalyzer.Lib.Loop

/-!
# Breadth-first search to a bounded depth

Nodes are marked when they are first met and then put at the end of a FIFO
queue with their depth, so at any time the queue holds what is left of one level
followed by what is known of the next. That shape is the invariant: it makes
the depth at which a node is met its distance from the roots, which is what the
depth bound needs to lose nothing.
-/
namespace Lib

universe u

variable {α : Type u}

/-- `y` is the end of a path of exactly `k` steps from a root. -/
inductive ReachIn (succ : α → List α) (roots : List α) : Nat → α → Prop
  | root {r : α} : r ∈ roots → ReachIn succ roots 0 r
  | step {k : Nat} {x y : α} : ReachIn succ roots k x → y ∈ succ x →
      ReachIn succ roots (k + 1) y

theorem reachIn_zero_iff {succ : α → List α} {roots : List α} {y : α} :
    ReachIn succ roots 0 y ↔ y ∈ roots := by
  constructor
  · intro h
    cases h
    assumption
  · exact ReachIn.root

structure BfsState (α : Type u) where
  queue : List (α × Nat)
  seen : List α

variable [DecidableEq α]

/-- The members of `ys` met for the first time, in order. -/
def fresh (seen : List α) : List α → List α
  | [] => []
  | y :: ys => if y ∈ seen then fresh seen ys else y :: fresh (seen ++ [y]) ys

def bfsVisit (depth : Nat) (s : BfsState α) (y : α) : BfsState α :=
  if y ∈ s.seen then s else ⟨s.queue ++ [(y, depth + 1)], s.seen ++ [y]⟩

/-- One round of `while queue`: pop, and expand unless the depth is used up. -/
def bfsRound (succ : α → List α) (limit : Nat) (s : BfsState α) : BfsState α × Bool :=
  match s.queue with
  | [] => (s, false)
  | (x, d) :: rest =>
    if limit ≤ d then (⟨rest, s.seen⟩, true)
    else ((succ x).foldl (bfsVisit d) ⟨rest, s.seen⟩, true)

def bfsInit (roots : List α) : BfsState α := ⟨roots.map fun r => (r, 0), roots⟩

theorem mem_fresh {seen ys : List α} {y : α} : y ∈ fresh seen ys ↔ y ∈ ys ∧ y ∉ seen := by
  induction ys generalizing seen with
  | nil => simp [fresh]
  | cons z zs ih =>
    by_cases hz : z ∈ seen
    · simp only [fresh, hz, ↓reduceIte, ih, List.mem_cons]
      constructor
      · exact fun h => ⟨Or.inr h.1, h.2⟩
      · intro hgiven
        obtain ⟨rfl | h, hn⟩ := hgiven
        · exact absurd hz hn
        · exact ⟨h, hn⟩
    · simp only [fresh, hz, ↓reduceIte, List.mem_cons, ih, List.mem_append, List.not_mem_nil,
        or_false, not_or]
      by_cases hy : y = z
      · simp [hy, hz]
      · simp [hy]

theorem nodup_fresh (seen ys : List α) : (fresh seen ys).Nodup := by
  induction ys generalizing seen with
  | nil => simp [fresh]
  | cons z zs ih =>
    by_cases hz : z ∈ seen
    · simpa [fresh, hz] using ih seen
    · simp only [fresh, hz, ↓reduceIte, List.nodup_cons]
      exact ⟨fun h => (mem_fresh.mp h).2 (by simp), ih _⟩

/-- Expanding a node appends its fresh neighbours to the queue and to the marks. -/
theorem foldl_bfsVisit (d : Nat) (ys : List α) (s : BfsState α) :
    ys.foldl (bfsVisit d) s =
      ⟨s.queue ++ (fresh s.seen ys).map fun y => (y, d + 1), s.seen ++ fresh s.seen ys⟩ := by
  induction ys generalizing s with
  | nil => simp [fresh]
  | cons z zs ih =>
    rw [List.foldl_cons, ih]
    by_cases hz : z ∈ s.seen
    · simp [bfsVisit, fresh, hz]
    · simp [bfsVisit, fresh, hz]

section Levels

variable (succ : α → List α) (roots : List α) (limit : Nat)

/-- The queue is the rest `cur` of level `d`, then the known part `next` of level
`d + 1`; what is marked is what is within `d` steps, and `next`. -/
structure AtLevel (d : Nat) (cur next : List α) (s : BfsState α) : Prop where
  queue_eq : s.queue = (cur.map fun x => (x, d)) ++ next.map fun y => (y, d + 1)
  le_limit : d ≤ limit
  lt_limit : next ≠ [] → d < limit
  sound : ∀ y ∈ s.seen, (∃ k ≤ d, ReachIn succ roots k y) ∨ y ∈ next
  cur_reach : ∀ x ∈ cur, ReachIn succ roots d x
  next_reach : ∀ y ∈ next, ReachIn succ roots (d + 1) y
  complete : ∀ k ≤ d, ∀ y, ReachIn succ roots k y → y ∈ s.seen
  closed : d < limit → ∀ x, ReachIn succ roots d x → x ∈ cur ∨ ∀ z ∈ succ x, z ∈ s.seen
  found : ∃ found, s.seen = roots ++ found ∧ found.Nodup ∧ ∀ y ∈ found, y ∉ roots

variable {succ roots limit} {d : Nat} {cur next : List α} {s : BfsState α}

omit [DecidableEq α] in
theorem atLevel_init : AtLevel succ roots limit 0 roots [] (bfsInit roots) where
  queue_eq := by simp [bfsInit]
  le_limit := Nat.zero_le _
  lt_limit := fun h => absurd rfl h
  sound := fun y hy => Or.inl ⟨0, le_rfl, .root hy⟩
  cur_reach := fun x hx => .root hx
  next_reach := by simp
  complete := by
    intro k hk y hy
    obtain rfl : k = 0 := by omega
    exact reachIn_zero_iff.mp hy
  closed := fun _ x hx => Or.inl (reachIn_zero_iff.mp hx)
  found := ⟨[], by simp [bfsInit]⟩

omit [DecidableEq α] in
/-- A finished level hands over to the next one. -/
theorem AtLevel.shift (h : AtLevel succ roots limit d [] next s) (hne : next ≠ []) :
    AtLevel succ roots limit (d + 1) next [] s := by
  have hlt := h.lt_limit hne
  have hcomplete : ∀ k ≤ d + 1, ∀ y, ReachIn succ roots k y → y ∈ s.seen := by
    intro k hk y hy
    rcases Nat.lt_or_ge d k with hdk | hdk
    · obtain rfl : k = d + 1 := by omega
      cases hy with
      | step hx hyx =>
        rcases h.closed hlt _ hx with hc | hc
        · exact absurd hc List.not_mem_nil
        · exact hc y hyx
    · exact h.complete k hdk y hy
  constructor
  · simpa using h.queue_eq
  · exact hlt
  · exact fun hn => absurd rfl hn
  · intro y hy
    rcases h.sound y hy with ⟨k, hk, hr⟩ | hn
    · exact Or.inl ⟨k, by omega, hr⟩
    · exact Or.inl ⟨d + 1, le_rfl, h.next_reach y hn⟩
  · exact h.next_reach
  · simp
  · exact hcomplete
  · intro _ x hx
    rcases h.sound x (hcomplete _ le_rfl x hx) with ⟨k, hk, hr⟩ | hn
    · exact Or.inr fun z hz => hcomplete (k + 1) (by omega) z (.step hr hz)
    · exact Or.inl hn
  · exact h.found

theorem round_of_le {x : α} {rest : List (α × Nat)} (hq : s.queue = (x, d) :: rest)
    (hd : limit ≤ d) : bfsRound succ limit s = (⟨rest, s.seen⟩, true) := by
  simp [bfsRound, hq, hd]

theorem round_of_lt {x : α} {rest : List (α × Nat)} (hq : s.queue = (x, d) :: rest)
    (hd : ¬ limit ≤ d) :
    bfsRound succ limit s =
      (⟨rest ++ (fresh s.seen (succ x)).map fun y => (y, d + 1),
        s.seen ++ fresh s.seen (succ x)⟩, true) := by
  simp [bfsRound, hq, hd, foldl_bfsVisit]

/-- Popping a node of the current level keeps the shape of the queue. -/
theorem AtLevel.pop {x : α} (h : AtLevel succ roots limit d (x :: cur) next s) :
    ∃ next', AtLevel succ roots limit d cur next' (bfsRound succ limit s).1 := by
  have hq : s.queue = (x, d) :: ((cur.map fun x => (x, d)) ++ next.map fun y => (y, d + 1)) := by
    simpa using h.queue_eq
  by_cases hd : limit ≤ d
  · refine ⟨next, ?_⟩
    rw [round_of_le hq hd]
    exact {
      queue_eq := rfl
      le_limit := h.le_limit
      lt_limit := h.lt_limit
      sound := h.sound
      cur_reach := fun y hy => h.cur_reach y (List.mem_cons_of_mem _ hy)
      next_reach := h.next_reach
      complete := h.complete
      closed := fun hlt => absurd hd (Nat.not_le.mpr hlt)
      found := h.found }
  · have hx : ReachIn succ roots d x := h.cur_reach x List.mem_cons_self
    refine ⟨next ++ fresh s.seen (succ x), ?_⟩
    rw [round_of_lt hq hd]
    constructor
    · simp [List.append_assoc]
    · exact h.le_limit
    · exact fun _ => Nat.not_le.mp hd
    · intro y hy
      rcases List.mem_append.mp hy with hy | hy
      · rcases h.sound y hy with hk | hn
        · exact Or.inl hk
        · exact Or.inr (List.mem_append_left _ hn)
      · exact Or.inr (List.mem_append_right _ hy)
    · exact fun y hy => h.cur_reach y (List.mem_cons_of_mem _ hy)
    · intro y hy
      rcases List.mem_append.mp hy with hy | hy
      · exact h.next_reach y hy
      · exact .step hx (mem_fresh.mp hy).1
    · exact fun k hk y hy => List.mem_append_left _ (h.complete k hk y hy)
    · intro hlt y hy
      by_cases hyx : y = x
      · -- the node just expanded: every neighbour was marked before or is fresh
        subst hyx
        apply Or.inr
        intro z hz
        by_cases hs : z ∈ s.seen
        · exact List.mem_append_left _ hs
        · exact List.mem_append_right _ (mem_fresh.mpr ⟨hz, hs⟩)
      · rcases h.closed hlt y hy with hc | hc
        · rcases List.mem_cons.mp hc with he | hc
          · exact absurd he hyx
          · exact Or.inl hc
        · exact Or.inr fun z hz => List.mem_append_left _ (hc z hz)
    · obtain ⟨found, he, hnd, hroots⟩ := h.found
      refine ⟨found ++ fresh s.seen (succ x), by simp [he], ?_, ?_⟩
      · refine List.nodup_append.mpr ⟨hnd, nodup_fresh _ _, ?_⟩
        rintro a ha b hb rfl
        exact (mem_fresh.mp hb).2 (he ▸ List.mem_append_right _ ha)
      · intro y hy
        rcases List.mem_append.mp hy with hy | hy
        · exact hroots y hy
        · exact fun hr => (mem_fresh.mp hy).2 (he ▸ List.mem_append_left _ hr)

/-- What every round preserves. -/
def BfsInv (succ : α → List α) (roots : List α) (limit : Nat) (s : BfsState α) : Prop :=
  ∃ d cur next, AtLevel succ roots limit d cur next s

theorem bfsInv_round (h : BfsInv succ roots limit s) :
    BfsInv succ roots limit (bfsRound succ limit s).1 := by
  obtain ⟨d, cur, next, h⟩ := h
  cases cur with
  | cons x cur =>
    obtain ⟨next', h'⟩ := h.pop
    exact ⟨d, cur, next', h'⟩
  | nil =>
    cases next with
    | nil =>
      have hq : s.queue = [] := by simpa using h.queue_eq
      have hr : bfsRound succ limit s = (s, false) := by simp [bfsRound, hq]
      exact ⟨d, [], [], by rw [hr]; exact h⟩
    | cons y next =>
      obtain ⟨next', h'⟩ := (h.shift (by simp)).pop
      exact ⟨d + 1, next, next', h'⟩

omit [DecidableEq α] in
/-- With an empty queue the marks are exactly what is within the bound. -/
theorem mem_seen_iff_of_stop (h : BfsInv succ roots limit s) (hq : s.queue = []) (y : α) :
    y ∈ s.seen ↔ ∃ k ≤ limit, ReachIn succ roots k y := by
  obtain ⟨d, cur, next, h⟩ := h
  have hqe := h.queue_eq
  rw [hq] at hqe
  obtain ⟨hc, hn⟩ := List.append_eq_nil_iff.mp hqe.symm
  rw [List.map_eq_nil_iff] at hc hn
  subst hc hn
  have hsound : ∀ y ∈ s.seen, ∃ k ≤ d, ReachIn succ roots k y := fun y hy =>
    (h.sound y hy).resolve_right List.not_mem_nil
  constructor
  · intro hy
    obtain ⟨k, hk, hr⟩ := hsound y hy
    exact ⟨k, hk.trans h.le_limit, hr⟩
  · intro h
    obtain ⟨k, hk, hr⟩ := h
    rcases Nat.lt_or_ge d limit with hlt | hge
    · -- the search ran dry before the bound: level `d` is closed under steps
      have hall : ∀ k y, ReachIn succ roots k y → ∃ j ≤ d, ReachIn succ roots j y := by
        intro k y hr
        induction hr with
        | root hr => exact ⟨0, Nat.zero_le _, .root hr⟩
        | step _ hyx ih =>
          obtain ⟨j, hj, hx⟩ := ih
          rcases Nat.lt_or_ge j d with hjd | hjd
          · exact ⟨j + 1, hjd, .step hx hyx⟩
          · obtain rfl : j = d := by omega
            rcases h.closed hlt _ hx with hm | hm
            · exact absurd hm List.not_mem_nil
            · exact hsound _ (hm _ hyx)
      obtain ⟨j, hj, hr'⟩ := hall k y hr
      exact h.complete j hj y hr'
    · exact h.complete k (hk.trans hge) y hr

/-- Marks still to be made in a universe that holds every neighbour, plus the queue. -/
def bfsMeasure (univ : List α) (s : BfsState α) : Nat :=
  (univ.toFinset \ s.seen.toFinset).card + s.queue.length

theorem bfsMeasure_fresh (univ : List α) (q : List (α × Nat)) (seen : List α) (d : Nat)
    (new : List α) (hnd : new.Nodup) (hnew : ∀ y ∈ new, y ∈ univ ∧ y ∉ seen) :
    bfsMeasure univ ⟨q ++ new.map fun y => (y, d), seen ++ new⟩ =
      bfsMeasure univ ⟨q, seen⟩ := by
  have hsub : new.toFinset ⊆ univ.toFinset \ seen.toFinset := by
    intro y hy
    have h := hnew y (List.mem_toFinset.mp hy)
    simpa using h
  have heq : univ.toFinset \ (seen ++ new).toFinset =
      (univ.toFinset \ seen.toFinset) \ new.toFinset := by
    rw [List.toFinset_append, sdiff_sdiff]
    rfl
  have hcard := Finset.card_sdiff_add_card_eq_card hsub
  rw [List.toFinset_card_of_nodup hnd] at hcard
  simp only [bfsMeasure, heq, List.length_append, List.length_map]
  omega

theorem bfsMeasure_round {univ : List α} (huniv : ∀ x y, y ∈ succ x → y ∈ univ)
    (h : (bfsRound succ limit s).2 = true) :
    bfsMeasure univ (bfsRound succ limit s).1 < bfsMeasure univ s := by
  cases hq : s.queue with
  | nil => simp [bfsRound, hq] at h
  | cons e rest =>
    obtain ⟨x, d⟩ := e
    have hpop : bfsMeasure univ ⟨rest, s.seen⟩ < bfsMeasure univ s := by
      simp only [bfsMeasure, hq, List.length_cons]
      omega
    by_cases hd : limit ≤ d
    · rw [round_of_le hq hd]
      exact hpop
    · rw [round_of_lt hq hd, bfsMeasure_fresh univ rest s.seen (d + 1) _ (nodup_fresh _ _)
        fun y hy => ⟨huniv x y (mem_fresh.mp hy).1, (mem_fresh.mp hy).2⟩]
      exact hpop

/-- The search halts, and the marks it adds to the roots are, each once, the other
nodes within the bound. -/
theorem bfs_total (succ : α → List α) (roots : List α) (limit : Nat) {univ : List α}
    (huniv : ∀ x y, y ∈ succ x → y ∈ univ) {fuel : Nat}
    (hfuel : roots.length + univ.length ≤ fuel) :
    ∃ t found, doWhile (bfsRound succ limit) fuel (bfsInit roots) = some t ∧
      t.seen = roots ++ found ∧ found.Nodup ∧
      ∀ y, y ∈ found ↔ y ∉ roots ∧ ∃ k ≤ limit, ReachIn succ roots k y := by
  have hm : bfsMeasure univ (bfsInit roots) ≤ fuel := by
    have hcard : (univ.toFinset \ roots.toFinset).card ≤ univ.length :=
      (Finset.card_le_card Finset.sdiff_subset).trans (List.toFinset_card_le univ)
    simp only [bfsMeasure, bfsInit, List.length_map]
    omega
  obtain ⟨last, hinv, hstop, hrun⟩ := doWhile_total (BfsInv succ roots limit) (bfsMeasure univ)
    (fun s hs => bfsInv_round hs) (fun s _ hb => bfsMeasure_round huniv hb) fuel
    (bfsInit roots) ⟨0, roots, [], atLevel_init⟩ hm
  have hq : last.queue = [] := by
    cases hq : last.queue with
    | nil => rfl
    | cons e rest =>
      by_cases hd : limit ≤ e.2 <;> simp [bfsRound, hq, hd] at hstop
  have hround : (bfsRound succ limit last).1 = last := by simp [bfsRound, hq]
  have hmem := mem_seen_iff_of_stop hinv hq
  obtain ⟨d, cur, next, hlevel⟩ := hinv
  obtain ⟨found, hseen, hnd, hroots⟩ := hlevel.found
  refine ⟨last, found, hround ▸ hrun, hseen, hnd, fun y => ?_⟩
  rw [← hmem y, hseen, List.mem_append]
  constructor
  · exact fun hy => ⟨hroots y hy, Or.inr hy⟩
  · exact fun hy => hy.2.resolve_left hy.1

end Levels

end Lib
