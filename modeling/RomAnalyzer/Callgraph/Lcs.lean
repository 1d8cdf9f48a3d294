import RomAnalyzer.Lib.Pairing
import RomAnalyzer.Callgraph.Align

/-!
# The alignment is a longest one

The table takes compatible heads without comparing what it would get by leaving one of
them out. That is sound for any relation: a pairing loses at most one pair when both
heads go.
-/
namespace RomAnalyzer.Callgraph

open Lib
open Ghidra (HeadlessRun)

/-- `_lcs_align` with the test on a pair of callees as a parameter. -/
def alignBy (ok : Nat → Nat → Bool) (refCallees newCallees : List Nat) : List (Nat × Nat) :=
  (lcsWalk ok refCallees.reverse newCallees.reverse).reverse

variable {ok : Nat → Nat → Bool}

/-- No pairing has more pairs than the table says. -/
theorem length_le_lcsLength {xs ys : List Nat} {pairs : List (Nat × Nat)}
    (h : OrderPreserving ok xs ys pairs) : pairs.length ≤ lcsLength ok xs ys := by
  fun_induction lcsLength ok xs ys generalizing pairs with
  | case1 ys =>
    rw [h.eq_nil_left]
    exact Nat.le_refl 0
  | case2 x xs =>
    rw [h.eq_nil_right]
    exact Nat.le_refl 0
  | case3 x xs y ys _ ih =>
    -- at most the first pair is lost with the two heads
    have hrest := ih h.tail
    rw [List.length_tail] at hrest
    omega
  | case4 x xs y ys hok ihx ihy =>
    rcases h.skips_head (Bool.eq_false_iff.mpr hok) with hskip | hskip
    · have hlength := ihx hskip
      omega
    · have hlength := ihy hskip
      omega

/-- The walk collects as many pairs as the table says. -/
theorem length_lcsWalk (xs ys : List Nat) : (lcsWalk ok xs ys).length = lcsLength ok xs ys := by
  fun_induction lcsWalk ok xs ys with
  | case1 ys => simp [lcsLength]
  | case2 x xs => simp [lcsLength]
  | case3 x xs y ys hok ih => rw [List.length_cons, ih, lcsLength, if_pos hok]
  | case4 x xs y ys hok hle ih => rw [ih, lcsLength, if_neg hok, Nat.max_eq_left hle]
  | case5 x xs y ys hok hlt ih =>
    have hle : lcsLength ok xs (y :: ys) ≤ lcsLength ok (x :: xs) ys := by omega
    rw [ih, lcsLength, if_neg hok, Nat.max_eq_right hle]

theorem lcsWalk_longest (xs ys : List Nat) : LongestPairing ok xs ys (lcsWalk ok xs ys) where
  pairing := by
    have hwalk := lcsWalk_sublist ok xs ys
    exact orderPreserving_iff_sublist.mpr
      ⟨hwalk.1, hwalk.2, fun p hp => ok_of_mem_lcsWalk hp⟩
  longest := by
    intro pairs hpairs
    rw [length_lcsWalk]
    exact length_le_lcsLength hpairs

theorem alignBy_longest (ok : Nat → Nat → Bool) (refCallees newCallees : List Nat) :
    LongestPairing ok refCallees newCallees (alignBy ok refCallees newCallees) := by
  have hwalk : LongestPairing ok refCallees.reverse newCallees.reverse _ := lcsWalk_longest _ _
  have hback := hwalk.reverse
  rw [List.reverse_reverse, List.reverse_reverse] at hback
  exact hback

/-! ### The table and the walk over its indices -/

section Table

variable (ok : Nat → Nat → Bool)

/-- `dp[i][j]` from `dp[i - 1]` and the cells of its own row up to `dp[i][j - 1]`. -/
def dpCell (above row : List Nat) (x y : Nat) : Nat :=
  let left := row.length - 1
  if ok x y then above.getD left 0 + 1
  else max (above.getD (left + 1) 0) (row.getD left 0)

def dpRow (above : List Nat) (x : Nat) (newCallees : List Nat) : List Nat :=
  newCallees.foldl (fun row y => row ++ [dpCell ok above row x y]) [0]

def dpTable (refCallees newCallees : List Nat) : List (List Nat) :=
  refCallees.foldl (fun dp x => dp ++ [dpRow ok (dp.getLastD []) x newCallees])
    [List.replicate (newCallees.length + 1) 0]

/-- `while i > 0 and j > 0`: the pairs in the order in which the walk finds them. -/
def traceback (dp : List (List Nat)) (refCallees newCallees : List Nat) :
    Nat → Nat → List (Nat × Nat)
  | 0, _ => []
  | _ + 1, 0 => []
  | i + 1, j + 1 =>
    let x := refCallees.getD i 0
    let y := newCallees.getD j 0
    if ok x y then (x, y) :: traceback dp refCallees newCallees i j
    else if (dp.getD (i + 1) []).getD j 0 ≤ (dp.getD i []).getD (j + 1) 0 then
      traceback dp refCallees newCallees i (j + 1)
    else traceback dp refCallees newCallees (i + 1) j
termination_by i j => i + j

def tableAlign (refCallees newCallees : List Nat) : List (Nat × Nat) :=
  (traceback ok (dpTable ok refCallees newCallees) refCallees newCallees refCallees.length
    newCallees.length).reverse

/-- What the cell of two prefixes should hold. -/
def prefixLength (xs ys : List Nat) : Nat := lcsLength ok xs.reverse ys.reverse

variable {ok}

theorem prefixLength_nil_left (ys : List Nat) : prefixLength ok [] ys = 0 := by
  rw [prefixLength, List.reverse_nil, lcsLength]

theorem prefixLength_nil_right (xs : List Nat) : prefixLength ok xs [] = 0 := by
  rw [prefixLength, List.reverse_nil]
  cases xs.reverse with
  | nil => rw [lcsLength]
  | cons x xs => rw [lcsLength]

theorem prefixLength_concat (xs ys : List Nat) (x y : Nat) :
    prefixLength ok (xs ++ [x]) (ys ++ [y]) =
      if ok x y then prefixLength ok xs ys + 1
      else max (prefixLength ok xs (ys ++ [y])) (prefixLength ok (xs ++ [x]) ys) := by
  simp only [prefixLength, List.reverse_append, List.reverse_singleton, List.singleton_append,
    lcsLength]

theorem inits_concat {α : Type*} (xs : List α) (x : α) :
    (xs ++ [x]).inits = xs.inits ++ [xs ++ [x]] := by
  rw [List.inits_append]
  rfl

theorem getD_map_inits {α β : Type*} (f : List α → β) (d : β) {xs : List α} {i : Nat}
    (hi : i ≤ xs.length) : (xs.inits.map f).getD i d = f (xs.take i) := by
  have hlt : i < xs.inits.length := by
    rw [List.length_inits]
    omega
  rw [List.getD_eq_getElem?_getD, List.getElem?_map, List.getElem?_eq_getElem hlt,
    List.getElem_inits]
  rfl

/-- A row holds the lengths for the prefixes of the new callees. -/
theorem dpRow_eq (xs : List Nat) (x : Nat) (newCallees : List Nat) :
    dpRow ok (newCallees.inits.map (prefixLength ok xs)) x newCallees =
      newCallees.inits.map (prefixLength ok (xs ++ [x])) := by
  have hprefix : ∀ ys, ys <+: newCallees →
      ys.foldl (fun row y => row ++
          [dpCell ok (newCallees.inits.map (prefixLength ok xs)) row x y]) [0] =
        ys.inits.map (prefixLength ok (xs ++ [x])) := by
    intro ys
    induction ys using List.reverseRecOn with
    | nil =>
      intro _
      rw [List.inits, List.map_singleton, prefixLength_nil_right]
      rfl
    | append_singleton ys y ih =>
      intro hpre
      have hshort : ys <+: newCallees := (List.prefix_append ys [y]).trans hpre
      have hle := hpre.length_le
      rw [List.length_append, List.length_singleton] at hle
      have hleft : newCallees.take ys.length = ys := (List.prefix_iff_eq_take.mp hshort).symm
      have hcell : newCallees.take (ys.length + 1) = ys ++ [y] := by
        have htake := List.prefix_iff_eq_take.mp hpre
        rw [List.length_append, List.length_singleton] at htake
        exact htake.symm
      rw [List.foldl_append, List.foldl_cons, List.foldl_nil, ih hshort, inits_concat,
        List.map_append, List.map_singleton, prefixLength_concat, dpCell]
      rw [List.length_map, List.length_inits, Nat.add_sub_cancel, getD_map_inits _ _ (by omega),
        getD_map_inits _ _ (by omega), getD_map_inits _ _ le_rfl, hleft, hcell, List.take_length]
  exact hprefix newCallees (List.prefix_refl newCallees)

/-- The table holds the lengths for all pairs of prefixes. -/
theorem dpTable_eq (refCallees newCallees : List Nat) :
    dpTable ok refCallees newCallees =
      refCallees.inits.map fun xs => newCallees.inits.map (prefixLength ok xs) := by
  unfold dpTable
  induction refCallees using List.reverseRecOn with
  | nil =>
    have hzero : newCallees.inits.map (prefixLength ok []) =
        List.replicate (newCallees.length + 1) 0 := by
      rw [← List.length_inits, ← List.map_const']
      exact List.map_congr_left fun ys _ => prefixLength_nil_left ys
    rw [List.inits, List.map_singleton, hzero]
    rfl
  | append_singleton xs x ih =>
    have hlast : ((xs.inits.map fun xs => newCallees.inits.map (prefixLength ok xs)).getLastD
        []) = newCallees.inits.map (prefixLength ok xs) := by
      rw [List.getLastD_eq_getLast?, List.getLast?_eq_getElem?, List.length_map,
        List.length_inits, Nat.add_sub_cancel, ← List.getD_eq_getElem?_getD,
        getD_map_inits _ _ le_rfl, List.take_length]
    rw [List.foldl_append, List.foldl_cons, List.foldl_nil, ih, hlast, dpRow_eq, inits_concat,
      List.map_append, List.map_singleton]

theorem getD_dpTable {refCallees newCallees : List Nat} {i j : Nat}
    (hi : i ≤ refCallees.length) (hj : j ≤ newCallees.length) :
    ((dpTable ok refCallees newCallees).getD i []).getD j 0 =
      prefixLength ok (refCallees.take i) (newCallees.take j) := by
  rw [dpTable_eq, getD_map_inits _ _ hi, getD_map_inits _ _ hj]

theorem reverse_take_succ {xs : List Nat} {i : Nat} (hi : i < xs.length) :
    (xs.take (i + 1)).reverse = xs.getD i 0 :: (xs.take i).reverse := by
  rw [List.take_add_one, List.getElem?_eq_getElem hi, List.reverse_append,
    List.getD_eq_getElem?_getD, List.getElem?_eq_getElem hi]
  rfl

/-- The walk over the indices is the walk back from the ends of the prefixes. -/
theorem traceback_eq (refCallees newCallees : List Nat) (i j : Nat)
    (hi : i ≤ refCallees.length) (hj : j ≤ newCallees.length) :
    traceback ok (dpTable ok refCallees newCallees) refCallees newCallees i j =
      lcsWalk ok (refCallees.take i).reverse (newCallees.take j).reverse := by
  fun_induction traceback ok (dpTable ok refCallees newCallees) refCallees newCallees i j with
  | case1 j => rw [List.take_zero, List.reverse_nil, lcsWalk]
  | case2 i =>
    rw [reverse_take_succ (by omega), List.take_zero, List.reverse_nil, lcsWalk]
  | case3 i j x y hok ih =>
    rw [reverse_take_succ (by omega), reverse_take_succ (by omega), lcsWalk, if_pos hok,
      ih (by omega) (by omega)]
  | case4 i j x y hok hle ih =>
    rw [getD_dpTable hi (by omega), getD_dpTable (by omega) hj, prefixLength, prefixLength,
      reverse_take_succ (by omega), reverse_take_succ (by omega)] at hle
    rw [ih (by omega) hj, reverse_take_succ (by omega : i < refCallees.length),
      reverse_take_succ (by omega : j < newCallees.length), lcsWalk, if_neg hok, if_pos hle]
  | case5 i j x y hok hlt ih =>
    rw [getD_dpTable hi (by omega), getD_dpTable (by omega) hj, prefixLength, prefixLength,
      reverse_take_succ (by omega), reverse_take_succ (by omega)] at hlt
    rw [ih hi (by omega), reverse_take_succ (by omega : i < refCallees.length),
      reverse_take_succ (by omega : j < newCallees.length), lcsWalk, if_neg hok, if_neg hlt]

/-- Table and index walk find the alignment. -/
theorem tableAlign_eq (refCallees newCallees : List Nat) :
    tableAlign ok refCallees newCallees = alignBy ok refCallees newCallees := by
  rw [tableAlign, alignBy, traceback_eq _ _ _ _ le_rfl le_rfl, List.take_length, List.take_length]

end Table

/-- Whatever the test on callees answers, the pairs that the walk over the table collects
are an order-preserving pairing of compatible callees with as many pairs as there can be;
the size test is one case. -/
theorem lcsAlign_longest (refCallees newCallees : List Nat) (refRun newRun : HeadlessRun)
    (sizeTol : ℚ) :
    (∀ ok, LongestPairing ok refCallees newCallees (tableAlign ok refCallees newCallees)) ∧
    lcsAlign refCallees newCallees refRun newRun sizeTol =
      tableAlign (fun r n => sizeRatioOk r n refRun newRun sizeTol) refCallees newCallees ∧
    LongestPairing (fun r n => sizeRatioOk r n refRun newRun sizeTol) refCallees newCallees
      (lcsAlign refCallees newCallees refRun newRun sizeTol) := by
  refine ⟨fun ok => ?_, ?_, alignBy_longest _ _ _⟩
  · rw [tableAlign_eq]
    exact alignBy_longest ok refCallees newCallees
  · rw [tableAlign_eq]
    rfl

end RomAnalyzer.Callgraph
