import RomAnalyzer.Ghidra.Session
import RomAnalyzer.Lib.Ranked

/-!
# Aligning callee lists

Helpers the call-graph phases share: function sizes, the size-ratio test, the
alignment of two callee lists, and the bytecode gate on a pair of callees.
-/
namespace RomAnalyzer.Callgraph

open Lib
open Ghidra (HeadlessRun)

/-- `sorted(int(f["entry"], 16) for f in run.functions)` -/
def sortedEntries (run : HeadlessRun) : List Nat :=
  sortBy id (run.functions.map Ghidra.ProgramFunction.entry)

/-- Distance to the next function entry, or 0 when it is unknown. -/
def funcSize (entry : Nat) (run : HeadlessRun) : Nat :=
  match (sortedEntries run).dropWhile (fun e => e ≠ entry) with
  | _ :: next :: _ => next - entry
  | _ => 0

/-- An unknown size rejects nothing. -/
def sizeRatioOk (refAddr newAddr : Nat) (refRun newRun : HeadlessRun)
    (tolerance : ℚ := 4 / 10) : Bool :=
  let refSz := funcSize refAddr refRun
  let newSz := funcSize newAddr newRun
  if refSz = 0 ∨ newSz = 0 then true
  else decide (1 - tolerance ≤ (min refSz newSz : ℚ) / (max refSz newSz : ℚ))

/-- The first user or analysis function symbol at an address. -/
def nameFor (addr : Nat) (run : HeadlessRun) : Option String :=
  (run.symbols.find? fun s =>
    (s.source = "USER_DEFINED" ∨ s.source = "ANALYSIS") ∧ s.type = "Function" ∧
      s.address = addr).map Ghidra.ProgramSymbol.name

section Lcs

variable (ok : Nat → Nat → Bool)

/-- `dp[i][j]`, where the lists are the first `i` and `j` callees read backwards. -/
def lcsLength : List Nat → List Nat → Nat
  | [], _ => 0
  | _ :: _, [] => 0
  | x :: xs, y :: ys =>
    if ok x y then lcsLength xs ys + 1
    else max (lcsLength xs (y :: ys)) (lcsLength (x :: xs) ys)
termination_by xs ys => xs.length + ys.length

/-- The walk back through the table, from the last callees to the first. -/
def lcsWalk : List Nat → List Nat → List (Nat × Nat)
  | [], _ => []
  | _ :: _, [] => []
  | x :: xs, y :: ys =>
    if ok x y then (x, y) :: lcsWalk xs ys
    else if lcsLength ok (x :: xs) ys ≤ lcsLength ok xs (y :: ys) then lcsWalk xs (y :: ys)
    else lcsWalk (x :: xs) ys
termination_by xs ys => xs.length + ys.length

/-- Each step of the walk uses a callee of either list at most once, in order. -/
theorem lcsWalk_sublist (xs ys : List Nat) :
    ((lcsWalk ok xs ys).map Prod.fst).Sublist xs ∧
      ((lcsWalk ok xs ys).map Prod.snd).Sublist ys := by
  fun_induction lcsWalk ok xs ys with
  | case1 ys => exact ⟨List.Sublist.slnil, List.nil_sublist ys⟩
  | case2 x xs => exact ⟨List.nil_sublist _, List.Sublist.slnil⟩
  | case3 x xs y ys _ ih => exact ⟨ih.1.cons_cons x, ih.2.cons_cons y⟩
  | case4 x xs y ys _ _ ih => exact ⟨ih.1.cons x, ih.2⟩
  | case5 x xs y ys _ _ ih => exact ⟨ih.1, ih.2.cons y⟩

theorem ok_of_mem_lcsWalk {ok : Nat → Nat → Bool} {xs ys : List Nat} {p : Nat × Nat}
    (h : p ∈ lcsWalk ok xs ys) :
    ok p.1 p.2 = true := by
  fun_induction lcsWalk ok xs ys with
  | case1 ys => cases h
  | case2 x xs => cases h
  | case3 x xs y ys hok ih =>
    rcases List.mem_cons.mp h with he | h
    · rw [he]
      exact hok
    · exact ih h
  | case4 x xs y ys _ _ ih => exact ih h
  | case5 x xs y ys _ _ ih => exact ih h

end Lcs

/-- Matched callee pairs in call order. -/
def lcsAlign (refCallees newCallees : List Nat) (refRun newRun : HeadlessRun)
    (sizeTol : ℚ := 4 / 10) : List (Nat × Nat) :=
  (lcsWalk (fun r n => sizeRatioOk r n refRun newRun sizeTol) refCallees.reverse
    newCallees.reverse).reverse

/-- The alignment keeps the order of both callee lists. -/
theorem lcsAlign_sublist (refCallees newCallees : List Nat) (refRun newRun : HeadlessRun)
    (sizeTol : ℚ) :
    ((lcsAlign refCallees newCallees refRun newRun sizeTol).map Prod.fst).Sublist refCallees ∧
      ((lcsAlign refCallees newCallees refRun newRun sizeTol).map Prod.snd).Sublist newCallees := by
  have hwalk := lcsWalk_sublist (fun r n => sizeRatioOk r n refRun newRun sizeTol)
    refCallees.reverse newCallees.reverse
  unfold lcsAlign
  constructor
  · simpa using hwalk.1.reverse
  · simpa using hwalk.2.reverse

theorem mem_of_mem_lcsAlign {refCallees newCallees : List Nat} {refRun newRun : HeadlessRun}
    {sizeTol : ℚ} {p : Nat × Nat}
    (h : p ∈ lcsAlign refCallees newCallees refRun newRun sizeTol) :
    p.1 ∈ refCallees ∧ p.2 ∈ newCallees := by
  have hsub := lcsAlign_sublist refCallees newCallees refRun newRun sizeTol
  exact ⟨hsub.1.subset (List.mem_map_of_mem h), hsub.2.subset (List.mem_map_of_mem h)⟩

/-! ### The bytecode gate -/

/-- `data[start:start + len]` -/
def slice (data : Bytes) (start len : Nat) : Bytes := (data.drop start).take len

/-- The set of non-overlapping n-grams of a function body. -/
def ngrams (data : Bytes) (addr size ngram : Nat) : Finset Bytes :=
  ((List.range ((size + 1 - ngram + (ngram - 1)) / ngram)).map fun i =>
    slice data (addr + i * ngram) ngram).toFinset

def bytecodeJaccard (refBytes : Bytes) (refAddr refSz : Nat) (newBytes : Bytes)
    (newAddr newSz : Nat) (ngram : Nat := 4) : ℚ :=
  if refSz = 0 ∨ newSz = 0 then 1 / 2
  else if refBytes.length < refAddr + refSz ∨ newBytes.length < newAddr + newSz then 1 / 2
  else
    let refGrams := ngrams refBytes refAddr refSz ngram
    let newGrams := ngrams newBytes newAddr newSz ngram
    let union := (refGrams ∪ newGrams).card
    if union = 0 then 1 else (refGrams ∩ newGrams).card / union

def minCalleeSimilarity : ℚ := 15 / 100

/-- Callees whose bytes are clearly unrelated are rejected; without bytes nothing is. -/
def passesGate (refRun newRun : HeadlessRun) (refBytes newBytes : Option Bytes)
    (p : Nat × Nat) : Bool :=
  match refBytes, newBytes with
  | some refBytes, some newBytes =>
    decide (minCalleeSimilarity ≤
      bytecodeJaccard refBytes p.1 (funcSize p.1 refRun) newBytes p.2 (funcSize p.2 newRun))
  | _, _ => true

end RomAnalyzer.Callgraph
