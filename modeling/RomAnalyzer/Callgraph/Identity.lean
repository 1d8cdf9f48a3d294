import RomAnalyzer.Callgraph.Anchors

/-!
# Bytecode identity

Small functions whose bytes occur exactly once, aligned, in the new ROM.
-/
namespace RomAnalyzer.Callgraph

open Lib
open Ghidra (HeadlessRun)

def minIdentitySize : Nat := 8
def maxIdentitySize : Nat := 128

/-- The aligned occurrences of a pattern, in ascending order. -/
def alignedOccurrences (haystack needle : Bytes) (alignment : Nat) : List Nat :=
  (List.range (haystack.length + 1 - needle.length)).filter fun i =>
    i % alignment = 0 ∧ slice haystack i needle.length = needle

/-- The single aligned occurrence; two of them are ambiguous. -/
def findUniqueAligned (haystack needle : Bytes) (alignment : Nat := 4) : Option Nat :=
  match alignedOccurrences haystack needle alignment with
  | [idx] => some idx
  | _ => none

structure IdentityState where
  alreadyRef : List Nat
  alreadyNew : List Nat
  results : List MatchedFunction

section Identity

variable (refBytes newBytes : Bytes) (refRun : HeadlessRun)
  (refSymbolsByAddr : Dict Nat ReferenceSymbol) (minSize maxSize : Nat)

def identityName (refAddr : Nat) : String :=
  nameOr ((refSymbolsByAddr.get? refAddr).map ReferenceSymbol.name)
    (nameOr (nameFor refAddr refRun) "")

/-- One function of the reference program, with its distance to the next one. -/
def identityStep (s : IdentityState) (e : Nat × Nat) : IdentityState :=
  let (refAddr, sz) := e
  if refAddr ∈ s.alreadyRef then s
  else if sz < minSize ∨ maxSize < sz ∨ refBytes.length < refAddr + sz then s
  else
    match findUniqueAligned newBytes (slice refBytes refAddr sz) with
    | none => s
    | some newAddr =>
      if newAddr ∈ s.alreadyNew then s
      else {
        alreadyRef := s.alreadyRef ++ [refAddr]
        alreadyNew := s.alreadyNew ++ [newAddr]
        results := s.results ++ [anchor "bytecode_identity" 1
          (identityName refRun refSymbolsByAddr refAddr) refAddr newAddr] }

/-- The sorted entries with their distance to the next, or 0 for the last. -/
def entrySizes : List Nat → List (Nat × Nat)
  | [] => []
  | [e] => [(e, 0)]
  | e :: next :: rest => (e, next - e) :: entrySizes (next :: rest)

def bytecodeIdentityMatch (existingMatches : List MatchedFunction)
    (minSize : Nat := minIdentitySize) (maxSize : Nat := maxIdentitySize) :
    List MatchedFunction :=
  ((entrySizes (sortedEntries refRun)).foldl
    (identityStep refBytes newBytes refRun refSymbolsByAddr minSize maxSize) {
      alreadyRef := existingMatches.map MatchedFunction.refAddress
      alreadyNew := existingMatches.map MatchedFunction.newAddress
      results := [] }).results

variable {refBytes newBytes refRun refSymbolsByAddr}

/-- A function is passed over, or it is matched to an address and neither was taken. -/
theorem identityStep_cases (minSize maxSize : Nat) (s : IdentityState) (e : Nat × Nat) :
    identityStep refBytes newBytes refRun refSymbolsByAddr minSize maxSize s e = s ∨
      ∃ newAddr, e.1 ∉ s.alreadyRef ∧ newAddr ∉ s.alreadyNew ∧
        identityStep refBytes newBytes refRun refSymbolsByAddr minSize maxSize s e = {
          alreadyRef := s.alreadyRef ++ [e.1]
          alreadyNew := s.alreadyNew ++ [newAddr]
          results := s.results ++ [anchor "bytecode_identity" 1
            (identityName refRun refSymbolsByAddr e.1) e.1 newAddr] } := by
  unfold identityStep
  dsimp only
  split
  · exact Or.inl rfl
  split
  · exact Or.inl rfl
  split
  · exact Or.inl rfl
  split
  · exact Or.inl rfl
  · rename_i href _ _ newAddr _ hnew
    exact Or.inr ⟨newAddr, href, hnew, rfl⟩

/-- The results are identity matches apart from what was matched before. -/
structure IdentityInv (refRun : HeadlessRun) (refSymbolsByAddr : Dict Nat ReferenceSymbol)
    (existing : List MatchedFunction) (s : IdentityState) : Prop where
  refs : existing.map MatchedFunction.refAddress ⊆ s.alreadyRef
  news : existing.map MatchedFunction.newAddress ⊆ s.alreadyNew
  made : ∀ m ∈ s.results, m.source = "bytecode_identity" ∧
    m.refName = identityName refRun refSymbolsByAddr m.refAddress
  apart : ∀ m ∈ s.results, m.refAddress ∉ existing.map MatchedFunction.refAddress ∧
    m.newAddress ∉ existing.map MatchedFunction.newAddress

theorem identityInv_identityStep {existing : List MatchedFunction} {minSize maxSize : Nat}
    {s : IdentityState} (h : IdentityInv refRun refSymbolsByAddr existing s) (e : Nat × Nat) :
    IdentityInv refRun refSymbolsByAddr existing
      (identityStep refBytes newBytes refRun refSymbolsByAddr minSize maxSize s e) := by
  rcases identityStep_cases minSize maxSize s e with hs | ⟨newAddr, href, hnew, hs⟩
  · rw [hs]
    exact h
  · rw [hs]
    refine ⟨fun a ha => List.mem_append_left _ (h.refs ha),
      fun a ha => List.mem_append_left _ (h.news ha), ?_, ?_⟩
    · intro m hm
      rcases List.mem_append.mp hm with hm | hm
      · exact h.made m hm
      · rw [List.mem_singleton.mp hm]
        exact ⟨rfl, rfl⟩
    · intro m hm
      rcases List.mem_append.mp hm with hm | hm
      · exact h.apart m hm
      · rw [List.mem_singleton.mp hm]
        exact ⟨fun ha => href (h.refs ha), fun ha => hnew (h.news ha)⟩

theorem mem_bytecodeIdentityMatch {existing : List MatchedFunction} {minSize maxSize : Nat}
    {m : MatchedFunction}
    (h : m ∈ bytecodeIdentityMatch refBytes newBytes refRun refSymbolsByAddr existing
      minSize maxSize) :
    (m.source = "bytecode_identity" ∧
      m.refName = identityName refRun refSymbolsByAddr m.refAddress) ∧
    m.refAddress ∉ existing.map MatchedFunction.refAddress ∧
      m.newAddress ∉ existing.map MatchedFunction.newAddress := by
  have hinv : IdentityInv refRun refSymbolsByAddr existing
      ((entrySizes (sortedEntries refRun)).foldl
        (identityStep refBytes newBytes refRun refSymbolsByAddr minSize maxSize) {
          alreadyRef := existing.map MatchedFunction.refAddress
          alreadyNew := existing.map MatchedFunction.newAddress
          results := [] }) := by
    refine List.foldlRecOn (motive := IdentityInv refRun refSymbolsByAddr existing)
      (entrySizes (sortedEntries refRun)) _ ?_ fun s hs e _ => identityInv_identityStep hs e
    exact ⟨fun _ ha => ha, fun _ ha => ha, fun m hm => absurd hm List.not_mem_nil,
      fun m hm => absurd hm List.not_mem_nil⟩
  exact ⟨hinv.made m h, hinv.apart m h⟩

end Identity

end RomAnalyzer.Callgraph
