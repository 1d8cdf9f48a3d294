import RomAnalyzer.Types
import RomAnalyzer.Lib.Dict

/-!
# Propagating function labels
-/
namespace RomAnalyzer.Propagate

open Lib

def highThreshold : ℚ := 95 / 100
def mediumThreshold : ℚ := 70 / 100

def tierForScore (score : ℚ) : ConfidenceTier :=
  if highThreshold ≤ score then .high
  else if mediumThreshold ≤ score then .medium
  else .low

/-- `{s.address: s for s in ref_symbols if s.category == "function"}` -/
def functionsByAddr (refSymbols : List ReferenceSymbol) : Dict Nat ReferenceSymbol :=
  Dict.ofList ((refSymbols.filter fun s => s.category = .function).map fun s => (s.address, s))

/-- The canonical name set at match time, or the symbol's name when that is blank. -/
def labelName (byAddr : Dict Nat ReferenceSymbol) (m : MatchedFunction) : Option String :=
  if m.refName ≠ "" then some m.refName
  else
    match byAddr.get? m.refAddress with
    | some sym => if sym.name ≠ "" then some sym.name else none
    | none => none

/-- The label of one match; matches of tier low give none unless forced. -/
def functionLabel (byAddr : Dict Nat ReferenceSymbol) (force : Bool) (m : MatchedFunction) :
    Option PropagatedSymbol :=
  match labelName byAddr m with
  | none => none
  | some name =>
    let tier := tierForScore m.similarity
    if tier = .low ∧ force = false then none
    else some {
      name := name
      refAddress := m.refAddress
      newAddress := m.newAddress
      category := .function
      confidence := tier
      source := m.source
      score := m.similarity }

def propagateFunctionLabels (refSymbols : List ReferenceSymbol) (ms : List MatchedFunction)
    (force : Bool := false) : List PropagatedSymbol :=
  ms.filterMap (functionLabel (functionsByAddr refSymbols) force)

/-- Stamp the origin reference and apply cross-family gating: absolute RAM and
data addresses of another ECU family are downgraded, entry labels are not. -/
def stampProvenance (reference : String) (familyMatch : Bool) (s : PropagatedSymbol) :
    PropagatedSymbol :=
  if familyMatch = false ∧ (s.category = .data ∨ s.category = .ramGlobal) then
    { s with reference := reference, confidence := .low, familyMatch := false }
  else { s with reference := reference, familyMatch := true }

def applyReferenceProvenance (symbols : List PropagatedSymbol) (reference : String)
    (familyMatch : Bool) : List PropagatedSymbol :=
  symbols.map (stampProvenance reference familyMatch)

section Stamp

variable (reference : String) (familyMatch : Bool) (s : PropagatedSymbol)

@[simp] theorem stampProvenance_name : (stampProvenance reference familyMatch s).name = s.name := by
  unfold stampProvenance
  split <;> rfl

@[simp] theorem stampProvenance_refAddress :
    (stampProvenance reference familyMatch s).refAddress = s.refAddress := by
  unfold stampProvenance
  split <;> rfl

@[simp] theorem stampProvenance_newAddress :
    (stampProvenance reference familyMatch s).newAddress = s.newAddress := by
  unfold stampProvenance
  split <;> rfl

@[simp] theorem stampProvenance_category :
    (stampProvenance reference familyMatch s).category = s.category := by
  unfold stampProvenance
  split <;> rfl

@[simp] theorem stampProvenance_source :
    (stampProvenance reference familyMatch s).source = s.source := by
  unfold stampProvenance
  split <;> rfl

@[simp] theorem stampProvenance_reference :
    (stampProvenance reference familyMatch s).reference = reference := by
  unfold stampProvenance
  split <;> rfl

/-- What the gating marks, it also downgrades. -/
theorem stampProvenance_gated :
    (stampProvenance reference familyMatch s).familyMatch = false ↔
      familyMatch = false ∧ (s.category = .data ∨ s.category = .ramGlobal) := by
  unfold stampProvenance
  split
  · rename_i h
    simp [h]
  · rename_i h
    simp [h]

theorem stampProvenance_confidence_of_gated
    (h : (stampProvenance reference familyMatch s).familyMatch = false) :
    (stampProvenance reference familyMatch s).confidence = .low := by
  unfold stampProvenance
  rw [if_pos ((stampProvenance_gated reference familyMatch s).mp h)]

theorem stampProvenance_confidence_of_match :
    (stampProvenance reference true s).confidence = s.confidence := by
  simp [stampProvenance]

theorem stampProvenance_confidence_of_function (h : s.category = .function) :
    (stampProvenance reference familyMatch s).confidence = s.confidence := by
  simp [stampProvenance, h]

end Stamp

theorem tierForScore_ne_low_iff (score : ℚ) :
    tierForScore score ≠ .low ↔ mediumThreshold ≤ score := by
  have hle : mediumThreshold ≤ highThreshold := by decide +kernel
  unfold tierForScore
  by_cases hhigh : highThreshold ≤ score
  · simp [hhigh, hle.trans hhigh]
  · by_cases hmedium : mediumThreshold ≤ score
    · simp [hhigh, hmedium]
    · simp [hhigh, hmedium]

/-- The label of a match under a name: the match has the name and is not of tier low. -/
theorem exists_functionLabel_iff {byAddr : Dict Nat ReferenceSymbol} {m : MatchedFunction}
    {name : String} :
    (∃ s, functionLabel byAddr false m = some s ∧ s.name = name) ↔
      labelName byAddr m = some name ∧ mediumThreshold ≤ m.similarity := by
  rw [← tierForScore_ne_low_iff]
  unfold functionLabel
  cases labelName byAddr m with
  | none => simp
  | some n =>
    by_cases hlow : tierForScore m.similarity = .low
    · simp [hlow]
    · simp [hlow]

/-- A function label copies its match; its name is the match's, or else that of a
symbol at the match's reference address. -/
theorem functionLabel_spec {byAddr : Dict Nat ReferenceSymbol} {force : Bool}
    {m : MatchedFunction} {s : PropagatedSymbol} (h : functionLabel byAddr force m = some s) :
    s.refAddress = m.refAddress ∧ s.newAddress = m.newAddress ∧ s.source = m.source ∧
      labelName byAddr m = some s.name := by
  unfold functionLabel at h
  cases hn : labelName byAddr m with
  | none => simp [hn] at h
  | some name =>
    simp only [hn] at h
    split at h
    · cases h
    · obtain rfl := Option.some.inj h
      exact ⟨rfl, rfl, rfl, rfl⟩

/-- A function label that is not forced is never of low confidence. -/
theorem functionLabel_confidence {byAddr : Dict Nat ReferenceSymbol} {m : MatchedFunction}
    {s : PropagatedSymbol} (h : functionLabel byAddr false m = some s) :
    s.confidence = .medium ∨ s.confidence = .high := by
  unfold functionLabel at h
  split at h
  · cases h
  · dsimp only at h
    split at h
    · cases h
    · rename_i hlow
      obtain rfl := Option.some.inj h
      show tierForScore m.similarity = .medium ∨ tierForScore m.similarity = .high
      have hne : tierForScore m.similarity ≠ .low := fun htier => hlow ⟨htier, rfl⟩
      revert hne
      unfold tierForScore
      split
      · simp
      · split <;> simp

theorem functionLabel_category {byAddr : Dict Nat ReferenceSymbol} {force : Bool}
    {m : MatchedFunction} {s : PropagatedSymbol} (h : functionLabel byAddr force m = some s) :
    s.category = .function := by
  unfold functionLabel at h
  split at h
  · cases h
  · dsimp only at h
    split at h
    · cases h
    · obtain rfl := Option.some.inj h
      rfl

theorem mem_propagateFunctionLabels {refSymbols : List ReferenceSymbol}
    {ms : List MatchedFunction} {force : Bool} {s : PropagatedSymbol} :
    s ∈ propagateFunctionLabels refSymbols ms force ↔
      ∃ m ∈ ms, functionLabel (functionsByAddr refSymbols) force m = some s :=
  List.mem_filterMap

/-- The name of a label is the match's own or the name of a reference function. -/
theorem labelName_cases {refSymbols : List ReferenceSymbol} {m : MatchedFunction} {name : String}
    (h : labelName (functionsByAddr refSymbols) m = some name) :
    (m.refName = name ∧ name ≠ "") ∨
      ∃ r ∈ refSymbols, r.category = .function ∧ r.address = m.refAddress ∧ r.name = name := by
  unfold labelName at h
  by_cases hb : m.refName ≠ ""
  · rw [if_pos hb, Option.some.injEq] at h
    exact Or.inl ⟨h, h ▸ hb⟩
  · rw [if_neg hb] at h
    cases hs : (functionsByAddr refSymbols).get? m.refAddress with
    | none => simp [hs] at h
    | some sym =>
      simp only [hs] at h
      split at h
      · have hmem := Dict.mem_of_get?_ofList hs
        obtain ⟨r, hr, he⟩ := List.mem_map.mp hmem
        obtain ⟨ha, rfl⟩ := Prod.mk.inj he
        have hf := List.mem_filter.mp hr
        exact Or.inr ⟨r, hf.1, by simpa using hf.2, ha, Option.some.inj h⟩
      · cases h

end RomAnalyzer.Propagate
