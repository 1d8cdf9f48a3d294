import RomAnalyzer.Propagate

/-!
# Propagating data and RAM labels

Both passes walk the labelled references of a matched function and look for a
reference of the new function at the same instruction offset, or near it. They
differ in the addresses they accept, in the references they refuse, and in the
tags of their labels.
-/
namespace RomAnalyzer.DataRefs

open Lib
open Propagate (tierForScore)

/-- One sighting of a named reference address in the new ROM. -/
structure Proposal where
  name : String
  refAddress : Nat
  newAddress : Nat
  tier : ConfidenceTier
  source : String
  deriving DecidableEq, Repr

/-- The offset itself, then one byte further on, one byte back, and so on. -/
def windowOffsets (offset : Int) (windowBytes : Nat) : List Int :=
  offset :: (List.range windowBytes).flatMap fun i => [offset + (i + 1), offset - (i + 1)]

/-- `{r.instruction_offset: r for r in refs}` -/
def refsByOffset (refs : List DataRef) : Dict Int DataRef :=
  Dict.ofList (refs.map fun r => (r.instructionOffset, r))

def nearestRef (newByOffset : Dict Int DataRef) (offset : Int) (windowBytes : Nat) :
    Option DataRef :=
  (windowOffsets offset windowBytes).findSome? newByOffset.get?

/-- What sets the two passes apart. -/
structure LabelPass where
  category : SymbolCategory
  /-- reference addresses the pass looks at -/
  inRange : Nat → Bool
  /-- the tag of a pair of references, or `none` when the pair is refused -/
  source : DataRef → DataRef → Option String
  /-- the tag of a label, from the tags of its sightings -/
  finalSource : List String → String

section Pass

variable (pass : LabelPass) (refSymbolsByAddr : Dict Nat ReferenceSymbol) (windowBytes : Nat)

/-- The sighting one labelled reference gives, if any. -/
def proposalOf (newByOffset : Dict Int DataRef) (tier : ConfidenceTier) (refR : DataRef) :
    Option Proposal :=
  if refR.label = none then none
  else if pass.inRange refR.referencedAddress = false then none
  else
    match refSymbolsByAddr.get? refR.referencedAddress with
    | none => none
    | some sym =>
      match nearestRef newByOffset refR.instructionOffset windowBytes with
      | none => none
      | some found =>
        (pass.source refR found).map fun source =>
          ⟨sym.name, refR.referencedAddress, found.referencedAddress, tier, source⟩

/-- The sightings of one match; matches of tier low give none. -/
def proposalsOfMatch (refRefsByFunc newRefsByFunc : Dict Nat (List DataRef))
    (m : MatchedFunction) : List Proposal :=
  if tierForScore m.similarity = .low then []
  else
    let newByOffset := refsByOffset (newRefsByFunc.getD m.newAddress [])
    (refRefsByFunc.getD m.refAddress []).filterMap
      (proposalOf pass refSymbolsByAddr windowBytes newByOffset (tierForScore m.similarity))

/-- The label of a name: the first sighting decides the address, and sightings at
several addresses leave it low. -/
def labelOf (refAddrByName : Dict String Nat) (name : String) (sightings : List Proposal) :
    Option PropagatedSymbol :=
  match sightings with
  | [] => none
  | first :: _ =>
    ((refAddrByName.get? name).bind refSymbolsByAddr.get?).map fun refSym => {
      name := name
      refAddress := refSym.address
      newAddress := first.newAddress
      category := pass.category
      confidence :=
        if (sightings.map Proposal.newAddress).dedup.length > 1 then .low else first.tier
      source := pass.finalSource (sightings.map Proposal.source)
      score := 1 }

def propagateLabels (refRefsByFunc newRefsByFunc : Dict Nat (List DataRef))
    (ms : List MatchedFunction) : List PropagatedSymbol :=
  let proposals := ms.flatMap
    (proposalsOfMatch pass refSymbolsByAddr windowBytes refRefsByFunc newRefsByFunc)
  let refAddrByName := Dict.ofList (proposals.map fun p => (p.name, p.refAddress))
  (Dict.groupBy Proposal.name proposals).entries.filterMap fun e =>
    labelOf pass refSymbolsByAddr refAddrByName e.1 e.2

end Pass

/-- A genuine read is not carried to a scalar operand; two scalars are. -/
def dataPass : LabelPass where
  category := .data
  inRange a := a < 0x80000
  source refR found :=
    if found.refType = .scalar ∧ refR.refType ≠ .scalar then none
    else if found.refType = .scalar then some "data_refs_scalar"
    else some "data_refs"
  finalSource sources := if "data_refs" ∈ sources then "data_refs" else "data_refs_scalar"

def ramPass : LabelPass where
  category := .ramGlobal
  inRange a := 0x804000 ≤ a ∧ a < 0x820000
  source _ _ := some "ram_refs"
  finalSource _ := "ram_refs"

def propagateDataLabels (refRefsByFunc newRefsByFunc : Dict Nat (List DataRef))
    (ms : List MatchedFunction) (refSymbolsByAddr : Dict Nat ReferenceSymbol)
    (windowBytes : Nat := 8) : List PropagatedSymbol :=
  propagateLabels dataPass refSymbolsByAddr windowBytes refRefsByFunc newRefsByFunc ms

def propagateRamLabels (refRamByFunc newRamByFunc : Dict Nat (List DataRef))
    (ms : List MatchedFunction) (refSymbolsByAddr : Dict Nat ReferenceSymbol)
    (windowBytes : Nat := 8) : List PropagatedSymbol :=
  propagateLabels ramPass refSymbolsByAddr windowBytes refRamByFunc newRamByFunc ms

section Facts

variable {pass : LabelPass} {refSymbolsByAddr : Dict Nat ReferenceSymbol} {windowBytes : Nat}

/-- A sighting is made of a labelled access in range, its symbol, and the access found
in the new function. -/
theorem proposalOf_eq_some {newByOffset : Dict Int DataRef} {tier : ConfidenceTier}
    {refR : DataRef} {p : Proposal}
    (h : proposalOf pass refSymbolsByAddr windowBytes newByOffset tier refR = some p) :
    ∃ sym found, refR.label ≠ none ∧ pass.inRange refR.referencedAddress = true ∧
      refSymbolsByAddr.get? refR.referencedAddress = some sym ∧
      nearestRef newByOffset refR.instructionOffset windowBytes = some found ∧
      pass.source refR found = some p.source ∧
      p = ⟨sym.name, refR.referencedAddress, found.referencedAddress, tier, p.source⟩ := by
  unfold proposalOf at h
  split at h
  · cases h
  rename_i hlabel
  split at h
  · cases h
  rename_i hrange
  split at h
  · cases h
  rename_i sym hsym
  split at h
  · cases h
  rename_i found hfound
  obtain ⟨source, hsource, rfl⟩ := Option.map_eq_some_iff.mp h
  rw [Bool.not_eq_false] at hrange
  exact ⟨sym, found, hlabel, hrange, hsym, hfound, hsource, rfl⟩

theorem proposalOf_name {newByOffset : Dict Int DataRef} {tier : ConfidenceTier}
    {refR : DataRef} {p : Proposal}
    (h : proposalOf pass refSymbolsByAddr windowBytes newByOffset tier refR = some p) :
    ∃ sym, refSymbolsByAddr.get? p.refAddress = some sym ∧ sym.name = p.name := by
  obtain ⟨sym, found, _, _, hsym, _, _, hp⟩ := proposalOf_eq_some h
  rw [hp]
  exact ⟨sym, hsym, rfl⟩

/-- A label is made of the sightings of its name, the first of which gives the address. -/
theorem labelOf_eq_some {refAddrByName : Dict String Nat} {name : String}
    {group : List Proposal} {s : PropagatedSymbol}
    (h : labelOf pass refSymbolsByAddr refAddrByName name group = some s) :
    ∃ first rest, group = first :: rest ∧ s.name = name ∧ s.newAddress = first.newAddress ∧
      s.category = pass.category ∧ s.source = pass.finalSource (group.map Proposal.source) ∧
      s.confidence = if (group.map Proposal.newAddress).dedup.length > 1 then .low
        else first.tier := by
  cases group with
  | nil => cases h
  | cons first rest =>
    obtain ⟨refSym, _, rfl⟩ := Option.map_eq_some_iff.mp h
    exact ⟨first, rest, rfl, rfl, rfl, rfl, rfl, rfl⟩

/-- The reference address of a label is that of the symbol at the address kept for its name. -/
theorem labelOf_refSymbol {refAddrByName : Dict String Nat} {name : String}
    {group : List Proposal} {s : PropagatedSymbol}
    (h : labelOf pass refSymbolsByAddr refAddrByName name group = some s) :
    ∃ a sym, refAddrByName.get? name = some a ∧ refSymbolsByAddr.get? a = some sym ∧
      s.refAddress = sym.address := by
  cases group with
  | nil => cases h
  | cons first rest =>
    obtain ⟨sym, hbind, rfl⟩ := Option.map_eq_some_iff.mp h
    obtain ⟨a, ha, hsym⟩ := Option.bind_eq_some_iff.mp hbind
    exact ⟨a, sym, ha, hsym, rfl⟩

/-- A label carries the category and a tag of its pass, and its name is the name of
a reference symbol. -/
theorem propagateLabels_spec {refRefsByFunc newRefsByFunc : Dict Nat (List DataRef)}
    {ms : List MatchedFunction} {s : PropagatedSymbol}
    (h : s ∈ propagateLabels pass refSymbolsByAddr windowBytes refRefsByFunc newRefsByFunc ms) :
    s.category = pass.category ∧ (∃ sources, s.source = pass.finalSource sources) ∧
      ∃ a sym, refSymbolsByAddr.get? a = some sym ∧ sym.name = s.name := by
  obtain ⟨e, he, hlabel⟩ := List.mem_filterMap.mp h
  obtain ⟨hgroup, _⟩ := (Dict.mem_entries_groupBy Proposal.name _ e.1 e.2).mp he
  obtain ⟨first, rest, hsplit, hname, _, hcategory, hsource, _⟩ := labelOf_eq_some hlabel
  refine ⟨hcategory, ⟨_, hsource⟩, ?_⟩
  -- the first sighting of the name was made under a symbol of that name
  have hmem : first ∈ e.2 := by
    rw [hsplit]
    exact List.mem_cons_self
  rw [hgroup] at hmem
  obtain ⟨hprop, hfirst⟩ := List.mem_filter.mp hmem
  obtain ⟨m, _, hm⟩ := List.mem_flatMap.mp hprop
  unfold proposalsOfMatch at hm
  split at hm
  · cases hm
  · obtain ⟨refR, _, hp⟩ := List.mem_filterMap.mp hm
    obtain ⟨sym, hsym, hsymName⟩ := proposalOf_name hp
    rw [hname]
    exact ⟨first.refAddress, sym, hsym, hsymName.trans (of_decide_eq_true hfirst)⟩

variable {refs news : Dict Nat (List DataRef)} {ms : List MatchedFunction} {s : PropagatedSymbol}

theorem propagateDataLabels_spec
    (h : s ∈ propagateDataLabels refs news ms refSymbolsByAddr windowBytes) :
    s.category = .data ∧ (s.source = "data_refs" ∨ s.source = "data_refs_scalar") ∧
      ∃ a sym, refSymbolsByAddr.get? a = some sym ∧ sym.name = s.name := by
  obtain ⟨hcat, ⟨sources, hsource⟩, hname⟩ := propagateLabels_spec h
  refine ⟨hcat, ?_, hname⟩
  rw [hsource]
  unfold dataPass
  by_cases hs : "data_refs" ∈ sources <;> simp [hs]

theorem propagateRamLabels_spec
    (h : s ∈ propagateRamLabels refs news ms refSymbolsByAddr windowBytes) :
    s.category = .ramGlobal ∧ s.source = "ram_refs" ∧
      ∃ a sym, refSymbolsByAddr.get? a = some sym ∧ sym.name = s.name := by
  obtain ⟨hcat, ⟨sources, hsource⟩, hname⟩ := propagateLabels_spec h
  exact ⟨hcat, hsource, hname⟩

end Facts

end RomAnalyzer.DataRefs
