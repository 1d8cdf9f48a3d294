import RomAnalyzer.DataRefs.Labels
import RomAnalyzer.Pipeline.Reference

/-!
# The category of a propagated label

Accesses are looked up among all symbols of the reference, whatever their category, and
a label takes its category from the pass. Of several accesses that sight a name, the last
one decides which reference symbol the label carries.
-/
namespace RomAnalyzer.Pipeline

open Lib
open DataRefs

section Labels

variable (pass : LabelPass) (refSymbols : List ReferenceSymbol) (windowBytes : Nat)
  (refRefsByFunc newRefsByFunc : Dict Nat (List DataRef)) (ms : List MatchedFunction)

/-- Every label is of the category of the reference symbol whose name and address it
carries. -/
def KeepsCategory (labels : List PropagatedSymbol) : Prop :=
  ∀ s ∈ labels, ∃ sym, (symbolsByAddr refSymbols).get? s.refAddress = some sym ∧
    sym.name = s.name ∧ sym.category = s.category

/-- The access sights the name, and no later access of the pass does. -/
def LastSights (name : String) (v : MatchedFunction × DataRef) : Prop :=
  ∃ before after, visits refRefsByFunc ms = before ++ v :: after ∧
    (∃ p, Sighted pass (symbolsByAddr refSymbols) windowBytes newRefsByFunc v p ∧ p.name = name) ∧
    ∀ v' ∈ after, ∀ p, Sighted pass (symbolsByAddr refSymbols) windowBytes newRefsByFunc v' p →
      p.name ≠ name

variable {pass refSymbols windowBytes refRefsByFunc newRefsByFunc ms}

theorem symbolsByAddr_address {a : Nat} {sym : ReferenceSymbol}
    (h : (symbolsByAddr refSymbols).get? a = some sym) : sym.address = a := by
  obtain ⟨_, _, _, _, haddr, rfl, _⟩ := Dict.get?_ofList_map_eq_some_iff.mp h
  exact haddr

/-- The reference address that the pass keeps for a name is that of the last access. -/
theorem get?_refAddrByName {name : String} {a : Nat} :
    (Dict.ofList ((sightings pass (symbolsByAddr refSymbols) windowBytes refRefsByFunc
      newRefsByFunc ms).map fun p => (p.name, p.refAddress))).get? name = some a ↔
      ∃ v, LastSights pass refSymbols windowBytes refRefsByFunc newRefsByFunc ms name v ∧
        v.2.referencedAddress = a := by
  rw [Dict.get?_ofList_map_eq_some_iff]
  constructor
  · intro h
    obtain ⟨pre, p, post, hsplit, hname, haddr, hlast⟩ := h
    obtain ⟨before, behind, hvisits, _, hbehind⟩ := List.filterMap_eq_append_iff.mp hsplit
    obtain ⟨skipped, v, after, hsplitBehind, _, hv, hafter⟩ :=
      List.filterMap_eq_cons_iff.mp hbehind
    have hsighted := sighting_eq_some_iff.mp hv
    refine ⟨v, ⟨before ++ skipped, after, ?_, ⟨p, hsighted, hname⟩, ?_⟩, ?_⟩
    · rw [hvisits, hsplitBehind, List.append_assoc]
    · intro v' hv' p' hsighted'
      apply hlast p'
      rw [← hafter]
      exact List.mem_filterMap.mpr ⟨v', hv', sighting_eq_some_iff.mpr hsighted'⟩
    · rw [← haddr, hsighted.ref_address]
  · intro h
    obtain ⟨v, ⟨before, after, hvisits, ⟨p, hsighted, hname⟩, hlast⟩, haddr⟩ := h
    have hsplit : sightings pass (symbolsByAddr refSymbols) windowBytes refRefsByFunc newRefsByFunc
        ms = before.filterMap (sighting pass (symbolsByAddr refSymbols) windowBytes newRefsByFunc) ++
          p :: after.filterMap
            (sighting pass (symbolsByAddr refSymbols) windowBytes newRefsByFunc) := by
      rw [sightings, hvisits, List.filterMap_append,
        List.filterMap_cons_some (sighting_eq_some_iff.mpr hsighted)]
    refine ⟨_, p, _, hsplit, hname, hsighted.ref_address.trans haddr, ?_⟩
    intro p' hp'
    obtain ⟨v', hv', hsighted'⟩ := List.mem_filterMap.mp hp'
    exact hlast v' hv' p' (sighting_eq_some_iff.mp hsighted')

/-- A label carries the reference symbol that the last access of its name goes to. -/
theorem exists_lastSights_of_label {s : PropagatedSymbol}
    (hs : s ∈ propagateLabels pass (symbolsByAddr refSymbols) windowBytes refRefsByFunc
      newRefsByFunc ms) :
    ∃ v sym, LastSights pass refSymbols windowBytes refRefsByFunc newRefsByFunc ms s.name v ∧
      (symbolsByAddr refSymbols).get? v.2.referencedAddress = some sym ∧ sym.name = s.name ∧
      s.refAddress = v.2.referencedAddress := by
  obtain ⟨e, _, hlabel⟩ := List.mem_filterMap.mp hs
  obtain ⟨_, _, _, hname, _⟩ := labelOf_eq_some hlabel
  obtain ⟨a, sym, hget, hsym, haddr⟩ := labelOf_refSymbol hlabel
  rw [proposals_eq_sightings, ← hname, get?_refAddrByName] at hget
  obtain ⟨v, hlast, rfl⟩ := hget
  refine ⟨v, sym, hlast, hsym, ?_, haddr.trans (symbolsByAddr_address hsym)⟩
  obtain ⟨_, _, _, ⟨p, hsighted, hpname⟩, _⟩ := hlast
  obtain ⟨sym', hsym', hsymName⟩ := hsighted.symbol
  rw [hsym] at hsym'
  rw [← hpname, hsymName, Option.some.inj hsym']

/-- A pass keeps the categories exactly when, for every name, the last access that sights
it goes to a symbol of the category of the pass. -/
theorem keepsCategory_propagateLabels_iff :
    KeepsCategory refSymbols (propagateLabels pass (symbolsByAddr refSymbols) windowBytes
      refRefsByFunc newRefsByFunc ms) ↔
      ∀ v sym, (symbolsByAddr refSymbols).get? v.2.referencedAddress = some sym →
        LastSights pass refSymbols windowBytes refRefsByFunc newRefsByFunc ms sym.name v →
          sym.category = pass.category := by
  constructor
  · intro h v sym hsym hlast
    obtain ⟨_, _, hvisits, ⟨p, hsighted, hpname⟩, _⟩ := id hlast
    have hp := mem_sightings.mpr ⟨v, hvisits ▸ List.mem_append_right _ List.mem_cons_self, hsighted⟩
    obtain ⟨s, hs, hname⟩ := List.mem_map.mp (exists_label hp)
    rw [hpname] at hname
    obtain ⟨v', _, hlast', _, _, haddr⟩ := exists_lastSights_of_label hs
    obtain ⟨sym', hsym', _, hcategory⟩ := h s hs
    -- the pass keeps one address for the name, so the two last accesses go to the same one
    have hget := get?_refAddrByName.mpr ⟨v, hlast, rfl⟩
    rw [← hname, get?_refAddrByName.mpr ⟨v', hlast', rfl⟩] at hget
    rw [haddr, Option.some.inj hget, hsym] at hsym'
    rw [Option.some.inj hsym', hcategory]
    exact (propagateLabels_spec hs).1
  · intro h s hs
    obtain ⟨v, sym, hlast, hsym, hname, haddr⟩ := exists_lastSights_of_label hs
    rw [← hname] at hlast
    refine ⟨sym, haddr ▸ hsym, hname, ?_⟩
    rw [h v sym hsym hlast, (propagateLabels_spec hs).1]

end Labels

/-- Both passes keep the categories exactly when no name's last access goes to a symbol of
another category. -/
theorem keepsCategory_iff (refSymbols : List ReferenceSymbol) (windowBytes : Nat)
    (refRefsByFunc newRefsByFunc refRamByFunc newRamByFunc : Dict Nat (List DataRef))
    (ms : List MatchedFunction) :
    KeepsCategory refSymbols (propagateDataLabels refRefsByFunc newRefsByFunc ms
        (symbolsByAddr refSymbols) windowBytes) ∧
      KeepsCategory refSymbols (propagateRamLabels refRamByFunc newRamByFunc ms
        (symbolsByAddr refSymbols) windowBytes) ↔
      (∀ v sym, (symbolsByAddr refSymbols).get? v.2.referencedAddress = some sym →
        LastSights dataPass refSymbols windowBytes refRefsByFunc newRefsByFunc ms sym.name v →
          sym.category = .data) ∧
        ∀ v sym, (symbolsByAddr refSymbols).get? v.2.referencedAddress = some sym →
          LastSights ramPass refSymbols windowBytes refRamByFunc newRamByFunc ms sym.name v →
            sym.category = .ramGlobal :=
  and_congr keepsCategory_propagateLabels_iff keepsCategory_propagateLabels_iff

section Handler

/-- A table of handlers is set up in one function: it reads the address of an interrupt
handler. -/
def handlerSymbols : List ReferenceSymbol :=
  [⟨"install_handlers", 0x1000, .function⟩, ⟨"knock_isr", 0x2000, .function⟩]

def handlerLabels : List PropagatedSymbol :=
  propagateDataLabels
    (Dict.ofList [(0x1000, [⟨4, 0x2000, some "knock_isr", .scalar⟩])])
    (Dict.ofList [(0x1100, [⟨4, 0x2400, none, .scalar⟩])])
    [⟨"install_handlers", 0x1000, 0x1100, 1, "vt_diff", ""⟩] (symbolsByAddr handlerSymbols)

/-- The handler is emitted as data of the new ROM. -/
theorem handler_emitted_as_data : ¬ KeepsCategory handlerSymbols handlerLabels := by
  intro h
  have hlabel : ∃ s ∈ handlerLabels, s.refAddress = 0x2000 ∧ s.category = .data := by
    decide +kernel
  have hsymbol : (symbolsByAddr handlerSymbols).get? 0x2000 =
      some ⟨"knock_isr", 0x2000, .function⟩ := by
    decide
  obtain ⟨s, hs, haddr, hcategory⟩ := hlabel
  obtain ⟨sym, hsym, _, hsame⟩ := h s hs
  rw [haddr, hsymbol] at hsym
  rw [← Option.some.inj hsym, hcategory] at hsame
  cases hsame

end Handler

end RomAnalyzer.Pipeline
