import RomAnalyzer.EmitLd
import RomAnalyzer.Merge

/-!
# Names after arbitration

The linker namespace is by name, arbitration is by address. A name proposed at
two addresses is settled only if some other name beats it at one of them.
-/
namespace RomAnalyzer.NameArbitration

open Lib
open Merge

/-- What the linker namespace asks of an arbitration: one address per name, a record
of every name proposed at two, and one assignment per name in the fragment. -/
structure NamesSettled (symbols final : List PropagatedSymbol)
    (disagreements : List Disagreement) : Prop where
  one_address : ∀ s ∈ final, ∀ t ∈ final, s.name = t.name → s.newAddress = t.newAddress
  recorded : ∀ s ∈ symbols, ∀ t ∈ symbols, s.name = t.name → s.newAddress ≠ t.newAddress →
    ∃ d ∈ disagreements, ∃ c ∈ d.candidates, c.2 = s.name
  one_assignment : ((EmitLd.assignedSymbols final).map PropagatedSymbol.name).Nodup

/-- At the address of `s`, a proposal of another name beats every proposal of the
name of `s`: it ranks higher, or equal and stands earlier. -/
def NameOutbid (symbols : List PropagatedSymbol) (priority : Priority)
    (s : PropagatedSymbol) : Prop :=
  Outbid (symbolRank priority) (proposalsAt symbols s.newAddress) fun p => p.name = s.name

variable {symbols : List PropagatedSymbol} {priority : Priority}

theorem not_nameOutbid_of_winner {w : PropagatedSymbol}
    (hw : w ∈ (arbitrateSymbols symbols priority).1) : ¬ NameOutbid symbols priority w := by
  intro h
  exact (not_of_mem_argmax_iff (mem_arbitrateSymbols.mp hw) _).mpr h rfl

/-- A name that is not outbid at an address wins it. -/
theorem exists_winner_of_not_nameOutbid {s : PropagatedSymbol} (hs : s ∈ symbols)
    (h : ¬ NameOutbid symbols priority s) :
    ∃ w ∈ (arbitrateSymbols symbols priority).1,
      w.newAddress = s.newAddress ∧ w.name = s.name := by
  obtain ⟨w, hw, haddr⟩ := exists_winner priority hs
  refine ⟨w, mem_arbitrateSymbols.mpr (by rw [haddr]; exact hw), haddr, ?_⟩
  by_contra hname
  exact h ((not_of_mem_argmax_iff hw _).mp hname)

/-- A name that is outbid meets another name at its address, which is recorded. -/
theorem recorded_of_nameOutbid {s : PropagatedSymbol} (hs : s ∈ symbols)
    (h : NameOutbid symbols priority s) :
    ∃ d ∈ (arbitrateSymbols symbols priority).2, ∃ c ∈ d.candidates, c.2 = s.name := by
  obtain ⟨u, hu, hname, _⟩ := h
  obtain ⟨husym, haddr⟩ := List.mem_filter.mp hu
  obtain ⟨d, hd, _, hc⟩ := exists_disagreement priority hs husym
    (of_decide_eq_true haddr) hname
  exact ⟨d, hd, _, hc, rfl⟩

theorem nodup_names_of_one_address
    (h : ∀ s ∈ (arbitrateSymbols symbols priority).1,
      ∀ t ∈ (arbitrateSymbols symbols priority).1, s.name = t.name →
        s.newAddress = t.newAddress) :
    ((arbitrateSymbols symbols priority).1.map PropagatedSymbol.name).Nodup := by
  have haddrs := arbitrateSymbols_nodup symbols priority
  apply (List.Nodup.of_map _ haddrs).map_on
  intro s hs t ht hname
  exact List.inj_on_of_nodup_map haddrs hs ht (h s hs t ht hname)

/-- Names are settled exactly when each name proposed at two addresses is outbid at
one of them. -/
theorem arbitrateSymbols_namesSettled_iff (symbols : List PropagatedSymbol)
    (priority : Priority) :
    NamesSettled symbols (arbitrateSymbols symbols priority).1
        (arbitrateSymbols symbols priority).2 ↔
      ∀ s ∈ symbols, ∀ t ∈ symbols, s.name = t.name → s.newAddress ≠ t.newAddress →
        NameOutbid symbols priority s ∨ NameOutbid symbols priority t := by
  constructor
  · intro h s hs t ht hname haddr
    by_contra hno
    rw [not_or] at hno
    obtain ⟨v, hv, hva, hvn⟩ := exists_winner_of_not_nameOutbid hs hno.1
    obtain ⟨w, hw, hwa, hwn⟩ := exists_winner_of_not_nameOutbid ht hno.2
    have hsame := h.one_address v hv w hw (by rw [hvn, hwn, hname])
    exact haddr (by rw [← hva, ← hwa, hsame])
  · intro h
    have hone : ∀ s ∈ (arbitrateSymbols symbols priority).1,
        ∀ t ∈ (arbitrateSymbols symbols priority).1, s.name = t.name →
          s.newAddress = t.newAddress := by
      intro s hs t ht hname
      by_contra haddr
      rcases h s (mem_of_mem_arbitrateSymbols hs) t (mem_of_mem_arbitrateSymbols ht) hname haddr
        with hout | hout
      · exact not_nameOutbid_of_winner hs hout
      · exact not_nameOutbid_of_winner ht hout
    refine ⟨hone, fun s hs t ht hname haddr => ?_, ?_⟩
    · rcases h s hs t ht hname haddr with hout | hout
      · exact recorded_of_nameOutbid hs hout
      · rw [hname]
        exact recorded_of_nameOutbid ht hout
    · exact ((EmitLd.assignedSymbols_perm _).map _).nodup_iff.mpr
        (nodup_names_of_one_address hone)

/-- Two references propose `dtc_handler` at two addresses and nothing else: both
assignments are written and nothing is recorded. -/
theorem not_namesSettled_of_shared_name :
    let a : PropagatedSymbol :=
      ⟨"dtc_handler", 0x1000, 0x2000, .function, .high, "dtc_table", 1, "first", true⟩
    let b : PropagatedSymbol :=
      ⟨"dtc_handler", 0x1800, 0x3000, .function, .high, "dtc_table", 1, "second", true⟩
    let arbitrated := arbitrateSymbols [a, b] (Dict.ofList [("first", 10), ("second", 5)])
    arbitrated = ([a, b], []) ∧ ¬ NamesSettled [a, b] arbitrated.1 arbitrated.2 := by
  intro a b arbitrated
  have harb : arbitrated = ([a, b], []) := by decide +kernel
  refine ⟨harb, fun h => ?_⟩
  have hone := h.one_address
  rw [harb] at hone
  have hsame := hone a (by simp) b (by simp) rfl
  exact absurd hsame (by decide)

end RomAnalyzer.NameArbitration
