import RomAnalyzer.Types
import RomAnalyzer.Lib.Hex
import RomAnalyzer.Lib.Ranked

/-!
# Splice-site resolution

The sites of a binding are candidate addresses; the expected address is computed
from offsets between two ROMs and may be anything, so it is an integer.
-/
namespace RomAnalyzer.Mode23Bindings

open Lib

structure SpliceResolution where
  address : Option Nat
  confidence : ConfidenceTier
  deriving DecidableEq, Repr

/-- `sorted(set(sites))` -/
def sortedSites (sites : List Nat) : List Nat := sortBy id sites.dedup

/-- Distance to the expected site, ties broken by the lower address. -/
def siteDistance (expected : Int) (a : Nat) : ℕ ×ₗ ℕ :=
  toLex (((a : Int) - expected).natAbs, a)

/-- An exact hit or a single candidate is taken with high confidence, the nearest of
several with medium; without candidates the site stays unresolved. -/
def resolveNearestSite (sites : List Nat) (expected : Int) : SpliceResolution :=
  match sortedSites sites with
  | [] => ⟨none, .low⟩
  | a :: rest =>
    if 0 ≤ expected ∧ expected.toNat ∈ a :: rest then ⟨some expected.toNat, .high⟩
    else if rest = [] then ⟨some a, .high⟩
    else ⟨(a :: rest).argmin (siteDistance expected), .medium⟩

/-! ### CAN call sites -/

/-- The caller passing slot argument 2. -/
def slot12Name : String := "canrx12_15_call_location_slot12"

/-- The caller passing slot argument 1. -/
def slot15Name : String := "canrx12_15_call_location_slot15"

structure CanSiteBinding where
  name : String
  resolution : SpliceResolution
  deriving DecidableEq, Repr

/-- `slot_of.get(a)`; a slot that could not be read is stored as `None`. -/
def slotAt (slotOf : Dict Nat (Option Int)) (a : Nat) : Option Int := (slotOf.get? a).join

def slotText (slot : Option Int) : String :=
  match slot with
  | none => "None"
  | some n => toString n

/-- Two callers with slots 2 and 1 are bound by slot, with high confidence; anything
else is bound by ascending address, with low confidence and a note. -/
def resolveCanCallSites (callers : List Nat) (slotOf : Dict Nat (Option Int)) :
    List CanSiteBinding × String :=
  let uniq := sortedSites callers
  if uniq.length = 2 ∧ sortBy id (uniq.filterMap (slotAt slotOf)) = [1, 2] then
    let addrBySlot := Dict.ofList (uniq.map fun a => (slotAt slotOf a, a))
    ([⟨slot12Name, ⟨addrBySlot.get? (some 2), .high⟩⟩,
      ⟨slot15Name, ⟨addrBySlot.get? (some 1), .high⟩⟩],
      "/* VERIFY: canrx12 slot=2, canrx15 slot=1 (matches hardcoded trampoline) */\n")
  else
    let detail :=
      if uniq = [] then "none"
      else String.intercalate ", " (uniq.map fun a =>
        hexText a ++ ":slot=" ++ slotText (slotAt slotOf a))
    ([⟨slot12Name, ⟨uniq[0]?, .low⟩⟩, ⟨slot15Name, ⟨uniq[1]?, .low⟩⟩],
      "/* VERIFY: expected 2 callers with slots \x7b2,1\x7d; got " ++ toString uniq.length ++
        " [" ++ detail ++ "] — confirm each site's buffer by hand */\n")

/-- The immediate of the nearest `ldi r0,#imm8` before a call, in steps of two bytes.
A byte 0x60 after a halfword with the high bit set is inside a 32-bit instruction. -/
def decodeLdiR0Before (rom : Bytes) (callSite : Nat) (maxBack : Nat := 12) : Option Nat :=
  let isLdi := fun off =>
    off + 1 < rom.length ∧ (rom.getD off 0).toNat = 0x60 ∧
      ¬ (2 ≤ off ∧ (rom.getD (off - 2) 0).toNat &&& 0x80 ≠ 0)
  let offsets := ((List.range (maxBack / 2)).map fun i => 2 * (i + 1)).filter (· ≤ callSite)
  (offsets.find? fun back => isLdi (callSite - back)).map fun back =>
    (rom.getD (callSite - back + 1) 0).toNat

theorem mem_sortedSites {sites : List Nat} {a : Nat} : a ∈ sortedSites sites ↔ a ∈ sites := by
  rw [sortedSites, mem_sortBy, List.mem_dedup]

theorem nodup_sortedSites (sites : List Nat) : (sortedSites sites).Nodup :=
  (sortBy_perm id sites.dedup).nodup_iff.mpr sites.nodup_dedup

/-- Whatever is resolved is one of the candidates. -/
theorem mem_of_resolveNearestSite {sites : List Nat} {expected : Int} {a : Nat}
    (h : (resolveNearestSite sites expected).address = some a) : a ∈ sites := by
  have hsorted : a ∈ sortedSites sites := by
    unfold resolveNearestSite at h
    cases hs : sortedSites sites with
    | nil => simp [hs] at h
    | cons b rest =>
      simp only [hs] at h
      split at h
      · rename_i hexp
        obtain rfl := Option.some.inj h
        exact hexp.2
      · split at h
        · obtain rfl := Option.some.inj h
          exact List.mem_cons_self
        · exact List.argmin_mem h
  exact List.mem_dedup.mp (mem_sortBy.mp hsorted)

/-- No candidate is nearer. -/
theorem le_of_resolveNearestSite {sites : List Nat} {expected : Int} {a b : Nat}
    (h : (resolveNearestSite sites expected).address = some a) (hb : b ∈ sites) :
    ((a : Int) - expected).natAbs ≤ ((b : Int) - expected).natAbs := by
  have hsorted := mem_sortedSites.mpr hb
  unfold resolveNearestSite at h
  cases hs : sortedSites sites with
  | nil => simp [hs] at h
  | cons c rest =>
    rw [hs] at hsorted
    simp only [hs] at h
    split at h
    · rename_i hexp
      obtain rfl := Option.some.inj h
      rw [Int.toNat_of_nonneg hexp.1, Int.sub_self]
      exact Nat.zero_le _
    · split at h
      · rename_i hrest
        obtain rfl := Option.some.inj h
        rw [hrest, List.mem_singleton] at hsorted
        rw [hsorted]
      · have hle := List.le_of_mem_argmin hsorted h
        rcases Prod.Lex.toLex_le_toLex.mp hle with hlt | ⟨heq, -⟩
        · exact le_of_lt hlt
        · exact le_of_eq heq

theorem resolveNearestSite_eq_none_iff {sites : List Nat} {expected : Int} :
    (resolveNearestSite sites expected).address = none ↔ sites = [] := by
  have hnil : sortedSites sites = [] ↔ sites = [] := by
    rw [sortedSites, sortBy_eq_nil_iff, List.dedup_eq_nil]
  rw [← hnil]
  unfold resolveNearestSite
  cases hs : sortedSites sites with
  | nil => simp
  | cons c rest =>
    simp only [reduceCtorEq, iff_false]
    split
    · simp
    · split
      · simp
      · rw [List.argmin_eq_none]
        exact List.cons_ne_nil c rest

/-- A site is certain when it is the expected one or the only one. -/
theorem resolveNearestSite_high_iff {sites : List Nat} {expected : Int} :
    (resolveNearestSite sites expected).confidence = .high ↔
      sites ≠ [] ∧ ((∃ a ∈ sites, (a : Int) = expected) ∨ ∀ a ∈ sites, ∀ b ∈ sites, a = b) := by
  have hmem : ∀ a, a ∈ sites ↔ a ∈ sortedSites sites := fun a => mem_sortedSites.symm
  have hnodup := nodup_sortedSites sites
  have hnil : sortedSites sites = [] ↔ sites = [] := by
    rw [sortedSites, sortBy_eq_nil_iff, List.dedup_eq_nil]
  simp only [hmem, ne_eq, ← hnil]
  unfold resolveNearestSite
  cases hs : sortedSites sites with
  | nil => simp
  | cons c rest =>
    rw [hs] at hnodup
    have hcertain : (0 ≤ expected ∧ expected.toNat ∈ c :: rest) ↔
        ∃ a ∈ c :: rest, (a : Int) = expected := by
      constructor
      · intro h
        exact ⟨expected.toNat, h.2, Int.toNat_of_nonneg h.1⟩
      · rintro ⟨a, ha, rfl⟩
        exact ⟨Int.natCast_nonneg a, ha⟩
    have honly : rest = [] ↔ ∀ a ∈ c :: rest, ∀ b ∈ c :: rest, a = b := by
      constructor
      · rintro rfl a ha b hb
        rw [List.mem_singleton.mp ha, List.mem_singleton.mp hb]
      · intro h
        cases rest with
        | nil => rfl
        | cons d rest =>
          have heq := h c List.mem_cons_self d (List.mem_cons_of_mem c List.mem_cons_self)
          rw [heq] at hnodup
          exact absurd List.mem_cons_self (List.nodup_cons.mp hnodup).1
    rw [← hcertain, ← honly]
    dsimp only
    split
    · rename_i hexp
      exact iff_of_true rfl ⟨List.cons_ne_nil c rest, Or.inl hexp⟩
    · rename_i hexp
      split
      · rename_i hrest
        exact iff_of_true rfl ⟨List.cons_ne_nil c rest, Or.inr hrest⟩
      · rename_i hrest
        refine iff_of_false ?_ ?_
        · intro h
          cases h
        · rintro ⟨-, h⟩
          exact h.elim hexp hrest

/-- A candidate at the expected place is taken. -/
theorem resolveNearestSite_of_mem {sites : List Nat} {a : Nat} (h : a ∈ sites) :
    resolveNearestSite sites a = ⟨some a, .high⟩ := by
  have hsorted := mem_sortedSites.mpr h
  unfold resolveNearestSite
  cases hs : sortedSites sites with
  | nil =>
    rw [hs] at hsorted
    cases hsorted
  | cons b rest =>
    rw [hs] at hsorted
    dsimp only
    rw [if_pos ⟨Int.natCast_nonneg a, hsorted⟩, Int.toNat_natCast]

end RomAnalyzer.Mode23Bindings
