import RomAnalyzer.AgentEnrich.Rounds
import RomAnalyzer.Registry

/-!
# The addresses of a round

A round reports the addresses that it named, those of all ROMs in one list, and the queue is
rescored with them. Entries of different ROMs name their neighbours by the same texts.
-/
namespace RomAnalyzer.Scripts

open Lib
open AgentEnrich (QueueEntry raise overlap totalGain rescoreNeighbors rescoreNeighbors_perm
  rescoreVarNeighbors rescoreVarNeighbors_perm)

/-- What an agent says of one item, as far as the report depends on it. -/
structure AgentResult where
  rom : String
  /-- hexadecimal text -/
  address : String
  confidence : String
  itemType : String := "function"
  deriving DecidableEq, Repr

def fnHigh (results : List AgentResult) : List AgentResult :=
  results.filter fun r => r.itemType = "function" ∧ r.confidence = "high"

def varHigh (results : List AgentResult) : List AgentResult :=
  results.filter fun r => r.itemType = "variable" ∧ r.confidence = "high"

/-- What `applied_this_round.json` says of addresses. -/
structure AppliedThisRound where
  addresses : List String
  varsAddresses : List String
  deriving DecidableEq, Repr

section Round

variable (jsonPaths : Dict String Path) (present : Path → Bool)

/-- A ROM that is not in the registry, or whose file is missing, is passed over. -/
def hasFile (rom : String) : Bool := (jsonPaths.get? rom).any present

/-- The results that are written to a file, ROM by ROM. -/
def written (results : List AgentResult) : List AgentResult :=
  (Dict.groupBy AgentResult.rom results).entries.flatMap fun g =>
    if hasFile jsonPaths present g.1 then g.2 else []

def appliedThisRound (results : List AgentResult) : AppliedThisRound where
  addresses :=
    (written jsonPaths present (fnHigh results) ++ written jsonPaths present (varHigh results)).map
      AgentResult.address
  varsAddresses := (written jsonPaths present (varHigh results)).map AgentResult.address

/-- The round named this address as a variable in the ROM. -/
def VarNamed (results : List AgentResult) (rom address : String) : Prop :=
  ∃ r ∈ results, r.rom = rom ∧ r.address = address ∧ hasFile jsonPaths present rom = true ∧
    r.confidence = "high" ∧ r.itemType = "variable"

/-- The round named this address in the ROM. -/
def Named (results : List AgentResult) (rom address : String) : Prop :=
  ∃ r ∈ results, r.rom = rom ∧ r.address = address ∧ hasFile jsonPaths present rom = true ∧
    r.confidence = "high" ∧ (r.itemType = "function" ∨ r.itemType = "variable")

instance (results : List AgentResult) (rom address : String) :
    Decidable (VarNamed jsonPaths present results rom address) :=
  inferInstanceAs (Decidable (∃ _ ∈ _, _))

instance (results : List AgentResult) (rom address : String) :
    Decidable (Named jsonPaths present results rom address) :=
  inferInstanceAs (Decidable (∃ _ ∈ _, _))

variable (results : List AgentResult)

/-- How many neighbours of an entry were named in its own ROM. -/
def ownNeighbors (e : QueueEntry) : Nat :=
  (e.neighborAddresses.toFinset.filter (Named jsonPaths present results e.rom)).card

def ownSiblings (e : QueueEntry) : Nat :=
  (e.siblingAddresses.toFinset.filter (VarNamed jsonPaths present results e.rom)).card

/-- Every entry is raised by a number of its own. -/
def RaisedBy (gain : QueueEntry → Nat) (queue rescored : List QueueEntry) : Prop :=
  rescored.Perm (queue.map fun e => raise e (gain e))

/-- A neighbour that some ROM named is named in the ROM of the entry. -/
def NeighborsOwn (queue : List QueueEntry) : Prop :=
  ∀ e ∈ queue, ∀ a ∈ e.neighborAddresses,
    (∃ rom, Named jsonPaths present results rom a) → Named jsonPaths present results e.rom a

def SiblingsOwn (queue : List QueueEntry) : Prop :=
  ∀ e ∈ queue, ∀ a ∈ e.siblingAddresses,
    (∃ rom, VarNamed jsonPaths present results rom a) →
      VarNamed jsonPaths present results e.rom a

end Round

/-! ### Raising by two gains -/

theorem priority_raise (e : QueueEntry) (gain : Nat) : (raise e gain).priority = e.priority + gain := by
  unfold raise
  split
  · rfl
  · omega

theorem sum_priority_raise (gain : QueueEntry → Nat) (queue : List QueueEntry) :
    ((queue.map fun e => raise e (gain e)).map QueueEntry.priority).sum =
      (queue.map QueueEntry.priority).sum + ((queue.map gain).sum : Nat) := by
  induction queue with
  | nil => rfl
  | cons e queue ih =>
    simp only [List.map_cons, List.sum_cons, priority_raise]
    omega

theorem eq_of_sum_eq {α : Type*} {f g : α → Nat} {xs : List α} (hle : ∀ x ∈ xs, g x ≤ f x)
    (hsum : (xs.map f).sum = (xs.map g).sum) : ∀ x ∈ xs, f x = g x := by
  induction xs with
  | nil => exact fun x hx => absurd hx List.not_mem_nil
  | cons x xs ih =>
    have hhead := hle x List.mem_cons_self
    have htail : ∀ y ∈ xs, g y ≤ f y := fun y hy => hle y (List.mem_cons_of_mem _ hy)
    have htails : (xs.map g).sum ≤ (xs.map f).sum := List.sum_le_sum htail
    rw [List.map_cons, List.map_cons, List.sum_cons, List.sum_cons] at hsum
    exact List.forall_mem_cons.mpr ⟨by omega, ih htail (by omega)⟩

/-- Raising by larger gains gives the same queue only if no gain is larger: the priorities
have another sum otherwise. -/
theorem raisedBy_map_iff {f g : QueueEntry → Nat} {queue : List QueueEntry}
    (hle : ∀ e ∈ queue, g e ≤ f e) :
    RaisedBy g queue (queue.map fun e => raise e (f e)) ↔ ∀ e ∈ queue, f e = g e := by
  constructor
  · intro hperm
    apply eq_of_sum_eq hle
    have hsum := (hperm.map QueueEntry.priority).sum_eq
    rw [sum_priority_raise, sum_priority_raise] at hsum
    omega
  · intro heq
    apply List.Perm.of_eq
    apply List.map_congr_left
    intro e he
    rw [heq e he]

/-- Of the named addresses only those with a property count exactly when every named one has
it. -/
theorem overlap_eq_card_filter_iff {addresses : List String} {named : Finset String}
    {P Q : String → Prop} [DecidablePred P] (hnamed : ∀ a, a ∈ named ↔ Q a)
    (hPQ : ∀ a, P a → Q a) :
    (addresses.toFinset.filter P).card ≤ overlap addresses named ∧
      (overlap addresses named = (addresses.toFinset.filter P).card ↔
        ∀ a ∈ addresses, Q a → P a) := by
  have hsub : addresses.toFinset.filter P ⊆ addresses.toFinset ∩ named := by
    intro a ha
    obtain ⟨hmem, hP⟩ := Finset.mem_filter.mp ha
    exact Finset.mem_inter.mpr ⟨hmem, (hnamed a).mpr (hPQ a hP)⟩
  refine ⟨Finset.card_le_card hsub, ?_, ?_⟩
  · intro hcard a ha hQ
    have heq := Finset.eq_of_subset_of_card_le hsub hcard.le
    have hmem : a ∈ addresses.toFinset.filter P := by
      rw [heq]
      exact Finset.mem_inter.mpr ⟨List.mem_toFinset.mpr ha, (hnamed a).mpr hQ⟩
    exact (Finset.mem_filter.mp hmem).2
  · intro hall
    apply congrArg Finset.card
    refine subset_antisymm ?_ hsub
    intro a ha
    obtain ⟨hmem, hin⟩ := Finset.mem_inter.mp ha
    exact Finset.mem_filter.mpr
      ⟨hmem, hall a (List.mem_toFinset.mp hmem) ((hnamed a).mp hin)⟩

/-! ### What a round reports -/

section Report

variable {jsonPaths : Dict String Path} {present : Path → Bool} {results : List AgentResult}

theorem mem_written {r : AgentResult} :
    r ∈ written jsonPaths present results ↔
      r ∈ results ∧ hasFile jsonPaths present r.rom = true := by
  rw [written, List.mem_flatMap]
  constructor
  · intro h
    obtain ⟨⟨rom, group⟩, hgroup, hr⟩ := h
    obtain ⟨rfl, _⟩ := (Dict.mem_entries_groupBy AgentResult.rom results rom group).mp hgroup
    split at hr
    · rename_i hfile
      obtain ⟨hmem, hrom⟩ := List.mem_filter.mp hr
      rw [of_decide_eq_true hrom]
      exact ⟨hmem, hfile⟩
    · exact absurd hr List.not_mem_nil
  · intro h
    obtain ⟨hmem, hfile⟩ := h
    refine ⟨(r.rom, results.filter fun x => x.rom = r.rom),
      (Dict.mem_entries_groupBy _ _ _ _).mpr ⟨rfl, r, hmem, rfl⟩, ?_⟩
    rw [if_pos hfile]
    exact List.mem_filter.mpr ⟨hmem, decide_eq_true rfl⟩

theorem mem_varsAddresses {a : String} :
    a ∈ (appliedThisRound jsonPaths present results).varsAddresses ↔
      ∃ rom, VarNamed jsonPaths present results rom a := by
  simp only [appliedThisRound, List.mem_map, mem_written, varHigh, List.mem_filter,
    decide_eq_true_iff]
  constructor
  · intro h
    obtain ⟨r, ⟨⟨hmem, hvar, hhigh⟩, hfile⟩, haddr⟩ := h
    exact ⟨r.rom, r, hmem, rfl, haddr, hfile, hhigh, hvar⟩
  · intro h
    obtain ⟨rom, r, hmem, rfl, haddr, hfile, hhigh, hvar⟩ := h
    exact ⟨r, ⟨⟨hmem, hvar, hhigh⟩, hfile⟩, haddr⟩

theorem mem_addresses {a : String} :
    a ∈ (appliedThisRound jsonPaths present results).addresses ↔
      ∃ rom, Named jsonPaths present results rom a := by
  simp only [appliedThisRound, List.mem_map, List.mem_append, mem_written, fnHigh, varHigh,
    List.mem_filter, decide_eq_true_iff]
  constructor
  · intro h
    obtain ⟨r, ⟨⟨hmem, hkind, hhigh⟩, hfile⟩ | ⟨⟨hmem, hkind, hhigh⟩, hfile⟩, haddr⟩ := h
    · exact ⟨r.rom, r, hmem, rfl, haddr, hfile, hhigh, Or.inl hkind⟩
    · exact ⟨r.rom, r, hmem, rfl, haddr, hfile, hhigh, Or.inr hkind⟩
  · intro h
    obtain ⟨rom, r, hmem, rfl, haddr, hfile, hhigh, hkind | hkind⟩ := h
    · exact ⟨r, Or.inl ⟨⟨hmem, hkind, hhigh⟩, hfile⟩, haddr⟩
    · exact ⟨r, Or.inr ⟨⟨hmem, hkind, hhigh⟩, hfile⟩, haddr⟩

end Report

/-! ### Each entry by its own ROM -/

section Rescored

variable (jsonPaths : Dict String Path) (present : Path → Bool) (results : List AgentResult)

theorem overlap_addresses_iff (e : QueueEntry) :
    ownNeighbors jsonPaths present results e ≤
        overlap e.neighborAddresses (appliedThisRound jsonPaths present results).addresses.toFinset ∧
      (overlap e.neighborAddresses
          (appliedThisRound jsonPaths present results).addresses.toFinset =
          ownNeighbors jsonPaths present results e ↔
        ∀ a ∈ e.neighborAddresses, (∃ rom, Named jsonPaths present results rom a) →
          Named jsonPaths present results e.rom a) := by
  apply overlap_eq_card_filter_iff
  · intro a
    exact List.mem_toFinset.trans mem_addresses
  · intro a ha
    exact ⟨e.rom, ha⟩

theorem overlap_varsAddresses_iff (e : QueueEntry) :
    ownSiblings jsonPaths present results e ≤ overlap e.siblingAddresses
        (appliedThisRound jsonPaths present results).varsAddresses.toFinset ∧
      (overlap e.siblingAddresses
          (appliedThisRound jsonPaths present results).varsAddresses.toFinset =
          ownSiblings jsonPaths present results e ↔
        ∀ a ∈ e.siblingAddresses, (∃ rom, VarNamed jsonPaths present results rom a) →
          VarNamed jsonPaths present results e.rom a) := by
  apply overlap_eq_card_filter_iff
  · intro a
    exact List.mem_toFinset.trans mem_varsAddresses
  · intro a ha
    exact ⟨e.rom, ha⟩

theorem raisedBy_perm {g : QueueEntry → Nat} {queue ys zs : List QueueEntry} (h : ys.Perm zs) :
    RaisedBy g queue ys ↔ RaisedBy g queue zs := ⟨h.symm.trans, h.trans⟩

theorem raisedBy_rescoreNeighbors_iff (queue : List QueueEntry) :
    RaisedBy (ownNeighbors jsonPaths present results) queue
        (rescoreNeighbors queue
          (appliedThisRound jsonPaths present results).addresses.toFinset) ↔
      NeighborsOwn jsonPaths present results queue := by
  have hneighbors := overlap_addresses_iff jsonPaths present results
  rw [raisedBy_perm (rescoreNeighbors_perm _ _), raisedBy_map_iff fun e _ => (hneighbors e).1]
  constructor
  · intro h e he
    exact (hneighbors e).2.mp (h e he)
  · intro h e he
    exact (hneighbors e).2.mpr (h e he)

theorem raisedBy_rescoreVarNeighbors_iff (queue : List QueueEntry) :
    RaisedBy (fun e => ownNeighbors jsonPaths present results e +
        ownSiblings jsonPaths present results e) queue
        (rescoreVarNeighbors queue
          (appliedThisRound jsonPaths present results).addresses.toFinset
          (appliedThisRound jsonPaths present results).varsAddresses.toFinset) ↔
      NeighborsOwn jsonPaths present results queue ∧
        SiblingsOwn jsonPaths present results queue := by
  have hneighbors := overlap_addresses_iff jsonPaths present results
  have hsiblings := overlap_varsAddresses_iff jsonPaths present results
  have hle : ∀ e ∈ queue, _ ≤ totalGain _ _ e := fun e _ =>
    Nat.add_le_add (hneighbors e).1 (hsiblings e).1
  rw [raisedBy_perm (rescoreVarNeighbors_perm _ _ _), raisedBy_map_iff hle]
  constructor
  · intro h
    -- each of the two gains is at least its own count, so equal sums make both equal
    constructor
    · intro e he
      apply (hneighbors e).2.mp
      have hsum := h e he
      have hgain := (hneighbors e).1
      have hgain' := (hsiblings e).1
      rw [totalGain] at hsum
      omega
    · intro e he
      apply (hsiblings e).2.mp
      have hsum := h e he
      have hgain := (hneighbors e).1
      have hgain' := (hsiblings e).1
      rw [totalGain] at hsum
      omega
  · intro h e he
    rw [totalGain, (hneighbors e).2.mpr (h.1 e he), (hsiblings e).2.mpr (h.2 e he)]

/-- Either queue is raised by the names of each entry's own ROM exactly when no address of an
entry is named elsewhere only. -/
theorem rescored_by_own_rom_iff (queue varQueue : List QueueEntry) :
    (RaisedBy (ownNeighbors jsonPaths present results) queue
        (rescoreNeighbors queue
          (appliedThisRound jsonPaths present results).addresses.toFinset) ↔
      NeighborsOwn jsonPaths present results queue) ∧
    (RaisedBy (fun e => ownNeighbors jsonPaths present results e +
        ownSiblings jsonPaths present results e) varQueue
        (rescoreVarNeighbors varQueue
          (appliedThisRound jsonPaths present results).addresses.toFinset
          (appliedThisRound jsonPaths present results).varsAddresses.toFinset) ↔
      NeighborsOwn jsonPaths present results varQueue ∧
        SiblingsOwn jsonPaths present results varQueue) :=
  ⟨raisedBy_rescoreNeighbors_iff jsonPaths present results queue,
    raisedBy_rescoreVarNeighbors_iff jsonPaths present results varQueue⟩

end Rescored

/-! ### A name in another ROM -/

def bothRegistered : Dict String Path :=
  Dict.ofList [("33520003", "33520003.json"), ("33570003", "33570003.json")]

def otherRomEntry : QueueEntry :=
  ⟨"33570003", "0x2b800", "FUN_0002b800", "other.bin", 1, 1, ["0x1a3f0"], "function", "", []⟩

def namedInOne : List AgentResult := [⟨"33520003", "0x1a3f0", "high", "function"⟩]

/-- The function is named in one ROM, and the entry of the other is raised. -/
theorem otherRomEntry_raised :
    ¬ RaisedBy (ownNeighbors bothRegistered (fun _ => true) namedInOne) [otherRomEntry]
      (rescoreNeighbors [otherRomEntry]
        (appliedThisRound bothRegistered (fun _ => true) namedInOne).addresses.toFinset) := by
  intro hperm
  have hraised : rescoreNeighbors [otherRomEntry]
      (appliedThisRound bothRegistered (fun _ => true) namedInOne).addresses.toFinset =
      [{ otherRomEntry with namedNeighborCount := 2, priority := 2 }] := by decide
  have hown : ownNeighbors bothRegistered (fun _ => true) namedInOne otherRomEntry = 0 := by
    decide
  rw [hraised] at hperm
  have hentry := List.perm_singleton.mp hperm.symm
  rw [List.map_singleton, hown] at hentry
  exact absurd hentry (by decide)

end RomAnalyzer.Scripts
