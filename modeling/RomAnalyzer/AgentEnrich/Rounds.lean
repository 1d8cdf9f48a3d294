import RomAnalyzer.AgentEnrich

/-!
# Runs of the naming queue

Whatever is popped, rescored, saved and loaded, every entry stays accounted for: it is in
one batch or in the queue, and only its two counts have grown, by the same amount.
-/
namespace RomAnalyzer.AgentEnrich

open Lib
open Lib.Json (Plain PlainItems PlainFields reqStr reqInt strOr listOf)

/-! ### The file -/

theorem fromDict_toDict (e : QueueEntry) : fromDict (toDict e) = some e := by
  have hneighbors : listOf "neighbor_addresses" Json.str? (toDict e) = some e.neighborAddresses :=
    Json.mapM_str e.neighborAddresses
  have hsiblings : listOf "sibling_addresses" Json.str? (toDict e) = some e.siblingAddresses :=
    Json.mapM_str e.siblingAddresses
  unfold fromDict
  rw [hneighbors, hsiblings]
  rfl

theorem plainItems_map {α : Type*} {write : α → Json} (h : ∀ a, (write a).Plain) (xs : List α) :
    PlainItems (xs.map write) := by
  induction xs with
  | nil => trivial
  | cons x xs ih => exact ⟨h x, ih⟩

theorem plain_toDict (e : QueueEntry) : (toDict e).Plain := by
  have htexts : ∀ texts : List String, (Json.list (texts.map Json.str)).Plain :=
    plainItems_map fun _ => trivial
  have hkeys : ["rom", "address", "current_name", "prog_name", "named_neighbor_count", "priority",
      "neighbor_addresses", "item_type", "category", "sibling_addresses"].Nodup := by decide
  refine ⟨hkeys, ?_⟩
  exact ⟨trivial, trivial, trivial, trivial, trivial, trivial, htexts _, trivial, trivial,
    htexts _, trivial⟩

section Run

variable {floatText : String → String}

/-- A saved queue is loaded in descending order. -/
theorem loadEntries_saveEntries (file : String) (stateDir : StateDir) (queue : List QueueEntry) :
    loadEntries floatText file (saveEntries file stateDir queue) =
      some (sortDescending queue) := by
  have hplain : (Json.list (queue.map toDict)).Plain := plainItems_map plain_toDict queue
  rw [loadEntries, saveEntries, Function.update_self]
  dsimp only
  rw [Json.loads_dumps hplain]
  show ((queue.map toDict).mapM fromDict).bind (fun entries => some (sortDescending entries)) = _
  rw [Json.mapM_map_of_inverse fromDict_toDict]
  rfl

end Run

/-! ### What stays -/

/-- The queue is sorted by descending priority. -/
def Descending (queue : List QueueEntry) : Prop :=
  queue.Pairwise fun a b => b.priority ≤ a.priority

instance (queue : List QueueEntry) : Decidable (Descending queue) :=
  inferInstanceAs (Decidable (List.Pairwise _ _))

/-- All that no step changes of an entry: its fields but the two counts, and the difference
of these. -/
def settled (e : QueueEntry) : QueueEntry × Int :=
  ({ e with namedNeighborCount := 0, priority := 0 }, e.priority - e.namedNeighborCount)

def itemKey (e : QueueEntry) : String × String × String := (e.rom, e.address, e.itemType)

@[simp] theorem settled_raise (e : QueueEntry) (gain : Nat) : settled (raise e gain) = settled e := by
  unfold raise
  split
  · simp only [settled, add_sub_add_right_eq_sub]
  · rfl

theorem sortDescending_perm (queue : List QueueEntry) : (sortDescending queue).Perm queue :=
  sortBy_perm _ queue

theorem sortDescending_descending (queue : List QueueEntry) : Descending (sortDescending queue) := by
  apply (sortBy_pairwise (fun e => OrderDual.toDual e.priority) queue).imp
  intro a b hle
  exact OrderDual.toDual_le_toDual.mp hle

/-- Raising the entries changes nothing that stays. -/
theorem map_settled_raised (gain : QueueEntry → Nat) (queue : List QueueEntry) :
    (queue.map fun e => raise e (gain e)).map settled = queue.map settled := by
  rw [List.map_map]
  apply List.map_congr_left
  intro e _
  exact settled_raise e (gain e)

theorem rescoreNeighbors_perm (queue : List QueueEntry) (newlyNamed : Finset String) :
    (rescoreNeighbors queue newlyNamed).Perm
      (queue.map fun e => raise e (overlap e.neighborAddresses newlyNamed)) :=
  sortDescending_perm _

theorem map_settled_rescoreNeighbors (queue : List QueueEntry) (newlyNamed : Finset String) :
    ((rescoreNeighbors queue newlyNamed).map settled).Perm (queue.map settled) := by
  have hperm := (rescoreNeighbors_perm queue newlyNamed).map settled
  rwa [map_settled_raised] at hperm

theorem rescoreVarNeighbors_perm (queue : List QueueEntry)
    (newlyNamed newlyNamedVars : Finset String) :
    (rescoreVarNeighbors queue newlyNamed newlyNamedVars).Perm
      (queue.map fun e => raise e (totalGain newlyNamed newlyNamedVars e)) := by
  have hperm := (sortBy_perm (fun t : QueueEntry × Nat =>
    OrderDual.toDual (toLex (t.1.priority, t.2))) (queue.map fun e =>
      (raise e (totalGain newlyNamed newlyNamedVars e),
        totalGain newlyNamed newlyNamedVars e))).map Prod.fst
  rwa [List.map_map] at hperm

theorem map_settled_rescoreVarNeighbors (queue : List QueueEntry)
    (newlyNamed newlyNamedVars : Finset String) :
    ((rescoreVarNeighbors queue newlyNamed newlyNamedVars).map settled).Perm
      (queue.map settled) := by
  have hperm := (rescoreVarNeighbors_perm queue newlyNamed newlyNamedVars).map settled
  rwa [map_settled_raised] at hperm

theorem rescoreVarNeighbors_descending (queue : List QueueEntry)
    (newlyNamed newlyNamedVars : Finset String) :
    Descending (rescoreVarNeighbors queue newlyNamed newlyNamedVars) := by
  apply List.pairwise_map.mpr
  apply (sortBy_pairwise (fun t : QueueEntry × Nat =>
    OrderDual.toDual (toLex (t.1.priority, t.2))) _).imp
  intro t u hle
  exact Prod.Lex.monotone_fst_ofLex (OrderDual.toDual_le_toDual.mp hle)

/-! ### Runs -/

inductive Step
  | pop (k : Int)
  | rescore (newlyNamed : Finset String)
  | rescoreVar (newlyNamed newlyNamedVars : Finset String)
  | saveLoad
  | saveLoadVar
  deriving DecidableEq

/-- The queue in memory, the batches taken from it, and the files. -/
structure Loop where
  queue : List QueueEntry
  batches : List (List QueueEntry)
  stateDir : StateDir

/-- All entries, those in batches and those that remain. -/
def Loop.entries (s : Loop) : List QueueEntry := s.batches.flatten ++ s.queue

section Run

variable (floatText : String → String)

/-- One step; it fails when a file cannot be read. -/
def step (s : Loop) : Step → Option Loop
  | .pop k =>
    let popped := popBatch s.queue k
    some { s with queue := popped.2, batches := s.batches ++ [popped.1] }
  | .rescore newlyNamed => some { s with queue := rescoreNeighbors s.queue newlyNamed }
  | .rescoreVar newlyNamed newlyNamedVars =>
    some { s with queue := rescoreVarNeighbors s.queue newlyNamed newlyNamedVars }
  | .saveLoad =>
    let stateDir := saveQueue s.stateDir s.queue
    (loadQueue floatText stateDir).map fun queue => { s with queue, stateDir }
  | .saveLoadVar =>
    let stateDir := saveVarQueue s.stateDir s.queue
    (loadVarQueue floatText stateDir).map fun queue => { s with queue, stateDir }

def run (s : Loop) : List Step → Option Loop
  | [] => some s
  | t :: ts => (step floatText s t).bind fun s' => run s' ts

end Run

/-- Every entry is where it should be, and the queue is sorted. -/
structure Accounted (initial : List QueueEntry) (s : Loop) : Prop where
  settled : (s.entries.map settled).Perm (initial.map settled)
  descending : Descending s.queue

section Preserved

variable {floatText : String → String} {initial : List QueueEntry} {s : Loop}

/-- A rebuilt queue that keeps what stays of its entries. -/
theorem Accounted.requeue (h : Accounted initial s) {queue : List QueueEntry}
    (hperm : (queue.map AgentEnrich.settled).Perm (s.queue.map AgentEnrich.settled))
    (hdescending : Descending queue) (stateDir : StateDir) :
    Accounted initial ⟨queue, s.batches, stateDir⟩ := by
  refine ⟨?_, hdescending⟩
  have hsettled := h.settled
  rw [Loop.entries, List.map_append] at hsettled ⊢
  exact (hperm.append_left _).trans hsettled

theorem Accounted.pop (h : Accounted initial s) (k : Int) :
    Accounted initial ⟨(popBatch s.queue k).2, s.batches ++ [(popBatch s.queue k).1],
      s.stateDir⟩ := by
  constructor
  · have hsettled := h.settled
    rw [Loop.entries] at hsettled ⊢
    rw [List.flatten_append, List.flatten_singleton, List.append_assoc, popBatch,
      List.take_append_drop]
    exact hsettled
  · exact h.descending.sublist (List.drop_sublist _ _)

/-- One step succeeds and keeps every entry accounted for. -/
theorem Accounted.step (h : Accounted initial s) (t : Step) :
    ∃ s', step floatText s t = some s' ∧ Accounted initial s' := by
  cases t with
  | pop k => exact ⟨_, rfl, h.pop k⟩
  | rescore newlyNamed =>
    exact ⟨_, rfl, h.requeue (map_settled_rescoreNeighbors _ _) (sortDescending_descending _) _⟩
  | rescoreVar newlyNamed newlyNamedVars =>
    exact ⟨_, rfl, h.requeue (map_settled_rescoreVarNeighbors _ _ _)
      (rescoreVarNeighbors_descending _ _ _) _⟩
  | saveLoad =>
    refine ⟨⟨sortDescending s.queue, s.batches, saveQueue s.stateDir s.queue⟩, ?_,
      h.requeue ((sortDescending_perm _).map _) (sortDescending_descending _) _⟩
    rw [AgentEnrich.step, loadQueue, saveQueue, loadEntries_saveEntries]
    rfl
  | saveLoadVar =>
    refine ⟨⟨sortDescending s.queue, s.batches, saveVarQueue s.stateDir s.queue⟩, ?_,
      h.requeue ((sortDescending_perm _).map _) (sortDescending_descending _) _⟩
    rw [AgentEnrich.step, loadVarQueue, saveVarQueue, loadEntries_saveEntries]
    rfl

theorem Accounted.run (h : Accounted initial s) (ts : List Step) :
    ∃ s', run floatText s ts = some s' ∧ Accounted initial s' := by
  induction ts generalizing s with
  | nil => exact ⟨s, rfl, h⟩
  | cons t ts ih =>
    obtain ⟨s', hstep, h'⟩ := h.step t
    obtain ⟨s'', hrun, h''⟩ := ih h'
    refine ⟨s'', ?_, h''⟩
    rw [AgentEnrich.run, hstep, Option.bind_some, hrun]

end Preserved

/-- From a sorted queue every run goes through. No entry is lost or doubled, the queue stays
sorted, and of each entry only the two counts change, together; an entry that is written is
read back. -/
theorem run_accounted (floatText : String → String) (queue : List QueueEntry)
    (stateDir : StateDir) (hqueue : Descending queue) (ts : List Step) :
    ∃ s, run floatText ⟨queue, [], stateDir⟩ ts = some s ∧
      (s.entries.map itemKey).Perm (queue.map itemKey) ∧
      Descending s.queue ∧
      (s.entries.map settled).Perm (queue.map settled) ∧
      ∀ e, fromDict (toDict e) = some e := by
  have hinitial : Accounted queue ⟨queue, [], stateDir⟩ := ⟨List.Perm.refl _, hqueue⟩
  obtain ⟨s, hrun, h⟩ := hinitial.run ts
  refine ⟨s, hrun, ?_, h.descending, h.settled, fromDict_toDict⟩
  have hkeys := h.settled.map fun t => itemKey t.1
  rwa [List.map_map, List.map_map] at hkeys

def sampleQueue : List QueueEntry :=
  [⟨"33520003", "0x300", "FUN_00000300", "test.bin", 5, 5, [], "function", "", []⟩,
    ⟨"33520003", "0x200", "FUN_00000200", "test.bin", 3, 3, ["0x111"], "function", "", []⟩,
    ⟨"33520003", "0x100", "FUN_00000100", "test.bin", 2, 2, ["0x999", "0xabc"], "function", "", []⟩]

def sampleSteps : List Step := [.pop 1, .rescore {"0x999", "0xabc"}, .saveLoad, .pop 1]

theorem run_accounted_sample :
    ∃ s, run id ⟨sampleQueue, [], fun _ => none⟩ sampleSteps = some s ∧
      (s.entries.map itemKey).Perm (sampleQueue.map itemKey) ∧
      Descending s.queue ∧
      (s.entries.map settled).Perm (sampleQueue.map settled) ∧
      ∀ e, fromDict (toDict e) = some e :=
  run_accounted id sampleQueue (fun _ => none) (by decide) sampleSteps

end RomAnalyzer.AgentEnrich
