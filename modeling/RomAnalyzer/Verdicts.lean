import RomAnalyzer.AnnotationsIo
import RomAnalyzer.Enrich
import RomAnalyzer.Lib.Table

/-!
# Reconcile items and their verdicts

Two producers write items: the enrichment run and the review branch of the naming
rounds. Applying the items indexes the store once, before the first of them.
-/
namespace RomAnalyzer.Enrich

open Lib
open Merge (Priority)

/-! ### The producers -/

def reconcileItem (c : LabelCandidate) (resolved : String × String) : ReconcileItem where
  target := c.target
  direction := c.direction
  address := c.address
  category := c.category
  current := c.current
  proposed := resolved.1
  source := c.source
  evidence := c.evidence
  verdict := resolved.2
  corroboratedBy := c.corroboratingSources.filter fun s => s ≠ c.source

/-- Review candidates with their suggested verdicts; a suggestion to keep the name as
it is leaves nothing to decide. -/
def buildReconcileItems (review : List LabelCandidate) (priority : Priority) :
    List ReconcileItem :=
  let items := review.filterMap fun c =>
    let resolved := autoResolve c priority
    if resolved.1 = c.current.getD "" then none else some (reconcileItem c resolved)
  sortBy (fun i => toLex (i.target, i.address)) items

/-! ### Applying verdicts -/

/-- The final name for an item, or `none` to leave the entry. -/
def resolvedName (item : ReconcileItem) : Option String :=
  if item.verdict = "proposed" then some item.proposed
  else if item.verdict = "keep" then none
  else if item.verdict = "drop" then none
  else some item.verdict

/-- One list of a store: its entries, and the entry that an item adds. -/
structure Column (ρ : Type) where
  entries : Labelled Nat String ρ
  fresh : ReconcileItem → String → ρ
  key_fresh : ∀ it name, entries.key (fresh it name) = it.address
  label_fresh : ∀ it name, entries.label (fresh it name) = name

def functionColumn : Column AnnotationFunction where
  entries := {
    key := AnnotationFunction.entryPoint
    label := AnnotationFunction.name
    relabel := fun name f => { f with name := name }
    key_relabel := fun _ _ => rfl
    label_relabel := fun _ _ => rfl
    relabel_label := fun _ => rfl
    relabel_relabel := fun _ _ _ => rfl }
  fresh := fun it name => {
    name := name, entryPoint := it.address, confidence := .medium
    source := "xref:" ++ it.source }
  key_fresh := fun _ _ => rfl
  label_fresh := fun _ _ => rfl

def symbolColumn : Column AnnotationSymbol where
  entries := {
    key := AnnotationSymbol.address
    label := AnnotationSymbol.name
    relabel := fun name s => { s with name := name }
    key_relabel := fun _ _ => rfl
    label_relabel := fun _ _ => rfl
    relabel_label := fun _ => rfl
    relabel_relabel := fun _ _ _ => rfl }
  fresh := fun it name => {
    name := name, address := it.address, category := it.category, confidence := .medium
    source := "xref:" ++ it.source }
  key_fresh := fun _ _ => rfl
  label_fresh := fun _ _ => rfl

/-- What an item asks of its column: rename the entry at the address, or add one if
the item was written for a gap. -/
def Column.write {ρ : Type} (col : Column ρ) (it : ReconcileItem) (name : String) :
    col.entries.Write where
  key := it.address
  label := name
  fresh := if it.current = none then some (col.fresh it name) else none
  key_fresh := by
    intro r hr
    split at hr
    · rw [← Option.some.inj hr, col.key_fresh]
    · cases hr
  label_fresh := by
    intro r hr
    split at hr
    · rw [← Option.some.inj hr, col.label_fresh]
    · cases hr

/-- The body of the loop, with the two indexes taken before it. -/
def applyVerdict (fnByAddr symByAddr : Dict Nat Nat) (target : String)
    (st : AnnotationStore × Nat) (it : ReconcileItem) : AnnotationStore × Nat :=
  if it.target ≠ target then st
  else
    match resolvedName it with
    | none => st
    | some name =>
      if it.category = .function then
        let written := functionColumn.entries.upsert fnByAddr st.1.functions
          (functionColumn.write it name)
        ({ st.1 with functions := written.1 }, st.2 + written.2)
      else
        let written := symbolColumn.entries.upsert symByAddr st.1.symbols
          (symbolColumn.write it name)
        ({ st.1 with symbols := written.1 }, st.2 + written.2)

/-- The store after the target's verdicts, and the number of mutations. -/
def applyVerdicts (store : AnnotationStore) (items : List ReconcileItem) (target : String) :
    AnnotationStore × Nat :=
  items.foldl (applyVerdict (functionColumn.entries.positions store.functions)
    (symbolColumn.entries.positions store.symbols) target) (store, 0)

/-! ### What the store holds -/

inductive EntryKind
  | function
  | symbol
  deriving DecidableEq, Repr

def kindOf : SymbolCategory → EntryKind
  | .function => .function
  | .data => .symbol
  | .ramGlobal => .symbol

/-- The names of the entries of a kind at an address. -/
def namesAt (store : AnnotationStore) : EntryKind → Nat → List String
  | .function, addr => functionColumn.entries.labelsAt store.functions addr
  | .symbol, addr => symbolColumn.entries.labelsAt store.symbols addr

/-- The target's items for one kind and address. -/
def itemsAt (items : List ReconcileItem) (target : String) (kind : EntryKind) (addr : Nat) :
    List ReconcileItem :=
  items.filter fun it => it.target = target ∧ kindOf it.category = kind ∧ it.address = addr

/-- The names that verdicts resolve to at an address, in the order of the items. -/
def decidedNames (items : List ReconcileItem) (target : String) (kind : EntryKind)
    (addr : Nat) : List String :=
  (itemsAt items target kind addr).filterMap resolvedName

/-- Those of items that were written for a gap. -/
def gapNames (items : List ReconcileItem) (target : String) (kind : EntryKind)
    (addr : Nat) : List String :=
  ((itemsAt items target kind addr).filter fun it => it.current = none).filterMap resolvedName

/-- Every accepted verdict is in the store, and nothing else is at its address. -/
def VerdictsApplied (items : List ReconcileItem) (target : String) (store : AnnotationStore) :
    Prop :=
  ∀ kind addr name, (decidedNames items target kind addr).getLast? = some name →
    namesAt store kind addr = [name]

section Writes

variable {ρ : Type}

/-- The writes that the items make to a column. -/
def writes (col : Column ρ) (kind : EntryKind) (items : List ReconcileItem) (target : String) :
    List col.entries.Write :=
  items.filterMap fun it =>
    if it.target = target ∧ kindOf it.category = kind then
      (resolvedName it).map (col.write it)
    else none

variable (col : Column ρ) (kind : EntryKind) (items : List ReconcileItem) (target : String)

theorem mem_writes {w : col.entries.Write} (h : w ∈ writes col kind items target) :
    ∃ it ∈ items, it.target = target ∧ kindOf it.category = kind ∧
      resolvedName it = some w.label ∧ w = col.write it w.label := by
  obtain ⟨it, hit, hw⟩ := List.mem_filterMap.mp h
  split at hw
  · rename_i hcol
    obtain ⟨name, hname, rfl⟩ := Option.map_eq_some_iff.mp hw
    exact ⟨it, hit, hcol.1, hcol.2, hname, rfl⟩
  · cases hw

/-- The writes at an address are those of the items there. -/
theorem writes_at (addr : Nat) :
    ((writes col kind items target).filter fun w => w.key = addr) =
      (itemsAt items target kind addr).filterMap fun it =>
        (resolvedName it).map (col.write it) := by
  unfold writes itemsAt
  induction items with
  | nil => rfl
  | cons it items ih =>
    by_cases hcol : it.target = target ∧ kindOf it.category = kind
    · cases hname : resolvedName it with
      | none =>
        by_cases haddr : it.address = addr
        · simpa [hcol, hname, haddr] using ih
        · simpa [hcol, hname, haddr] using ih
      | some name =>
        by_cases haddr : it.address = addr
        · simpa [hcol, hname, haddr, Column.write] using ih
        · simpa [hcol, hname, haddr, Column.write] using ih
    · have hnot : ¬ (it.target = target ∧ kindOf it.category = kind ∧ it.address = addr) :=
        fun h => hcol ⟨h.1, h.2.1⟩
      simpa [hcol, hnot] using ih

theorem lastLabel_writes (addr : Nat) :
    Labelled.lastLabel (writes col kind items target) addr =
      (decidedNames items target kind addr).getLast? := by
  have hlabel : ∀ it, ((resolvedName it).map (col.write it)).map Labelled.Write.label =
      resolvedName it := by
    intro it
    cases resolvedName it <;> rfl
  rw [Labelled.lastLabel, writes_at, List.map_filterMap]
  simp only [hlabel]
  rfl

theorem fresh_writes (addr : Nat) :
    (Labelled.freshAt (writes col kind items target) addr).map col.entries.label =
      gapNames items target kind addr := by
  have hfresh : ∀ it, (((resolvedName it).map (col.write it)).bind Labelled.Write.fresh).map
      col.entries.label = if it.current = none then resolvedName it else none := by
    intro it
    cases hname : resolvedName it with
    | none => simp
    | some name =>
      by_cases hgap : it.current = none
      · simp [Column.write, hgap, col.label_fresh]
      · simp [Column.write, hgap]
  rw [Labelled.freshAt, writes_at, List.filterMap_filterMap, List.map_filterMap, gapNames,
    List.filterMap_filter]
  simp only [hfresh, decide_eq_true_eq]

/-- One column after a run of its writes. -/
theorem labelsAt_run_writes_iff {rs : List ρ} (hnd : (rs.map col.entries.key).Nodup)
    {addr : Nat} {name : String}
    (hlast : (decidedNames items target kind addr).getLast? = some name) :
    col.entries.labelsAt (col.entries.run rs (writes col kind items target)) addr = [name] ↔
      col.entries.labelsAt rs addr ≠ [] ∨ gapNames items target kind addr = [name] := by
  have hw := (lastLabel_writes col kind items target addr).trans hlast
  rw [Labelled.labelsAt_run_eq_singleton_iff hnd _ hw, fresh_writes]

end Writes

/-- The loop over the items is one run of writes for each column. -/
theorem foldl_applyVerdict (fnByAddr symByAddr : Dict Nat Nat) (target : String) :
    ∀ (items : List ReconcileItem) (st : AnnotationStore × Nat),
      (items.foldl (applyVerdict fnByAddr symByAddr target) st).1 = { st.1 with
        functions := functionColumn.entries.writeAll fnByAddr st.1.functions
          (writes functionColumn .function items target)
        symbols := symbolColumn.entries.writeAll symByAddr st.1.symbols
          (writes symbolColumn .symbol items target) } := by
  intro items
  induction items with
  | nil => exact fun st => rfl
  | cons it items ih =>
    intro st
    rw [List.foldl_cons, ih]
    by_cases htarget : it.target = target
    · cases hname : resolvedName it with
      | none => simp [applyVerdict, writes, htarget, hname]
      | some name =>
        cases hcat : it.category with
        | function =>
          simp [applyVerdict, writes, htarget, hname, hcat, kindOf, Labelled.writeAll]
        | data =>
          simp [applyVerdict, writes, htarget, hname, hcat, kindOf, Labelled.writeAll]
        | ramGlobal =>
          simp [applyVerdict, writes, htarget, hname, hcat, kindOf, Labelled.writeAll]
    · simp [applyVerdict, writes, htarget]

/-- Every accepted verdict reaches the store exactly when each one is about an address
that the store has, or is the only one there that was written for a gap. -/
theorem applyVerdicts_applied_iff (store : AnnotationStore) (items : List ReconcileItem)
    (target : String)
    (hfunctions : (store.functions.map AnnotationFunction.entryPoint).Nodup)
    (hsymbols : (store.symbols.map AnnotationSymbol.address).Nodup) :
    VerdictsApplied items target (applyVerdicts store items target).1 ↔
      ∀ kind addr name, (decidedNames items target kind addr).getLast? = some name →
        namesAt store kind addr ≠ [] ∨ gapNames items target kind addr = [name] := by
  have hcolumn : ∀ kind addr name,
      (decidedNames items target kind addr).getLast? = some name →
        (namesAt (applyVerdicts store items target).1 kind addr = [name] ↔
          namesAt store kind addr ≠ [] ∨ gapNames items target kind addr = [name]) := by
    intro kind addr name hlast
    rw [applyVerdicts, foldl_applyVerdict]
    cases kind with
    | function => exact labelsAt_run_writes_iff functionColumn .function _ _ hfunctions hlast
    | symbol => exact labelsAt_run_writes_iff symbolColumn .symbol _ _ hsymbols hlast
  exact forall_congr' fun kind => forall_congr' fun addr => forall_congr' fun name =>
    forall_congr' (hcolumn kind addr name)

/-- A gap filled by one item. -/
theorem applied_of_single_gap_item :
    let store : AnnotationStore := { schemaVersion := 1, romId := "33520003", romSha256 := "" }
    let item : ReconcileItem := {
      target := "33520003", direction := .back, address := 0x804d5e, category := .ramGlobal
      current := none, proposed := "tacho_output_state", source := "e5090011"
      evidence := "usage-equiv", verdict := "proposed" }
    VerdictsApplied [item] "33520003" (applyVerdicts store [item] "33520003").1 := by
  intro store item
  apply (applyVerdicts_applied_iff store [item] "33520003" List.nodup_nil List.nodup_nil).mpr
  intro kind addr name hlast
  apply Or.inr
  by_cases hat : item.target = "33520003" ∧ kindOf item.category = kind ∧ item.address = addr
  · have hitems : itemsAt [item] "33520003" kind addr = [item] := by simp [itemsAt, hat]
    have hname : resolvedName item = some "tacho_output_state" := rfl
    simpa [gapNames, decidedNames, hitems, hname, item] using hlast
  · have hitems : itemsAt [item] "33520003" kind addr = [] := by simp [itemsAt, hat]
    simp [decidedNames, hitems] at hlast

/-- A review item names the function as the analysis does, so at an address that the
store lacks its verdict is dropped; two rounds that propose a name for one gap add it
twice. -/
theorem not_applied_of_review_item :
    let store : AnnotationStore := { schemaVersion := 1, romId := "33520003", romSha256 := "" }
    let review := reviewItem {
      rom := "33520003", address := 0x1000, isVariable := false, category := none
      currentName := some "FUN_00001000", proposedName := "fuel_pump_relay_update"
      reasoning := "drives the relay port" }
    let candidate := postInit "33520003" .back 0x804d5e .ramGlobal none "tacho_output_state"
      "e5090011" "usage-equiv"
    let round := buildReconcileItems [candidate] (Dict.ofList [("33520003", 100)])
    decidedNames [review] "33520003" .function 0x1000 = ["fuel_pump_relay_update"] ∧
      applyVerdicts store [review] "33520003" = (store, 0) ∧
      ¬ VerdictsApplied [review] "33520003" (applyVerdicts store [review] "33520003").1 ∧
      namesAt (applyVerdicts store (round ++ round) "33520003").1 .symbol 0x804d5e =
        ["tacho_output_state", "tacho_output_state"] := by
  intro store review candidate round
  have hdecided : decidedNames [review] "33520003" .function 0x1000 =
      ["fuel_pump_relay_update"] := by decide +kernel
  have happly : applyVerdicts store [review] "33520003" = (store, 0) := by decide +kernel
  refine ⟨hdecided, happly, fun h => ?_, by decide +kernel⟩
  have hname := h .function 0x1000 "fuel_pump_relay_update" (by rw [hdecided]; rfl)
  rw [happly] at hname
  exact absurd hname (by decide +kernel)

end RomAnalyzer.Enrich
