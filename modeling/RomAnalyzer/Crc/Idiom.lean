import RomAnalyzer.Crc.Region

/-!
# The two-branch idiom

Each branch of `rom_crc_check_step` compares the pointer with the bound and stores its
own start. Any stream of that shape is recognised, whatever stands between.
-/
namespace RomAnalyzer.Crc

open Lib

/-! ### The idiom -/

/-- The operand of CMPU that the bound is. -/
inductive BoundOperand
  /-- `bound < ptr` -/
  | first
  /-- `ptr < bound` -/
  | second
  deriving DecidableEq, Repr

def Compares (side : BoundOperand) (reg : String) (a : Instruction) : Prop :=
  lower a.mnemonic = "cmpu" ∧ ∃ x y, a.operands = [x, y] ∧
    match side with
    | .first => squeeze (lower x) = squeeze reg
    | .second => squeeze (lower y) = squeeze reg ∧ squeeze (lower x) ≠ squeeze reg

/-- One of the four instructions behind the load. -/
def Within (l : ConstLoad) (c : Nat) : Prop :=
  l.index + l.width ≤ c ∧ c < l.index + l.width + 4

/-- Where a branch has its four parts; they may be interleaved. -/
structure Branch where
  boundLoad : ConstLoad
  compare : Nat
  startLoad : ConstLoad
  store : Nat

def ConstLoad.span (l : ConstLoad) : List Nat := List.range' l.index l.width

def Branch.positions (br : Branch) : List Nat :=
  br.boundLoad.span ++ br.startLoad.span ++ [br.compare, br.store]

structure Branch.In (instrs : List Instruction) (side : BoundOperand) (bound : Int)
    (br : Branch) : Prop where
  bound_load : LoadOf instrs br.boundLoad
  bound_value : br.boundLoad.value = bound
  compare_within : Within br.boundLoad br.compare
  compares : ∃ a, instrs[br.compare]? = some a ∧ Compares side br.boundLoad.reg a
  start_load : LoadOf instrs br.startLoad
  start_lt : br.startLoad.value < bound
  store_within : Within br.startLoad br.store
  stores : ∃ a, instrs[br.store]? = some a ∧ lower a.mnemonic = "st"

def idiomMnemonics : List String := ["seth", "add3", "ld24", "cmp", "cmpu", "st"]

/-- A stream with the two branches, whose other instructions are none of those that the
idiom is made of. -/
structure TwoBranchIdiom (instrs : List Instruction) where
  bound : Int
  side : BoundOperand
  fullBranch : Branch
  partialBranch : Branch
  full_in : fullBranch.In instrs side bound
  partial_in : partialBranch.In instrs side bound
  bounds_order : fullBranch.boundLoad.index < partialBranch.boundLoad.index
  compares_order : fullBranch.compare < partialBranch.compare
  starts_order : fullBranch.startLoad.index < partialBranch.startLoad.index
  stores_order : fullBranch.store < partialBranch.store
  starts_le : fullBranch.startLoad.value ≤ partialBranch.startLoad.value
  filler : ∀ i a, instrs[i]? = some a → lower a.mnemonic ∈ idiomMnemonics →
    i ∈ fullBranch.positions ++ partialBranch.positions

def BoundOperand.exclusiveEnd (bound : Int) : BoundOperand → Int
  | .first => bound + 1
  | .second => bound

instance (instrs : List Instruction) (l : ConstLoad) : Decidable (LoadOf instrs l) :=
  inferInstanceAs (Decidable (_ = _))

/-! ### Loads by position -/

variable {instrs : List Instruction}

theorem LoadOf.eq_of_index_eq {l l' : ConstLoad} (h : LoadOf instrs l) (h' : LoadOf instrs l')
    (hi : l.index = l'.index) : l = l' := by
  unfold LoadOf at h h'
  rw [hi] at h
  exact Option.some.inj (h.symm.trans h')

/-- Where a load stands there is a SETH or an LD24. -/
theorem LoadOf.at_index {l : ConstLoad} (h : LoadOf instrs l) :
    ∃ a, instrs[l.index]? = some a ∧
      (lower a.mnemonic = "seth" ∨ lower a.mnemonic = "ld24") := by
  rcases (headLoad_spec h).2 with ⟨a, b, rest, hdrop, ha, _⟩ | ⟨a, rest, hdrop, ha, _⟩
  · refine ⟨a, ?_, Or.inl ha⟩
    rw [← List.head?_drop, hdrop, List.head?_cons]
  · refine ⟨a, ?_, Or.inr ha⟩
    rw [← List.head?_drop, hdrop, List.head?_cons]

/-- A load takes up its index, and that of an ADD3 behind a SETH. -/
theorem LoadOf.mem_span {l : ConstLoad} (h : LoadOf instrs l) {i : Nat} (hi : i ∈ l.span) :
    i = l.index ∨ ∃ b, instrs[i]? = some b ∧ lower b.mnemonic = "add3" := by
  obtain ⟨hle, hlt⟩ := List.mem_range'_1.mp hi
  rcases (headLoad_spec h).2 with ⟨a, b, rest, hdrop, _, hb, hw⟩ | ⟨a, rest, hdrop, ha, hw⟩
  · by_cases he : i = l.index
    · exact Or.inl he
    · have hnext : i = l.index + 1 := by omega
      refine Or.inr ⟨b, ?_, hb⟩
      rw [hnext, ← List.getElem?_drop, hdrop]
      rfl
  · exact Or.inl (by omega)

/-- The instructions of a load are neither compares nor stores. -/
theorem LoadOf.mnemonic_of_mem_span {l : ConstLoad} (h : LoadOf instrs l) {i : Nat}
    (hi : i ∈ l.span) {a : Instruction} (ha : instrs[i]? = some a) :
    lower a.mnemonic ∈ ["seth", "add3", "ld24"] := by
  rcases h.mem_span hi with rfl | ⟨b, hb, hadd⟩
  · obtain ⟨b, hb, hm⟩ := h.at_index
    obtain rfl := Option.some.inj (ha.symm.trans hb)
    rcases hm with hm | hm <;> simp [hm]
  · obtain rfl := Option.some.inj (ha.symm.trans hb)
    simp [hadd]

/-- No other load starts within a load. -/
theorem LoadOf.eq_of_mem_span {l m : ConstLoad} (h : LoadOf instrs l) (hm : LoadOf instrs m)
    (hi : l.index ∈ m.span) : l = m := by
  rcases hm.mem_span hi with he | ⟨b, hb, hadd⟩
  · exact h.eq_of_index_eq hm he
  · obtain ⟨a, ha, hmn⟩ := h.at_index
    obtain rfl := Option.some.inj (ha.symm.trans hb)
    rw [hadd] at hmn
    exact absurd hmn (by decide)

/-- The first instruction of a kind from a position on, within so many. -/
theorem find?_take_drop {xs : List Instruction} {p : Instruction → Bool} {i n c : Nat}
    {a : Instruction} (hi : i ≤ c) (hc : c < i + n) (ha : xs[c]? = some a) (hp : p a = true)
    (hbefore : ∀ j b, i ≤ j → j < c → xs[j]? = some b → p b = false) :
    ((xs.drop i).take n).find? p = some a := by
  obtain ⟨hlt, rfl⟩ := List.getElem?_eq_some_iff.mp ha
  rw [List.find?_eq_some_iff_getElem]
  refine ⟨hp, c - i, by simp; omega, ?_, ?_⟩
  · simp only [List.getElem_take, List.getElem_drop]
    congr 1
    omega
  · intro j hj
    have hat : xs[i + j]? = some xs[i + j] := List.getElem?_eq_getElem (by omega)
    simp only [List.getElem_take, List.getElem_drop]
    rw [hbefore (i + j) _ (by omega) (by omega) hat]
    rfl

/-! ### The idiom is recognised -/

namespace TwoBranchIdiom

variable (idiom : TwoBranchIdiom instrs)

/-- What is not filler belongs to one of the two branches. -/
theorem mem_positions {i : Nat} {a : Instruction} (ha : instrs[i]? = some a)
    (hm : lower a.mnemonic ∈ idiomMnemonics) :
    ∃ br, (br = idiom.fullBranch ∨ br = idiom.partialBranch) ∧
      (i ∈ br.boundLoad.span ∨ i ∈ br.startLoad.span ∨ i = br.compare ∨ i = br.store) := by
  have hsplit : ∀ {br : Branch}, i ∈ br.positions →
      i ∈ br.boundLoad.span ∨ i ∈ br.startLoad.span ∨ i = br.compare ∨ i = br.store := by
    intro br h
    simpa [Branch.positions, or_assoc] using h
  rcases List.mem_append.mp (idiom.filler i a ha hm) with h | h
  · exact ⟨_, Or.inl rfl, hsplit h⟩
  · exact ⟨_, Or.inr rfl, hsplit h⟩

theorem branch_in {br : Branch} (h : br = idiom.fullBranch ∨ br = idiom.partialBranch) :
    br.In instrs idiom.side idiom.bound := by
  rcases h with rfl | rfl
  · exact idiom.full_in
  · exact idiom.partial_in

/-- The loads of the stream are those of the branches. -/
theorem loadOf_cases {l : ConstLoad} (h : LoadOf instrs l) :
    ∃ br, (br = idiom.fullBranch ∨ br = idiom.partialBranch) ∧
      (l = br.boundLoad ∨ l = br.startLoad) := by
  obtain ⟨a, ha, hm⟩ := h.at_index
  have hmem : lower a.mnemonic ∈ idiomMnemonics := by
    rcases hm with hm | hm <;> simp [hm, idiomMnemonics]
  obtain ⟨br, hbr, hpos⟩ := idiom.mem_positions ha hmem
  have hin := idiom.branch_in hbr
  refine ⟨br, hbr, ?_⟩
  rcases hpos with hpos | hpos | hpos | hpos
  · exact Or.inl (h.eq_of_mem_span hin.bound_load hpos)
  · exact Or.inr (h.eq_of_mem_span hin.start_load hpos)
  · obtain ⟨c, hc, hcmp⟩ := hin.compares
    rw [← hpos] at hc
    obtain rfl := Option.some.inj (ha.symm.trans hc)
    rw [hcmp.1] at hm
    exact absurd hm (by decide)
  · obtain ⟨c, hc, hst⟩ := hin.stores
    rw [← hpos] at hc
    obtain rfl := Option.some.inj (ha.symm.trans hc)
    rw [hst] at hm
    exact absurd hm (by decide)

theorem bound_or_start {l : ConstLoad} (h : LoadOf instrs l) :
    (l.value = idiom.bound ∧
      (l = idiom.fullBranch.boundLoad ∨ l = idiom.partialBranch.boundLoad)) ∨
    (l.value < idiom.bound ∧
      (l = idiom.fullBranch.startLoad ∨ l = idiom.partialBranch.startLoad)) := by
  obtain ⟨br, hbr, hl⟩ := idiom.loadOf_cases h
  have hin := idiom.branch_in hbr
  rcases hl with rfl | rfl
  · refine Or.inl ⟨hin.bound_value, ?_⟩
    rcases hbr with rfl | rfl
    · exact Or.inl rfl
    · exact Or.inr rfl
  · refine Or.inr ⟨hin.start_lt, ?_⟩
    rcases hbr with rfl | rfl
    · exact Or.inl rfl
    · exact Or.inr rfl

theorem endBound : EndBound instrs idiom.bound where
  twice := ⟨_, _, idiom.full_in.bound_load, idiom.partial_in.bound_load, idiom.bounds_order,
    idiom.full_in.bound_value, idiom.partial_in.bound_value⟩
  largest := by
    rintro _ ⟨l, _, hl, _, _, rfl, _⟩
    rcases idiom.bound_or_start hl with ⟨hv, _⟩ | ⟨hv, _⟩
    · exact hv.le
    · exact hv.le

/-- Part of the loads in ascending order is known by its members. -/
theorem filter_eq_pair {p : ConstLoad → Bool} {l l' : ConstLoad} (hlt : l.index < l'.index)
    (hmem : ∀ m, LoadOf instrs m ∧ p m = true ↔ m = l ∨ m = l') :
    (collectConstants instrs).filter p = [l, l'] := by
  have hirrefl : Std.Irrefl fun m m' : ConstLoad => m.index < m'.index := ⟨fun m => lt_irrefl _⟩
  have hantisymm : Std.Antisymm fun m m' : ConstLoad => m.index < m'.index :=
    ⟨fun m m' h h' => absurd h h'.not_gt⟩
  apply List.Pairwise.eq_of_mem_iff ((collectConstants_pairwise instrs).filter p)
  · exact List.pairwise_pair.mpr hlt
  · intro m
    rw [List.mem_filter, mem_collectConstants, hmem]
    simp

theorem storeFollows_startLoad {br : Branch}
    (h : br = idiom.fullBranch ∨ br = idiom.partialBranch) :
    storeFollows instrs br.startLoad = true := by
  have hin := idiom.branch_in h
  obtain ⟨a, ha, hst⟩ := hin.stores
  obtain ⟨hle, hlt⟩ := hin.store_within
  have hoffset : br.startLoad.index + br.startLoad.width +
      (br.store - (br.startLoad.index + br.startLoad.width)) = br.store := by omega
  have hat : (window instrs br.startLoad)[br.store -
      (br.startLoad.index + br.startLoad.width)]? = some a := by
    rw [window, List.getElem?_take_of_lt (by omega), List.getElem?_drop, hoffset]
    exact ha
  rw [storeFollows, List.any_eq_true]
  exact ⟨a, List.mem_of_getElem? hat, decide_eq_true hst⟩

theorem startLoads_eq :
    startLoads instrs (collectConstants instrs) idiom.bound =
      [idiom.fullBranch.startLoad, idiom.partialBranch.startLoad] := by
  apply filter_eq_pair idiom.starts_order
  intro m
  rw [decide_eq_true_iff]
  constructor
  · intro hgiven
    obtain ⟨hm, hne, _⟩ := hgiven
    rcases idiom.bound_or_start hm with ⟨hv, _⟩ | ⟨_, h⟩
    · exact absurd hv hne
    · exact h
  · intro hgiven
    obtain rfl | rfl := hgiven
    · exact ⟨idiom.full_in.start_load, idiom.full_in.start_lt.ne,
        idiom.storeFollows_startLoad (Or.inl rfl)⟩
    · exact ⟨idiom.partial_in.start_load, idiom.partial_in.start_lt.ne,
        idiom.storeFollows_startLoad (Or.inr rfl)⟩

theorem find?_bound :
    (collectConstants instrs).find? (fun l => l.value = idiom.bound) =
      some idiom.fullBranch.boundLoad := by
  have hfilter : (collectConstants instrs).filter (fun l => l.value = idiom.bound) =
      [idiom.fullBranch.boundLoad, idiom.partialBranch.boundLoad] := by
    apply filter_eq_pair idiom.bounds_order
    intro m
    rw [decide_eq_true_iff]
    constructor
    · intro hgiven
      obtain ⟨hm, hv⟩ := hgiven
      rcases idiom.bound_or_start hm with ⟨_, h⟩ | ⟨hlt, _⟩
      · exact h
      · exact absurd hv hlt.ne
    · intro hgiven
      obtain rfl | rfl := hgiven
      · exact ⟨idiom.full_in.bound_load, idiom.full_in.bound_value⟩
      · exact ⟨idiom.partial_in.bound_load, idiom.partial_in.bound_value⟩
  rw [← List.head?_filter, hfilter, List.head?_cons]

/-- The first compare behind the first load of the bound is its own. -/
theorem find?_compare :
    ∃ a, (window instrs idiom.fullBranch.boundLoad).find? isCompare = some a ∧
      Compares idiom.side idiom.fullBranch.boundLoad.reg a := by
  obtain ⟨a, ha, hcmp⟩ := idiom.full_in.compares
  obtain ⟨hle, hlt⟩ := idiom.full_in.compare_within
  have hp : isCompare a = true := by simp [isCompare, hcmp.1]
  refine ⟨a, find?_take_drop hle hlt ha hp ?_, hcmp⟩
  intro j b _ hj hb
  by_contra hne
  have hmn : lower b.mnemonic = "cmpu" ∨ lower b.mnemonic = "cmp" := by
    rw [Bool.not_eq_false, isCompare, Bool.or_eq_true] at hne
    simpa using hne
  have hmem : lower b.mnemonic ∈ idiomMnemonics := by
    rcases hmn with hmn | hmn <;> simp [hmn, idiomMnemonics]
  obtain ⟨br, hbr, hpos⟩ := idiom.mem_positions hb hmem
  have hin := idiom.branch_in hbr
  have horder := idiom.compares_order
  rcases hpos with hpos | hpos | rfl | rfl
  · have hload := hin.bound_load.mnemonic_of_mem_span hpos hb
    rcases hmn with hmn | hmn <;> simp [hmn] at hload
  · have hload := hin.start_load.mnemonic_of_mem_span hpos hb
    rcases hmn with hmn | hmn <;> simp [hmn] at hload
  · -- both compares stand at or behind the first one
    rcases hbr with rfl | rfl <;> omega
  · obtain ⟨c, hc, hst⟩ := hin.stores
    obtain rfl := Option.some.inj (hb.symm.trans hc)
    rw [hst] at hmn
    exact absurd hmn (by decide)

theorem findExclusiveEnd_eq :
    findExclusiveEnd instrs (collectConstants instrs) idiom.bound =
      idiom.side.exclusiveEnd idiom.bound := by
  obtain ⟨a, hfind, _, x, y, hops, hside⟩ := idiom.find?_compare
  have hfirst : comparesFirst idiom.fullBranch.boundLoad a = decide (idiom.side = .first) := by
    rw [comparesFirst, hops]
    cases hs : idiom.side with
    | first =>
      rw [hs] at hside
      simp [hside]
    | second =>
      rw [hs] at hside
      simp [hside.2]
  unfold findExclusiveEnd
  rw [idiom.find?_bound]
  dsimp only
  rw [hfind]
  dsimp only
  rw [hfirst]
  cases idiom.side with
  | first => rfl
  | second => rfl

end TwoBranchIdiom

def outlanderIdiom : TwoBranchIdiom outlanderStep where
  bound := 0x60000
  side := .second
  fullBranch := ⟨⟨0, 0x60000, "r1", 2⟩, 3, ⟨6, 0, "r2", 2⟩, 8⟩
  partialBranch := ⟨⟨9, 0x60000, "r1", 2⟩, 12, ⟨15, 0x200, "r2", 1⟩, 16⟩
  full_in := {
    bound_load := by decide +kernel
    bound_value := rfl
    compare_within := ⟨by decide, by decide⟩
    compares := ⟨_, rfl, by decide +kernel, "R2", "R1", rfl, by decide +kernel⟩
    start_load := by decide +kernel
    start_lt := by decide
    store_within := ⟨by decide, by decide⟩
    stores := ⟨_, rfl, by decide +kernel⟩ }
  partial_in := {
    bound_load := by decide +kernel
    bound_value := rfl
    compare_within := ⟨by decide, by decide⟩
    compares := ⟨_, rfl, by decide +kernel, "R2", "R1", rfl, by decide +kernel⟩
    start_load := by decide +kernel
    start_lt := by decide
    store_within := ⟨by decide, by decide⟩
    stores := ⟨_, rfl, by decide +kernel⟩ }
  bounds_order := by decide
  compares_order := by decide
  starts_order := by decide
  stores_order := by decide
  starts_le := by decide
  filler := by
    have hall : ∀ i < outlanderStep.length, ∀ a ∈ outlanderStep[i]?,
        lower a.mnemonic ∈ idiomMnemonics →
          i ∈ [0, 1, 6, 7, 3, 8, 9, 10, 15, 12, 16] := by
      decide +kernel
    intro i a ha hm
    exact hall i (List.getElem?_eq_some_iff.mp ha).1 a ha hm

end RomAnalyzer.Crc
