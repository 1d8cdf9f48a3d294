import RomAnalyzer.Crc

/-!
# What an extracted region is worth

The end is a constant loaded twice, the starts are the first two other constants that
some ST follows. Neither the order of the three nor the operand of the ST is looked
at, so both are conditions on the stream.
-/
namespace RomAnalyzer.Crc

open Lib

variable {instrs : List Instruction}

/-- Two loads of the stream have the value. -/
def LoadedTwice (instrs : List Instruction) (v : Int) : Prop :=
  ∃ l l', LoadOf instrs l ∧ LoadOf instrs l' ∧ l.index < l'.index ∧ l.value = v ∧ l'.value = v

/-- The bound is the largest value that two loads have. -/
structure EndBound (instrs : List Instruction) (b : Int) : Prop where
  twice : LoadedTwice instrs b
  largest : ∀ v, LoadedTwice instrs v → v ≤ b

/-- A load that an ST follows within four instructions. -/
def StoreLoad (instrs : List Instruction) (l : ConstLoad) : Prop :=
  LoadOf instrs l ∧ storeFollows instrs l = true

/-- A load of another value that an ST follows. -/
def StartLoad (instrs : List Instruction) (b : Int) (l : ConstLoad) : Prop :=
  LoadOf instrs l ∧ l.value ≠ b ∧ storeFollows instrs l = true

/-- A start load with at most one start load in front of it. -/
def TakenStart (instrs : List Instruction) (b : Int) (l : ConstLoad) : Prop :=
  StartLoad instrs b l ∧ ∀ l₀ l₁, StartLoad instrs b l₀ → StartLoad instrs b l₁ →
    l₀.index < l₁.index → ¬ l₁.index < l.index

/-! ### The picks of the extraction -/

theorem collectConstants_pairwise (instrs : List Instruction) :
    (collectConstants instrs).Pairwise fun l l' => l.index < l'.index :=
  collectFrom_pairwise 0 instrs

theorem two_le_length_iff {ls : List ConstLoad}
    (h : ls.Pairwise fun l l' => l.index < l'.index) :
    2 ≤ ls.length ↔ ∃ l ∈ ls, ∃ l' ∈ ls, l.index < l'.index := by
  match ls, h with
  | [], _ => simp
  | [l], _ => simp
  | l :: l' :: rest, h =>
    have hlt := (List.pairwise_cons.mp h).1 l' List.mem_cons_self
    refine iff_of_true (by simp) ⟨l, List.mem_cons_self, l', ?_, hlt⟩
    exact List.mem_cons_of_mem _ List.mem_cons_self

theorem mem_repeated {v : Int} :
    v ∈ repeated (collectConstants instrs) ↔ LoadedTwice instrs v := by
  have hsorted := (collectConstants_pairwise instrs).filter fun l => l.value = v
  have hcount : ((collectConstants instrs).map ConstLoad.value).count v =
      ((collectConstants instrs).filter fun l => l.value = v).length := by
    rw [List.count_eq_countP, List.countP_map, List.countP_eq_length_filter]
    rfl
  have hmem : v ∈ repeated (collectConstants instrs) ↔
      2 ≤ ((collectConstants instrs).filter fun l => l.value = v).length := by
    rw [repeated, List.mem_filter, List.mem_dedup, decide_eq_true_iff, hcount, and_iff_right_iff_imp]
    intro h
    rw [← hcount] at h
    exact List.count_pos_iff.mp (by omega)
  rw [hmem, two_le_length_iff hsorted]
  simp only [List.mem_filter, mem_collectConstants, decide_eq_true_iff, LoadedTwice]
  constructor
  · intro hgiven
    obtain ⟨l, ⟨hl, hv⟩, l', ⟨hl', hv'⟩, hlt⟩ := hgiven
    exact ⟨l, l', hl, hl', hlt, hv, hv'⟩
  · intro hgiven
    obtain ⟨l, l', hl, hl', hlt, hv, hv'⟩ := hgiven
    exact ⟨l, ⟨hl, hv⟩, l', ⟨hl', hv'⟩, hlt⟩

theorem max?_repeated_iff {b : Int} :
    (repeated (collectConstants instrs)).max? = some b ↔ EndBound instrs b := by
  rw [List.max?_eq_some_iff]
  constructor
  · intro hgiven
    obtain ⟨hmem, hmax⟩ := hgiven
    exact ⟨mem_repeated.mp hmem, fun v hv => hmax v (mem_repeated.mpr hv)⟩
  · intro h
    exact ⟨mem_repeated.mpr h.twice, fun v hv => h.largest v (mem_repeated.mp hv)⟩

theorem EndBound.unique {b b' : Int} (h : EndBound instrs b) (h' : EndBound instrs b') :
    b = b' :=
  Option.some.inj ((max?_repeated_iff.mpr h).symm.trans (max?_repeated_iff.mpr h'))

theorem mem_startLoads {b : Int} {l : ConstLoad} :
    l ∈ startLoads instrs (collectConstants instrs) b ↔ StartLoad instrs b l := by
  rw [startLoads, List.mem_filter, mem_collectConstants, decide_eq_true_iff, StartLoad]

/-- The first two of the start loads are the taken ones. -/
theorem takenStart_iff {b : Int} {l₀ l₁ : ConstLoad} {rest : List ConstLoad}
    (h : startLoads instrs (collectConstants instrs) b = l₀ :: l₁ :: rest) {l : ConstLoad} :
    TakenStart instrs b l ↔ l = l₀ ∨ l = l₁ := by
  have hsorted : (l₀ :: l₁ :: rest).Pairwise fun l l' => l.index < l'.index := by
    rw [← h]
    exact (collectConstants_pairwise instrs).filter _
  rw [List.pairwise_cons, List.pairwise_cons] at hsorted
  obtain ⟨hfirst, hsecond, _⟩ := hsorted
  have hmem : ∀ {l}, StartLoad instrs b l ↔ l = l₀ ∨ l = l₁ ∨ l ∈ rest := by
    intro l
    rw [← mem_startLoads, h, List.mem_cons, List.mem_cons]
  have hlt := hfirst l₁ List.mem_cons_self
  constructor
  · intro ht
    rcases hmem.mp ht.1 with rfl | rfl | hrest
    · exact Or.inl rfl
    · exact Or.inr rfl
    · have hno := ht.2 l₀ l₁ (hmem.mpr (Or.inl rfl)) (hmem.mpr (Or.inr (Or.inl rfl))) hlt
      exact absurd (hsecond l hrest) hno
  · intro hgiven
    obtain rfl | rfl := hgiven
    · refine ⟨hmem.mpr (Or.inl rfl), fun l₀' l₁' h₀ h₁ _ => ?_⟩
      rcases hmem.mp h₁ with rfl | rfl | hrest
      · omega
      · omega
      · have hle := hfirst l₁' (List.mem_cons_of_mem _ hrest)
        omega
    · refine ⟨hmem.mpr (Or.inr (Or.inl rfl)), fun l₀' l₁' h₀ h₁ hlt' => ?_⟩
      rcases hmem.mp h₁ with rfl | rfl | hrest
      · -- nothing stands in front of the first start load
        rcases hmem.mp h₀ with rfl | rfl | hrest
        · omega
        · omega
        · have hle := hfirst l₀' (List.mem_cons_of_mem _ hrest)
          omega
      · omega
      · have hle := hsecond l₁' hrest
        omega

theorem findExclusiveEnd_cases (instrs : List Instruction) (loads : List ConstLoad) (b : Int) :
    findExclusiveEnd instrs loads b = b ∨ findExclusiveEnd instrs loads b = b + 1 := by
  unfold findExclusiveEnd
  split
  · exact Or.inl rfl
  · split
    · exact Or.inl rfl
    · split
      · exact Or.inr rfl
      · exact Or.inl rfl

/-- What a region is made of: a bound and the two taken starts, in ascending order. -/
theorem extractCrcRegion_ok {r : Region} (h : extractCrcRegion instrs = .ok r) :
    ∃ b l₀ l₁, EndBound instrs b ∧ (∀ l, TakenStart instrs b l ↔ l = l₀ ∨ l = l₁) ∧
      l₀.value ≤ l₁.value ∧ l₁.value ≠ b ∧
      r = ⟨l₀.value, findExclusiveEnd instrs (collectConstants instrs) b, l₁.value,
        findExclusiveEnd instrs (collectConstants instrs) b⟩ := by
  unfold extractCrcRegion at h
  dsimp only at h
  split at h
  · cases h
  · split at h
    · cases h
    · rename_i b hb
      split at h
      · rename_i fullStart partialStart others hstarts
        split at h
        · cases h
        · rename_i hle
          obtain rfl := Except.ok.inj h
          obtain ⟨l₀, tail, hloads, rfl, htail⟩ := List.map_eq_cons_iff.mp hstarts
          obtain ⟨l₁, rest, rfl, rfl, _⟩ := List.map_eq_cons_iff.mp htail
          have hmem : l₁ ∈ startLoads instrs (collectConstants instrs) b := by
            rw [hloads]
            exact List.mem_cons_of_mem _ List.mem_cons_self
          exact ⟨b, l₀, l₁, max?_repeated_iff.mp hb, fun l => takenStart_iff hloads,
            Int.not_lt.mp hle, (mem_startLoads.mp hmem).2.1, rfl⟩
      · cases h

/-- Bound `0x80000`, starts `0` and `0x10000`; between the branches a variable at
`0x804d5e` is written. -/
def flagWritingStep : List Instruction := [
  ⟨"seth", ["r1", "#0x8"]⟩, ⟨"add3", ["r1", "r1", "#0"]⟩, ⟨"cmpu", ["r2", "r1"]⟩,
  ⟨"bc", ["LAB_END"]⟩,
  ⟨"seth", ["r2", "#0x0"]⟩, ⟨"add3", ["r2", "r2", "#0"]⟩, ⟨"st", ["r2", "@(-8360,fp)"]⟩,
  ⟨"ld24", ["r4", "#0x804d5e"]⟩, ⟨"st", ["r3", "@r4"]⟩, ⟨"bra", ["LAB_OUT"]⟩,
  ⟨"seth", ["r0", "#0x8"]⟩, ⟨"add3", ["r0", "r0", "#0"]⟩, ⟨"cmpu", ["r1", "r0"]⟩,
  ⟨"bc", ["LAB_END2"]⟩,
  ⟨"seth", ["r1", "#0x1"]⟩, ⟨"add3", ["r1", "r1", "#0"]⟩, ⟨"st", ["r1", "@(-8360,fp)"]⟩]

theorem extractCrcRegion_flagWritingStep :
    extractCrcRegion flagWritingStep = .ok ⟨0, 0x80000, 0x804d5e, 0x80000⟩ := by
  decide +kernel

/-- SETH and ADD3 build `0x60000`, and the pointer is compared first. -/
def outlanderStep : List Instruction := [
  ⟨"SETH", ["R1", "#0x6"]⟩, ⟨"ADD3", ["R1", "R1", "#0"]⟩, ⟨"LD", ["R2", "@(-8056,fp)"]⟩,
  ⟨"CMPU", ["R2", "R1"]⟩, ⟨"BC", ["0xe944"]⟩, ⟨"LDI", ["R8", "#1"]⟩,
  ⟨"SETH", ["R2", "#0x0"]⟩, ⟨"ADD3", ["R2", "R2", "#0"]⟩, ⟨"ST", ["R2", "@(-8056,fp)"]⟩,
  ⟨"SETH", ["R1", "#0x6"]⟩, ⟨"ADD3", ["R1", "R1", "#0"]⟩, ⟨"LD", ["R2", "@(-8056,fp)"]⟩,
  ⟨"CMPU", ["R2", "R1"]⟩, ⟨"BC", ["0xe960"]⟩, ⟨"LDI", ["R8", "#1"]⟩,
  ⟨"LD24", ["R2", "#0x200"]⟩, ⟨"ST", ["R2", "@(-8056,fp)"]⟩]

/-! ### The order of the bounds -/

/-- `[full_start, full_end)` with the partial region at its end. -/
structure WellFormed (r : Region) : Prop where
  nonneg : 0 ≤ r.fullStart
  starts : r.fullStart ≤ r.partialStart
  nonempty : r.partialStart < r.partialEnd
  ends : r.partialEnd = r.fullEnd

/-- A region is well formed exactly when the two constants taken for its starts lie
between zero and the bound. -/
theorem extractCrcRegion_wellFormed_iff {r : Region} (h : extractCrcRegion instrs = .ok r) :
    WellFormed r ↔
      ∀ b l, EndBound instrs b → TakenStart instrs b l → 0 ≤ l.value ∧ l.value ≤ b := by
  obtain ⟨b, l₀, l₁, hb, htaken, hle, hne, rfl⟩ := extractCrcRegion_ok h
  have hend := findExclusiveEnd_cases instrs (collectConstants instrs) b
  constructor
  · intro hwf b' l hb' hl
    obtain rfl := hb.unique hb'
    have hpos : 0 ≤ l₀.value := hwf.nonneg
    have hlt := hwf.nonempty
    dsimp only at hlt
    rcases (htaken l).mp hl with rfl | rfl
    · omega
    · omega
  · intro hall
    have h₀ := hall b l₀ hb ((htaken l₀).mpr (Or.inl rfl))
    have h₁ := hall b l₁ hb ((htaken l₁).mpr (Or.inr rfl))
    refine ⟨h₀.1, hle, ?_, rfl⟩
    dsimp only
    omega

/-- What an ST follows lies between zero and some constant that is loaded twice. -/
def StoresInRange (instrs : List Instruction) : Prop :=
  ∀ l, StoreLoad instrs l → 0 ≤ l.value ∧ ∃ v, LoadedTwice instrs v ∧ l.value ≤ v

theorem storesInRange_iff :
    StoresInRange instrs ↔
      ∀ l ∈ collectConstants instrs, storeFollows instrs l = true →
        0 ≤ l.value ∧ ∃ v ∈ repeated (collectConstants instrs), l.value ≤ v := by
  simp only [StoresInRange, StoreLoad, mem_collectConstants, mem_repeated, and_imp]

instance (instrs : List Instruction) : Decidable (StoresInRange instrs) :=
  decidable_of_iff _ storesInRange_iff.symm

/-- The shape that the extraction is written for: one constant is loaded twice, and an ST
follows no more than two loads of other constants. -/
structure TwoStarts (instrs : List Instruction) : Prop where
  bound : ∀ v v', LoadedTwice instrs v → LoadedTwice instrs v' → v = v'
  starts : ∀ l₀ l₁ l₂, (∀ l ∈ [l₀, l₁, l₂], StoreLoad instrs l ∧ ¬ LoadedTwice instrs l.value) →
    l₀.index < l₁.index → ¬ l₁.index < l₂.index

theorem StartLoad.storeLoad {b : Int} {l : ConstLoad} (h : StartLoad instrs b l) :
    StoreLoad instrs l :=
  ⟨h.1, h.2.2⟩

/-- In this shape an ST follows no other load than those of the bound and the taken ones. -/
theorem takenStart_of_twoStarts (h : TwoStarts instrs) {b : Int} (hb : EndBound instrs b)
    {l : ConstLoad} (hl : StoreLoad instrs l) (hne : l.value ≠ b) : TakenStart instrs b l := by
  have honce : ∀ {k}, StartLoad instrs b k → StoreLoad instrs k ∧ ¬ LoadedTwice instrs k.value :=
    fun hk => ⟨hk.storeLoad, fun htwice => hk.2.1 (h.bound _ _ htwice hb.twice)⟩
  refine ⟨⟨hl.1, hne, hl.2⟩, fun l₀ l₁ h₀ h₁ hlt => h.starts l₀ l₁ l ?_ hlt⟩
  intro k hk
  simp only [List.mem_cons, List.not_mem_nil, or_false] at hk
  rcases hk with rfl | rfl | rfl
  · exact honce h₀
  · exact honce h₁
  · exact honce ⟨hl.1, hne, hl.2⟩

/-- A region is well formed when everything that an ST follows lies between zero and a
constant loaded twice, and in streams with two starts it is well formed only then. -/
theorem extractCrcRegion_wellFormed {r : Region} (h : extractCrcRegion instrs = .ok r) :
    (StoresInRange instrs → WellFormed r) ∧
      (TwoStarts instrs → WellFormed r → StoresInRange instrs) := by
  have hiff := extractCrcRegion_wellFormed_iff h
  constructor
  · intro hrange
    refine hiff.mpr fun b l hb hl => ?_
    obtain ⟨hpos, v, hv, hle⟩ := hrange l hl.1.storeLoad
    exact ⟨hpos, hle.trans (hb.largest v hv)⟩
  · intro htwo hwf l hl
    obtain ⟨b, l₀, _, hb, htaken, _⟩ := extractCrcRegion_ok h
    have hbetween := hiff.mp hwf b
    by_cases he : l.value = b
    · have hfirst := hbetween l₀ hb ((htaken l₀).mpr (Or.inl rfl))
      exact ⟨he ▸ hfirst.1.trans hfirst.2, b, hb.twice, he.le⟩
    · have hthis := hbetween l hb (takenStart_of_twoStarts htwo hb hl he)
      exact ⟨hthis.1, b, hb.twice, hthis.2⟩

theorem extractCrcRegion_wellFormed_outlanderStep : WellFormed ⟨0, 0x60000, 0x200, 0x60000⟩ := by
  have hregion : extractCrcRegion outlanderStep = .ok ⟨0, 0x60000, 0x200, 0x60000⟩ := by
    decide +kernel
  exact (extractCrcRegion_wellFormed hregion).1 (by decide +kernel)

/-- The address of the variable becomes the partial start, behind the end. -/
theorem flagWritingStep_not_wellFormed :
    ∃ r, extractCrcRegion flagWritingStep = .ok r ∧ ¬ WellFormed r := by
  refine ⟨_, extractCrcRegion_flagWritingStep, fun h => ?_⟩
  exact absurd h.nonempty (by decide)

/-! ### The starts are stored -/

/-- An ST whose source operand is the register. -/
def storesReg (reg : String) (a : Instruction) : Bool :=
  lower a.mnemonic = "st" &&
    match a.operands with
    | x :: _ => squeeze (lower x) = squeeze reg
    | [] => false

/-- Within four instructions an ST stores the register of the load, and no other constant
is loaded into it before. -/
def StoresOwn (instrs : List Instruction) (l : ConstLoad) : Prop :=
  ∃ k < 4, (∃ a, instrs[l.index + l.width + k]? = some a ∧ storesReg l.reg a = true) ∧
    ∀ l', LoadOf instrs l' → l.index < l'.index → l'.index < l.index + l.width + k →
      l'.reg ≠ l.reg

/-- The stream loads the value and stores it. -/
def StoredValue (instrs : List Instruction) (v : Int) : Prop :=
  ∃ l, LoadOf instrs l ∧ l.value = v ∧ StoresOwn instrs l

theorem storesOwn_iff {l : ConstLoad} :
    StoresOwn instrs l ↔ ∃ k < 4, (instrs[l.index + l.width + k]?.any (storesReg l.reg)) = true ∧
      ∀ l' ∈ collectConstants instrs, l.index < l'.index → l'.index < l.index + l.width + k →
        l'.reg ≠ l.reg := by
  simp only [StoresOwn, mem_collectConstants, Option.any_eq_true]

instance (instrs : List Instruction) (l : ConstLoad) : Decidable (StoresOwn instrs l) :=
  decidable_of_iff _ storesOwn_iff.symm

theorem storedValue_iff {v : Int} :
    StoredValue instrs v ↔
      ∃ l ∈ collectConstants instrs, l.value = v ∧ StoresOwn instrs l := by
  simp only [StoredValue, mem_collectConstants]

instance (instrs : List Instruction) (v : Int) : Decidable (StoredValue instrs v) :=
  decidable_of_iff _ storedValue_iff.symm

/-- Both starts are values that the stream stores exactly when each of the two loads
taken for them is stored from its own register, it or another load of its value. -/
theorem extractCrcRegion_startsStored_iff {r : Region} (h : extractCrcRegion instrs = .ok r) :
    StoredValue instrs r.fullStart ∧ StoredValue instrs r.partialStart ↔
      ∀ b l, EndBound instrs b → TakenStart instrs b l →
        StoresOwn instrs l ∨
          ∃ l', LoadOf instrs l' ∧ l' ≠ l ∧ l'.value = l.value ∧ StoresOwn instrs l' := by
  obtain ⟨b, l₀, l₁, hb, htaken, _, _, rfl⟩ := extractCrcRegion_ok h
  have hstored : ∀ {l}, LoadOf instrs l → (StoredValue instrs l.value ↔ StoresOwn instrs l ∨
      ∃ l', LoadOf instrs l' ∧ l' ≠ l ∧ l'.value = l.value ∧ StoresOwn instrs l') := by
    intro l hl
    constructor
    · intro hgiven
      obtain ⟨l', hl', hv, hown⟩ := hgiven
      by_cases he : l' = l
      · exact Or.inl (he ▸ hown)
      · exact Or.inr ⟨l', hl', he, hv, hown⟩
    · intro hgiven
      obtain hown | ⟨l', hl', _, hv, hown⟩ := hgiven
      · exact ⟨l, hl, rfl, hown⟩
      · exact ⟨l', hl', hv, hown⟩
  constructor
  · rintro ⟨hfull, hpartial⟩ b' l hb' hl
    obtain rfl := hb.unique hb'
    apply (hstored hl.1.1).mp
    rcases (htaken l).mp hl with rfl | rfl
    · exact hfull
    · exact hpartial
  · intro hall
    have h₀ := (htaken l₀).mpr (Or.inl rfl)
    have h₁ := (htaken l₁).mpr (Or.inr rfl)
    exact ⟨(hstored h₀.1.1).mpr (hall b l₀ hb h₀), (hstored h₁.1.1).mpr (hall b l₁ hb h₁)⟩

/-- One of the STs behind a load stores its register, unless the load is of the largest
constant loaded twice. -/
def StoresLoads (instrs : List Instruction) : Prop :=
  ∀ l, StoreLoad instrs l → StoresOwn instrs l ∨
    LoadedTwice instrs l.value ∧ ∀ v, LoadedTwice instrs v → v ≤ l.value

theorem storesLoads_iff :
    StoresLoads instrs ↔
      ∀ l ∈ collectConstants instrs, storeFollows instrs l = true → StoresOwn instrs l ∨
        l.value ∈ repeated (collectConstants instrs) ∧
          ∀ v ∈ repeated (collectConstants instrs), v ≤ l.value := by
  simp only [StoresLoads, StoreLoad, mem_collectConstants, mem_repeated, and_imp]

instance (instrs : List Instruction) : Decidable (StoresLoads instrs) :=
  decidable_of_iff _ storesLoads_iff.symm

theorem loadedTwice_of_ne {l l' : ConstLoad} (hl : LoadOf instrs l) (hl' : LoadOf instrs l')
    (hne : l' ≠ l) (hv : l'.value = l.value) : LoadedTwice instrs l.value := by
  rcases Nat.lt_trichotomy l.index l'.index with hlt | he | hlt
  · exact ⟨l, l', hl, hl', hlt, rfl, hv⟩
  · rw [LoadOf, ← he] at hl'
    exact absurd (Option.some.inj (hl'.symm.trans hl)) hne
  · exact ⟨l', l, hl', hl, hlt, hv, rfl⟩

/-- Both starts are stored when each load that an ST follows is stored by such an ST, loads of
the bound apart; in streams with two starts they are stored only then. -/
theorem extractCrcRegion_startsStored {r : Region} (h : extractCrcRegion instrs = .ok r) :
    (StoresLoads instrs → StoredValue instrs r.fullStart ∧ StoredValue instrs r.partialStart) ∧
      (TwoStarts instrs → StoredValue instrs r.fullStart ∧ StoredValue instrs r.partialStart →
        StoresLoads instrs) := by
  have hiff := extractCrcRegion_startsStored_iff h
  constructor
  · intro hstores
    refine hiff.mpr fun b l hb hl => ?_
    rcases hstores l hl.1.storeLoad with hown | ⟨htwice, hlargest⟩
    · exact Or.inl hown
    · have he : l.value = b := EndBound.unique ⟨htwice, hlargest⟩ hb
      exact absurd he hl.1.2.1
  · intro htwo hstored l hl
    obtain ⟨b, _, _, hb, _⟩ := extractCrcRegion_ok h
    by_cases he : l.value = b
    · rw [he]
      exact Or.inr ⟨hb.twice, hb.largest⟩
    · rcases hiff.mp hstored b l hb (takenStart_of_twoStarts htwo hb hl he) with
        hown | ⟨l', hl', hne, hv, _⟩
      · exact Or.inl hown
      · exact absurd (htwo.bound _ _ (loadedTwice_of_ne hl.1 hl' hne hv) hb.twice) he

theorem extractCrcRegion_startsStored_outlanderStep :
    StoredValue outlanderStep 0 ∧ StoredValue outlanderStep 0x200 := by
  have hregion : extractCrcRegion outlanderStep = .ok ⟨0, 0x60000, 0x200, 0x60000⟩ := by
    decide +kernel
  exact (extractCrcRegion_startsStored hregion).1 (by decide +kernel)

/-- The address is in the pointer register of the store, and never stored. -/
theorem flagWritingStep_not_stored :
    ∃ r, extractCrcRegion flagWritingStep = .ok r ∧
      ¬ (StoredValue flagWritingStep r.fullStart ∧ StoredValue flagWritingStep r.partialStart) := by
  refine ⟨_, extractCrcRegion_flagWritingStep, fun h => ?_⟩
  exact absurd h.2 (by decide +kernel)

end RomAnalyzer.Crc
