import RomAnalyzer.Callgraph.Anchors

/-!
# Main and the reset vector

The derived anchor `main` starts from the first vector slot that is usable in both ROMs,
which need not be slot 0.
-/
namespace RomAnalyzer.Callgraph

open Lib
open Ghidra (HeadlessRun)

/-! ### Pairs without repetition -/

section Distinct

variable {α : Type} {seenRef seenNew : List Nat} {slots : List (α × Nat × Nat)}

theorem distinctPairs_fresh {e : α × Nat × Nat} (h : e ∈ distinctPairs seenRef seenNew slots) :
    e.2.1 ∉ seenRef ∧ e.2.2 ∉ seenNew := by
  induction slots generalizing seenRef seenNew with
  | nil => cases h
  | cons slot slots ih =>
    obtain ⟨a, ref, new⟩ := slot
    rw [distinctPairs] at h
    by_cases hseen : ref ∈ seenRef ∨ new ∈ seenNew
    · rw [if_pos hseen] at h
      exact ih h
    · rw [if_neg hseen] at h
      rcases List.mem_cons.mp h with rfl | h
      · exact not_or.mp hseen
      · obtain ⟨href, hnew⟩ := ih h
        exact ⟨fun h => href (List.mem_cons_of_mem _ h), fun h => hnew (List.mem_cons_of_mem _ h)⟩

theorem distinctPairs_nodup (seenRef seenNew : List Nat) (slots : List (α × Nat × Nat)) :
    ((distinctPairs seenRef seenNew slots).map fun e => e.2.1).Nodup ∧
      ((distinctPairs seenRef seenNew slots).map fun e => e.2.2).Nodup := by
  induction slots generalizing seenRef seenNew with
  | nil => exact ⟨List.nodup_nil, List.nodup_nil⟩
  | cons slot slots ih =>
    obtain ⟨a, ref, new⟩ := slot
    rw [distinctPairs]
    by_cases hseen : ref ∈ seenRef ∨ new ∈ seenNew
    · rw [if_pos hseen]
      exact ih seenRef seenNew
    · rw [if_neg hseen, List.map_cons, List.map_cons, List.nodup_cons, List.nodup_cons]
      obtain ⟨hrefs, hnews⟩ := ih (ref :: seenRef) (new :: seenNew)
      refine ⟨⟨?_, hrefs⟩, ?_, hnews⟩
      · intro h
        obtain ⟨e, he, heq⟩ := List.mem_map.mp h
        exact (distinctPairs_fresh he).1 (heq ▸ List.mem_cons_self)
      · intro h
        obtain ⟨e, he, heq⟩ := List.mem_map.mp h
        exact (distinctPairs_fresh he).2 (heq ▸ List.mem_cons_self)

/-- The first pair is kept. -/
theorem distinctPairs_head? : (distinctPairs [] [] slots).head? = slots.head? := by
  cases slots with
  | nil => rfl
  | cons slot slots => simp [distinctPairs]

end Distinct

/-! ### Main -/

section Main

variable (run : HeadlessRun) (romBytes : Bytes) (handler : Nat) (handlers : List Nat)

/-- A branch leaves the body of the handler for a plausible entry point. -/
def TailCalls (target : Nat) : Prop :=
  ∃ pos ∈ range4 handler (handler + funcSize handler run),
    decodeBraTarget romBytes pos = some target ∧
      ¬ (handler ≤ target ∧ target < handler + funcSize handler run) ∧
      0x200 ≤ target ∧ target % 4 = 0

/-- The handler calls or tail-calls a function that is no vector handler. -/
def LeadsTo (target : Nat) : Prop :=
  target ∉ handlers ∧ (TailCalls run romBytes handler target ∨ target ∈ run.calleesOf handler)

variable {run romBytes handler handlers}

theorem mem_findBraTailCall {target : Nat}
    (h : findBraTailCall romBytes handler (funcSize handler run) handlers = some target) :
    target ∉ handlers ∧ TailCalls run romBytes handler target := by
  obtain ⟨pos, hpos, htarget⟩ := List.mem_filterMap.mp (List.mem_of_getLast? h)
  split at htarget
  · cases htarget
  rename_i found hdecode
  split_ifs at htarget with hinside hlow haligned hhandler
  obtain rfl := Option.some.inj htarget
  exact ⟨hhandler, pos, hpos, hdecode, hinside, by omega, by omega⟩

theorem findBraTailCall_eq_none
    (h : findBraTailCall romBytes handler (funcSize handler run) handlers = none) {target : Nat}
    (hcall : TailCalls run romBytes handler target) : target ∈ handlers := by
  obtain ⟨pos, hpos, hdecode, hinside, hlow, haligned⟩ := hcall
  have hnone := List.filterMap_eq_nil_iff.mp (List.getLast?_eq_none_iff.mp h) pos hpos
  rw [hdecode] at hnone
  dsimp only at hnone
  rw [if_neg hinside, if_neg (by omega), if_neg (by omega)] at hnone
  by_contra hhandler
  rw [if_neg hhandler] at hnone
  cases hnone

theorem leadsTo_of_bestMainCandidate {target : Nat}
    (h : bestMainCandidate run romBytes handler handlers = some target) :
    LeadsTo run romBytes handler handlers target := by
  unfold bestMainCandidate at h
  split at h
  · rename_i found hfound
    obtain rfl := Option.some.inj h
    obtain ⟨hhandler, hcall⟩ := mem_findBraTailCall hfound
    exact ⟨hhandler, Or.inl hcall⟩
  · obtain ⟨hcallee, hhandler⟩ := List.mem_filter.mp (List.argmax_mem h)
    exact ⟨of_decide_eq_true hhandler, Or.inr hcallee⟩

/-- There is a candidate exactly when the handler leads to some function. -/
theorem exists_bestMainCandidate_iff :
    (∃ target, bestMainCandidate run romBytes handler handlers = some target) ↔
      ∃ target, LeadsTo run romBytes handler handlers target := by
  constructor
  · intro h
    obtain ⟨target, htarget⟩ := h
    exact ⟨target, leadsTo_of_bestMainCandidate htarget⟩
  · intro h
    obtain ⟨target, hhandler, hreach⟩ := h
    rw [← Option.isSome_iff_exists, Option.isSome_iff_ne_none]
    intro hnone
    unfold bestMainCandidate at hnone
    split at hnone
    · cases hnone
    rename_i htail
    rcases hreach with hcall | hcallee
    · exact hhandler (findBraTailCall_eq_none htail hcall)
    · have hmem : target ∈ (run.calleesOf handler).filter fun a => a ∉ handlers :=
        List.mem_filter.mpr ⟨hcallee, decide_eq_true hhandler⟩
      rw [List.argmax_eq_none.mp hnone] at hmem
      cases hmem

end Main

/-! ### The vector table -/

section Vectors

variable (refBytes newBytes : Bytes) (refRun newRun : HeadlessRun)
  (refSymbolsByAddr : Dict Nat ReferenceSymbol)

/-- A slot that branches out of the table in both ROMs. -/
structure UsableSlot (i ref new : Nat) : Prop where
  in_table : i < 64
  ref_decodes : decodeBraTarget refBytes (i * 4) = some ref
  new_decodes : decodeBraTarget newBytes (i * 4) = some new
  ref_outside : 0x200 ≤ ref
  new_outside : 0x200 ≤ new

def FirstUsable (i ref new : Nat) : Prop :=
  UsableSlot refBytes newBytes i ref new ∧
    ∀ j < i, ∀ r n, ¬ UsableSlot refBytes newBytes j r n

/-- The handlers of the slots that are kept, in both ROMs. -/
def vectorHandlers : List Nat :=
  let kept := distinctPairs [] [] (vectorSlots refBytes newBytes)
  (kept.map fun e => e.2.1) ++ kept.map fun e => e.2.2

/-- The derived anchor, the one of similarity 0.9, comes from the handlers of slot 0, and no
address is repeated. -/
structure MainFromReset (emitted : List MatchedFunction) : Prop where
  main : ∀ m ∈ emitted, m.similarity = 9 / 10 → ∃ ref new, UsableSlot refBytes newBytes 0 ref new ∧
    bestMainCandidate refRun refBytes ref (vectorHandlers refBytes newBytes) = some m.refAddress ∧
    bestMainCandidate newRun newBytes new (vectorHandlers refBytes newBytes) = some m.newAddress
  refs_nodup : (emitted.map MatchedFunction.refAddress).Nodup
  news_nodup : (emitted.map MatchedFunction.newAddress).Nodup

variable {refBytes newBytes refRun newRun refSymbolsByAddr}

theorem usableSlot_iff {i ref new : Nat} :
    UsableSlot refBytes newBytes i ref new ↔
      i < 64 ∧ (match decodeBraTarget refBytes (i * 4), decodeBraTarget newBytes (i * 4) with
        | some ref, some new => if ref < 0x200 ∨ new < 0x200 then none else some (i, ref, new)
        | _, _ => none) = some (i, ref, new) := by
  constructor
  · intro h
    obtain ⟨htable, href, hnew, hrefOut, hnewOut⟩ := h
    refine ⟨htable, ?_⟩
    rw [href, hnew]
    exact if_neg (by omega)
  · intro h
    obtain ⟨htable, hslot⟩ := h
    split at hslot
    · rename_i r n href hnew
      split_ifs at hslot with hout
      obtain ⟨_, hpair⟩ := Prod.mk.inj (Option.some.inj hslot)
      obtain ⟨rfl, rfl⟩ := Prod.mk.inj hpair
      exact ⟨htable, href, hnew, by omega, by omega⟩
    · cases hslot

theorem mem_vectorSlots {e : Nat × Nat × Nat} :
    e ∈ vectorSlots refBytes newBytes ↔ UsableSlot refBytes newBytes e.1 e.2.1 e.2.2 := by
  obtain ⟨i, ref, new⟩ := e
  rw [vectorSlots, List.mem_filterMap, usableSlot_iff]
  constructor
  · intro h
    obtain ⟨j, hj, hslot⟩ := h
    obtain rfl : j = i := by
      split at hslot
      · split_ifs at hslot
        exact (Prod.mk.inj (Option.some.inj hslot)).1
      · cases hslot
    exact ⟨List.mem_range.mp hj, hslot⟩
  · intro h
    exact ⟨i, List.mem_range.mpr h.1, h.2⟩

variable (refBytes newBytes) in
theorem vectorSlots_pairwise :
    (vectorSlots refBytes newBytes).Pairwise fun e e' => e.1 < e'.1 := by
  rw [vectorSlots, List.pairwise_filterMap]
  refine List.pairwise_lt_range.imp ?_
  intro i j hlt e he e' he'
  have hfst : ∀ {k : Nat} {slot : Nat × Nat × Nat},
      (match decodeBraTarget refBytes (k * 4), decodeBraTarget newBytes (k * 4) with
        | some ref, some new => if ref < 0x200 ∨ new < 0x200 then none else some (k, ref, new)
        | _, _ => none) = some slot → slot.1 = k := by
    intro k slot hslot
    split at hslot
    · split_ifs at hslot
      rw [← Option.some.inj hslot]
    · cases hslot
  rw [hfst he, hfst he']
  exact hlt

/-- The slots start with the first usable one. -/
theorem head?_vectorSlots_iff {i ref new : Nat} :
    (vectorSlots refBytes newBytes).head? = some (i, ref, new) ↔
      FirstUsable refBytes newBytes i ref new := by
  have hsorted := vectorSlots_pairwise refBytes newBytes
  have hmem : ∀ e : Nat × Nat × Nat, e ∈ vectorSlots refBytes newBytes ↔ _ :=
    fun e => mem_vectorSlots
  constructor
  · intro h
    obtain ⟨rest, hslots⟩ := List.head?_eq_some_iff.mp h
    rw [hslots] at hsorted hmem
    refine ⟨(hmem (i, ref, new)).mp List.mem_cons_self, ?_⟩
    intro j hj r n husable
    rcases List.mem_cons.mp ((hmem (j, r, n)).mpr husable) with heq | hrest
    · obtain ⟨rfl, _⟩ := Prod.mk.inj heq
      exact lt_irrefl j hj
    · have hlt := (List.pairwise_cons.mp hsorted).1 _ hrest
      exact lt_asymm hj hlt
  · intro h
    obtain ⟨husable, hfirst⟩ := h
    cases hslots : vectorSlots refBytes newBytes with
    | nil =>
      have hnil := (hmem (i, ref, new)).mpr husable
      rw [hslots] at hnil
      cases hnil
    | cons e rest =>
      obtain ⟨j, r, n⟩ := e
      rw [hslots] at hsorted hmem
      have hj := (hmem (j, r, n)).mp List.mem_cons_self
      rcases List.mem_cons.mp ((hmem (i, ref, new)).mpr husable) with heq | hrest
      · rw [heq]
        rfl
      · exact absurd hj (hfirst j ((List.pairwise_cons.mp hsorted).1 _ hrest) r n)

variable (refBytes newBytes refRun refSymbolsByAddr) in
/-- The anchors of the kept slots. -/
def vectorAnchors : List MatchedFunction :=
  (distinctPairs [] [] (vectorSlots refBytes newBytes)).map fun e =>
    anchor "vector_table" 1
      (handlerName refRun refSymbolsByAddr e.2.1 ("isr_vector_" ++ twoDigits e.1)) e.2.1 e.2.2

variable (refBytes newBytes refRun refSymbolsByAddr) in
theorem vectorAnchors_refs :
    (vectorAnchors refBytes newBytes refRun refSymbolsByAddr).map MatchedFunction.refAddress =
      (distinctPairs [] [] (vectorSlots refBytes newBytes)).map fun e => e.2.1 :=
  List.map_map

variable (refBytes newBytes refRun refSymbolsByAddr) in
theorem vectorAnchors_news :
    (vectorAnchors refBytes newBytes refRun refSymbolsByAddr).map MatchedFunction.newAddress =
      (distinctPairs [] [] (vectorSlots refBytes newBytes)).map fun e => e.2.2 :=
  List.map_map

/-- Main is derived from the first anchor, when both handlers have a candidate. -/
theorem mainAnchor_cons_eq_some_iff {reset m : MatchedFunction} {rest : List MatchedFunction}
    {handlers : List Nat}
    (hhandlers : (reset :: rest).map MatchedFunction.refAddress ++
      (reset :: rest).map MatchedFunction.newAddress = handlers) :
    mainAnchor refBytes newBytes refRun newRun (reset :: rest) = some m ↔
      bestMainCandidate refRun refBytes reset.refAddress handlers = some m.refAddress ∧
      bestMainCandidate newRun newBytes reset.newAddress handlers = some m.newAddress ∧
      m = anchor "vector_table" (9 / 10) "main" m.refAddress m.newAddress := by
  simp only [mainAnchor, hhandlers]
  constructor
  · intro h
    split at h
    · rename_i bestRef bestNew href hnew
      split_ifs at h
      obtain rfl := Option.some.inj h
      exact ⟨href, hnew, rfl⟩
    · cases h
  · intro h
    obtain ⟨href, hnew, hm⟩ := h
    rw [href, hnew]
    -- the candidates are no handlers, so the last test never fails
    have hrefOut := (leadsTo_of_bestMainCandidate href).1
    have hnewOut := (leadsTo_of_bestMainCandidate hnew).1
    rw [← hhandlers, List.mem_append, not_or] at hrefOut hnewOut
    dsimp only
    rw [if_pos ⟨hrefOut.1, hnewOut.2⟩, ← hm]

variable (refBytes newBytes refRun refSymbolsByAddr) in
theorem vectorAnchors_handlers :
    (vectorAnchors refBytes newBytes refRun refSymbolsByAddr).map MatchedFunction.refAddress ++
      (vectorAnchors refBytes newBytes refRun refSymbolsByAddr).map MatchedFunction.newAddress =
        vectorHandlers refBytes newBytes := by
  rw [vectorAnchors_refs, vectorAnchors_news]
  rfl

/-- Main is derived from the handlers of the first usable slot. -/
theorem mainAnchor_eq_some_iff {m : MatchedFunction} :
    mainAnchor refBytes newBytes refRun newRun
        (vectorAnchors refBytes newBytes refRun refSymbolsByAddr) = some m ↔
      ∃ i ref new, FirstUsable refBytes newBytes i ref new ∧
        bestMainCandidate refRun refBytes ref (vectorHandlers refBytes newBytes) =
          some m.refAddress ∧
        bestMainCandidate newRun newBytes new (vectorHandlers refBytes newBytes) =
          some m.newAddress ∧
        m = anchor "vector_table" (9 / 10) "main" m.refAddress m.newAddress := by
  have hhandlers := vectorAnchors_handlers refBytes newBytes refRun refSymbolsByAddr
  simp only [← head?_vectorSlots_iff]
  rw [← distinctPairs_head?]
  cases hkept : distinctPairs [] [] (vectorSlots refBytes newBytes) with
  | nil =>
    rw [vectorAnchors, hkept]
    constructor
    · intro h
      cases h
    · intro h
      obtain ⟨_, _, _, hhead, _⟩ := h
      cases hhead
  | cons e kept =>
    obtain ⟨i, ref, new⟩ := e
    rw [vectorAnchors, hkept, List.map_cons] at hhandlers ⊢
    rw [mainAnchor_cons_eq_some_iff hhandlers]
    constructor
    · intro h
      exact ⟨i, ref, new, rfl, h⟩
    · intro h
      obtain ⟨_, _, _, hhead, h⟩ := h
      obtain ⟨_, hpair⟩ := Prod.mk.inj (Option.some.inj hhead)
      obtain ⟨rfl, rfl⟩ := Prod.mk.inj hpair
      exact h

theorem bootstrapVectorTable_eq :
    bootstrapVectorTable refBytes newBytes refRun newRun refSymbolsByAddr =
      vectorAnchors refBytes newBytes refRun refSymbolsByAddr ++
        (mainAnchor refBytes newBytes refRun newRun
          (vectorAnchors refBytes newBytes refRun refSymbolsByAddr)).toList := rfl

/-- No address is emitted twice: main is no handler. -/
theorem bootstrapVectorTable_nodup :
    ((bootstrapVectorTable refBytes newBytes refRun newRun refSymbolsByAddr).map
      MatchedFunction.refAddress).Nodup ∧
    ((bootstrapVectorTable refBytes newBytes refRun newRun refSymbolsByAddr).map
      MatchedFunction.newAddress).Nodup := by
  obtain ⟨hrefs, hnews⟩ := distinctPairs_nodup [] [] (vectorSlots refBytes newBytes)
  rw [← vectorAnchors_refs refBytes newBytes refRun refSymbolsByAddr] at hrefs
  rw [← vectorAnchors_news refBytes newBytes refRun refSymbolsByAddr] at hnews
  rw [bootstrapVectorTable_eq, List.map_append, List.map_append]
  cases hmain : mainAnchor refBytes newBytes refRun newRun
      (vectorAnchors refBytes newBytes refRun refSymbolsByAddr) with
  | none =>
    rw [Option.toList_none, List.map_nil, List.append_nil, List.map_nil, List.append_nil]
    exact ⟨hrefs, hnews⟩
  | some m =>
    obtain ⟨_, _, _, _, href, hnew, _⟩ := mainAnchor_eq_some_iff.mp hmain
    have hrefOut := (leadsTo_of_bestMainCandidate href).1
    have hnewOut := (leadsTo_of_bestMainCandidate hnew).1
    rw [← vectorAnchors_handlers refBytes newBytes refRun refSymbolsByAddr,
      List.mem_append, not_or] at hrefOut hnewOut
    refine ⟨List.nodup_append_comm.mp ?_, List.nodup_append_comm.mp ?_⟩
    · exact List.nodup_cons.mpr ⟨hrefOut.1, hrefs⟩
    · exact List.nodup_cons.mpr ⟨hnewOut.2, hnews⟩

/-- The derived anchor is the one of similarity 0.9. -/
theorem mem_bootstrapVectorTable_main {m : MatchedFunction}
    (hm : m ∈ bootstrapVectorTable refBytes newBytes refRun newRun refSymbolsByAddr)
    (hsimilarity : m.similarity = 9 / 10) :
    mainAnchor refBytes newBytes refRun newRun
      (vectorAnchors refBytes newBytes refRun refSymbolsByAddr) = some m := by
  rw [bootstrapVectorTable_eq] at hm
  rcases List.mem_append.mp hm with hm | hm
  · obtain ⟨e, _, rfl⟩ := List.mem_map.mp hm
    have hone : (1 : ℚ) = 9 / 10 := hsimilarity
    norm_num at hone
  · exact Option.mem_toList.mp hm

end Vectors

/-- Main comes from the reset handlers exactly when slot 0 is usable, or the first usable
slot has a handler that leads to no function. -/
theorem mainFromReset_iff (refBytes newBytes : Bytes) (refRun newRun : HeadlessRun)
    (refSymbolsByAddr : Dict Nat ReferenceSymbol) :
    MainFromReset refBytes newBytes refRun newRun
        (bootstrapVectorTable refBytes newBytes refRun newRun refSymbolsByAddr) ↔
      (∃ ref new, UsableSlot refBytes newBytes 0 ref new) ∨
        ∀ i ref new, FirstUsable refBytes newBytes i ref new →
          (∀ target, ¬ LeadsTo refRun refBytes ref (vectorHandlers refBytes newBytes) target) ∨
          ∀ target, ¬ LeadsTo newRun newBytes new (vectorHandlers refBytes newBytes) target := by
  constructor
  · intro h
    by_cases hslot : ∃ ref new, UsableSlot refBytes newBytes 0 ref new
    · exact Or.inl hslot
    refine Or.inr ?_
    intro i ref new hfirst
    by_contra hlead
    rw [not_or, not_forall_not, not_forall_not, ← exists_bestMainCandidate_iff,
      ← exists_bestMainCandidate_iff] at hlead
    obtain ⟨⟨bestRef, href⟩, bestNew, hnew⟩ := hlead
    have hmain : mainAnchor refBytes newBytes refRun newRun
        (vectorAnchors refBytes newBytes refRun refSymbolsByAddr) =
          some (anchor "vector_table" (9 / 10) "main" bestRef bestNew) :=
      mainAnchor_eq_some_iff.mpr ⟨i, ref, new, hfirst, href, hnew, rfl⟩
    obtain ⟨r, n, husable, _⟩ := h.main (anchor "vector_table" (9 / 10) "main" bestRef bestNew)
      (by rw [bootstrapVectorTable_eq, hmain]; exact List.mem_append_right _ List.mem_cons_self) rfl
    exact hslot ⟨r, n, husable⟩
  · intro h
    refine ⟨?_, bootstrapVectorTable_nodup.1, bootstrapVectorTable_nodup.2⟩
    intro m hm hsimilarity
    obtain ⟨i, ref, new, hfirst, href, hnew, _⟩ :=
      mainAnchor_eq_some_iff.mp (mem_bootstrapVectorTable_main hm hsimilarity)
    rcases h with ⟨r, n, husable⟩ | hnone
    · -- slot 0 is the first usable slot
      obtain rfl : i = 0 := by
        by_contra hpos
        exact hfirst.2 0 (by omega) r n husable
      exact ⟨ref, new, hfirst.1, href, hnew⟩
    · rcases hnone i ref new hfirst with hnone | hnone
      · exact absurd (leadsTo_of_bestMainCandidate href) (hnone _)
      · exact absurd (leadsTo_of_bestMainCandidate hnew) (hnone _)

/-- Slot 0 holds no branch; slot 1 branches to a handler at 0x200. -/
def noResetRom : Bytes :=
  [0xf0, 0x00, 0x00, 0x00, 0xff, 0x00, 0x00, 0x7f] ++ List.replicate 0x3f8 0

/-- The handler at 0x200 calls a function at 0x300. -/
def noResetRun : HeadlessRun where
  callees := Dict.ofList [(0x200, [0x300])]

/-- Main is taken from the handler of slot 1. -/
theorem noReset_emits_main :
    ¬ MainFromReset noResetRom noResetRom noResetRun noResetRun
      (bootstrapVectorTable noResetRom noResetRom noResetRun noResetRun Dict.empty) := by
  intro h
  have hmain : ∃ m ∈ bootstrapVectorTable noResetRom noResetRom noResetRun noResetRun Dict.empty,
      m.similarity = 9 / 10 := by
    decide +kernel
  have hslot : decodeBraTarget noResetRom (0 * 4) = none := by decide +kernel
  obtain ⟨m, hm, hsimilarity⟩ := hmain
  obtain ⟨ref, _, husable, _⟩ := h.main m hm hsimilarity
  have hdecodes := husable.ref_decodes
  rw [hslot] at hdecodes
  cases hdecodes

end RomAnalyzer.Callgraph
