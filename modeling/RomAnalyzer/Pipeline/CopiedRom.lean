import RomAnalyzer.Callgraph.CopiedRun
import RomAnalyzer.Pipeline.AutoNames
import RomAnalyzer.Pipeline.LabelCategories
import RomAnalyzer.Pipeline.SecondPass
import RomAnalyzer.RamSignature.SelfMatch

/-!
# A copy of the reference ROM

The ROM of a reference under another path is matched like any other ROM. All phases and
both label passes together give what the identity path gives: every function and every
label stays at its address.
-/
namespace RomAnalyzer.Pipeline

open Lib
open AnnotationsIo (loadReferenceSymbols)
open Callgraph (InPlace SameCode accesses unlabelled)
open DataRefs (LabelPass NearestAccess dataPass exists_first_sighting propagateLabels ramPass
  visits)
open Ghidra (HeadlessRun)
open RamSignature (signatureOf)

/-- No instruction of a function accesses two addresses. -/
def OneAccess (refs : Dict Nat (List DataRef)) : Prop :=
  ∀ f, ((refs.getD f []).map DataRef.instructionOffset).Nodup

/-- The target is the ROM of the reference: the dumps differ in names only, functions start
at words, and version tracking associates functions with themselves. -/
structure CopyOf (ctx : RomContext) (newRun : HeadlessRun) (ref : SelectedReference) : Prop where
  bytes : ctx.romBytes = ref.refBytes
  code : ∀ refRun, ref.refRun = some refRun → SameCode refRun newRun
  words : ∀ refRun, ref.refRun = some refRun → ∀ f ∈ refRun.functions, f.entry % 4 = 0
  data : OneAccess newRun.dataRefs
  ram : OneAccess newRun.ramDataRefs
  associations : ∀ a ∈ ref.vtAssociations, a.destinationAddress = a.sourceAddress

/-- Names and addresses are annotated once, what is in RAM as a RAM global, and the MUT
table where it is found. -/
structure AnnotatedOnce (ref : SelectedReference) : Prop where
  names : ((loadReferenceSymbols ref.store).map ReferenceSymbol.name).Nodup
  addresses : ((loadReferenceSymbols ref.store).map ReferenceSymbol.address).Nodup
  ram : ∀ s ∈ loadReferenceSymbols ref.store, ramPass.inRange s.address = true →
    s.category = .ramGlobal
  mutTable : ∀ sym a, (symbolsByName (loadReferenceSymbols ref.store)).get?
      "flash_mut_variables_table" = some sym →
    Callgraph.findMutTableByTriplet ref.refBytes = some a → sym.address = a

/-- A data or RAM label at the annotated address of its name. -/
def KeepsAnnotated (ref : SelectedReference) (t : PropagatedSymbol) : Prop :=
  ∃ s ∈ loadReferenceSymbols ref.store, s.name = t.name ∧ s.address = t.newAddress

/-! ### Labels -/

section Labels

variable {refs news : Dict Nat (List DataRef)}

theorem getD_accesses (h : accesses news = accesses refs) (f : Nat) :
    (news.getD f []).map unlabelled = (refs.getD f []).map unlabelled := by
  have hget : ∀ d : Dict Nat (List DataRef),
      (d.getD f []).map unlabelled = (accesses d).getD f [] := by
    intro d
    rw [Dict.getD, Dict.getD, accesses, Dict.get?_mapValues]
    cases d.get? f <;> rfl
  rw [hget, hget, h]

/-- The access nearest to an access of the reference is its copy. -/
theorem nearest_copied (h : accesses news = accesses refs) (hone : OneAccess news)
    {f windowBytes : Nat} {r found : DataRef} (hr : r ∈ refs.getD f [])
    (hfound : NearestAccess (news.getD f []) r.instructionOffset windowBytes found) :
    found.referencedAddress = r.referencedAddress := by
  have hmem : unlabelled r ∈ (news.getD f []).map unlabelled := by
    rw [getD_accesses h]
    exact List.mem_map_of_mem hr
  obtain ⟨copy, hcopy, hsame⟩ := List.mem_map.mp hmem
  have hoffset : copy.instructionOffset = r.instructionOffset := by
    show (unlabelled copy).instructionOffset = (unlabelled r).instructionOffset
    rw [hsame]
  have haddress : copy.referencedAddress = r.referencedAddress := by
    show (unlabelled copy).referencedAddress = (unlabelled r).referencedAddress
    rw [hsame]
  have hnearest := hfound.nearest copy hcopy
  have hat : found.instructionOffset = copy.instructionOffset := by omega
  rw [List.inj_on_of_nodup_map (hone f) hfound.access.mem hcopy hat, haddress]

/-- A label of a copy sits where a reference symbol of its name is. -/
theorem mem_propagateLabels_copied (h : accesses news = accesses refs) (hone : OneAccess news)
    {pass : LabelPass} {refSymbols : List ReferenceSymbol} {windowBytes : Nat}
    {ms : List MatchedFunction} (hplace : ∀ m ∈ ms, InPlace m) {s : PropagatedSymbol}
    (hs : s ∈ propagateLabels pass (symbolsByAddr refSymbols) windowBytes refs news ms) :
    ∃ sym ∈ refSymbols, sym.name = s.name ∧ sym.address = s.newAddress ∧
      pass.inRange s.newAddress = true := by
  obtain ⟨before, v, after, p, hvisits, hsighted, hname, haddr, _⟩ := exists_first_sighting hs
  have hv : v ∈ visits refs ms := by
    rw [hvisits]
    exact List.mem_append_right before List.mem_cons_self
  obtain ⟨m, hm, hread⟩ := List.mem_flatMap.mp hv
  obtain ⟨r, hr, rfl⟩ := List.mem_map.mp hread
  obtain ⟨found, hfound, _, hnew⟩ := hsighted.nearest
  obtain ⟨sym, hsym, hsymName⟩ := hsighted.symbol
  have hself : m.newAddress = m.refAddress := hplace m hm
  rw [hself] at hfound
  have hcopy := nearest_copied h hone hr hfound
  refine ⟨sym, mem_of_symbolsByAddr hsym, hsymName.symm.trans hname, ?_, ?_⟩
  · rw [symbolsByAddr_address hsym, ← haddr, hnew, hcopy]
  · rw [← haddr, hnew, hcopy]
    exact hsighted.in_range

end Labels

section Copy

variable {ctx : RomContext} {newRun : HeadlessRun} {ref : SelectedReference}
  (hcopy : CopyOf ctx newRun ref) (hann : AnnotatedOnce ref)

section Once

include hann

theorem AnnotatedOnce.eq_of_name {s t : ReferenceSymbol} (hs : s ∈ loadReferenceSymbols ref.store)
    (ht : t ∈ loadReferenceSymbols ref.store) (h : s.name = t.name) : s = t :=
  List.inj_on_of_nodup_map hann.names hs ht h

theorem AnnotatedOnce.eq_of_address {s t : ReferenceSymbol}
    (hs : s ∈ loadReferenceSymbols ref.store) (ht : t ∈ loadReferenceSymbols ref.store)
    (h : s.address = t.address) : s = t :=
  List.inj_on_of_nodup_map hann.addresses hs ht h

/-- The reference address of a label is that of a symbol of its name too. -/
theorem AnnotatedOnce.crossLabel_inPlace {pass : LabelPass}
    {select : HeadlessRun → Dict Nat (List DataRef)} {ms : List MatchedFunction}
    {t : PropagatedSymbol}
    (ht : t ∈ crossLabels pass select newRun ref.refRun (loadReferenceSymbols ref.store) ms)
    (hkeeps : KeepsAnnotated ref t) : t.newAddress = t.refAddress := by
  obtain ⟨s, hs, hname, haddr⟩ := hkeeps
  unfold crossLabels at ht
  split at ht
  · cases ht
  · obtain ⟨v, sym, _, hsym, hsymName, hrefAddr⟩ := exists_lastSights_of_label ht
    obtain rfl := hann.eq_of_name hs (mem_of_symbolsByAddr hsym) (hname.trans hsymName.symm)
    rw [← haddr, symbolsByAddr_address hsym, hrefAddr]

end Once

include hcopy

theorem CopyOf.mem_crossLabels {pass : LabelPass}
    {select : HeadlessRun → Dict Nat (List DataRef)}
    (hsame : ∀ refRun, SameCode refRun newRun → accesses (select newRun) = accesses (select refRun))
    (hone : OneAccess (select newRun)) {refSymbols : List ReferenceSymbol}
    {ms : List MatchedFunction} (hplace : ∀ m ∈ ms, InPlace m) {s : PropagatedSymbol}
    (hs : s ∈ crossLabels pass select newRun ref.refRun refSymbols ms) :
    ∃ sym ∈ refSymbols, sym.name = s.name ∧ sym.address = s.newAddress ∧
      pass.inRange s.newAddress = true := by
  unfold crossLabels accessMaps at hs
  cases hrun : ref.refRun with
  | none =>
    rw [hrun] at hs
    cases hs
  | some refRun =>
    rw [hrun] at hs
    dsimp only at hs
    split at hs
    · cases hs
    · rename_i hmaps
      split at hmaps
      · cases hmaps
      · obtain ⟨rfl, rfl⟩ := Prod.mk.inj (Option.some.inj hmaps)
        exact mem_propagateLabels_copied (hsame refRun (hcopy.code refRun hrun)) hone hplace hs

theorem CopyOf.mem_crossRamLabels {refSymbols : List ReferenceSymbol} {ms : List MatchedFunction}
    (hplace : ∀ m ∈ ms, InPlace m) {s : PropagatedSymbol}
    (hs : s ∈ crossRamLabels newRun ref.refRun refSymbols ms) :
    ∃ sym ∈ refSymbols, sym.name = s.name ∧ sym.address = s.newAddress ∧
      ramPass.inRange s.newAddress = true := by
  rw [crossRamLabels_eq] at hs
  exact hcopy.mem_crossLabels (fun _ h => h.ramDataRefs) hcopy.ram hplace hs

theorem CopyOf.mem_crossDataLabels {refSymbols : List ReferenceSymbol} {ms : List MatchedFunction}
    (hplace : ∀ m ∈ ms, InPlace m) {s : PropagatedSymbol}
    (hs : s ∈ crossDataLabels newRun ref.refRun refSymbols ms) :
    ∃ sym ∈ refSymbols, sym.name = s.name ∧ sym.address = s.newAddress ∧
      dataPass.inRange s.newAddress = true := by
  rw [crossDataLabels_eq] at hs
  exact hcopy.mem_crossLabels (fun _ h => h.dataRefs) hcopy.data hplace hs

/-! ### Matches -/

include hann

/-- The six phases keep every function where it is. -/
theorem CopyOf.crossMatches_inPlace {refRun : HeadlessRun} (hrun : ref.refRun = some refRun)
    {m : MatchedFunction} (hm : m ∈ crossMatches ctx newRun ref refRun) : InPlace m := by
  have hcode := hcopy.code refRun hrun
  have hanchors : ∀ m ∈ anchorsOf ctx newRun ref refRun, InPlace m := by
    intro m hm
    unfold anchorsOf at hm
    rw [hcopy.bytes] at hm
    exact hcode.bootstrapAnchors_inPlace hann.mutTable hm
  have hseeds : ∀ m ∈ seedMatches ctx newRun ref refRun, InPlace m := by
    intro m hm
    simp only [seedMatches, List.mem_append] at hm
    rcases hm with (hm | hm) | hm
    · obtain ⟨a, ha, rfl⟩ := Diff.mem_matchesFromVtsession hm
      exact hcopy.associations a ha
    · exact hanchors m hm
    · exact hcode.bfsPreseed_inPlace hanchors hm
  simp only [crossMatches, List.mem_append] at hm
  rcases hm with (hm | hm) | hm
  · exact hseeds m hm
  · exact hcode.gapFill_inPlace hseeds hm
  · rw [hcopy.bytes] at hm
    exact Callgraph.bytecodeIdentityMatch_inPlace (hcopy.words refRun hrun) hm

theorem CopyOf.keptMatches_inPlace {m : MatchedFunction} (hm : m ∈ keptMatches ctx newRun ref) :
    InPlace m := by
  have hcand := mem_of_mem_dedupMatches hm
  unfold candidateMatches at hcand
  split at hcand
  · obtain ⟨s, _, rfl⟩ := List.mem_map.mp hcand
    rfl
  · cases hrun : ref.refRun with
    | none =>
      rw [hrun] at hcand
      cases hcand
    | some refRun =>
      rw [hrun] at hcand
      exact hcopy.crossMatches_inPlace hann hrun hcand

/-- The labels of the first pass name what the annotations name, as far as they go. -/
theorem CopyOf.newLabelMap_eq_some_iff {ms : List MatchedFunction} (hplace : ∀ m ∈ ms, InPlace m)
    {a : Nat} {name : String} :
    (Dict.ofList ((crossRamLabels newRun ref.refRun (loadReferenceSymbols ref.store) ms).map
        fun ps => (ps.newAddress, ps.name))).get? a = some name ↔
      (Dict.ofList (((loadReferenceSymbols ref.store).filter fun s =>
          s.category = .ramGlobal).map fun s => (s.address, s.name))).get? a = some name ∧
        name ∈ (crossRamLabels newRun ref.refRun (loadReferenceSymbols ref.store) ms).map
          PropagatedSymbol.name := by
  constructor
  · intro hget
    obtain ⟨ps, hps, hpair⟩ := List.mem_map.mp (Dict.mem_of_get?_ofList hget)
    obtain ⟨rfl, rfl⟩ := Prod.mk.inj hpair
    refine ⟨?_, List.mem_map_of_mem hps⟩
    obtain ⟨sym, hsym, hname, haddr, hrange⟩ := hcopy.mem_crossRamLabels hplace hps
    rw [← haddr] at hrange
    have hkeys : ((((loadReferenceSymbols ref.store).filter fun s =>
        s.category = .ramGlobal).map fun s => (s.address, s.name)).map Prod.fst).Nodup := by
      rw [List.map_map]
      exact hann.addresses.sublist (List.filter_sublist.map _)
    rw [← Dict.mem_entries_iff, Dict.entries_ofList hkeys]
    refine List.mem_map.mpr ⟨sym, List.mem_filter.mpr ⟨hsym, ?_⟩, ?_⟩
    · exact decide_eq_true (hann.ram sym hsym hrange)
    · rw [hname, haddr]
  · rintro ⟨hget, hname⟩
    obtain ⟨sym, hsym, hpair⟩ := List.mem_map.mp (Dict.mem_of_get?_ofList hget)
    obtain ⟨rfl, rfl⟩ := Prod.mk.inj hpair
    have hsym := (List.mem_filter.mp hsym).1
    obtain ⟨ps, hps, hpsName⟩ := List.mem_map.mp hname
    obtain ⟨other, hother, hotherName, hotherAddr, _⟩ := hcopy.mem_crossRamLabels hplace hps
    obtain rfl := hann.eq_of_name hother hsym (hotherName.trans hpsName)
    -- the address is labelled, and whatever labels it has the name of its symbol
    have hkey : other.address ∈ (Dict.ofList ((crossRamLabels newRun ref.refRun
        (loadReferenceSymbols ref.store) ms).map fun ps => (ps.newAddress, ps.name))).keys := by
      rw [Dict.mem_keys_ofList, List.map_map]
      exact List.mem_map.mpr ⟨ps, hps, hotherAddr.symm⟩
    obtain ⟨found, hfound⟩ := (Dict.mem_keys_iff _ _).mp hkey
    obtain ⟨ps', hps', hpair'⟩ := List.mem_map.mp (Dict.mem_of_get?_ofList hfound)
    obtain ⟨haddr', rfl⟩ := Prod.mk.inj hpair'
    obtain ⟨sym', hsym', hname', hsymAddr', _⟩ := hcopy.mem_crossRamLabels hplace hps'
    obtain rfl := hann.eq_of_address hsym' hother (hsymAddr'.trans haddr')
    rw [hfound, hname']

/-- In the copy a function's signature is the labelled part of its own. -/
theorem CopyOf.signatureOf_copied {refRun : HeadlessRun} (hrun : ref.refRun = some refRun)
    {ms : List MatchedFunction} (hplace : ∀ m ∈ ms, InPlace m) (f : Nat) :
    signatureOf newRun.ramDataRefs
        (Dict.ofList ((crossRamLabels newRun ref.refRun (loadReferenceSymbols ref.store) ms).map
          fun ps => (ps.newAddress, ps.name))) f =
      (signatureOf refRun.ramDataRefs
        (Dict.ofList (((loadReferenceSymbols ref.store).filter fun s =>
          s.category = .ramGlobal).map fun s => (s.address, s.name))) f).filter fun name =>
        name ∈ (crossRamLabels newRun ref.refRun (loadReferenceSymbols ref.store) ms).map
          PropagatedSymbol.name := by
  have haccess : ∀ labelMap : Dict Nat String,
      signatureOf newRun.ramDataRefs labelMap f = signatureOf refRun.ramDataRefs labelMap f := by
    intro labelMap
    have hsplit : ∀ rs : List DataRef, rs.filterMap (fun r => labelMap.get? r.referencedAddress) =
        (rs.map unlabelled).filterMap fun r => labelMap.get? r.referencedAddress := by
      intro rs
      rw [List.filterMap_map]
      rfl
    rw [signatureOf, hsplit, getD_accesses (hcopy.code refRun hrun).ramDataRefs, ← hsplit]
    rfl
  ext name
  rw [haccess, Finset.mem_filter]
  simp only [signatureOf, List.mem_toFinset, List.mem_filterMap,
    hcopy.newLabelMap_eq_some_iff hann hplace]
  constructor
  · rintro ⟨r, hr, hname, hknown⟩
    exact ⟨⟨r, hr, hname⟩, hknown⟩
  · rintro ⟨⟨r, hr, hname⟩, hknown⟩
    exact ⟨r, hr, hname, hknown⟩

theorem CopyOf.signatureMatches_inPlace {m : MatchedFunction}
    (hm : m ∈ signatureMatches ctx newRun ref) : InPlace m := by
  have hplace : ∀ m ∈ keptMatches ctx newRun ref, InPlace m :=
    fun m hm => hcopy.keptMatches_inPlace hann hm
  by_cases hself : ctx.isSelfDiff = true
  · rw [no_second_pass_of_selfDiff hself] at hm
    cases hm
  unfold signatureMatches sigMatches at hm
  rw [ramLabels, if_neg hself] at hm
  dsimp only at hm
  split at hm
  · cases hm
  unfold accessMaps at hm
  cases hrun : ref.refRun with
  | none =>
    rw [hrun] at hm
    cases hm
  | some refRun =>
    have hsig := hcopy.signatureOf_copied hann hrun hplace
    rw [hrun] at hsig hm
    dsimp only at hm
    split at hm
    · cases hm
    · rename_i hmaps
      split at hmaps
      · cases hmaps
      · obtain ⟨rfl, rfl⟩ := Prod.mk.inj (Option.some.inj hmaps)
        exact RamSignature.matchByRamSignature_self hsig hplace (by decide) hm

theorem CopyOf.extendedMatches_inPlace {m : MatchedFunction}
    (hm : m ∈ extendedMatches ctx newRun ref) : InPlace m := by
  rcases List.mem_append.mp hm with hm | hm
  · exact hcopy.keptMatches_inPlace hann hm
  · exact hcopy.signatureMatches_inPlace hann hm

/-! ### Labels of both passes -/

theorem CopyOf.crossRamLabel_inPlace {ms : List MatchedFunction} (hplace : ∀ m ∈ ms, InPlace m)
    {t : PropagatedSymbol}
    (ht : t ∈ crossRamLabels newRun ref.refRun (loadReferenceSymbols ref.store) ms) :
    t.newAddress = t.refAddress ∧ KeepsAnnotated ref t := by
  obtain ⟨s, hs, hname, haddr, _⟩ := hcopy.mem_crossRamLabels hplace ht
  rw [crossRamLabels_eq] at ht
  exact ⟨hann.crossLabel_inPlace ht ⟨s, hs, hname, haddr⟩, s, hs, hname, haddr⟩

theorem CopyOf.crossDataLabel_inPlace {ms : List MatchedFunction} (hplace : ∀ m ∈ ms, InPlace m)
    {t : PropagatedSymbol}
    (ht : t ∈ crossDataLabels newRun ref.refRun (loadReferenceSymbols ref.store) ms) :
    t.newAddress = t.refAddress ∧ KeepsAnnotated ref t := by
  obtain ⟨s, hs, hname, haddr, _⟩ := hcopy.mem_crossDataLabels hplace ht
  rw [crossDataLabels_eq] at ht
  exact ⟨hann.crossLabel_inPlace ht ⟨s, hs, hname, haddr⟩, s, hs, hname, haddr⟩

theorem CopyOf.proposedLabels_inPlace {t : PropagatedSymbol}
    (ht : t ∈ proposedLabels ctx newRun ref) :
    t.newAddress = t.refAddress ∧ (t.category = .function ∨ KeepsAnnotated ref t) := by
  have hkept : ∀ m ∈ keptMatches ctx newRun ref, InPlace m :=
    fun m hm => hcopy.keptMatches_inPlace hann hm
  have hextended : ∀ m ∈ extendedMatches ctx newRun ref, InPlace m :=
    fun m hm => hcopy.extendedMatches_inPlace hann hm
  rcases mem_proposedLabels.mp ht with ⟨m, hm, hlabel⟩ | ht | ht | ht | ht | ht
  · obtain ⟨href, hnew, _, _⟩ := Propagate.functionLabel_spec hlabel
    have hself : m.newAddress = m.refAddress := hextended m hm
    exact ⟨by rw [hnew, href, hself], Or.inl (Propagate.functionLabel_category hlabel)⟩
  · unfold ramGlobals at ht
    split at ht
    · obtain ⟨s, hs, rfl⟩ := List.mem_map.mp ht
      exact ⟨rfl, Or.inr ⟨s, (List.mem_filter.mp hs).1, rfl, rfl⟩⟩
    · cases ht
  · unfold dataLabels at ht
    split at ht
    · obtain ⟨s, hs, rfl⟩ := List.mem_map.mp ht
      exact ⟨rfl, Or.inr ⟨s, (List.mem_filter.mp hs).1, rfl, rfl⟩⟩
    · exact (hcopy.crossDataLabel_inPlace hann hkept ht).imp_right Or.inr
  · unfold ramLabels at ht
    split at ht
    · cases ht
    · exact (hcopy.crossRamLabel_inPlace hann hkept ht).imp_right Or.inr
  · unfold ramLabelsP2 at ht
    split at ht
    · cases ht
    · exact (hcopy.crossRamLabel_inPlace hann hextended ht).imp_right Or.inr
  · unfold dataLabelsP2 at ht
    split at ht
    · cases ht
    · exact (hcopy.crossDataLabel_inPlace hann hextended ht).imp_right Or.inr

/-- A copy of the reference ROM keeps every matched function and every label where it is,
and all data and RAM labels where their names are annotated. -/
theorem matchReference_copy :
    (∀ m ∈ (matchReference ctx newRun ref).matches_, m.newAddress = m.refAddress) ∧
      ∀ t ∈ (matchReference ctx newRun ref).propagated,
        t.newAddress = t.refAddress ∧ (t.category = .function ∨ KeepsAnnotated ref t) := by
  constructor
  · intro m hm
    obtain ⟨k, hk, rfl⟩ := mem_matches.mp hm
    have hself : k.newAddress = k.refAddress := hcopy.extendedMatches_inPlace hann hk
    exact hself
  · intro t ht
    obtain ⟨s, hs, rfl⟩ := mem_propagated.mp ht
    obtain ⟨hself, hkeeps⟩ := hcopy.proposedLabels_inPlace hann hs
    unfold KeepsAnnotated at hkeeps ⊢
    simpa using ⟨hself, hkeeps⟩

end Copy

section Sample

/-- One function that accesses one RAM global, associated with itself. -/
def copiedReference : SelectedReference where
  entry := ⟨"33520003", "reference/33520003.json", "roms/z27ag.bin", "z27ag", "fp8000", 20, [], ""⟩
  store := ⟨1, "33520003", "", [⟨"rpm", 0x804000, .ramGlobal, none, .high, "", none, "", ""⟩],
    [{ name := "knock_control", entryPoint := 0x1000 }], [], []⟩
  refRun := some {
    functions := [⟨"knock_control", 0x1000⟩]
    ramDataRefs := Dict.ofList [(0x1000, [⟨4, 0x804000, some "rpm", .read⟩])] }
  refBytes := []
  vtAssociations := [⟨0x1000, 0x1000, 1, some "knock_control"⟩]

def copyContext : RomContext := ⟨"roms/copy.bin", [], "z27ag", false, false, 64⟩

def copyRun : HeadlessRun where
  functions := [⟨"FUN_00001000", 0x1000⟩]
  ramDataRefs := Dict.ofList [(0x1000, [⟨4, 0x804000, none, .read⟩])]

theorem copyOf_copiedReference : CopyOf copyContext copyRun copiedReference where
  bytes := rfl
  code := by
    rintro refRun ⟨⟩
    exact ⟨rfl, rfl, rfl, rfl⟩
  words := by
    rintro refRun ⟨⟩
    decide
  data := fun f => List.nodup_nil
  ram := by
    intro f
    by_cases hf : f = 0x1000
    · subst hf
      decide
    · simp [copyRun, Dict.getD, Dict.get?_ofList, Ne.symm hf]
  associations := by decide

theorem annotatedOnce_copiedReference : AnnotatedOnce copiedReference where
  names := by decide
  addresses := by decide
  ram := by decide
  mutTable := by
    intro sym a hsym
    cases hsym

/-- Both the function and the RAM global are found. -/
theorem matchReference_copy_sample :
    ((matchReference copyContext copyRun copiedReference).propagated.map fun t =>
        (t.name, t.newAddress)) = [("knock_control", 0x1000), ("rpm", 0x804000)] ∧
      ∀ t ∈ (matchReference copyContext copyRun copiedReference).propagated,
        t.newAddress = t.refAddress ∧
          (t.category = .function ∨ KeepsAnnotated copiedReference t) :=
  ⟨by decide +kernel,
    (matchReference_copy copyOf_copiedReference annotatedOnce_copiedReference).2⟩

end Sample

end RomAnalyzer.Pipeline
