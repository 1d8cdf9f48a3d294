import RomAnalyzer.Callgraph.AlignedSearch

/-!
# What bytecode identity matches

A candidate is a function of the right size with a single aligned occurrence. The scan
takes every candidate whose function and occurrence are free when it comes to it, so of
several candidates for one occurrence the lowest wins.
-/
namespace RomAnalyzer.Callgraph

open Lib
open Ghidra (HeadlessRun)

section Candidates

variable (refBytes newBytes : Bytes) (minSize maxSize : Nat)

/-- The function at `e.1`, of size `e.2`, has its only aligned occurrence at `n`. -/
structure IdentityCandidate (e : Nat × Nat) (n : Nat) : Prop where
  min_le : minSize ≤ e.2
  le_max : e.2 ≤ maxSize
  inside : e.1 + e.2 ≤ refBytes.length
  only : OnlyAlignedAt newBytes (slice refBytes e.1 e.2) 4 n

end Candidates

theorem fst_mem_of_mem_entrySizes {entries : List Nat} {e : Nat × Nat}
    (h : e ∈ entrySizes entries) : e.1 ∈ entries := by
  fun_induction entrySizes entries with
  | case1 => cases h
  | case2 a =>
    rw [List.mem_singleton.mp h]
    exact List.mem_singleton_self a
  | case3 a next rest ih =>
    rcases List.mem_cons.mp h with he | h
    · rw [he]
      exact List.mem_cons_self
    · exact List.mem_cons_of_mem a (ih h)

/-- Of two sizes for one entry, one is that of a repeated entry, which is 0. -/
theorem entrySizes_size_eq {entries : List Nat} (hsorted : entries.Pairwise (· ≤ ·))
    {e e' : Nat × Nat} (he : e ∈ entrySizes entries) (he' : e' ∈ entrySizes entries)
    (hsame : e.1 = e'.1) : e = e' ∨ e.2 = 0 ∨ e'.2 = 0 := by
  fun_induction entrySizes entries with
  | case1 => cases he
  | case2 a =>
    left
    rw [List.mem_singleton.mp he, List.mem_singleton.mp he']
  | case3 a next rest ih =>
    obtain ⟨_, hrest⟩ := List.pairwise_cons.mp hsorted
    have hnext : ∀ x ∈ entrySizes (next :: rest), next ≤ x.1 := by
      intro x hx
      rcases List.mem_cons.mp (fst_mem_of_mem_entrySizes hx) with heq | hmem
      · rw [heq]
      · exact (List.pairwise_cons.mp hrest).1 x.1 hmem
    rcases List.mem_cons.mp he with rfl | he
    · rcases List.mem_cons.mp he' with rfl | he'
      · exact Or.inl rfl
      · have hle := hnext e' he'
        right
        left
        show next - a = 0
        dsimp only at hsame
        omega
    · rcases List.mem_cons.mp he' with rfl | he'
      · have hle := hnext e he
        right
        right
        show next - a = 0
        dsimp only at hsame
        omega
      · exact ih hrest he he'

theorem sortedEntries_pairwise (run : HeadlessRun) : (sortedEntries run).Pairwise (· ≤ ·) :=
  sortBy_pairwise id _

/-- The empty pattern has a single aligned occurrence only in a ROM of under four
bytes, and there everything occurs at the start. -/
theorem eq_zero_of_only_nil {haystack needle : Bytes} {n m : Nat}
    (h : OnlyAlignedAt haystack [] 4 n) (hat : AlignedAt haystack needle 4 m) : m = 0 := by
  have hshort : haystack.length < 4 := by
    by_contra hc
    have hzero := h.only 0 ⟨rfl, Nat.zero_le _, rfl⟩
    have hfour := h.only 4 ⟨rfl, by simp only [List.length_nil]; omega, rfl⟩
    omega
  have haligned := hat.aligned
  have hfits := hat.fits
  omega

section Matches

variable {refBytes newBytes : Bytes} {refRun : HeadlessRun}
  {refSymbolsByAddr : Dict Nat ReferenceSymbol} {minSize maxSize : Nat}
  {existing : List MatchedFunction}

/-- A function has one occurrence, also when the program lists it more than once. -/
theorem IdentityCandidate.eq_of_fst {e e' : Nat × Nat} {n n' : Nat}
    (he : e ∈ entrySizes (sortedEntries refRun)) (he' : e' ∈ entrySizes (sortedEntries refRun))
    (hsame : e.1 = e'.1) (h : IdentityCandidate refBytes newBytes minSize maxSize e n)
    (h' : IdentityCandidate refBytes newBytes minSize maxSize e' n') : n = n' := by
  have hempty : ∀ x : Nat × Nat, x.2 = 0 → slice refBytes x.1 x.2 = [] := by
    intro x hx
    rw [hx]
    exact List.take_zero
  rcases entrySizes_size_eq (sortedEntries_pairwise refRun) he he' hsame with rfl | hzero | hzero
  · exact h'.only.only n h.only.occurs
  · have hnil := h.only
    rw [hempty e hzero] at hnil
    rw [eq_zero_of_only_nil hnil hnil.occurs, eq_zero_of_only_nil hnil h'.only.occurs]
  · have hnil := h'.only
    rw [hempty e' hzero] at hnil
    rw [eq_zero_of_only_nil hnil h.only.occurs, eq_zero_of_only_nil hnil hnil.occurs]

/-- A candidate is taken when its function and its occurrence are free; nothing else
happens. -/
theorem identityStep_spec (refRun : HeadlessRun) (refSymbolsByAddr : Dict Nat ReferenceSymbol)
    (minSize maxSize : Nat) (s : IdentityState) (e : Nat × Nat) :
    (∃ n, IdentityCandidate refBytes newBytes minSize maxSize e n ∧ e.1 ∉ s.alreadyRef ∧
      n ∉ s.alreadyNew ∧
      identityStep refBytes newBytes refRun refSymbolsByAddr minSize maxSize s e = {
        alreadyRef := s.alreadyRef ++ [e.1]
        alreadyNew := s.alreadyNew ++ [n]
        results := s.results ++ [anchor "bytecode_identity" 1
          (identityName refRun refSymbolsByAddr e.1) e.1 n] }) ∨
    (identityStep refBytes newBytes refRun refSymbolsByAddr minSize maxSize s e = s ∧
      ∀ n, IdentityCandidate refBytes newBytes minSize maxSize e n →
        e.1 ∈ s.alreadyRef ∨ n ∈ s.alreadyNew) := by
  unfold identityStep
  dsimp only
  by_cases href : e.1 ∈ s.alreadyRef
  · rw [if_pos href]
    exact Or.inr ⟨rfl, fun _ _ => Or.inl href⟩
  rw [if_neg href]
  by_cases hsize : e.2 < minSize ∨ maxSize < e.2 ∨ refBytes.length < e.1 + e.2
  · rw [if_pos hsize]
    refine Or.inr ⟨rfl, fun n hn => ?_⟩
    have hmin := hn.min_le
    have hmax := hn.le_max
    have hinside := hn.inside
    omega
  rw [if_neg hsize]
  cases hfind : findUniqueAligned newBytes (slice refBytes e.1 e.2) with
  | none =>
    refine Or.inr ⟨rfl, fun n hn => ?_⟩
    rw [(findUniqueAligned_eq_some_iff n).mpr hn.only] at hfind
    cases hfind
  | some newAddr =>
    dsimp only
    have honly := (findUniqueAligned_eq_some_iff newAddr).mp hfind
    by_cases hnew : newAddr ∈ s.alreadyNew
    · rw [if_pos hnew]
      refine Or.inr ⟨rfl, fun n hn => Or.inr ?_⟩
      rw [honly.only n hn.only.occurs]
      exact hnew
    · rw [if_neg hnew]
      exact Or.inl ⟨newAddr, ⟨by omega, by omega, by omega, honly⟩, href, hnew, rfl⟩

/-- What holds when the scan has passed the given functions: the claimed addresses are
those of the matches, every match is a candidate of its own, and every candidate has
been taken or finds an address of it claimed. -/
structure IdentityScan (refBytes newBytes : Bytes) (minSize maxSize : Nat)
    (existing : List MatchedFunction) (passed : List (Nat × Nat)) (s : IdentityState) : Prop where
  refs : s.alreadyRef =
    existing.map MatchedFunction.refAddress ++ s.results.map MatchedFunction.refAddress
  news : s.alreadyNew =
    existing.map MatchedFunction.newAddress ++ s.results.map MatchedFunction.newAddress
  sound : ∀ m ∈ s.results, ∃ e ∈ passed, e.1 = m.refAddress ∧
    IdentityCandidate refBytes newBytes minSize maxSize e m.newAddress
  refs_nodup : (s.results.map MatchedFunction.refAddress).Nodup
  news_nodup : (s.results.map MatchedFunction.newAddress).Nodup
  taken : ∀ e ∈ passed, ∀ n, IdentityCandidate refBytes newBytes minSize maxSize e n →
    e.1 ∈ s.alreadyRef ∨ n ∈ s.alreadyNew

theorem identityScan_step {passed : List (Nat × Nat)} {s : IdentityState}
    (h : IdentityScan refBytes newBytes minSize maxSize existing passed s) (e : Nat × Nat) :
    IdentityScan refBytes newBytes minSize maxSize existing (passed ++ [e])
      (identityStep refBytes newBytes refRun refSymbolsByAddr minSize maxSize s e) := by
  rcases identityStep_spec refRun refSymbolsByAddr minSize maxSize s e with
    ⟨n, hcand, href, hnew, hs⟩ | ⟨hs, htaken⟩
  · rw [hs]
    rw [h.refs, List.mem_append, not_or] at href
    rw [h.news, List.mem_append, not_or] at hnew
    have hrefs := h.refs
    have hnews := h.news
    refine ⟨?_, ?_, ?_, ?_, ?_, ?_⟩
    · simp only [List.map_append, List.map_singleton, hrefs, List.append_assoc]
      rfl
    · simp only [List.map_append, List.map_singleton, hnews, List.append_assoc]
      rfl
    · intro m hm
      rcases List.mem_append.mp hm with hm | hm
      · obtain ⟨e', he', hrest⟩ := h.sound m hm
        exact ⟨e', List.mem_append_left _ he', hrest⟩
      · rw [List.mem_singleton.mp hm]
        exact ⟨e, List.mem_append_right _ (List.mem_singleton_self e), rfl, hcand⟩
    · rw [List.map_append, List.map_singleton, ← List.concat_eq_append]
      exact List.Nodup.concat href.2 h.refs_nodup
    · rw [List.map_append, List.map_singleton, ← List.concat_eq_append]
      exact List.Nodup.concat hnew.2 h.news_nodup
    · intro e' he' n' hn'
      rcases List.mem_append.mp he' with he' | he'
      · exact (h.taken e' he' n' hn').imp (List.mem_append_left _) (List.mem_append_left _)
      · rw [List.mem_singleton.mp he']
        exact Or.inl (List.mem_append_right _ (List.mem_singleton_self e.1))
  · rw [hs]
    refine ⟨h.refs, h.news, ?_, h.refs_nodup, h.news_nodup, ?_⟩
    · intro m hm
      obtain ⟨e', he', hrest⟩ := h.sound m hm
      exact ⟨e', List.mem_append_left _ he', hrest⟩
    · intro e' he' n hn
      rcases List.mem_append.mp he' with he' | he'
      · exact h.taken e' he' n hn
      · rw [List.mem_singleton.mp he'] at hn ⊢
        exact htaken n hn

theorem identityScan_foldl (es : List (Nat × Nat)) :
    IdentityScan refBytes newBytes minSize maxSize existing es
      (es.foldl (identityStep refBytes newBytes refRun refSymbolsByAddr minSize maxSize) {
        alreadyRef := existing.map MatchedFunction.refAddress
        alreadyNew := existing.map MatchedFunction.newAddress
        results := [] }) := by
  induction es using List.reverseRecOn with
  | nil =>
    exact ⟨(List.append_nil _).symm, (List.append_nil _).symm,
      fun m hm => absurd hm List.not_mem_nil, List.nodup_nil, List.nodup_nil,
      fun e he => absurd he List.not_mem_nil⟩
  | append_singleton es e ih =>
    rw [List.foldl_append]
    exact identityScan_step ih e

/-- The state in which the scan ends. -/
theorem identityScan_final (refBytes newBytes : Bytes) (refRun : HeadlessRun)
    (refSymbolsByAddr : Dict Nat ReferenceSymbol) (minSize maxSize : Nat)
    (existing : List MatchedFunction) :
    ∃ last, IdentityScan refBytes newBytes minSize maxSize existing
        (entrySizes (sortedEntries refRun)) last ∧
      bytecodeIdentityMatch refBytes newBytes refRun refSymbolsByAddr existing minSize maxSize =
        last.results :=
  ⟨_, identityScan_foldl _, rfl⟩

/-- The occurrence of an unmatched candidate is matched, unless it was before. -/
theorem exists_match_of_candidate (refSymbolsByAddr : Dict Nat ReferenceSymbol)
    {e : Nat × Nat} {n : Nat}
    (he : e ∈ entrySizes (sortedEntries refRun))
    (hcand : IdentityCandidate refBytes newBytes minSize maxSize e n)
    (href : e.1 ∉ existing.map MatchedFunction.refAddress)
    (hnew : n ∉ existing.map MatchedFunction.newAddress) :
    ∃ m ∈ bytecodeIdentityMatch refBytes newBytes refRun refSymbolsByAddr existing
      minSize maxSize, m.newAddress = n := by
  obtain ⟨last, hscan, hresults⟩ := identityScan_final refBytes newBytes refRun refSymbolsByAddr
    minSize maxSize existing
  rw [hresults]
  rcases hscan.taken e he n hcand with hclaimed | hclaimed
  · rw [hscan.refs] at hclaimed
    rcases List.mem_append.mp hclaimed with hold | hmade
    · exact absurd hold href
    · -- the function is matched, and it has one occurrence only
      obtain ⟨m, hm, hmref⟩ := List.mem_map.mp hmade
      obtain ⟨e', he', he'ref, hcand'⟩ := hscan.sound m hm
      exact ⟨m, hm, IdentityCandidate.eq_of_fst he' he (he'ref.trans hmref) hcand' hcand⟩
  · rw [hscan.news] at hclaimed
    rcases List.mem_append.mp hclaimed with hold | hmade
    · exact absurd hold hnew
    · obtain ⟨m, hm, hmnew⟩ := List.mem_map.mp hmade
      exact ⟨m, hm, hmnew⟩

/-- Every match is that of an unmatched candidate. -/
theorem candidate_of_mem_identityMatch {m : MatchedFunction}
    (h : m ∈ bytecodeIdentityMatch refBytes newBytes refRun refSymbolsByAddr existing
      minSize maxSize) :
    ∃ sz, (m.refAddress, sz) ∈ entrySizes (sortedEntries refRun) ∧
      IdentityCandidate refBytes newBytes minSize maxSize (m.refAddress, sz) m.newAddress := by
  obtain ⟨last, hscan, hresults⟩ := identityScan_final refBytes newBytes refRun refSymbolsByAddr
    minSize maxSize existing
  rw [hresults] at h
  obtain ⟨e, he, href, hcand⟩ := hscan.sound m h
  refine ⟨e.2, ?_⟩
  rw [← href]
  exact ⟨he, hcand⟩

/-- A match is a candidate; no address is used twice or was used before; and a candidate
that is unmatched, and whose occurrence no other unmatched candidate has, is matched
unless its occurrence was taken before. -/
theorem bytecodeIdentityMatch_correct (refBytes newBytes : Bytes) (refRun : HeadlessRun)
    (refSymbolsByAddr : Dict Nat ReferenceSymbol) (existing : List MatchedFunction)
    (minSize maxSize : Nat) :
    let functions := entrySizes (sortedEntries refRun)
    let refs := existing.map MatchedFunction.refAddress
    let news := existing.map MatchedFunction.newAddress
    let results := bytecodeIdentityMatch refBytes newBytes refRun refSymbolsByAddr existing
      minSize maxSize
    (∀ m ∈ results, ∃ sz, (m.refAddress, sz) ∈ functions ∧
      IdentityCandidate refBytes newBytes minSize maxSize (m.refAddress, sz) m.newAddress) ∧
    (results.map MatchedFunction.refAddress).Nodup ∧
    (results.map MatchedFunction.newAddress).Nodup ∧
    (∀ m ∈ results, m.refAddress ∉ refs ∧ m.newAddress ∉ news) ∧
    ∀ r sz n, (r, sz) ∈ functions → r ∉ refs →
      IdentityCandidate refBytes newBytes minSize maxSize (r, sz) n →
      (∀ e ∈ functions, e.1 ≠ r → e.1 ∉ refs →
        ¬ IdentityCandidate refBytes newBytes minSize maxSize e n) →
      n ∉ news → ∃ m ∈ results, m.refAddress = r ∧ m.newAddress = n := by
  intro functions refs news results
  obtain ⟨last, hscan, hresults⟩ := identityScan_final refBytes newBytes refRun refSymbolsByAddr
    minSize maxSize existing
  have hsame : results = last.results := hresults
  refine ⟨fun m hm => candidate_of_mem_identityMatch hm, ?_, ?_, ?_, ?_⟩
  · rw [hsame]
    exact hscan.refs_nodup
  · rw [hsame]
    exact hscan.news_nodup
  · exact fun m hm => (mem_bytecodeIdentityMatch hm).2
  · intro r sz n hmem hr hcand hother hn
    obtain ⟨m, hm, hmnew⟩ := exists_match_of_candidate refSymbolsByAddr hmem hcand hr hn
    refine ⟨m, hm, ?_, hmnew⟩
    by_contra hne
    obtain ⟨sz', hmem', hcand'⟩ := candidate_of_mem_identityMatch hm
    rw [hmnew] at hcand'
    exact hother _ hmem' hne (mem_bytecodeIdentityMatch hm).2.1 hcand'

/-! ### Several candidates for one occurrence -/

/-- Of two unmatched candidates for one occurrence neither is matched to it. -/
def SkipsSharedOccurrences (refBytes newBytes : Bytes) (refRun : HeadlessRun)
    (refSymbolsByAddr : Dict Nat ReferenceSymbol) (existing : List MatchedFunction)
    (minSize maxSize : Nat) : Prop :=
  ∀ e ∈ entrySizes (sortedEntries refRun), ∀ e' ∈ entrySizes (sortedEntries refRun),
    e.1 ≠ e'.1 → e.1 ∉ existing.map MatchedFunction.refAddress →
    e'.1 ∉ existing.map MatchedFunction.refAddress →
    ∀ n, IdentityCandidate refBytes newBytes minSize maxSize e n →
      IdentityCandidate refBytes newBytes minSize maxSize e' n →
      ∀ m ∈ bytecodeIdentityMatch refBytes newBytes refRun refSymbolsByAddr existing
        minSize maxSize, m.newAddress = n → m.refAddress ≠ e.1 ∧ m.refAddress ≠ e'.1

/-- That happens exactly when every occurrence with two unmatched candidates was taken
before the scan. -/
theorem skipsSharedOccurrences_iff (refBytes newBytes : Bytes) (refRun : HeadlessRun)
    (refSymbolsByAddr : Dict Nat ReferenceSymbol) (existing : List MatchedFunction)
    (minSize maxSize : Nat) :
    SkipsSharedOccurrences refBytes newBytes refRun refSymbolsByAddr existing minSize maxSize ↔
      ∀ e ∈ entrySizes (sortedEntries refRun), ∀ e' ∈ entrySizes (sortedEntries refRun),
        e.1 ≠ e'.1 → e.1 ∉ existing.map MatchedFunction.refAddress →
        e'.1 ∉ existing.map MatchedFunction.refAddress →
        ∀ n, IdentityCandidate refBytes newBytes minSize maxSize e n →
          IdentityCandidate refBytes newBytes minSize maxSize e' n →
          n ∈ existing.map MatchedFunction.newAddress := by
  constructor
  · intro h e he e' he' hne href href' n hcand hcand'
    by_contra hfree
    obtain ⟨m, hm, hmnew⟩ := exists_match_of_candidate refSymbolsByAddr he hcand href hfree
    obtain ⟨sz, hmem, hcand''⟩ := candidate_of_mem_identityMatch hm
    rw [hmnew] at hcand''
    have hmref : m.refAddress ∉ existing.map MatchedFunction.refAddress :=
      (mem_bytecodeIdentityMatch hm).2.1
    -- the function that is matched is one of the two, or a third one beside the first
    by_cases hthird : m.refAddress = e.1
    · exact (h e he e' he' hne href href' n hcand hcand' m hm hmnew).1 hthird
    · exact (h _ hmem e he hthird hmref href n hcand'' hcand m hm hmnew).1 rfl
  · intro h e he e' he' hne href href' n hcand hcand' m hm hmnew
    have htaken := h e he e' he' hne href href' n hcand hcand'
    rw [← hmnew] at htaken
    exact absurd htaken (mem_bytecodeIdentityMatch hm).2.2

def stubBody : Bytes := [0x70, 0xE0, 0x00, 0x01, 0x10, 0x00, 0x20, 0x03]

/-- Two functions with the same body, one behind the other. -/
def twinStubs (first second : String) : HeadlessRun where
  functions := [⟨first, 0⟩, ⟨second, 8⟩, ⟨"", 16⟩]
  symbols := [⟨first, 0, "ANALYSIS", "Function"⟩, ⟨second, 8, "ANALYSIS", "Function"⟩]

/-- The new ROM has the body once; the lower of the two functions gets it, and the other
one would if they changed places. -/
theorem twinStubs_first_wins :
    (bytecodeIdentityMatch (stubBody ++ stubBody) stubBody (twinStubs "clear_flags" "reset_flags")
        Dict.empty []).map MatchedFunction.refName = ["clear_flags"] ∧
      (bytecodeIdentityMatch (stubBody ++ stubBody) stubBody
        (twinStubs "reset_flags" "clear_flags") Dict.empty []).map MatchedFunction.refName =
        ["reset_flags"] ∧
      ¬ SkipsSharedOccurrences (stubBody ++ stubBody) stubBody
        (twinStubs "clear_flags" "reset_flags") Dict.empty [] minIdentitySize maxIdentitySize := by
  refine ⟨by decide +kernel, by decide +kernel, fun h => ?_⟩
  have honly : OnlyAlignedAt stubBody stubBody 4 0 :=
    (findUniqueAligned_eq_some_iff 0).mp (by decide +kernel)
  have hfirst : IdentityCandidate (stubBody ++ stubBody) stubBody minIdentitySize
      maxIdentitySize (0, 8) 0 := ⟨by decide, by decide, by decide, honly⟩
  have hsecond : IdentityCandidate (stubBody ++ stubBody) stubBody minIdentitySize
      maxIdentitySize (8, 8) 0 := ⟨by decide, by decide, by decide, honly⟩
  have hresults : bytecodeIdentityMatch (stubBody ++ stubBody) stubBody
      (twinStubs "clear_flags" "reset_flags") Dict.empty [] =
      [anchor "bytecode_identity" 1 "clear_flags" 0 0] := by decide +kernel
  have hskip := h (0, 8) (by decide +kernel) (8, 8) (by decide +kernel) (by decide) (by decide)
    (by decide) 0 hfirst hsecond (anchor "bytecode_identity" 1 "clear_flags" 0 0)
    (by rw [hresults]; exact List.mem_singleton_self _) rfl
  exact hskip.1 rfl

end Matches

end RomAnalyzer.Callgraph
