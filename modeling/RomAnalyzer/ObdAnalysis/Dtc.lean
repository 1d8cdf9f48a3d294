import RomAnalyzer.Ghidra.DtcCallSites
import RomAnalyzer.Lib.Hex
import RomAnalyzer.Lib.Scan
import RomAnalyzer.Lib.Words
import RomAnalyzer.MutTable
import RomAnalyzer.ObdAnalysis

/-!
# Trouble codes

The table of trouble codes has a cell for each bit of seventeen words. A cell holds four
decimal digits, one in each nibble; the calls that set or clear a bit are listed at the
code of its cell.
-/
namespace RomAnalyzer.ObdAnalysis

open Lib
open Ghidra (CallRef DtcCallSite fetchDtcCallSites)
open MutTable (unpackU16)

/-- Names by code. -/
def stdDtcNames : Dict Nat String := Dict.ofList [
  (100, "maf_circuit_malfunction"), (101, "maf_circuit_range_performance"),
  (102, "maf_circuit_low_input"), (103, "maf_circuit_high_input"),
  (105, "map_circuit_malfunction"), (106, "map_circuit_range_performance"),
  (107, "map_circuit_low_input"), (108, "map_circuit_high_input"),
  (110, "iat_circuit_malfunction"), (111, "iat_circuit_range_performance"),
  (112, "iat_circuit_low_input"), (113, "iat_circuit_high_input"),
  (115, "ect_circuit_malfunction"), (116, "ect_circuit_range_performance"),
  (117, "ect_circuit_low_input"), (118, "ect_circuit_high_input"),
  (120, "tps_circuit_malfunction"), (121, "tps_circuit_range_performance"),
  (122, "tps_circuit_low_input"), (123, "tps_circuit_high_input"),
  (125, "insufficient_coolant_temp_fuel_control"), (128, "map_performance_abnormal"),
  (130, "o2_circuit_malfunction_b1s1"), (131, "o2_circuit_range_b1s1"),
  (132, "o2_circuit_low_voltage_b1s1"), (133, "o2_circuit_slow_response_b1s1"),
  (134, "o2_circuit_no_activity_b1s1"), (135, "o2_heater_circuit_b1s1"),
  (136, "o2_circuit_malfunction_b1s2"), (137, "o2_circuit_low_voltage_b1s2"),
  (138, "o2_circuit_high_voltage_b1s2"), (139, "o2_circuit_slow_response_b1s2"),
  (141, "fuel_system_lean_b1"), (170, "fuel_system_lean_overall"), (171, "fuel_system_lean_b1"),
  (172, "fuel_system_rich_b1"), (173, "fuel_system_lean_b2"), (174, "fuel_system_rich_b2"),
  (200, "fuel_injector_circuit_malfunction"), (201, "injector_circuit_malfunction_cyl1"),
  (202, "injector_circuit_malfunction_cyl2"), (203, "injector_circuit_malfunction_cyl3"),
  (204, "injector_circuit_malfunction_cyl4"), (300, "random_multiple_cylinder_misfire"),
  (301, "misfire_cylinder1"), (302, "misfire_cylinder2"), (303, "misfire_cylinder3"),
  (304, "misfire_cylinder4"), (325, "knock_sensor_circuit_malfunction_b1"),
  (326, "knock_sensor_circuit_range_b1"), (327, "knock_sensor_circuit_low_b1"),
  (328, "knock_sensor_circuit_high_b1"), (335, "crank_position_sensor_malfunction"),
  (336, "crank_position_sensor_range"), (340, "cam_position_sensor_malfunction"),
  (341, "cam_position_sensor_range"), (400, "egr_flow_malfunction"),
  (401, "egr_flow_insufficient"), (402, "egr_flow_excessive"), (403, "egr_solenoid_malfunction"),
  (404, "egr_open_pos_sensor_range"), (405, "egr_open_pos_sensor_low"),
  (406, "egr_open_pos_sensor_high"), (410, "secondary_air_injection_malfunction"),
  (411, "secondary_air_injection_flow"), (420, "catalyst_efficiency_below_threshold_b1"),
  (421, "main_catalyst_efficiency_below_threshold_b1"),
  (430, "catalyst_efficiency_below_threshold_b2"), (440, "evap_emission_control_malfunction"),
  (441, "evap_emission_control_incorrect_purge"), (442, "evap_emission_control_small_leak"),
  (443, "evap_emission_control_purge_solenoid"), (446, "evap_emission_control_vent_solenoid"),
  (450, "evap_emission_control_system_large_leak"), (455, "evap_emission_control_leak_detected"),
  (460, "fuel_level_sensor_malfunction"), (461, "fuel_level_sensor_range"),
  (462, "fuel_level_sensor_low"), (463, "fuel_level_sensor_high"),
  (500, "vehicle_speed_sensor_malfunction"), (505, "idle_control_system_malfunction"),
  (506, "idle_control_system_rpm_low"), (507, "idle_control_system_rpm_high"),
  (600, "serial_communication_link_malfunction")]

structure DTCSetterInfo where
  callSiteAddr : Nat
  callerAddr : Nat
  callerName : Option String
  isSet : Bool
  deriving DecidableEq, Repr

structure DTCEntry where
  word : Nat
  bit : Nat
  pCode : Nat
  pCodeStr : String
  stdName : Option String
  setters : List DTCSetterInfo := []
  deriving DecidableEq, Repr

structure OBDAnalysis where
  pidEntries : List OBDPidEntry
  dtcEntries : List DTCEntry
  deriving DecidableEq, Repr

/-- `_bcd_to_int` -/
def bcdToInt (raw : Nat) : Nat :=
  ((raw >>> 12) &&& 0xF) * 1000 + ((raw >>> 8) &&& 0xF) * 100 + ((raw >>> 4) &&& 0xF) * 10 +
    (raw &&& 0xF)

/-- `_mask_to_bit`: the place of the one bit that is set. -/
def maskToBit (mask : Nat) : Option Nat :=
  if mask = 0 ∨ mask &&& (mask - 1) ≠ 0 then none else some mask.log2

/-- `f"P{p_code:04d}"` -/
def pCodeText (pCode : Nat) : String :=
  "P" ++ String.ofList ((Nat.toDigits 10 pCode).leftpad 4 '0')

def cellOffset (tableAddr word bit : Nat) : Nat := tableAddr + (word * 16 + bit) * 2

def dtcEntry (word bit raw : Nat) : DTCEntry where
  word := word
  bit := bit
  pCode := bcdToInt raw
  pCodeStr := pCodeText (bcdToInt raw)
  stdName := stdDtcNames.get? (bcdToInt raw)

/-- A word is left at the first cell that is not in the ROM. -/
def parseDtcTable (romBytes : Bytes) (tableAddr : Nat) : List DTCEntry :=
  (List.range 17).flatMap fun word =>
    let inside := (List.range 16).takeWhile fun bit =>
      cellOffset tableAddr word bit + 2 ≤ romBytes.length
    inside.filterMap fun bit =>
      let raw := unpackU16 romBytes (cellOffset tableAddr word bit)
      if raw = 0 then none else some (dtcEntry word bit raw)

def setterInfo (cs : DtcCallSite) : DTCSetterInfo where
  callSiteAddr := cs.callSite
  callerAddr := cs.callerAddr
  callerName := cs.callerName
  isSet := cs.isSet

/-- The key of the cell that a call is about. -/
def cellOf (cs : DtcCallSite) : Option (Nat × Nat) := do
  let mask ← cs.mask
  let idx ← cs.idx
  let bit ← maskToBit mask
  return (idx, bit)

/-- The call goes to the entry with its key, if there is one. -/
def addSetter (entries : List DTCEntry) (cs : DtcCallSite) : List DTCEntry :=
  match cellOf cs with
  | none => entries
  | some key => entries.map fun e =>
    if (e.word, e.bit) = key then { e with setters := e.setters ++ [setterInfo cs] } else e

/-- On what the PID trace and the references of the project say. -/
def runObdAnalysis (romBytes : Bytes) (dtcTableAddr : Nat) (pidRaw : List PidTrace)
    (referencesTo : Nat → List CallRef) (setAddr resetAddr : Option Nat) : OBDAnalysis where
  pidEntries := pidRaw.map pidEntryOf
  dtcEntries :=
    let entries := parseDtcTable romBytes dtcTableAddr
    if setAddr ≠ none ∨ resetAddr ≠ none then
      (fetchDtcCallSites referencesTo setAddr resetAddr).foldl addSetter entries
    else entries

/-! ### Codes -/

/-- Every nibble is a decimal digit. -/
def IsBcd (raw : Nat) : Prop :=
  raw / 0x1000 % 16 ≤ 9 ∧ raw / 0x100 % 16 ≤ 9 ∧ raw / 0x10 % 16 ≤ 9 ∧ raw % 16 ≤ 9

instance (raw : Nat) : Decidable (IsBcd raw) := inferInstanceAs (Decidable (_ ∧ _))

theorem bcdToInt_eq (raw : Nat) :
    bcdToInt raw = raw / 0x1000 % 16 * 1000 + raw / 0x100 % 16 * 100 + raw / 0x10 % 16 * 10 +
      raw % 16 := by
  have hmask : ∀ n, n &&& 0xF = n % 16 := fun n => Nat.and_two_pow_sub_one_eq_mod n 4
  simp only [bcdToInt, hmask, Nat.shiftRight_eq_div_pow, Nat.reducePow]

theorem isDigit_digitChar_iff {d : Nat} (hd : d < 16) :
    (Nat.digitChar d).isDigit = true ↔ d ≤ 9 := by
  interval_cases d <;> decide

theorem fixedDigits_decimal {a b c d : Nat} (ha : a ≤ 9) (hb : b ≤ 9) (hc : c ≤ 9) (hd : d ≤ 9) :
    fixedDigits 10 4 (a * 1000 + b * 100 + c * 10 + d) =
      [Nat.digitChar a, Nat.digitChar b, Nat.digitChar c, Nat.digitChar d] := by
  have hd' : (a * 1000 + b * 100 + c * 10 + d) % 10 = d := by omega
  have hc' : (a * 1000 + b * 100 + c * 10 + d) / 10 % 10 = c := by omega
  have hb' : (a * 1000 + b * 100 + c * 10 + d) / 10 / 10 % 10 = b := by omega
  have ha' : (a * 1000 + b * 100 + c * 10 + d) / 10 / 10 / 10 % 10 = a := by omega
  simp only [fixedDigits, hd', hc', hb', ha', List.nil_append, List.cons_append]

theorem fixedDigits_hex (raw : Nat) :
    fixedDigits 16 4 raw = [Nat.digitChar (raw / 0x1000 % 16), Nat.digitChar (raw / 0x100 % 16),
      Nat.digitChar (raw / 0x10 % 16), Nat.digitChar (raw % 16)] := by
  simp only [fixedDigits, List.nil_append, List.cons_append, Nat.div_div_eq_div_mul,
    Nat.reduceMul]

/-- The text of a code spells the cell in hexadecimal just when the cell holds decimal
digits. -/
theorem pCodeText_eq_iff (raw : Nat) :
    pCodeText (bcdToInt raw) = "P" ++ String.ofList (fixedDigits 16 4 raw) ↔ IsBcd raw := by
  rw [pCodeText, String.append_right_inj, String.ofList_inj]
  constructor
  · intro h
    have hdigits : ∀ c ∈ fixedDigits 16 4 raw, c.isDigit = true := by
      intro c hc
      rw [← h, List.leftpad, List.mem_append] at hc
      rcases hc with hc | hc
      · rw [(List.mem_replicate.mp hc).2]
        decide
      · exact Nat.isDigit_of_mem_toDigits (by decide) (by decide) hc
    rw [fixedDigits_hex] at hdigits
    have hlt : ∀ n, n % 16 < 16 := fun n => Nat.mod_lt n (by decide)
    simp only [List.forall_mem_cons, isDigit_digitChar_iff (hlt _)] at hdigits
    exact ⟨hdigits.1, hdigits.2.1, hdigits.2.2.1, hdigits.2.2.2.1⟩
  · intro h
    obtain ⟨h₁, h₂, h₃, h₄⟩ := h
    have hsmall : bcdToInt raw < 10 ^ 4 := by
      rw [bcdToInt_eq]
      omega
    rw [leftpad_toDigits (by decide) (by decide) hsmall, bcdToInt_eq,
      fixedDigits_decimal h₁ h₂ h₃ h₄, fixedDigits_hex]

/-! ### Cells -/

theorem maskToBit_eq_some_iff {mask bit : Nat} : maskToBit mask = some bit ↔ mask = 2 ^ bit := by
  unfold maskToBit
  by_cases hzero : mask = 0
  · have hpow : (2 : Nat) ^ bit ≠ 0 := pow_ne_zero _ (by decide)
    rw [if_pos (Or.inl hzero), hzero]
    constructor
    · intro h
      cases h
    · intro h
      exact absurd h.symm hpow
  · have hiff := Nat.and_sub_one_eq_zero_iff_isPowerOfTwo hzero
    by_cases hand : mask &&& (mask - 1) = 0
    · rw [if_neg fun h => h.elim hzero fun h => h hand, Option.some.injEq]
      obtain ⟨k, rfl⟩ := hiff.mp hand
      rw [Nat.log2_two_pow]
      exact ⟨fun h => h ▸ rfl, fun h => Nat.pow_right_injective (le_refl 2) h⟩
    · rw [if_pos (Or.inr hand)]
      constructor
      · intro h
        cases h
      · intro h
        exact absurd (hiff.mpr ⟨bit, h⟩) hand

theorem cellOf_eq_some_iff {cs : DtcCallSite} {word bit : Nat} :
    cellOf cs = some (word, bit) ↔ cs.mask = some (2 ^ bit) ∧ cs.idx = some word := by
  simp only [cellOf, Option.bind_eq_bind, Option.bind_eq_some_iff, Option.pure_def,
    Option.some.injEq, Prod.mk.injEq, maskToBit_eq_some_iff]
  constructor
  · rintro ⟨mask, hmask, idx, hidx, place, rfl, rfl, rfl⟩
    exact ⟨hmask, hidx⟩
  · rintro ⟨hmask, hidx⟩
    exact ⟨_, hmask, word, hidx, bit, rfl, rfl, rfl⟩

/-- The calls of a cell go to its entry, in their order, and nothing else changes. -/
theorem foldl_addSetter (sites : List DtcCallSite) (entries : List DTCEntry) :
    sites.foldl addSetter entries = entries.map fun e =>
      { e with setters := e.setters ++
          (sites.filter fun cs => cellOf cs = some (e.word, e.bit)).map setterInfo } := by
  induction sites generalizing entries with
  | nil => simp
  | cons cs sites ih =>
    rw [List.foldl_cons, ih]
    unfold addSetter
    cases hcell : cellOf cs with
    | none => simp [hcell]
    | some key =>
      rw [List.map_map]
      apply List.map_congr_left
      intro e _
      by_cases hkey : (e.word, e.bit) = key
      · simp [hcell, hkey]
      · have hne : ¬key = (e.word, e.bit) := fun h => hkey h.symm
        simp [hcell, hkey, hne]

/-- The cell lies in the ROM and says something. -/
def IsCell (romBytes : Bytes) (tableAddr word bit raw : Nat) : Prop :=
  word < 17 ∧ bit < 16 ∧ cellOffset tableAddr word bit + 2 ≤ romBytes.length ∧
    unpackU16 romBytes (cellOffset tableAddr word bit) = raw ∧ raw ≠ 0

theorem mem_parseDtcTable {romBytes : Bytes} {tableAddr : Nat} {e : DTCEntry} :
    e ∈ parseDtcTable romBytes tableAddr ↔
      ∃ word bit raw, IsCell romBytes tableAddr word bit raw ∧ e = dtcEntry word bit raw := by
  have hcut : ∀ word, (List.range 16).Pairwise fun bit bit' =>
      (decide (cellOffset tableAddr word bit' + 2 ≤ romBytes.length)) = true →
        (decide (cellOffset tableAddr word bit + 2 ≤ romBytes.length)) = true := by
    intro word
    apply List.pairwise_lt_range.imp
    intro bit bit' hlt hinside
    rw [decide_eq_true_iff] at hinside ⊢
    unfold cellOffset at hinside ⊢
    omega
  unfold parseDtcTable
  simp only [List.mem_flatMap, List.mem_filterMap, List.mem_range, mem_takeWhile_iff (hcut _),
    decide_eq_true_iff, Option.ite_none_left_eq_some, Option.some.injEq]
  constructor
  · rintro ⟨word, hword, bit, ⟨hbit, hinside⟩, hraw, rfl⟩
    exact ⟨word, bit, _, ⟨hword, hbit, hinside, rfl, hraw⟩, rfl⟩
  · rintro ⟨word, bit, raw, ⟨hword, hbit, hinside, rfl, hraw⟩, rfl⟩
    exact ⟨word, hword, bit, ⟨hbit, hinside⟩, hraw, rfl⟩

/-- The place of an entry in the table. -/
def DTCEntry.place (e : DTCEntry) : Nat := e.word * 16 + e.bit

theorem parseDtcTable_pairwise (romBytes : Bytes) (tableAddr : Nat) :
    (parseDtcTable romBytes tableAddr).Pairwise fun e e' => e.place < e'.place := by
  have hentry : ∀ word bit e, (if unpackU16 romBytes (cellOffset tableAddr word bit) = 0 then none
      else some (dtcEntry word bit (unpackU16 romBytes (cellOffset tableAddr word bit)))) = some e →
        e.place = word * 16 + bit := by
    intro word bit e he
    rw [Option.ite_none_left_eq_some] at he
    rw [← Option.some.inj he.2]
    rfl
  unfold parseDtcTable
  apply List.pairwise_flatMap.mpr
  constructor
  · intro word _
    apply List.pairwise_filterMap.mpr
    apply (List.pairwise_lt_range.sublist (List.takeWhile_sublist _)).imp
    intro bit bit' hlt e he e' he'
    rw [hentry word bit e he, hentry word bit' e' he']
    omega
  · apply List.pairwise_lt_range.imp
    intro word word' hlt e he e' he'
    obtain ⟨bit, hbit, he⟩ := List.mem_filterMap.mp he
    obtain ⟨bit', _, he'⟩ := List.mem_filterMap.mp he'
    have hbound := List.mem_range.mp ((List.takeWhile_sublist _).subset hbit)
    rw [hentry word bit e he, hentry word' bit' e' he']
    omega

/-- The calls that set or clear the bit of a cell. -/
def sitesAt (sites : List DtcCallSite) (word bit : Nat) : List DtcCallSite :=
  sites.filter fun cs => cs.mask = some (2 ^ bit) ∧ cs.idx = some word

theorem dtcEntries_eq (romBytes : Bytes) (dtcTableAddr : Nat) (pidRaw : List PidTrace)
    (referencesTo : Nat → List CallRef) (setAddr resetAddr : Option Nat) :
    (runObdAnalysis romBytes dtcTableAddr pidRaw referencesTo setAddr resetAddr).dtcEntries =
      (parseDtcTable romBytes dtcTableAddr).map fun e => { e with
        setters := e.setters ++ (sitesAt (fetchDtcCallSites referencesTo setAddr resetAddr)
          e.word e.bit).map setterInfo } := by
  have hsites : ∀ word bit, (fetchDtcCallSites referencesTo setAddr resetAddr).filter
      (fun cs => cellOf cs = some (word, bit)) =
        sitesAt (fetchDtcCallSites referencesTo setAddr resetAddr) word bit := by
    intro word bit
    unfold sitesAt
    apply List.filter_congr
    intro cs _
    simp only [cellOf_eq_some_iff]
  unfold runObdAnalysis
  by_cases hnone : setAddr ≠ none ∨ resetAddr ≠ none
  · dsimp only
    rw [if_pos hnone, foldl_addSetter]
    simp only [hsites]
  · obtain ⟨rfl, rfl⟩ : setAddr = none ∧ resetAddr = none := by
      simpa [not_or] using hnone
    have hempty : fetchDtcCallSites referencesTo none none = [] := rfl
    simp [hempty, sitesAt]

/-- The entries are those of the cells of the ROM that are not zero, in the order of the table;
at each stand, in their order, just the calls of the two functions whose mask is its one bit
and whose index is its word. The text of a code spells its cell when that holds decimal
digits, and only then. -/
theorem runObdAnalysis_dtcEntries (romBytes : Bytes) (dtcTableAddr : Nat)
    (pidRaw : List PidTrace) (referencesTo : Nat → List CallRef)
    (setAddr resetAddr : Option Nat) :
    (∀ e, e ∈ (runObdAnalysis romBytes dtcTableAddr pidRaw referencesTo setAddr
        resetAddr).dtcEntries ↔
      ∃ word bit raw, IsCell romBytes dtcTableAddr word bit raw ∧ e = { dtcEntry word bit raw with
        setters := (sitesAt (fetchDtcCallSites referencesTo setAddr resetAddr) word bit).map
          setterInfo }) ∧
    ((runObdAnalysis romBytes dtcTableAddr pidRaw referencesTo setAddr
      resetAddr).dtcEntries.Pairwise fun e e' => e.place < e'.place) ∧
    ∀ word bit raw, (dtcEntry word bit raw).pCodeStr =
      "P" ++ String.ofList (fixedDigits 16 4 raw) ↔ IsBcd raw := by
  rw [dtcEntries_eq]
  refine ⟨?_, ?_, fun _ _ raw => pCodeText_eq_iff raw⟩
  · intro e
    simp only [List.mem_map, mem_parseDtcTable]
    constructor
    · rintro ⟨_, ⟨word, bit, raw, hcell, rfl⟩, rfl⟩
      exact ⟨word, bit, raw, hcell, rfl⟩
    · rintro ⟨word, bit, raw, hcell, rfl⟩
      exact ⟨_, ⟨word, bit, raw, hcell, rfl⟩, rfl⟩
  · apply List.pairwise_map.mpr
    exact parseDtcTable_pairwise romBytes dtcTableAddr

end RomAnalyzer.ObdAnalysis
