import RomAnalyzer.Types
import RomAnalyzer.Lib.Dict

/-!
# OBD PIDs

The PID handlers are traced in the open project. Each traced RAM address gets the
standard name of its PID, where there is one.
-/
namespace RomAnalyzer.ObdAnalysis

open Lib

/-- Names by mode and PID. -/
def stdPids : Dict (Nat × Nat) String := Dict.ofList [
  ((1, 0x00), "supported_pids_01_20"), ((1, 0x01), "dtc_count_and_mil_status"),
  ((1, 0x02), "freeze_frame_dtc"), ((1, 0x03), "fuel_system_status"),
  ((1, 0x04), "calculated_engine_load"), ((1, 0x05), "coolant_temp_c"),
  ((1, 0x06), "stft_bank1"), ((1, 0x07), "ltft_bank1"), ((1, 0x08), "stft_bank2"),
  ((1, 0x09), "ltft_bank2"), ((1, 0x0A), "fuel_pressure_kpa"), ((1, 0x0B), "map_pressure_kpa"),
  ((1, 0x0C), "engine_rpm"), ((1, 0x0D), "vehicle_speed_kmh"),
  ((1, 0x0E), "ignition_timing_advance_deg"), ((1, 0x0F), "intake_air_temp_c"),
  ((1, 0x10), "maf_air_flow_rate_g_s"), ((1, 0x11), "throttle_position_pct"),
  ((1, 0x12), "commanded_secondary_air_status"), ((1, 0x13), "oxygen_sensors_present_2banks"),
  ((1, 0x14), "o2_b1s1_voltage"), ((1, 0x15), "o2_b1s2_voltage"),
  ((1, 0x16), "o2_b1s3_voltage"), ((1, 0x17), "o2_b1s4_voltage"),
  ((1, 0x18), "o2_b2s1_voltage"), ((1, 0x19), "o2_b2s2_voltage"),
  ((1, 0x1A), "o2_b2s3_voltage"), ((1, 0x1B), "o2_b2s4_voltage"),
  ((1, 0x1C), "obd_standards_compliance"), ((1, 0x1D), "oxygen_sensors_present_4banks"),
  ((1, 0x1E), "aux_input_status"), ((1, 0x1F), "runtime_since_engine_start_s"),
  ((1, 0x20), "supported_pids_21_40"), ((1, 0x21), "distance_with_mil_on_km"),
  ((1, 0x22), "fuel_rail_pressure_kpa"), ((1, 0x23), "fuel_rail_gauge_pressure_kpa"),
  ((1, 0x24), "o2_b1s1_equiv_ratio_voltage"), ((1, 0x25), "o2_b1s2_equiv_ratio_voltage"),
  ((1, 0x2C), "commanded_egr_pct"), ((1, 0x2D), "egr_error_pct"),
  ((1, 0x2E), "commanded_evap_purge_pct"), ((1, 0x2F), "fuel_tank_level_pct"),
  ((1, 0x30), "warmups_since_dtcs_cleared"), ((1, 0x31), "distance_since_dtcs_cleared_km"),
  ((1, 0x32), "evap_sys_vapor_pressure_pa"), ((1, 0x33), "abs_barometric_pressure_kpa"),
  ((1, 0x42), "control_module_voltage_v"), ((1, 0x43), "absolute_load_pct"),
  ((1, 0x44), "commanded_equiv_ratio"), ((1, 0x45), "relative_throttle_pos_pct"),
  ((1, 0x46), "ambient_air_temp_c"), ((1, 0x47), "abs_throttle_pos_b_pct"),
  ((1, 0x49), "accelerator_pedal_pos_d_pct"), ((1, 0x4A), "accelerator_pedal_pos_e_pct"),
  ((1, 0x4C), "commanded_throttle_actuator_pct"), ((2, 0x02), "freeze_frame_dtc")]

/-- One RAM address that a PID handler reads. -/
structure PidTrace where
  mode : Nat
  pid : Nat
  ramAddr : Nat
  ramSize : Nat
  confidence : String
  deriving DecidableEq, Repr

structure OBDPidEntry where
  mode : Nat
  pid : Nat
  ramAddr : Nat
  ramSize : Nat
  stdName : Option String
  confidence : String
  deriving DecidableEq, Repr

def pidEntryOf (r : PidTrace) : OBDPidEntry where
  mode := r.mode
  pid := r.pid
  ramAddr := r.ramAddr
  ramSize := r.ramSize
  stdName := stdPids.get? (r.mode, r.pid)
  confidence := r.confidence

end RomAnalyzer.ObdAnalysis
