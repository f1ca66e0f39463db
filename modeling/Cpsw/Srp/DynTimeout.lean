import Cpsw.Lib.Run
import Cpsw.Timeout

namespace Cpsw.Srp

open Relation

structure DynTimeout where
  maxRndTrip : CTimeout
  avgRndTrip : UInt64
  lastUpdate : CTimeout
  dynTimeout : CTimeout
  nSinceLast : UInt32
  timeoutCap : UInt64
  deriving DecidableEq

namespace DynTimeout

def AVG_SHFT : UInt64 := 6

def MARG_SHFT : UInt64 := 2

def CAP_US : UInt64 := 5000

/-- `clock` is the time that `clock_gettime` reads. -/
def setLastUpdate (clock : CTimeout) (d : DynTimeout) : DynTimeout :=
  let new_timeout := d.avgRndTrip >>> (AVG_SHFT - MARG_SHFT)
  let new_timeout := if new_timeout < d.timeoutCap then d.timeoutCap else new_timeout
  { d with lastUpdate := clock, dynTimeout := .set new_timeout, nSinceLast := 0 }

def reset (iniv clock : CTimeout) (d : DynTimeout) : DynTimeout :=
  setLastUpdate clock { d with
    maxRndTrip := .set 0
    avgRndTrip := iniv.getUs <<< (AVG_SHFT - MARG_SHFT) }

def relax (clock : CTimeout) (d : DynTimeout) : DynTimeout :=
  setLastUpdate clock { d with
    avgRndTrip := d.avgRndTrip + ((d.dynTimeout.getUs <<< 1) - (d.avgRndTrip >>> AVG_SHFT)) }

def update (now before clock : CTimeout) (d : DynTimeout) : DynTimeout :=
  let diff := now - before
  setLastUpdate clock { d with
    maxRndTrip := if d.maxRndTrip.lt diff then diff else d.maxRndTrip
    avgRndTrip := d.avgRndTrip + (diff.getUs - (d.avgRndTrip >>> AVG_SHFT)) }

def setTimeoutCap (cap : UInt64) (d : DynTimeout) : DynTimeout :=
  { d with
    timeoutCap := cap
    dynTimeout := if d.dynTimeout.getUs < cap then .set cap else d.dynTimeout }

/-- The constructor; `raw` is what the members hold before. -/
def new (raw : DynTimeout) (iniv clock : CTimeout) : DynTimeout :=
  reset iniv clock { raw with timeoutCap := CAP_US }

/-- The time-out in microseconds. -/
def timeoutUs (d : DynTimeout) : ℕ := d.dynTimeout.getUs.toNat

/-- The microseconds between two points in time. -/
def elapsed (now before : CTimeout) : ℕ := ((now.total - before.total) / 1000).toNat

/-- The arguments of a call of `update` for which no sum overflows. -/
structure Sample (d : DynTimeout) (now before : CTimeout) : Prop where
  now_normalised : now.Normalised
  before_normalised : before.Normalised
  le : before.total ≤ now.total
  lt : d.avgRndTrip.toNat - d.avgRndTrip.toNat / 64 + elapsed now before < 2 ^ 64

/-- No sum of `relax` overflows. -/
def Relaxable (d : DynTimeout) : Prop :=
  d.avgRndTrip.toNat - d.avgRndTrip.toNat / 64 + 2 * d.timeoutUs < 2 ^ 64

inductive Step (d : DynTimeout) : DynTimeout → Prop
  | update (now before clock : CTimeout) (hs : Sample d now before) :
    Step d (d.update now before clock)
  | relax (clock : CTimeout) (hr : Relaxable d) : Step d (d.relax clock)
  | reset (iniv clock : CTimeout) : Step d (d.reset iniv clock)
  /-- The cap is raised when there is an RSSI. -/
  | setTimeoutCap (cap : UInt64) (hc : d.timeoutCap ≤ cap) : Step d (d.setTimeoutCap cap)

def Reachable (d : DynTimeout) : Prop :=
  ∃ raw iniv clock, ReflTransGen Step (new raw iniv clock) d

/-- An update by a sample of at most `M` microseconds. -/
def UpdateBy (M : ℕ) (d d' : DynTimeout) : Prop :=
  ∃ now before clock, Sample d now before ∧ elapsed now before ≤ M ∧ d' = d.update now before clock

variable {d d' : DynTimeout} {now before clock iniv : CTimeout} {M : ℕ}

/-- Where the time-out is set from the average: it is never stale. -/
def Settled (d : DynTimeout) : Prop :=
  d.timeoutUs = max (d.avgRndTrip.toNat / 16) d.timeoutCap.toNat

/-- One step of the filter, in whole numbers. -/
theorem toNat_filter {avg x : UInt64} (h : avg.toNat - avg.toNat / 64 + x.toNat < 2 ^ 64) :
    ((avg + (x - (avg >>> AVG_SHFT))).toNat : ℤ) = avg.toNat - avg.toNat / 64 + x.toNat := by
  have ha := avg.toNat_lt
  have hx := x.toNat_lt
  have hs : (avg >>> AVG_SHFT).toNat = avg.toNat / 64 := by
    rw [UInt64.toNat_shiftRight, Nat.shiftRight_eq_div_pow]
    rfl
  rw [UInt64.toNat_add, UInt64.toNat_sub, hs]
  omega

@[simp] theorem setLastUpdate_avgRndTrip : (d.setLastUpdate clock).avgRndTrip = d.avgRndTrip := rfl

@[simp] theorem setLastUpdate_timeoutCap : (d.setLastUpdate clock).timeoutCap = d.timeoutCap := rfl

theorem update_avgRndTrip_eq : (d.update now before clock).avgRndTrip =
    d.avgRndTrip + ((now - before).getUs - (d.avgRndTrip >>> AVG_SHFT)) := rfl

theorem relax_avgRndTrip_eq : (d.relax clock).avgRndTrip =
    d.avgRndTrip + ((d.dynTimeout.getUs <<< 1) - (d.avgRndTrip >>> AVG_SHFT)) := rfl

theorem settled_setLastUpdate (clock : CTimeout) (d : DynTimeout) :
    Settled (d.setLastUpdate clock) := by
  have hs : (d.avgRndTrip >>> (AVG_SHFT - MARG_SHFT)).toNat = d.avgRndTrip.toNat / 16 := by
    rw [UInt64.toNat_shiftRight, Nat.shiftRight_eq_div_pow]
    rfl
  unfold Settled timeoutUs
  rw [setLastUpdate_avgRndTrip, setLastUpdate_timeoutCap, ← hs]
  simp only [setLastUpdate, CTimeout.getUs_set]
  split
  case isTrue h =>
    have hlt := UInt64.lt_iff_toNat_lt.1 h
    omega
  case isFalse h =>
    have hle := UInt64.le_iff_toNat_le.1 (UInt64.not_lt.1 h)
    omega

/-- The time that has gone by between two readings of the clock. -/
theorem Sample.getUs (hs : Sample d now before) : (now - before).getUs.toNat = elapsed now before := by
  have hn : (now - before).Normalised :=
    (CTimeout.sub_normalised_iff hs.now_normalised hs.before_normalised).2 hs.le
  have ht : (now - before).total = now.total - before.total := by
    obtain ⟨hsec, hnsec⟩ := hs.now_normalised.sub_eq hs.before_normalised
    unfold CTimeout.total
    rw [hsec, hnsec]
    omega
  have hlt := hs.lt
  have hle := hs.le
  unfold elapsed at hlt ⊢
  have hus := hn.getUs_toNat (by omega)
  omega

theorem Sample.update_avgRndTrip (hs : Sample d now before) :
    ((d.update now before clock).avgRndTrip.toNat : ℤ) =
      d.avgRndTrip.toNat - d.avgRndTrip.toNat / 64 + elapsed now before := by
  have hlt := hs.lt
  rw [← hs.getUs] at hlt ⊢
  rw [update_avgRndTrip_eq]
  exact toNat_filter hlt

theorem Relaxable.relax_avgRndTrip (hr : Relaxable d) :
    ((d.relax clock).avgRndTrip.toNat : ℤ) =
      d.avgRndTrip.toNat - d.avgRndTrip.toNat / 64 + 2 * d.timeoutUs := by
  unfold Relaxable at hr
  have hd : (d.dynTimeout.getUs <<< 1).toNat = 2 * d.timeoutUs := by
    rw [UInt64.toNat_shiftLeft, Nat.shiftLeft_eq]
    change d.timeoutUs * 2 % 2 ^ 64 = _
    omega
  rw [← hd] at hr
  have hf := toNat_filter hr
  rw [hd] at hf
  rw [relax_avgRndTrip_eq, hf]
  rfl

@[simp] theorem relax_timeoutCap : (d.relax clock).timeoutCap = d.timeoutCap := by
  cases d with
  | mk _ _ _ _ _ cap => exact (rfl : cap = cap)

@[simp] theorem update_timeoutCap : (d.update now before clock).timeoutCap = d.timeoutCap := by
  cases d with
  | mk _ _ _ _ _ cap => exact (rfl : cap = cap)

theorem setTimeoutCap_avgRndTrip (cap : UInt64) :
    (d.setTimeoutCap cap).avgRndTrip = d.avgRndTrip := by
  cases d with
  | mk _ avg _ _ _ _ => exact (rfl : avg = avg)

theorem setTimeoutCap_timeoutUs (cap : UInt64) :
    (d.setTimeoutCap cap).timeoutUs = max d.timeoutUs cap.toNat := by
  by_cases h : d.dynTimeout.getUs < cap
  · have hlt := UInt64.lt_iff_toNat_lt.1 h
    have hset : (d.setTimeoutCap cap).dynTimeout = .set cap := if_pos h
    rw [timeoutUs, hset, CTimeout.getUs_set]
    exact (Nat.max_eq_right (Nat.le_of_lt hlt)).symm
  · have hge := UInt64.le_iff_toNat_le.1 (UInt64.not_lt.1 h)
    have hset : (d.setTimeoutCap cap).dynTimeout = d.dynTimeout := if_neg h
    rw [timeoutUs, hset]
    exact (Nat.max_eq_left hge).symm

theorem Settled.step (hd : Settled d) (hs : Step d d') : Settled d' := by
  cases hs with
  | update now before clock hs => exact settled_setLastUpdate _ _
  | relax clock hr => exact settled_setLastUpdate _ _
  | reset iniv clock => exact settled_setLastUpdate _ _
  | setTimeoutCap cap hc =>
    have hle := UInt64.le_iff_toNat_le.1 hc
    have hcap : (d.setTimeoutCap cap).timeoutCap = cap := rfl
    unfold Settled at hd ⊢
    rw [setTimeoutCap_timeoutUs, setTimeoutCap_avgRndTrip, hcap, hd, Nat.max_assoc,
      Nat.max_eq_right hle]

theorem Reachable.settled (h : Reachable d) : Settled d := by
  obtain ⟨raw, iniv, clock, hr⟩ := h
  exact Lib.Run.invariant (fun _ _ hd hs ↦ hd.step hs) hr (settled_setLastUpdate _ _)

/-- The average stays below 64 times a bound of the samples. -/
theorem UpdateBy.le (h : UpdateBy M d d') (hd : d.avgRndTrip.toNat ≤ 64 * M + 63) :
    d'.avgRndTrip.toNat ≤ 64 * M + 63 := by
  obtain ⟨now, before, clock, hs, hM, rfl⟩ := h
  have hf := @Sample.update_avgRndTrip _ _ _ clock hs
  omega

theorem UpdateBy.step (h : UpdateBy M d d') : Step d d' ∧ d'.timeoutCap = d.timeoutCap := by
  obtain ⟨now, before, clock, hs, -, rfl⟩ := h
  exact ⟨.update now before clock hs, update_timeoutCap⟩

theorem updates_le (h : ReflTransGen (UpdateBy M) d d') (hd : Settled d)
    (hM : d.avgRndTrip.toNat ≤ 64 * M + 63) :
    d'.avgRndTrip.toNat ≤ 64 * M + 63 ∧ Settled d' ∧ d'.timeoutCap = d.timeoutCap := by
  induction h with
  | refl => exact ⟨hM, hd, rfl⟩
  | tail _ hu ih =>
    obtain ⟨hle, hset, hcap⟩ := ih
    obtain ⟨hstep, hcap'⟩ := hu.step
    exact ⟨hu.le hle, hset.step hstep, hcap'.trans hcap⟩

/-- What holds of a dynamic time-out between two calls. -/
structure Sound (d : DynTimeout) : Prop where
  /-- The average is what it is in whole numbers: it does not wrap around. -/
  update_avg : ∀ now before clock, Sample d now before →
    ((d.update now before clock).avgRndTrip.toNat : ℤ) =
      d.avgRndTrip.toNat - d.avgRndTrip.toNat / 64 + elapsed now before
  relax_avg : ∀ clock, Relaxable d → ((d.relax clock).avgRndTrip.toNat : ℤ) =
    d.avgRndTrip.toNat - d.avgRndTrip.toNat / 64 + 2 * d.timeoutUs
  cap_le : d.timeoutCap.toNat ≤ d.timeoutUs
  relax_le : ∀ clock, Relaxable d → d.timeoutUs ≤ (d.relax clock).timeoutUs
  updates_le : ∀ M d', d.avgRndTrip.toNat ≤ 64 * M + 63 → ReflTransGen (UpdateBy M) d d' →
    d'.avgRndTrip.toNat ≤ 64 * M + 63 ∧ d'.timeoutUs ≤ max d.timeoutCap.toNat (4 * M + 3)

theorem dynTimeout_sound (h : Reachable d) : Sound d where
  update_avg _ _ _ hs := hs.update_avgRndTrip
  relax_avg _ hr := hr.relax_avgRndTrip
  cap_le := by
    have hd := h.settled
    unfold Settled at hd
    omega
  relax_le clock hr := by
    have hd := h.settled
    have hd' := settled_setLastUpdate clock { d with
      avgRndTrip := d.avgRndTrip + ((d.dynTimeout.getUs <<< 1) - (d.avgRndTrip >>> AVG_SHFT)) }
    change Settled (d.relax clock) at hd'
    have hf := @Relaxable.relax_avgRndTrip _ clock hr
    unfold Settled at hd hd'
    rw [relax_timeoutCap] at hd'
    omega
  updates_le M d' hM hu := by
    obtain ⟨hle, hd', hcap⟩ := DynTimeout.updates_le hu h.settled hM
    unfold Settled at hd'
    rw [hcap] at hd'
    exact ⟨hle, by omega⟩

theorem dynTimeout_sound_new :
    Sound (new ⟨.set 0, 0, .set 0, .set 0, 0, 0⟩ (.set 20000) (.set 0)) :=
  dynTimeout_sound ⟨_, _, _, .refl⟩

end DynTimeout

end Cpsw.Srp
