import Mathlib

namespace Cpsw

/-- `CTimeout`, by the members of its `tv_`; a signed sum that overflows wraps around. -/
structure CTimeout where
  tv_sec : Int64
  tv_nsec : Int64
  deriving DecidableEq

namespace CTimeout

def INDEFINITE_S : Int64 := -1

def TIMEOUT_INDEFINITE : CTimeout := ⟨INDEFINITE_S, 0⟩

/-- `CTimeout(uint64_t)` and `set(uint64_t)` -/
def set (timeout_us : UInt64) : CTimeout :=
  if timeout_us < 1000000 then ⟨0, (timeout_us * 1000).toInt64⟩
  else ⟨(timeout_us / 1000000).toInt64, (timeout_us % 1000000 * 1000).toInt64⟩

def getUs (t : CTimeout) : UInt64 := t.tv_sec.toUInt64 * 1000000 + t.tv_nsec.toUInt64 / 1000

def isIndefinite (t : CTimeout) : Bool := t.tv_sec == INDEFINITE_S

/-- `operator +=` -/
def add (t rhs : CTimeout) : CTimeout :=
  if t.isIndefinite then t
  else if rhs.isIndefinite then rhs
  else if t.tv_nsec + rhs.tv_nsec ≥ 1000000000 then
    ⟨t.tv_sec + rhs.tv_sec + 1, t.tv_nsec + rhs.tv_nsec - 1000000000⟩
  else ⟨t.tv_sec + rhs.tv_sec, t.tv_nsec + rhs.tv_nsec⟩

/-- `operator -=` -/
def sub (t rhs : CTimeout) : CTimeout :=
  if t.isIndefinite then t
  else if rhs.isIndefinite then rhs
  else if t.tv_nsec < rhs.tv_nsec then
    ⟨t.tv_sec - rhs.tv_sec - 1, t.tv_nsec + 1000000000 - rhs.tv_nsec⟩
  else ⟨t.tv_sec - rhs.tv_sec, t.tv_nsec - rhs.tv_nsec⟩

instance : Add CTimeout := ⟨add⟩

instance : Sub CTimeout := ⟨sub⟩

/-- `operator <` -/
def lt (lhs rhs : CTimeout) : Bool :=
  lhs.tv_sec < rhs.tv_sec || (lhs.tv_sec == rhs.tv_sec && lhs.tv_nsec < rhs.tv_nsec)

/-- A finite time-out that is not negative. -/
structure Normalised (t : CTimeout) : Prop where
  sec : 0 ≤ t.tv_sec.toInt
  nsec : 0 ≤ t.tv_nsec.toInt
  nsec_lt : t.tv_nsec.toInt < 10 ^ 9

/-- The nanoseconds altogether. -/
def total (t : CTimeout) : ℤ := t.tv_sec.toInt * 10 ^ 9 + t.tv_nsec.toInt

variable {a b t : CTimeout} {x : ℤ} {us : UInt64}

theorem ext_toInt (hs : a.tv_sec.toInt = b.tv_sec.toInt) (hn : a.tv_nsec.toInt = b.tv_nsec.toInt) :
    a = b := by
  cases a
  cases b
  congr
  · exact Int64.toInt_inj.1 hs
  · exact Int64.toInt_inj.1 hn

theorem isIndefinite_iff : t.isIndefinite = true ↔ t.tv_sec.toInt = -1 := by
  rw [isIndefinite, beq_iff_eq, ← Int64.toInt_inj]
  exact Iff.rfl

theorem Normalised.finite (h : t.Normalised) : t.isIndefinite = false := by
  apply Bool.eq_false_iff.2
  intro hi
  have hs := isIndefinite_iff.1 hi
  have := h.sec
  omega

theorem bmod_of_lt (h₁ : -2 ^ 63 ≤ x) (h₂ : x < 2 ^ 63) : x.bmod (2 ^ 64) = x :=
  Int.bmod_eq_of_le h₁ h₂

theorem bmod_of_ge (h₁ : 2 ^ 63 ≤ x) (h₂ : x < 2 ^ 64 + 2 ^ 63) : x.bmod (2 ^ 64) = x - 2 ^ 64 := by
  rw [Int.bmod_def]
  split <;> omega

theorem toInt_billion : (1000000000 : Int64).toInt = 10 ^ 9 := by decide

/-- The seconds that a sum carries. -/
def carry (a b : CTimeout) : ℤ := if 10 ^ 9 ≤ a.tv_nsec.toInt + b.tv_nsec.toInt then 1 else 0

/-- The seconds that a difference borrows. -/
def borrow (a b : CTimeout) : ℤ := if a.tv_nsec.toInt < b.tv_nsec.toInt then 1 else 0

theorem add_eq (ha : a.Normalised) (hb : b.Normalised) :
    (a + b).tv_sec.toInt = (a.tv_sec.toInt + b.tv_sec.toInt + carry a b).bmod (2 ^ 64) ∧
      (a + b).tv_nsec.toInt = a.tv_nsec.toInt + b.tv_nsec.toInt - 10 ^ 9 * carry a b := by
  have ⟨_, hna, hna'⟩ := ha
  have ⟨_, hnb, hnb'⟩ := hb
  have hn : (a.tv_nsec + b.tv_nsec).toInt = a.tv_nsec.toInt + b.tv_nsec.toInt := by
    rw [Int64.toInt_add, bmod_of_lt] <;> omega
  change (add a b).tv_sec.toInt = _ ∧ (add a b).tv_nsec.toInt = _
  simp only [add, ha.finite, hb.finite, Bool.false_eq_true, if_false, ge_iff_le,
    Int64.le_iff_toInt_le, hn, toInt_billion, carry]
  split
  · refine ⟨?_, ?_⟩
    · rw [Int64.toInt_add, Int64.toInt_add, Int.bmod_add_bmod]
      rfl
    · rw [Int64.toInt_sub, hn, toInt_billion, bmod_of_lt] <;> omega
  · refine ⟨?_, ?_⟩
    · rw [Int64.toInt_add, Int.add_zero]
    · rw [hn]
      omega

theorem sub_eq (ht : t.isIndefinite = false) (hn : 0 ≤ t.tv_nsec.toInt)
    (hn' : t.tv_nsec.toInt < 10 ^ 9) (hb : b.Normalised) :
    (t - b).tv_sec.toInt = (t.tv_sec.toInt - b.tv_sec.toInt - borrow t b).bmod (2 ^ 64) ∧
      (t - b).tv_nsec.toInt = t.tv_nsec.toInt - b.tv_nsec.toInt + 10 ^ 9 * borrow t b := by
  have hnb := hb.nsec
  have hnb' := hb.nsec_lt
  change (sub t b).tv_sec.toInt = _ ∧ (sub t b).tv_nsec.toInt = _
  simp only [sub, ht, hb.finite, Bool.false_eq_true, if_false, Int64.lt_iff_toInt_lt, borrow]
  split
  · refine ⟨?_, ?_⟩
    · rw [Int64.toInt_sub, Int64.toInt_sub, Int.bmod_sub_bmod]
      rfl
    · rw [Int64.toInt_sub, Int64.toInt_add, toInt_billion, Int.bmod_sub_bmod, bmod_of_lt] <;> omega
  · refine ⟨?_, ?_⟩
    · rw [Int64.toInt_sub, Int.sub_zero]
    · rw [Int64.toInt_sub, bmod_of_lt] <;> omega

/-- The seconds of a difference never overflow. -/
theorem Normalised.sub_eq (ha : a.Normalised) (hb : b.Normalised) :
    (a - b).tv_sec.toInt = a.tv_sec.toInt - b.tv_sec.toInt - borrow a b ∧
      (a - b).tv_nsec.toInt = a.tv_nsec.toInt - b.tv_nsec.toInt + 10 ^ 9 * borrow a b := by
  have hs := CTimeout.sub_eq ha.finite ha.nsec ha.nsec_lt hb
  have hsa := ha.sec
  have hsb := hb.sec
  have hsa' := a.tv_sec.toInt_lt
  have hsb' := b.tv_sec.toInt_lt
  rw [bmod_of_lt] at hs
  · exact hs
  · unfold borrow
    split <;> omega
  · unfold borrow
    split <;> omega

theorem lt_iff_total (ha : a.Normalised) (hb : b.Normalised) :
    a.lt b = true ↔ a.total < b.total := by
  have ⟨_, hna, hna'⟩ := ha
  have ⟨_, hnb, hnb'⟩ := hb
  simp only [lt, Bool.or_eq_true, Bool.and_eq_true, decide_eq_true_eq, beq_iff_eq,
    Int64.lt_iff_toInt_lt, ← Int64.toInt_inj, total]
  omega

theorem not_lt_indefinite (ha : a.Normalised) : a.lt TIMEOUT_INDEFINITE = false := by
  have hsa := ha.sec
  have hs : TIMEOUT_INDEFINITE.tv_sec.toInt = -1 := rfl
  apply Bool.eq_false_iff.2
  intro h
  simp only [lt, Bool.or_eq_true, Bool.and_eq_true, decide_eq_true_eq, beq_iff_eq,
    Int64.lt_iff_toInt_lt, ← Int64.toInt_inj, hs] at h
  omega

theorem add_normalised_iff (ha : a.Normalised) (hb : b.Normalised) :
    (a + b).Normalised ↔ a.total + b.total < 2 ^ 63 * 10 ^ 9 := by
  obtain ⟨hs, hn⟩ := add_eq ha hb
  have ⟨hsa, hna, hna'⟩ := ha
  have ⟨hsb, hnb, hnb'⟩ := hb
  have hsa' := a.tv_sec.toInt_lt
  have hsb' := b.tv_sec.toInt_lt
  have hc : carry a b = 1 ∧ 10 ^ 9 ≤ a.tv_nsec.toInt + b.tv_nsec.toInt ∨
      carry a b = 0 ∧ a.tv_nsec.toInt + b.tv_nsec.toInt < 10 ^ 9 := by
    unfold carry
    split <;> omega
  unfold total
  rcases Int.lt_or_le (a.tv_sec.toInt + b.tv_sec.toInt + carry a b) (2 ^ 63) with hlt | hge
  · rw [bmod_of_lt (by omega) hlt] at hs
    refine iff_of_true ⟨?_, ?_, ?_⟩ ?_ <;> omega
  · rw [bmod_of_ge hge (by omega)] at hs
    refine iff_of_false (fun h ↦ ?_) ?_
    · have := h.sec
      omega
    · omega

theorem sub_normalised_iff (ha : a.Normalised) (hb : b.Normalised) :
    (a - b).Normalised ↔ b.total ≤ a.total := by
  obtain ⟨hs, hn⟩ := ha.sub_eq hb
  have ⟨_, hna, hna'⟩ := ha
  have ⟨_, hnb, hnb'⟩ := hb
  unfold borrow at hs hn
  unfold total
  constructor
  · intro h
    have := h.sec
    split at hs <;> omega
  · intro h
    constructor <;> split at hs <;> omega

theorem sub_finite_iff (ha : a.Normalised) (hb : b.Normalised) :
    (a - b).isIndefinite = false ↔ b.total ≤ a.total ∨ a.total + 10 ^ 9 < b.total := by
  obtain ⟨hs, -⟩ := ha.sub_eq hb
  have ⟨_, hna, hna'⟩ := ha
  have ⟨_, hnb, hnb'⟩ := hb
  rw [← not_iff_not, Bool.not_eq_false, isIndefinite_iff, hs]
  unfold borrow total
  split <;> omega

/-- What was added can be subtracted again unless the sum has become the reserved value. -/
theorem add_sub_iff (ha : a.Normalised) (hb : b.Normalised) :
    a + b - b = a ↔ a.total + b.total < (2 ^ 64 - 1) * 10 ^ 9 := by
  obtain ⟨hs, hn⟩ := add_eq ha hb
  have ⟨hsa, hna, hna'⟩ := ha
  have ⟨hsb, hnb, hnb'⟩ := hb
  have hsa' := a.tv_sec.toInt_lt
  have hsb' := b.tv_sec.toInt_lt
  have hc : carry a b = 1 ∧ 10 ^ 9 ≤ a.tv_nsec.toInt + b.tv_nsec.toInt ∨
      carry a b = 0 ∧ a.tv_nsec.toInt + b.tv_nsec.toInt < 10 ^ 9 := by
    unfold carry
    split <;> omega
  have hfin : (a + b).isIndefinite = false ↔ a.total + b.total < (2 ^ 64 - 1) * 10 ^ 9 := by
    rw [← not_iff_not, Bool.not_eq_false, isIndefinite_iff, hs]
    unfold total
    rcases Int.lt_or_le (a.tv_sec.toInt + b.tv_sec.toInt + carry a b) (2 ^ 63) with hlt | hge
    · rw [bmod_of_lt (by omega) hlt]
      omega
    · rw [bmod_of_ge hge (by omega)]
      omega
  rw [← hfin]
  constructor
  · intro he
    apply Bool.eq_false_iff.2
    intro hi
    -- the reserved value is left as it is
    have hsub : a + b - b = a + b := by
      change (a + b).sub b = a + b
      rw [sub, if_pos hi]
    rw [hsub] at he
    rw [he, ha.finite] at hi
    cases hi
  · intro hf
    obtain ⟨hs', hn'⟩ := sub_eq hf (by omega) (by omega) hb
    have hb : borrow (a + b) b = carry a b := by
      unfold borrow
      rw [hn]
      split <;> omega
    apply ext_toInt
    · rw [hs', hs, hb, Int.sub_sub, Int.bmod_sub_bmod, bmod_of_lt] <;> omega
    · omega

theorem toNat_toUInt64 {s : Int64} (h : 0 ≤ s.toInt) : (s.toUInt64.toNat : ℤ) = s.toInt := by
  rw [Int64.toNat_toUInt64_of_le (Int64.le_iff_toInt_le.2 h)]
  exact Int.toNat_of_nonneg h

theorem getUs_toNat : t.getUs.toNat =
    (t.tv_sec.toUInt64.toNat * 1000000 + t.tv_nsec.toUInt64.toNat / 1000) % 2 ^ 64 := by
  rw [getUs, UInt64.toNat_add, UInt64.toNat_mul, UInt64.toNat_div]
  exact Nat.mod_add_mod ..

/-- The microseconds of a time-out that 64 bits have room for. -/
theorem Normalised.getUs_toNat (h : t.Normalised) (hlt : t.total / 1000 < 2 ^ 64) :
    (t.getUs.toNat : ℤ) = t.total / 1000 := by
  have ⟨hs, hn, hn'⟩ := h
  have hsec := toNat_toUInt64 hs
  have hnsec := toNat_toUInt64 hn
  unfold total at hlt ⊢
  rw [CTimeout.getUs_toNat]
  omega

theorem getUs_set : (set us).getUs = us := by
  apply UInt64.toNat_inj.1
  have hlt := us.toNat_lt
  have hmillion : (1000000 : UInt64).toNat = 1000000 := rfl
  rw [getUs_toNat]
  unfold set
  split
  case isTrue h =>
    have hus := UInt64.lt_iff_toNat_lt.1 h
    have hn : (us * 1000).toNat = us.toNat * 1000 := by
      rw [UInt64.toNat_mul]
      change us.toNat * 1000 % 2 ^ 64 = _
      omega
    rw [UInt64.toUInt64_toInt64, hn]
    change (0 * 1000000 + _) % 2 ^ 64 = _
    omega
  case isFalse h =>
    have hn : (us % 1000000 * 1000).toNat = us.toNat % 1000000 * 1000 := by
      rw [UInt64.toNat_mul, UInt64.toNat_mod]
      change us.toNat % 1000000 * 1000 % 2 ^ 64 = _
      omega
    rw [UInt64.toUInt64_toInt64, UInt64.toUInt64_toInt64, UInt64.toNat_div, hn, hmillion]
    omega

/-- What is expected of two finite time-outs. -/
structure Laws (a b : CTimeout) : Prop where
  add : (a + b).Normalised
  sub : (a - b).Normalised
  add_sub : a + b - b = a
  lt_iff : a.lt b = true ↔ a.total < b.total
  lt_indefinite : a.lt TIMEOUT_INDEFINITE = true
  sub_finite : (a - b).isIndefinite = false

/-- The indefinite time-out compares less than the finite ones, whatever they are. The other laws
hold when no sum overflows, and when what is subtracted is not greater. -/
theorem timeout_laws (ha : a.Normalised) (hb : b.Normalised) :
    ¬Laws a b ∧ a.lt TIMEOUT_INDEFINITE = false ∧ (a.lt b = true ↔ a.total < b.total) ∧
      ((a + b).Normalised ↔ a.total + b.total < 2 ^ 63 * 10 ^ 9) ∧
      (a + b - b = a ↔ a.total + b.total < (2 ^ 64 - 1) * 10 ^ 9) ∧
      ((a - b).Normalised ↔ b.total ≤ a.total) ∧
      ((a - b).isIndefinite = false ↔ b.total ≤ a.total ∨ a.total + 10 ^ 9 < b.total) := by
  have hi := not_lt_indefinite ha
  refine ⟨?_, hi, lt_iff_total ha hb, add_normalised_iff ha hb, add_sub_iff ha hb,
    sub_normalised_iff ha hb, sub_finite_iff ha hb⟩
  intro h
  have hlt := h.lt_indefinite
  rw [hi] at hlt
  cases hlt

theorem timeout_laws_sample :
    ¬Laws ⟨1, 0⟩ ⟨0, 5⟩ ∧ lt ⟨1, 0⟩ TIMEOUT_INDEFINITE = false ∧
      (lt ⟨1, 0⟩ ⟨0, 5⟩ = true ↔ total ⟨1, 0⟩ < total ⟨0, 5⟩) ∧
      (Normalised (⟨1, 0⟩ + ⟨0, 5⟩) ↔ total ⟨1, 0⟩ + total ⟨0, 5⟩ < 2 ^ 63 * 10 ^ 9) ∧
      ((⟨1, 0⟩ : CTimeout) + ⟨0, 5⟩ - ⟨0, 5⟩ = ⟨1, 0⟩ ↔
        total ⟨1, 0⟩ + total ⟨0, 5⟩ < (2 ^ 64 - 1) * 10 ^ 9) ∧
      (Normalised (⟨1, 0⟩ - ⟨0, 5⟩) ↔ total ⟨0, 5⟩ ≤ total ⟨1, 0⟩) ∧
      (isIndefinite (⟨1, 0⟩ - ⟨0, 5⟩) = false ↔
        total ⟨0, 5⟩ ≤ total ⟨1, 0⟩ ∨ total ⟨1, 0⟩ + 10 ^ 9 < total ⟨0, 5⟩) :=
  timeout_laws ⟨by decide, by decide, by decide⟩ ⟨by decide, by decide, by decide⟩

/-- A second less than no time at all is the reserved value. -/
theorem not_timeout_laws :
    ¬∀ a b : CTimeout, a.Normalised → b.Normalised → Laws a b := by
  intro h
  have hlaws := h ⟨0, 0⟩ ⟨1, 0⟩ ⟨by decide, by decide, by decide⟩ ⟨by decide, by decide, by decide⟩
  exact absurd hlaws.sub_finite (by decide)

end CTimeout

end Cpsw
