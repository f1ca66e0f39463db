import Cpsw.Buf
import Cpsw.Lib.Digits

namespace Cpsw.Sval

open Cpsw.Lib.Digits

inductive ByteOrder
  | UNKNOWN
  | LE
  | BE
  | NATIVE
  deriving DecidableEq, Repr

/-- `SignExtender::work` where the first byte is the lowest. -/
def signExtendLE (isSigned : Bool) (sizeBits dbytes : ℕ) (obuf : Bytes) : Bytes :=
  let signByte := (sizeBits - 1) / 8
  let signBit : UInt8 := 1 <<< UInt8.ofNat ((sizeBits - 1) % 8)
  let signMsk := signBit ||| (signBit - 1)
  let b := obuf.getD signByte 0
  if isSigned ∧ b &&& signBit ≠ 0 then
    obuf.take signByte ++ (b ||| ~~~signMsk) :: List.replicate (dbytes - (signByte + 1)) 0xff
  else obuf.take signByte ++ (b &&& signMsk) :: List.replicate (dbytes - (signByte + 1)) 0x00

/-- `SignExtender::work`, from the end of the buffer where the last byte is the lowest. -/
def signExtend (host : ByteOrder) (isSigned : Bool) (sizeBits dbytes : ℕ) (obuf : Bytes) : Bytes :=
  if host = .LE then signExtendLE isSigned sizeBits dbytes obuf
  else (signExtendLE isSigned sizeBits dbytes obuf.reverse).reverse

/-- `memcpy` into a buffer. -/
def splice (buf : Bytes) (p : ℕ) (xs : Bytes) : Bytes := buf.take p ++ xs ++ buf.drop (p + xs.length)

def slice (buf : Bytes) (p n : ℕ) : Bytes := (buf.drop p).take n

/-- The loop of `Swapper::work` with `k` exchanges to go, the next one between `p` and `q`. -/
def swapLoop (wlen : ℕ) : ℕ → ℕ → ℕ → Bytes → Bytes
  | 0, _, _, buf => buf
  | k + 1, p, q, buf =>
    let tmp := slice buf p wlen
    swapLoop wlen k (p + wlen) (q - wlen) (splice (splice buf p (slice buf q wlen)) q tmp)

/-- `Swapper::work` -/
def swap (nbytes wlen : ℕ) (buf : Bytes) : Bytes :=
  swapLoop wlen (if wlen > 0 then nbytes / wlen / 2 else 0) 0 (nbytes - wlen) buf

/-- The loop of `BitShifter::shiftRight` from the last byte on: `tmp16`, and the bytes. -/
def shiftRightLoop (shift : ℕ) : Bytes → ℕ × Bytes
  | [] => (0, [])
  | b :: bufp =>
    let (tmp, bufp) := shiftRightLoop shift bufp
    let tmp := (tmp * 256 + b.toNat) % 2 ^ 16
    (tmp, UInt8.ofNat (tmp / 2 ^ shift) :: bufp)

/-- `BitShifter::shiftRight` -/
def shiftRight (host : ByteOrder) (shift : ℕ) (bufp : Bytes) : Bytes :=
  if host = .LE then (shiftRightLoop shift bufp).2 else (shiftRightLoop shift bufp.reverse).2.reverse

/-- The loop of `BitShifter::shiftLeft` from the first byte on, with `tmp16_2`. -/
def shiftLeftLoop (shift : ℕ) : ℕ → Bytes → Bytes
  | _, [] => []
  | tmp, b :: bufp =>
    let tmp := (tmp / 256 ||| b.toNat * 2 ^ shift) % 2 ^ 16
    UInt8.ofNat tmp :: shiftLeftLoop shift tmp bufp

/-- `BitShifter::shiftLeft` -/
def shiftLeft (host : ByteOrder) (shift : ℕ) (bufp : Bytes) : Bytes :=
  if host = .LE then shiftLeftLoop shift 0 bufp else (shiftLeftLoop shift 0 bufp.reverse).reverse

/-- The bytes of a number of the host, the lowest first. -/
def lowFirst (host : ByteOrder) (xs : Bytes) : Bytes := if host = .LE then xs else xs.reverse

section LowFirst

variable {host : ByteOrder} {xs : Bytes}

@[simp] theorem lowFirst_length : (lowFirst host xs).length = xs.length := by
  unfold lowFirst
  split_ifs <;> simp

@[simp] theorem lowFirst_lowFirst : lowFirst host (lowFirst host xs) = xs := by
  unfold lowFirst
  split_ifs <;> simp

theorem signExtend_eq {isSigned : Bool} {sizeBits dbytes : ℕ} :
    lowFirst host (signExtend host isSigned sizeBits dbytes xs) =
      signExtendLE isSigned sizeBits dbytes (lowFirst host xs) := by
  unfold lowFirst signExtend
  split_ifs <;> simp

theorem shiftRight_eq {shift : ℕ} : lowFirst host (shiftRight host shift xs) =
    (shiftRightLoop shift (lowFirst host xs)).2 := by
  unfold lowFirst shiftRight
  split_ifs <;> simp

theorem shiftLeft_eq {shift : ℕ} : lowFirst host (shiftLeft host shift xs) =
    shiftLeftLoop shift 0 (lowFirst host xs) := by
  unfold lowFirst shiftLeft
  split_ifs <;> simp

end LowFirst

section ShiftRight

variable {shift : ℕ} {xs : Bytes}

@[simp] theorem shiftRightLoop_length : (shiftRightLoop shift xs).2.length = xs.length := by
  induction xs with
  | nil => rfl
  | cons b xs ih => simp [shiftRightLoop, ih]

/-- The pair of bytes that is shifted ends with the byte that has just been read. -/
theorem shiftRightLoop_tmp : (shiftRightLoop shift xs).1 % 256 = value xs % 256 := by
  cases xs with
  | nil => rfl
  | cons b xs =>
    have hb := b.toNat_lt
    simp only [shiftRightLoop, value_cons]
    omega

theorem value_shiftRightLoop (hs : shift < 8) :
    value (shiftRightLoop shift xs).2 = value xs / 2 ^ shift := by
  induction xs with
  | nil => simp [shiftRightLoop]
  | cons b xs ih =>
    have hb := b.toNat_lt
    have htmp := @shiftRightLoop_tmp shift xs
    simp only [shiftRightLoop, value_cons, ih, UInt8.toNat_ofNat']
    generalize (shiftRightLoop shift xs).1 = tmp at htmp
    generalize value xs = v at htmp
    interval_cases shift <;> omega

end ShiftRight

section ShiftLeft

variable {shift tmp : ℕ} {xs : Bytes}

@[simp] theorem shiftLeftLoop_length : (shiftLeftLoop shift tmp xs).length = xs.length := by
  induction xs generalizing tmp with
  | nil => rfl
  | cons b xs ih => simp [shiftLeftLoop, ih]

theorem value_shiftLeftLoop (hs : shift < 8) (htmp : tmp / 256 < 2 ^ shift) :
    value (shiftLeftLoop shift tmp xs) = (value xs * 2 ^ shift + tmp / 256) % 256 ^ xs.length := by
  induction xs generalizing tmp with
  | nil => simp [shiftLeftLoop, Nat.mod_one]
  | cons b xs ih =>
    have hb := b.toNat_lt
    have hor : tmp / 256 ||| b.toNat * 2 ^ shift = b.toNat * 2 ^ shift + tmp / 256 := by
      rw [Nat.or_comm, ← Nat.shiftLeft_eq, ← Nat.shiftLeft_add_eq_or_of_lt htmp]
    have hlt : b.toNat * 2 ^ shift + tmp / 256 < 256 * 2 ^ shift := by
      have hmul : b.toNat * 2 ^ shift ≤ 255 * 2 ^ shift := Nat.mul_le_mul_right _ (by omega)
      omega
    have hpow : 2 ^ shift ≤ 2 ^ 7 := Nat.pow_le_pow_right (by decide) (by omega)
    have hmod : (b.toNat * 2 ^ shift + tmp / 256) % 2 ^ 16 = b.toNat * 2 ^ shift + tmp / 256 :=
      Nat.mod_eq_of_lt (by omega)
    have hcarry : (b.toNat * 2 ^ shift + tmp / 256) / 256 < 2 ^ shift := by omega
    have hstep : shiftLeftLoop shift tmp (b :: xs) =
        UInt8.ofNat (b.toNat * 2 ^ shift + tmp / 256) ::
          shiftLeftLoop shift (b.toNat * 2 ^ shift + tmp / 256) xs := by
      simp only [shiftLeftLoop]
      rw [hor, hmod]
    have hsum : value (b :: xs) * 2 ^ shift + tmp / 256 =
        (b.toNat * 2 ^ shift + tmp / 256) + 256 * (value xs * 2 ^ shift) := by
      rw [value_cons]
      ring
    rw [hstep, hsum, value_cons, ih hcarry, List.length_cons, pow_succ', Nat.mod_mul,
      Nat.add_mul_mod_self_left, Nat.add_mul_div_left _ _ (by decide), Nat.add_comm (_ / 256),
      UInt8.toNat_ofNat']

end ShiftLeft

section SignExtend

/-- An integer in as many bits, of which the highest is the sign of a signed one. -/
def wrap (isSigned : Bool) (n : ℕ) (v : ℤ) : ℤ := if isSigned then v.bmod (2 ^ n) else v % 2 ^ n

variable {n d j k : ℕ} {xs : Bytes}

theorem value_replicate (b : UInt8) (n : ℕ) :
    value (List.replicate n b) * 255 + b.toNat = 256 ^ n * b.toNat := by
  induction n with
  | zero => simp
  | succ n ih =>
    rw [List.replicate_succ, value_cons, pow_succ', mul_assoc, ← ih]
    ring

/-- The masks of the byte with the sign. -/
theorem signByte_masks : ∀ k < 8, ∀ b < 256,
    (UInt8.ofNat b &&& (1 <<< UInt8.ofNat k ||| (1 <<< UInt8.ofNat k - 1))).toNat = b % 2 ^ (k + 1) ∧
    (UInt8.ofNat b ||| ~~~(1 <<< UInt8.ofNat k ||| (1 <<< UInt8.ofNat k - 1))).toNat + 2 ^ (k + 1) =
      b % 2 ^ (k + 1) + 256 ∧
    (UInt8.ofNat b &&& 1 <<< UInt8.ofNat k ≠ 0 ↔ 2 ^ k ≤ b % 2 ^ (k + 1)) := by
  decide +kernel

@[simp] theorem signExtendLE_length {s : Bool} (hn : 0 < n) (hd : n ≤ 8 * d) (hxs : xs.length = d) :
    (signExtendLE s n d xs).length = d := by
  unfold signExtendLE
  dsimp only
  split_ifs <;> simp [hxs] <;> omega

theorem value_signExtendLE {s : Bool} (hn : 0 < n) (hd : n ≤ 8 * d) (hxs : xs.length = d) :
    value (signExtendLE s n d xs) = if s ∧ 2 ^ (n - 1) ≤ value xs % 2 ^ n
      then value xs % 2 ^ n + 256 ^ d - 2 ^ n else value xs % 2 ^ n := by
  obtain ⟨j, k, hk, rfl⟩ : ∃ j k, k < 8 ∧ n = 8 * j + k + 1 :=
    ⟨(n - 1) / 8, (n - 1) % 8, by omega, by omega⟩
  have hj : j < xs.length := by omega
  obtain ⟨low, b, high, rfl, hlow⟩ : ∃ low b high, xs = low ++ b :: high ∧ low.length = j :=
    ⟨xs.take j, xs[j], xs.drop (j + 1), by simp, by simp; omega⟩
  have hdiv : (8 * j + k + 1 - 1) / 8 = j := by omega
  have hmod : (8 * j + k + 1 - 1) % 8 = k := by omega
  have hb : (low ++ b :: high).getD j 0 = b := by simp [← hlow]
  have htake : (low ++ b :: high).take j = low := List.take_left' hlow
  obtain ⟨hand, hor, hsign⟩ := signByte_masks k hk b.toNat b.toNat_lt
  rw [UInt8.ofNat_toNat] at hand hor hsign
  have hpow : (2 : ℕ) ^ (8 * j + k + 1) = 256 ^ j * 2 ^ (k + 1) := by
    rw [pow_eq, ← pow_add, Nat.add_assoc]
  have hpow' : (2 : ℕ) ^ (8 * j + k + 1 - 1) = 256 ^ j * 2 ^ k := by
    rw [pow_eq, ← pow_add]
    rfl
  have hlt := value_lt low
  rw [hlow] at hlt
  -- the number in the lowest bits
  have hlowest : value (low ++ b :: high) % 2 ^ (8 * j + k + 1) =
      value low + 256 ^ j * (b.toNat % 2 ^ (k + 1)) := by
    have hq : (b.toNat + 256 * value high) % 2 ^ (k + 1) = b.toNat % 2 ^ (k + 1) := by
      interval_cases k <;> omega
    rw [hpow, Nat.mod_mul, value_append, value_cons, hlow, Nat.add_mul_mod_self_left,
      Nat.mod_eq_of_lt hlt, Nat.add_mul_div_left _ _ (by positivity), Nat.div_eq_of_lt hlt,
      Nat.zero_add, hq]
  have hbit : 2 ^ (8 * j + k + 1 - 1) ≤ value (low ++ b :: high) % 2 ^ (8 * j + k + 1) ↔
      2 ^ k ≤ b.toNat % 2 ^ (k + 1) := by
    rw [hlowest, hpow']
    constructor
    · intro h
      by_contra hlt'
      have hmul : 256 ^ j * (b.toNat % 2 ^ (k + 1) + 1) ≤ 256 ^ j * 2 ^ k :=
        Nat.mul_le_mul_left _ (by omega)
      rw [Nat.mul_add, Nat.mul_one] at hmul
      omega
    · intro h
      have hmul : 256 ^ j * 2 ^ k ≤ 256 ^ j * (b.toNat % 2 ^ (k + 1)) := Nat.mul_le_mul_left _ h
      omega
  obtain ⟨r, rfl⟩ : ∃ r, d = j + 1 + r := ⟨d - (j + 1), by omega⟩
  have hr : j + 1 + r - (j + 1) = r := Nat.add_sub_cancel_left ..
  unfold signExtendLE
  simp only [hdiv, hmod, hb, htake, hr, hsign.trans hbit.symm]
  split_ifs with h
  · have hfill := value_replicate 0xff r
    have hbyte : 256 ^ j * (b ||| ~~~(1 <<< UInt8.ofNat k ||| (1 <<< UInt8.ofNat k - 1))).toNat +
        256 ^ j * 2 ^ (k + 1) = 256 ^ j * (b.toNat % 2 ^ (k + 1)) + 256 ^ j * 256 := by
      rw [← Nat.mul_add, ← Nat.mul_add, hor]
    have hall : 256 ^ j * 256 * 256 ^ r = 256 ^ (j + 1 + r) := by
      rw [← pow_succ, ← pow_add]
    have hones : value (List.replicate r 0xff) + 1 = 256 ^ r := by
      change value (List.replicate r 0xff) * 255 + 255 = 256 ^ r * 255 at hfill
      omega
    have hhigh : 256 ^ j * (256 * value (List.replicate r 0xff)) + 256 ^ j * 256 =
        256 ^ (j + 1 + r) := by
      rw [← hall, ← hones]
      ring
    rw [value_append, value_cons, hlow, hlowest, hpow, Nat.mul_add]
    omega
  · have hfill := value_replicate 0x00 r
    have hzero : value (List.replicate r 0x00) = 0 := by
      change value (List.replicate r 0x00) * 255 + 0 = 256 ^ r * 0 at hfill
      omega
    rw [value_append, value_cons, hlow, hlowest, hzero, hand]
    rfl

/-- What the code extends is the number in its bits. -/
theorem value_signExtendLE_wrap {s : Bool} (hn : 0 < n) (hd : n ≤ 8 * d) (hxs : xs.length = d) :
    (value (signExtendLE s n d xs) : ℤ) = wrap s n (value xs) % 256 ^ d := by
  have hle : 2 ^ n ≤ 256 ^ d := by
    rw [pow_eq]
    exact Nat.pow_le_pow_right (by decide) hd
  have hlt : value xs % 2 ^ n < 2 ^ n := Nat.mod_lt _ (by positivity)
  have hhalf : (2 : ℕ) ^ n = 2 * 2 ^ (n - 1) := by
    rw [← pow_succ', Nat.sub_add_cancel hn]
  have hcast : ((value xs : ℤ) % 2 ^ n) = ((value xs % 2 ^ n : ℕ) : ℤ) := by push_cast; rfl
  rw [value_signExtendLE hn hd hxs]
  generalize hm : value xs % 2 ^ n = v at *
  have hv : (v : ℤ) < 2 ^ n := by exact_mod_cast hlt
  have hd' : (2 : ℤ) ^ n ≤ 256 ^ d := by exact_mod_cast hle
  have hn' : (2 : ℤ) ^ n = 2 * 2 ^ (n - 1) := by exact_mod_cast hhalf
  cases s with
  | false =>
    simp only [wrap, Bool.false_eq_true, false_and, if_false, hcast]
    rw [Int.emod_eq_of_lt] <;> omega
  | true =>
    have hbmod : wrap true n (value xs) = if v < 2 ^ (n - 1) then (v : ℤ) else v - 2 ^ n := by
      have hb : ((2 ^ n : ℕ) : ℤ) = 2 ^ n := by push_cast; rfl
      simp only [wrap, if_true]
      rw [Int.bmod_def, hb, hcast]
      have hv₀ : ((2 ^ (n - 1) : ℕ) : ℤ) = 2 ^ (n - 1) := by push_cast; rfl
      split_ifs <;> omega
    rw [hbmod]
    by_cases hv' : 2 ^ (n - 1) ≤ v
    · have hsub : ((v + 256 ^ d - 2 ^ n : ℕ) : ℤ) = v - 2 ^ n + 256 ^ d := by
        push_cast [Nat.cast_sub (by omega : 2 ^ n ≤ v + 256 ^ d)]
        ring
      have hv₀ : (2 : ℤ) ^ (n - 1) ≤ v := by exact_mod_cast hv'
      rw [if_neg (not_lt.2 hv'), if_pos ⟨rfl, hv'⟩, hsub, ← Int.add_emod_right, Int.emod_eq_of_lt] <;>
        omega
    · rw [if_pos (not_le.1 hv'), if_neg (fun h ↦ hv' h.2), Int.emod_eq_of_lt] <;> omega

end SignExtend

end Cpsw.Sval
