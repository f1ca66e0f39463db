import Cpsw.Sval.SetVal

namespace Cpsw.Sval

open Cpsw.Lib Cpsw.Lib.Digits

variable {host target : ByteOrder} {e : CIntEntry} {nelms buf tmp buf' tmp' w d : ℕ} {m m' dev : Mem}
  {addr : ℕ → ℕ}

theorem stored_lt (u : ℕ) : e.stored w u < 2 ^ e.sizeBits := by
  zify
  rw [CIntEntry.stored, Int.toNat_of_nonneg (Int.emod_nonneg _ (by positivity))]
  exact Int.emod_lt_of_pos _ (by positivity)

theorem swapWords_stored_lt (he : e.Checked) (hmode : e.mode ≠ .RO) (u : ℕ) :
    e.swapWords (e.stored w u) < 2 ^ e.sizeBits := by
  have h := he.swapWords_mod hmode (lt_of_lt_of_le (@stored_lt e w u) CIntEntry.pow_le_b2B)
  rw [Nat.mod_eq_of_lt (stored_lt u)] at h
  rw [← h]
  exact Nat.mod_lt _ (by positivity)

/-- What is read from the field of a number `v` that holds what was written. -/
theorem wrap_field_stored {u v : ℕ} (he : e.Checked) (hmode : e.mode ≠ .RO)
    (hv : v / 2 ^ e.lsBit % 2 ^ e.sizeBits = e.swapWords (e.stored w u)) :
    wrap e.isSigned e.sizeBits (e.field v) =
      wrap e.isSigned e.sizeBits (wrap e.isSigned (8 * w) u) := by
  have hcast : (e.stored w u : ℤ) = wrap e.isSigned (8 * w) u % 2 ^ e.sizeBits :=
    Int.toNat_of_nonneg (Int.emod_nonneg _ (by positivity))
  have hlt : e.stored w u < 256 ^ b2B e.sizeBits := lt_of_lt_of_le (stored_lt u) CIntEntry.pow_le_b2B
  have hfield : e.field v % 2 ^ e.sizeBits = e.stored w u := by
    have hmod : v / 2 ^ e.lsBit % 256 ^ b2B e.sizeBits % 2 ^ e.sizeBits =
        v / 2 ^ e.lsBit % 2 ^ e.sizeBits :=
      mod_pow_of_mod (Nat.mod_mod _ _) CIntEntry.sizeBits_le_b2B
    rw [CIntEntry.field, he.swapWords_mod hmode (Nat.mod_lt _ (by positivity)), hmod, hv,
      he.swapWords_swapWords hlt]
  apply wrap_congr
  rw [← hcast, ← hfield]
  push_cast
  rfl

section Decode

/-- A reference for the value of one element: the number in its bits, in `dbytes` bytes. -/
def decode (host target : ByteOrder) (e : CIntEntry) (dbytes : ℕ) (xs : Bytes) : Bytes :=
  let nbytes := b2B e.sizeBits
  let v := bytes nbytes (value (lowFirst target xs) / 2 ^ e.lsBit)
  let v := if e.wordSwap = 0 then value v else value (wordsReversed e.wordSwap v)
  lowFirst host (bytes dbytes (wrap e.isSigned e.sizeBits v % 256 ^ dbytes).toNat)

theorem field_eq (he : e.Checked) (v : ℕ) : e.field v =
    if e.wordSwap = 0 then value (bytes (b2B e.sizeBits) (v / 2 ^ e.lsBit))
    else value (wordsReversed e.wordSwap (bytes (b2B e.sizeBits) (v / 2 ^ e.lsBit))) := by
  have hbytes : bytes (b2B e.sizeBits) (v / 2 ^ e.lsBit % 256 ^ b2B e.sizeBits) =
      bytes (b2B e.sizeBits) (v / 2 ^ e.lsBit) := by
    apply value_inj (by simp)
    rw [value_bytes, value_bytes, Nat.mod_mod]
  rw [CIntEntry.field, CIntEntry.swapWords, hbytes]
  split_ifs with hw
  · rw [hw, swap_zero]
  · rw [swap_eq_wordsReversed (bytes_length _ _) (he.dvd hw) (Nat.pos_of_ne_zero hw)]

theorem eq_decode {xs ys : Bytes} (he : e.Checked) (hys : ys.length = d)
    (h : (value (lowFirst host ys) : ℤ) =
      wrap e.isSigned e.sizeBits (e.field (value (lowFirst target xs))) % 256 ^ d) :
    ys = decode host target e d xs := by
  have hnum : (wrap e.isSigned e.sizeBits (e.field (value (lowFirst target xs))) % 256 ^ d).toNat =
      value (lowFirst host ys) := by
    rw [← h, Int.toNat_natCast]
  rw [decode, ← field_eq he, hnum]
  conv_lhs => rw [← @lowFirst_lowFirst host ys, ← bytes_value (lowFirst host ys), lowFirst_length, hys]

end Decode

end Cpsw.Sval
