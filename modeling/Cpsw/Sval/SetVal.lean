import Cpsw.Sval.Merge
import Cpsw.Sval.Source

namespace Cpsw.Sval

open Cpsw.Lib Cpsw.Lib.Digits

variable {host target : ByteOrder} {e : CIntEntry} {nelms buf tmp i sbytes : ℕ} {m dev : Mem}
  {addr : ℕ → ℕ}

/-- What the field of an element holds of a number written with `w` bytes. -/
def CIntEntry.stored (e : CIntEntry) (w v : ℕ) : ℕ :=
  (wrap e.isSigned (8 * w) v % 2 ^ e.sizeBits).toNat

section Pack

variable {obufp ibufp : Bytes}

/-- The sign is extended where the field has more bits than the element. -/
def extendSource (host : ByteOrder) (e : CIntEntry) (sbytes : ℕ) (bs : Bytes) : Bytes :=
  if e.sizeBits > 8 * sbytes then signExtend host e.isSigned (8 * sbytes) e.getSize bs else bs

theorem pack_eq (he : e.Checked) (hlt : e.sizeBits < 2 ^ 32) : pack host target e sbytes obufp ibufp =
    let field := e.swapField host e.getSize
      (extendSource host e sbytes (moveLow host e.getSize sbytes obufp ibufp))
    let field := if e.lsBit ≠ 0 then shiftLeft host e.lsBit field else field
    if target ≠ host then swap e.getSize 1 field else field := by
  have hb : b2B e.sizeBits % 2 ^ 32 = b2B e.sizeBits := by
    simp only [b2B]
    omega
  simp only [pack, he.getSize_mod hlt, hb]
  rfl

variable (he : e.Checked) (hs : 0 < sbytes) (hob : obufp.length = e.getSize)
  (hib : ibufp.length = sbytes)

include he hs hob hib

theorem extendSource_spec (hhost : host = .LE ∨ host = .BE) :
    (extendSource host e sbytes (moveLow host e.getSize sbytes obufp ibufp)).length = e.getSize ∧
    value (lowFirst host (extendSource host e sbytes (moveLow host e.getSize sbytes obufp ibufp))) %
      2 ^ e.sizeBits = e.stored sbytes (value (lowFirst host ibufp)) := by
  have hle := he.bits_le
  have hlen := @moveLow_length host _ _ _ _ hob hib
  have hmoved := value_moveLow hob hib hhost
  have hcast : ∀ v : ℕ, (e.stored sbytes v : ℤ) = wrap e.isSigned (8 * sbytes) v % 2 ^ e.sizeBits :=
    fun v ↦ Int.toNat_of_nonneg (Int.emod_nonneg _ (by positivity))
  unfold extendSource
  split_ifs with hext
  · have hd : (2 : ℤ) ^ e.sizeBits ∣ 256 ^ e.getSize := by
      have hpow : (256 : ℤ) ^ e.getSize = 2 ^ (8 * e.getSize) := by exact_mod_cast pow_eq e.getSize
      rw [hpow]
      exact pow_dvd_pow 2 (by omega)
    have hsame : wrap e.isSigned (8 * sbytes) (value (lowFirst host (moveLow host e.getSize sbytes
        obufp ibufp))) = wrap e.isSigned (8 * sbytes) (value (lowFirst host ibufp)) := by
      apply wrap_congr
      exact_mod_cast mod_pow_of_mod hmoved (by omega : 8 * sbytes ≤ 8 * min e.getSize sbytes)
    refine ⟨signExtend_length (by omega) (by omega) hlen, ?_⟩
    zify
    rw [hcast, signExtend_eq, value_signExtendLE_wrap (by omega) (by omega) (by simpa using hlen),
      Int.emod_emod_of_dvd _ hd, hsame]
  · refine ⟨hlen, ?_⟩
    zify
    rw [hcast, wrap_mod (by omega)]
    exact_mod_cast mod_pow_of_mod hmoved (by omega : e.sizeBits ≤ 8 * min e.getSize sbytes)

variable (hlt : e.sizeBits < 2 ^ 32) (hmode : e.mode ≠ .RO) (hhost : host = .LE ∨ host = .BE)
  (htarget : target = .LE ∨ target = .BE)

include hlt hmode hhost htarget

theorem pack_spec : (pack host target e sbytes obufp ibufp).length = e.getSize ∧
    value (lowFirst target (pack host target e sbytes obufp ibufp)) / 2 ^ e.lsBit % 2 ^ e.sizeBits =
      e.swapWords (e.stored sbytes (value (lowFirst host ibufp))) := by
  have hls := he.lsBit
  obtain ⟨hsrc, hstored⟩ := extendSource_spec he hs hob hib hhost
  have hlen := @CIntEntry.Checked.swapField_length e host _ _ he hsrc e.b2B_le
  have hswap := he.value_swapField hhost hsrc e.b2B_le
  rw [pack_eq he hlt]
  generalize extendSource host e sbytes _ = source at *
  dsimp only
  generalize e.swapField host e.getSize source = field at *
  have hfield : value (lowFirst host field) % 2 ^ e.sizeBits =
      e.swapWords (e.stored sbytes (value (lowFirst host ibufp))) := by
    have hb := @CIntEntry.sizeBits_le_b2B e
    have hmod := mod_pow_of_mod (hswap.trans (Nat.mod_eq_of_lt (he.swapWords_lt
      (Nat.mod_lt _ (by positivity)))).symm) hb
    rw [hmod, he.swapWords_mod hmode (Nat.mod_lt _ (by positivity)), ← hstored]
    congr 1
    exact mod_pow_of_mod (Nat.mod_mod _ _) hb
  have hshift : (if e.lsBit ≠ 0 then shiftLeft host e.lsBit field else field).length = e.getSize ∧
      value (lowFirst host (if e.lsBit ≠ 0 then shiftLeft host e.lsBit field else field)) =
        value (lowFirst host field) * 2 ^ e.lsBit % 256 ^ e.getSize := by
    split_ifs with h
    · have hzero : (0 : ℕ) / 256 < 2 ^ e.lsBit := by positivity
      constructor
      · rw [← @lowFirst_length host, shiftLeft_eq, shiftLeftLoop_length, lowFirst_length, hlen]
      · rw [shiftLeft_eq, value_shiftLeftLoop (by omega) hzero, lowFirst_length, hlen, Nat.zero_div,
          Nat.add_zero]
    · have hval := value_lt (lowFirst host field)
      rw [lowFirst_length, hlen] at hval
      exact ⟨hlen, by rw [not_not.1 h, pow_zero, Nat.mul_one, Nat.mod_eq_of_lt hval]⟩
  obtain ⟨hshifted, hval⟩ := hshift
  generalize (if e.lsBit ≠ 0 then shiftLeft host e.lsBit field else field) = shifted at *
  refine ⟨turn_length hshifted, ?_⟩
  have hturn : (if target ≠ host then swap e.getSize 1 shifted else shifted) =
      if host ≠ target then swap e.getSize 1 shifted else shifted := by
    simp only [ne_comm]
  -- what is shifted beyond the field stays in the register
  have hle := he.bits_le
  have hpow : 256 ^ e.getSize = 2 ^ e.lsBit * 2 ^ (8 * e.getSize - e.lsBit) := by
    rw [pow_eq, ← pow_add, Nat.add_sub_cancel' (by omega)]
  have hdvd : 2 ^ e.sizeBits ∣ 2 ^ (8 * e.getSize - e.lsBit) := pow_dvd_pow 2 (by omega)
  rw [hturn, lowFirst_turn htarget hhost hshifted, hval, hpow, Nat.mul_comm _ (2 ^ e.lsBit),
    Nat.mul_mod_mul_left, Nat.mul_div_cancel_left _ (by positivity), Nat.mod_mod_of_dvd _ hdvd, hfield]

end Pack

section SetVal

/-- The field of an element as it is sent. -/
def CIntEntry.Packed (e : CIntEntry) (host target : ByteOrder) (sbytes : ℕ) (src bs : Bytes) : Prop :=
  bs.length = e.getSize ∧ value (lowFirst target bs) / 2 ^ e.lsBit % 2 ^ e.sizeBits =
    e.swapWords (e.stored sbytes (value (lowFirst host src)))

theorem writeElements_spec {msk1 mskn : UInt8} {n : ℕ} {src : ℕ → Bytes} (hn : 0 < n)
    (hsrc : ∀ i < nelms, (src i).length = n)
    (haddr : ∀ i < nelms, ∀ j < nelms, i ≠ j → Mem.Apart (addr i) n (addr j) n) :
    (∀ i < nelms, (writeElements dev addr nelms n msk1 mskn src).get (addr i) n =
      writeFunc8 msk1 mskn (dev.get (addr i) n) (src i)) ∧
    ∀ p, (∀ i < nelms, Mem.Outside p (addr i) n) → writeElements dev addr nelms n msk1 mskn src p =
      dev p := by
  have hl : (List.range nelms).Pairwise fun i j ↦ Mem.Apart (addr j) n (addr i) n ∧
      Mem.Apart (addr j) n (addr i) n ∧ Mem.Apart (addr i) n (addr j) n := by
    apply (List.pairwise_lt_range (n := nelms)).imp_of_mem
    intro i j hi hj hij
    have h := haddr i (List.mem_range.1 hi) j (List.mem_range.1 hj) (Nat.ne_of_lt hij)
    exact ⟨Or.symm h, Or.symm h, h⟩
  have hstep : ∀ m, ∀ i ∈ List.range nelms, Mem.get m (addr i) n = dev.get (addr i) n →
      (m.put (addr i) (writeFunc8 msk1 mskn (m.get (addr i) n) (src i))).get (addr i) n =
        writeFunc8 msk1 mskn (dev.get (addr i) n) (src i) ∧
      ∀ p, Mem.Outside p (addr i) n → Mem.Outside p (addr i) n →
        m.put (addr i) (writeFunc8 msk1 mskn (m.get (addr i) n) (src i)) p = m p := by
    intro m i hi hS
    have hlen := (@writeFunc8_spec msk1 mskn _ _ _ hn (@Mem.get_length dev (addr i) n)
      (hsrc i (List.mem_range.1 hi))).1
    rw [hS]
    generalize writeFunc8 msk1 mskn (dev.get (addr i) n) (src i) = bs at hlen ⊢
    subst hlen
    exact ⟨Mem.get_put, fun p hp _ ↦ Mem.put_of_not_mem hp⟩
  obtain ⟨hread, hframe⟩ := @Mem.foldl_pieces dev _ addr addr n n _
    (fun i bs ↦ bs = writeFunc8 msk1 mskn (dev.get (addr i) n) (src i)) _ hstep hl fun _ _ ↦ rfl
  exact ⟨fun i hi ↦ hread i (List.mem_range.2 hi),
    fun p hp ↦ hframe p fun i hi ↦ ⟨hp i (List.mem_range.1 hi), hp i (List.mem_range.1 hi)⟩⟩

variable (he : e.Checked) (hlt : e.sizeBits < 2 ^ 32) (hmode : e.mode ≠ .RO)
  (hhost : host = .LE ∨ host = .BE)
  (htarget : resolveOrder host target = .LE ∨ resolveOrder host target = .BE) (hs : 0 < sbytes)
  (htmp : Mem.Apart tmp (nelms * e.getSize) buf (nelms * sbytes))

include he hlt hmode hhost htarget hs htmp

/-- The bytes that are sent, and the masks they are sent with. -/
theorem setVal_eq : ∃ src : ℕ → Bytes,
    setVal host target e sbytes nelms buf tmp m dev addr =
      writeElements dev addr nelms e.getSize (masks (resolveOrder host target) e).1
        (masks (resolveOrder host target) e).2 src ∧
    ∀ i < nelms, e.Packed host (resolveOrder host target) sbytes (m.get (buf + i * sbytes) sbytes)
      (src i) := by
  have hsize := he.getSize_mod hlt
  have hle := he.bits_le
  have hb := e.b2B_le
  have hholds : e.Holds sbytes := ⟨fun _ ↦ by omega, fun _ ↦ by omega⟩
  obtain ⟨src, heq, hsrc⟩ := @setVal_packs host target e nelms sbytes m dev addr buf tmp hhost hs hholds
    (fun _ ↦ by omega) (by rwa [hsize])
  rw [hsize] at heq hsrc
  refine ⟨src, heq, fun i hi ↦ ?_⟩
  obtain ⟨obufp, hob, hpack⟩ := hsrc i hi
  rw [hpack]
  exact pack_spec he hs hob Mem.get_length hlt hmode hhost htarget

variable (haddr : ∀ i < nelms, ∀ j < nelms, i ≠ j → Mem.Apart (addr i) e.getSize (addr j) e.getSize)

include haddr

/-- The field of each element takes its number, all other bits of the memory stay. -/
theorem setVal_spec :
    (∀ i < nelms, ∀ k,
      (value (lowFirst (resolveOrder host target)
        ((setVal host target e sbytes nelms buf tmp m dev addr).get (addr i) e.getSize))).testBit k =
      if e.lsBit ≤ k ∧ k < e.lsBit + e.sizeBits then
        (e.swapWords (e.stored sbytes
          (value (lowFirst host (m.get (buf + i * sbytes) sbytes))))).testBit (k - e.lsBit)
      else (value (lowFirst (resolveOrder host target) (dev.get (addr i) e.getSize))).testBit k) ∧
    ∀ p, (∀ i < nelms, Mem.Outside p (addr i) e.getSize) →
      setVal host target e sbytes nelms buf tmp m dev addr p = dev p := by
  have hle := he.bits_le
  have hpos := he.sizeBits
  obtain ⟨src, heq, hsrc⟩ := @setVal_eq host target e nelms buf tmp sbytes m dev addr he hlt hmode hhost
    htarget hs htmp
  obtain ⟨hread, hframe⟩ := @writeElements_spec nelms dev addr (masks (resolveOrder host target) e).1
    (masks (resolveOrder host target) e).2 e.getSize src (by omega) (fun i hi ↦ (hsrc i hi).1) haddr
  rw [heq]
  refine ⟨fun i hi k ↦ ?_, hframe⟩
  obtain ⟨hlen, hval⟩ := hsrc i hi
  rw [hread i hi, testBit_merged he hmode htarget Mem.get_length hlen]
  refine ite_congr rfl (fun hk ↦ ?_) fun _ ↦ rfl
  have hbit : k - e.lsBit < e.sizeBits := by omega
  rw [← hval, Nat.testBit_mod_two_pow, Nat.testBit_div_two_pow, decide_eq_true hbit, Bool.true_and,
    Nat.sub_add_cancel hk.1]

end SetVal

end Cpsw.Sval
