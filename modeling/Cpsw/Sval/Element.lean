import Cpsw.Sval.Access

namespace Cpsw.Sval

open Cpsw.Lib Cpsw.Lib.Digits

section Wrap

variable {s : Bool} {n k : ℕ} {v w : ℤ}

theorem wrap_mod (hk : k ≤ n) : wrap s n v % 2 ^ k = v % 2 ^ k := by
  have hdvd : (2 : ℤ) ^ k ∣ 2 ^ n := pow_dvd_pow 2 hk
  cases s with
  | false => exact Int.emod_emod_of_dvd v hdvd
  | true =>
    have h : (v.bmod (2 ^ n)) % ((2 ^ n : ℕ) : ℤ) = v % ((2 ^ n : ℕ) : ℤ) := Int.bmod_emod
    push_cast at h
    change v.bmod (2 ^ n) % 2 ^ k = v % 2 ^ k
    rw [← Int.emod_emod_of_dvd _ hdvd, h, Int.emod_emod_of_dvd v hdvd]

theorem wrap_congr (h : v % 2 ^ n = w % 2 ^ n) : wrap s n v = wrap s n w := by
  cases s with
  | false => exact h
  | true =>
    change v.bmod (2 ^ n) = w.bmod (2 ^ n)
    have h' : v % ((2 ^ n : ℕ) : ℤ) = w % ((2 ^ n : ℕ) : ℤ) := by exact_mod_cast h
    rw [← Int.emod_bmod, h', Int.emod_bmod]

end Wrap

section Parts

variable {host : ByteOrder} {xs ys : Bytes} {n k : ℕ}

/-- Where the lowest `k` of `n` bytes start. -/
def lowOff (host : ByteOrder) (n k : ℕ) : ℕ := if host = .BE then n - k else 0

theorem lowOff_le (hk : k ≤ n) : lowOff host n k + k ≤ n := by
  unfold lowOff
  split_ifs <;> omega

theorem slice_length {p : ℕ} (h : p + k ≤ xs.length) : (slice xs p k).length = k := by
  simp [slice]
  omega

theorem lowFirst_slice (hhost : host = .LE ∨ host = .BE) (hxs : xs.length = n) (hk : k ≤ n) :
    lowFirst host (slice xs (lowOff host n k) k) = (lowFirst host xs).take k := by
  rcases hhost with rfl | rfl
  · simp [lowFirst, lowOff, slice]
  · have hall : (xs.drop (n - k)).take k = xs.drop (n - k) := List.take_of_length_le (by simp; omega)
    have hrev : (xs.drop (n - k)).reverse = xs.reverse.take k := by
      rw [List.reverse_drop, hxs, Nat.sub_sub_self hk]
    simpa [lowFirst, lowOff, slice, hall] using hrev

theorem lowFirst_splice (hhost : host = .LE ∨ host = .BE) (hxs : xs.length = n) (hk : k ≤ n)
    (hys : ys.length = k) :
    lowFirst host (splice xs (lowOff host n k) ys) = lowFirst host ys ++ (lowFirst host xs).drop k := by
  rcases hhost with rfl | rfl
  · simp [lowFirst, lowOff, splice, hys]
  · have hend : n - k + k = n := Nat.sub_add_cancel hk
    have hnone : xs.drop n = [] := List.drop_of_length_le (by omega)
    have hrev : (xs.take (n - k)).reverse = xs.reverse.drop k := by
      rw [List.reverse_take, hxs, Nat.sub_sub_self hk]
    simp [lowFirst, lowOff, splice, hys, hend, hnone, hrev]

theorem splice_length (h : n + ys.length ≤ xs.length) : (splice xs n ys).length = xs.length := by
  simp [splice]
  omega

/-- Part of a stretch of memory is written. -/
theorem get_put_splice {m : Mem} {a off : ℕ} (h : off + xs.length ≤ n) :
    (m.put (a + off) xs).get a n = splice (m.get a n) off xs := by
  obtain ⟨r, rfl⟩ := Nat.exists_eq_add_of_le h
  have hstart : (m.put (a + off) xs).get a off = m.get a off :=
    Mem.get_put_of_disjoint (.inl (le_refl _))
  have hend : (m.put (a + off) xs).get (a + (off + xs.length)) r = m.get (a + (off + xs.length)) r :=
    Mem.get_put_of_disjoint (.inr (by omega))
  have hrest : off + xs.length + r - (off + xs.length) = r := Nat.add_sub_cancel_left ..
  rw [splice, Mem.get_take (by omega), Mem.get_drop (by omega), hrest, Mem.get_add, Mem.get_add,
    hstart, Mem.get_put, hend]

/-- The lowest bytes of a number of `s` bytes are moved to `d` bytes. -/
def moveLow (host : ByteOrder) (d s : ℕ) (old us : Bytes) : Bytes :=
  splice old (if host = .BE then d - s else 0)
    (slice us (if host = .BE then s - d else 0) (min d s))

section MoveLow

variable {d s : ℕ} {old us : Bytes}

theorem moveLow_eq : moveLow host d s old us =
    splice old (lowOff host d (min d s)) (slice us (lowOff host s (min d s)) (min d s)) := by
  have hioff : (if host = .BE then s - d else 0) = lowOff host s (min d s) := by
    unfold lowOff
    split_ifs <;> omega
  have hooff : (if host = .BE then d - s else 0) = lowOff host d (min d s) := by
    unfold lowOff
    split_ifs <;> omega
  rw [moveLow, hioff, hooff]

variable (hold : old.length = d) (hus : us.length = s)

include hold hus

theorem moveLow_length : (moveLow host d s old us).length = d := by
  have hslice : (slice us (lowOff host s (min d s)) (min d s)).length = min d s :=
    slice_length (by rw [hus]; exact lowOff_le (Nat.min_le_right _ _))
  rw [moveLow_eq, splice_length, hold]
  rw [hslice, hold]
  exact lowOff_le (Nat.min_le_left _ _)

theorem value_moveLow (hhost : host = .LE ∨ host = .BE) :
    value (lowFirst host (moveLow host d s old us)) % 256 ^ min d s =
      value (lowFirst host us) % 256 ^ min d s := by
  have hslice : (slice us (lowOff host s (min d s)) (min d s)).length = min d s :=
    slice_length (by rw [hus]; exact lowOff_le (Nat.min_le_right _ _))
  have htake : ((lowFirst host us).take (min d s)).length = min d s := by simp [hus]
  rw [moveLow_eq, lowFirst_splice hhost hold (Nat.min_le_left _ _) hslice,
    lowFirst_slice hhost hus (Nat.min_le_right _ _), value_append, htake, Nat.add_mul_mod_self_left,
    value_take (by simp [hus]), Nat.mod_mod]

end MoveLow

end Parts

namespace CIntEntry

variable {e : CIntEntry} {host target : ByteOrder} {xs ys : Bytes} {n v : ℕ}

/-- The words of a number come in the other order. -/
def swapWords (e : CIntEntry) (v : ℕ) : ℕ :=
  value (swap (b2B e.sizeBits) e.wordSwap (bytes (b2B e.sizeBits) v))

/-- The words of the field come in the other order, where it has some. -/
def swapField (e : CIntEntry) (host : ByteOrder) (n : ℕ) (xs : Bytes) : Bytes :=
  let nbytes := b2B e.sizeBits
  let noff := lowOff host n nbytes
  if e.wordSwap > 0 then splice xs noff (swap nbytes e.wordSwap (slice xs noff nbytes)) else xs

/-- The number in the field of an element. -/
def field (e : CIntEntry) (v : ℕ) : ℕ := e.swapWords (v / 2 ^ e.lsBit % 256 ^ b2B e.sizeBits)

theorem value_swap (hxs : xs.length = b2B e.sizeBits) :
    value (swap (b2B e.sizeBits) e.wordSwap xs) = e.swapWords (value xs) := by
  rw [swapWords, ← hxs, bytes_value]

theorem swapWords_of_zero (hw : e.wordSwap = 0) (hv : v < 256 ^ b2B e.sizeBits) :
    e.swapWords v = v := by
  rw [swapWords, hw, swap_zero, value_bytes, Nat.mod_eq_of_lt hv]

theorem sizeBits_le_b2B : e.sizeBits ≤ 8 * b2B e.sizeBits := by
  simp only [b2B]
  omega

theorem pow_le_b2B : 2 ^ e.sizeBits ≤ 256 ^ b2B e.sizeBits := by
  rw [pow_eq]
  exact Nat.pow_le_pow_right (by decide) sizeBits_le_b2B

theorem b2B_le (e : CIntEntry) : b2B e.sizeBits ≤ e.getSize := by
  unfold getSize computeSize
  split_ifs <;> simp only [b2B] <;> omega

namespace Checked

variable (he : e.Checked)

include he

theorem bits_le : e.lsBit + e.sizeBits ≤ 8 * e.getSize := by
  have hls := he.lsBit
  unfold getSize computeSize
  split_ifs <;> simp only [b2B] <;> omega

theorem getSize_mod (hlt : e.sizeBits < 2 ^ 32) : e.getSize % 2 ^ 32 = e.getSize := by
  have hls := he.lsBit
  apply Nat.mod_eq_of_lt
  unfold getSize computeSize
  split_ifs <;> simp only [b2B] <;> omega

theorem swapWords_lt (hv : v < 256 ^ b2B e.sizeBits) : e.swapWords v < 256 ^ b2B e.sizeBits := by
  rcases Nat.eq_zero_or_pos e.wordSwap with hw | hw
  · rwa [swapWords_of_zero hw hv]
  · have hlt := value_lt (swap (b2B e.sizeBits) e.wordSwap (bytes (b2B e.sizeBits) v))
    rwa [swap_length (bytes_length _ _) (he.dvd (by omega))] at hlt

theorem swapWords_swapWords (hv : v < 256 ^ b2B e.sizeBits) : e.swapWords (e.swapWords v) = v := by
  rcases Nat.eq_zero_or_pos e.wordSwap with hw | hw
  · rw [swapWords_of_zero hw hv, swapWords_of_zero hw hv]
  · have hdvd := he.dvd (by omega)
    have hlen := swap_length (bytes_length (b2B e.sizeBits) v) hdvd
    rw [swapWords.eq_1 e v, ← value_swap hlen, swap_swap (bytes_length _ _) hdvd, value_bytes,
      Nat.mod_eq_of_lt hv]

theorem swapField_length (hxs : xs.length = n) (hn : b2B e.sizeBits ≤ n) :
    (e.swapField host n xs).length = n := by
  unfold swapField
  split_ifs with hw
  · have hoff := @lowOff_le host _ _ hn
    rw [splice_length, hxs]
    rw [swap_length (slice_length (by omega)) (he.dvd (by omega))]
    omega
  · exact hxs

theorem value_swapField (hhost : host = .LE ∨ host = .BE) (hxs : xs.length = n)
    (hn : b2B e.sizeBits ≤ n) :
    value (lowFirst host (e.swapField host n xs)) % 256 ^ b2B e.sizeBits =
      e.swapWords (value (lowFirst host xs) % 256 ^ b2B e.sizeBits) := by
  have hlt : value (lowFirst host xs) % 256 ^ b2B e.sizeBits < 256 ^ b2B e.sizeBits :=
    Nat.mod_lt _ (by positivity)
  unfold swapField
  split_ifs with hw
  · have hdvd := he.dvd (by omega)
    have hslice : (slice xs (lowOff host n (b2B e.sizeBits)) (b2B e.sizeBits)).length =
        b2B e.sizeBits := slice_length (by rw [hxs]; exact lowOff_le hn)
    have htake : ((lowFirst host xs).take (b2B e.sizeBits)).length = b2B e.sizeBits := by
      simp
      omega
    rw [lowFirst_splice hhost hxs hn (swap_length hslice hdvd), swap_lowFirst hslice hdvd,
      lowFirst_slice hhost hxs hn, value_append, swap_length htake hdvd,
      Nat.add_mul_mod_self_left, value_swap htake, value_take (by simp; omega),
      Nat.mod_eq_of_lt (he.swapWords_lt hlt)]
  · rw [swapWords_of_zero (by omega) hlt]

section Whole

variable (hmode : e.mode ≠ .RO)

include hmode

theorem lt_bits : 8 * e.getSize < e.lsBit + e.sizeBits + 8 := by
  have hls := he.lsBit
  unfold getSize computeSize
  split_ifs with hw hl
  · obtain ⟨n, hn⟩ := he.whole (by omega) hmode
    simp only [b2B]
    omega
  · obtain ⟨n, hn⟩ := he.whole (by omega) hmode
    simp only [b2B]
    omega
  · simp only [b2B]
    omega

theorem pow_of_swap (hw : e.wordSwap ≠ 0) : 256 ^ b2B e.sizeBits = 2 ^ e.sizeBits := by
  obtain ⟨n, hn⟩ := he.whole hw hmode
  have hb : 8 * b2B e.sizeBits = e.sizeBits := by
    simp only [b2B]
    omega
  rw [pow_eq, hb]

/-- Only the bits of the field matter. -/
theorem swapWords_mod (hv : v < 256 ^ b2B e.sizeBits) :
    e.swapWords v % 2 ^ e.sizeBits = e.swapWords (v % 2 ^ e.sizeBits) := by
  have hlt : v % 2 ^ e.sizeBits < 256 ^ b2B e.sizeBits :=
    lt_of_lt_of_le (Nat.mod_lt _ (by positivity)) pow_le_b2B
  rcases Nat.eq_zero_or_pos e.wordSwap with hw | hw
  · rw [swapWords_of_zero hw hv, swapWords_of_zero hw hlt]
  · have hpow := he.pow_of_swap hmode (by omega)
    rw [← hpow, Nat.mod_eq_of_lt hv, Nat.mod_eq_of_lt (he.swapWords_lt hv)]

end Whole

end Checked

end CIntEntry

section Unpack

variable {host target : ByteOrder} {e : CIntEntry} {xs : Bytes}

/-- The bytes of an element, taken the way of the host. -/
theorem lowFirst_turn (hhost : host = .LE ∨ host = .BE) (htarget : target = .LE ∨ target = .BE)
    {n : ℕ} (hxs : xs.length = n) :
    lowFirst host (if target ≠ host then swap n 1 xs else xs) = lowFirst target xs := by
  subst hxs
  rw [swap_one]
  rcases hhost with rfl | rfl <;> rcases htarget with rfl | rfl <;> simp [lowFirst]

theorem turn_length {n : ℕ} (hxs : xs.length = n) :
    (if target ≠ host then swap n 1 xs else xs).length = n := by
  split_ifs
  · exact swap_length hxs (one_dvd n)
  · exact hxs

theorem unpack_eq (he : e.Checked) (hlt : e.sizeBits < 2 ^ 32) : unpack host target e xs =
    e.swapField host e.getSize (if e.lsBit ≠ 0 then
      shiftRight host e.lsBit (if target ≠ host then swap e.getSize 1 xs else xs)
      else if target ≠ host then swap e.getSize 1 xs else xs) := by
  simp only [unpack, he.getSize_mod hlt, Nat.mod_eq_of_lt hlt]
  rfl

theorem shiftRight_length {shift : ℕ} : (shiftRight host shift xs).length = xs.length := by
  unfold shiftRight
  split_ifs <;> simp

theorem value_lowFirst_shiftRight {shift : ℕ} (hs : shift < 8) :
    value (lowFirst host (if shift ≠ 0 then shiftRight host shift xs else xs)) =
      value (lowFirst host xs) / 2 ^ shift := by
  split_ifs with h
  · rw [shiftRight_eq, value_shiftRightLoop hs]
  · rw [not_not.1 h, pow_zero, Nat.div_one]

variable (he : e.Checked) (hlt : e.sizeBits < 2 ^ 32) (hxs : xs.length = e.getSize)

include he hlt hxs

theorem unpack_length : (unpack host target e xs).length = e.getSize := by
  rw [unpack_eq he hlt]
  apply he.swapField_length _ e.b2B_le
  split_ifs <;> simp only [shiftRight_length, swap_length hxs (one_dvd _), hxs]

theorem value_unpack (hhost : host = .LE ∨ host = .BE) (htarget : target = .LE ∨ target = .BE) :
    value (lowFirst host (unpack host target e xs)) % 256 ^ b2B e.sizeBits =
      e.field (value (lowFirst target xs)) := by
  have hls := he.lsBit
  rw [unpack_eq he hlt, he.value_swapField hhost _ e.b2B_le, value_lowFirst_shiftRight (by omega),
    lowFirst_turn hhost htarget hxs]
  · rfl
  · split_ifs <;> simp only [shiftRight_length, swap_length hxs (one_dvd _), hxs]

end Unpack

section GetElement

variable {host target : ByteOrder} {e : CIntEntry} {m : Mem} {ibufp obufp dbytes : ℕ}

theorem signExtend_length {s : Bool} {n d : ℕ} {xs : Bytes} (hn : 0 < n) (hd : n ≤ 8 * d)
    (hxs : xs.length = d) : (signExtend host s n d xs).length = d := by
  rw [← @lowFirst_length host, signExtend_eq]
  exact signExtendLE_length hn hd (by simpa using hxs)

/-- The number in the lowest bits, in as many bytes as there are. -/
theorem value_extended {s : Bool} {n d k v : ℕ} {bs : Bytes} (hn : 0 < n) (hbs : bs.length = d)
    (hk : n ≤ 8 * k ∨ d ≤ k) (hmod : ∀ j ≤ 8 * k, j ≤ n → value (lowFirst host bs) % 2 ^ j = v % 2 ^ j) :
    (value (lowFirst host (if n < 8 * d then signExtend host s n d bs else bs)) : ℤ) =
      wrap s n v % 256 ^ d := by
  have hcast : (256 : ℤ) ^ d = 2 ^ (8 * d) := by exact_mod_cast pow_eq d
  split_ifs with hd
  · rw [signExtend_eq, value_signExtendLE_wrap hn (by omega) (by simpa using hbs)]
    congr 1
    apply wrap_congr
    exact_mod_cast hmod n (by omega) le_rfl
  · have hlt : value (lowFirst host bs) < 2 ^ (8 * d) := by
      rw [← pow_eq, ← hbs, ← @lowFirst_length host bs]
      exact value_lt _
    have hbytes := hmod (8 * d) (by omega) (by omega)
    rw [Nat.mod_eq_of_lt hlt] at hbytes
    rw [hcast, wrap_mod (by omega), hbytes]
    push_cast
    rfl

theorem mod_pow_of_mod {u v k j : ℕ} (h : u % 256 ^ k = v % 256 ^ k) (hj : j ≤ 8 * k) :
    u % 2 ^ j = v % 2 ^ j := by
  have hdvd : 2 ^ j ∣ 256 ^ k := by
    rw [pow_eq]
    exact pow_dvd_pow 2 hj
  rw [← Nat.mod_mod_of_dvd _ hdvd, h, Nat.mod_mod_of_dvd _ hdvd]

variable (he : e.Checked) (hlt : e.sizeBits < 2 ^ 32)

include he hlt

theorem getElement_spec (hhost : host = .LE ∨ host = .BE) (htarget : target = .LE ∨ target = .BE) :
    ∃ m', getElement host target e dbytes m ibufp obufp = some m' ∧
      (value (lowFirst host (m'.get obufp dbytes)) : ℤ) = wrap e.isSigned e.sizeBits
        (e.field (value (lowFirst target (m.get ibufp e.getSize)))) % 256 ^ dbytes ∧
      ∀ p, Mem.Outside p ibufp e.getSize → Mem.Outside p obufp dbytes → m' p = m p := by
  have hbits := he.bits_le
  have hpos := he.sizeBits
  have hus : (unpack host target e (m.get ibufp e.getSize)).length = e.getSize :=
    unpack_length he hlt Mem.get_length
  have hfield := @value_unpack host target e (m.get ibufp e.getSize) he hlt Mem.get_length hhost htarget
  have hread := Mem.get_modify hus
  have hkept := fun p ↦ @Mem.modify_of_not_mem m ibufp e.getSize p _ hus
  simp only [getElement, he.getSize_mod hlt, Nat.mod_eq_of_lt hlt, if_neg hpos.ne']
  generalize m.modify ibufp e.getSize (unpack host target e) = m₁ at *
  generalize unpack host target e (m.get ibufp e.getSize) = us at *
  -- the lowest bytes are moved
  have hslice : m₁.get (ibufp + if host = .BE then e.getSize - dbytes else 0) (min dbytes e.getSize) =
      slice us (if host = .BE then e.getSize - dbytes else 0) (min dbytes e.getSize) := by
    have hoff : (if host = .BE then e.getSize - dbytes else 0) + min dbytes e.getSize ≤ e.getSize := by
      split_ifs <;> omega
    rw [slice, ← hread, Mem.get_drop (by omega), Mem.get_take (by omega)]
  have hmoved : (m₁.put (obufp + if host = .BE then dbytes - e.getSize else 0)
      (m₁.get (ibufp + if host = .BE then e.getSize - dbytes else 0) (min dbytes e.getSize))).get obufp
        dbytes = moveLow host dbytes e.getSize (m₁.get obufp dbytes) us := by
    rw [get_put_splice, hslice, moveLow]
    rw [Mem.get_length]
    split_ifs <;> omega
  have houter : ∀ p, Mem.Outside p obufp dbytes →
      m₁.put (obufp + if host = .BE then dbytes - e.getSize else 0)
        (m₁.get (ibufp + if host = .BE then e.getSize - dbytes else 0) (min dbytes e.getSize)) p =
        m₁ p := by
    intro p hp
    apply Mem.put_of_not_mem
    rw [Mem.get_length]
    unfold Mem.Outside at hp
    split_ifs <;> omega
  have hlen := @moveLow_length host _ _ _ _ (@Mem.get_length m₁ obufp dbytes) hus
  have hval := value_moveLow (@Mem.get_length m₁ obufp dbytes) hus hhost
  generalize m₁.put _ (m₁.get (ibufp + _) _) = m₂ at *
  have hmod : ∀ j ≤ 8 * min dbytes e.getSize, j ≤ e.sizeBits → value (lowFirst host (moveLow host dbytes
      e.getSize (m₁.get obufp dbytes) us)) % 2 ^ j = e.field (value (lowFirst target
        (m.get ibufp e.getSize))) % 2 ^ j := by
    intro j hj hn
    rw [mod_pow_of_mod hval hj, ← hfield]
    have hb := @CIntEntry.sizeBits_le_b2B e
    exact mod_pow_of_mod (Nat.mod_mod _ _).symm (by omega)
  have hext := @value_extended host e.isSigned _ dbytes _ _ _ hpos hlen (by omega) hmod
  rw [← hmoved] at hext hlen
  split_ifs at hext ⊢ with hd
  · have hsign := @signExtend_length host e.isSigned _ _ _ hpos (by omega) hlen
    refine ⟨_, rfl, ?_, ?_⟩
    · rw [Mem.get_modify hsign, hext]
    · intro p hi ho
      rw [Mem.modify_of_not_mem hsign ho, houter p ho, hkept p hi]
  · exact ⟨m₂, rfl, hext, fun p hi ho ↦ (houter p ho).trans (hkept p hi)⟩

end GetElement

end Cpsw.Sval
