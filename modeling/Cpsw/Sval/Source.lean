import Cpsw.Sval.GetVal

namespace Cpsw.Sval

open Cpsw.Lib Cpsw.Lib.Digits

variable {host target : ByteOrder} {e : CIntEntry} {nelms sbytes i : ℕ} {xs obufp ibufp : Bytes}

/-- What `checkArgs` lets pass, registers without bits as well. -/
structure CIntEntry.CheckArgs (e : CIntEntry) : Prop where
  lsBit : e.lsBit ≤ 7
  dvd : e.wordSwap ≠ 0 → e.wordSwap ∣ b2B e.sizeBits
  whole : e.wordSwap ≠ 0 → e.mode ≠ .RO → 8 ∣ e.sizeBits

theorem CIntEntry.CheckArgs.checked (h : e.CheckArgs) (hbits : 0 < e.sizeBits) : e.Checked :=
  ⟨hbits, h.lsBit, h.dvd, h.whole⟩

section Lengths

variable {wlen k p q n : ℕ}

theorem swapLoop_length (hq : q + wlen ≤ xs.length) (hpq : p + 2 * (wlen * k) ≤ q + wlen) :
    (swapLoop wlen k p q xs).length = xs.length := by
  induction k generalizing p q xs with
  | zero => rfl
  | succ k ih =>
    rw [Nat.mul_add, Nat.mul_one] at hpq
    have hfirst : (splice xs p (slice xs q wlen)).length = xs.length := by
      apply splice_length
      rw [slice_length hq]
      omega
    have hboth : (splice (splice xs p (slice xs q wlen)) q (slice xs p wlen)).length = xs.length := by
      rw [splice_length, hfirst]
      rw [hfirst, slice_length (by omega)]
      exact hq
    rw [swapLoop, ih (by omega) (by omega), hboth]

theorem length_swap (hxs : xs.length = n) : (swap n wlen xs).length = n := by
  unfold swap
  split_ifs with hw
  · have hle : wlen * (n / wlen) ≤ n := Nat.mul_div_le n wlen
    have hhalf : wlen * (2 * (n / wlen / 2)) ≤ wlen * (n / wlen) :=
      Nat.mul_le_mul_left wlen (Nat.mul_div_le _ 2)
    rw [Nat.mul_left_comm] at hhalf
    rcases Nat.lt_or_ge n wlen with hlt | hge
    · rw [Nat.div_eq_of_lt hlt]
      exact hxs
    · rw [swapLoop_length (by omega) (by omega), hxs]
  · exact hxs

theorem shiftLeft_length {shift : ℕ} : (shiftLeft host shift xs).length = xs.length := by
  rw [← @lowFirst_length host, shiftLeft_eq, shiftLeftLoop_length, lowFirst_length]

end Lengths

/-- The passes over an element once its sign is extended. -/
def passes (host target : ByteOrder) (e : CIntEntry) (obufp : Bytes) : Bytes :=
  let dbytes := e.getSize % 2 ^ 32
  let nbytes := b2B e.sizeBits % 2 ^ 32
  let noff := if host = .BE then dbytes - nbytes else 0
  let obufp := if e.wordSwap > 0 then
    splice obufp noff (swap nbytes e.wordSwap (slice obufp noff nbytes)) else obufp
  let obufp := if e.lsBit ≠ 0 then shiftLeft host e.lsBit obufp else obufp
  if target ≠ host then swap dbytes 1 obufp else obufp

theorem pack_eq_passes : pack host target e sbytes obufp ibufp =
    passes host target e (if e.sizeBits > 8 * sbytes then
      signExtend host e.isSigned (8 * sbytes) (e.getSize % 2 ^ 32)
        (moveLow host (e.getSize % 2 ^ 32) sbytes obufp ibufp)
    else moveLow host (e.getSize % 2 ^ 32) sbytes obufp ibufp) := rfl

/-- The element that the passes go over holds what they look at. -/
structure CIntEntry.Holds (e : CIntEntry) (sbytes : ℕ) : Prop where
  words : 0 < e.wordSwap → b2B e.sizeBits % 2 ^ 32 ≤ e.getSize % 2 ^ 32
  sign : 8 * sbytes < e.sizeBits → sbytes ≤ e.getSize % 2 ^ 32

theorem passes_length (hwords : 0 < e.wordSwap → b2B e.sizeBits % 2 ^ 32 ≤ e.getSize % 2 ^ 32)
    (hob : obufp.length = e.getSize % 2 ^ 32) :
    (passes host target e obufp).length = e.getSize % 2 ^ 32 := by
  have hswapped : ∀ noff, noff = (if host = .BE then e.getSize % 2 ^ 32 - b2B e.sizeBits % 2 ^ 32
      else 0) → (if e.wordSwap > 0 then splice obufp noff (swap (b2B e.sizeBits % 2 ^ 32) e.wordSwap
        (slice obufp noff (b2B e.sizeBits % 2 ^ 32))) else obufp).length = e.getSize % 2 ^ 32 := by
    intro noff hnoff
    split_ifs with hw
    · have hle := hwords hw
      have hoff : noff + b2B e.sizeBits % 2 ^ 32 ≤ obufp.length := by
        rw [hnoff, hob]
        split_ifs <;> omega
      rw [splice_length, hob]
      rw [length_swap (slice_length hoff)]
      exact hoff
    · exact hob
  unfold passes
  dsimp only
  generalize hnoff : (if host = .BE then e.getSize % 2 ^ 32 - b2B e.sizeBits % 2 ^ 32 else 0) = noff
  have hlen := hswapped noff hnoff.symm
  generalize (if e.wordSwap > 0 then splice obufp noff (swap (b2B e.sizeBits % 2 ^ 32) e.wordSwap
    (slice obufp noff (b2B e.sizeBits % 2 ^ 32))) else obufp) = swapped at hlen ⊢
  have hshifted : (if e.lsBit ≠ 0 then shiftLeft host e.lsBit swapped else swapped).length =
      e.getSize % 2 ^ 32 := by
    split_ifs
    · rw [shiftLeft_length, hlen]
    · exact hlen
  split_ifs at hshifted ⊢
  all_goals first | exact length_swap hshifted | exact hshifted

theorem pack_length (h : e.Holds sbytes) (hs : 0 < sbytes) (hob : obufp.length = e.getSize % 2 ^ 32)
    (hib : ibufp.length = sbytes) :
    (pack host target e sbytes obufp ibufp).length = e.getSize % 2 ^ 32 := by
  have hmoved := @moveLow_length host _ _ _ _ hob hib
  rw [pack_eq_passes]
  apply passes_length h.words
  split_ifs with hext
  · have hle := h.sign hext
    exact signExtend_length (by omega) (by omega) hmoved
  · exact hmoved

section Independent

variable {old old' us : Bytes} {d s v : ℕ}

theorem lowFirst_inj {ys : Bytes} (host : ByteOrder) (h : lowFirst host xs = lowFirst host ys) : xs = ys := by
  rw [← @lowFirst_lowFirst host xs, h, lowFirst_lowFirst]

theorem take_bytes (hd : d ≤ s) : (bytes s v).take d = bytes d v := by
  apply value_inj
  · simp [hd]
  · rw [value_take (by simpa using hd), value_bytes, value_bytes, Nat.mod_mod_of_dvd]
    exact pow_dvd_pow 256 hd

theorem lowFirst_moveLow (hhost : host = .LE ∨ host = .BE) (hold : old.length = d)
    (hus : us.length = s) : lowFirst host (moveLow host d s old us) =
      (lowFirst host us).take (min d s) ++ (lowFirst host old).drop (min d s) := by
  have hslice : (slice us (lowOff host s (min d s)) (min d s)).length = min d s :=
    slice_length (by rw [hus]; exact lowOff_le (Nat.min_le_right _ _))
  rw [moveLow_eq, lowFirst_splice hhost hold (Nat.min_le_left _ _) hslice,
    lowFirst_slice hhost hus (Nat.min_le_right _ _)]

/-- A number in an element that is as wide as the register, whatever was there before. -/
theorem moveLow_bytes (hhost : host = .LE ∨ host = .BE) (hold : old.length = d) (hd : d ≤ s) :
    moveLow host d s old (lowFirst host (bytes s v)) = lowFirst host (bytes d v) := by
  have hlen : (lowFirst host old).drop d = [] := List.drop_of_length_le (by simp [hold])
  apply lowFirst_inj host
  rw [lowFirst_moveLow hhost hold (by simp), lowFirst_lowFirst, lowFirst_lowFirst,
    Nat.min_eq_left hd, take_bytes hd, hlen, List.append_nil]

/-- The sign is extended over all of the register that is not written. -/
theorem signExtend_moveLow {isSigned : Bool} (hhost : host = .LE ∨ host = .BE) (hs : 0 < s)
    (hsd : s ≤ d) (hold : old.length = d) (hold' : old'.length = d) (hus : us.length = s) :
    signExtend host isSigned (8 * s) d (moveLow host d s old us) =
      signExtend host isSigned (8 * s) d (moveLow host d s old' us) := by
  have hext : ∀ rest, signExtendLE isSigned (8 * s) d ((lowFirst host us).take s ++ rest) =
      signExtendLE isSigned (8 * s) d ((lowFirst host us).take s) := by
    intro rest
    have hbyte : (8 * s - 1) / 8 = s - 1 := by omega
    have hlen : ((lowFirst host us).take s).length = s := by simp [hus]
    simp only [signExtendLE, hbyte]
    rw [List.take_append_of_le_length (by omega), List.getD_append _ _ _ _ (by omega)]
  apply lowFirst_inj host
  rw [signExtend_eq, signExtend_eq, lowFirst_moveLow hhost hold hus, lowFirst_moveLow hhost hold' hus,
    Nat.min_eq_right hsd, hext, hext]

end Independent

section Elements

variable {m dev : Mem} {addr : ℕ → ℕ} {buf tmp : ℕ} {msk1 mskn : UInt8} {n : ℕ}
  {src src' : ℕ → Bytes}

theorem writeElements_congr (h : ∀ i < nelms, ∀ old : Bytes, old.length = n →
      writeFunc8 msk1 mskn old (src i) = writeFunc8 msk1 mskn old (src' i)) :
    writeElements dev addr nelms n msk1 mskn src = writeElements dev addr nelms n msk1 mskn src' := by
  apply List.foldl_ext
  intro dev i hi
  rw [h i (List.mem_range.1 hi) _ Mem.get_length]

/-- An element that is not converted: it is all of the register. -/
theorem masks_whole (hls : e.lsBit = 0) (hbits : e.sizeBits = 8 * sbytes) :
    masks target e = (0, 0) := by
  have hmod : (e.lsBit + e.sizeBits) % 8 = 0 := by omega
  have hnone : (if ~~~UInt8.ofNat (2 ^ 0 - 1) = (0xff : UInt8) then (0x00 : UInt8)
      else ~~~UInt8.ofNat (2 ^ 0 - 1)) = 0 := by decide
  simp only [masks, hmod]
  rw [hls, hnone]
  split_ifs <;> rfl

theorem pack_whole (hls : e.lsBit = 0) (hw : e.wordSwap = 0) (hbits : e.sizeBits = 8 * sbytes)
    (hsize : e.getSize % 2 ^ 32 = sbytes) (hib : ibufp.length = sbytes) :
    pack host host e sbytes ibufp ibufp = ibufp := by
  have hsub : (if host = .BE then sbytes - sbytes else 0) = 0 := by split_ifs <;> omega
  have hslice : slice ibufp 0 sbytes = ibufp := by simp [slice, ← hib]
  have hsplice : splice ibufp 0 ibufp = ibufp := by simp [splice]
  rw [pack_eq_passes, if_neg (by omega), hsize, moveLow, Nat.min_self, hsub, hslice, hsplice]
  simp [passes, hls, hw]

/-- What the address is given to write: each element went through the passes once, over what its
place in the new buffer held. -/
theorem setVal_packs (hhost : host = .LE ∨ host = .BE) (hs : 0 < sbytes)
    (hholds : e.Holds sbytes) (hwhole : e.sizeBits = 8 * sbytes → sbytes < 2 ^ 32)
    (htmp : Mem.Apart tmp (nelms * (e.getSize % 2 ^ 32)) buf (nelms * sbytes)) :
    ∃ src : ℕ → Bytes, setVal host target e sbytes nelms buf tmp m dev addr =
      writeElements dev addr nelms (e.getSize % 2 ^ 32) (masks (resolveOrder host target) e).1
        (masks (resolveOrder host target) e).2 src ∧
      ∀ i < nelms, ∃ obufp : Bytes, obufp.length = e.getSize % 2 ^ 32 ∧
        src i = pack host (resolveOrder host target) e sbytes obufp
          (m.get (buf + i * sbytes) sbytes) := by
  unfold setVal
  dsimp only
  split_ifs with hwork
  · refine ⟨_, rfl, ?_⟩
    have hstep : ∀ m', ∀ i ∈ elementOrder host nelms,
        Mem.get m' (buf + i * sbytes) sbytes = m.get (buf + i * sbytes) sbytes →
        (∃ obufp : Bytes, obufp.length = e.getSize % 2 ^ 32 ∧
          (m'.put (tmp + i * (e.getSize % 2 ^ 32)) (pack host (resolveOrder host target) e sbytes
            (m'.get (tmp + i * (e.getSize % 2 ^ 32)) (e.getSize % 2 ^ 32))
            (m'.get (buf + i * sbytes) sbytes))).get
              (tmp + i * (e.getSize % 2 ^ 32)) (e.getSize % 2 ^ 32) =
            pack host (resolveOrder host target) e sbytes obufp (m.get (buf + i * sbytes) sbytes)) ∧
        ∀ p, Mem.Outside p (buf + i * sbytes) sbytes →
          Mem.Outside p (tmp + i * (e.getSize % 2 ^ 32)) (e.getSize % 2 ^ 32) →
          m'.put (tmp + i * (e.getSize % 2 ^ 32)) (pack host (resolveOrder host target) e sbytes
            (m'.get (tmp + i * (e.getSize % 2 ^ 32)) (e.getSize % 2 ^ 32))
            (m'.get (buf + i * sbytes) sbytes)) p = m' p := by
      intro m' i hi hS
      have hold := @Mem.get_length m' (tmp + i * (e.getSize % 2 ^ 32)) (e.getSize % 2 ^ 32)
      have hlen := @pack_length host (resolveOrder host target) e sbytes _ _ hholds hs hold
        (@Mem.get_length m (buf + i * sbytes) sbytes)
      rw [hS]
      refine ⟨⟨_, hold, ?_⟩, fun p _ hp ↦ Mem.put_of_not_mem (by rwa [hlen])⟩
      generalize pack host _ e sbytes _ _ = bs at hlen ⊢
      conv_lhs => rw [← hlen]
      exact Mem.get_put
    have hl : (elementOrder host nelms).Pairwise fun i j ↦
        Mem.Apart (buf + j * sbytes) sbytes (buf + i * sbytes) sbytes ∧
        Mem.Apart (buf + j * sbytes) sbytes (tmp + i * (e.getSize % 2 ^ 32)) (e.getSize % 2 ^ 32) ∧
        Mem.Apart (tmp + i * (e.getSize % 2 ^ 32)) (e.getSize % 2 ^ 32)
          (tmp + j * (e.getSize % 2 ^ 32)) (e.getSize % 2 ^ 32) := by
      apply (pairwise_elementOrder hhost).imp
      intro i j hij
      have hne : j ≠ i := by omega
      have hi := @apart_of_lt nelms i (e.getSize % 2 ^ 32) tmp (by omega)
      have hj := @apart_of_lt nelms j sbytes buf (by omega)
      refine ⟨apart_elements _ hne, ?_, apart_elements _ hne.symm⟩
      unfold Mem.Apart at htmp ⊢
      omega
    obtain ⟨hpacked, -⟩ := @Mem.foldl_pieces m _ (fun i ↦ buf + i * sbytes)
      (fun i ↦ tmp + i * (e.getSize % 2 ^ 32)) sbytes (e.getSize % 2 ^ 32) _
      (fun i bs ↦ ∃ obufp : Bytes, obufp.length = e.getSize % 2 ^ 32 ∧
        bs = pack host (resolveOrder host target) e sbytes obufp (m.get (buf + i * sbytes) sbytes))
      _ hstep hl fun _ _ ↦ rfl
    exact fun i hi ↦ hpacked i (mem_elementOrder.2 hi)
  · simp only [not_or, not_not, Nat.not_lt, Nat.le_zero] at hwork
    obtain ⟨horder, hls, hbits, hw⟩ := hwork
    have hlt := hwhole hbits
    have hd : e.getSize % 2 ^ 32 = sbytes := by
      simp only [CIntEntry.getSize, computeSize, hw, hls, hbits, b2B]
      split_ifs <;> omega
    rw [masks_whole hls hbits, hd, horder]
    exact ⟨_, rfl, fun i _ ↦ ⟨_, Mem.get_length, (pack_whole hls hw hbits hd Mem.get_length).symm⟩⟩

end Elements

end Cpsw.Sval
