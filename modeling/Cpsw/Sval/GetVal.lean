import Cpsw.Sval.Element

namespace Cpsw.Sval

open Cpsw.Lib Cpsw.Lib.Digits

variable {host target : ByteOrder} {e : CIntEntry} {nelms buf tmp i s dbytes : ℕ} {m dev : Mem}
  {addr : ℕ → ℕ}

theorem mem_elementOrder : i ∈ elementOrder host nelms ↔ i < nelms := by
  unfold elementOrder
  split_ifs <;> simp

theorem pairwise_elementOrder (hhost : host = .LE ∨ host = .BE) :
    (elementOrder host nelms).Pairwise fun i j ↦ (host = .LE ∧ j < i ∧ i < nelms) ∨
      (host = .BE ∧ i < j ∧ j < nelms) := by
  have hup : (List.range nelms).Pairwise fun i j ↦ i < j ∧ j < nelms :=
    (List.pairwise_lt_range (n := nelms)).imp_of_mem fun _ hj h ↦ ⟨h, List.mem_range.1 hj⟩
  rcases hhost with rfl | rfl
  · apply (List.pairwise_reverse.2 hup).imp
    intro i j h
    exact .inl ⟨rfl, h⟩
  · exact hup.imp fun h ↦ .inr ⟨rfl, h⟩

theorem apart_of_lt (a : ℕ) (h : i < nelms) : a + i * s + s ≤ a + nelms * s := by
  have hmul : (i + 1) * s ≤ nelms * s := Nat.mul_le_mul_right s h
  rw [Nat.add_mul, Nat.one_mul] at hmul
  omega

theorem apart_elements (a : ℕ) {i j : ℕ} (h : i ≠ j) : Mem.Apart (a + i * s) s (a + j * s) s := by
  rcases Nat.lt_or_gt_of_ne h with h | h
  · exact .inl (apart_of_lt a h)
  · exact .inr (apart_of_lt a h)

/-- The loop reads each element before it writes over its bytes. -/
theorem elementOrder_apart (hhost : host = .LE ∨ host = .BE) (hs : e.getSize % 2 ^ 32 = s)
    (htmp : Mem.Apart tmp (nelms * s) buf (nelms * dbytes)) :
    (elementOrder host nelms).Pairwise fun i j ↦
      Mem.Apart (readBuf host e dbytes nelms buf tmp + j * s) s
        (readBuf host e dbytes nelms buf tmp + i * s) s ∧
      Mem.Apart (readBuf host e dbytes nelms buf tmp + j * s) s (buf + i * dbytes) dbytes ∧
      Mem.Apart (buf + i * dbytes) dbytes (buf + j * dbytes) dbytes := by
  apply (pairwise_elementOrder hhost).imp
  intro i j hij
  have hne : j ≠ i := by omega
  refine ⟨apart_elements _ hne, ?_, apart_elements _ hne.symm⟩
  simp only [readBuf, hs]
  unfold Mem.Apart at htmp ⊢
  split_ifs with hgt htop
  -- a buffer of its own
  · have hi := @apart_of_lt nelms i dbytes buf (by omega)
    have hj := @apart_of_lt nelms j s tmp (by omega)
    omega
  -- from the first element up, the bytes of the register at the end of the buffer
  · rcases hij with ⟨rfl, -⟩ | ⟨-, hlt, hj⟩
    · exact absurd htop.2 (by decide)
    · have hi := @apart_of_lt j i dbytes buf hlt
      have hgap : j * dbytes = j * (dbytes - s) + j * s := by
        rw [← Nat.mul_add, Nat.sub_add_cancel (by omega)]
      have hmul : j * (dbytes - s) ≤ nelms * (dbytes - s) := Nat.mul_le_mul_right _ (by omega)
      rw [Nat.mul_comm nelms] at hmul
      omega
  -- from the last element down, or without any gap
  · rcases hij with ⟨-, hlt, -⟩ | ⟨rfl, hlt, -⟩
    · have hj := @apart_of_lt i j s buf hlt
      have hmul : i * s ≤ i * dbytes := Nat.mul_le_mul_left i (by omega)
      omega
    · have hsame : s = dbytes := by
        by_contra hne
        exact htop ⟨by omega, rfl⟩
      subst hsame
      have hi := @apart_of_lt j i s buf hlt
      omega

theorem get_readElements (a : ℕ) (hi : i < nelms) :
    (m.put a (readElements dev addr nelms s)).get (a + i * s) s = dev.get (addr i) s :=
  Mem.get_put_flatMap (fun _ ↦ Mem.get_length) hi

/-- Without a bit of the field in an `unsigned`, the sign is looked for in front of the buffer. -/
theorem getVal_none (hd : 0 < dbytes) (hn : 0 < nelms) (hz : e.sizeBits % 2 ^ 32 = 0) :
    getVal host target e dbytes nelms buf tmp m dev addr = none := by
  have hstep : ∀ m ibufp obufp, getElement host (resolveOrder host target) e dbytes m ibufp obufp =
      none := by
    intro m ibufp obufp
    simp only [getElement, hz]
    rw [if_pos (by omega), if_pos trivial]
  have hwork : (0 : ℕ) ≠ 8 * dbytes := by omega
  obtain ⟨i, l, hl⟩ := List.exists_cons_of_ne_nil (l := elementOrder host nelms) <| by
    intro hnil
    have h0 : 0 ∈ elementOrder host nelms := mem_elementOrder.2 hn
    rw [hnil] at h0
    cases h0
  simp only [getVal, hz]
  rw [if_pos (.inr (.inr (.inl hwork))), hl, List.foldlM_cons, hstep]
  rfl

section GetVal

variable (he : e.Checked) (hlt : e.sizeBits < 2 ^ 32) (hhost : host = .LE ∨ host = .BE)
  (htarget : resolveOrder host target = .LE ∨ resolveOrder host target = .BE)
  (htmp : Mem.Apart tmp (nelms * e.getSize) buf (nelms * dbytes))

include he hlt hhost htarget htmp

/-- The number that is left in each element of the buffer. -/
theorem getVal_spec : ∃ m', getVal host target e dbytes nelms buf tmp m dev addr = some m' ∧
    ∀ i < nelms, (value (lowFirst host (m'.get (buf + i * dbytes) dbytes)) : ℤ) =
      wrap e.isSigned e.sizeBits (e.field (value (lowFirst (resolveOrder host target)
        (dev.get (addr i) e.getSize)))) % 256 ^ dbytes := by
  have hsize := he.getSize_mod hlt
  simp only [getVal, hsize, Nat.mod_eq_of_lt hlt]
  split_ifs with hwork
  · obtain ⟨m', hm', hread, -⟩ := Mem.foldlM_pieces
      (Q := fun i bs ↦ (value (lowFirst host bs) : ℤ) = wrap e.isSigned e.sizeBits
        (e.field (value (lowFirst (resolveOrder host target) (dev.get (addr i) e.getSize)))) %
          256 ^ dbytes)
      (fun m i _ hS ↦ hS ▸ getElement_spec he hlt hhost htarget)
      (elementOrder_apart hhost hsize htmp)
      (fun i hi ↦ get_readElements (m := m) _ (mem_elementOrder.1 hi))
    exact ⟨m', hm', fun i hi ↦ hread i (mem_elementOrder.2 hi)⟩
  · simp only [not_or, not_not, Nat.not_lt, Nat.le_zero] at hwork
    obtain ⟨horder, hls, hbits, hw⟩ := hwork
    -- nothing has to be done to the bytes
    have hd : e.getSize = dbytes := by
      simp only [CIntEntry.getSize, computeSize, hw, hls, hbits, b2B]
      split_ifs <;> omega
    have hbuf : readBuf host e dbytes nelms buf tmp = buf := by
      simp only [readBuf, hsize]
      simp [hd]
    refine ⟨_, rfl, fun i hi ↦ ?_⟩
    have hcast : (256 : ℤ) ^ dbytes = 2 ^ e.sizeBits := by
      rw [hbits]
      exact_mod_cast pow_eq dbytes
    have hlt' : value (lowFirst host (dev.get (addr i) dbytes)) < 2 ^ e.sizeBits := by
      have h := value_lt (lowFirst host (dev.get (addr i) dbytes))
      rwa [lowFirst_length, Mem.get_length, pow_eq, ← hbits] at h
    have hb : 256 ^ b2B e.sizeBits = 2 ^ e.sizeBits := by
      rw [pow_eq, hbits]
      congr 1
      simp only [b2B]
      omega
    have hfield : e.field (value (lowFirst host (dev.get (addr i) dbytes))) =
        value (lowFirst host (dev.get (addr i) dbytes)) := by
      rw [CIntEntry.field, hls, pow_zero, Nat.div_one, hb, Nat.mod_eq_of_lt hlt',
        CIntEntry.swapWords_of_zero hw (hb ▸ hlt')]
    rw [hbuf, horder, hd, get_readElements buf hi, hfield, hcast, wrap_mod le_rfl]
    exact_mod_cast (Nat.mod_eq_of_lt hlt').symm

end GetVal

end Cpsw.Sval
