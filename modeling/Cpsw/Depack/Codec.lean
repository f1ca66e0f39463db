import Cpsw.Depack.BitField

namespace Cpsw.Depack

/-- A number and the bits that it takes. -/
structure Field where
  off : ℕ
  size : ℕ
  val : ℕ
  deriving DecidableEq, Repr

namespace Field

variable {f g : Field} {fs gs : List Field} {p q : Bytes} {k n : ℕ}

/-- The bit `k` belongs to the field. -/
def Has (f : Field) (k : ℕ) : Prop := f.off ≤ k ∧ k < f.off + f.size

instance : Decidable (f.Has k) := inferInstanceAs (Decidable (_ ∧ _))

/-- Within `n` bytes, and narrow enough to be read back. -/
structure Fits (n : ℕ) (f : Field) : Prop where
  pos : 0 < f.size
  narrow : f.off % 8 + f.size ≤ 32 ∧ f.size < 31
  le : f.off + f.size ≤ 8 * n

def Apart (f g : Field) : Prop := f.off + f.size ≤ g.off ∨ g.off + g.size ≤ f.off

instance : Decidable (Apart f g) := inferInstanceAs (Decidable (_ ∨ _))

instance : Decidable (Fits n f) :=
  decidable_of_iff (0 < f.size ∧ (f.off % 8 + f.size ≤ 32 ∧ f.size < 31) ∧ f.off + f.size ≤ 8 * n)
    ⟨fun h ↦ ⟨h.1, h.2.1, h.2.2⟩, fun h ↦ ⟨h.pos, h.narrow, h.le⟩⟩

/-- The field without what is in it. -/
def shape (f : Field) : Field := ⟨f.off, f.size, 0⟩

theorem fit_of_shape (h : (∀ f ∈ fs.map shape, f.Fits n) ∧ (fs.map shape).Pairwise Apart) :
    (∀ f ∈ fs, f.Fits n) ∧ fs.Pairwise Apart := by
  refine ⟨fun f hf ↦ ?_, List.Pairwise.of_map shape (fun _ _ ↦ id) h.2⟩
  have hs := h.1 _ (List.mem_map_of_mem hf)
  exact ⟨hs.pos, hs.narrow, hs.le⟩

/-- One number after the other. -/
def write (p : Bytes) (fs : List Field) : Bytes :=
  fs.foldl (fun p f ↦ setNum f.off f.size f.val p) p

theorem length_setNum (off bitSize val : ℕ) (p : Bytes) :
    (setNum off bitSize val p).length = p.length := by
  unfold setNum
  split_ifs
  · rfl
  · exact length_foldl_set (fun i x ↦ (UInt8.ofNat (val * 2 ^ (off % 8) % 2 ^ 64 / 256 ^ i) &&&
      ~~~(fieldMask (off % 8) bitSize ((off % 8 + bitSize + 7) / 8) i)) |||
      (x &&& fieldMask (off % 8) bitSize ((off % 8 + bitSize + 7) / 8) i)) _ _ _

theorem length_write (p : Bytes) (fs : List Field) : (write p fs).length = p.length := by
  induction fs generalizing p with
  | nil => rfl
  | cons f fs ih => exact (ih _).trans (length_setNum _ _ _ _)

theorem Fits.bytes (h : f.Fits n) : f.off / 8 + (f.off % 8 + f.size + 7) / 8 ≤ n := by
  have h₁ := h.pos
  have h₂ := h.le
  omega

theorem Fits.bitAt_setNum (h : f.Fits p.length) (k : ℕ) : bitAt (setNum f.off f.size f.val p) k =
    if f.Has k then f.val.testBit (k - f.off) else bitAt p k :=
  Depack.bitAt_setNum h.pos (h.narrow.1.trans (by decide)) h.bytes k

theorem bitAt_write_of_not (hfit : ∀ f ∈ fs, f.Fits p.length) (hk : ∀ f ∈ fs, ¬f.Has k) :
    bitAt (write p fs) k = bitAt p k := by
  induction fs generalizing p with
  | nil => rfl
  | cons f fs ih =>
    have hf := hfit f List.mem_cons_self
    change bitAt (write (setNum f.off f.size f.val p) fs) k = _
    rw [ih (fun g hg ↦ ?_) fun g hg ↦ hk g (List.mem_cons_of_mem f hg), hf.bitAt_setNum,
      if_neg (hk f List.mem_cons_self)]
    rw [length_setNum]
    exact hfit g (List.mem_cons_of_mem f hg)

/-- A field that no other one overlaps keeps what was written to it. -/
theorem bitAt_write (hfit : ∀ f ∈ fs, f.Fits p.length) (hd : fs.Pairwise Apart) (hf : f ∈ fs)
    (hk : f.Has k) : bitAt (write p fs) k = f.val.testBit (k - f.off) := by
  induction fs generalizing p with
  | nil => cases hf
  | cons g fs ih =>
    have hfit' : ∀ f ∈ fs, f.Fits (setNum g.off g.size g.val p).length := by
      intro f hf
      rw [length_setNum]
      exact hfit f (List.mem_cons_of_mem g hf)
    obtain ⟨hhead, htail⟩ := List.pairwise_cons.1 hd
    change bitAt (write (setNum g.off g.size g.val p) fs) k = _
    rcases List.mem_cons.1 hf with rfl | hf
    · have hnot : ∀ g ∈ fs, ¬g.Has k := by
        intro g hg ⟨h₁, h₂⟩
        obtain ⟨h₃, h₄⟩ := hk
        rcases hhead g hg with h | h <;> omega
      rw [bitAt_write_of_not hfit' hnot, (hfit f List.mem_cons_self).bitAt_setNum, if_pos hk]
    · exact ih hfit' htail hf

/-- Where two lists of numbers agree in one bit, so do the buffers. -/
theorem bitAt_write_congr (hfit : ∀ f ∈ fs, f.Fits p.length) (hlen : p.length = q.length)
    (hpq : bitAt p k = bitAt q k)
    (h : List.Forall₂ (fun f g : Field ↦ g.off = f.off ∧ g.size = f.size ∧
      (f.Has k → f.val.testBit (k - f.off) = g.val.testBit (k - f.off))) fs gs) :
    bitAt (write p fs) k = bitAt (write q gs) k := by
  induction h generalizing p q with
  | nil => exact hpq
  | @cons f g fs gs hfg _ ih =>
    obtain ⟨hoff, hsize, hval⟩ := hfg
    have hf := hfit f List.mem_cons_self
    have hg : g.Fits q.length := by
      rw [← hlen]
      exact ⟨hsize ▸ hf.pos, hoff ▸ hsize ▸ hf.narrow, hoff ▸ hsize ▸ hf.le⟩
    have hhas : g.Has k ↔ f.Has k := by rw [Has, Has, hoff, hsize]
    apply ih
    · intro f' hf'
      rw [length_setNum]
      exact hfit f' (List.mem_cons_of_mem f hf')
    · rw [length_setNum, length_setNum, hlen]
    · rw [hf.bitAt_setNum, hg.bitAt_setNum]
      by_cases hk : f.Has k
      · rw [if_pos hk, if_pos (hhas.2 hk), hoff, hval hk]
      · rw [if_neg hk, if_neg (mt hhas.1 hk), hpq]

end Field

theorem testBit_getNum {off bitSize : ℕ} (hb : 0 < bitSize) (hn : off % 8 + bitSize ≤ 32)
    (h31 : bitSize < 31) (p : Bytes) (k : ℕ) :
    (getNum off bitSize p).testBit k = (decide (k < bitSize) && bitAt p (off + k)) := by
  rw [CPackHeaderUtil.testBit_getNum hb (CPackHeaderUtil.getNum_eq h31 p)]
  congr 1
  apply decide_eq_decide.2
  omega

/-- What is read depends on the bits of the field only. -/
theorem getNum_congr {off bitSize : ℕ} {p q : Bytes} (hb : 0 < bitSize)
    (hn : off % 8 + bitSize ≤ 32) (h31 : bitSize < 31)
    (h : ∀ k, off ≤ k → k < off + bitSize → bitAt p k = bitAt q k) :
    getNum off bitSize p = getNum off bitSize q := by
  apply Nat.eq_of_testBit_eq
  intro k
  rw [testBit_getNum hb hn h31, testBit_getNum hb hn h31]
  by_cases hk : k < bitSize
  · rw [h (off + k) (Nat.le_add_right _ _) (by omega)]
  · rw [decide_eq_false hk, Bool.false_and, Bool.false_and]

theorem bitAt_append {p : Bytes} {k : ℕ} (hk : k < 8 * p.length) (rest : Bytes) :
    bitAt (p ++ rest) k = bitAt p k := by
  have hlt : k / 8 < p.length := by omega
  rw [bitAt, bitAt, List.getD_append _ _ _ _ hlt]

/-- A number of a header is read back from it, whatever follows. -/
theorem Field.getNum_write {fs : List Field} {f : Field} {p : Bytes}
    (hfit : ∀ f ∈ fs, f.Fits p.length) (hd : fs.Pairwise Apart) (hf : f ∈ fs) (rest : Bytes) :
    getNum f.off f.size (write p fs ++ rest) = f.val % 2 ^ f.size := by
  have h := hfit f hf
  apply Nat.eq_of_testBit_eq
  intro k
  rw [testBit_getNum h.pos h.narrow.1 h.narrow.2, Nat.testBit_mod_two_pow]
  by_cases hk : k < f.size
  · have hle := h.le
    rw [bitAt_append (by rw [length_write]; omega),
      bitAt_write hfit hd hf ⟨Nat.le_add_right _ _, by omega⟩, Nat.add_sub_cancel_left]
  · rw [decide_eq_false hk, Bool.false_and, Bool.false_and]

/-- A test of one bit. -/
theorem and_two_pow_ne_zero (x : UInt8) {j : ℕ} (hj : j < 8) :
    (x &&& UInt8.ofNat (2 ^ j) != 0) = x.toBitVec.getLsbD j := by
  have h : ∀ n : Fin 256, ∀ j : Fin 8, (UInt8.ofNat n &&& UInt8.ofNat (2 ^ j.val) != 0) =
      (UInt8.ofNat n).toBitVec.getLsbD j := by decide +kernel
  have hx := h ⟨x.toNat, x.toNat_lt⟩ ⟨j, hj⟩
  rwa [UInt8.ofNat_toNat] at hx

theorem getLsbD_setBit (x : UInt8) (v : Bool) (b : ℕ) {j : ℕ} (hj : j < 8) :
    (if v then x ||| UInt8.ofNat (2 ^ b) else x &&& ~~~UInt8.ofNat (2 ^ b)).toBitVec.getLsbD j =
      if j = b then v else x.toBitVec.getLsbD j := by
  have hbit : (UInt8.ofNat (2 ^ b)).toBitVec.getLsbD j = decide (b = j) := by
    rw [getLsbD_ofNat _ _ hj, Nat.testBit_two_pow]
  cases v with
  | true =>
    rw [if_pos rfl, UInt8.toBitVec_or, BitVec.getLsbD_or, hbit]
    by_cases h : j = b
    · rw [if_pos h, decide_eq_true h.symm, Bool.or_true]
    · rw [if_neg h, decide_eq_false (Ne.symm h), Bool.or_false]
  | false =>
    rw [if_neg Bool.false_ne_true, UInt8.toBitVec_and, UInt8.toBitVec_not, BitVec.getLsbD_and,
      BitVec.getLsbD_not, hbit, decide_eq_true hj, Bool.true_and]
    by_cases h : j = b
    · rw [if_pos h, decide_eq_true h.symm, Bool.not_true, Bool.and_false]
    · rw [if_neg h, decide_eq_false (Ne.symm h), Bool.not_false, Bool.and_true]

namespace PackHeader

variable (L : Layout) {h : PackHeader} {k n : ℕ} {p : Bytes}

def getSOF (h : PackHeader) : Bool := h.tUsr1 &&& UInt8.ofNat (2 ^ L.FRAG_FRST_BIT) != 0

def setTDest (tDest : UInt8) (h : PackHeader) : PackHeader := { h with tDest := tDest }

def setTUsr1 (tUsr1 : UInt8) (h : PackHeader) : PackHeader := { h with tUsr1 := tUsr1 }

def setTId (tId : UInt8) (h : PackHeader) : PackHeader := { h with tId := tId }

inductive Setter
  | fragNo (v : ℕ)
  | tDest (v : UInt8)
  | tUsr1 (v : UInt8)
  | tId (v : UInt8)

def Setter.run : Setter → PackHeader → PackHeader
  | fragNo v => setFragNo L v
  | tDest v => setTDest v
  | tUsr1 v => setTUsr1 v
  | tId v => setTId v

/-- The bits of the field that is set; the fragment number also sets the mark of a first one. -/
def Setter.Owns : Setter → ℕ → Prop
  | fragNo _, k => Field.Has ⟨L.FRAG_NO_BIT_OFFSET, L.FRAG_NO_BIT_SIZE, 0⟩ k ∨
      k = L.TUSR1_BIT_OFFSET + L.FRAG_FRST_BIT
  | tDest _, k => Field.Has ⟨L.TDEST_BIT_OFFSET, 8, 0⟩ k
  | tUsr1 _, k => Field.Has ⟨L.TUSR1_BIT_OFFSET, 8, 0⟩ k
  | tId _, k => Field.Has ⟨L.TID_BIT_OFFSET, 8, 0⟩ k

/-- What `insert` writes, in its order. -/
def fields (h : PackHeader) : List Field :=
  [⟨VERSION_BIT_OFFSET, VERSION_BIT_SIZE, h.vers⟩,
    ⟨L.FRAG_NO_BIT_OFFSET, L.FRAG_NO_BIT_SIZE, h.fragNo⟩,
    ⟨L.TDEST_BIT_OFFSET, 8, h.tDest.toNat⟩,
    ⟨L.TID_BIT_OFFSET, 8, h.tId.toNat⟩,
    ⟨L.TUSR1_BIT_OFFSET, 8, h.tUsr1.toNat⟩]

theorem insert_eq_write (h : PackHeader) :
    h.insert L = Field.write (List.replicate HEADER_SIZE 0) (h.fields L) := rfl

/-- The mark of a first fragment is one bit of the user's byte. -/
theorem getSOF_setFragNo (hL : L.FRAG_FRST_BIT < 8) (fragNo : ℕ) (h : PackHeader) :
    (setFragNo L fragNo h).getSOF L = (fragNo == 0) ∧
    ∀ j < 8, j ≠ L.FRAG_FRST_BIT →
      (setFragNo L fragNo h).tUsr1.toNat.testBit j = h.tUsr1.toNat.testBit j := by
  have hbit : ∀ j < 8, (setFragNo L fragNo h).tUsr1.toBitVec.getLsbD j =
      if j = L.FRAG_FRST_BIT then fragNo == 0 else h.tUsr1.toBitVec.getLsbD j :=
    fun j hj ↦ getLsbD_setBit h.tUsr1 (fragNo == 0) _ hj
  constructor
  · rw [getSOF, and_two_pow_ne_zero _ hL, hbit _ hL, if_pos rfl]
  · intro j hj hne
    exact (hbit j hj).trans (if_neg hne)

/-- A setter leaves the numbers of the others alone. -/
theorem Setter.fields_run (hL : L.FRAG_FRST_BIT < 8) (s : Setter) (h : PackHeader)
    (hk : ¬s.Owns L k) : List.Forall₂ (fun f g : Field ↦ g.off = f.off ∧ g.size = f.size ∧
      (f.Has k → f.val.testBit (k - f.off) = g.val.testBit (k - f.off)))
        (h.fields L) ((s.run L h).fields L) := by
  cases s with
  | fragNo v =>
    obtain ⟨hno, hsof⟩ := not_or.1 hk
    refine .cons ⟨rfl, rfl, fun _ ↦ rfl⟩ (.cons ⟨rfl, rfl, fun hh ↦ absurd hh hno⟩
      (.cons ⟨rfl, rfl, fun _ ↦ rfl⟩ (.cons ⟨rfl, rfl, fun _ ↦ rfl⟩ (.cons ⟨rfl, rfl, ?_⟩ .nil))))
    rintro ⟨h₁, h₂⟩
    dsimp only at h₁ h₂
    exact ((getSOF_setFragNo L hL v h).2 _ (by dsimp only; omega) (by dsimp only; omega)).symm
  | tDest v =>
    exact .cons ⟨rfl, rfl, fun _ ↦ rfl⟩ (.cons ⟨rfl, rfl, fun _ ↦ rfl⟩
      (.cons ⟨rfl, rfl, fun hh ↦ absurd hh hk⟩ (.cons ⟨rfl, rfl, fun _ ↦ rfl⟩
        (.cons ⟨rfl, rfl, fun _ ↦ rfl⟩ .nil))))
  | tUsr1 v =>
    exact .cons ⟨rfl, rfl, fun _ ↦ rfl⟩ (.cons ⟨rfl, rfl, fun _ ↦ rfl⟩
      (.cons ⟨rfl, rfl, fun _ ↦ rfl⟩ (.cons ⟨rfl, rfl, fun _ ↦ rfl⟩
        (.cons ⟨rfl, rfl, fun hh ↦ absurd hh hk⟩ .nil))))
  | tId v =>
    exact .cons ⟨rfl, rfl, fun _ ↦ rfl⟩ (.cons ⟨rfl, rfl, fun _ ↦ rfl⟩
      (.cons ⟨rfl, rfl, fun _ ↦ rfl⟩ (.cons ⟨rfl, rfl, fun hh ↦ absurd hh hk⟩
        (.cons ⟨rfl, rfl, fun _ ↦ rfl⟩ .nil))))

theorem parse_fields (hn : HEADER_SIZE ≤ n) (hv : h.vers = L.VERSION) (hL : L.VERSION < 2 ^ 4)
    (hread : ∀ f ∈ h.fields L, getNum f.off f.size p = f.val % 2 ^ f.size) :
    parse L p n = some { h with fragNo := h.fragNo % 2 ^ L.FRAG_NO_BIT_SIZE } := by
  simp only [fields, List.forall_mem_cons] at hread
  obtain ⟨hvers, hfrag, hdest, hid, husr, -⟩ := hread
  have hversion : getNum VERSION_BIT_OFFSET VERSION_BIT_SIZE p = L.VERSION := by
    rw [hvers, hv]
    exact Nat.mod_eq_of_lt hL
  have hbyte : ∀ x : UInt8, UInt8.ofNat (x.toNat % 2 ^ 8) = x := by
    intro x
    rw [Nat.mod_eq_of_lt x.toNat_lt, UInt8.ofNat_toNat]
  have hsmall : ¬n < (VERSION_BIT_OFFSET + VERSION_BIT_SIZE + 7) / 8 := by
    change 8 ≤ n at hn
    change ¬n < 1
    omega
  rw [parse, if_neg hsmall, if_neg (not_not.2 hversion), if_neg (Nat.not_lt_of_le hn), hversion, hfrag,
    hdest, hid, husr, hbyte, hbyte, hbyte, ← hv]

end PackHeader

namespace CAxisFrameHeader

variable {k n : ℕ}

def setFrameNo (frameNo : ℕ) (h : CAxisFrameHeader) : CAxisFrameHeader := { h with frameNo := frameNo }

inductive Setter
  | base (s : PackHeader.Setter)
  | frameNo (v : ℕ)

def Setter.run : Setter → CAxisFrameHeader → CAxisFrameHeader
  | base s, h => { h with toPackHeader := s.run axis h.toPackHeader }
  | frameNo v, h => setFrameNo v h

def Setter.Owns : Setter → ℕ → Prop
  | base s, k => s.Owns axis k
  | frameNo _, k => Field.Has ⟨FRAME_NO_BIT_OFFSET, FRAME_NO_BIT_SIZE, 0⟩ k

def fields (h : CAxisFrameHeader) : List Field :=
  h.toPackHeader.fields axis ++ [⟨FRAME_NO_BIT_OFFSET, FRAME_NO_BIT_SIZE, h.frameNo⟩]

theorem insert_eq_write (h : CAxisFrameHeader) :
    h.insert = Field.write (List.replicate HEADER_SIZE 0) h.fields := by
  rw [insert, PackHeader.insert_eq_write, fields, Field.write, Field.write, List.foldl_append,
    List.foldl_cons, List.foldl_nil]

theorem fields_fit (h : CAxisFrameHeader) :
    (∀ f ∈ h.fields, f.Fits HEADER_SIZE) ∧ h.fields.Pairwise Field.Apart := by
  have hshape : h.fields.map Field.shape =
      [⟨0, 4, 0⟩, ⟨16, 24, 0⟩, ⟨40, 8, 0⟩, ⟨48, 8, 0⟩, ⟨56, 8, 0⟩, ⟨4, 12, 0⟩] := rfl
  apply Field.fit_of_shape
  rw [hshape]
  decide

/-- A setter changes the bits of its field. -/
theorem bitAt_run (s : Setter) (h : CAxisFrameHeader) (hk : ¬s.Owns k) :
    bitAt (s.run h).insert k = bitAt h.insert k := by
  rw [insert_eq_write, insert_eq_write]
  refine (Field.bitAt_write_congr (h.fields_fit).1 rfl rfl ?_).symm
  cases s with
  | base s =>
    exact List.rel_append (s.fields_run axis (by decide) h.toPackHeader hk)
      (.cons ⟨rfl, rfl, fun _ ↦ rfl⟩ .nil)
  | frameNo v =>
    refine List.rel_append ?_ (.cons ⟨rfl, rfl, fun hh ↦ absurd hh hk⟩ .nil)
    exact List.forall₂_same.2 fun f _ ↦ ⟨rfl, rfl, fun _ ↦ rfl⟩

/-- What has been written is read back. -/
theorem parse_insert_append (h : CAxisFrameHeader) (rest : Bytes) (hn : HEADER_SIZE ≤ n)
    (hv : h.vers = axis.VERSION) (hframe : h.frameNo < 2 ^ FRAME_NO_BIT_SIZE)
    (hfrag : h.fragNo < 2 ^ axis.FRAG_NO_BIT_SIZE) : parse (h.insert ++ rest) n = some h := by
  have hread : ∀ f ∈ h.fields, getNum f.off f.size (h.insert ++ rest) = f.val % 2 ^ f.size := by
    intro f hf
    rw [insert_eq_write]
    exact Field.getNum_write (h.fields_fit).1 (h.fields_fit).2 hf rest
  rw [parse, PackHeader.parse_fields axis hn hv (by decide) fun f hf ↦
    hread f (List.mem_append_left _ hf), Nat.mod_eq_of_lt hfrag]
  have hframeNo := hread ⟨FRAME_NO_BIT_OFFSET, FRAME_NO_BIT_SIZE, h.frameNo⟩
    (List.mem_append_right _ List.mem_cons_self)
  dsimp only at hframeNo ⊢
  rw [hframeNo, Nat.mod_eq_of_lt hframe]

end CAxisFrameHeader

end Cpsw.Depack
