import Cpsw.Lib.Crc
import Cpsw.Depack.Valid
import Cpsw.TDest.Tail

namespace Cpsw.TDest

open Cpsw.Depack Cpsw.Lib

/-- The reflected CRC-32, a bit at a time. -/
def bitwise (crc : UInt32) (p : Bytes) : UInt32 :=
  p.foldl (fun crc b ↦ UInt32.ofBitVec (Crc.symbol POLY.toBitVec crc.toBitVec b.toBitVec)) crc

/-- The bytes of a number, the most significant one first. -/
def be32 (x : UInt32) : Bytes :=
  [(x >>> 24).toUInt8, (x >>> 16).toUInt8, (x >>> 8).toUInt8, x.toUInt8]

section Table

theorem low_bit (crc : UInt32) : crc &&& 1 = 1 ↔ crc.toBitVec.getLsbD 0 = true := by
  rw [← UInt32.toBitVec_inj, UInt32.toBitVec_and]
  change crc.toBitVec &&& 1#32 = 1#32 ↔ _
  rw [BitVec.and_one_eq_setWidth_ofBool_getLsbD]
  cases crc.toBitVec.getLsbD 0 <;> decide

theorem toBitVec_shift (crc : UInt32) :
    ((crc >>> 1) ^^^ (if crc &&& 1 = 1 then POLY else 0)).toBitVec =
      Crc.shift POLY.toBitVec crc.toBitVec := by
  unfold Crc.shift
  rw [UInt32.toBitVec_xor]
  by_cases h : crc &&& 1 = 1
  · rw [if_pos h, if_pos ((low_bit crc).1 h)]
    rfl
  · rw [if_neg h, if_neg (mt (low_bit crc).2 h)]
    rfl

theorem toBitVec_tbl (i : UInt8) : (tbl i).toBitVec = Crc.entry POLY.toBitVec i.toBitVec := by
  have hrun : ∀ n x, ((fun crc : UInt32 ↦
      (crc >>> 1) ^^^ (if crc &&& 1 = 1 then POLY else 0))^[n] x).toBitVec =
        (Crc.shift POLY.toBitVec)^[n] x.toBitVec := by
    intro n x
    induction n with
    | zero => rfl
    | succ n ih => rw [Function.iterate_succ_apply', toBitVec_shift, ih, Function.iterate_succ_apply']
  exact hrun 8 i.toUInt32

/-- The table does what the single bits do. -/
theorem crc32_eq_bitwise (crc : UInt32) (p : Bytes) : crc32 crc p = bitwise crc p := by
  induction p generalizing crc with
  | nil => rfl
  | cons b p ih =>
    have hstep : (crc >>> 8) ^^^ tbl (crc.toUInt8 ^^^ b) =
        UInt32.ofBitVec (Crc.symbol POLY.toBitVec crc.toBitVec b.toBitVec) := by
      apply UInt32.toBitVec_inj.1
      rw [UInt32.toBitVec_xor, toBitVec_tbl, UInt8.toBitVec_xor, Crc.symbol_eq_entry (by decide)]
      rfl
    unfold crc32 bitwise at ih ⊢
    rw [List.foldl_cons, List.foldl_cons, hstep, ih]

theorem crc32_append (crc : UInt32) (p q : Bytes) : crc32 crc (p ++ q) = crc32 (crc32 crc p) q :=
  List.foldl_append

end Table

section BigEndian

theorem toNat_byte (x k : UInt32) (hk : k.toNat < 32) :
    ((x >>> k) &&& 0xff).toNat = x.toNat / 2 ^ k.toNat % 256 := by
  rw [UInt32.toNat_and, UInt32.toNat_shiftRight, Nat.mod_eq_of_lt hk, Nat.shiftRight_eq_div_pow]
  exact Nat.and_two_pow_sub_one_eq_mod _ 8

theorem toNat_up (x s : UInt32) (hs : s.toNat ≤ 24) (hx : x.toNat < 2 ^ 8) :
    (x <<< s).toNat = 2 ^ s.toNat * x.toNat := by
  have hle : 2 ^ s.toNat * x.toNat < 2 ^ 24 * 2 ^ 8 :=
    Nat.mul_lt_mul_of_le_of_lt (Nat.pow_le_pow_right (by decide) hs) hx (by decide)
  rw [UInt32.toNat_shiftLeft, Nat.mod_eq_of_lt (by omega : s.toNat < 32), Nat.shiftLeft_eq,
    Nat.mul_comm]
  exact Nat.mod_eq_of_lt hle

/-- The bytes come in the other order. -/
theorem toNat_bswap32 (x : UInt32) : (CDepack2Header.bswap32 x).toNat =
    2 ^ 8 * (2 ^ 8 * (2 ^ 8 * (x.toNat % 256) + x.toNat / 2 ^ 8 % 256) +
      x.toNat / 2 ^ 16 % 256) + x.toNat / 2 ^ 24 % 256 := by
  have h0 : ((x >>> 0) &&& 0xff).toNat = x.toNat / 2 ^ 0 % 256 := toNat_byte x 0 (by decide)
  have h8 : ((x >>> 8) &&& 0xff).toNat = x.toNat / 2 ^ 8 % 256 := toNat_byte x 8 (by decide)
  have h16 : ((x >>> 16) &&& 0xff).toNat = x.toNat / 2 ^ 16 % 256 := toNat_byte x 16 (by decide)
  have h24 : ((x >>> 24) &&& 0xff).toNat = x.toNat / 2 ^ 24 % 256 := toNat_byte x 24 (by decide)
  have hlt : ∀ n, n % 256 < 2 ^ 8 := fun n ↦ Nat.mod_lt n (by decide)
  have l0 := hlt (x.toNat / 2 ^ 0)
  have l8 := hlt (x.toNat / 2 ^ 8)
  have l16 := hlt (x.toNat / 2 ^ 16)
  have l24 := hlt (x.toNat / 2 ^ 24)
  have s24 : (((x >>> 0) &&& 0xff) <<< 24).toNat = 2 ^ 24 * ((x >>> 0) &&& 0xff).toNat :=
    toNat_up _ 24 (by decide) (h0 ▸ l0)
  have s16 : (((x >>> 8) &&& 0xff) <<< 16).toNat = 2 ^ 16 * ((x >>> 8) &&& 0xff).toNat :=
    toNat_up _ 16 (by decide) (h8 ▸ l8)
  have s8 : (((x >>> 16) &&& 0xff) <<< 8).toNat = 2 ^ 8 * ((x >>> 16) &&& 0xff).toNat :=
    toNat_up _ 8 (by decide) (h16 ▸ l16)
  -- each byte goes below what is there
  have hor : ∀ a b n k : ℕ, b < 2 ^ k → n = 2 ^ k * a → n ||| b = 2 ^ k * a + b := by
    rintro a b n k hb rfl
    exact (Nat.two_pow_add_eq_or_of_lt hb a).symm
  unfold CDepack2Header.bswap32
  dsimp only
  rw [UInt32.toNat_or, UInt32.toNat_or, UInt32.toNat_or, s24, s16, s8, h0, h8, h16, h24]
  rw [Nat.pow_zero, Nat.div_one] at l0 ⊢
  generalize x.toNat % 256 = a at l0 ⊢
  generalize x.toNat / 2 ^ 8 % 256 = b at l8 ⊢
  generalize x.toNat / 2 ^ 16 % 256 = c at l16 ⊢
  generalize x.toNat / 2 ^ 24 % 256 = d at l24 ⊢
  rw [hor a (2 ^ 16 * b) _ 24 (by omega) rfl,
    hor (2 ^ 8 * a + b) (2 ^ 8 * c) _ 16 (by omega) (by omega),
    hor (2 ^ 8 * (2 ^ 8 * a + b) + c) d _ 8 l24 (by omega)]

theorem byte_bswap32 (x : UInt32) :
    UInt8.ofNat (CDepack2Header.bswap32 x).toNat = (x >>> 24).toUInt8 ∧
    UInt8.ofNat ((CDepack2Header.bswap32 x).toNat / 256) = (x >>> 16).toUInt8 ∧
    UInt8.ofNat ((CDepack2Header.bswap32 x).toNat / 65536) = (x >>> 8).toUInt8 ∧
    UInt8.ofNat ((CDepack2Header.bswap32 x).toNat / 16777216) = x.toUInt8 := by
  have hlt : ∀ n, n % 256 < 2 ^ 8 := fun n ↦ Nat.mod_lt n (by decide)
  have l0 := hlt x.toNat
  have l8 := hlt (x.toNat / 2 ^ 8)
  have l16 := hlt (x.toNat / 2 ^ 16)
  have l24 := hlt (x.toNat / 2 ^ 24)
  have hshift : ∀ k : UInt32, k.toNat < 32 →
      (x >>> k).toUInt8.toNat = x.toNat / 2 ^ k.toNat % 2 ^ 8 := by
    intro k hk
    rw [UInt32.toNat_toUInt8, UInt32.toNat_shiftRight, Nat.mod_eq_of_lt hk,
      Nat.shiftRight_eq_div_pow]
  have h24 : (x >>> 24).toUInt8.toNat = x.toNat / 2 ^ 24 % 256 := hshift 24 (by decide)
  have h16 : (x >>> 16).toUInt8.toNat = x.toNat / 2 ^ 16 % 256 := hshift 16 (by decide)
  have h8 : (x >>> 8).toUInt8.toNat = x.toNat / 2 ^ 8 % 256 := hshift 8 (by decide)
  have h0 : x.toUInt8.toNat = x.toNat % 256 := UInt32.toNat_toUInt8 x
  simp only [← UInt8.toNat_inj, UInt8.toNat_ofNat', toNat_bswap32, h24, h16, h8, h0]
  generalize x.toNat % 256 = a at l0 ⊢
  generalize x.toNat / 2 ^ 8 % 256 = b at l8 ⊢
  generalize x.toNat / 2 ^ 16 % 256 = c at l16 ⊢
  generalize x.toNat / 2 ^ 24 % 256 = d at l24 ⊢
  refine ⟨?_, ?_, ?_, ?_⟩ <;> omega

/-- The CRC takes the last four bytes of a tail. -/
theorem insertCrc_eq (crc : UInt32) {tail : Bytes} (ht : tail.length = TAIL_SIZE) :
    CDepack2Header.insertCrc crc tail = tail.take 4 ++ be32 crc := by
  have hm : mskn 0 32 = 0 := by decide
  change tail.length = 8 at ht
  match tail, ht with
  | [a, b, c, d, e, f, g, h], _ =>
    simp only [CDepack2Header.insertCrc, setNum, T_CRC_BIT_OFFSET, T_CRC_BIT_SIZE, fieldMask, hm]
    simp [List.range_succ, be32]
    exact byte_bswap32 crc

end BigEndian

/-- All the bytes of a fragment but the last four. -/
def front (frag : Chain) : Bytes :=
  (BufChain.bytes frag.bufs).take ((BufChain.bytes frag.bufs).length - 4)

/-- The payload of the last buffer ends with the number; what is before it in the tail lies in the
storage of this buffer too. -/
def EndsIn (crc : UInt32) (frag : Chain) : Prop :=
  ∃ t, frag.bufs.getLast? = some t ∧ TAIL_SIZE ≤ t.fin ∧ be32 crc <:+ t.content

/-- The tail that the user provides with the last fragment is in reach of its last buffer. -/
def Work.TailFits (mtu : ℕ) (w : Work) : Prop :=
  ∀ c, w.bc = some c → w.stripHeader = false → c.getSize ≤ mtu →
    (∃ b, c.bufs = [b]) ∨ ∃ t, c.bufs.getLast? = some t ∧ TAIL_SIZE ≤ t.fin ∧ 4 ≤ t.getSize

/-- The fragments of a slot, each with the state before it. -/
inductive Sends (mtu : ℕ) : Work → List (Work × Chain) → Work → Prop
  | nil (w : Work) : Sends mtu w [] w
  | cons {storage : Storage} {last : Bool} {frag : Chain} {run : List (Work × Chain)}
      {w w' w'' : Work} :
    sendFrag mtu storage.bytes w = .ok (frag, last, w') → Sends mtu w' run w'' →
      Sends mtu w ((w, frag) :: run) w''

section Fragment

variable {mtu : ℕ} {storage : Storage} {w w' : Work} {c c' bc frag : Chain} {t h h' : Buf}
  {bufs : BufChain} {tail x y : Bytes} {last : Bool}

/-- Buffer by buffer, or all at once. -/
theorem crcLoop_eq (hok : ∀ b ∈ bufs, b.Ok) (crc : UInt32) (n : ℕ) :
    crcLoop crc n bufs = crc32 crc ((BufChain.bytes bufs).take n) := by
  induction bufs generalizing crc n with
  | nil => rw [crcLoop, BufChain.bytes, List.flatMap_nil, List.take_nil, crc32, List.foldl_nil]
  | cons b bufs ih =>
    have hlen := (hok b List.mem_cons_self).content_length
    have hcut : b.getPayload.take (min b.getSize n) = b.content.take n := by
      rw [Buf.content, List.take_take, Nat.min_comm]
    have hrest : n - min b.getSize n = n - b.content.length := by omega
    have hbytes : BufChain.bytes (b :: bufs) = b.content ++ BufChain.bytes bufs := List.flatMap_cons
    rw [crcLoop, ih (fun b' hb ↦ hok b' (List.mem_cons_of_mem b hb)), hcut, hrest, ← crc32_append,
      ← List.take_append, hbytes]

theorem fragCrc_full (hv : bc.Valid) (crc : UInt32) :
    fragCrc FULL crc bc = crc32 crc (front bc) := by
  unfold fragCrc front
  cases hb : bc.bufs with
  | nil => rfl
  | cons h bufs =>
    have hok := hv.ok
    rw [hb] at hok
    dsimp only
    rw [if_neg (by decide), if_neg (by decide), crcLoop_eq hok, hv.sized.getSize_eq, hb,
      bytes_length hok]

/-- Writing up to the end of the payload, also from before its start. -/
theorem writeEnd_ok (hok : t.Ok) (hp : x.length ≤ t.fin) : (t.writeEnd x).Ok ∧
    (t.writeEnd x).content = t.content.take (t.getSize - x.length) ++ x.drop (x.length - t.getSize) := by
  by_cases hle : x.length ≤ t.getSize
  · rw [Nat.sub_eq_zero_of_le hle, List.drop_zero]
    exact hok.writeEnd hle
  · have hbeg := hok.le
    have hfits := hok.fits
    unfold Buf.getSize at hle
    unfold Buf.getCapacity at hfits
    have hpre : (t.data.take (t.fin - x.length)).length = t.fin - x.length := by
      rw [List.length_take]
      omega
    have hlen : (t.writeEnd x).data.length = t.data.length := by
      simp only [Buf.writeEnd, List.length_append, List.length_drop, hpre]
      omega
    refine ⟨⟨hbeg, hfits.trans hlen.ge, ?_⟩, ?_⟩
    · exact (congrArg (· < 2 ^ 16) hlen).mpr hok.capa
    · have hdrop : (t.data.take (t.fin - x.length)).drop t.beg = [] :=
        List.drop_eq_nil_of_le (by omega)
      have hskip : t.beg - (t.fin - x.length) = x.length - t.getSize := by
        unfold Buf.getSize
        omega
      have hsize : (x.drop (x.length - t.getSize)).length = t.getSize := by
        rw [List.length_drop]
        unfold Buf.getSize
        omega
      have htake : t.getSize - x.length = 0 := by
        unfold Buf.getSize
        omega
      rw [htake, List.take_zero, List.nil_append, Buf.content, Buf.getPayload, Buf.getSize_writeEnd]
      change ((t.data.take (t.fin - x.length) ++ x ++ t.data.drop t.fin).drop t.beg).take t.getSize = _
      rw [List.append_assoc, List.drop_append, hdrop, List.nil_append, hpre, hskip,
        List.drop_append_of_le_length (by omega), List.take_left' hsize]

/-- A tail of which the second half lies in the payload. -/
theorem bytes_putTail (hv : bc.Valid) (ht : bc.bufs.getLast? = some t) (hf : TAIL_SIZE ≤ t.fin)
    (hs : 4 ≤ t.getSize) (hx : x.length = 4) (hy : y.length = 4) :
    (putTail (x ++ y) bc).Valid ∧ BufChain.bytes (putTail (x ++ y) bc).bufs =
      BufChain.bytes bc.bufs.dropLast ++ t.content.take (t.getSize - TAIL_SIZE) ++
        x.drop (TAIL_SIZE - t.getSize) ++ y := by
  have hl : (x ++ y).length = TAIL_SIZE := by rw [List.length_append, hx, hy]; rfl
  have hmem : t ∈ bc.bufs := List.mem_of_getLast? ht
  obtain ⟨hok, hc⟩ := @writeEnd_ok t (x ++ y) (hv.ok t hmem) (hl ▸ hf)
  have hput : putTail (x ++ y) bc = bc.setTail (t.writeEnd (x ++ y)) := by
    unfold putTail
    rw [ht]
  have hcut : TAIL_SIZE - t.getSize ≤ x.length := by
    change 8 - t.getSize ≤ x.length
    omega
  rw [hput]
  refine ⟨hv.setTail ht hok, ?_⟩
  rw [Chain.setTail_bufs ht, bytes_concat, hc, hl, List.drop_append_of_le_length hcut,
    List.append_assoc, List.append_assoc]

/-- The CRC that is computed stands where it is left out. -/
theorem putTail_seals (hv : bc.Valid) (ht : bc.bufs.getLast? = some t) (hf : TAIL_SIZE ≤ t.fin)
    (hs : 4 ≤ t.getSize) (htail : tail.length = TAIL_SIZE) (crc : UInt32) :
    fragCrc FULL crc (putTail tail bc) =
      crc32 crc (front (putTail (CDepack2Header.insertCrc (~~~fragCrc FULL crc (putTail tail bc)) tail)
        bc)) ∧
    EndsIn (~~~fragCrc FULL crc (putTail tail bc))
      (putTail (CDepack2Header.insertCrc (~~~fragCrc FULL crc (putTail tail bc)) tail) bc) := by
  have hx : (tail.take 4).length = 4 := by
    rw [List.length_take, htail]
    rfl
  have hy : (tail.drop 4).length = 4 := by
    rw [List.length_drop, htail]
    rfl
  have hfront : ∀ y : Bytes, y.length = 4 → front (putTail (tail.take 4 ++ y) bc) =
      BufChain.bytes bc.bufs.dropLast ++ t.content.take (t.getSize - TAIL_SIZE) ++
        (tail.take 4).drop (TAIL_SIZE - t.getSize) := by
    intro y hy
    rw [front, (bytes_putTail hv ht hf hs hx hy).2, List.length_append, hy, Nat.add_sub_cancel,
      List.take_left]
  have hcrc : fragCrc FULL crc (putTail tail bc) =
      crc32 crc (front (putTail (tail.take 4 ++ tail.drop 4) bc)) := by
    rw [List.take_append_drop]
    apply fragCrc_full
    have hvalid := (bytes_putTail hv ht hf hs hx hy).1
    rwa [List.take_append_drop] at hvalid
  generalize fragCrc FULL crc (putTail tail bc) = v at *
  rw [insertCrc_eq _ htail]
  refine ⟨?_, t.writeEnd (tail.take 4 ++ be32 (~~~v)), ?_, hf, ?_⟩
  · rw [hcrc, hfront _ hy, hfront _ rfl]
  · unfold putTail
    rw [ht]
    dsimp only
    rw [Chain.setTail_bufs ht, List.getLast?_concat]
  · have hl : (tail.take 4 ++ be32 (~~~v)).length = TAIL_SIZE := by
      rw [List.length_append, hx]
      rfl
    have hcut : TAIL_SIZE - t.getSize ≤ (tail.take 4).length := by
      change 8 - t.getSize ≤ (tail.take 4).length
      omega
    rw [(writeEnd_ok (hv.ok t (List.mem_of_getLast? ht)) (hl ▸ hf)).2, hl,
      List.drop_append_of_le_length hcut, ← List.append_assoc]
    exact List.suffix_append _ _

/-- Elsewhere there is no room for it. -/
theorem room_of_endsIn {v : UInt32} (hv : bc.Valid) (ht : bc.bufs.getLast? = some t)
    (htail : tail.length = TAIL_SIZE) (he : EndsIn v (putTail tail bc)) :
    TAIL_SIZE ≤ t.fin ∧ 4 ≤ t.getSize := by
  have hlast : (putTail tail bc).bufs.getLast? = some (t.writeEnd tail) := by
    unfold putTail
    rw [ht]
    dsimp only
    rw [Chain.setTail_bufs ht, List.getLast?_concat]
  obtain ⟨t', ht', hf, hsuf⟩ := he
  obtain rfl := Option.some.inj (hlast.symm.trans ht')
  change TAIL_SIZE ≤ t.fin at hf
  have hok := (writeEnd_ok (hv.ok t (List.mem_of_getLast? ht)) (htail ▸ hf)).1
  have hle := hsuf.length_le
  rw [hok.content_length] at hle
  exact ⟨hf, hle⟩

theorem mkTail_length (numLanes tUsr2 : ℕ) (eof : Bool) :
    (CDepack2Header.mkTail numLanes tUsr2 eof).length = TAIL_SIZE := by
  unfold CDepack2Header.mkTail insertTailEOF CDepack2Header.insertTUsr2 CDepack2Header.insertNumLanes
  rw [List.length_set, setNum_length, setNum_length]
  rfl

theorem insertCrc_length (crc : UInt32) (htail : tail.length = TAIL_SIZE) :
    (CDepack2Header.insertCrc crc tail).length = TAIL_SIZE :=
  (setNum_length _ _ _ _).trans htail

/-- What is written to has room for a header. -/
theorem addHeader_size (h : addHeader w h' = .ok t) : HEADER_SIZE ≤ t.getSize := by
  have hwrite : ∀ {hdr : CDepack2Header} {b : Buf}, writeHeader hdr b = .ok t → HEADER_SIZE ≤ t.getSize := by
    intro hdr b hw
    unfold writeHeader at hw
    split_ifs at hw with hs
    cases hw
    rw [Buf.getSize_write]
    exact Nat.le_of_not_lt hs
  unfold addHeader at h
  split_ifs at h
  · split at h
    · cases h
    · exact hwrite h
  · exact hwrite h

theorem makeTail_valid {stripHeader : Bool} (hv : bc.Valid) (hne : bc.bufs ≠ [])
    (h : makeTail storage.bytes stripHeader last bc = .ok (c', tail)) :
    c'.Valid ∧ tail.length = TAIL_SIZE ∧ ∃ t, c'.bufs.getLast? = some t ∧
      ((stripHeader = true ∨ last = false) ∧ TAIL_SIZE ≤ t.getSize ∨
        stripHeader = false ∧ last = true ∧ c' = bc) := by
  by_cases hu : stripHeader = true ∨ last = false
  · obtain ⟨c₁, hmake, hext⟩ := makeTail_ok storage last hu hv.ok hv.sized hne
    cases h.symm.trans hmake
    obtain ⟨t, ht, hsize⟩ := hext.last
    exact ⟨⟨hext.ok, hext.sized⟩, mkTail_length _ _ _, t, ht,
      .inl ⟨hu, (Nat.le_add_left _ _).trans hsize⟩⟩
  · obtain ⟨hstrip, hlast⟩ : stripHeader = false ∧ last = true := by simpa using hu
    obtain ⟨t, ht⟩ : ∃ t, bc.bufs.getLast? = some t := ⟨_, List.getLast?_eq_some_getLast hne⟩
    have hown : (!stripHeader && last) = true := by rw [hstrip, hlast]; rfl
    unfold makeTail at h
    rw [ht] at h
    dsimp only at h
    rw [if_pos hown] at h
    split_ifs at h
    split at h
    · cases h
    · cases h
      exact ⟨hv, mkTail_length _ _ _, t, ht, .inr ⟨hstrip, hlast, rfl⟩⟩

theorem splitLoop_rest {size : ℤ} {rest : Chain} (hs : size = total bufs)
    (h : splitLoop mtu frag size bufs = some (c, rest)) :
    rest.Sized ∧ ∀ b ∈ rest.bufs, b ∈ bufs := by
  induction bufs generalizing frag size with
  | nil => cases h
  | cons b bufs ih =>
    rw [total_cons] at hs
    unfold splitLoop at h
    split_ifs at h
    · obtain ⟨hr, hmem⟩ := ih (by omega) h
      exact ⟨hr, fun x hx ↦ List.mem_cons_of_mem b (hmem x hx)⟩
    · cases h
      exact ⟨by rw [Chain.Sized, total_cons, hs], fun x hx ↦ hx⟩

theorem takeFrag_valid {rest : Option Chain} (hv : c.Valid) (h : takeFrag mtu c = .ok (bc, rest)) :
    bc.Valid ∧ (∀ r, rest = some r → r.Valid) ∧ (rest = none ↔ c.getSize ≤ mtu) ∧
      (rest = none → bc = c) := by
  obtain ⟨hsized, hmem⟩ := takeFrag_keeps hv.sized h
  refine ⟨⟨fun b hb ↦ hv.ok b (hmem b hb), hsized⟩, ?_⟩
  unfold takeFrag at h
  split_ifs at h with hle
  · cases h
    exact ⟨nofun, iff_of_true rfl hle, fun _ ↦ rfl⟩
  · split at h
    · cases h
    · rename_i hsplit
      split_ifs at h
      cases h
      obtain ⟨hr, hin⟩ := splitLoop_rest hv.sized hsplit
      refine ⟨?_, iff_of_false nofun hle, nofun⟩
      rintro r ⟨⟩
      exact ⟨fun b hb ↦ hv.ok b (hin b hb), hr⟩

/-- Whether the tail is in reach of the last buffer shows once the header is there. -/
theorem tailFits_iff {rest : Option Chain} {hd hd' : Buf} (hbc : w.bc = some c) (hv : c.Valid)
    (htake : takeFrag mtu c = .ok (bc, rest)) (hbufs : bc.bufs = hd :: bufs)
    (hadd : addHeader w hd = .ok hd') (ht : c'.bufs.getLast? = some t)
    (hcase : (w.stripHeader = true ∨ rest.isNone = false) ∧ TAIL_SIZE ≤ t.getSize ∨
      w.stripHeader = false ∧ rest.isNone = true ∧ c' = bc.setHead hd') :
    w.TailFits mtu ↔ TAIL_SIZE ≤ t.fin ∧ 4 ≤ t.getSize := by
  obtain ⟨-, -, hnone, hwhole⟩ := takeFrag_valid hv htake
  have hlong : TAIL_SIZE ≤ t.getSize → TAIL_SIZE ≤ t.fin ∧ 4 ≤ t.getSize := by
    intro hl
    refine ⟨hl.trans (Nat.sub_le _ _), le_trans ?_ hl⟩
    decide
  rcases hcase with ⟨hu, hl⟩ | ⟨hstrip, hlast, rfl⟩
  · refine iff_of_true ?_ (hlong hl)
    intro c₀ hc₀ hstrip hle
    cases hbc.symm.trans hc₀
    rw [hnone.2 hle] at hu
    rcases hu with hu | hu
    · rw [hstrip] at hu
      cases hu
    · cases hu
  · have hrest := Option.isNone_iff_eq_none.1 hlast
    obtain rfl := hwhole hrest
    rw [Chain.setHead_bufs hbufs] at ht
    cases bufs with
    | nil =>
      obtain rfl := Option.some.inj ht
      refine iff_of_true ?_ (hlong (addHeader_size hadd))
      intro c₀ hc₀ _ _
      cases hbc.symm.trans hc₀
      exact .inl ⟨hd, hbufs⟩
    | cons b bufs =>
      have hlast : bc.bufs.getLast? = some t := by
        rw [hbufs]
        simpa using ht
      constructor
      · intro hfits
        rcases hfits bc hbc hstrip (hnone.1 hrest) with ⟨b', hb'⟩ | ⟨t', ht', hroom⟩
        · cases hbufs.symm.trans hb'
        · cases hlast.symm.trans ht'
          exact hroom
      · intro hroom c₀ hc₀ _ _
        cases hbc.symm.trans hc₀
        exact .inr ⟨t, hlast, hroom⟩

/-- One fragment. -/
theorem sendFrag_seals (hbc : w.bc = some c) (hv : c.Valid)
    (h : sendFrag mtu storage.bytes w = .ok (frag, last, w')) :
    (w.TailFits mtu → w'.crc = crc32 w.crc (front frag) ∧ EndsIn (~~~w'.crc) frag) ∧
    (∀ v, EndsIn v frag → w.TailFits mtu) ∧ ∀ r, w'.bc = some r → r.Valid := by
  unfold sendFrag at h
  rw [hbc] at h
  dsimp only at h
  split at h
  · cases h
  · rename_i bc rest htake
    obtain ⟨hvb, hrest, -, -⟩ := takeFrag_valid hv htake
    split at h
    · cases h
    · rename_i hd bufs hbufs
      split at h
      · cases h
      · rename_i hd' hadd
        split at h
        · cases h
        · rename_i c₁ tail hmake
          have hok : hd'.Ok := addHeader_keeps (hvb.ok hd (hbufs ▸ List.mem_cons_self)) hadd
          have hne : (bc.setHead hd').bufs ≠ [] := by
            rw [Chain.setHead_bufs hbufs]
            exact List.cons_ne_nil _ _
          obtain ⟨hv₁, htail, t, ht, hcase⟩ := makeTail_valid (hvb.setHead hbufs hok) hne hmake
          have hiff := tailFits_iff hbc hv htake hbufs hadd ht hcase
          cases h
          refine ⟨fun hfits ↦ ?_, fun v he ↦ ?_, hrest⟩
          · obtain ⟨hf, hs⟩ := hiff.1 hfits
            exact putTail_seals hv₁ ht hf hs htail w.crc
          · exact hiff.2 (room_of_endsIn hv₁ ht (insertCrc_length _ htail) he)

end Fragment

section Run

variable {mtu : ℕ} {w w' : Work} {run : List (Work × Chain)} {c : Chain}

/-- From any state on, with the CRC of what has been sent before in `w.crc`. -/
theorem Sends.seals (h : Sends mtu w run w') (hv : ∀ c, w.bc = some c → c.Valid) :
    (∀ pre s post, run = pre ++ s :: post →
      EndsIn (~~~crc32 w.crc ((pre ++ [s]).flatMap fun s ↦ front s.2)) s.2) ↔
    ∀ s ∈ run, s.1.TailFits mtu := by
  induction h with
  | nil w =>
    refine iff_of_true (fun pre s post he ↦ ?_) fun s hs ↦ absurd hs List.not_mem_nil
    exact absurd he.symm (List.append_ne_nil_of_right_ne_nil _ (List.cons_ne_nil _ _))
  | @cons storage last frag run w w' w'' hsend hrun ih =>
    obtain ⟨c, hbc⟩ : ∃ c, w.bc = some c := by
      cases hbc : w.bc with
      | none => rw [sendFrag, hbc] at hsend; cases hsend
      | some c => exact ⟨c, rfl⟩
    obtain ⟨hseal, hroom, hrest⟩ := sendFrag_seals hbc (hv c hbc) hsend
    have hnext := ih hrest
    have hstep : ∀ pre s, w.TailFits mtu →
        crc32 w.crc ((((w, frag) :: pre) ++ [s]).flatMap fun s ↦ front s.2) =
          crc32 w'.crc ((pre ++ [s]).flatMap fun s ↦ front s.2) := by
      intro pre s hfits
      rw [List.cons_append, List.flatMap_cons, crc32_append, (hseal hfits).1]
    constructor
    · intro hall
      have hfits : w.TailFits mtu := hroom _ (hall [] (w, frag) run rfl)
      intro s hs
      rcases List.mem_cons.1 hs with rfl | hs
      · exact hfits
      · refine hnext.1 (fun pre s post he ↦ ?_) s hs
        have := hall ((w, frag) :: pre) s post (by rw [he]; rfl)
        rwa [hstep pre s hfits] at this
    · intro hfits pre s post he
      have hw := hfits (w, frag) List.mem_cons_self
      cases pre with
      | nil =>
        cases he
        rw [List.nil_append, List.flatMap_singleton, ← (hseal hw).1]
        exact (hseal hw).2
      | cons a pre =>
        obtain ⟨rfl, htl⟩ := List.cons.inj he
        rw [hstep pre s hw]
        exact hnext.2 (fun s hs ↦ hfits s (List.mem_cons_of_mem _ hs)) pre s post htl

/-- A table of bytes, a running value, and what is left out of it. -/
theorem frame_crc (h : Sends mtu (w.reset c) run w') (hv : c.Valid) :
    (∀ crc p, crc32 crc p = bitwise crc p) ∧
    (∀ crc p q, crc32 crc (p ++ q) = crc32 (crc32 crc p) q) ∧
    ((∀ pre s post, run = pre ++ s :: post →
      EndsIn (~~~crc32 0xffffffff ((pre ++ [s]).flatMap fun s ↦ front s.2)) s.2) ↔
    ∀ s ∈ run, s.1.TailFits mtu) := by
  refine ⟨crc32_eq_bitwise, crc32_append, h.seals ?_⟩
  intro c' hc
  cases hc
  exact hv

/-- A payload behind the room that a new buffer has for headers. -/
def spaced (p : Bytes) : Buf :=
  { data := List.replicate Buf.HEADROOM 0 ++ p, beg := Buf.HEADROOM, fin := Buf.HEADROOM + p.length }

/-- Sixteen bytes from a user who provides the header and the tail, `n` of them in a second buffer. -/
def framed (n : ℕ) : Chain :=
  let p := (CDepack2Header.new 0 5).insert ++ List.replicate 8 0
  { bufs := [spaced (p.take (16 - n)), spaced (p.drop (16 - n))], size := 16 }

theorem spaced_ok {p : Bytes} (hp : p.length < 2 ^ 15) : (spaced p).Ok := by
  have hl : (List.replicate Buf.HEADROOM (0 : UInt8) ++ p).length = Buf.HEADROOM + p.length := by
    rw [List.length_append, List.length_replicate]
  refine ⟨Nat.le_add_right _ _, hl.ge, hl.trans_lt ?_⟩
  change 32 + p.length < 2 ^ 16
  omega

theorem framed_valid : (framed 8).Valid ∧ (framed 2).Valid := by
  have hok : ∀ n, ∀ b ∈ (framed n).bufs, b.Ok := by
    intro n b hb
    have hlen : ((CDepack2Header.new 0 5).insert ++ List.replicate 8 (0 : UInt8)).length = 16 := by
      rw [List.length_append, CDepack2Header.insert_length]
      rfl
    rcases List.mem_cons.1 hb with rfl | hb
    · apply spaced_ok
      rw [List.length_take]
      omega
    · obtain rfl := List.mem_singleton.1 hb
      apply spaced_ok
      rw [List.length_drop]
      omega
  refine ⟨⟨hok 8, ?_⟩, hok 2, ?_⟩ <;> unfold Chain.Sized <;> decide +kernel

theorem exists_ok {ε α : Type} {e : Except ε α} {p : α → Prop} [DecidablePred p]
    (h : e.toOption.any (fun a ↦ decide (p a)) = true) : ∃ a, e = .ok a ∧ p a := by
  cases e with
  | error _ => cases h
  | ok a => exact ⟨a, rfl, of_decide_eq_true h⟩

def sampleStorage : Storage := { bytes := List.replicate 256 0, le := by decide +kernel, lt := by decide +kernel }

theorem frame_crc_sample : ∃ frag w', Sends 100 ((Work.new 5 false).reset (framed 8))
    [((Work.new 5 false).reset (framed 8), frag)] w' ∧
      EndsIn (~~~crc32 0xffffffff (front frag)) frag := by
  obtain ⟨⟨frag, last, w'⟩, hsend, -⟩ : ∃ x, sendFrag 100 sampleStorage.bytes
      ((Work.new 5 false).reset (framed 8)) = .ok x ∧ True := exists_ok (by decide +kernel)
  have hrun : Sends 100 _ [(_, frag)] w' := .cons hsend (.nil w')
  refine ⟨frag, w', hrun, ?_⟩
  have hseal := (frame_crc hrun framed_valid.1).2.2.2 fun s hs ↦ ?_
  · have h := hseal [] _ [] rfl
    rwa [List.nil_append, List.flatMap_singleton] at h
  · obtain rfl := List.mem_singleton.1 hs
    intro c hc _ _
    cases hc
    exact .inr ⟨_, rfl, by decide +kernel, by decide +kernel⟩

/-- Of the tail only two bytes are in the last buffer, and all of it is written below their end. -/
theorem not_frame_crc : ∃ c frag w', c.Valid ∧
    Sends 100 ((Work.new 5 false).reset c) [((Work.new 5 false).reset c, frag)] w' ∧
      ¬be32 (~~~crc32 0xffffffff (front frag)) <:+ BufChain.bytes frag.bufs := by
  obtain ⟨⟨frag, last, w'⟩, hsend, hno⟩ : ∃ x, sendFrag 100 sampleStorage.bytes
      ((Work.new 5 false).reset (framed 2)) = .ok x ∧
        ¬be32 (~~~crc32 0xffffffff (front x.1)) <:+ BufChain.bytes x.1.bufs :=
    exists_ok (by decide +kernel)
  exact ⟨framed 2, frag, w', framed_valid.2, .cons hsend (.nil w'), hno⟩

end Run

end Cpsw.TDest
