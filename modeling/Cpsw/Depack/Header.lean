import Cpsw.Buf
import Mathlib.Data.Fintype.Basic

namespace Cpsw.Depack

/-- `mskn`: the bits that stay in the last byte of a field. -/
def mskn (shift bitSize : ℕ) : UInt8 :=
  let m := ~~~(UInt8.ofNat (2 ^ ((shift + bitSize) % 8) - 1))
  if m = 0xff then 0 else m

/-- The bits that stay in the byte `i` of a field of `l` bytes. -/
def fieldMask (shift bitSize l i : ℕ) : UInt8 :=
  let msk1 := UInt8.ofNat (2 ^ shift - 1)
  if i = 0 then (if l = 1 then msk1 ||| mskn shift bitSize else msk1)
  else if i + 1 = l then mskn shift bitSize
  else 0

/-- Little-endian, from the bit `off` on. -/
def setNum (off bitSize val : ℕ) (p : Bytes) : Bytes :=
  if bitSize = 0 then p
  else
    let shift := off % 8
    let l := (shift + bitSize + 7) / 8
    let v := val * 2 ^ shift % 2 ^ 64
    (List.range l).foldl (fun p i ↦
      let m := fieldMask shift bitSize l i
      p.set (off / 8 + i)
        ((UInt8.ofNat (v / 256 ^ i) &&& ~~~m) ||| (p.getD (off / 8 + i) 0 &&& m))) p

/-- The bytes are accumulated, the last one first, in a 32-bit integer. -/
def getNum (off bitSize : ℕ) (p : Bytes) : ℕ :=
  if bitSize = 0 then 0
  else
    let shift := off % 8
    let rval := (List.range ((shift + bitSize + 7) / 8)).foldr
      (fun i r ↦ (r * 256 + (p.getD (off / 8 + i) 0).toNat) % 2 ^ 32) 0
    rval / 2 ^ shift % 2 ^ bitSize

/-- The constants that `CPackHeaderBase` takes from the header it is the base of. -/
structure Layout where
  VERSION : ℕ
  FRAG_NO_BIT_OFFSET : ℕ
  FRAG_NO_BIT_SIZE : ℕ
  TDEST_BIT_OFFSET : ℕ
  TID_BIT_OFFSET : ℕ
  TUSR1_BIT_OFFSET : ℕ
  FRAG_FRST_BIT : ℕ
  T_FRAG_LAST_BIT : ℕ
  TAIL_SIZE : ℕ

def HEADER_SIZE : ℕ := 8
def VERSION_BIT_OFFSET : ℕ := 0
def VERSION_BIT_SIZE : ℕ := 4

structure PackHeader where
  vers : ℕ
  fragNo : ℕ
  tDest : UInt8
  tId : UInt8
  tUsr1 : UInt8
  deriving DecidableEq, Repr

namespace PackHeader

variable (L : Layout)

def setSOF (v : Bool) (h : PackHeader) : PackHeader :=
  let bit := UInt8.ofNat (2 ^ L.FRAG_FRST_BIT)
  { h with tUsr1 := if v then h.tUsr1 ||| bit else h.tUsr1 &&& ~~~bit }

/-- The constructor from a fragment number and a destination. -/
def new (fragNo : ℕ) (tDest : UInt8) : PackHeader :=
  setSOF L (fragNo == 0) { vers := L.VERSION, fragNo := fragNo, tDest := tDest, tId := 0, tUsr1 := 0 }

def setFragNo (fragNo : ℕ) (h : PackHeader) : PackHeader :=
  setSOF L (fragNo == 0) { h with fragNo := fragNo }

def parse (p : Bytes) (hdrSize : ℕ) : Option PackHeader :=
  if hdrSize < (VERSION_BIT_OFFSET + VERSION_BIT_SIZE + 7) / 8 then none
  else if getNum VERSION_BIT_OFFSET VERSION_BIT_SIZE p ≠ L.VERSION then none
  else if hdrSize < HEADER_SIZE then none
  else some {
    vers := getNum VERSION_BIT_OFFSET VERSION_BIT_SIZE p
    fragNo := getNum L.FRAG_NO_BIT_OFFSET L.FRAG_NO_BIT_SIZE p
    tDest := UInt8.ofNat (getNum L.TDEST_BIT_OFFSET 8 p)
    tId := UInt8.ofNat (getNum L.TID_BIT_OFFSET 8 p)
    tUsr1 := UInt8.ofNat (getNum L.TUSR1_BIT_OFFSET 8 p) }

/-- The eight bytes of a header. -/
def insert (h : PackHeader) : Bytes :=
  let p := List.replicate HEADER_SIZE 0
  let p := setNum VERSION_BIT_OFFSET VERSION_BIT_SIZE h.vers p
  let p := setNum L.FRAG_NO_BIT_OFFSET L.FRAG_NO_BIT_SIZE h.fragNo p
  let p := setNum L.TDEST_BIT_OFFSET 8 h.tDest.toNat p
  let p := setNum L.TID_BIT_OFFSET 8 h.tId.toNat p
  setNum L.TUSR1_BIT_OFFSET 8 h.tUsr1.toNat p

end PackHeader

/-- `parseTailEOF`, on the bytes from the tail on. -/
def parseTailEOF (L : Layout) (tail : Bytes) : Bool :=
  tail.getD (L.T_FRAG_LAST_BIT / 8) 0 &&& UInt8.ofNat (2 ^ (L.T_FRAG_LAST_BIT % 8)) != 0

def insertTailEOF (L : Layout) (eof : Bool) (tail : Bytes) : Bytes :=
  let idx := L.T_FRAG_LAST_BIT / 8
  let msk := UInt8.ofNat (2 ^ (L.T_FRAG_LAST_BIT % 8))
  tail.set idx (if eof then tail.getD idx 0 ||| msk else tail.getD idx 0 &&& ~~~msk)

def iniTail (L : Layout) : Bytes := List.replicate L.TAIL_SIZE 0

/-- The layout of `CAxisFrameHeader`. -/
def axis : Layout where
  VERSION := 0
  FRAG_NO_BIT_OFFSET := 16
  FRAG_NO_BIT_SIZE := 24
  TDEST_BIT_OFFSET := 40
  TID_BIT_OFFSET := 48
  TUSR1_BIT_OFFSET := 56
  FRAG_FRST_BIT := 1
  T_FRAG_LAST_BIT := 7
  TAIL_SIZE := 1

def FRAME_NO_BIT_OFFSET : ℕ := 4
def FRAME_NO_BIT_SIZE : ℕ := 12
def FRAG_MAX : ℕ := 2 ^ 24 - 1

structure CAxisFrameHeader extends PackHeader where
  frameNo : ℕ
  deriving DecidableEq, Repr

namespace CAxisFrameHeader

def parse (p : Bytes) (hdrSize : ℕ) : Option CAxisFrameHeader :=
  match PackHeader.parse axis p hdrSize with
  | none => none
  | some h => some { h with frameNo := getNum FRAME_NO_BIT_OFFSET FRAME_NO_BIT_SIZE p }

def insert (h : CAxisFrameHeader) : Bytes :=
  setNum FRAME_NO_BIT_OFFSET FRAME_NO_BIT_SIZE h.frameNo (h.toPackHeader.insert axis)

def moduloFrameSz (id : ℕ) : ℕ := id % 2 ^ FRAME_NO_BIT_SIZE

/-- The 32-bit number `x` as a signed integer, after its upper bits are set if bit 11 is. -/
def signExtendFrameNo (x : ℕ) : ℤ :=
  let y := if x.testBit (FRAME_NO_BIT_SIZE - 1) then x ||| (2 ^ 32 - 2 ^ FRAME_NO_BIT_SIZE) else x
  if y < 2 ^ 31 then y else (y : ℤ) - 2 ^ 32

end CAxisFrameHeader

theorem getNum_lt {off bitSize : ℕ} (p : Bytes) (h : bitSize ≠ 0) :
    getNum off bitSize p < 2 ^ bitSize := by
  unfold getNum
  rw [if_neg h]
  exact Nat.mod_lt _ (Nat.two_pow_pos _)

/-- A field that ends within the first `n` bytes is read from these bytes. -/
theorem getNum_take {off bitSize n : ℕ} (p : Bytes)
    (h : off / 8 + (off % 8 + bitSize + 7) / 8 ≤ n) :
    getNum off bitSize (p.take n) = getNum off bitSize p := by
  unfold getNum
  split_ifs
  · rfl
  · simp only
    congr 2
    apply List.foldr_ext
    intro i hi r
    have hlt : off / 8 + i < n := by
      have := List.mem_range.1 hi
      omega
    simp [List.getD_eq_getElem?_getD, hlt]

theorem parse_frameNo_lt {p : Bytes} {n : ℕ} {h : CAxisFrameHeader}
    (hp : CAxisFrameHeader.parse p n = some h) : h.frameNo < 4096 ∧ h.fragNo < 2 ^ 24 := by
  unfold CAxisFrameHeader.parse PackHeader.parse at hp
  split_ifs at hp
  obtain rfl := Option.some.inj hp
  exact ⟨getNum_lt p (by decide : (12 : ℕ) ≠ 0), getNum_lt p (by decide : (24 : ℕ) ≠ 0)⟩

theorem parse_size {p : Bytes} {n : ℕ} {h : CAxisFrameHeader}
    (hp : CAxisFrameHeader.parse p n = some h) : 8 ≤ n := by
  unfold CAxisFrameHeader.parse PackHeader.parse at hp
  split_ifs at hp with h₁ h₂ h₃
  exact Nat.le_of_not_lt h₃

theorem mask_high (x q : UInt8) :
    ((x &&& ~~~(0x0f : UInt8)) ||| (q &&& 0x0f)).toNat = x.toNat / 16 * 16 + q.toNat % 16 := by
  have hx : (x &&& ~~~(0x0f : UInt8)).toNat = x.toNat / 16 * 16 := by
    have h : ∀ n : Fin 256, (UInt8.ofNat n &&& ~~~(0x0f : UInt8)).toNat = n.val / 16 * 16 := by
      decide +kernel
    have := h ⟨x.toNat, x.toNat_lt⟩
    rwa [UInt8.ofNat_toNat] at this
  have hq : (q &&& (0x0f : UInt8)).toNat = q.toNat % 16 := by
    rw [UInt8.toNat_and]
    exact Nat.and_two_pow_sub_one_eq_mod _ 4
  have hlt : q.toNat % 16 < 2 ^ 4 := Nat.mod_lt _ (by decide)
  rw [UInt8.toNat_or, hx, hq, Nat.mul_comm]
  exact (Nat.two_pow_add_eq_or_of_lt hlt _).symm

theorem ofNat_mod (v : ℕ) : UInt8.ofNat (v % 18446744073709551616) = UInt8.ofNat v := by
  apply UInt8.toNat_inj.1
  rw [UInt8.toNat_ofNat', UInt8.toNat_ofNat',
    Nat.mod_mod_of_dvd _ (by decide : 2 ^ 8 ∣ 18446744073709551616)]

theorem setNum_byte {off val : ℕ} (h : off % 8 = 0) (p : Bytes) :
    setNum off 8 val p = p.set (off / 8) (UInt8.ofNat val) := by
  have hm : mskn 0 8 = 0 := by decide
  simp only [setNum, h, fieldMask, hm]
  simp [List.range_succ, ofNat_mod]

theorem setNum_version (p : Bytes) (val : ℕ) (q : UInt8) :
    setNum 0 4 val (q :: p) = ((UInt8.ofNat val &&& ~~~0xf0) ||| (q &&& 0xf0)) :: p := by
  have hm : mskn 0 4 = 0xf0 := by decide
  simp only [setNum, fieldMask, hm]
  simp [List.range_succ, ofNat_mod]

theorem setNum_frameNo (p : Bytes) (val : ℕ) (q r : UInt8) : setNum 4 12 val (q :: r :: p) =
    ((UInt8.ofNat (val * 16) &&& ~~~0x0f) ||| (q &&& 0x0f)) ::
      UInt8.ofNat (val * 16 % 2 ^ 64 / 256) :: p := by
  have hm : mskn 4 12 = 0 := by decide
  simp only [setNum, fieldMask, hm]
  simp [List.range_succ, ofNat_mod]

theorem setNum_fragNo (p : Bytes) (val : ℕ) (a b c d e : UInt8) :
    setNum 16 24 val (a :: b :: c :: d :: e :: p) =
      a :: b :: UInt8.ofNat val :: UInt8.ofNat (val % 2 ^ 64 / 256) ::
        UInt8.ofNat (val % 2 ^ 64 / 65536) :: p := by
  have hm : mskn 0 24 = 0 := by decide
  simp only [setNum, fieldMask, hm]
  simp [List.range_succ, ofNat_mod]

theorem getNum_byte {off : ℕ} (h : off % 8 = 0) (p : Bytes) :
    getNum off 8 p = (p.getD (off / 8) 0).toNat := by
  have hlt := UInt8.toNat_lt (p.getD (off / 8) 0)
  simp only [getNum, h]
  simp only [List.range_succ]
  simp

theorem getNum_version (p : Bytes) (q : UInt8) : getNum 0 4 (q :: p) = q.toNat % 16 := by
  have hlt := UInt8.toNat_lt q
  simp [getNum, List.range_succ]

theorem getNum_frameNo (p : Bytes) (q r : UInt8) :
    getNum 4 12 (q :: r :: p) = (r.toNat * 256 + q.toNat) / 16 := by
  have hq := UInt8.toNat_lt q
  have hr := UInt8.toNat_lt r
  simp [getNum, List.range_succ]
  omega

theorem getNum_fragNo (p : Bytes) (a b c d e : UInt8) :
    getNum 16 24 (a :: b :: c :: d :: e :: p) =
      (e.toNat * 256 + d.toNat) * 256 + c.toNat := by
  have hc := UInt8.toNat_lt c
  have hd := UInt8.toNat_lt d
  have he := UInt8.toNat_lt e
  simp [getNum, List.range_succ]
  omega

/-- The eight bytes that `insert` writes. -/
theorem insert_eq (h : CAxisFrameHeader) : h.insert =
    [(UInt8.ofNat (h.frameNo * 16) &&& ~~~0x0f) |||
        (((UInt8.ofNat h.vers &&& ~~~0xf0) ||| (0 &&& 0xf0)) &&& 0x0f),
      UInt8.ofNat (h.frameNo * 16 % 2 ^ 64 / 256), UInt8.ofNat h.fragNo,
      UInt8.ofNat (h.fragNo % 2 ^ 64 / 256), UInt8.ofNat (h.fragNo % 2 ^ 64 / 65536),
      h.tDest, h.tId, h.tUsr1] := by
  unfold CAxisFrameHeader.insert PackHeader.insert
  simp only [axis, VERSION_BIT_OFFSET, VERSION_BIT_SIZE, FRAME_NO_BIT_OFFSET, FRAME_NO_BIT_SIZE,
    HEADER_SIZE, List.replicate, setNum_version, setNum_fragNo]
  rw [setNum_byte rfl, setNum_byte rfl, setNum_byte rfl]
  simp only [UInt8.ofNat_toNat]
  exact setNum_frameNo _ _ _ _

/-- A fragment number loses the bits that its field does not hold. -/
theorem parse_insert_mod (h : CAxisFrameHeader) (hv : h.vers = 0) (hf : h.frameNo < 4096)
    (rest : Bytes) {n : ℕ} (hn : 8 ≤ n) : CAxisFrameHeader.parse (h.insert ++ rest) n =
      some { h with fragNo := h.fragNo % 2 ^ 24 } := by
  rw [insert_eq]
  obtain ⟨⟨v, g, t, i, u⟩, f⟩ := h
  dsimp only at hv hf ⊢
  subst hv
  have h₀ : ((UInt8.ofNat (f * 16) &&& ~~~0x0f) |||
      (((UInt8.ofNat 0 &&& ~~~0xf0) ||| (0 &&& 0xf0)) &&& 0x0f)).toNat = f % 16 * 16 := by
    rw [mask_high, UInt8.toNat_ofNat']
    change f * 16 % 256 / 16 * 16 + 0 = _
    omega
  simp only [List.cons_append, List.nil_append, CAxisFrameHeader.parse, PackHeader.parse, axis,
    VERSION_BIT_OFFSET, VERSION_BIT_SIZE, FRAME_NO_BIT_OFFSET, FRAME_NO_BIT_SIZE, HEADER_SIZE,
    getNum_version, getNum_frameNo, getNum_fragNo, h₀]
  rw [getNum_byte rfl, getNum_byte rfl, getNum_byte rfl]
  have h₁ : ((UInt8.ofNat (f * 16 % 2 ^ 64 / 256)).toNat * 256 + f % 16 * 16) / 16 = f := by
    rw [UInt8.toNat_ofNat']
    omega
  have h₂ : ((UInt8.ofNat (g % 2 ^ 64 / 65536)).toNat * 256 +
      (UInt8.ofNat (g % 2 ^ 64 / 256)).toNat) * 256 + (UInt8.ofNat g).toNat = g % 2 ^ 24 := by
    rw [UInt8.toNat_ofNat', UInt8.toNat_ofNat', UInt8.toNat_ofNat']
    omega
  have h₃ : f % 16 * 16 % 16 = 0 := by omega
  rw [h₁, h₂, h₃, if_neg (by omega), if_neg (by omega), if_neg (by omega)]
  simp

theorem parse_insert (h : CAxisFrameHeader) (hv : h.vers = 0) (hf : h.frameNo < 4096)
    (hg : h.fragNo < 2 ^ 24) (rest : Bytes) {n : ℕ} (hn : 8 ≤ n) :
    CAxisFrameHeader.parse (h.insert ++ rest) n = some h := by
  rw [parse_insert_mod h hv hf rest hn, Nat.mod_eq_of_lt hg]

end Cpsw.Depack
