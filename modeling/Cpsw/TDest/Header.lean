import Cpsw.Depack.Header

namespace Cpsw.TDest

open Cpsw.Depack

/-- The layout of `CDepack2Header`. -/
def depack2 : Layout where
  VERSION := 2
  FRAG_NO_BIT_OFFSET := 32
  FRAG_NO_BIT_SIZE := 16
  TDEST_BIT_OFFSET := 16
  TID_BIT_OFFSET := 24
  TUSR1_BIT_OFFSET := 8
  FRAG_FRST_BIT := 1
  T_FRAG_LAST_BIT := 8
  TAIL_SIZE := 8

def TAIL_SIZE : ℕ := depack2.TAIL_SIZE
def ALIGNMENT : ℕ := 8
def CRC_MODE_BIT_OFFSET : ℕ := 4
def CRC_MODE_BIT_SIZE : ℕ := 4
def SOF_BIT_OFFSET : ℕ := 63
def T_TUSR2_BIT_OFFSET : ℕ := 0
def T_TUSR2_BIT_SIZE : ℕ := 8
def T_NLANES_BIT_OFFSET : ℕ := 16
def T_NLANES_BIT_SIZE : ℕ := 4
def T_CRC_BIT_OFFSET : ℕ := 32
def T_CRC_BIT_SIZE : ℕ := 32

/-- `CrcMode` -/
def NONE : ℕ := 0
def DATA : ℕ := 1
def FULL : ℕ := 2

structure CDepack2Header extends PackHeader where
  crcMode : ℕ
  deriving DecidableEq, Repr

namespace CDepack2Header

def new (fragNo : ℕ) (tDest : UInt8) : CDepack2Header :=
  { toPackHeader := PackHeader.new depack2 fragNo tDest, crcMode := FULL }

def parse (p : Bytes) (hdrSize : ℕ) : Option CDepack2Header :=
  match PackHeader.parse depack2 p hdrSize with
  | none => none
  | some h => some { h with crcMode := getNum CRC_MODE_BIT_OFFSET CRC_MODE_BIT_SIZE p }

/-- The fragment number may roll over in the header; only a count of 0 makes a first fragment. -/
def insert (h : CDepack2Header) : Bytes :=
  let p := h.toPackHeader.insert depack2
  let p := if h.fragNo = 0 then
      p.set (SOF_BIT_OFFSET / 8)
        (p.getD (SOF_BIT_OFFSET / 8) 0 ||| UInt8.ofNat (2 ^ (SOF_BIT_OFFSET % 8)))
    else p
  setNum CRC_MODE_BIT_OFFSET CRC_MODE_BIT_SIZE h.crcMode p

def isFirst (p : Bytes) : Bool :=
  p.getD (SOF_BIT_OFFSET / 8) 0 &&& UInt8.ofNat (2 ^ (SOF_BIT_OFFSET % 8)) != 0

/-- The destination, without a look at the rest of the header. -/
def parseTDest (p : Bytes) (hdrSize : ℕ) : Option UInt8 :=
  if getNum VERSION_BIT_OFFSET VERSION_BIT_SIZE p ≠ depack2.VERSION ∨ hdrSize < HEADER_SIZE then none
  else some (p.getD (depack2.TDEST_BIT_OFFSET / 8) 0)

def parseTUsr2 (tail : Bytes) : ℕ := getNum T_TUSR2_BIT_OFFSET T_TUSR2_BIT_SIZE tail

def insertTUsr2 (val : ℕ) (tail : Bytes) : Bytes :=
  setNum T_TUSR2_BIT_OFFSET T_TUSR2_BIT_SIZE val tail

def parseNumLanes (tail : Bytes) : Option ℕ :=
  let numLanes := getNum T_NLANES_BIT_OFFSET T_NLANES_BIT_SIZE tail
  if numLanes > ALIGNMENT then none else some numLanes

def insertNumLanes (val : ℕ) (tail : Bytes) : Bytes :=
  setNum T_NLANES_BIT_OFFSET T_NLANES_BIT_SIZE val tail

/-- `__builtin_bswap32` -/
def bswap32 (x : UInt32) : UInt32 :=
  let byte : UInt32 → UInt32 := fun k ↦ (x >>> k) &&& 0xff
  (byte 0 <<< 24) ||| (byte 8 <<< 16) ||| (byte 16 <<< 8) ||| byte 24

/-- The CRC is stored as a big-endian number. -/
def insertCrc (crc : UInt32) (tail : Bytes) : Bytes :=
  setNum T_CRC_BIT_OFFSET T_CRC_BIT_SIZE (bswap32 crc).toNat tail

def getTailPadding (size : ℕ) : ℕ := (ALIGNMENT - size % ALIGNMENT) % ALIGNMENT

def tailIsAligned (size : ℕ) : Bool := size % ALIGNMENT == 0

/-- The tail before its CRC is known. -/
def mkTail (numLanes tUsr2 : ℕ) (eof : Bool) : Bytes :=
  insertTailEOF depack2 eof (insertTUsr2 tUsr2 (insertNumLanes numLanes (iniTail depack2)))

end CDepack2Header

/-- `CCpswCrc32LE::POLY` -/
def POLY : UInt32 := 0xedb88320

/-- The entry `i` of the table. -/
def tbl (i : UInt8) : UInt32 :=
  (fun crc : UInt32 ↦ (crc >>> 1) ^^^ (if crc &&& 1 = 1 then POLY else 0))^[8] i.toUInt32

def crc32 (crc : UInt32) (p : Bytes) : UInt32 :=
  p.foldl (fun crc b ↦ (crc >>> 8) ^^^ tbl (crc.toUInt8 ^^^ b)) crc

theorem setNum_crcMode (p : Bytes) (val : ℕ) (q : UInt8) :
    setNum 4 4 val (q :: p) = ((UInt8.ofNat (val * 16) &&& ~~~0x0f) ||| (q &&& 0x0f)) :: p := by
  have hm : mskn 4 4 = 0 := by decide
  simp only [setNum, fieldMask, hm]
  simp [List.range_succ, ofNat_mod]

theorem setNum_fragNo16 (p : Bytes) (val : ℕ) (a b c d e f : UInt8) :
    setNum 32 16 val (a :: b :: c :: d :: e :: f :: p) =
      a :: b :: c :: d :: UInt8.ofNat val :: UInt8.ofNat (val % 2 ^ 64 / 256) :: p := by
  have hm : mskn 0 16 = 0 := by decide
  simp only [setNum, fieldMask, hm]
  simp [List.range_succ, ofNat_mod]

theorem getNum_fragNo16 (p : Bytes) (a b c d e f : UInt8) :
    getNum 32 16 (a :: b :: c :: d :: e :: f :: p) = f.toNat * 256 + e.toNat := by
  have he := e.toNat_lt
  have hf := f.toNat_lt
  simp [getNum, List.range_succ]
  omega

namespace CDepack2Header

/-- The eight bytes of the header of the fragment `fragNo`. -/
theorem insert_new (fragNo : ℕ) (tDest : UInt8) : (new fragNo tDest).insert =
    [0x22, if fragNo = 0 then 2 else 0, tDest, 0, UInt8.ofNat fragNo,
      UInt8.ofNat (fragNo % 2 ^ 64 / 256), 0, if fragNo = 0 then 0x80 else 0] := by
  have hbase : (new fragNo tDest).toPackHeader.insert depack2 =
      [2, if fragNo = 0 then 2 else 0, tDest, 0, UInt8.ofNat fragNo,
        UInt8.ofNat (fragNo % 2 ^ 64 / 256), 0, 0] := by
    unfold PackHeader.insert
    simp only [depack2, VERSION_BIT_OFFSET, VERSION_BIT_SIZE, HEADER_SIZE, List.replicate,
      setNum_version, setNum_fragNo16]
    rw [setNum_byte rfl, setNum_byte rfl, setNum_byte rfl]
    simp only [UInt8.ofNat_toNat]
    by_cases h : fragNo = 0
    · subst h
      simp [new, PackHeader.new, PackHeader.setSOF, depack2]
      decide
    · simp [new, PackHeader.new, PackHeader.setSOF, depack2, h]
      decide
  have hf : (new fragNo tDest).fragNo = fragNo := rfl
  have hm : (UInt8.ofNat ((new fragNo tDest).crcMode * 16) &&& ~~~0x0f) ||| (2 &&& 0x0f) = 0x22 := by
    change (UInt8.ofNat (2 * 16) &&& ~~~0x0f) ||| (2 &&& 0x0f) = 0x22
    decide
  have hmode : ∀ p : Bytes, setNum CRC_MODE_BIT_OFFSET CRC_MODE_BIT_SIZE (new fragNo tDest).crcMode
      (2 :: p) = 0x22 :: p := by
    intro p
    refine (setNum_crcMode p _ 2).trans ?_
    rw [hm]
  unfold insert
  simp only [hbase, hf]
  by_cases h : fragNo = 0
  · simp only [if_pos h]
    refine Eq.trans ?_ (hmode [2, tDest, 0, UInt8.ofNat fragNo, UInt8.ofNat (fragNo % 2 ^ 64 / 256),
      0, 0x80])
    simp [SOF_BIT_OFFSET]
  · simp only [if_neg h]
    exact hmode _

/-- What a receiver reads in it. -/
theorem parse_new (fragNo : ℕ) (tDest : UInt8) (rest : Bytes) {n : ℕ} (hn : 8 ≤ n) :
    (∃ hdr, parse ((new fragNo tDest).insert ++ rest) n = some hdr ∧
      hdr.fragNo = fragNo % 2 ^ 16) ∧
    parseTDest ((new fragNo tDest).insert ++ rest) n = some tDest ∧
    isFirst ((new fragNo tDest).insert ++ rest) = (fragNo == 0) := by
  rw [insert_new]
  have hv : ∀ l : Bytes, getNum 0 4 (0x22 :: l) = 2 := fun l ↦ (getNum_version l _).trans (by decide)
  have hf : (UInt8.ofNat (fragNo % 2 ^ 64 / 256)).toNat * 256 + (UInt8.ofNat fragNo).toNat =
      fragNo % 2 ^ 16 := by
    rw [UInt8.toNat_ofNat', UInt8.toNat_ofNat']
    omega
  refine ⟨?_, ?_, ?_⟩
  · simp only [List.cons_append, List.nil_append, parse, PackHeader.parse, depack2,
      VERSION_BIT_OFFSET, VERSION_BIT_SIZE, HEADER_SIZE, hv, getNum_fragNo16, hf]
    rw [if_neg (by omega), if_neg (by omega), if_neg (by omega)]
    exact ⟨_, rfl, rfl⟩
  · simp only [List.cons_append, List.nil_append, parseTDest, depack2, VERSION_BIT_OFFSET,
      VERSION_BIT_SIZE, HEADER_SIZE, hv]
    rw [if_neg (by omega)]
    rfl
  · by_cases h : fragNo = 0
    · simp [isFirst, SOF_BIT_OFFSET, h]
    · simp only [if_neg h]
      rw [beq_eq_false_iff_ne.2 h]
      simp [isFirst, SOF_BIT_OFFSET]

end CDepack2Header

end Cpsw.TDest
