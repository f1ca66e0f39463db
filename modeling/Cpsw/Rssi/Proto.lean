import Cpsw.Rssi.Buf

namespace Cpsw.Rssi

abbrev Bytes := List UInt8

def FLG_BSY : UInt8 := 0x01
def FLG_NUL : UInt8 := 0x08
def FLG_RST : UInt8 := 0x10
def FLG_EAC : UInt8 := 0x20
def FLG_ACK : UInt8 := 0x40
def FLG_SYN : UInt8 := 0x80
def XFL_CHK : UInt8 := 0x04
def XFL_ONE : UInt8 := 0x08
def RSSI_VERSION_1 : UInt8 := 1
def minHeaderSize : ℕ := 8

/-- `flags & f` in a condition. -/
def hasFlag (flags f : UInt8) : Bool := flags &&& f != 0

inductive BadHeader
  | headerSize
  | synData
  | protocolVersion
  deriving DecidableEq, Repr

def BadHeader.text : BadHeader → String
  | .headerSize => "header size > buffer size ?"
  | .synData => "SYN must not have data"
  | .protocolVersion => "Invalid Protocol Version"

/-- A received datagram and the memory that happens to follow it. -/
structure RxBuf where
  data : Bytes
  beyond : ℕ → UInt8

def RxBuf.load (b : RxBuf) (off : ℕ) : UInt8 :=
  if h : off < b.data.length then b.data.get ⟨off, h⟩ else b.beyond off

/-- Reading a header: the offsets that are read, and the result. -/
def Rd (α : Type) : Type := RxBuf → List ℕ × α

namespace Rd

variable {α β : Type}

instance : Monad Rd where
  pure a := fun _ ↦ ([], a)
  bind m f := fun b ↦ ((m b).1 ++ (f (m b).2 b).1, (f (m b).2 b).2)

def reads (m : Rd α) (b : RxBuf) : List ℕ := (m b).1

def val (m : Rd α) (b : RxBuf) : α := (m b).2

/-- All reads stay within the datagram. -/
def Within (m : Rd α) (b : RxBuf) : Prop := ∀ off ∈ m.reads b, off < b.data.length

def size : Rd ℕ := fun b ↦ ([], b.data.length)

def ld (off : ℕ) : Rd UInt8 := fun b ↦ ([off], b.load off)

def ld16be (off : ℕ) : Rd ℕ := do
  let hi ← ld off
  let lo ← ld (off + 1)
  pure (hi.toNat * 256 + lo.toNat)

@[simp] theorem val_pure (a : α) (b : RxBuf) : (pure a : Rd α).val b = a := rfl

@[simp] theorem val_bind (m : Rd α) (f : α → Rd β) (b : RxBuf) :
    (m >>= f).val b = (f (m.val b)).val b := rfl

@[simp] theorem val_size (b : RxBuf) : size.val b = b.data.length := rfl

@[simp] theorem val_ld (off : ℕ) (b : RxBuf) : (ld off).val b = b.load off := rfl

@[simp] theorem within_pure (a : α) (b : RxBuf) : (pure a : Rd α).Within b := by
  intro off h
  cases h

@[simp] theorem within_bind (m : Rd α) (f : α → Rd β) (b : RxBuf) :
    (m >>= f).Within b ↔ m.Within b ∧ (f (m.val b)).Within b := by
  change (∀ off ∈ m.reads b ++ (f (m.val b)).reads b, _) ↔ _
  simp only [List.mem_append, or_imp, forall_and]
  rfl

@[simp] theorem within_size (b : RxBuf) : size.Within b := by
  intro off h
  cases h

@[simp] theorem within_ld (off : ℕ) (b : RxBuf) : (ld off).Within b ↔ off < b.data.length := by
  change (∀ x ∈ [off], x < b.data.length) ↔ _
  simp

@[simp] theorem within_ld16be (off : ℕ) (b : RxBuf) :
    (ld16be off).Within b ↔ off + 1 < b.data.length := by
  simp only [ld16be, within_bind, within_ld, within_pure, and_true]
  omega

end Rd

theorem RxBuf.load_eq (b : RxBuf) (off : ℕ) (h : off < b.data.length) :
    b.load off = b.data.getD off 0 := by
  unfold load
  rw [dif_pos h, List.getD_eq_getElem?_getD, List.getElem?_eq_getElem h]
  rfl

/-- `for ( i=0; i < getHSize(); i+=2 ) cs_i += ld16be( i );` with `n` rounds to go. -/
def csSum : ℕ → ℕ → ℕ → Rd ℕ
  | 0, _, acc => pure acc
  | n + 1, i, acc => do
    let w ← Rd.ld16be i
    csSum n (i + 2) (acc + w)

/-- `while ( cs_i > 0xffff )`; the sum of at most 128 words needs two rounds. -/
def csFold : ℕ → ℕ → ℕ
  | 0, s => s
  | n + 1, s => if s > 0xffff then csFold n (s % 0x10000 + s / 0x10000) else s

def cs : Rd ℕ := do
  let hSize ← Rd.ld 1
  let s ← csSum ((hSize.toNat + 1) / 2) 0 0
  pure (0xffff - csFold 2 s)

/-- The constructor in mode `READ`; the result is `chkOk_`. -/
def RssiHeader.read (computeChksum : Bool) : Rd (Except BadHeader Bool) := do
  let bufsz ← Rd.size
  if bufsz < 2 then pure (.error .headerSize)
  else
    let hSize ← Rd.ld 1
    if bufsz < hSize.toNat then pure (.error .headerSize)
    else if computeChksum then
      let c ← cs
      pure (.ok (c == 0))
    else pure (.ok true)

/-- The fields of a SYN that the receiver uses. -/
structure RssiSynHeader where
  xflgs : UInt8
  ossMX : UInt8
  sgsMX : ℕ
  rexTO : ℕ
  cakTO : ℕ
  nulTO : ℕ
  rexMX : UInt8
  cakMX : UInt8
  units : UInt8
  deriving DecidableEq, Repr

def RssiSynHeader.fields : Rd RssiSynHeader := do
  let xflgs ← Rd.ld 4
  let ossMX ← Rd.ld 5
  let sgsMX ← Rd.ld16be 6
  let rexTO ← Rd.ld16be 8
  let cakTO ← Rd.ld16be 10
  let nulTO ← Rd.ld16be 12
  let rexMX ← Rd.ld 14
  let cakMX ← Rd.ld 15
  let units ← Rd.ld 17
  pure { xflgs, ossMX, sgsMX, rexTO, cakTO, nulTO, rexMX, cakMX, units }

/-- The constructor in mode `READ`, the checksum having been verified. -/
def RssiSynHeader.read : Rd (Except BadHeader RssiSynHeader) := do
  match ← RssiHeader.read false with
  | .error e => pure (.error e)
  | .ok _ =>
    let bufsz ← Rd.size
    let hSize ← Rd.ld 1
    if bufsz ≠ 24 ∧ hSize ≠ 24 then pure (.error .synData)
    else
      let xflgs ← Rd.ld 4
      if xflgs >>> 4 ≠ RSSI_VERSION_1 then pure (.error .protocolVersion)
      else
        let h ← fields
        pure (.ok h)

/-- A segment: the fields of the fixed header, and the bytes behind the header. -/
structure Segment where
  flags : UInt8
  hSize : UInt8
  seqNo : SeqNo
  ackNo : SeqNo
  payload : Bytes
  deriving DecidableEq, Repr

namespace Segment

def hasPayload (s : Segment) : Bool := !s.payload.isEmpty

def isPureAck (s : Segment) : Bool := s.flags &&& ~~~FLG_BSY == FLG_ACK

def ofBytes (b : Bytes) : Segment where
  flags := b.getD 0 0
  hSize := b.getD 1 0
  seqNo := b.getD 2 0
  ackNo := b.getD 3 0
  payload := b.drop (b.getD 1 0).toNat

def load : Rd Segment := do
  let flags ← Rd.ld 0
  let hSize ← Rd.ld 1
  let seqNo ← Rd.ld 2
  let ackNo ← Rd.ld 3
  (fun b ↦ ([], { flags, hSize, seqNo, ackNo, payload := b.data.drop hSize.toNat }) : Rd Segment)

end Segment

/-- What the receiver makes of a datagram before it looks at its state. -/
inductive Rx
  | tooShort
  | badHeader
  | badChecksum
  | badSyn
  | syn (s : Segment) (h : RssiSynHeader)
  | oth (s : Segment)

def rxParse (verifyChecksum : Bool) : Rd Rx := do
  let bufsz ← Rd.size
  if bufsz < minHeaderSize then pure .tooShort
  else
    match ← RssiHeader.read verifyChecksum with
    | .error _ => pure .badHeader
    | .ok false => pure .badChecksum
    | .ok true =>
      let s ← Segment.load
      if hasFlag s.flags FLG_SYN then
        match ← RssiSynHeader.read with
        | .error _ => pure .badSyn
        | .ok h => pure (.syn s h)
      else pure (.oth s)

section Parse

open Rd

theorem Segment.val_load {b : RxBuf} (h : 8 ≤ b.data.length) :
    Segment.load.val b = Segment.ofBytes b.data := by
  have h0 := b.load_eq 0 (by omega)
  have h1 := b.load_eq 1 (by omega)
  have h2 := b.load_eq 2 (by omega)
  have h3 := b.load_eq 3 (by omega)
  change Segment.mk (b.load 0) (b.load 1) (b.load 2) (b.load 3) (b.data.drop (b.load 1).toNat) = _
  rw [h0, h1, h2, h3]
  rfl

theorem Segment.within_load {b : RxBuf} (h : 8 ≤ b.data.length) : Segment.load.Within b := by
  intro off ho
  change off ∈ [0, 1, 2, 3] at ho
  simp only [List.mem_cons, List.not_mem_nil, or_false] at ho
  omega

theorem within_csSum (n i acc : ℕ) (b : RxBuf) :
    (csSum n i acc).Within b ↔ n = 0 ∨ i + 2 * n ≤ b.data.length := by
  induction n generalizing i acc with
  | zero => simp [csSum]
  | succ n ih =>
    simp only [csSum, within_bind, within_ld16be, ih]
    omega

theorem within_cs {b : RxBuf} (h : 2 ≤ b.data.length) :
    cs.Within b ↔ (b.data.getD 1 0).toNat + (b.data.getD 1 0).toNat % 2 ≤ b.data.length := by
  have h1 := b.load_eq 1 (by omega)
  simp only [cs, within_bind, within_ld, within_pure, and_true, val_ld, h1, within_csSum]
  omega

theorem RssiHeader.within_read {b : RxBuf} (h : 8 ≤ b.data.length) (verify : Bool) :
    (RssiHeader.read verify).Within b ↔ ¬(verify = true ∧
      (b.data.getD 1 0).toNat = b.data.length ∧ (b.data.getD 1 0).toNat % 2 = 1) := by
  have h1 := b.load_eq 1 (by omega)
  rw [RssiHeader.read, within_bind, val_size, if_neg (by omega), within_bind, val_ld, h1]
  simp only [within_size, within_ld, true_and]
  split_ifs with hlt hv
  · exact iff_of_true ⟨by omega, within_pure _ _⟩ fun ⟨_, he, _⟩ ↦ by omega
  · simp only [within_bind, within_pure, within_cs (by omega : 2 ≤ b.data.length), hv, true_and,
      and_true]
    omega
  · exact iff_of_true ⟨by omega, within_pure _ _⟩ fun ⟨hv', _⟩ ↦ hv hv'

/-- A header is accepted, its checksum apart, where the length it states fits. -/
theorem RssiHeader.val_read {b : RxBuf} (h : 8 ≤ b.data.length) (verify : Bool) :
    (RssiHeader.read verify).val b =
      if b.data.length < (b.data.getD 1 0).toNat then .error .headerSize
      else .ok (!verify || cs.val b == 0) := by
  have h1 := b.load_eq 1 (by omega)
  rw [RssiHeader.read, val_bind, val_size, if_neg (by omega), val_bind, val_ld, h1]
  split_ifs with hlt hv
  · rfl
  · rw [hv]
    rfl
  · rw [Bool.not_eq_true] at hv
    rw [hv]
    rfl

theorem RssiSynHeader.within_fields {b : RxBuf} (h : 24 ≤ b.data.length) :
    RssiSynHeader.fields.Within b := by
  simp only [RssiSynHeader.fields, within_bind, within_ld, within_ld16be, within_pure, and_true]
  omega

theorem RssiSynHeader.within_read {b : RxBuf} (h : 8 ≤ b.data.length) :
    RssiSynHeader.read.Within b := by
  have h1 := b.load_eq 1 (by omega)
  rw [RssiSynHeader.read, within_bind]
  refine ⟨(RssiHeader.within_read h false).2 (by simp), ?_⟩
  rw [RssiHeader.val_read h]
  split_ifs with hlt
  · exact within_pure _ _
  · rw [within_bind, within_bind, val_size, val_ld, h1, within_ld]
    refine ⟨within_size b, by omega, ?_⟩
    split_ifs with hs
    · exact within_pure _ _
    · have hl : 24 ≤ b.data.length := by
        by_contra hc
        refine hs ⟨by omega, fun he ↦ hlt ?_⟩
        rw [he]
        change b.data.length < 24
        omega
      rw [within_bind, within_ld]
      refine ⟨by omega, ?_⟩
      split_ifs
      · exact within_pure _ _
      · rw [within_bind]
        exact ⟨within_fields hl, within_pure _ _⟩

/-- The parser leaves the datagram exactly where a checksum is computed over a header of odd
length that ends where the datagram ends. -/
theorem rxParse_within (verify : Bool) (b : RxBuf) :
    (rxParse verify).Within b ↔ ¬(verify = true ∧ 8 ≤ b.data.length ∧
      (b.data.getD 1 0).toNat = b.data.length ∧ (b.data.getD 1 0).toNat % 2 = 1) := by
  rw [rxParse, within_bind, val_size]
  by_cases hs : b.data.length < minHeaderSize
  · have hs' : b.data.length < 8 := hs
    rw [if_pos hs]
    simp only [within_size, within_pure, and_self, true_iff]
    omega
  · have h8 : 8 ≤ b.data.length := Nat.le_of_not_lt hs
    rw [if_neg hs, within_bind, RssiHeader.within_read h8]
    simp only [within_size, h8, true_and]
    refine and_iff_left ?_
    rcases (RssiHeader.read verify).val b with e | _ | _
    · exact within_pure _ _
    · exact within_pure _ _
    · rw [within_bind]
      refine ⟨Segment.within_load h8, ?_⟩
      split_ifs
      · rw [within_bind]
        refine ⟨RssiSynHeader.within_read h8, ?_⟩
        cases RssiSynHeader.read.val b with
        | error e => exact within_pure _ _
        | ok y => exact within_pure _ _
      · exact within_pure _ _

/-- What gets past the parser is the segment that the bytes spell. -/
inductive Parses (b : Bytes) : Rx → Prop
  | tooShort : Parses b .tooShort
  | badHeader : Parses b .badHeader
  | badChecksum : Parses b .badChecksum
  | badSyn : Parses b .badSyn
  | syn (y : RssiSynHeader) : 8 ≤ b.length → (b.getD 1 0).toNat ≤ b.length →
      hasFlag (Segment.ofBytes b).flags FLG_SYN = true → Parses b (.syn (.ofBytes b) y)
  | oth : 8 ≤ b.length → (b.getD 1 0).toNat ≤ b.length →
      hasFlag (Segment.ofBytes b).flags FLG_SYN = false → Parses b (.oth (.ofBytes b))

theorem rxParse_parses (verify : Bool) (b : RxBuf) : Parses b.data ((rxParse verify).val b) := by
  rw [rxParse, val_bind, val_size]
  by_cases hs : b.data.length < minHeaderSize
  · rw [if_pos hs]
    exact .tooShort
  · have h8 : 8 ≤ b.data.length := Nat.le_of_not_lt hs
    rw [if_neg hs, val_bind, RssiHeader.val_read h8]
    by_cases hlt : b.data.length < (b.data.getD 1 0).toNat
    · rw [if_pos hlt]
      exact .badHeader
    · rw [if_neg hlt]
      cases (!verify || cs.val b == 0) with
      | false => exact .badChecksum
      | true =>
        change Parses b.data (Rd.val (_ >>= _) b)
        rw [val_bind, Segment.val_load h8]
        by_cases hf : hasFlag (Segment.ofBytes b.data).flags FLG_SYN = true
        · rw [if_pos hf, val_bind]
          cases RssiSynHeader.read.val b with
          | error e => exact .badSyn
          | ok y => exact .syn y h8 (by omega) hf
        · rw [if_neg hf]
          exact .oth h8 (by omega) (by simpa using hf)

end Parse

def st16be (b : Bytes) (off v : ℕ) : Bytes :=
  (b.set off (UInt8.ofNat (v / 256))).set (off + 1) (UInt8.ofNat v)

def setFlags (b : Bytes) (v : UInt8) : Bytes := b.set 0 v

def setAckNo (b : Bytes) (v : SeqNo) : Bytes := b.set 3 v

def getFlags (b : Bytes) : UInt8 := b.getD 0 0

def getHSize (b : Bytes) : ℕ := (b.getD 1 0).toNat

def writeChksum (b : Bytes) : Bytes :=
  let b₀ := st16be b (getHSize b - 2) 0
  st16be b₀ (getHSize b - 2) (cs.val ⟨b₀, fun _ ↦ 0⟩)

/-- A fresh header in mode `SET`; `sendBuf` fills in the ACK number and the checksum. -/
def RssiHeader.set (flags : UInt8) (seqNo : SeqNo) : Bytes := [flags, 8, seqNo, 0, 0, 0, 0, 0]

def be16 (v : ℕ) : Bytes := [UInt8.ofNat (v / 256), UInt8.ofNat v]

def be32 (v : ℕ) : Bytes := be16 (v / 65536) ++ be16 v

def RssiSynHeader.set (flags : UInt8) (seqNo : SeqNo) (xflgs : UInt8)
    (ossMX sgsMX rexTO cakTO nulTO rexMX cakMX unitExp conID : ℕ) : Bytes :=
  [flags, 24, seqNo, 0, (xflgs &&& (0xf : UInt8)) ||| (RSSI_VERSION_1 <<< 4), UInt8.ofNat ossMX]
    ++ be16 sgsMX ++ be16 rexTO ++ be16 cakTO ++ be16 nulTO
    ++ [UInt8.ofNat rexMX, UInt8.ofNat cakMX, 0, UInt8.ofNat unitExp] ++ be32 conID ++ [0, 0]

end Cpsw.Rssi
