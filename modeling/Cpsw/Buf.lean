import Mathlib.Data.List.Basic
import Mathlib.Data.Nat.Bitwise
import Mathlib.Tactic.Ring

namespace Cpsw

abbrev Bytes := List UInt8

/-- The exceptions of `CBufImpl` that concern sizes and positions. -/
inductive BufError
  | requestedSizeTooBig
  | payloadOutOfRange
  deriving DecidableEq, Repr

def BufError.text : BufError → String
  | .requestedSizeTooBig => "requested size too big"
  | .payloadOutOfRange => "requested payload pointer out of range"

/-- `CBufImpl`: the storage `data_` (`capa_` bytes), with the payload between `beg_` and `end_`. -/
structure Buf where
  data : Bytes
  beg : ℕ
  fin : ℕ
  deriving DecidableEq, Repr

/-- A chain is never empty while it travels. -/
abbrev BufChain := List Buf

namespace Buf

def HEADROOM : ℕ := 32

def CAPA_ETH_HDR : ℕ := 128

def getCapacity (b : Buf) : ℕ := b.data.length

def getSize (b : Buf) : ℕ := b.fin - b.beg

def getAvail (b : Buf) : ℕ := b.getCapacity - b.fin

def getHeadroom (b : Buf) : ℕ := b.beg

/-- What lies at `getPayload()` and after it. -/
def getPayload (b : Buf) : Bytes := b.data.drop b.beg

/-- The bytes between `beg_` and `end_`. -/
def content (b : Buf) : Bytes := b.getPayload.take b.getSize

/-- The sum `beg_ + s` is stored in a 32-bit integer before it is compared. -/
def setSize (s : ℤ) (b : Buf) : Except BufError Buf :=
  let e := ((b.beg + s) % 2 ^ 32).toNat
  if e > b.getCapacity then .error .requestedSizeTooBig else .ok { b with fin := e }

/-- `setPayload( getPayload() + n )` -/
def setPayload (n : ℕ) (b : Buf) : Except BufError Buf :=
  if b.beg + n > b.getCapacity then .error .payloadOutOfRange
  else .ok { b with beg := b.beg + n, fin := max b.fin (b.beg + n) }

def adjPayload (delta : ℤ) (b : Buf) : Option Buf :=
  if delta + b.beg < 0 ∨ delta > b.getSize then none
  else some { b with beg := (b.beg + delta).toNat }

/-- Writing at `getPayload() + off`. -/
def write (off : ℕ) (p : Bytes) (b : Buf) : Buf :=
  { b with data := b.data.take (b.beg + off) ++ p ++ b.data.drop (b.beg + off + p.length) }

/-- Writing at the end of the payload. -/
def writeEnd (p : Bytes) (b : Buf) : Buf :=
  { b with data := b.data.take (b.fin - p.length) ++ p ++ b.data.drop b.fin }

/-- A buffer from the free list, with whatever its storage holds. -/
def getBuf (storage : Bytes) : Buf := { data := storage, beg := HEADROOM, fin := HEADROOM }

/-- The payload lies within the storage, whose size is a 16-bit number. -/
structure Ok (b : Buf) : Prop where
  le : b.beg ≤ b.fin
  fits : b.fin ≤ b.getCapacity
  capa : b.getCapacity < 2 ^ 16

variable {b b' : Buf}

theorem Ok.getPayload_length (h : b.Ok) : b.getSize ≤ b.getPayload.length := by
  have := h.fits
  simp only [getSize, getPayload, List.length_drop]
  unfold getCapacity at this
  omega

theorem Ok.content_length (h : b.Ok) : b.content.length = b.getSize := by
  have := h.getPayload_length
  simp only [content, List.length_take]
  omega

/-- Whether the requested end lies within the storage. -/
theorem Ok.setSize_eq (h : b.Ok) {s : ℕ} (hs : s < 2 ^ 31) :
    b.setSize s = if b.beg + s > b.getCapacity then .error .requestedSizeTooBig
      else .ok { b with fin := b.beg + s } := by
  have h₁ := h.le
  have h₂ := h.fits
  have h₃ := h.capa
  have he : (((b.beg : ℤ) + s) % 2 ^ 32).toNat = b.beg + s := by omega
  simp only [setSize, he]

/-- Cutting off the last `n` bytes. -/
theorem Ok.setSize_sub (h : b.Ok) {n : ℕ} (hn : n ≤ b.getSize) :
    b.setSize ((b.getSize : ℤ) - n) = .ok { b with fin := b.fin - n } := by
  have h₁ := h.le
  have h₂ := h.fits
  have h₃ := h.capa
  unfold getSize at *
  have he : (((b.beg : ℤ) + (((b.fin - b.beg : ℕ) : ℤ) - n)) % 2 ^ 32).toNat = b.fin - n := by omega
  simp only [setSize, he]
  exact if_neg (by omega)

theorem Ok.setSize_pred (h : b.Ok) (hs : 0 < b.getSize) :
    b.setSize ((b.getSize : ℤ) - 1) = .ok { b with fin := b.fin - 1 } := by
  simpa using h.setSize_sub hs

theorem Ok.shrink (h : b.Ok) {n : ℕ} (hn : n ≤ b.getSize) : ({ b with fin := b.fin - n } : Buf).Ok := by
  have h₁ := h.le
  have h₂ := h.fits
  unfold getSize at hn
  refine ⟨?_, ?_, h.capa⟩
  · simp only
    omega
  · change b.fin - n ≤ b.getCapacity
    omega

theorem Ok.setPayload_eq (h : b.Ok) {n : ℕ} (hn : n ≤ b.getSize) :
    b.setPayload n = .ok { b with beg := b.beg + n } := by
  have h₁ := h.le
  have h₂ := h.fits
  unfold getSize at hn
  unfold setPayload
  rw [if_neg (by omega), Nat.max_eq_left (by omega)]

theorem content_shrink (b : Buf) (n : ℕ) :
    ({ b with fin := b.fin - n } : Buf).content = b.content.take (b.getSize - n) := by
  simp only [content, getSize, getPayload, List.take_take]
  congr 1
  omega

theorem content_drop (b : Buf) (n : ℕ) :
    ({ b with beg := b.beg + n } : Buf).content = b.content.drop n := by
  simp only [content, getSize, getPayload, List.drop_take, List.drop_drop]
  congr 1
  omega

/-- The storage before the payload, the payload, and what follows it. -/
theorem data_split (b : Buf) :
    b.data = b.data.take b.beg ++ b.content ++ b.data.drop (b.beg + b.getSize) := by
  rw [content, getPayload, List.append_assoc, ← List.drop_drop, List.take_append_drop,
    List.take_append_drop]

theorem Ok.write (h : b.Ok) {off : ℕ} {p : Bytes} (hp : off + p.length ≤ b.getSize) :
    (b.write off p).Ok ∧ (b.write off p).content =
      b.content.take off ++ p ++ b.content.drop (off + p.length) := by
  have h₁ := h.le
  have h₂ := h.fits
  have hc := h.content_length
  have hpre : (b.data.take b.beg).length = b.beg := by
    unfold getCapacity at h₂
    rw [List.length_take]
    omega
  have hdata : (b.write off p).data = b.data.take b.beg ++
      (b.content.take off ++ p ++ b.content.drop (off + p.length)) ++
        b.data.drop (b.beg + b.getSize) := by
    have htake : b.data.take (b.beg + off) = b.data.take b.beg ++ b.content.take off := by
      conv_lhs => rw [data_split b]
      rw [List.append_assoc, List.take_append, hpre, Nat.add_sub_cancel_left,
        List.take_of_length_le (by omega), List.take_append_of_le_length (by omega)]
    have hdrop : b.data.drop (b.beg + off + p.length) =
        b.content.drop (off + p.length) ++ b.data.drop (b.beg + b.getSize) := by
      conv_lhs => rw [data_split b]
      rw [List.append_assoc, List.drop_append, hpre, List.drop_eq_nil_of_le (by omega),
        Nat.add_assoc, Nat.add_sub_cancel_left, List.nil_append,
        List.drop_append_of_le_length (by omega)]
    simp only [Buf.write, htake, hdrop, List.append_assoc]
  have hmid : (b.content.take off ++ p ++ b.content.drop (off + p.length)).length = b.getSize := by
    simp only [List.length_append, List.length_take, List.length_drop]
    omega
  have hlen : (b.write off p).data.length = b.data.length := by
    conv_rhs => rw [data_split b]
    generalize b.content.take off ++ p ++ b.content.drop (off + p.length) = mid at hdata hmid
    simp only [hdata, List.length_append, hmid, hc]
  refine ⟨⟨h₁, ?_, ?_⟩, ?_⟩
  · exact h₂.trans hlen.ge
  · exact (congrArg (· < 2 ^ 16) hlen).mpr h.capa
  · change ((b.write off p).data.drop b.beg).take b.getSize = _
    rw [hdata, List.append_assoc, List.drop_left' hpre, List.take_left' hmid]

/-- A buffer that takes one more byte at its end. -/
theorem Ok.push (h : b.Ok) (hf : b.fin < b.getCapacity) (x : UInt8) :
    (({ b with fin := b.fin + 1 } : Buf).write b.getSize [x]).Ok ∧
      (({ b with fin := b.fin + 1 } : Buf).write b.getSize [x]).content = b.content ++ [x] := by
  have h₁ := h.le
  have hok : ({ b with fin := b.fin + 1 } : Buf).Ok := ⟨by simp only; omega, hf, h.capa⟩
  have hsize : ({ b with fin := b.fin + 1 } : Buf).getSize = b.getSize + 1 := by
    simp only [getSize]
    omega
  have hroom : b.getSize + [x].length ≤ ({ b with fin := b.fin + 1 } : Buf).getSize := hsize.ge
  obtain ⟨hok', hc⟩ := hok.write hroom
  refine ⟨hok', ?_⟩
  have htake : ({ b with fin := b.fin + 1 } : Buf).content.take b.getSize = b.content := by
    simp only [content, getPayload, hsize, List.take_take]
    rw [Nat.min_eq_left (by omega)]
  have hdrop : ({ b with fin := b.fin + 1 } : Buf).content.drop (b.getSize + [x].length) = [] := by
    apply List.drop_eq_nil_of_le
    rw [hok.content_length, hsize]
    rfl
  rw [hc, htake, hdrop, List.append_nil]

theorem adjPayload_neg {n : ℕ} (hn : n ≤ b.beg) :
    b.adjPayload (-n) = some { b with beg := b.beg - n } := by
  unfold adjPayload
  rw [if_neg]
  · congr 2
    omega
  · omega

/-- Writing before the payload. -/
theorem Ok.prepend (h : b.Ok) {p : Bytes} (hp : p.length ≤ b.beg) :
    (({ b with beg := b.beg - p.length } : Buf).write 0 p).Ok ∧
      (({ b with beg := b.beg - p.length } : Buf).write 0 p).content = p ++ b.content := by
  have h₁ := h.le
  have hok : ({ b with beg := b.beg - p.length } : Buf).Ok := by
    refine ⟨?_, h.fits, h.capa⟩
    simp only
    omega
  have hroom : 0 + p.length ≤ ({ b with beg := b.beg - p.length } : Buf).getSize := by
    simp only [getSize]
    omega
  obtain ⟨hok', hc⟩ := hok.write hroom
  refine ⟨hok', ?_⟩
  have hdrop : ({ b with beg := b.beg - p.length } : Buf).content.drop p.length = b.content := by
    rw [← content_drop]
    simp only [Nat.sub_add_cancel hp]
  rw [hc, List.take_zero, List.nil_append, Nat.zero_add, hdrop]

/-- More of the storage becomes payload. -/
theorem Ok.extend (h : b.Ok) {n : ℕ} (hn : b.fin + n ≤ b.getCapacity) :
    ({ b with fin := b.fin + n } : Buf).Ok ∧ ∃ junk : Bytes, junk.length = n ∧
      ({ b with fin := b.fin + n } : Buf).content = b.content ++ junk := by
  have h₁ := h.le
  have hok : ({ b with fin := b.fin + n } : Buf).Ok := by
    refine ⟨?_, hn, h.capa⟩
    simp only
    omega
  have hsize : ({ b with fin := b.fin + n } : Buf).getSize = b.getSize + n := by
    simp only [getSize]
    omega
  refine ⟨hok, ({ b with fin := b.fin + n } : Buf).content.drop b.getSize, ?_, ?_⟩
  · rw [List.length_drop, hok.content_length, hsize]
    omega
  · have htake : ({ b with fin := b.fin + n } : Buf).content.take b.getSize = b.content := by
      simp only [content, getPayload, hsize, List.take_take]
      rw [Nat.min_eq_left (by omega)]
    conv_lhs => rw [← List.take_append_drop b.getSize ({ b with fin := b.fin + n } : Buf).content]
    rw [htake]

theorem Ok.writeEnd (h : b.Ok) {p : Bytes} (hp : p.length ≤ b.getSize) :
    (b.writeEnd p).Ok ∧ (b.writeEnd p).content = b.content.take (b.getSize - p.length) ++ p := by
  have h₁ := h.le
  have hl := h.content_length
  have heq : b.writeEnd p = b.write (b.getSize - p.length) p := by
    have hoff : b.beg + (b.getSize - p.length) = b.fin - p.length := by
      unfold getSize at *
      omega
    have hend : b.fin - p.length + p.length = b.fin := by
      unfold getSize at hp
      omega
    simp only [Buf.writeEnd, Buf.write, hoff, hend]
  have hroom : b.getSize - p.length + p.length ≤ b.getSize := by omega
  obtain ⟨hok, hc⟩ := h.write hroom
  rw [heq]
  refine ⟨hok, ?_⟩
  rw [hc, List.drop_eq_nil_of_le (by omega), List.append_nil]

@[simp] theorem getSize_writeEnd (p : Bytes) (b : Buf) : (b.writeEnd p).getSize = b.getSize := rfl

@[simp] theorem write_fin (off : ℕ) (p : Bytes) (b : Buf) : (b.write off p).fin = b.fin := rfl

@[simp] theorem write_beg (off : ℕ) (p : Bytes) (b : Buf) : (b.write off p).beg = b.beg := rfl

@[simp] theorem getSize_write (off : ℕ) (p : Bytes) (b : Buf) :
    (b.write off p).getSize = b.getSize := rfl

end Buf

/-- All the bytes of a chain. -/
def BufChain.bytes (bc : BufChain) : Bytes := bc.flatMap Buf.content

theorem BufChain.bytes_append (c d : BufChain) : BufChain.bytes (c ++ d) = c.bytes ++ d.bytes :=
  List.flatMap_append

end Cpsw
