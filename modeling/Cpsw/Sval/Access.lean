import Cpsw.Lib.ByteMem
import Cpsw.Sval.Swap

namespace Cpsw.Sval

open Cpsw.Lib

inductive Mode
  | RO
  | WO
  | RW
  deriving DecidableEq, Repr

/-- What a `CIntEntryImpl` says of the bits of its elements. -/
structure CIntEntry where
  isSigned : Bool
  lsBit : ℕ
  sizeBits : ℕ
  mode : Mode
  wordSwap : ℕ
  deriving DecidableEq, Repr

def b2B (bits : ℕ) : ℕ := (bits + 7) / 8

def computeSize (wordSwap sizeBits lsBit : ℕ) : ℕ :=
  if wordSwap > 0 ∧ wordSwap ≠ b2B sizeBits then b2B sizeBits + (if lsBit ≠ 0 then 1 else 0)
  else b2B (sizeBits + lsBit)

namespace CIntEntry

variable (e : CIntEntry)

/-- `size_` after `checkArgs` -/
def getSize : ℕ := computeSize e.wordSwap e.sizeBits e.lsBit

/-- What `checkArgs` lets pass for a register with at least one bit. -/
structure Checked : Prop where
  sizeBits : 0 < e.sizeBits
  lsBit : e.lsBit ≤ 7
  dvd : e.wordSwap ≠ 0 → e.wordSwap ∣ b2B e.sizeBits
  whole : e.wordSwap ≠ 0 → e.mode ≠ .RO → 8 ∣ e.sizeBits

end CIntEntry

/-- The elements, as an address reads them one after the other. -/
def readElements (dev : Mem) (addr : ℕ → ℕ) (nelms nbytes : ℕ) : Bytes :=
  (List.range nelms).flatMap fun i ↦ dev.get (addr i) nbytes

/-- What `write_func8` leaves of the bytes `buf`. -/
def writeFunc8 (msk1 mskn : UInt8) (buf src : Bytes) : Bytes :=
  let both := (msk1 ≠ 0 ∨ mskn ≠ 0) ∧ src.length = 1
  let msk1' := if both then msk1 ||| mskn else msk1
  let mskn' := if both then 0 else mskn
  let first := if msk1' ≠ 0 then [buf.getD 0 0 &&& msk1' ||| src.getD 0 0 &&& ~~~msk1'] else []
  let put := src.length - first.length - (if mskn' ≠ 0 then 1 else 0)
  let off := first.length + put
  let last := if mskn' ≠ 0 then [buf.getD off 0 &&& mskn' ||| src.getD off 0 &&& ~~~mskn'] else []
  first ++ (src.drop first.length).take put ++ last

/-- The elements, as an address writes them one after the other. -/
def writeElements (dev : Mem) (addr : ℕ → ℕ) (nelms nbytes : ℕ) (msk1 mskn : UInt8)
    (src : ℕ → Bytes) : Mem :=
  (List.range nelms).foldl
    (fun dev i ↦ dev.put (addr i) (writeFunc8 msk1 mskn (dev.get (addr i) nbytes) (src i))) dev

/-- `NATIVE` stands for the byte order of the host. -/
def resolveOrder (host target : ByteOrder) : ByteOrder := if target = .NATIVE then host else target

/-- The order in which the loops go over the elements. -/
def elementOrder (host : ByteOrder) (nelms : ℕ) : List ℕ :=
  if host = .BE then List.range nelms else (List.range nelms).reverse

section GetVal

variable (host target : ByteOrder) (e : CIntEntry) (dbytes : ℕ)

/-- The passes that `doComplete` makes over one element before it is moved. -/
def unpack (ibufp : Bytes) : Bytes :=
  let sbytes := e.getSize % 2 ^ 32
  let nbytes := b2B (e.sizeBits % 2 ^ 32)
  let noff := if host = .BE then sbytes - nbytes else 0
  let ibufp := if target ≠ host then swap sbytes 1 ibufp else ibufp
  let ibufp := if e.lsBit ≠ 0 then shiftRight host e.lsBit ibufp else ibufp
  if e.wordSwap > 0 then splice ibufp noff (swap nbytes e.wordSwap (slice ibufp noff nbytes)) else ibufp

/-- One element in `doComplete`. Without any bits the sign is looked for in front of the buffer. -/
def getElement (m : Mem) (ibufp obufp : ℕ) : Option Mem :=
  let sizeBits := e.sizeBits % 2 ^ 32
  let sbytes := e.getSize % 2 ^ 32
  let ioff := if host = .BE then sbytes - dbytes else 0
  let ooff := if host = .BE then dbytes - sbytes else 0
  let m := m.modify ibufp sbytes (unpack host target e)
  let m := m.put (obufp + ooff) (m.get (ibufp + ioff) (min dbytes sbytes))
  if sizeBits < 8 * dbytes then
    if sizeBits = 0 then none
    else some (m.modify obufp dbytes (signExtend host e.isSigned sizeBits dbytes))
  else some m

/-- Where the bytes of the register are read to: `buf`, or a buffer of its own at `tmp`. -/
def readBuf (nelms buf tmp : ℕ) : ℕ :=
  let sbytes := e.getSize % 2 ^ 32
  if sbytes > dbytes then tmp
  else if dbytes > sbytes ∧ host = .BE then buf + (dbytes - sbytes) * nelms
  else buf

/-- `getVal` for elements of `dbytes` bytes at `buf`: the memory that it leaves. -/
def getVal (nelms buf tmp : ℕ) (m dev : Mem) (addr : ℕ → ℕ) : Option Mem :=
  let sbytes := e.getSize % 2 ^ 32
  let target := resolveOrder host target
  let ibufp := readBuf host e dbytes nelms buf tmp
  let m := m.put ibufp (readElements dev addr nelms sbytes)
  if target ≠ host ∨ e.lsBit ≠ 0 ∨ e.sizeBits % 2 ^ 32 ≠ 8 * dbytes ∨ e.wordSwap > 0 then
    (elementOrder host nelms).foldlM
      (fun m i ↦ getElement host target e dbytes m (ibufp + i * sbytes) (buf + i * dbytes)) m
  else some m

end GetVal

section SetVal

variable (host target : ByteOrder) (e : CIntEntry) (sbytes : ℕ)

/-- The passes that `setVal` makes over one element; `obufp` is what the new buffer held. -/
def pack (obufp ibufp : Bytes) : Bytes :=
  let dbytes := e.getSize % 2 ^ 32
  let nbytes := b2B e.sizeBits % 2 ^ 32
  let ioff := if host = .BE then sbytes - dbytes else 0
  let ooff := if host = .BE then dbytes - sbytes else 0
  let noff := if host = .BE then dbytes - nbytes else 0
  let obufp := splice obufp ooff (slice ibufp ioff (min dbytes sbytes))
  let obufp := if e.sizeBits > 8 * sbytes then signExtend host e.isSigned (8 * sbytes) dbytes obufp
    else obufp
  let obufp := if e.wordSwap > 0 then
    splice obufp noff (swap nbytes e.wordSwap (slice obufp noff nbytes)) else obufp
  let obufp := if e.lsBit ≠ 0 then shiftLeft host e.lsBit obufp else obufp
  if target ≠ host then swap dbytes 1 obufp else obufp

/-- The bits that the first and the last byte of an element keep. -/
def masks : UInt8 × UInt8 :=
  let msk1 : UInt8 := UInt8.ofNat (2 ^ e.lsBit - 1)
  let mskn : UInt8 := ~~~UInt8.ofNat (2 ^ ((e.lsBit + e.sizeBits) % 8) - 1)
  let mskn := if mskn = 0xff then 0x00 else mskn
  if target = .BE then (mskn, msk1) else (msk1, mskn)

/-- `setVal` for elements of `sbytes` bytes at `buf`: what it leaves in the memory of the device. -/
def setVal (nelms buf tmp : ℕ) (m dev : Mem) (addr : ℕ → ℕ) : Mem :=
  let dbytes := e.getSize % 2 ^ 32
  let target := resolveOrder host target
  if target ≠ host ∨ e.lsBit ≠ 0 ∨ e.sizeBits ≠ 8 * sbytes ∨ e.wordSwap > 0 then
    let (msk1, mskn) := masks target e
    let m := (elementOrder host nelms).foldl (fun m i ↦
      m.put (tmp + i * dbytes)
        (pack host target e sbytes (m.get (tmp + i * dbytes) dbytes) (m.get (buf + i * sbytes) sbytes))) m
    writeElements dev addr nelms dbytes msk1 mskn fun i ↦ m.get (tmp + i * dbytes) dbytes
  else writeElements dev addr nelms dbytes 0 0 fun i ↦ m.get (buf + i * dbytes) dbytes

end SetVal

end Cpsw.Sval
