import Cpsw.Cacheable
import Cpsw.Sval.Merge

namespace Cpsw.MemDev

open Cpsw.Lib Cpsw.Sval

variable (msk1 mskn : UInt8) (src : Bytes)

/-- `write_func8`, with what it returns: `put`, as the merged bytes leave it. -/
def write_func8 (buf : ℕ) (m : Mem) : Mem × ℕ :=
  let both := (msk1 ≠ 0 ∨ mskn ≠ 0) ∧ src.length = 1
  let msk1' := if both then msk1 ||| mskn else msk1
  let mskn' := if both then 0 else mskn
  let put := src.length - (if msk1' ≠ 0 then 1 else 0) - (if mskn' ≠ 0 then 1 else 0)
  (m.put buf (writeFunc8 msk1 mskn (m.get buf src.length) src), put)

/-- The words between the first and the last one, which are `w` bytes each. -/
def copyWords (w : ℕ) : ℕ → ℕ → ℕ → Bytes → Mem → Mem
  | 0, _, _, _, m => m
  | k + 1, wad0, wadN, src, m =>
    if wad0 < wadN then copyWords w k (wad0 + w) wadN (src.drop w) (m.put wad0 (src.take w)) else m

/-- Words of `2 ^ k` bytes. The bytes around the range are read and written back with it. -/
def cpsw_write_aligned (k dst : ℕ) (m : Mem) : Mem × ℕ :=
  let w := 2 ^ k
  let n := src.length
  if n = 0 then (m, 0)
  else
    let off0 := dst &&& (w - 1)
    let wad0 := dst - off0
    let offN := (dst + n - 1) &&& (w - 1)
    let wadN := dst + n - 1 - offN
    let buf0 := m.get wad0 w
    let msk1 := if n = 1 then msk1 ||| mskn else msk1
    let buf0 := buf0.set off0 (mergeByte msk1 (buf0.getD off0 0) (src.getD 0 0))
    if wad0 = wadN then
      let buf0 :=
        if n > 1 then
          splice (buf0.set offN (mergeByte mskn (buf0.getD offN 0) (src.getD (offN - off0) 0)))
            (off0 + 1) (slice src 1 (n - 2))
        else buf0
      (m.put wad0 buf0, n)
    else
      let m := m.put wad0 (splice buf0 (off0 + 1) (slice src 1 (w - off0 - 1)))
      let bufN := m.get wadN w
      let bufN := bufN.set offN (mergeByte mskn (bufN.getD offN 0) (src.getD (n - 1) 0))
      let m := m.put wadN (splice bufN 0 (slice src (n - 1 - offN) offN))
      (copyWords w n (wad0 + w) wadN (src.drop (w - off0)) m, n)

/-- The alignments that `checkAlign` lets pass. -/
inductive Align
  | one
  | two
  | four
  | eight
  deriving DecidableEq, Repr

/-- `write_func_` -/
def Align.write_func : Align → Bytes → UInt8 → UInt8 → ℕ → Mem → Mem × ℕ
  | .one => fun src msk1 mskn => write_func8 msk1 mskn src
  | .two => fun src msk1 mskn => cpsw_write_aligned msk1 mskn src 1
  | .four => fun src msk1 mskn => cpsw_write_aligned msk1 mskn src 2
  | .eight => fun src msk1 mskn => cpsw_write_aligned msk1 mskn src 3

inductive WriteError
  | outOfRange
  | cannotMergeCacheable
  | cannotMergeSeekable
  | lseekFailed
  | lseekReposition
  | timedOut
  | pselectFailed
  | readFailed
  | writeFailed
  deriving DecidableEq, Repr

def WriteError.text : WriteError → String
  | .outOfRange => "MemAddress: write out of range"
  | .cannotMergeCacheable => "CFSAddressImpl::write Cannot merge bits when writing to non-cacheable area"
  | .cannotMergeSeekable => "CFSAddressImpl::write Cannot merge bits when writing to non-seekable area"
  | .lseekFailed => "CFSAddressImpl::write lseek failed"
  | .lseekReposition => "CFSAddressImpl::write lseek failed (reposition for merging)"
  | .timedOut => "CFSAddressImpl::read timed out"
  | .pselectFailed => "CFSAddressImpl::read pselect failed"
  | .readFailed => "CFSAddressImpl::read failed"
  | .writeFailed => "CFSAddressImpl::write failed"

/-- `CMemAddressImpl::write` to a device of `size` bytes at `bufp`. -/
def CMemAddressImpl.write (align : Align) (size bufp off : ℕ) (m : Mem) :
    Except WriteError (Mem × ℕ) :=
  if (off + src.length) % 2 ^ 64 > size then .error .outOfRange
  else .ok (align.write_func src msk1 mskn (bufp + off) m)

/-- What the system calls of a run return, by their number: `read` and `write` the bytes that they
have moved of as many as were asked for. -/
structure Kernel where
  pselect : ℕ → ℤ
  read : ℕ → ℕ → ℤ
  write : ℕ → ℕ → ℤ

/-- An open file, and how many system calls there have been. -/
structure File where
  bytes : Mem
  size : ℕ
  pos : ℕ
  calls : ℕ

namespace File

variable (K : Kernel)

/-- `readTimeout`; every turn brings a byte, at least. -/
def readTimeout : ℕ → ℕ → File → Except WriteError (Bytes × File)
  | 0, _, f => .ok ([], f)
  | k + 1, n, f =>
    if n = 0 then .ok ([], f)
    else if K.pselect f.calls = 0 then .error .timedOut
    else if K.pselect f.calls < 0 then .error .pselectFailed
    else
      let got := min (K.read (f.calls + 1) n) ((f.size - f.pos : ℕ) : ℤ)
      if got ≤ 0 then .error .readFailed
      else
        match readTimeout k (n - got.toNat)
            { f with pos := f.pos + got.toNat, calls := f.calls + 2 } with
        | .error e => .error e
        | .ok (p, f') => .ok (f.bytes.get f.pos got.toNat ++ p, f')

/-- `writeTimeout`; it does not wait. -/
def writeTimeout : ℕ → Bytes → File → Except WriteError File
  | 0, _, f => .ok f
  | k + 1, src, f =>
    if src.length = 0 then .ok f
    else
      let put := K.write f.calls src.length
      if put ≤ 0 then .error .writeFailed
      else
        writeTimeout k (src.drop put.toNat) {
          bytes := f.bytes.put f.pos (src.take put.toNat)
          size := max f.size (f.pos + put.toNat)
          pos := f.pos + put.toNat
          calls := f.calls + 1 }

/-- To an absolute offset, which is a signed number. -/
def lseekSet (off : ℕ) (f : File) : Except WriteError File :=
  if off % 2 ^ 64 ≥ 2 ^ 63 then .error .lseekFailed else .ok { f with pos := off % 2 ^ 64 }

/-- One byte back. -/
def lseekBack (f : File) : Except WriteError File :=
  if f.pos = 0 then .error .lseekReposition else .ok { f with pos := f.pos - 1 }

/-- With a mask, one byte is merged with what the file holds. -/
def merge (msk s : UInt8) (f : File) : Except WriteError File :=
  if msk ≠ 0 then do
    let (buf, f) ← readTimeout K 1 1 f
    let f ← f.lseekBack
    writeTimeout K 1 [mergeByte msk (buf.getD 0 0) s] f
  else .ok f

end File

structure CFSAddressImpl where
  seekable : Bool
  offset : ℕ
  deriving DecidableEq, Repr

namespace CFSAddressImpl

variable (a : CFSAddressImpl) (off : ℕ)

/-- Whether bits can be merged. -/
def checkMerge (cacheable : Cacheable) : Except WriteError Unit :=
  if msk1 ≠ 0 ∨ mskn ≠ 0 then
    if cacheable.val < Cacheable.WT_CACHEABLE.val then .error .cannotMergeCacheable
    else if !a.seekable then .error .cannotMergeSeekable
    else .ok ()
  else .ok ()

def seek (f : File) : Except WriteError File :=
  if a.seekable then f.lseekSet (a.offset + off) else .ok f

/-- `CFSAddressImpl::write` of the bytes `src` at `off`. -/
def write (K : Kernel) (cacheable : Cacheable) (f : File) : Except WriteError (File × ℕ) := do
  a.checkMerge msk1 mskn cacheable
  let f ← a.seek off f
  let n := src.length
  let msk1' := if n = 1 then msk1 ||| mskn else msk1
  let mskn' := if n = 1 then 0 else mskn
  let f ← f.merge K msk1' (src.getD 0 0)
  let done := if msk1' ≠ 0 then 1 else 0
  let m := if mskn' ≠ 0 then n - done - 1 else n - done
  let f ← f.writeTimeout K m ((src.drop done).take m)
  let f ← f.merge K mskn' (src.getD (done + m) 0)
  pure (f, n)

end CFSAddressImpl

end Cpsw.MemDev
