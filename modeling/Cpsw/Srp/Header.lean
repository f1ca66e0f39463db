import Cpsw.Srp.Tid

namespace Cpsw.Srp

open ByteMux Depack Lib Lib.Digits

/-- What the requests of a `CSRPAddressImpl` depend on. -/
structure Address where
  protoVersion : SRPProtoVersion
  host : ByteOrder
  vc : UInt8
  byteResolution : Bool
  /-- `defaultWriteMode_` is `POSTED` -/
  postedWrites : Bool
  retryCnt : ℕ
  deriving DecidableEq, Repr

namespace Address

def headBytes (a : Address) (off : UInt64) : ℕ := if a.byteResolution then 0 else (off &&& 3).toNat

/-- The words from an address on, up to and with the length of a transfer in version 3. -/
def wordsV3 (a : Address) (cmd tid : SRPWord) (off : UInt64) (nbytes : ℕ) : List SRPWord :=
  let totbytes := a.headBytes off + nbytes
  let nWords := (totbytes + 3) / 4
  [cmd ||| 3, tid, (if a.byteResolution then off else off &&& ~~~3).toUInt32, (off >>> 32).toUInt32,
    .ofNat (if a.byteResolution then totbytes else nWords <<< 2) - 1]

/-- The virtual channel has a word of its own in version 1. -/
def vcWords (a : Address) : List SRPWord :=
  if a.protoVersion = .SRP_UDP_V1 then [a.vc.toUInt32 <<< 24] else []

/-- `CSRPReadTransaction::resetMe`: what it puts into `xbuf_`. -/
def readHeader (a : Address) (tid : SRPWord) (off : UInt64) (sbytes : ℕ) : List SRPWord :=
  if a.protoVersion = .SRP_UDP_V3 then a.wordsV3 0 tid off sbytes
  else
    let nWords := (a.headBytes off + sbytes + 3) / 4
    a.vcWords ++ [tid, (off >>> 2).toUInt32 &&& 0x3fffffff, .ofNat nWords - 1, 0]

def isPosted (a : Address) : Bool := a.postedWrites && a.protoVersion = .SRP_UDP_V3

/-- `CSRPAddressImpl::writeBlk_unlocked`: what it puts into `xbuf`. -/
def writeHeader (a : Address) (tid : SRPWord) (off : UInt64) (dbytes : ℕ) : List SRPWord :=
  if a.protoVersion = .SRP_UDP_V3 then
    a.wordsV3 (if a.isPosted then 0x200 else 0x100) tid off dbytes
  else a.vcWords ++ [tid, (off >>> 2).toUInt32 &&& 0x3fffffff ||| 0x40000000]

/-- The bytes of a header as it is sent. -/
def message (a : Address) (ws : List SRPWord) : Bytes :=
  ws.flatMap fun w ↦ a.host.store (hdrSwap a.protoVersion a.host w)

/-- The word at the place of the transaction identifier. -/
def tidOf (a : Address) (ws : List SRPWord) : Option SRPWord := ws[tidOff a.protoVersion / 4]?

variable {a : Address} {ws : List SRPWord} {tid : SRPWord} {bc : BufChain}

theorem tidOf_readHeader (hv : a.protoVersion ≠ .SRP_UDP_NONE) (tid : SRPWord) (off : UInt64)
    (sbytes : ℕ) : a.tidOf (a.readHeader tid off sbytes) = some tid := by
  unfold tidOf readHeader vcWords
  cases h : a.protoVersion with
  | SRP_UDP_NONE => exact absurd h hv
  | _ => rfl

theorem tidOf_writeHeader (hv : a.protoVersion ≠ .SRP_UDP_NONE) (tid : SRPWord) (off : UInt64)
    (dbytes : ℕ) : a.tidOf (a.writeHeader tid off dbytes) = some tid := by
  unfold tidOf writeHeader vcWords
  cases h : a.protoVersion with
  | SRP_UDP_NONE => exact absurd h hv
  | _ => rfl

theorem message_append (ws ws' : List SRPWord) :
    a.message (ws ++ ws') = a.message ws ++ a.message ws' := List.flatMap_append

theorem message_cons (w : SRPWord) (ws : List SRPWord) :
    a.message (w :: ws) = (order a.protoVersion).store w ++ a.message ws := by
  rw [message, List.flatMap_cons, store_hdrSwap]
  rfl

theorem message_length (ws : List SRPWord) : (a.message ws).length = 4 * ws.length := by
  induction ws with
  | nil => rfl
  | cons w ws ih =>
    rw [message_cons, List.length_append, ih, store_length, List.length_cons]
    omega

/-- The identifier is where the receiver looks for it. -/
theorem tidWord_message (htid : a.tidOf ws = some tid) (h : a.message ws <+: bc.bytes) :
    tidWord a.protoVersion bc = (order a.protoVersion).store tid := by
  obtain ⟨u, hu⟩ := h
  obtain ⟨hn, hget⟩ := List.getElem?_eq_some_iff.1 htid
  have hoff : tidOff a.protoVersion = 4 * (tidOff a.protoVersion / 4) := by
    unfold tidOff
    split_ifs <;> rfl
  have hws : ws = ws.take (tidOff a.protoVersion / 4) ++
      tid :: ws.drop (tidOff a.protoVersion / 4 + 1) := by
    rw [← hget, List.getElem_cons_drop, List.take_append_drop]
  have hlen : (a.message (ws.take (tidOff a.protoVersion / 4))).length = tidOff a.protoVersion := by
    rw [message_length, List.length_take, Nat.min_eq_left hn.le, ← hoff]
  rw [tidWord, ← hu, hws, message_append, message_cons, List.append_assoc, List.append_assoc,
    List.drop_left' hlen, List.take_left' store_length]

end Address

end Cpsw.Srp
