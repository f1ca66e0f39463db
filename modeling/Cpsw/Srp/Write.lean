import Cpsw.MemDev.Agree
import Cpsw.Srp.Read

namespace Cpsw.Srp

open ByteMux Depack Lib
open Sval (mergeByte slice splice)

inductive WriteError
  | cannotMerge
  | readBack (e : ReadError)
  | truncated
  | terminated (status : SRPWord)
  | badStatus (status : SRPWord)
  | tid (e : SrpError)
  | tooManyRetries
  deriving DecidableEq, Repr

def WriteError.text : WriteError → String
  | .cannotMerge => "CSRPAddressImpl: Cannot merge bits/bytes to non-cacheable area"
  | .readBack e => e.text
  | .truncated => "Received message (write response) truncated"
  | .terminated _ => "SRP Write terminated with bad status"
  | .badStatus _ => "writing SRP"
  | .tid e => e.text
  | .tooManyRetries => "Too many retries"

def RMW_COLLAPSE_EXTRA_WORDS : ℕ := 7

/-- `sizeof(first_words)` -/
def FIRST_WORDS : ℕ := 4 * (1 + RMW_COLLAPSE_EXTRA_WORDS)

/-- What `writeBlk_unlocked` is asked to write. -/
structure Block where
  src : Bytes
  off : UInt64
  msk1 : UInt8
  mskn : UInt8
  deriving DecidableEq, Repr

namespace Block

variable (a : Address) (b : Block)

def dbytes : ℕ := b.src.length

def totbytes : ℕ := a.headBytes b.off + b.dbytes

def nWords : ℕ := (b.totbytes a + 3) / 4

def merge_first : Bool := a.headBytes b.off ≠ 0 || b.msk1 ≠ 0

/-- `merge_last`, as it is before the two ends are compared -/
def merge_end : Bool := (!a.byteResolution && b.totbytes a % 4 ≠ 0) || b.mskn ≠ 0

/-- The first byte is the last one. -/
def overlap : Bool := b.merge_first a && b.merge_end a && b.dbytes = 1

def lastbyte_in_firstwords : Bool :=
  b.merge_first a && b.merge_end a && b.dbytes ≠ 1 && b.totbytes a ≤ FIRST_WORDS

/-- `merge_last`, when it is read back or not -/
def merge_last : Bool := b.merge_end a && !b.overlap a && !b.lastbyte_in_firstwords a

/-- `msk1`, with the bits of `mskn` where first and last byte overlap -/
def mask : UInt8 := if b.overlap a then b.msk1 ||| b.mskn else b.msk1

/-- Where the first byte is read back, and how many bytes. -/
def firstRead : UInt64 × ℕ :=
  if a.byteResolution then (b.off, if b.lastbyte_in_firstwords a then b.totbytes a else 1)
  else (b.off &&& ~~~3, if b.lastbyte_in_firstwords a then (b.totbytes a + 3) / 4 * 4 else 4)

def lastRead : UInt64 × ℕ :=
  let last := b.off + .ofNat b.dbytes - 1
  if a.byteResolution then (last, 1) else (last &&& ~~~3, 4)

def firstlen : ℕ := if (b.firstRead a).2 > 4 then 4 else (b.firstRead a).2

/-- The last byte is in the word with the first one. -/
def short : Bool := b.lastbyte_in_firstwords a && b.totbytes a ≤ 4

/-- `merge_last`, as it is in the end: the last word is sent apart. -/
def lastWord : Bool := b.merge_last a || (b.lastbyte_in_firstwords a && !b.short a)

def last_byte : ℕ :=
  if a.byteResolution && !b.lastbyte_in_firstwords a then 0 else (b.totbytes a - 1) % 4

def lastlen : ℕ := if a.byteResolution then b.last_byte a + 1 else 4

def remaining : ℕ :=
  (if b.totbytes a ≤ (b.firstRead a).2 then b.totbytes a else (b.firstRead a).2) -
    a.headBytes b.off - 1 - if b.short a then 1 else 0

/-- The bytes that are sent from the source, between the words that are merged. -/
def toput : ℕ :=
  b.dbytes - (if b.merge_first a then 1 + (if b.short a then 1 else 0) + b.remaining a else 0) -
    if b.lastWord a then 1 + b.last_byte a else 0

/-- A byte of a buffer that is merged with a byte of the source. -/
def mergeAt (buf : Bytes) (i : ℕ) (msk s : UInt8) : Bytes :=
  buf.set i (mergeByte msk (buf.getD i 0) s)

/-- `first_words`, with its first byte -/
def firstMerged (first_words : Bytes) : Bytes :=
  mergeAt first_words (a.headBytes b.off) (b.mask a) (b.src.getD 0 0)

def firstWords (first_words : Bytes) : Bytes :=
  let first_words := b.firstMerged a first_words
  let first_words :=
    if b.short a then
      mergeAt first_words (b.totbytes a - 1) b.mskn (b.src.getD (b.dbytes - 1) 0)
    else first_words
  splice first_words (a.headBytes b.off + 1) (slice b.src 1 (b.remaining a))

def lastWords (first_words last_word : Bytes) : Bytes :=
  let last_word :=
    if b.lastbyte_in_firstwords a then
      slice (b.firstMerged a first_words) ((b.totbytes a - 1) / 4 * 4) 4
    else last_word
  let last_word :=
    splice last_word 0 (slice b.src (b.dbytes - 1 - b.last_byte a) (b.last_byte a))
  mergeAt last_word (b.last_byte a) b.mskn (b.src.getD (b.dbytes - 1) 0)

/-- The bytes of the source that are in front of those which are sent as they are. -/
def skipped : ℕ := if b.merge_first a then b.firstlen a - a.headBytes b.off else 0

/-- What is behind the payload. -/
def tail : Bytes :=
  if a.protoVersion ≠ .SRP_UDP_V3 then a.host.store (hdrSwap a.protoVersion a.host 0)
  else if a.byteResolution && b.totbytes a % 4 ≠ 0 then List.replicate (4 - b.totbytes a % 4) 0
  else []

/-- `swpw` on a buffer -/
def swapWord (p : Bytes) : Bytes := if a.protoVersion = .SRP_UDP_V1 then swpw a.host p else p

/-- The words of the payload, which are swapped in the transmit buffer only. -/
def swapWords (p : Bytes) : Bytes :=
  if a.protoVersion = .SRP_UDP_V1 then
    (List.range ((p.length + 3) / 4)).flatMap fun j ↦ swpw a.host (slice p (4 * j) 4)
  else p

/-- `assembleXBuf`, behind the header -/
def body (first_words last_word : Bytes) : Bytes :=
  (if b.merge_first a then swapWord a ((b.firstWords a first_words).take (b.firstlen a)) else []) ++
    swapWords a (slice b.src (b.skipped a) (b.toput a)) ++
    (if b.lastWord a then
      swapWord a ((b.lastWords a first_words last_word).take (b.lastlen a)) else []) ++
    b.tail a

end Block

/-- `CSRPWriteTransaction::complete` -/
def completeWrite (a : Address) (nWords : ℕ) (rchn : BufChain) : Except WriteError Unit :=
  let got := total rchn
  let expected := if a.protoVersion = .SRP_UDP_V3 then 6
    else 3 + if a.protoVersion = .SRP_UDP_V1 then 1 else 0
  let status (p : Bytes) := hdrSwap a.protoVersion a.host (a.host.load p)
  if got ≠ 4 * (nWords + expected) then
    if got < 4 * expected then .error .truncated
    else .error (.terminated (status (extract (got - 4) 4 rchn)))
  else if status (extract (got - 4) 4 rchn) ≠ 0 then
    .error (.badStatus (status (extract (got - 4) 4 rchn)))
  else .ok ()

/-- A device and the way to it: what comes back when something is read, and when a request to write is
pushed, with the header and what is behind it. -/
structure Line (σ : Type) where
  peer : σ → Peer
  write : σ → List SRPWord → Bytes → σ × List BufChain

variable {σ : Type} (a : Address) (raw : SRPWord) (line : Line σ)

/-- The responses to a request are popped until one of them has its identifier. -/
def popWrite (tid : SRPWord) (nWords : ℕ) : List BufChain → Option (Except WriteError Unit)
  | [] => none
  | rchn :: pops =>
    match extractTid a.protoVersion a.host raw rchn with
    | .error e => some (.error (.tid e))
    | .ok tidBits =>
      if tidMatch tidBits tid then some (completeWrite a nWords rchn) else popWrite tid nWords pops

/-- The request is pushed again each time that `pop` has timed out, with as many attempts left. -/
def writeAttempts (tid : SRPWord) (hdr : List SRPWord) (body : Bytes) (nWords : ℕ) :
    ℕ → σ → Except WriteError Unit × σ
  | attempts, st =>
    let (st, pops) := line.write st hdr body
    match popWrite a raw tid nWords pops, attempts with
    | some r, _ => (r, st)
    | none, 0 => (.error .tooManyRetries, st)
    | none, attempts + 1 => writeAttempts tid hdr body nWords attempts st

/-- The buffers on the stack of `writeBlk_unlocked`. -/
structure Scratch where
  first_words : ℕ
  last_word : ℕ
  first_ne : first_words ≠ 0
  last_ne : last_word ≠ 0
  apart : first_words + FIRST_WORDS ≤ last_word ∨ last_word + 4 ≤ first_words

/-- A word is read back, if it has to be. -/
def readBack (peer : Peer) (maxWordsRx : ℕ) (s : Client) (merge : Bool) (dst : ℕ) (r : UInt64 × ℕ) :
    Option (Except ReadError ℕ × Client) :=
  if merge then read a raw peer maxWordsRx s dst r.1 r.2 else some (.ok 0, s)

/-- The end of `writeBlk_unlocked`, behind the read-backs. -/
def sendBlk (z : Scratch) (s : Client) (st : σ) (b : Block) : Except WriteError ℕ × Client × σ :=
  let first_words := s.mem.get z.first_words FIRST_WORDS
  let last_word := s.mem.get z.last_word 4
  let tid := s.tid_ + tidLsb
  -- the constructor of the transaction takes an identifier that nothing uses
  let s := { s with tid_ := tid + tidLsb }
  let hdr := a.writeHeader (toTid tid) b.off b.dbytes
  let body := b.body a first_words last_word
  if a.isPosted then (.ok b.dbytes, s, (line.write st hdr body).1)
  else
    let r := writeAttempts a raw line (toTid tid) hdr body (b.nWords a) a.retryCnt st
    (r.1.map fun _ ↦ b.dbytes, s, r.2)

/-- `CSRPAddressImpl::writeBlk_unlocked` -/
def writeBlk_unlocked (maxWordsRx : ℕ) (cacheable : Cacheable) (z : Scratch) (s : Client) (st : σ)
    (b : Block) : Option (Except WriteError ℕ × Client × σ) :=
  if b.dbytes = 0 then some (.ok 0, s, st)
  else if (b.merge_first a || b.merge_end a) && cacheable.val < Cacheable.WB_CACHEABLE.val then
    some (.error .cannotMerge, s, st)
  else
    match readBack a raw (line.peer st) maxWordsRx s (b.merge_first a) z.first_words
      (b.firstRead a) with
    | none => none
    | some (.error e, s) => some (.error (.readBack e), s, st)
    | some (.ok _, s) =>
      match readBack a raw (line.peer st) maxWordsRx s (b.merge_last a) z.last_word
        (b.lastRead a) with
      | none => none
      | some (.error e, s) => some (.error (.readBack e), s, st)
      | some (.ok _, s) => some (sendBlk a raw line z s st b)

/-- The loop of `write`, when it goes round no more often than `rounds` says. -/
def writeLoop (maxWordsRx maxWordsTx : ℕ) (cacheable : Cacheable) (z : Scratch) :
    ℕ → Client → σ → Block → ℕ → ℕ → ℕ → Option (Except WriteError ℕ × Client × σ)
  | rounds, s, st, b, nWords, headbytes, rval =>
    if nWords > maxWordsTx then
      match rounds with
      | 0 => none
      | rounds + 1 =>
        let nbytes := maxWordsTx * 4 - headbytes
        match writeBlk_unlocked a raw line maxWordsRx cacheable z s st
          { b with src := b.src.take nbytes, mskn := 0 } with
        | none => none
        | some (.error e, s, st) => some (.error e, s, st)
        | some (.ok n, s, st) => writeLoop maxWordsRx maxWordsTx cacheable z rounds s st
          { src := b.src.drop nbytes, off := b.off + .ofNat nbytes, msk1 := 0, mskn := b.mskn }
          (nWords - maxWordsTx) 0 (rval + n)
    else
      (writeBlk_unlocked a raw line maxWordsRx cacheable z s st b).map fun r ↦
        (r.1.map (rval + ·), r.2)

/-- `CSRPAddressImpl::write` -/
def write (maxWordsRx maxWordsTx : ℕ) (cacheable : Cacheable) (z : Scratch) (s : Client) (st : σ)
    (b : Block) : Option (Except WriteError ℕ × Client × σ) :=
  if b.dbytes = 0 then some (.ok 0, s, st)
  else
    let headbytes := a.headBytes b.off
    let nWords := (headbytes + b.dbytes + 3) / 4
    writeLoop a raw line maxWordsRx maxWordsTx cacheable z nWords s st b nWords headbytes 0

end Cpsw.Srp
