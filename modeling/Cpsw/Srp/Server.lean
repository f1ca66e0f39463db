import Cpsw.Srp.Read

namespace Cpsw.Srp

open ByteMux Lib

/-- `struct udpsrv_range`: registers, which may change the state of the server. An access that fails
returns no bytes, or false. -/
structure Range (σ : Type) where
  base : UInt64
  size : UInt64
  read : σ → UInt32 → UInt64 → σ × Option Bytes
  write : σ → Bytes → UInt64 → σ × Bool

/-- What a server of SRP requests is started with. -/
structure Server (σ : Type) where
  vers : SRPProtoVersion
  host : ByteOrder
  /-- `SRP_OPT_BYTERES` -/
  byteRes : Bool
  rbufsz : ℕ
  ranges : List (Range σ)

inductive Cmd
  | NOP
  | RD
  | WR
  | PWR
  deriving DecidableEq, Repr

/-- `swp32` of the server, to the order of the protocol. -/
def bs32 (v1 : Bool) (host : ByteOrder) (x : SRPWord) : SRPWord :=
  if (if v1 then .BE else .LE) = host then x else swp32 x

/-- What `handleSRP` makes of a request, and the buffer with the start of the reply. -/
structure SRPRequest where
  cmd : Cmd
  off : UInt64
  size : UInt32
  /-- where the payload is, in words -/
  ooff : ℕ
  noexec : Bool
  status : UInt32
  rbuf : Mem

namespace Server

variable {σ : Type}

def v1 (sv : Server σ) : Bool := sv.vers = .SRP_UDP_V1

def v3 (sv : Server σ) : Bool := sv.vers = .SRP_UDP_V3

/-- The bytes of a request without a payload. -/
def expected (sv : Server σ) : ℕ := if sv.v3 then 20 else if sv.v1 then 16 else 12

/-- `bs32(v1, rbuf[i])` -/
def word (sv : Server σ) (rbuf : Mem) (i : ℕ) : SRPWord :=
  bs32 sv.v1 sv.host (sv.host.load (rbuf.get (4 * i) 4))

def cmdV3 (cmdwrd : SRPWord) : Cmd :=
  let c := (cmdwrd >>> 8) &&& 3
  if c = 0 then .RD else if c = 1 then .WR else if c = 2 then .PWR else .NOP

/-- The command word of a reply. -/
def replyV3 (sv : Server σ) (cmdwrd : SRPWord) : SRPWord :=
  let cmdwrd := if cmdwrd &&& 0xff ≠ 3 then (cmdwrd &&& ~~~0xff) ||| 3 else cmdwrd
  if sv.byteRes then cmdwrd ||| 0x400 else cmdwrd &&& ~~~0x400

def parseV3 (sv : Server σ) (rbuf : Mem) : SRPRequest :=
  let cmdwrd := sv.word rbuf 0
  { cmd := cmdV3 cmdwrd
    off := ((sv.word rbuf 3).toUInt64 <<< 32) ||| (sv.word rbuf 2).toUInt64
    size := if cmdV3 cmdwrd = .NOP then 0 else sv.word rbuf 4 + 1
    ooff := 5
    noexec := cmdwrd &&& 0xff ≠ 3
    status := if cmdwrd &&& 0xff ≠ 3 then 0x800 else 0
    rbuf := rbuf.put 0 (sv.host.store (bs32 sv.v1 sv.host (sv.replyV3 cmdwrd))) }

def parseV12 (sv : Server σ) (rbuf : Mem) (got : ℕ) : SRPRequest :=
  let hoff := if sv.v1 then 1 else 0
  let addr := sv.word rbuf (hoff + 1)
  let cmd := if addr &&& 0xc0000000 = 0 then .RD else .WR
  { cmd := cmd
    off := (addr <<< 2).toUInt64
    size := if cmd = .RD then (sv.word rbuf (hoff + 2) + 1) * 4 else .ofNat got - .ofNat sv.expected
    ooff := hoff + 2
    noexec := false
    status := 0
    rbuf := rbuf }

def parse (sv : Server σ) (rbuf : Mem) (got : ℕ) : SRPRequest :=
  if sv.v3 then sv.parseV3 rbuf else sv.parseV12 rbuf got

/-- A request with the wrong number of bytes is dropped. -/
def drops (sv : Server σ) (r : SRPRequest) (got : ℕ) : Bool :=
  match r.cmd with
  | .RD => got ≠ sv.expected + if sv.v3 then 0 else 4
  | .NOP => got ≠ sv.expected
  | _ => got < sv.expected || got % 4 ≠ 0 ||
      (sv.v3 && (r.size + 3) &&& ~~~3 ≠ .ofNat (got - sv.expected))

def refuses (sv : Server σ) (r : SRPRequest) : Bool :=
  (!sv.byteRes && (r.off &&& 3 ≠ 0 || r.size &&& 3 ≠ 0)) || sv.rbufsz < r.size.toNat

def payload_swap (sv : Server σ) (ooff nelms : ℕ) (rbuf : Mem) : Mem :=
  if sv.v1 then
    (List.range nelms).foldl (fun m j ↦ m.modify (4 * ooff + 4 * j) 4 (swpw sv.host)) rbuf
  else rbuf

/-- The first range that holds the address. -/
def find (sv : Server σ) (off : UInt64) : Option (Range σ) :=
  sv.ranges.find? fun range ↦ range.base ≤ off && off < range.base + range.size

/-- The range is searched, and read or written: whether that has failed, the buffer and the state. -/
def access (sv : Server σ) (st : σ) (r : SRPRequest) (got : ℕ) : Bool × Mem × σ :=
  match sv.find r.off with
  | none => (false, r.rbuf, st)
  | some range =>
    if range.base + range.size < r.off + r.size.toUInt64 then (false, r.rbuf, st)
    else if r.cmd = .RD then
      match range.read st r.size (r.off - range.base) with
      | (st, none) => (true, r.rbuf, st)
      | (st, some data) =>
        (false, sv.payload_swap r.ooff ((r.size + 3) / 4).toNat (r.rbuf.put (4 * r.ooff) data), st)
    else
      let rbuf := sv.payload_swap r.ooff ((got - sv.expected) / 4) r.rbuf
      let w := range.write st (rbuf.get (4 * r.ooff) r.size.toNat) (r.off - range.base)
      (!w.2, rbuf, w.1)

/-- A posted write to a range is not replied to. -/
def isSilent (sv : Server σ) (r : SRPRequest) : Bool := r.cmd = .PWR && (sv.find r.off).isSome

/-- The end of a reply: the number of its bytes, and the buffer. -/
def reply (sv : Server σ) (r : SRPRequest) (failed : Bool) (rbuf : Mem) : ℕ × Mem :=
  let nw := if failed then 0 else ((r.size + 3) / 4).toNat
  let status := if failed then r.status ||| 0xff else r.status
  ((r.ooff + nw + 1) * 4, rbuf.put (4 * (r.ooff + nw)) (sv.host.store status))

/-- `handleSRP`: the number of bytes of the reply, or 0 when there is none, the buffer and the state. -/
def handleSRP (sv : Server σ) (st : σ) (rbuf : Mem) (got : ℕ) : ℕ × Mem × σ :=
  let r := sv.parse rbuf got
  if sv.drops r got then (0, r.rbuf, st)
  else if r.noexec || r.cmd = .NOP then
    let x := sv.reply r false r.rbuf
    (x.1, x.2, st)
  else if sv.refuses r then
    let x := sv.reply r true r.rbuf
    (x.1, x.2, st)
  else
    let w := sv.access st r got
    if sv.isSilent r then (0, w.2.1, w.2.2)
    else
      let x := sv.reply r w.1 w.2.1
      (x.1, x.2, w.2.2)

def MEM_ADDR : UInt64 := 0
def MEM_SIZE : UInt64 := 1024 * 1024
def REGBASE : ℕ := 0x1000
def REG_RO_OFF : ℕ := 0
def REG_RO_SZ : ℕ := 16
def REG_CLR_OFF : ℕ := REG_RO_SZ
def REG_SCR_OFF : ℕ := REG_CLR_OFF + 8
def REG_SCR_SZ : ℕ := 32
def REG_ARR_OFF : ℕ := REG_SCR_OFF + REG_SCR_SZ
def REG_ARR_SZ : ℕ := 8192

def memread (mem : Mem) (nbytes : UInt32) (off : UInt64) : Mem × Option Bytes :=
  (mem, some (mem.get off.toNat nbytes.toNat))

/-- The pattern of the array, between its first and its last word, with the bytes of each number in the
order that `f` puts them into. -/
def pattern (f : Bytes → Bytes) : Bytes :=
  (List.range ((REG_ARR_SZ - 8) / 2)).flatMap fun j ↦
    f [.ofNat ((4 + 2 * j) >>> 1), .ofNat ((4 + 2 * j) >>> 9)]

/-- What happens to the scratch register and to the array when the register that clears them has been
written. -/
def clear (mem : Mem) : Mem :=
  let set := mem.get (REGBASE + REG_CLR_OFF) 4 ≠ [0, 0, 0, 0]
  let mem := mem.put (REGBASE + REG_SCR_OFF) (List.replicate REG_SCR_SZ (if set then 0xff else 0))
  let mem := mem.put (REGBASE + REG_ARR_OFF)
    (if set then [0xaa, 0xbb, 0xcc, 0xdd] ++ pattern id ++ [0xfa, 0xfb, 0xfc, 0xfd]
      else [0xdd, 0xcc, 0xbb, 0xaa] ++ pattern List.reverse ++ [0xfd, 0xfc, 0xfb, 0xfa])
  mem.put (REGBASE + REG_CLR_OFF) [0xaa, 0xaa, 0xaa, 0xaa]

/-- `memwrite`; there are some registers that cannot be written. -/
def memwrite (mem : Mem) (data : Bytes) (off : UInt64) : Mem × Bool :=
  let off := off.toNat
  if off + data.length > REGBASE + REG_RO_OFF ∧ off < REGBASE + REG_RO_OFF + REG_RO_SZ then
    (mem, false)
  else
    let mem := mem.put off data
    if off ≤ REGBASE + REG_CLR_OFF ∧ off + data.length ≥ REGBASE + REG_CLR_OFF + 4 then
      (clear mem, true)
    else (mem, true)

def memhdl : Range Mem where
  base := MEM_ADDR
  size := MEM_SIZE
  read := memread
  write := memwrite

end Server

end Cpsw.Srp
