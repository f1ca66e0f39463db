import Cpsw.Depack.Chain
import Cpsw.TDest.Header
import Mathlib.Logic.Function.Basic

namespace Cpsw.TDest

open Cpsw.Depack

/-- What ends the thread that pushes a fragment; an invalid header does not. -/
inductive PortError
  | buf (e : BufError)
  /-- An empty chain, or no buffer before the one with the end of the tail. -/
  | nullBuf
  /-- A read beyond the storage of a buffer. -/
  | outOfStorage
  /-- The destination cannot be read; the thread of the module does not catch this. -/
  | invalidHeader
  deriving DecidableEq, Repr

structure CTDestPort2 where
  stripHeader : Bool
  assembleBuffer : Option BufChain
  fragNo : ℕ
  /-- What has been passed downstream. -/
  pushed : List BufChain
  deriving DecidableEq, Repr

namespace CTDestPort2

def new (stripHeader : Bool) : CTDestPort2 where
  stripHeader := stripHeader
  assembleBuffer := none
  fragNo := 0
  pushed := []

/-- The local array `tail`. What the last buffer does not hold is looked for at the end of the one
before it, but at an address in the last buffer. -/
def readTail (bc : BufChain) : Except PortError (Option Bytes) :=
  match bc.reverse with
  | [] => .error .nullBuf
  | t :: prev =>
    let tailsz := t.getSize
    let tailcpy := min TAIL_SIZE tailsz
    let prevcpy := TAIL_SIZE - tailcpy
    let high := (t.getPayload.drop (tailsz - tailcpy)).take tailcpy
    if prevcpy > 0 then
      match prev with
      | [] => .error .nullBuf
      | p :: _ =>
        if p.getSize < prevcpy then .ok none
        else
          let low := (t.getPayload.drop (p.getSize - prevcpy)).take prevcpy
          if low.length < prevcpy then .error .outOfStorage else .ok (some (low ++ high))
    else .ok (some high)

/-- `while ( strip > 0 )`, from the last buffer on. -/
def trimLoop : ℕ → List Buf → Except PortError (List Buf)
  | 0, bufs => .ok bufs
  | _ + 1, [] => .error .nullBuf
  | strip + 1, t :: prev =>
    let l := min (strip + 1) t.getSize
    match t.setSize ((t.getSize : ℤ) - l) with
    | .error e => .error (.buf e)
    | .ok t =>
      match trimLoop (strip + 1 - l) prev with
      | .error e => .error e
      | .ok prev => .ok (t :: prev)

def trimTail (strip : ℕ) (bc : BufChain) : Except PortError BufChain :=
  (trimLoop strip bc.reverse).map List.reverse

def trimHead (bc : BufChain) : BufChain :=
  match bc with
  | [] => []
  | b :: rest => (b.adjPayload HEADER_SIZE).getD b :: rest

/-- What is left of the fragment without header and tail. -/
def strip (sof eof : Bool) (numLanes : ℕ) (bc : BufChain) (s : CTDestPort2) :
    Except PortError (Option BufChain) :=
  let bc := if s.stripHeader || !sof then trimHead bc else bc
  if s.stripHeader || !eof then
    let n := 2 * TAIL_SIZE - numLanes
    if total bc < n then .ok none else (trimTail n bc).map some
  else .ok (some bc)

/-- The fragment that ends a frame passes the frame on. -/
def finish (eof : Bool) (s : CTDestPort2) : CTDestPort2 :=
  match s.assembleBuffer with
  | none => s
  | some c =>
    if eof then { s with pushed := s.pushed ++ [c], assembleBuffer := none } else s

def accept (sof eof : Bool) (fragNo : ℕ) (bc : BufChain) (s : CTDestPort2) : CTDestPort2 :=
  if sof then { s with assembleBuffer := some bc, fragNo := 0 }.finish eof
  else
    match s.assembleBuffer with
    | none => s
    | some c =>
      let next := (s.fragNo + 1) % 2 ^ 32
      if next % 2 ^ depack2.FRAG_NO_BIT_SIZE ≠ fragNo then
        { s with assembleBuffer := none, fragNo := next }
      else { s with assembleBuffer := some (c ++ bc), fragNo := next }.finish eof

def pushDownstream (bc : BufChain) (s : CTDestPort2) : Except PortError CTDestPort2 :=
  match bc with
  | [] => .error .nullBuf
  | b :: _ =>
    match CDepack2Header.parse b.getPayload b.getSize with
    | none => .ok s
    | some hdr =>
      if HEADER_SIZE + TAIL_SIZE > total bc then .ok s
      else
        let sof := CDepack2Header.isFirst b.getPayload
        match readTail bc with
        | .error e => .error e
        | .ok none => .ok s
        | .ok (some tail) =>
          let eof := parseTailEOF depack2 tail
          match CDepack2Header.parseNumLanes tail with
          | none => .ok s
          | some numLanes =>
            match s.strip sof eof numLanes bc with
            | .error e => .error e
            | .ok none => .ok s
            | .ok (some bc) => .ok (s.accept sof eof hdr.fragNo bc)

end CTDestPort2

/-- The destination of a fragment; an invalid header is not caught. -/
def extractDest (bc : BufChain) : Option UInt8 :=
  match bc with
  | [] => none
  | b :: _ => CDepack2Header.parseTDest b.getPayload b.getSize

/-- `downstream_` -/
abbrev Downstream := UInt8 → Option CTDestPort2

/-- `pushDown`: the fragment goes to the port for its destination, if there is one. -/
def pushDown (ds : Downstream) (bc : BufChain) : Except PortError Downstream :=
  match extractDest bc with
  | none => .error .invalidHeader
  | some dest =>
    match ds dest with
    | none => .ok ds
    | some prt =>
      match prt.pushDownstream bc with
      | .error e => .error e
      | .ok prt => .ok (Function.update ds dest (some prt))

end Cpsw.TDest
