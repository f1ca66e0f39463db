import Cpsw.Buf
import Cpsw.Lib.Whole

namespace Cpsw.BufHeap

open Cpsw.Lib

inductive HeapError
  | alreadyOnChain
  | notEmptyChain
  | nonEmptyNode
  | splitOnChain
  | stdMTU
  | buf (e : BufError)
  deriving DecidableEq, Repr

def HeapError.text : HeapError → String
  | .alreadyOnChain => "buffer already on a chain"
  | .notEmptyChain => "can use this method only to initialize an empty chain"
  | .nonEmptyNode => "Cannot enqueue non-empty node"
  | .splitOnChain => "Cannot split buffers which are on a chain"
  | .stdMTU => "ATM all buffers are std. MTU size"
  | .buf e => e.text

/-- `CBufChainImpl` -/
structure CBufChain where
  head : Option ℕ := none
  tail : Option ℕ := none
  len : ℤ := 0
  size : ℤ := 0

/-- All buffers and chains by their addresses; the buffers from `fresh` on are on the free list. -/
structure Heap where
  links : Links ℕ
  chainOf : ℕ → Option ℕ
  buf : ℕ → Buf
  chain : ℕ → CBufChain
  fresh : ℕ

namespace Heap

variable (h : Heap) (me c : ℕ)

def setNext (v : Option ℕ) : Heap :=
  { h with links := { h.links with next := Function.update h.links.next me v } }

def setPrev (v : Option ℕ) : Heap :=
  { h with links := { h.links with prev := Function.update h.links.prev me v } }

def setChainOf (v : Option ℕ) : Heap := { h with chainOf := Function.update h.chainOf me v }

def setBuf (b : Buf) : Heap := { h with buf := Function.update h.buf me b }

def setChain (ch : CBufChain) : Heap := { h with chain := Function.update h.chain c ch }

def setHead (v : Option ℕ) : Heap := h.setChain c { h.chain c with head := v }

def setTail (v : Option ℕ) : Heap := h.setChain c { h.chain c with tail := v }

def addSize (s : ℤ) : Heap := h.setChain c { h.chain c with size := (h.chain c).size + s }

def addLen (l : ℤ) : Heap := h.setChain c { h.chain c with len := (h.chain c).len + l }

/-- `getSize()` of a buffer, as a signed number. -/
def getSize : ℤ := (h.buf me).fin - (h.buf me).beg

/-- `getSize()` in an `unsigned`. -/
def oldSize : ℤ := h.getSize me % 2 ^ 32

/-- A buffer that changes, and the count of the bytes of its chain. -/
def resize (b : Buf) (old : ℤ) : Heap :=
  match h.chainOf me with
  | some c => (h.setBuf me b).addSize c ((h.setBuf me b).getSize me - old)
  | none => h.setBuf me b

def setSize (s : ℕ) : Heap × Option HeapError :=
  match (h.buf me).setSize s with
  | .ok b => (h.resize me b (h.oldSize me), none)
  | .error e => (h, some (.buf e))

/-- `setPayload(data_ + p)`, or `setPayload(0)`. -/
def setPayload (p : Option ℤ) : Heap × Option HeapError :=
  let b := h.buf me
  match p with
  | none => (h.resize me { b with beg := 0 } (h.oldSize me), none)
  | some p =>
    if p < 0 ∨ p > b.getCapacity then (h, some (.buf .payloadOutOfRange))
    else (h.resize me { b with beg := p.toNat, fin := max b.fin p.toNat } (h.oldSize me), none)

def adjPayload (delta : ℤ) : Heap × Bool :=
  match (h.buf me).adjPayload delta with
  | some b => (h.resize me b (h.getSize me), true)
  | none => (h, false)

def reinit : Heap :=
  h.resize me { h.buf me with beg := Buf.HEADROOM, fin := Buf.HEADROOM } (h.oldSize me)

/-- `addToChain(p, before)` -/
def addToChain (p : ℕ) (before : Bool) : Except HeapError Heap :=
  if h.chainOf me ≠ none then .error .alreadyOnChain
  else
    match h.chainOf p with
    | none => .ok h
    | some c =>
      let h := h.setChainOf me (some c)
      let h :=
        if before then if (h.chain c).head = some p then h.setHead c (some me) else h
        else if (h.chain c).tail = some p then h.setTail c (some me) else h
      let h := h.addLen c 1
      .ok (h.addSize c (h.getSize me))

/-- One of the loops of `addToChain(c)` over at most `n` buffers: where it ends, the bytes and the
number of buffers so far. -/
def claim (step : ℕ → Option ℕ) :
    ℕ → Option ℕ → Heap × ℕ × ℤ × ℤ → Except (Heap × HeapError) (Heap × ℕ × ℤ × ℤ)
  | n + 1, some p, (h, _, s, l) =>
    if h.chainOf p ≠ none then .error (h, .alreadyOnChain)
    else claim step n (step p) (h.setChainOf p (some c), p, s + h.getSize p, l + 1)
  | _, _, r => .ok r

/-- `addToChain(c)` -/
def addAllToChain : Heap × Option HeapError :=
  if (h.chain c).head ≠ none ∨ (h.chain c).tail ≠ none then (h, some .notEmptyChain)
  else
    match claim c h.links.next h.fresh (some me) (h, me, 0, 0) with
    | .error (h, e) => (h, some e)
    | .ok (h, t, s, l) =>
      match claim c h.links.prev h.fresh (h.links.prev me) (h, me, s, l) with
      | .error (h, e) => (h, some e)
      | .ok (h, hd, s, l) => (h.setChain c ⟨some hd, some t, l, s⟩, none)

def delFromChain : Heap :=
  match h.chainOf me with
  | none => h
  | some c =>
    let h := if (h.chain c).head = some me then h.setHead c (h.links.next me) else h
    let h := if (h.chain c).tail = some me then h.setTail c (h.links.prev me) else h
    let h := h.addLen c (-1)
    let h := h.addSize c (-h.getSize me)
    h.setChainOf me none

/-- The pointers that `after` writes. -/
def linkAfter (p : ℕ) : Heap :=
  let h := h.setPrev me (some p)
  let h := h.setNext me (h.links.next p)
  let h := h.setNext p (some me)
  match h.links.next me with
  | some n => h.setPrev n (some me)
  | none => h

def after (p : Option ℕ) : Heap × Option HeapError :=
  match p with
  | none => (h, none)
  | some p =>
    if p = me then (h, none)
    else if h.links.next me ≠ none ∨ h.links.prev me ≠ none then (h, some .nonEmptyNode)
    else
      match h.addToChain me p false with
      | .error e => (h, some e)
      | .ok h => (h.linkAfter me p, none)

/-- The pointers that `before` writes. -/
def linkBefore (p : ℕ) : Heap :=
  let h := h.setNext me (some p)
  let h := h.setPrev me (h.links.prev p)
  let h := h.setPrev p (some me)
  match h.links.prev me with
  | some n => h.setNext n (some me)
  | none => h

def before (p : Option ℕ) : Heap × Option HeapError :=
  match p with
  | none => (h, none)
  | some p =>
    if p = me then (h, none)
    else if h.links.next me ≠ none ∨ h.links.prev me ≠ none then (h, some .nonEmptyNode)
    else
      match h.addToChain me p true with
      | .error e => (h, some e)
      | .ok h => (h.linkBefore me p, none)

/-- The pointers that `unlink` writes. -/
def unlinkNode : Heap :=
  let h :=
    match h.links.next me with
    | some n => (h.setPrev n (h.links.prev me)).setNext me none
    | none => h
  match h.links.prev me with
  | some p => (h.setNext p (h.links.next me)).setPrev me none
  | none => h

def unlink : Heap := (h.delFromChain me).unlinkNode me

def split : Heap × Option HeapError :=
  if h.chainOf me ≠ none then (h, some .splitOnChain)
  else
    match h.links.prev me with
    | some p => ((h.setNext p none).setPrev me none, none)
    | none => (h, none)

/-- `CAPA_MAX` asks for as much as there is. -/
def requested (maxcap capa : ℕ) : ℕ := if capa = 65535 then maxcap else capa

/-- `getBuf`: the buffer that is taken off the free list, in the heap without it. -/
def getBuf (maxcap capa : ℕ) (clip : Bool) : Except HeapError (Heap × ℕ) :=
  if requested maxcap capa > maxcap ∧ clip = false then .error .stdMTU
  else .ok ({ h.setBuf h.fresh (Buf.getBuf (h.buf h.fresh).data) with fresh := h.fresh + 1 }, h.fresh)

def addAtHead (b : ℕ) : Heap × Option HeapError :=
  match (h.chain c).head with
  | none => h.addAllToChain b c
  | some p => h.before b (some p)

def addAtTail (b : ℕ) : Heap × Option HeapError :=
  match (h.chain c).tail with
  | none => h.addAllToChain b c
  | some p => h.after b (some p)

def createAtHead (maxcap capa : ℕ) (clip : Bool) : Heap × Option HeapError :=
  match h.getBuf maxcap capa clip with
  | .error e => (h, some e)
  | .ok (h, b) => h.addAtHead c b

def createAtTail (maxcap capa : ℕ) (clip : Bool) : Heap × Option HeapError :=
  match h.getBuf maxcap capa clip with
  | .error e => (h, some e)
  | .ok (h, b) => h.addAtTail c b

end Heap

end Cpsw.BufHeap
