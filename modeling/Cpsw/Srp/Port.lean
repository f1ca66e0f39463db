import Cpsw.Async.ExactlyOnce
import Cpsw.Srp.Header

namespace Cpsw.Async

variable {α ρ ε : Type}

/-- What the threads of the manager do by themselves. -/
def Event.isInternal : Event α ρ ε → Bool
  | .post _ _ _ _ => false
  | .complete _ _ => false
  | _ => true

end Cpsw.Async

namespace Cpsw.Srp

open ByteMux Depack

/-- A response on its way, with the number of the request that it answers. -/
structure Response where
  rchn : BufChain
  req : ℕ
  deriving DecidableEq, Repr

/-- The transaction that a caller waits for. -/
structure Xact where
  req : ℕ
  tid : UInt32
  header : List SRPWord
  attempt : ℕ := 0
  deriving DecidableEq, Repr

/-- A request as it is pushed, and the responses that it causes. -/
structure Exchange where
  xchn : BufChain
  responses : List BufChain
  deriving DecidableEq, Repr

/-- An SRP address with its two channels, and the history of its requests. -/
structure Port (α ε : Type) where
  tid_ : UInt32 := 0
  /-- the caller that holds the mutex -/
  waiting : Option Xact := none
  /-- responses that neither channel has received -/
  net : List Response := []
  queue : List Response := []
  asyncQueue : List Response := []
  asyncXactMgr : Async.State α Response ε
  /-- the identifiers of the requests, in the order of the requests -/
  issued : List UInt32 := []
  completed : List (Xact × Response) := []

inductive Event (α ε : Type)
  | read (off : UInt64) (sbytes : ℕ) (x : Exchange)
  | write (off : UInt64) (dbytes : ℕ) (x : Exchange)
  | readAsync (off : UInt64) (sbytes now : ℕ) (callback : Option α) (x : Exchange)
  /-- `pop` has timed out, and there is a retry left or none -/
  | retry (x : Exchange)
  | giveUp
  /-- `pop` has returned a response to the caller, or to the thread of the asynchronous channel;
  `raw` is what `extractTid` finds on the stack -/
  | pop (raw : SRPWord)
  | popAsync (raw : SRPWord)
  | deliver (k : ℕ)
  | lose (k : ℕ)
  | duplicate (k : ℕ)
  | manager (e : Async.Event α Response ε)

namespace Port

variable {α ε : Type}

def new (timeoutUs : ℕ) : Port α ε := { asyncXactMgr := .new timeoutUs }

/-- `getTid` -/
def getTid (s : Port α ε) : UInt32 := toTid (s.tid_ + tidLsb)

/-- The responses that can still be received. -/
def flying (s : Port α ε) : List Response := s.net ++ s.queue ++ s.asyncQueue

def issue (s : Port α ε) : Port α ε :=
  { s with tid_ := s.tid_ + tidLsb, issued := s.issued ++ [s.getTid] }

def asyncVC (a : Address) : UInt8 := a.vc ||| 0x80

/-- `door_->push`, for the request with the number `req` -/
def push (a : Address) (s : Port α ε) (dest : UInt8) (req : ℕ) (x : Exchange) :
    Option (Port α ε) := do
  let _ ← (processOutput a.protoVersion dest x.xchn).toOption
  return { s with net := s.net ++ x.responses.map (⟨·, req⟩) }

def receive (a : Address) (s : Port α ε) (r : Response) : Option UInt8 → Port α ε
  | none => s
  | some vc =>
    if vc = a.vc then { s with queue := s.queue ++ [r] }
    else if vc = asyncVC a then { s with asyncQueue := s.asyncQueue ++ [r] }
    else s

/-- A step; `none` stands for an exception, or for an event that does not occur. -/
def exec (a : Address) (s : Port α ε) : Event α ε → Option (Port α ε)
  | .read off sbytes x => do
    let t ← push a s.issue a.vc s.issued.length x
    return { t with waiting := some ⟨s.issued.length, s.getTid, a.readHeader s.getTid off sbytes, 0⟩ }
  | .write off dbytes x => do
    let s' := s.issue
    -- the constructor of the transaction takes an identifier that nothing uses
    let t ← push a { s' with tid_ := s'.tid_ + tidLsb } a.vc s.issued.length x
    return { t with
      waiting := if a.isPosted then none
        else some ⟨s.issued.length, s.getTid, a.writeHeader s.getTid off dbytes, 0⟩ }
  | .readAsync _ _ now callback x => do
    let m ← s.asyncXactMgr.exec (.post (.xact s.issued.length) s.getTid now callback)
    push a { s.issue with asyncXactMgr := m } (asyncVC a) s.issued.length x
  | .retry x => do
    let w ← s.waiting
    push a { s with waiting := some { w with attempt := w.attempt + 1 } } a.vc w.req x
  | .giveUp => some { s with waiting := none }
  | .pop raw => do
    let w ← s.waiting
    let r ← s.queue.head?
    let tidBits ← (extractTid a.protoVersion a.host raw r.rchn).toOption
    let s := { s with queue := s.queue.tail }
    return if tidMatch tidBits w.tid then
      { s with waiting := none, completed := s.completed ++ [(w, r)] }
    else s
  | .popAsync raw => do
    let r ← s.asyncQueue.head?
    let tidBits ← (extractTid a.protoVersion a.host raw r.rchn).toOption
    let m ← s.asyncXactMgr.exec (.complete (some r) tidBits)
    return { s with asyncQueue := s.asyncQueue.tail, asyncXactMgr := m }
  | .deliver k => do
    let r ← s.net[k]?
    let vc ← ((extractVC a.protoVersion r.rchn).exec []).1.toOption
    return receive a { s with net := s.net.eraseIdx k } r vc
  | .lose k => some { s with net := s.net.eraseIdx k }
  | .duplicate k => do
    let r ← s.net[k]?
    return { s with net := s.net ++ [r] }
  | .manager e => do
    let m ← s.asyncXactMgr.exec e
    return { s with asyncXactMgr := m }

/-- The request is a message with this header, and what answers it has the word with its
identifier and channel. -/
structure Exchanges (a : Address) (dest : UInt8) (header : List SRPWord) (x : Exchange) : Prop where
  ok : ∀ b ∈ x.xchn, b.Ok
  message : a.message header <+: x.xchn.bytes
  responses : ∀ sent, processOutput a.protoVersion dest x.xchn = .ok sent →
    ∀ r ∈ x.responses, (∀ b ∈ r, b.Ok) ∧ tidWord a.protoVersion r = tidWord a.protoVersion sent

/-- When a step can be taken: the mutex is free for a new request, or its holder goes on. -/
def Enabled (a : Address) (s : Port α ε) : Event α ε → Prop
  | .read off sbytes x => s.waiting = none ∧ Exchanges a a.vc (a.readHeader s.getTid off sbytes) x
  | .write off dbytes x => s.waiting = none ∧ Exchanges a a.vc (a.writeHeader s.getTid off dbytes) x
  | .readAsync off sbytes _ _ x => s.waiting = none ∧ s.asyncXactMgr.gone = false ∧
    Exchanges a (asyncVC a) (a.readHeader s.getTid off sbytes) x
  | .retry x => s.queue = [] ∧ ∃ w, s.waiting = some w ∧ w.attempt + 1 ≤ a.retryCnt ∧
    Exchanges a a.vc w.header x
  | .giveUp => s.queue = [] ∧ ∃ w, s.waiting = some w ∧ ¬w.attempt + 1 ≤ a.retryCnt
  | .pop _ => s.waiting.isSome ∧ s.queue ≠ []
  | .popAsync _ => s.asyncQueue ≠ [] ∧ s.asyncXactMgr.gone = false
  | .deliver k => k < s.net.length
  | .lose k => k < s.net.length
  | .duplicate k => k < s.net.length
  | .manager e => e.isInternal ∧ s.asyncXactMgr.Enabled e

/-- A new request does not take the identifier of one that can still be answered. -/
def Fresh (s : Port α ε) (e : Event α ε) : Prop :=
  match e with
  | .read _ _ _ | .write _ _ _ | .readAsync _ _ _ _ _ =>
    ∀ r ∈ s.flying, s.issued[r.req]? ≠ some s.getTid
  | _ => True

def Step (a : Address) (s t : Port α ε) : Prop := ∃ e, Enabled a s e ∧ s.Fresh e ∧ exec a s e = some t

/-- What any order of requests and any fate of the responses can lead to. -/
def Reachable (a : Address) (timeoutUs : ℕ) (s : Port α ε) : Prop :=
  Relation.ReflTransGen (Step a) (new timeoutUs) s

end Port

end Cpsw.Srp
