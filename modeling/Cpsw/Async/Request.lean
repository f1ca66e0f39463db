import Mathlib.Data.List.Basic
import Mathlib.Tactic.Common

namespace Cpsw.Async

/-- A shared pointer to an `IAsyncIO`: the one the read was called with, or a parallel completion. -/
inductive AsyncIO
  | user
  | par (id : ℕ)
  deriving DecidableEq, Repr

/-- `CAsyncIOParallelCompletion`; it is `live` as long as some shared pointer refers to it. -/
structure ParallelCompletion (ε : Type) where
  parent : AsyncIO
  error : Option ε := none
  live : Bool := true
  deriving DecidableEq, Repr

/-- `CAsyncIOParallelCompletion::callback`, which records the first error. -/
def ParallelCompletion.callback {ε : Type} (c : ParallelCompletion ε) (err : Option ε) :
    ParallelCompletion ε :=
  if err.isSome && c.error.isNone then { c with error := err } else c

/-- `CAsyncIOCompletion::callback`: what `stack_` is called with when `complete` throws `thrown`. -/
def CAsyncIOCompletion.callback {ε : Type} (thrown upstreamError : Option ε) : Option ε :=
  match upstreamError with
  | some err => some err
  | none => thrown

/-- The address at the end of the path, where the data come from. -/
inductive Leaf
  /-- memory: the read has finished when the function returns -/
  | mem
  /-- a file, read by a thread of its own unless its time-out is none -/
  | file (thread : Bool)
  /-- `CSRPAddressImpl`, which splits each read into this many blocks -/
  | srp (blocks : ℕ)
  deriving DecidableEq, Repr

/-- `isSync_`: `setAsync` is called by `CSRPAddressImpl` only. -/
def Leaf.isSync : Leaf → Bool
  | .mem => true
  | .file _ => true
  | .srp _ => false

/-- A call of `read` that has not returned, with the `aio_` of its `CReadArgs nargs`. -/
inductive Frame
  /-- `CMMIOAddressImpl::read`: iterations left, and the addresses above it -/
  | mmio (aio : AsyncIO) (rest : ℕ) (path : List ℕ)
  /-- `CAddressImpl::read`: elements left, and SRP blocks left of the present element -/
  | addr (aio : AsyncIO) (rest blocks : ℕ)
  deriving DecidableEq, Repr

def Frame.aio : Frame → AsyncIO
  | .mmio aio _ _ => aio
  | .addr aio _ _ => aio

/-- The call will not read anything more. -/
def Frame.finished : Frame → Bool
  | .mmio _ rest _ => rest = 0
  | .addr _ rest blocks => rest = 0 && blocks = 0

/-- How a sub-read returns to the loop that issued it. -/
inductive Outcome
  | ok
  | throws
  /-- the transaction is with its manager already, and sending the request throws -/
  | throwsPosted
  deriving DecidableEq, Repr

/-- A read under way. -/
structure Request (ε : Type) where
  leaf : Leaf
  /-- what `complete` of the caller's value context throws -/
  complete : Option ε := none
  /-- how many elements beyond the first the last address reads at a time -/
  span : ℕ
  cells : List (ParallelCompletion ε) := []
  /-- the calls of the reading thread, innermost first -/
  stack : List Frame := []
  /-- an exception unwinds the stack -/
  thrown : Bool := false
  /-- sub-reads in the hands of other threads -/
  pending : List AsyncIO := []
  /-- a sub-read has finished with an error -/
  failed : Bool := false
  /-- what the user's callback is called with, and whether all sub-reads have finished then -/
  calls : List (Option ε × Bool) := []
  deriving DecidableEq, Repr

namespace Request

variable {ε : Type}

inductive Event (ε : Type)
  /-- the reading thread goes on; a sub-read it issues has this outcome -/
  | dispatch (outcome : Outcome)
  /-- another thread finishes the `k`th pending sub-read -/
  | finish (k : ℕ) (err : Option ε)
  deriving DecidableEq, Repr

/-- The shared pointers there are; a live completion holds one to its parent. -/
def holders (s : Request ε) : List AsyncIO :=
  s.stack.map Frame.aio ++ s.pending ++ (s.cells.filter (·.live)).map (·.parent)

/-- Every sub-read that is ever issued has finished. -/
def quiet (s : Request ε) : Bool := s.pending = [] && (s.thrown || s.stack.all Frame.finished)

def callback (s : Request ε) (err : Option ε) : AsyncIO → Request ε
  | .user => { s with calls := s.calls ++ [(CAsyncIOCompletion.callback s.complete err, s.quiet)] }
  | .par id => { s with cells := s.cells.modify id (·.callback err) }

/-- A shared pointer has gone out of scope: the destructor of what it pointed to runs when it was
the last one. `fuel` bounds the chain of parents. -/
def drop : ℕ → Request ε → AsyncIO → Request ε
  | _, s, .user => s
  | 0, s, .par _ => s
  | fuel + 1, s, .par id =>
    if .par id ∈ s.holders then s
    else match s.cells[id]? with
      | none => s
      | some c =>
        let s := s.callback c.error c.parent
        drop fuel { s with cells := s.cells.modify id ({ · with live := false }) } c.parent

def release (s : Request ε) (aio : AsyncIO) : Request ε := s.drop s.cells.length aio

/-- `IAsyncIOParallelCompletion::create`, whose result the new top frame holds. -/
def create (s : Request ε) (parent : AsyncIO) (frame : AsyncIO → Frame) (below : List Frame) :
    Request ε :=
  { s with
    cells := s.cells ++ [{ parent := parent }]
    stack := frame (.par s.cells.length) :: below }

/-- Call `read` of the first address of the path; a container loops over `n + 1` elements, and
makes a parallel completion when these are more than one. -/
def enter (s : Request ε) (aio : AsyncIO) : List ℕ → Request ε
  | [] => { s with stack := .addr aio (s.span + 1) 0 :: s.stack }
  | n :: path =>
    if 0 < n then s.create aio (.mmio · (n + 1) path) s.stack
    else { s with stack := .mmio aio 1 path :: s.stack }

/-- Return from a call: its `nargs` goes out of scope. -/
def leave (s : Request ε) (aio : AsyncIO) (below : List Frame) : Request ε :=
  release { s with stack := below } aio

/-- `CAddressImpl::read` reads the next element. -/
def readElement (s : Request ε) (aio : AsyncIO) (rest : ℕ) (below : List Frame) :
    Outcome → Option (Request ε)
  | .ok =>
    let s' := { s with stack := .addr aio rest 0 :: below }
    match s.leaf with
    | .mem => some s'
    | .file true => some { s' with pending := s.pending ++ [aio] }
    | .file false => some (s'.callback none aio)
    | .srp 0 => some s'
    | .srp (blocks + 1) => some (s.create aio (.addr · rest (blocks + 1)) below)
  | .throws =>
    match s.leaf with
    | .srp _ => none
    | _ => some { s with stack := .addr aio rest 0 :: below, thrown := true }
  | .throwsPosted => none

/-- `readBlk_unlocked`: the manager gets the transaction before it is sent. -/
def readBlk_unlocked (s : Request ε) (aio : AsyncIO) (rest blocks : ℕ) (below : List Frame)
    (o : Outcome) : Request ε :=
  let s := { s with stack := .addr aio rest blocks :: below }
  match o with
  | .ok => { s with pending := s.pending ++ [aio] }
  | .throws => { s with thrown := true }
  | .throwsPosted => { s with pending := s.pending ++ [aio], thrown := true }

def dispatch (s : Request ε) (o : Outcome) : Option (Request ε) :=
  match s.stack with
  | [] => none
  | f :: below =>
    if s.thrown then
      if o = .ok then some (s.leave f.aio below) else none
    else match f with
      | .addr aio (rest + 1) 0 => s.readElement aio rest below o
      | .addr aio rest (blocks + 1) => some (s.readBlk_unlocked aio rest blocks below o)
      | .addr aio 0 0 =>
        if o = .ok then
          some ((if s.leaf.isSync then s.callback none aio else s).leave aio below)
        else none
      | .mmio aio (rest + 1) path =>
        if o = .ok then some (enter { s with stack := .mmio aio rest path :: below } aio path)
        else none
      | .mmio aio 0 _ => if o = .ok then some (s.leave aio below) else none

/-- A pending sub-read ends: its callback is executed, and then its pointer goes out of scope. -/
def finish (s : Request ε) (k : ℕ) (err : Option ε) : Option (Request ε) := do
  let aio ← s.pending[k]?
  let s := { s with pending := s.pending.eraseIdx k, failed := s.failed || err.isSome }
  return (s.callback err aio).release aio

def exec (s : Request ε) : Event ε → Option (Request ε)
  | .dispatch o => s.dispatch o
  | .finish k err => s.finish k err

/-- A read through the containers `path`, before its first sub-read. -/
def start (leaf : Leaf) (complete : Option ε) (span : ℕ) (path : List ℕ) : Request ε :=
  enter { leaf := leaf, complete := complete, span := span } .user path

def runs (s : Request ε) : List (Event ε) → Option (Request ε)
  | [] => some s
  | e :: es => (s.exec e).bind (runs · es)

def isDone (s : Request ε) : Prop := s.stack = [] ∧ s.pending = []

end Request

end Cpsw.Async
