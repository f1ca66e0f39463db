import Cpsw.Async.Node
import Cpsw.Lib.Run

namespace Cpsw.Async

/-- `CAsyncIOTransactionManager`: its anchors are `NodePtr.head` and `NodePtr.tail` of the heap. -/
structure Manager (α : Type) where
  heap : Heap α
  timeout : ℕ

namespace Manager

variable {α : Type}

def create (timeoutUs : ℕ) : Manager α where
  heap p := match p with
    | .head => { next := some .tail }
    | .tail => { prev := some .head }
    | .xact _ => {}
  timeout := timeoutUs

def pendingListEmpty (m : Manager α) : Bool := (m.heap .head).next = some .tail

def getHead_unl (m : Manager α) : Option NodePtr :=
  if m.pendingListEmpty then none else (m.heap .head).next

/-- `post`, with whether it signals `havePending_`. -/
def post (m : Manager α) (xact : NodePtr) (tid : UInt32) (now : ℕ) (callback : Option α) :
    Option (Manager α × Bool) := do
  let h : Heap α := Function.update m.heap xact
    { m.heap xact with tid := tid, timeout := now + m.timeout, aio := callback }
  return ({ m with heap := ← h.addBefore xact .tail }, m.pendingListEmpty)

/-- The `for` loop of `complete`. -/
def scan (h : Heap α) (tid : UInt32) : ℕ → NodePtr → Option NodePtr
  | 0, _ => none
  | fuel + 1, xact => do
    if (h xact).tid = tid then
      return xact
    scan h tid fuel (← (h xact).next)

/-- `complete` under the lock: the transaction it takes from the list, or `none` for `-1`. -/
def findAndRemove (m : Manager α) (tid : UInt32) (fuel : ℕ) :
    Option (Manager α × Option NodePtr) := do
  let h := m.heap.setTid .tail tid
  let xact ← scan h tid fuel (← (h .head).next)
  if xact = .tail then
    return ({ m with heap := h }, none)
  return ({ m with heap := ← h.remove xact }, some xact)

/-- `threadBody` under the lock, once the list has a head: `none` when it has to sleep. -/
def removeExpired (m : Manager α) (xact : NodePtr) (now : ℕ) :
    Option (Manager α × Option NodePtr) := do
  if (m.heap xact).timeout < now then
    return ({ m with heap := ← m.heap.remove xact }, some xact)
  return (m, none)

end Manager

/-- What a callback is handed: a null pointer, or an error. -/
inductive Status (ε : Type)
  | success
  | timeoutError
  | error (e : ε)
  deriving DecidableEq, Repr

/-- A call that `doComplete` makes: of the transaction, or of its callback. -/
inductive Call (α ρ ε : Type)
  | complete (xact : NodePtr) (bc : Option ρ)
  | callback (aio : α) (status : Status ε)
  deriving DecidableEq, Repr

inductive Thread
  | receiver
  | timeout
  | destructor
  deriving DecidableEq, Repr

/-- A call of `doComplete` that has not returned; `called` once `xact->complete(bc)` has been
called, with the callback and what the call threw. -/
structure DoComplete (α ρ ε : Type) where
  thread : Thread
  xact : NodePtr
  bc : Option ρ
  called : Option (Option α × Option ε) := none
  deriving DecidableEq, Repr

/-- What `doComplete` calls after `xact->complete(bc)`, which threw `thrown`; `again` is what the
callback itself throws when it is called in the `try` block. -/
def callbacks {α ρ ε : Type} (bc : Option ρ) (aio : Option α) (thrown again : Option ε) :
    List (Call α ρ ε) :=
  match aio, thrown, again with
  | none, _, _ => []
  | some a, some e, _ => [.callback a (.error e)]
  | some a, none, none => [.callback a (if bc.isSome then .success else .timeoutError)]
  | some a, none, some e =>
    [.callback a (if bc.isSome then .success else .timeoutError), .callback a (.error e)]

/-- The manager, its threads, and the history of what they did. -/
structure State (α ρ ε : Type) where
  mgr : Manager α
  /-- the calls of `doComplete` under way -/
  doing : List (DoComplete α ρ ε) := []
  /-- the time-out thread sits in `pthread_cond_wait` -/
  waiting : Bool := false
  /-- `threadStop` has returned -/
  stopped : Bool := false
  /-- the destructor has returned -/
  gone : Bool := false
  posted : List NodePtr := []
  received : List (UInt32 × ρ) := []
  calls : List (Call α ρ ε) := []

/-- What a thread does between two points where others may run. -/
inductive Event (α ρ ε : Type)
  | post (xact : NodePtr) (tid : UInt32) (now : ℕ) (callback : Option α)
  | complete (bc : Option ρ) (tid : UInt32)
  | threadBody (now : ℕ)
  | threadStop
  | flush
  | callComplete (k : ℕ) (thrown : Option ε)
  | callCallback (k : ℕ) (again : Option ε)
  deriving DecidableEq, Repr

namespace State

variable {α ρ ε : Type}

def new (timeoutUs : ℕ) : State α ρ ε := { mgr := .create timeoutUs }

def busy (s : State α ρ ε) (thread : Thread) : Bool := s.doing.any (·.thread = thread)

/-- Enter `doComplete` with the transaction that was taken from the list, if one was. -/
def start (s : State α ρ ε) (thread : Thread) (bc : Option ρ) :
    Manager α × Option NodePtr → State α ρ ε
  | (m, none) => { s with mgr := m }
  | (m, some xact) => { s with mgr := m, doing := s.doing ++ [⟨thread, xact, bc, none⟩] }

/-- When a step can be taken: transactions come fresh from their pool, nobody uses a manager that
is gone, a thread does one thing at a time, and `threadStop` cancels the time-out thread in one of
its waits. -/
def Enabled (s : State α ρ ε) : Event α ρ ε → Prop
  | .post xact _ _ _ => s.gone = false ∧ xact ≠ .head ∧ xact ≠ .tail ∧ xact ∉ s.posted
  | .complete _ _ => s.gone = false
  | .threadBody _ => s.stopped = false ∧ s.waiting = false ∧ s.busy .timeout = false
  | .threadStop => s.stopped = false ∧ s.busy .timeout = false
  | .flush => s.stopped = true ∧ s.gone = false ∧ s.busy .destructor = false
  | .callComplete k _ => ∃ d, s.doing[k]? = some d ∧ d.called = none
  | .callCallback k _ => ∃ d, s.doing[k]? = some d ∧ d.called.isSome = true

instance (s : State α ρ ε) (e : Event α ρ ε) : Decidable (s.Enabled e) :=
  match e with
  | .post _ _ _ _ => inferInstanceAs (Decidable (_ ∧ _))
  | .complete _ _ => inferInstanceAs (Decidable (_ = _))
  | .threadBody _ => inferInstanceAs (Decidable (_ ∧ _))
  | .threadStop => inferInstanceAs (Decidable (_ ∧ _))
  | .flush => inferInstanceAs (Decidable (_ ∧ _))
  | .callComplete k _ =>
    decidable_of_iff (∃ d ∈ s.doing[k]?, d.called.isNone = true) (by simp [Enabled])
  | .callCallback k _ =>
    decidable_of_iff (∃ d ∈ s.doing[k]?, d.called.isSome = true) (by simp [Enabled])

def exec (s : State α ρ ε) : Event α ρ ε → Option (State α ρ ε)
  | .post xact tid now callback => do
    let (m, wakeup) ← s.mgr.post xact tid now callback
    return { s with
      mgr := m
      posted := s.posted ++ [xact]
      waiting := s.waiting && !wakeup }
  | .complete bc tid => do
    -- the list never holds more transactions than were posted
    let r ← s.mgr.findAndRemove tid (s.posted.length + 1)
    return { s.start .receiver bc r with
      received := s.received ++ (bc.map fun b ↦ (tid, b)).toList }
  | .threadBody now =>
    match s.mgr.getHead_unl with
    | none => some { s with waiting := true }
    | some xact => do return s.start .timeout none (← s.mgr.removeExpired xact now)
  | .threadStop => some { s with stopped := true, waiting := false }
  | .flush =>
    match s.mgr.getHead_unl with
    | none => some { s with gone := true }
    | some xact => do
      return s.start .destructor none ({ s.mgr with heap := ← s.mgr.heap.remove xact }, some xact)
  | .callComplete k thrown => do
    let d ← s.doing[k]?
    return { s with
      mgr := { s.mgr with heap := s.mgr.heap.setAio d.xact none }
      doing := s.doing.set k { d with called := some ((s.mgr.heap d.xact).aio, thrown) }
      calls := s.calls ++ [.complete d.xact d.bc] }
  | .callCallback k again => do
    let d ← s.doing[k]?
    let (aio, thrown) ← d.called
    return { s with
      doing := s.doing.eraseIdx k
      calls := s.calls ++ callbacks d.bc aio thrown again }

def Step (s t : State α ρ ε) : Prop := ∃ e, s.Enabled e ∧ s.exec e = some t

/-- A run of the threads in the given order. -/
def runs (s : State α ρ ε) : List (Event α ρ ε) → Option (State α ρ ε)
  | [] => some s
  | e :: es => if s.Enabled e then (s.exec e).bind (runs · es) else none

/-- What any interleaving of the threads can make of a new manager. -/
def Reachable (timeoutUs : ℕ) (s : State α ρ ε) : Prop :=
  Relation.ReflTransGen Step (new timeoutUs) s

theorem Reachable.runs {timeoutUs : ℕ} {s t : State α ρ ε} (h : Reachable timeoutUs s)
    {es : List (Event α ρ ε)} (hr : s.runs es = some t) : Reachable timeoutUs t := by
  induction es generalizing s with
  | nil =>
    cases hr
    exact h
  | cons e es ih =>
    unfold State.runs at hr
    split_ifs at hr with he
    obtain ⟨u, hu, hr⟩ := Option.bind_eq_some_iff.1 hr
    exact ih (h.tail ⟨e, he, hu⟩) hr

end State

end Cpsw.Async
