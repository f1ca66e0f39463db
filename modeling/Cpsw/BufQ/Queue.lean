import Cpsw.Lib.Circular
import Cpsw.Lib.Run

namespace Cpsw.BufQ

/-- The queue of pointers; a cell that was never written holds none. -/
structure CBufQueueBase (α : Type) where
  fifo_ : List (Option α)
  rp_ : ℕ := 0
  wp_ : ℕ := 0
  fl_ : ℕ := 0
  sz_ : ℕ
  deriving DecidableEq, Repr

namespace CBufQueueBase

variable {α : Type}

def new (n : ℕ) : CBufQueueBase α := { fifo_ := List.replicate n none, sz_ := n }

def pop (b : CBufQueueBase α) : Option (Option α × CBufQueueBase α) :=
  if b.fl_ = 0 then none
  else
    let p := (b.fifo_[b.rp_]?).join
    let rp := b.rp_ + 1
    some (p, { b with rp_ := if rp = b.sz_ then 0 else rp, fl_ := b.fl_ - 1 })

def bounded_push (b : CBufQueueBase α) (p : α) : Option (CBufQueueBase α) :=
  if b.fl_ = b.sz_ then none
  else
    let wp := b.wp_ + 1
    some { b with
      fifo_ := b.fifo_.set b.wp_ (some p)
      wp_ := if wp = b.sz_ then 0 else wp
      fl_ := b.fl_ + 1 }

end CBufQueueBase

inductive Side
  | rd
  | wr
  deriving DecidableEq, Repr

/-- `CEventBufSync`, with the `pending_` of the event source that it is; `WATERMARK` is 0. -/
structure CEventBufSync where
  slots_ : ℤ
  pending_ : Bool := false
  deriving DecidableEq, Repr

def CEventBufSync.getAvailSlots (s : CEventBufSync) : ℕ := s.slots_.toNat

/-- The arguments `wait` and `abs_timeout` of `getSlot`; to wait with a time-out of none is not to
wait. -/
inductive Wait
  | no
  | until
  | forever
  deriving DecidableEq, Repr

/-- Where a thread is in `getSlot`. -/
inductive Place
  /-- before `slots_.fetch_sub` -/
  | sub
  /-- it has found no slot, before `slots_.fetch_add` -/
  | add
  | notify
  /-- in `getEvent`, before it takes the mutex or takes it again -/
  | poll
  /-- in `pthread_cond_wait` -/
  | asleep
  /-- the source was found pending, before `handle` -/
  | handle
  deriving DecidableEq, Repr

/-- What a slot is taken for, or put for. -/
inductive Task (α : Type)
  | push (b : α)
  | pop
  /-- `shutdown` eats up writer slots; it has `wi` -/
  | eat (wi : ℕ)
  /-- `shutdown` calls `tryPop` -/
  | drain (wi : ℕ)
  /-- `startup` has put `i` slots -/
  | fill (i : ℕ)
  deriving DecidableEq, Repr

/-- A thread, between two points where others may run. -/
inductive Thread (α : Type)
  | idle
  | getSlot (task : Task α) (wait : Wait) (at' : Place)
  /-- before `bounded_push` or `CBufQueueBase::pop` -/
  | access (task : Task α)
  /-- in `putSlot`, before `slots_.fetch_add` or before `notify` -/
  | putSlot (task : Task α) (notify : Bool)
  /-- `bounded_push` has failed: in `putSlot`, and then an exception -/
  | undo (notify : Bool)
  | threw
  deriving DecidableEq, Repr

inductive Call (α : Type)
  | push (b : α) (wait : Wait)
  | pop (wait : Wait)
  | shutdown
  | startup
  deriving DecidableEq, Repr

/-- The queue, the threads that use it, and what went in and out. -/
structure CBufQueue (α : Type) where
  n_ : ℕ
  base : CBufQueueBase α
  isUp_ : Bool := true
  rd_sync_ : CEventBufSync
  wr_sync_ : CEventBufSync
  /-- the thread that holds `mtx_` -/
  mtx_ : Option ℕ := none
  threads : List (Thread α)
  pushed : List α := []
  popped : List α := []
  deriving DecidableEq, Repr

inductive Event (α : Type)
  | call (k : ℕ) (c : Call α)
  | run (k : ℕ)
  /-- thread `k` is at a `notify`, which wakes a thread that sleeps, when one does -/
  | notify (k : ℕ) (woken : Option ℕ)
  /-- `pthread_cond_wait` returns by itself -/
  | wake (k : ℕ)
  | timeOut (k : ℕ)
  deriving DecidableEq, Repr

variable {α : Type}

def Task.getSide : Task α → Side
  | .push _ => .wr
  | .pop => .rd
  | .eat _ => .wr
  | .drain _ => .rd
  | .fill _ => .wr

def Task.putSide : Task α → Side
  | .push _ => .rd
  | _ => .wr

def Thread.isIdle : Thread α → Bool
  | .idle => true
  | _ => false

/-- The thread sleeps until this side notifies. -/
def Thread.asleepOn (s : Side) : Thread α → Bool
  | .getSlot task _ .asleep => task.getSide = s
  | _ => false

/-- The thread is about to notify this side. -/
def Thread.notifies (s : Side) : Thread α → Bool
  | .getSlot task _ .notify => task.getSide = s
  | .putSlot task true => task.putSide = s
  | .undo true => s = .wr
  | _ => false

namespace CBufQueue

/-- `IBufQueue::create(n)`, for `m` threads -/
def create (n m : ℕ) : CBufQueue α where
  n_ := n
  base := .new n
  rd_sync_ := { slots_ := 0 }
  wr_sync_ := { slots_ := n }
  threads := List.replicate m .idle

def sync (q : CBufQueue α) : Side → CEventBufSync
  | .rd => q.rd_sync_
  | .wr => q.wr_sync_

def setSync (q : CBufQueue α) : Side → CEventBufSync → CBufQueue α
  | .rd, s => { q with rd_sync_ := s }
  | .wr, s => { q with wr_sync_ := s }

def addSlots (q : CBufQueue α) (s : Side) (d : ℤ) : CBufQueue α :=
  q.setSync s { q.sync s with slots_ := (q.sync s).slots_ + d }

def setThread (q : CBufQueue α) (k : ℕ) (t : Thread α) : CBufQueue α :=
  { q with threads := q.threads.set k t }

/-- The outer loop of `shutdown`, which then returns. -/
def eatMore (q : CBufQueue α) (k wi : ℕ) : CBufQueue α :=
  if wi < q.n_ then q.setThread k (.getSlot (.eat wi) .no .sub)
  else { q.setThread k .idle with mtx_ := none }

/-- `getSlot` has returned true. -/
def gotSlot (q : CBufQueue α) (k : ℕ) : Task α → CBufQueue α
  | .eat wi => q.setThread k (.getSlot (.eat (wi + 1)) .no .sub)
  | task => q.setThread k (.access task)

/-- `getSlot` has returned false. -/
def noSlot (q : CBufQueue α) (k : ℕ) : Task α → CBufQueue α
  | .eat wi => q.setThread k (.getSlot (.drain wi) .no .sub)
  | .drain wi => q.eatMore k wi
  | _ => q.setThread k .idle

/-- `putSlot` has returned. -/
def putDone (q : CBufQueue α) (k : ℕ) : Task α → CBufQueue α
  | .drain wi => q.setThread k (.getSlot (.drain wi) .no .sub)
  | .fill i =>
    if i + 1 < q.n_ then q.setThread k (.putSlot (.fill (i + 1)) false)
    else { q.setThread k .idle with mtx_ := none }
  | _ => q.setThread k .idle

/-- One step of `getSlot`. -/
def getSlot (q : CBufQueue α) (k : ℕ) (task : Task α) (wait : Wait) : Place → Option (CBufQueue α)
  | .sub =>
    let slots := (q.sync task.getSide).slots_
    let q := q.addSlots task.getSide (-1)
    some (if 0 < slots then q.gotSlot k task else q.setThread k (.getSlot task wait .add))
  | .add =>
    let slots := (q.sync task.getSide).slots_
    let q := q.addSlots task.getSide 1
    some (if wait ≠ .no then q.setThread k (.getSlot task wait .poll)
      else if slots = 0 then q.setThread k (.getSlot task wait .notify)
      else q.noSlot k task)
  | .poll =>
    let s := q.sync task.getSide
    let pending := s.pending_ || 0 < s.getAvailSlots
    let q := q.setSync task.getSide { s with pending_ := pending }
    some (q.setThread k (.getSlot task wait (if pending then .handle else .asleep)))
  | .handle =>
    let q := q.setSync task.getSide { q.sync task.getSide with pending_ := false }
    some (q.setThread k (.getSlot task wait .sub))
  | _ => none

/-- `bounded_push` or `CBufQueueBase::pop`, with what is done about its result. -/
def access (q : CBufQueue α) (k : ℕ) : Task α → CBufQueue α
  | .push b =>
    match q.base.bounded_push b with
    | some base => { q.setThread k (.putSlot (.push b) false) with
        base := base
        pushed := q.pushed ++ [b] }
    | none => q.setThread k (.undo false)
  | task =>
    match q.base.pop with
    | some (some b, base) => { q.setThread k (.putSlot task false) with
        base := base
        popped := q.popped ++ [b] }
    | _ => q.setThread k .threw

def call (q : CBufQueue α) (k : ℕ) : Call α → Option (CBufQueue α)
  | .push b wait => some (q.setThread k (.getSlot (.push b) wait .sub))
  | .pop wait => some (q.setThread k (.getSlot .pop wait .sub))
  | .shutdown =>
    if q.mtx_ ≠ none then none
    else if q.isUp_ = false then some q
    else some (eatMore { q with isUp_ := false, mtx_ := some k } k 0)
  | .startup =>
    if q.mtx_ ≠ none then none
    else if q.isUp_ then some q
    else if 0 < q.n_ then
      some { q.setThread k (.putSlot (.fill 0) false) with isUp_ := true, mtx_ := some k }
    else some { q with isUp_ := true }

def run (q : CBufQueue α) (k : ℕ) : Thread α → Option (CBufQueue α)
  | .getSlot task wait at' => q.getSlot k task wait at'
  | .access task => some (q.access k task)
  | .putSlot task false => some ((q.addSlots task.putSide 1).setThread k (.putSlot task true))
  | .undo false => some ((q.addSlots .wr 1).setThread k (.undo true))
  | _ => none

/-- The thread goes on behind its `notify`. -/
def notified (q : CBufQueue α) (k : ℕ) : Thread α → Option (CBufQueue α)
  | .getSlot task _ .notify => some (q.noSlot k task)
  | .putSlot task true => some (q.putDone k task)
  | .undo true => some (q.setThread k .threw)
  | _ => none

/-- A sleeping thread wakes up, and will poll again. -/
def awake (q : CBufQueue α) (k : ℕ) : Option (CBufQueue α) :=
  match q.threads[k]? with
  | some (.getSlot task wait .asleep) => some (q.setThread k (.getSlot task wait .poll))
  | _ => none

/-- A condition signal wakes a thread that waits for it, if there is one. -/
def signal (q : CBufQueue α) (s : Side) : Option ℕ → Option (CBufQueue α)
  | some j => if (q.threads[j]?).any (·.asleepOn s) then q.awake j else none
  | none => if q.threads.any (·.asleepOn s) then none else some q

/-- The side that the thread is about to notify. -/
def notifiedSide (t : Thread α) : Side := if t.notifies .rd then .rd else .wr

/-- A step; `none` when it cannot be taken. -/
def exec (q : CBufQueue α) : Event α → Option (CBufQueue α)
  | .call k c => if (q.threads[k]?).any (·.isIdle) then q.call k c else none
  | .run k => do
    let t ← q.threads[k]?
    q.run k t
  | .notify k woken => do
    let t ← q.threads[k]?
    if t.notifies .rd || t.notifies .wr then
      let q ← q.signal (notifiedSide t) woken
      q.notified k t
    else none
  | .wake k => q.awake k
  | .timeOut k =>
    match q.threads[k]? with
    | some (.getSlot task .until .asleep) => some (q.noSlot k task)
    | _ => none

def execs (q : CBufQueue α) : List (Event α) → Option (CBufQueue α)
  | [] => some q
  | e :: es => do
    let q ← q.exec e
    q.execs es

def Step (q q' : CBufQueue α) : Prop := ∃ e, q.exec e = some q'

/-- What any interleaving of `m` threads can make of a new queue for `n` chains. -/
def Reachable (n m : ℕ) (q : CBufQueue α) : Prop := Relation.ReflTransGen Step (create n m) q

theorem Reachable.execs {n m : ℕ} {q q' : CBufQueue α} {es : List (Event α)}
    (h : Reachable n m q) (he : q.execs es = some q') : Reachable n m q' := by
  induction es generalizing q with
  | nil =>
    cases he
    exact h
  | cons e es ih =>
    obtain ⟨q₁, hq₁, he⟩ := Option.bind_eq_some_iff.1 he
    exact ih (h.tail ⟨e, hq₁⟩) he

end CBufQueue

end Cpsw.BufQ
