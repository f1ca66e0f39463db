import Cpsw.Lib.Throw
import Mathlib.Data.Int.Notation
import Mathlib.Logic.Function.Basic

namespace Cpsw.Addr

open Cpsw.Lib

inductive OpenError
  | internal (text : String)
  | io (text : String)
  /-- What comes from the protocol stack or from the system. -/
  | other (text : String)
  deriving DecidableEq, Repr

/-- Which `open` an address has. -/
inductive Kind
  | address
  | fs
  | comm
  | srp
  deriving DecidableEq, Repr

/-- What an observer notes of an address; the program has none of this. -/
structure Seen where
  /-- The calls that have returned. -/
  opens : ℕ
  closes : ℕ
  /-- The last real open failed. -/
  failed : Bool
  /-- An open has returned after a real open failed, and did not try it again. -/
  skipped : Bool
  /-- Something has been released that was not open. -/
  stray : Bool
  deriving DecidableEq, Repr

structure CAddressImpl where
  openCount : ℤ
  fd : ℤ
  door : Bool
  /-- The door of the asynchronous handler, and whether its thread has been started. -/
  asyncDoor : Bool
  started : Bool
  seen : Seen
  deriving DecidableEq, Repr

def CAddressImpl.new : CAddressImpl where
  openCount := 0
  fd := -1
  door := false
  asyncDoor := false
  started := false
  seen := { opens := 0, closes := 0, failed := false, skipped := false, stray := false }

/-- The addresses, by number. -/
abbrev Addresses := ℕ → CAddressImpl

structure Hierarchy where
  kind : ℕ → Kind
  fileName : ℕ → String

/-- What the system answers during a call. -/
structure World where
  /-- `::open` -/
  fd : ℕ → ℤ
  /-- `getProtoStack()->open()` -/
  door : ℕ → Option OpenError
  /-- `asyncIOPort_->open()` -/
  asyncDoor : ℕ → Option OpenError
  /-- `CRunnable::threadStart` -/
  thread : ℕ → Option OpenError

abbrev Calls (α : Type) := Throw OpenError Addresses α

def update (a : ℕ) (f : CAddressImpl → CAddressImpl) : Calls PUnit :=
  modify fun s ↦ Function.update s a (f (s a))

/-- The resource of an address is held. -/
def CAddressImpl.isOpen (c : CAddressImpl) : Kind → Bool
  | .address => true
  | .fs => decide (0 ≤ c.fd)
  | .comm => c.door
  | .srp => c.door && c.asyncDoor && c.started

/-- A real open. -/
def attempt (a : ℕ) (x : Calls PUnit) : Calls PUnit := do
  update a fun c ↦ { c with seen := { c.seen with failed := true } }
  x
  update a fun c ↦ { c with seen := { c.seen with failed := false } }

/-- A real close. -/
def release (k : Kind) (a : ℕ) (f : CAddressImpl → CAddressImpl) : Calls PUnit :=
  update a fun c ↦ f { c with seen := { c.seen with stray := c.seen.stray || !c.isOpen k } }

def orThrow : Option OpenError → Calls PUnit
  | none => pure ⟨⟩
  | some e => throw e

/-- `fetch_add`, which returns the count before. -/
def incOpen (a : ℕ) : Calls ℤ := do
  let s ← get
  update a fun c ↦ { c with openCount := c.openCount + 1 }
  pure (s a).openCount

def decOpen (a : ℕ) : Calls ℤ := do
  let s ← get
  update a fun c ↦ { c with openCount := c.openCount - 1 }
  pure (s a).openCount

section Open

variable (H : Hierarchy) (W : World) (parent : Calls PUnit) (a : ℕ)

def CAddressImpl.open : Calls ℤ := do
  parent
  incOpen a

/-- The address of a file does not open the one above it. -/
def CFSAddressImpl.open : Calls ℤ := do
  let rval ← incOpen a
  if rval < 0 then throw (.internal "CFSAddressImpl::open negative open count??")
  else if 0 = rval then do
    attempt a do
      update a fun c ↦ { c with fd := W.fd a }
      if W.fd a < 0 then throw (.io ("Unable to open file: " ++ H.fileName a)) else pure ⟨⟩
    pure rval
  else pure rval

def CCommAddressImpl.open : Calls ℤ := do
  let rval ← CAddressImpl.open parent a
  if 0 = rval then do
    attempt a do
      orThrow (W.door a)
      update a fun c ↦ { c with door := true }
    pure rval
  else pure rval

def CSRPAddressImpl.open : Calls ℤ := do
  let rval ← CAddressImpl.open parent a
  if 0 = rval then do
    attempt a do
      orThrow (W.door a)
      update a fun c ↦ { c with door := true }
      orThrow (W.asyncDoor a)
      update a fun c ↦ { c with asyncDoor := true }
      orThrow (W.thread a)
      update a fun c ↦ { c with started := true }
    pure rval
  else pure rval

end Open

section Close

variable (parent : Calls PUnit) (a : ℕ)

def CAddressImpl.close : Calls ℤ := do
  let rval ← decOpen a
  parent
  pure rval

def CFSAddressImpl.close : Calls ℤ := do
  let rval ← decOpen a
  if rval ≤ 0 then throw (.internal "CFSAddressImpl::close negative open count??")
  else if 1 = rval then do
    release .fs a fun c ↦ { c with fd := -1 }
    pure rval
  else pure rval

def CCommAddressImpl.close : Calls ℤ := do
  let rval ← CAddressImpl.close parent a
  if 1 = rval then do
    release .comm a fun c ↦ { c with door := false }
    pure rval
  else pure rval

/-- `threadStop` also resets the door of the handler. -/
def CSRPAddressImpl.close : Calls ℤ := do
  let rval ← CAddressImpl.close parent a
  if 1 = rval then do
    release .srp a fun c ↦ { c with door := false, asyncDoor := false, started := false }
    pure rval
  else pure rval

end Close

/-- The `open` of the class of an address, with that of its container. -/
def openOne (H : Hierarchy) (W : World) (parent : Calls PUnit) (a : ℕ) : Calls ℤ :=
  match H.kind a with
  | .address => CAddressImpl.open parent a
  | .fs => CFSAddressImpl.open H W a
  | .comm => CCommAddressImpl.open W parent a
  | .srp => CSRPAddressImpl.open W parent a

def closeOne (H : Hierarchy) (parent : Calls PUnit) (a : ℕ) : Calls ℤ :=
  match H.kind a with
  | .address => CAddressImpl.close parent a
  | .fs => CFSAddressImpl.close a
  | .comm => CCommAddressImpl.close parent a
  | .srp => CSRPAddressImpl.close parent a

/-- `open` of the first address; the iterator goes up, through the containers. -/
def openPath (H : Hierarchy) (W : World) : List ℕ → Calls ℤ
  | [] => pure 0
  | a :: up => do
    let rval ← openOne H W (do let _ ← openPath H W up; pure ⟨⟩) a
    update a fun c ↦ { c with seen := { c.seen with
      opens := c.seen.opens + 1, skipped := c.seen.skipped || c.seen.failed } }
    pure rval

def closePath (H : Hierarchy) : List ℕ → Calls ℤ
  | [] => pure 0
  | a :: up => do
    let rval ← closeOne H (do let _ ← closePath H up; pure ⟨⟩) a
    update a fun c ↦ { c with seen := { c.seen with closes := c.seen.closes + 1 } }
    pure rval

/-- A call on an address, with those that contain it. -/
inductive Call
  | open (W : World) (path : List ℕ)
  | close (path : List ℕ)

def Call.path : Call → List ℕ
  | .open _ path => path
  | .close path => path

/-- What a call leaves, whether it returns or throws. -/
def Call.run (H : Hierarchy) (s : Addresses) : Call → Addresses
  | .open W path => (Throw.exec (openPath H W path) s).2
  | .close path => (Throw.exec (closePath H path) s).2

def runs (H : Hierarchy) (s : Addresses) (calls : List Call) : Addresses :=
  calls.foldl (Call.run H) s

end Cpsw.Addr
