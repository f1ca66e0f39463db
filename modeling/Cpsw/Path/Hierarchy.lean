import Mathlib.Algebra.BigOperators.Group.List.Basic
import Mathlib.Data.List.Chain
import Mathlib.Tactic.Common

namespace Cpsw.Path

/-- `checkArgs`: the characters that a name may have. -/
def checkArgs (name : List Char) : Bool :=
  name.all fun c ↦ c.isAlphanum || c = '_' || c = '-'

/-- What a tree of devices holds: the entries, and the addresses at which hubs keep their children.
An entry is attached to one address at most, and a hub knows its children by their names. -/
structure Hierarchy (Ent Addr : Type) where
  name : Ent → List Char
  /-- `isConstDevImpl` -/
  isDev : Ent → Bool
  children : Ent → List Addr
  owner : Addr → Ent
  entry : Addr → Ent
  nelms : Addr → UInt32
  depth : Ent → ℕ
  mem_children : ∀ a d, a ∈ children d ↔ owner a = d
  isDev_owner : ∀ a, isDev (owner a) = true
  names_nodup : ∀ d, ((children d).map fun a ↦ name (entry a)).Nodup
  entry_inj : ∀ a b, entry a = entry b → a = b
  depth_lt : ∀ a, depth (owner a) < depth (entry a)

structure PathEntry (Addr : Type) where
  c_p : Addr
  idxf : ℤ
  idxt : ℤ
  nelmsLeft : UInt32
  deriving DecidableEq, Repr

/-- `CPathImpl` without the marker at the front of its entries. -/
structure PathImpl (Ent Addr : Type) where
  originDev : Ent
  entries : List (PathEntry Addr)
  deriving DecidableEq, Repr

inductive PathError
  | invalidPath (text : List Char)
  | notDev (name : List Char)
  | notFound (key : List Char)
  deriving DecidableEq, Repr

variable {Ent Addr : Type}

/-- An `unsigned` as an `int`. -/
def toInt (n : UInt32) : ℤ := n.toInt32.toInt

namespace PathEntry

/-- How many elements the entry ranges over. -/
def width (e : PathEntry Addr) : ℤ := e.idxt - e.idxf + 1

/-- The constructor for an address: it clips the indices to the array. -/
def make (H : Hierarchy Ent Addr) (a : Addr) (idxf idxt : ℤ) (nelmsLeft : UInt32) :
    PathEntry Addr :=
  let idxf := if idxf < 0 then 0 else idxf
  let n := toInt (H.nelms a - 1)
  let idxf := if n < idxf then n else idxf
  let idxt := if idxt < 0 ∨ n < idxt then n else idxt
  let idxt := if idxt < idxf then idxf else idxt
  ⟨a, idxf, idxt, nelmsLeft * UInt32.ofInt (idxt - idxf + 1)⟩

end PathEntry

namespace PathImpl

variable [DecidableEq Ent] [DecidableEq Addr] (H : Hierarchy Ent Addr)
variable (p q : PathImpl Ent Addr)

def create (h : Ent) : PathImpl Ent Addr := ⟨h, []⟩

/-- The entry at the tail of the path, or the origin. -/
def tailEntry : Ent := (p.entries.getLast?.map fun e ↦ H.entry e.c_p).getD p.originDev

omit [DecidableEq Ent] [DecidableEq Addr] in
def getNelms : UInt32 := (p.entries.getLast?.map PathEntry.nelmsLeft).getD 1

def pushBack (e : PathEntry Addr) : PathImpl Ent Addr := { p with entries := p.entries ++ [e] }

def up : PathImpl Ent Addr := { p with entries := p.entries.dropLast }

/-- `verifyAtTail`; an empty path takes the hub as its origin. -/
def verifyAtTail (h : Ent) : Option (PathImpl Ent Addr) :=
  if p.entries = [] then some ⟨h, []⟩
  else if h = p.tailEntry H then some p
  else none

/-- `appendNum` -/
def appendNum (i : ℤ) : List Char :=
  (if i < 0 then ['-'] else []) ++ Nat.toDigits 10 i.natAbs

def showIndices (e : PathEntry Addr) : List Char :=
  if 1 < H.nelms e.c_p then
    '[' :: appendNum e.idxf ++
      (if e.idxt ≠ e.idxf then '-' :: appendNum e.idxt else []) ++ [']']
  else []

def toString : List Char :=
  p.entries.flatMap fun e ↦ '/' :: H.name (H.entry e.c_p) ++ showIndices H e

/-- `append(Address, int, int)` -/
def appendAddress (a : Addr) (f t : ℤ) : Except PathError (PathImpl Ent Addr) :=
  match p.verifyAtTail H (H.owner a) with
  | some p => .ok (p.pushBack (PathEntry.make H a f t p.getNelms))
  | none => .error (.invalidPath (p.toString H))

def append2 : Except PathError (PathImpl Ent Addr) :=
  match p.verifyAtTail H q.originDev with
  | some p =>
    let nelmsLeft := p.getNelms
    .ok { p with
      entries := p.entries ++ q.entries.map fun e ↦ { e with nelmsLeft := e.nelmsLeft * nelmsLeft } }
  | none => .error (.invalidPath (q.toString H))

def append : Except PathError (PathImpl Ent Addr) :=
  if q.entries = [] then .ok p else p.append2 H q

/-- `concat` is `append` on a copy. -/
def concat : Except PathError (PathImpl Ent Addr) :=
  if q.entries = [] then .ok p else p.append2 H q

/-- The first index that two entries have in common, where they have one. -/
def commonFrom (a b : PathEntry Addr) : ℤ := if b.idxf > a.idxf then b.idxf else a.idxf

/-- The last one. -/
def commonTo (a b : PathEntry Addr) : ℤ := if b.idxt < a.idxt then b.idxt else a.idxt

/-- The loop of `intersect`; `none` stands for the null path. -/
def intersectLoop (rval : PathImpl Ent Addr) :
    List (PathEntry Addr) → List (PathEntry Addr) →
      Except PathError (Option (PathImpl Ent Addr))
  | [], [] => .ok (some rval)
  | [], _ :: _ => .ok none
  | _ :: _, [] => .ok none
  | a :: as, b :: bs =>
    if a.c_p ≠ b.c_p then .ok none
    else if commonFrom a b > commonTo a b then .ok none
    else do
      let rval ← rval.appendAddress H a.c_p (commonFrom a b) (commonTo a b)
      intersectLoop rval as bs

def intersect : Except PathError (Option (PathImpl Ent Addr)) :=
  if q.entries = [] ∨ p.originDev ≠ q.originDev then .ok none
  else intersectLoop H (create p.originDev) p.entries q.entries

/-- The loop of `isIntersecting`. -/
def isIntersectingLoop : List (PathEntry Addr) → List (PathEntry Addr) → Bool
  | [], [] => true
  | [], _ :: _ => false
  | _ :: _, [] => false
  | a :: as, b :: bs =>
    if a.c_p ≠ b.c_p then false
    else if commonFrom a b > commonTo a b then false
    else isIntersectingLoop as bs

def isIntersecting : Bool :=
  if q.entries = [] ∨ p.originDev ≠ q.originDev then false
  else isIntersectingLoop p.entries q.entries

end PathImpl

end Cpsw.Path
