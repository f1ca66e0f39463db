import Cpsw.Path.WellFormed

namespace Cpsw.Path

open Cpsw.Lib.Run PathImpl

variable {Ent Addr : Type}

inductive IteratorError
  | invalidPath (text : List Char)
  | invalidArg (text : String)
  | internalError (text : String)
  | divideByZero
  /-- There is no entry to look at. -/
  | pastRoot
  deriving DecidableEq, Repr

/-- `cur` are the entries of a path from the one that the iterator is at to the first one, and `l_`
are those of the paths to go back to, the last one first. -/
structure CompositePathIterator (Addr : Type) where
  at_end : Bool
  cur : List (PathEntry Addr)
  l_ : List (List (PathEntry Addr))
  nelmsRight : UInt32
  nelmsLeft : UInt32
  deriving DecidableEq, Repr

namespace CompositePathIterator

variable (H : Hierarchy Ent Addr) (it : CompositePathIterator Addr)

def ofPath (p : PathImpl Ent Addr) : CompositePathIterator Addr :=
  ⟨p.entries.isEmpty, p.entries.reverse, [], 1, 1⟩

def getNelmsRight : UInt32 := it.nelmsRight

def getNelmsLeft : UInt32 :=
  it.nelmsLeft * (if it.at_end then 1 else (it.cur.head?.map PathEntry.nelmsLeft).getD 1)

section Append

variable [DecidableEq Ent]

def validConcatenation (p : PathImpl Ent Addr) : Bool :=
  if it.at_end then true
  else if p.entries = [] then false
  else (it.cur.head?.map fun e ↦ H.entry e.c_p) = some p.originDev

def append (p : PathImpl Ent Addr) : Except IteratorError (CompositePathIterator Addr) :=
  if p.entries = [] then .ok it
  else if it.validConcatenation H p = false then .error (.invalidPath (p.toString H))
  else if it.at_end = false then
    .ok {
      at_end := false
      cur := p.entries.reverse
      l_ := it.cur :: it.l_
      nelmsRight := 1
      nelmsLeft := it.nelmsLeft * (it.cur.head?.map PathEntry.nelmsLeft).getD 1 }
  else if it.nelmsLeft ≠ 1 then
    .error (.internalError "assertion failed: nelmsLeft should == 1 at this point")
  else .ok { it with at_end := false, cur := p.entries.reverse, nelmsRight := 1 }

end Append

/-- `operator++` -/
def incr : Except IteratorError (CompositePathIterator Addr) :=
  match it.cur with
  | [] => .error .pastRoot
  | e :: rest =>
    let it := { it with cur := rest, nelmsRight := it.nelmsRight * UInt32.ofInt e.width }
    if rest ≠ [] then .ok it
    else
      match it.l_ with
      | [] =>
        if it.nelmsLeft ≠ 1 then
          .error (.internalError "assertion failed: nelmsLeft should equal 1")
        else .ok { it with at_end := true }
      | up :: l_ =>
        let n := (up.head?.map PathEntry.nelmsLeft).getD 1
        if n = 0 then .error .divideByZero
        else .ok { it with cur := up, l_ := l_, nelmsLeft := it.nelmsLeft / n }

variable [DecidableEq Ent] (theRootDev : Ent)

/-- `SlicedPathIterator::clip`, for an `IndexRange` with any number of levels. -/
def clip : List (ℤ × ℤ) → Except IteratorError (CompositePathIterator Addr)
  | [] => .ok it
  | [(getFrom, getTo)] =>
    match it.cur with
    | [] => .error .pastRoot
    | e :: _ =>
      let t := if getTo ≥ 0 then e.idxf + getTo else e.idxt
      let f := if getFrom ≥ 0 then e.idxf + getFrom else e.idxf
      if f < e.idxf ∨ t > e.idxt ∨ t < f then .error (.invalidArg "Array indices out of range")
      else if f ≠ e.idxf ∨ t ≠ e.idxt then do
        let it ← it.incr
        match (create theRootDev).appendAddress H e.c_p f t with
        | .ok suffix => it.append H suffix
        | .error _ => .error (.invalidPath [])
      else .ok it
  | _ => .error (.invalidArg "Currently only 1-level of indices supported, sorry")

end CompositePathIterator

/-- The path of which the iterator goes through the entries, and those that it has gone through. -/
structure Flat (Ent Addr : Type) where
  path : PathImpl Ent Addr
  done : List (PathEntry Addr)

/-- How many elements there are on the whole way. -/
def Flat.total (s : Flat Ent Addr) : ℤ := ((s.path.entries ++ s.done).map PathEntry.width).prod

/-- A range of an array, counted from its first element; negative bounds are not given. -/
def rangeFrom (getFrom : ℤ) : ℤ := if getFrom < 0 then 0 else getFrom

def rangeTo (e : PathEntry Addr) (getTo : ℤ) : ℤ := if getTo < 0 then e.width - 1 else getTo

/-- The path with its last entry restricted to a part of its range. -/
def PathImpl.sliced (p : PathImpl Ent Addr) (e : PathEntry Addr) (getFrom getTo : ℤ) :
    PathImpl Ent Addr :=
  p.up.pushBack {
    e with
    idxf := e.idxf + rangeFrom getFrom
    idxt := e.idxf + rangeTo e getTo
    nelmsLeft := p.up.getNelms * UInt32.ofInt (rangeTo e getTo - rangeFrom getFrom + 1) }

section Steps

variable [DecidableEq Ent] [DecidableEq Addr] (H : Hierarchy Ent Addr) (theRootDev : Ent)

/-- What one may do with an iterator, beside what it does to the path: go on to the next entry,
append a path to the entry that it is at, restrict the array at the tail. -/
inductive IteratorStep : CompositePathIterator Addr × Flat Ent Addr →
    CompositePathIterator Addr × Flat Ent Addr → Prop
  | incr {it it' : CompositePathIterator Addr} {s : Flat Ent Addr} {e : PathEntry Addr} :
      s.path.entries.getLast? = some e → it.incr = .ok it' →
      IteratorStep (it, s) (it', ⟨s.path.up, e :: s.done⟩)
  | append {it it' : CompositePathIterator Addr} {s : Flat Ent Addr} {q r : PathImpl Ent Addr} :
      Reachable H q → q.entries ≠ [] → it.append H q = .ok it' → s.path.concat H q = .ok r →
      IteratorStep (it, s) (it', ⟨r, []⟩)
  | clip {it it' : CompositePathIterator Addr} {p : PathImpl Ent Addr} {e : PathEntry Addr}
      {f t : ℤ} : p.entries.getLast? = some e → it.clip H theRootDev [(f, t)] = .ok it' →
      IteratorStep (it, ⟨p, []⟩) (it', ⟨p.sliced e f t, []⟩)

/-- The iterators along the way from a path, the last one first. -/
inductive IteratorTrace : List (CompositePathIterator Addr × Flat Ent Addr) → Prop
  | ofPath {p : PathImpl Ent Addr} :
      Reachable H p → IteratorTrace [(.ofPath p, ⟨p, []⟩)]
  | step {x y : CompositePathIterator Addr × Flat Ent Addr}
      {xs : List (CompositePathIterator Addr × Flat Ent Addr)} :
      IteratorTrace (x :: xs) → IteratorStep H theRootDev x y → IteratorTrace (y :: x :: xs)

/-- What one sees going on to the end: the entries, with the number of elements to their left. -/
inductive Visits : CompositePathIterator Addr → List (PathEntry Addr) → Prop
  | atEnd {it : CompositePathIterator Addr} : it.at_end = true → Visits it []
  | next {it it' : CompositePathIterator Addr} {e : PathEntry Addr} {es : List (PathEntry Addr)} :
      it.at_end = false → it.cur.head? = some e → it.incr = .ok it' → Visits it' es →
      Visits it ({ e with nelmsLeft := it.getNelmsLeft } :: es)

/-- The iterator goes from the tail to the root of the path, it counts its elements, and it takes the
paths that can be appended to the path and the ranges of the array at its tail. -/
structure Agrees (it : CompositePathIterator Addr) (s : Flat Ent Addr) : Prop where
  visits : Visits it s.path.entries.reverse
  counts : (it.getNelmsLeft.toNat : ℤ) * it.getNelmsRight.toNat = s.total
  appends : ∀ q, Reachable H q → ((∃ it', it.append H q = .ok it') ↔ ∃ r, s.path.concat H q = .ok r)
  clips : ∀ e range, s.path.entries.getLast? = some e →
    ((∃ it', it.clip H theRootDev range = .ok it') ↔ range = [] ∨ ∃ f t, range = [(f, t)] ∧
      rangeFrom f ≤ rangeTo e t ∧ rangeTo e t < e.width)

end Steps

end Cpsw.Path
