import Cpsw.Lib.Numeral
import Cpsw.Path.Hierarchy

namespace Cpsw.Path

open Cpsw.Lib

variable {Ent Addr : Type}

/-- `strchr(s + i, c) - s` -/
def strchrFrom (s : List Char) (i : ℕ) (c : Char) : Option ℕ :=
  ((s.drop i).idxOf? c).map (i + ·)

def INT_MAX : ℕ := 2 ^ 31 - 1

/-- `getnum(from, to)`, where `to` is `len` characters from the start. -/
def getnum (start : List Char) (len : ℕ) : Except PathError ℤ :=
  let (rval, endp) := Numeral.strtoul 64 start
  if endp.length + len ≠ start.length ∨ INT_MAX < rval then .error (.invalidPath start)
  else .ok rval

/-- The indices in brackets at the end of `comp`, the first part of `s`; `-1` where there is none. -/
def getIndices (s comp : List Char) : Except PathError (ℤ × ℤ) :=
  match strchrFrom comp 0 '[' with
  | none => .ok (-1, -1)
  | some op =>
    match strchrFrom comp op ']' with
    | none => .error (.invalidPath s)
    | some cl =>
      match strchrFrom comp op '-' with
      | none =>
        if cl ≤ op + 1 ∨ cl + 1 ≠ comp.length then .error (.invalidPath s)
        else do
          let idxf ← getnum (s.drop (op + 1)) (cl - (op + 1))
          return (idxf, -1)
      | some mi =>
        if cl ≤ op + 1 ∨ cl + 1 ≠ comp.length ∨ cl - 1 ≤ mi ∨ mi ≤ op + 1 then
          .error (.invalidPath s)
        else do
          let idxf ← getnum (s.drop (op + 1)) (mi - (op + 1))
          let idxt ← getnum (s.drop (mi + 1)) (cl - (mi + 1))
          return (idxf, idxt)

/-- The name in front of the brackets. -/
def getKey (comp : List Char) : List Char :=
  match strchrFrom comp 0 '[' with
  | some op => comp.take op
  | none => comp

/-- The indices that the text gives, and those of the whole array where it gives none. -/
def orDefault (nelms : UInt32) (idxf idxt : ℤ) : ℤ × ℤ :=
  (if idxf < 0 then 0 else idxf,
    if idxt < 0 then if idxf < 0 then toInt (nelms - 1) else idxf else idxt)

def Hierarchy.getAddress (H : Hierarchy Ent Addr) (h : Ent) (key : List Char) : Option Addr :=
  (H.children h).find? fun a ↦ H.name (H.entry a) = key

namespace PathImpl

variable (H : Hierarchy Ent Addr) (p : PathImpl Ent Addr)

/-- Look up the part `comp` at the front of `s`. -/
def findComponent (s comp : List Char) : Except PathError (PathImpl Ent Addr) :=
  if comp = ['.', '.'] then
    if p.entries = [] then .error (.invalidPath s) else .ok p.up
  else
    let h := p.tailEntry H
    if H.isDev h then do
      let (idxf, idxt) ← getIndices s comp
      let key := getKey comp
      match H.getAddress h key with
      | none => .error (.notFound key)
      | some found =>
        let (idxf, idxt) := orDefault (H.nelms found) idxf idxt
        if idxf > idxt ∨ idxt ≥ toInt (H.nelms found) then .error (.invalidPath s)
        else .ok (p.pushBack (PathEntry.make H found idxf idxt p.getNelms))
    else .error (.notDev (H.name h))

/-- What follows the first part of a path is shorter than the path. -/
theorem afterPart_lt {s : List Char} (h : s.dropWhile (· = '/') ≠ []) :
    ((s.dropWhile (· = '/')).dropWhile (· ≠ '/')).length < s.length := by
  have hle := (List.dropWhile_suffix (fun c : Char ↦ decide (c = '/')) (l := s)).length_le
  cases hs : s.dropWhile (· = '/') with
  | nil => exact absurd hs h
  | cons c t =>
    have hc := List.head?_dropWhile_not (fun c : Char ↦ decide (c = '/')) s
    have ht := (List.dropWhile_suffix (fun c : Char ↦ decide (c ≠ '/')) (l := t)).length_le
    rw [hs] at hc hle
    have hc : c ≠ '/' := by simpa using hc
    rw [List.dropWhile_cons_of_pos (by simpa using hc)]
    rw [List.length_cons] at hle
    omega

/-- Slashes in front of a part and at the end are skipped. -/
def findByName (p : PathImpl Ent Addr) (s : List Char) : Except PathError (PathImpl Ent Addr) :=
  if s.dropWhile (· = '/') = [] then .ok p
  else do
    let s := s.dropWhile (· = '/')
    let p ← p.findComponent H s (s.takeWhile (· ≠ '/'))
    let sl := s.dropWhile (· ≠ '/')
    if sl = [] then .ok p else findByName p sl
termination_by s.length
decreasing_by exact afterPart_lt (by assumption)

end PathImpl

end Cpsw.Path
