import Cpsw.Preproc.Stream
import Cpsw.Lib.Numeral
import Mathlib.Data.Int.Notation
import Mathlib.Order.Lattice

namespace Cpsw.Preproc

open Cpsw.Lib Cpsw.Lib.Numeral

/-- What `access` answers. -/
inductive Access
  | ok
  | noEntry
  | failed (strerror : Text)
  deriving DecidableEq, Repr

structure FileSystem where
  files : List (Text × Text)
  access : Text → Access

def FileSystem.read (fs : FileSystem) (name : Text) : Option Text :=
  (fs.files.find? fun f ↦ f.1 = name).map Prod.snd

structure FLookup where
  paths : List Text
  tryAll : Bool

/-- The search through the list of paths. -/
def FLookup.search (fs : FileSystem) (fileName : Text) : List Text → Except PreprocError Text
  | [] => throw (.notFound ("FLookup: '".toList ++ fileName ++ "' not found".toList))
  | path :: paths =>
    match fs.access (path ++ fileName) with
    | .ok => pure (path ++ fileName)
    | .noEntry => search fs fileName paths
    | .failed e => throw (.errno ("FLookup: unable to access '".toList ++ (path ++ fileName) ++
        "': ".toList ++ e))

def FLookup.lookup (l : FLookup) (fs : FileSystem) (fileName : Text) :
    Except PreprocError Text :=
  if fileName.head? = some '/' ∨ l.tryAll = false ∧ '/' ∈ fileName then
    match fs.access fileName with
    | .failed e => throw (.errno ("FLookup: unable to access '".toList ++ fileName ++
        "': ".toList ++ e))
    | _ => pure fileName
  else search fs fileName l.paths

def mkstrm (fs : FileSystem) (fnam : Text) : Except PreprocError IStream :=
  match fs.read fnam with
  | some text => pure (.ofText text)
  | none => throw (.failedStream ("Creation of stream for'".toList ++ fnam ++ "' failed".toList))

structure Version where
  major : ℤ
  minor : ℤ
  revision : ℤ
  deriving DecidableEq, Repr

/-- A file without a version. -/
def Version.none : Version := ⟨-1, -1, -1⟩

/-- A number that is stored into an `int`, by way of a `long`. -/
def toInt (n : ℤ) : ℤ := (max (-2 ^ 63) (min (2 ^ 63 - 1) n)).bmod (2 ^ 32)

/-- `%d` -/
def scanInt (s : Text) : Option (ℤ × Text) :=
  let (neg, t) := sign (s.dropWhile isspace)
  if startsWithDigit 10 t then
    let (n, rest) := scan 10 t 0
    some (toInt (if neg then -n else n), rest)
  else none

/-- `%d.%d.%d` -/
def scanVersion (s : Text) : Option Version :=
  match scanInt s with
  | some (maj, '.' :: s) =>
    match scanInt s with
    | some (min, '.' :: s) => (scanInt s).map fun rev ↦ ⟨maj, min, rev.1⟩
    | _ => none
  | _ => none

inductive Directive
  | once (tag : Text)
  | include (fileName : Text)
  | noFileName
  | schemaversion (version : Version)
  | badVersion
  | other
  deriving DecidableEq, Repr

def isBlank (c : Char) : Bool := c = ' ' || c = '\t'

/-- The word at the head of a text; the file may come from a system that ends lines by `\r\n`. -/
def word (s : Text) : Text := s.takeWhile fun c ↦ !isBlank c && c ≠ '\r'

/-- What `c_str()` leaves of a string. -/
def cstr (s : Text) : Text := s.takeWhile (· ≠ '\x00')

/-- The tag of a `#once` line; without one it is the name of the file. -/
def onceTag (name line : Text) : Text :=
  match (line.drop 5).dropWhile isBlank with
  | [] => name
  | s => word s

def includeDirective (line : Text) : Directive :=
  match (line.drop 8).dropWhile isBlank with
  | [] => .noFileName
  | '<' :: s => .include (cstr (s.takeWhile (· ≠ '>')))
  | s => .include (cstr (word s))

/-- The directive on a line of the header of the file `name`. -/
def directive (name line : Text) : Directive :=
  if (line.drop 1).take 4 = "once".toList ∧ (line.length < 6 ∨ (line)[5]? = some ' ') then
    .once (onceTag name line)
  else if (line.drop 1).take 8 = "include ".toList then includeDirective line
  else if (line.drop 1).take 14 = "schemaversion ".toList then
    match scanVersion (cstr (line.drop 15)) with
    | some v => .schemaversion v
    | none => .badVersion
  else .other

structure YamlPreprocessor where
  tags : List Text
  versionSet : Bool
  version : Version
  mux : StreamMuxBuf
  deriving DecidableEq, Repr

def YamlPreprocessor.new (mux : StreamMuxBuf) : YamlPreprocessor where
  tags := []
  versionSet := false
  version := .none
  mux := mux

abbrev Processing (α : Type) := Throw PreprocError YamlPreprocessor α

def orThrow {α : Type} : Except PreprocError α → Processing α
  | .ok a => pure a
  | .error e => throw e

def pushbuf (s : IStream) (name : Text) (headerLines : ℕ) : Processing PUnit := do
  let p ← get
  let mux ← orThrow (p.mux.pushbuf s name headerLines)
  modify fun p ↦ { p with mux := mux }

/-- Whether a tag is known already; it is recorded otherwise. -/
def check_exists (key : Text) : Processing Bool := do
  let p ← get
  if key ∈ p.tags then pure true
  else
    modify fun p ↦ { p with tags := key :: p.tags }
    pure false

/-- The line as it is shown, with its number, to who wants to see all of the header. -/
def echoed (headerLines : ℕ) (line : Text) : Text :=
  "##(".toList ++ Nat.toDigits 10 headerLines ++ ") ".toList ++ line ++ ['\n']

def echo (verbose : Bool) (name : Text) (headerLines : ℕ) (line : Text) : Processing PUnit :=
  if verbose then pushbuf (.ofText (echoed headerLines line)) name headerLines else pure ⟨⟩

def YamlPreprocessor.setVersion (v : Version) (p : YamlPreprocessor) : YamlPreprocessor :=
  if p.versionSet then p else { p with versionSet := true, version := v }

/-- The lower one of the version so far and the one of a file with the same major number. -/
def Version.lower (a v : Version) : Version :=
  if v.minor < a.minor then { a with minor := v.minor, revision := v.revision }
  else if v.minor = a.minor ∧ v.revision < a.revision then { a with revision := v.revision }
  else a

/-- What `process` does after the header. -/
def endHeader (current : IStream) (name : Text) (headerLines : ℕ) (v : Version) :
    Processing PUnit := do
  modify fun p ↦ { p with versionSet := true }
  let p ← get
  if p.version.major ≠ v.major then
    throw (.badSchemaVersion
      ("YamlPreprocessor: mismatch of major versions among files -- in: ".toList ++ name))
  else
    modify fun p ↦ { p with version := p.version.lower v }
    if current.good then pushbuf current name headerLines
    else if current.fail then
      throw (.failedStream
        ("YamlPreprocessor: stream has 'failed' status after processing header -- in: ".toList ++
          name))
    else pure ⟨⟩

section Process

variable (fs : FileSystem) (paths : FLookup) (verbose : Bool)

/-- `process`, from the line `headerLines` of a header that has told the version `v` so far. -/
def process : ℕ → IStream → Text → ℕ → Version → Processing PUnit
  | 0, _, _, _, _ => throw .outOfFuel
  | fuel + 1, current, name, headerLines, v =>
    if current.peek.1 = some '#' then do
      let line := current.peek.2.getline.1
      let current := current.peek.2.getline.2
      echo verbose name headerLines line
      match directive name line with
      | .once tag => do
        -- the rest of the file is ignored when the tag exists
        if ← check_exists tag then pure ⟨⟩
        else process fuel current name (headerLines + 1) v
      | .include fileName => do
        let incFnam ← orThrow (paths.lookup fs fileName)
        let strm ← orThrow (mkstrm fs incFnam)
        process fuel strm incFnam 0 .none
        process fuel current name (headerLines + 1) v
      | .noFileName =>
        throw (.missingIncludeFileName
          ("YamlPreprocessor: #include line lacks a 'filename' -- in: ".toList ++ name))
      | .schemaversion w => do
        modify (YamlPreprocessor.setVersion w)
        process fuel current name (headerLines + 1) w
      | .badVersion =>
        throw (.badSchemaVersion
          ("YamlPreprocessor: #schemaversion lacks <major>.<minor>.<revision> triple -- in: ".toList
            ++ name))
      | .other => process fuel current name (headerLines + 1) v
    else endHeader current.peek.2 name headerLines v

end Process

end Cpsw.Preproc
