import Cpsw.Lib.Throw
import Mathlib.Data.List.TakeWhile

namespace Cpsw.Preproc

open Cpsw.Lib

/-- Bytes of a file, of a line or of a name. -/
abbrev Text := List Char

scoped instance lawfulBEq_text : LawfulBEq Text := inferInstanceAs (LawfulBEq (List Char))

inductive PreprocError
  | missingIncludeFileName (text : Text)
  | badSchemaVersion (text : Text)
  | failedStream (text : Text)
  | streamDone (text : Text)
  | notFound (text : Text)
  | errno (text : Text)
  /-- The depth to which the run was followed does not suffice; the program has no such limit. -/
  | outOfFuel
  deriving DecidableEq, Repr

/-- A `std::istream`: what has not been read yet, and the state bits. -/
structure IStream where
  rest : Text
  eofbit : Bool
  failbit : Bool
  deriving DecidableEq, Repr

namespace IStream

def ofText (text : Text) : IStream where
  rest := text
  eofbit := false
  failbit := false

def good (s : IStream) : Bool := !s.eofbit && !s.failbit

def fail (s : IStream) : Bool := s.failbit

/-- Without a good stream the sentry sets the fail bit. -/
def peek (s : IStream) : Option Char × IStream :=
  if s.good then
    match s.rest with
    | [] => (none, { s with eofbit := true })
    | c :: _ => (some c, s)
  else (none, { s with failbit := true })

/-- `std::getline` on a good stream that has something left to read. -/
def getline (s : IStream) : Text × IStream :=
  let line := s.rest.takeWhile (· ≠ '\n')
  match s.rest.dropWhile (· ≠ '\n') with
  | [] => (line, { s with rest := [], eofbit := true })
  | _ :: rest => (line, { s with rest := rest })

theorem getline_length {s : IStream} {c : Char} {text : Text} (hs : s.rest = c :: text)
    (hc : c ≠ '\n') : s.getline.2.rest.length < s.rest.length := by
  have hsum := congrArg List.length (List.takeWhile_append_dropWhile (p := (· ≠ '\n')) (l := s.rest))
  have htake : 0 < (s.rest.takeWhile (· ≠ '\n')).length := by simp [hs, hc]
  rw [List.length_append] at hsum
  unfold getline
  dsimp only
  split
  · simp [hs]
  · next heq =>
    rw [heq, List.length_cons] at hsum
    dsimp only
    omega

end IStream

structure StreamEl where
  stream : IStream
  name : Text
  headerLines : ℕ
  deriving DecidableEq, Repr

structure StreamMuxBuf where
  bufsz : ℕ
  streams : List StreamEl
  /-- `streams_.end()` is the length of the list. -/
  current : ℕ
  /-- The get area, and how much of it has been taken. -/
  buf : Text
  gpos : ℕ
  done : Bool
  nlSoFar : ℕ
  otherScopeLines : ℕ
  deriving DecidableEq, Repr

namespace StreamMuxBuf

def new (bufsz : ℕ) : StreamMuxBuf where
  bufsz := bufsz
  streams := []
  current := 0
  buf := []
  gpos := 0
  done := false
  nlSoFar := 0
  otherScopeLines := 0

def pushbuf (m : StreamMuxBuf) (s : IStream) (name : Text) (headerLines : ℕ) :
    Except PreprocError StreamMuxBuf :=
  if m.done then
    throw (.streamDone "Cannot push new streams to StreamMuxBuf with EOF status".toList)
  else if s.fail then
    throw (.failedStream
      ("StreamMuxBuf::pushbuf -- cannot push failed stream; in: ".toList ++ name))
  else
    pure { m with
      streams := m.streams ++ [⟨s, name, headerLines⟩]
      current := if m.streams = [] then 0 else m.current }

/-- `sgetn` from the current stream into the get area. -/
def refill (m : StreamMuxBuf) (el : StreamEl) : StreamMuxBuf :=
  let stream := { el.stream with rest := el.stream.rest.drop m.bufsz }
  { m with
    streams := m.streams.set m.current { el with stream := stream }
    buf := el.stream.rest.take m.bufsz
    gpos := 0 }

def nextStream (m : StreamMuxBuf) : StreamMuxBuf :=
  { m with
    current := m.current + 1
    otherScopeLines := m.otherScopeLines + m.nlSoFar
    nlSoFar := 0 }

/-- The loop of `underflow`; `fuel` bounds its turns. -/
def underflowLoop : ℕ → Bool → StreamMuxBuf → Option Char × StreamMuxBuf
  | 0, _, m => (none, m)
  | fuel + 1, counted, m =>
    if m.gpos = m.buf.length then
      match m.streams[m.current]? with
      | none => (none, { m with done := true })
      | some el =>
        let nlSoFar := if counted then m.nlSoFar else m.nlSoFar + m.buf.count '\n'
        let m := { m with nlSoFar := nlSoFar }
        if el.stream.rest.take m.bufsz ≠ [] then underflowLoop fuel true (m.refill el)
        else underflowLoop fuel true m.nextStream
    else (m.buf[m.gpos]?, m)

/-- A turn goes on to the next stream, or it is the last one but one. -/
def underflow (m : StreamMuxBuf) : Option Char × StreamMuxBuf :=
  underflowLoop (m.streams.length - m.current + 2) false m

/-- The next character for who reads from the buffer. -/
def sbumpc (m : StreamMuxBuf) : Option Char × StreamMuxBuf :=
  match m.underflow with
  | (none, m) => (none, m)
  | (some c, m) => (some c, { m with gpos := m.gpos + 1 })

/-- The first `n` characters that a reader of the buffer gets. -/
def deliver : ℕ → StreamMuxBuf → Text
  | 0, _ => []
  | n + 1, m =>
    match m.sbumpc with
    | (none, _) => []
    | (some c, m) => c :: deliver n m

/-- What a reader has still to get. -/
def pending (m : StreamMuxBuf) : Text :=
  m.buf.drop m.gpos ++ (m.streams.drop m.current).flatMap fun el ↦ el.stream.rest

structure Valid (m : StreamMuxBuf) : Prop where
  bufsz : 0 < m.bufsz
  gpos : m.gpos ≤ m.buf.length

/-- Nobody has read from the buffer yet. -/
structure Fresh (m : StreamMuxBuf) : Prop where
  done : m.done = false
  current : m.current = 0
  buf : m.buf = []

theorem new_fresh (bufsz : ℕ) : (new bufsz).Fresh := ⟨rfl, rfl, rfl⟩

def pushed (m : StreamMuxBuf) (els : List StreamEl) : StreamMuxBuf :=
  { m with streams := m.streams ++ els }

theorem Fresh.pushed {m : StreamMuxBuf} {els : List StreamEl} (hm : m.Fresh) :
    (m.pushed els).Fresh := ⟨hm.done, hm.current, hm.buf⟩

theorem Fresh.pushbuf_eq {m : StreamMuxBuf} {s : IStream} {name : Text} {n : ℕ} (hm : m.Fresh)
    (hs : s.fail = false) : m.pushbuf s name n = .ok (m.pushed [⟨s, name, n⟩]) := by
  rw [pushbuf, if_neg (by simp [hm.done]), if_neg (by simp [hs]), hm.current, ite_self]
  rw [StreamMuxBuf.pushed, ← hm.current]
  rfl

theorem pending_refill {m : StreamMuxBuf} {el : StreamEl} (hg : m.gpos = m.buf.length)
    (hel : m.streams[m.current]? = some el) : (m.refill el).pending = m.pending := by
  obtain ⟨hlt, hget⟩ := List.getElem?_eq_some_iff.mp hel
  simp only [pending, refill, hg]
  rw [List.drop_set, if_neg (lt_irrefl _), Nat.sub_self, List.drop_eq_getElem_cons hlt,
    List.set_cons_zero, List.drop_zero, List.drop_length, List.flatMap_cons, List.flatMap_cons,
    hget, ← List.append_assoc, List.take_append_drop, List.nil_append]

theorem pending_nextStream {m : StreamMuxBuf} {el : StreamEl} (hg : m.gpos = m.buf.length)
    (hel : m.streams[m.current]? = some el) (hempty : el.stream.rest = []) :
    m.nextStream.pending = m.pending := by
  obtain ⟨hlt, hget⟩ := List.getElem?_eq_some_iff.mp hel
  simp only [pending, nextStream, hg]
  rw [List.drop_eq_getElem_cons hlt, List.flatMap_cons, hget, hempty, List.nil_append]

/-- A turn that finds something to read is the last one but one. -/
theorem underflowLoop_spec {fuel : ℕ} {counted : Bool} {m : StreamMuxBuf} (hm : m.Valid)
    (hfuel : m.streams.length - m.current + 1 < fuel ∨ 0 < fuel ∧ m.gpos < m.buf.length) :
    (underflowLoop fuel counted m).1 = m.pending.head? ∧
      (m.pending ≠ [] → (underflowLoop fuel counted m).2.Valid ∧
        (underflowLoop fuel counted m).2.gpos < (underflowLoop fuel counted m).2.buf.length ∧
        (underflowLoop fuel counted m).2.pending = m.pending) := by
  induction fuel generalizing counted m with
  | zero => omega
  | succ fuel ih =>
    rw [underflowLoop]
    by_cases hg : m.gpos = m.buf.length
    · rw [if_pos hg]
      cases hel : m.streams[m.current]? with
      | none =>
        have hend : m.pending = [] := by
          rw [pending, hg, List.drop_length,
            List.drop_eq_nil_of_le (List.getElem?_eq_none_iff.mp hel)]
          rfl
        simp [hend]
      | some el =>
        have hlt := (List.getElem?_eq_some_iff.mp hel).1
        dsimp only
        generalize (if counted then m.nlSoFar else m.nlSoFar + m.buf.count '\n') = nl
        by_cases hgot : el.stream.rest.take m.bufsz ≠ []
        · rw [if_pos hgot]
          have hnext := @ih true (refill { m with nlSoFar := nl } el)
            ⟨hm.bufsz, Nat.zero_le _⟩ (.inr ⟨by omega, List.length_pos_iff.mpr hgot⟩)
          rwa [pending_refill (m := { m with nlSoFar := nl }) hg hel] at hnext
        · rw [if_neg hgot]
          have hempty : el.stream.rest = [] :=
            (List.take_eq_nil_iff.mp (not_not.mp hgot)).resolve_left hm.bufsz.ne'
          have hnext := @ih true (nextStream { m with nlSoFar := nl })
            ⟨hm.bufsz, hm.gpos⟩ (.inl (by dsimp only [nextStream]; omega))
          rwa [pending_nextStream (m := { m with nlSoFar := nl }) hg hel hempty] at hnext
    · rw [if_neg hg]
      have hlt : m.gpos < m.buf.length := lt_of_le_of_ne hm.gpos hg
      refine ⟨?_, fun _ ↦ ⟨hm, hlt, rfl⟩⟩
      rw [pending, List.drop_eq_getElem_cons hlt]
      simp [hlt]

/-- A reader gets what the streams have left, one after the other. -/
theorem deliver_eq {n : ℕ} {m : StreamMuxBuf} (hm : m.Valid) :
    m.deliver n = m.pending.take n := by
  induction n generalizing m with
  | zero => simp [deliver]
  | succ n ih =>
    have hspec : m.underflow.1 = m.pending.head? ∧ (m.pending ≠ [] → m.underflow.2.Valid ∧
        m.underflow.2.gpos < m.underflow.2.buf.length ∧ m.underflow.2.pending = m.pending) :=
      underflowLoop_spec hm (.inl (by omega))
    rw [deliver, sbumpc]
    cases hp : m.pending with
    | nil =>
      rw [hp] at hspec
      obtain ⟨m', hu⟩ : ∃ m', m.underflow = (none, m') := ⟨_, Prod.ext hspec.1 rfl⟩
      rw [hu]
      simp
    | cons c text =>
      rw [hp] at hspec
      obtain ⟨hhead, hkeep⟩ := hspec
      obtain ⟨hvalid, hlt, hpend⟩ := hkeep (by simp)
      obtain ⟨m', hu⟩ : ∃ m', m.underflow = (some c, m') := ⟨_, Prod.ext hhead rfl⟩
      rw [hu] at hvalid hlt hpend ⊢
      dsimp only at hvalid hlt hpend ⊢
      have htail : pending { m' with gpos := m'.gpos + 1 } = text := by
        rw [pending, List.drop_eq_getElem_cons hlt] at hpend
        exact (List.cons.inj hpend).2
      rw [ih (m := { m' with gpos := m'.gpos + 1 }) ⟨hvalid.bufsz, hlt⟩, htail, List.take_succ_cons]

end StreamMuxBuf

end Cpsw.Preproc
