import Cpsw.Preproc.Process

namespace Cpsw.Preproc

open Cpsw.Lib

namespace IStream

/-- The lines of the header, and the stream that is left after them. -/
def headerLoop : ℕ → IStream → List Text × IStream
  | 0, s => ([], s)
  | fuel + 1, s =>
    if s.peek.1 = some '#' then
      let next := headerLoop fuel s.peek.2.getline.2
      (s.peek.2.getline.1 :: next.1, next.2)
    else ([], s.peek.2)

/-- A line takes one character at least. -/
def header (s : IStream) : List Text × IStream := headerLoop (s.rest.length + 1) s

variable {s : IStream} {fuel fuel' : ℕ}

theorem peek_some {c : Char} (h : s.peek.1 = some c) : s.peek.2 = s ∧ ∃ text, s.rest = c :: text := by
  unfold peek at h ⊢
  split at h
  · next hg =>
    rw [if_pos hg]
    split at h
    · cases h
    · next c' text hs =>
      cases h
      exact ⟨rfl, text, hs⟩
  · cases h

theorem getline_peek_length (h : s.peek.1 = some '#') :
    s.peek.2.getline.2.rest.length < s.rest.length := by
  obtain ⟨heq, text, hs⟩ := peek_some h
  rw [heq]
  exact getline_length hs (by decide)

theorem headerLoop_congr (h : s.rest.length < fuel) (h' : s.rest.length < fuel') :
    headerLoop fuel s = headerLoop fuel' s := by
  induction fuel generalizing fuel' s with
  | zero => omega
  | succ fuel ih =>
    cases fuel' with
    | zero => omega
    | succ fuel' =>
      rw [headerLoop, headerLoop]
      split
      · next hp =>
        have hlt := getline_peek_length hp
        have hnext := @ih s.peek.2.getline.2 fuel' (by omega) (by omega)
        rw [hnext]
      · rfl

theorem header_cons (h : s.peek.1 = some '#') : s.header =
    (s.peek.2.getline.1 :: s.peek.2.getline.2.header.1, s.peek.2.getline.2.header.2) := by
  have hlt := getline_peek_length h
  rw [header, headerLoop, if_pos h, headerLoop_congr hlt (Nat.lt_succ_self _)]
  rfl

theorem header_nil (h : s.peek.1 ≠ some '#') : s.header = ([], s.peek.2) := by
  rw [header, headerLoop, if_neg h]

/-- A stream fails on its header when it has nothing else, and no end of the last line. -/
theorem header_fail_iff (hs : s.good = true) : s.header.2.fail = true ↔
    s.header.1 ≠ [] ∧ s.rest = ['\n'].intercalate s.header.1 := by
  induction hlen : s.rest.length using Nat.strongRecOn generalizing s with
  | ind n ih =>
    by_cases hp : s.peek.1 = some '#'
    · obtain ⟨heq, text, hrest⟩ := peek_some hp
      have hlt := getline_peek_length hp
      rw [heq] at hlt
      rw [header_cons hp, heq]
      have hsplit := List.takeWhile_append_dropWhile (p := (· ≠ '\n')) (l := s.rest)
      cases hd : s.rest.dropWhile (· ≠ '\n') with
      | nil =>
        have hline : s.getline = (s.rest, { s with rest := [], eofbit := true }) := by
          rw [getline, hd]
          rw [hd, List.append_nil] at hsplit
          simp only [hsplit]
        have hnext : header { s with rest := [], eofbit := true } =
            ([], { s with rest := [], eofbit := true, failbit := true }) := by
          rw [header_nil] <;> simp [peek, good]
        rw [hline]
        dsimp only
        rw [hnext]
        simp [fail]
      | cons c rest =>
        have hc : c = '\n' := by
          have hhead := List.head?_dropWhile_not (fun c : Char ↦ decide (c ≠ '\n')) s.rest
          rw [hd] at hhead
          simpa using hhead
        have hline : s.getline = (s.rest.takeWhile (· ≠ '\n'), { s with rest := rest }) := by
          rw [getline, hd]
        rw [hline] at hlt ⊢
        dsimp only at hlt ⊢
        have hnext := ih _ (hlen ▸ hlt) (s := { s with rest := rest }) hs rfl
        rw [hnext]
        rw [hd, hc] at hsplit
        generalize s.rest.takeWhile (· ≠ '\n') = line at hsplit
        rw [← hsplit]
        cases hl : (header { s with rest := rest }).1 with
        | nil => simp [List.intercalate]
        | cons l ls => simp [List.intercalate]
    · rw [header_nil hp]
      simp only [ne_eq, not_true, false_and, iff_false]
      unfold peek
      rw [if_pos hs]
      simp only [good, Bool.and_eq_true, Bool.not_eq_true'] at hs
      cases s.rest <;> simp [fail, hs.2]

end IStream

/-- What a line of the header of `name` comes to among the files that there are. -/
inductive Meaning
  | once (tag : Text)
  | include (name : Text) (stream : IStream)
  | version (v : Version)
  | other
  | fails (e : PreprocError)
  deriving DecidableEq, Repr

def meaning (fs : FileSystem) (paths : FLookup) (name line : Text) : Meaning :=
  match directive name line with
  | .once tag => .once tag
  | .include fileName =>
    match paths.lookup fs fileName with
    | .error e => .fails e
    | .ok incFnam =>
      match mkstrm fs incFnam with
      | .error e => .fails e
      | .ok s => .include incFnam s
  | .noFileName => .fails (.missingIncludeFileName
      ("YamlPreprocessor: #include line lacks a 'filename' -- in: ".toList ++ name))
  | .schemaversion v => .version v
  | .badVersion => .fails (.badSchemaVersion
      ("YamlPreprocessor: #schemaversion lacks <major>.<minor>.<revision> triple -- in: ".toList
        ++ name))
  | .other => .other

/-- How an inclusion ends. -/
inductive Stop
  /-- All of the header has been read; the stream has the body. -/
  | done (body : IStream) (headerLines : ℕ) (v : Version)
  /-- A tag is known already. -/
  | cut
  | failed (e : PreprocError)
  /-- A file that this one includes has failed. -/
  | broken
  deriving DecidableEq, Repr

def Stop.fails : Stop → Bool
  | .done _ _ _ => false
  | .cut => false
  | .failed _ => true
  | .broken => true

/-- One inclusion of a file with its header. -/
structure Visit where
  name : Text
  lines : List Text
  stop : Stop
  deriving DecidableEq, Repr

/-- The tree of inclusions: the lines of a file's header, and behind a line the file it includes. -/
inductive Tree
  | line (name : Text) (headerLines : ℕ) (line : Text)
  | file (visit : Visit) (items : List Tree)

inductive Event
  | line (name : Text) (headerLines : ℕ) (line : Text)
  | file (visit : Visit)
  deriving DecidableEq, Repr

mutual

/-- The tree in post-order: a file comes after its lines and after the files that it includes. -/
def Tree.events : Tree → List Event
  | .line name headerLines text => [.line name headerLines text]
  | .file visit items => Tree.eventsAll items ++ [.file visit]

def Tree.eventsAll : List Tree → List Event
  | [] => []
  | tree :: trees => tree.events ++ Tree.eventsAll trees

end

def Event.fails : Event → Bool
  | .line .. => false
  | .file visit => visit.stop.fails

/-- Every line of every header is well-formed, and every file that is included can be read. -/
def Tree.Whole (tree : Tree) : Prop := ∀ ev ∈ tree.events, ev.fails = false

section Expands

variable (fs : FileSystem) (paths : FLookup)

/-- What the header lines of a file expand to when the tags are known that stand first. -/
inductive Expands : List Text → Text → ℕ → Version → List Text → IStream →
    List Tree → Stop → List Text → Prop
  | done {tags : List Text} {name : Text} {n : ℕ} {v : Version} {body : IStream} :
      Expands tags name n v [] body [] (.done body n v) tags
  | cut {tags lines : List Text} {name line tag : Text} {n : ℕ} {v : Version} {body : IStream} :
      meaning fs paths name line = .once tag → tag ∈ tags →
      Expands tags name n v (line :: lines) body [.line name n line] .cut tags
  | once {tags lines tags' : List Text} {name line tag : Text} {n : ℕ} {v : Version}
      {body : IStream} {items : List Tree} {stop : Stop} :
      meaning fs paths name line = .once tag → tag ∉ tags →
      Expands (tag :: tags) name (n + 1) v lines body items stop tags' →
      Expands tags name n v (line :: lines) body (.line name n line :: items) stop tags'
  | include {tags lines tags₁ tags' : List Text} {name line incFnam : Text} {n : ℕ} {v : Version}
      {body s : IStream} {kids items : List Tree} {kstop stop : Stop} :
      meaning fs paths name line = .include incFnam s →
      Expands tags incFnam 0 .none s.header.1 s.header.2 kids kstop tags₁ →
      kstop.fails = false →
      Expands tags₁ name (n + 1) v lines body items stop tags' →
      Expands tags name n v (line :: lines) body
        (.line name n line :: .file ⟨incFnam, s.header.1, kstop⟩ kids :: items) stop tags'
  | broken {tags lines tags' : List Text} {name line incFnam : Text} {n : ℕ} {v : Version}
      {body s : IStream} {kids : List Tree} {kstop : Stop} :
      meaning fs paths name line = .include incFnam s →
      Expands tags incFnam 0 .none s.header.1 s.header.2 kids kstop tags' →
      kstop.fails = true →
      Expands tags name n v (line :: lines) body
        [.line name n line, .file ⟨incFnam, s.header.1, kstop⟩ kids] .broken tags'
  | version {tags lines tags' : List Text} {name line : Text} {n : ℕ} {v w : Version}
      {body : IStream} {items : List Tree} {stop : Stop} :
      meaning fs paths name line = .version w →
      Expands tags name (n + 1) w lines body items stop tags' →
      Expands tags name n v (line :: lines) body (.line name n line :: items) stop tags'
  | other {tags lines tags' : List Text} {name line : Text} {n : ℕ} {v : Version}
      {body : IStream} {items : List Tree} {stop : Stop} :
      meaning fs paths name line = .other →
      Expands tags name (n + 1) v lines body items stop tags' →
      Expands tags name n v (line :: lines) body (.line name n line :: items) stop tags'
  | failed {tags lines : List Text} {name line : Text} {n : ℕ} {v : Version} {body : IStream}
      {e : PreprocError} :
      meaning fs paths name line = .fails e →
      Expands tags name n v (line :: lines) body [.line name n line] (.failed e) tags

/-- The tree of inclusions below a file. -/
def Inclusion (name : Text) (s : IStream) (tree : Tree) : Prop :=
  ∃ items stop tags, Expands fs paths [] name 0 .none s.header.1 s.header.2 items stop tags ∧
    tree = .file ⟨name, s.header.1, stop⟩ items

end Expands

end Cpsw.Preproc
