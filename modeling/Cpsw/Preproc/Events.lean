import Cpsw.Preproc.Tree
import Mathlib

namespace Cpsw.Preproc

open Cpsw.Lib

/-- What a header line leaves behind by itself. -/
def mark (name line : Text) : Processing PUnit :=
  match directive name line with
  | .once tag => do
    let _ ← check_exists tag
    pure ⟨⟩
  | .schemaversion v => modify (YamlPreprocessor.setVersion v)
  | _ => pure ⟨⟩

def Visit.finish (visit : Visit) : Processing PUnit :=
  match visit.stop with
  | .done body n v => endHeader body visit.name n v
  | .cut => pure ⟨⟩
  | .failed e => throw e
  | .broken => pure ⟨⟩

section Run

variable (verbose : Bool)

def Event.run : Event → Processing PUnit
  | .line name n text => do
    echo verbose name n text
    mark name text
  | .file visit => visit.finish

def runs : List Event → Processing PUnit
  | [] => pure ⟨⟩
  | ev :: evs => do
    ev.run verbose
    runs evs

end Run

variable {fs : FileSystem} {paths : FLookup} {verbose : Bool} {tags tags' lines : List Text}
variable {name line tag : Text} {n : ℕ} {v w : Version} {s body : IStream} {items : List Tree}
variable {stop : Stop} {p p' : YamlPreprocessor} {α β : Type}

section Exec

theorem exec_bind_congr {x : Processing α} {f g : α → Processing β}
    (h : ∀ a p', x.exec p = (.ok a, p') → (f a).exec p' = (g a).exec p') :
    Throw.exec (x >>= f) p = Throw.exec (x >>= g) p := by
  rw [Throw.exec_bind, Throw.exec_bind]
  cases hx : x.exec p with
  | mk r p' =>
    cases r with
    | error e => rfl
    | ok a => exact h a p' hx

@[simp] theorem exec_orThrow_ok {a : α} : (orThrow (.ok a)).exec p = (.ok a, p) := rfl

@[simp] theorem exec_orThrow_error {e : PreprocError} :
    (orThrow (.error e) : Processing α).exec p = (.error e, p) := rfl

theorem exec_check_exists : (check_exists tag).exec p =
    (.ok (decide (tag ∈ p.tags)),
      if tag ∈ p.tags then p else { p with tags := tag :: p.tags }) := by
  rw [check_exists, Throw.exec_bind, Throw.exec_get]
  by_cases h : tag ∈ p.tags
  · simp [h]
  · simp only [h, if_false, decide_false]
    rw [Throw.exec_bind, Throw.exec_modify]
    rfl

theorem exec_pushbuf : (pushbuf s name n).exec p =
    match p.mux.pushbuf s name n with
    | .ok mux => (.ok ⟨⟩, { p with mux := mux })
    | .error e => (.error e, p) := by
  rw [pushbuf, Throw.exec_bind, Throw.exec_get]
  dsimp only
  rw [Throw.exec_bind]
  cases p.mux.pushbuf s name n <;> rfl

theorem exec_pushbuf_tags (h : (pushbuf s name n).exec p = (.ok ⟨⟩, p')) :
    p'.tags = p.tags := by
  rw [exec_pushbuf] at h
  split at h
  · cases h
    rfl
  · cases h

theorem exec_echo_tags (h : (echo verbose name n line).exec p = (.ok ⟨⟩, p')) :
    p'.tags = p.tags := by
  unfold echo at h
  split at h
  · exact exec_pushbuf_tags h
  · cases h
    rfl

/-- The state with the version of a file that has been read. -/
def YamlPreprocessor.lowered (v : Version) (p : YamlPreprocessor) : YamlPreprocessor :=
  { p with versionSet := true, version := p.version.lower v }

theorem exec_endHeader : (endHeader body name n v).exec p =
    if p.version.major ≠ v.major then
      (.error (.badSchemaVersion
        ("YamlPreprocessor: mismatch of major versions among files -- in: ".toList ++ name)),
        { p with versionSet := true })
    else if body.good then (pushbuf body name n).exec (p.lowered v)
    else if body.fail then
      (.error (.failedStream
        ("YamlPreprocessor: stream has 'failed' status after processing header -- in: ".toList ++
          name)), p.lowered v)
    else (.ok ⟨⟩, p.lowered v) := by
  rw [endHeader, Throw.exec_bind, Throw.exec_modify]
  dsimp only
  rw [Throw.exec_bind, Throw.exec_get]
  dsimp only
  by_cases hv : p.version.major ≠ v.major
  · rw [if_pos hv, if_pos hv]
    rfl
  · rw [if_neg hv, if_neg hv, Throw.exec_bind, Throw.exec_modify]
    dsimp only
    by_cases hg : body.good = true
    · rw [if_pos hg, if_pos hg]
      rfl
    · rw [if_neg hg, if_neg hg]
      by_cases hf : body.fail = true
      · rw [if_pos hf, if_pos hf]
        rfl
      · rw [if_neg hf, if_neg hf]
        rfl

theorem exec_endHeader_tags (h : (endHeader body name n v).exec p = (.ok ⟨⟩, p')) :
    p'.tags = p.tags := by
  rw [exec_endHeader] at h
  split_ifs at h with hv hg hf
  · cases h
  · exact exec_pushbuf_tags (p := p.lowered v) h
  · cases h
  · cases h
    rfl

theorem exec_finish_tags {visit : Visit} (h : visit.finish.exec p = (.ok ⟨⟩, p')) :
    p'.tags = p.tags := by
  unfold Visit.finish at h
  split at h
  · exact exec_endHeader_tags h
  · cases h
    rfl
  · cases h
  · cases h
    rfl

theorem exec_runs_append {evs evs' : List Event} :
    (runs verbose (evs ++ evs')).exec p =
      Throw.exec (runs verbose evs >>= fun _ ↦ runs verbose evs') p := by
  induction evs generalizing p with
  | nil => rfl
  | cons ev evs ih =>
    rw [List.cons_append, runs, runs, bind_assoc]
    exact exec_bind_congr fun _ p' _ ↦ ih

end Exec

section Turn

def Meaning.mark : Meaning → Processing PUnit
  | .once tag => do
    let _ ← check_exists tag
    pure ⟨⟩
  | .version v => modify (YamlPreprocessor.setVersion v)
  | _ => pure ⟨⟩

theorem mark_eq : mark name line = (meaning fs paths name line).mark := by
  unfold mark meaning
  cases directive name line with
  | «include» fileName =>
    dsimp only
    cases paths.lookup fs fileName with
    | error e => rfl
    | ok incFnam =>
      dsimp only
      cases mkstrm fs incFnam <;> rfl
  | _ => rfl

theorem exec_mark_known (h : tag ∈ p.tags) :
    (Meaning.once tag).mark.exec p = (.ok ⟨⟩, p) := by
  rw [Meaning.mark, Throw.exec_bind, exec_check_exists, if_pos h]
  rfl

theorem exec_mark_new (h : tag ∉ p.tags) :
    (Meaning.once tag).mark.exec p = (.ok ⟨⟩, { p with tags := tag :: p.tags }) := by
  rw [Meaning.mark, Throw.exec_bind, exec_check_exists, if_neg h]
  rfl

@[simp] theorem setVersion_tags : (p.setVersion v).tags = p.tags := by
  unfold YamlPreprocessor.setVersion
  split <;> rfl

/-- What `process` does behind a header line; `next` goes on with the file. -/
def Meaning.turn (child : Text → IStream → Processing PUnit) (next : Version → Processing PUnit)
    (v : Version) : Meaning → Processing PUnit
  | .once tag => do
    if ← check_exists tag then pure ⟨⟩ else next v
  | .include incFnam s => do
    child incFnam s
    next v
  | .version w => do
    modify (YamlPreprocessor.setVersion w)
    next w
  | .other => next v
  | .fails e => throw e

theorem process_line {fuel : ℕ} (hp : s.peek.1 = some '#') :
    (process fs paths verbose (fuel + 1) s name n v).exec p =
      Throw.exec (echo verbose name n s.peek.2.getline.1 >>= fun _ ↦
        (meaning fs paths name s.peek.2.getline.1).turn
          (fun incFnam s ↦ process fs paths verbose fuel s incFnam 0 .none)
          (process fs paths verbose fuel s.peek.2.getline.2 name (n + 1)) v) p := by
  rw [process, if_pos hp]
  apply exec_bind_congr
  intro _ p' _
  unfold meaning
  cases directive name s.peek.2.getline.1 with
  | «include» fileName =>
    dsimp only
    rw [Throw.exec_bind]
    cases paths.lookup fs fileName with
    | error e => rfl
    | ok incFnam =>
      dsimp only [exec_orThrow_ok]
      rw [Throw.exec_bind]
      cases mkstrm fs incFnam <;> rfl
  | _ => rfl

end Turn

/-- The events of a file that come behind the header lines read so far. -/
def fileEvents (name : Text) (all : List Text) (items : List Tree) (stop : Stop) : List Event :=
  Tree.eventsAll items ++ [.file ⟨name, all, stop⟩]

section Runs

variable {all : List Text} {evs : List Event}

theorem fileEvents_nil : fileEvents name all [] stop = [.file ⟨name, all, stop⟩] := rfl

theorem fileEvents_line : fileEvents name all (.line name n line :: items) stop =
    .line name n line :: fileEvents name all items stop := rfl

theorem fileEvents_file {visit : Visit} {kids : List Tree} :
    fileEvents name all (.file visit kids :: items) stop =
      fileEvents visit.name visit.lines kids visit.stop ++ fileEvents name all items stop :=
  List.append_assoc _ _ _

theorem exec_runs_line (fs : FileSystem) (paths : FLookup) : (runs verbose (.line name n line :: evs)).exec p =
    Throw.exec (echo verbose name n line >>= fun _ ↦
      (meaning fs paths name line).mark >>= fun _ ↦ runs verbose evs) p := by
  rw [runs, Event.run, bind_assoc, mark_eq]

@[simp] theorem exec_runs_file {visit : Visit} :
    (runs verbose [.file visit]).exec p = visit.finish.exec p := by
  rw [runs, runs, Throw.exec_bind]
  rcases h : (Event.run verbose (.file visit)).exec p with ⟨_ | _, p'⟩ <;> exact h.symm

theorem runs_line_ok (fs : FileSystem) (paths : FLookup)
    (hr : (runs verbose (.line name n line :: evs)).exec p = (.ok ⟨⟩, p')) :
    ∃ p₁ p₂, p₁.tags = p.tags ∧ (meaning fs paths name line).mark.exec p₁ = (.ok ⟨⟩, p₂) ∧
      (runs verbose evs).exec p₂ = (.ok ⟨⟩, p') := by
  rw [exec_runs_line fs paths, Throw.exec_bind_ok] at hr
  obtain ⟨_, p₁, hecho, hr⟩ := hr
  rw [Throw.exec_bind_ok] at hr
  obtain ⟨_, p₂, hmark, hr⟩ := hr
  exact ⟨p₁, p₂, exec_echo_tags hecho, hmark, hr⟩

theorem runs_append_ok {evs' : List Event}
    (hr : (runs verbose (evs ++ evs')).exec p = (.ok ⟨⟩, p')) :
    ∃ p₁, (runs verbose evs).exec p = (.ok ⟨⟩, p₁) ∧
      (runs verbose evs').exec p₁ = (.ok ⟨⟩, p') := by
  rw [exec_runs_append, Throw.exec_bind_ok] at hr
  obtain ⟨_, p₁, h₁, h₂⟩ := hr
  exact ⟨p₁, h₁, h₂⟩

/-- A run of the events that goes through leaves the tags of the tree, and nothing has failed. -/
theorem Expands.tags_of_runs (h : Expands fs paths tags name n v lines body items stop tags')
    (hp : p.tags = tags)
    (hr : (runs verbose (fileEvents name all items stop)).exec p = (.ok ⟨⟩, p')) :
    p'.tags = tags' ∧ ∀ ev ∈ fileEvents name all items stop, ev.fails = false := by
  induction h generalizing p p' all with
  | done =>
    rw [fileEvents_nil, exec_runs_file] at hr
    exact ⟨(exec_finish_tags hr).trans hp, List.forall_mem_singleton.mpr rfl⟩
  | cut hm hk =>
    rw [fileEvents_line] at hr
    obtain ⟨p₁, p₂, hecho, hmark, hr⟩ := runs_line_ok fs paths hr
    rw [hm, exec_mark_known (by rwa [hecho, hp])] at hmark
    cases hmark
    rw [fileEvents_nil, exec_runs_file] at hr
    refine ⟨(exec_finish_tags hr).trans (hecho.trans hp), ?_⟩
    exact List.forall_mem_cons.mpr ⟨rfl, List.forall_mem_singleton.mpr rfl⟩
  | once hm hk h ih =>
    rw [fileEvents_line] at hr
    obtain ⟨p₁, p₂, hecho, hmark, hr⟩ := runs_line_ok fs paths hr
    rw [hm, exec_mark_new (by rwa [hecho, hp])] at hmark
    cases hmark
    obtain ⟨htags, hall⟩ := ih (by rw [hecho, hp]) hr
    exact ⟨htags, List.forall_mem_cons.mpr ⟨rfl, hall⟩⟩
  | «include» hm hkid hok hnext ihkid ihnext =>
    rw [fileEvents_line] at hr
    obtain ⟨p₁, p₂, hecho, hmark, hr⟩ := runs_line_ok fs paths hr
    rw [hm] at hmark
    cases hmark
    rw [fileEvents_file] at hr
    obtain ⟨p₂, hkids, hr⟩ := runs_append_ok hr
    obtain ⟨hkidTags, hkidAll⟩ := ihkid (hecho.trans hp) hkids
    obtain ⟨htags, hall⟩ := ihnext hkidTags hr
    refine ⟨htags, ?_⟩
    rw [fileEvents_line, fileEvents_file]
    exact List.forall_mem_cons.mpr ⟨rfl, List.forall_mem_append.mpr ⟨hkidAll, hall⟩⟩
  | broken hm hkid hfail ihkid =>
    rw [fileEvents_line] at hr
    obtain ⟨p₁, p₂, hecho, hmark, hr⟩ := runs_line_ok fs paths hr
    rw [hm] at hmark
    cases hmark
    rw [fileEvents_file] at hr
    obtain ⟨p₂, hkids, hr⟩ := runs_append_ok hr
    have hkid := (ihkid (hecho.trans hp) hkids).2 _ (List.mem_append_right _ List.mem_cons_self)
    rw [Event.fails, hfail] at hkid
    cases hkid
  | version hm h ih =>
    rw [fileEvents_line] at hr
    obtain ⟨p₁, p₂, hecho, hmark, hr⟩ := runs_line_ok fs paths hr
    rw [hm] at hmark
    cases hmark
    obtain ⟨htags, hall⟩ := ih (by rw [setVersion_tags, hecho, hp]) hr
    exact ⟨htags, List.forall_mem_cons.mpr ⟨rfl, hall⟩⟩
  | other hm h ih =>
    rw [fileEvents_line] at hr
    obtain ⟨p₁, p₂, hecho, hmark, hr⟩ := runs_line_ok fs paths hr
    rw [hm] at hmark
    cases hmark
    obtain ⟨htags, hall⟩ := ih (hecho.trans hp) hr
    exact ⟨htags, List.forall_mem_cons.mpr ⟨rfl, hall⟩⟩
  | failed hm =>
    rw [fileEvents_line] at hr
    obtain ⟨p₁, p₂, hecho, hmark, hr⟩ := runs_line_ok fs paths hr
    rw [fileEvents_nil, exec_runs_file] at hr
    cases hr

/-- A turn of the loop, when what is behind the line does the same. -/
theorem process_step {fuel : ℕ} (hs : s.header = (line :: lines, body))
    (hstep : ∀ next, next.header = (lines, body) → ∀ p₁, p₁.tags = p.tags →
      ((meaning fs paths name line).turn
        (fun incFnam s ↦ process fs paths verbose fuel s incFnam 0 .none)
        (process fs paths verbose fuel next name (n + 1)) v).exec p₁ =
      Throw.exec ((meaning fs paths name line).mark >>= fun _ ↦ runs verbose evs) p₁) :
    (process fs paths verbose (fuel + 1) s name n v).exec p =
      (runs verbose (.line name n line :: evs)).exec p := by
  have hp : s.peek.1 = some '#' := by
    by_contra hp
    rw [IStream.header_nil hp] at hs
    cases hs
  rw [IStream.header_cons hp] at hs
  obtain ⟨⟨rfl, hlines⟩, hbody⟩ : (s.peek.2.getline.1 = line ∧
      s.peek.2.getline.2.header.1 = lines) ∧ s.peek.2.getline.2.header.2 = body := by
    simpa using hs
  rw [process_line hp, exec_runs_line fs paths]
  apply exec_bind_congr
  intro _ p₁ hecho
  exact hstep _ (Prod.ext hlines hbody) p₁ (exec_echo_tags hecho)

/-- With enough fuel `process` does what the tree of inclusions says, one event after the other. -/
theorem Expands.process_eq (h : Expands fs paths tags name n v lines body items stop tags')
    (verbose : Bool) (all : List Text) : ∃ N, ∀ fuel, N ≤ fuel → ∀ s p, s.header = (lines, body) → p.tags = tags →
      (process fs paths verbose fuel s name n v).exec p =
        (runs verbose (fileEvents name all items stop)).exec p := by
  induction h generalizing all with
  | done =>
    refine ⟨1, fun fuel hN s p hs hp ↦ ?_⟩
    obtain ⟨fuel, rfl⟩ := Nat.exists_eq_add_of_le' hN
    have hpeek : s.peek.1 ≠ some '#' := by
      intro hpeek
      rw [IStream.header_cons hpeek] at hs
      cases hs
    rw [IStream.header_nil hpeek] at hs
    cases hs
    rw [fileEvents_nil, exec_runs_file, process, if_neg hpeek]
    rfl
  | cut hm hk =>
    refine ⟨1, fun fuel hN s p hs hp ↦ ?_⟩
    obtain ⟨fuel, rfl⟩ := Nat.exists_eq_add_of_le' hN
    rw [fileEvents_line]
    apply process_step hs
    intro next hnext p₁ hp₁
    have hk₁ := hk
    rw [← hp, ← hp₁] at hk₁
    rw [hm, Meaning.turn, Throw.exec_bind, exec_check_exists, Throw.exec_bind,
      exec_mark_known hk₁, if_pos hk₁, fileEvents_nil]
    simp only [hk₁, decide_true, if_true, exec_runs_file]
    rfl
  | once hm hk h ih =>
    obtain ⟨N, ih⟩ := ih all
    refine ⟨N + 1, fun fuel hN s p hs hp ↦ ?_⟩
    obtain ⟨fuel, rfl⟩ := Nat.exists_eq_add_of_le' (Nat.le_of_add_left_le hN)
    rw [fileEvents_line]
    apply process_step hs
    intro next hnext p₁ hp₁
    have hk₁ := hk
    rw [← hp, ← hp₁] at hk₁
    rw [hm, Meaning.turn, Throw.exec_bind, exec_check_exists, Throw.exec_bind,
      exec_mark_new hk₁, if_neg hk₁]
    simp only [hk₁, decide_false, Bool.false_eq_true, if_false]
    exact ih fuel (by omega) next _ hnext (by rw [hp₁, hp])
  | «include» hm hkid hok hnext ihkid ihnext =>
    obtain ⟨N, ihkid⟩ := ihkid _
    obtain ⟨N', ihnext⟩ := ihnext all
    refine ⟨max N N' + 1, fun fuel hN s p hs hp ↦ ?_⟩
    obtain ⟨fuel, rfl⟩ := Nat.exists_eq_add_of_le' (Nat.le_of_add_left_le hN)
    have hN₁ : max N N' ≤ fuel := by omega
    rw [fileEvents_line, fileEvents_file]
    apply process_step hs
    intro next hnext' p₁ hp₁
    rw [hm]
    change Throw.exec (process fs paths verbose fuel _ _ 0 .none >>= _) p₁ =
      Throw.exec (runs verbose _) p₁
    rw [exec_runs_append, Throw.exec_bind, Throw.exec_bind,
      ihkid fuel (le_of_max_le_left hN₁) _ p₁ rfl (hp₁.trans hp)]
    rcases hkids : Throw.exec (runs verbose _) p₁ with ⟨_ | _, p₂⟩
    · rfl
    · exact ihnext fuel (le_of_max_le_right hN₁) next p₂ hnext'
        (hkid.tags_of_runs (hp₁.trans hp) hkids).1
  | broken hm hkid hfail ihkid =>
    obtain ⟨N, ihkid⟩ := ihkid _
    refine ⟨N + 1, fun fuel hN s p hs hp ↦ ?_⟩
    obtain ⟨fuel, rfl⟩ := Nat.exists_eq_add_of_le' (Nat.le_of_add_left_le hN)
    rw [fileEvents_line, fileEvents_file]
    apply process_step hs
    intro next hnext' p₁ hp₁
    rw [hm]
    change Throw.exec (process fs paths verbose fuel _ _ 0 .none >>= _) p₁ =
      Throw.exec (runs verbose _) p₁
    rw [exec_runs_append, Throw.exec_bind, Throw.exec_bind,
      ihkid fuel (by omega) _ p₁ rfl (hp₁.trans hp)]
    rcases hkids : Throw.exec (runs verbose _) p₁ with ⟨_ | _, p₂⟩
    · rfl
    · have hok := (hkid.tags_of_runs (hp₁.trans hp) hkids).2 _
        (List.mem_append_right _ List.mem_cons_self)
      rw [Event.fails, hfail] at hok
      cases hok
  | version hm h ih =>
    obtain ⟨N, ih⟩ := ih all
    refine ⟨N + 1, fun fuel hN s p hs hp ↦ ?_⟩
    obtain ⟨fuel, rfl⟩ := Nat.exists_eq_add_of_le' (Nat.le_of_add_left_le hN)
    rw [fileEvents_line]
    apply process_step hs
    intro next hnext p₁ hp₁
    rw [hm]
    exact ih fuel (by omega) next _ hnext (by rw [setVersion_tags, hp₁, hp])
  | other hm h ih =>
    obtain ⟨N, ih⟩ := ih all
    refine ⟨N + 1, fun fuel hN s p hs hp ↦ ?_⟩
    obtain ⟨fuel, rfl⟩ := Nat.exists_eq_add_of_le' (Nat.le_of_add_left_le hN)
    rw [fileEvents_line]
    apply process_step hs
    intro next hnext p₁ hp₁
    rw [hm]
    exact ih fuel (by omega) next _ hnext (hp₁.trans hp)
  | failed hm =>
    refine ⟨1, fun fuel hN s p hs hp ↦ ?_⟩
    obtain ⟨fuel, rfl⟩ := Nat.exists_eq_add_of_le' hN
    rw [fileEvents_line]
    apply process_step hs
    intro next hnext p₁ hp₁
    rw [hm, fileEvents_nil]
    rfl

/-- A run on a file, event by event. -/
theorem Inclusion.runs_eq {tree : Tree} (h : Inclusion fs paths name s tree) (verbose : Bool)
    (mux : StreamMuxBuf) : ∃ N, ∀ fuel, N ≤ fuel →
      (process fs paths verbose fuel s name 0 .none).exec (.new mux) =
        (runs verbose tree.events).exec (.new mux) := by
  obtain ⟨items, stop, tags, hexp, rfl⟩ := h
  obtain ⟨N, hrun⟩ := hexp.process_eq verbose s.header.1
  exact ⟨N, fun fuel hN ↦ hrun fuel hN s (.new mux) rfl rfl⟩

end Runs

section Emits

/-- What an event appends to the output when it goes through. -/
def Event.emitted (verbose : Bool) : Event → List StreamEl
  | .line name n text => if verbose then [⟨.ofText (echoed n text), name, n⟩] else []
  | .file visit =>
    match visit.stop with
    | .done body n _ => if body.good then [⟨body, visit.name, n⟩] else []
    | _ => []

/-- What the tree appends to the output, in post-order. -/
def Tree.emits (verbose : Bool) (tree : Tree) : List StreamEl :=
  tree.events.flatMap (Event.emitted verbose)

def YamlPreprocessor.pushed (els : List StreamEl) (p : YamlPreprocessor) : YamlPreprocessor :=
  { p with mux := p.mux.pushed els }

/-- The state with the mark of a directive. -/
def YamlPreprocessor.marked (p : YamlPreprocessor) : Directive → YamlPreprocessor
  | .once tag => if tag ∈ p.tags then p else { p with tags := tag :: p.tags }
  | .schemaversion v => p.setVersion v
  | _ => p

variable {evs : List Event} {visit : Visit}

theorem exec_pushbuf_fresh (hp : p.mux.Fresh) (hs : s.fail = false) :
    (pushbuf s name n).exec p = (.ok ⟨⟩, p.pushed [⟨s, name, n⟩]) := by
  rw [exec_pushbuf, hp.pushbuf_eq hs]
  rfl

theorem fail_of_good (hs : s.good = true) : s.fail = false := by
  simp only [IStream.good, Bool.and_eq_true, Bool.not_eq_true'] at hs
  exact hs.2

@[simp] theorem pushed_nil : p.pushed [] = p := by
  simp [YamlPreprocessor.pushed, StreamMuxBuf.pushed]

theorem exec_mark : (mark name line).exec p = (.ok ⟨⟩, p.marked (directive name line)) := by
  unfold mark
  cases directive name line with
  | once tag =>
    dsimp only
    rw [Throw.exec_bind, exec_check_exists]
    rfl
  | schemaversion v => rfl
  | _ => rfl

theorem marked_mux {d : Directive} : (p.marked d).mux = p.mux := by
  unfold YamlPreprocessor.marked YamlPreprocessor.setVersion
  split
  · split <;> rfl
  · split <;> rfl
  · rfl

theorem exec_line (hp : p.mux.Fresh) : (Event.run verbose (.line name n line)).exec p =
    (.ok ⟨⟩, (p.pushed (Event.emitted verbose (.line name n line))).marked
      (directive name line)) := by
  rw [Event.run, Throw.exec_bind]
  have hecho : (echo verbose name n line).exec p =
      (.ok ⟨⟩, p.pushed (Event.emitted verbose (.line name n line))) := by
    cases verbose with
    | false => exact congrArg (Prod.mk _) pushed_nil.symm
    | true => exact exec_pushbuf_fresh hp rfl
  rw [hecho]
  exact exec_mark

/-- The end of a file goes through, or it appends nothing. -/
theorem exec_file (hp : p.mux.Fresh) (verbose : Bool) (visit : Visit) :
    (∃ e p', (Event.run verbose (.file visit)).exec p = (.error e, p') ∧ p'.mux = p.mux ∧
      (e = .outOfFuel → visit.stop = .failed .outOfFuel)) ∨
      ∃ p', (Event.run verbose (.file visit)).exec p = (.ok ⟨⟩, p') ∧
        p'.mux = p.mux.pushed (Event.emitted verbose (.file visit)) := by
  have hnil : p.mux = p.mux.pushed [] := by simp [StreamMuxBuf.pushed]
  simp only [Event.run, Visit.finish, Event.emitted]
  cases visit.stop with
  | done body n v =>
    dsimp only
    rw [exec_endHeader]
    by_cases hv : p.version.major ≠ v.major
    · rw [if_pos hv]
      refine .inl ⟨_, _, rfl, rfl, fun h ↦ ?_⟩
      cases h
    · rw [if_neg hv]
      by_cases hg : body.good = true
      · rw [if_pos hg, if_pos hg]
        exact .inr ⟨_, exec_pushbuf_fresh (p := p.lowered v) hp (fail_of_good hg), rfl⟩
      · rw [if_neg hg, if_neg hg]
        by_cases hf : body.fail = true
        · rw [if_pos hf]
          refine .inl ⟨_, _, rfl, rfl, fun h ↦ ?_⟩
          cases h
        · rw [if_neg hf]
          exact .inr ⟨_, rfl, hnil⟩
  | cut => exact .inr ⟨_, rfl, hnil⟩
  | failed e => exact .inl ⟨_, _, rfl, rfl, fun h ↦ congrArg Stop.failed h⟩
  | broken => exact .inr ⟨_, rfl, hnil⟩

theorem exec_event (hp : p.mux.Fresh) (verbose : Bool) (ev : Event) :
    (∃ e p', (ev.run verbose).exec p = (.error e, p') ∧ p'.mux = p.mux ∧
      (e = .outOfFuel → ∃ visit, ev = .file visit ∧ visit.stop = .failed .outOfFuel)) ∨
      ∃ p', (ev.run verbose).exec p = (.ok ⟨⟩, p') ∧
        p'.mux = p.mux.pushed (ev.emitted verbose) := by
  cases ev with
  | line name n text => exact .inr ⟨_, exec_line hp, marked_mux⟩
  | file visit =>
    obtain ⟨e, p', hev, hmux, hfuel⟩ | hok := exec_file hp verbose visit
    · exact .inl ⟨e, p', hev, hmux, fun he ↦ ⟨visit, rfl, hfuel he⟩⟩
    · exact .inr hok

/-- A run appends what its events append, up to the first one that fails. -/
theorem runs_emits (verbose : Bool) (evs : List Event) (hp : p.mux.Fresh) : ∃ els,
    ((runs verbose evs).exec p).2.mux = p.mux.pushed els ∧
      els <+: evs.flatMap (Event.emitted verbose) ∧
      (((runs verbose evs).exec p).1 = .ok ⟨⟩ → els = evs.flatMap (Event.emitted verbose)) ∧
      (((runs verbose evs).exec p).1 = .error .outOfFuel →
        ∃ visit, .file visit ∈ evs ∧ visit.stop = .failed .outOfFuel) := by
  induction evs generalizing p with
  | nil =>
    refine ⟨[], ?_, List.nil_prefix, fun _ ↦ rfl, fun h ↦ ?_⟩
    · rw [runs, Throw.exec_pure]
      simp [StreamMuxBuf.pushed]
    · cases h
  | cons ev evs ih =>
    rw [runs, Throw.exec_bind]
    obtain ⟨e, p', hev, hmux, hfuel⟩ | ⟨p', hev, hmux⟩ := exec_event hp verbose ev
    · rw [hev]
      refine ⟨[], by simp [StreamMuxBuf.pushed, hmux], List.nil_prefix, fun h ↦ ?_, fun h ↦ ?_⟩
      · cases h
      obtain ⟨visit, rfl, hstop⟩ := hfuel (Except.error.inj h)
      exact ⟨visit, List.mem_cons_self, hstop⟩
    · obtain ⟨els, hels, hpre, hall, hfuel⟩ := ih (p := p') (by rw [hmux]; exact hp.pushed)
      rw [hev, List.flatMap_cons]
      refine ⟨ev.emitted verbose ++ els, ?_, (List.prefix_append_right_inj _).mpr hpre,
        fun h ↦ by rw [hall h], fun h ↦ ?_⟩
      swap
      · obtain ⟨visit, hmem, hstop⟩ := hfuel h
        exact ⟨visit, List.mem_cons_of_mem _ hmem, hstop⟩
      dsimp only
      rw [hels, hmux, StreamMuxBuf.pushed, StreamMuxBuf.pushed, StreamMuxBuf.pushed,
        List.append_assoc]

end Emits

end Cpsw.Preproc
