import Cpsw.Preproc.Events
import Mathlib.Data.Prod.Lex
import Mathlib.Order.Bounds.Basic

namespace Cpsw.Preproc

open Cpsw.Lib

/-- Minor number and revision, the minor number first. -/
def Version.pair (v : Version) : ℤ ×ₗ ℤ := toLex (v.minor, v.revision)

/-- A file of which all of the header has been read: what is left of it, and its version. -/
structure Processed where
  body : IStream
  version : Version
  deriving DecidableEq, Repr

def Event.processed? : Event → Option Processed
  | .line .. => none
  | .file visit =>
    match visit.stop with
    | .done body _ v => some ⟨body, v⟩
    | _ => none

/-- The version that an event makes the one of the preprocessor, as long as there is none. -/
def Event.tells? : Event → Option Version
  | .line name _ text =>
    match directive name text with
    | .schemaversion v => some v
    | _ => none
  | .file visit =>
    match visit.stop with
    | .done .. => some .none
    | _ => none

def Tree.processed (tree : Tree) : List Processed := tree.events.filterMap Event.processed?

/-- The first version line that is read, unless a file ends before it. -/
def Tree.firstVersion (tree : Tree) : Version := (tree.events.findSome? Event.tells?).getD .none

def Tree.Mismatch (tree : Tree) : Prop :=
  ∃ f ∈ tree.processed, ∃ g ∈ tree.processed, f.version.major ≠ g.version.major

/-- What the versions of the files of a tree make of a run of the preprocessor. -/
def Tree.VersionLaw (tree : Tree) (run : Except PreprocError PUnit × YamlPreprocessor) : Prop :=
  (run.1 ≠ .ok ⟨⟩ ↔ tree.Mismatch) ∧
    (¬tree.Mismatch → IsLeast {a | ∃ f ∈ tree.processed, a = f.version.pair} run.2.version.pair)

variable {a v : Version} {p p' : YamlPreprocessor} {verbose : Bool} {name line : Text} {n : ℕ}
variable {s body : IStream} {evs : List Event}

@[simp] theorem lower_major : (a.lower v).major = a.major := by
  unfold Version.lower
  split_ifs <;> rfl

theorem pair_lower : (a.lower v).pair = min a.pair v.pair := by
  unfold Version.lower Version.pair
  split_ifs with h h'
  · rw [min_eq_right (Prod.Lex.toLex_le_toLex.mpr (.inl h))]
  · rw [min_eq_right (Prod.Lex.toLex_le_toLex.mpr (.inr ⟨h'.1, h'.2.le⟩)), h'.1]
  · rw [min_eq_left]
    rw [Prod.Lex.toLex_le_toLex]
    rcases lt_or_eq_of_le (not_lt.mp h) with hlt | heq
    · exact .inl hlt
    · exact .inr ⟨heq, not_lt.mp fun hlt ↦ h' ⟨heq.symm, hlt⟩⟩

/-- A file with the major number `v` and a body, or none at all after the last line's end. -/
def Agrees (v : Version) (f : Processed) : Prop := v.major = f.version.major ∧ f.body.fail = false

/-- How a run ends that compares the files with `v`. -/
inductive Outcome (v : Version) (files : List Processed) :
    Except PreprocError PUnit × YamlPreprocessor → Prop
  | ok {p : YamlPreprocessor} :
      p.version.pair = files.foldl (fun a f ↦ min a f.version.pair) v.pair →
      (∀ f ∈ files, Agrees v f) → Outcome v files (.ok ⟨⟩, p)
  | error {e : PreprocError} {p : YamlPreprocessor} :
      (∃ f ∈ files, ¬Agrees v f) → Outcome v files (.error e, p)

theorem Outcome.cons {files : List Processed} {f : Processed}
    {run : Except PreprocError PUnit × YamlPreprocessor} (hf : Agrees v f)
    (h : Outcome (v.lower f.version) files run) : Outcome v (f :: files) run := by
  have hagrees : ∀ g, Agrees (v.lower f.version) g ↔ Agrees v g := by
    intro g
    rw [Agrees, Agrees, lower_major]
  cases h with
  | ok hpair hall =>
    refine .ok ?_ ?_
    · rw [hpair, pair_lower, List.foldl_cons]
    · rw [List.forall_mem_cons]
      exact ⟨hf, fun g hg ↦ (hagrees g).mp (hall g hg)⟩
  | error hex =>
    obtain ⟨g, hg, hne⟩ := hex
    exact .error ⟨g, List.mem_cons_of_mem _ hg, fun h ↦ hne ((hagrees g).mpr h)⟩

theorem marked_version {d : Directive} (hp : p.versionSet = true) :
    (p.marked d).versionSet = true ∧ (p.marked d).version = p.version := by
  cases d with
  | once tag =>
    rw [YamlPreprocessor.marked]
    split_ifs
    · exact ⟨hp, rfl⟩
    · exact ⟨hp, rfl⟩
  | schemaversion w =>
    rw [YamlPreprocessor.marked, YamlPreprocessor.setVersion, if_pos hp]
    exact ⟨hp, rfl⟩
  | _ => exact ⟨hp, rfl⟩

/-- Once there is a version, every file that ends is compared with it. -/
theorem runs_versions (verbose : Bool) (evs : List Event) (hset : p.versionSet = true) (hp : p.mux.Fresh)
    (hev : ∀ ev ∈ evs, ev.fails = false) :
    Outcome p.version (evs.filterMap Event.processed?) ((runs verbose evs).exec p) := by
  induction evs generalizing p with
  | nil => exact .ok rfl (by simp)
  | cons ev evs ih =>
    obtain ⟨hfails, hev'⟩ := List.forall_mem_cons.mp hev
    rw [runs, Throw.exec_bind]
    cases ev with
    | line name n text =>
      rw [exec_line hp]
      obtain ⟨hset', hver⟩ := marked_version (d := directive name text)
        (p := p.pushed (Event.emitted verbose (.line name n text))) hset
      have h := ih hset' (by rw [marked_mux]; exact hp.pushed) hev'
      rwa [hver] at h
    | file visit =>
      simp only [Event.run, Visit.finish, List.filterMap_cons, Event.processed?]
      cases hstop : visit.stop with
      | done body n v =>
        dsimp only
        rw [exec_endHeader]
        by_cases hv : p.version.major ≠ v.major
        · rw [if_pos hv]
          exact .error ⟨_, List.mem_cons_self, fun h ↦ hv h.1⟩
        · rw [if_neg hv]
          by_cases hg : body.good = true
          · rw [if_pos hg, exec_pushbuf_fresh (p := p.lowered v) hp (fail_of_good hg)]
            exact .cons ⟨not_not.mp hv, fail_of_good hg⟩
              (ih (p := (p.lowered v).pushed _) rfl hp.pushed hev')
          · rw [if_neg hg]
            by_cases hf : body.fail = true
            · rw [if_pos hf]
              exact .error ⟨_, List.mem_cons_self, fun h ↦ by simp [h.2] at hf⟩
            · rw [if_neg hf]
              exact .cons ⟨not_not.mp hv, by simpa using hf⟩ (ih (p := p.lowered v) rfl hp hev')
      | cut => exact ih hset hp hev'
      | failed e => simp [Event.fails, hstop, Stop.fails] at hfails
      | broken => simp [Event.fails, hstop, Stop.fails] at hfails

theorem marked_unset {d : Directive} (hd : ∀ w, d ≠ .schemaversion w) :
    (p.marked d).versionSet = p.versionSet ∧ (p.marked d).version = p.version := by
  cases d with
  | once tag =>
    rw [YamlPreprocessor.marked]
    split_ifs <;> exact ⟨rfl, rfl⟩
  | schemaversion w => exact absurd rfl (hd w)
  | _ => exact ⟨rfl, rfl⟩

theorem exec_endHeader_set : (endHeader body name n v).exec p =
    (endHeader body name n v).exec { p with versionSet := true } := by
  rw [exec_endHeader, exec_endHeader]
  rfl

/-- The version that the files are compared with is the first one that is told. -/
theorem runs_firstVersion (hset : p.versionSet = false) (hnone : p.version = .none)
    (hp : p.mux.Fresh) (hev : ∀ ev ∈ evs, ev.fails = false) :
    Outcome ((evs.findSome? Event.tells?).getD .none) (evs.filterMap Event.processed?)
      ((runs verbose evs).exec p) := by
  induction evs generalizing p with
  | nil => exact .ok (by rw [hnone]; rfl) (by simp)
  | cons ev evs ih =>
    obtain ⟨hfails, hev'⟩ := List.forall_mem_cons.mp hev
    cases ev with
    | line name n text =>
      rw [runs, Throw.exec_bind, exec_line hp]
      generalize hq : p.pushed (Event.emitted verbose (.line name n text)) = q
      have hset' : q.versionSet = false := by rw [← hq]; exact hset
      have hnone' : q.version = .none := by rw [← hq]; exact hnone
      have hp' : q.mux.Fresh := by rw [← hq]; exact hp.pushed
      rw [List.findSome?_cons, List.filterMap_cons]
      simp only [Event.tells?, Event.processed?]
      by_cases hd : ∃ w, directive name text = .schemaversion w
      · obtain ⟨w, hd⟩ := hd
        rw [hd, YamlPreprocessor.marked, YamlPreprocessor.setVersion, hset']
        exact runs_versions verbose evs (p := { q with versionSet := true, version := w }) rfl hp' hev'
      · rw [not_exists] at hd
        obtain ⟨hs, hv⟩ := marked_unset (p := q) hd
        have h := ih (hs.trans hset') (hv.trans hnone') (by rwa [marked_mux]) hev'
        cases hdir : directive name text with
        | schemaversion w => exact absurd hdir (hd w)
        | _ => rwa [hdir] at h
    | file visit =>
      cases hstop : visit.stop with
      | done body n v =>
        have h := runs_versions verbose (.file visit :: evs)
          (p := { p with versionSet := true }) rfl hp hev
        rw [List.findSome?_cons]
        simp only [Event.tells?, hstop, Option.getD_some]
        rw [← hnone]
        convert h using 1
        rw [runs, Throw.exec_bind, Throw.exec_bind]
        simp only [Event.run, Visit.finish, hstop]
        rw [exec_endHeader_set]
      | cut =>
        have h := ih hset hnone hp hev'
        rw [runs, Throw.exec_bind, List.findSome?_cons, List.filterMap_cons]
        simp only [Event.tells?, Event.processed?, Event.run, Visit.finish, hstop]
        exact h
      | failed e => simp [Event.fails, hstop, Stop.fails] at hfails
      | broken => simp [Event.fails, hstop, Stop.fails] at hfails

theorem isLeast_foldl_min {α β : Type} [LinearOrder α] (g : β → α) (a : α)
    (xs : List β) : IsLeast {b | b = a ∨ ∃ x ∈ xs, b = g x} (xs.foldl (fun a x ↦ min a (g x)) a) := by
  induction xs generalizing a with
  | nil =>
    refine ⟨.inl rfl, fun b hb ↦ ?_⟩
    obtain rfl | ⟨x, hx, -⟩ := hb
    · exact le_rfl
    · cases hx
  | cons x xs ih =>
    obtain ⟨hmem, hle⟩ := ih (min a (g x))
    rw [List.foldl_cons]
    refine ⟨?_, fun b hb ↦ ?_⟩
    · obtain heq | ⟨y, hy, heq⟩ := hmem
      · rw [heq]
        obtain h | h := min_choice a (g x)
        · exact .inl h
        · exact .inr ⟨x, List.mem_cons_self, h⟩
      · exact .inr ⟨y, List.mem_cons_of_mem _ hy, heq⟩
    · have hmin := hle (.inl rfl)
      obtain rfl | ⟨y, hy, rfl⟩ := hb
      · exact hmin.trans (min_le_left _ _)
      · obtain rfl | hy := List.mem_cons.mp hy
        · exact hmin.trans (min_le_right _ _)
        · exact hle (.inr ⟨y, hy, rfl⟩)

/-- What has to hold of the files of a tree for the law to hold of a run. -/
def Tree.Lawful (tree : Tree) : Prop :=
  (∀ f ∈ tree.processed, f.body.fail = false) ∧ ∃ f ∈ tree.processed,
    f.version.major = tree.firstVersion.major ∧ f.version.pair ≤ tree.firstVersion.pair

theorem Outcome.law_iff {tree : Tree} {run : Except PreprocError PUnit × YamlPreprocessor}
    (h : Outcome tree.firstVersion tree.processed run) :
    tree.VersionLaw run ↔ tree.Mismatch ∨ tree.Lawful := by
  rw [Tree.VersionLaw]
  generalize hfs : tree.processed = files at h
  cases h with
  | @ok p hpair hall =>
    subst hfs
    have hno : ¬tree.Mismatch := by
      rintro ⟨f, hf, g, hg, hne⟩
      exact hne ((hall f hf).1.symm.trans (hall g hg).1)
    have hleast := isLeast_foldl_min (fun f : Processed ↦ f.version.pair)
      tree.firstVersion.pair tree.processed
    rw [← hpair] at hleast
    obtain ⟨hmem, hle⟩ := hleast
    simp only [ne_eq, not_true, hno, not_false_iff, true_and, true_imp_iff, false_or, iff_self]
    constructor
    · rintro ⟨⟨f, hf, heq⟩, -⟩
      exact ⟨fun f hf ↦ (hall f hf).2, f, hf, (hall f hf).1.symm, heq ▸ hle (.inl rfl)⟩
    · rintro ⟨-, f, hf, -, hlow⟩
      refine ⟨?_, fun b hb ↦ hle (.inr hb)⟩
      obtain heq | hex := hmem
      · exact ⟨f, hf, le_antisymm (hle (.inr ⟨f, hf, rfl⟩)) (heq ▸ hlow)⟩
      · exact hex
  | @error e p hex =>
    subst hfs
    obtain ⟨f, hf, hne⟩ := hex
    have hlaw : tree.Lawful → tree.Mismatch := by
      rintro ⟨hbody, g, hg, hmajor, -⟩
      refine ⟨f, hf, g, hg, fun heq ↦ hne ⟨?_, hbody f hf⟩⟩
      rw [heq, hmajor]
    simp only [ne_eq, reduceCtorEq, not_false_iff, true_iff]
    constructor
    · exact fun h ↦ .inl h.1
    · intro h
      have hmis := h.elim id hlaw
      exact ⟨hmis, fun hno ↦ absurd hmis hno⟩

section Claim

variable {fs : FileSystem} {paths : FLookup} {tree : Tree}

theorem version_law_iff (h : Inclusion fs paths name (.ofText line) tree) (hw : tree.Whole)
    (verbose : Bool) (bufsz : ℕ) : ∃ N, ∀ fuel, N ≤ fuel →
      (tree.VersionLaw ((process fs paths verbose fuel (.ofText line) name 0 .none).exec
        (.new (.new bufsz))) ↔ tree.Mismatch ∨ tree.Lawful) := by
  obtain ⟨N, hrun⟩ := h.runs_eq verbose (.new bufsz)
  refine ⟨N, fun fuel hN ↦ ?_⟩
  rw [hrun fuel hN]
  exact (runs_firstVersion rfl rfl (StreamMuxBuf.new_fresh bufsz) hw).law_iff

/-- One file `/b` to be included, by its absolute name. -/
def oneFile (text : Text) : FileSystem where
  files := [("/b".toList, text)]
  access := fun _ ↦ .ok

def noPaths : FLookup := ⟨[], true⟩

def includesB : Text := "#schemaversion 1.2.3\n#include /b\nx: 1\n".toList

/-- The tree of `includesB` when `/b` has a version line only and `body` behind it. -/
def treeOfB (versionLine : Text) (body : IStream) (v : Version) : Tree :=
  .file ⟨"m".toList, ["#schemaversion 1.2.3".toList, "#include /b".toList],
      .done (.ofText "x: 1\n".toList) 2 ⟨1, 2, 3⟩⟩
    [.line "m".toList 0 "#schemaversion 1.2.3".toList, .line "m".toList 1 "#include /b".toList,
      .file ⟨"/b".toList, [versionLine], .done body 1 v⟩ [.line "/b".toList 0 versionLine]]

theorem inclusion_includesB {text versionLine : Text} {body : IStream} {v : Version}
    (hread : meaning (oneFile text) noPaths "m".toList "#include /b".toList =
      .include "/b".toList (.ofText text))
    (hheader : (IStream.ofText text).header = ([versionLine], body))
    (hv : meaning (oneFile text) noPaths "/b".toList versionLine = .version v) :
    Inclusion (oneFile text) noPaths "m".toList (.ofText includesB)
      (treeOfB versionLine body v) := by
  have hmain : (IStream.ofText includesB).header =
      (["#schemaversion 1.2.3".toList, "#include /b".toList], .ofText "x: 1\n".toList) := by
    decide +kernel
  refine ⟨_, .done (.ofText "x: 1\n".toList) 2 ⟨1, 2, 3⟩, [], ?_, by rw [hmain]; rfl⟩
  rw [hmain]
  refine .version (w := ⟨1, 2, 3⟩) rfl ?_
  have hkid : Expands (oneFile text) noPaths [] "/b".toList 0 .none
      (IStream.ofText text).header.1 (IStream.ofText text).header.2
      [.line "/b".toList 0 versionLine] (.done body 1 v) [] := by
    rw [hheader]
    exact .version hv .done
  have hmore : Expands (oneFile text) noPaths [] "m".toList 1 ⟨1, 2, 3⟩ ["#include /b".toList]
      (.ofText "x: 1\n".toList) _ _ [] := .include hread hkid rfl .done
  rwa [hheader] at hmore

theorem version_law_iff_sample : ∃ N, ∀ fuel, N ≤ fuel →
    ((treeOfB "#schemaversion 1.1.7".toList (.ofText "y: 1\n".toList) ⟨1, 1, 7⟩).VersionLaw
      ((process (oneFile "#schemaversion 1.1.7\ny: 1\n".toList) noPaths false fuel
        (.ofText includesB) "m".toList 0 .none).exec (.new (.new 1024))) ↔
      (treeOfB "#schemaversion 1.1.7".toList (.ofText "y: 1\n".toList) ⟨1, 1, 7⟩).Mismatch ∨
      (treeOfB "#schemaversion 1.1.7".toList (.ofText "y: 1\n".toList) ⟨1, 1, 7⟩).Lawful) :=
  version_law_iff
    (inclusion_includesB (by decide +kernel) (by decide +kernel) (by decide +kernel))
    (by unfold Tree.Whole; decide +kernel) false 1024

/-- `/b` has a lower version with the same major number, and no end of its only line. -/
def unendedTree : Tree := treeOfB "#schemaversion 1.1.7".toList ⟨[], true, true⟩ ⟨1, 1, 7⟩

theorem inclusion_unended : Inclusion (oneFile "#schemaversion 1.1.7".toList) noPaths "m".toList
    (.ofText includesB) unendedTree :=
  inclusion_includesB (by decide +kernel) (by decide +kernel) (by decide +kernel)

theorem not_version_law : ∃ fs paths name text tree, Inclusion fs paths name (.ofText text) tree ∧
    tree.Whole ∧ ∃ N, ∀ fuel, N ≤ fuel →
      ¬tree.VersionLaw ((process fs paths false fuel (.ofText text) name 0 .none).exec
        (.new (.new 1024))) := by
  refine ⟨_, _, _, _, _, inclusion_unended, by unfold Tree.Whole; decide +kernel, ?_⟩
  obtain ⟨N, hrun⟩ := inclusion_unended.runs_eq false (.new 1024)
  refine ⟨N, fun fuel hN hlaw ↦ ?_⟩
  rw [hrun fuel hN] at hlaw
  have herror : ((runs false unendedTree.events).exec (.new (.new 1024))).1 ≠ .ok ⟨⟩ := by
    decide +kernel
  have hmatch : ¬unendedTree.Mismatch := by
    unfold Tree.Mismatch
    decide +kernel
  exact hmatch (hlaw.1.mp herror)

end Claim

end Cpsw.Preproc
