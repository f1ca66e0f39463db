import Cpsw.Config.Sequence
import Cpsw.Lib.Run
import Mathlib.Data.List.Forall2

namespace Cpsw.Config

open Path

/-- Where the lists begin in their concatenation, which starts at `k`, and where the last one ends. -/
def boundaries {α : Type} : ℕ → List (List α) → List ℕ
  | k, [] => [k]
  | k, s :: ss => k :: boundaries (k + s.length) ss

section Boundaries

variable {α : Type} {k i : ℕ} {s : List α} {ss : List (List α)}

@[simp] theorem boundaries_length : (boundaries k ss).length = ss.length + 1 := by
  induction ss generalizing k with
  | nil => rfl
  | cons s ss ih => rw [boundaries, List.length_cons, ih, List.length_cons]

theorem boundaries_getD (hi : i ≤ ss.length) :
    (boundaries k ss).getD i 0 = k + (ss.take i).flatten.length := by
  induction ss generalizing k i with
  | nil =>
    cases Nat.le_zero.mp hi
    rfl
  | cons s ss ih =>
    cases i with
    | zero => rfl
    | succ i =>
      rw [boundaries, List.getD_cons_succ, ih (Nat.le_of_succ_le_succ hi), List.take_succ_cons,
        List.flatten_cons, List.length_append, Nat.add_assoc]

theorem boundaries_getLast : (boundaries k ss).getLast? = some (k + ss.flatten.length) := by
  rw [List.getLast?_eq_getElem?, boundaries_length, Nat.add_sub_cancel]
  have h := boundaries_getD (k := k) (le_refl ss.length)
  rw [List.take_length, List.getD_eq_getElem?_getD] at h
  obtain ⟨j, hj⟩ : ∃ j, (boundaries k ss)[ss.length]? = some j :=
    ⟨_, List.getElem?_eq_getElem (by simp)⟩
  rw [hj] at h ⊢
  exact congrArg some h

theorem boundaries_concat : boundaries k (ss ++ [s]) =
    boundaries k ss ++ [k + ss.flatten.length + s.length] := by
  induction ss generalizing k with
  | nil => rfl
  | cons t ss ih =>
    rw [List.cons_append, boundaries, boundaries, ih, List.flatten_cons, List.length_append,
      List.cons_append, Nat.add_assoc k]

/-- Between two boundaries there is one of the lists. -/
theorem range_eq (hi : i < ss.length) :
    (ss.flatten.drop (ss.take i).flatten.length).take
      ((ss.take (i + 1)).flatten.length - (ss.take i).flatten.length) = ss[i] := by
  have hsplit : ss = ss.take i ++ ss[i] :: ss.drop (i + 1) := by
    rw [← List.drop_eq_getElem_cons hi, List.take_append_drop]
  have hflat : ss.flatten = (ss.take i).flatten ++ (ss[i] ++ (ss.drop (i + 1)).flatten) := by
    conv_lhs => rw [hsplit]
    rw [List.flatten_append, List.flatten_cons]
  have hlen : (ss.take (i + 1)).flatten.length = (ss.take i).flatten.length + ss[i].length := by
    rw [List.take_succ_eq_append_getElem hi, List.flatten_append, List.length_append]
    simp
  rw [hlen, Nat.add_sub_cancel_left, hflat, List.drop_left, List.take_left]

end Boundaries

def Node.items : Node → List Node
  | .seq _ items => items
  | _ => []

section Description

variable (Y : YamlCpp)

/-- The sequences that the items of a node describe: a list of sequences, or one sequence. -/
def described (nodes : List Node) : Except CPSWError (List (List Item)) :=
  if nodes.all Node.isSequence then nodes.mapM fun n ↦ n.items.mapM (readPair Y "entry")
  else (fun s ↦ [s]) <$> nodes.mapM (readPair Y "entry")

end Description

/-- The sequences one behind the other. -/
def SequenceCommandImpl.ofSequences (name : List Char) (seqs : List (List Item)) :
    SequenceCommandImpl := ⟨name, seqs.flatten, boundaries 0 seqs⟩

/-- The index cuts the items into consecutive ranges, one for each sequence. -/
structure Partitions (c : SequenceCommandImpl) (seqs : List (List Item)) : Prop where
  length : c.index.length = seqs.length + 1
  first : c.index.getD 0 0 = 0
  last : c.index.getLast? = some c.items.length
  range : ∀ k (hk : k < seqs.length), c.index.getD k 0 ≤ c.index.getD (k + 1) 0 ∧
    (c.items.drop (c.index.getD k 0)).take (c.index.getD (k + 1) 0 - c.index.getD k 0) = seqs[k]

theorem partitions_ofSequences {name : List Char} {seqs : List (List Item)} :
    Partitions (.ofSequences name seqs) seqs where
  length := boundaries_length
  first := by
    rw [SequenceCommandImpl.ofSequences, boundaries_getD (Nat.zero_le _)]
    rfl
  last := by
    rw [SequenceCommandImpl.ofSequences, boundaries_getLast, Nat.zero_add]
  range k hk := by
    rw [SequenceCommandImpl.ofSequences]
    dsimp only
    rw [boundaries_getD hk.le, boundaries_getD hk, Nat.zero_add, Nat.zero_add, range_eq hk]
    refine ⟨?_, rfl⟩
    rw [List.take_succ_eq_append_getElem hk, List.flatten_append, List.length_append]
    exact Nat.le_add_right _ _

section Parse

variable {Y : YamlCpp} {R : EnumRegistry} {name : List Char} {key : String} {nodes all : List Node}
variable {n node : Node} {item : Item} {items s : List Item} {done seqs : List (List Item)}

/-- A list is read when each of its elements is. -/
theorem mapM_ok_iff {α β ε : Type} {f : α → Except ε β} {xs : List α} {ys : List β} :
    xs.mapM f = .ok ys ↔ List.Forall₂ (fun x y ↦ f x = .ok y) xs ys := by
  induction xs generalizing ys with
  | nil =>
    rw [List.forall₂_nil_left_iff]
    exact ⟨fun h ↦ (Except.ok.inj h).symm, fun h ↦ congrArg Except.ok h.symm⟩
  | cons x xs ih =>
    rw [List.mapM_cons, Lib.Run.bind_ok, List.forall₂_cons_left_iff]
    constructor
    · rintro ⟨y, hy, h⟩
      obtain ⟨zs, hzs, h⟩ := Lib.Run.bind_ok.mp h
      exact ⟨y, zs, hy, ih.mp hzs, (Except.ok.inj h).symm⟩
    · rintro ⟨y, zs, hy, hzs, rfl⟩
      exact ⟨y, hy, Lib.Run.bind_ok.mpr ⟨zs, ih.mpr hzs, rfl⟩⟩

theorem mapM_forall {α β ε : Type} {f : α → Except ε β} {P : β → Prop}
    (hf : ∀ x y, f x = .ok y → P y) {xs : List α} {ys : List β} (h : xs.mapM f = .ok ys) :
    ∀ y ∈ ys, P y := by
  rw [mapM_ok_iff] at h
  induction h with
  | nil => simp
  | cons hxy h ih => exact List.forall_mem_cons.mpr ⟨hf _ _ hxy, ih⟩

theorem parseItems_eq (h : nodes.mapM (readPair Y "entry") = .ok s) :
    parseItems Y nodes (.ofSequences name done) = .ok (.ofSequences name (done ++ [s])) := by
  have hlen := (mapM_ok_iff.mp h).length_eq
  rw [parseItems, h]
  simp only [SequenceCommandImpl.ofSequences, boundaries_getLast, boundaries_concat, hlen]
  simp [bind, Except.bind, pure, Except.pure]

theorem parseItems_ok {c : SequenceCommandImpl}
    (h : parseItems Y nodes (.ofSequences name done) = .ok c) :
    ∃ s, nodes.mapM (readPair Y "entry") = .ok s ∧ c = .ofSequences name (done ++ [s]) := by
  obtain ⟨s, hs, -⟩ := Lib.Run.bind_ok.mp h
  rw [parseItems_eq hs] at h
  exact ⟨s, hs, (Except.ok.inj h).symm⟩

/-- Lists of items are added one after the other. -/
theorem parseSequences_eq {i : ℕ} (hall : nodes.all Node.isSequence = true)
    (h : (nodes.mapM fun n ↦ n.items.mapM (readPair Y "entry")) = .ok seqs) :
    parseSequences Y all i nodes (.ofSequences name done) =
      .ok (.ofSequences name (done ++ seqs)) := by
  induction nodes generalizing i done seqs with
  | nil =>
    rw [mapM_ok_iff, List.forall₂_nil_left_iff] at h
    rw [parseSequences, h, List.append_nil]
    rfl
  | cons n nodes ih =>
    rw [List.all_cons, Bool.and_eq_true] at hall
    rw [mapM_ok_iff, List.forall₂_cons_left_iff] at h
    obtain ⟨s, seqs, hs, hseqs, rfl⟩ := h
    cases n with
    | seq tag items =>
      have hitems : items.mapM (readPair Y "entry") = .ok s := hs
      rw [parseSequences, parseItems_eq hitems]
      have hnext : parseSequences Y all (i + 1) nodes (.ofSequences name (done ++ [s])) =
          .ok (.ofSequences name (done ++ [s] ++ seqs)) := ih hall.2 (mapM_ok_iff.mpr hseqs)
      rw [List.append_assoc] at hnext
      exact hnext
    | _ => cases hall.1

theorem parseSequences_ok {i : ℕ} {c : SequenceCommandImpl} (hi : 0 < i)
    (h : parseSequences Y all i nodes (.ofSequences name done) = .ok c) :
    nodes.all Node.isSequence = true ∧ ∃ seqs,
      (nodes.mapM fun n ↦ n.items.mapM (readPair Y "entry")) = .ok seqs ∧
        c = .ofSequences name (done ++ seqs) := by
  obtain ⟨i, rfl⟩ := Nat.exists_eq_add_of_le' hi
  induction nodes generalizing i done with
  | nil =>
    cases h
    exact ⟨rfl, [], rfl, by rw [List.append_nil]⟩
  | cons n nodes ih =>
    cases n with
    | seq tag items =>
      rw [parseSequences] at h
      obtain ⟨c', hc', h⟩ := Lib.Run.bind_ok.mp h
      obtain ⟨s, hs, rfl⟩ := parseItems_ok hc'
      obtain ⟨hall, seqs, hseqs, rfl⟩ := ih (i + 1) (Nat.succ_pos _) h
      refine ⟨by simpa [Node.isSequence] using hall, s :: seqs, ?_, by simp⟩
      exact mapM_ok_iff.mpr (.cons hs (mapM_ok_iff.mp hseqs))
    | _ => cases h

/-- What the constructor accepts are the sequences that the node describes. -/
theorem parse_ok {c : SequenceCommandImpl}
    (h : parseSequences Y nodes 0 nodes (.ofSequences name []) = .ok c) (hne : nodes ≠ []) :
    ∃ seqs, described Y nodes = .ok seqs ∧ c = .ofSequences name seqs := by
  cases nodes with
  | nil => exact absurd rfl hne
  | cons n nodes =>
    cases n with
    | seq tag items =>
      rw [parseSequences] at h
      obtain ⟨c', hc', h⟩ := Lib.Run.bind_ok.mp h
      obtain ⟨s, hs, rfl⟩ := parseItems_ok hc'
      obtain ⟨hall, seqs, hseqs, rfl⟩ := parseSequences_ok Nat.one_pos h
      refine ⟨s :: seqs, ?_, rfl⟩
      rw [described, if_pos (by simpa [Node.isSequence] using hall)]
      exact mapM_ok_iff.mpr (.cons hs (mapM_ok_iff.mp hseqs))
    | _ =>
      obtain ⟨s, hs, rfl⟩ := parseItems_ok h
      refine ⟨[s], ?_, rfl⟩
      rw [described, if_neg (by simp [Node.isSequence]), hs]
      rfl

end Parse

end Cpsw.Config
