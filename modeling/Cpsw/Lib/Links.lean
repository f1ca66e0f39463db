import Mathlib.Data.List.Chain
import Mathlib.Data.List.Nodup
import Mathlib.Logic.Function.Basic

namespace Cpsw.Lib

/-- The successor and predecessor fields of the cells of a heap. -/
structure Links (α : Type) where
  next : α → Option α
  prev : α → Option α

namespace Links

variable {α : Type} {l l' : Links α} {xs ys : List α} {a b x : α}

/-- `b` follows `a`, and both cells say so. -/
def Adj (l : Links α) (a b : α) : Prop := l.next a = some b ∧ l.prev b = some a

/-- The cells `xs` are distinct and linked in this order in both directions. -/
structure Linked (l : Links α) (xs : List α) : Prop where
  chain : xs.IsChain l.Adj
  nodup : xs.Nodup

theorem Linked.adj (h : l.Linked (xs ++ a :: b :: ys)) : l.Adj a b :=
  (List.isChain_append_cons_cons.1 h.chain).2.1

/-- A list keeps its links when the fields it uses do not change. -/
theorem chain_frame (h : xs.IsChain l.Adj) (hn : ∀ a ∈ xs.dropLast, l'.next a = l.next a)
    (hp : ∀ a ∈ xs.tail, l'.prev a = l.prev a) : xs.IsChain l'.Adj := by
  induction xs with
  | nil => exact .nil
  | cons a xs ih =>
    cases xs with
    | nil => exact .singleton a
    | cons b xs =>
      rw [List.isChain_cons_cons] at h ⊢
      have hab : l'.Adj a b :=
        ⟨(hn a (by simp)).trans h.1.1, (hp b (by simp)).trans h.1.2⟩
      have hn' : ∀ c ∈ (b :: xs).dropLast, l'.next c = l.next c := by
        intro c hc
        apply hn
        simp [hc]
      have hp' : ∀ c ∈ (b :: xs).tail, l'.prev c = l.prev c := by
        intro c hc
        apply hp
        simp only [List.tail_cons] at hc ⊢
        exact List.mem_cons_of_mem b hc
      exact ⟨hab, ih h.2 hn' hp'⟩

theorem Linked.frame (h : l.Linked xs) (hn : ∀ a ∈ xs, l'.next a = l.next a)
    (hp : ∀ a ∈ xs, l'.prev a = l.prev a) : l'.Linked xs :=
  ⟨chain_frame h.chain (fun a ha ↦ hn a ((List.dropLast_sublist xs).subset ha))
    (fun a ha ↦ hp a (List.mem_of_mem_tail ha)), h.nodup⟩

variable [DecidableEq α]

/-- Link `x` in between `a` and `b`. -/
def insert (l : Links α) (a x b : α) : Links α where
  next := Function.update (Function.update l.next a (some x)) x (some b)
  prev := Function.update (Function.update l.prev x (some a)) b (some x)

/-- Make `a` and `b` neighbours; what stood between them keeps its own links. -/
def bypass (l : Links α) (a b : α) : Links α where
  next := Function.update l.next a (some b)
  prev := Function.update l.prev b (some a)

omit [DecidableEq α] in
/-- Where two neighbours of a list without repetition do not stand. -/
theorem neighbours (h : (xs ++ a :: b :: ys).Nodup) :
    a ∉ xs ∧ b ∉ xs ++ [a] ∧ a ∉ b :: ys ∧ b ∉ ys := by
  have hab : (xs ++ [a]).Disjoint (b :: ys) := by
    rw [List.append_cons] at h
    exact List.disjoint_of_nodup_append h
  have ha : xs.Disjoint (a :: b :: ys) := List.disjoint_of_nodup_append h
  have hb := (List.nodup_cons.1 (List.nodup_append.1 h).2.1).2
  exact ⟨fun hm ↦ ha hm (by simp), fun hm ↦ hab hm (by simp), fun hm ↦ hab (by simp) hm,
    (List.nodup_cons.1 hb).1⟩

theorem Linked.insert (h : l.Linked (xs ++ a :: b :: ys)) (hx : x ∉ xs ++ a :: b :: ys) :
    (l.insert a x b).Linked (xs ++ a :: x :: b :: ys) := by
  obtain ⟨hl, -, hr⟩ := List.isChain_append_cons_cons.1 h.chain
  obtain ⟨ha, hb, ha', hb'⟩ := neighbours h.nodup
  have hne {c : α} (hc : c ∈ xs ++ a :: b :: ys) : c ≠ x := ne_of_mem_of_not_mem hc hx
  have hxa : a ≠ x := hne (by simp)
  have hxb : x ≠ b := (hne (by simp)).symm
  refine ⟨List.isChain_append_cons_cons.2 ⟨?_, ?_, List.isChain_cons_cons.2 ⟨?_, ?_⟩⟩, ?_⟩
  · apply chain_frame hl
    · intro c hc
      rw [List.dropLast_concat] at hc
      have hca : c ≠ a := ne_of_mem_of_not_mem hc ha
      have hcx : c ≠ x := hne (by simp [hc])
      simp [Links.insert, hca, hcx]
    · intro c hc
      have hc := List.mem_of_mem_tail hc
      have hcb : c ≠ b := ne_of_mem_of_not_mem hc hb
      have hcx : c ≠ x := hne (by rw [List.append_cons]; exact List.mem_append_left _ hc)
      simp [Links.insert, hcb, hcx]
  · exact ⟨by simp [Links.insert, hxa], by simp [Links.insert, hxb]⟩
  · exact ⟨by simp [Links.insert], by simp [Links.insert]⟩
  · apply chain_frame hr
    · intro c hc
      have hc := (List.dropLast_sublist _).subset hc
      have hca : c ≠ a := ne_of_mem_of_not_mem hc ha'
      have hcx : c ≠ x := hne (List.mem_append_right _ (List.mem_cons_of_mem a hc))
      simp [Links.insert, hca, hcx]
    · intro c hc
      have hcb : c ≠ b := ne_of_mem_of_not_mem hc hb'
      have hcx : c ≠ x := hne (by simp at hc; simp [hc])
      simp [Links.insert, hcb, hcx]
  · have hp : (xs ++ a :: x :: b :: ys).Perm (x :: (xs ++ a :: b :: ys)) := by
      rw [List.append_cons xs a (x :: _), List.append_cons xs a (b :: ys)]
      exact List.perm_middle
    exact hp.nodup_iff.2 (List.nodup_cons.2 ⟨hx, h.nodup⟩)

theorem Linked.bypass (h : l.Linked (xs ++ a :: x :: b :: ys)) :
    (l.bypass a b).Linked (xs ++ a :: b :: ys) := by
  obtain ⟨hl, -, hr⟩ := List.isChain_append_cons_cons.1 h.chain
  have hnd : (xs ++ a :: b :: ys).Nodup := h.nodup.sublist (by simp)
  obtain ⟨ha, hb, ha', hb'⟩ := neighbours hnd
  refine ⟨List.isChain_append_cons_cons.2 ⟨?_, ?_, ?_⟩, hnd⟩
  · apply chain_frame hl
    · intro c hc
      rw [List.dropLast_concat] at hc
      have hca : c ≠ a := ne_of_mem_of_not_mem hc ha
      simp [Links.bypass, hca]
    · intro c hc
      have hcb : c ≠ b := ne_of_mem_of_not_mem (List.mem_of_mem_tail hc) hb
      simp [Links.bypass, hcb]
  · exact ⟨by simp [Links.bypass], by simp [Links.bypass]⟩
  · apply chain_frame (List.isChain_cons_cons.1 hr).2
    · intro c hc
      have hca : c ≠ a := ne_of_mem_of_not_mem ((List.dropLast_sublist _).subset hc) ha'
      simp [Links.bypass, hca]
    · intro c hc
      have hcb : c ≠ b := ne_of_mem_of_not_mem hc hb'
      simp [Links.bypass, hcb]

end Links

end Cpsw.Lib
