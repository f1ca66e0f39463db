import Cpsw.Lib.Links
import Mathlib.Tactic.Common

namespace Cpsw.Async

open Cpsw.Lib

/-- A pointer to one of the two anchors of the list or to a transaction object. -/
inductive NodePtr
  | head
  | tail
  | xact (i : ℕ)
  deriving DecidableEq, Repr

/-- `CAsyncIOTransactionNode`; the anchors and a new transaction have null pointers. -/
structure Node (α : Type) where
  next : Option NodePtr := none
  prev : Option NodePtr := none
  tid : UInt32 := 0
  timeout : ℕ := 0
  aio : Option α := none

/-- The nodes by their addresses. -/
abbrev Heap (α : Type) := NodePtr → Node α

namespace Heap

variable {α : Type}

def setNext (h : Heap α) (p : NodePtr) (q : Option NodePtr) : Heap α :=
  Function.update h p { h p with next := q }

def setPrev (h : Heap α) (p : NodePtr) (q : Option NodePtr) : Heap α :=
  Function.update h p { h p with prev := q }

def setTid (h : Heap α) (p : NodePtr) (tid : UInt32) : Heap α :=
  Function.update h p { h p with tid := tid }

def setAio (h : Heap α) (p : NodePtr) (aio : Option α) : Heap α :=
  Function.update h p { h p with aio := aio }

/-- `none` stands for a null pointer that is followed, here and below. -/
def addAfter (h : Heap α) (me node : NodePtr) : Option (Heap α) := do
  let h := h.setNext me (h node).next
  let nodeNext ← (h node).next
  let h := h.setPrev nodeNext (some me)
  let h := h.setNext node (some me)
  return h.setPrev me (some node)

def addBefore (h : Heap α) (me node : NodePtr) : Option (Heap α) := do
  let nodePrev ← (h node).prev
  let h := h.setPrev me (some nodePrev)
  let h := h.setNext nodePrev (some me)
  let h := h.setPrev node (some me)
  return h.setNext me (some node)

/-- The removed node keeps its own, now stale, pointers. -/
def remove (h : Heap α) (me : NodePtr) : Option (Heap α) := do
  let prev ← (h me).prev
  let next ← (h me).next
  let h := h.setPrev next (some prev)
  return h.setNext prev (h me).next

/-- The pointers of all nodes, without what the nodes carry. -/
def links (h : Heap α) : Links NodePtr where
  next p := (h p).next
  prev p := (h p).prev

/-- Two heaps whose nodes carry the same and may be linked otherwise. -/
structure Relinked (h h' : Heap α) : Prop where
  tid : ∀ p, (h' p).tid = (h p).tid
  timeout : ∀ p, (h' p).timeout = (h p).timeout
  aio : ∀ p, (h' p).aio = (h p).aio

variable {h h' h'' : Heap α} {xs ys : List NodePtr} {me a b p : NodePtr} {q : Option NodePtr}

theorem Relinked.trans (h₁ : Relinked h h') (h₂ : Relinked h' h'') : Relinked h h'' :=
  ⟨fun p ↦ (h₂.tid p).trans (h₁.tid p), fun p ↦ (h₂.timeout p).trans (h₁.timeout p),
    fun p ↦ (h₂.aio p).trans (h₁.aio p)⟩

theorem relinked_setNext : Relinked h (h.setNext p q) := by
  constructor <;> intro r <;> by_cases hr : r = p <;> simp [setNext, hr]

theorem relinked_setPrev : Relinked h (h.setPrev p q) := by
  constructor <;> intro r <;> by_cases hr : r = p <;> simp [setPrev, hr]

@[simp] theorem links_setNext :
    (h.setNext p q).links = { h.links with next := Function.update h.links.next p q } := by
  unfold links setNext
  congr 1
  · funext r
    by_cases hr : r = p <;> simp [hr]
  · funext r
    by_cases hr : r = p <;> simp [hr]

@[simp] theorem links_setPrev :
    (h.setPrev p q).links = { h.links with prev := Function.update h.links.prev p q } := by
  unfold links setPrev
  congr 1
  · funext r
    by_cases hr : r = p <;> simp [hr]
  · funext r
    by_cases hr : r = p <;> simp [hr]

@[simp] theorem links_setTid {tid : UInt32} : (h.setTid p tid).links = h.links := by
  unfold links setTid
  congr 1 <;> funext r <;> by_cases hr : r = p <;> simp [hr]

@[simp] theorem links_setAio {aio : Option α} : (h.setAio p aio).links = h.links := by
  unfold links setAio
  congr 1 <;> funext r <;> by_cases hr : r = p <;> simp [hr]

theorem addBefore_linked (hl : h.links.Linked (xs ++ a :: b :: ys))
    (hm : me ∉ xs ++ a :: b :: ys) :
    ∃ h', h.addBefore me b = some h' ∧ h'.links.Linked (xs ++ a :: me :: b :: ys) ∧
      Relinked h h' := by
  have hb : (h b).prev = some a := hl.adj.2
  refine ⟨_, by simp only [addBefore, hb]; rfl, ?_, ?_⟩
  · simp only [links_setNext, links_setPrev]
    exact hl.insert hm
  · exact ((relinked_setPrev.trans relinked_setNext).trans relinked_setPrev).trans relinked_setNext

theorem remove_between (hl : h.links.Linked (xs ++ a :: me :: b :: ys)) :
    ∃ h', h.remove me = some h' ∧ h'.links.Linked (xs ++ a :: b :: ys) ∧ Relinked h h' := by
  have hp : (h me).prev = some a := hl.adj.2
  have hl' : h.links.Linked ((xs ++ [a]) ++ me :: b :: ys) := by simpa using hl
  have hn : (h me).next = some b := hl'.adj.1
  have hn' : (h.setPrev b (some a) me).next = some b := by
    by_cases he : me = b <;> simp [setPrev, he, ← hn]
  refine ⟨_, by simp only [remove, hp, hn]; rfl, ?_, ?_⟩
  · rw [hn']
    simp only [links_setNext, links_setPrev]
    exact hl.bypass
  · exact relinked_setPrev.trans relinked_setNext

/-- Any node but the first and the last comes out of the list. -/
theorem remove_linked (hl : h.links.Linked (xs ++ me :: ys)) (hx : xs ≠ []) (hy : ys ≠ []) :
    ∃ h', h.remove me = some h' ∧ h'.links.Linked (xs ++ ys) ∧ Relinked h h' := by
  obtain ⟨xs, a, rfl⟩ := (List.eq_nil_or_concat xs).resolve_left hx
  cases ys with
  | nil => exact absurd rfl hy
  | cons b ys =>
    have hl' : h.links.Linked (xs ++ a :: me :: b :: ys) := by simpa using hl
    obtain ⟨h', hr, hl', hs⟩ := remove_between hl'
    exact ⟨h', hr, by simpa using hl', hs⟩

end Heap

end Cpsw.Async
