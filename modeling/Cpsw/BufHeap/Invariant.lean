import Cpsw.BufHeap.Heap
import Mathlib.Algebra.BigOperators.Group.List.Basic

namespace Cpsw.BufHeap

open Cpsw.Lib

/-- The chain `c` holds the buffers `xs`, and counts them and their bytes. -/
structure ChainIs (h : Heap) (c : ℕ) (xs : List ℕ) : Prop where
  whole : h.links.Whole xs
  mem : ∀ i, h.chainOf i = some c ↔ i ∈ xs
  head : (h.chain c).head = xs.head?
  tail : (h.chain c).tail = xs.getLast?
  len : (h.chain c).len = xs.length
  size : (h.chain c).size = (xs.map h.getSize).sum

/-- Every chain holds a list of buffers, and every buffer is in a list with those that are on the
same chain as it is. Buffers on the free list are on their own. -/
structure Inv (maxcap : ℕ) (h : Heap) : Prop where
  chains : ∀ c, ∃ xs, ChainIs h c xs
  listed : ∀ i, ∃ xs, i ∈ xs ∧ h.links.Whole xs ∧ ∀ j ∈ xs, h.chainOf j = h.chainOf i
  ok : ∀ i, (h.buf i).Ok ∧ (h.buf i).getCapacity = maxcap
  free : ∀ i, h.fresh ≤ i →
    h.links.next i = none ∧ h.links.prev i = none ∧ h.chainOf i = none

variable {maxcap : ℕ} {h h' : Heap} {c me i : ℕ} {xs ys : List ℕ}

namespace ChainIs

theorem nodup (hc : ChainIs h c xs) : xs.Nodup := hc.whole.nodup

/-- A chain whose buffers and counts are as before is as before. -/
theorem frame (hc : ChainIs h c xs) (hn : ∀ i ∈ xs, h'.links.next i = h.links.next i)
    (hp : ∀ i ∈ xs, h'.links.prev i = h.links.prev i)
    (hm : ∀ i, h'.chainOf i = some c ↔ h.chainOf i = some c) (hch : h'.chain c = h.chain c)
    (hb : ∀ i ∈ xs, h'.buf i = h.buf i) : ChainIs h' c xs := by
  have hsize : xs.map h'.getSize = xs.map h.getSize :=
    List.map_congr_left fun i hi ↦ by simp only [Heap.getSize, hb i hi]
  exact ⟨hc.whole.frame hn hp, fun i ↦ (hm i).trans (hc.mem i), hch ▸ hc.head, hch ▸ hc.tail,
    hch ▸ hc.len, by rw [hch, hc.size, hsize]⟩

end ChainIs

/-- What an operation may do to a heap: the buffers `aff`, which make up whole lists, are linked
anew, each in a list of its chain, and the chains that change hold lists again. -/
structure Relink (h h' : Heap) (aff : List ℕ) : Prop where
  buf : h'.buf = h.buf
  fresh : h'.fresh = h.fresh
  next : ∀ i, i ∉ aff → h'.links.next i = h.links.next i
  prev : ∀ i, i ∉ aff → h'.links.prev i = h.links.prev i
  chainOf : ∀ i, i ∉ aff → h'.chainOf i = h.chainOf i
  closed : ∀ i ∈ aff, ∀ xs, h.links.Whole xs → i ∈ xs → ∀ j ∈ xs, j ∈ aff
  listed : ∀ i ∈ aff, ∃ xs, i ∈ xs ∧ h'.links.Whole xs ∧ ∀ j ∈ xs, h'.chainOf j = h'.chainOf i
  chains : ∀ c, (∀ i ∈ aff, h.chainOf i ≠ some c ∧ h'.chainOf i ≠ some c) ∧
    h'.chain c = h.chain c ∨ ∃ xs, ChainIs h' c xs
  used : ∀ i ∈ aff, i < h.fresh

/-- A buffer that is linked to none is a list by itself. -/
theorem isolated (hn : h.links.next i = none) (hp : h.links.prev i = none)
    (hw : h.links.Whole xs) (hx : i ∈ xs) : xs = [i] :=
  hw.unique (.singleton hn hp) hx (List.mem_singleton_self i)

namespace Inv

theorem relink (hi : Inv maxcap h) (aff : List ℕ) (hr : Relink h h' aff) : Inv maxcap h' := by
  have hout {i : ℕ} {xs : List ℕ} (hw : h.links.Whole xs) (hx : i ∈ xs) (ha : i ∉ aff) :
      ∀ j ∈ xs, j ∉ aff := fun j hj hja ↦ ha (hr.closed j hja xs hw hj i hx)
  refine ⟨fun c ↦ ?_, fun i ↦ ?_, fun i ↦ ?_, fun i hf ↦ ?_⟩
  · rcases hr.chains c with ⟨hnone, hch⟩ | hx
    · obtain ⟨xs, hc⟩ := hi.chains c
      have hxs : ∀ j ∈ xs, j ∉ aff := fun j hj hja ↦ (hnone j hja).1 ((hc.mem j).2 hj)
      refine ⟨xs, hc.frame (fun j hj ↦ hr.next j (hxs j hj)) (fun j hj ↦ hr.prev j (hxs j hj))
        (fun j ↦ ?_) hch (fun j _ ↦ by rw [hr.buf])⟩
      by_cases hja : j ∈ aff
      · exact iff_of_false (hnone j hja).2 (hnone j hja).1
      · rw [hr.chainOf j hja]
    · exact hx
  · by_cases hia : i ∈ aff
    · exact hr.listed i hia
    · obtain ⟨xs, hx, hw, hsame⟩ := hi.listed i
      have hxs := hout hw hx hia
      refine ⟨xs, hx, hw.frame (fun j hj ↦ hr.next j (hxs j hj)) (fun j hj ↦ hr.prev j (hxs j hj)),
        fun j hj ↦ ?_⟩
      rw [hr.chainOf j (hxs j hj), hr.chainOf i hia, hsame j hj]
  · rw [hr.buf]
    exact hi.ok i
  · rw [hr.fresh] at hf
    have hia : i ∉ aff := fun ha ↦ absurd (hr.used i ha) (by omega)
    rw [hr.next i hia, hr.prev i hia, hr.chainOf i hia]
    exact hi.free i hf

/-- The buffer's list is the one that its chain holds. -/
theorem list_eq (hi : Inv maxcap h) (hc : h.chainOf i = some c) (hw : h.links.Whole xs)
    (hx : i ∈ xs) : ChainIs h c xs := by
  obtain ⟨ys, hys⟩ := hi.chains c
  rwa [← hys.whole.unique hw ((hys.mem i).1 hc) hx]

/-- A buffer on the free list is in no list with others. -/
theorem lt_of_mem (hi : Inv maxcap h) (hw : h.links.Whole xs) {j : ℕ} (hj : j ∈ xs)
    (hlt : j < h.fresh) (hx : i ∈ xs) : i < h.fresh := by
  by_contra hge
  obtain ⟨hn, hp, -⟩ := hi.free i (by omega)
  rw [isolated hn hp hw hx, List.mem_singleton] at hj
  omega

theorem getSize_eq (hi : Inv maxcap h) (i : ℕ) : h.getSize i = ((h.buf i).getSize : ℤ) := by
  have hle := (hi.ok i).1.le
  simp only [Heap.getSize, Buf.getSize]
  omega

/-- Sizes are small, so the count of bytes is right. -/
theorem oldSize_eq (hi : Inv maxcap h) (i : ℕ) : h.oldSize i = h.getSize i := by
  obtain ⟨hok, -⟩ := hi.ok i
  have h₁ := hok.le
  have h₂ := hok.fits
  have h₃ := hok.capa
  simp only [Heap.oldSize, Heap.getSize]
  omega

end Inv

/-- The size of one buffer changes. -/
theorem sum_update {f g : ℕ → ℤ} {j : ℕ} (hnd : xs.Nodup) (hj : j ∈ xs) (hg : ∀ i, i ≠ j → g i = f i) :
    (xs.map g).sum = (xs.map f).sum + (g j - f j) := by
  induction xs with
  | nil => cases hj
  | cons x xs ih =>
    rw [List.nodup_cons] at hnd
    simp only [List.map_cons, List.sum_cons]
    rcases List.mem_cons.1 hj with rfl | hj
    · have hrest : xs.map g = xs.map f :=
        List.map_congr_left fun i hi ↦ hg i (ne_of_mem_of_not_mem hi hnd.1)
      rw [hrest]
      omega
    · rw [ih hnd.2 hj, hg x (ne_of_mem_of_not_mem hj hnd.1).symm]
      omega

section Resize

variable {b : Buf} {old : ℤ}

@[simp] theorem resize_links : (h.resize me b old).links = h.links := by
  unfold Heap.resize
  split <;> rfl

@[simp] theorem resize_chainOf : (h.resize me b old).chainOf = h.chainOf := by
  unfold Heap.resize
  split <;> rfl

@[simp] theorem resize_buf : (h.resize me b old).buf = Function.update h.buf me b := by
  unfold Heap.resize
  split <;> rfl

@[simp] theorem resize_fresh : (h.resize me b old).fresh = h.fresh := by
  unfold Heap.resize
  split <;> rfl

theorem resize_chain : (h.resize me b old).chain c =
    if h.chainOf me = some c then
      { h.chain c with size := (h.chain c).size + ((b.fin : ℤ) - b.beg - old) }
    else h.chain c := by
  unfold Heap.resize
  cases h.chainOf me with
  | none => simp [Heap.setBuf]
  | some d =>
    by_cases hcd : c = d
    · subst hcd
      simp [Heap.setBuf, Heap.addSize, Heap.setChain, Heap.getSize]
    · simp [Heap.setBuf, Heap.addSize, Heap.setChain, Ne.symm hcd, Function.update_of_ne hcd]

/-- A buffer changes its size, and tells its chain. -/
theorem ChainIs.resize (hc : ChainIs h c xs) : ChainIs (h.resize me b (h.getSize me)) c xs := by
  refine ⟨?_, ?_, ?_, ?_, ?_, ?_⟩
  · rw [resize_links]
    exact hc.whole
  · rw [resize_chainOf]
    exact hc.mem
  · rw [resize_chain, ← hc.head]
    split_ifs <;> rfl
  · rw [resize_chain, ← hc.tail]
    split_ifs <;> rfl
  · rw [resize_chain, ← hc.len]
    split_ifs <;> rfl
  · have hother : ∀ i, i ≠ me → (h.resize me b (h.getSize me)).getSize i = h.getSize i := by
      intro i hi
      simp [Heap.getSize, Function.update_of_ne hi]
    rw [resize_chain]
    split_ifs with hme
    · have hmem := (hc.mem me).1 hme
      rw [sum_update hc.nodup hmem hother, ← hc.size]
      simp [Heap.getSize]
    · have hmem : me ∉ xs := fun hm ↦ hme ((hc.mem me).2 hm)
      rw [hc.size, List.map_congr_left fun i hi ↦ hother i (ne_of_mem_of_not_mem hi hmem)]

theorem Inv.resize (hi : Inv maxcap h) (hb : b.Ok) (hcap : b.getCapacity = maxcap) :
    Inv maxcap (h.resize me b (h.getSize me)) := by
  refine ⟨fun c ↦ ?_, fun i ↦ ?_, fun i ↦ ?_, fun i hf ↦ ?_⟩
  · obtain ⟨xs, hc⟩ := hi.chains c
    exact ⟨xs, hc.resize⟩
  · simpa using hi.listed i
  · rw [resize_buf]
    by_cases him : i = me
    · subst him
      simp [hb, hcap]
    · rw [Function.update_of_ne him]
      exact hi.ok i
  · rw [resize_fresh] at hf
    simpa using hi.free i hf

end Resize

end Cpsw.BufHeap
