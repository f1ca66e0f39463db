import Cpsw.BufHeap.Mutate

namespace Cpsw.BufHeap

open Cpsw.Lib

variable {maxcap c k me n : ℕ} {h : Heap} {xs u v : List ℕ}

@[simp] theorem delFromChain_buf : (h.delFromChain me).buf = h.buf := by
  cases hc : h.chainOf me with
  | none => rw [delFromChain_off hc]
  | some c => rw [delFromChain_on hc]

@[simp] theorem delFromChain_fresh : (h.delFromChain me).fresh = h.fresh := by
  cases hc : h.chainOf me with
  | none => rw [delFromChain_off hc]
  | some c => rw [delFromChain_on hc]

/-- Only the link of the buffer itself, and of no other one, is looked at. -/
theorem delFromChain_setNext (hkm : k ≠ me) {q : Option ℕ} :
    (h.setNext k q).delFromChain me = (h.delFromChain me).setNext k q := by
  have hnext : (h.setNext k q).links.next me = h.links.next me :=
    Function.update_of_ne (Ne.symm hkm) _ _
  cases hc : h.chainOf me with
  | none =>
    rw [delFromChain_off hc, delFromChain_off]
    exact hc
  | some c =>
    rw [delFromChain_on hc, delFromChain_on (show (h.setNext k q).chainOf me = some c from hc), hnext]
    rfl

/-- `unlink` forgets what comes behind the buffer, whatever the link in front of it was. -/
theorem unlinkNode_behind (hprev : h.links.prev me = some k) (hkm : k ≠ me)
    (hn : h.links.next me ≠ some me) :
    h.unlinkNode me = ({ h with links := h.unlinked me }).setNext k none := by
  have hnone : ∀ f : ℕ → Option ℕ, (fun y ↦ if some y = (none : Option ℕ) then some k else f y) = f := by
    intro f
    funext y
    simp
  cases hnext : h.links.next me with
  | none =>
    simp only [Heap.unlinkNode, Heap.unlinked, Links.unlink, hnext, hprev, Heap.setNext, Heap.setPrev,
      hnone]
    congr 2
    funext y
    by_cases hyk : y = k
    · simp [hyk]
    · by_cases hym : y = me
      · simp [hym, Ne.symm hkm, hnext]
      · simp [hyk, hym]
  | some n =>
    have hnm : n ≠ me := fun h ↦ hn (by rw [hnext, h])
    have hset : (fun y ↦ if some y = some n then some k else h.links.prev y) =
        Function.update h.links.prev n (some k) := by
      funext y
      simp [Function.update_apply]
    have hpme : Function.update h.links.prev n (some k) me = some k := by
      rw [Function.update_of_ne (Ne.symm hnm), hprev]
    simp only [Heap.unlinkNode, Heap.unlinked, Links.unlink, hnext, hprev, Heap.setNext, Heap.setPrev,
      hset, hpme, Function.update_self]
    congr 2
    funext y
    by_cases hyk : y = k
    · simp [hyk]
    · by_cases hym : y = me
      · simp [hym, Function.update_of_ne (Ne.symm hkm)]
      · simp [hyk, hym]

/-- The same with the link in front of the buffer already cleared. -/
theorem unlinkNode_cleared (hprev : h.links.prev me = some k) (hkm : k ≠ me)
    (hn : h.links.next me ≠ some me) : (h.setNext k none).unlinkNode me = h.unlinkNode me := by
  have hnext : Function.update h.links.next k none me = h.links.next me :=
    Function.update_of_ne (Ne.symm hkm) _ _
  have hnext' : (h.setNext k none).links.next me ≠ some me := fun hm ↦ hn (hnext.symm.trans hm)
  rw [unlinkNode_behind (by exact hprev) hkm hnext', unlinkNode_behind hprev hkm hn]
  simp only [Heap.setNext, Heap.unlinked, Links.unlink, hnext]
  congr 2
  funext y
  by_cases hyk : y = k
  · simp [hyk]
  · by_cases hym : y = me
    · simp [hym, Function.update_of_ne (Ne.symm hkm)]
    · simp [hyk, hym]

/-- The buffer behind `k` is unlinked: the chain is as it should be, but for the link of `k`. -/
theorem Inv.unlink_behind {x : ℕ} (hi : Inv maxcap h) (hc : ChainIs h c (u ++ k :: x :: v)) :
    h.unlink x = (h.removed x).setNext k none ∧
      (h.setNext k none).unlink x = (h.removed x).setNext k none ∧
      h.links.next x = v.head? ∧ (h.setNext k none).links.next x = v.head? ∧
      Inv maxcap (h.removed x) ∧ ChainIs (h.removed x) c (u ++ k :: v) := by
  have hw : h.links.Whole ((u ++ [k]) ++ x :: v) := by simpa using hc.whole
  have hx := not_mem_rest hw
  have hkx : k ≠ x := by
    rintro rfl
    exact hx (by simp)
  have hprev : h.links.prev x = some k := by rw [hw.prev_eq, List.getLast?_concat]
  have hnext : h.links.next x = v.head? := hw.next_eq
  have hself : h.links.next x ≠ some x := by
    rw [hnext]
    exact fun hv ↦ hx (by simp [List.mem_of_head? hv])
  have hxc : h.chainOf x = some c := (hc.mem x).2 (by simp)
  have hstep : (h.delFromChain x).unlinkNode x = (h.removed x).setNext k none := by
    rw [unlinkNode_behind (by simpa using hprev) hkx (by simpa using hself)]
    simp only [Heap.removed, Heap.unlinked, delFromChain_links]
  refine ⟨hstep, ?_, hnext, (Function.update_of_ne (Ne.symm hkx) _ _).trans hnext,
    removed_inv hi hw (hi.lt_of_chainOf hxc), by simpa using removed_chainIs hi hw hxc⟩
  rw [Heap.unlink, delFromChain_setNext hkx, unlinkNode_cleared (by simpa using hprev) hkx
    (by simpa using hself), hstep]

/-- The rest of the chain behind `k` is dropped once the link of `k` is cleared. -/
theorem Inv.dropRest_cleared (hi : Inv maxcap h) (hc : ChainIs h c (u ++ k :: v)) (hn : v.length ≤ n) :
    ∃ h', (h.setNext k none).dropRest n v.head? = h' ∧ Inv maxcap h' ∧ ChainIs h' c (u ++ [k]) ∧
      h'.buf = h.buf ∧ h'.fresh = h.fresh := by
  induction v generalizing h n with
  | nil =>
    have hnext : h.links.next k = none := hc.whole.next_eq
    have hself : h.setNext k none = h := by
      simp only [Heap.setNext, ← hnext, Function.update_eq_self]
    refine ⟨h, ?_, hi, hc, rfl, rfl⟩
    rw [hself]
    cases n <;> rfl
  | cons x v ih =>
    cases n with
    | zero => simp at hn
    | succ n =>
      obtain ⟨-, hstep, -, hnext, hi', hc'⟩ := hi.unlink_behind hc
      rw [List.head?_cons, Heap.dropRest, hstep, hnext]
      obtain ⟨h', heq, hinv, hchain, hbuf, hfresh⟩ := ih hi' hc' (by simpa using hn)
      exact ⟨h', heq, hinv, hchain, hbuf.trans delFromChain_buf, hfresh.trans delFromChain_fresh⟩

/-- The rest of a chain is dropped from behind one of its buffers. -/
theorem Inv.dropRest (hi : Inv maxcap h) (hc : ChainIs h c (u ++ k :: v)) (hn : v.length ≤ n) :
    ∃ h', h.dropRest n v.head? = h' ∧ Inv maxcap h' ∧ ChainIs h' c (u ++ [k]) ∧ h'.buf = h.buf ∧
      h'.fresh = h.fresh := by
  cases v with
  | nil =>
    refine ⟨h, ?_, hi, hc, rfl, rfl⟩
    cases n <;> rfl
  | cons x v =>
    cases n with
    | zero => simp at hn
    | succ n =>
      obtain ⟨hstep, -, hnext, -, hi', hc'⟩ := hi.unlink_behind hc
      rw [List.head?_cons, Heap.dropRest, hstep, hnext]
      obtain ⟨h', heq, hinv, hchain, hbuf, hfresh⟩ := hi'.dropRest_cleared hc' (by simpa using hn)
      exact ⟨h', heq, hinv, hchain, hbuf.trans delFromChain_buf, hfresh.trans delFromChain_fresh⟩

end Cpsw.BufHeap
