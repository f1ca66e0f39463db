import Cpsw.BufHeap.Place

namespace Cpsw.BufHeap

open Cpsw.Lib

variable {maxcap : ℕ} {h : Heap} {c me p : ℕ} {u v : List ℕ}

/-- What `delFromChain` leaves of the chain `c` of a buffer. -/
def Heap.uncounted (h : Heap) (me : ℕ) (on head tail : Option ℕ) (c : ℕ) : CBufChain :=
  if on = some c then ⟨head, tail, (h.chain c).len - 1, (h.chain c).size - h.getSize me⟩
  else h.chain c

theorem uncounted_some {hd tl : Option ℕ} : h.uncounted me (some c) hd tl =
    Function.update h.chain c ⟨hd, tl, (h.chain c).len - 1, (h.chain c).size - h.getSize me⟩ := by
  funext d
  by_cases hd : d = c
  · subst hd
    simp [Heap.uncounted]
  · simp [Heap.uncounted, Ne.symm hd, Function.update_of_ne hd]

theorem delFromChain_off (hoff : h.chainOf me = none) : h.delFromChain me = h := by
  simp [Heap.delFromChain, hoff]

theorem delFromChain_on (hc : h.chainOf me = some c) : h.delFromChain me = { h with
    chainOf := Function.update h.chainOf me none
    chain := h.uncounted me (some c)
      (if (h.chain c).head = some me then h.links.next me else (h.chain c).head)
      (if (h.chain c).tail = some me then h.links.prev me else (h.chain c).tail) } := by
  rw [uncounted_some]
  by_cases hh : (h.chain c).head = some me <;> by_cases ht : (h.chain c).tail = some me <;>
    simp [Heap.delFromChain, hc, hh, ht, Heap.setChainOf, Heap.setHead, Heap.setTail, Heap.addLen,
      Heap.addSize, Heap.setChain, Heap.getSize, sub_eq_add_neg]

/-- A buffer that is taken from its chain, before its links are changed. -/
theorem Inv.delFromChain (hi : Inv maxcap h) (hw : h.links.Whole (u ++ me :: v)) :
    h.delFromChain me = { h with
      chainOf := Function.update h.chainOf me none
      chain := h.uncounted me (h.chainOf me) (u ++ v).head? (u ++ v).getLast? } := by
  cases hc : h.chainOf me with
  | none =>
    rw [delFromChain_off hc, ← hc, Function.update_eq_self, hc]
    rfl
  | some c =>
    have hch := hi.list_eq hc hw (by simp)
    have hhead : (if (h.chain c).head = some me then h.links.next me else (h.chain c).head) =
        (u ++ v).head? := by
      rw [hch.head, hw.next_eq]
      cases u with
      | nil => simp
      | cons x u =>
        have hne := (Links.first_of_nodup (w := u) rfl hch.nodup).2
        simp [Ne.symm hne]
    have htail : (if (h.chain c).tail = some me then h.links.prev me else (h.chain c).tail) =
        (u ++ v).getLast? := by
      rw [hch.tail, hw.prev_eq]
      cases v using List.reverseRecOn with
      | nil => simp
      | append_singleton v x =>
        obtain ⟨hlast, hne⟩ := Links.last_of_nodup rfl hch.nodup
        rw [hlast, if_neg (by simpa using hne.symm), ← List.append_assoc, List.getLast?_concat]
    rw [delFromChain_on hc, hhead, htail]

/-- The links without the buffer, which is linked to none. -/
def Heap.unlinked (h : Heap) (me : ℕ) : Links ℕ :=
  let l := h.links.unlink (h.links.prev me) (h.links.next me)
  ⟨Function.update l.next me none, Function.update l.prev me none⟩

/-- At an end of a list `unlink` writes the pointers that it should. -/
theorem unlinkNode_eq (hend : h.links.prev me = none ∨ h.links.next me = none)
    (hn : h.links.next me ≠ some me) (hp : h.links.prev me ≠ some me) :
    h.unlinkNode me = { h with links := h.unlinked me } := by
  have hself : ∀ f : ℕ → Option ℕ, f me = none → Function.update f me none = f := by
    intro f hf
    rw [← hf, Function.update_eq_self]
  cases hnext : h.links.next me with
  | none =>
    cases hprev : h.links.prev me with
    | none =>
      simp [Heap.unlinkNode, Heap.unlinked, Links.unlink, hnext, hprev, hself]
    | some p =>
      have hmp : p ≠ me := fun h ↦ hp (by rw [hprev, h])
      have hset : (fun y ↦ if some y = some p then (none : Option ℕ) else h.links.next y) =
          Function.update h.links.next p none := by
        funext y
        simp [Function.update_apply]
      have hnme : Function.update h.links.next p none me = none := by
        simp [Function.update_apply, hnext]
      have hprev' : (fun y ↦ if some y = (none : Option ℕ) then some p else h.links.prev y) =
          h.links.prev := by
        funext y
        simp
      simp only [Heap.unlinkNode, Heap.unlinked, Links.unlink, hnext, hprev, Heap.setNext,
        Heap.setPrev, hset, hprev', hself _ hnme]
  | some n =>
    have hprev : h.links.prev me = none := hend.resolve_right (by simp [hnext])
    have hnm : n ≠ me := fun h ↦ hn (by rw [hnext, h])
    have hset : (fun y ↦ if some y = some n then (none : Option ℕ) else h.links.prev y) =
        Function.update h.links.prev n none := by
      funext y
      simp [Function.update_apply]
    have hpme : Function.update h.links.prev n none me = none := by
      simp [Function.update_apply, hprev]
    have hnext' : (fun y ↦ if some y = (none : Option ℕ) then some n else h.links.next y) =
        h.links.next := by
      funext y
      simp
    simp only [Heap.unlinkNode, Heap.unlinked, Links.unlink, hnext, hprev, Heap.setNext,
      Heap.setPrev, hset, hnext', hpme, hself _ hpme]

/-- The heap without the buffer in its list and chain, wherever it was. -/
def Heap.removed (h : Heap) (me : ℕ) : Heap := { h.delFromChain me with links := h.unlinked me }

@[simp] theorem delFromChain_links : (h.delFromChain me).links = h.links := by
  cases hc : h.chainOf me with
  | none => rw [delFromChain_off hc]
  | some c => rw [delFromChain_on hc]

theorem not_mem_rest (hw : h.links.Whole (u ++ me :: v)) : me ∉ u ++ v :=
  (List.nodup_cons.1 (List.perm_middle.nodup_iff.1 hw.nodup)).1

section Removed

variable (hi : Inv maxcap h) (hw : h.links.Whole (u ++ me :: v))

/-- The list goes on without the buffer. -/
theorem removed_whole (hw : h.links.Whole (u ++ me :: v)) : (h.removed me).links.Whole (u ++ v) := by
  have hun := hw.unlink
  rw [← hw.next_eq, ← hw.prev_eq] at hun
  have hne {i : ℕ} (hx : i ∈ u ++ v) : i ≠ me := ne_of_mem_of_not_mem hx (not_mem_rest hw)
  exact hun.frame (fun i hx ↦ Function.update_of_ne (hne hx) _ _)
    (fun i hx ↦ Function.update_of_ne (hne hx) _ _)

include hi hw

theorem removed_chainIs (hc : h.chainOf me = some c) : ChainIs (h.removed me) c (u ++ v) := by
  have hold := hi.list_eq hc hw (by simp)
  have hrem : h.removed me = { h with
      links := h.unlinked me
      chainOf := Function.update h.chainOf me none
      chain := h.uncounted me (h.chainOf me) (u ++ v).head? (u ++ v).getLast? } := by
    rw [Heap.removed, hi.delFromChain hw]
  have hmem {i : ℕ} : i ∈ u ++ me :: v ↔ i = me ∨ i ∈ u ++ v := by
    simp only [List.mem_append, List.mem_cons]
    tauto
  refine ⟨removed_whole hw, fun i ↦ ?_, ?_, ?_, ?_, ?_⟩
  · rw [hrem]
    by_cases him : i = me
    · subst him
      simpa using not_mem_rest hw
    · dsimp only
      rw [Function.update_of_ne him, hold.mem, hmem, or_iff_right him]
  · rw [hrem]
    exact congrArg CBufChain.head (if_pos hc)
  · rw [hrem]
    exact congrArg CBufChain.tail (if_pos hc)
  · rw [hrem]
    refine (congrArg CBufChain.len (if_pos hc)).trans ?_
    dsimp only
    rw [hold.len, List.length_append, List.length_cons, List.length_append]
    omega
  · rw [hrem]
    refine (congrArg CBufChain.size (if_pos hc)).trans ?_
    change _ = ((u ++ v).map h.getSize).sum
    dsimp only
    rw [hold.size, List.map_append, List.map_append, List.map_cons, List.sum_append,
      List.sum_append, List.sum_cons]
    omega

theorem removed_inv (hlt : me < h.fresh) : Inv maxcap (h.removed me) := by
  obtain ⟨xs, hx, hwx, hsame⟩ := hi.listed me
  obtain rfl := hwx.unique hw hx (by simp)
  have hrem : h.removed me = { h with
      links := h.unlinked me
      chainOf := Function.update h.chainOf me none
      chain := h.uncounted me (h.chainOf me) (u ++ v).head? (u ++ v).getLast? } := by
    rw [Heap.removed, hi.delFromChain hw]
  have hmem {i : ℕ} : i ∈ u ++ me :: v ↔ i = me ∨ i ∈ u ++ v := by
    simp only [List.mem_append, List.mem_cons]
    tauto
  have hprev : ∀ i, some i = h.links.prev me → i ∈ u ++ v := by
    intro i hi'
    rw [hw.prev_eq] at hi'
    exact List.mem_append_left v (List.mem_of_getLast? hi'.symm)
  have hnext : ∀ i, some i = h.links.next me → i ∈ u ++ v := by
    intro i hi'
    rw [hw.next_eq] at hi'
    exact List.mem_append_right u (List.mem_of_head? hi'.symm)
  refine hi.relink (u ++ me :: v) ⟨?_, ?_, fun i hi' ↦ ?_, fun i hi' ↦ ?_, fun i hi' ↦ ?_,
    fun i hi' xs hxs hix j hj ↦ ?_, fun i hi' ↦ ?_, fun c ↦ ?_, fun i hi' ↦ ?_⟩
  · rw [hrem]
  · rw [hrem]
  · rw [hmem, not_or] at hi'
    exact (Function.update_of_ne hi'.1 _ _).trans (if_neg fun hp ↦ hi'.2 (hprev i hp))
  · rw [hmem, not_or] at hi'
    exact (Function.update_of_ne hi'.1 _ _).trans (if_neg fun hn ↦ hi'.2 (hnext i hn))
  · rw [hrem]
    exact Function.update_of_ne (fun h ↦ hi' (hmem.2 (.inl h))) _ _
  · rwa [← hxs.unique hw hix hi']
  · rcases hmem.1 hi' with rfl | hi'
    · refine ⟨[i], List.mem_singleton_self i, .singleton ?_ ?_, fun j hj ↦ ?_⟩
      · exact Function.update_self ..
      · exact Function.update_self ..
      · rw [List.mem_singleton.1 hj]
    · refine ⟨u ++ v, hi', removed_whole hw, fun j hj ↦ ?_⟩
      have hne {i : ℕ} (hx : i ∈ u ++ v) : i ≠ me := ne_of_mem_of_not_mem hx (not_mem_rest hw)
      rw [hrem]
      dsimp only
      rw [Function.update_of_ne (hne hj), Function.update_of_ne (hne hi'),
        hsame j (hmem.2 (.inr hj)), hsame i (hmem.2 (.inr hi'))]
  · by_cases hc : h.chainOf me = some c
    · exact .inr ⟨_, removed_chainIs hi hw hc⟩
    · left
      rw [hrem]
      refine ⟨fun i hi' ↦ ⟨by rwa [hsame i hi'], ?_⟩, if_neg hc⟩
      by_cases him : i = me
      · subst him
        simp
      · dsimp only
        rwa [Function.update_of_ne him, hsame i hi']
  · exact hi.lt_of_mem hw (by simp) hlt hi'

end Removed

/-- A buffer at an end of its list is taken out, and is on its own. -/
theorem Inv.unlink (hi : Inv maxcap h) (hlt : me < h.fresh)
    (hend : h.links.prev me = none ∨ h.links.next me = none) : Inv maxcap (h.unlink me) := by
  obtain ⟨u, v, hw, hsame⟩ := hi.around me
  have hmem := not_mem_rest hw
  have hn : h.links.next me ≠ some me := by
    rw [hw.next_eq]
    exact fun hv ↦ hmem (List.mem_append_right u (List.mem_of_head? hv))
  have hp : h.links.prev me ≠ some me := by
    rw [hw.prev_eq]
    exact fun hu ↦ hmem (List.mem_append_left v (List.mem_of_getLast? hu))
  have heq : h.unlink me = h.removed me := by
    have hlinks : (h.delFromChain me).links = h.links := delFromChain_links
    rw [Heap.unlink, unlinkNode_eq (by rwa [hlinks]) (by rwa [hlinks]) (by rwa [hlinks])]
    simp only [Heap.removed, Heap.unlinked, hlinks]
  rw [heq]
  exact removed_inv hi hw hlt

/-- Buffers that are on no chain are split in front of one. -/
theorem Inv.split (hi : Inv maxcap h) (hlt : me < h.fresh) : Inv maxcap (h.split me).1 := by
  unfold Heap.split
  split_ifs with hoff
  · exact hi
  · rw [not_not] at hoff
    obtain ⟨u, v, hw, hsame⟩ := hi.around me
    split
    · rename_i p hp
      rw [hw.prev_eq] at hp
      have hne : p ∈ u := List.mem_of_getLast? hp
      have hcut := @Links.Whole.cut _ _ ((h.setNext p none).setPrev me none).links _ _ hw
        (fun a _ ha ↦ Function.update_of_ne (by simpa [hp] using ha) _ _)
        (fun a _ ha ↦ Function.update_of_ne (by simpa using ha) _ _)
        (fun a ha ↦ by
          obtain rfl : a = p := by simpa [hp] using ha
          exact Function.update_self ..)
        (fun a ha ↦ by
          obtain rfl : a = me := by simpa using ha
          exact Function.update_self ..)
      refine hi.relink (u ++ me :: v) ⟨rfl, rfl, fun i hi' ↦ ?_, fun i hi' ↦ ?_,
        fun i hi' ↦ rfl, fun i hi' xs hxs hix j hj ↦ ?_, fun i hi' ↦ ?_, fun c ↦ .inl ⟨fun i hi' ↦ ?_, rfl⟩,
        fun i hi' ↦ ?_⟩
      · exact Function.update_of_ne (fun h ↦ hi' (by simp [h, hne])) _ _
      · exact Function.update_of_ne (fun h ↦ hi' (by simp [h])) _ _
      · rwa [← hxs.unique hw hix hi']
      · rcases List.mem_append.1 hi' with hu | hv
        · refine ⟨u, hu, hcut.1, fun j hj ↦ ?_⟩
          exact (hsame j (List.mem_append_left _ hj)).trans (hsame i hi').symm
        · refine ⟨me :: v, hv, hcut.2, fun j hj ↦ ?_⟩
          exact (hsame j (List.mem_append_right _ hj)).trans (hsame i hi').symm
      · have hi₀ : h.chainOf i ≠ some c := by simp [hsame i hi', hoff]
        exact ⟨hi₀, hi₀⟩
      · exact hi.lt_of_mem hw (by simp) hlt hi'
    · exact hi

end Cpsw.BufHeap
