import Cpsw.BufHeap.Invariant

namespace Cpsw.BufHeap

open Cpsw.Lib

variable {maxcap : ℕ} {h : Heap} {c me p : ℕ} {u v : List ℕ}

/-- The heap after `me` has been linked between `a` and `b` and put on their chain. -/
def Heap.placed (h : Heap) (me : ℕ) (a b on : Option ℕ) (chain : ℕ → CBufChain) : Heap :=
  { h with
    links := h.links.link a me b
    chainOf := Function.update h.chainOf me on
    chain := chain }

/-- The chain `on` counts one more buffer, and has the ends that it is told. -/
def Heap.counted (h : Heap) (me : ℕ) (on head tail : Option ℕ) (c : ℕ) : CBufChain :=
  if on = some c then ⟨head, tail, (h.chain c).len + 1, (h.chain c).size + h.getSize me⟩
  else h.chain c

theorem counted_none {hd tl : Option ℕ} : h.counted me none hd tl = h.chain := rfl

theorem counted_some {hd tl : Option ℕ} : h.counted me (some c) hd tl = Function.update h.chain c
    ⟨hd, tl, (h.chain c).len + 1, (h.chain c).size + h.getSize me⟩ := by
  funext d
  by_cases hd : d = c
  · subst hd
    simp [Heap.counted]
  · simp [Heap.counted, Ne.symm hd, Function.update_of_ne hd]

/-- A buffer that is on its own is put in a place of a list. -/
theorem Inv.placed (hi : Inv maxcap h) (hn : h.links.next me = none) (hp : h.links.prev me = none)
    (hoff : h.chainOf me = none) (hw : h.links.Whole (u ++ v)) (hme : me ∉ u ++ v)
    (hx : p ∈ u ++ v) (hsame : ∀ j ∈ u ++ v, h.chainOf j = h.chainOf p)
    (hlt : me < h.fresh) (hlt' : p < h.fresh) :
    Inv maxcap (h.placed me u.getLast? v.head? (h.chainOf p)
      (h.counted me (h.chainOf p) (u ++ me :: v).head? (u ++ me :: v).getLast?)) := by
  have hnew : (h.links.link u.getLast? me v.head?).Whole (u ++ me :: v) := hw.link hme
  have hmem {j : ℕ} : j ∈ u ++ me :: v ↔ j = me ∨ j ∈ u ++ v := by
    simp only [List.mem_append, List.mem_cons]
    tauto
  have hon : ∀ j ∈ u ++ me :: v,
      Function.update h.chainOf me (h.chainOf p) j = h.chainOf p := by
    intro j hj
    by_cases hjm : j = me
    · rw [hjm, Function.update_self]
    · rw [Function.update_of_ne hjm, hsame j ((hmem.1 hj).resolve_left hjm)]
  refine hi.relink (u ++ me :: v) ⟨rfl, rfl, fun i hi' ↦ ?_, fun i hi' ↦ ?_, fun i hi' ↦ ?_,
    fun i hi' xs hxs hix j hj ↦ ?_, fun i hi' ↦ ⟨_, hi', hnew, fun j hj ↦ ?_⟩, fun c ↦ ?_,
    fun i hi' ↦ ?_⟩
  · have him : i ≠ me := fun h ↦ hi' (hmem.2 (.inl h))
    have hil : some i ≠ u.getLast? := fun h ↦
      hi' (hmem.2 (.inr (List.mem_append_left v (List.mem_of_getLast? h.symm))))
    exact (if_neg him).trans (if_neg hil)
  · have him : i ≠ me := fun h ↦ hi' (hmem.2 (.inl h))
    have hif : some i ≠ v.head? := fun h ↦
      hi' (hmem.2 (.inr (List.mem_append_right u (List.mem_of_head? h.symm))))
    exact (if_neg him).trans (if_neg hif)
  · exact Function.update_of_ne (fun h ↦ hi' (hmem.2 (.inl h))) _ _
  · rcases hmem.1 hi' with rfl | hi'
    · rw [isolated hn hp hxs hix, List.mem_singleton] at hj
      exact hmem.2 (.inl hj)
    · rw [hxs.unique hw hix hi'] at hj
      exact hmem.2 (.inr hj)
  · exact (hon j hj).trans (hon i hi').symm
  · by_cases hc : h.chainOf p = some c
    · right
      have hold := hi.list_eq hc hw hx
      refine ⟨_, hnew, fun i ↦ ?_, ?_, ?_, ?_, ?_⟩
      · by_cases him : i = me
        · subst him
          simpa [Heap.placed] using hc
        · rw [hmem, or_iff_right him, ← hold.mem]
          simp [Heap.placed, Function.update_of_ne him]
      · exact congrArg CBufChain.head (if_pos hc)
      · exact congrArg CBufChain.tail (if_pos hc)
      · refine (congrArg CBufChain.len (if_pos hc)).trans ?_
        rw [hold.len]
        simp
        omega
      · refine (congrArg CBufChain.size (if_pos hc)).trans ?_
        change _ = ((u ++ me :: v).map h.getSize).sum
        rw [hold.size, List.map_append, List.map_append, List.map_cons, List.sum_append,
          List.sum_append, List.sum_cons]
        dsimp only
        omega
    · left
      refine ⟨fun i hi' ↦ ⟨?_, ?_⟩, if_neg hc⟩
      · rcases hmem.1 hi' with rfl | hi'
        · simp [hoff]
        · rwa [hsame i hi']
      · exact fun h ↦ hc ((hon i hi').symm.trans h)
  · rcases hmem.1 hi' with rfl | hi'
    · exact hlt
    · exact hi.lt_of_mem hw hx hlt' hi'

theorem addToChain_off (hoff : h.chainOf me = none) (hp : h.chainOf p = none) (b : Bool) :
    h.addToChain me p b = .ok h := by
  simp [Heap.addToChain, hoff, hp]

theorem addToChain_on (hoff : h.chainOf me = none) (hp : h.chainOf p = some c) (b : Bool) :
    h.addToChain me p b = .ok { h with
      chainOf := Function.update h.chainOf me (some c)
      chain := h.counted me (some c)
        (if b ∧ (h.chain c).head = some p then some me else (h.chain c).head)
        (if ¬b ∧ (h.chain c).tail = some p then some me else (h.chain c).tail) } := by
  rw [counted_some]
  cases b with
  | true =>
    by_cases hh : (h.chain c).head = some p <;>
      simp [Heap.addToChain, hoff, hp, hh, Heap.setChainOf, Heap.setHead, Heap.addLen, Heap.addSize,
        Heap.setChain, Heap.getSize]
  | false =>
    by_cases ht : (h.chain c).tail = some p <;>
      simp [Heap.addToChain, hoff, hp, ht, Heap.setChainOf, Heap.setTail, Heap.addLen, Heap.addSize,
        Heap.setChain, Heap.getSize]

/-- A field that is written at the new buffer and then at its neighbour, as `Links.link` has it. -/
theorem update_link {f : ℕ → Option ℕ} {a : Option ℕ} (hmp : p ≠ me) :
    Function.update (Function.update f me a) p (some me) =
      fun y ↦ if y = me then a else if some y = some p then some me else f y := by
  funext y
  by_cases hym : y = me
  · subst hym
    simp [Function.update_of_ne (Ne.symm hmp)]
  · simp [Function.update_apply, hym]

theorem update_eq {f : ℕ → Option ℕ} {a : Option ℕ} :
    Function.update f me a = fun y ↦ if y = me then a else f y :=
  funext fun y ↦ Function.update_apply f me a y

theorem linkAfter_eq (hmp : p ≠ me) (hn : h.links.next p ≠ some me) :
    h.linkAfter me p = { h with links := h.links.link (some p) me (h.links.next p) } := by
  have hnext : (((h.setPrev me (some p)).setNext me (h.links.next p)).setNext p (some me)).links.next
      me = h.links.next p := by
    simp [Heap.setNext, Function.update_of_ne (Ne.symm hmp)]
  have hkept : (h.setPrev me (some p)).links.next p = h.links.next p := rfl
  simp only [Heap.linkAfter]
  rw [hkept, hnext]
  cases hnp : h.links.next p with
  | none =>
    simp only [Heap.setNext, Heap.setPrev, Links.link, update_link hmp]
    simp [update_eq]
  | some n =>
    have hnm : n ≠ me := fun h ↦ hn (by rw [hnp, h])
    simp [Heap.setNext, Heap.setPrev, Links.link, update_link hmp, update_link hnm]

theorem linkBefore_eq (hmp : p ≠ me) (hn : h.links.prev p ≠ some me) :
    h.linkBefore me p = { h with links := h.links.link (h.links.prev p) me (some p) } := by
  have hprev : (((h.setNext me (some p)).setPrev me (h.links.prev p)).setPrev p (some me)).links.prev
      me = h.links.prev p := by
    simp [Heap.setPrev, Function.update_of_ne (Ne.symm hmp)]
  have hkept : (h.setNext me (some p)).links.prev p = h.links.prev p := rfl
  simp only [Heap.linkBefore]
  rw [hkept, hprev]
  cases hnp : h.links.prev p with
  | none =>
    simp only [Heap.setNext, Heap.setPrev, Links.link, update_link hmp]
    simp [update_eq]
  | some n =>
    have hnm : n ≠ me := fun h ↦ hn (by rw [hnp, h])
    simp [Heap.setNext, Heap.setPrev, Links.link, update_link hmp, update_link hnm]

section After

/-- The list of a buffer, around the buffer. -/
theorem Inv.around (hi : Inv maxcap h) (p : ℕ) : ∃ u v, h.links.Whole (u ++ p :: v) ∧
    ∀ j ∈ u ++ p :: v, h.chainOf j = h.chainOf p := by
  obtain ⟨xs, hx, hw, hsame⟩ := hi.listed p
  obtain ⟨u, v, rfl⟩ := List.append_of_mem hx
  exact ⟨u, v, hw, hsame⟩

theorem not_mem_of_isolated (hn : h.links.next me = none) (hp : h.links.prev me = none)
    {xs : List ℕ} (hw : h.links.Whole xs) (hx : p ∈ xs) (hmp : p ≠ me) : me ∉ xs := by
  intro hm
  rw [isolated hn hp hw hm, List.mem_singleton] at hx
  exact hmp hx

/-- `addToChain` for a buffer that goes behind `p`. -/
theorem Inv.addToChain_after (hi : Inv maxcap h) (hoff : h.chainOf me = none)
    (hw : h.links.Whole (u ++ p :: v)) : h.addToChain me p false = .ok { h with
      chainOf := Function.update h.chainOf me (h.chainOf p)
      chain := h.counted me (h.chainOf p) (u ++ p :: me :: v).head? (u ++ p :: me :: v).getLast? } := by
  cases hc : h.chainOf p with
  | none => rw [addToChain_off hoff hc, counted_none, ← hoff, Function.update_eq_self]
  | some c =>
    have hch := hi.list_eq hc hw (by simp)
    have hhead : (h.chain c).head = (u ++ p :: me :: v).head? := by
      rw [hch.head]
      cases u <;> rfl
    have htail : (if (h.chain c).tail = some p then some me else (h.chain c).tail) =
        (u ++ p :: me :: v).getLast? := by
      rw [hch.tail]
      cases v using List.reverseRecOn with
      | nil => simp
      | append_singleton v x =>
        obtain ⟨hlast, hne⟩ := Links.last_of_nodup rfl hch.nodup
        have hsplit : u ++ p :: me :: (v ++ [x]) = (u ++ p :: me :: v) ++ [x] := by simp
        rw [hlast, if_neg (by simpa using hne.symm), hsplit, List.getLast?_concat]
    rw [addToChain_on hoff hc]
    simp only [Bool.false_eq_true, false_and, not_false_eq_true, true_and, if_false, hhead, htail]

/-- `addToChain` for a buffer that goes in front of `p`. -/
theorem Inv.addToChain_before (hi : Inv maxcap h) (hoff : h.chainOf me = none)
    (hw : h.links.Whole (u ++ p :: v)) : h.addToChain me p true = .ok { h with
      chainOf := Function.update h.chainOf me (h.chainOf p)
      chain := h.counted me (h.chainOf p) (u ++ me :: p :: v).head? (u ++ me :: p :: v).getLast? } := by
  cases hc : h.chainOf p with
  | none => rw [addToChain_off hoff hc, counted_none, ← hoff, Function.update_eq_self]
  | some c =>
    have hch := hi.list_eq hc hw (by simp)
    have hhead : (if (h.chain c).head = some p then some me else (h.chain c).head) =
        (u ++ me :: p :: v).head? := by
      rw [hch.head]
      cases u with
      | nil => simp
      | cons x u =>
        have hne := (Links.first_of_nodup (w := u) rfl hch.nodup).2
        simp [Ne.symm hne]
    have htail : (h.chain c).tail = (u ++ me :: p :: v).getLast? := by
      rw [hch.tail]
      simp [List.getLast?_append, List.getLast?_cons]
    rw [addToChain_on hoff hc]
    simp only [not_true_eq_false, false_and, true_and, if_false, hhead, htail]

/-- A buffer that is linked to none and on no chain goes behind `p`. -/
theorem Inv.after_eq (hi : Inv maxcap h) (hn : h.links.next me = none) (hp : h.links.prev me = none)
    (hoff : h.chainOf me = none) (hw : h.links.Whole (u ++ p :: v)) (hmp : p ≠ me) :
    h.after me (some p) = (h.placed me (some p) v.head? (h.chainOf p)
      (h.counted me (h.chainOf p) (u ++ p :: me :: v).head? (u ++ p :: me :: v).getLast?), none) := by
  have hme := not_mem_of_isolated hn hp hw (by simp) hmp
  have hnext : h.links.next p = v.head? := hw.next_eq
  have hself : h.links.next p ≠ some me := by
    rw [hnext]
    exact fun hv ↦ hme (by simp [List.mem_of_head? hv])
  simp only [Heap.after, if_neg hmp, hn, hp, ne_eq, not_true_eq_false, or_self, if_false,
    hi.addToChain_after hoff hw]
  rw [linkAfter_eq hmp (by exact hself)]
  simp only [hnext, Heap.placed]

/-- A buffer on its own is put behind or in front of another one, or the operation throws. -/
theorem Inv.after (hi : Inv maxcap h) (hlt : me < h.fresh) {q : Option ℕ}
    (hlt' : ∀ p, q = some p → p < h.fresh) : Inv maxcap (h.after me q).1 := by
  cases q with
  | none => exact hi
  | some p =>
    by_cases hmp : p = me
    · simpa [Heap.after, hmp] using hi
    by_cases hempty : h.links.next me ≠ none ∨ h.links.prev me ≠ none
    · simpa only [Heap.after, if_neg hmp, if_pos hempty] using hi
    rw [not_or, not_not, not_not] at hempty
    obtain ⟨hn, hp⟩ := hempty
    cases hoff : h.chainOf me with
    | some c => simpa [Heap.after, hmp, hn, hp, Heap.addToChain, hoff] using hi
    | none =>
      obtain ⟨u, v, hw, hsame⟩ := hi.around p
      have hme := not_mem_of_isolated hn hp hw (by simp) hmp
      have hsplit : u ++ p :: v = (u ++ [p]) ++ v := by simp
      have hsplit' : u ++ p :: me :: v = (u ++ [p]) ++ me :: v := by simp
      rw [hi.after_eq hn hp hoff hw hmp, hsplit']
      rw [hsplit] at hw hsame hme
      have hplaced := hi.placed hn hp hoff hw hme (p := p) (by simp) hsame hlt (hlt' p rfl)
      rwa [List.getLast?_concat] at hplaced

theorem Inv.before (hi : Inv maxcap h) (hlt : me < h.fresh) {q : Option ℕ}
    (hlt' : ∀ p, q = some p → p < h.fresh) : Inv maxcap (h.before me q).1 := by
  unfold Heap.before
  split
  · exact hi
  · rename_i p
    split_ifs with hmp hempty
    · exact hi
    · exact hi
    · rw [not_or, not_not, not_not] at hempty
      obtain ⟨hn, hp⟩ := hempty
      cases hoff : h.chainOf me with
      | some c =>
        simp [Heap.addToChain, hoff]
        exact hi
      | none =>
        obtain ⟨u, v, hw, hsame⟩ := hi.around p
        have hme := not_mem_of_isolated hn hp hw (by simp) hmp
        have hprev : h.links.prev p = u.getLast? := hw.prev_eq
        rw [hi.addToChain_before hoff hw]
        dsimp only
        rw [linkBefore_eq hmp]
        · have hplaced := hi.placed hn hp hoff hw hme (p := p) (by simp) hsame hlt (hlt' p rfl)
          rw [List.head?_cons, ← hprev] at hplaced
          exact hplaced
        · change h.links.prev p ≠ some me
          rw [hprev]
          exact fun hu ↦ hme (by simp [List.mem_of_getLast? hu])

end After

end Cpsw.BufHeap
