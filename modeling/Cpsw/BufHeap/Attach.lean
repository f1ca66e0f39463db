import Cpsw.BufHeap.Unlink

namespace Cpsw.BufHeap

open Cpsw.Lib

variable {maxcap : ℕ} {h : Heap} {c me p : ℕ} {u v xs : List ℕ}

/-- The heap in which the buffers `xs` are marked as being on the chain `c`. -/
def Heap.marked (h : Heap) (c : ℕ) (xs : List ℕ) : Heap :=
  { h with chainOf := fun i ↦ if i ∈ xs then some c else h.chainOf i }

theorem marked_nil : h.marked c [] = h := by simp [Heap.marked]

theorem marked_cons {x : ℕ} : (h.setChainOf x (some c)).marked c xs = h.marked c (x :: xs) := by
  have hfun : (fun i ↦ if i ∈ xs then some c else (h.setChainOf x (some c)).chainOf i) =
      fun i ↦ if i ∈ x :: xs then some c else h.chainOf i := by
    funext i
    by_cases hix : i = x
    · subst hix
      simp [Heap.setChainOf]
    · simp [Heap.setChainOf, hix]
  simp only [Heap.marked, hfun]
  rfl

/-- A loop of `addToChain(c)` goes over the buffers in its direction. -/
theorem claim_eq {step : ℕ → Option ℕ} {n t : ℕ} {s l : ℤ} (hn : xs.length ≤ n)
    (hstep : ∀ {u v : List ℕ} {a : ℕ}, xs = u ++ a :: v → step a = v.head?) (hnd : xs.Nodup)
    (hoff : ∀ i ∈ xs, h.chainOf i = none) :
    Heap.claim c step n xs.head? (h, t, s, l) = .ok
      (h.marked c xs, xs.getLast?.getD t, s + (xs.map h.getSize).sum, l + xs.length) := by
  induction xs generalizing h n t s l with
  | nil =>
    rw [marked_nil]
    cases n <;> simp [Heap.claim]
  | cons x xs ih =>
    cases n with
    | zero => simp at hn
    | succ n =>
      have hnext : step x = xs.head? := hstep (u := []) rfl
      have hx := List.nodup_cons.1 hnd
      rw [List.head?_cons, Heap.claim, if_neg (by simp [hoff x]), hnext, ih (by simpa using hn)
        (fun {u v a} hs ↦ hstep (u := x :: u) (by rw [hs, List.cons_append])) hx.2, marked_cons]
      · have hlast : xs.getLast?.getD x = (x :: xs).getLast?.getD t := by
          cases xs with
          | nil => rfl
          | cons y ys => simp [List.getLast?_cons]
        have hsize : s + h.getSize x + (xs.map (h.setChainOf x (some c)).getSize).sum =
            s + ((x :: xs).map h.getSize).sum := by
          change s + h.getSize x + (xs.map h.getSize).sum = _
          rw [List.map_cons, List.sum_cons, add_assoc]
        have hlen : l + 1 + (xs.length : ℤ) = l + ((x :: xs).length : ℕ) := by
          rw [List.length_cons]
          omega
        rw [hlast, hsize, hlen]
      · intro i hi
        have hix : i ≠ x := ne_of_mem_of_not_mem hi hx.1
        exact (Function.update_of_ne hix _ _).trans (hoff i (List.mem_cons_of_mem x hi))

theorem Inv.length_le (hi : Inv maxcap h) (hw : h.links.Whole xs) (hp : p ∈ xs) (hlt : p < h.fresh) :
    xs.length ≤ h.fresh := by
  have hsub : xs ⊆ List.range h.fresh := fun i hx ↦ List.mem_range.2 (hi.lt_of_mem hw hp hlt hx)
  simpa using (List.subperm_of_subset hw.nodup hsub).length_le

/-- The list of a buffer that is on no chain becomes the contents of an empty chain. -/
theorem Inv.addAllToChain_eq (hi : Inv maxcap h) (hlt : me < h.fresh) (hoff : h.chainOf me = none)
    (hempty : (h.chain c).head = none) (hw : h.links.Whole (u ++ me :: v))
    (hsame : ∀ j ∈ u ++ me :: v, h.chainOf j = h.chainOf me) :
    h.addAllToChain me c = ((h.marked c (u ++ me :: v)).setChain c
      ⟨(u ++ me :: v).head?, (u ++ me :: v).getLast?, (u ++ me :: v).length,
        ((u ++ me :: v).map h.getSize).sum⟩, none) := by
  obtain ⟨ys, hys⟩ := hi.chains c
  have hnil : ys = [] := List.head?_eq_none_iff.1 (hys.head.symm.trans hempty)
  have htail : (h.chain c).tail = none := by rw [hys.tail, hnil]; rfl
  have hlen := hi.length_le hw (by simp) hlt
  rw [List.length_append] at hlen
  have hnd := List.nodup_append.1 hw.nodup
  have hdisj := List.disjoint_of_nodup_append hw.nodup
  have hnone : ∀ j ∈ u ++ me :: v, h.chainOf j = none := fun j hj ↦ (hsame j hj).trans hoff
  have hfwd := @claim_eq h c (me :: v) h.links.next h.fresh me 0 0 (by omega)
    (fun {s t a} hs ↦ hw.next (u := u ++ s) (by rw [hs, List.append_assoc])) hnd.2.1
    (fun i hx ↦ hnone i (List.mem_append_right u hx))
  have hback := @claim_eq (h.marked c (me :: v)) c u.reverse h.links.prev h.fresh me
    (0 + ((me :: v).map h.getSize).sum) (0 + ((me :: v).length : ℕ)) (by simpa using by omega)
    (fun {s t a} hs ↦ by
      have hu : u = t.reverse ++ a :: s.reverse := by
        rw [← List.reverse_reverse u, hs]
        simp
      rw [hw.prev (u := t.reverse) (v := s.reverse ++ me :: v) (by simp [hu]), List.getLast?_reverse])
    (List.nodup_reverse.2 hnd.1)
    (fun i hx ↦ by
      have hu : i ∈ u := List.mem_reverse.1 hx
      have hv : i ∉ me :: v := fun hv ↦ hdisj hu hv
      exact (if_neg hv).trans (hnone i (List.mem_append_left _ hu)))
  rw [List.head?_reverse, ← hw.prev_eq] at hback
  have hmarked : (h.marked c (me :: v)).marked c u.reverse = h.marked c (u ++ me :: v) := by
    simp only [Heap.marked, List.mem_reverse, List.mem_append]
    congr 1
    funext i
    by_cases hu : i ∈ u
    · simp [hu]
    · simp [hu]
  have hhead : some (u.reverse.getLast?.getD me) = (u ++ me :: v).head? := by
    rw [List.getLast?_reverse]
    cases u <;> rfl
  have hlast : some ((me :: v).getLast?.getD me) = (u ++ me :: v).getLast? := by
    simp [List.getLast?_append, List.getLast?_cons]
  have hsize : 0 + ((me :: v).map h.getSize).sum +
      (u.reverse.map (h.marked c (me :: v)).getSize).sum = ((u ++ me :: v).map h.getSize).sum := by
    change 0 + ((me :: v).map h.getSize).sum + (u.reverse.map h.getSize).sum = _
    rw [List.map_reverse, List.sum_reverse, List.map_append, List.sum_append]
    omega
  have hcount : 0 + ((me :: v).length : ℤ) + (u.reverse.length : ℕ) = (u ++ me :: v).length := by
    rw [List.length_reverse, List.length_append]
    omega
  have hback' : Heap.claim c (h.marked c (me :: v)).links.prev (h.marked c (me :: v)).fresh
      ((h.marked c (me :: v)).links.prev me) (h.marked c (me :: v), me,
        0 + ((me :: v).map h.getSize).sum, 0 + ((me :: v).length : ℕ)) = _ := hback
  rw [List.head?_cons] at hfwd
  rw [Heap.addAllToChain, if_neg (by simp [hempty, htail]), hfwd]
  dsimp only
  rw [hback']
  dsimp only
  rw [hmarked, hhead, hlast, hsize, hcount]

theorem Inv.addAllToChain_chainIs (hi : Inv maxcap h) (hempty : (h.chain c).head = none)
    (hw : h.links.Whole (u ++ me :: v)) :
    ChainIs ((h.marked c (u ++ me :: v)).setChain c
      ⟨(u ++ me :: v).head?, (u ++ me :: v).getLast?, (u ++ me :: v).length,
        ((u ++ me :: v).map h.getSize).sum⟩) c (u ++ me :: v) := by
  obtain ⟨ys, hys⟩ := hi.chains c
  have hnil : ys = [] := List.head?_eq_none_iff.1 (hys.head.symm.trans hempty)
  refine ⟨hw, fun i ↦ ?_, ?_, ?_, ?_, ?_⟩
  · by_cases hx : i ∈ u ++ me :: v
    · exact iff_of_true (if_pos hx) hx
    · have hnone : h.chainOf i ≠ some c := by
        rw [ne_eq, hys.mem, hnil]
        exact List.not_mem_nil
      exact iff_of_false (fun hm ↦ hnone ((if_neg hx).symm.trans hm)) hx
  · simp [Heap.setChain]
  · simp only [Heap.setChain, Function.update_self]
  · simp only [Heap.setChain, Function.update_self]
  · simp only [Heap.setChain, Function.update_self]
    rfl

theorem Inv.addAllToChain (hi : Inv maxcap h) (hlt : me < h.fresh)
    (hempty : (h.chain c).head = none) : Inv maxcap (h.addAllToChain me c).1 := by
  cases hoff : h.chainOf me with
  | some d =>
    have hpos : h.fresh ≠ 0 := by omega
    obtain ⟨n, hn⟩ := Nat.exists_eq_succ_of_ne_zero hpos
    have hclaim : Heap.claim c h.links.next h.fresh (some me) (h, me, 0, 0) =
        .error (h, .alreadyOnChain) := by
      rw [hn, Heap.claim]
      exact if_pos (by simp [hoff])
    unfold Heap.addAllToChain
    split_ifs
    · exact hi
    · rw [hclaim]
      exact hi
  | none =>
    obtain ⟨u, v, hw, hsame⟩ := hi.around me
    have hchain := hi.addAllToChain_chainIs hempty hw
    rw [hi.addAllToChain_eq hlt hoff hempty hw hsame]
    generalize hxs : u ++ me :: v = xs at hw hsame hchain
    have hme : me ∈ xs := by simp [← hxs]
    have hnone : ∀ i ∈ xs, h.chainOf i = none := fun i hx ↦ (hsame i hx).trans hoff
    refine hi.relink xs ⟨rfl, rfl, fun _ _ ↦ rfl, fun _ _ ↦ rfl, fun i hx ↦ if_neg hx,
      fun i hx ys hy hiy j hj ↦ ?_, fun i hx ↦ ⟨xs, hx, hw, fun j hj ↦ ?_⟩, fun d ↦ ?_,
      fun i hx ↦ hi.lt_of_mem hw hme hlt hx⟩
    · rwa [← hy.unique hw hiy hx]
    · exact (if_pos hj).trans (if_pos hx).symm
    · by_cases hd : d = c
      · subst hd
        exact .inr ⟨xs, hchain⟩
      · left
        refine ⟨fun i hx ↦ ⟨by simp [hnone i hx], ?_⟩, Function.update_of_ne hd _ _⟩
        simp [Heap.setChain, Heap.marked, hx, Ne.symm hd]

/-- A buffer that comes from the free list. -/
theorem Inv.getBuf (hi : Inv maxcap h) (hcap : Buf.HEADROOM ≤ maxcap) {capa b : ℕ} {clip : Bool}
    {h' : Heap} (hb : h.getBuf maxcap capa clip = .ok (h', b)) :
    Inv maxcap h' ∧ b = h.fresh ∧ h'.fresh = h.fresh + 1 ∧ h'.links = h.links ∧
      h'.chainOf = h.chainOf ∧ h'.chain = h.chain ∧
      h'.buf = Function.update h.buf b (Buf.getBuf (h.buf b).data) := by
  unfold Heap.getBuf at hb
  split at hb
  · cases hb
  · cases hb
    refine ⟨⟨fun c ↦ ?_, hi.listed, fun i ↦ ?_, fun i hf ↦ ?_⟩, rfl, rfl, rfl, rfl, rfl, rfl⟩
    · obtain ⟨xs, hc⟩ := hi.chains c
      refine ⟨xs, hc.frame (fun _ _ ↦ rfl) (fun _ _ ↦ rfl) (fun _ ↦ Iff.rfl) rfl fun i hx ↦ ?_⟩
      apply Function.update_of_ne
      rintro rfl
      have hfree := (hi.free h.fresh le_rfl).2.2
      rw [(hc.mem _).2 hx] at hfree
      cases hfree
    · by_cases hif : i = h.fresh
      · subst hif
        obtain ⟨hok, hlen⟩ := hi.ok h.fresh
        have hbuf : (h.setBuf h.fresh (Buf.getBuf (h.buf h.fresh).data)).buf h.fresh =
            Buf.getBuf (h.buf h.fresh).data := Function.update_self ..
        change ((h.setBuf h.fresh (Buf.getBuf (h.buf h.fresh).data)).buf h.fresh).Ok ∧
          ((h.setBuf h.fresh (Buf.getBuf (h.buf h.fresh).data)).buf h.fresh).getCapacity = maxcap
        rw [hbuf]
        exact ⟨⟨le_rfl, hcap.trans hlen.ge, hok.capa⟩, hlen⟩
      · have hbuf : (h.setBuf h.fresh (Buf.getBuf (h.buf h.fresh).data)).buf i = h.buf i :=
          Function.update_of_ne hif _ _
        change ((h.setBuf h.fresh (Buf.getBuf (h.buf h.fresh).data)).buf i).Ok ∧
          ((h.setBuf h.fresh (Buf.getBuf (h.buf h.fresh).data)).buf i).getCapacity = maxcap
        rw [hbuf]
        exact hi.ok i
    · have hf' : h.fresh + 1 ≤ i := hf
      exact hi.free i (by omega)

/-- The ends of a chain are buffers in use. -/
theorem Inv.lt_of_chainOf (hi : Inv maxcap h) (hc : h.chainOf p = some c) : p < h.fresh := by
  by_contra hge
  have hfree := (hi.free p (by omega)).2.2
  rw [hc] at hfree
  cases hfree

theorem Inv.addAtHead (hi : Inv maxcap h) (hlt : me < h.fresh) :
    Inv maxcap (h.addAtHead c me).1 := by
  unfold Heap.addAtHead
  split
  · rename_i hhead
    exact hi.addAllToChain hlt hhead
  · rename_i p hhead
    obtain ⟨xs, hc⟩ := hi.chains c
    have hp : h.chainOf p = some c := (hc.mem p).2 (List.mem_of_head? (hc.head.symm.trans hhead))
    refine hi.before hlt fun q hq ↦ ?_
    cases hq
    exact hi.lt_of_chainOf hp

theorem Inv.addAtTail (hi : Inv maxcap h) (hlt : me < h.fresh) :
    Inv maxcap (h.addAtTail c me).1 := by
  obtain ⟨xs, hc⟩ := hi.chains c
  unfold Heap.addAtTail
  split
  · rename_i htail
    have hnil : xs = [] := List.getLast?_eq_none_iff.1 (hc.tail.symm.trans htail)
    exact hi.addAllToChain hlt (by rw [hc.head, hnil, List.head?_nil])
  · rename_i p htail
    have hp : h.chainOf p = some c := (hc.mem p).2 (List.mem_of_getLast? (hc.tail.symm.trans htail))
    refine hi.after hlt fun q hq ↦ ?_
    cases hq
    exact hi.lt_of_chainOf hp

/-- A buffer of its own becomes the last one of a chain. -/
theorem Inv.addAtTail_chainIs (hi : Inv maxcap h) (hc : ChainIs h c xs) (hlt : me < h.fresh)
    (hn : h.links.next me = none) (hp : h.links.prev me = none) (hoff : h.chainOf me = none) :
    ∃ h', h.addAtTail c me = (h', none) ∧ ChainIs h' c (xs ++ [me]) ∧ h'.fresh = h.fresh ∧
      h'.buf = h.buf := by
  have hinv : Inv maxcap (h.addAtTail c me).1 := hi.addAtTail hlt
  cases xs using List.reverseRecOn with
  | nil =>
    have hempty : (h.chain c).head = none := hc.head
    have hw : h.links.Whole ([] ++ me :: []) := .singleton hn hp
    refine ⟨_, ?_, hi.addAllToChain_chainIs hempty hw, rfl, rfl⟩
    have htail : (h.chain c).tail = none := hc.tail
    simp only [Heap.addAtTail, htail]
    exact hi.addAllToChain_eq hlt hoff hempty hw (by simp)
  | append_singleton xs p =>
    have htail : (h.chain c).tail = some p := hc.tail.trans List.getLast?_concat
    have hpc : h.chainOf p = some c := (hc.mem p).2 (by simp)
    have hmp : p ≠ me := by
      rintro rfl
      rw [hpc] at hoff
      cases hoff
    have heq := hi.after_eq hn hp hoff hc.whole hmp
    have hadd : h.addAtTail c me = h.after me (some p) := by simp only [Heap.addAtTail, htail]
    rw [hadd, heq] at hinv
    refine ⟨_, hadd.trans heq, ?_, rfl, rfl⟩
    have hme : me ∉ (xs ++ [p]) ++ [] := by
      simpa using not_mem_of_isolated hn hp hc.whole (by simp) hmp
    have hw := Links.Whole.link (v := []) (by simpa using hc.whole) hme
    rw [List.getLast?_concat] at hw
    refine hinv.list_eq ?_ hw (by simp : me ∈ _)
    exact (Function.update_self ..).trans hpc

theorem Inv.createAtTail_chainIs (hi : Inv maxcap h) (hc : ChainIs h c xs)
    (hcap : Buf.HEADROOM ≤ maxcap) (capa : ℕ) :
    ∃ h', h.createAtTail c maxcap capa true = (h', none) ∧ ChainIs h' c (xs ++ [h.fresh]) ∧
      h'.fresh = h.fresh + 1 ∧
      h'.buf = Function.update h.buf h.fresh (Buf.getBuf (h.buf h.fresh).data) := by
  have hget : h.getBuf maxcap capa true = .ok
      ({ h.setBuf h.fresh (Buf.getBuf (h.buf h.fresh).data) with fresh := h.fresh + 1 }, h.fresh) :=
    if_neg (by simp)
  obtain ⟨hi₁, -, hfresh, hlinks, hof, hchain, hbuf⟩ := hi.getBuf hcap hget
  obtain ⟨hn, hp, hoff⟩ := hi.free h.fresh le_rfl
  have hc₁ := hc.frame (fun i _ ↦ by rw [hlinks]) (fun i _ ↦ by rw [hlinks]) (fun i ↦ by rw [hof])
    (congrFun hchain c) (fun i hx ↦ by
      rw [hbuf]
      apply Function.update_of_ne
      rintro rfl
      rw [(hc.mem _).2 hx] at hoff
      cases hoff)
  obtain ⟨h', heq, hc', hf', hb'⟩ := hi₁.addAtTail_chainIs hc₁ (Nat.lt_succ_self h.fresh) hn hp hoff
  refine ⟨h', ?_, hc', hf', hb'⟩
  simp only [Heap.createAtTail, hget, heq]

theorem Inv.createAtHead (hi : Inv maxcap h) (hcap : Buf.HEADROOM ≤ maxcap) {capa : ℕ} {clip : Bool} :
    Inv maxcap (h.createAtHead c maxcap capa clip).1 := by
  unfold Heap.createAtHead
  split
  · exact hi
  · rename_i h' b hb
    obtain ⟨hi', rfl, hfresh, -⟩ := hi.getBuf hcap hb
    exact hi'.addAtHead (by omega)

theorem Inv.createAtTail (hi : Inv maxcap h) (hcap : Buf.HEADROOM ≤ maxcap) {capa : ℕ} {clip : Bool} :
    Inv maxcap (h.createAtTail c maxcap capa clip).1 := by
  unfold Heap.createAtTail
  split
  · exact hi
  · rename_i h' b hb
    obtain ⟨hi', rfl, hfresh, -⟩ := hi.getBuf hcap hb
    exact hi'.addAtTail (by omega)

end Cpsw.BufHeap
