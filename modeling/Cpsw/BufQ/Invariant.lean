import Cpsw.BufQ.Count

namespace Cpsw.BufQ.CBufQueue

open Lib.Run Lib.Tally

variable {α : Type} {q q' : CBufQueue α} {l l' : List α} {n k : ℕ} {t v : Thread α} {task : Task α}
variable {wait : Wait} {at' : Place} {r w : CEventBufSync}

/-- The writers' slots that a queue which is shut down keeps back. -/
def parked (q : CBufQueue α) : ℤ := if q.isUp_ || q.mtx_.isSome then 0 else q.n_

/-- The queue holds `l`, and every slot is accounted for. -/
structure Inv (n : ℕ) (l : List α) (q : CBufQueue α) : Prop where
  size : q.n_ = n
  wf : ∀ t ∈ q.threads, t.Wf n
  mutex : ∀ k t up, q.threads[k]? = some t → t.role = some up → q.mtx_ = some k ∧ q.isUp_ = up
  holds : q.base.Holds l
  depth : q.base.sz_ = n
  order : q.pushed = q.popped ++ l
  filled : q.rd_sync_.slots_ + tally Thread.rdWeight q.threads = l.length
  room : q.wr_sync_.slots_ + tally (Thread.wrWeight n) q.threads + l.length + q.parked = n
  rd : 0 ≤ q.rd_sync_.slots_ + tally (Thread.restores .rd) q.threads
  wr : 0 ≤ q.wr_sync_.slots_ + tally (Thread.restores .wr) q.threads

theorem inv_create (n m : ℕ) : Inv n [] (create n m : CBufQueue α) where
  size := rfl
  wf t ht := by
    rw [List.eq_of_mem_replicate ht]
    exact trivial
  mutex k t up ht hr := by
    obtain rfl : t = .idle := List.eq_of_mem_replicate (List.mem_of_getElem? ht)
    cases hr
  holds := CBufQueueBase.holds_new
  depth := rfl
  order := rfl
  filled := by
    have h : tally Thread.rdWeight (List.replicate m (.idle : Thread α)) = 0 :=
      tally_eq_zero fun t ht ↦ List.eq_of_mem_replicate ht ▸ rfl
    exact (Int.zero_add _).trans h
  room := by
    have h : tally (Thread.wrWeight n) (List.replicate m (.idle : Thread α)) = 0 :=
      tally_eq_zero fun t ht ↦ List.eq_of_mem_replicate ht ▸ rfl
    simp [create, parked, h]
  rd := (Int.zero_add _).symm ▸ tally_nonneg fun t _ ↦ t.restores_nonneg _
  wr := by
    have h : 0 ≤ tally (Thread.restores .wr) (List.replicate m (.idle : Thread α)) :=
      tally_nonneg fun t _ ↦ t.restores_nonneg _
    exact Int.add_nonneg (Int.natCast_nonneg n) h

/-- The count of a side stays what it was, or more, or there was a slot to take. -/
theorem avail_nonneg {s : Side} {ts : List (Thread α)} {slots slots' : ℤ} (hk : ts[k]? = some t)
    (h : 0 ≤ slots + tally (Thread.restores s) ts)
    (hs : 0 ≤ slots' ∨ slots + t.restores s ≤ slots' + v.restores s) :
    0 ≤ slots' + tally (Thread.restores s) (ts.set k v) := by
  have hset := tally_set (Thread.restores s) hk v
  have hnonneg : 0 ≤ tally (Thread.restores s) (ts.set k v) :=
    tally_nonneg fun t _ ↦ t.restores_nonneg s
  omega

/-- One thread does a step. -/
theorem Inv.set (h : Inv n l q) (hk : q.threads[k]? = some t)
    (hthreads : q'.threads = q.threads.set k v) (hsize : q'.n_ = q.n_) (hwf : v.Wf n)
    (hrole : ∀ up, v.role = some up → q'.mtx_ = some k ∧ q'.isUp_ = up)
    (hmtx : (q'.mtx_ = q.mtx_ ∧ q'.isUp_ = q.isUp_) ∨ q.mtx_ = none ∨ q.mtx_ = some k)
    (hholds : q'.base.Holds l') (hdepth : q'.base.sz_ = q.base.sz_)
    (horder : q'.pushed = q'.popped ++ l')
    (hfilled : q'.rd_sync_.slots_ + v.rdWeight - l'.length =
      q.rd_sync_.slots_ + t.rdWeight - l.length)
    (hroom : q'.wr_sync_.slots_ + v.wrWeight n + l'.length + q'.parked =
      q.wr_sync_.slots_ + t.wrWeight n + l.length + q.parked)
    (hrd : 0 ≤ q'.rd_sync_.slots_ ∨
      q.rd_sync_.slots_ + t.restores .rd ≤ q'.rd_sync_.slots_ + v.restores .rd)
    (hwr : 0 ≤ q'.wr_sync_.slots_ ∨
      q.wr_sync_.slots_ + t.restores .wr ≤ q'.wr_sync_.slots_ + v.restores .wr) :
    Inv n l' q' where
  size := hsize.trans h.size
  wf u hu := by
    rw [hthreads] at hu
    rcases List.mem_or_eq_of_mem_set hu with hu | rfl
    · exact h.wf u hu
    · exact hwf
  mutex j u up hu hr := by
    rw [hthreads] at hu
    by_cases hj : k = j
    · subst hj
      rw [List.getElem?_set_self (List.getElem?_eq_some_iff.1 hk).1] at hu
      obtain rfl : v = u := Option.some.inj hu
      exact hrole up hr
    · rw [List.getElem?_set_ne hj] at hu
      obtain ⟨hm, hup⟩ := h.mutex j u up hu hr
      rcases hmtx with ⟨hm', hup'⟩ | hm' | hm'
      · exact ⟨hm'.trans hm, hup'.trans hup⟩
      · exact absurd (hm.symm.trans hm') (Option.some_ne_none j)
      · exact absurd (Option.some.inj (hm'.symm.trans hm)) hj
  holds := hholds
  depth := hdepth.trans h.depth
  order := horder
  filled := by
    rw [hthreads, tally_set _ hk]
    have := h.filled
    omega
  room := by
    rw [hthreads, tally_set _ hk]
    have := h.room
    omega
  rd := by
    rw [hthreads]
    exact avail_nonneg hk h.rd hrd
  wr := by
    rw [hthreads]
    exact avail_nonneg hk h.wr hwr

/-- A step that changes nothing but a thread and the slots. -/
theorem Inv.move (h : Inv n l q) (hk : q.threads[k]? = some t)
    (hq : q' = { q with rd_sync_ := r, wr_sync_ := w, threads := q.threads.set k v })
    (hwf : v.Wf n) (hrole : v.role = t.role)
    (hfilled : r.slots_ + v.rdWeight = q.rd_sync_.slots_ + t.rdWeight)
    (hroom : w.slots_ + v.wrWeight n = q.wr_sync_.slots_ + t.wrWeight n)
    (hrd : 0 ≤ r.slots_ ∨ q.rd_sync_.slots_ + t.restores .rd ≤ r.slots_ + v.restores .rd)
    (hwr : 0 ≤ w.slots_ ∨ q.wr_sync_.slots_ + t.restores .wr ≤ w.slots_ + v.restores .wr) :
    Inv n l q' := by
  subst hq
  refine h.set hk rfl rfl hwf ?_ (.inl ⟨rfl, rfl⟩) h.holds rfl h.order ?_ ?_ hrd hwr
  · intro up hup
    exact h.mutex k t up hk (hrole.symm.trans hup)
  · exact congrArg (· - (l.length : ℤ)) hfilled
  · have hparked : ({ q with rd_sync_ := r, wr_sync_ := w, threads := q.threads.set k v } :
        CBufQueue α).parked = q.parked := rfl
    rw [hparked]
    dsimp only
    omega

end Cpsw.BufQ.CBufQueue
