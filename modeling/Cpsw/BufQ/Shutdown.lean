import Cpsw.BufQ.Fifo

namespace Cpsw.BufQ.CBufQueue

open Lib.Run Lib.Tally

variable {α : Type} {q q' q'' : CBufQueue α} {l : List α} {n k : ℕ} {t : Thread α} {task : Task α}
variable {wait : Wait} {at' : Place}

/-- Nothing goes in or out, and nobody shuts down or starts up. -/
structure Still (q q' : CBufQueue α) : Prop where
  isUp_ : q'.isUp_ = q.isUp_
  mtx_ : q'.mtx_ = q.mtx_
  pushed : q'.pushed = q.pushed
  popped : q'.popped = q.popped

theorem Still.refl (q : CBufQueue α) : Still q q := ⟨rfl, rfl, rfl, rfl⟩

theorem Still.trans (h : Still q q') (h' : Still q' q'') : Still q q'' where
  isUp_ := h'.isUp_.trans h.isUp_
  mtx_ := h'.mtx_.trans h.mtx_
  pushed := h'.pushed.trans h.pushed
  popped := h'.popped.trans h.popped

theorem still_setThread (q : CBufQueue α) (k : ℕ) (t : Thread α) : Still q (q.setThread k t) :=
  ⟨rfl, rfl, rfl, rfl⟩

theorem still_setSync (q : CBufQueue α) (s : Side) (x : CEventBufSync) : Still q (q.setSync s x) := by
  cases s <;> exact ⟨rfl, rfl, rfl, rfl⟩

theorem still_addSlots (q : CBufQueue α) (s : Side) (d : ℤ) : Still q (q.addSlots s d) :=
  still_setSync _ _ _

theorem still_gotSlot (q : CBufQueue α) (k : ℕ) (task : Task α) : Still q (q.gotSlot k task) := by
  cases task <;> exact still_setThread _ _ _

theorem still_noSlot (h : ∀ wi, task ≠ .drain wi) : Still q (q.noSlot k task) := by
  cases task with
  | drain wi => exact absurd rfl (h wi)
  | push b => exact still_setThread _ _ _
  | pop => exact still_setThread _ _ _
  | eat wi => exact still_setThread _ _ _
  | fill i => exact still_setThread _ _ _

theorem still_putDone (h : ∀ i, task ≠ .fill i) : Still q (q.putDone k task) := by
  cases task with
  | fill i => exact absurd rfl (h i)
  | push b => exact still_setThread _ _ _
  | pop => exact still_setThread _ _ _
  | eat wi => exact still_setThread _ _ _
  | drain wi => exact still_setThread _ _ _

theorem still_getSlot (h : ∀ wi, task ≠ .drain wi) (hq : q.getSlot k task wait at' = some q') :
    Still q q' := by
  cases at' with
  | sub =>
    cases hq
    refine (still_addSlots q task.getSide (-1)).trans ?_
    split_ifs
    · exact still_gotSlot _ _ _
    · exact still_setThread _ _ _
  | add =>
    cases hq
    refine (still_addSlots q task.getSide 1).trans ?_
    split_ifs
    · exact still_setThread _ _ _
    · exact still_setThread _ _ _
    · exact still_noSlot h
  | poll =>
    cases hq
    exact (still_setSync _ _ _).trans (still_setThread _ _ _)
  | handle =>
    cases hq
    exact (still_setSync _ _ _).trans (still_setThread _ _ _)
  | notify => cases hq
  | asleep => cases hq

theorem still_awake (hq : q.awake k = some q') : Still q q' := by
  unfold CBufQueue.awake at hq
  split at hq
  · cases hq
    exact still_setThread _ _ _
  · cases hq

theorem still_signal {s : Side} {woken : Option ℕ} (hq : q.signal s woken = some q') :
    Still q q' := by
  cases woken with
  | none =>
    unfold CBufQueue.signal at hq
    dsimp only at hq
    split_ifs at hq
    cases hq
    exact .refl q
  | some j =>
    unfold CBufQueue.signal at hq
    dsimp only at hq
    split_ifs at hq
    exact still_awake hq

/-- Once `shutdown` has returned no chain is left, and no thread has a slot. -/
theorem Inv.down (h : Inv n l q) (hup : q.isUp_ = false) (hmtx : q.mtx_ = none) :
    l = [] ∧ ∀ task, .access task ∉ q.threads := by
  have hparked : q.parked = n := by simp [parked, hup, hmtx, h.size]
  have hle : tally (Thread.restores .wr) q.threads ≤ tally (Thread.wrWeight n) q.threads :=
    tally_le fun t ht ↦ Thread.restores_le_wrWeight (h.wf t ht)
  have hroom := h.room
  have hwr := h.wr
  have hnil : l = [] := List.eq_nil_iff_length_eq_zero.2 (by omega)
  refine ⟨hnil, fun task ht ↦ ?_⟩
  have hwf := h.wf _ ht
  have hroom := h.room_le ht
  have hfilled := h.filled_ge ht
  rw [hparked] at hroom
  rw [hnil] at hroom hfilled
  cases task with
  | push b =>
    change 1 - 0 + ((0 : ℕ) : ℤ) + n ≤ n at hroom
    omega
  | pop =>
    change 1 - 0 ≤ ((0 : ℕ) : ℤ) at hfilled
    omega
  | drain wi =>
    change 1 - 0 ≤ ((0 : ℕ) : ℤ) at hfilled
    omega
  | eat wi => exact hwf
  | fill i => exact hwf

/-- Nobody is in `shutdown` or in `startup`. -/
theorem Inv.role_eq_none (h : Inv n l q) (hmtx : q.mtx_ = none) (hk : q.threads[k]? = some t) :
    t.role = none := by
  cases hr : t.role with
  | none => rfl
  | some up => exact absurd ((h.mutex k t up hk hr).1.symm.trans hmtx) (Option.some_ne_none k)

theorem still_exec {e : Event α} (h : Inv n l q) (hup : q.isUp_ = false) (hmtx : q.mtx_ = none)
    (he : ∀ k, e ≠ .call k .startup) (hq : q.exec e = some q') : Still q q' := by
  have hdrain {k : ℕ} {task : Task α} {wait : Wait} {at' : Place}
      (hk : q.threads[k]? = some (.getSlot task wait at')) (wi : ℕ) : task ≠ .drain wi := by
    rintro rfl
    exact Option.some_ne_none _ (h.role_eq_none hmtx hk)
  cases e with
  | call k c =>
    unfold CBufQueue.exec at hq
    dsimp only at hq
    split_ifs at hq with hidle
    cases c with
    | push b wait =>
      cases hq
      exact still_setThread _ _ _
    | pop wait =>
      cases hq
      exact still_setThread _ _ _
    | shutdown =>
      unfold CBufQueue.call at hq
      dsimp only at hq
      rw [if_neg (not_not.2 hmtx), if_pos hup] at hq
      cases hq
      exact .refl q
    | startup => exact absurd rfl (he k)
  | run k =>
    obtain ⟨t, hk, hrun⟩ := Option.bind_eq_some_iff.1 hq
    unfold CBufQueue.run at hrun
    split at hrun
    · exact still_getSlot (hdrain hk) hrun
    · exact absurd (List.mem_of_getElem? hk) ((h.down hup hmtx).2 _)
    · cases hrun
      exact (still_setSync _ _ _).trans (still_setThread _ _ _)
    · exact (h.wf _ (List.mem_of_getElem? hk)).elim
    · cases hrun
  | notify k woken =>
    obtain ⟨t, hk, hnotify⟩ := Option.bind_eq_some_iff.1 hq
    split_ifs at hnotify with ht
    obtain ⟨q₁, hsignal, hdone⟩ := Option.bind_eq_some_iff.1 hnotify
    refine (still_signal hsignal).trans ?_
    unfold CBufQueue.notified at hdone
    split at hdone
    · cases hdone
      exact still_noSlot (hdrain hk)
    · rename_i task
      cases hdone
      refine still_putDone fun i hi ↦ ?_
      rw [hi] at hk
      exact Option.some_ne_none _ (h.role_eq_none hmtx hk)
    · cases hdone
      exact still_setThread _ _ _
    · cases hdone
  | wake k => exact still_awake hq
  | timeOut k =>
    unfold CBufQueue.exec at hq
    dsimp only at hq
    split at hq
    · rename_i task hk
      cases hq
      exact still_noSlot (hdrain hk)
    · cases hq

theorem still_execs {es : List (Event α)} (h : Inv n l q) (hup : q.isUp_ = false)
    (hmtx : q.mtx_ = none) (hes : ∀ e ∈ es, ∀ k, e ≠ .call k .startup)
    (hq : q.execs es = some q') : Still q q' := by
  induction es generalizing q l with
  | nil =>
    cases hq
    exact .refl _
  | cons e es ih =>
    obtain ⟨q₁, hq₁, hq⟩ := Option.bind_eq_some_iff.1 hq
    have hstep := still_exec h hup hmtx (hes e List.mem_cons_self) hq₁
    obtain ⟨l₁, h₁⟩ := h.exec hq₁
    exact hstep.trans (ih h₁ (hstep.isUp_.trans hup) (hstep.mtx_.trans hmtx)
      (fun e he ↦ hes e (List.mem_cons_of_mem _ he)) hq)

/-- From the return of `shutdown` to the next `startup`, whatever the threads do, all chains that
went in have come out, none goes in, and no writer is told that there is room. -/
theorem Reachable.shut_down_empty {m : ℕ} {es : List (Event α)} (h : Reachable n m q)
    (hup : q.isUp_ = false) (hmtx : q.mtx_ = none) (hrun : q.execs es = some q')
    (hes : ∀ e ∈ es, ∀ k, e ≠ .call k .startup) :
    q'.pushed = q'.popped ∧ q'.base.Holds [] ∧ q'.pushed = q.pushed ∧ q'.popped = q.popped ∧
      q'.rd_sync_.getAvailSlots = 0 ∧ q'.wr_sync_.getAvailSlots = 0 := by
  obtain ⟨l, hl⟩ := h.inv
  obtain ⟨l', hl'⟩ := (h.execs hrun).inv
  have hstill := still_execs hl hup hmtx hes hrun
  have hup' : q'.isUp_ = false := hstill.isUp_.trans hup
  have hmtx' : q'.mtx_ = none := hstill.mtx_.trans hmtx
  obtain ⟨rfl, -⟩ := hl'.down hup' hmtx'
  have hrd : q'.rd_sync_.slots_ ≤ ((0 : ℕ) : ℤ) := hl'.rd_slots_le
  have hwr : q'.wr_sync_.slots_ ≤ 0 := by
    have hnonneg : 0 ≤ tally (Thread.wrWeight n) q'.threads := tally_nonneg fun t ht ↦
      (t.restores_nonneg .wr).trans (Thread.restores_le_wrWeight (hl'.wf t ht))
    have hparked : q'.parked = n := by simp [parked, hup', hmtx', hl'.size]
    have hroom := hl'.room
    omega
  refine ⟨?_, hl'.holds, hstill.pushed, hstill.popped, Int.toNat_of_nonpos hrd,
    Int.toNat_of_nonpos hwr⟩
  rw [hl'.order, List.append_nil]

/-- A queue that was shut down while it held one chain. -/
def drained : CBufQueue ℕ where
  n_ := 2
  base := { fifo_ := [some 7, none], rp_ := 1, wp_ := 1, fl_ := 0, sz_ := 2 }
  isUp_ := false
  rd_sync_ := { slots_ := 0 }
  wr_sync_ := { slots_ := 0 }
  threads := [.idle, .idle]
  pushed := [7]
  popped := [7]

theorem reachable_drained : Reachable 2 2 drained := by
  have hrun : (create 2 2).execs [.call 0 (.push 7 .no), .run 0, .run 0, .run 0, .notify 0 none,
      .call 1 .shutdown, .run 1, .run 1, .run 1, .run 1, .run 1, .run 1, .notify 1 none, .run 1,
      .run 1, .run 1, .run 1, .run 1, .run 1, .run 1] = some drained := by decide +kernel
  exact Reachable.execs .refl hrun

/-- A thread that comes after `shutdown` has to go. -/
theorem shut_down_empty_drained :
    drained.execs [.call 0 (.push 8 .no), .run 0, .run 0] = some drained ∧
      drained.pushed = drained.popped := by
  have hrun : drained.execs [.call 0 (.push 8 .no), .run 0, .run 0] = some drained := by
    decide +kernel
  have hdown := reachable_drained.shut_down_empty rfl rfl hrun (by simp)
  exact ⟨hrun, hdown.1⟩

end Cpsw.BufQ.CBufQueue
