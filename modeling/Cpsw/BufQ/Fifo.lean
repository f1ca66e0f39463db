import Cpsw.BufQ.Invariant

namespace Cpsw.BufQ

open Lib.Run Lib.Tally

variable {α : Type} {n k : ℕ} {t : Thread α}

namespace Thread

theorem restores_le_rdWeight (t : Thread α) : t.restores .rd ≤ t.rdWeight := by
  unfold restores rdWeight
  split <;> split <;> simp_all

theorem restores_le_wrWeight (h : t.Wf n) : t.restores .wr ≤ t.wrWeight n := by
  cases t with
  | getSlot task wait at' =>
    cases task <;> cases at' <;> simp_all [restores, wrWeight, Task.held, Task.getSide, Wf]
  | access task => cases task <;> simp_all [restores, wrWeight, Task.held, Wf]
  | putSlot task notify =>
    cases task <;> cases notify <;> simp_all [restores, wrWeight, Task.held, Task.putSide, Wf] <;> omega
  | undo notify => cases h
  | idle => exact le_rfl
  | threw => exact le_rfl

theorem rdWeight_getSlot {task : Task α} {wait : Wait} {at' : Place} (h : at' ≠ .add) :
    (getSlot task wait at').rdWeight = 0 := by
  cases at' <;> first | rfl | contradiction

theorem wrWeight_getSlot {task : Task α} {wait : Wait} {at' : Place} (h : at' ≠ .add) :
    (getSlot task wait at').wrWeight n = task.held n := by
  cases at' <;> first | rfl | contradiction

theorem restores_getSlot {task : Task α} {wait : Wait} {at' : Place} (h : at' ≠ .add) (s : Side) :
    (getSlot task wait at').restores s = 0 := by
  cases at' <;> first | rfl | contradiction

end Thread

namespace CBufQueue

variable {q q' : CBufQueue α} {l l' : List α} {task : Task α} {wait : Wait} {at' : Place} {wi : ℕ}

theorem parked_nonneg (q : CBufQueue α) : 0 ≤ q.parked := by
  unfold parked
  split_ifs
  · exact le_rfl
  · exact Int.natCast_nonneg _

/-- What a thread has of the room, and what the queue holds, is there. -/
theorem Inv.room_le (h : Inv n l q) (ht : t ∈ q.threads) :
    t.wrWeight n - t.restores .wr + l.length + q.parked ≤ n := by
  have hgap : tally (Thread.restores .wr) q.threads + (t.wrWeight n - t.restores .wr) ≤
      tally (Thread.wrWeight n) q.threads :=
    tally_gap (fun t ht ↦ Thread.restores_le_wrWeight (h.wf t ht)) ht
  have hroom := h.room
  have hwr := h.wr
  omega

theorem Inv.filled_ge (h : Inv n l q) (ht : t ∈ q.threads) :
    t.rdWeight - t.restores .rd ≤ l.length := by
  have hgap : tally (Thread.restores .rd) q.threads + (t.rdWeight - t.restores .rd) ≤
      tally Thread.rdWeight q.threads :=
    tally_gap (fun t _ ↦ Thread.restores_le_rdWeight t) ht
  have hfilled := h.filled
  have hrd := h.rd
  omega

/-- `shutdown` returns with all slots, and no more. -/
theorem Inv.eatMore (h : Inv n l q) (hk : q.threads[k]? = some t) (hrole : t.role = some false)
    (hrd : t.rdWeight = 0) (hwr : t.wrWeight n = wi) (hres : ∀ s, t.restores s = 0) :
    Inv n l (q.eatMore k wi) := by
  obtain ⟨hmtx, hup⟩ := h.mutex k t false hk hrole
  have hparked : q.parked = 0 := by simp [parked, hmtx]
  unfold CBufQueue.eatMore
  split_ifs with hwi
  · refine h.move hk rfl rfl (hrole ▸ rfl) ?_ ?_ (.inr ?_) (.inr ?_)
    · rw [hrd]
      rfl
    · rw [hwr]
      rfl
    · rw [hres]
      rfl
    · rw [hres]
      rfl
  · have hle := h.room_le (List.mem_of_getElem? hk)
    have hsize := h.size
    rw [hwr, hres, hparked] at hle
    have hall : (wi : ℤ) = n ∧ (l.length : ℤ) = 0 := by omega
    have hback : ({ q.setThread k .idle with mtx_ := none } : CBufQueue α).parked = n := by
      simp [parked, setThread, hup, hsize]
    refine h.set (v := .idle) hk rfl rfl trivial (fun up hup ↦ absurd hup.symm (Option.some_ne_none up))
      (.inr (.inr hmtx)) h.holds rfl h.order ?_ ?_ (.inr ?_) (.inr ?_)
    · rw [hrd]
      rfl
    · have hidle : (.idle : Thread α).wrWeight n = 0 := rfl
      rw [hback, hwr, hparked, hidle]
      dsimp only [setThread]
      omega
    · rw [hres]
      rfl
    · rw [hres]
      rfl

/-- The thread stays in `getSlot`, or leaves it without a slot. -/
theorem Inv.leave (h : Inv n l q) (hk : q.threads[k]? = some (.getSlot task wait at'))
    (hat : at' ≠ .add) {t' : Thread α} (hwf : t'.Wf n)
    (hrole : t'.role = (Thread.getSlot task wait at').role) (hrd : t'.rdWeight = 0)
    (hwr : t'.wrWeight n = task.held n) (hres : ∀ s, t'.restores s = 0) :
    Inv n l (q.setThread k t') := by
  refine h.move hk rfl hwf hrole ?_ ?_ (.inr ?_) (.inr ?_)
  · rw [hrd, Thread.rdWeight_getSlot hat]
  · rw [hwr, Thread.wrWeight_getSlot hat]
  · rw [hres, Thread.restores_getSlot hat]
  · rw [hres, Thread.restores_getSlot hat]

theorem Inv.noSlot (h : Inv n l q) (hk : q.threads[k]? = some (.getSlot task wait at'))
    (hat : at' ≠ .add) : Inv n l (q.noSlot k task) := by
  have hwf := h.wf _ (List.mem_of_getElem? hk)
  cases task with
  | push b => exact h.leave hk hat trivial rfl rfl rfl fun _ ↦ rfl
  | pop => exact h.leave hk hat trivial rfl rfl rfl fun _ ↦ rfl
  | eat wi => exact h.leave hk hat rfl rfl rfl rfl fun _ ↦ rfl
  | drain wi =>
    exact h.eatMore hk rfl (Thread.rdWeight_getSlot hat) (Thread.wrWeight_getSlot hat)
      (Thread.restores_getSlot hat)
  | fill i => exact hwf.elim

/-- Within `getSlot` a thread goes from one place to another. -/
theorem Inv.goto (h : Inv n l q) (hk : q.threads[k]? = some (.getSlot task wait at'))
    (hat : at' ≠ .add) {dest : Place} (hto : dest ≠ .add) :
    Inv n l (q.setThread k (.getSlot task wait dest)) := by
  have hwf := h.wf _ (List.mem_of_getElem? hk)
  refine h.leave hk hat ?_ rfl (Thread.rdWeight_getSlot hto) (Thread.wrWeight_getSlot hto)
    (Thread.restores_getSlot hto)
  cases task with
  | push b => exact trivial
  | pop => exact trivial
  | eat wi => exact hwf
  | drain wi => exact hwf
  | fill i => exact hwf

/-- What is pending does not count. -/
theorem Inv.setPending (h : Inv n l q) (s : Side) (b : Bool) :
    Inv n l (q.setSync s { q.sync s with pending_ := b }) := by
  cases s with
  | rd => exact ⟨h.size, h.wf, h.mutex, h.holds, h.depth, h.order, h.filled, h.room, h.rd, h.wr⟩
  | wr => exact ⟨h.size, h.wf, h.mutex, h.holds, h.depth, h.order, h.filled, h.room, h.rd, h.wr⟩

theorem setSync_threads (q : CBufQueue α) (s : Side) (x : CEventBufSync) :
    (q.setSync s x).threads = q.threads := by
  cases s <;> rfl

/-- Taking a slot, which may turn out not to be there. -/
theorem Inv.sub (h : Inv n l q) (hk : q.threads[k]? = some (.getSlot task wait .sub)) :
    ∃ q', q.getSlot k task wait .sub = some q' ∧ Inv n l q' := by
  have hwf := h.wf _ (List.mem_of_getElem? hk)
  refine ⟨_, rfl, ?_⟩
  split_ifs with hpos
  · cases task with
    | push b =>
      refine h.move hk rfl trivial rfl rfl ?_ (.inr le_rfl) (.inl ?_)
      · change q.wr_sync_.slots_ + -1 + 1 = q.wr_sync_.slots_ + 0
        omega
      · exact Int.le_sub_one_of_lt hpos
    | pop =>
      refine h.move hk rfl trivial rfl ?_ rfl (.inl ?_) (.inr le_rfl)
      · change q.rd_sync_.slots_ + -1 + 1 = q.rd_sync_.slots_ + 0
        omega
      · exact Int.le_sub_one_of_lt hpos
    | eat wi =>
      refine h.move hk rfl rfl rfl rfl ?_ (.inr le_rfl) (.inl ?_)
      · change q.wr_sync_.slots_ + -1 + ((wi + 1 : ℕ) : ℤ) = q.wr_sync_.slots_ + wi
        omega
      · exact Int.le_sub_one_of_lt hpos
    | drain wi =>
      refine h.move hk rfl trivial rfl ?_ rfl (.inl ?_) (.inr le_rfl)
      · change q.rd_sync_.slots_ + -1 + 1 = q.rd_sync_.slots_ + 0
        omega
      · exact Int.le_sub_one_of_lt hpos
    | fill i => exact hwf.elim
  · cases task with
    | push b =>
      refine h.move hk rfl trivial rfl rfl ?_ (.inr le_rfl) (.inr ?_)
      · change q.wr_sync_.slots_ + -1 + (0 + 1) = q.wr_sync_.slots_ + 0
        omega
      · change q.wr_sync_.slots_ + 0 ≤ q.wr_sync_.slots_ + -1 + 1
        omega
    | pop =>
      refine h.move hk rfl trivial rfl ?_ rfl (.inr ?_) (.inr le_rfl)
      · change q.rd_sync_.slots_ + -1 + 1 = q.rd_sync_.slots_ + 0
        omega
      · change q.rd_sync_.slots_ + 0 ≤ q.rd_sync_.slots_ + -1 + 1
        omega
    | eat wi =>
      refine h.move hk rfl hwf rfl rfl ?_ (.inr le_rfl) (.inr ?_)
      · change q.wr_sync_.slots_ + -1 + ((wi : ℤ) + 1) = q.wr_sync_.slots_ + wi
        omega
      · change q.wr_sync_.slots_ + 0 ≤ q.wr_sync_.slots_ + -1 + 1
        omega
    | drain wi =>
      refine h.move hk rfl hwf rfl ?_ ?_ (.inr ?_) (.inr le_rfl)
      · change q.rd_sync_.slots_ + -1 + 1 = q.rd_sync_.slots_ + 0
        omega
      · change q.wr_sync_.slots_ + ((wi : ℤ) + 0) = q.wr_sync_.slots_ + wi
        omega
      · change q.rd_sync_.slots_ + 0 ≤ q.rd_sync_.slots_ + -1 + 1
        omega
    | fill i => exact hwf.elim

/-- A slot that was taken in vain is put back. -/
theorem Inv.restore (h : Inv n l q) (hk : q.threads[k]? = some (.getSlot task wait .add)) :
    Inv n l ((q.addSlots task.getSide 1).setThread k (.getSlot task wait .poll)) := by
  have hwf := h.wf _ (List.mem_of_getElem? hk)
  cases task with
  | push b =>
    refine h.move hk rfl trivial rfl rfl ?_ (.inr le_rfl) (.inr ?_)
    · change q.wr_sync_.slots_ + 1 + 0 = q.wr_sync_.slots_ + (0 + 1)
      omega
    · change q.wr_sync_.slots_ + 1 ≤ q.wr_sync_.slots_ + 1 + 0
      omega
  | pop =>
    refine h.move hk rfl trivial rfl ?_ rfl (.inr ?_) (.inr le_rfl)
    · change q.rd_sync_.slots_ + 1 + 0 = q.rd_sync_.slots_ + 1
      omega
    · change q.rd_sync_.slots_ + 1 ≤ q.rd_sync_.slots_ + 1 + 0
      omega
  | eat wi =>
    refine h.move hk rfl hwf rfl rfl ?_ (.inr le_rfl) (.inr ?_)
    · change q.wr_sync_.slots_ + 1 + (wi : ℤ) = q.wr_sync_.slots_ + (wi + 1)
      omega
    · change q.wr_sync_.slots_ + 1 ≤ q.wr_sync_.slots_ + 1 + 0
      omega
  | drain wi =>
    refine h.move hk rfl hwf rfl ?_ ?_ (.inr ?_) (.inr le_rfl)
    · change q.rd_sync_.slots_ + 1 + 0 = q.rd_sync_.slots_ + 1
      omega
    · change q.wr_sync_.slots_ + (wi : ℤ) = q.wr_sync_.slots_ + (wi + 0)
      omega
    · change q.rd_sync_.slots_ + 1 ≤ q.rd_sync_.slots_ + 1 + 0
      omega
  | fill i => exact hwf.elim

theorem setThread_setThread (q : CBufQueue α) (k : ℕ) (t t' : Thread α) :
    (q.setThread k t).setThread k t' = q.setThread k t' := by
  unfold setThread
  rw [List.set_set]

theorem noSlot_setThread (q : CBufQueue α) (k : ℕ) (t : Thread α) (task : Task α) :
    (q.setThread k t).noSlot k task = q.noSlot k task := by
  cases task <;> simp [CBufQueue.noSlot, CBufQueue.eatMore, setThread]

theorem getElem?_setThread (hk : q.threads[k]? = some t) (t' : Thread α) :
    (q.setThread k t').threads[k]? = some t' :=
  List.getElem?_set_self (List.getElem?_eq_some_iff.1 hk).1

theorem Inv.add (h : Inv n l q) (hk : q.threads[k]? = some (.getSlot task wait .add)) :
    ∃ q', q.getSlot k task wait .add = some q' ∧ Inv n l q' := by
  have hpoll := h.restore hk
  have hk' : (q.addSlots task.getSide 1).threads[k]? = some (.getSlot task wait .add) := by
    rwa [addSlots, setSync_threads]
  have hplace := getElem?_setThread hk' (.getSlot task wait .poll)
  refine ⟨_, rfl, ?_⟩
  split_ifs
  · exact hpoll
  · rw [← setThread_setThread _ k (.getSlot task wait .poll)]
    exact hpoll.goto hplace Place.noConfusion Place.noConfusion
  · rw [← noSlot_setThread _ k (.getSlot task wait .poll)]
    exact hpoll.noSlot hplace Place.noConfusion

theorem Inv.getSlot (h : Inv n l q) (hk : q.threads[k]? = some (.getSlot task wait at'))
    (hq : q.getSlot k task wait at' = some q') : Inv n l q' := by
  cases at' with
  | sub =>
    obtain ⟨q'', hq'', hi⟩ := h.sub hk
    obtain rfl : q' = q'' := Option.some.inj (hq.symm.trans hq'')
    exact hi
  | add =>
    obtain ⟨q'', hq'', hi⟩ := h.add hk
    obtain rfl : q' = q'' := Option.some.inj (hq.symm.trans hq'')
    exact hi
  | poll =>
    cases hq
    refine (h.setPending task.getSide _).goto (by rwa [setSync_threads]) Place.noConfusion ?_
    split_ifs <;> exact Place.noConfusion
  | handle =>
    cases hq
    exact (h.setPending task.getSide false).goto (by rwa [setSync_threads]) Place.noConfusion
      Place.noConfusion
  | notify => cases hq
  | asleep => cases hq

/-- A thread that has a writer's slot finds room. -/
theorem Inv.accessPush (h : Inv n l q) {b : α} (hk : q.threads[k]? = some (.access (.push b))) :
    Inv n (l ++ [b]) (q.access k (.push b)) := by
  have hle : 1 - 0 + (l.length : ℤ) + q.parked ≤ n := h.room_le (List.mem_of_getElem? hk)
  have hparked := q.parked_nonneg
  have hdepth := h.depth
  obtain ⟨base, hpush, hholds, hsz⟩ := h.holds.bounded_push (by omega) b
  have hq : q.access k (.push b) = { q.setThread k (.putSlot (.push b) false) with
      base := base
      pushed := q.pushed ++ [b] } := by
    rw [CBufQueue.access, hpush]
  have horder : q.pushed ++ [b] = q.popped ++ (l ++ [b]) := by
    rw [h.order, List.append_assoc]
  rw [hq]
  refine h.set hk rfl rfl trivial (fun up hup ↦ absurd hup.symm (Option.some_ne_none up))
    (.inl ⟨rfl, rfl⟩) hholds hsz horder ?_ ?_ (.inr le_rfl) (.inr le_rfl)
  · change q.rd_sync_.slots_ + 1 - ((l ++ [b]).length : ℤ) = q.rd_sync_.slots_ + 0 - l.length
    simp only [List.length_append, List.length_singleton]
    omega
  · change q.wr_sync_.slots_ + 0 + ((l ++ [b]).length : ℤ) + q.parked =
      q.wr_sync_.slots_ + 1 + l.length + q.parked
    simp only [List.length_append, List.length_singleton]
    omega

/-- A thread that has a reader's slot finds a chain: the oldest. -/
theorem Inv.accessPop (h : Inv n l q) (hk : q.threads[k]? = some (.access task))
    (hrd : (Thread.access task).rdWeight = 1) :
    ∃ b l', l = b :: l' ∧ Inv n l' (q.access k task) ∧
      (q.access k task).popped = q.popped ++ [b] := by
  have hwf := h.wf _ (List.mem_of_getElem? hk)
  have hge : (Thread.access task).rdWeight - 0 ≤ l.length := h.filled_ge (List.mem_of_getElem? hk)
  cases l with
  | nil =>
    rw [hrd] at hge
    simp at hge
  | cons b l =>
    obtain ⟨base, hpop, hholds, hsz⟩ := h.holds.pop
    have horder : q.pushed = q.popped ++ [b] ++ l := by
      rw [h.order, List.append_assoc]
      rfl
    have hq : q.access k task = { q.setThread k (.putSlot task false) with
        base := base
        popped := q.popped ++ [b] } := by
      cases task with
      | push b => cases hrd
      | fill i => cases hrd
      | eat wi => cases hrd
      | pop =>
        unfold CBufQueue.access
        rw [hpop]
      | drain wi =>
        unfold CBufQueue.access
        rw [hpop]
    refine ⟨b, l, rfl, ?_, by rw [hq]⟩
    have hlen : ((b :: l).length : ℤ) = l.length + 1 := by simp
    rw [hq]
    cases task with
    | push b => cases hrd
    | fill i => cases hrd
    | eat wi => cases hrd
    | pop =>
      refine h.set hk rfl rfl trivial (fun up hup ↦ absurd hup.symm (Option.some_ne_none up))
        (.inl ⟨rfl, rfl⟩) hholds hsz horder ?_ ?_ (.inr le_rfl) (.inr le_rfl)
      · change q.rd_sync_.slots_ + 0 - (l.length : ℤ) =
          q.rd_sync_.slots_ + 1 - ((b :: l).length : ℤ)
        omega
      · change q.wr_sync_.slots_ + (0 + 1) + (l.length : ℤ) + q.parked =
          q.wr_sync_.slots_ + 0 + ((b :: l).length : ℤ) + q.parked
        omega
    | drain wi =>
      refine h.set hk rfl rfl trivial (fun up hup ↦ h.mutex k _ up hk hup) (.inl ⟨rfl, rfl⟩) hholds
        hsz horder ?_ ?_ (.inr le_rfl) (.inr le_rfl)
      · change q.rd_sync_.slots_ + 0 - (l.length : ℤ) =
          q.rd_sync_.slots_ + 1 - ((b :: l).length : ℤ)
        omega
      · change q.wr_sync_.slots_ + ((wi : ℤ) + 1) + (l.length : ℤ) + q.parked =
          q.wr_sync_.slots_ + wi + ((b :: l).length : ℤ) + q.parked
        omega

theorem Inv.putSlot (h : Inv n l q) (hk : q.threads[k]? = some (.putSlot task false)) :
    Inv n l ((q.addSlots task.putSide 1).setThread k (.putSlot task true)) := by
  have hwf := h.wf _ (List.mem_of_getElem? hk)
  have hslots (x : ℤ) : x + 0 ≤ x + 1 + 0 := by omega
  cases task with
  | push b =>
    refine h.move hk rfl trivial rfl ?_ rfl (.inr (hslots _)) (.inr le_rfl)
    change q.rd_sync_.slots_ + 1 + 0 = q.rd_sync_.slots_ + 1
    omega
  | pop =>
    refine h.move hk rfl trivial rfl rfl ?_ (.inr le_rfl) (.inr (hslots _))
    change q.wr_sync_.slots_ + 1 + 0 = q.wr_sync_.slots_ + (0 + 1)
    omega
  | eat wi => exact hwf.elim
  | drain wi =>
    refine h.move hk rfl trivial rfl rfl ?_ (.inr le_rfl) (.inr (hslots _))
    change q.wr_sync_.slots_ + 1 + (wi : ℤ) = q.wr_sync_.slots_ + ((wi : ℤ) + 1)
    omega
  | fill i =>
    refine h.move hk rfl hwf rfl rfl ?_ (.inr le_rfl) (.inr (hslots _))
    change q.wr_sync_.slots_ + 1 + ((n : ℤ) - i - 1) = q.wr_sync_.slots_ + ((n : ℤ) - i - 1 + 1)
    omega

theorem Inv.putDone (h : Inv n l q) (hk : q.threads[k]? = some (.putSlot task true)) :
    Inv n l (q.putDone k task) := by
  have hwf := h.wf _ (List.mem_of_getElem? hk)
  cases task with
  | push b => exact h.move hk rfl trivial rfl rfl rfl (.inr le_rfl) (.inr le_rfl)
  | pop => exact h.move hk rfl trivial rfl rfl rfl (.inr le_rfl) (.inr le_rfl)
  | eat wi => exact hwf.elim
  | drain wi => exact h.move hk rfl rfl rfl rfl rfl (.inr le_rfl) (.inr le_rfl)
  | fill i =>
    obtain ⟨hmtx, hup⟩ := h.mutex k _ true hk rfl
    have hsize := h.size
    unfold CBufQueue.putDone
    dsimp only
    split_ifs with hi
    · have hi : i + 1 < n := hsize ▸ hi
      refine h.move hk rfl hi rfl rfl ?_ (.inr le_rfl) (.inr le_rfl)
      change q.wr_sync_.slots_ + ((n : ℤ) - ((i + 1 : ℕ) : ℤ) - 1 + 1) =
        q.wr_sync_.slots_ + ((n : ℤ) - i - 1)
      omega
    · have hi' : i < n := hwf
      refine h.set (v := .idle) hk rfl rfl trivial
        (fun up hup ↦ absurd hup.symm (Option.some_ne_none up)) (.inr (.inr hmtx)) h.holds rfl h.order
        rfl ?_ (.inr le_rfl) (.inr le_rfl)
      have hback : ({ q.setThread k .idle with mtx_ := none } : CBufQueue α).parked = 0 := by
        simp [parked, setThread, hup]
      have hnone : q.parked = 0 := by
        simp [parked, hup]
      rw [hback, hnone]
      change q.wr_sync_.slots_ + 0 + (l.length : ℤ) + 0 =
        q.wr_sync_.slots_ + ((n : ℤ) - i - 1) + l.length + 0
      omega

theorem Inv.notified (h : Inv n l q) (hk : q.threads[k]? = some t) (hq : q.notified k t = some q') :
    Inv n l q' := by
  have hwf := h.wf t (List.mem_of_getElem? hk)
  unfold CBufQueue.notified at hq
  split at hq
  · cases hq
    exact h.noSlot hk Place.noConfusion
  · cases hq
    exact h.putDone hk
  · exact hwf.elim
  · cases hq

theorem Inv.awake (h : Inv n l q) (hq : q.awake k = some q') : Inv n l q' := by
  unfold CBufQueue.awake at hq
  split at hq
  · rename_i hk
    cases hq
    exact h.goto hk Place.noConfusion Place.noConfusion
  · cases hq

/-- A thread that is woken is not the one that notifies. -/
theorem signal_threads {s : Side} {woken : Option ℕ} (hk : q.threads[k]? = some t)
    (ht : t.notifies .rd || t.notifies .wr) (hq : q.signal s woken = some q') :
    q'.threads[k]? = some t := by
  cases woken with
  | none =>
    unfold CBufQueue.signal at hq
    dsimp only at hq
    split_ifs at hq
    cases hq
    exact hk
  | some j =>
    unfold CBufQueue.signal CBufQueue.awake at hq
    dsimp only at hq
    split_ifs at hq
    split at hq
    · rename_i task wait hj
      cases hq
      have hne : j ≠ k := by
        rintro rfl
        obtain rfl := Option.some.inj (hj.symm.trans hk)
        cases ht
      exact (List.getElem?_set_ne hne).trans hk
    · cases hq

theorem Inv.signal {s : Side} {woken : Option ℕ} (h : Inv n l q) (hq : q.signal s woken = some q') :
    Inv n l q' := by
  cases woken with
  | none =>
    unfold CBufQueue.signal at hq
    dsimp only at hq
    split_ifs at hq
    cases hq
    exact h
  | some j =>
    unfold CBufQueue.signal at hq
    dsimp only at hq
    split_ifs at hq
    exact h.awake hq

theorem Inv.shutdown (h : Inv n l q) (hk : q.threads[k]? = some .idle) (hmtx : q.mtx_ = none)
    (hup : q.isUp_ = true) :
    Inv n l (CBufQueue.eatMore { q with isUp_ := false, mtx_ := some k } k 0) := by
  have hparked : q.parked = 0 := by simp [parked, hup]
  unfold CBufQueue.eatMore
  split_ifs with hpos
  · have hrole : ∀ up, (Thread.getSlot (.eat 0) .no .sub : Thread α).role = some up →
        some k = some k ∧ false = up := fun up h ↦ ⟨rfl, Option.some.inj h⟩
    refine h.set (v := .getSlot (.eat 0) .no .sub) hk rfl rfl rfl hrole (.inr (.inl hmtx)) h.holds
      rfl h.order rfl ?_ (.inr le_rfl) (.inr le_rfl)
    rw [hparked]
    rfl
  · have hsize : q.n_ = 0 := Nat.eq_zero_of_not_pos hpos
    refine h.set (v := .idle) hk rfl rfl trivial
      (fun up hup ↦ absurd hup.symm (Option.some_ne_none up)) (.inr (.inl hmtx)) h.holds rfl h.order
      rfl ?_ (.inr le_rfl) (.inr le_rfl)
    have hnone : ({ setThread { q with isUp_ := false, mtx_ := some k } k .idle with
        mtx_ := none } : CBufQueue α).parked = 0 := by
      simp [parked, setThread, hsize]
    rw [hparked, hnone]
    rfl

theorem Inv.startup (h : Inv n l q) (hk : q.threads[k]? = some .idle) (hmtx : q.mtx_ = none)
    (hup : q.isUp_ = false) (hpos : 0 < q.n_) :
    Inv n l { q.setThread k (.putSlot (.fill 0) false) with isUp_ := true, mtx_ := some k } := by
  have hsize := h.size
  have hrole : ∀ up, (Thread.putSlot (.fill 0) false : Thread α).role = some up →
      some k = some k ∧ true = up := fun up h ↦ ⟨rfl, Option.some.inj h⟩
  have hparked : q.parked = n := by simp [parked, hup, hmtx, hsize]
  refine h.set (v := .putSlot (.fill 0) false) hk rfl rfl (hsize ▸ hpos) hrole (.inr (.inl hmtx))
    h.holds rfl h.order rfl ?_ (.inr le_rfl) (.inr le_rfl)
  rw [hparked]
  change q.wr_sync_.slots_ + ((n : ℤ) - ((0 : ℕ) : ℤ) - 1 + 1) + l.length + 0 =
    q.wr_sync_.slots_ + 0 + l.length + n
  omega

theorem Inv.startupNone (h : Inv n l q) (hmtx : q.mtx_ = none)
    (hsize : q.n_ = 0) : Inv n l { q with isUp_ := true } where
  size := h.size
  wf := h.wf
  mutex k t up hk hr := absurd ((h.mutex k t up hk hr).1.symm.trans hmtx) (Option.some_ne_none k)
  holds := h.holds
  depth := h.depth
  order := h.order
  filled := h.filled
  room := by
    have hparked : q.parked = 0 := by simp [parked, hsize]
    have hroom := h.room
    rwa [hparked] at hroom
  rd := h.rd
  wr := h.wr

theorem idle_of_any (h : (q.threads[k]?).any (·.isIdle)) : q.threads[k]? = some .idle := by
  cases hk : q.threads[k]? with
  | none => simp [hk] at h
  | some t => cases t <;> simp_all [Thread.isIdle]

theorem Inv.call {c : Call α} (h : Inv n l q) (hk : q.threads[k]? = some .idle)
    (hq : q.call k c = some q') : Inv n l q' := by
  cases c with
  | push b wait =>
    cases hq
    exact h.move hk rfl trivial rfl rfl rfl (.inr le_rfl) (.inr le_rfl)
  | pop wait =>
    cases hq
    exact h.move hk rfl trivial rfl rfl rfl (.inr le_rfl) (.inr le_rfl)
  | shutdown =>
    unfold CBufQueue.call at hq
    dsimp only at hq
    split_ifs at hq with hmtx hup
    · cases hq
      exact h
    · cases hq
      exact h.shutdown hk (not_not.1 hmtx) (Bool.not_eq_false _ ▸ hup)
  | startup =>
    unfold CBufQueue.call at hq
    dsimp only at hq
    split_ifs at hq with hmtx hup hpos
    · cases hq
      exact h
    · cases hq
      exact h.startup hk (not_not.1 hmtx) (Bool.not_eq_true _ ▸ hup) hpos
    · cases hq
      exact h.startupNone (not_not.1 hmtx) (Nat.eq_zero_of_not_pos hpos)

theorem Inv.run (h : Inv n l q) (hk : q.threads[k]? = some t) (hq : q.run k t = some q') :
    ∃ l', Inv n l' q' := by
  have hwf := h.wf t (List.mem_of_getElem? hk)
  unfold CBufQueue.run at hq
  split at hq
  · exact ⟨l, h.getSlot hk hq⟩
  · rename_i task
    cases hq
    cases task with
    | push b => exact ⟨_, h.accessPush hk⟩
    | pop =>
      obtain ⟨b, l', hl, hi, hpopped⟩ := h.accessPop hk rfl
      exact ⟨l', hi⟩
    | drain wi =>
      obtain ⟨b, l', hl, hi, hpopped⟩ := h.accessPop hk rfl
      exact ⟨l', hi⟩
    | eat wi => exact hwf.elim
    | fill i => exact hwf.elim
  · cases hq
    exact ⟨l, h.putSlot hk⟩
  · exact hwf.elim
  · cases hq

/-- Any step of any thread. -/
theorem Inv.exec {e : Event α} (h : Inv n l q) (hq : q.exec e = some q') : ∃ l', Inv n l' q' := by
  cases e with
  | call k c =>
    unfold CBufQueue.exec at hq
    dsimp only at hq
    split_ifs at hq with hidle
    exact ⟨l, h.call (idle_of_any hidle) hq⟩
  | run k =>
    obtain ⟨t, hk, hrun⟩ := Option.bind_eq_some_iff.1 hq
    exact h.run hk hrun
  | notify k woken =>
    obtain ⟨t, hk, hnotify⟩ := Option.bind_eq_some_iff.1 hq
    split_ifs at hnotify with ht
    obtain ⟨q₁, hsignal, hdone⟩ := Option.bind_eq_some_iff.1 hnotify
    exact ⟨l, (h.signal hsignal).notified (signal_threads hk ht hsignal) hdone⟩
  | wake k => exact ⟨l, h.awake hq⟩
  | timeOut k =>
    unfold CBufQueue.exec at hq
    dsimp only at hq
    split at hq
    · rename_i task hk
      cases hq
      exact ⟨l, h.noSlot hk Place.noConfusion⟩
    · cases hq

theorem Reachable.inv {m : ℕ} (h : Reachable n m q) : ∃ l, Inv n l q := by
  induction h with
  | refl => exact ⟨[], inv_create n m⟩
  | tail _ hstep ih =>
    obtain ⟨l, hl⟩ := ih
    obtain ⟨e, he⟩ := hstep
    exact hl.exec he

/-- No side ever counts a slot too many. -/
theorem Inv.rd_slots_le (h : Inv n l q) : q.rd_sync_.slots_ ≤ l.length := by
  have hnonneg : 0 ≤ tally Thread.rdWeight q.threads :=
    tally_nonneg fun t _ ↦ (t.restores_nonneg .rd).trans t.restores_le_rdWeight
  have hfilled := h.filled
  omega

theorem Inv.wr_slots_le (h : Inv n l q) : q.wr_sync_.slots_ + l.length ≤ n := by
  have hnonneg : 0 ≤ tally (Thread.wrWeight n) q.threads :=
    tally_nonneg fun t ht ↦ (t.restores_nonneg .wr).trans (Thread.restores_le_wrWeight (h.wf t ht))
  have hroom := h.room
  have hparked := q.parked_nonneg
  omega

/-- Between calls the counts are exact. -/
theorem Inv.slots (h : Inv n l q) (hidle : ∀ t ∈ q.threads, t = .idle) :
    q.rd_sync_.slots_ = l.length ∧ q.wr_sync_.slots_ + l.length + q.parked = n := by
  have hrd : tally Thread.rdWeight q.threads = 0 :=
    tally_eq_zero fun t ht ↦ hidle t ht ▸ rfl
  have hwr : tally (Thread.wrWeight n) q.threads = 0 :=
    tally_eq_zero fun t ht ↦ hidle t ht ▸ rfl
  have hfilled := h.filled
  have hroom := h.room
  omega

/-- Whatever order the threads run in, chains come out once each and in the order in which they
went in, no side counts a slot too many, and neither internal error is ever raised. -/
theorem Reachable.first_in_first_out {m : ℕ} (h : Reachable n m q) :
    ∃ l, q.pushed = q.popped ++ l ∧ q.base.Holds l ∧ l.length ≤ n ∧
      q.rd_sync_.slots_ ≤ l.length ∧ q.wr_sync_.slots_ + l.length ≤ n ∧
      (∀ notify, .undo notify ∉ q.threads) ∧ .threw ∉ q.threads ∧
      ((∀ t ∈ q.threads, t = .idle) → q.isUp_ = true →
        q.rd_sync_.slots_ = l.length ∧ q.wr_sync_.slots_ = n - l.length) := by
  obtain ⟨l, hl⟩ := h.inv
  refine ⟨l, hl.order, hl.holds, hl.depth ▸ hl.holds.le, hl.rd_slots_le, hl.wr_slots_le,
    fun notify ht ↦ hl.wf _ ht, fun ht ↦ hl.wf _ ht, fun hidle hup ↦ ?_⟩
  obtain ⟨hrd, hwr⟩ := hl.slots hidle
  have hparked : q.parked = 0 := by simp [parked, hup]
  exact ⟨hrd, by omega⟩

/-- A chain is in, and a thread that looked for it too early has not yet put its slot back. -/
def raced : CBufQueue ℕ where
  n_ := 2
  base := { fifo_ := [some 7, none], rp_ := 0, wp_ := 1, fl_ := 1, sz_ := 2 }
  rd_sync_ := { slots_ := 0 }
  wr_sync_ := { slots_ := 1 }
  threads := [.putSlot (.push 7) true, .getSlot .pop .no .add]
  pushed := [7]

theorem first_in_first_out_raced : ∃ l, [7] = [] ++ l ∧ raced.base.Holds l ∧ l.length ≤ 2 := by
  have hrun : (create 2 2).execs [.call 0 (.push 7 .no), .call 1 (.pop .no), .run 0, .run 1,
      .run 0, .run 0] = some raced := by decide +kernel
  obtain ⟨l, horder, hholds, hle, -⟩ := (Reachable.execs .refl hrun).first_in_first_out
  exact ⟨l, horder, hholds, hle⟩

end CBufQueue

end Cpsw.BufQ
