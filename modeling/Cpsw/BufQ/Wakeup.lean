import Cpsw.BufQ.Fifo

namespace Cpsw.BufQ

open Lib.Run Lib.Tally

variable {α : Type} {n k : ℕ} {t v : Thread α} {s : Side}

/-- Where at most one member has a property there is one place for it. -/
theorem eq_of_countP_le_one {τ : Type} {p : τ → Bool} {ts : List τ} {j k : ℕ} {t u : τ}
    (h : ts.countP p ≤ 1) (hj : ts[j]? = some t) (hk : ts[k]? = some u) (ht : p t) (hu : p u) :
    j = k := by
  induction ts generalizing j k with
  | nil => simp at hj
  | cons x ts ih =>
    have hmem {i : ℕ} {y : τ} (hi : ts[i]? = some y) (hy : p y) : 0 < ts.countP p :=
      List.countP_pos_iff.2 ⟨y, List.mem_of_getElem? hi, hy⟩
    rw [List.countP_cons] at h
    cases j with
    | zero =>
      cases k with
      | zero => rfl
      | succ k =>
        obtain rfl : x = t := by simpa using hj
        have hpos := hmem (by simpa using hk) hu
        rw [if_pos ht] at h
        omega
    | succ j =>
      cases k with
      | zero =>
        obtain rfl : x = u := by simpa using hk
        have hpos := hmem (by simpa using hj) ht
        rw [if_pos hu] at h
        omega
      | succ k => exact congrArg (· + 1) (ih (by omega) (by simpa using hj) (by simpa using hk))

namespace Thread

/-- The thread will not give up before it has a slot of this side, or its time is over. -/
def waitsOn (s : Side) : Thread α → Bool
  | .getSlot task wait _ => wait ≠ .no && task.getSide = s
  | _ => false

/-- Only who waits comes to wait for an event. -/
def Placed : Thread α → Prop
  | .getSlot _ wait .poll => wait ≠ .no
  | .getSlot _ wait .asleep => wait ≠ .no
  | .getSlot _ wait .handle => wait ≠ .no
  | _ => True

theorem waitsOn_of_asleepOn (h : t.Placed) (hs : t.asleepOn s) : t.waitsOn s := by
  unfold asleepOn at hs
  split at hs
  · have hwait : _ ≠ Wait.no := h
    simpa [waitsOn, hwait] using hs
  · cases hs

end Thread

namespace CBufQueue

variable {q q' q'' : CBufQueue α} {l : List α} {task : Task α} {wait : Wait} {at' : Place}

/-- At most one thread waits for a slot of this side. -/
def OneWaits (s : Side) (q : CBufQueue α) : Prop := q.threads.countP (·.waitsOn s) ≤ 1

instance decidableOneWaits (s : Side) (q : CBufQueue α) : Decidable (q.OneWaits s) :=
  Nat.decLe _ _

/-- Who sleeps has nothing to wake up for, or somebody is about to notify. -/
structure Heard (s : Side) (q : CBufQueue α) : Prop where
  placed : ∀ t ∈ q.threads, t.Placed
  heard : ∀ t ∈ q.threads, t.asleepOn s → (q.sync s).slots_ ≤ 0 ∨ ∃ u ∈ q.threads, u.notifies s

theorem heard_create (s : Side) (n m : ℕ) : Heard s (create n m : CBufQueue α) where
  placed t ht := by
    rw [List.eq_of_mem_replicate ht]
    exact trivial
  heard t ht hs := by
    rw [List.eq_of_mem_replicate ht] at hs
    cases hs

/-- One thread does a step. -/
theorem Heard.set (h : Heard s q) (hk : q.threads[k]? = some t)
    (hthreads : q'.threads = q.threads.set k v) (hplaced : v.Placed)
    (hasleep : v.asleepOn s → (q'.sync s).slots_ ≤ 0)
    (hslots : (q'.sync s).slots_ ≤ 0 ∨ v.notifies s ∨
      (0 < (q.sync s).slots_ ∧ t.notifies s = false) ∨
      ∀ j u, j ≠ k → q.threads[j]? = some u → u.asleepOn s = false) :
    Heard s q' where
  placed u hu := by
    rw [hthreads] at hu
    rcases List.mem_or_eq_of_mem_set hu with hu | rfl
    · exact h.placed u hu
    · exact hplaced
  heard u hu hs := by
    rw [hthreads] at hu ⊢
    have hlt : k < q.threads.length := (List.getElem?_eq_some_iff.1 hk).1
    rcases hslots with hslots | hv | ⟨hpos, ht⟩ | hnone
    · exact .inl hslots
    · exact .inr ⟨v, List.mem_set hlt v, hv⟩
    · rcases List.mem_or_eq_of_mem_set hu with hu | rfl
      · rcases h.heard u hu hs with hle | ⟨x, hx, hnotifies⟩
        · omega
        · obtain ⟨j, hj⟩ := List.mem_iff_getElem?.1 hx
          refine .inr ⟨x, ?_, hnotifies⟩
          have hne : k ≠ j := by
            rintro rfl
            obtain rfl : t = x := Option.some.inj (hk.symm.trans hj)
            rw [ht] at hnotifies
            cases hnotifies
          exact List.mem_iff_getElem?.2 ⟨j, (List.getElem?_set_ne hne).trans hj⟩
      · exact .inl (hasleep hs)
    · obtain ⟨j, hj⟩ := List.mem_iff_getElem?.1 hu
      by_cases hne : k = j
      · subst hne
        rw [List.getElem?_set_self hlt] at hj
        obtain rfl : v = u := Option.some.inj hj
        exact .inl (hasleep hs)
      · rw [List.getElem?_set_ne hne] at hj
        rw [hnone j u (Ne.symm hne) hj] at hs
        cases hs

/-- A thread goes on to something else than sleep, and touches no slot. -/
structure Goes (k : ℕ) (q q' : CBufQueue α) (v : Thread α) : Prop where
  threads : q'.threads = q.threads.set k v
  slots : ∀ s, (q'.sync s).slots_ = (q.sync s).slots_
  placed : v.Placed
  awake : ∀ s, v.asleepOn s = false

theorem Heard.goes (h : Heard s q) (hk : q.threads[k]? = some t) (hgo : Goes k q' q'' v)
    (hthreads : q'.threads = q.threads) (hle : (q'.sync s).slots_ ≤ (q.sync s).slots_)
    (ht : t.notifies s = false ∨ ∀ j u, j ≠ k → q.threads[j]? = some u → u.asleepOn s = false) :
    Heard s q'' := by
  refine h.set hk (hthreads ▸ hgo.threads) hgo.placed (fun hs ↦ ?_) ?_
  · rw [hgo.awake s] at hs
    cases hs
  · rw [hgo.slots s]
    rcases ht with ht | hnone
    · rcases lt_or_ge 0 (q.sync s).slots_ with hpos | hnonpos
      · exact .inr (.inr (.inl ⟨hpos, ht⟩))
      · exact .inl (hle.trans hnonpos)
    · exact .inr (.inr (.inr hnone))

theorem goes_setThread (hplaced : v.Placed) (hawake : ∀ s, v.asleepOn s = false) :
    Goes k q (q.setThread k v) v :=
  ⟨rfl, fun s ↦ by cases s <;> rfl, hplaced, hawake⟩

theorem goes_eatMore (q : CBufQueue α) (k wi : ℕ) : ∃ v, Goes k q (q.eatMore k wi) v := by
  unfold eatMore
  split_ifs
  · exact ⟨_, goes_setThread trivial fun _ ↦ rfl⟩
  · exact ⟨.idle, rfl, fun s ↦ by cases s <;> rfl, trivial, fun _ ↦ rfl⟩

theorem goes_noSlot (q : CBufQueue α) (k : ℕ) (task : Task α) :
    ∃ v, Goes k q (q.noSlot k task) v := by
  cases task with
  | drain wi => exact goes_eatMore q k wi
  | push b => exact ⟨_, goes_setThread trivial fun _ ↦ rfl⟩
  | pop => exact ⟨_, goes_setThread trivial fun _ ↦ rfl⟩
  | eat wi => exact ⟨_, goes_setThread trivial fun _ ↦ rfl⟩
  | fill i => exact ⟨_, goes_setThread trivial fun _ ↦ rfl⟩

theorem goes_putDone (q : CBufQueue α) (k : ℕ) (task : Task α) :
    ∃ v, Goes k q (q.putDone k task) v := by
  cases task with
  | push b => exact ⟨_, goes_setThread trivial fun _ ↦ rfl⟩
  | pop => exact ⟨_, goes_setThread trivial fun _ ↦ rfl⟩
  | eat wi => exact ⟨_, goes_setThread trivial fun _ ↦ rfl⟩
  | drain wi => exact ⟨_, goes_setThread trivial fun _ ↦ rfl⟩
  | fill i =>
    unfold CBufQueue.putDone
    dsimp only
    split_ifs
    · exact ⟨_, goes_setThread trivial fun _ ↦ rfl⟩
    · exact ⟨.idle, rfl, fun s ↦ by cases s <;> rfl, trivial, fun _ ↦ rfl⟩

theorem goes_gotSlot (q : CBufQueue α) (k : ℕ) (task : Task α) :
    ∃ v, Goes k q (q.gotSlot k task) v := by
  cases task <;> exact ⟨_, goes_setThread trivial fun _ ↦ rfl⟩

theorem goes_access (q : CBufQueue α) (k : ℕ) (task : Task α) :
    ∃ v, Goes k q (q.access k task) v := by
  have hsome (task : Task α) (base : CBufQueueBase α) (pushed popped : List α) :
      Goes k q { q.setThread k (.putSlot task false) with
        base := base, pushed := pushed, popped := popped } (.putSlot task false) :=
    ⟨rfl, fun s ↦ by cases s <;> rfl, trivial, fun _ ↦ rfl⟩
  unfold CBufQueue.access
  split
  · split
    · exact ⟨_, hsome _ _ _ _⟩
    · exact ⟨_, goes_setThread trivial fun _ ↦ rfl⟩
  · split
    · exact ⟨_, hsome _ _ _ _⟩
    · exact ⟨_, goes_setThread trivial fun _ ↦ rfl⟩

theorem sync_addSlots (q : CBufQueue α) (r s : Side) (d : ℤ) :
    ((q.addSlots r d).sync s).slots_ = (q.sync s).slots_ + if r = s then d else 0 := by
  cases r <;> cases s <;> simp [addSlots, setSync, CBufQueue.sync]

theorem sync_setThread (q : CBufQueue α) (k : ℕ) (v : Thread α) (s : Side) :
    (q.setThread k v).sync s = q.sync s := by
  cases s <;> rfl

/-- While one thread waits no other one sleeps. -/
theorem Heard.none_asleep (h : Heard s q) (hone : q.OneWaits s) (hk : q.threads[k]? = some t)
    (ht : t.waitsOn s) (j : ℕ) (u : Thread α) (hj : j ≠ k) (hu : q.threads[j]? = some u) :
    u.asleepOn s = false := by
  rw [← Bool.not_eq_true]
  intro hs
  have hplaced := h.placed u (List.mem_of_getElem? hu)
  exact hj (eq_of_countP_le_one hone hu hk (Thread.waitsOn_of_asleepOn hplaced hs) ht)

theorem Heard.sub (h : Heard s q) (hk : q.threads[k]? = some (.getSlot task wait .sub))
    (hq : q.getSlot k task wait .sub = some q') : Heard s q' := by
  cases hq
  obtain ⟨v, hgo⟩ : ∃ v, Goes k (q.addSlots task.getSide (-1))
      (if 0 < (q.sync task.getSide).slots_ then (q.addSlots task.getSide (-1)).gotSlot k task
        else (q.addSlots task.getSide (-1)).setThread k (.getSlot task wait .add)) v := by
    split_ifs
    · exact goes_gotSlot _ k task
    · exact ⟨_, goes_setThread trivial fun _ ↦ rfl⟩
  refine h.goes hk hgo (setSync_threads _ _ _) ?_ (.inl rfl)
  rw [sync_addSlots]
  split_ifs <;> omega

/-- Who puts a slot back and does not wait for it notifies, when it may be the only one. -/
theorem Heard.add (h : Heard s q) (hone : q.OneWaits s)
    (hk : q.threads[k]? = some (.getSlot task wait .add))
    (hq : q.getSlot k task wait .add = some q') : Heard s q' := by
  cases hq
  have hthreads (v : Thread α) : ((q.addSlots task.getSide 1).setThread k v).threads =
      q.threads.set k v := congrArg (List.set · k v) (setSync_threads _ _ _)
  split_ifs with hwait hzero
  · refine h.set hk (hthreads _) hwait (fun hs ↦ by cases hs) ?_
    by_cases hs : task.getSide = s
    · refine .inr (.inr (.inr (h.none_asleep hone hk ?_)))
      simp [Thread.waitsOn, hwait, hs]
    · rw [sync_setThread, sync_addSlots, if_neg hs]
      rcases lt_or_ge 0 (q.sync s).slots_ with hpos | hle
      · exact .inr (.inr (.inl ⟨hpos, rfl⟩))
      · exact .inl (by omega)
  · refine h.set hk (hthreads _) trivial (fun hs ↦ by cases hs) ?_
    by_cases hs : task.getSide = s
    · exact .inr (.inl (decide_eq_true hs))
    · rw [sync_setThread, sync_addSlots, if_neg hs]
      rcases lt_or_ge 0 (q.sync s).slots_ with hpos | hle
      · exact .inr (.inr (.inl ⟨hpos, rfl⟩))
      · exact .inl (by omega)
  · obtain ⟨v, hgo⟩ := goes_noSlot (q.addSlots task.getSide 1) k task
    refine h.set hk (hgo.threads.trans (congrArg (List.set · k v) (setSync_threads _ _ _)))
      hgo.placed (fun hs ↦ ?_) ?_
    · rw [hgo.awake s] at hs
      cases hs
    · rw [hgo.slots, sync_addSlots]
      rcases lt_or_ge 0 (q.sync s).slots_ with hpos | hle
      · exact .inr (.inr (.inl ⟨hpos, rfl⟩))
      · refine .inl ?_
        split_ifs with hs
        · subst hs
          omega
        · omega

theorem sync_setPending (q : CBufQueue α) (r s : Side) (b : Bool) :
    ((q.setSync r { q.sync r with pending_ := b }).sync s).slots_ = (q.sync s).slots_ := by
  cases r <;> cases s <;> rfl

/-- A thread goes to sleep when it sees that there is no slot. -/
theorem Heard.poll (h : Heard s q) (hk : q.threads[k]? = some (.getSlot task wait .poll))
    (hq : q.getSlot k task wait .poll = some q') : Heard s q' := by
  have hwait : wait ≠ .no := h.placed _ (List.mem_of_getElem? hk)
  cases hq
  have hthreads (v : Thread α) (b : Bool) : ((q.setSync task.getSide
      { q.sync task.getSide with pending_ := b }).setThread k v).threads = q.threads.set k v :=
    congrArg (List.set · k v) (setSync_threads _ _ _)
  refine h.set hk (hthreads _ _) ?_ (fun hs ↦ ?_) ?_
  · split_ifs <;> exact hwait
  · rw [sync_setThread, sync_setPending]
    split_ifs at hs with hpending
    · cases hs
    · have hside : task.getSide = s := of_decide_eq_true hs
      subst hside
      have hnone : ¬ 0 < (q.sync task.getSide).getAvailSlots :=
        fun hpos ↦ hpending (Bool.or_eq_true_iff.2 (.inr (decide_eq_true hpos)))
      unfold CEventBufSync.getAvailSlots at hnone
      omega
  · rw [sync_setThread, sync_setPending]
    rcases lt_or_ge 0 (q.sync s).slots_ with hpos | hle
    · exact .inr (.inr (.inl ⟨hpos, rfl⟩))
    · exact .inl hle

theorem Heard.handle (h : Heard s q) (hk : q.threads[k]? = some (.getSlot task wait .handle))
    (hq : q.getSlot k task wait .handle = some q') : Heard s q' := by
  cases hq
  exact h.goes hk (goes_setThread trivial fun _ ↦ rfl) (setSync_threads _ _ _)
    (sync_setPending _ _ _ _).le (.inl rfl)

theorem Heard.getSlot (h : Heard s q) (hone : q.OneWaits s)
    (hk : q.threads[k]? = some (.getSlot task wait at'))
    (hq : q.getSlot k task wait at' = some q') : Heard s q' := by
  cases at' with
  | sub => exact h.sub hk hq
  | add => exact h.add hone hk hq
  | poll => exact h.poll hk hq
  | handle => exact h.handle hk hq
  | notify => cases hq
  | asleep => cases hq

theorem Heard.call {c : Call α} (h : Heard s q) (hk : q.threads[k]? = some .idle)
    (hq : q.call k c = some q') : Heard s q' := by
  cases c with
  | push b wait =>
    cases hq
    exact h.goes hk (goes_setThread trivial fun _ ↦ rfl) rfl le_rfl (.inl rfl)
  | pop wait =>
    cases hq
    exact h.goes hk (goes_setThread trivial fun _ ↦ rfl) rfl le_rfl (.inl rfl)
  | shutdown =>
    unfold CBufQueue.call at hq
    dsimp only at hq
    split_ifs at hq
    · cases hq
      exact h
    · cases hq
      obtain ⟨v, hgo⟩ := goes_eatMore { q with isUp_ := false, mtx_ := some k } k 0
      exact h.goes hk hgo rfl (by cases s <;> exact le_rfl) (.inl rfl)
  | startup =>
    unfold CBufQueue.call at hq
    dsimp only at hq
    split_ifs at hq
    · cases hq
      exact h
    · cases hq
      refine h.set hk rfl trivial (fun hs ↦ by cases hs) ?_
      rcases lt_or_ge 0 (q.sync s).slots_ with hpos | hle
      · exact .inr (.inr (.inl ⟨hpos, rfl⟩))
      · exact .inl (by cases s <;> exact hle)
    · cases hq
      exact ⟨h.placed, by cases s <;> exact h.heard⟩

/-- A slot is put, and then its side is notified. -/
theorem Heard.put {r : Side} (h : Heard s q) (hk : q.threads[k]? = some t)
    (ht : t.notifies s = false) (hplaced : v.Placed) (hv : v.notifies r)
    (hawake : v.asleepOn s = false) : Heard s ((q.addSlots r 1).setThread k v) := by
  refine h.set hk (congrArg (List.set · k v) (setSync_threads _ _ _)) hplaced (fun hs ↦ ?_) ?_
  · rw [hawake] at hs
    cases hs
  · by_cases hs : r = s
    · exact .inr (.inl (hs ▸ hv))
    · rw [sync_setThread, sync_addSlots, if_neg hs]
      rcases lt_or_ge 0 (q.sync s).slots_ with hpos | hle
      · exact .inr (.inr (.inl ⟨hpos, ht⟩))
      · exact .inl (by omega)

theorem Heard.run (h : Heard s q) (hone : q.OneWaits s) (hk : q.threads[k]? = some t)
    (hq : q.run k t = some q') : Heard s q' := by
  unfold CBufQueue.run at hq
  split at hq
  · exact h.getSlot hone hk hq
  · rename_i task
    cases hq
    obtain ⟨v, hgo⟩ := goes_access q k task
    exact h.goes hk hgo rfl le_rfl (.inl rfl)
  · rename_i task
    cases hq
    exact h.put hk rfl trivial (decide_eq_true rfl) rfl
  · cases hq
    exact h.put hk rfl trivial rfl rfl
  · cases hq

theorem Heard.awake (h : Heard s q) (hq : q.awake k = some q') : Heard s q' := by
  unfold CBufQueue.awake at hq
  split at hq
  · rename_i task wait hk
    cases hq
    have hwait : wait ≠ .no := h.placed _ (List.mem_of_getElem? hk)
    exact h.goes hk (goes_setThread hwait fun _ ↦ rfl) rfl le_rfl (.inl rfl)
  · cases hq

theorem Heard.signal {r : Side} {woken : Option ℕ} (h : Heard s q)
    (hq : q.signal r woken = some q') : Heard s q' := by
  cases woken with
  | none =>
    unfold CBufQueue.signal at hq
    dsimp only at hq
    split_ifs at hq
    cases hq
    exact h
  | some j =>
    unfold CBufQueue.signal at hq
    dsimp only at hq
    split_ifs at hq
    exact h.awake hq

/-- Where only one thread waits, nobody sleeps on after a notification. -/
theorem Heard.signal_awake {woken : Option ℕ} (h : Heard s q) (hone : q.OneWaits s)
    (hq : q.signal s woken = some q') (u : Thread α) (hu : u ∈ q'.threads) :
    u.asleepOn s = false := by
  cases woken with
  | none =>
    unfold CBufQueue.signal at hq
    dsimp only at hq
    split_ifs at hq with hnone
    cases hq
    exact Bool.not_eq_true _ ▸ fun hs ↦ hnone (List.any_eq_true.2 ⟨u, hu, hs⟩)
  | some j =>
    unfold CBufQueue.signal CBufQueue.awake at hq
    dsimp only at hq
    split_ifs at hq with hasleep
    split at hq
    · rename_i task wait hj
      cases hq
      have hs : (Thread.getSlot task wait .asleep).asleepOn s := by simpa [hj] using hasleep
      have hplaced := h.placed _ (List.mem_of_getElem? hj)
      rcases List.mem_iff_getElem?.1 hu with ⟨i, hi⟩
      by_cases hne : j = i
      · subst hne
        have hlt : j < q.threads.length := (List.getElem?_eq_some_iff.1 hj).1
        obtain rfl := Option.some.inj ((List.getElem?_set_self hlt).symm.trans hi)
        rfl
      · exact h.none_asleep hone hj (Thread.waitsOn_of_asleepOn hplaced hs) i u (Ne.symm hne)
          ((List.getElem?_set_ne hne).symm.trans hi)
    · cases hq

theorem notifies_of_ne (ht : t.notifies .rd || t.notifies .wr) (hs : notifiedSide t ≠ s) :
    t.notifies s = false := by
  unfold notifiedSide at hs
  cases s with
  | rd =>
    split_ifs at hs with hrd
    · exact absurd rfl hs
    · exact Bool.not_eq_true _ ▸ hrd
  | wr =>
    split_ifs at hs with hrd
    · cases t with
      | getSlot task wait at' => cases at' <;> simp_all [Thread.notifies]
      | putSlot task notify => cases notify <;> simp_all [Thread.notifies]
      | undo notify => cases notify <;> simp_all [Thread.notifies]
      | idle => rfl
      | access task => rfl
      | threw => rfl
    · exact absurd rfl hs

theorem Heard.exec {e : Event α} (h : Heard s q) (hone : q.OneWaits s) (hq : q.exec e = some q') :
    Heard s q' := by
  cases e with
  | call k c =>
    unfold CBufQueue.exec at hq
    dsimp only at hq
    split_ifs at hq with hidle
    exact h.call (idle_of_any hidle) hq
  | run k =>
    obtain ⟨t, hk, hrun⟩ := Option.bind_eq_some_iff.1 hq
    exact h.run hone hk hrun
  | notify k woken =>
    obtain ⟨t, hk, hnotify⟩ := Option.bind_eq_some_iff.1 hq
    split_ifs at hnotify with ht
    obtain ⟨q₁, hsignal, hdone⟩ := Option.bind_eq_some_iff.1 hnotify
    have hk₁ := signal_threads hk ht hsignal
    have hquiet : t.notifies s = false ∨
        ∀ (j : ℕ) (u : Thread α), j ≠ k → q₁.threads[j]? = some u → u.asleepOn s = false := by
      by_cases hs : notifiedSide t = s
      · subst hs
        exact .inr fun j u _ hu ↦ h.signal_awake hone hsignal u (List.mem_of_getElem? hu)
      · exact .inl (notifies_of_ne ht hs)
    obtain ⟨v, hgo⟩ : ∃ v, Goes k q₁ q' v := by
      unfold CBufQueue.notified at hdone
      split at hdone
      · cases hdone
        exact goes_noSlot _ _ _
      · cases hdone
        exact goes_putDone _ _ _
      · cases hdone
        exact ⟨_, goes_setThread trivial fun _ ↦ rfl⟩
      · cases hdone
    exact (h.signal hsignal).goes hk₁ hgo rfl le_rfl hquiet
  | wake k => exact h.awake hq
  | timeOut k =>
    unfold CBufQueue.exec at hq
    dsimp only at hq
    split at hq
    · rename_i task hk
      cases hq
      obtain ⟨v, hgo⟩ := goes_noSlot q k task
      exact h.goes hk hgo rfl le_rfl (.inl rfl)
    · cases hq

/-- The thread has a step of its own. -/
def CanGoOn (q : CBufQueue α) (k : ℕ) : Prop :=
  (q.exec (.run k)).isSome ∨ ∃ woken, (q.exec (.notify k woken)).isSome

theorem exists_signal (q : CBufQueue α) (s : Side) : ∃ woken, (q.signal s woken).isSome := by
  by_cases hany : q.threads.any (·.asleepOn s)
  · obtain ⟨t, ht, hs⟩ := List.any_eq_true.1 hany
    obtain ⟨j, hj⟩ := List.mem_iff_getElem?.1 ht
    refine ⟨some j, ?_⟩
    unfold CBufQueue.signal CBufQueue.awake
    dsimp only
    rw [hj, if_pos (by simpa using hs)]
    unfold Thread.asleepOn at hs
    split at hs
    · rfl
    · cases hs
  · refine ⟨none, ?_⟩
    unfold CBufQueue.signal
    dsimp only
    rw [if_neg hany]
    rfl

theorem canGoOn_notify (hk : q.threads[k]? = some t) (ht : t.notifies .rd || t.notifies .wr)
    (hdone : ∀ q₁ : CBufQueue α, (q₁.notified k t).isSome) : q.CanGoOn k := by
  obtain ⟨woken, hsignal⟩ := q.exists_signal (notifiedSide t)
  obtain ⟨q₁, hq₁⟩ := Option.isSome_iff_exists.1 hsignal
  refine .inr ⟨woken, ?_⟩
  unfold CBufQueue.exec
  simp only [hk, Option.bind_eq_bind, Option.bind_some, if_pos ht, hq₁]
  exact hdone q₁

theorem canGoOn_run (hk : q.threads[k]? = some t) (hrun : (q.run k t).isSome) : q.CanGoOn k := by
  refine .inl ?_
  unfold CBufQueue.exec
  simp only [hk, Option.bind_eq_bind, Option.bind_some]
  exact hrun

/-- There is no deadlock but in sleep. -/
theorem Inv.canGoOn (h : Inv n l q) (hk : q.threads[k]? = some t) :
    t = .idle ∨ (∃ task wait, t = .getSlot task wait .asleep) ∨ q.CanGoOn k := by
  have hwf := h.wf t (List.mem_of_getElem? hk)
  cases t with
  | idle => exact .inl rfl
  | getSlot task wait at' =>
    cases at' with
    | asleep => exact .inr (.inl ⟨task, wait, rfl⟩)
    | notify =>
      refine .inr (.inr (canGoOn_notify hk ?_ fun q₁ ↦ rfl))
      cases task <;> rfl
    | sub => exact .inr (.inr (canGoOn_run hk rfl))
    | add => exact .inr (.inr (canGoOn_run hk rfl))
    | poll => exact .inr (.inr (canGoOn_run hk rfl))
    | handle => exact .inr (.inr (canGoOn_run hk rfl))
  | access task => exact .inr (.inr (canGoOn_run hk rfl))
  | putSlot task notify =>
    cases notify with
    | false => exact .inr (.inr (canGoOn_run hk rfl))
    | true =>
      refine .inr (.inr (canGoOn_notify hk ?_ fun q₁ ↦ rfl))
      cases task <;> rfl
  | undo notify => exact hwf.elim
  | threw => exact hwf.elim

theorem not_canGoOn (h : ∀ t ∈ q.threads, t = .idle ∨ ∃ task wait, t = .getSlot task wait .asleep)
    (k : ℕ) : ¬ q.CanGoOn k := by
  rintro (hrun | ⟨woken, hnotify⟩)
  · obtain ⟨q', hq'⟩ := Option.isSome_iff_exists.1 hrun
    obtain ⟨t, hk, ht⟩ := Option.bind_eq_some_iff.1 hq'
    rcases h t (List.mem_of_getElem? hk) with rfl | ⟨task, wait, rfl⟩ <;> cases ht
  · obtain ⟨q', hq'⟩ := Option.isSome_iff_exists.1 hnotify
    obtain ⟨t, hk, ht⟩ := Option.bind_eq_some_iff.1 hq'
    rcases h t (List.mem_of_getElem? hk) with rfl | ⟨task, wait, rfl⟩ <;> cases ht

theorem Heard.run_one {m : ℕ}
    (h : Relation.ReflTransGen (fun a b ↦ Step a b ∧ a.OneWaits s) (create n m) q) :
    Heard s q ∧ Reachable n m q := by
  induction h with
  | refl => exact ⟨heard_create s n m, .refl⟩
  | tail _ hstep ih =>
    obtain ⟨⟨e, he⟩, hone⟩ := hstep
    exact ⟨ih.1.exec hone he, ih.2.tail ⟨e, he⟩⟩

/-- There is nothing that a thread could have a slot of this side for. -/
def Spent (n : ℕ) (q : CBufQueue α) : Side → Prop
  | .rd => q.base.fl_ = 0
  | .wr => q.base.fl_ = n ∨ q.isUp_ = false

/-- Who sleeps sleeps in `push` or in `pop`. -/
theorem Inv.weight_asleep (h : Inv n l q) (hplaced : ∀ t ∈ q.threads, t.Placed)
    (hrest : ∀ t ∈ q.threads, t = .idle ∨ ∃ task wait, t = .getSlot task wait .asleep) :
    tally Thread.rdWeight q.threads = 0 ∧ tally (Thread.wrWeight n) q.threads = 0 := by
  refine ⟨tally_eq_zero fun t ht ↦ ?_, tally_eq_zero fun t ht ↦ ?_⟩
  · rcases hrest t ht with rfl | ⟨task, wait, rfl⟩ <;> rfl
  · rcases hrest t ht with rfl | ⟨task, wait, rfl⟩
    · rfl
    · have hwait : wait ≠ .no := hplaced _ ht
      have hwf := h.wf _ ht
      cases task with
      | push b => rfl
      | pop => rfl
      | eat wi => exact absurd hwf hwait
      | drain wi => exact absurd hwf hwait
      | fill i => exact hwf.elim

/-- As long as at most one thread at a time waits for a side, no wake-up of that side is lost: a
thread sleeps only while there is no slot, or until a thread that is about to notify does so. When no
thread can go on, who still sleeps has nothing to wake up for. -/
theorem no_lost_wakeup {m : ℕ}
    (h : Relation.ReflTransGen (fun a b ↦ Step a b ∧ a.OneWaits s) (create n m) q)
    (ht : t ∈ q.threads) (hs : t.asleepOn s) :
    ((q.sync s).slots_ ≤ 0 ∨ ∃ u ∈ q.threads, u.notifies s) ∧
      ((∀ k, ¬ q.CanGoOn k) → q.Spent n s) := by
  obtain ⟨hheard, hreach⟩ := Heard.run_one h
  obtain ⟨l, hl⟩ := hreach.inv
  refine ⟨hheard.heard t ht hs, fun hstuck ↦ ?_⟩
  have hrest : ∀ t ∈ q.threads, t = .idle ∨ ∃ task wait, t = .getSlot task wait .asleep := by
    intro u hu
    obtain ⟨j, hj⟩ := List.mem_iff_getElem?.1 hu
    rcases hl.canGoOn hj with hidle | hasleep | hgo
    · exact .inl hidle
    · exact .inr hasleep
    · exact absurd hgo (hstuck j)
  obtain ⟨hrd, hwr⟩ := hl.weight_asleep hheard.placed hrest
  have hslots : (q.sync s).slots_ ≤ 0 := by
    rcases hheard.heard t ht hs with hle | ⟨u, hu, hnotifies⟩
    · exact hle
    · rcases hrest u hu with rfl | ⟨task, wait, rfl⟩ <;> cases hnotifies
  have hcount := hl.holds.count
  cases s with
  | rd =>
    have hle : q.rd_sync_.slots_ ≤ 0 := hslots
    have hfilled := hl.filled
    change q.base.fl_ = 0
    omega
  | wr =>
    have hle : q.wr_sync_.slots_ ≤ 0 := hslots
    have hroom := hl.room
    have hdepth := hl.holds.le
    rw [hl.depth] at hdepth
    by_cases hup : q.isUp_ = true
    · have hparked : q.parked = 0 := by simp [parked, hup]
      exact .inl (by omega)
    · exact .inr (Bool.not_eq_true _ ▸ hup)

/-- One thread waits for a chain. -/
def waiting : CBufQueue ℕ where
  n_ := 2
  base := .new 2
  rd_sync_ := { slots_ := 0 }
  wr_sync_ := { slots_ := 2 }
  threads := [.getSlot .pop .forever .asleep]

theorem no_lost_wakeup_waiting : waiting.rd_sync_.slots_ ≤ 0 ∧ waiting.base.fl_ = 0 := by
  have h₁ : Relation.ReflTransGen (fun a b ↦ Step a b ∧ a.OneWaits .rd) (create 2 1)
      { waiting with threads := [.getSlot .pop .forever .sub] } :=
    .single ⟨⟨.call 0 (.pop .forever), rfl⟩, by decide⟩
  have h₂ := h₁.tail (c := { waiting with
    rd_sync_ := { slots_ := -1 }, threads := [.getSlot .pop .forever .add] })
    ⟨⟨.run 0, by decide +kernel⟩, by decide⟩
  have h₃ := h₂.tail (c := { waiting with threads := [.getSlot .pop .forever .poll] })
    ⟨⟨.run 0, by decide +kernel⟩, by decide⟩
  have h₄ := h₃.tail (c := waiting) ⟨⟨.run 0, by decide +kernel⟩, by decide⟩
  obtain ⟨hheard, hspent⟩ := no_lost_wakeup h₄ List.mem_cons_self rfl
  refine ⟨?_, hspent (not_canGoOn (by simp [waiting]))⟩
  rcases hheard with hle | ⟨u, hu, hnotifies⟩
  · exact hle
  · rw [List.mem_singleton.1 hu] at hnotifies
    cases hnotifies

/-- One of two threads that waited for a chain sleeps on, next to one. -/
def overslept : CBufQueue ℕ where
  n_ := 2
  base := { fifo_ := [some 7, some 8], rp_ := 1, wp_ := 0, fl_ := 1, sz_ := 2 }
  rd_sync_ := { slots_ := 1 }
  wr_sync_ := { slots_ := 1 }
  threads := [.getSlot .pop .forever .asleep, .idle, .idle, .idle]
  pushed := [7, 8]
  popped := [7]

/-- With two threads that wait, a wake-up is lost: the third thread had taken the slot that the first
one is woken for, and puts it back only after the second one was woken for another. -/
theorem wakeup_lost : Reachable 2 4 overslept ∧ ∀ k, ¬ overslept.CanGoOn k := by
  have hrun : (create 2 4).execs [.call 0 (.pop .forever), .run 0, .run 0, .run 0,
      .call 1 (.pop .forever), .run 1, .run 1, .run 1, .call 2 (.pop .no), .run 2,
      .call 3 (.push 7 .no), .run 3, .run 3, .run 3, .notify 3 (some 0), .run 0,
      .call 3 (.push 8 .no), .run 3, .run 3, .run 3, .notify 3 (some 1), .run 2, .run 1, .run 1,
      .run 1, .run 1, .run 1, .notify 1 none] = some overslept := by decide +kernel
  exact ⟨Reachable.execs .refl hrun, not_canGoOn (by simp [overslept])⟩

end CBufQueue

end Cpsw.BufQ
