import Cpsw.Async.Pending

namespace Cpsw.Async

open Cpsw.Lib.Run

variable {α ρ ε : Type}

/-- The transaction that a call completes. -/
def Call.completes : Call α ρ ε → Option NodePtr
  | .complete xact _ => some xact
  | .callback _ _ => none

namespace State

variable {s t : State α ρ ε} {timeoutUs : ℕ}

/-- The transactions whose `complete` is about to be called. -/
def started (s : State α ρ ε) : List NodePtr := (s.doing.filter (·.called.isNone)).map (·.xact)

/-- The transactions whose `complete` has been called, once for each call. -/
def completed (s : State α ρ ε) : List NodePtr := s.calls.filterMap Call.completes

def taken (s : State α ρ ε) : List NodePtr := s.started ++ s.completed

/-- What was posted and not yet taken for completion, in posting order. -/
def pending (s : State α ρ ε) : List NodePtr := s.posted.filter (· ∉ s.taken)

/-- `thread` takes from the list, with the response `bc`, either nothing or `x`. -/
def Takes (s t : State α ρ ε) (thread : Thread) (bc : Option ρ) : Option NodePtr → Prop
  | none => t.pending = s.pending ∧ t.doing = s.doing
  | some x => t.pending = s.pending.erase x ∧ t.doing = s.doing ++ [⟨thread, x, bc, none⟩]

/-- `t` differs from `s` in what has been called only. -/
structure SameList (s t : State α ρ ε) : Prop where
  posted : t.posted = s.posted
  pending : t.pending = s.pending
  stopped : t.stopped = s.stopped
  gone : t.gone = s.gone

theorem SameList.trans {u : State α ρ ε} (h : s.SameList t) (h' : t.SameList u) : s.SameList u :=
  ⟨h'.posted.trans h.posted, h'.pending.trans h.pending, h'.stopped.trans h.stopped,
    h'.gone.trans h.gone⟩

/-- The invariant of the manager and its threads. -/
structure Inv (s : State α ρ ε) : Prop where
  lists : s.mgr.Lists s.pending
  nodup : s.posted.Nodup
  anchors : ∀ x ∈ s.posted, x ≠ .head ∧ x ≠ .tail
  once : s.taken.Nodup
  posted : ∀ d ∈ s.doing, d.xact ∈ s.posted
  completed : ∀ x ∈ s.completed, x ∈ s.posted
  waiting : s.waiting = true → s.pending = []
  gone : s.gone = true → s.pending = []
  carried : ∀ d ∈ s.doing, ∀ r, d.bc = some r → ((s.mgr.heap d.xact).tid, r) ∈ s.received
  answered : ∀ x r, .complete x (some r) ∈ s.calls → ((s.mgr.heap x).tid, r) ∈ s.received

/-- A step keeps the invariant and the ids of the transactions. -/
structure Keeps (s t : State α ρ ε) : Prop where
  inv : t.Inv
  tid : ∀ x ∈ s.posted, (t.mgr.heap x).tid = (s.mgr.heap x).tid

theorem inv_new : (new timeoutUs : State α ρ ε).Inv where
  lists := Manager.lists_create timeoutUs
  nodup := .nil
  anchors := by simp [new]
  once := .nil
  posted := by simp [new]
  completed := by simp [new, State.completed]
  waiting := by simp [new]
  gone := by simp [new, pending]
  carried := by simp [new]
  answered := by simp [new]

theorem Inv.posted_of_taken (h : s.Inv) {x : NodePtr} (hx : x ∈ s.taken) : x ∈ s.posted := by
  rcases List.mem_append.1 hx with hx | hx
  · obtain ⟨d, hd, rfl⟩ := List.mem_map.1 hx
    exact h.posted d (List.mem_of_mem_filter hd)
  · exact h.completed x hx

/-- Taking one more transaction removes it from the pending ones. -/
theorem filter_erase {l k k' p q : List NodePtr} {x : NodePtr} (hl : l.Nodup)
    (hk : ∀ y, y ∈ k' ↔ y = x ∨ y ∈ k) (hp : l.filter (· ∉ k) = p ++ x :: q) :
    l.filter (· ∉ k') = p ++ q := by
  have hnd : (p ++ x :: q).Nodup := hp ▸ hl.filter _
  have hx : x ∉ p ++ q := (List.nodup_cons.1 (List.nodup_middle.1 hnd)).1
  have he : l.filter (· ∉ k') = (l.filter (· ∉ k)).filter (· ≠ x) := by
    rw [List.filter_filter]
    apply List.filter_congr
    intro y _
    simp [hk]
  have hself : ∀ u : List NodePtr, x ∉ u → u.filter (· ≠ x) = u := by
    intro u hu
    apply List.filter_eq_self.2
    intro y hy
    simpa using ne_of_mem_of_not_mem hy hu
  rw [he, hp, List.filter_append, List.filter_cons_of_neg (by simp)]
  simp only [List.mem_append, not_or] at hx
  rw [hself p hx.1, hself q hx.2]

variable {m : Manager α} {rcvd : List (UInt32 × ρ)} {p q : List NodePtr} {x : NodePtr}
variable {bc : Option ρ} {thread : Thread}

/-- A step that takes nothing from the list. -/
theorem Inv.keep (h : s.Inv) (hl : m.Lists s.pending)
    (ht : ∀ y ∈ s.posted, (m.heap y).tid = (s.mgr.heap y).tid) (hr : s.received ⊆ rcvd) :
    s.Keeps { s with mgr := m, received := rcvd } := by
  refine ⟨{ h with lists := hl, carried := ?_, answered := ?_ }, ht⟩
  · intro d hd r hb
    rw [ht _ (h.posted d hd)]
    exact hr (h.carried d hd r hb)
  · intro y r hc
    have hy : y ∈ s.posted := h.completed y (List.mem_filterMap.2 ⟨_, hc, rfl⟩)
    rw [ht y hy]
    exact hr (h.answered y r hc)

theorem taken_start :
    (s.start thread bc (m, some x)).taken.Perm (x :: s.taken) := by
  have hs : (s.start thread bc (m, some x)).started = s.started ++ [x] := by
    simp [started, start]
  unfold taken
  rw [hs, List.append_assoc]
  exact List.perm_middle

theorem Inv.pending_start (h : s.Inv) (hp : s.pending = p ++ x :: q) :
    (s.start thread bc (m, some x)).pending = p ++ q := by
  apply filter_erase h.nodup ?_ hp
  intro y
  rw [taken_start.mem_iff, List.mem_cons]

theorem Inv.takes_start (h : s.Inv) (hp : s.pending = p ++ x :: q) :
    s.Takes { s.start thread bc (m, some x) with received := rcvd } thread bc (some x) := by
  have hnd : (p ++ x :: q).Nodup := hp ▸ h.nodup.filter _
  have hx : x ∉ p := fun hm ↦ (List.nodup_append.1 hnd).2.2 _ hm _ (by simp) rfl
  refine ⟨?_, rfl⟩
  rw [hp, List.erase_append_right _ hx, List.erase_cons_head]
  exact h.pending_start (m := m) hp

/-- A step that takes a transaction from the list and starts to complete it. -/
theorem Inv.take (h : s.Inv) (hp : s.pending = p ++ x :: q) (hl : m.Lists (p ++ q))
    (ht : ∀ y ∈ s.posted, (m.heap y).tid = (s.mgr.heap y).tid) (hr : s.received ⊆ rcvd)
    (hb : ∀ r, bc = some r → ((s.mgr.heap x).tid, r) ∈ rcvd) :
    s.Keeps { s.start thread bc (m, some x) with received := rcvd } := by
  have hx : x ∈ s.pending := by simp [hp]
  have hxp : x ∈ s.posted := List.mem_of_mem_filter hx
  have hxt : x ∉ s.taken := by simpa using (List.mem_filter.1 hx).2
  have hne : s.pending ≠ [] := by simp [hp]
  refine ⟨⟨?_, h.nodup, h.anchors, ?_, ?_, h.completed, ?_, ?_, ?_, ?_⟩, ht⟩
  · change m.Lists (s.start thread bc (m, some x)).pending
    rw [h.pending_start hp]
    exact hl
  · exact (taken_start (m := m)).nodup_iff.2 (List.nodup_cons.2 ⟨hxt, h.once⟩)
  · intro d hd
    rcases List.mem_append.1 hd with hd | hd
    · exact h.posted d hd
    · obtain rfl := List.mem_singleton.1 hd
      exact hxp
  · intro hw
    exact absurd (h.waiting hw) hne
  · intro hg
    exact absurd (h.gone hg) hne
  · intro d hd r hb'
    rcases List.mem_append.1 hd with hd | hd
    · change ((m.heap d.xact).tid, r) ∈ rcvd
      rw [ht _ (h.posted d hd)]
      exact hr (h.carried d hd r hb')
    · obtain rfl := List.mem_singleton.1 hd
      change ((m.heap x).tid, r) ∈ rcvd
      rw [ht x hxp]
      exact hb r hb'
  · intro y r hc
    have hy : y ∈ s.posted := h.completed y (List.mem_filterMap.2 ⟨_, hc, rfl⟩)
    change ((m.heap y).tid, r) ∈ rcvd
    rw [ht y hy]
    exact hr (h.answered y r hc)

theorem pending_length_le : s.pending.length ≤ s.posted.length := List.length_filter_le _ _

theorem Inv.post (h : s.Inv) (tid : UInt32) (now : ℕ) (callback : Option α)
    (he : s.Enabled (.post x tid now callback)) :
    ∃ t, s.exec (.post x tid now callback) = some t ∧ s.Keeps t ∧
      t.posted = s.posted ++ [x] ∧ t.pending = s.pending ++ [x] ∧ t.doing = s.doing ∧
      (t.mgr.heap x).tid = tid := by
  obtain ⟨hg, hh, ht, hx⟩ := he
  have hxt : x ∉ s.taken := fun hm ↦ hx (h.posted_of_taken hm)
  have hxl : x ∉ s.pending := fun hm ↦ hx (List.mem_of_mem_filter hm)
  obtain ⟨m, hpost, hl, hxtid, htid⟩ := h.lists.post hxl hh ht tid now callback
  have hpend : (s.posted ++ [x]).filter (· ∉ s.taken) = s.pending ++ [x] := by
    rw [List.filter_append]
    simp [pending, hxt]
  have hexec : s.exec (.post x tid now callback) = some { s with
      mgr := m
      posted := s.posted ++ [x]
      waiting := s.waiting && !s.pending.isEmpty } := by
    simp only [exec, hpost]
    rfl
  refine ⟨_, hexec, ⟨?_, fun y hy ↦ htid y (ne_of_mem_of_not_mem hy hx)⟩, rfl, hpend, rfl, hxtid⟩
  refine ⟨?_, ?_, ?_, h.once, ?_, ?_, ?_, ?_, ?_, ?_⟩
  · change m.Lists ((s.posted ++ [x]).filter (· ∉ s.taken))
    rw [hpend]
    exact hl
  · apply h.nodup.append (List.nodup_singleton x)
    simpa using hx
  · intro y hy
    rcases List.mem_append.1 hy with hy | hy
    · exact h.anchors y hy
    · obtain rfl := List.mem_singleton.1 hy
      exact ⟨hh, ht⟩
  · intro d hd
    exact List.mem_append_left _ (h.posted d hd)
  · intro y hy
    exact List.mem_append_left _ (h.completed y hy)
  · intro hw
    -- the time-out thread waits for an empty list only, and then it is woken up
    simp only [Bool.and_eq_true] at hw
    simp [h.waiting hw.1] at hw
  · intro hg'
    simp [hg] at hg'
  · intro d hd r hb
    change ((m.heap d.xact).tid, r) ∈ s.received
    rw [htid _ (ne_of_mem_of_not_mem (h.posted d hd) hx)]
    exact h.carried d hd r hb
  · intro y r hc
    have hy : y ∈ s.posted := h.completed y (List.mem_filterMap.2 ⟨_, hc, rfl⟩)
    change ((m.heap y).tid, r) ∈ s.received
    rw [htid _ (ne_of_mem_of_not_mem hy hx)]
    exact h.answered y r hc

theorem Inv.complete (h : s.Inv) (bc : Option ρ) (tid : UInt32) :
    ∃ t, s.exec (.complete bc tid) = some t ∧ s.Keeps t ∧ t.posted = s.posted ∧
      s.Takes t .receiver bc (s.pending.find? fun x ↦ (s.mgr.heap x).tid = tid) := by
  have hf : s.pending.length < s.posted.length + 1 := Nat.lt_succ_of_le s.pending_length_le
  obtain ⟨m, hm, hl, htid⟩ := h.lists.findAndRemove tid hf
  have ht : ∀ y ∈ s.posted, (m.heap y).tid = (s.mgr.heap y).tid := fun y hy ↦
    htid y (h.anchors y hy).2
  have hr : s.received ⊆ s.received ++ (bc.map fun b ↦ (tid, b)).toList :=
    List.subset_append_left _ _
  cases hfind : s.pending.find? fun x ↦ (s.mgr.heap x).tid = tid with
  | none =>
    have hl' : m.Lists s.pending := by
      rw [List.eraseP_of_forall_not (by simpa using hfind)] at hl
      exact hl
    exact ⟨_, by simp only [exec, hm, hfind]; rfl, h.keep hl' ht hr, rfl, rfl, rfl⟩
  | some x =>
    obtain ⟨hx, p, q, hp, hpx⟩ := List.find?_eq_some_iff_append.1 hfind
    have hx : (s.mgr.heap x).tid = tid := by simpa using hx
    have hl' : m.Lists (p ++ q) := by
      rw [hp, List.eraseP_append_right _ (by simpa using hpx),
        List.eraseP_cons_of_pos (by simpa using hx)] at hl
      exact hl
    have hb : ∀ r, bc = some r →
        ((s.mgr.heap x).tid, r) ∈ s.received ++ (bc.map fun b ↦ (tid, b)).toList := by
      rintro r rfl
      simp [hx]
    exact ⟨_, by simp only [exec, hm, hfind]; rfl, h.take hp hl' ht hr hb, rfl, h.takes_start hp⟩

/-- What a round of the time-out thread or of the destructor does. -/
theorem Inv.takeHead (h : s.Inv) {l : List NodePtr} (hp : s.pending = x :: l) (hl : m.Lists l)
    (ht : ∀ y, (m.heap y).tid = (s.mgr.heap y).tid) :
    s.Keeps (s.start thread none (m, some x)) := by
  have hr : s.received ⊆ s.received := List.Subset.refl _
  exact h.take (p := []) hp hl (fun y _ ↦ ht y) hr (by simp)

theorem Inv.threadBody (h : s.Inv) (now : ℕ) :
    ∃ t, s.exec (.threadBody now) = some t ∧ s.Keeps t ∧ t.posted = s.posted ∧
      s.Takes t .timeout none (s.pending.head?.filter fun x ↦ (s.mgr.heap x).timeout < now) := by
  have hhead := h.lists.getHead_eq
  cases hp : s.pending with
  | nil =>
    rw [hp] at hhead
    refine ⟨{ s with waiting := true }, by simp [exec, hhead], ⟨?_, fun _ _ ↦ rfl⟩, rfl, rfl, rfl⟩
    exact { h with waiting := fun _ ↦ hp }
  | cons x l =>
    rw [hp] at hhead
    obtain hr := (hp ▸ h.lists).removeExpired now
    by_cases hx : (s.mgr.heap x).timeout < now
    · obtain ⟨m, hr, hl, ht⟩ := hr.2 hx
      have hf : (x :: l).head?.filter (fun x ↦ (s.mgr.heap x).timeout < now) = some x := by
        simp [hx]
      rw [hf]
      exact ⟨_, by simp only [exec, hhead, List.head?_cons, hr]; rfl, h.takeHead hp hl ht, rfl,
        h.takes_start (p := []) hp⟩
    · have hf : (x :: l).head?.filter (fun x ↦ (s.mgr.heap x).timeout < now) = none := by
        simpa using hx
      rw [hf]
      exact ⟨s, by simp [exec, hhead, hr.1 hx, start], ⟨h, fun _ _ ↦ rfl⟩, rfl, rfl, rfl⟩

theorem Inv.threadStop (h : s.Inv) :
    ∃ t, s.exec .threadStop = some t ∧ s.Keeps t ∧ t.posted = s.posted ∧ t.pending = s.pending ∧
      t.doing = s.doing ∧ t.stopped = true ∧ t.gone = s.gone :=
  ⟨_, rfl, ⟨{ h with waiting := by simp }, fun _ _ ↦ rfl⟩, rfl, rfl, rfl, rfl, rfl⟩

theorem Inv.flush (h : s.Inv) :
    ∃ t, s.exec .flush = some t ∧ s.Keeps t ∧ t.posted = s.posted ∧ t.stopped = s.stopped ∧
      s.Takes t .destructor none s.pending.head? ∧ t.gone = (s.gone || s.pending.isEmpty) := by
  have hhead := h.lists.getHead_eq
  cases hp : s.pending with
  | nil =>
    rw [hp] at hhead
    refine ⟨{ s with gone := true }, by simp [exec, hhead], ⟨?_, fun _ _ ↦ rfl⟩, rfl, rfl,
      ⟨rfl, rfl⟩, by simp⟩
    exact { h with gone := fun _ ↦ hp }
  | cons x l =>
    rw [hp] at hhead
    obtain ⟨h', hr, hl, hs⟩ := Manager.Lists.remove (p := []) (hp ▸ h.lists)
    exact ⟨_, by simp only [exec, hhead, List.head?_cons, hr]; rfl, h.takeHead hp hl hs.tid,
      rfl, rfl, h.takes_start (p := []) hp, by simp [start]⟩

/-- A list around its `k`th element. -/
theorem split_at {β : Type} {l : List β} {k : ℕ} {d : β} (h : l[k]? = some d) :
    ∃ u v, l = u ++ d :: v ∧ l.eraseIdx k = u ++ v ∧ ∀ d', l.set k d' = u ++ d' :: v := by
  obtain ⟨hk, rfl⟩ := List.getElem?_eq_some_iff.1 h
  refine ⟨l.take k, l.drop (k + 1), ?_, List.eraseIdx_eq_take_drop_succ l k, fun d' ↦ ?_⟩
  · simp
  · rw [List.set_eq_take_append_cons_drop, if_pos hk]

theorem pending_congr (hp : t.posted = s.posted) (ht : t.taken.Perm s.taken) :
    t.pending = s.pending := by
  unfold pending
  rw [hp]
  apply List.filter_congr
  intro y _
  simp [ht.mem_iff]

theorem taken_called {k : ℕ} {d : DoComplete α ρ ε} (hd : s.doing[k]? = some d)
    (hc : d.called = none) (c : Option α × Option ε) :
    (taken { s with
      mgr := m
      doing := s.doing.set k { d with called := some c }
      calls := s.calls ++ [.complete d.xact d.bc] }).Perm s.taken := by
  obtain ⟨u, v, hu, -, hset⟩ := split_at hd
  unfold taken started State.completed
  simp only [hset { d with called := some c }, List.filterMap_append]
  rw [hu]
  simp only [List.filter_append, List.filter_cons, hc, Option.isNone_none, Option.isNone_some,
    if_true, Bool.false_eq_true, if_false, List.map_append, List.map_cons]
  rw [List.append_assoc, List.append_assoc]
  apply List.Perm.append_left
  rw [List.cons_append, ← List.append_assoc]
  exact List.perm_append_singleton _ _

theorem Inv.callComplete (h : s.Inv) {k : ℕ} {d : DoComplete α ρ ε} (hd : s.doing[k]? = some d)
    (hc : d.called = none) (thrown : Option ε) :
    ∃ t, s.exec (.callComplete k thrown) = some t ∧ s.Keeps t ∧ s.SameList t ∧
      t.doing = s.doing.set k { d with called := some ((s.mgr.heap d.xact).aio, thrown) } := by
  have hdm : d ∈ s.doing := List.mem_of_getElem? hd
  let m : Manager α := { s.mgr with heap := s.mgr.heap.setAio d.xact none }
  have htid (y : NodePtr) : (m.heap y).tid = (s.mgr.heap y).tid := by
    by_cases hy : y = d.xact <;> simp [m, Heap.setAio, hy]
  have hl : m.Lists s.pending := by
    unfold Manager.Lists
    rw [Heap.links_setAio]
    exact h.lists
  have htaken := taken_called (m := m) hd hc ((s.mgr.heap d.xact).aio, thrown)
  have hpend := pending_congr (by rfl) htaken
  have hexec : s.exec (.callComplete k thrown) = some { s with
      mgr := m
      doing := s.doing.set k { d with called := some ((s.mgr.heap d.xact).aio, thrown) }
      calls := s.calls ++ [.complete d.xact d.bc] } := by
    simp only [exec, hd]
    rfl
  refine ⟨_, hexec, ⟨?_, fun y _ ↦ htid y⟩, ⟨rfl, hpend, rfl, rfl⟩, rfl⟩
  refine ⟨?_, h.nodup, h.anchors, htaken.nodup_iff.2 h.once, ?_, ?_, ?_, ?_, ?_, ?_⟩
  · rw [hpend]
    exact hl
  · intro d' hd'
    rcases List.mem_or_eq_of_mem_set hd' with hd' | rfl
    · exact h.posted d' hd'
    · exact h.posted d hdm
  · intro y hy
    rw [State.completed, List.filterMap_append] at hy
    rcases List.mem_append.1 hy with hy | hy
    · exact h.completed y hy
    · obtain rfl : y = d.xact := by simpa [Call.completes] using hy
      exact h.posted d hdm
  · rw [hpend]
    exact h.waiting
  · rw [hpend]
    exact h.gone
  · intro d' hd' r hb
    change ((m.heap d'.xact).tid, r) ∈ s.received
    rw [htid]
    rcases List.mem_or_eq_of_mem_set hd' with hd' | rfl
    · exact h.carried d' hd' r hb
    · exact h.carried d hdm r hb
  · intro y r hcall
    change ((m.heap y).tid, r) ∈ s.received
    rw [htid]
    rcases List.mem_append.1 hcall with hcall | hcall
    · exact h.answered y r hcall
    · obtain ⟨rfl, hb⟩ : y = d.xact ∧ some r = d.bc := by simpa using hcall
      exact h.carried d hdm r hb.symm

theorem completes_callbacks {aio : Option α} {thrown again : Option ε} {c : Call α ρ ε}
    (hc : c ∈ callbacks bc aio thrown again) : c.completes = none := by
  unfold callbacks at hc
  split at hc <;> simp at hc
  · rw [hc, Call.completes]
  · rw [hc, Call.completes]
  · rcases hc with rfl | rfl <;> rfl

theorem Inv.callCallback (h : s.Inv) {k : ℕ} {d : DoComplete α ρ ε} (hd : s.doing[k]? = some d)
    {aio : Option α} {thrown : Option ε} (hc : d.called = some (aio, thrown)) (again : Option ε) :
    ∃ t, s.exec (.callCallback k again) = some t ∧ s.Keeps t ∧ s.SameList t ∧
      t.doing = s.doing.eraseIdx k := by
  obtain ⟨u, v, hu, herase, -⟩ := split_at hd
  have hnil : (callbacks d.bc aio thrown again).filterMap Call.completes = [] :=
    List.filterMap_eq_nil_iff.2 fun c hc ↦ completes_callbacks hc
  have hcompleted : (s.calls ++ callbacks d.bc aio thrown again).filterMap Call.completes =
      s.completed := by
    rw [List.filterMap_append, hnil, List.append_nil]
    rfl
  have hstarted : ((s.doing.eraseIdx k).filter (·.called.isNone)).map (·.xact) = s.started := by
    unfold started
    rw [herase, hu, List.filter_append, List.filter_append, List.filter_cons_of_neg (by simp [hc])]
  have hsub : ∀ d' ∈ s.doing.eraseIdx k, d' ∈ s.doing := fun d' hd' ↦
    List.mem_of_mem_eraseIdx hd'
  have htaken : taken { s with
      doing := s.doing.eraseIdx k
      calls := s.calls ++ callbacks d.bc aio thrown again } = s.taken := by
    unfold taken
    exact congrArg₂ _ hstarted hcompleted
  have hpend := pending_congr (by rfl) (List.Perm.of_eq htaken)
  have hexec : s.exec (.callCallback k again) = some { s with
      doing := s.doing.eraseIdx k
      calls := s.calls ++ callbacks d.bc aio thrown again } := by
    simp only [exec, hd, Option.bind_eq_bind, Option.bind_some, hc]
    rfl
  refine ⟨_, hexec, ⟨?_, fun _ _ ↦ rfl⟩, ⟨rfl, hpend, rfl, rfl⟩, rfl⟩
  refine ⟨?_, h.nodup, h.anchors, ?_, ?_, ?_, ?_, ?_, ?_, ?_⟩
  · rw [hpend]
    exact h.lists
  · rw [htaken]
    exact h.once
  · intro d' hd'
    exact h.posted d' (hsub d' hd')
  · intro y hy
    rw [State.completed, hcompleted] at hy
    exact h.completed y hy
  · rw [hpend]
    exact h.waiting
  · rw [hpend]
    exact h.gone
  · intro d' hd'
    exact h.carried d' (hsub d' hd')
  · intro y r hcall
    rcases List.mem_append.1 hcall with hcall | hcall
    · exact h.answered y r hcall
    · cases completes_callbacks hcall

end State

end Cpsw.Async
