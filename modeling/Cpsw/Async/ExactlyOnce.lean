import Cpsw.Async.Invariant

namespace Cpsw.Async.State

open Cpsw.Lib.Run Relation

variable {α ρ ε : Type} {s t : State α ρ ε} {timeoutUs : ℕ}

/-- Whatever a thread does next, nothing of it fails and the invariant is kept. -/
theorem Inv.exec (h : s.Inv) (e : Event α ρ ε) (he : s.Enabled e) :
    ∃ t, s.exec e = some t ∧ s.Keeps t := by
  cases e with
  | post x tid now callback =>
    obtain ⟨t, ht, hi, -⟩ := h.post tid now callback he
    exact ⟨t, ht, hi⟩
  | complete bc tid =>
    obtain ⟨t, ht, hi, -⟩ := h.complete bc tid
    exact ⟨t, ht, hi⟩
  | threadBody now =>
    obtain ⟨t, ht, hi, -⟩ := h.threadBody now
    exact ⟨t, ht, hi⟩
  | threadStop =>
    obtain ⟨t, ht, hi, -⟩ := h.threadStop
    exact ⟨t, ht, hi⟩
  | flush =>
    obtain ⟨t, ht, hi, -⟩ := h.flush
    exact ⟨t, ht, hi⟩
  | callComplete k thrown =>
    obtain ⟨d, hd, hc⟩ := he
    obtain ⟨t, ht, hi, -⟩ := h.callComplete hd hc thrown
    exact ⟨t, ht, hi⟩
  | callCallback k again =>
    obtain ⟨d, hd, hc⟩ := he
    obtain ⟨⟨aio, thrown⟩, hc⟩ := Option.isSome_iff_exists.1 hc
    obtain ⟨t, ht, hi, -⟩ := h.callCallback hd hc again
    exact ⟨t, ht, hi⟩

theorem Inv.step (h : s.Inv) (hst : s.Step t) : s.Keeps t := by
  obtain ⟨e, he, ht⟩ := hst
  obtain ⟨t', ht', hi⟩ := h.exec e he
  obtain rfl : t = t' := Option.some.inj (ht.symm.trans ht')
  exact hi

theorem Reachable.inv (h : Reachable timeoutUs s) : s.Inv := by
  refine invariant ?_ h inv_new
  intro s t hs hst
  exact (hs.step hst).inv

/-- The calls of `doComplete` under way can return. -/
theorem Inv.finish (h : s.Inv) :
    ∃ t, ReflTransGen Step s t ∧ t.Inv ∧ s.SameList t ∧ t.doing = [] := by
  generalize hn : s.doing.length = n
  induction n generalizing s with
  | zero => exact ⟨s, .refl, h, ⟨rfl, rfl, rfl, rfl⟩, List.eq_nil_of_length_eq_zero hn⟩
  | succ n ih =>
    have callback {s : State α ρ ε} (h : s.Inv) (hn : s.doing.length = n + 1) {d}
        {c : Option α × Option ε} (hd : s.doing[0]? = some d) (hc : d.called = some c) :
        ∃ t, ReflTransGen Step s t ∧ t.Inv ∧ s.SameList t ∧ t.doing = [] := by
      obtain ⟨t, ht, hi, hs, hdo⟩ := h.callCallback hd hc none
      have hlen : t.doing.length = n := by
        rw [hdo, List.length_eraseIdx_of_lt (by omega), hn, Nat.add_sub_cancel]
      obtain ⟨u, hu, hi', hs', hnil⟩ := ih hi.inv hlen
      have hstep : s.Step t := ⟨.callCallback 0 none, ⟨d, hd, by simp [hc]⟩, ht⟩
      exact ⟨u, .head hstep hu, hi', hs.trans hs', hnil⟩
    have hd : s.doing[0]? = some s.doing[0] := List.getElem?_eq_getElem (by omega)
    cases hc : s.doing[0].called with
    | some c => exact callback h hn hd hc
    | none =>
      obtain ⟨t, ht, hi, hs, hdo⟩ := h.callComplete hd hc none
      have hlen : t.doing.length = n + 1 := by
        rw [hdo, List.length_set, hn]
      have hd' : t.doing[0]? = some { s.doing[0] with
          called := some ((s.mgr.heap s.doing[0].xact).aio, none) } := by
        rw [hdo, List.getElem?_set_self (by omega)]
      obtain ⟨u, hu, hi', hs', hnil⟩ := callback hi.inv hlen hd' rfl
      have hstep : s.Step t := ⟨.callComplete 0 none, ⟨_, hd, hc⟩, ht⟩
      exact ⟨u, .head hstep hu, hi', hs.trans hs', hnil⟩

/-- The loop of the destructor empties the list. -/
theorem Inv.flushAll (h : s.Inv) (hs : s.stopped = true) (hg : s.gone = false)
    (hd : s.doing = []) :
    ∃ t, ReflTransGen Step s t ∧ t.Inv ∧ t.posted = s.posted ∧ t.gone = true ∧ t.doing = [] := by
  generalize hn : s.pending.length = n
  induction n generalizing s with
  | zero =>
    have hp : s.pending = [] := List.eq_nil_of_length_eq_zero hn
    obtain ⟨t, ht, hi, hposted, -, htakes, hgone⟩ := h.flush
    rw [hp] at htakes hgone
    have hstep : s.Step t := ⟨.flush, ⟨hs, hg, by simp [busy, hd]⟩, ht⟩
    exact ⟨t, .single hstep, hi.inv, hposted, by simpa using hgone, htakes.2.trans hd⟩
  | succ n ih =>
    obtain ⟨x, l, hp⟩ := List.exists_cons_of_length_eq_add_one hn
    obtain ⟨t, ht, hi, hposted, hstop, htakes, hgone⟩ := h.flush
    rw [hp] at htakes hgone
    have hpend : t.pending = l := by
      rw [htakes.1, hp, List.erase_cons_head]
    have hstep : s.Step t := ⟨.flush, ⟨hs, hg, by simp [busy, hd]⟩, ht⟩
    obtain ⟨u, hu, hi', hsame, hnil⟩ := hi.inv.finish
    have hlen : u.pending.length = n := by
      rw [hsame.pending, hpend]
      simpa [hp] using hn
    have hstop' : u.stopped = true := by
      rw [hsame.stopped, hstop, hs]
    have hgone' : u.gone = false := by
      rw [hsame.gone, hgone, hg]
      rfl
    obtain ⟨v, hv, hi'', hposted', hgone'', hnil'⟩ := ih hi' hstop' hgone' hnil hlen
    have hposted'' : v.posted = s.posted := by
      rw [hposted', hsame.posted, hposted]
    exact ⟨v, .head hstep (hu.trans hv), hi'', hposted'', hgone'', hnil'⟩

/-- From any state the manager can be destroyed. -/
theorem Inv.destroy (h : s.Inv) :
    ∃ t, ReflTransGen Step s t ∧ t.Inv ∧ t.posted = s.posted ∧ t.gone = true ∧ t.doing = [] := by
  obtain ⟨t, ht, hi, hsame, hnil⟩ := h.finish
  cases hg : t.gone with
  | true => exact ⟨t, ht, hi, hsame.posted, hg, hnil⟩
  | false =>
    cases hs : t.stopped with
    | true =>
      obtain ⟨u, hu, hi', hposted, hgone⟩ := hi.flushAll hs hg hnil
      exact ⟨u, ht.trans hu, hi', hposted.trans hsame.posted, hgone⟩
    | false =>
      obtain ⟨u, hu, hi', hposted, -, hdoing, hstop, hgone⟩ := hi.threadStop
      have hstep : t.Step u := ⟨.threadStop, ⟨hs, by simp [busy, hnil]⟩, hu⟩
      obtain ⟨v, hv, hi'', hposted', hgone'⟩ :=
        hi'.inv.flushAll hstop (hgone.trans hg) (hdoing.trans hnil)
      exact ⟨v, ht.trans (.head hstep hv), hi'', (hposted'.trans hposted).trans hsame.posted,
        hgone'⟩

/-- Every posted transaction is in one of three places, in one of them, and there once. -/
theorem Inv.parts (h : s.Inv) : s.posted.Perm (s.pending ++ s.started ++ s.completed) := by
  have ht : (s.posted.filter (· ∈ s.taken)).Perm s.taken := by
    apply (List.perm_ext_iff_of_nodup (h.nodup.filter _) h.once).2
    intro x
    simpa using h.posted_of_taken
  rw [List.append_assoc]
  have hsplit := List.filter_append_perm (· ∉ s.taken) s.posted
  simp only [decide_not, Bool.not_not] at hsplit
  exact hsplit.symm.trans (List.Perm.append (by simp [pending]) ht)

theorem Inv.all_completed (h : s.Inv) (hg : s.gone = true) (hd : s.doing = []) :
    s.completed.Perm s.posted := by
  have hp := h.parts
  rw [h.gone hg] at hp
  simpa [started, hd] using hp.symm

/-- What holds of the manager at any time. -/
structure ExactlyOnce (s : State α ρ ε) : Prop where
  /-- The list holds, in posting order, what is posted and not yet taken for completion. -/
  lists : s.mgr.Lists s.pending
  posted : s.posted.Nodup
  parts : s.posted.Perm (s.pending ++ s.started ++ s.completed)
  answered : ∀ x r, .complete x (some r) ∈ s.calls → ((s.mgr.heap x).tid, r) ∈ s.received
  all : s.gone = true → s.doing = [] → s.completed.Perm s.posted

/-- What each thread takes from the list, and what stays as it is. -/
structure TakesLaw (s : State α ρ ε) : Prop where
  post : ∀ x tid now callback t, s.Enabled (.post x tid now callback) →
    s.exec (.post x tid now callback) = some t →
    t.pending = s.pending ++ [x] ∧ t.doing = s.doing ∧ (t.mgr.heap x).tid = tid
  complete : ∀ bc tid t, s.exec (.complete bc tid) = some t →
    s.Takes t .receiver bc (s.pending.find? fun x ↦ (s.mgr.heap x).tid = tid)
  threadBody : ∀ now t, s.exec (.threadBody now) = some t →
    s.Takes t .timeout none (s.pending.head?.filter fun x ↦ (s.mgr.heap x).timeout < now)
  flush : ∀ t, s.exec .flush = some t → s.Takes t .destructor none s.pending.head?
  tid : ∀ t, s.Step t → ∀ x ∈ s.posted, (t.mgr.heap x).tid = (s.mgr.heap x).tid

theorem Inv.exactlyOnce (h : s.Inv) : s.ExactlyOnce where
  lists := h.lists
  posted := h.nodup
  parts := h.parts
  answered := h.answered
  all := h.all_completed

theorem Inv.takesLaw (h : s.Inv) : s.TakesLaw where
  post x tid now callback t he ht := by
    obtain ⟨t', ht', -, -, hr⟩ := h.post tid now callback he
    obtain rfl : t = t' := Option.some.inj (ht.symm.trans ht')
    exact hr
  complete bc tid t ht := by
    obtain ⟨t', ht', -, -, hr⟩ := h.complete bc tid
    obtain rfl : t = t' := Option.some.inj (ht.symm.trans ht')
    exact hr
  threadBody now t ht := by
    obtain ⟨t', ht', -, -, hr⟩ := h.threadBody now
    obtain rfl : t = t' := Option.some.inj (ht.symm.trans ht')
    exact hr
  flush t ht := by
    obtain ⟨t', ht', -, -, -, hr, -⟩ := h.flush
    obtain rfl : t = t' := Option.some.inj (ht.symm.trans ht')
    exact hr
  tid t hst := (h.step hst).tid

/-- Whatever the interleaving of posting, responding, timing out and destroying, no step goes
wrong, each transaction is completed once, and in the end all of them are. -/
theorem completes_exactly_once (h : Reachable timeoutUs s) :
    s.ExactlyOnce ∧ s.TakesLaw ∧ (∀ e, s.Enabled e → ∃ t, s.exec e = some t) ∧
      ∃ t, ReflTransGen Step s t ∧ t.posted = s.posted ∧ t.gone = true ∧ t.doing = [] ∧
        t.completed.Perm s.posted := by
  have hi : s.Inv := h.inv
  obtain ⟨t, ht, hi', hposted, hgone, hnil⟩ := hi.destroy
  refine ⟨hi.exactlyOnce, hi.takesLaw, ?_, t, ht, hposted, hgone, hnil, ?_⟩
  · intro e he
    obtain ⟨t, ht, -⟩ := hi.exec e he
    exact ⟨t, ht⟩
  · rw [← hposted]
    exact hi'.all_completed hgone hnil

/-- A transaction is posted, answered, completed and called back. -/
def answeredRun : List (Event ℕ ℕ Unit) :=
  [.post (.xact 0) 7 0 (some 1), .complete (some 42) 7, .callComplete 0 none, .callCallback 0 none]

theorem completes_exactly_once_answeredRun :
    ∃ s, (new 500).runs answeredRun = some s ∧ s.ExactlyOnce ∧
      s.calls = [.complete (.xact 0) (some 42), .callback 1 .success] := by
  have hr : ((new 500).runs answeredRun).isSome = true := rfl
  obtain ⟨s, hs⟩ := Option.isSome_iff_exists.1 hr
  refine ⟨s, hs, (completes_exactly_once (Reachable.runs .refl hs)).1, ?_⟩
  cases hs
  rfl

/-- The pending list is linked and holds exactly what is posted and not yet completed. -/
def ListsUncompleted (s : State α ρ ε) : Prop :=
  ∃ l, s.mgr.Lists l ∧ ∀ x, x ∈ l ↔ x ∈ s.posted ∧ x ∉ s.completed

/-- A transaction leaves the list before it is completed: between the two it is in neither. -/
theorem not_listsUncompleted_taken :
    ∃ s : State ℕ ℕ Unit, s.Reachable 500 ∧ ¬s.ListsUncompleted := by
  have hr : ((new 500).runs (answeredRun.take 2)).isSome = true := rfl
  obtain ⟨s, hs⟩ := Option.isSome_iff_exists.1 hr
  refine ⟨s, Reachable.runs .refl hs, ?_⟩
  rintro ⟨l, hl, hmem⟩
  have hnext : (s.mgr.heap .head).next = some .tail := by
    cases hs
    rfl
  have hposted : .xact 0 ∈ s.posted ∧ .xact 0 ∉ s.completed := by
    cases hs
    decide
  have hx := (hmem (.xact 0)).2 hposted
  cases l with
  | nil => simp at hx
  | cons y l =>
    rw [hl.head_next] at hnext
    exact hl.ne_tail (List.mem_cons_self) (by simpa using hnext)

end Cpsw.Async.State
