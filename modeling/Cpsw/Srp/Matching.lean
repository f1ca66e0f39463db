import Cpsw.Srp.Port

namespace Cpsw.Async.State

variable {α ρ ε : Type} {s t : State α ρ ε}

/-- What is completed with a response was in the hands of `doComplete` before. -/
structure Frame (s t : State α ρ ε) : Prop where
  posted : t.posted = s.posted
  doing : ∀ d ∈ t.doing, ∀ r, d.bc = some r → ∃ d' ∈ s.doing, d'.xact = d.xact ∧ d'.bc = some r
  calls : ∀ x r, .complete x (some r) ∈ t.calls → .complete x (some r) ∈ s.calls ∨
    ∃ d ∈ s.doing, d.xact = x ∧ d.bc = some r

theorem frame_of_same (hp : t.posted = s.posted) (hd : ∀ d ∈ t.doing, d ∈ s.doing)
    (hc : ∀ x r, .complete x (some r) ∈ t.calls → .complete x (some r) ∈ s.calls) : s.Frame t :=
  ⟨hp, fun d hd' _ hr ↦ ⟨d, hd d hd', rfl, hr⟩, fun x r h ↦ .inl (hc x r h)⟩

theorem frame_start (thread : Thread) (r : Manager α × Option NodePtr) :
    s.Frame (s.start thread none r) := by
  obtain ⟨m, x⟩ := r
  cases x with
  | none => exact frame_of_same rfl (fun _ hd ↦ hd) fun _ _ hc ↦ hc
  | some x =>
    refine ⟨rfl, ?_, fun _ _ hc ↦ .inl hc⟩
    intro d hd r hr
    rcases List.mem_append.1 hd with hd | hd
    · exact ⟨d, hd, rfl, hr⟩
    · rw [List.mem_singleton.1 hd] at hr
      exact absurd hr (Option.some_ne_none r).symm

/-- The manager by itself completes nothing with a response. -/
theorem frame_exec {e : Event α ρ ε} (he : e.isInternal = true) (ht : s.exec e = some t) :
    s.Frame t := by
  cases e with
  | post => contradiction
  | complete => contradiction
  | threadBody now =>
    unfold exec at ht
    cases hh : s.mgr.getHead_unl with
    | none =>
      rw [hh] at ht
      cases ht
      exact frame_of_same rfl (fun _ hd ↦ hd) fun _ _ hc ↦ hc
    | some x =>
      rw [hh] at ht
      obtain ⟨r, -, ht⟩ := Option.bind_eq_some_iff.1 ht
      cases ht
      exact frame_start .timeout r
  | threadStop =>
    cases ht
    exact frame_of_same rfl (fun _ hd ↦ hd) fun _ _ hc ↦ hc
  | flush =>
    unfold exec at ht
    cases hh : s.mgr.getHead_unl with
    | none =>
      rw [hh] at ht
      cases ht
      exact frame_of_same rfl (fun _ hd ↦ hd) fun _ _ hc ↦ hc
    | some x =>
      rw [hh] at ht
      obtain ⟨h, -, ht⟩ := Option.bind_eq_some_iff.1 ht
      cases ht
      exact frame_start .destructor _
  | callComplete k thrown =>
    obtain ⟨d, hd, ht⟩ := Option.bind_eq_some_iff.1 ht
    cases ht
    have hmem : d ∈ s.doing := List.mem_of_getElem? hd
    refine ⟨rfl, ?_, ?_⟩
    · intro d' hd' r hr
      rcases List.mem_or_eq_of_mem_set hd' with hd' | rfl
      · exact ⟨d', hd', rfl, hr⟩
      · exact ⟨d, hmem, rfl, hr⟩
    · intro x r hc
      rcases List.mem_append.1 hc with hc | hc
      · exact .inl hc
      · obtain ⟨rfl, hr⟩ : x = d.xact ∧ some r = d.bc := by simpa using hc
        exact .inr ⟨d, hmem, rfl, hr.symm⟩
  | callCallback k again =>
    obtain ⟨d, hd, ht⟩ := Option.bind_eq_some_iff.1 ht
    obtain ⟨⟨aio, thrown⟩, hcalled, ht⟩ := Option.bind_eq_some_iff.1 ht
    cases ht
    refine frame_of_same rfl (fun _ hd' ↦ List.mem_of_mem_eraseIdx hd') ?_
    intro x r hc
    rcases List.mem_append.1 hc with hc | hc
    · exact hc
    · cases completes_callbacks hc

theorem exec_post {x : NodePtr} {tid : UInt32} {now : ℕ} {callback : Option α}
    (ht : s.exec (.post x tid now callback) = some t) :
    t.posted = s.posted ++ [x] ∧ t.doing = s.doing ∧ t.calls = s.calls := by
  obtain ⟨⟨m, wakeup⟩, -, ht⟩ := Option.bind_eq_some_iff.1 ht
  cases ht
  exact ⟨rfl, rfl, rfl⟩

theorem exec_complete {bc : Option ρ} {tid : UInt32} (ht : s.exec (.complete bc tid) = some t) :
    t.posted = s.posted ∧ t.calls = s.calls := by
  obtain ⟨⟨m, x⟩, -, ht⟩ := Option.bind_eq_some_iff.1 ht
  cases ht
  cases x <;> exact ⟨rfl, rfl⟩

end Cpsw.Async.State

namespace Cpsw.Srp.Port

open ByteMux Depack Lib.Run
open Async (NodePtr)

variable {α ε : Type} {a : Address} {s t : Port α ε} {r : Response} {ids : List UInt32}
variable {posted : List NodePtr} {tid : UInt32} {n : ℕ} {x : Exchange} {dest : UInt8}
variable {header : List SRPWord} {timeoutUs : ℕ}

/-- The response can be read, and has this identifier. -/
structure Carries (a : Address) (r : Response) (tid : UInt32) : Prop where
  ok : ∀ b ∈ r.rchn, b.Ok
  length : (tidWord a.protoVersion r.rchn).length = 4
  tid : toTid ((order a.protoVersion).load (tidWord a.protoVersion r.rchn)) = tid

/-- The response answers a request, and no later request has its identifier. -/
structure Timely (a : Address) (ids : List UInt32) (r : Response) : Prop where
  carries : ∃ tid, ids[r.req]? = some tid ∧ Carries a r tid
  latest : ∀ n, r.req < n → ids[n]? ≠ ids[r.req]?

/-- The response goes to a posted request with its identifier, that is no later one. -/
def Answers (a : Address) (ids : List UInt32) (posted : List NodePtr) (x : NodePtr) (r : Response) :
    Prop :=
  x ∈ posted ∧ ∃ n tid, x = .xact n ∧ ids[n]? = some tid ∧ n ≤ r.req ∧ Carries a r tid

/-- The transaction is that of the last request. -/
structure Last (a : Address) (ids : List UInt32) (w : Xact) : Prop where
  req : w.req + 1 = ids.length
  tid : ids[w.req]? = some w.tid
  header : a.tidOf w.header = some w.tid
  masked : toTid w.tid = w.tid

structure Inv (a : Address) (s : Port α ε) : Prop where
  mgr : s.asyncXactMgr.Inv
  flying : ∀ r ∈ s.flying, Timely a s.issued r
  waiting : ∀ w, s.waiting = some w → Last a s.issued w
  posted : ∀ x ∈ s.asyncXactMgr.posted,
    ∃ n, x = .xact n ∧ s.issued[n]? = some (s.asyncXactMgr.mgr.heap x).tid
  doing : ∀ d ∈ s.asyncXactMgr.doing, ∀ r, d.bc = some r →
    Answers a s.issued s.asyncXactMgr.posted d.xact r
  calls : ∀ x r, .complete x (some r) ∈ s.asyncXactMgr.calls →
    Answers a s.issued s.asyncXactMgr.posted x r
  completed : ∀ c ∈ s.completed, Carries a c.2 c.1.tid ∧ c.2.req = c.1.req

theorem Carries.extractTid_eq (h : Carries a r tid) (raw : SRPWord) :
    extractTid a.protoVersion a.host raw r.rchn = .ok tid := by
  rw [Srp.extractTid_eq h.ok h.length, h.tid]

theorem getElem?_grown {n : ℕ} (h : ids[n]? = some tid) (t : UInt32) : (ids ++ [t])[n]? = some tid := by
  rw [List.getElem?_append_left (List.getElem?_eq_some_iff.1 h).1, h]

theorem Timely.issue (h : Timely a ids r) (hne : ids[r.req]? ≠ some tid) :
    Timely a (ids ++ [tid]) r := by
  obtain ⟨tid', hid, hc⟩ := h.carries
  refine ⟨⟨tid', getElem?_grown hid tid, hc⟩, ?_⟩
  intro n hn
  rw [getElem?_grown hid]
  rcases Nat.lt_or_ge n ids.length with hlt | hge
  · rw [List.getElem?_append_left hlt, ← hid]
    exact h.latest n hn
  · rw [List.getElem?_append_right hge, List.getElem?_singleton]
    split_ifs
    · rw [← hid]
      exact hne.symm
    · exact (Option.some_ne_none _).symm

theorem Answers.issue {x : NodePtr} (h : Answers a ids posted x r) (t : UInt32) :
    Answers a (ids ++ [t]) posted x r := by
  obtain ⟨hx, n, tid, rfl, hid, hn, hc⟩ := h
  exact ⟨hx, n, tid, rfl, getElem?_grown hid t, hn, hc⟩

theorem toTid_getTid : toTid s.getTid = s.getTid := toTid_toTid _

theorem issue_last : s.issue.issued[s.issued.length]? = some s.getTid := List.getElem?_concat_length

theorem inv_new : Inv a (new timeoutUs : Port α ε) where
  mgr := Async.State.inv_new
  flying := List.forall_mem_nil _
  waiting _ h := absurd h.symm (Option.some_ne_none _)
  posted := List.forall_mem_nil _
  doing := List.forall_mem_nil _
  calls _ _ h := absurd h List.not_mem_nil
  completed := List.forall_mem_nil _

/-- A request takes an identifier that no response in flight has. -/
theorem Inv.issue (h : Inv a s) (hw : s.waiting = none)
    (hf : ∀ r ∈ s.flying, s.issued[r.req]? ≠ some s.getTid) : Inv a s.issue where
  mgr := h.mgr
  flying r hr := (h.flying r hr).issue (hf r hr)
  waiting w h := absurd (h.symm.trans hw) (Option.some_ne_none w)
  posted x hx := by
    obtain ⟨n, rfl, hn⟩ := h.posted x hx
    exact ⟨n, rfl, getElem?_grown hn _⟩
  doing d hd r hr := (h.doing d hd r hr).issue _
  calls x r hc := (h.calls x r hc).issue _
  completed := h.completed

theorem Inv.setWaiting (h : Inv a s) {o : Option Xact} (ho : ∀ w, o = some w → Last a s.issued w) :
    Inv a { s with waiting := o } :=
  ⟨h.mgr, h.flying, ho, h.posted, h.doing, h.calls, h.completed⟩

theorem Inv.setTid (h : Inv a s) (tid : UInt32) : Inv a { s with tid_ := tid } :=
  ⟨h.mgr, h.flying, h.waiting, h.posted, h.doing, h.calls, h.completed⟩

theorem Inv.setFlying (h : Inv a s) {net queue asyncQueue : List Response}
    (hr : ∀ r ∈ net ++ queue ++ asyncQueue, r ∈ s.flying ∨ Timely a s.issued r) :
    Inv a { s with net := net, queue := queue, asyncQueue := asyncQueue } :=
  ⟨h.mgr, fun r hm ↦ (hr r hm).elim (h.flying r) id, h.waiting, h.posted, h.doing, h.calls,
    h.completed⟩

/-- The responses to the last request. -/
theorem Inv.push (h : Inv a s) (hv : a.protoVersion ≠ .SRP_UDP_NONE)
    (hx : Exchanges a dest header x) (htid : a.tidOf header = some tid) (hm : toTid tid = tid)
    (hid : s.issued[n]? = some tid) (hn : n + 1 = s.issued.length) :
    Port.push a s dest n x = some { s with net := s.net ++ x.responses.map (⟨·, n⟩) } ∧
      Inv a { s with net := s.net ++ x.responses.map (⟨·, n⟩) } := by
  have hword := Address.tidWord_message htid hx.message
  have hlen : (tidWord a.protoVersion x.xchn).length = 4 := by
    rw [hword, store_length]
  obtain ⟨sent, hsent, -, -, hset⟩ := processOutput_ok hv hx.ok hlen dest
  have htimely : ∀ r ∈ x.responses, Timely a s.issued ⟨r, n⟩ := by
    intro r hr
    obtain ⟨hok, hr⟩ := hx.responses sent hsent r hr
    have hr : tidWord a.protoVersion r =
        ((order a.protoVersion).store tid).set (vcPlace a.protoVersion) dest := by
      rw [hr, hset, hword]
    refine ⟨⟨tid, hid, hok, ?_, ?_⟩, ?_⟩
    · rw [hr, List.length_set, store_length]
    · rw [hr, toTid_inserted, hm]
    · intro m hlt
      have hge : s.issued.length ≤ m := hn ▸ hlt
      rw [hid, List.getElem?_eq_none hge]
      exact (Option.some_ne_none tid).symm
  constructor
  · rw [Port.push, hsent]
    rfl
  · refine h.setFlying ?_
    intro r hr
    rw [List.append_assoc, List.append_assoc, List.mem_append] at hr
    rw [Port.flying, List.append_assoc, List.mem_append]
    rcases hr with hr | hr
    · exact .inl (.inl hr)
    · rcases List.mem_append.1 hr with hr | hr
      · obtain ⟨rchn, hmem, rfl⟩ := List.mem_map.1 hr
        exact .inr (htimely rchn hmem)
      · exact .inl (.inr hr)

/-- What the manager has done leaves every response with a request that it answers. -/
theorem Inv.setMgr (h : Inv a s) {m : Async.State α Response ε} (hm : m.Inv)
    (hposted : ∀ x ∈ m.posted, ∃ n, x = .xact n ∧ s.issued[n]? = some (m.mgr.heap x).tid)
    (hdoing : ∀ d ∈ m.doing, ∀ r, d.bc = some r → Answers a s.issued m.posted d.xact r)
    (hcalls : ∀ x r, .complete x (some r) ∈ m.calls → Answers a s.issued m.posted x r) :
    Inv a { s with asyncXactMgr := m } :=
  ⟨hm, h.flying, h.waiting, hposted, hdoing, hcalls, h.completed⟩

theorem Inv.manager (h : Inv a s) {e : Async.Event α Response ε} {m : Async.State α Response ε}
    (hi : e.isInternal = true) (he : s.asyncXactMgr.Enabled e)
    (hm : s.asyncXactMgr.exec e = some m) : Inv a { s with asyncXactMgr := m } := by
  have hk := h.mgr.step ⟨e, he, hm⟩
  have hf := Async.State.frame_exec hi hm
  refine h.setMgr hk.inv ?_ ?_ ?_
  · intro x hx
    rw [hf.posted] at hx
    rw [hk.tid x hx]
    exact h.posted x hx
  · intro d hd r hr
    obtain ⟨d', hd', hx, hr⟩ := hf.doing d hd r hr
    rw [hf.posted, ← hx]
    exact h.doing d' hd' r hr
  · intro x r hc
    rw [hf.posted]
    rcases hf.calls x r hc with hc | ⟨d, hd, rfl, hr⟩
    · exact h.calls x r hc
    · exact h.doing d hd r hr

theorem Answers.mono {posted' : List NodePtr} {x : NodePtr} (h : Answers a ids posted x r)
    (hs : posted ⊆ posted') : Answers a ids posted' x r := ⟨hs h.1, h.2⟩

/-- The transaction is posted under the number and the identifier of the last request. -/
theorem Inv.post (h : Inv a s) (hid : s.issued[n]? = some tid)
    (hnew : NodePtr.xact n ∉ s.asyncXactMgr.posted) (hg : s.asyncXactMgr.gone = false) (now : ℕ)
    (callback : Option α) : ∃ m, s.asyncXactMgr.exec (.post (.xact n) tid now callback) = some m ∧
      Inv a { s with asyncXactMgr := m } := by
  have he : s.asyncXactMgr.Enabled (.post (.xact n) tid now callback) :=
    ⟨hg, NodePtr.noConfusion, NodePtr.noConfusion, hnew⟩
  obtain ⟨m, hm, hk⟩ := h.mgr.exec _ he
  obtain ⟨hposted, hdoing, hcalls⟩ := Async.State.exec_post hm
  have htid := (h.mgr.takesLaw.post _ _ _ _ _ he hm).2.2
  have hsub : s.asyncXactMgr.posted ⊆ m.posted := hposted ▸ List.subset_append_left _ _
  refine ⟨m, hm, h.setMgr hk.inv ?_ ?_ ?_⟩
  · intro x hx
    rw [hposted] at hx
    rcases List.mem_append.1 hx with hx | hx
    · rw [hk.tid x hx]
      exact h.posted x hx
    · rw [List.mem_singleton.1 hx, htid]
      exact ⟨n, rfl, hid⟩
  · intro d hd r hr
    rw [hdoing] at hd
    exact (h.doing d hd r hr).mono hsub
  · intro x r hc
    rw [hcalls] at hc
    exact (h.calls x r hc).mono hsub

/-- A response that the manager takes goes to a request that it answers, or to none. -/
theorem Inv.complete (h : Inv a s) (hr : Timely a s.issued r) (hc : Carries a r tid)
    (hg : s.asyncXactMgr.gone = false) : ∃ m,
      s.asyncXactMgr.exec (.complete (some r) tid) = some m ∧
        Inv a { s with asyncXactMgr := m } := by
  obtain ⟨m, hm, hk⟩ := h.mgr.exec (.complete (some r) tid) hg
  obtain ⟨hposted, hcalls⟩ := Async.State.exec_complete hm
  have htakes := h.mgr.takesLaw.complete _ _ _ hm
  refine ⟨m, hm, h.setMgr hk.inv ?_ ?_ ?_⟩
  · intro x hx
    rw [hposted] at hx
    rw [hk.tid x hx]
    exact h.posted x hx
  · have hold : ∀ d ∈ s.asyncXactMgr.doing, ∀ r, d.bc = some r →
        Answers a s.issued m.posted d.xact r := by
      rw [hposted]
      exact h.doing
    cases hfind : s.asyncXactMgr.pending.find? fun x ↦ (s.asyncXactMgr.mgr.heap x).tid = tid with
    | none =>
      rw [hfind] at htakes
      rw [htakes.2]
      exact hold
    | some x =>
      rw [hfind] at htakes
      rw [htakes.2]
      intro d hd r' hr'
      rcases List.mem_append.1 hd with hd | hd
      · exact hold d hd r' hr'
      · rw [List.mem_singleton.1 hd] at hr' ⊢
        obtain rfl : r = r' := Option.some.inj hr'
        have hx : x ∈ s.asyncXactMgr.posted :=
          (List.mem_filter.1 (List.mem_of_find?_eq_some hfind)).1
        have hxt : (s.asyncXactMgr.mgr.heap x).tid = tid := by simpa using List.find?_some hfind
        obtain ⟨n, rfl, hn⟩ := h.posted x hx
        rw [hxt] at hn
        refine ⟨hposted ▸ hx, n, tid, rfl, hn, ?_, hc⟩
        by_contra hlt
        obtain ⟨tid', hid, hc'⟩ := hr.carries
        exact hr.latest n (Nat.lt_of_not_le hlt) (hn.trans (by rw [hid, ← hc.tid, ← hc'.tid]))
  · intro x r hc
    rw [hcalls] at hc
    rw [hposted]
    exact h.calls x r hc

theorem Timely.extractTid (h : Timely a ids r) (raw : SRPWord) :
    ∃ tid, extractTid a.protoVersion a.host raw r.rchn = .ok tid ∧ ids[r.req]? = some tid ∧
      Carries a r tid := by
  obtain ⟨tid, hid, hc⟩ := h.carries
  exact ⟨tid, hc.extractTid_eq raw, hid, hc⟩

/-- A response to the last request is the only one that its identifier matches. -/
theorem Inv.req_eq (h : Inv a s) {w : Xact} (hw : s.waiting = some w) (hr : r ∈ s.flying)
    (hid : s.issued[r.req]? = some w.tid) : r.req = w.req := by
  have hlast := h.waiting w hw
  obtain ⟨hlt, -⟩ := List.getElem?_eq_some_iff.1 hid
  have hge : ¬r.req < w.req := by
    intro hlt
    exact (h.flying r hr).latest _ hlt (hlast.tid.trans hid.symm)
  have := hlast.req
  omega

/-- The caller takes the response to its own request and drops any other. -/
theorem Inv.pop (h : Inv a s) {w : Xact} (hw : s.waiting = some w) {q : List Response}
    (hq : s.queue = r :: q) (raw : SRPWord) : ∃ t, Port.exec a s (.pop raw) = some t ∧ Inv a t := by
  have hr : r ∈ s.flying := by simp [Port.flying, hq]
  obtain ⟨tid, he, hid, hc⟩ := (h.flying r hr).extractTid raw
  have hi : Inv a { s with queue := q } := by
    apply h.setFlying
    intro r' hr'
    left
    simp only [Port.flying, hq, List.mem_append, List.mem_cons] at hr' ⊢
    tauto
  have hexec : Port.exec a s (.pop raw) = some (if tidMatch tid w.tid then
      { s with queue := q, waiting := none, completed := s.completed ++ [(w, r)] }
      else { s with queue := q }) := by
    simp only [Port.exec, hw, hq, Option.bind_eq_bind, Option.bind_some, List.head?_cons, he]
    rfl
  refine ⟨_, hexec, ?_⟩
  split_ifs with hm
  · have hmask : toTid tid = tid := hc.tid ▸ toTid_toTid _
    have htid : tid = w.tid := by
      rw [← hmask, tidMatch_iff.1 hm, (h.waiting w hw).masked]
    subst htid
    refine ⟨hi.mgr, hi.flying, ?_, hi.posted, hi.doing, hi.calls, ?_⟩
    · intro w' hw'
      exact absurd hw'.symm (Option.some_ne_none w')
    · intro c hmem
      rcases List.mem_append.1 hmem with hmem | hmem
      · exact h.completed c hmem
      · rw [List.mem_singleton.1 hmem]
        exact ⟨hc, h.req_eq hw hr hid⟩
  · exact hi

theorem Inv.popAsync (h : Inv a s) {q : List Response} (hq : s.asyncQueue = r :: q)
    (hg : s.asyncXactMgr.gone = false) (raw : SRPWord) :
    ∃ t, Port.exec a s (.popAsync raw) = some t ∧ Inv a t := by
  have hr : r ∈ s.flying := by simp [Port.flying, hq]
  obtain ⟨tid, he, -, hc⟩ := (h.flying r hr).extractTid raw
  have hi : Inv a { s with asyncQueue := q } := by
    apply h.setFlying
    intro r' hr'
    left
    simp only [Port.flying, hq, List.mem_append, List.mem_cons] at hr' ⊢
    tauto
  obtain ⟨m, hm, hinv⟩ := hi.complete (h.flying r hr) hc hg
  refine ⟨{ s with asyncQueue := q, asyncXactMgr := m }, ?_, hinv⟩
  simp only [Port.exec, hq, Option.bind_eq_bind, Option.bind_some, List.head?_cons, he,
    Except.toOption, hm]
  rfl

theorem mem_flying_of_erase {k : ℕ} {r' : Response} (hk : s.net[k]? = some r)
    (hr : r' ∈ s.net.eraseIdx k ++ s.queue ++ s.asyncQueue ∨ r' = r) : r' ∈ s.flying := by
  have hmem : r ∈ s.net := List.mem_of_getElem? hk
  rcases hr with hr | rfl
  · simp only [Port.flying, List.mem_append] at hr ⊢
    rcases hr with (hr | hr) | hr
    · exact .inl (.inl (List.mem_of_mem_eraseIdx hr))
    · exact .inl (.inr hr)
    · exact .inr hr
  · simp [Port.flying, hmem]

/-- A response moves to the queue of its channel, or is dropped. -/
theorem Inv.deliver (h : Inv a s) (hv : a.protoVersion ≠ .SRP_UDP_NONE) {k : ℕ}
    (hk : s.net[k]? = some r) : ∃ t, Port.exec a s (.deliver k) = some t ∧ Inv a t := by
  have hr : r ∈ s.flying := mem_flying_of_erase hk (.inr rfl)
  obtain ⟨tid, -, hc⟩ := (h.flying r hr).carries
  have hvc := extractVC_eq hv hc.ok hc.length
  have hexec : Port.exec a s (.deliver k) = some (receive a { s with net := s.net.eraseIdx k } r
      (tidWord a.protoVersion r.rchn)[vcPlace a.protoVersion]?) := by
    simp only [Port.exec, hk, Option.bind_eq_bind, Option.bind_some, hvc]
    rfl
  have hi : Inv a { s with net := s.net.eraseIdx k } :=
    h.setFlying fun r' hr' ↦ .inl (mem_flying_of_erase hk (.inl hr'))
  refine ⟨_, hexec, ?_⟩
  cases (tidWord a.protoVersion r.rchn)[vcPlace a.protoVersion]? with
  | none => exact hi
  | some vc =>
    unfold receive
    dsimp only
    split_ifs
    · apply h.setFlying
      intro r' hr'
      left
      apply mem_flying_of_erase hk
      simp only [List.mem_append, List.mem_singleton] at hr' ⊢
      tauto
    · apply h.setFlying
      intro r' hr'
      left
      apply mem_flying_of_erase hk
      simp only [List.mem_append, List.mem_singleton] at hr' ⊢
      tauto
    · exact hi

/-- Whatever happens next, no exception is thrown and the invariant is kept. -/
theorem Inv.exec (h : Inv a s) (hv : a.protoVersion ≠ .SRP_UDP_NONE) (e : Event α ε)
    (he : Enabled a s e) (hf : s.Fresh e) : ∃ t, Port.exec a s e = some t ∧ Inv a t := by
  have hlen : s.issued.length + 1 = s.issue.issued.length := by
    simp [Port.issue]
  cases e with
  | read off sbytes x =>
    obtain ⟨hw, hx⟩ := he
    have htid := Address.tidOf_readHeader hv s.getTid off sbytes
    obtain ⟨hpush, hi⟩ := (h.issue hw hf).push hv hx htid toTid_getTid issue_last hlen
    refine ⟨_, by rw [Port.exec, hpush]; rfl, hi.setWaiting ?_⟩
    rintro w ⟨⟩
    exact ⟨hlen, issue_last, htid, toTid_getTid⟩
  | write off dbytes x =>
    obtain ⟨hw, hx⟩ := he
    have htid := Address.tidOf_writeHeader hv s.getTid off dbytes
    have hi : Inv a { s.issue with tid_ := s.issue.tid_ + tidLsb } := (h.issue hw hf).setTid _
    obtain ⟨hpush, hi⟩ := hi.push hv hx htid toTid_getTid issue_last hlen
    refine ⟨_, by rw [Port.exec]; dsimp only; rw [hpush]; rfl, hi.setWaiting ?_⟩
    intro w hsome
    split_ifs at hsome
    rcases hsome with ⟨⟩
    exact ⟨hlen, issue_last, htid, toTid_getTid⟩
  | readAsync off sbytes now callback x =>
    obtain ⟨hw, hg, hx⟩ := he
    have htid := Address.tidOf_readHeader hv s.getTid off sbytes
    have hnew : NodePtr.xact s.issued.length ∉ s.asyncXactMgr.posted := by
      intro hmem
      obtain ⟨n, hn, hid⟩ := h.posted _ hmem
      obtain rfl : s.issued.length = n := NodePtr.xact.inj hn
      rw [List.getElem?_eq_none le_rfl] at hid
      exact absurd hid.symm (Option.some_ne_none _)
    obtain ⟨m, hm, hi⟩ := (h.issue hw hf).post issue_last hnew hg now callback
    obtain ⟨hpush, hi⟩ := hi.push hv hx htid toTid_getTid issue_last hlen
    refine ⟨_, ?_, hi⟩
    have hm : s.asyncXactMgr.exec (.post (.xact s.issued.length) s.getTid now callback) = some m :=
      hm
    rw [Port.exec, hm]
    exact hpush
  | retry x =>
    obtain ⟨-, w, hw, -, hx⟩ := he
    obtain ⟨hreq, hid, htid, hmask⟩ := h.waiting w hw
    have hi : Inv a { s with waiting := some { w with attempt := w.attempt + 1 } } := by
      apply h.setWaiting
      rintro w' ⟨⟩
      exact ⟨hreq, hid, htid, hmask⟩
    obtain ⟨hpush, hi⟩ := hi.push hv hx htid hmask hid hreq
    refine ⟨_, ?_, hi⟩
    rw [Port.exec, hw]
    exact hpush
  | giveUp =>
    refine ⟨_, rfl, h.setWaiting ?_⟩
    intro w hw
    exact absurd hw.symm (Option.some_ne_none w)
  | pop raw =>
    obtain ⟨hw, hq⟩ := he
    obtain ⟨w, hw⟩ := Option.isSome_iff_exists.1 hw
    obtain ⟨r, q, hq⟩ := List.exists_cons_of_ne_nil hq
    exact h.pop hw hq raw
  | popAsync raw =>
    obtain ⟨hq, hg⟩ := he
    obtain ⟨r, q, hq⟩ := List.exists_cons_of_ne_nil hq
    exact h.popAsync hq hg raw
  | deliver k => exact h.deliver hv (List.getElem?_eq_getElem he)
  | lose k =>
    refine ⟨_, rfl, h.setFlying ?_⟩
    intro r hr
    exact .inl (mem_flying_of_erase (List.getElem?_eq_getElem he) (.inl hr))
  | duplicate k =>
    have hk : s.net[k]? = some s.net[k] := List.getElem?_eq_getElem he
    refine ⟨{ s with net := s.net ++ [s.net[k]] }, by rw [Port.exec, hk]; rfl, h.setFlying ?_⟩
    intro r hr
    left
    simp only [List.mem_append, List.mem_singleton] at hr
    simp only [Port.flying, List.mem_append]
    rcases hr with ((hr | rfl) | hr) | hr
    · exact .inl (.inl hr)
    · exact .inl (.inl (List.getElem_mem he))
    · exact .inl (.inr hr)
    · exact .inr hr
  | manager e =>
    obtain ⟨hi, he⟩ := he
    obtain ⟨m, hm, -⟩ := h.mgr.exec e he
    exact ⟨_, by rw [Port.exec, hm]; rfl, h.manager hi he hm⟩

theorem Reachable.inv (h : Reachable a timeoutUs s) (hv : a.protoVersion ≠ .SRP_UDP_NONE) :
    Inv a s := by
  refine invariant ?_ h inv_new
  rintro s t hs ⟨e, he, hf, ht⟩
  obtain ⟨t', ht', hi⟩ := hs.exec hv e he hf
  obtain rfl : t = t' := Option.some.inj (ht.symm.trans ht')
  exact hi

/-- A transaction is completed by a response with its identifier, and by none to an earlier one. -/
structure Matched (a : Address) (s : Port α ε) : Prop where
  sync : ∀ w r, (w, r) ∈ s.completed →
    (∀ raw, extractTid a.protoVersion a.host raw r.rchn = .ok w.tid) ∧ r.req = w.req
  async : ∀ n r, .complete (.xact n) (some r) ∈ s.asyncXactMgr.calls →
    (∀ raw, extractTid a.protoVersion a.host raw r.rchn =
      .ok (s.asyncXactMgr.mgr.heap (.xact n)).tid) ∧ n ≤ r.req

theorem Inv.matched (h : Inv a s) : Matched a s where
  sync w r hc := by
    obtain ⟨hcarries, hreq⟩ := h.completed (w, r) hc
    exact ⟨hcarries.extractTid_eq, hreq⟩
  async n r hc := by
    obtain ⟨hposted, m, tid, hm, hid, hle, hcarries⟩ := h.calls _ r hc
    obtain rfl : n = m := NodePtr.xact.inj hm
    obtain ⟨k, hk, hid'⟩ := h.posted _ hposted
    obtain rfl : n = k := NodePtr.xact.inj hk
    obtain rfl : tid = _ := Option.some.inj (hid.symm.trans hid')
    exact ⟨hcarries.extractTid_eq, hle⟩

/-- Only the byte of the channel changes on the way out, and the channel and the identifier are
found again in whatever comes back with the same word. -/
def Recovers (a : Address) : Prop :=
  ∀ dest tid header xchn, toTid tid = tid → a.tidOf header = some tid → (∀ b ∈ xchn, b.Ok) →
    a.message header <+: BufChain.bytes xchn → ∃ sent,
      processOutput a.protoVersion dest xchn = .ok sent ∧
      sent.bytes = xchn.bytes.set (tidOff a.protoVersion + vcPlace a.protoVersion) dest ∧
      ∀ rchn, (∀ b ∈ rchn, b.Ok) → tidWord a.protoVersion rchn = tidWord a.protoVersion sent →
        ((extractVC a.protoVersion rchn).exec []).1 = .ok (some dest) ∧
          ∀ raw, extractTid a.protoVersion a.host raw rchn = .ok tid

theorem recovers (hv : a.protoVersion ≠ .SRP_UDP_NONE) : Recovers a := by
  intro dest tid header xchn hmask htid hok hmsg
  have hword := Address.tidWord_message htid hmsg
  have hlen : (tidWord a.protoVersion xchn).length = 4 := by
    rw [hword, store_length]
  obtain ⟨sent, hsent, -, hbytes, hset⟩ := processOutput_ok hv hok hlen dest
  refine ⟨sent, hsent, hbytes, ?_⟩
  intro rchn hok' hecho
  have hecho : tidWord a.protoVersion rchn =
      ((order a.protoVersion).store tid).set (vcPlace a.protoVersion) dest := by
    rw [hecho, hset, hword]
  have hlen' : (tidWord a.protoVersion rchn).length = 4 := by
    rw [hecho, List.length_set, store_length]
  constructor
  · have hplace := vcPlace_lt a.protoVersion
    rw [extractVC_eq hv hok' hlen', hecho, List.getElem?_set_self (by rwa [store_length])]
  · intro raw
    rw [Srp.extractTid_eq hok' hlen', hecho, toTid_inserted, hmask]

/-- Whatever is requested, lost, delayed or repeated, as long as no identifier is taken again while
a response with it is in flight. -/
theorem responses_match (hv : a.protoVersion ≠ .SRP_UDP_NONE) : Recovers a ∧
    ∀ s : Port α ε, Reachable a timeoutUs s →
      Matched a s ∧ ∀ e, Enabled a s e → s.Fresh e → ∃ t, exec a s e = some t := by
  refine ⟨recovers hv, fun s hs ↦ ⟨(hs.inv hv).matched, ?_⟩⟩
  intro e he hf
  obtain ⟨t, ht, -⟩ := (hs.inv hv).exec hv e he hf
  exact ⟨t, ht⟩

/-- A chain of one buffer. -/
def single (data : Bytes) : BufChain := [{ data := data, beg := 0, fin := data.length }]

def sample : Address := ⟨.SRP_UDP_V3, .LE, 5, false, true, 1⟩

/-- A read of four bytes, and its response with the value 42 a number of times. -/
def sampleExchange (tid : UInt8) (copies : ℕ) : Exchange where
  xchn := single [3, 0, 0, 0, tid, 0, 0, 0, 0, 0, 0, 0, 0, 0, 0, 0, 3, 0, 0, 0]
  responses := List.replicate copies
    (single [3, 0, 0, 0, tid, 0, 0, 5, 0, 0, 0, 0, 0, 0, 0, 0, 3, 0, 0, 0, 42, 0, 0, 0, 0, 0, 0, 0])

theorem single_ok {data : Bytes} (h : data.length < 2 ^ 16) : ∀ b ∈ single data, b.Ok := by
  intro b hb
  rw [List.mem_singleton.1 hb]
  exact ⟨Nat.zero_le _, le_rfl, h⟩

theorem sampleExchange_ok {tid : UInt8} (htid : tid = 1 ∨ tid = 2) (copies : ℕ) :
    Exchanges sample 5 (sample.readHeader tid.toUInt32 0 4) (sampleExchange tid copies) := by
  refine ⟨single_ok (by rcases htid with rfl | rfl <;> decide), ?_, ?_⟩
  · rcases htid with rfl | rfl <;> exact ⟨[], rfl⟩
  · intro sent hsent r hr
    rw [List.eq_of_mem_replicate hr]
    refine ⟨single_ok (by rcases htid with rfl | rfl <;> decide), ?_⟩
    cases hsent
    rfl

theorem Reachable.exec (h : Reachable a timeoutUs s) {e : Event α ε} (he : Enabled a s e)
    (hf : s.Fresh e) (ht : exec a s e = some t) : Reachable a timeoutUs t := h.tail ⟨e, he, hf, ht⟩

/-- The first response comes twice; its copy reaches the caller of the second read. -/
theorem responses_match_stale : ∃ s : Port Unit Unit, Reachable sample 500 s ∧ Matched sample s ∧
    s.completed.map (fun c ↦ (c.1.tid, c.1.req, c.2.req)) = [(1, 0, 0), (2, 1, 1)] := by
  have h : Reachable sample 500 (new 500 : Port Unit Unit) := .refl
  have h := h.exec (e := .read 0 4 (sampleExchange 1 2)) ⟨rfl, sampleExchange_ok (.inl rfl) 2⟩
    (List.forall_mem_nil _) rfl
  have h := h.exec (e := .deliver 0) (Nat.zero_lt_succ 1) trivial rfl
  have h := h.exec (e := .pop 0) ⟨rfl, List.cons_ne_nil _ _⟩ trivial rfl
  have h := h.exec (e := .read 0 4 (sampleExchange 2 1)) ⟨rfl, sampleExchange_ok (.inr rfl) 1⟩
    (by
      intro r hr
      rw [List.mem_singleton.1 hr]
      intro heq
      have hne : (1 : UInt32) ≠ 2 := by decide
      exact hne (Option.some.inj heq)) rfl
  have h := h.exec (e := .deliver 0) (Nat.zero_lt_succ 1) trivial rfl
  have h := h.exec (e := .deliver 0) (Nat.zero_lt_succ 0) trivial rfl
  have h := h.exec (e := .pop 0) ⟨rfl, List.cons_ne_nil _ _⟩ trivial rfl
  have h := h.exec (e := .pop 0) ⟨rfl, List.cons_ne_nil _ _⟩ trivial rfl
  exact ⟨_, h, ((responses_match (by decide)).2 _ h).1, rfl⟩

end Cpsw.Srp.Port
