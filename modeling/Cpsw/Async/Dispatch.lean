import Cpsw.Async.Grouped

namespace Cpsw.Async.Request

variable {ε : Type} {s t : Request ε} {id : ℕ} {a : AsyncIO} {err : Option ε}
variable {f : Frame} {below u v : List Frame} {except : ℕ → Prop}

/-- The stack and the pending sub-reads change, and no reference to a completion is lost. -/
theorem Guarded.move {pd : List AsyncIO} {b : Bool} {st : List Frame} {except' : ℕ → Prop}
    (h : s.Guarded except) (hs : st = u ++ v) (ha : ∀ f ∈ u, s.Live f.aio)
    (hb : ∀ f ∈ v, f.Base) (hp : ∀ a ∈ pd, s.Live a)
    (hh : ∀ id, ¬except' id → .par id ∈ s.stack.map Frame.aio ++ s.pending →
      .par id ∈ st.map Frame.aio ++ pd)
    (he : ∀ id, ¬except' id → ¬except id) :
    Guarded { s with stack := st, pending := pd, thrown := b } except' := by
  refine ⟨⟨u, v, hs, ha, hb⟩, hp, h.root, h.parent, ?_, h.calls, h.called, h.failed⟩
  intro id hid hl
  have hm := h.held id (he id hid) hl
  unfold holders at hm ⊢
  rcases List.mem_append.1 hm with hm | hm
  · exact List.mem_append_left _ (hh id hid hm)
  · exact List.mem_append_right _ hm

/-- A new completion, held by the new top frame, takes over a reference. -/
theorem Guarded.create (h : s.Grouped) {frame : AsyncIO → Frame} {st : List Frame}
    (hs : st = u ++ v) (ha : ∀ f ∈ u, s.Live f.aio)
    (hb : ∀ f ∈ v, f.Base) (hl : s.Live a) (hf : ∀ b, (frame b).aio = b)
    (hh : ∀ id, .par id ∈ s.stack.map Frame.aio → .par id = a ∨ .par id ∈ st.map Frame.aio) :
    (s.create a frame st).Grouped := by
  have hget {j : ℕ} {c : ParallelCompletion ε} (hc : s.cells[j]? = some c) :
      (s.create a frame st).cells[j]? = some c := by
    have hlt := (List.getElem?_eq_some_iff.1 hc).1
    simp only [Request.create, List.getElem?_append_left hlt, hc]
  have hnew : (s.create a frame st).cells[s.cells.length]? = some { parent := a } := by
    simp [Request.create]
  have hcases {j : ℕ} {c : ParallelCompletion ε} (hc : (s.create a frame st).cells[j]? = some c) :
      s.cells[j]? = some c ∨ j = s.cells.length ∧ c = { parent := a } := by
    have hlt : j < s.cells.length + 1 := by
      simpa [Request.create] using (List.getElem?_eq_some_iff.1 hc).1
    rcases Nat.lt_succ_iff_lt_or_eq.1 hlt with hj | rfl
    · left
      simpa [Request.create, List.getElem?_append_left hj] using hc
    · right
      rw [hnew] at hc
      cases hc
      exact ⟨rfl, rfl⟩
  have hlive {b : AsyncIO} (hb : s.Live b) : (s.create a frame st).Live b := by
    obtain ⟨j, c, rfl, hc, hl⟩ := hb
    exact ⟨j, c, rfl, hget hc, hl⟩
  have hlnew : (s.create a frame st).Live (.par s.cells.length) := live_par.2 ⟨_, hnew, rfl⟩
  obtain ⟨i, ci, rfl, hci, hli⟩ := hl
  have hi : i < s.cells.length := (List.getElem?_eq_some_iff.1 hci).1
  have h0 : s.Live (.par 0) := h.root_live (live_par.2 ⟨ci, hci, hli⟩)
  refine ⟨⟨frame (.par s.cells.length) :: u, v, ?_, ?_, hb⟩, ?_, ?_, ?_, ?_, ?_, ?_, ?_⟩
  · simp [Request.create, hs]
  · intro g hg
    rcases List.mem_cons.1 hg with rfl | hg
    · rw [hf]
      exact hlnew
    · exact hlive (ha g hg)
  · intro b hb
    exact hlive (h.pending b hb)
  · obtain ⟨r, hr, hu⟩ := h.root
    exact ⟨r, hget hr, hu⟩
  · intro j c hc hj
    rcases hcases hc with hc | ⟨rfl, rfl⟩
    · obtain ⟨q, hq, hcq, hql⟩ := h.parent j c hc hj
      exact ⟨q, hq, hcq, fun hl ↦ hlive (hql hl)⟩
    · exact ⟨i, hi, rfl, fun _ ↦ hlive (live_par.2 ⟨ci, hci, hli⟩)⟩
  · intro j _ hj
    obtain ⟨c, hc, hl⟩ := live_par.1 hj
    rcases hcases hc with hc | ⟨rfl, rfl⟩
    · rcases mem_holders.1 (h.held j not_false (live_par.2 ⟨c, hc, hl⟩)) with
        ⟨g, hg, hga⟩ | hp | ⟨k, d, hd, hdl, hdp⟩
      · rcases hh j (List.mem_map.2 ⟨g, hg, hga⟩) with he | hm
        · exact mem_holders.2 (.inr (.inr ⟨_, _, hnew, rfl, he.symm⟩))
        · obtain ⟨g', hg', hga'⟩ := List.mem_map.1 hm
          exact mem_holders.2 (.inl ⟨g', List.mem_cons_of_mem _ hg', hga'⟩)
      · exact mem_holders.2 (.inr (.inl hp))
      · exact mem_holders.2 (.inr (.inr ⟨k, d, hget hd, hdl, hdp⟩))
    · exact mem_holders.2 (.inl ⟨_, List.mem_cons_self, hf _⟩)
  · intro _
    exact h.calls h0
  · intro hn
    exact absurd (hlive h0) hn
  · intro _
    refine (h.failed h0).trans ⟨?_, ?_⟩
    · rintro ⟨j, c, hc, hl, he⟩
      exact ⟨j, c, hget hc, hl, he⟩
    · rintro ⟨j, c, hc, hl, he⟩
      rcases hcases hc with hc | ⟨rfl, rfl⟩
      · exact ⟨j, c, hc, hl, he⟩
      · simp at he

theorem release_user : s.release .user = s := by
  unfold release
  cases s.cells.length <;> rfl

theorem callback_none (hl : s.Live a) : s.callback none a = s := by
  obtain ⟨id, c, rfl, -⟩ := hl
  have hm : s.cells.modify id (fun c ↦ c) = s.cells := by
    apply List.ext_getElem?
    intro j
    rw [List.getElem?_modify]
    cases s.cells[j]? <;> simp
  unfold callback
  simp only [ParallelCompletion.callback_none, hm]

theorem Guarded.release (h : s.Guarded (· = id)) (hl : s.Live (.par id)) :
    (s.release (.par id)).Grouped := by
  obtain ⟨c, hc, -⟩ := live_par.1 hl
  exact h.drop hl (List.getElem?_eq_some_iff.1 hc).1

/-- The frame on top is on its way out, or holds a live completion. -/
theorem Guarded.top (h : s.Grouped) (hs : s.stack = f :: below) :
    f.Base ∧ (∀ g ∈ below, g.Base) ∨
      s.Live f.aio ∧ ∃ u v, below = u ++ v ∧ (∀ g ∈ u, s.Live g.aio) ∧ ∀ g ∈ v, g.Base := by
  obtain ⟨above, base, ha, hl, hb⟩ := h.stack
  rw [hs] at ha
  cases above with
  | nil =>
    left
    have he : f :: below = base := ha
    exact ⟨hb f (he ▸ List.mem_cons_self), fun g hg ↦ hb g (he ▸ List.mem_cons_of_mem f hg)⟩
  | cons g above =>
    right
    obtain ⟨rfl, rfl⟩ := List.cons.inj ha
    exact ⟨hl f List.mem_cons_self, above, base, rfl,
      fun g hg ↦ hl g (List.mem_cons_of_mem f hg), hb⟩

theorem Guarded.leave (h : s.Grouped) (hs : s.stack = f :: below) :
    (s.leave f.aio below).Grouped := by
  rcases h.top hs with ⟨⟨path, rfl⟩, hb⟩ | ⟨hl, u, v, rfl, hu, hv⟩
  · unfold Request.leave
    rw [Frame.aio, release_user]
    refine h.move (u := []) (b := s.thrown) rfl (by simp) hb h.pending ?_ (fun _ hid ↦ hid)
    intro id _ hm
    simpa [hs, Frame.aio] using hm
  · obtain ⟨id, c, hf, hc⟩ := hl
    unfold Request.leave
    rw [hf]
    have hm : Guarded { s with stack := u ++ v } (· = id) := by
      refine h.move (b := s.thrown) rfl hu hv h.pending ?_ (fun _ _ ↦ not_false)
      intro j hj hm
      rw [hs, List.map_cons, hf, List.cons_append] at hm
      rcases List.mem_cons.1 hm with he | hm
      · cases he
        exact absurd rfl hj
      · exact hm
    exact hm.release (live_par.2 ⟨c, hc⟩)

/-- Another frame on top, or another counter in the one there is, with the same reference. -/
theorem Guarded.setTop (h : s.Grouped) (hs : s.stack = f :: below) (hl : s.Live f.aio)
    {g : Frame} (hg : g.aio = f.aio) {pd : List AsyncIO} (hp : pd = s.pending ∨
      pd = s.pending ++ [f.aio]) (th : Bool) :
    Grouped { s with stack := g :: below, pending := pd, thrown := th } := by
  rcases h.top hs with ⟨⟨path, rfl⟩, -⟩ | ⟨-, u, v, rfl, hu, hv⟩
  · exact absurd hl not_live_user
  · refine h.move (u := g :: u) (b := th) rfl ?_ hv ?_ ?_ (fun _ hid ↦ hid)
    · intro k hk
      rcases List.mem_cons.1 hk with rfl | hk
      · rw [hg]
        exact hl
      · exact hu k hk
    · intro a ha
      rcases hp with rfl | rfl
      · exact h.pending a ha
      · rcases List.mem_append.1 ha with ha | ha
        · exact h.pending a ha
        · rw [List.mem_singleton.1 ha]
          exact hl
    · intro id _ hm
      rw [hs] at hm
      rcases hp with rfl | rfl
      · simpa [hg] using hm
      · rw [List.map_cons, hg, ← List.append_assoc]
        exact List.mem_append_left _ hm

theorem Guarded.enter (h : s.Grouped) (hs : s.stack = f :: below) (hl : s.Live f.aio)
    (path : List ℕ) : (s.enter f.aio path).Grouped := by
  rcases h.top hs with ⟨⟨path, rfl⟩, -⟩ | ⟨-, u, v, rfl, hu, hv⟩
  · exact absurd hl not_live_user
  have habove : ∀ g ∈ f :: u, s.Live g.aio := by
    intro g hg
    rcases List.mem_cons.1 hg with rfl | hg
    · exact hl
    · exact hu g hg
  have hpush {g : Frame} (hg : g.aio = f.aio) : Grouped { s with stack := g :: s.stack } := by
    refine h.move (u := g :: f :: u) (b := s.thrown) (by rw [hs]; rfl) ?_ hv h.pending ?_
      (fun _ hid ↦ hid)
    · intro k hk
      rcases List.mem_cons.1 hk with rfl | hk
      · rw [hg]
        exact hl
      · exact habove k hk
    · intro id _ hm
      exact List.mem_cons_of_mem _ hm
  cases path with
  | nil => exact hpush rfl
  | cons n path =>
    by_cases hn : 0 < n
    · simp only [Request.enter, if_pos hn]
      exact h.create (u := f :: u) (by rw [hs]; rfl) habove hv hl (fun _ ↦ rfl)
        (fun _ hm ↦ .inr hm)
    · simp only [Request.enter, if_neg hn]
      exact hpush rfl

theorem Guarded.readElement (h : s.Grouped) {rest : ℕ} {o : Outcome}
    (hs : s.stack = .addr a (rest + 1) 0 :: below) (hd : s.readElement a rest below o = some t) :
    t.Grouped := by
  rcases h.top hs with ⟨⟨path, hf⟩, -⟩ | ⟨hl, u, v, rfl, hu, hv⟩
  · cases hf
  have hset {pd : List AsyncIO} (hp : pd = s.pending ∨ pd = s.pending ++ [a]) (th : Bool) :
      Grouped { s with stack := .addr a rest 0 :: (u ++ v), pending := pd, thrown := th } :=
    h.setTop (g := .addr a rest 0) hs hl rfl hp th
  cases o with
  | ok =>
    simp only [Request.readElement] at hd
    split at hd
    · cases hd
      exact hset (.inl rfl) s.thrown
    · cases hd
      exact hset (.inr rfl) s.thrown
    · cases hd
      have hc := callback_none (s := { s with stack := .addr a rest 0 :: (u ++ v) }) hl
      rw [show Frame.aio _ = a from rfl] at hc
      rw [hc]
      exact hset (.inl rfl) s.thrown
    · cases hd
      exact hset (.inl rfl) s.thrown
    · cases hd
      refine h.create (u := u) rfl hu hv hl (fun _ ↦ rfl) ?_
      intro id hm
      rw [hs] at hm
      simpa [Frame.aio] using hm
  | throws =>
    simp only [Request.readElement] at hd
    split at hd
    · cases hd
    · cases hd
      exact hset (.inl rfl) true
  | throwsPosted => cases hd

theorem Guarded.readBlk (h : s.Grouped) {rest blocks : ℕ}
    (hs : s.stack = .addr a rest (blocks + 1) :: below) (o : Outcome) :
    (s.readBlk_unlocked a rest blocks below o).Grouped := by
  rcases h.top hs with ⟨⟨path, hf⟩, -⟩ | ⟨hl, -⟩
  · cases hf
  have hset {pd : List AsyncIO} (hp : pd = s.pending ∨ pd = s.pending ++ [a]) (th : Bool) :
      Grouped { s with stack := .addr a rest blocks :: below, pending := pd, thrown := th } :=
    h.setTop (g := .addr a rest blocks) hs hl rfl hp th
  cases o with
  | ok => exact hset (.inr rfl) s.thrown
  | throws => exact hset (.inl rfl) true
  | throwsPosted => exact hset (.inr rfl) true

/-- What the reading thread does next, and how it turns out. -/
theorem Guarded.dispatch (h : s.Grouped) {o : Outcome} (hd : s.dispatch o = some t) :
    t.Grouped := by
  unfold Request.dispatch at hd
  split at hd
  · cases hd
  rename_i f below hs
  split at hd
  · split_ifs at hd
    cases hd
    exact h.leave hs
  split at hd
  · exact h.readElement hs hd
  · cases hd
    exact h.readBlk hs o
  · split_ifs at hd with hok hsync
    · cases hd
      rcases h.top hs with ⟨⟨path, hf⟩, -⟩ | ⟨hl, -⟩
      · cases hf
      · have hc := callback_none hl
        rw [Frame.aio] at hc
        rw [hc]
        exact h.leave hs
    · cases hd
      exact h.leave hs
  · split_ifs at hd
    cases hd
    rename_i f aio rest path hok
    rcases h.top hs with ⟨⟨path, hf⟩, -⟩ | ⟨hl, -⟩
    · cases hf
    · have hg : Grouped { s with stack := .mmio aio rest path :: below } :=
        h.setTop (g := .mmio aio rest path) hs hl rfl (.inl rfl) s.thrown
      exact hg.enter rfl hl path
  · split_ifs at hd
    cases hd
    exact h.leave hs

theorem Guarded.finishPending (h : s.Grouped) {k : ℕ} (hf : s.finish k err = some t) :
    t.Grouped := by
  obtain ⟨aio, hk, hf⟩ := Option.bind_eq_some_iff.1 hf
  cases hf
  obtain ⟨id, c, rfl, hc⟩ := h.pending aio (List.mem_of_getElem? hk)
  have hl : s.Live (.par id) := live_par.2 ⟨c, hc⟩
  have h0 : s.Live (.par 0) := h.root_live hl
  let s' : Request ε := { s with
    pending := s.pending.eraseIdx k
    failed := s.failed || err.isSome
    cells := s.cells.modify id (·.callback err) }
  have hget (j : ℕ) : s'.cells[j]? =
      (s.cells[j]?).map fun c ↦ if id = j then c.callback err else c := by
    simp only [s', List.getElem?_modify]
    cases s.cells[j]? <;> rfl
  have hlive {a : AsyncIO} : s'.Live a ↔ s.Live a := by
    cases a with
    | user => exact iff_of_false not_live_user not_live_user
    | par j =>
      rw [live_par, live_par, hget]
      cases s.cells[j]? with
      | none => simp
      | some c => by_cases hj : id = j <;> simp [hj]
  have herr : s'.failed = true ↔ s'.Erroneous := by
    simp only [s', Bool.or_eq_true, h.failed h0]
    constructor
    · rintro (⟨j, c, hc, hcl, hce⟩ | he)
      · refine ⟨j, _, by rw [hget, hc]; rfl, ?_, ?_⟩
        · by_cases hj : id = j <;> simp [hj, hcl]
        · by_cases hj : id = j <;> simp [hj, ParallelCompletion.callback_error, hce]
      · refine ⟨id, _, by rw [hget, hc.1]; rfl, by simp [hc.2], ?_⟩
        simp [ParallelCompletion.callback_error, he]
    · rintro ⟨j, d, hd, hdl, hde⟩
      rw [hget] at hd
      obtain ⟨d', hd', rfl⟩ := Option.map_eq_some_iff.1 hd
      by_cases hj : id = j
      · simp only [if_pos hj, ParallelCompletion.callback_live, ParallelCompletion.callback_error,
          Bool.or_eq_true] at hdl hde
        exact hde.imp (fun he ↦ ⟨j, d', hd', hdl, he⟩) fun he ↦ he
      · simp only [if_neg hj] at hdl hde
        exact .inl ⟨j, d', hd', hdl, hde⟩
  have hg : s'.Guarded (· = id) := by
    refine ⟨?_, ?_, ?_, ?_, ?_, ?_, ?_, ?_⟩
    · obtain ⟨above, below, hs, ha, hb⟩ := h.stack
      exact ⟨above, below, hs, fun f hf ↦ hlive.2 (ha f hf), hb⟩
    · intro a ha
      exact hlive.2 (h.pending a (List.mem_of_mem_eraseIdx ha))
    · obtain ⟨r, hr, hu⟩ := h.root
      refine ⟨_, by rw [hget, hr]; rfl, ?_⟩
      split_ifs <;> simp [hu]
    · intro j d hd hj
      rw [hget] at hd
      obtain ⟨d', hd', rfl⟩ := Option.map_eq_some_iff.1 hd
      obtain ⟨q, hq, hdq, hql⟩ := h.parent j d' hd' hj
      refine ⟨q, hq, by split_ifs <;> simp [hdq], fun hdl ↦ hlive.2 (hql ?_)⟩
      by_cases hij : id = j <;> simpa [hij] using hdl
    · intro j hj hjl
      rcases mem_holders.1 (h.held j not_false (hlive.1 hjl)) with hf | hp | ⟨i, d, hd, hdl, hdp⟩
      · exact mem_holders.2 (.inl hf)
      · obtain ⟨i, hi⟩ := List.getElem?_of_mem hp
        have hik : i ≠ k := by
          rintro rfl
          rw [hk] at hi
          cases hi
          exact hj rfl
        exact mem_holders.2 (.inr (.inl (List.mem_eraseIdx_iff_getElem?.2 ⟨i, hik, hi⟩)))
      · refine mem_holders.2 (.inr (.inr ⟨i, _, by rw [hget, hd]; rfl, ?_, ?_⟩))
        · by_cases hij : id = i <;> simp [hij, hdl]
        · by_cases hij : id = i <;> simp [hij, hdp]
    · intro _
      exact h.calls h0
    · intro hn
      exact absurd (hlive.2 h0) hn
    · intro _
      exact herr
  exact hg.release (hlive.2 hl)

theorem Guarded.exec (h : s.Grouped) {e : Event ε} (he : s.exec e = some t) : t.Grouped := by
  cases e with
  | dispatch o => exact h.dispatch he
  | finish k err => exact h.finishPending he

end Cpsw.Async.Request
