import Cpsw.Async.Progress

namespace Cpsw.Async.Request

variable {ε : Type} {s t : Request ε} {err : Option ε} {below : List Frame} {path : List ℕ}
variable {leaf : Leaf} {complete : Option ε} {span : ℕ} {es : List (Event ε)}

/-- The user's callback is left to a parallel completion: some container reads more than one
element, or the last address speaks SRP. -/
def Splits (leaf : Leaf) (path : List ℕ) : Prop :=
  (∃ n ∈ path, 0 < n) ∨ ∃ blocks, leaf = .srp (blocks + 1)

/-- A read that will make its outermost parallel completion. -/
structure Before (s : Request ε) : Prop where
  cells : s.cells = []
  pending : s.pending = []
  calls : s.calls = []
  thrown : s.thrown = false
  failed : s.failed = false
  stack : ∃ f below, s.stack = f :: below ∧ (∀ g ∈ below, g.Base) ∧
    ((∃ path, f = .mmio .user 1 path ∧ Splits s.leaf path) ∨
      ∃ rest blocks, f = .addr .user (rest + 1) 0 ∧ s.leaf = .srp (blocks + 1))

/-- The outermost completion is made. -/
theorem grouped_create (hc : s.cells = []) (hp : s.pending = []) (hcalls : s.calls = [])
    (hf : s.failed = false) (hb : ∀ g ∈ below, g.Base) {frame : AsyncIO → Frame}
    (hframe : ∀ a, (frame a).aio = a) : (s.create .user frame below).Grouped := by
  have hcells : (s.create .user frame below).cells = [{ parent := .user }] := by
    simp [create, hc]
  have hstack : (s.create .user frame below).stack = frame (.par 0) :: below := by
    simp [create, hc]
  have hget {j : ℕ} {c : ParallelCompletion ε}
      (h : (s.create .user frame below).cells[j]? = some c) : j = 0 ∧ c = { parent := .user } := by
    rw [hcells] at h
    cases j with
    | zero => exact ⟨rfl, by simpa using h.symm⟩
    | succ j => simp at h
  have h0 : (s.create .user frame below).Live (.par 0) :=
    live_par.2 ⟨{ parent := .user }, by rw [hcells]; rfl, rfl⟩
  refine ⟨⟨[frame (.par 0)], below, hstack, ?_, hb⟩, ?_, ?_, ?_, ?_, ?_, ?_, ?_⟩
  · intro f hf
    rw [List.mem_singleton.1 hf, hframe]
    exact h0
  · intro a ha
    simp [create, hp] at ha
  · exact ⟨{ parent := .user }, by rw [hcells]; rfl, rfl⟩
  · intro j c h hj
    exact absurd (hget h).1 hj
  · intro j _ hj
    obtain ⟨c, hc, -⟩ := live_par.1 hj
    obtain ⟨rfl, -⟩ := hget hc
    exact mem_holders.2 (.inl ⟨frame (.par 0), by simp [hstack], hframe _⟩)
  · intro _
    exact hcalls
  · intro hn
    exact absurd h0 hn
  · intro _
    constructor
    · intro hfailed
      simp [create, hf] at hfailed
    · rintro ⟨j, c, h, -, he⟩
      obtain ⟨-, rfl⟩ := hget h
      simp at he

theorem before_enter (hc : s.cells = []) (hp : s.pending = []) (hcalls : s.calls = [])
    (ht : s.thrown = false) (hf : s.failed = false) (hb : ∀ g ∈ s.stack, g.Base)
    (hs : Splits s.leaf path) : (s.enter .user path).Before ∨ (s.enter .user path).Grouped := by
  cases path with
  | nil =>
    left
    obtain ⟨n, hn, -⟩ | ⟨blocks, hl⟩ := hs
    · simp at hn
    · exact ⟨hc, hp, hcalls, ht, hf, _, _, rfl, hb, .inr ⟨_, blocks, rfl, hl⟩⟩
  | cons n path =>
    by_cases hn : 0 < n
    · right
      simp only [enter, if_pos hn]
      exact grouped_create hc hp hcalls hf hb fun _ ↦ rfl
    · left
      simp only [enter, if_neg hn]
      refine ⟨hc, hp, hcalls, ht, hf, _, _, rfl, hb, .inl ⟨path, rfl, ?_⟩⟩
      obtain ⟨m, hm, hpos⟩ | hl := hs
      · rcases List.mem_cons.1 hm with rfl | hm
        · exact absurd hpos hn
        · exact .inl ⟨m, hm, hpos⟩
      · exact .inr hl

theorem Before.exec (h : s.Before) {e : Event ε} (he : s.exec e = some t) :
    t.Before ∨ t.Grouped := by
  obtain ⟨f, below, hs, hb, hf⟩ := h.stack
  cases e with
  | finish k err => simp [Request.exec, finish, h.pending] at he
  | dispatch o =>
    obtain ⟨path, rfl, hsplit⟩ | ⟨rest, blocks, rfl, hl⟩ := hf
    · simp only [Request.exec, dispatch, hs, h.thrown, Bool.false_eq_true, if_false] at he
      split_ifs at he
      cases he
      refine before_enter h.cells h.pending h.calls rfl h.failed ?_ hsplit
      intro g hg
      rcases List.mem_cons.1 hg with rfl | hg
      · exact ⟨path, rfl⟩
      · exact hb g hg
    · simp only [Request.exec, dispatch, hs, h.thrown, Bool.false_eq_true, if_false,
        readElement] at he
      cases o with
      | ok =>
        simp only [hl] at he
        cases he
        exact .inr (grouped_create h.cells h.pending h.calls h.failed hb fun _ ↦ rfl)
      | throws => simp [hl] at he
      | throwsPosted => simp at he

theorem grouped_runs (h : s.Before ∨ s.Grouped) (hr : s.runs es = some t) :
    t.Before ∨ t.Grouped := by
  induction es generalizing s with
  | nil =>
    cases hr
    exact h
  | cons e es ih =>
    obtain ⟨u, hu, hr⟩ := Option.bind_eq_some_iff.1 hr
    refine ih ?_ hr
    rcases h with h | h
    · exact h.exec hu
    · exact .inr (h.exec hu)

theorem grouped_start (hs : Splits leaf path) :
    (start leaf complete span path).Before ∨ (start leaf complete span path).Grouped :=
  before_enter rfl rfl rfl rfl rfl (by simp) hs

/-- How often the user's callback is executed for an element by the address that reads it. -/
def Leaf.perElement : Leaf → ℕ
  | .file _ => 1
  | _ => 0

/-- The callbacks that are executed or certain to be. -/
def promised (s : Request ε) : ℕ := s.calls.length + s.pending.length

/-- A read that makes no parallel completion at all. -/
structure Alone (s : Request ε) : Prop where
  cells : s.cells = []
  leaf : ∀ blocks, s.leaf ≠ .srp (blocks + 1)
  frames : ∀ f ∈ s.stack, f.aio = .user
  pending : ∀ a ∈ s.pending, a = .user
  phase : s.thrown = false →
    (∃ path below, s.stack = .mmio .user 1 path :: below ∧ (∀ n ∈ path, n = 0) ∧
      (∀ g ∈ below, g.Base) ∧ s.promised = 0) ∨
    (∃ rest below, s.stack = .addr .user rest 0 :: below ∧ (∀ g ∈ below, g.Base) ∧
      s.promised + rest * Leaf.perElement s.leaf = (s.span + 1) * Leaf.perElement s.leaf) ∨
    ((∀ g ∈ s.stack, g.Base) ∧
      s.promised = (s.span + 1) * Leaf.perElement s.leaf + s.leaf.isSync.toNat)
  mem : s.leaf = .mem → s.failed = false ∧ s.pending = [] ∧
    (s.calls = [] ∨ s.calls = [(s.complete, true)] ∧ s.thrown = false)
  srp : s.leaf = .srp 0 → s.pending = [] ∧ s.calls = []

theorem leave_user : s.leave .user below = { s with stack := below } := release_user

theorem Alone.enter (hc : s.cells = []) (hl : ∀ blocks, s.leaf ≠ .srp (blocks + 1))
    (hf : s.leaf = .mem → s.failed = false) (hp : s.pending = []) (hcalls : s.calls = []) (hb : ∀ g ∈ s.stack, g.Base)
    (hpath : ∀ n ∈ path, n = 0) : (s.enter .user path).Alone := by
  have hbase : ∀ g ∈ s.stack, g.aio = .user := by
    intro g hg
    obtain ⟨path, rfl⟩ := hb g hg
    rfl
  cases path with
  | nil =>
    refine ⟨hc, hl, ?_, ?_, fun _ ↦ .inr (.inl ⟨_, _, rfl, hb, ?_⟩), ?_, ?_⟩
    · intro f hf
      rcases List.mem_cons.1 hf with rfl | hf
      · rfl
      · exact hbase f hf
    · simp [Request.enter, hp]
    · simp [Request.enter, promised, hp, hcalls]
    · intro hm
      exact ⟨hf hm, hp, .inl hcalls⟩
    · intro _
      exact ⟨hp, hcalls⟩
  | cons n path =>
    obtain rfl : n = 0 := hpath n (by simp)
    have hpath' : ∀ n ∈ path, n = 0 := fun n hn ↦ hpath n (List.mem_cons_of_mem _ hn)
    refine ⟨hc, hl, ?_, ?_, fun _ ↦ .inl ⟨_, _, rfl, hpath', hb, ?_⟩, ?_, ?_⟩
    · intro f hf
      rcases List.mem_cons.1 hf with rfl | hf
      · rfl
      · exact hbase f hf
    · simp [Request.enter, hp]
    · simp [Request.enter, promised, hp, hcalls]
    · intro hm
      exact ⟨hf hm, hp, .inl hcalls⟩
    · intro _
      exact ⟨hp, hcalls⟩

theorem promised_zero (h : s.promised = 0) : s.calls = [] ∧ s.pending = [] := by
  unfold promised at h
  exact ⟨List.eq_nil_of_length_eq_zero (by omega), List.eq_nil_of_length_eq_zero (by omega)⟩

theorem Alone.finish (h : s.Alone) {k : ℕ} (hf : s.finish k err = some t) : t.Alone := by
  obtain ⟨aio, hk, hf⟩ := Option.bind_eq_some_iff.1 hf
  cases hf
  obtain rfl : aio = .user := h.pending aio (List.mem_of_getElem? hk)
  have hlt : k < s.pending.length := (List.getElem?_eq_some_iff.1 hk).1
  have hne : s.pending ≠ [] := by
    intro hn
    simp [hn] at hlt
  rw [release_user]
  have hprom : (callback { s with
      pending := s.pending.eraseIdx k
      failed := s.failed || err.isSome } err .user).promised = s.promised := by
    simp only [promised, callback, List.length_append, List.length_singleton,
      List.length_eraseIdx_of_lt hlt]
    omega
  refine ⟨h.cells, h.leaf, h.frames, ?_, ?_, ?_, ?_⟩
  · intro a ha
    exact h.pending a (List.mem_of_mem_eraseIdx ha)
  · intro ht
    obtain ⟨path, below, hs, hp, hb, hn⟩ | ⟨rest, below, hs, hb, hn⟩ | ⟨hb, hn⟩ := h.phase ht
    · exact .inl ⟨path, below, hs, hp, hb, hprom.trans hn⟩
    · rw [← hprom] at hn
      exact .inr (.inl ⟨rest, below, hs, hb, hn⟩)
    · exact .inr (.inr ⟨hb, hprom.trans hn⟩)
  · intro hm
    exact absurd (h.mem hm).2.1 hne
  · intro hm
    exact absurd (h.srp hm).1 hne

theorem Alone.readElement (h : s.Alone) {rest : ℕ} {o : Outcome}
    (hs : s.stack = .addr .user (rest + 1) 0 :: below) (hb : ∀ g ∈ below, g.Base)
    (hn : s.promised + (rest + 1) * Leaf.perElement s.leaf =
      (s.span + 1) * Leaf.perElement s.leaf)
    (hd : s.readElement .user rest below o = some t) : t.Alone := by
  have hframes : ∀ f ∈ Frame.addr .user rest 0 :: below, f.aio = .user := by
    intro f hf
    rcases List.mem_cons.1 hf with rfl | hf
    · rfl
    · exact h.frames f (hs ▸ List.mem_cons_of_mem _ hf)
  have hw : (rest + 1) * Leaf.perElement s.leaf =
      rest * Leaf.perElement s.leaf + Leaf.perElement s.leaf := Nat.succ_mul _ _
  cases o with
  | ok =>
    simp only [Request.readElement] at hd
    split at hd
    · rename_i hm
      cases hd
      refine ⟨h.cells, h.leaf, hframes, h.pending, fun _ ↦ .inr (.inl ⟨rest, below, rfl, hb, ?_⟩),
        h.mem, h.srp⟩
      simpa [promised, hm, Leaf.perElement] using hn
    · rename_i hm
      cases hd
      refine ⟨h.cells, h.leaf, hframes, ?_, fun _ ↦ .inr (.inl ⟨rest, below, rfl, hb, ?_⟩), ?_, ?_⟩
      · intro a ha
        rcases List.mem_append.1 ha with ha | ha
        · exact h.pending a ha
        · exact List.mem_singleton.1 ha
      · simp only [promised, List.length_append, List.length_singleton, hm, Leaf.perElement] at hn ⊢
        omega
      · intro hm'
        simp [hm] at hm'
      · intro hm'
        simp [hm] at hm'
    · rename_i hm
      cases hd
      refine ⟨h.cells, h.leaf, hframes, h.pending, fun _ ↦ .inr (.inl ⟨rest, below, rfl, hb, ?_⟩),
        ?_, ?_⟩
      · simp only [promised, callback, List.length_append, List.length_singleton, hm,
          Leaf.perElement] at hn ⊢
        omega
      · intro hm'
        simp [callback, hm] at hm'
      · intro hm'
        simp [callback, hm] at hm'
    · rename_i hm
      cases hd
      refine ⟨h.cells, h.leaf, hframes, h.pending, fun _ ↦ .inr (.inl ⟨rest, below, rfl, hb, ?_⟩),
        h.mem, h.srp⟩
      simpa [promised, hm, Leaf.perElement] using hn
    · rename_i hm
      exact absurd hm (h.leaf _)
  | throws =>
    simp only [Request.readElement] at hd
    split at hd
    · cases hd
    · cases hd
      refine ⟨h.cells, h.leaf, hframes, h.pending, by simp, ?_, h.srp⟩
      intro hm
      replace hm : s.leaf = .mem := hm
      refine ⟨(h.mem hm).1, (h.mem hm).2.1, .inl ?_⟩
      have hz : s.promised = 0 := by simpa [hm, Leaf.perElement] using hn
      exact (promised_zero hz).1
  | throwsPosted => cases hd

theorem Alone.dispatch (h : s.Alone) {o : Outcome} (hd : s.dispatch o = some t) : t.Alone := by
  unfold Request.dispatch at hd
  split at hd
  · cases hd
  rename_i f below hs
  have hpop {th : Bool} (hth : s.thrown = th) (hph : th = false →
      (∀ g ∈ below, g.Base) ∧
        s.promised = (s.span + 1) * Leaf.perElement s.leaf + s.leaf.isSync.toNat) :
      Alone { s with stack := below } := by
    refine ⟨h.cells, h.leaf, ?_, h.pending, ?_, h.mem, h.srp⟩
    · intro g hg
      exact h.frames g (hs ▸ List.mem_cons_of_mem f hg)
    · intro ht
      exact .inr (.inr (hph (hth.symm.trans ht)))
  have hf : f.aio = .user := h.frames f (hs ▸ List.mem_cons_self)
  cases ht : s.thrown with
  | true =>
    rw [if_pos ht, hf, leave_user] at hd
    split_ifs at hd
    cases hd
    exact hpop ht (by simp)
  | false =>
    rw [if_neg (by simp [ht])] at hd
    obtain ⟨path, below', hs', hp, hb, hn⟩ | ⟨rest, below', hs', hb, hn⟩ | ⟨hb, hn⟩ := h.phase ht
    · obtain ⟨rfl, rfl⟩ := List.cons.inj (hs.symm.trans hs')
      obtain ⟨hcalls, hpend⟩ := promised_zero hn
      dsimp only at hd
      split_ifs at hd
      cases hd
      refine Alone.enter h.cells h.leaf (fun hm ↦ (h.mem hm).1) hpend hcalls ?_ hp
      intro g hg
      rcases List.mem_cons.1 hg with rfl | hg
      · exact ⟨path, rfl⟩
      · exact hb g hg
    · obtain ⟨rfl, rfl⟩ := List.cons.inj (hs.symm.trans hs')
      cases rest with
      | succ rest => exact h.readElement hs hb hn hd
      | zero =>
        dsimp only at hd
        split_ifs at hd with hok hsync
        · cases hd
          have hq : s.leaf = .mem → s.pending = [] ∧ s.calls = [] := by
            intro hm
            have hz : s.promised = 0 := by simpa [hm, Leaf.perElement] using hn
            exact (promised_zero hz).symm
          have hframes : ∀ g ∈ below, g.aio = .user := fun g hg ↦
            h.frames g (hs ▸ List.mem_cons_of_mem _ hg)
          rw [leave_user]
          refine ⟨h.cells, h.leaf, hframes, h.pending, fun _ ↦ .inr (.inr ⟨hb, ?_⟩), ?_, ?_⟩
          · simp only [promised, callback, List.length_append, List.length_singleton, hsync,
              Bool.toNat_true] at hn ⊢
            omega
          · intro hm
            have hquiet : s.quiet = true := by
              have hfin : below.all Frame.finished = true := by
                apply List.all_eq_true.2
                intro g hg
                obtain ⟨path, rfl⟩ := hb g hg
                rfl
              simp [quiet, (hq hm).1, hs, Frame.finished, hfin]
            refine ⟨(h.mem hm).1, (hq hm).1, .inr ⟨?_, ht⟩⟩
            simp [callback, (hq hm).2, hquiet, CAsyncIOCompletion.callback]
          · intro hm
            change s.leaf = .srp 0 at hm
            simp [hm, Leaf.isSync] at hsync
        · cases hd
          rw [leave_user]
          refine hpop ht fun _ ↦ ⟨hb, ?_⟩
          simpa [hsync] using hn
    · obtain ⟨path, rfl⟩ := hb f (hs ▸ List.mem_cons_self)
      dsimp only at hd
      split_ifs at hd
      cases hd
      rw [leave_user]
      exact hpop ht fun _ ↦ ⟨fun g hg ↦ hb g (hs ▸ List.mem_cons_of_mem _ hg), hn⟩

theorem Alone.exec (h : s.Alone) {e : Event ε} (he : s.exec e = some t) : t.Alone := by
  cases e with
  | dispatch o => exact h.dispatch he
  | finish k err => exact h.finish he

theorem alone_runs (h : s.Alone) (hr : s.runs es = some t) : t.Alone := by
  induction es generalizing s with
  | nil =>
    cases hr
    exact h
  | cons e es ih =>
    obtain ⟨u, hu, hr⟩ := Option.bind_eq_some_iff.1 hr
    exact ih (h.exec hu) hr

theorem alone_start (hs : ¬Splits leaf path) : (start leaf complete span path).Alone := by
  refine Alone.enter rfl (fun blocks hl ↦ hs (.inr ⟨blocks, hl⟩)) (fun _ ↦ rfl) rfl rfl (by simp) ?_
  intro n hn
  by_contra hpos
  exact hs (.inl ⟨n, hn, Nat.pos_of_ne_zero hpos⟩)

/-- The user's callback was executed once, when all sub-reads had finished, and it was told of
success if and only if each of them was issued and succeeded. -/
def CalledBackOnce (s : Request ε) (es : List (Event ε)) : Prop :=
  ∃ status, s.calls = [(status, true)] ∧
    (status = none ↔ es.any Event.throws = false ∧ es.any Event.fails = false)

/-- When the error that the callback gets is the one it should get. -/
def Reports (leaf : Leaf) (complete : Option ε) (path : List ℕ) (es : List (Event ε)) : Prop :=
  (Splits leaf path ∧
    (es.any Event.fails = true ∨ (es.any Event.throws = true ↔ complete.isSome = true))) ∨
  (¬Splits leaf path ∧ leaf = .mem ∧ es.any Event.throws = false ∧ complete = none)

theorem Guarded.calledBackOnce_iff (h : s.Grouped) (hd : s.isDone)
    (hfl : s.failed = es.any Event.fails) :
    s.CalledBackOnce es ↔
      es.any Event.fails = true ∨ (es.any Event.throws = true ↔ s.complete.isSome = true) := by
  obtain ⟨err, hcalls, herr⟩ := h.called (h.not_live_of_done hd)
  unfold CalledBackOnce
  rw [hcalls]
  simp only [List.cons.injEq, Prod.mk.injEq, and_true]
  rw [hfl] at herr
  cases err with
  | some err =>
    simp [CAsyncIOCompletion.callback, ← herr]
  | none =>
    cases hc : s.complete <;> cases ht : es.any Event.throws <;>
      simp [CAsyncIOCompletion.callback, ← herr]

theorem Alone.not_calledBackOnce (h : s.Alone) (hd : s.isDone) (hleaf : s.leaf ≠ .mem)
    (hth : s.thrown = false) : ¬s.CalledBackOnce es := by
  rintro ⟨status, hcalls, -⟩
  obtain ⟨path, below, hs, -⟩ | ⟨rest, below, hs, -⟩ | ⟨-, hn⟩ := h.phase hth
  · simp [hd.1] at hs
  · simp [hd.1] at hs
  · cases hl : s.leaf with
    | mem => exact hleaf hl
    | file thread =>
      simp [promised, hd.2, hcalls, hl, Leaf.perElement, Leaf.isSync] at hn
    | srp blocks =>
      cases blocks with
      | zero => simp [(h.srp hl).2] at hcalls
      | succ blocks => exact h.leaf blocks hl

theorem Alone.mem_iff (h : s.Alone) (hd : s.isDone) (hleaf : s.leaf = .mem)
    (hth : s.thrown = es.any Event.throws) (hfl : s.failed = es.any Event.fails) :
    s.CalledBackOnce es ↔ es.any Event.throws = false ∧ s.complete = none := by
  unfold CalledBackOnce
  obtain ⟨hf, -, hcalls | ⟨hcalls, ht⟩⟩ := h.mem hleaf
  · have hth' : es.any Event.throws = true := by
      by_contra hn
      rw [Bool.not_eq_true, ← hth] at hn
      obtain ⟨path, below, hs, -⟩ | ⟨rest, below, hs, -⟩ | ⟨-, hn⟩ := h.phase hn
      · simp [hd.1] at hs
      · simp [hd.1] at hs
      · simp [promised, hcalls, hd.2, hleaf, Leaf.perElement, Leaf.isSync] at hn
    simp [hcalls, hth']
  · rw [hcalls, ← hth, ht, ← hfl, hf]
    simp

/-- Two blocks are read at a time, and the last one is reported to have failed. -/
def failingRun : List (Event ℕ) :=
  [.dispatch .ok, .dispatch .ok, .dispatch .ok, .dispatch .ok, .finish 0 none, .finish 0 (some 5)]

/-- A scalar is read from a file: the callback is executed at once, with nothing read yet, and
again when the thread has read it. -/
def fileRun : List (Event ℕ) := [.dispatch .ok, .dispatch .ok, .finish 0 none]

/-- Two elements are read from a file that ends after the first one. -/
def shortFileRun : List (Event ℕ) :=
  [.dispatch .ok, .dispatch .ok, .dispatch .ok, .dispatch .ok, .dispatch .throws, .dispatch .ok,
    .dispatch .ok]

end Cpsw.Async.Request
