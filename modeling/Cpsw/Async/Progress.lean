import Cpsw.Async.Dispatch
import Mathlib

namespace Cpsw.Async.Request

variable {ε : Type} {s t : Request ε} {a : AsyncIO} {err : Option ε} {below : List Frame}

/-- A sub-read throws while it is dispatched. -/
def Event.throws : Event ε → Bool
  | .dispatch o => o ≠ .ok
  | .finish _ _ => false

/-- A sub-read finishes with an error. -/
def Event.fails : Event ε → Bool
  | .dispatch _ => false
  | .finish _ err => err.isSome

/-- What a callback or the end of a reference leaves as it is. -/
structure SameThread (s t : Request ε) : Prop where
  leaf : t.leaf = s.leaf
  complete : t.complete = s.complete
  span : t.span = s.span
  stack : t.stack = s.stack
  pending : t.pending = s.pending
  thrown : t.thrown = s.thrown
  failed : t.failed = s.failed

theorem SameThread.refl (s : Request ε) : s.SameThread s := ⟨rfl, rfl, rfl, rfl, rfl, rfl, rfl⟩

theorem SameThread.trans {u : Request ε} (h : s.SameThread t) (h' : t.SameThread u) :
    s.SameThread u :=
  ⟨h'.leaf.trans h.leaf, h'.complete.trans h.complete, h'.span.trans h.span,
    h'.stack.trans h.stack, h'.pending.trans h.pending, h'.thrown.trans h.thrown,
    h'.failed.trans h.failed⟩

theorem sameThread_callback {e : Option ε} : s.SameThread (s.callback e a) := by
  cases a <;> exact ⟨rfl, rfl, rfl, rfl, rfl, rfl, rfl⟩

theorem sameThread_drop (fuel : ℕ) : s.SameThread (s.drop fuel a) := by
  induction fuel generalizing s a with
  | zero => cases a <;> exact .refl s
  | succ fuel ih =>
    cases a with
    | user => exact .refl s
    | par id =>
      unfold drop
      split_ifs
      · exact .refl s
      · split
        · exact .refl s
        · rename_i c hc
          have h₁ : s.SameThread (s.callback c.error c.parent) := sameThread_callback
          have h₂ : s.SameThread { s.callback c.error c.parent with
              cells := (s.callback c.error c.parent).cells.modify id ({ · with live := false }) } :=
            ⟨h₁.leaf, h₁.complete, h₁.span, h₁.stack, h₁.pending, h₁.thrown, h₁.failed⟩
          exact h₂.trans ih

theorem sameThread_release : s.SameThread (s.release a) := sameThread_drop _

/-- `t` differs from `s` by a throw, if `th`, and by an error, if `fl`, and not in the constants. -/
structure Flags (s t : Request ε) (th fl : Bool) : Prop where
  leaf : t.leaf = s.leaf
  complete : t.complete = s.complete
  span : t.span = s.span
  thrown : t.thrown = (s.thrown || th)
  failed : t.failed = (s.failed || fl)

theorem SameThread.flags (h : s.SameThread t) : s.Flags t false false :=
  ⟨h.leaf, h.complete, h.span, by simp [h.thrown], by simp [h.failed]⟩

theorem flags_leave : s.Flags (s.leave a below) false false := by
  have h : SameThread { s with stack := below } (s.leave a below) := sameThread_release
  exact ⟨h.leaf, h.complete, h.span, h.flags.thrown, h.flags.failed⟩

theorem flags_return : s.Flags ((s.callback err a).leave a below) false false := by
  have hc : s.SameThread (s.callback err a) := sameThread_callback
  have hl : (s.callback err a).Flags ((s.callback err a).leave a below) false false := flags_leave
  exact ⟨hl.leaf.trans hc.leaf, hl.complete.trans hc.complete, hl.span.trans hc.span,
    by rw [hl.thrown, hc.thrown], by rw [hl.failed, hc.failed]⟩

theorem flags_enter (st : List Frame) (path : List ℕ) :
    s.Flags (enter { s with stack := st } a path) false false := by
  cases path with
  | nil => exact ⟨rfl, rfl, rfl, by simp [enter], by simp [enter]⟩
  | cons n path =>
    by_cases hn : 0 < n <;> constructor <;> simp [enter, hn, create]

theorem flags_readElement {rest : ℕ} {o : Outcome} (h : s.readElement a rest below o = some t) :
    s.Flags t (o ≠ .ok) false := by
  cases o with
  | ok =>
    simp only [readElement] at h
    split at h <;> cases h
    · constructor <;> simp
    · constructor <;> simp
    · have hc : SameThread { s with stack := .addr a rest 0 :: below } _ :=
        sameThread_callback (e := none) (a := a)
      exact ⟨hc.leaf, hc.complete, hc.span, by simp [hc.thrown], by simp [hc.failed]⟩
    · constructor <;> simp
    · constructor <;> simp [create]
  | throws =>
    simp only [readElement] at h
    split at h <;> cases h
    constructor <;> simp
  | throwsPosted => cases h

theorem flags_readBlk {rest blocks : ℕ} (o : Outcome) :
    s.Flags (s.readBlk_unlocked a rest blocks below o) (o ≠ .ok) false := by
  cases o <;> constructor <;> simp [readBlk_unlocked]

theorem flags_dispatch {o : Outcome} (h : s.dispatch o = some t) : s.Flags t (o ≠ .ok) false := by
  unfold dispatch at h
  split at h
  · cases h
  rename_i f below hs
  split at h
  · split_ifs at h with hok
    cases h
    simpa [hok] using flags_leave
  split at h
  · exact flags_readElement h
  · cases h
    exact flags_readBlk o
  · split_ifs at h with hok hsync
    · cases h
      simpa [hok] using flags_return
    · cases h
      simpa [hok] using flags_leave
  · split_ifs at h with hok
    cases h
    simpa [hok] using flags_enter _ _
  · split_ifs at h with hok
    cases h
    simpa [hok] using flags_leave

theorem flags_finish {k : ℕ} (h : s.finish k err = some t) : s.Flags t false err.isSome := by
  obtain ⟨aio, -, h⟩ := Option.bind_eq_some_iff.1 h
  cases h
  have hc := (sameThread_callback (s := { s with
    pending := s.pending.eraseIdx k
    failed := s.failed || err.isSome }) (a := aio)
    (e := err)).trans (sameThread_release (a := aio))
  exact ⟨hc.leaf, hc.complete, hc.span, hc.flags.thrown, by simpa using hc.failed⟩

theorem flags_exec {e : Event ε} (h : s.exec e = some t) : s.Flags t e.throws e.fails := by
  cases e with
  | dispatch o => exact flags_dispatch h
  | finish k err => exact flags_finish h

theorem flags_runs {es : List (Event ε)} (h : s.runs es = some t) :
    s.Flags t (es.any Event.throws) (es.any Event.fails) := by
  induction es generalizing s with
  | nil =>
    cases h
    constructor <;> simp
  | cons e es ih =>
    obtain ⟨u, hu, h⟩ := Option.bind_eq_some_iff.1 h
    have he := flags_exec hu
    have ht := ih h
    refine ⟨ht.leaf.trans he.leaf, ht.complete.trans he.complete, ht.span.trans he.span, ?_, ?_⟩
    · rw [ht.thrown, he.thrown, List.any_cons, Bool.or_assoc]
    · rw [ht.failed, he.failed, List.any_cons, Bool.or_assoc]

def Leaf.blocks : Leaf → ℕ
  | .srp blocks => blocks
  | _ => 0

/-- A bound on the steps that reading through `path` takes. -/
def pathWeight (leaf : Leaf) (span : ℕ) : List ℕ → ℕ
  | [] => 1 + (span + 1) * (2 + 2 * Leaf.blocks leaf)
  | n :: path => 1 + (n + 1) * (1 + pathWeight leaf span path)

def frameWeight (leaf : Leaf) (span : ℕ) : Frame → ℕ
  | .mmio _ rest path => 1 + rest * (1 + pathWeight leaf span path)
  | .addr _ rest blocks => 1 + rest * (2 + 2 * Leaf.blocks leaf) + 2 * blocks

/-- A bound on the steps that are left. -/
def weight (s : Request ε) : ℕ :=
  (s.stack.map (frameWeight s.leaf s.span)).sum + s.pending.length

theorem weight_leave : (s.leave a below).weight =
    (below.map (frameWeight s.leaf s.span)).sum + s.pending.length := by
  have h : SameThread { s with stack := below } (s.leave a below) := sameThread_release
  unfold weight
  rw [h.leaf, h.span, h.stack, h.pending]

theorem weight_enter (path : List ℕ) :
    (s.enter a path).weight = pathWeight s.leaf s.span path + s.weight := by
  cases path with
  | nil =>
    simp [enter, weight, pathWeight, frameWeight]
    omega
  | cons n path =>
    by_cases hn : 0 < n
    · simp [enter, hn, create, weight, pathWeight, frameWeight]
      omega
    · obtain rfl : n = 0 := by omega
      simp [enter, weight, pathWeight, frameWeight]
      omega

theorem weight_readElement {rest : ℕ} {o : Outcome} (h : s.readElement a rest below o = some t) :
    t.weight < frameWeight s.leaf s.span (.addr a (rest + 1) 0) +
      (below.map (frameWeight s.leaf s.span)).sum + s.pending.length := by
  have hw : (rest + 1) * (2 + 2 * Leaf.blocks s.leaf) =
      rest * (2 + 2 * Leaf.blocks s.leaf) + (2 + 2 * Leaf.blocks s.leaf) := Nat.succ_mul _ _
  cases o with
  | ok =>
    simp only [readElement] at h
    split at h <;> cases h
    · simp only [weight, frameWeight, List.map_cons, List.sum_cons, hw]
      omega
    · simp only [weight, frameWeight, List.map_cons, List.sum_cons, hw, List.length_append,
        List.length_singleton]
      omega
    · have hc : SameThread { s with stack := .addr a rest 0 :: below } _ :=
        sameThread_callback (e := none) (a := a)
      unfold weight
      rw [hc.leaf, hc.span, hc.stack, hc.pending]
      simp only [frameWeight, List.map_cons, List.sum_cons, hw]
      omega
    · simp only [weight, frameWeight, List.map_cons, List.sum_cons, hw]
      omega
    · rename_i blocks hb
      simp only [weight, create, List.map_cons, List.sum_cons, frameWeight, hb, Leaf.blocks,
        Nat.succ_eq_add_one, Nat.add_mul, Nat.one_mul]
      omega
  | throws =>
    simp only [readElement] at h
    split at h <;> cases h
    simp only [weight, frameWeight, List.map_cons, List.sum_cons, hw]
    omega
  | throwsPosted => cases h

theorem weight_dispatch {o : Outcome} (h : s.dispatch o = some t) : t.weight < s.weight := by
  unfold dispatch at h
  split at h
  · cases h
  rename_i f below hs
  have hpos : 0 < frameWeight s.leaf s.span f := by
    cases f <;> simp [frameWeight]
  have hws : s.weight = frameWeight s.leaf s.span f +
      (below.map (frameWeight s.leaf s.span)).sum + s.pending.length := by
    rw [weight, hs, List.map_cons, List.sum_cons]
  have hleave (aio : AsyncIO) : (s.leave aio below).weight < s.weight := by
    rw [weight_leave]
    omega
  split at h
  · split_ifs at h with hok
    cases h
    exact hleave _
  split at h
  · exact hws ▸ weight_readElement h
  · cases h
    rw [hws]
    cases o <;> simp [readBlk_unlocked, weight, frameWeight] <;> omega
  · split_ifs at h with hok hsync
    · cases h
      rename_i f aio
      have hc : s.SameThread (s.callback none aio) := sameThread_callback
      rw [weight_leave, hc.leaf, hc.span, hc.pending]
      omega
    · cases h
      exact hleave _
  · split_ifs at h with hok
    cases h
    rename_i aio rest path
    rw [weight_enter, hws]
    simp only [weight, frameWeight, List.map_cons, List.sum_cons, Nat.succ_mul]
    omega
  · split_ifs at h with hok
    cases h
    exact hleave _

theorem weight_exec {e : Event ε} (h : s.exec e = some t) : t.weight < s.weight := by
  cases e with
  | dispatch o => exact weight_dispatch h
  | finish k err =>
    obtain ⟨aio, hk, h⟩ := Option.bind_eq_some_iff.1 h
    cases h
    have hlt : k < s.pending.length := (List.getElem?_eq_some_iff.1 hk).1
    have hc := (sameThread_callback (s := { s with
      pending := s.pending.eraseIdx k
      failed := s.failed || err.isSome }) (a := aio)
      (e := err)).trans (sameThread_release (a := aio))
    unfold weight
    rw [hc.leaf, hc.span, hc.stack, hc.pending]
    simp only [List.length_eraseIdx_of_lt hlt]
    omega

/-- The reading thread, or the one with the first pending sub-read, can go on. -/
theorem exec_of_not_done (h : ¬s.isDone) : ∃ e t, s.exec e = some t := by
  cases hs : s.stack with
  | nil =>
    cases hp : s.pending with
    | nil => exact absurd ⟨hs, hp⟩ h
    | cons aio pd => exact ⟨.finish 0 none, _, by simp [exec, finish, hp]; rfl⟩
  | cons f below =>
    refine ⟨.dispatch .ok, ?_⟩
    cases ht : s.thrown with
    | true => exact ⟨s.leave f.aio below, by simp only [exec, dispatch, hs, ht, if_true]⟩
    | false =>
      simp only [exec, dispatch, hs, ht, if_true, Bool.false_eq_true, if_false]
      split
      · simp only [readElement]
        split <;> exact ⟨_, rfl⟩
      · exact ⟨_, rfl⟩
      · exact ⟨_, rfl⟩
      · exact ⟨_, rfl⟩
      · exact ⟨_, rfl⟩

/-- Every read comes to an end. -/
theorem runs_to_done : ∃ es t, s.runs es = some t ∧ t.isDone := by
  generalize hw : s.weight = w
  induction w using Nat.strongRecOn generalizing s with
  | ind w ih =>
    by_cases hd : s.isDone
    · exact ⟨[], s, rfl, hd⟩
    · obtain ⟨e, u, hu⟩ := exec_of_not_done hd
      obtain ⟨es, t, ht, hdone⟩ := ih u.weight (hw ▸ weight_exec hu) rfl
      exact ⟨e :: es, t, by simp [runs, hu, ht], hdone⟩

theorem runs_length {es : List (Event ε)} (h : s.runs es = some t) :
    es.length + t.weight ≤ s.weight := by
  induction es generalizing s with
  | nil =>
    cases h
    simp
  | cons e es ih =>
    obtain ⟨u, hu, h⟩ := Option.bind_eq_some_iff.1 h
    have hlt := weight_exec hu
    have hle := ih h
    simp only [List.length_cons]
    omega

end Cpsw.Async.Request
