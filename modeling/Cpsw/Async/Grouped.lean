import Cpsw.Async.Request

namespace Cpsw.Async

variable {ε : Type}

theorem ParallelCompletion.callback_none (c : ParallelCompletion ε) : c.callback none = c := by
  simp [callback]

@[simp] theorem ParallelCompletion.callback_live (c : ParallelCompletion ε) (err : Option ε) :
    (c.callback err).live = c.live := by
  unfold callback
  split_ifs <;> rfl

@[simp] theorem ParallelCompletion.callback_parent (c : ParallelCompletion ε) (err : Option ε) :
    (c.callback err).parent = c.parent := by
  unfold callback
  split_ifs <;> rfl

theorem ParallelCompletion.callback_error (c : ParallelCompletion ε) (err : Option ε) :
    (c.callback err).error.isSome = (c.error.isSome || err.isSome) := by
  unfold callback
  cases hc : c.error <;> cases err <;> simp [hc]

/-- A container that reads one element, on its way out. -/
def Frame.Base (f : Frame) : Prop := ∃ path, f = .mmio .user 0 path

namespace Request

variable {s t : Request ε} {id j : ℕ} {a : AsyncIO} {err : Option ε}

/-- A completion that has not been destroyed. -/
def Live (s : Request ε) (a : AsyncIO) : Prop :=
  ∃ id c, a = .par id ∧ s.cells[id]? = some c ∧ c.live = true

theorem live_par : s.Live (.par id) ↔ ∃ c, s.cells[id]? = some c ∧ c.live = true := by
  constructor
  · rintro ⟨j, c, hj, hc⟩
    cases hj
    exact ⟨c, hc⟩
  · rintro ⟨c, hc⟩
    exact ⟨id, c, rfl, hc⟩

theorem not_live_user : ¬s.Live .user := by
  rintro ⟨j, c, hj, -⟩
  cases hj

theorem mem_holders : a ∈ s.holders ↔ (∃ f ∈ s.stack, f.aio = a) ∨ a ∈ s.pending ∨
    ∃ (id : ℕ) (c : ParallelCompletion ε),
      s.cells[id]? = some c ∧ c.live = true ∧ c.parent = a := by
  simp only [holders, List.mem_append, List.mem_map, List.mem_filter, or_assoc]
  constructor
  · rintro (h | h | ⟨c, ⟨hm, hl⟩, hp⟩)
    · exact .inl h
    · exact .inr (.inl h)
    · obtain ⟨id, hc⟩ := List.getElem?_of_mem hm
      exact .inr (.inr ⟨id, c, hc, hl, hp⟩)
  · rintro (h | h | ⟨id, c, hc, hl, hp⟩)
    · exact .inl h
    · exact .inr (.inl h)
    · exact .inr (.inr ⟨c, ⟨List.mem_of_getElem? hc, hl⟩, hp⟩)

/-- Some live completion has recorded an error. -/
def Erroneous (s : Request ε) : Prop :=
  ∃ (id : ℕ) (c : ParallelCompletion ε),
    s.cells[id]? = some c ∧ c.live = true ∧ c.error.isSome = true

/-- What holds of a read whose user callback is left to a parallel completion, but for the
completion `except`, which may have lost its last reference. -/
structure Guarded (s : Request ε) (except : ℕ → Prop) : Prop where
  stack : ∃ above below, s.stack = above ++ below ∧ (∀ f ∈ above, s.Live f.aio) ∧
    ∀ f ∈ below, f.Base
  pending : ∀ a ∈ s.pending, s.Live a
  root : ∃ c, s.cells[0]? = some c ∧ c.parent = .user
  parent : ∀ id c, s.cells[id]? = some c → id ≠ 0 →
    ∃ p < id, c.parent = .par p ∧ (c.live = true → s.Live (.par p))
  held : ∀ id, ¬except id → s.Live (.par id) → .par id ∈ s.holders
  calls : s.Live (.par 0) → s.calls = []
  called : ¬s.Live (.par 0) → ∃ err, s.calls = [(CAsyncIOCompletion.callback s.complete err, true)] ∧
    err.isSome = s.failed
  failed : s.Live (.par 0) → (s.failed = true ↔ s.Erroneous)

abbrev Grouped (s : Request ε) : Prop := s.Guarded fun _ ↦ False

variable {except : ℕ → Prop}

/-- Nothing is live without the outermost completion. -/
theorem Guarded.root_live (h : s.Guarded except) (hl : s.Live (.par id)) : s.Live (.par 0) := by
  induction id using Nat.strongRecOn with
  | ind id ih =>
    by_cases hid : id = 0
    · exact hid ▸ hl
    · obtain ⟨c, hc, hlive⟩ := live_par.1 hl
      obtain ⟨p, hp, -, hpl⟩ := h.parent id c hc hid
      exact ih p hp (hpl hlive)

/-- A live completion other than the outermost one keeps the outermost one alive. -/
theorem Guarded.holds_root (h : s.Guarded except) (hl : s.Live (.par id)) (hid : id ≠ 0) :
    .par 0 ∈ s.holders := by
  induction id using Nat.strongRecOn with
  | ind id ih =>
    obtain ⟨c, hc, hlive⟩ := live_par.1 hl
    obtain ⟨p, hp, hcp, hpl⟩ := h.parent id c hc hid
    by_cases hp0 : p = 0
    · exact mem_holders.2 (.inr (.inr ⟨id, c, hc, hlive, hp0 ▸ hcp⟩))
    · exact ih p hp (hpl hlive) hp0

/-- In a finished read no completion is left. -/
theorem Guarded.not_live_of_done (h : s.Grouped) (hd : s.isDone) : ¬s.Live (.par id) := by
  intro hl
  have hlt : id < s.cells.length := by
    obtain ⟨c, hc, -⟩ := live_par.1 hl
    exact (List.getElem?_eq_some_iff.1 hc).1
  generalize hn : s.cells.length - id = n
  induction n using Nat.strongRecOn generalizing id with
  | ind n ih =>
    rcases mem_holders.1 (h.held id not_false hl) with ⟨f, hf, -⟩ | hp | ⟨k, c, hc, hlive, hpar⟩
    · simp [hd.1] at hf
    · simp [hd.2] at hp
    · have hk : k ≠ 0 := by
        rintro rfl
        obtain ⟨c', hc', hu⟩ := h.root
        rw [hc] at hc'
        cases hc'
        simp [hu] at hpar
      obtain ⟨p, hp, hcp, -⟩ := h.parent k c hc hk
      have hpid : p = id := by
        rw [hpar] at hcp
        cases hcp
        rfl
      have hklt : k < s.cells.length := (List.getElem?_eq_some_iff.1 hc).1
      exact ih (s.cells.length - k) (by omega) (live_par.2 ⟨c, hc, hlive⟩) hklt rfl

/-- With the outermost completion out of reach every sub-read has finished. -/
theorem Guarded.quiet_of_root (h : s.Guarded except) (hn : .par 0 ∉ s.holders) :
    s.quiet = true ∧ ∀ id, s.Live (.par id) → id = 0 := by
  have hroot {id : ℕ} (hl : s.Live (.par id)) : id = 0 := by
    by_contra hid
    exact hn (h.holds_root hl hid)
  have hlive {a : AsyncIO} (ha : s.Live a) : a = .par 0 := by
    obtain ⟨id, c, rfl, hc⟩ := ha
    rw [hroot (live_par.2 ⟨c, hc⟩)]
  have hpend : s.pending = [] := by
    apply List.eq_nil_iff_forall_not_mem.2
    intro a ha
    exact hn (mem_holders.2 (.inr (.inl (hlive (h.pending a ha) ▸ ha))))
  obtain ⟨above, below, hs, ha, hb⟩ := h.stack
  have habove : above = [] := by
    apply List.eq_nil_iff_forall_not_mem.2
    intro f hf
    exact hn (mem_holders.2 (.inl ⟨f, by simp [hs, hf], hlive (ha f hf)⟩))
  refine ⟨?_, fun id ↦ hroot⟩
  have hfin : s.stack.all Frame.finished = true := by
    rw [hs, habove]
    apply List.all_eq_true.2
    intro f hf
    obtain ⟨path, rfl⟩ := hb f hf
    rfl
  simp [quiet, hpend, hfin]

/-- The cells after completion `id`, whose parent is `p`, has been destroyed. -/
def destroyed (cells : List (ParallelCompletion ε)) (id p : ℕ) (err : Option ε) :
    List (ParallelCompletion ε) :=
  (cells.modify p (·.callback err)).modify id ({ · with live := false })

theorem destroyed_get (cells : List (ParallelCompletion ε)) (id p : ℕ) (err : Option ε) (j : ℕ) :
    (destroyed cells id p err)[j]? = (cells[j]?).map fun c ↦
      let c := if p = j then c.callback err else c
      if id = j then { c with live := false } else c := by
  unfold destroyed
  rw [List.getElem?_modify, List.getElem?_modify]
  cases cells[j]? <;> rfl

theorem live_destroyed {id p : ℕ} :
    Live { s with cells := destroyed s.cells id p err } (.par j) ↔ j ≠ id ∧ s.Live (.par j) := by
  rw [live_par, live_par]
  simp only [destroyed_get]
  constructor
  · rintro ⟨c, hc, hl⟩
    obtain ⟨c', hc', rfl⟩ := Option.map_eq_some_iff.1 hc
    by_cases hj : id = j
    · simp [hj] at hl
    · refine ⟨Ne.symm hj, c', hc', ?_⟩
      by_cases hp : p = j <;> simpa [hj, hp] using hl
  · rintro ⟨hj, c, hc, hl⟩
    refine ⟨_, by rw [hc]; rfl, ?_⟩
    by_cases hp : p = j <;> simp [hj.symm, hp, hl]

/-- An error of the destroyed completion goes to its parent. -/
theorem erroneous_destroyed {id p : ℕ} {c : ParallelCompletion ε} (hc : s.cells[id]? = some c)
    (hl : c.live = true) (hp : p ≠ id) (hpl : s.Live (.par p)) :
    Erroneous { s with cells := destroyed s.cells id p c.error } ↔ s.Erroneous := by
  unfold Erroneous
  simp only [destroyed_get]
  constructor
  · rintro ⟨j, d, hd, hdl, hde⟩
    obtain ⟨d', hd', rfl⟩ := Option.map_eq_some_iff.1 hd
    by_cases hj : id = j
    · simp [hj] at hdl
    · by_cases hpj : p = j
      · simp only [if_neg hj, if_pos hpj, ParallelCompletion.callback_live,
          ParallelCompletion.callback_error, Bool.or_eq_true] at hdl hde
        rcases hde with hde | hde
        · exact ⟨j, d', hd', hdl, hde⟩
        · exact ⟨id, c, hc, hl, hde⟩
      · simp only [if_neg hj, if_neg hpj] at hdl hde
        exact ⟨j, d', hd', hdl, hde⟩
  · rintro ⟨j, d, hd, hdl, hde⟩
    by_cases hj : j = id
    · obtain ⟨e, he, hel⟩ := live_par.1 hpl
      rw [hj, hc] at hd
      cases hd
      refine ⟨p, _, by rw [he]; rfl, ?_, ?_⟩
      · simp [hp.symm, hel]
      · simp [hp.symm, ParallelCompletion.callback_error, hde]
    · refine ⟨j, _, by rw [hd]; rfl, ?_, ?_⟩
      · by_cases hpj : p = j <;> simp [Ne.symm hj, hpj, hdl]
      · by_cases hpj : p = j <;> simp [Ne.symm hj, hpj, ParallelCompletion.callback_error, hde]

/-- Its destructor runs, and its parent may have lost its last reference. -/
theorem Guarded.destroy {p : ℕ} {c : ParallelCompletion ε} (h : s.Guarded (· = id))
    (hn : .par id ∉ s.holders) (hc : s.cells[id]? = some c) (hl : c.live = true) (hp : p < id)
    (hcp : c.parent = .par p) (hpl : s.Live (.par p)) :
    Guarded { s with cells := destroyed s.cells id p c.error } (· = p) := by
  have hlid : s.Live (.par id) := live_par.2 ⟨c, hc, hl⟩
  have h0 : s.Live (.par 0) := h.root_live hlid
  have hlive {a : AsyncIO} (ha : s.Live a) (hne : a ≠ .par id) :
      Live { s with cells := destroyed s.cells id p c.error } a := by
    obtain ⟨j, d, rfl, hd⟩ := ha
    refine live_destroyed.2 ⟨?_, live_par.2 ⟨d, hd⟩⟩
    rintro rfl
    exact hne rfl
  have hnot {a : AsyncIO} (ha : a ∈ s.holders) : a ≠ .par id := by
    rintro rfl
    exact hn ha
  have hroot : Live { s with cells := destroyed s.cells id p c.error } (.par 0) :=
    live_destroyed.2 ⟨by omega, h0⟩
  refine ⟨?_, ?_, ?_, ?_, ?_, ?_, ?_, ?_⟩
  · obtain ⟨above, below, hs, ha, hb⟩ := h.stack
    refine ⟨above, below, hs, ?_, hb⟩
    intro f hf
    exact hlive (ha f hf) (hnot (mem_holders.2 (.inl ⟨f, by simp [hs, hf], rfl⟩)))
  · intro a ha
    exact hlive (h.pending a ha) (hnot (mem_holders.2 (.inr (.inl ha))))
  · obtain ⟨r, hr, hu⟩ := h.root
    refine ⟨_, by rw [destroyed_get, hr]; rfl, ?_⟩
    split_ifs <;> simp [hu]
  · intro j d hd hj
    simp only [destroyed_get] at hd
    obtain ⟨d', hd', rfl⟩ := Option.map_eq_some_iff.1 hd
    obtain ⟨q, hq, hdq, hql⟩ := h.parent j d' hd' hj
    refine ⟨q, hq, ?_, ?_⟩
    · split_ifs <;> simp [hdq]
    · intro hdl
      by_cases hij : id = j
      · simp [hij] at hdl
      · have hdl' : d'.live = true := by
          by_cases hpj : p = j <;> simpa [hij, hpj] using hdl
        refine hlive (hql hdl') (hnot ?_)
        exact mem_holders.2 (.inr (.inr ⟨j, d', hd', hdl', hdq⟩))
  · intro j hj hjl
    obtain ⟨hji, hjl⟩ := live_destroyed.1 hjl
    rcases mem_holders.1 (h.held j hji hjl) with hf | hf | ⟨k, d, hd, hdl, hdp⟩
    · exact mem_holders.2 (.inl hf)
    · exact mem_holders.2 (.inr (.inl hf))
    · have hk : id ≠ k := by
        rintro rfl
        rw [hc] at hd
        cases hd
        rw [hcp] at hdp
        cases hdp
        exact hj rfl
      refine mem_holders.2 (.inr (.inr ⟨k, _, by rw [destroyed_get, hd]; rfl, ?_, ?_⟩))
      · by_cases hpk : p = k <;> simp [hk, hpk, hdl]
      · by_cases hpk : p = k <;> simp [hk, hpk, hdp]
  · intro _
    exact h.calls h0
  · intro hn0
    exact absurd hroot hn0
  · intro _
    exact (h.failed h0).trans (erroneous_destroyed hc hl (by omega) hpl).symm

/-- The outermost destructor runs: the user's callback is executed. -/
theorem Guarded.finish {c : ParallelCompletion ε} (h : s.Guarded (· = 0))
    (hn : .par 0 ∉ s.holders) (hc : s.cells[0]? = some c) (hl : c.live = true) :
    Grouped { s.callback c.error .user with
      cells := s.cells.modify 0 ({ · with live := false }) } := by
  have h0 : s.Live (.par 0) := live_par.2 ⟨c, hc, hl⟩
  obtain ⟨hq, honly⟩ := h.quiet_of_root hn
  have hcall : (s.callback c.error .user).calls =
      [(CAsyncIOCompletion.callback s.complete c.error, true)] := by
    simp [callback, hq, h.calls h0]
  have hfailed : c.error.isSome = s.failed := by
    rw [Bool.eq_iff_iff, h.failed h0]
    constructor
    · intro he
      exact ⟨0, c, hc, hl, he⟩
    · rintro ⟨j, d, hd, hdl, hde⟩
      obtain rfl := honly j (live_par.2 ⟨d, hd, hdl⟩)
      rw [hc] at hd
      cases hd
      exact hde
  have hget (j : ℕ) : (s.cells.modify 0 ({ · with live := false }))[j]? =
      (s.cells[j]?).map fun c ↦ if 0 = j then { c with live := false } else c := by
    rw [List.getElem?_modify]
    cases s.cells[j]? <;> rfl
  have hdead (a : AsyncIO) : ¬Live { s.callback c.error .user with
      cells := s.cells.modify 0 ({ · with live := false }) } a := by
    rintro ⟨j, d, rfl, hd, hdl⟩
    rw [hget] at hd
    obtain ⟨d', hd', rfl⟩ := Option.map_eq_some_iff.1 hd
    by_cases hj : 0 = j
    · simp [hj] at hdl
    · refine hj (honly j (live_par.2 ⟨d', hd', ?_⟩)).symm
      simpa [hj] using hdl
  have hnone {a : AsyncIO} (ha : s.Live a) : a = .par 0 := by
    obtain ⟨j, d, rfl, hd⟩ := ha
    rw [honly j (live_par.2 ⟨d, hd⟩)]
  refine ⟨?_, ?_, ?_, ?_, ?_, ?_, ?_, ?_⟩
  · obtain ⟨above, below, hs, ha, hb⟩ := h.stack
    refine ⟨above, below, hs, ?_, hb⟩
    intro f hf
    exact absurd (mem_holders.2 (.inl ⟨f, by simp [hs, hf], hnone (ha f hf)⟩)) hn
  · intro a ha
    exact absurd (mem_holders.2 (.inr (.inl (hnone (h.pending a ha) ▸ ha)))) hn
  · obtain ⟨r, hr, hu⟩ := h.root
    exact ⟨{ r with live := false }, by rw [hget, hr]; rfl, hu⟩
  · intro j d hd hj
    rw [hget] at hd
    obtain ⟨d', hd', rfl⟩ := Option.map_eq_some_iff.1 hd
    obtain ⟨q, hq, hdq, -⟩ := h.parent j d' hd' hj
    refine ⟨q, hq, by simp [Ne.symm hj, hdq], fun hdl ↦ ?_⟩
    exact absurd (live_par.2 ⟨_, by rw [hget, hd']; rfl, hdl⟩) (hdead (.par j))
  · intro j _ hj
    exact absurd hj (hdead _)
  · intro hl0
    exact absurd hl0 (hdead _)
  · intro _
    exact ⟨c.error, hcall, hfailed⟩
  · intro hl0
    exact absurd hl0 (hdead _)

theorem Guarded.drop {fuel : ℕ} (h : s.Guarded (· = id)) (hl : s.Live (.par id))
    (hf : id < fuel) : (s.drop fuel (.par id)).Grouped := by
  induction fuel generalizing s id with
  | zero => omega
  | succ fuel ih =>
    unfold Request.drop
    by_cases hn : .par id ∈ s.holders
    · rw [if_pos hn]
      refine { h with held := fun j _ hj ↦ ?_ }
      by_cases hji : j = id
      · exact hji ▸ hn
      · exact h.held j hji hj
    · obtain ⟨c, hc, hlive⟩ := live_par.1 hl
      simp only [if_neg hn, hc]
      by_cases hid : id = 0
      · subst hid
        obtain ⟨r, hr, hu⟩ := h.root
        rw [hc] at hr
        cases hr
        have hg := h.finish hn hc hlive
        rw [hu]
        cases fuel <;> exact hg
      · obtain ⟨p, hp, hcp, hpl⟩ := h.parent id c hc hid
        have hg := h.destroy hn hc hlive hp hcp (hpl hlive)
        rw [hcp]
        exact ih hg (live_destroyed.2 ⟨by omega, hpl hlive⟩) (by omega)

end Request

end Cpsw.Async
