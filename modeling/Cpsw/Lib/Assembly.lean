import Mathlib.Data.List.Infix

namespace Cpsw.Lib.Assembly

variable {α : Type}

/-- A piece of a frame, with what it says about its place. -/
structure Piece (α : Type) where
  first : Bool
  last : Bool
  num : ℕ
  data : List α
  deriving DecidableEq, Repr

def content (fs : List (Piece α)) : List α := fs.flatMap Piece.data

@[simp] theorem content_nil : content ([] : List (Piece α)) = [] := rfl

@[simp] theorem content_append (fs gs : List (Piece α)) : content (fs ++ gs) = content fs ++ content gs :=
  List.flatMap_append

@[simp] theorem content_singleton (f : Piece α) : content [f] = f.data := by
  simp [content]

variable (m : ℕ)

/-- Only the first piece is marked as the first, and the others are numbered from 1 on. -/
structure InSequence (fs : List (Piece α)) : Prop where
  ne : fs ≠ []
  first : ∀ i f, fs[i]? = some f → (f.first = true ↔ i = 0)
  num : ∀ i f, fs[i]? = some f → i ≠ 0 → f.num = i % m

/-- The beginning of a frame. -/
structure IsOpen (fs : List (Piece α)) : Prop extends InSequence m fs where
  last : ∀ (i : ℕ) (f : Piece α), fs[i]? = some f → f.last = false

structure IsFrame (fs : List (Piece α)) : Prop extends InSequence m fs where
  last : ∀ (i : ℕ) (f : Piece α), fs[i]? = some f → (f.last = true ↔ i + 1 = fs.length)

/-- The pieces of the frame that is being put together, and the frames before it. -/
structure State (α : Type) where
  cur : Option (List (Piece α))
  out : List (List (Piece α))

namespace State

def new : State α := { cur := none, out := [] }

def close (f : Piece α) (fs : List (Piece α)) (a : State α) : State α :=
  if f.last then { cur := none, out := a.out ++ [fs] } else { a with cur := some fs }

def step (a : State α) (f : Piece α) : State α :=
  if f.first then a.close f [f]
  else
    match a.cur with
    | none => a
    | some fs => if f.num = fs.length % m then a.close f (fs ++ [f]) else { a with cur := none }

def run (xs : List (Piece α)) (a : State α) : State α := xs.foldl (step m) a

end State

variable {m} {xs fs gs : List (Piece α)} {f g : Piece α} {a : State α}

/-- The piece `f` continues `gs`. -/
def Continues (m : ℕ) (gs : List (Piece α)) (f : Piece α) : Prop :=
  (gs = [] ∧ f.first = true) ∨ (IsOpen m gs ∧ f.first = false ∧ f.num = gs.length % m)

theorem getElem?_snoc {i : ℕ} (h : (gs ++ [f])[i]? = some g) :
    gs[i]? = some g ∨ (i = gs.length ∧ g = f) := by
  rcases Nat.lt_trichotomy i gs.length with hi | hi | hi
  · left
    rwa [List.getElem?_append_left hi] at h
  · subst hi
    right
    simpa using h.symm
  · simp [List.getElem?_append_right hi.le, List.getElem?_eq_none (show [f].length ≤ i - gs.length by
      simp only [List.length_singleton]; omega)] at h

theorem InSequence.init (h : InSequence m (gs ++ [f])) (hne : gs ≠ []) : InSequence m gs := by
  have hget : ∀ (i : ℕ) (g : Piece α), gs[i]? = some g → (gs ++ [f])[i]? = some g := by
    intro i g hg
    rw [List.getElem?_append_left (List.getElem?_eq_some_iff.1 hg).1]
    exact hg
  exact ⟨hne, fun i g hg ↦ h.first i g (hget i g hg), fun i g hg ↦ h.num i g (hget i g hg)⟩

theorem inSequence_snoc (h : Continues m gs f) : InSequence m (gs ++ [f]) := by
  rcases h with ⟨rfl, hf⟩ | ⟨ho, hf, hn⟩
  · refine ⟨by simp, ?_, ?_⟩
    · intro i g hg
      rcases getElem?_snoc hg with hg | ⟨rfl, rfl⟩
      · simp at hg
      · simpa using hf
    · intro i g hg hi
      rcases getElem?_snoc hg with hg | ⟨rfl, rfl⟩
      · simp at hg
      · simp at hi
  · have hpos := List.length_pos_of_ne_nil ho.ne
    refine ⟨by simp, ?_, ?_⟩
    · intro i g hg
      rcases getElem?_snoc hg with hg | ⟨rfl, rfl⟩
      · exact ho.first i g hg
      · simp only [hf, Bool.false_eq_true, false_iff]
        omega
    · intro i g hg hi
      rcases getElem?_snoc hg with hg | ⟨rfl, rfl⟩
      · exact ho.num i g hg hi
      · exact hn

theorem InSequence.continues (h : InSequence m (gs ++ [f]))
    (hl : ∀ (i : ℕ) (g : Piece α), gs[i]? = some g → g.last = false) : Continues m gs f := by
  have hlast : (gs ++ [f])[gs.length]? = some f := by simp
  by_cases hne : gs = []
  · subst hne
    left
    exact ⟨rfl, (h.first 0 f hlast).2 rfl⟩
  · right
    have hpos := List.length_pos_of_ne_nil hne
    refine ⟨⟨h.init hne, hl⟩, ?_, h.num _ f hlast hpos.ne'⟩
    have := h.first _ f hlast
    simpa [hpos.ne'] using this

theorem isOpen_snoc : IsOpen m (gs ++ [f]) ↔ Continues m gs f ∧ f.last = false := by
  constructor
  · intro h
    refine ⟨h.continues fun i g hg ↦ ?_, h.last gs.length f (by simp)⟩
    apply h.last i g
    rw [List.getElem?_append_left (List.getElem?_eq_some_iff.1 hg).1]
    exact hg
  · rintro ⟨h, hf⟩
    refine ⟨inSequence_snoc h, fun i g hg ↦ ?_⟩
    rcases getElem?_snoc hg with hg | ⟨rfl, rfl⟩
    · rcases h with ⟨rfl, -⟩ | ⟨ho, -, -⟩
      · simp at hg
      · exact ho.last i g hg
    · exact hf

theorem isFrame_snoc : IsFrame m (gs ++ [f]) ↔ Continues m gs f ∧ f.last = true := by
  constructor
  · intro h
    refine ⟨h.continues fun i g hg ↦ ?_, (h.last gs.length f (by simp)).2 (by simp)⟩
    have hi := (List.getElem?_eq_some_iff.1 hg).1
    have := h.last i g (by rwa [List.getElem?_append_left hi])
    rw [Bool.eq_false_iff, Ne, this, List.length_append, List.length_singleton]
    omega
  · rintro ⟨h, hf⟩
    refine ⟨inSequence_snoc h, fun i g hg ↦ ?_⟩
    rcases getElem?_snoc hg with hg | ⟨rfl, rfl⟩
    · have hi := (List.getElem?_eq_some_iff.1 hg).1
      rcases h with ⟨rfl, -⟩ | ⟨ho, -, -⟩
      · simp at hg
      · simp only [ho.last i g hg, List.length_append, List.length_singleton]
        simp
        omega
    · simp [hf]

/-- What the state says about the pieces `xs` so far. -/
structure Scanned (m : ℕ) (xs : List (Piece α)) (a : State α) : Prop where
  cur : ∀ fs, a.cur = some fs ↔ IsOpen m fs ∧ fs <:+ xs
  out : ∀ fs ∈ a.out, IsFrame m fs ∧ fs <:+: xs

theorem scanned_new : Scanned m [] (State.new : State α) := by
  refine ⟨fun fs ↦ ⟨nofun, ?_⟩, nofun⟩
  rintro ⟨h, hs⟩
  exact absurd (List.suffix_nil.1 hs) h.ne

/-- The end of a sequence that `f` ends: either `f` alone, or `f` after an end of `xs`. -/
theorem suffix_snoc (hne : fs ≠ []) : fs <:+ xs ++ [f] ↔ ∃ gs, fs = gs ++ [f] ∧ gs <:+ xs := by
  rw [List.suffix_concat_iff]
  constructor
  · rintro (rfl | ⟨t, rfl, ht⟩)
    · exact absurd rfl hne
    · exact ⟨t, rfl, ht⟩
  · rintro ⟨gs, rfl, hs⟩
    exact .inr ⟨gs, rfl, hs⟩

/-- The step that `f` makes. -/
theorem Scanned.step_eq (h : Scanned m xs a) (f : Piece α) :
    (∃ gs, gs <:+ xs ∧ Continues m gs f ∧ a.step m f = a.close f (gs ++ [f])) ∨
      ((∀ gs, gs <:+ xs → ¬Continues m gs f) ∧ a.step m f = { a with cur := none }) := by
  unfold State.step
  by_cases hf : f.first = true
  · left
    refine ⟨[], List.nil_suffix, .inl ⟨rfl, hf⟩, ?_⟩
    rw [if_pos hf]
    rfl
  · rw [if_neg hf]
    simp only [Bool.not_eq_true] at hf
    cases hc : a.cur with
    | none =>
      right
      refine ⟨?_, by cases a; simp_all⟩
      rintro gs hs (⟨-, hf'⟩ | ⟨ho, -, -⟩)
      · simp [hf] at hf'
      · have := (h.cur gs).2 ⟨ho, hs⟩
        simp [hc] at this
    | some gs =>
      obtain ⟨ho, hs⟩ := (h.cur gs).1 hc
      by_cases hn : f.num = gs.length % m
      · left
        refine ⟨gs, hs, .inr ⟨ho, hf, hn⟩, ?_⟩
        simp only [if_pos hn]
      · right
        refine ⟨?_, by simp only [if_neg hn]⟩
        rintro gs' hs' (⟨-, hf'⟩ | ⟨ho', -, hn'⟩)
        · simp [hf] at hf'
        · have := (h.cur gs').2 ⟨ho', hs'⟩
          rw [hc] at this
          obtain rfl := Option.some.inj this
          exact hn hn'

theorem Continues.unique (h : Scanned m xs a) (hs : fs <:+ xs) (hf : Continues m fs f)
    (hs' : gs <:+ xs) (hg : Continues m gs f) : fs = gs := by
  rcases hf with ⟨rfl, hf⟩ | ⟨ho, hf, -⟩ <;> rcases hg with ⟨rfl, hg⟩ | ⟨ho', hg, -⟩
  · rfl
  · simp [hf] at hg
  · simp [hf] at hg
  · have h₁ := (h.cur fs).2 ⟨ho, hs⟩
    have h₂ := (h.cur gs).2 ⟨ho', hs'⟩
    exact Option.some.inj (h₁.symm.trans h₂)

theorem Scanned.step (h : Scanned m xs a) (f : Piece α) : Scanned m (xs ++ [f]) (a.step m f) := by
  have hout : ∀ fs ∈ a.out, IsFrame m fs ∧ fs <:+: xs ++ [f] :=
    fun fs hfs ↦ ⟨(h.out fs hfs).1, (h.out fs hfs).2.trans (List.prefix_append _ _).isInfix⟩
  have hopen : ∀ fs, IsOpen m fs ∧ fs <:+ xs ++ [f] ↔
      ∃ gs, fs = gs ++ [f] ∧ gs <:+ xs ∧ Continues m gs f ∧ f.last = false := by
    intro fs
    constructor
    · rintro ⟨ho, hsuf⟩
      obtain ⟨gs, rfl, hs⟩ := (suffix_snoc ho.ne).1 hsuf
      exact ⟨gs, rfl, hs, isOpen_snoc.1 ho⟩
    · rintro ⟨gs, rfl, hs, hc⟩
      exact ⟨isOpen_snoc.2 hc, (suffix_snoc (by simp)).2 ⟨gs, rfl, hs⟩⟩
  rcases h.step_eq f with ⟨gs, hs, hc, hstep⟩ | ⟨hno, hstep⟩
  · rw [hstep]
    unfold State.close
    cases hl : f.last
    · refine ⟨fun fs ↦ ?_, hout⟩
      rw [hopen]
      simp only [Bool.false_eq_true, if_false, Option.some.injEq]
      constructor
      · rintro rfl
        exact ⟨gs, rfl, hs, hc, hl⟩
      · rintro ⟨gs', rfl, hs', hc', -⟩
        rw [hc.unique h hs hs' hc']
    · refine ⟨fun fs ↦ ?_, ?_⟩
      · rw [hopen]
        simp [hl]
      · intro fs hfs
        simp only [if_true, List.mem_append, List.mem_singleton] at hfs
        rcases hfs with hfs | rfl
        · exact hout fs hfs
        · exact ⟨isFrame_snoc.2 ⟨hc, hl⟩, ((suffix_snoc (by simp)).2 ⟨gs, rfl, hs⟩).isInfix⟩
  · rw [hstep]
    refine ⟨fun fs ↦ ⟨nofun, fun hfs ↦ ?_⟩, hout⟩
    obtain ⟨gs, -, hs, hc, -⟩ := (hopen fs).1 hfs
    exact absurd hc (hno gs hs)

theorem Scanned.run (xs : List (Piece α)) : Scanned m xs (State.new.run m xs) := by
  induction xs using List.reverseRecOn with
  | nil => exact scanned_new
  | append_singleton xs f ih =>
    simp only [State.run, List.foldl_append, List.foldl_cons, List.foldl_nil] at ih ⊢
    exact ih.step f

/-- The last piece of a frame passes the frame on. -/
theorem Scanned.step_frame (h : Scanned m xs a) (hf : IsFrame m fs) (hsuf : fs <:+ xs ++ [f]) :
    a.step m f = { cur := none, out := a.out ++ [fs] } := by
  obtain ⟨gs, rfl, hs⟩ := (suffix_snoc hf.ne).1 hsuf
  obtain ⟨hc, hl⟩ := isFrame_snoc.1 hf
  rcases h.step_eq f with ⟨gs', hs', hc', hstep⟩ | ⟨hno, -⟩
  · obtain rfl := hc.unique h hs hs' hc'
    rw [hstep]
    simp [State.close, hl]
  · exact absurd hc (hno gs hs)

theorem Scanned.step_open (h : Scanned m xs a) (ho : IsOpen m fs) (hsuf : fs <:+ xs ++ [f]) :
    a.step m f = { a with cur := some fs } := by
  obtain ⟨gs, rfl, hs⟩ := (suffix_snoc ho.ne).1 hsuf
  obtain ⟨hc, hl⟩ := isOpen_snoc.1 ho
  rcases h.step_eq f with ⟨gs', hs', hc', hstep⟩ | ⟨hno, -⟩
  · obtain rfl := hc.unique h hs hs' hc'
    rw [hstep]
    simp [State.close, hl]
  · exact absurd hc (hno gs hs)

/-- A piece that neither starts a frame nor continues the one that has begun. -/
theorem Scanned.step_gap (h : Scanned m xs a) (hf : f.first = false)
    (hn : ∀ fs, IsOpen m fs → fs <:+ xs → f.num ≠ fs.length % m) :
    a.step m f = { a with cur := none } := by
  rcases h.step_eq f with ⟨gs, hs, ⟨-, hf'⟩ | ⟨ho, -, hn'⟩, -⟩ | ⟨-, hstep⟩
  · simp [hf] at hf'
  · exact absurd hn' (hn gs ho hs)
  · exact hstep

/-- The pieces of one frame whose numbers start again after `N` pieces. -/
structure Wrapped (m N : ℕ) (i : ℕ) (f : Piece α) : Prop where
  first : f.first = true ↔ i % N = 0
  num : f.num = i % N % m

theorem run_concat (m : ℕ) (xs : List (Piece α)) (f : Piece α) (a : State α) :
    a.run m (xs ++ [f]) = (a.run m xs).step m f := by
  simp [State.run]

/-- The pieces from the last first one on. -/
def segment (N : ℕ) (xs : List (Piece α)) : List (Piece α) := xs.drop (N * ((xs.length - 1) / N))

variable {N : ℕ}

theorem step_wrapped (hN : 0 < N)
    (hrun : xs ≠ [] → a.run m xs = { a with cur := some (segment N xs) })
    (hf : Wrapped m N xs.length f) :
    (a.run m xs).step m f = a.close f (segment N (xs ++ [f])) := by
  have hlen : (xs ++ [f]).length - 1 = xs.length := by simp
  have hdiv := Nat.div_add_mod xs.length N
  rw [segment, hlen]
  by_cases h0 : xs.length % N = 0
  · have hdrop : (xs ++ [f]).drop (N * (xs.length / N)) = [f] := by
      rw [show N * (xs.length / N) = xs.length by omega, List.drop_left]
    rw [hdrop]
    by_cases hxs : xs = []
    · simp [hxs, State.run, State.step, hf.first.2 h0]
    · rw [hrun hxs]
      simp [State.step, hf.first.2 h0, State.close]
  · have hxs : xs ≠ [] := by
      rintro rfl
      simp at h0
    have hnot : f.first = false := by
      rw [Bool.eq_false_iff, Ne, hf.first]
      exact h0
    have hq : (xs.length - 1) / N = xs.length / N := by
      have hpos := List.length_pos_of_ne_nil hxs
      have hmod := Nat.mod_lt xs.length hN
      apply Nat.div_eq_of_lt_le
      · rw [Nat.mul_comm]
        omega
      · rw [Nat.succ_mul, Nat.mul_comm]
        omega
    have hnum : f.num = (xs.drop (N * (xs.length / N))).length % m := by
      rw [hf.num, List.length_drop]
      congr 1
      omega
    rw [hrun hxs, segment, hq, List.drop_append_of_le_length (by omega)]
    simp [State.step, hnot, hnum, State.close]

/-- The state is the one of `a`, but for the last segment of `xs`. -/
theorem run_wrapped (hN : 0 < N) (a : State α) (hne : xs ≠ [])
    (hx : ∀ (i : ℕ) (f : Piece α), xs[i]? = some f → Wrapped m N i f ∧ f.last = false) :
    a.run m xs = { a with cur := some (segment N xs) } := by
  induction xs using List.reverseRecOn with
  | nil => exact absurd rfl hne
  | append_singleton xs f ih =>
    obtain ⟨hf, hlast⟩ := hx xs.length f (by simp)
    have hinit : ∀ (i : ℕ) (g : Piece α), xs[i]? = some g → Wrapped m N i g ∧ g.last = false := by
      intro i g hg
      apply hx i g
      rw [List.getElem?_append_left (List.getElem?_eq_some_iff.1 hg).1]
      exact hg
    rw [run_concat, step_wrapped hN (fun hxs ↦ ih hxs hinit) hf]
    simp [State.close, hlast]

/-- The last piece passes its segment on. -/
theorem run_wrapped_last (hN : 0 < N) (a : State α)
    (hx : ∀ (i : ℕ) (f : Piece α), xs[i]? = some f → Wrapped m N i f ∧ f.last = false)
    (hf : Wrapped m N xs.length f) (hlast : f.last = true) :
    a.run m (xs ++ [f]) = { cur := none, out := a.out ++ [segment N (xs ++ [f])] } := by
  rw [run_concat, step_wrapped hN (fun hxs ↦ run_wrapped hN a hxs hx) hf]
  simp [State.close, hlast]

end Cpsw.Lib.Assembly
