import Cpsw.Lib.Links

namespace Cpsw.Lib.Links

variable {α : Type} {l l' : Links α} {u v xs : List α} {a x : α}

/-- The cells `xs` are distinct, linked in this order in both directions, and nothing is linked
before the first or after the last of them. -/
structure Whole (l : Links α) (xs : List α) : Prop where
  nodup : xs.Nodup
  next : ∀ {u v : List α} {a : α}, xs = u ++ a :: v → l.next a = v.head?
  prev : ∀ {u v : List α} {a : α}, xs = u ++ a :: v → l.prev a = u.getLast?

namespace Whole

theorem nil : l.Whole [] :=
  ⟨.nil, fun h ↦ absurd h (by simp), fun h ↦ absurd h (by simp)⟩

theorem singleton (hn : l.next x = none) (hp : l.prev x = none) : l.Whole [x] := by
  have hx : ∀ {u v : List α} {a : α}, [x] = u ++ a :: v → u = [] ∧ x = a ∧ v = [] := by
    intro u v a h
    cases u with
    | nil => simpa using h
    | cons c u => simp at h
  refine ⟨List.nodup_singleton x, fun h ↦ ?_, fun h ↦ ?_⟩
  · obtain ⟨rfl, rfl, rfl⟩ := hx h
    exact hn
  · obtain ⟨rfl, rfl, rfl⟩ := hx h
    exact hp

/-- A list stays as it is where its cells do. -/
theorem frame (h : l.Whole xs) (hn : ∀ a ∈ xs, l'.next a = l.next a)
    (hp : ∀ a ∈ xs, l'.prev a = l.prev a) : l'.Whole xs := by
  have hmem : ∀ {u v : List α} {a : α}, xs = u ++ a :: v → a ∈ xs := fun hx ↦ by simp [hx]
  exact ⟨h.nodup, fun hx ↦ (hn _ (hmem hx)).trans (h.next hx),
    fun hx ↦ (hp _ (hmem hx)).trans (h.prev hx)⟩

theorem next_eq (h : l.Whole (u ++ a :: v)) : l.next a = v.head? := h.next rfl

theorem prev_eq (h : l.Whole (u ++ a :: v)) : l.prev a = u.getLast? := h.prev rfl

end Whole

/-- A cell of a list without repetition stands in one place. -/
theorem split_unique {u v u' v' : List α} (hnd : (u ++ a :: v).Nodup)
    (h : u ++ a :: v = u' ++ a :: v') : u = u' ∧ v = v' := by
  induction u generalizing u' with
  | nil =>
    cases u' with
    | nil => simpa using h
    | cons c u' =>
      simp only [List.nil_append, List.cons_append, List.cons.injEq] at h
      have ha := (List.nodup_cons.1 hnd).1
      rw [h.2] at ha
      exact absurd (by simp) ha
  | cons c u ih =>
    cases u' with
    | nil =>
      simp only [List.nil_append, List.cons_append, List.cons.injEq] at h
      have hc := (List.nodup_cons.1 hnd).1
      rw [h.1] at hc
      exact absurd (by simp) hc
    | cons c' u' =>
      simp only [List.cons_append, List.cons.injEq] at h
      obtain ⟨rfl, rfl⟩ := ih (List.nodup_cons.1 hnd).2 h.2
      exact ⟨by rw [h.1], rfl⟩

namespace Whole

theorem next_unique {u' v' : List α} (h : l.Whole (u ++ a :: v)) (h' : l.Whole (u' ++ a :: v')) :
    v = v' := by
  induction v generalizing u u' a v' with
  | nil =>
    have hn := h.next_eq.symm.trans h'.next_eq
    cases v' with
    | nil => rfl
    | cons c v' => cases hn
  | cons b v ih =>
    have hn := h.next_eq.symm.trans h'.next_eq
    cases v' with
    | nil => cases hn
    | cons c v' =>
      obtain rfl : b = c := Option.some.inj hn
      have hb : l.Whole ((u ++ [a]) ++ b :: v) := by simpa using h
      have hb' : l.Whole ((u' ++ [a]) ++ b :: v') := by simpa using h'
      rw [ih hb hb']

theorem prev_unique {u' v' : List α} (h : l.Whole (u ++ a :: v)) (h' : l.Whole (u' ++ a :: v')) :
    u = u' := by
  induction u using List.reverseRecOn generalizing u' a v v' with
  | nil =>
    have hp := h.prev_eq.symm.trans h'.prev_eq
    cases u' using List.reverseRecOn with
    | nil => rfl
    | append_singleton u' c => simp at hp
  | append_singleton u b ih =>
    have hp := h.prev_eq.symm.trans h'.prev_eq
    cases u' using List.reverseRecOn with
    | nil => simp at hp
    | append_singleton u' c =>
      obtain rfl : b = c := by simpa using hp
      have hb : l.Whole (u ++ b :: (a :: v)) := by simpa using h
      have hb' : l.Whole (u' ++ b :: (a :: v')) := by simpa using h'
      rw [ih hb hb']

/-- A cell is in one list only. -/
theorem unique {ys : List α} (h : l.Whole xs) (h' : l.Whole ys) (hx : a ∈ xs) (hy : a ∈ ys) :
    xs = ys := by
  obtain ⟨u, v, rfl⟩ := List.append_of_mem hx
  obtain ⟨u', v', rfl⟩ := List.append_of_mem hy
  rw [h.prev_unique h', h.next_unique h']

/-- A list is cut in two: the links between the parts are gone. -/
theorem cut (h : l.Whole (u ++ v)) (hn : ∀ a ∈ u ++ v, some a ≠ u.getLast? → l'.next a = l.next a)
    (hp : ∀ a ∈ u ++ v, some a ≠ v.head? → l'.prev a = l.prev a)
    (hlast : ∀ a, some a = u.getLast? → l'.next a = none)
    (hfirst : ∀ a, some a = v.head? → l'.prev a = none) : l'.Whole u ∧ l'.Whole v := by
  have hdisj := List.disjoint_of_nodup_append h.nodup
  have hu : ∀ {a : α}, a ∈ u → some a ≠ v.head? := fun ha hv ↦
    hdisj ha (List.mem_of_head? hv.symm)
  have hv : ∀ {a : α}, a ∈ v → some a ≠ u.getLast? := fun ha hu ↦
    hdisj (List.mem_of_getLast? hu.symm) ha
  have hnd := List.nodup_append.1 h.nodup
  refine ⟨⟨hnd.1, fun {s t a} hs ↦ ?_, fun {s t a} hs ↦ ?_⟩,
    ⟨hnd.2.1, fun {s t a} hs ↦ ?_, fun {s t a} hs ↦ ?_⟩⟩
  · have hau : a ∈ u := by simp [hs]
    cases t using List.reverseRecOn with
    | nil => exact hlast a (by simp [hs])
    | append_singleton t b =>
      have hab : some a ≠ u.getLast? := by
        have hb : a ∉ t ++ [b] := (List.nodup_cons.1 (List.nodup_append.1 (hs ▸ hnd.1)).2.1).1
        have hl : u.getLast? = some b := by
          rw [hs, ← List.cons_append, ← List.append_assoc, List.getLast?_concat]
        intro hab
        rw [hl, Option.some.injEq] at hab
        exact hb (by simp [hab])
      rw [hn a (List.mem_append_left v hau) hab, h.next (u := s) (v := t ++ [b] ++ v) (by simp [hs])]
      cases t <;> rfl
  · have hau : a ∈ u := by simp [hs]
    rw [hp a (List.mem_append_left v hau) (hu hau), h.prev (u := s) (v := t ++ v) (by simp [hs])]
  · have hav : a ∈ v := by simp [hs]
    rw [hn a (List.mem_append_right u hav) (hv hav), h.next (u := u ++ s) (v := t) (by simp [hs])]
  · have hav : a ∈ v := by simp [hs]
    cases s with
    | nil => exact hfirst a (by simp [hs])
    | cons b s =>
      have hab : some a ≠ v.head? := by
        have hnd' := hnd.2.1
        rw [hs, List.cons_append] at hnd'
        have hb : b ∉ s ++ a :: t := (List.nodup_cons.1 hnd').1
        intro hab
        rw [hs, List.cons_append, List.head?_cons, Option.some.injEq] at hab
        exact hb (by simp [hab])
      rw [hp a (List.mem_append_right u hav) hab,
        h.prev (u := u ++ b :: s) (v := t) (by simp [hs])]
      simp [List.getLast?_append, List.getLast?_cons]

end Whole

theorem last_of_nodup {w : List α} {c : α} (hu : u = v ++ a :: (w ++ [c])) (hnd : u.Nodup) :
    u.getLast? = some c ∧ a ≠ c := by
  subst hu
  have ha := (List.nodup_cons.1 (List.nodup_append.1 hnd).2.1).1
  refine ⟨?_, fun hac ↦ ha (by simp [hac])⟩
  rw [← List.cons_append, ← List.append_assoc, List.getLast?_concat]

theorem first_of_nodup {w : List α} {c : α} (hv : v = (c :: w) ++ a :: u) (hnd : v.Nodup) :
    v.head? = some c ∧ a ≠ c := by
  subst hv
  have hc := (List.nodup_cons.1 hnd).1
  exact ⟨rfl, fun hac ↦ hc (by simp [hac])⟩

variable [DecidableEq α]

/-- Link `x` in between `a` and `b`, where there are such neighbours. -/
def link (l : Links α) (a : Option α) (x : α) (b : Option α) : Links α where
  next y := if y = x then b else if some y = a then some x else l.next y
  prev y := if y = x then a else if some y = b then some x else l.prev y

/-- Link what stands on both sides of a cell; the cell keeps its own links. -/
def unlink (l : Links α) (a b : Option α) : Links α where
  next y := if some y = a then b else l.next y
  prev y := if some y = b then a else l.prev y

namespace Whole

/-- A cell is put in a place of a list. -/
theorem link (h : l.Whole (u ++ v)) (hx : x ∉ u ++ v) :
    (l.link u.getLast? x v.head?).Whole (u ++ x :: v) := by
  have hnd : (u ++ x :: v).Nodup := List.perm_middle.nodup_iff.2 (List.nodup_cons.2 ⟨hx, h.nodup⟩)
  have hdisj := List.disjoint_of_nodup_append h.nodup
  -- a cell is the new one, or stands before it, or after it
  have hcases : ∀ {u' v' : List α} {a : α}, u ++ x :: v = u' ++ a :: v' →
      (a = x ∧ u' = u ∧ v' = v) ∨ (a ≠ x ∧ a ∉ v ∧ ∃ w, u = u' ++ a :: w ∧ v' = w ++ x :: v) ∨
        (a ≠ x ∧ a ∉ u ∧ ∃ w, v = w ++ a :: v' ∧ u' = u ++ x :: w) := by
    intro u' v' a h'
    by_cases hax : a = x
    · subst hax
      obtain ⟨rfl, rfl⟩ := split_unique hnd h'
      exact .inl ⟨rfl, rfl, rfl⟩
    · right
      rcases List.append_eq_append_iff.1 h' with ⟨w, hu', hw⟩ | ⟨w, hu, hw⟩
      · right
        cases w with
        | nil =>
          simp only [List.nil_append, List.cons.injEq] at hw
          exact absurd hw.1.symm hax
        | cons c w =>
          simp only [List.cons_append, List.cons.injEq] at hw
          obtain ⟨rfl, hv⟩ := hw
          exact ⟨hax, fun ha ↦ hdisj ha (by simp [hv]), w, hv, hu'⟩
      · left
        cases w with
        | nil =>
          simp only [List.nil_append, List.cons.injEq] at hw
          exact absurd hw.1 hax
        | cons c w =>
          simp only [List.cons_append, List.cons.injEq] at hw
          obtain ⟨rfl, hv⟩ := hw
          exact ⟨hax, fun ha ↦ hdisj (by simp [hu]) ha, w, hu, hv⟩
  refine ⟨hnd, fun {u' v' a} h' ↦ ?_, fun {u' v' a} h' ↦ ?_⟩
  · rcases hcases h' with ⟨rfl, rfl, rfl⟩ | ⟨hax, hav, w, hu, rfl⟩ | ⟨hax, hau, w, hv, rfl⟩
    · exact if_pos rfl
    · have hnext : l.next a = (w ++ v).head? := h.next (u := u') (by simp [hu])
      simp only [Links.link, if_neg hax]
      cases w using List.reverseRecOn with
      | nil => simp [hu]
      | append_singleton w c =>
        obtain ⟨hlast, hac⟩ := last_of_nodup hu (List.nodup_append.1 h.nodup).1
        rw [hlast, if_neg (by simpa using hac), hnext]
        cases w <;> rfl
    · have hnext : l.next a = v'.head? := h.next (u := u ++ w) (by simp [hv])
      have hlast : some a ≠ u.getLast? := fun hl ↦ hau (List.mem_of_getLast? hl.symm)
      simp only [Links.link, if_neg hax, if_neg hlast, hnext]
  · rcases hcases h' with ⟨rfl, rfl, rfl⟩ | ⟨hax, hav, w, hu, rfl⟩ | ⟨hax, hau, w, hv, rfl⟩
    · exact if_pos rfl
    · have hprev : l.prev a = u'.getLast? := h.prev (v := w ++ v) (by simp [hu])
      have hfirst : some a ≠ v.head? := fun hl ↦ hav (List.mem_of_head? hl.symm)
      simp only [Links.link, if_neg hax, if_neg hfirst, hprev]
    · have hprev : l.prev a = (u ++ w).getLast? := h.prev (v := v') (by simp [hv])
      simp only [Links.link, if_neg hax]
      cases w with
      | nil => simp [hv]
      | cons c w =>
        obtain ⟨hfirst, hac⟩ := first_of_nodup hv (List.nodup_append.1 h.nodup).2.1
        rw [hfirst, if_neg (by simpa using hac), hprev]
        simp [List.getLast?_append, List.getLast?_cons]

/-- A cell is taken out of a list. -/
theorem unlink (h : l.Whole (u ++ x :: v)) : (l.unlink u.getLast? v.head?).Whole (u ++ v) := by
  have hnd : (u ++ v).Nodup := h.nodup.sublist (by simp)
  have hdisj := List.disjoint_of_nodup_append hnd
  have hcases : ∀ {u' v' : List α} {a : α}, u ++ v = u' ++ a :: v' →
      (a ∉ v ∧ ∃ w, u = u' ++ a :: w ∧ v' = w ++ v) ∨
        (a ∉ u ∧ ∃ w, v = w ++ a :: v' ∧ u' = u ++ w) := by
    intro u' v' a h'
    rcases List.append_eq_append_iff.1 h' with ⟨w, hu', hw⟩ | ⟨w, hu, hw⟩
    · right
      exact ⟨fun ha ↦ hdisj ha (by simp [hw]), w, hw, hu'⟩
    · cases w with
      | nil =>
        right
        simp only [List.nil_append] at hw
        refine ⟨fun ha ↦ hdisj ha (by simp [← hw]), [], hw.symm, by simpa using hu.symm⟩
      | cons c w =>
        left
        simp only [List.cons_append, List.cons.injEq] at hw
        obtain ⟨rfl, hv⟩ := hw
        exact ⟨fun ha ↦ hdisj (by simp [hu]) ha, w, hu, hv⟩
  refine ⟨hnd, fun {u' v' a} h' ↦ ?_, fun {u' v' a} h' ↦ ?_⟩
  · rcases hcases h' with ⟨hav, w, hu, rfl⟩ | ⟨hau, w, hv, rfl⟩
    · have hnext : l.next a = (w ++ x :: v).head? := h.next (u := u') (by simp [hu])
      simp only [Links.unlink]
      cases w using List.reverseRecOn with
      | nil => simp [hu]
      | append_singleton w c =>
        obtain ⟨hlast, hac⟩ := last_of_nodup hu (List.nodup_append.1 hnd).1
        rw [hlast, if_neg (by simpa using hac), hnext]
        cases w <;> rfl
    · have hnext : l.next a = v'.head? := h.next (u := u ++ x :: w) (by simp [hv])
      have hlast : some a ≠ u.getLast? := fun hl ↦ hau (List.mem_of_getLast? hl.symm)
      simp only [Links.unlink, if_neg hlast, hnext]
  · rcases hcases h' with ⟨hav, w, hu, rfl⟩ | ⟨hau, w, hv, rfl⟩
    · have hprev : l.prev a = u'.getLast? := h.prev (v := w ++ x :: v) (by simp [hu])
      have hfirst : some a ≠ v.head? := fun hl ↦ hav (List.mem_of_head? hl.symm)
      simp only [Links.unlink, if_neg hfirst, hprev]
    · have hprev : l.prev a = (u ++ x :: w).getLast? := h.prev (v := v') (by simp [hv])
      simp only [Links.unlink]
      cases w with
      | nil => simp [hv]
      | cons c w =>
        obtain ⟨hfirst, hac⟩ := first_of_nodup hv (List.nodup_append.1 hnd).2.1
        rw [hfirst, if_neg (by simpa using hac), hprev]
        simp [List.getLast?_append, List.getLast?_cons]

end Whole

end Cpsw.Lib.Links
