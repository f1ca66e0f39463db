import Cpsw.Path.RoundTrip

namespace Cpsw.Path

open Cpsw.Lib Cpsw.Lib.Run PathImpl

variable {Ent Addr : Type} (H : Hierarchy Ent Addr)

/-- A number in base 10. -/
def IsDecimal (t : List Char) (n : ℕ) : Prop :=
  t ≠ [] ∧ (∀ c ∈ t, c.isDigit = true) ∧ t.foldl (fun n c ↦ 10 * n + (c.toNat - '0'.toNat)) 0 = n

/-- A number as `strtoul` reads it where it may choose the base. -/
def IsNumber (t : List Char) (n : ℕ) : Prop := Numeral.strtoul 64 t = (n, []) ∧ n ≤ INT_MAX

/-- The indices in brackets: one number, or two with a dash between them. -/
inductive Indices (number : List Char → ℕ → Prop) : List Char → ℕ → ℕ → Prop
  | one {t : List Char} {n : ℕ} : t ≠ [] → '-' ∉ t → ']' ∉ t → number t n →
      Indices number ('[' :: (t ++ [']'])) n n
  | two {t u : List Char} {n m : ℕ} : t ≠ [] → '-' ∉ t → ']' ∉ t → u ≠ [] → ']' ∉ u →
      number t n → number u m → Indices number ('[' :: (t ++ '-' :: (u ++ [']']))) n m

/-- The path that goes on to the elements from `f` to `t` of `a`. -/
def PathImpl.descend (p : PathImpl Ent Addr) (a : Addr) (f t : ℤ) : PathImpl Ent Addr :=
  p.pushBack ⟨a, f, t, p.getNelms * UInt32.ofInt (t - f + 1)⟩

/-- One component of a path: the way up, or a child with or without indices. The child has a number
of elements that is `counted`. -/
inductive Component (number : List Char → ℕ → Prop) (counted : ℕ → Prop) :
    PathImpl Ent Addr → List Char → PathImpl Ent Addr → Prop
  | up {p : PathImpl Ent Addr} : p.entries ≠ [] → Component number counted p ['.', '.'] p.up
  | whole {p : PathImpl Ent Addr} {a : Addr} : a ∈ H.children (p.tailEntry H) →
      counted (H.nelms a).toNat → Component number counted p (H.name (H.entry a))
        (p.descend a 0 ((H.nelms a).toNat - 1))
  | part {p : PathImpl Ent Addr} {a : Addr} {x : List Char} {f l : ℕ} :
      a ∈ H.children (p.tailEntry H) → counted (H.nelms a).toNat →
      Indices number x f l → f ≤ l → l < (H.nelms a).toNat →
      Component number counted p (H.name (H.entry a) ++ x) (p.descend a f l)

/-- What a step does for the one part after the other, from one path to another. -/
inductive Chain (step : PathImpl Ent Addr → List Char → PathImpl Ent Addr → Prop) :
    PathImpl Ent Addr → List (List Char) → PathImpl Ent Addr → Prop
  | nil {p : PathImpl Ent Addr} : Chain step p [] p
  | cons {p q r : PathImpl Ent Addr} {c : List Char} {cs : List (List Char)} :
      step p c q → Chain step q cs r → Chain step p (c :: cs) r

/-- The parts of a string between slashes. -/
def components (s : List Char) : List (List Char) := (s.splitOn '/').filter (· ≠ [])

/-- The grammar of paths: what the string `s` stands for at the path `p`. -/
def Denotes (p : PathImpl Ent Addr) (s : List Char) (q : PathImpl Ent Addr) : Prop :=
  Chain (Component H IsDecimal fun _ ↦ True) p (components s) q

/-- There are elements, and an `int` can count them. -/
def Countable (n : ℕ) : Prop := 0 < n ∧ n < 2 ^ 31

/-- The array of the child that the component `c` names is `Countable`, and the indices are the same
in base 10 as in the base that `strtoul` chooses, as far as the array has such elements. -/
def Plain (p : PathImpl Ent Addr) (c : List Char) : Prop :=
  ∀ a ∈ H.children (p.tailEntry H), ∀ x, c = H.name (H.entry a) ++ x →
    (x = [] → Countable (H.nelms a).toNat) ∧
    ∀ f l : ℕ, f ≤ l → l < (H.nelms a).toNat →
      (Indices IsDecimal x f l ↔ Indices IsNumber x f l ∧ Countable (H.nelms a).toNat)

variable {H} {p q : PathImpl Ent Addr} {s u v comp rest x : List Char} {c : Char} {i k n m : ℕ}
variable {step step' : PathImpl Ent Addr → List Char → PathImpl Ent Addr → Prop}
variable {cs ds : List (List Char)}

theorem descend_inj {a b : Addr} {f l f' l' : ℤ} (h : p.descend a f l = p.descend b f' l') :
    a = b ∧ f = f' ∧ l = l' := by
  simp only [descend, PathImpl.pushBack, PathImpl.mk.injEq, List.append_cancel_left_eq,
    List.cons.injEq, PathEntry.mk.injEq] at h
  exact ⟨h.2.1.1, h.2.1.2.1, h.2.1.2.2.1⟩

section Components

theorem components_slash : components ('/' :: s) = components s := by
  have h : ([] ++ '/' :: s).splitOn '/' = [] :: s.splitOn '/' :=
    List.splitOn_append_cons_self_of_not_mem List.not_mem_nil s
  rw [components, ← List.nil_append ('/' :: s), h]
  exact List.filter_cons_of_neg (by simp)

theorem components_dropWhile : components (s.dropWhile (· = '/')) = components s := by
  induction s with
  | nil => rfl
  | cons c s ih =>
    by_cases hc : c = '/'
    · rw [List.dropWhile_cons_of_pos (by simpa using hc), ih, hc, components_slash]
    · rw [List.dropWhile_cons_of_neg (by simpa using hc)]

/-- A part and what is left, which is nothing or starts with a slash. -/
theorem components_append (hc : comp ≠ []) (hslash : '/' ∉ comp)
    (hr : rest = [] ∨ ∃ t, rest = '/' :: t) :
    components (comp ++ rest) = comp :: components rest := by
  rcases hr with rfl | ⟨t, rfl⟩
  · rw [List.append_nil, components, List.splitOn_eq_singleton hslash]
    exact List.filter_cons_of_pos (by simpa using hc)
  · rw [components_slash, components, List.splitOn_append_cons_self_of_not_mem hslash]
    exact List.filter_cons_of_pos (by simpa using hc)

/-- The parts are what `components` gives of a string that they make up. -/
theorem components_flatMap (h : ∀ c ∈ cs, c ≠ [] ∧ '/' ∉ c) :
    components (cs.flatMap ('/' :: ·)) = cs := by
  induction cs with
  | nil => rfl
  | cons c cs ih =>
    obtain ⟨hc, hslash⟩ := h c List.mem_cons_self
    rw [List.flatMap_cons, List.cons_append, components_slash, components_append hc hslash,
      ih fun d hd ↦ h d (List.mem_cons_of_mem c hd)]
    cases cs with
    | nil => exact .inl rfl
    | cons d cs => exact .inr ⟨_, rfl⟩

/-- A string that has a part: slashes, the part, and the rest. -/
theorem components_split (hs : s.dropWhile (· = '/') ≠ []) :
    ∃ comp rest, s.dropWhile (· = '/') = comp ++ rest ∧ comp ≠ [] ∧ '/' ∉ comp ∧
      (rest = [] ∨ ∃ t, rest = '/' :: t) ∧ components s = comp :: components rest := by
  have happ := List.takeWhile_append_dropWhile (p := fun c : Char ↦ decide (c ≠ '/'))
    (l := s.dropWhile (· = '/'))
  have hslash : '/' ∉ (s.dropWhile (· = '/')).takeWhile (fun c ↦ decide (c ≠ '/')) := by
    intro h
    exact absurd (List.all_eq_true.1 List.all_takeWhile _ h) (by simp)
  have hne : (s.dropWhile (· = '/')).takeWhile (fun c ↦ decide (c ≠ '/')) ≠ [] := by
    obtain ⟨c, t, hct⟩ := List.exists_cons_of_ne_nil hs
    have hc := List.head?_dropWhile_not (fun c : Char ↦ decide (c = '/')) s
    rw [hct] at hc ⊢
    rw [List.takeWhile_cons_of_pos (by simpa using hc)]
    exact List.cons_ne_nil _ _
  have hrest : (s.dropWhile (· = '/')).dropWhile (fun c ↦ decide (c ≠ '/')) = [] ∨
      ∃ t, (s.dropWhile (· = '/')).dropWhile (fun c ↦ decide (c ≠ '/')) = '/' :: t := by
    have hc := List.head?_dropWhile_not (fun c : Char ↦ decide (c ≠ '/')) (s.dropWhile (· = '/'))
    cases hd : (s.dropWhile (· = '/')).dropWhile (fun c ↦ decide (c ≠ '/')) with
    | nil => exact .inl rfl
    | cons c t =>
      rw [hd] at hc
      exact .inr ⟨t, by simpa using hc⟩
  refine ⟨_, _, happ.symm, hne, hslash, hrest, ?_⟩
  rw [← components_dropWhile, ← components_append hne hslash hrest, happ]

/-- The parts of a string have characters, none of them a slash. -/
theorem components_ne_nil (hc : comp ∈ components s) : comp ≠ [] ∧ '/' ∉ comp := by
  induction hs : s.length using Nat.strongRecOn generalizing s with
  | ind n ih =>
    by_cases hd : s.dropWhile (· = '/') = []
    · rw [← components_dropWhile, hd] at hc
      exact absurd hc (by simp [components])
    · obtain ⟨comp', rest, hsplit, hne, hslash, -, hcomp⟩ := components_split hd
      rw [hcomp] at hc
      rcases List.mem_cons.1 hc with rfl | hc
      · exact ⟨hne, hslash⟩
      · refine ih rest.length ?_ hc rfl
        have hle := (List.dropWhile_suffix (fun c : Char ↦ decide (c = '/')) (l := s)).length_le
        rw [hsplit, List.length_append] at hle
        have hpos := List.length_pos_iff.2 hne
        omega

end Components

section Chains

theorem chain_append : Chain step p (cs ++ ds) q ↔ ∃ r, Chain step p cs r ∧ Chain step r ds q := by
  induction cs generalizing p with
  | nil =>
    refine ⟨fun h ↦ ⟨p, .nil, h⟩, fun ⟨r, h, h'⟩ ↦ ?_⟩
    cases h
    exact h'
  | cons c cs ih =>
    constructor
    · intro h
      cases h with
      | cons hc h =>
        obtain ⟨r, h, h'⟩ := ih.1 h
        exact ⟨r, .cons hc h, h'⟩
    · intro h
      obtain ⟨r, h, h'⟩ := h
      cases h with
      | cons hc h => exact .cons hc (ih.2 ⟨r, h, h'⟩)

theorem chain_singleton : Chain step p [comp] q ↔ step p comp q := by
  constructor
  · intro h
    cases h with
    | cons hc h =>
      cases h
      exact hc
  · exact fun h ↦ .cons h .nil

theorem Chain.unique (hstep : ∀ p c q r, step p c q → step p c r → q = r) {r : PathImpl Ent Addr}
    (h : Chain step p cs q) (h' : Chain step p cs r) : q = r := by
  induction h with
  | nil =>
    cases h'
    rfl
  | cons hc _ ih =>
    cases h' with
    | cons hc' h' => exact ih (hstep _ _ _ _ hc hc' ▸ h')

/-- Two functions do the same along each first part of a list exactly if they do the same wherever
one of them gets to. -/
theorem chain_iff_chain (hstep : ∀ p c q r, step p c q → step p c r → q = r) :
    (∀ ds, ds <+: cs → ∀ q, Chain step p ds q ↔ Chain step' p ds q) ↔
      ∀ ds c r, ds ++ [c] <+: cs → Chain step' p ds r → ∀ q, step r c q ↔ step' r c q := by
  constructor
  · intro h ds c r hds hr q
    have hr' := (h ds ((List.prefix_append ds [c]).trans hds) r).2 hr
    have hq := h (ds ++ [c]) hds q
    rw [chain_append, chain_append] at hq
    constructor
    · intro hstep'
      obtain ⟨r', hr'', hlast⟩ := hq.1 ⟨r, hr', chain_singleton.2 hstep'⟩
      have heq := ((h ds ((List.prefix_append ds [c]).trans hds) r').2 hr'').unique hstep hr'
      exact chain_singleton.1 (heq ▸ hlast)
    · intro hstep'
      obtain ⟨r', hr'', hlast⟩ := hq.2 ⟨r, hr, chain_singleton.2 hstep'⟩
      exact chain_singleton.1 (hr''.unique hstep hr' ▸ hlast)
  · intro h ds hds
    induction ds using List.reverseRecOn with
    | nil =>
      intro q
      constructor <;> intro hq <;> cases hq <;> exact .nil
    | append_singleton ds c ih =>
      intro q
      have ih := ih ((List.prefix_append ds [c]).trans hds)
      rw [chain_append, chain_append]
      constructor
      · intro hq
        obtain ⟨r, hr, hlast⟩ := hq
        have hr := (ih r).1 hr
        exact ⟨r, hr, chain_singleton.2 ((h ds c r hds hr q).1 (chain_singleton.1 hlast))⟩
      · intro hq
        obtain ⟨r, hr, hlast⟩ := hq
        exact ⟨r, (ih r).2 hr, chain_singleton.2 ((h ds c r hds hr q).2 (chain_singleton.1 hlast))⟩

end Chains

end Cpsw.Path
