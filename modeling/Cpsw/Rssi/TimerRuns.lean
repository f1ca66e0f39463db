import Cpsw.Rssi.Timer
import Cpsw.Rssi.TimerCells
import Mathlib.Data.Prod.Lex

namespace Cpsw.Rssi.Timers

open Cpsw.Lib

variable {T E : Type} [DecidableEq T]
variable {h h' : Heap T E} {l l₁ l₂ : List (T × E)} {t : T} {exp : E} {el : Ptr T}
variable {pre : List (Option (Ptr T))}

/-- The pointer to a timer of the list. -/
def cellOf (x : T × E) : Option (Ptr T) := some (.timer x.1)

omit [DecidableEq T] in
/-- A list of timers ends in a cell, the head of the list if there is no timer. -/
theorem exists_last (l : List (T × E)) :
    ∃ pre el, (some .lh :: l.map cellOf : List (Option (Ptr T))) = pre ++ [some el] := by
  induction l using List.reverseRecOn with
  | nil => exact ⟨[], .lh, rfl⟩
  | append_singleton l x =>
    refine ⟨some .lh :: l.map cellOf, .timer x.1, ?_⟩
    rw [List.map_append]
    rfl

omit [DecidableEq T] in
theorem exists_first (l : List (T × E)) :
    ∃ b post, l.map cellOf ++ [none] = b :: post ∧ b ≠ some .lh := by
  cases l with
  | nil => exact ⟨none, [], rfl, nofun⟩
  | cons x l => exact ⟨cellOf x, l.map cellOf ++ [none], rfl, nofun⟩

omit [DecidableEq T] in
theorem cells_append (hpre : some .lh :: l₁.map cellOf = pre ++ [some el]) :
    cells (l₁ ++ l₂) = pre ++ some el :: (l₂.map cellOf ++ [none]) := by
  have hcells : cells (l₁ ++ l₂) = some .lh :: (l₁ ++ l₂).map cellOf ++ [none] := rfl
  rw [hcells, List.map_append, ← List.cons_append, hpre]
  simp only [List.append_assoc, List.cons_append, List.nil_append]

omit [DecidableEq T] in
/-- A cell that is not in the list. -/
theorem not_mem_cells (ht : ∀ x ∈ l, x.1 ≠ t) : some (.timer t) ∉ cells l := by
  intro hmem
  rcases List.mem_append.1 hmem with hmem | hmem
  · rcases List.mem_cons.1 hmem with he | hmem
    · cases he
    · obtain ⟨x, hx, he⟩ := List.mem_map.1 hmem
      cases he
      exact ht x hx rfl
  · cases List.mem_singleton.1 hmem

omit [DecidableEq T] in
theorem holds_nil (h : Heap T E) (hn : ∀ p, (h p).next = none) (hp : ∀ p, (h p).prev = none) :
    Holds h [] where
  linked := by
    refine ⟨some .lh, ?_, List.nodup_cons.2 ⟨by simp, List.nodup_singleton _⟩⟩
    exact List.isChain_pair.2 ⟨congrArg some (hn .lh), rfl⟩
  head := hp _
  exp := nofun
  rest t _ := ⟨hn _, hp _⟩

/-- Linking a timer behind a cell of the list. -/
theorem Holds.addAfter (hh : Holds h (l₁ ++ l₂)) (ht : ∀ x ∈ l₁ ++ l₂, x.1 ≠ t)
    (hpre : some .lh :: l₁.map cellOf = pre ++ [some el]) (exp : E) :
    Holds ((h.addAfter (.timer t) el).setExp (.timer t) exp) (l₁ ++ (t, exp) :: l₂) := by
  obtain ⟨last, hl⟩ := hh.linked
  obtain ⟨b, post, hpost, hlh⟩ := exists_first l₂
  have hnot := not_mem_cells ht
  rw [cells_append hpre, hpost] at hl hnot
  have hnext : (h el).next = b := Option.some.inj hl.adj.1
  have hme : Ptr.timer t ≠ el := by
    rintro rfl
    exact hnot (List.mem_append_right _ List.mem_cons_self)
  have hbt : b ≠ some (.timer t) := by
    rintro rfl
    exact hnot (List.mem_append_right _ (List.mem_cons_of_mem _ List.mem_cons_self))
  have hbe : b ≠ some el := by
    rintro rfl
    have hnd := (List.nodup_append.1 hl.nodup).2.1
    exact (List.nodup_cons.1 hnd).1 List.mem_cons_self
  rw [← hnext] at hbt hbe hlh
  obtain ⟨last', hlinks⟩ := links_addAfter last hme hbt hbe
  have hins := hl.insert hnot
  rw [← hnext, ← hlinks] at hins
  rw [hnext] at hins
  have hsetExp : ((h.addAfter (.timer t) el).setExp (.timer t) exp).links last' =
      (h.addAfter (.timer t) el).links last' := links_setExp
  have hcell : ∀ q, q ≠ .timer t → ((h.addAfter (.timer t) el).setExp (.timer t) exp) q =
      if q = el then { h el with next := some (.timer t) }
      else if (h el).next = some q then { h q with prev := some (.timer t) } else h q := by
    intro q hq
    rw [setExp_apply, if_neg hq, addAfter_apply hme hbt hbe, if_neg hq]
  refine ⟨⟨last', ?_⟩, ?_, ?_, ?_⟩
  · rw [hsetExp, cells_append hpre]
    change Links.Linked _ (pre ++ some el :: some (.timer t) :: (l₂.map cellOf ++ [none]))
    rw [hpost]
    exact hins
  · rw [hcell .lh nofun]
    split
    case isTrue he => rw [← he]; exact hh.head
    case isFalse => exact hh.head
  · intro x hx
    have hold : ∀ x ∈ l₁ ++ l₂, (((h.addAfter (.timer t) el).setExp (.timer t) exp)
        (.timer x.1)).exp = x.2 := by
      intro x hx
      rw [hcell (.timer x.1) fun he ↦ ht x hx (Ptr.timer.inj he), ← hh.exp x hx]
      split
      case isTrue he => rw [he]
      case isFalse => split <;> rfl
    rcases List.mem_append.1 hx with hx | hx
    · exact hold x (List.mem_append_left _ hx)
    rcases List.mem_cons.1 hx with rfl | hx
    · rw [setExp_apply, if_pos rfl]
    · exact hold x (List.mem_append_right _ hx)
  · intro u hu
    have hut : Ptr.timer u ≠ .timer t := by
      rintro ⟨⟩
      exact hu (t, exp) (List.mem_append_right _ List.mem_cons_self) rfl
    have hu' : ∀ x ∈ l₁ ++ l₂, x.1 ≠ u := by
      intro x hx
      rcases List.mem_append.1 hx with hx | hx
      · exact hu x (List.mem_append_left _ hx)
      · exact hu x (List.mem_append_right _ (List.mem_cons_of_mem _ hx))
    have hnu := not_mem_cells hu'
    rw [cells_append hpre, hpost] at hnu
    rw [hcell _ hut, if_neg, if_neg]
    · exact hh.rest u hu'
    · rintro he
      rw [hnext] at he
      rw [he] at hnu
      exact hnu (List.mem_append_right _ (List.mem_cons_of_mem _ List.mem_cons_self))
    · rintro rfl
      exact hnu (List.mem_append_right _ List.mem_cons_self)

/-- Taking a timer out of the list. -/
theorem Holds.cancel_mem (hh : Holds h (l₁ ++ (t, exp) :: l₂)) :
    Holds (h.cancel (.timer t)) (l₁ ++ l₂) := by
  obtain ⟨last, hl⟩ := hh.linked
  obtain ⟨pre, el, hpre⟩ := exists_last l₁
  obtain ⟨b, post, hpost, hlh⟩ := exists_first l₂
  have hcells : cells (l₁ ++ (t, exp) :: l₂) = pre ++ some el :: some (.timer t) :: b :: post := by
    rw [cells_append hpre, ← hpost]
    rfl
  rw [hcells] at hl
  have hprev : (h (.timer t)).prev = some el := by
    obtain ⟨p, hp, he⟩ := Option.map_eq_some_iff.1 hl.adj.2
    rw [hp, he]
  have hl' : (h.links last).Linked ((pre ++ [some el]) ++ some (.timer t) :: b :: post) := by
    rw [List.append_assoc]
    exact hl
  have hnext : (h (.timer t)).next = b := Option.some.inj hl'.adj.1
  obtain ⟨-, ht, -, hb⟩ := Links.neighbours hl.nodup
  have hnot : some (.timer t) ∉ b :: post := (Links.neighbours hl.nodup).2.2.2
  have hme : el ≠ .timer t := by
    rintro rfl
    exact ht (List.mem_append_right _ List.mem_cons_self)
  have hbt : b ≠ some (.timer t) := by
    rintro rfl
    exact hnot List.mem_cons_self
  have hbe : b ≠ some el := by
    rintro rfl
    exact (Links.neighbours hl.nodup).2.2.1 (List.mem_cons_of_mem _ List.mem_cons_self)
  rw [← hnext] at hbt hbe hlh
  obtain ⟨last', hlinks⟩ := links_cancel last hprev hme hbt hbe
  have hby := hl.bypass
  rw [← hnext] at hby
  have hother : ∀ q ∈ pre ++ some el :: b :: post, q ≠ some (.timer t) := by
    rintro q hq rfl
    rw [List.append_cons] at hq
    rcases List.mem_append.1 hq with hq | hq
    · exact ht hq
    · exact hnot hq
  have hnew : ((h.cancel (.timer t)).links last').Linked (pre ++ some el :: b :: post) := by
    rw [hnext] at hby hlinks
    exact hby.frame (fun q hq ↦ (hlinks q (hother q hq)).1) fun q hq ↦ (hlinks q (hother q hq)).2
  have hcell : ∀ q, q ≠ .timer t → h.cancel (.timer t) q =
      if q = el then { h el with next := (h (.timer t)).next }
      else if (h (.timer t)).next = some q then { h q with prev := some el } else h q :=
    fun q hq ↦ (cancel_apply hprev hme hbt hbe).trans (if_neg hq)
  have hmem : ∀ x ∈ l₁ ++ l₂, x ∈ l₁ ++ (t, exp) :: l₂ ∧ Ptr.timer x.1 ≠ .timer t := by
    intro x hx
    have hcell : some (.timer x.1) ∈ pre ++ some el :: b :: post := by
      rw [← hpost, ← cells_append hpre]
      exact List.mem_append_left _ (List.mem_cons_of_mem _ (List.mem_map_of_mem hx))
    refine ⟨?_, fun he ↦ hother _ hcell (congrArg some he)⟩
    rcases List.mem_append.1 hx with hx | hx
    · exact List.mem_append_left _ hx
    · exact List.mem_append_right _ (List.mem_cons_of_mem _ hx)
  refine ⟨⟨last', ?_⟩, ?_, ?_, ?_⟩
  · rw [cells_append hpre, hpost]
    exact hnew
  · rw [hcell .lh nofun]
    split
    case isTrue he => rw [← he]; exact hh.head
    case isFalse => exact hh.head
  · intro x hx
    obtain ⟨hx', hne⟩ := hmem x hx
    rw [hcell _ hne, ← hh.exp x hx']
    split
    case isTrue he => rw [he]
    case isFalse => split <;> rfl
  · intro u hu
    by_cases hut : u = t
    · subst hut
      rw [cancel_apply hprev hme hbt hbe, if_pos rfl]
      exact ⟨rfl, rfl⟩
    · have hne : Ptr.timer u ≠ .timer t := fun he ↦ hut (Ptr.timer.inj he)
      have hnu := not_mem_cells hu
      rw [cells_append hpre, hpost] at hnu
      rw [hcell _ hne, if_neg, if_neg]
      · apply hh.rest u
        intro x hx he
        rcases List.mem_append.1 hx with hx | hx
        · exact hu x (List.mem_append_left _ hx) he
        rcases List.mem_cons.1 hx with rfl | hx
        · exact hut he.symm
        · exact hu x (List.mem_append_right _ hx) he
      · rintro he
        rw [hnext] at he
        rw [he] at hnu
        exact hnu (List.mem_append_right _ (List.mem_cons_of_mem _ List.mem_cons_self))
      · rintro rfl
        exact hnu (List.mem_append_right _ List.mem_cons_self)

omit [DecidableEq T] in
/-- No timer is in the list twice. -/
theorem Holds.nodup (hh : Holds h l) : (l.map Prod.fst).Nodup := by
  obtain ⟨last, hl⟩ := hh.linked
  have hnd := (List.nodup_cons.1 (List.nodup_append.1 hl.nodup).1).2
  have hmap : l.map (fun x ↦ some (Ptr.timer x.1)) = (l.map Prod.fst).map (some ∘ Ptr.timer) := by
    rw [List.map_map]
    rfl
  rw [hmap] at hnd
  exact hnd.of_map _

theorem Holds.cancel (hh : Holds h l) (t : T) :
    Holds (h.cancel (.timer t)) (l.filter (·.1 ≠ t)) := by
  by_cases hmem : ∃ x ∈ l, x.1 = t
  · obtain ⟨⟨u, exp⟩, hx, rfl⟩ := hmem
    obtain ⟨l₁, l₂, rfl⟩ := List.append_of_mem hx
    have hnd := hh.nodup
    rw [List.map_append, List.map_cons] at hnd
    obtain ⟨-, hnd₂, hdis⟩ := List.nodup_append.1 hnd
    have h₁ : l₁.filter (·.1 ≠ u) = l₁ := by
      apply List.filter_eq_self.2
      intro x hx
      exact decide_eq_true (hdis x.1 (List.mem_map_of_mem hx) _ List.mem_cons_self)
    have h₂ : l₂.filter (·.1 ≠ u) = l₂ := by
      apply List.filter_eq_self.2
      intro x hx
      apply decide_eq_true
      exact ne_of_mem_of_not_mem (List.mem_map_of_mem hx) (List.nodup_cons.1 hnd₂).1
    rw [List.filter_append, List.filter_cons_of_neg (by simp), h₁, h₂]
    exact hh.cancel_mem
  · push Not at hmem
    obtain ⟨hn, hp⟩ := hh.rest t hmem
    rw [cancel_of_unlinked hn hp, List.filter_eq_self.2 fun x hx ↦ decide_eq_true (hmem x hx)]
    exact hh

section Arm

variable [LinearOrder E]

/-- Where `arm_abs` puts a timer: behind those that do not expire later. -/
def place (t : T) (exp : E) : List (T × E) → List (T × E)
  | [] => [(t, exp)]
  | x :: l => if exp < x.2 then (t, exp) :: x :: l else x :: place t exp l

omit [DecidableEq T] in
theorem place_perm (t : T) (exp : E) (l : List (T × E)) : (place t exp l).Perm ((t, exp) :: l) := by
  induction l with
  | nil => exact .refl _
  | cons x l ih =>
    rw [place]
    split
    · exact .refl _
    · exact (ih.cons x).trans (.swap ..)

omit [DecidableEq T] in
theorem place_sorted (t : T) (exp : E) (hs : l.Pairwise (·.2 ≤ ·.2)) :
    (place t exp l).Pairwise (·.2 ≤ ·.2) := by
  induction l with
  | nil => exact List.pairwise_singleton _ _
  | cons x l ih =>
    obtain ⟨hx, hl⟩ := List.pairwise_cons.1 hs
    rw [place]
    split
    case isTrue hlt =>
      apply List.pairwise_cons.2 ⟨_, hs⟩
      intro y hy
      rcases List.mem_cons.1 hy with rfl | hy
      · exact hlt.le
      · exact hlt.le.trans (hx y hy)
    case isFalse hlt =>
      apply List.pairwise_cons.2 ⟨_, ih hl⟩
      intro y hy
      rcases List.mem_cons.1 ((place_perm t exp l).mem_iff.1 hy) with rfl | hy
      · exact not_lt.1 hlt
      · exact hx y hy

/-- The loop comes to an end, having linked the timer at its place. -/
theorem Holds.armLoop {fuel : ℕ} (hh : Holds h (l₁ ++ l₂)) (ht : ∀ x ∈ l₁ ++ l₂, x.1 ≠ t)
    (hpre : some .lh :: l₁.map cellOf = pre ++ [some el]) (hf : l₂.length < fuel) (exp : E) :
    ∃ h', h.armLoop fuel (.timer t) exp (some el) = some h' ∧ Holds h' (l₁ ++ place t exp l₂) := by
  induction l₂ generalizing l₁ pre el fuel with
  | nil =>
    obtain ⟨fuel, rfl⟩ := Nat.exists_eq_succ_of_ne_zero hf.ne'
    obtain ⟨last, hl⟩ := hh.linked
    rw [cells_append hpre] at hl
    have hnext : (h el).next = none := Option.some.inj hl.adj.1
    refine ⟨_, ?_, hh.addAfter ht hpre exp⟩
    rw [Heap.armLoop, hnext]
  | cons x l₂ ih =>
    obtain ⟨fuel, rfl⟩ := Nat.exists_eq_succ_of_ne_zero (Nat.zero_lt_of_lt hf).ne'
    obtain ⟨last, hl⟩ := hh.linked
    rw [cells_append hpre, List.map_cons, List.cons_append] at hl
    have hnext : (h el).next = some (.timer x.1) := Option.some.inj hl.adj.1
    have hexp := hh.exp x (List.mem_append_right _ List.mem_cons_self)
    rw [Heap.armLoop, hnext]
    dsimp only
    rw [hexp, place]
    split
    · exact ⟨_, rfl, hh.addAfter ht hpre exp⟩
    · have hmove : l₁ ++ x :: l₂ = (l₁ ++ [x]) ++ l₂ := List.append_cons ..
      rw [hmove] at hh ht
      have hpre' : some .lh :: (l₁ ++ [x]).map cellOf =
          (some .lh :: l₁.map cellOf) ++ [some (.timer x.1)] := by
        rw [List.map_append]
        rfl
      obtain ⟨h', hx, hh'⟩ := ih hh ht hpre' (Nat.lt_of_succ_lt_succ hf)
      rw [← List.append_cons] at hh'
      exact ⟨h', hx, hh'⟩

theorem Holds.armAbs {fuel : ℕ} (hh : Holds h l) (hf : l.length < fuel) (t : T) (exp : E) :
    ∃ h', h.armAbs fuel (.timer t) exp = some h' ∧
      Holds h' (place t exp (l.filter (·.1 ≠ t))) := by
  have hc := hh.cancel t
  have ht : ∀ x ∈ l.filter (·.1 ≠ t), x.1 ≠ t := fun x hx ↦ of_decide_eq_true (List.mem_filter.1 hx).2
  have hlen := (List.length_filter_le (fun x : T × E ↦ decide (x.1 ≠ t)) l).trans_lt hf
  have hpre : (some .lh :: ([] : List (T × E)).map cellOf) = [] ++ [some (.lh : Ptr T)] := rfl
  exact Holds.armLoop hc ht hpre hlen exp

end Arm

/-- `CTimeout` -/
structure CTimeout where
  sec : ℤ
  nsec : ℤ
  deriving DecidableEq, Repr

namespace CTimeout

/-- The earlier one is the less one: the seconds first. -/
instance : LinearOrder CTimeout :=
  .lift' (fun c ↦ toLex (c.sec, c.nsec)) fun a b h ↦ by
    obtain ⟨h₁, h₂⟩ := Prod.mk.inj (toLex.injective h)
    cases a
    cases b
    exact congrArg₂ mk h₁ h₂

/-- `operator <` -/
theorem lt_iff {a b : CTimeout} : a < b ↔ a.sec < b.sec ∨ a.sec = b.sec ∧ a.nsec < b.nsec :=
  Prod.Lex.toLex_lt_toLex

def isIndefinite (c : CTimeout) : Bool := c.sec = -1

/-- `operator +=` -/
def add (c rhs : CTimeout) : CTimeout :=
  if c.isIndefinite then c
  else if rhs.isIndefinite then rhs
  else
    let sec := c.sec + rhs.sec
    let nsec := c.nsec + rhs.nsec
    if nsec ≥ 1000000000 then ⟨sec + 1, nsec - 1000000000⟩ else ⟨sec, nsec⟩

end CTimeout

inductive Call (T : Type)
  | armAbs (t : T) (exp : CTimeout)
  /-- `now` is what the clock says; `none` where it cannot be read. -/
  | armRel (t : T) (now : Option CTimeout) (exp : CTimeout)
  | cancel (t : T)

namespace Call

/-- `arm_rel` throws before it has changed anything. -/
def run (fuel : ℕ) (h : Heap T CTimeout) : Call T → Option (Heap T CTimeout)
  | armAbs t exp => h.armAbs fuel (.timer t) exp
  | armRel t (some now) exp => h.armAbs fuel (.timer t) (now.add exp)
  | armRel _ none _ => some h
  | cancel t => some (h.cancel (.timer t))

/-- The calls to be made: which timers are armed, and until when. -/
def arms (armed : T → Option CTimeout) : Call T → T → Option CTimeout
  | armAbs t exp => Function.update armed t (some exp)
  | armRel t (some now) exp => Function.update armed t (some (now.add exp))
  | armRel _ none _ => armed
  | cancel t => Function.update armed t none

end Call

/-- `RssiTimerList` and timers that nothing has been done with. -/
def Heap.init : Heap T CTimeout := fun _ ↦ ⟨none, none, ⟨0, 0⟩⟩

variable {armed : T → Option CTimeout}

/-- The list holds the armed timers, each once, the first to expire first. -/
structure Lists (h : Heap T CTimeout) (armed : T → Option CTimeout) (l : List (T × CTimeout)) :
    Prop where
  holds : Holds h l
  nodup : (l.map Prod.fst).Nodup
  sorted : l.Pairwise (·.2 ≤ ·.2)
  mem : ∀ t exp, (t, exp) ∈ l ↔ armed t = some exp

theorem Lists.cancel {l : List (T × CTimeout)} {h : Heap T CTimeout} (hl : Lists h armed l) (t : T) :
    Lists (h.cancel (.timer t)) (Function.update armed t none) (l.filter (·.1 ≠ t)) where
  holds := hl.holds.cancel t
  nodup := (hl.holds.cancel t).nodup
  sorted := hl.sorted.filter _
  mem u exp := by
    rw [List.mem_filter, hl.mem]
    by_cases hu : u = t
    · simp [hu]
    · simp [hu]

theorem Lists.armAbs {l : List (T × CTimeout)} {h : Heap T CTimeout} {fuel : ℕ}
    (hl : Lists h armed l) (hf : l.length < fuel) (t : T) (exp : CTimeout) :
    ∃ h' l', h.armAbs fuel (.timer t) exp = some h' ∧
      Lists h' (Function.update armed t (some exp)) l' ∧ l'.length ≤ l.length + 1 := by
  obtain ⟨h', hx, hh⟩ := hl.holds.armAbs hf t exp
  have hperm := place_perm t exp (l.filter (·.1 ≠ t))
  refine ⟨h', _, hx, ⟨hh, hh.nodup, place_sorted t exp (hl.sorted.filter _), fun u e ↦ ?_⟩, ?_⟩
  · rw [hperm.mem_iff, List.mem_cons, List.mem_filter, hl.mem]
    by_cases hu : u = t
    · simp [hu, eq_comm]
    · simp [hu]
  · rw [hperm.length_eq, List.length_cons]
    exact Nat.succ_le_succ (List.length_filter_le ..)

/-- One call; it lengthens the list by no more than one timer. -/
theorem Lists.run {l : List (T × CTimeout)} {h : Heap T CTimeout} {fuel : ℕ}
    (hl : Lists h armed l) (hf : l.length < fuel) (c : Call T) :
    ∃ h' l', c.run fuel h = some h' ∧ Lists h' (c.arms armed) l' ∧ l'.length ≤ l.length + 1 := by
  match c with
  | .armAbs t exp => exact hl.armAbs hf t exp
  | .armRel t (some now) exp => exact hl.armAbs hf t (now.add exp)
  | .armRel _ none _ => exact ⟨h, l, rfl, hl, Nat.le_succ _⟩
  | .cancel t =>
    exact ⟨_, _, rfl, hl.cancel t, (List.length_filter_le ..).trans (Nat.le_succ _)⟩

/-- A sequence of calls, none of which is given up. -/
theorem Lists.runs (calls : List (Call T)) {l : List (T × CTimeout)} {h : Heap T CTimeout} {fuel : ℕ}
    (hl : Lists h armed l) (hf : l.length + calls.length < fuel) :
    ∃ h' l', calls.foldlM (Call.run fuel) h = some h' ∧ Lists h' (calls.foldl Call.arms armed) l' := by
  induction calls generalizing l h armed with
  | nil => exact ⟨h, l, rfl, hl⟩
  | cons c calls ih =>
    rw [List.length_cons] at hf
    have hf₁ : l.length < fuel := by omega
    obtain ⟨h₁, l₁, hx, hl₁, hlen⟩ := hl.run hf₁ c
    obtain ⟨h', l', hx', hl'⟩ := ih hl₁ (by omega)
    refine ⟨h', l', ?_, hl'⟩
    rw [List.foldlM_cons, hx]
    exact hx'

/-- A timer with the least expiry, or none where no timer is armed. -/
def ExpiresFirst (armed : T → Option CTimeout) : Option (Ptr T) → Prop
  | none => ∀ t, armed t = none
  | some p => ∃ t exp, p = .timer t ∧ armed t = some exp ∧ ∀ u e, armed u = some e → exp ≤ e

omit [DecidableEq T] in
/-- The first of the list expires first. -/
theorem Lists.first {l : List (T × CTimeout)} {h : Heap T CTimeout} (hl : Lists h armed l) :
    ExpiresFirst armed h.getFirstToExpire := by
  obtain ⟨last, hlk⟩ := hl.holds.linked
  cases l with
  | nil =>
    have hnext : (h .lh).next = none := Option.some.inj (List.isChain_cons_cons.1 hlk.chain).1.1
    rw [Heap.getFirstToExpire, hnext]
    intro t
    cases ht : armed t with
    | none => rfl
    | some exp => cases (hl.mem t exp).2 ht
  | cons x l =>
    have hnext : (h .lh).next = some (.timer x.1) :=
      Option.some.inj (List.isChain_cons_cons.1 hlk.chain).1.1
    rw [Heap.getFirstToExpire, hnext]
    refine ⟨x.1, x.2, rfl, (hl.mem _ _).1 List.mem_cons_self, fun u e hu ↦ ?_⟩
    rcases List.mem_cons.1 ((hl.mem u e).2 hu) with rfl | hmem
    · exact le_rfl
    · exact (List.pairwise_cons.1 hl.sorted).1 _ hmem

/-- `isArmed` says which timers are in the list. -/
theorem Lists.isArmed {l : List (T × CTimeout)} {h : Heap T CTimeout} (hl : Lists h armed l) (t : T) :
    h.isArmed (.timer t) = (armed t).isSome := by
  rw [Heap.isArmed]
  by_cases hmem : ∃ x ∈ l, x.1 = t
  · obtain ⟨⟨_, exp⟩, hx, rfl⟩ := hmem
    obtain ⟨l₁, l₂, rfl⟩ := List.append_of_mem hx
    obtain ⟨last, hlk⟩ := hl.holds.linked
    obtain ⟨pre, el, hpre⟩ := exists_last l₁
    rw [cells_append hpre, List.map_cons] at hlk
    obtain ⟨p, hp, -⟩ := Option.map_eq_some_iff.1 hlk.adj.2
    rw [(hl.mem _ _).1 hx, hp]
    rfl
  · push Not at hmem
    have hnone : armed t = none := by
      cases ht : armed t with
      | none => rfl
      | some exp => exact absurd rfl (hmem _ ((hl.mem t exp).2 ht))
    rw [(hl.holds.rest t hmem).2, hnone]
    rfl

/-- After any calls the list is in order, and its first timer is one that expires first. -/
theorem timers_in_order (fuel : ℕ) (calls : List (Call T)) (hf : calls.length < fuel) :
    ∃ h l, calls.foldlM (Call.run fuel) Heap.init = some h ∧
      Lists h (calls.foldl Call.arms fun _ ↦ none) l ∧
      (∀ t, h.isArmed (.timer t) = (calls.foldl Call.arms (fun _ ↦ none) t).isSome) ∧
      ExpiresFirst (calls.foldl Call.arms fun _ ↦ none) h.getFirstToExpire := by
  have hinit : Lists (Heap.init (T := T)) (fun _ ↦ none) [] :=
    ⟨holds_nil _ (fun _ ↦ rfl) fun _ ↦ rfl, .nil, .nil, fun _ _ ↦ iff_of_false nofun nofun⟩
  have hf' : ([] : List (T × CTimeout)).length + calls.length < fuel := by
    rwa [List.length_nil, Nat.zero_add]
  obtain ⟨h, l, hx, hl⟩ := hinit.runs calls hf'
  exact ⟨h, l, hx, hl, hl.isArmed, hl.first⟩

/-- Two of the timers are armed, the later one first; one of them is cancelled. -/
def sampleCalls : List (Call RssiTimer) := [.armAbs .NUL ⟨5, 0⟩, .armAbs .ACK ⟨3, 7⟩, .cancel .NUL]

theorem timers_in_order_sample : ∃ h l, sampleCalls.foldlM (Call.run 4) Heap.init = some h ∧
    Lists h (sampleCalls.foldl Call.arms fun _ ↦ none) l ∧
    (∀ t, h.isArmed (.timer t) = (sampleCalls.foldl Call.arms (fun _ ↦ none) t).isSome) ∧
    ExpiresFirst (sampleCalls.foldl Call.arms fun _ ↦ none) h.getFirstToExpire :=
  timers_in_order 4 sampleCalls (by decide)

theorem addAfter_eq_place (t : RssiTimer) (exp : ℕ) (l : RssiTimerList) :
    l.addAfter t exp = place t exp l := by
  induction l with
  | nil => rfl
  | cons x l ih => rw [RssiTimerList.addAfter, place, ih]

/-- The list of timers that the connection is modelled with is the one that the cells hold. -/
theorem Holds.rssiTimerList {h : Heap RssiTimer ℕ} {l : RssiTimerList} {fuel : ℕ} (hh : Holds h l)
    (hf : l.length < fuel) (t : RssiTimer) (exp : ℕ) :
    Holds (h.cancel (.timer t)) (l.cancel t) ∧
      ∃ h', h.armAbs fuel (.timer t) exp = some h' ∧ Holds h' (l.armAbs t exp) := by
  refine ⟨hh.cancel t, ?_⟩
  rw [RssiTimerList.armAbs, addAfter_eq_place]
  exact hh.armAbs hf t exp

end Cpsw.Rssi.Timers
