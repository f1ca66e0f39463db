import Cpsw.Lib.Links
import Mathlib

namespace Cpsw.Rssi.Timers

open Cpsw.Lib

/-- A pointer to the head of the list or to a timer. -/
inductive Ptr (T : Type)
  | lh
  | timer (t : T)
  deriving DecidableEq, Repr

/-- The members of a `RssiTimer`. -/
structure Cell (T E : Type) where
  next : Option (Ptr T)
  prev : Option (Ptr T)
  exp : E

abbrev Heap (T E : Type) := Ptr T → Cell T E

variable {T E : Type} [DecidableEq T]

namespace Heap

def setNext (h : Heap T E) (p : Ptr T) (q : Option (Ptr T)) : Heap T E :=
  Function.update h p { h p with next := q }

def setPrev (h : Heap T E) (p : Ptr T) (q : Option (Ptr T)) : Heap T E :=
  Function.update h p { h p with prev := q }

def setExp (h : Heap T E) (p : Ptr T) (exp : E) : Heap T E :=
  Function.update h p { h p with exp }

/-- `next_->prev_ = prev`, where there is a next one. -/
def setPrevOf (h : Heap T E) (next prev : Option (Ptr T)) : Heap T E :=
  match next with
  | some n => h.setPrev n prev
  | none => h

def setNextOf (h : Heap T E) (prev next : Option (Ptr T)) : Heap T E :=
  match prev with
  | some p => h.setNext p next
  | none => h

def addAfter (h : Heap T E) (me el : Ptr T) : Heap T E :=
  let h := h.setNext me (h el).next
  let h := h.setPrevOf (h me).next (some me)
  let h := h.setNext el (some me)
  h.setPrev me (some el)

def cancel (h : Heap T E) (me : Ptr T) : Heap T E :=
  let h := h.setPrevOf (h me).next (h me).prev
  let h := h.setNextOf (h me).prev (h me).next
  (h.setNext me none).setPrev me none

/-- The loop of `arm_abs`, from the element `el` on; it is given up when the fuel runs out. -/
def armLoop [LinearOrder E] : ℕ → Heap T E → Ptr T → E → Option (Ptr T) → Option (Heap T E)
  | 0, _, _, _, _ => none
  | _ + 1, h, _, _, none => some h
  | fuel + 1, h, me, exp, some el =>
    match (h el).next with
    | none => some ((h.addAfter me el).setExp me exp)
    | some n =>
      if exp < (h n).exp then some ((h.addAfter me el).setExp me exp)
      else armLoop fuel h me exp (some n)

def armAbs [LinearOrder E] (fuel : ℕ) (h : Heap T E) (me : Ptr T) (exp : E) :
    Option (Heap T E) := armLoop fuel (h.cancel me) me exp (some .lh)

def isArmed (h : Heap T E) (p : Ptr T) : Bool := (h p).prev.isSome

def getFirstToExpire (h : Heap T E) : Option (Ptr T) := (h .lh).next

/-- The pointers of all cells; the null pointer at the end of the list is taken for a cell whose
predecessor is `last`. -/
def links (h : Heap T E) (last : Option (Ptr T)) : Links (Option (Ptr T)) where
  next p := p.map fun p ↦ (h p).next
  prev p := match p with
    | some p => (h p).prev.map some
    | none => some last

end Heap

section Links

variable {h : Heap T E} {me el n p q : Ptr T} {o : Option (Ptr T)} {last : Option (Ptr T)}

theorem setNext_apply : h.setNext p o q = if q = p then { h p with next := o } else h q :=
  Function.update_apply ..

theorem setPrev_apply : h.setPrev p o q = if q = p then { h p with prev := o } else h q :=
  Function.update_apply ..

theorem setExp_apply {exp : E} : h.setExp p exp q = if q = p then { h p with exp } else h q :=
  Function.update_apply ..

theorem links_setExp {exp : E} : (h.setExp p exp).links last = h.links last := by
  have hsame : ∀ q, (h.setExp p exp q).next = (h q).next ∧ (h.setExp p exp q).prev = (h q).prev := by
    intro q
    rw [setExp_apply]
    split
    case isTrue hq => exact hq ▸ ⟨rfl, rfl⟩
    case isFalse => exact ⟨rfl, rfl⟩
  unfold Heap.links
  simp only [hsame]

theorem setPrevOf_apply {prev : Option (Ptr T)} :
    h.setPrevOf o prev q = if o = some q then { h q with prev } else h q := by
  cases o with
  | none => rfl
  | some n =>
    rw [Heap.setPrevOf, setPrev_apply]
    by_cases hq : q = n
    · rw [hq, if_pos rfl, if_pos rfl]
    · rw [if_neg hq, if_neg fun he ↦ hq (Option.some.inj he).symm]

theorem setNextOf_apply {next : Option (Ptr T)} :
    h.setNextOf o next q = if o = some q then { h q with next } else h q := by
  cases o with
  | none => rfl
  | some n =>
    rw [Heap.setNextOf, setNext_apply]
    by_cases hq : q = n
    · rw [hq, if_pos rfl, if_pos rfl]
    · rw [if_neg hq, if_neg fun he ↦ hq (Option.some.inj he).symm]

/-- The cells after `addAfter`. -/
theorem addAfter_apply (hme : me ≠ el) (hn : (h el).next ≠ some me) (hel : (h el).next ≠ some el) :
    h.addAfter me el q =
      if q = me then { h me with next := (h el).next, prev := some el }
      else if q = el then { h el with next := some me }
      else if (h el).next = some q then { h q with prev := some me } else h q := by
  have h₁ : (h.setNext me (h el).next me).next = (h el).next := by rw [setNext_apply, if_pos rfl]
  rw [Heap.addAfter]
  dsimp only
  rw [h₁, setPrev_apply]
  simp only [setNext_apply, setPrevOf_apply]
  by_cases hqm : q = me
  · simp [hqm, hme, hn]
  · by_cases hqe : q = el
    · simp [hqe, hme.symm, hel]
    · simp [hqm, hqe]

/-- The links after `addAfter`; what comes after `el` may be nothing. -/
theorem links_addAfter (last : Option (Ptr T)) (hme : me ≠ el) (hn : (h el).next ≠ some me)
    (hel : (h el).next ≠ some el) : ∃ last', (h.addAfter me el).links last' =
      (h.links last).insert (some el) (some me) (h el).next := by
  refine ⟨if (h el).next = none then some me else last, ?_⟩
  unfold Heap.links Links.insert
  congr 1
  · funext p
    cases p with
    | none => simp
    | some p =>
      by_cases hpm : p = me
      · simp [hpm, addAfter_apply hme hn hel]
      · by_cases hpe : p = el
        · simp [hpe, addAfter_apply hme hn hel, hme.symm]
        · simp only [Option.map_some, addAfter_apply hme hn hel, hpm, hpe, if_false,
            Function.update_apply, Option.some.injEq]
          split <;> rfl
  · funext p
    cases p with
    | none =>
      by_cases hnone : (h el).next = none
      · simp [hnone]
      · simp [hnone, Ne.symm hnone]
    | some p =>
      by_cases hpm : p = me
      · simp [hpm, addAfter_apply hme hn hel, hn.symm]
      · by_cases hpe : p = el
        · simp [hpe, addAfter_apply hme hn hel, hme.symm, hel.symm]
        · by_cases hpn : (h el).next = some p
          · simp [hpm, hpe, hpn, addAfter_apply hme hn hel]
          · simp [hpm, hpe, hpn, addAfter_apply hme hn hel, Ne.symm hpn]

/-- The cells after `cancel` of a timer that follows `p`. -/
theorem cancel_apply (hp : (h me).prev = some p) (hme : p ≠ me) (hn : (h me).next ≠ some me)
    (hel : (h me).next ≠ some p) : h.cancel me q =
      if q = me then { h me with next := none, prev := none }
      else if q = p then { h p with next := (h me).next }
      else if (h me).next = some q then { h q with prev := some p } else h q := by
  have h₁ : h.setPrevOf (h me).next (h me).prev me = h me := by rw [setPrevOf_apply, if_neg hn]
  rw [Heap.cancel]
  dsimp only
  rw [h₁, hp, setPrev_apply]
  simp only [setNext_apply, setPrevOf_apply, setNextOf_apply, Option.some.injEq]
  by_cases hqm : q = me
  · simp [hqm, hme, hn]
  · by_cases hqe : q = p
    · simp [hqe, hme, hel]
    · simp [hqm, hqe, Ne.symm hqe]

/-- A timer without links stays as it is. -/
theorem cancel_of_unlinked (hn : (h me).next = none) (hp : (h me).prev = none) :
    h.cancel me = h := by
  funext q
  rw [Heap.cancel, hn, hp]
  dsimp only [Heap.setPrevOf]
  rw [hn, hp]
  dsimp only [Heap.setNextOf]
  rw [setPrev_apply, setNext_apply, if_pos rfl, setNext_apply]
  by_cases hq : q = me
  · rw [hq, if_pos rfl]
    exact congrArg₂ (Cell.mk · · (h me).exp) hn.symm hp.symm
  · rw [if_neg hq, if_neg hq]

/-- The links of the other cells after `cancel`. -/
theorem links_cancel (last : Option (Ptr T)) (hp : (h me).prev = some p) (hme : p ≠ me)
    (hn : (h me).next ≠ some me) (hel : (h me).next ≠ some p) : ∃ last', ∀ q, q ≠ some me →
      ((h.cancel me).links last').next q =
        ((h.links last).bypass (some p) (h me).next).next q ∧
      ((h.cancel me).links last').prev q =
        ((h.links last).bypass (some p) (h me).next).prev q := by
  refine ⟨if (h me).next = none then some p else last, ?_⟩
  intro q hq
  unfold Heap.links Links.bypass
  cases q with
  | none =>
    by_cases hnone : (h me).next = none
    · simp [hnone]
    · simp [hnone, Ne.symm hnone]
  | some q =>
    have hqm : q ≠ me := fun he ↦ hq (congrArg some he)
    by_cases hqp : q = p
    · subst hqp
      simp [cancel_apply hp hme hn hel, hme, hel.symm]
    · by_cases hqn : (h me).next = some q
      · simp [hqm, hqp, hqn, cancel_apply hp hme hn hel]
      · simp [hqm, hqp, hqn, cancel_apply hp hme hn hel, Ne.symm hqn]

end Links

/-- The cells of the list, the null pointer being the last. -/
def cells (l : List (T × E)) : List (Option (Ptr T)) :=
  some .lh :: l.map (fun x ↦ some (.timer x.1)) ++ [none]

/-- The heap holds the timers `l`, in this order, and no other timer is linked to anything. -/
structure Holds (h : Heap T E) (l : List (T × E)) : Prop where
  linked : ∃ last, (h.links last).Linked (cells l)
  head : (h .lh).prev = none
  exp : ∀ x ∈ l, (h (.timer x.1)).exp = x.2
  rest : ∀ t, (∀ x ∈ l, x.1 ≠ t) → (h (.timer t)).next = none ∧ (h (.timer t)).prev = none

end Cpsw.Rssi.Timers
