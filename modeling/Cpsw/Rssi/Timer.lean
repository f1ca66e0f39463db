import Mathlib.Data.List.Sort
import Cpsw.Lib.Run

namespace Cpsw.Rssi

inductive RssiTimer
  | REX
  | ACK
  | NUL
  deriving DecidableEq, Repr

/-- The armed timers and when they expire, first to expire first. -/
abbrev RssiTimerList := List (RssiTimer × ℕ)

namespace RssiTimerList

def cancel (t : RssiTimer) (l : RssiTimerList) : RssiTimerList := l.filter (·.1 ≠ t)

def addAfter (t : RssiTimer) (exp : ℕ) : RssiTimerList → RssiTimerList
  | [] => [(t, exp)]
  | el :: l => if exp < el.2 then (t, exp) :: el :: l else el :: addAfter t exp l

def armAbs (t : RssiTimer) (exp : ℕ) (l : RssiTimerList) : RssiTimerList :=
  addAfter t exp (l.cancel t)

def isArmed (t : RssiTimer) (l : RssiTimerList) : Prop := ∃ exp, (t, exp) ∈ l

def getFirstToExpire (l : RssiTimerList) : Option (RssiTimer × ℕ) := l.head?

variable {l : RssiTimerList} {t u : RssiTimer} {exp : ℕ}

theorem mem_addAfter {e : RssiTimer × ℕ} : e ∈ addAfter t exp l ↔ e = (t, exp) ∨ e ∈ l := by
  induction l with
  | nil => simp [addAfter]
  | cons a l ih =>
    unfold addAfter
    split_ifs
    · simp
    · simp only [List.mem_cons, ih]
      tauto

@[simp] theorem not_isArmed_nil : ¬isArmed t [] := by
  rintro ⟨e, h⟩
  cases h

@[simp] theorem isArmed_cancel : isArmed u (l.cancel t) ↔ u ≠ t ∧ l.isArmed u := by
  simp only [isArmed, cancel, List.mem_filter, decide_eq_true_eq]
  exact ⟨fun ⟨e, h, hn⟩ ↦ ⟨hn, e, h⟩, fun ⟨hn, e, h⟩ ↦ ⟨e, h, hn⟩⟩

@[simp] theorem isArmed_armAbs : isArmed u (l.armAbs t exp) ↔ u = t ∨ l.isArmed u := by
  simp only [isArmed, armAbs, mem_addAfter, cancel, List.mem_filter, decide_eq_true_eq,
    Prod.mk.injEq]
  constructor
  · rintro ⟨e, ⟨rfl, -⟩ | ⟨h, -⟩⟩
    · exact .inl rfl
    · exact .inr ⟨e, h⟩
  · rintro (rfl | ⟨e, h⟩)
    · exact ⟨exp, .inl ⟨rfl, rfl⟩⟩
    · by_cases hu : u = t
      · exact ⟨exp, .inl ⟨hu, rfl⟩⟩
      · exact ⟨e, .inr ⟨h, hu⟩⟩

theorem eq_nil_iff : l = [] ↔ ∀ t, ¬isArmed t l := by
  constructor
  · rintro rfl t
    exact not_isArmed_nil
  · intro h
    cases l with
    | nil => rfl
    | cons e l => exact absurd ⟨e.2, List.mem_cons_self⟩ (h e.1)

def Sorted (l : RssiTimerList) : Prop := l.Pairwise (·.2 ≤ ·.2)

theorem Sorted.cancel (h : l.Sorted) (t : RssiTimer) : (l.cancel t).Sorted := h.filter _

theorem Sorted.armAbs (h : l.Sorted) (t : RssiTimer) (exp : ℕ) : (l.armAbs t exp).Sorted := by
  have hc := h.cancel t
  unfold RssiTimerList.armAbs
  generalize l.cancel t = c at hc
  unfold Sorted at hc ⊢
  induction c with
  | nil => simp [addAfter]
  | cons a c ih =>
    rw [List.pairwise_cons] at hc
    unfold addAfter
    split_ifs with hlt
    · rw [List.pairwise_cons, List.pairwise_cons]
      refine ⟨fun b hb ↦ ?_, hc⟩
      rcases List.mem_cons.1 hb with rfl | hb
      · exact hlt.le
      · exact hlt.le.trans (hc.1 b hb)
    · rw [List.pairwise_cons]
      refine ⟨fun b hb ↦ ?_, ih hc.2⟩
      rcases mem_addAfter.1 hb with rfl | hb
      · exact Nat.le_of_not_lt hlt
      · exact hc.1 b hb

end RssiTimerList

end Cpsw.Rssi
