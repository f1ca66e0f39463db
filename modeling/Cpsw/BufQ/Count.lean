import Cpsw.BufQ.Queue
import Cpsw.Lib.Tally

namespace Cpsw.BufQ

open Lib.Circular Lib.Run Lib.Tally

variable {α : Type}

/-- The cells from the read pointer on hold `l`. -/
structure CBufQueueBase.Holds (b : CBufQueueBase α) (l : List α) : Prop where
  size : b.fifo_.length = b.sz_
  count : b.fl_ = l.length
  le : l.length ≤ b.sz_
  rp : 0 < b.sz_ → b.rp_ < b.sz_
  wp : b.wp_ = (b.rp_ + b.fl_) % b.sz_
  content : ∀ i < l.length, view b.fifo_ b.rp_ i = l[i]?

namespace CBufQueueBase

variable {b b' : CBufQueueBase α} {l : List α} {x : α} {n : ℕ}

theorem holds_new : (new n : CBufQueueBase α).Holds [] where
  size := List.length_replicate
  count := rfl
  le := Nat.zero_le _
  rp h := h
  wp := (Nat.zero_mod _).symm
  content i hi := absurd hi (Nat.not_lt_zero i)

/-- A pointer that is moved on by one. -/
theorem wrapped {i sz : ℕ} (h : i < sz) : (if i + 1 = sz then 0 else i + 1) = (i + 1) % sz := by
  split_ifs with he
  · rw [he, Nat.mod_self]
  · rw [Nat.mod_eq_of_lt (by omega)]

theorem Holds.bounded_push (h : b.Holds l) (hl : l.length < b.sz_) (x : α) :
    ∃ b', b.bounded_push x = some b' ∧ b'.Holds (l ++ [x]) ∧ b'.sz_ = b.sz_ := by
  have hwp : b.wp_ < b.sz_ := h.wp ▸ Nat.mod_lt _ (by omega)
  have hoff : b.wp_ = (b.rp_ + l.length) % b.fifo_.length := by
    rw [h.wp, h.count, h.size]
  have hroom : b.fl_ ≠ b.sz_ := by
    rw [h.count]
    omega
  have hpush : b.bounded_push x = some { b with
      fifo_ := b.fifo_.set b.wp_ (some x)
      wp_ := if b.wp_ + 1 = b.sz_ then 0 else b.wp_ + 1
      fl_ := b.fl_ + 1 } := if_neg hroom
  refine ⟨_, hpush, ⟨?_, ?_, ?_, h.rp, ?_, ?_⟩, rfl⟩
  · rw [List.length_set, h.size]
  · rw [List.length_append, h.count]
    rfl
  · rw [List.length_append]
    exact hl
  · rw [wrapped hwp, h.wp, Nat.mod_add_mod, Nat.add_assoc]
  · intro i hi
    rw [List.length_append, List.length_singleton] at hi
    have hlen := h.size
    rw [hoff, view_set _ _ (by omega) (by omega)]
    split_ifs with he
    · rw [← he, List.getElem?_concat_length]
    · rw [h.content i (by omega), List.getElem?_append_left (by omega)]

theorem Holds.bounded_push_full (h : b.Holds l) (hl : l.length = b.sz_) (x : α) :
    b.bounded_push x = none := by
  rw [CBufQueueBase.bounded_push, if_pos (by rw [h.count, hl])]

theorem Holds.pop (h : b.Holds (x :: l)) :
    ∃ b', b.pop = some (some x, b') ∧ b'.Holds l ∧ b'.sz_ = b.sz_ := by
  have hle := h.le
  have hcount := h.count
  rw [List.length_cons] at hle hcount
  have hrp := h.rp (by omega)
  have hhead : (b.fifo_[b.rp_]?).join = some x := by
    have hx := h.content 0 (by simp)
    rwa [view, Nat.add_zero, h.size, Nat.mod_eq_of_lt hrp] at hx
  have hpop : b.pop = some (some x, { b with
      rp_ := if b.rp_ + 1 = b.sz_ then 0 else b.rp_ + 1
      fl_ := b.fl_ - 1 }) := by
    rw [CBufQueueBase.pop, if_neg (by omega)]
    dsimp only
    rw [hhead]
  refine ⟨_, hpop, ⟨h.size, ?_, ?_, ?_, ?_, ?_⟩, rfl⟩
  · exact Nat.sub_eq_of_eq_add hcount
  · exact Nat.le_of_succ_le hle
  · intro _
    rw [wrapped hrp]
    exact Nat.mod_lt _ (by omega)
  · have hfl : b.rp_ + 1 + (b.fl_ - 1) = b.rp_ + b.fl_ := by omega
    rw [wrapped hrp, Nat.mod_add_mod, hfl, h.wp]
  · intro i hi
    have hdvd : b.fifo_.length ∣ b.sz_ := h.size ▸ dvd_rfl
    rw [wrapped hrp, view_mod _ hdvd, view_succ, h.content (i + 1) (by simpa using hi)]
    rfl

end CBufQueueBase

/-- The slots that `shutdown` and `startup` have in hand. -/
def Task.held (n : ℕ) : Task α → ℤ
  | .eat wi => wi
  | .drain wi => wi
  | .fill i => n - i - 1
  | _ => 0

namespace Thread

/-- The thread has taken a slot off this side that was not there. -/
def restores (s : Side) : Thread α → ℤ
  | .getSlot task _ .add => if task.getSide = s then 1 else 0
  | _ => 0

/-- The chains in the queue that the count of the readers' slots leaves out. -/
def rdWeight : Thread α → ℤ
  | .getSlot task _ .add => if task.getSide = .rd then 1 else 0
  | .access .pop => 1
  | .access (.drain _) => 1
  | .putSlot (.push _) false => 1
  | _ => 0

/-- The room in the queue that the count of the writers' slots leaves out. -/
def wrWeight (n : ℕ) : Thread α → ℤ
  | .getSlot task _ .add => task.held n + if task.getSide = .wr then 1 else 0
  | .getSlot task _ _ => task.held n
  | .access (.push _) => 1
  | .access task => task.held n
  | .putSlot task false => task.held n + if task.putSide = .wr then 1 else 0
  | .putSlot task true => task.held n
  | .undo false => 1
  | _ => 0

/-- What a thread never does: take a slot to put it again, or fail. -/
def Wf (n : ℕ) : Thread α → Prop
  | .getSlot (.eat _) wait _ => wait = .no
  | .getSlot (.drain _) wait _ => wait = .no
  | .getSlot (.fill _) _ _ => False
  | .access (.eat _) => False
  | .access (.fill _) => False
  | .putSlot (.eat _) _ => False
  | .putSlot (.fill i) _ => i < n
  | .undo _ => False
  | .threw => False
  | _ => True

/-- The thread is in `shutdown` or in `startup`. -/
def role : Thread α → Option Bool
  | .getSlot task _ _ | .access task | .putSlot task _ =>
    match task with
    | .eat _ | .drain _ => some false
    | .fill _ => some true
    | _ => none
  | _ => none

variable {n : ℕ} {t : Thread α} {s : Side}

theorem restores_nonneg (s : Side) (t : Thread α) : 0 ≤ t.restores s := by
  unfold restores
  split
  · split_ifs <;> decide
  · exact le_rfl

end Thread

end Cpsw.BufQ
