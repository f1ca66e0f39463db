import Cpsw.Tcp.Xfer

namespace Cpsw.Tcp

/-- Why `xfer` does not return. -/
inductive Fault
  | thrown (err : TcpError)
  /-- It looks at an element that the vector does not have. -/
  | outside
  | unfinished
  deriving DecidableEq, Repr

/-- The inner loop of `xfer`, which looks at the next `iov_len` whether there is one or not: what
the new `iop` points to. -/
def advanceWithin : ℕ → List IoVec → Option (List IoVec)
  | _, [] => none
  | xfr, v :: iov =>
    if v.len ≤ xfr then advanceWithin (xfr - v.len) iov
    else some ({ v with base := v.base + xfr, len := v.len - xfr } :: iov)

/-- Where the bytes are that a vector describes. -/
def places (iov : List IoVec) : List (Buf × ℕ) :=
  iov.flatMap fun v ↦ (List.range' v.base v.len).map fun i ↦ (v.buf, i)

/-- `xfer`, for no more than `fuel` calls of `op` that return `ret 0`, `ret 1` and so on: the places
that the calls transfer. -/
def xferWithin (nm : String) : ℕ → (ℕ → ℕ) → List IoVec → ℕ → Except Fault (List (Buf × ℕ))
  | 0, _, _, len => if 0 < len then .error .unfinished else .ok []
  | fuel + 1, ret, iov, len =>
    if 0 < len then
      if ret 0 = 0 then .error (.thrown (.xfer nm))
      else
        match advanceWithin (ret 0) iov with
        | none => .error .outside
        | some iop =>
          match xferWithin nm fuel (fun k ↦ ret (k + 1)) iop (len - ret 0) with
          | .error fault => .error fault
          | .ok sent => .ok ((places iov).take (ret 0) ++ sent)
    else .ok []

/-- What the first `k` calls transfer. -/
def returned : (ℕ → ℕ) → ℕ → ℕ
  | _, 0 => 0
  | ret, k + 1 => ret 0 + returned (fun k ↦ ret (k + 1)) k

/-- What the system call may return: each call something, and all of them no more than there is. -/
def MayReturn (iov : List IoVec) (len : ℕ) (ret : ℕ → ℕ) : Prop :=
  ∀ k, returned ret k < len → 0 < ret k ∧ returned ret (k + 1) ≤ lens iov

/-- `xfer` returns, with the first `len` bytes transferred once and in order, and whatever the last
call transferred beyond them. -/
def Transfers (nm : String) (ret : ℕ → ℕ) (iov : List IoVec) (len : ℕ) : Prop :=
  ∃ sent, xferWithin nm len ret iov len = .ok sent ∧ (places iov).take len <+: sent ∧
    sent <+: places iov

/-- No call comes to the end of the vector. -/
def StopsShort (ret : ℕ → ℕ) (iov : List IoVec) (len : ℕ) : Prop :=
  ∀ k, returned ret k < len → returned ret (k + 1) ≠ lens iov

variable {iov iop : List IoVec} {ret : ℕ → ℕ} {c len fuel : ℕ} {nm : String}

theorem advanceWithin_eq (c : ℕ) (iov : List IoVec) :
    advanceWithin c iov = if c < lens iov then some (advance c iov).2 else none := by
  induction iov generalizing c with
  | nil => rfl
  | cons v iov ih =>
    rw [advanceWithin, advance, lens_cons]
    by_cases hle : v.len ≤ c
    · rw [if_pos hle, if_pos hle, ih]
      congr 1
      apply propext
      omega
    · rw [if_neg hle, if_neg hle, if_pos (by omega)]

theorem places_cons (v : IoVec) (iov : List IoVec) :
    places (v :: iov) = (List.range' v.base v.len).map (fun i ↦ (v.buf, i)) ++ places iov :=
  List.flatMap_cons

/-- The places that are left once `c` bytes have been transferred. -/
theorem places_advance (c : ℕ) (iov : List IoVec) :
    places (advance c iov).2 = (places iov).drop c := by
  induction iov generalizing c with
  | nil => simp [advance, places]
  | cons v iov ih =>
    have hlen : ((List.range' v.base v.len).map fun i ↦ (v.buf, i)).length = v.len := by simp
    rw [advance, places_cons]
    by_cases hle : v.len ≤ c
    · rw [if_pos hle, List.drop_append, List.drop_eq_nil_of_le (hlen.trans_le hle), hlen,
        List.nil_append]
      exact ih _
    · rw [if_neg hle, places_cons, List.drop_append_of_le_length (by omega), ← List.map_drop,
        List.drop_range', Nat.mul_one]

/-- The calls that come after the first one. -/
theorem MayReturn.tail (h : MayReturn iov len ret) (hl : lens iop = lens iov - ret 0) :
    MayReturn iop (len - ret 0) fun k ↦ ret (k + 1) := by
  intro k hk
  have hk' : returned ret (k + 1) < len := by
    rw [returned]
    omega
  obtain ⟨hpos, hle⟩ := h (k + 1) hk'
  refine ⟨hpos, ?_⟩
  rw [returned] at hle
  omega

theorem stopsShort_cons (hc : ret 0 < lens iov) (hl : lens iop = lens iov - ret 0) :
    StopsShort ret iov len ↔ StopsShort (fun k ↦ ret (k + 1)) iop (len - ret 0) := by
  constructor
  · intro h k hk he
    refine h (k + 1) ?_ ?_
    · rw [returned]
      omega
    · rw [returned]
      omega
  · intro h k hk he
    cases k with
    | zero =>
      rw [returned, returned] at he
      omega
    | succ k =>
      rw [returned] at hk he
      exact h k (by omega) (by omega)

/-- Either no call comes to the end of the vector, or `xfer` looks at what lies behind it. -/
theorem xferWithin_outcome (hf : len ≤ fuel) (hr : MayReturn iov len ret) :
    (StopsShort ret iov len ∧ ∃ sent, xferWithin nm fuel ret iov len = .ok sent ∧
        (places iov).take len <+: sent ∧ sent <+: places iov) ∨
      ¬StopsShort ret iov len ∧ xferWithin nm fuel ret iov len = .error .outside := by
  induction fuel generalizing ret iov len with
  | zero =>
    obtain rfl : len = 0 := by omega
    exact .inl ⟨fun k hk ↦ absurd hk (Nat.not_lt_zero _), [], rfl, List.nil_prefix, List.nil_prefix⟩
  | succ fuel ih =>
    rw [xferWithin]
    rcases Nat.eq_zero_or_pos len with rfl | hlen
    · exact .inl ⟨fun k hk ↦ absurd hk (Nat.not_lt_zero _), [], rfl, List.nil_prefix,
        List.nil_prefix⟩
    obtain ⟨hpos, hle⟩ := hr 0 hlen
    rw [returned, returned, Nat.add_zero] at hle
    rw [if_pos hlen, if_neg hpos.ne', advanceWithin_eq]
    rcases hle.lt_or_eq with hlt | heq
    · have hl := lens_advance hle
      have hp := places_advance (ret 0) iov
      rw [if_pos hlt, stopsShort_cons hlt hl]
      generalize (advance (ret 0) iov).2 = iop at hl hp
      apply (ih (by omega) (hr.tail hl)).imp
      · rintro ⟨hs, sent, hx, htake, hsent⟩
        refine ⟨hs, (places iov).take (ret 0) ++ sent, ?_, ?_, ?_⟩
        · simp only [hx]
        · rw [hp] at htake
          have hsplit := List.take_append_drop (ret 0) ((places iov).take len)
          rw [List.take_take, List.drop_take] at hsplit
          rw [← hsplit]
          rcases Nat.le_total len (ret 0) with hn | hn
          · rw [Nat.min_eq_right hn, Nat.sub_eq_zero_of_le hn, List.take_zero, List.append_nil]
            exact (List.take_prefix_take_left hn).trans (List.prefix_append _ _)
          · rw [Nat.min_eq_left hn]
            exact (List.prefix_append_right_inj _).2 htake
        · rw [hp] at hsent
          have happ := (List.prefix_append_right_inj ((places iov).take (ret 0))).2 hsent
          rwa [List.take_append_drop] at happ
      · rintro ⟨hs, hx⟩
        exact ⟨hs, by simp only [hx]⟩
    · refine .inr ⟨fun h ↦ h 0 hlen ?_, ?_⟩
      · rw [returned, returned, Nat.add_zero, heq]
      · rw [if_neg (by omega)]

/-- `xfer` stays within the vector and transfers what it has to exactly when no call comes to the
end of the vector. -/
theorem transfers_iff (hr : MayReturn iov len ret) :
    Transfers nm ret iov len ↔ StopsShort ret iov len := by
  rcases xferWithin_outcome le_rfl hr with ⟨hs, ht⟩ | ⟨hs, hx⟩
  · exact iff_of_true ht hs
  · refine iff_of_false (fun ⟨sent, he, _⟩ ↦ ?_) hs
    rw [hx] at he
    cases he

theorem returned_succ (ret : ℕ → ℕ) (k : ℕ) : returned ret (k + 1) = returned ret k + ret k := by
  induction k generalizing ret with
  | zero => exact Nat.add_comm ..
  | succ k ih => rw [returned, ih, returned, Nat.add_assoc]

/-- The whole vector, which is what `doPush` asks for: there is no other way but to its end. -/
theorem xferWithin_whole (hpos : 0 < lens iov) (hr : MayReturn iov (lens iov) ret) :
    xferWithin nm (lens iov) ret iov (lens iov) = .error .outside := by
  rcases xferWithin_outcome le_rfl hr with ⟨hs, -⟩ | ⟨-, hx⟩
  · have hgrow : ∀ k, k ≤ returned ret k ∧ returned ret k < lens iov := by
      intro k
      induction k with
      | zero => exact ⟨le_rfl, hpos⟩
      | succ k ih =>
        obtain ⟨hret, hle⟩ := hr k ih.2
        have hne := hs k ih.2
        have hsum := returned_succ ret k
        omega
    have hlast := hgrow (lens iov)
    omega
  · exact hx

/-- Two elements of four and of no bytes, and one of two bytes. -/
def threeParts : List IoVec :=
  let b : Buf := ⟨[0, 1, 2, 3, 4, 5], 0, 6⟩
  [⟨b, 0, 4⟩, ⟨b, 4, 0⟩, ⟨b, 4, 2⟩]

/-- Five of the six bytes, by one call. -/
theorem transfers_part : MayReturn threeParts 5 (fun _ ↦ 5) ∧
    Transfers "writev()" (fun _ ↦ 5) threeParts 5 := by
  have hr : MayReturn threeParts 5 fun _ ↦ 5 := by
    intro k hk
    cases k with
    | zero => exact ⟨by decide, by decide⟩
    | succ k =>
      rw [returned] at hk
      omega
  refine ⟨hr, (transfers_iff hr).2 ?_⟩
  intro k hk
  cases k with
  | zero => decide
  | succ k =>
    rw [returned] at hk
    omega

/-- All six bytes, by two calls of three. -/
theorem not_transfers : ¬∀ nm ret iov len, len ≤ lens iov → MayReturn iov len ret →
    Transfers nm ret iov len := by
  intro h
  have hr : MayReturn threeParts 6 fun _ ↦ 3 := by
    intro k hk
    rcases k with - | - | k
    · exact ⟨by decide, by decide⟩
    · exact ⟨by decide, by decide⟩
    · rw [returned, returned] at hk
      omega
  obtain ⟨sent, hx, -⟩ := h "writev()" _ _ _ (by decide) hr
  have hout : xferWithin "writev()" 6 (fun _ ↦ 3) threeParts 6 = .error .outside := rfl
  rw [hout] at hx
  cases hx

end Cpsw.Tcp
