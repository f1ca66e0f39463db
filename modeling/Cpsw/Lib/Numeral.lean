import Mathlib.Tactic.Common
import Mathlib.Tactic.IntervalCases

namespace Cpsw.Lib.Numeral

/-- The value of a digit in the largest base. -/
def digitOf (c : Char) : Option ℕ :=
  if c.isDigit then some (c.toNat - '0'.toNat)
  else if c.isLower then some (c.toNat - 'a'.toNat + 10)
  else if c.isUpper then some (c.toNat - 'A'.toNat + 10)
  else none

/-- Read digits of base `b` for as long as there are some, and return what is left. -/
def scan (b : ℕ) : List Char → ℕ → ℕ × List Char
  | [], n => (n, [])
  | c :: s, n =>
    match digitOf c with
    | some d => if d < b then scan b s (b * n + d) else (n, c :: s)
    | none => (n, c :: s)

def isspace (c : Char) : Bool := c = ' ' || ('\t' ≤ c && c ≤ '\r')

def sign : List Char → Bool × List Char
  | '-' :: s => (true, s)
  | '+' :: s => (false, s)
  | s => (false, s)

/-- The base that a prefix names, and the text without the prefix. -/
def radix : List Char → ℕ × List Char
  | '0' :: x :: c :: s =>
    if (x = 'x' ∨ x = 'X') ∧ (digitOf c).any (· < 16) then (16, c :: s)
    else (8, '0' :: x :: c :: s)
  | '0' :: s => (8, '0' :: s)
  | s => (10, s)

def startsWithDigit (b : ℕ) (s : List Char) : Bool :=
  s.head?.any fun c ↦ (digitOf c).any (· < b)

/-- `strtoul(s, &endp, 0)` for numbers of `w` bits: the number and the text from `endp` on. -/
def strtoul (w : ℕ) (s : List Char) : ℕ × List Char :=
  let (neg, t) := sign (s.dropWhile isspace)
  let (b, t) := radix t
  if startsWithDigit b t then
    let (n, rest) := scan b t 0
    (if 2 ^ w ≤ n then 2 ^ w - 1 else if neg then (2 ^ w - n) % 2 ^ w else n, rest)
  else (0, s)

variable {b d n w : ℕ} {s r : List Char} {c : Char}

theorem digitOf_digitChar (hd : d < 16) : digitOf d.digitChar = some d := by
  interval_cases d <;> rfl

theorem isspace_digitChar (hd : d < 16) : isspace d.digitChar = false := by
  interval_cases d <;> rfl

theorem scan_digit (hd : d < b) (hb : b ≤ 16) :
    scan b (d.digitChar :: s) n = scan b s (b * n + d) := by
  rw [scan, digitOf_digitChar (hd.trans_le hb)]
  exact if_pos hd

/-- Reading the digits of a number leaves the number in front of the text. -/
theorem scan_toDigits (h : 1 < b) (hb : b ≤ 16) :
    scan b (Nat.toDigits b n ++ s) 0 = scan b s n := by
  induction n using Nat.strongRecOn generalizing s with
  | ind n ih =>
    by_cases hn : n < b
    · rw [Nat.toDigits_of_lt_base hn, List.singleton_append, scan_digit hn hb]
      simp
    · have hlt : n / b < n := Nat.div_lt_self (by omega) h
      rw [Nat.toDigits_of_base_le h (by omega), List.append_assoc, List.singleton_append,
        ih _ hlt, scan_digit (Nat.mod_lt n (by omega)) hb, Nat.div_add_mod]

theorem scan_stop (hs : ∀ c ∈ s.head?, digitOf c = none) : scan b s n = (n, s) := by
  cases s with
  | nil => rfl
  | cons c s => rw [scan, hs c rfl]

/-- The first digit of a number other than zero is not zero. -/
theorem toDigits_head (h : 1 < b) :
    ∃ d t, Nat.toDigits b n = d.digitChar :: t ∧ d < b ∧ (n ≠ 0 → d ≠ 0) := by
  induction n using Nat.strongRecOn with
  | ind n ih =>
    by_cases hn : n < b
    · exact ⟨n, [], Nat.toDigits_of_lt_base hn, hn, id⟩
    · obtain ⟨d, t, ht, hd, h0⟩ := ih (n / b) (Nat.div_lt_self (by omega) h)
      refine ⟨d, t ++ [(n % b).digitChar], ?_, hd, fun _ ↦ h0 ?_⟩
      · rw [Nat.toDigits_of_base_le h (by omega), ht, List.cons_append]
      · exact Nat.pos_iff_ne_zero.1 (Nat.div_pos (by omega) (by omega))

theorem startsWithDigit_toDigits (h : 1 < b) (hb : b ≤ 16) :
    startsWithDigit b (Nat.toDigits b n ++ s) = true := by
  obtain ⟨d, t, ht, hd, -⟩ := @toDigits_head b n h
  rw [ht, List.cons_append]
  simp [startsWithDigit, digitOf_digitChar (hd.trans_le hb), hd]

theorem sign_digit (hd : d < 16) : sign (d.digitChar :: s) = (false, d.digitChar :: s) := by
  interval_cases d <;> rfl

theorem radix_digit (hd : d < 16) (h0 : d ≠ 0) :
    radix (d.digitChar :: s) = (10, d.digitChar :: s) := by
  interval_cases d <;> first | exact absurd rfl h0 | rfl

theorem radix_zero (hs : ∀ c ∈ s.head?, digitOf c = none) : radix ('0' :: s) = (8, '0' :: s) := by
  cases s with
  | nil => rfl
  | cons x s =>
    have hx : ¬(x = 'x' ∨ x = 'X') := by
      rintro (rfl | rfl) <;> exact absurd (hs _ rfl) (by decide)
    cases s with
    | nil => rfl
    | cons c s => exact if_neg fun h ↦ hx h.1

/-- The digits after a sign that has been read. -/
theorem number_toDigits (hs : ∀ c ∈ s.head?, digitOf c = none) :
    ∃ b t, radix (Nat.toDigits 10 n ++ s) = (b, t) ∧ startsWithDigit b t = true ∧
      scan b t 0 = (n, s) := by
  obtain ⟨d, t, ht, hd, h0⟩ := @toDigits_head 10 n (by decide)
  by_cases hn : n = 0
  · subst hn
    refine ⟨8, '0' :: s, ?_, rfl, ?_⟩
    · rw [Nat.toDigits_zero, List.singleton_append, radix_zero hs]
    · exact (scan_digit (d := 0) (by decide) (by decide)).trans (scan_stop hs)
  · refine ⟨10, Nat.toDigits 10 n ++ s, ?_, startsWithDigit_toDigits (by decide) (by decide), ?_⟩
    · rw [ht, List.cons_append, radix_digit (by omega) (h0 hn)]
    · rw [scan_toDigits (by decide) (by decide), scan_stop hs]

theorem dropWhile_isspace_toDigits (h : 1 < b) (hb : b ≤ 16) :
    (Nat.toDigits b n ++ s).dropWhile isspace = Nat.toDigits b n ++ s := by
  obtain ⟨d, t, ht, hd, -⟩ := @toDigits_head b n h
  rw [ht, List.cons_append, List.dropWhile_cons_of_neg]
  simp [isspace_digitChar (hd.trans_le hb)]

theorem sign_toDigits (h : 1 < b) (hb : b ≤ 16) :
    sign (Nat.toDigits b n ++ s) = (false, Nat.toDigits b n ++ s) := by
  obtain ⟨d, t, ht, hd, -⟩ := @toDigits_head b n h
  rw [ht, List.cons_append, sign_digit (hd.trans_le hb)]

/-- A printed number is read back, whatever follows it that is no digit. -/
theorem strtoul_decimal (hn : n < 2 ^ w) (hs : ∀ c ∈ s.head?, digitOf c = none) :
    strtoul w (Nat.toDigits 10 n ++ s) = (n, s) := by
  obtain ⟨b, t, hr, hd, hscan⟩ := @number_toDigits n s hs
  have hle : ¬2 ^ w ≤ n := by omega
  simp [strtoul, dropWhile_isspace_toDigits, sign_toDigits, hr, hd, hscan, hle]

/-- What comes after a character that is no digit is not looked at. -/
theorem scan_append (hc : digitOf c = none) :
    scan b (s ++ c :: r) n = ((scan b s n).1, (scan b s n).2 ++ c :: r) := by
  induction s generalizing n with
  | nil => exact scan_stop fun x hx ↦ by cases hx; exact hc
  | cons x s ih =>
    rw [List.cons_append, scan, scan]
    cases hx : digitOf x with
    | none => rfl
    | some d =>
      dsimp only
      by_cases hd : d < b
      · rw [if_pos hd, if_pos hd]
        exact ih
      · rw [if_neg hd, if_neg hd]
        rfl

theorem scan_length_le : (scan b s n).2.length ≤ s.length := by
  induction s generalizing n with
  | nil => exact le_refl _
  | cons x s ih =>
    rw [scan]
    cases digitOf x with
    | none => exact le_refl _
    | some d =>
      dsimp only
      split_ifs
      · exact ih.trans (Nat.le_succ _)
      · exact le_refl _

theorem startsWithDigit_append (hc : digitOf c = none) :
    startsWithDigit b (s ++ c :: r) = startsWithDigit b s := by
  cases s with
  | nil => simp [startsWithDigit, hc]
  | cons x s => rfl

theorem radix_append (hc : digitOf c = none) :
    radix (s ++ c :: r) = ((radix s).1, (radix s).2 ++ c :: r) := by
  have hx : c ≠ 'x' ∧ c ≠ 'X' := by
    constructor <;> rintro rfl <;> exact absurd hc (by decide)
  have h0 : ∀ t, radix (c :: t) = (10, c :: t) := by
    intro t
    have hne : c ≠ '0' := by rintro rfl; exact absurd hc (by decide)
    rw [radix.eq_def]
    split
    · rename_i heq
      exact absurd (List.cons.inj heq).1 hne
    · rename_i heq
      exact absurd (List.cons.inj heq).1 hne
    · rfl
  cases s with
  | nil => exact h0 r
  | cons x s =>
    by_cases hx0 : x = '0'
    · subst hx0
      cases s with
      | nil =>
        refine radix_zero fun y hy ↦ ?_
        cases hy
        exact hc
      | cons y s =>
        cases s with
        | nil => exact if_neg (by simp [hc])
        | cons z s =>
          simp only [List.cons_append, radix]
          split_ifs <;> rfl
    · have hne : ∀ t, radix (x :: t) = (10, x :: t) := by
        intro t
        rw [radix.eq_def]
        split
        · rename_i heq
          exact absurd (List.cons.inj heq).1 hx0
        · rename_i heq
          exact absurd (List.cons.inj heq).1 hx0
        · rfl
      rw [List.cons_append, hne, hne]
      rfl

theorem radix_length_le : (radix s).2.length ≤ s.length := by
  unfold radix
  split
  · split_ifs <;> simp
  · exact le_refl _
  · exact le_refl _

/-- After the blanks and the sign: the digits of a number up to a character that is none. -/
def digits (w : ℕ) (neg : Bool) (t : List Char) : Option (ℕ × List Char) :=
  if startsWithDigit (radix t).1 (radix t).2 then
    let (n, rest) := scan (radix t).1 (radix t).2 0
    some (if 2 ^ w ≤ n then 2 ^ w - 1 else if neg then (2 ^ w - n) % 2 ^ w else n, rest)
  else none

theorem strtoul_eq : strtoul w s =
    (digits w (sign (s.dropWhile isspace)).1 (sign (s.dropWhile isspace)).2).getD (0, s) := by
  simp only [strtoul, digits]
  split_ifs <;> rfl

theorem digits_append {neg : Bool} (hc : digitOf c = none) : digits w neg (s ++ c :: r) =
    (digits w neg s).map fun x ↦ (x.1, x.2 ++ c :: r) := by
  simp only [digits, radix_append hc, startsWithDigit_append hc, scan_append hc]
  split_ifs <;> rfl

theorem digits_length_le {neg : Bool} {x : ℕ × List Char} (h : digits w neg s = some x) :
    x.2.length ≤ s.length := by
  unfold digits at h
  by_cases hd : startsWithDigit (radix s).1 (radix s).2 = true
  · rw [if_pos hd] at h
    cases h
    exact scan_length_le.trans radix_length_le
  · rw [if_neg hd] at h
    cases h

/-- The first character is a sign, whatever follows it, or it is none. -/
theorem sign_cons (c : Char) :
    (∃ neg, ∀ t, sign (c :: t) = (neg, t)) ∨ ∀ t, sign (c :: t) = (false, c :: t) := by
  by_cases hm : c = '-'
  · subst hm
    exact .inl ⟨true, fun _ ↦ rfl⟩
  · by_cases hp : c = '+'
    · subst hp
      exact .inl ⟨false, fun _ ↦ rfl⟩
    · refine .inr fun t ↦ ?_
      rw [sign.eq_def]
      split
      · rename_i heq
        exact absurd (List.cons.inj heq).1 hm
      · rename_i heq
        exact absurd (List.cons.inj heq).1 hp
      · rfl

theorem sign_append (hs : s ≠ []) : sign (s ++ r) = ((sign s).1, (sign s).2 ++ r) := by
  obtain ⟨x, s, rfl⟩ := List.exists_cons_of_ne_nil hs
  rcases sign_cons x with ⟨neg, h⟩ | h
  · rw [List.cons_append, h, h]
  · rw [List.cons_append, h, h, List.cons_append]

/-- A number takes all of a text in front of a character that cannot be part of it exactly if it
takes all of the text alone. -/
theorem strtoul_append_iff (hs : s ≠ []) (hc : digitOf c = none) (hsp : isspace c = false) :
    (strtoul w (s ++ c :: r)).1 = n ∧ (strtoul w (s ++ c :: r)).2.length = (c :: r).length ↔
      strtoul w s = (n, []) := by
  have hpos : 0 < s.length := List.length_pos_iff.2 hs
  rw [strtoul_eq, strtoul_eq, List.dropWhile_append]
  cases ht : s.dropWhile isspace with
  | nil =>
    have hstop : (c :: r).dropWhile isspace = c :: r :=
      List.dropWhile_cons_of_neg (by simp [hsp])
    have hnil : digits w (sign []).1 (sign []).2 = none := rfl
    rw [List.isEmpty_nil, if_pos rfl, hstop, hnil]
    refine ⟨fun h ↦ absurd h.2 ?_, fun h ↦ absurd (Prod.ext_iff.1 h).2 hs⟩
    cases hd : digits w (sign (c :: r)).1 (sign (c :: r)).2 with
    | none =>
      simp only [Option.getD_none, List.length_append]
      omega
    | some x =>
      rcases sign_cons c with ⟨neg, hr⟩ | hr
      · have hle := digits_length_le hd
        rw [hr] at hle
        dsimp only at hle
        rw [Option.getD_some, List.length_cons]
        omega
      · have hnone : digits w false ([] ++ c :: r) = none := digits_append hc
        rw [hr] at hd
        exact absurd (hnone.symm.trans hd) (by simp)
  | cons y t =>
    rw [List.isEmpty_cons, if_neg (by simp), sign_append (by simp), digits_append hc]
    cases digits w (sign (y :: t)).1 (sign (y :: t)).2 with
    | none => simp [hs]
    | some x =>
      obtain ⟨m, rest⟩ := x
      simp [Prod.ext_iff]

end Cpsw.Lib.Numeral
