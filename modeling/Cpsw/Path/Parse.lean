import Cpsw.Path.Grammar

namespace Cpsw.Path

open Cpsw.Lib Cpsw.Lib.Run PathImpl

variable {Ent Addr : Type} (H : Hierarchy Ent Addr)

/-- What `findByName` makes of one part. -/
def Found : PathImpl Ent Addr → List Char → PathImpl Ent Addr → Prop :=
  Component H IsNumber Countable

variable {H} {p q r : PathImpl Ent Addr} {s t u v y comp rest x : List Char} {c : Char} {n m : ℕ}
variable {number : List Char → ℕ → Prop} {counted : ℕ → Prop} {a b : Addr} {i j : ℤ}

/-- The first `c` of a text is at one place. -/
theorem split_unique {z z' : List Char} (hs : c ∉ s) (ht : c ∉ t) (h : s ++ c :: z = t ++ c :: z') :
    s = t ∧ z = z' := by
  rcases List.append_eq_append_iff.1 h with ⟨x, rfl, hx⟩ | ⟨x, rfl, hx⟩
  · cases x with
    | nil => exact ⟨by simp, by simpa using hx⟩
    | cons d x =>
      cases hx
      exact absurd ht (by simp)
  · cases x with
    | nil => exact ⟨by simp, by simpa using hx.symm⟩
    | cons d x =>
      cases hx
      exact absurd hs (by simp)

theorem getnum_iff (ht : t ≠ []) (hc : Numeral.digitOf c = none) (hsp : Numeral.isspace c = false) :
    getnum (t ++ c :: s) t.length = .ok i ↔ ∃ n : ℕ, i = n ∧ IsNumber t n := by
  have hiff := fun n ↦ Numeral.strtoul_append_iff (w := 64) (n := n) (r := s) ht hc hsp
  unfold getnum IsNumber
  generalize Numeral.strtoul 64 (t ++ c :: s) = res at hiff
  obtain ⟨rval, endp⟩ := res
  dsimp only at hiff ⊢
  have hlen : endp.length + t.length ≠ (t ++ c :: s).length ↔ endp.length ≠ (c :: s).length := by
    rw [List.length_append]
    omega
  constructor
  · intro h
    split_ifs at h with hbad
    cases h
    rw [hlen, not_or, not_not] at hbad
    exact ⟨rval, rfl, (hiff rval).1 ⟨rfl, hbad.1⟩, not_lt.1 hbad.2⟩
  · intro h
    obtain ⟨n, rfl, hn, hmax⟩ := h
    obtain ⟨rfl, hend⟩ := (hiff n).2 hn
    rw [if_neg]
    rw [hlen, not_or, not_not]
    exact ⟨hend, not_lt.2 hmax⟩

/-- Brackets hold one number, or two around the first dash. -/
theorem indices_iff (ht : ']' ∉ t) : Indices number ('[' :: (t ++ [']'])) n m ↔ t ≠ [] ∧
    (('-' ∉ t ∧ n = m ∧ number t n) ∨ ∃ u v, t = u ++ '-' :: v ∧ '-' ∉ u ∧ u ≠ [] ∧ v ≠ [] ∧
      number u n ∧ number v m) := by
  constructor
  · intro h
    generalize hx : '[' :: (t ++ [']']) = x at h
    cases h with
    | @one t' n hne hdash hcl hn =>
      obtain rfl : t = t' := by simpa using hx
      exact ⟨hne, .inl ⟨hdash, rfl, hn⟩⟩
    | @two u v n m hu hdash _ hv hcl hn hm =>
      obtain rfl : t = u ++ '-' :: v := by
        rw [List.cons.injEq, ← List.cons_append, ← List.append_assoc] at hx
        exact List.append_cancel_right hx.2
      exact ⟨by simp, .inr ⟨u, v, rfl, hdash, hu, hv, hn, hm⟩⟩
  · intro h
    obtain ⟨hne, ⟨hdash, rfl, hn⟩ | ⟨u, v, rfl, hdash, hu, hv, hn, hm⟩⟩ := h
    · exact .one hne hdash ht hn
    · rw [List.mem_append, List.mem_cons, not_or, not_or] at ht
      rw [List.append_assoc, List.cons_append]
      exact .two hu hdash ht.1 hv ht.2.2 hn hm

theorem mem_of_indices (h : Indices number x n m) :
    ∃ t, x = '[' :: (t ++ [']']) ∧ ']' ∉ t := by
  cases h with
  | @one t _ _ _ hcl _ => exact ⟨t, rfl, hcl⟩
  | @two t u _ _ _ _ hcl _ hcl' _ _ =>
    exact ⟨t ++ '-' :: u, by simp, by simp [hcl, hcl']⟩

/-- Without brackets at its end a part is refused. -/
theorem getIndices_error (hu : '[' ∉ u) (hbad : ∀ t, y = t ++ [']'] → ']' ∈ t) {ft : ℤ × ℤ} :
    getIndices s (u ++ '[' :: y) ≠ .ok ft := by
  have hop : strchrFrom (u ++ '[' :: y) 0 '[' = some (0 + u.length) := strchrFrom_eq rfl hu
  rw [Nat.zero_add] at hop
  have hdrop : (u ++ '[' :: y).drop u.length = '[' :: y := by simp
  intro h
  rw [getIndices, hop] at h
  dsimp only at h
  by_cases hcl : ']' ∈ y
  · obtain ⟨t, z, rfl, ht⟩ := List.eq_append_cons_of_mem hcl
    have hz : z ≠ [] := by
      rintro rfl
      exact ht (hbad t rfl)
    have hpos := List.length_pos_iff.2 hz
    have hcl : strchrFrom (u ++ '[' :: (t ++ ']' :: z)) u.length ']' =
        some (u.length + ('[' :: t).length) := strchrFrom_eq hdrop (by simpa using ht)
    rw [hcl] at h
    dsimp only at h
    have hlen : u.length + ('[' :: t).length + 1 ≠ (u ++ '[' :: (t ++ ']' :: z)).length := by
      simp only [List.length_append, List.length_cons]
      omega
    split at h
    · rw [if_pos (.inr hlen)] at h
      cases h
    · rw [if_pos (.inr (.inl hlen))] at h
      cases h
  · have hnone : strchrFrom (u ++ '[' :: y) u.length ']' = none := by
      rw [strchrFrom, hdrop, List.idxOf?_eq_none_iff.2 (by simpa using hcl)]
      rfl
    rw [hnone] at h
    cases h

/-- Empty brackets, or a dash at either end, are refused. -/
theorem getIndices_empty (hu : '[' ∉ u) (ht : ']' ∉ t)
    (hbad : t = [] ∨ ∃ v w, t = v ++ '-' :: w ∧ '-' ∉ v ∧ (v = [] ∨ w = [])) {ft : ℤ × ℤ} :
    getIndices s (u ++ '[' :: (t ++ [']'])) ≠ .ok ft := by
  have hop : strchrFrom (u ++ '[' :: (t ++ [']'])) 0 '[' = some (0 + u.length) :=
    strchrFrom_eq rfl hu
  rw [Nat.zero_add] at hop
  have hdrop : (u ++ '[' :: (t ++ [']'])).drop u.length = '[' :: (t ++ [']']) := by simp
  have hcl : strchrFrom (u ++ '[' :: (t ++ [']'])) u.length ']' =
      some (u.length + ('[' :: t).length) := strchrFrom_eq hdrop (by simpa using ht)
  intro h
  rw [getIndices, hop] at h
  dsimp only at h
  rw [hcl] at h
  dsimp only at h
  rcases hbad with rfl | ⟨v, w, rfl, hv, hempty⟩
  · have hle : u.length + ['['].length ≤ u.length + 1 := le_refl _
    split at h
    · rw [if_pos (Or.inl hle)] at h
      cases h
    · rw [if_pos (Or.inl hle)] at h
      cases h
  · have hmi : strchrFrom (u ++ '[' :: (v ++ '-' :: w ++ [']'])) u.length '-' =
        some (u.length + ('[' :: v).length) :=
      strchrFrom_eq (v := w ++ [']']) (by simp) (by simpa using hv)
    rw [hmi] at h
    dsimp only at h
    rw [if_pos] at h
    · cases h
    · simp only [List.length_append, List.length_cons]
      rcases hempty with rfl | rfl
      · simp
      · simp only [List.length_nil]
        omega

/-- The indices in brackets at the end of a part. -/
theorem getIndices_iff (hu : '[' ∉ u) (ht : ']' ∉ t) {ft : ℤ × ℤ} :
    getIndices (u ++ '[' :: (t ++ [']']) ++ rest) (u ++ '[' :: (t ++ [']'])) = .ok ft ↔
      ∃ n m : ℕ, Indices IsNumber ('[' :: (t ++ [']'])) n m ∧
        ft = ((n : ℤ), if '-' ∈ t then (m : ℤ) else -1) := by
  simp only [indices_iff ht]
  by_cases hne : t = []
  · refine ⟨fun h ↦ absurd h (getIndices_empty hu ht (.inl hne)), fun h ↦ ?_⟩
    obtain ⟨n, m, ⟨hne', -⟩, -⟩ := h
    exact absurd hne hne'
  by_cases hdash : '-' ∈ t
  · obtain ⟨v, w, rfl, hv⟩ := List.eq_append_cons_of_mem hdash
    by_cases hguard : v = [] ∨ w = []
    · refine ⟨fun h ↦ absurd h (getIndices_empty hu ht (.inr ⟨v, w, rfl, hv, hguard⟩)), fun h ↦ ?_⟩
      obtain ⟨n, m, ⟨-, ⟨hno, -⟩ | ⟨v', w', heq, hv', hne, hne', -⟩⟩, -⟩ := h
      · exact absurd hdash hno
      · obtain ⟨rfl, rfl⟩ := split_unique hv hv' heq
        exact absurd hguard (by simp [hne, hne'])
    · rw [not_or] at hguard
      rw [List.mem_append, List.mem_cons, not_or, not_or] at ht
      have hassoc : v ++ '-' :: w ++ [']'] = v ++ '-' :: (w ++ [']']) := by simp
      rw [hassoc, getIndices_pair hu ht.1 hv ht.2.2 hguard.1 hguard.2]
      simp only [bind_ok, getnum_iff hguard.1 (c := '-') rfl rfl,
        getnum_iff hguard.2 (c := ']') rfl rfl, if_pos hdash]
      constructor
      · intro h
        obtain ⟨_, ⟨n, rfl, hn⟩, _, ⟨m, rfl, hm⟩, heq⟩ := h
        cases heq
        exact ⟨n, m, ⟨hne, .inr ⟨v, w, rfl, hv, hguard.1, hguard.2, hn, hm⟩⟩, rfl⟩
      · intro h
        obtain ⟨n, m, ⟨-, ⟨hno, -⟩ | ⟨v', w', heq, hv', -, -, hn, hm⟩⟩, rfl⟩ := h
        · exact absurd hdash hno
        · obtain ⟨rfl, rfl⟩ := split_unique hv hv' heq
          exact ⟨n, ⟨n, rfl, hn⟩, m, ⟨m, rfl, hm⟩, rfl⟩
  · rw [getIndices_single hu ht hdash hne]
    simp only [bind_ok, getnum_iff hne (c := ']') rfl rfl, if_neg hdash]
    constructor
    · intro h
      obtain ⟨_, ⟨n, rfl, hn⟩, heq⟩ := h
      cases heq
      exact ⟨n, n, ⟨hne, .inl ⟨hdash, rfl, hn⟩⟩, rfl⟩
    · intro h
      obtain ⟨n, m, ⟨-, ⟨-, rfl, hn⟩ | ⟨v, w, rfl, -⟩⟩, rfl⟩ := h
      · exact ⟨n, ⟨n, rfl, hn⟩, rfl⟩
      · exact absurd hdash (by simp)

/-- What the indices at the end of a part come to for an array. -/
theorem orDefault_getIndices (rest : List Char) (nelms : UInt32) (hu : '[' ∉ u) {f l : ℤ} :
    (∃ ft, getIndices (u ++ '[' :: y ++ rest) (u ++ '[' :: y) = .ok ft ∧
        orDefault nelms ft.1 ft.2 = (f, l)) ↔
      ∃ n m : ℕ, Indices IsNumber ('[' :: y) n m ∧ f = n ∧ l = m := by
  by_cases hy : ∃ t, y = t ++ [']'] ∧ ']' ∉ t
  · obtain ⟨t, rfl, ht⟩ := hy
    simp only [getIndices_iff hu ht]
    have hdefault : ∀ {n m : ℕ}, Indices IsNumber ('[' :: (t ++ [']'])) n m →
        orDefault nelms n (if '-' ∈ t then (m : ℤ) else -1) = ((n : ℤ), (m : ℤ)) := by
      intro n m h
      have hn : ¬(n : ℤ) < 0 := by omega
      have hm : ¬(m : ℤ) < 0 := by omega
      obtain ⟨-, ⟨hdash, rfl, -⟩ | ⟨v, w, rfl, -⟩⟩ := (indices_iff ht).1 h
      · rw [if_neg hdash, orDefault, if_neg hn, if_pos (by decide), if_neg hn]
      · rw [if_pos (by simp), orDefault, if_neg hn, if_neg hm]
    constructor
    · intro h
      obtain ⟨_, ⟨n, m, h, rfl⟩, hfl⟩ := h
      cases (hdefault h).symm.trans hfl
      exact ⟨n, m, h, rfl, rfl⟩
    · intro h
      obtain ⟨n, m, h, rfl, rfl⟩ := h
      exact ⟨_, ⟨n, m, h, rfl⟩, hdefault h⟩
  · constructor
    · intro h
      obtain ⟨ft, h, -⟩ := h
      refine absurd h (getIndices_error hu fun t ht ↦ ?_)
      by_contra hcl
      exact hy ⟨t, ht, hcl⟩
    · intro h
      obtain ⟨n, m, h, -⟩ := h
      obtain ⟨t, ht, hcl⟩ := mem_of_indices h
      exact absurd ⟨t, (List.cons.inj ht).2, hcl⟩ hy

/-- A part is the name of a child and what is in brackets in one way. -/
theorem child_unique (hn : ∀ a, checkArgs (H.name (H.entry a)) = true)
    (ha : a ∈ H.children (p.tailEntry H)) (hb : b ∈ H.children (p.tailEntry H)) {x' : List Char}
    (hx : x = [] ∨ ∃ t, x = '[' :: t) (hx' : x' = [] ∨ ∃ t, x' = '[' :: t)
    (h : H.name (H.entry a) ++ x = H.name (H.entry b) ++ x') : a = b ∧ x = x' := by
  have hbr : ∀ a, '[' ∉ H.name (H.entry a) := fun a ↦ not_mem_of_checkArgs (hn a) rfl
  have hname : H.name (H.entry a) = H.name (H.entry b) ∧ x = x' := by
    rcases hx with rfl | ⟨t, rfl⟩
    · rcases hx' with rfl | ⟨t', rfl⟩
      · exact ⟨by simpa using h, rfl⟩
      · have hno := hbr a
        rw [List.append_nil] at h
        rw [h] at hno
        exact absurd hno (by simp)
    · rcases hx' with rfl | ⟨t', rfl⟩
      · have hno := hbr b
        rw [List.append_nil] at h
        rw [← h] at hno
        exact absurd hno (by simp)
      · obtain ⟨hname, ht⟩ := split_unique (hbr a) (hbr b) h
        exact ⟨hname, ht ▸ rfl⟩
  have haddr := getAddress_name ha
  rw [hname.1, getAddress_name hb] at haddr
  exact ⟨(Option.some.inj haddr).symm, hname.2⟩

/-- No child has a name that starts with dots. -/
theorem ne_up (hn : ∀ a, checkArgs (H.name (H.entry a)) = true)
    (hx : x = [] ∨ ∃ t, x = '[' :: t) : H.name (H.entry a) ++ x ≠ ['.', '.'] := by
  have hdot := not_mem_of_checkArgs (hn a) (c := '.') rfl
  intro h
  cases hname : H.name (H.entry a) with
  | nil =>
    rw [hname, List.nil_append] at h
    rcases hx with rfl | ⟨t, rfl⟩ <;> cases h
  | cons c t =>
    rw [hname, List.cons_append] at h
    rw [hname, (List.cons.inj h).1] at hdot
    exact hdot List.mem_cons_self

theorem Indices.ne_nil (h : Indices number x n m) : x ≠ [] := by
  obtain ⟨t, rfl, -⟩ := mem_of_indices h
  exact List.cons_ne_nil _ _

theorem Indices.eq_cons (h : Indices number x n m) : x = [] ∨ ∃ t, x = '[' :: t := by
  obtain ⟨t, rfl, -⟩ := mem_of_indices h
  exact .inr ⟨_, rfl⟩

theorem descend_eq_make {f l : ℤ} (hf : 0 ≤ f) (hfl : f ≤ l) (hl : l ≤ toInt (H.nelms a - 1)) :
    p.descend a f l = p.pushBack (.make H a f l p.getNelms) := by
  rw [make_of_inRange hf hfl hl]
  rfl

theorem key_split (comp : List Char) :
    ∃ x, comp = getKey comp ++ x ∧ '[' ∉ getKey comp ∧ (x = [] ∨ ∃ y, x = '[' :: y) := by
  by_cases h : '[' ∈ comp
  · obtain ⟨u, v, rfl, hu⟩ := List.eq_append_cons_of_mem h
    have hkey : getKey (u ++ '[' :: v) = u := getKey_append hu (.inr ⟨v, rfl⟩)
    rw [hkey]
    exact ⟨_, rfl, hu, .inr ⟨v, rfl⟩⟩
  · have hkey : getKey comp = comp := by rw [getKey, strchrFrom_none h]
    rw [hkey]
    exact ⟨[], by simp, h, .inl rfl⟩

/-- An array without indices comes to all of its elements. -/
theorem orDefault_whole {nelms : UInt32} (h0 : 0 < nelms.toNat) (h31 : nelms.toNat < 2 ^ 31) :
    orDefault nelms (-1) (-1) = (0, (nelms.toNat : ℤ) - 1) := by
  have hpred := toInt_pred nelms
  rw [if_pos (by omega)] at hpred
  rw [orDefault, if_pos (by decide), if_pos (by decide), if_pos (by decide), hpred]

/-- The guard on the indices, and what the whole array comes to. -/
theorem whole_guard {nelms : UInt32} :
    ¬((orDefault nelms (-1) (-1)).1 > (orDefault nelms (-1) (-1)).2 ∨
      (orDefault nelms (-1) (-1)).2 ≥ toInt nelms) ↔ 0 < nelms.toNat ∧ nelms.toNat < 2 ^ 31 := by
  have hlt := nelms.toNat_lt
  have hpred := toInt_pred nelms
  have hint := toInt_eq nelms
  have hneg : (-1 : ℤ) < 0 := by decide
  simp only [orDefault, if_pos hneg]
  split_ifs at hpred hint <;> omega

theorem part_guard {nelms : UInt32} {f l : ℕ} : ¬((f : ℤ) > l ∨ (l : ℤ) ≥ toInt nelms) ↔
    f ≤ l ∧ l < nelms.toNat ∧ nelms.toNat < 2 ^ 31 := by
  have hlt := nelms.toNat_lt
  have hint := toInt_eq nelms
  split_ifs at hint <;> omega

/-- One part of a path, whatever comes after it. -/
theorem findComponent_iff (rest : List Char) (hn : ∀ a, checkArgs (H.name (H.entry a)) = true) :
    p.findComponent H (comp ++ rest) comp = .ok q ↔ Found H p comp q := by
  constructor
  · intro h
    unfold findComponent at h
    split_ifs at h with hup hempty
    · cases h
      rw [hup]
      exact Component.up hempty
    · dsimp only at h
      split at h
      case isFalse => cases h
      obtain ⟨ft, hft, h⟩ := bind_ok.1 h
      split at h
      case h_1 => cases h
      case h_2 found hfound =>
        have hmem := List.mem_of_find?_eq_some hfound
        have hname : H.name (H.entry found) = getKey comp := of_decide_eq_true
          (List.find?_some (p := fun a ↦ decide (H.name (H.entry a) = getKey comp)) hfound)
        obtain ⟨x, hx, hkey, rfl | ⟨y, rfl⟩⟩ := key_split comp
        · rw [List.append_nil] at hx
          rw [getIndices_none (hx ▸ hkey)] at hft
          cases hft
          split_ifs at h with hguard
          obtain ⟨h0, h31⟩ := whole_guard.1 hguard
          have hpred := toInt_pred (H.nelms found)
          rw [if_pos (by omega)] at hpred
          cases h
          rw [hx, ← hname]
          have hdescend : p.descend found 0 ((H.nelms found).toNat - 1) = _ :=
            descend_eq_make (H := H) (le_refl 0) (by omega) (by omega)
          rw [orDefault_whole h0 h31, ← hdescend]
          exact Component.whole hmem ⟨h0, h31⟩
        · rw [hx] at hft
          obtain ⟨f, l, hind, hf, hl⟩ := (orDefault_getIndices rest (H.nelms found) hkey
            (f := (orDefault (H.nelms found) ft.1 ft.2).1)
            (l := (orDefault (H.nelms found) ft.1 ft.2).2)).1 ⟨ft, hft, rfl⟩
          rw [hf, hl] at h
          split_ifs at h with hguard
          obtain ⟨hfl, hlt, h31⟩ := part_guard.1 hguard
          have hpred := toInt_pred (H.nelms found)
          rw [if_pos (by omega)] at hpred
          cases h
          rw [hx, ← hname, ← descend_eq_make (by omega) (by omega) (by omega)]
          exact Component.part hmem ⟨by omega, h31⟩ hind hfl hlt
  · intro h
    cases h with
    | up hempty => rw [findComponent, if_pos rfl, if_neg hempty]
    | @whole a ha hc =>
      obtain ⟨h0, h31⟩ := hc
      have hup : H.name (H.entry a) ≠ ['.', '.'] := by simpa using ne_up (a := a) hn (.inl rfl)
      have hbr := not_mem_of_checkArgs (hn a) (c := '[') rfl
      have hkey : getKey (H.name (H.entry a)) = H.name (H.entry a) := by
        rw [getKey, strchrFrom_none hbr]
      have hguard := whole_guard.2 ⟨h0, h31⟩
      have hpred := toInt_pred (H.nelms a)
      rw [if_pos (by omega)] at hpred
      rw [orDefault_whole h0 h31] at hguard
      rw [findComponent_child hup ha hkey (getIndices_none hbr) (orDefault_whole h0 h31) hguard,
        ← descend_eq_make (le_refl 0) (by omega) (by omega)]
    | @part a x f l ha hc hind hfl hlt =>
      obtain ⟨-, h31⟩ := hc
      obtain ⟨y, rfl⟩ : ∃ y, x = '[' :: y := (mem_of_indices hind).imp' (· ++ [']']) fun t ht ↦ ht.1
      have hbr := not_mem_of_checkArgs (hn a) (c := '[') rfl
      have hpred := toInt_pred (H.nelms a)
      rw [if_pos (by omega)] at hpred
      obtain ⟨ft, hft, hdefault⟩ :=
        (orDefault_getIndices rest (H.nelms a) hbr).2 ⟨f, l, hind, rfl, rfl⟩
      rw [findComponent_child (ne_up hn (.inr ⟨y, rfl⟩)) ha (getKey_append hbr (.inr ⟨y, rfl⟩)) hft
        hdefault (part_guard.2 ⟨hfl, hlt, h31⟩),
        ← descend_eq_make (by omega) (by omega) (by omega)]

/-- Finding a path is finding one part after the other. -/
theorem findByName_iff (hn : ∀ a, checkArgs (H.name (H.entry a)) = true) :
    p.findByName H s = .ok q ↔ Chain (Found H) p (components s) q := by
  induction hs : s.length using Nat.strongRecOn generalizing s p with
  | ind n ih =>
    by_cases hd : s.dropWhile (· = '/') = []
    · rw [findByName, if_pos hd, ← components_dropWhile, hd]
      constructor
      · intro h
        cases h
        exact .nil
      · intro h
        cases h
        rfl
    · obtain ⟨comp, rest, hsplit, hne, hslash, hrest, hcomp⟩ := components_split hd
      have hdrop : (comp ++ rest).dropWhile (· = '/') = comp ++ rest := by
        obtain ⟨c, t, rfl⟩ := List.exists_cons_of_ne_nil hne
        rw [List.cons_append, List.dropWhile_cons_of_neg]
        simpa using ne_of_mem_of_not_mem List.mem_cons_self hslash
      have hskip : p.findByName H s = p.findByName H ('/' :: comp ++ rest) := by
        have hagain : ('/' :: comp ++ rest).dropWhile (· = '/') = s.dropWhile (· = '/') := by
          rw [List.cons_append, List.dropWhile_cons_of_pos (by simp), hdrop, hsplit]
        rw [findByName, findByName.eq_def _ _ ('/' :: comp ++ rest), hagain]
      have hlt : rest.length < n := by
        have hle := (List.dropWhile_suffix (fun c : Char ↦ decide (c = '/')) (l := s)).length_le
        rw [hsplit, List.length_append] at hle
        have hpos := List.length_pos_iff.2 hne
        omega
      rw [hskip, findByName_cons hne hslash hrest, hcomp, bind_ok]
      constructor
      · intro h
        obtain ⟨r, hr, hq⟩ := h
        exact .cons ((findComponent_iff rest hn).1 hr) ((ih _ hlt rfl).1 hq)
      · intro h
        cases h with
        | @cons _ r _ _ _ hr hq => exact ⟨r, (findComponent_iff rest hn).2 hr, (ih _ hlt rfl).2 hq⟩

theorem Found.unique (hn : ∀ a, checkArgs (H.name (H.entry a)) = true) (h : Found H p comp q)
    (h' : Found H p comp r) : q = r := by
  have hq := (findComponent_iff [] hn).2 h
  rw [(findComponent_iff [] hn).2 h'] at hq
  exact (Except.ok.inj hq).symm

/-- A part that names a child goes down to the child. -/
theorem Component.descends (hn : ∀ a, checkArgs (H.name (H.entry a)) = true)
    (ha : a ∈ H.children (p.tailEntry H)) (hx : x = [] ∨ ∃ t, x = '[' :: t)
    (h : Component H number counted p (H.name (H.entry a) ++ x) q) :
    counted (H.nelms a).toNat ∧ (x ≠ [] → ∃ f l : ℕ, Indices number x f l ∧ q = p.descend a f l) := by
  generalize hc : H.name (H.entry a) ++ x = c at h
  cases h with
  | up => exact absurd hc (ne_up hn hx)
  | @whole b hb hcount =>
    obtain ⟨rfl, rfl⟩ := child_unique hn ha hb hx (.inl rfl) (hc.trans (List.append_nil _).symm)
    exact ⟨hcount, fun h ↦ absurd rfl h⟩
  | @part b y f l hb hcount hind _ _ =>
    obtain ⟨rfl, rfl⟩ := child_unique hn ha hb hx hind.eq_cons hc
    exact ⟨hcount, fun _ ↦ ⟨f, l, hind, rfl⟩⟩

/-- What the grammar says of a part is what is found, exactly if the part is plain. -/
theorem found_iff_component (hn : ∀ a, checkArgs (H.name (H.entry a)) = true) :
    (∀ q, Found H p comp q ↔ Component H IsDecimal (fun _ ↦ True) p comp q) ↔ Plain H p comp := by
  constructor
  · intro h a ha x hx
    subst hx
    refine ⟨fun hnil ↦ ?_, fun f l hfl hl ↦ ⟨fun hind ↦ ?_, fun hind ↦ ?_⟩⟩
    · subst hnil
      have hwhole : Component H IsDecimal (fun _ ↦ True) p (H.name (H.entry a) ++ [])
          (p.descend a 0 ((H.nelms a).toNat - 1)) := by
        rw [List.append_nil]
        exact .whole ha trivial
      exact (Component.descends hn ha (.inl rfl) ((h _).2 hwhole)).1
    · have hpart := (h _).2 (.part ha trivial hind hfl hl)
      obtain ⟨hcount, hindices⟩ := Component.descends hn ha hind.eq_cons hpart
      obtain ⟨f', l', hind', heq⟩ := hindices hind.ne_nil
      obtain ⟨-, hf, hl⟩ := descend_inj heq
      obtain ⟨rfl, rfl⟩ : f = f' ∧ l = l' := by omega
      exact ⟨hind', hcount⟩
    · have hpart := (h _).1 (.part ha hind.2 hind.1 hfl hl)
      obtain ⟨-, hindices⟩ := Component.descends hn ha hind.1.eq_cons hpart
      obtain ⟨f', l', hind', heq⟩ := hindices hind.1.ne_nil
      obtain ⟨-, hf, hl⟩ := descend_inj heq
      obtain ⟨rfl, rfl⟩ : f = f' ∧ l = l' := by omega
      exact hind'
  · intro h q
    constructor
    · intro hq
      cases hq with
      | up hne => exact .up hne
      | whole ha _ => exact .whole ha trivial
      | part ha hc hind hfl hl =>
        exact .part ha trivial (((h _ ha _ rfl).2 _ _ hfl hl).2 ⟨hind, hc⟩) hfl hl
    · intro hq
      cases hq with
      | up hne => exact .up hne
      | whole ha _ => exact .whole ha ((h _ ha [] (List.append_nil _).symm).1 rfl)
      | part ha _ hind hfl hl =>
        obtain ⟨hind, hc⟩ := ((h _ ha _ rfl).2 _ _ hfl hl).1 hind
        exact .part ha hc hind hfl hl

/-- `findByName` keeps to the grammar, for a string and for all that begin with the same parts,
exactly if each part that is reached is plain. -/
theorem findByName_iff_denotes (hn : ∀ a, checkArgs (H.name (H.entry a)) = true)
    (p : PathImpl Ent Addr) (s : List Char) :
    (∀ t, components t <+: components s → ∀ q, p.findByName H t = .ok q ↔ Denotes H p t q) ↔
      ∀ cs c q, cs ++ [c] <+: components s → Denotes H p (cs.flatMap ('/' :: ·)) q →
        Plain H q c := by
  have hparts : ∀ cs, cs <+: components s → components (cs.flatMap ('/' :: ·)) = cs :=
    fun cs hcs ↦ components_flatMap fun c hc ↦ components_ne_nil (hcs.subset hc)
  have hchain : (∀ ds, ds <+: components s → ∀ q, Chain (Found H) p ds q ↔
        Chain (Component H IsDecimal fun _ ↦ True) p ds q) ↔ _ :=
    chain_iff_chain fun p c q r h h' ↦ h.unique hn h'
  constructor
  · intro h cs c q hcs hq
    refine (found_iff_component hn).1 (hchain.1 (fun ds hds q ↦ ?_) cs c q hcs ?_)
    · have hiff := h (ds.flatMap ('/' :: ·)) ((hparts ds hds).symm ▸ hds) q
      rw [findByName_iff hn, Denotes, hparts ds hds] at hiff
      exact hiff
    · rw [Denotes, hparts cs ((List.prefix_append cs [c]).trans hcs)] at hq
      exact hq
  · intro h t ht q
    rw [findByName_iff hn]
    refine hchain.2 (fun ds c r hds hr ↦ (found_iff_component hn).2 (h ds c r hds ?_)) _ ht q
    rw [Denotes, hparts ds ((List.prefix_append ds [c]).trans hds)]
    exact hr

theorem findByName_iff_denotes_nested :
    (create 0).findByName (nested 4 4) ['a'] = .ok ⟨0, [⟨0, 0, 3, 4⟩]⟩ ↔
      Denotes (nested 4 4) (create 0) ['a'] ⟨0, [⟨0, 0, 3, 4⟩]⟩ := by
  refine (findByName_iff_denotes (by decide) (create 0) ['a']).2 ?_ ['a'] List.prefix_rfl _
  intro cs c q hcs hq
  have hcomp : components ['a'] = [] ++ [['a']] := by decide +kernel
  have hlen := hcs.length_le
  rw [hcomp, List.length_append, List.nil_append, List.length_singleton, List.length_singleton]
    at hlen
  obtain rfl : cs = [] := List.length_eq_zero_iff.1 (by omega)
  cases hq
  intro a ha x hx
  obtain rfl : a = 0 := by simpa [create, tailEntry, nested] using ha
  rw [hcomp] at hcs
  obtain rfl : c = ['a'] := by simpa using hcs
  obtain rfl : x = [] := by simpa [nested] using hx
  exact ⟨fun _ ↦ ⟨by decide, by decide⟩,
    fun f l _ _ ↦ ⟨fun h ↦ absurd rfl h.ne_nil, fun h ↦ absurd rfl h.1.ne_nil⟩⟩

/-- A number in base 16 is an index, which the grammar does not have. -/
theorem not_denotes :
    (create 0).findByName (nested 4 4) "a[0x1]".toList = .ok ⟨0, [⟨0, 1, 1, 1⟩]⟩ ∧
      ¬Denotes (nested 4 4) (create 0) "a[0x1]".toList ⟨0, [⟨0, 1, 1, 1⟩]⟩ := by
  refine ⟨toOption_eq_some.1 (by decide +kernel), fun h ↦ ?_⟩
  have hcomp : components "a[0x1]".toList = [['a'] ++ "[0x1]".toList] := by decide +kernel
  rw [Denotes, hcomp, chain_singleton] at h
  have hx : "[0x1]".toList = '[' :: (['0', 'x', '1'] ++ [']']) := by decide +kernel
  obtain ⟨-, hindices⟩ := Component.descends (a := (0 : Fin 2)) (x := "[0x1]".toList) (by decide)
    (by decide) (.inr ⟨_, hx⟩) h
  obtain ⟨f, l, hind, -⟩ := hindices (by rw [hx]; exact List.cons_ne_nil _ _)
  rw [hx] at hind
  obtain ⟨-, ⟨-, -, hdec⟩ | ⟨u, v, heq, -⟩⟩ := (indices_iff (by decide)).1 hind
  · exact absurd (hdec.2.1 'x' (by decide)) (by decide)
  · exact absurd (heq ▸ (by simp : '-' ∈ u ++ '-' :: v) : '-' ∈ ['0', 'x', '1']) (by decide)

end Cpsw.Path
