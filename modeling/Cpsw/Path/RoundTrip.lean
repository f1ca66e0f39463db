import Cpsw.Path.WellFormed

namespace Cpsw.Path

open Cpsw.Lib Cpsw.Lib.Run PathImpl

variable {Ent Addr : Type} {H : Hierarchy Ent Addr} {p q : PathImpl Ent Addr}
variable {e : PathEntry Addr} {s t u v comp rest : List Char} {c : Char} {i n m : ℕ}

/-- The children have names, of the characters that are allowed. -/
def Named (H : Hierarchy Ent Addr) : Prop :=
  ∀ a, checkArgs (H.name (H.entry a)) = true ∧ H.name (H.entry a) ≠ []

theorem strchrFrom_eq (hs : s.drop i = u ++ c :: v) (hc : c ∉ u) :
    strchrFrom s i c = some (i + u.length) := by
  have h : (u ++ c :: v).idxOf? c = some u.length := by
    rw [List.idxOf?_eq_some_iff]
    refine ⟨by simp, by simp, fun j hj ↦ ?_⟩
    rw [List.getElem_append_left hj]
    exact ne_of_mem_of_not_mem (List.getElem_mem hj) hc
  rw [strchrFrom, hs, h]
  rfl

theorem strchrFrom_none (hc : c ∉ s) : strchrFrom s i c = none := by
  have h : (s.drop i).idxOf? c = none := List.idxOf?_eq_none_iff.2 fun h ↦ hc (List.mem_of_mem_drop h)
  rw [strchrFrom, h]
  rfl

theorem not_mem_toDigits (hc : c.isDigit = false) : c ∉ Nat.toDigits 10 n := by
  intro h
  have := Nat.isDigit_of_mem_toDigits (by decide) (by decide) h
  rw [hc] at this
  cases this

theorem getnum_toDigits (hn : n ≤ INT_MAX) (hc : Numeral.digitOf c = none) :
    getnum (Nat.toDigits 10 n ++ c :: s) (Nat.toDigits 10 n).length = .ok (n : ℤ) := by
  have hlt : n < 2 ^ 64 := by
    simp only [INT_MAX] at hn
    omega
  have hs : ∀ c' ∈ (c :: s).head?, Numeral.digitOf c' = none := by
    intro c' hc'
    cases hc'
    exact hc
  rw [getnum, Numeral.strtoul_decimal hlt hs]
  refine if_neg ?_
  rintro (h | h)
  · exact h (by simp [Nat.add_comm])
  · omega

section Indices

/-- No brackets: the whole array. -/
theorem getIndices_none (h : '[' ∉ comp) : getIndices s comp = .ok (-1, -1) := by
  rw [getIndices, strchrFrom_none h]

/-- One number in brackets. -/
theorem getIndices_single (hname : '[' ∉ u) (ht : ']' ∉ t) (hdash : '-' ∉ t) (hne : t ≠ []) :
    getIndices (u ++ '[' :: (t ++ [']']) ++ rest) (u ++ '[' :: (t ++ [']'])) =
      getnum (t ++ ']' :: rest) t.length >>= fun idxf ↦ .ok (idxf, -1) := by
  have hop : strchrFrom (u ++ '[' :: (t ++ [']'])) 0 '[' = some (0 + u.length) :=
    strchrFrom_eq rfl hname
  rw [Nat.zero_add] at hop
  have hdrop : (u ++ '[' :: (t ++ [']'])).drop u.length = ('[' :: t) ++ [']'] := by simp
  have hcl : strchrFrom (u ++ '[' :: (t ++ [']'])) u.length ']' =
      some (u.length + ('[' :: t).length) := strchrFrom_eq hdrop (by simpa using ht)
  have hmi : strchrFrom (u ++ '[' :: (t ++ [']'])) u.length '-' = none := by
    rw [strchrFrom, hdrop, List.idxOf?_eq_none_iff.2 (by simpa using hdash)]
    rfl
  have hpos : 0 < t.length := List.length_pos_iff.2 hne
  have hstart : (u ++ '[' :: (t ++ [']']) ++ rest).drop (u.length + 1) = t ++ ']' :: rest := by
    simp
  have hlen : u.length + ('[' :: t).length - (u.length + 1) = t.length := by
    rw [List.length_cons]
    omega
  simp only [getIndices, hop, hcl, hmi]
  rw [if_neg (by simp only [List.length_append, List.length_cons, List.length_nil]; omega),
    hstart, hlen]
  rfl

/-- Two numbers in brackets, with a dash between them. -/
theorem getIndices_pair (hname : '[' ∉ u) (ht : ']' ∉ t) (hdash : '-' ∉ t) (hv : ']' ∉ v)
    (hne : t ≠ []) (hne' : v ≠ []) :
    getIndices (u ++ '[' :: (t ++ '-' :: (v ++ [']'])) ++ rest)
        (u ++ '[' :: (t ++ '-' :: (v ++ [']']))) =
      getnum (t ++ '-' :: (v ++ ']' :: rest)) t.length >>= fun idxf ↦
        getnum (v ++ ']' :: rest) v.length >>= fun idxt ↦ .ok (idxf, idxt) := by
  have hop : strchrFrom (u ++ '[' :: (t ++ '-' :: (v ++ [']']))) 0 '[' = some (0 + u.length) :=
    strchrFrom_eq rfl hname
  rw [Nat.zero_add] at hop
  have hdrop : (u ++ '[' :: (t ++ '-' :: (v ++ [']']))).drop u.length =
      ('[' :: t ++ '-' :: v) ++ [']'] := by simp
  have hcl : strchrFrom (u ++ '[' :: (t ++ '-' :: (v ++ [']']))) u.length ']' =
      some (u.length + ('[' :: t ++ '-' :: v).length) :=
    strchrFrom_eq hdrop (by simp [ht, hv])
  have hmi : strchrFrom (u ++ '[' :: (t ++ '-' :: (v ++ [']']))) u.length '-' =
      some (u.length + ('[' :: t).length) :=
    strchrFrom_eq (v := v ++ [']']) (by simp) (by simpa using hdash)
  have hpos : 0 < t.length := List.length_pos_iff.2 hne
  have hpos' : 0 < v.length := List.length_pos_iff.2 hne'
  have hfrom : (u ++ '[' :: (t ++ '-' :: (v ++ [']'])) ++ rest).drop (u.length + 1) =
      t ++ '-' :: (v ++ ']' :: rest) := by simp
  have hto : (u ++ '[' :: (t ++ '-' :: (v ++ [']'])) ++ rest).drop
      (u.length + ('[' :: t).length + 1) = v ++ ']' :: rest := by
    have hsplit : u ++ '[' :: (t ++ '-' :: (v ++ [']'])) ++ rest =
        (u ++ '[' :: t ++ ['-']) ++ (v ++ ']' :: rest) := by simp
    rw [hsplit, List.drop_left' (by simp; omega)]
  have hlen : u.length + ('[' :: t).length - (u.length + 1) = t.length := by
    rw [List.length_cons]
    omega
  have hlen' : u.length + ('[' :: t ++ '-' :: v).length - (u.length + ('[' :: t).length + 1) =
      v.length := by
    rw [List.length_append, List.length_cons, List.length_cons]
    omega
  simp only [getIndices, hop, hcl, hmi]
  rw [if_neg (by simp only [List.length_append, List.length_cons, List.length_nil]; omega),
    hfrom, hlen, hto, hlen']
  rfl

/-- One index in brackets. -/
theorem getIndices_one (hname : '[' ∉ u) (hn : n ≤ INT_MAX) :
    getIndices (u ++ '[' :: (Nat.toDigits 10 n ++ [']']) ++ rest)
      (u ++ '[' :: (Nat.toDigits 10 n ++ [']'])) = .ok ((n : ℤ), -1) := by
  rw [getIndices_single hname (not_mem_toDigits rfl) (not_mem_toDigits rfl)
    (List.length_pos_iff.1 Nat.length_toDigits_pos), getnum_toDigits hn rfl]
  rfl

/-- Two indices in brackets. -/
theorem getIndices_two (hname : '[' ∉ u) (hn : n ≤ INT_MAX) (hm : m ≤ INT_MAX) :
    getIndices (u ++ '[' :: (Nat.toDigits 10 n ++ '-' :: (Nat.toDigits 10 m ++ [']'])) ++ rest)
      (u ++ '[' :: (Nat.toDigits 10 n ++ '-' :: (Nat.toDigits 10 m ++ [']']))) =
        .ok ((n : ℤ), (m : ℤ)) := by
  rw [getIndices_pair hname (not_mem_toDigits rfl) (not_mem_toDigits rfl) (not_mem_toDigits rfl)
    (List.length_pos_iff.1 Nat.length_toDigits_pos)
    (List.length_pos_iff.1 Nat.length_toDigits_pos), getnum_toDigits hn rfl,
    getnum_toDigits hm rfl]
  rfl

end Indices

theorem getKey_append (hu : '[' ∉ u) (hv : v = [] ∨ ∃ t, v = '[' :: t) : getKey (u ++ v) = u := by
  rcases hv with rfl | ⟨t, rfl⟩
  · rw [List.append_nil, getKey, strchrFrom_none hu]
  · rw [getKey, strchrFrom_eq (u := u) rfl hu]
    simp

/-- A hub finds a child by its name. -/
theorem getAddress_name {a : Addr} {d : Ent} (ha : a ∈ H.children d) :
    H.getAddress d (H.name (H.entry a)) = some a := by
  have hnodup := H.names_nodup d
  rw [Hierarchy.getAddress]
  generalize H.children d = as at ha hnodup
  induction as with
  | nil => cases ha
  | cons b as ih =>
    rw [List.map_cons, List.nodup_cons] at hnodup
    rcases List.mem_cons.1 ha with rfl | ha
    · exact List.find?_cons_of_pos (by simp)
    · rw [List.find?_cons_of_neg, ih ha hnodup.2]
      intro h
      apply hnodup.1
      rw [of_decide_eq_true h]
      exact List.mem_map_of_mem ha

/-- One part of a path and what follows it. -/
theorem findByName_cons (hc : comp ≠ []) (hslash : '/' ∉ comp) (hr : rest = [] ∨ ∃ t, rest = '/' :: t) :
    p.findByName H ('/' :: comp ++ rest) =
      p.findComponent H (comp ++ rest) comp >>= fun p ↦ p.findByName H rest := by
  obtain ⟨c, u, rfl⟩ := List.exists_cons_of_ne_nil hc
  have hne : c ≠ '/' := fun h ↦ hslash (h ▸ List.mem_cons_self)
  have hskip : ('/' :: (c :: u) ++ rest).dropWhile (· = '/') = c :: u ++ rest := by
    rw [List.cons_append, List.dropWhile_cons_of_pos (by simp), List.cons_append,
      List.dropWhile_cons_of_neg (by simpa using hne)]
  have hall : ∀ x ∈ c :: u, decide (x ≠ '/') = true := by
    intro x hx
    exact decide_eq_true (ne_of_mem_of_not_mem hx hslash)
  have htake : (c :: u ++ rest).takeWhile (· ≠ '/') = c :: u := by
    rw [List.takeWhile_append_of_pos hall]
    rcases hr with rfl | ⟨t, rfl⟩ <;> simp
  have hdrop : (c :: u ++ rest).dropWhile (· ≠ '/') = rest := by
    rw [List.dropWhile_append_of_pos hall]
    rcases hr with rfl | ⟨t, rfl⟩ <;> simp
  rw [findByName, hskip, if_neg (by simp)]
  dsimp only
  rw [htake, hdrop]
  congr 1
  funext p'
  rcases hr with rfl | ⟨t, rfl⟩
  · rw [if_pos rfl, findByName, List.dropWhile_nil, if_pos rfl]
  · exact if_neg (by simp)

theorem not_mem_of_checkArgs {name : List Char} (h : checkArgs name = true)
    (hc : (c.isAlphanum || c = '_' || c = '-') = false) : c ∉ name := by
  intro hm
  have := List.all_eq_true.1 h c hm
  rw [hc] at this
  cases this

/-- What is printed of an entry after the slash. -/
def showPart (H : Hierarchy Ent Addr) (e : PathEntry Addr) : List Char :=
  H.name (H.entry e.c_p) ++ showIndices H e

theorem toString_eq : p.toString H = p.entries.flatMap fun e ↦ '/' :: showPart H e := rfl

theorem appendNum_natCast : appendNum (n : ℤ) = Nat.toDigits 10 n := by
  have h : ¬(n : ℤ) < 0 := by omega
  rw [appendNum, if_neg h, List.nil_append, Int.natAbs_natCast]

/-- The indices of an entry are read back, or left to the default if the array has one element. -/
theorem getIndices_showPart (hname : '[' ∉ H.name (H.entry e.c_p)) (hf : 0 ≤ e.idxf)
    (hft : e.idxf ≤ e.idxt) (ht : e.idxt < (H.nelms e.c_p).toNat)
    (hn : (H.nelms e.c_p).toNat < 2 ^ 31) :
    ∃ f t, getIndices (showPart H e ++ rest) (showPart H e) = .ok (f, t) ∧
      orDefault (H.nelms e.c_p) f t = (e.idxf, e.idxt) := by
  obtain ⟨f, hff⟩ := Int.eq_ofNat_of_zero_le hf
  obtain ⟨t, htt⟩ := Int.eq_ofNat_of_zero_le (hf.trans hft)
  have hfmax : f ≤ INT_MAX := by
    simp only [INT_MAX]
    omega
  have htmax : t ≤ INT_MAX := by
    simp only [INT_MAX]
    omega
  have hf0 : ¬(f : ℤ) < 0 := by omega
  have ht0 : ¬(t : ℤ) < 0 := by omega
  have hlt : 1 < H.nelms e.c_p ↔ 1 < (H.nelms e.c_p).toNat := UInt32.lt_iff_toNat_lt
  by_cases h1 : 1 < (H.nelms e.c_p).toNat
  · by_cases heq : e.idxt = e.idxf
    · have hpart : showPart H e =
          H.name (H.entry e.c_p) ++ '[' :: (Nat.toDigits 10 f ++ [']']) := by
        simp [showPart, showIndices, hlt.2 h1, heq, hff, appendNum_natCast]
      refine ⟨f, -1, hpart ▸ getIndices_one hname hfmax, ?_⟩
      rw [orDefault, if_neg hf0, if_pos (by decide), if_neg hf0, heq, hff]
    · have hpart : showPart H e = H.name (H.entry e.c_p) ++
          '[' :: (Nat.toDigits 10 f ++ '-' :: (Nat.toDigits 10 t ++ [']'])) := by
        rw [hff, htt] at heq
        simp [showPart, showIndices, hlt.2 h1, heq, hff, htt, appendNum_natCast]
      refine ⟨f, t, hpart ▸ getIndices_two hname hfmax htmax, ?_⟩
      rw [orDefault, if_neg hf0, if_neg ht0, hff, htt]
  · have hpart : showPart H e = H.name (H.entry e.c_p) := by
      simp [showPart, showIndices, mt hlt.1 h1]
    have hlast : toInt (H.nelms e.c_p - 1) = e.idxt := by
      rw [toInt_pred, if_pos (by omega)]
      omega
    refine ⟨-1, -1, getIndices_none (hpart ▸ hname), ?_⟩
    rw [orDefault, if_pos (by decide), if_pos (by decide), if_pos (by decide), hlast]
    congr 1
    omega

theorem not_mem_appendNum {i : ℤ} (hc : c.isDigit = false) (hm : c ≠ '-') : c ∉ appendNum i := by
  unfold appendNum
  split_ifs <;> simp [not_mem_toDigits hc, hm]

theorem slash_not_mem_showPart (hcheck : checkArgs (H.name (H.entry e.c_p)) = true) :
    '/' ∉ showPart H e := by
  have hname := not_mem_of_checkArgs hcheck (c := '/') rfl
  have hnum : ∀ i, '/' ∉ appendNum i := fun i ↦ not_mem_appendNum rfl (by decide)
  unfold showPart showIndices
  split_ifs <;> simp [hname, hnum]

/-- A part leads down to the child that it names, to the indices that it gives. -/
theorem findComponent_child {a : Addr} {ft : ℤ × ℤ} {f l : ℤ} (hup : comp ≠ ['.', '.'])
    (ha : a ∈ H.children (p.tailEntry H)) (hkey : getKey comp = H.name (H.entry a))
    (hft : getIndices s comp = .ok ft) (hdefault : orDefault (H.nelms a) ft.1 ft.2 = (f, l))
    (hguard : ¬(f > l ∨ l ≥ toInt (H.nelms a))) :
    p.findComponent H s comp = .ok (p.pushBack (.make H a f l p.getNelms)) := by
  have hdev : H.isDev (p.tailEntry H) = true := (H.mem_children _ _).1 ha ▸ H.isDev_owner a
  rw [findComponent, if_neg hup]
  dsimp only
  rw [if_pos hdev, hft]
  dsimp only [bind, Except.bind]
  rw [hkey, getAddress_name ha]
  dsimp only
  rw [hdefault]
  dsimp only
  rw [if_neg hguard]

/-- The part that an entry prints leads down to its child. -/
theorem findComponent_showPart (hn : Named H) (he : e.c_p ∈ H.children (p.tailEntry H))
    (hf : 0 ≤ e.idxf) (hft : e.idxf ≤ e.idxt) (ht : e.idxt < (H.nelms e.c_p).toNat)
    (hmax : (H.nelms e.c_p).toNat < 2 ^ 31)
    (hleft : e.nelmsLeft = p.getNelms * UInt32.ofInt e.width) :
    p.findComponent H (showPart H e ++ rest) (showPart H e) = .ok (p.pushBack e) := by
  obtain ⟨hcheck, hne⟩ := hn e.c_p
  have hbracket := not_mem_of_checkArgs hcheck (c := '[') rfl
  have hup : showPart H e ≠ ['.', '.'] := by
    obtain ⟨c, u, hname⟩ := List.exists_cons_of_ne_nil hne
    intro h
    rw [showPart, hname, List.cons_append, List.cons.injEq] at h
    exact not_mem_of_checkArgs hcheck (c := '.') rfl (hname ▸ h.1 ▸ List.mem_cons_self)
  have hkey : getKey (showPart H e) = H.name (H.entry e.c_p) := by
    apply getKey_append hbracket
    by_cases h1 : 1 < H.nelms e.c_p
    · exact .inr ⟨_, if_pos h1⟩
    · exact .inl (if_neg h1)
  obtain ⟨f, t, hindices, hdefault⟩ := @getIndices_showPart _ _ H e rest hbracket hf hft ht hmax
  have hint : toInt (H.nelms e.c_p) = (H.nelms e.c_p).toNat := by rw [toInt_eq, if_pos hmax]
  have hmake : PathEntry.make H e.c_p e.idxf e.idxt p.getNelms = e := by
    rw [make_of_inRange hf hft]
    · have hwidth : e.idxt - e.idxf + 1 = e.width := rfl
      rw [hwidth, ← hleft]
    · rw [toInt_pred, if_pos (by omega)]
      omega
  rw [findComponent_child hup he hkey hindices hdefault (by omega), hmake]

/-- Printing the rest of a path and finding it from where the path has got to. -/
theorem findByName_append {d : Ent} {xs ys : List (PathEntry Addr)} (hn : Named H)
    (hs : Sound H ⟨d, xs ++ ys⟩)
    (hnelms : ∀ e ∈ ys, 0 < (H.nelms e.c_p).toNat ∧ (H.nelms e.c_p).toNat < 2 ^ 31) :
    (⟨d, xs⟩ : PathImpl Ent Addr).findByName H (ys.flatMap fun e ↦ '/' :: showPart H e) =
      .ok ⟨d, xs ++ ys⟩ := by
  induction ys generalizing xs with
  | nil =>
    rw [List.flatMap_nil, findByName, List.dropWhile_nil, if_pos rfl, List.append_nil]
  | cons e ys ih =>
    have hmem : e ∈ xs ++ e :: ys := by simp
    obtain ⟨hpos, hmax⟩ := hnelms e List.mem_cons_self
    obtain ⟨hf, hft, ht⟩ := (hs.clipped e hmem).inRange_iff.2 ⟨hpos, by omega⟩
    obtain ⟨hcheck, hne⟩ := hn e.c_p
    have hlink : e.c_p ∈ H.children ((⟨d, xs⟩ : PathImpl Ent Addr).tailEntry H) :=
      (linked_append.1 hs.linked).2.1
    have hscale : e.nelmsLeft = (⟨d, xs⟩ : PathImpl Ent Addr).getNelms * UInt32.ofInt e.width :=
      (scaled_append.1 hs.scaled).2.1
    have hslash := slash_not_mem_showPart hcheck
    have hrest : (ys.flatMap fun e ↦ '/' :: showPart H e) = [] ∨
        ∃ t, (ys.flatMap fun e ↦ '/' :: showPart H e) = '/' :: t := by
      cases ys with
      | nil => exact .inl rfl
      | cons y ys => exact .inr ⟨_, rfl⟩
    rw [List.flatMap_cons, findByName_cons (by simp [showPart, hne]) hslash hrest,
      findComponent_showPart hn hlink hf hft ht hmax hscale]
    have hnext : xs ++ e :: ys = (xs ++ [e]) ++ ys := by simp
    rw [hnext] at hs ⊢
    exact ih hs fun e he ↦ hnelms e (List.mem_cons_of_mem _ he)

/-- The arrays of a path that has been found have elements, and an `int` counts them. -/
theorem nelms_of_findByName {d : Ent} (hq : (create d).findByName H s = .ok q) :
    ∀ e ∈ q.entries, 0 < (H.nelms e.c_p).toNat ∧ (H.nelms e.c_p).toNat < 2 ^ 31 := by
  refine findByName_keeps (I := fun q ↦ ∀ e ∈ q.entries, 0 < (H.nelms e.c_p).toNat ∧
    (H.nelms e.c_p).toNat < 2 ^ 31) ?_ (fun e he ↦ absurd he List.not_mem_nil) hq
  intro p q s comp hp hq e he
  rcases findComponent_ok hq with ⟨-, -, rfl⟩ | ⟨a, f, t, -, hrange, rfl⟩
  · exact hp e ((List.dropLast_sublist _).subset he)
  · rcases List.mem_append.1 he with he | he
    · exact hp e he
    · rw [List.mem_singleton.1 he, make_c_p]
      rw [toInt_eq] at hrange
      have hlt := (H.nelms a).toNat_lt
      split_ifs at hrange <;> omega

variable [DecidableEq Ent] [DecidableEq Addr]

/-- A path is found again from what it prints exactly if each of its arrays has elements, and an
`int` can count them. -/
theorem findByName_toString_iff (hn : Named H) (h : Reachable H p) :
    (∃ q, (create p.originDev).findByName H (p.toString H) = .ok q ∧ q.entries = p.entries) ↔
      ∀ e ∈ p.entries, 0 < (H.nelms e.c_p).toNat ∧ (H.nelms e.c_p).toNat < 2 ^ 31 := by
  constructor
  · rintro ⟨q, hq, hentries⟩
    exact hentries ▸ nelms_of_findByName hq
  · intro hnelms
    exact ⟨p, findByName_append hn (show Sound H ⟨p.originDev, [] ++ p.entries⟩ from h.sound) hnelms, rfl⟩

theorem nested_findByName_toString :
    (∃ q, (create 0).findByName (nested 4 4)
        ((⟨0, [⟨0, 1, 2, 2⟩, ⟨1, 3, 3, 2⟩]⟩ : PathImpl (Fin 3) (Fin 2)).toString (nested 4 4)) =
          .ok q ∧
      q.entries = [⟨0, 1, 2, 2⟩, ⟨1, 3, 3, 2⟩]) := by
  have hfind : (create 0).findByName (nested 4 4) "a[1-2]/b[3]".toList =
      .ok ⟨0, [⟨0, 1, 2, 2⟩, ⟨1, 3, 3, 2⟩]⟩ := toOption_eq_some.1 (by decide +kernel)
  have hnamed : Named (nested 4 4) := by
    unfold Named
    decide
  exact (findByName_toString_iff hnamed (.findByName (.create rfl) hfind)).2 (by decide)

/-- A leaf without elements is shown to a visitor, and not found by what its path prints. -/
theorem not_findByName_toString :
    Named (nested 1 0) ∧ Reachable (nested 1 0) ⟨0, [⟨0, 0, 0, 1⟩, ⟨1, -1, -1, 1⟩]⟩ ∧
      ¬∃ q, (create 0).findByName (nested 1 0)
          ((⟨0, [⟨0, 0, 0, 1⟩, ⟨1, -1, -1, 1⟩]⟩ : PathImpl (Fin 3) (Fin 2)).toString (nested 1 0)) =
            .ok q ∧
        q.entries = [⟨0, 0, 0, 1⟩, ⟨1, -1, -1, 1⟩] := by
  refine ⟨?_, .explore (.create rfl) nested_explore, ?_⟩
  · unfold Named
    decide
  · rintro ⟨q, hq, hentries⟩
    have hnelms := nelms_of_findByName hq
    rw [hentries] at hnelms
    exact absurd (hnelms ⟨1, -1, -1, 1⟩ (by simp)).1 (by decide)

end Cpsw.Path
