import Mathlib.Tactic.GCongr
import Mathlib.Tactic.Ring
import Cpsw.Path.Iterator

namespace Cpsw.Path

open Cpsw.Lib.Run PathImpl CompositePathIterator

variable {Ent Addr : Type}

/-- The number of elements at the entry that a stack of entries starts with. -/
def headLeft (seg : List (PathEntry Addr)) : UInt32 := (seg.head?.map PathEntry.nelmsLeft).getD 1

def leftOf : List (List (PathEntry Addr)) → UInt32
  | [] => 1
  | seg :: l => leftOf l * headLeft seg

def scale (n : UInt32) (e : PathEntry Addr) : PathEntry Addr := { e with nelmsLeft := e.nelmsLeft * n }

/-- The entries of several paths, from the tail of the last one to the root. -/
def flatten : List (List (PathEntry Addr)) → List (PathEntry Addr)
  | [] => []
  | seg :: l => seg.map (scale (leftOf l)) ++ flatten l

/-- The elements of the entries. -/
def count (es : List (PathEntry Addr)) : ℤ := (es.map PathEntry.width).prod

/-- What holds of an iterator that goes through the entries of `s.path`. -/
structure Follows (H : Hierarchy Ent Addr) (it : CompositePathIterator Addr) (s : Flat Ent Addr) :
    Prop where
  sound : Sound H s.path
  entries : s.path.entries.reverse = flatten (it.cur :: it.l_)
  atEnd : it.at_end = true ↔ it.cur = []
  stack : it.cur = [] → it.l_ = []
  nonempty : ∀ seg ∈ it.l_, seg ≠ []
  scaled : ∀ seg ∈ it.cur :: it.l_, Scaled 1 seg.reverse
  left : it.nelmsLeft = leftOf it.l_
  right : it.nelmsRight = UInt32.ofInt (count s.done)
  done : ∀ e ∈ s.done, 1 ≤ e.width

variable {H : Hierarchy Ent Addr} {it it' : CompositePathIterator Addr} {s : Flat Ent Addr}
variable {p q r : PathImpl Ent Addr} {e : PathEntry Addr} {es xs ys : List (PathEntry Addr)}
variable {seg : List (PathEntry Addr)} {l : List (List (PathEntry Addr))} {n : UInt32} {f t : ℤ}

@[simp] theorem count_nil : count ([] : List (PathEntry Addr)) = 1 := rfl

@[simp] theorem count_cons : count (e :: es) = e.width * count es := by
  rw [count, List.map_cons, List.prod_cons]
  rfl

@[simp] theorem count_append : count (xs ++ ys) = count xs * count ys := by
  rw [count, List.map_append, List.prod_append]
  rfl

@[simp] theorem count_map_scale : count (es.map (scale n)) = count es := by
  rw [count, List.map_map]
  rfl

@[simp] theorem count_reverse : count es.reverse = count es :=
  (((List.reverse_perm es).map _).prod_eq)

theorem count_pos (h : ∀ e ∈ es, 1 ≤ e.width) : 1 ≤ count es := width_prod_pos h

theorem total_eq : s.total = count s.path.entries * count s.done := count_append

theorem Clipped.width_pos (h : Clipped H e) : 1 ≤ e.width := by
  simp only [Clipped] at h
  simp only [PathEntry.width]
  omega

/-- The number of elements at the tail of a path is the product of the widths, in 32 bits. -/
theorem Scaled.last_eq (h : Scaled n es) :
    (es.getLast?.map PathEntry.nelmsLeft).getD n = n * UInt32.ofInt (count es) := by
  induction es using List.reverseRecOn with
  | nil => simp
  | append_singleton es e ih =>
    obtain ⟨hes, he⟩ := scaled_append.1 h
    rw [List.getLast?_concat, Option.map_some, Option.getD_some, he.1, ih hes, count_append,
      count_cons, count_nil, mul_one, UInt32.ofInt_mul, UInt32.mul_assoc]

theorem headLeft_eq (h : Scaled 1 seg.reverse) : headLeft seg = UInt32.ofInt (count seg) := by
  have hlast := h.last_eq
  rw [List.getLast?_reverse, count_reverse, UInt32.one_mul] at hlast
  exact hlast

theorem leftOf_eq (h : ∀ seg ∈ l, Scaled 1 seg.reverse) :
    leftOf l = UInt32.ofInt (count (flatten l)) := by
  induction l with
  | nil => rfl
  | cons seg l ih =>
    rw [leftOf, ih fun s hs ↦ h s (List.mem_cons_of_mem seg hs), headLeft_eq (h seg List.mem_cons_self),
      flatten, count_append, count_map_scale, UInt32.ofInt_mul, UInt32.mul_comm]

theorem toNat_ofInt_of_lt {z : ℤ} (h0 : 0 ≤ z) (h : z < 2 ^ 32) :
    ((UInt32.ofInt z).toNat : ℤ) = z := by rw [toNat_ofInt, Int.emod_eq_of_lt h0 h]

/-- The number of elements to the left goes back to what it was. -/
theorem ofInt_mul_div {a b : ℤ} (ha : 1 ≤ a) (hb : 1 ≤ b) (hab : a * b < 2 ^ 32) :
    UInt32.ofInt b ≠ 0 ∧ UInt32.ofInt a * UInt32.ofInt b / UInt32.ofInt b = UInt32.ofInt a := by
  have hale : a ≤ a * b := le_mul_of_one_le_right (by omega) hb
  have hble : b ≤ a * b := le_mul_of_one_le_left (by omega) ha
  have hbnat := toNat_ofInt_of_lt (z := b) (by omega) (by omega)
  have hanat := toNat_ofInt_of_lt (z := a) (by omega) (by omega)
  have habnat := toNat_ofInt_of_lt (z := a * b) (by omega) hab
  constructor
  · intro h
    rw [h] at hbnat
    have h0 : ((0 : UInt32).toNat : ℤ) = 0 := rfl
    omega
  · rw [← UInt32.ofInt_mul]
    apply UInt32.toNat_inj.1
    rw [UInt32.toNat_div]
    apply Int.ofNat_inj.1
    rw [Int.natCast_ediv, habnat, hbnat, hanat]
    exact Int.mul_ediv_cancel a (by omega)

namespace Follows

theorem width_pos (h : Follows H it s) (he : e ∈ flatten (it.cur :: it.l_)) : 1 ≤ e.width := by
  rw [← h.entries, List.mem_reverse] at he
  exact (h.sound.clipped e he).width_pos

theorem count_entries (h : Follows H it s) :
    count s.path.entries = count it.cur * count (flatten it.l_) := by
  rw [← count_reverse, h.entries, flatten, count_append, count_map_scale]

/-- What an iterator counts to its left. -/
theorem getNelmsLeft_eq (h : Follows H it s) :
    it.getNelmsLeft = UInt32.ofInt (count s.path.entries) := by
  have hleft : it.getNelmsLeft = leftOf (it.cur :: it.l_) := by
    rw [getNelmsLeft, h.left, leftOf]
    by_cases hend : it.at_end = true
    · rw [if_pos hend, h.atEnd.1 hend]
      rfl
    · rw [if_neg hend]
      rfl
  rw [hleft, leftOf_eq h.scaled, ← h.entries, count_reverse]

theorem one_le_count (h : Follows H it s) : 1 ≤ count s.path.entries :=
  count_pos fun e he ↦ (h.sound.clipped e he).width_pos

theorem counts (h : Follows H it s) (hlt : s.total < 2 ^ 32) :
    (it.getNelmsLeft.toNat : ℤ) * it.getNelmsRight.toNat = s.total := by
  have hleft := h.one_le_count
  have hright := count_pos h.done
  rw [total_eq] at hlt ⊢
  have hle : count s.path.entries ≤ count s.path.entries * count s.done :=
    le_mul_of_one_le_right (by omega) hright
  have hle' : count s.done ≤ count s.path.entries * count s.done :=
    le_mul_of_one_le_left (by omega) hleft
  rw [h.getNelmsLeft_eq, getNelmsRight, h.right, toNat_ofInt_of_lt (by omega) (by omega),
    toNat_ofInt_of_lt (by omega) (by omega)]

theorem ofPath (hp : Sound H p) : Follows H (.ofPath p) ⟨p, []⟩ := by
  refine ⟨hp, ?_, ?_, fun _ ↦ rfl, fun seg h ↦ absurd h List.not_mem_nil, ?_, rfl, rfl,
    fun e h ↦ absurd h List.not_mem_nil⟩
  · have hscale : ∀ e : PathEntry Addr, scale 1 e = e := by
      intro e
      rw [scale, UInt32.mul_one]
    simp [CompositePathIterator.ofPath, flatten, leftOf, funext hscale]
  · simp [CompositePathIterator.ofPath]
  · intro seg hseg
    obtain rfl : seg = p.entries.reverse := by simpa [CompositePathIterator.ofPath] using hseg
    rw [List.reverse_reverse]
    exact hp.scaled

/-- The entry that an iterator is at is the tail of the path, as far as the elements on its left are
counted. -/
theorem getLast (h : Follows H it s) (hcur : it.cur = e :: es) :
    s.path.entries.getLast? = some (scale (leftOf it.l_) e) ∧
      s.path.up.entries.reverse = flatten (es :: it.l_) := by
  have hentries := h.entries
  rw [hcur, flatten, List.map_cons, List.cons_append] at hentries
  constructor
  · rw [← List.head?_reverse, hentries, List.head?_cons]
  · rw [PathImpl.up, ← List.tail_reverse, hentries]
    rfl

theorem cur_of_getLast (h : Follows H it s) (he : s.path.entries.getLast? = some e) :
    ∃ e' es, it.cur = e' :: es ∧ e = scale (leftOf it.l_) e' := by
  cases hcur : it.cur with
  | nil =>
    have hentries := h.entries
    rw [hcur, h.stack hcur] at hentries
    rw [List.reverse_eq_iff.1 hentries] at he
    cases he
  | cons e' es =>
    rw [(h.getLast hcur).1] at he
    exact ⟨e', es, rfl, (Option.some.inj he).symm⟩

/-- What is counted to the left of the path that the iterator goes back to. -/
theorem pop (h : Follows H it s) (hl : it.l_ = seg :: l) (hlt : s.total < 2 ^ 32) :
    headLeft seg ≠ 0 ∧ it.nelmsLeft / headLeft seg = leftOf l := by
  have hpos : ∀ {xs}, (∀ x ∈ xs, x ∈ flatten (it.cur :: seg :: l)) → 1 ≤ count xs :=
    fun hxs ↦ count_pos fun x hx ↦ h.width_pos (hl ▸ hxs x hx)
  have hseg : 1 ≤ count (seg.map (scale (leftOf l))) :=
    hpos fun x hx ↦ List.mem_append_right _ (List.mem_append_left _ hx)
  have hrest : 1 ≤ count (flatten l) :=
    hpos fun x hx ↦ List.mem_append_right _ (List.mem_append_right _ hx)
  have hfirst : 1 ≤ count (it.cur.map (scale (leftOf (seg :: l)))) :=
    hpos fun x hx ↦ List.mem_append_left _ hx
  have hdone := count_pos h.done
  rw [count_map_scale] at hseg hfirst
  have htotal := total_eq (s := s)
  rw [h.count_entries, hl, flatten, count_append, count_map_scale] at htotal
  have hprod : count (flatten l) * count seg < 2 ^ 32 := by
    calc count (flatten l) * count seg = 1 * (count seg * count (flatten l)) * 1 := by ring
      _ ≤ count it.cur * (count seg * count (flatten l)) * count s.done := by gcongr
      _ < 2 ^ 32 := htotal ▸ hlt
  have hscaled : ∀ x ∈ seg :: l, Scaled 1 x.reverse := fun x hx ↦
    h.scaled x (List.mem_cons_of_mem it.cur (hl ▸ hx))
  obtain ⟨hne, hdiv⟩ := ofInt_mul_div hrest hseg hprod
  rw [h.left, hl, leftOf, leftOf_eq fun x hx ↦ hscaled x (List.mem_cons_of_mem seg hx),
    headLeft_eq (hscaled seg List.mem_cons_self)]
  exact ⟨hne, hdiv⟩

/-- Going on keeps to the path, as long as its elements can be counted where there is another path
to go back to. -/
theorem incr (h : Follows H it s) (he : s.path.entries.getLast? = some e)
    (hlt : it.l_ ≠ [] → s.total < 2 ^ 32) :
    ∃ it', it.incr = .ok it' ∧ Follows H it' ⟨s.path.up, e :: s.done⟩ := by
  obtain ⟨e', es, hcur, rfl⟩ := h.cur_of_getLast he
  obtain ⟨-, hup⟩ := h.getLast hcur
  have hright : it.nelmsRight * UInt32.ofInt e'.width =
      UInt32.ofInt (count (scale (leftOf it.l_) e' :: s.done)) := by
    rw [h.right, count_cons, UInt32.ofInt_mul, UInt32.mul_comm]
    rfl
  have hdone : ∀ x ∈ scale (leftOf it.l_) e' :: s.done, 1 ≤ x.width := by
    intro x hx
    rcases List.mem_cons.1 hx with rfl | hx
    · exact (h.sound.clipped _ (List.mem_of_getLast? he)).width_pos
    · exact h.done x hx
  have hscaled : Scaled 1 es.reverse := by
    have := h.scaled it.cur List.mem_cons_self
    rw [hcur, List.reverse_cons] at this
    exact (scaled_append.1 this).1
  have hstack : ∀ seg ∈ it.l_, Scaled 1 seg.reverse := fun seg hseg ↦
    h.scaled seg (List.mem_cons_of_mem it.cur hseg)
  rw [CompositePathIterator.incr, hcur]
  dsimp only
  by_cases hes : es = []
  · subst hes
    rw [if_neg (not_not.2 rfl)]
    cases hl : it.l_ with
    | nil =>
      have hone : it.nelmsLeft = 1 := by rw [h.left, hl]; rfl
      rw [hl] at hright hdone hup
      dsimp only
      rw [if_neg (not_not.2 hone)]
      exact ⟨_, rfl, h.sound.up, hup, by simp, fun _ ↦ rfl, fun seg hseg ↦ absurd hseg List.not_mem_nil,
        fun seg hseg ↦ by rw [List.mem_singleton.1 hseg]; trivial, hone, hright, hdone⟩
    | cons seg l =>
      obtain ⟨hne, hdiv⟩ := h.pop hl (hlt (by simp [hl]))
      have hnil : seg ≠ [] := h.nonempty seg (hl ▸ List.mem_cons_self)
      rw [hl] at hright hdone hup hstack
      rw [headLeft] at hne hdiv
      dsimp only
      rw [if_neg hne]
      refine ⟨_, rfl, h.sound.up, hup, ?_, fun hc ↦ absurd hc hnil, ?_, hstack, hdiv, hright, hdone⟩
      · have hend : it.at_end ≠ true := fun hend ↦ by simp [h.atEnd.1 hend] at hcur
        simp [hend, hnil]
      · intro x hx
        exact h.nonempty x (hl ▸ List.mem_cons_of_mem seg hx)
  · rw [if_pos hes]
    refine ⟨_, rfl, h.sound.up, hup, ?_, fun hc ↦ absurd hc hes, h.nonempty, ?_, h.left, hright, hdone⟩
    · have hend : it.at_end ≠ true := fun hend ↦ by simp [h.atEnd.1 hend] at hcur
      simp [hend, hes]
    · intro seg hseg
      rcases List.mem_cons.1 hseg with rfl | hseg
      · exact hscaled
      · exact hstack seg hseg

theorem at_end_iff (h : Follows H it s) : it.at_end = true ↔ s.path.entries = [] := by
  rw [h.atEnd]
  constructor
  · intro hcur
    have hentries := h.entries
    rw [hcur, h.stack hcur] at hentries
    exact List.reverse_eq_nil_iff.1 hentries
  · intro hpath
    cases hcur : it.cur with
    | nil => rfl
    | cons e es =>
      have hlast := (h.getLast hcur).1
      rw [hpath] at hlast
      cases hlast

variable [DecidableEq Ent]

/-- A path is appended where the iterator stands exactly as it is to the path, and the iterator
starts at its tail. -/
theorem append_iff (h : Follows H it s) (hq : Sound H q) (hne : q.entries ≠ []) :
    ((∃ it', it.append H q = .ok it') ↔ ∃ r, s.path.concat H q = .ok r) ∧
      ∀ it' r, it.append H q = .ok it' → s.path.concat H q = .ok r → Follows H it' ⟨r, []⟩ := by
  have hrev : q.entries.reverse ≠ [] := mt List.reverse_eq_nil_iff.1 hne
  have hscaled : Scaled 1 q.entries.reverse.reverse := by
    rw [List.reverse_reverse]
    exact hq.scaled
  by_cases hend : it.at_end = true
  · have hcur := h.atEnd.1 hend
    have hl := h.stack hcur
    have hpath := h.at_end_iff.1 hend
    have hone : it.nelmsLeft = 1 := by rw [h.left, hl]; rfl
    have hvalid : it.validConcatenation H q = true := if_pos hend
    have happend : it.append H q =
        .ok { it with at_end := false, cur := q.entries.reverse, nelmsRight := 1 } := by
      rw [CompositePathIterator.append, if_neg hne, if_neg (by simp [hvalid]), if_neg (by simp [hend]),
        if_neg (not_not.2 hone)]
    have hverify : s.path.verifyAtTail H q.originDev = some ⟨q.originDev, []⟩ := if_pos hpath
    have hconcat : s.path.concat H q = .ok ⟨q.originDev, q.entries.map (scale 1)⟩ := by
      rw [concat, if_neg hne, append2, hverify]
      rfl
    refine ⟨⟨fun _ ↦ ⟨_, hconcat⟩, fun _ ↦ ⟨_, happend⟩⟩, fun it' r hit' hr ↦ ?_⟩
    have hsound : Sound H r := h.sound.append hq hr
    cases happend.symm.trans hit'
    cases hconcat.symm.trans hr
    refine ⟨hsound, ?_, by simp [hne], fun hc ↦ absurd hc hrev, h.nonempty, ?_, h.left, rfl,
      fun e he ↦ absurd he List.not_mem_nil⟩
    · simp [hl, flatten, leftOf]
    · intro seg hseg
      rw [hl] at hseg
      rw [List.mem_singleton.1 hseg]
      exact hscaled
  · have hcur : it.cur ≠ [] := mt h.atEnd.2 hend
    obtain ⟨e, es, hcons⟩ := List.exists_cons_of_ne_nil hcur
    obtain ⟨hlast, -⟩ := h.getLast hcons
    have hpath : s.path.entries ≠ [] := mt h.at_end_iff.2 hend
    have htail : s.path.tailEntry H = H.entry e.c_p := by
      rw [tailEntry, hlast]
      rfl
    have hgetNelms : s.path.getNelms = leftOf (it.cur :: it.l_) := by
      rw [getNelms, hlast, hcons, leftOf, UInt32.mul_comm]
      rfl
    have hvalid : it.validConcatenation H q = decide (H.entry e.c_p = q.originDev) := by
      rw [validConcatenation, if_neg hend, if_neg hne, hcons]
      simp
    have hverify : s.path.verifyAtTail H q.originDev =
        if q.originDev = H.entry e.c_p then some s.path else none := by
      rw [verifyAtTail, if_neg hpath, htail]
    by_cases horigin : q.originDev = H.entry e.c_p
    · have happend : it.append H q = .ok {
          at_end := false
          cur := q.entries.reverse
          l_ := it.cur :: it.l_
          nelmsRight := 1
          nelmsLeft := it.nelmsLeft * (it.cur.head?.map PathEntry.nelmsLeft).getD 1 } := by
        rw [CompositePathIterator.append, if_neg hne, if_neg (by simp [hvalid, horigin]),
          if_pos (by simpa using hend)]
      have hconcat : s.path.concat H q = .ok { s.path with
          entries := s.path.entries ++ q.entries.map (scale (leftOf (it.cur :: it.l_))) } := by
        rw [concat, if_neg hne, append2, hverify, if_pos horigin, ← hgetNelms]
        rfl
      refine ⟨⟨fun _ ↦ ⟨_, hconcat⟩, fun _ ↦ ⟨_, happend⟩⟩, fun it' r hit' hr ↦ ?_⟩
      have hsound : Sound H r := h.sound.append hq hr
      cases happend.symm.trans hit'
      cases hconcat.symm.trans hr
      refine ⟨hsound, ?_, by simp [hne], fun hc ↦ absurd hc hrev, ?_, ?_, ?_, rfl,
        fun e he ↦ absurd he List.not_mem_nil⟩
      · dsimp only
        rw [List.reverse_append, ← List.map_reverse, h.entries]
        rfl
      · intro seg hseg
        rcases List.mem_cons.1 hseg with rfl | hseg
        · exact hcur
        · exact h.nonempty seg hseg
      · intro seg hseg
        rcases List.mem_cons.1 hseg with rfl | hseg
        · exact hscaled
        · exact h.scaled seg hseg
      · dsimp only
        rw [h.left, leftOf, headLeft]
    · have happend : it.append H q = .error (.invalidPath (q.toString H)) := by
        rw [CompositePathIterator.append, if_neg hne, if_pos]
        rw [hvalid]
        exact decide_eq_false (Ne.symm horigin)
      have hconcat : s.path.concat H q = .error (.invalidPath (q.toString H)) := by
        rw [concat, if_neg hne, append2, hverify, if_neg horigin]
      rw [happend, hconcat]
      exact ⟨by simp, fun it' r hit' ↦ by cases hit'⟩

variable {range : List (ℤ × ℤ)} (theRootDev : Ent)

omit [DecidableEq Ent] in
/-- The whole range of the array leaves the path as it is. -/
theorem sliced_whole (hp : Sound H p) (he : p.entries.getLast? = some e)
    (hf : rangeFrom f = 0) (ht : rangeTo e t = e.width - 1) : p.sliced e f t = p := by
  have hsplit := List.dropLast_append_getLast? e he
  have hleft : p.up.getNelms * UInt32.ofInt e.width = e.nelmsLeft := by
    have hscaled := hp.scaled
    rw [← hsplit] at hscaled
    exact (scaled_append.1 hscaled).2.1.symm
  have hentry : ({
      e with
      idxf := e.idxf + rangeFrom f
      idxt := e.idxf + rangeTo e t
      nelmsLeft := p.up.getNelms * UInt32.ofInt (rangeTo e t - rangeFrom f + 1) } : PathEntry Addr) =
      e := by
    have hwidth : e.width - 1 - 0 + 1 = e.width := by omega
    have hidxt : e.idxf + (e.width - 1) = e.idxt := by
      simp only [PathEntry.width]
      omega
    rw [hf, ht, hwidth, hleft, hidxt, add_zero]
  rw [sliced, hentry, pushBack, PathImpl.up, hsplit]

/-- The array of a child as a path of its own, and what it adds to a path that ends before it. -/
theorem suffix_ok {a : Addr} (ha : a ∈ H.children (p.tailEntry H)) (hf : 0 ≤ f) (hft : f ≤ t)
    (ht : t ≤ toInt (H.nelms a - 1)) : ∃ suffix,
      (create theRootDev).appendAddress H a f t = .ok suffix ∧ Sound H suffix ∧
      suffix.entries ≠ [] ∧
      p.concat H suffix = .ok (p.pushBack ⟨a, f, t, p.getNelms * UInt32.ofInt (t - f + 1)⟩) := by
  have hmake : PathEntry.make H a f t 1 = ⟨a, f, t, UInt32.ofInt (t - f + 1)⟩ := by
    rw [make_of_inRange hf hft ht, UInt32.one_mul]
  refine ⟨⟨H.owner a, [⟨a, f, t, UInt32.ofInt (t - f + 1)⟩]⟩, ?_, ?_, by simp, ?_⟩
  · rw [← hmake]
    rfl
  · rw [← hmake]
    exact (Sound.create (H.isDev_owner a)).pushBack ((H.mem_children _ _).2 rfl)
  · have howner : H.owner a = p.tailEntry H := (H.mem_children _ _).1 ha
    rw [concat, if_neg (by simp), append2]
    dsimp only
    rw [howner, Sound.verifyAtTail_tailEntry, UInt32.mul_comm p.getNelms]
    rfl

/-- The range of the array at the tail of the path is restricted exactly to ranges within it. -/
theorem clip_iff (h : Follows H it s) (he : s.path.entries.getLast? = some e)
    (hlt : it.l_ ≠ [] → s.total < 2 ^ 32) :
    ((∃ it', it.clip H theRootDev range = .ok it') ↔ range = [] ∨ ∃ f t, range = [(f, t)] ∧
      rangeFrom f ≤ rangeTo e t ∧ rangeTo e t < e.width) ∧
    ∀ f t it', s.done = [] → range = [(f, t)] → it.clip H theRootDev range = .ok it' →
      Follows H it' ⟨s.path.sliced e f t, []⟩ := by
  match range with
  | [] => exact ⟨by simp [clip], fun f t it' _ hr ↦ by cases hr⟩
  | _ :: _ :: _ => exact ⟨by simp [clip], fun f t it' _ hr ↦ by cases hr⟩
  | [(f, t)] =>
    obtain ⟨e', es, hcur, rfl⟩ := h.cur_of_getLast he
    have hclip := h.sound.clipped _ (List.mem_of_getLast? he)
    set e := scale (leftOf it.l_) e' with hscale
    have ht : (if t ≥ 0 then e'.idxf + t else e'.idxt) = e.idxf + rangeTo e t := by
      simp only [rangeTo, PathEntry.width, hscale, scale]
      split_ifs <;> omega
    have hf : (if f ≥ 0 then e'.idxf + f else e'.idxf) = e.idxf + rangeFrom f := by
      simp only [rangeFrom, hscale, scale]
      split_ifs <;> omega
    have hidxf : e'.idxf = e.idxf := rfl
    have hidxt : e'.idxt = e.idxf + (e.width - 1) := by
      simp only [PathEntry.width, hscale, scale]
      omega
    have hfrom : 0 ≤ rangeFrom f := by
      simp only [rangeFrom]
      split_ifs <;> omega
    have hbad : e.idxf + rangeFrom f < e'.idxf ∨ e.idxf + rangeTo e t > e'.idxt ∨
        e.idxf + rangeTo e t < e.idxf + rangeFrom f ↔
          ¬(rangeFrom f ≤ rangeTo e t ∧ rangeTo e t < e.width) := by omega
    have hiff : (([(f, t)] : List (ℤ × ℤ)) = [] ∨ ∃ f' t', [(f, t)] = [(f', t')] ∧
        rangeFrom f' ≤ rangeTo e t' ∧ rangeTo e t' < e.width) ↔
          rangeFrom f ≤ rangeTo e t ∧ rangeTo e t < e.width := by simp
    rw [hiff]
    by_cases hrange : rangeFrom f ≤ rangeTo e t ∧ rangeTo e t < e.width
    · by_cases hproper : e.idxf + rangeFrom f ≠ e'.idxf ∨ e.idxf + rangeTo e t ≠ e'.idxt
      · have hnn : 0 ≤ e.idxf ∧ e.idxf + (e.width - 1) ≤ toInt (H.nelms e.c_p - 1) := by
          simp only [Clipped] at hclip
          simp only [PathEntry.width] at hrange hproper hidxt ⊢
          omega
        obtain ⟨it₁, hincr, hfol⟩ := h.incr he hlt
        have hmem : e.c_p ∈ H.children (s.path.up.tailEntry H) := by
          have hlinked := h.sound.linked
          rw [← List.dropLast_append_getLast? e he] at hlinked
          exact (linked_append.1 hlinked).2.1
        obtain ⟨suffix, happ, hsound, hne, hconcat⟩ := suffix_ok theRootDev hmem
          (show 0 ≤ e.idxf + rangeFrom f by omega)
          (show e.idxf + rangeFrom f ≤ e.idxf + rangeTo e t by omega) (by omega)
        obtain ⟨hok, hkeep⟩ := hfol.append_iff hsound hne
        obtain ⟨it₂, hit₂⟩ := hok.2 ⟨_, hconcat⟩
        have hres : it.clip H theRootDev [(f, t)] = .ok it₂ := by
          rw [clip, hcur]
          dsimp only
          rw [ht, hf, if_neg (mt hbad.1 (not_not.2 hrange)), if_pos hproper, hincr]
          dsimp only [bind, Except.bind]
          rw [show e'.c_p = e.c_p from rfl, happ]
          exact hit₂
        refine ⟨⟨fun _ ↦ hrange, fun _ ↦ ⟨it₂, hres⟩⟩, fun f' t' it' _ hr hit' ↦ ?_⟩
        cases hr
        cases hres.symm.trans hit'
        have hfinal := hkeep it₂ _ hit₂ hconcat
        have hwidth : e.idxf + rangeTo e t - (e.idxf + rangeFrom f) + 1 =
            rangeTo e t - rangeFrom f + 1 := by omega
        rw [hwidth] at hfinal
        exact hfinal
      · have hres : it.clip H theRootDev [(f, t)] = .ok it := by
          rw [clip, hcur]
          dsimp only
          rw [ht, hf, if_neg (mt hbad.1 (not_not.2 hrange)), if_neg hproper]
        refine ⟨⟨fun _ ↦ hrange, fun _ ↦ ⟨it, hres⟩⟩, fun f' t' it' hdone hr hit' ↦ ?_⟩
        cases hr
        cases hres.symm.trans hit'
        rw [sliced_whole h.sound he (by omega) (by omega)]
        have hs : s = ⟨s.path, []⟩ := by rw [← hdone]
        exact hs ▸ h
    · have hres : it.clip H theRootDev [(f, t)] =
          .error (.invalidArg "Array indices out of range") := by
        rw [clip, hcur]
        dsimp only
        rw [ht, hf, if_pos (hbad.2 hrange)]
      rw [hres]
      exact ⟨by simp [hrange], fun f' t' it' _ _ hit' ↦ by cases hit'⟩

end Follows

theorem Follows.total_up (he : s.path.entries.getLast? = some e) :
    (⟨s.path.up, e :: s.done⟩ : Flat Ent Addr).total = s.total := by
  rw [total_eq, total_eq, ← List.dropLast_append_getLast? e he]
  simp only [PathImpl.up, count_append, count_cons, count_nil]
  ring

end Cpsw.Path
