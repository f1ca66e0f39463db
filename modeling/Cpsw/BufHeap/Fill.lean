import Cpsw.BufHeap.Extract

namespace Cpsw.BufHeap

open Cpsw.Lib

variable {maxcap capa c b n m : ℕ} {h h' : Heap} {xs u v w : List ℕ} {q : Option ℕ} {src p : Bytes}

theorem toInt64_small {z : ℤ} (hlo : -2 ^ 63 ≤ z) (hhi : z < 2 ^ 63) : toInt64 z = z := by
  rw [toInt64, Int.bmod_def]
  split_ifs <;> omega

theorem toInt64_large {z : ℤ} (hlo : 2 ^ 63 ≤ z) (hhi : z < 2 ^ 64) : toInt64 z = z - 2 ^ 64 := by
  rw [toInt64, Int.bmod_def]
  split_ifs <;> omega

/-- The room in a buffer with this end and this size. -/
def roomFor (maxcap capa fin size : ℕ) : Option ℤ :=
  let avail := toInt64 ((maxcap : ℤ) - fin - TAILROOM)
  let room := toInt64 ((capa : ℤ) - size)
  if avail ≤ 0 ∨ room ≤ 0 then none else some (if avail < room then avail else room)

/-- A capacity is an `ssize_t` too, or there is room for the bytes in one new buffer. -/
def FitsNew (maxcap capa n : ℕ) : Prop := capa < 2 ^ 63 ∨ n + Buf.HEADROOM ≤ maxcap

instance : Decidable (FitsNew maxcap capa n) := inferInstanceAs (Decidable (_ ∨ _))

/-- The chain up to `q` holds the bytes `p`. -/
def Filled (maxcap c : ℕ) (p : Bytes) (h : Heap) (q : Option ℕ) : Prop :=
  Inv maxcap h ∧ ∃ u v, ChainIs h c (u ++ v) ∧ q = v.head? ∧ (v = [] ∨ u ≠ []) ∧ h.bytes u = p

/-- What is dropped is all that comes behind these bytes. -/
theorem Filled.dropRest (hf : Filled maxcap c p h q) : Inv maxcap (h.dropRest h.fresh q) ∧
    ∃ xs, ChainIs (h.dropRest h.fresh q) c xs ∧ (h.dropRest h.fresh q).bytes xs = p := by
  obtain ⟨hi, u, v, hc, rfl, hne, rfl⟩ := hf
  cases u using List.reverseRecOn with
  | nil =>
    obtain rfl : v = [] := hne.resolve_right (by simp)
    have hdrop : h.dropRest h.fresh (List.head? []) = h := by
      cases h.fresh <;> rfl
    rw [hdrop]
    exact ⟨hi, [], hc, rfl⟩
  | append_singleton u k =>
    rw [List.append_assoc, List.singleton_append] at hc
    have hk : h.chainOf k = some c := (hc.mem k).2 (by simp)
    have hlen := hi.length_le hc.whole (by simp) (hi.lt_of_chainOf hk)
    rw [List.length_append, List.length_cons] at hlen
    obtain ⟨h', rfl, hi', hc', hbuf, -⟩ := hi.dropRest hc (n := h.fresh) (by omega)
    exact ⟨hi', _, hc', bytes_congr fun i _ ↦ by rw [hbuf]⟩

namespace Inv

theorem roomIn_eq (hi : Inv maxcap h) (b : ℕ) :
    h.roomIn capa b = roomFor maxcap capa (h.buf b).fin (h.buf b).getSize := by
  simp only [Heap.roomIn, roomFor, hi.getAvail_eq, hi.getSize_eq]

end Inv

theorem roomFor_some {fin size : ℕ} {r : ℤ} (hmax : maxcap < 2 ^ 16) (hfin : fin ≤ maxcap)
    (hr : roomFor maxcap capa fin size = some r) : 0 < r ∧ (fin : ℤ) + r + TAILROOM ≤ maxcap := by
  have havail : toInt64 ((maxcap : ℤ) - fin - TAILROOM) = maxcap - fin - TAILROOM := by
    unfold TAILROOM
    exact toInt64_small (by omega) (by omega)
  simp only [roomFor, havail] at hr
  split_ifs at hr with hnone hlt
  · rw [not_or, not_le, not_le] at hnone
    obtain rfl := Option.some.inj hr
    omega
  · rw [not_or, not_le, not_le] at hnone
    obtain rfl := Option.some.inj hr
    omega

/-- An empty buffer has room if the capacity is an `ssize_t`. -/
theorem roomFor_empty (hmax : maxcap < 2 ^ 16) (hlo : Buf.HEADROOM + TAILROOM < maxcap)
    (hcapa : 1 ≤ capa) (hcapa' : capa < 2 ^ 64) :
    (roomFor maxcap capa Buf.HEADROOM 0).isSome ↔ capa < 2 ^ 63 := by
  have havail : ¬toInt64 ((maxcap : ℤ) - Buf.HEADROOM - TAILROOM) ≤ 0 := by
    unfold Buf.HEADROOM TAILROOM at *
    rw [toInt64_small] <;> omega
  by_cases hsmall : capa < 2 ^ 63
  · have hroom : ¬toInt64 ((capa : ℤ) - (0 : ℕ)) ≤ 0 := by
      rw [toInt64_small] <;> omega
    simp only [roomFor, havail, hroom, or_self, if_false]
    exact iff_of_true rfl hsmall
  · have hroom : toInt64 ((capa : ℤ) - (0 : ℕ)) ≤ 0 := by
      rw [toInt64_large] <;> omega
    simp only [roomFor, hroom, or_true, if_true]
    exact iff_of_false (by simp) hsmall

section Step

variable {x : ℕ} {r : ℤ} {h₁ h₂ : Heap}

/-- How many bytes go where there is this room. -/
def taken (r : ℤ) (n : ℕ) : ℕ := if toSize r > n then n else toSize r

/-- The next buffer is taken over. -/
def Heap.reinitNext (h : Heap) (q : Option ℕ) : Heap :=
  match q with
  | some b => h.reinit b
  | none => h

theorem fill_step (hsrc : src ≠ []) {b : Option ℕ}
    (htake : h.takeRoom maxcap capa c b = .ok (h₁, x, r))
    (happend : h₁.appendTo x (src.take (taken r src.length)) = .ok h₂) :
    Heap.fill maxcap capa c (n + 1) h b q src = Heap.fill maxcap capa c n
      (h₂.reinitNext (h₂.links.next x)) (h₂.links.next x) (h₂.links.next x)
      (src.drop (taken r src.length)) := by
  rw [Heap.fill, htake]
  · dsimp only [bind, Except.bind]
    have hδ : (if toSize r > src.length then src.length else toSize r) = taken r src.length := rfl
    rw [hδ, happend]
    rfl
  · exact fun h ↦ hsrc h

theorem fill_overrun (hsrc : src ≠ []) {b : Option ℕ}
    (htake : h.takeRoom maxcap capa c b = .ok (h₁, x, r))
    (happend : h₁.appendTo x (src.take (taken r src.length)) = .error .overrun) :
    Heap.fill maxcap capa c (n + 1) h b q src = .error .overrun := by
  rw [Heap.fill, htake]
  · dsimp only [bind, Except.bind]
    have hδ : (if toSize r > src.length then src.length else toSize r) = taken r src.length := rfl
    rw [hδ, happend]
  · exact fun h ↦ hsrc h

theorem fill_nil {b : Option ℕ} : Heap.fill maxcap capa c n h b q [] = .ok (h, q) := by
  cases n <;> rfl

theorem takeRoom_old (hr : h.roomIn capa b = some r) :
    h.takeRoom maxcap capa c (some b) = .ok (h, b, r) := by
  simp only [Heap.takeRoom, Option.bind_some, hr, Option.map_some]

/-- Where there is no room the bytes go to a new buffer. -/
theorem takeRoom_full (hr : h.roomIn capa b = none) :
    h.takeRoom maxcap capa c (some b) = h.takeRoom maxcap capa c none := by
  simp only [Heap.takeRoom, Option.bind_some, hr, Option.map_none, Option.bind_none]

theorem fill_full (hr : h.roomIn capa b = none) (hsrc : src ≠ []) :
    Heap.fill maxcap capa c (n + 1) h (some b) q src =
      Heap.fill maxcap capa c (n + 1) h none q src := by
  rw [Heap.fill, Heap.fill, takeRoom_full hr]
  · exact fun h ↦ hsrc h
  · exact fun h ↦ hsrc h

end Step

/-- The room in a new buffer. -/
def newRoom (maxcap capa : ℕ) : ℤ :=
  let room := toInt64 ((maxcap : ℤ) - Buf.HEADROOM - TAILROOM)
  if room > toInt64 capa then toInt64 capa else room

namespace Inv

theorem append (hi : Inv maxcap h) (hc : ChainIs h c (u ++ b :: v))
    (hfit : (h.buf b).fin + p.length ≤ maxcap) :
    ∃ h', h.appendTo b p = .ok h' ∧ Inv maxcap h' ∧ ChainIs h' c (u ++ b :: v) ∧
      h'.bytes (u ++ [b]) = h.bytes (u ++ [b]) ++ p ∧ ∀ xs, b ∉ xs → h'.bytes xs = h.bytes xs := by
  obtain ⟨hok, hlen⟩ := hi.ok b
  have hfit' := hfit.trans hlen.ge
  have hbu : b ∉ u := fun hm ↦ (List.disjoint_of_nodup_append hc.nodup) hm (by simp)
  refine ⟨_, hi.appendTo_eq hfit,
    hi.resize (appended_ok hok hfit') ((appended_capacity hfit').trans hlen), hc.resize, ?_,
    fun xs hx ↦ bytes_resize hx⟩
  simp [bytes_resize hbu, appended_content hok]

/-- A piece of the bytes goes behind the payload of a buffer with room, and what the next buffer
held is forgotten. -/
theorem fill_old (hi : Inv maxcap h) (hc : ChainIs h c (u ++ b :: v)) (hcap : Buf.HEADROOM ≤ maxcap)
    {r : ℤ} (hr : h.roomIn capa b = some r) (hsrc : src ≠ []) :
    ∃ h', (∀ n, Heap.fill maxcap capa c (n + 1) h (some b) q src =
        Heap.fill maxcap capa c n h' v.head? v.head? (src.drop (min src.length r.toNat))) ∧
      Inv maxcap h' ∧ ChainIs h' c (u ++ b :: v) ∧
      h'.bytes (u ++ [b]) = h.bytes (u ++ [b]) ++ src.take (min src.length r.toNat) ∧
      h'.bytes v = h.bytes v.tail ∧ h'.bytes (v.take 1) = [] ∧
      ∀ y, v.head? = some y → h'.roomIn capa y = roomFor maxcap capa Buf.HEADROOM 0 := by
  obtain ⟨hok, hlen⟩ := hi.ok b
  have hmax := hlen ▸ hok.capa
  have hfits := hlen ▸ hok.fits
  obtain ⟨hpos, hle⟩ := roomFor_some hmax hfits (hi.roomIn_eq b ▸ hr)
  have htaken : taken r src.length = min src.length r.toNat := by
    have hsize : toSize r = r.toNat := by
      unfold toSize
      omega
    rw [taken, hsize]
    split_ifs <;> omega
  have hplen : (src.take (taken r src.length)).length ≤ r.toNat := by
    rw [htaken, List.length_take]
    omega
  obtain ⟨h₁, happend, hi₁, hc₁, hbytes, hother⟩ := hi.append hc
    (p := src.take (taken r src.length)) (by omega)
  have hnd := hc.nodup
  have hbv : b ∉ v := (List.nodup_cons.1 (List.nodup_append.1 hnd).2.1).1
  have hnext : h₁.links.next b = v.head? := hc₁.whole.next_eq
  have hstep (n : ℕ) := @fill_step maxcap capa c n h q src b r h _ hsrc _ (takeRoom_old hr) happend
  have hrest := hother v.tail fun hm ↦ hbv (List.mem_of_mem_tail hm)
  rw [hnext, htaken] at hstep
  rw [htaken] at hbytes
  cases v with
  | nil => exact ⟨h₁, hstep, hi₁, hc₁, hbytes, rfl, rfl, fun y hy ↦ by cases hy⟩
  | cons y w =>
    have hyub : y ∉ u ++ [b] := by
      have hnd' : ((u ++ [b]) ++ y :: w).Nodup := by simpa using hnd
      exact fun hm ↦ List.disjoint_of_nodup_append hnd' hm (by simp)
    have hyw : y ∉ w := (List.nodup_cons.1 (List.nodup_cons.1 (List.nodup_append.1 hnd).2.1).2).1
    have hreinit := hi₁.reinit_eq y
    have hnew : (h₁.reinit y).buf y =
        { h₁.buf y with beg := Buf.HEADROOM, fin := Buf.HEADROOM } := by
      rw [hreinit, resize_buf, Function.update_self]
    have hempty : ((h₁.reinit y).buf y).content = [] := by
      rw [hnew, Buf.content, Buf.getSize, Nat.sub_self, List.take_zero]
    refine ⟨h₁.reinit y, hstep, hi₁.reinit hcap, hreinit ▸ hc₁.resize, ?_, ?_, by simpa using hempty,
      fun z hz ↦ ?_⟩
    · rw [hreinit, bytes_resize hyub, hbytes]
    · rw [bytes_cons, hempty, List.nil_append, hreinit, bytes_resize hyw]
      exact hrest
    · obtain rfl : y = z := Option.some.inj hz
      rw [(hi₁.reinit hcap).roomIn_eq, hnew, Buf.getSize, Nat.sub_self]

/-- A piece of the bytes goes to a new buffer at the tail. -/
theorem fill_new (hi : Inv maxcap h) (hc : ChainIs h c xs) (hcap : Buf.HEADROOM ≤ maxcap)
    (hsrc : src ≠ []) :
    (taken (newRoom maxcap capa) src.length + Buf.HEADROOM ≤ maxcap →
      ∃ h' x, (∀ n, Heap.fill maxcap capa c (n + 1) h none q src = Heap.fill maxcap capa c n h' none
          none (src.drop (taken (newRoom maxcap capa) src.length))) ∧
        Inv maxcap h' ∧ ChainIs h' c (xs ++ [x]) ∧
        h'.bytes (xs ++ [x]) = h.bytes xs ++ src.take (taken (newRoom maxcap capa) src.length)) ∧
    (¬taken (newRoom maxcap capa) src.length + Buf.HEADROOM ≤ maxcap →
      ∀ n, Heap.fill maxcap capa c (n + 1) h none q src = .error .overrun) := by
  obtain ⟨h₁, hcreate, hc₁, hfresh, hbuf⟩ := hi.createAtTail_chainIs hc hcap capa
  have hi₁ : Inv maxcap h₁ := by
    simpa only [hcreate] using @createAtTail maxcap h c hi hcap capa true
  have hnew : h₁.buf h.fresh = Buf.getBuf (h.buf h.fresh).data := by
    rw [hbuf, Function.update_self]
  have hfin : (h₁.buf h.fresh).fin = Buf.HEADROOM := by
    rw [hnew]
    rfl
  have htake : h.takeRoom maxcap capa c none = .ok (h₁, h.fresh, newRoom maxcap capa) := by
    simp only [Heap.takeRoom, Option.bind_none, hcreate]
    dsimp only [orThrow, bind, Except.bind]
    rw [hi₁.getAvail_eq, hfin]
    rfl
  have hplen : (src.take (taken (newRoom maxcap capa) src.length)).length =
      taken (newRoom maxcap capa) src.length := by
    rw [List.length_take]
    apply min_eq_left
    unfold taken
    split_ifs <;> omega
  have hfreshx : h.fresh ∉ xs := fun hm ↦ by
    have hlt := hi.lt_of_chainOf ((hc.mem _).2 hm)
    omega
  have hold : h₁.bytes (xs ++ [h.fresh]) = h.bytes xs := by
    have hempty : (h₁.buf h.fresh).content = [] := by
      rw [hnew, Buf.content, Buf.getSize]
      simp [Buf.getBuf]
    rw [bytes_append, bytes_cons, hempty, bytes_nil, List.append_nil, List.append_nil]
    apply bytes_congr
    intro i hx
    rw [hbuf, Function.update_of_ne (ne_of_mem_of_not_mem hx hfreshx)]
  refine ⟨fun hfit ↦ ?_, fun hfit n ↦ fill_overrun hsrc htake ?_⟩
  · obtain ⟨h₂, happend, hi₂, hc₂, hbytes, -⟩ := hi₁.append (v := []) hc₁
      (p := src.take (taken (newRoom maxcap capa) src.length)) (by omega)
    have hnext : h₂.links.next h.fresh = none := hc₂.whole.next_eq
    have hstep (n : ℕ) := @fill_step maxcap capa c n h q src h.fresh _ h₁ _ hsrc _ htake happend
    rw [hnext] at hstep
    exact ⟨h₂, h.fresh, hstep, hi₂, hc₂, by rw [hbytes, hold]⟩
  · rw [Heap.appendTo, if_pos]
    rw [hplen, hfin, (hi₁.ok _).2]
    omega

end Inv

theorem newRoom_small (hmax : maxcap < 2 ^ 16) (hlo : Buf.HEADROOM + TAILROOM < maxcap)
    (hcapa : 1 ≤ capa) (hsmall : capa < 2 ^ 63) (hn : 0 < n) :
    0 < taken (newRoom maxcap capa) n ∧ taken (newRoom maxcap capa) n ≤ n ∧
      taken (newRoom maxcap capa) n + Buf.HEADROOM ≤ maxcap := by
  have hroom : newRoom maxcap capa = min ((maxcap : ℤ) - 48) capa := by
    unfold Buf.HEADROOM TAILROOM at hlo
    unfold newRoom Buf.HEADROOM TAILROOM
    rw [toInt64_small (by omega) (by omega), toInt64_small (by omega) (by omega)]
    dsimp only
    split_ifs <;> omega
  unfold Buf.HEADROOM TAILROOM at *
  unfold taken toSize
  rw [hroom]
  split_ifs <;> omega

theorem newRoom_large (hcapa : capa < 2 ^ 64) (hlarge : 2 ^ 63 ≤ capa) (hmax : maxcap < 2 ^ 16)
    (hlo : Buf.HEADROOM + TAILROOM < maxcap) : taken (newRoom maxcap capa) n = min n capa := by
  have hroom : newRoom maxcap capa = (capa : ℤ) - 2 ^ 64 := by
    unfold Buf.HEADROOM TAILROOM at hlo
    unfold newRoom Buf.HEADROOM TAILROOM
    rw [toInt64_small (by omega) (by omega), toInt64_large (by omega) (by omega)]
    dsimp only
    split_ifs <;> omega
  have hsize : toSize (newRoom maxcap capa) = capa := by
    rw [hroom]
    unfold toSize
    omega
  rw [taken, hsize]
  split_ifs <;> omega

namespace Inv

section Fill

variable (hlo : Buf.HEADROOM + TAILROOM < maxcap) (hcapa : 1 ≤ capa) (hcapa' : capa < 2 ^ 64)
  (hn : src.length ≤ n) (hsrc : src ≠ [])

include hlo hcapa hcapa' hn hsrc

/-- The bytes go to new buffers. -/
theorem fill_tail (hi : Inv maxcap h) (hc : ChainIs h c xs) :
    (FitsNew maxcap capa src.length → ∃ h', Heap.fill maxcap capa c n h none q src = .ok (h', none) ∧
      Filled maxcap c (h.bytes xs ++ src) h' none) ∧
    (¬FitsNew maxcap capa src.length →
      Heap.fill maxcap capa c n h none q src = .error .overrun) := by
  have hmax := (hi.ok 0).2 ▸ (hi.ok 0).1.capa
  have hcap : Buf.HEADROOM ≤ maxcap := (Nat.le_add_right _ _).trans hlo.le
  induction n generalizing h xs src q with
  | zero => exact absurd (List.length_eq_zero_iff.1 (by omega)) hsrc
  | succ n ih =>
    have hpos := List.length_pos_iff.2 hsrc
    obtain ⟨hok, hover⟩ := @fill_new maxcap capa c h xs q src hi hc hcap hsrc
    by_cases hsmall : capa < 2 ^ 63
    · obtain ⟨h₀, hle, hfit⟩ := newRoom_small hmax hlo hcapa hsmall hpos
      obtain ⟨h₁, x, hstep, hi₁, hc₁, hbytes⟩ := hok hfit
      refine ⟨fun _ ↦ ?_, fun hno ↦ absurd (.inl hsmall) hno⟩
      generalize taken (newRoom maxcap capa) src.length = δ at *
      rw [hstep]
      by_cases hrest : src.drop δ = []
      · rw [hrest, fill_nil]
        refine ⟨h₁, rfl, hi₁, xs ++ [x], [], by simpa using hc₁, rfl, .inl rfl, ?_⟩
        rw [hbytes, ← List.take_append_drop δ src, hrest]
        simp
      · have hlen : (src.drop δ).length ≤ n := by
          rw [List.length_drop]
          omega
        obtain ⟨h₂, heq, hfilled⟩ := (ih hlen hrest hi₁ hc₁ (q := none)).1 (.inl hsmall)
        refine ⟨h₂, heq, ?_⟩
        rwa [hbytes, List.append_assoc, List.take_append_drop] at hfilled
    · have hδ : taken (newRoom maxcap capa) src.length = min src.length capa :=
        newRoom_large hcapa' (by omega) hmax hlo
      rw [hδ] at hok hover
      refine ⟨fun hfits ↦ ?_, fun hno ↦ hover ?_ n⟩
      · have hle : src.length + Buf.HEADROOM ≤ maxcap := hfits.resolve_left hsmall
        have hmin : min src.length capa = src.length := by omega
        rw [hmin] at hok
        obtain ⟨h₁, x, hstep, hi₁, hc₁, hbytes⟩ := hok hle
        rw [hstep, List.drop_length, fill_nil]
        refine ⟨h₁, rfl, hi₁, xs ++ [x], [], by simpa using hc₁, rfl, .inl rfl, ?_⟩
        rw [hbytes, List.take_length]
      · rw [FitsNew, not_or] at hno
        omega

/-- With a capacity that is an `ssize_t` the bytes go to one buffer after the other, as long as
there are any. -/
theorem fill_chain (hsmall : capa < 2 ^ 63) (hi : Inv maxcap h) (hc : ChainIs h c (u ++ v))
    (hroom : ∀ y, v.head? = some y → (h.roomIn capa y).isSome) :
    ∃ h' nxtb', Heap.fill maxcap capa c n h v.head? q src = .ok (h', nxtb') ∧
      Filled maxcap c (h.bytes (u ++ v.take 1) ++ src) h' nxtb' := by
  have hmax := (hi.ok 0).2 ▸ (hi.ok 0).1.capa
  have hcap : Buf.HEADROOM ≤ maxcap := (Nat.le_add_right _ _).trans hlo.le
  induction n generalizing h u v src q with
  | zero => exact absurd (List.length_eq_zero_iff.1 (by omega)) hsrc
  | succ n ih =>
    cases v with
    | nil =>
      rw [List.append_nil] at hc
      obtain ⟨h', heq, hfilled⟩ := (hi.fill_tail hlo hcapa hcapa' hn hsrc hc (q := q)).1 (.inl hsmall)
      exact ⟨h', none, heq, by simpa using hfilled⟩
    | cons b w =>
      obtain ⟨r, hr⟩ := Option.isSome_iff_exists.1 (hroom b rfl)
      have hpos := (roomFor_some hmax ((hi.ok b).2 ▸ (hi.ok b).1.fits) (hi.roomIn_eq b ▸ hr)).1
      obtain ⟨h₁, hstep, hi₁, hc₁, hbytes, -, hempty, hnextRoom⟩ :=
        hi.fill_old hc hcap hr hsrc (q := q)
      have hlen := List.length_pos_iff.2 hsrc
      generalize hδ : min src.length r.toNat = δ at *
      rw [List.head?_cons, hstep]
      have hsplit : u ++ b :: w = (u ++ [b]) ++ w := by simp
      rw [hsplit] at hc₁
      by_cases hrest : src.drop δ = []
      · rw [hrest, fill_nil]
        refine ⟨h₁, _, rfl, hi₁, u ++ [b], w, hc₁, rfl, .inr (by simp), ?_⟩
        rw [hbytes, ← List.take_append_drop δ src, hrest]
        simp
      · obtain ⟨h₂, nxtb', heq, hfilled⟩ := ih (h := h₁) (u := u ++ [b]) (v := w) (q := w.head?)
          (by rw [List.length_drop]; omega) hrest hi₁ hc₁ (fun y hy ↦ by
            rw [hnextRoom y hy]
            exact (roomFor_empty hmax hlo hcapa hcapa').2 hsmall)
        refine ⟨h₂, nxtb', heq, ?_⟩
        -- what the next buffer held has been forgotten
        rw [bytes_append, hempty, List.append_nil, hbytes, List.append_assoc,
          List.take_append_drop] at hfilled
        simpa using hfilled

end Fill

section Room

variable {r : ℤ} (hi : Inv maxcap h) (hc : ChainIs h c (u ++ b :: w)) (hr : h.roomIn capa b = some r)
  (hsrc : src ≠ [])

include hi hc hr hsrc

/-- All bytes go to the buffer. -/
theorem fill_short (hcap : Buf.HEADROOM ≤ maxcap) (hle : src.length ≤ r.toNat) (hn : src.length ≤ n) :
    ∃ h' nxtb', Heap.fill maxcap capa c n h (some b) q src = .ok (h', nxtb') ∧
      Filled maxcap c (h.bytes (u ++ [b]) ++ src) h' nxtb' := by
  obtain ⟨m, rfl⟩ := Nat.exists_eq_succ_of_ne_zero
    (Nat.ne_of_gt ((List.length_pos_iff.2 hsrc).trans_le hn))
  obtain ⟨h₁, hstep, hi₁, hc₁, hbytes, -⟩ := hi.fill_old hc hcap hr hsrc (q := q)
  rw [min_eq_left hle] at hstep hbytes
  rw [List.take_length] at hbytes
  rw [hstep, List.drop_length, fill_nil]
  exact ⟨h₁, _, rfl, hi₁, u ++ [b], w, by simpa using hc₁, rfl, .inr (by simp), hbytes⟩

/-- With a capacity beyond an `ssize_t` what does not fit goes to one new buffer, and behind the
next one nothing is forgotten. -/
theorem fill_large (hlo : Buf.HEADROOM + TAILROOM < maxcap) (hcapa : 1 ≤ capa) (hcapa' : capa < 2 ^ 64)
    (hlarge : ¬capa < 2 ^ 63) (hlong : r.toNat < src.length) (hn : src.length ≤ n) :
    (FitsNew maxcap capa (src.length - r.toNat) →
      ∃ h', Heap.fill maxcap capa c n h (some b) q src = .ok (h', none) ∧
        Filled maxcap c (h.bytes (u ++ [b]) ++ src.take r.toNat ++ h.bytes w.tail ++ src.drop r.toNat)
          h' none) ∧
    (¬FitsNew maxcap capa (src.length - r.toNat) →
      Heap.fill maxcap capa c n h (some b) q src = .error .overrun) := by
  have hmax := (hi.ok 0).2 ▸ (hi.ok 0).1.capa
  have hcap : Buf.HEADROOM ≤ maxcap := (Nat.le_add_right _ _).trans hlo.le
  have hpos := (roomFor_some hmax ((hi.ok b).2 ▸ (hi.ok b).1.fits) (hi.roomIn_eq b ▸ hr)).1
  obtain ⟨m, rfl⟩ := Nat.exists_eq_succ_of_ne_zero
    (Nat.ne_of_gt ((List.length_pos_iff.2 hsrc).trans_le hn))
  obtain ⟨h₁, hstep, hi₁, hc₁, hbytes, hw, -, hroom⟩ := hi.fill_old hc hcap hr hsrc (q := q)
  rw [min_eq_right hlong.le] at hstep hbytes
  have hlen : (src.drop r.toNat).length = src.length - r.toNat := List.length_drop
  have hrest : src.drop r.toNat ≠ [] := by
    apply List.length_pos_iff.1
    omega
  have hfull : Heap.fill maxcap capa c m h₁ w.head? w.head? (src.drop r.toNat) =
      Heap.fill maxcap capa c m h₁ none w.head? (src.drop r.toNat) := by
    cases w with
    | nil => rfl
    | cons y w =>
      obtain ⟨k, rfl⟩ := Nat.exists_eq_succ_of_ne_zero (n := m) (by omega)
      have hnone : h₁.roomIn capa y = none := by
        rw [hroom y rfl, ← Option.isNone_iff_eq_none, ← Option.not_isSome]
        simpa using fun h ↦ hlarge ((roomFor_empty hmax hlo hcapa hcapa').1 h)
      exact fill_full hnone hrest
  obtain ⟨hok, hover⟩ := hi₁.fill_tail (n := m) hlo hcapa hcapa' (by omega) hrest hc₁ (q := w.head?)
  have hsplit : u ++ b :: w = (u ++ [b]) ++ w := by simp
  rw [hlen] at hok hover
  rw [hstep, hfull]
  refine ⟨fun hfits ↦ ?_, hover⟩
  obtain ⟨h', heq, hfilled⟩ := hok hfits
  rw [hsplit, bytes_append, hbytes, hw] at hfilled
  exact ⟨h', heq, hfilled⟩

end Room

end Inv

end Cpsw.BufHeap
