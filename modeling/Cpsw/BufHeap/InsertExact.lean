import Cpsw.BufHeap.Fill
import Cpsw.BufHeap.Run

namespace Cpsw.BufHeap

open Cpsw.Lib Relation

variable {maxcap capa c b n s off : ℕ} {h h' : Heap} {xs u v w : List ℕ} {q : Option ℕ}
  {src : Bytes}

/-- The largest buffer that is put in front of an offset past the end. -/
def dummySize (maxcap capa : ℕ) : ℕ := min (maxcap - (Buf.HEADROOM + TAILROOM)) capa

/-- Where the bytes begin: the start of the payload of a buffer, how much of it is kept, and the
buffers behind it. An empty chain has no such buffer. -/
def Heap.landing (h : Heap) (maxcap capa : ℕ) : List ℕ → ℕ → Option (ℕ × ℕ × List ℕ)
  | [], 0 => none
  | [], off + 1 => some (Buf.HEADROOM, off % dummySize maxcap capa + 1, [])
  | b :: xs, off =>
    if off ≤ (h.buf b).getSize then some ((h.buf b).beg, off, xs)
    else landing h maxcap capa xs (off - (h.buf b).getSize)

/-- There is nothing to insert; or the buffer that the offset falls in has room for more, and no
capacity is beyond an `ssize_t`; or else what follows this buffer is empty. -/
def Heap.InsertFits (h : Heap) (maxcap capa : ℕ) (xs : List ℕ) (off n : ℕ) : Prop :=
  n = 0 ∨
    match h.landing maxcap capa xs off with
    | none => FitsNew maxcap capa n
    | some (beg, s, rest) =>
      match roomFor maxcap capa (beg + s) s with
      | none => FitsNew maxcap capa n ∧ ∀ b ∈ rest, (h.buf b).getSize = 0
      | some r => n ≤ r.toNat ∨ capa < 2 ^ 63 ∨
          FitsNew maxcap capa (n - r.toNat) ∧ ∀ b ∈ rest.tail, (h.buf b).getSize = 0

namespace Inv

/-- The first loop of `insert` stops in a buffer, or runs past the end of the chain. -/
theorem skip_cases (hi : Inv maxcap h) (hw : h.links.Whole (u ++ v)) (hn : v.length ≤ n) :
    (∃ w b v' s, v = w ++ b :: v' ∧ off = (h.bytes w).length + s ∧ s ≤ (h.buf b).getSize ∧
      h.skip n v.head? off = .ok (h.resize b { h.buf b with fin := (h.buf b).beg + s } (h.getSize b), 0,
        some b, v'.head?) ∧
      h.landing maxcap capa v off = some ((h.buf b).beg, s, v')) ∨
    ((v = [] ∨ (h.bytes v).length < off) ∧
      h.skip n v.head? off = .ok (h, off - (h.bytes v).length, none, none) ∧
      h.landing maxcap capa v off = h.landing maxcap capa [] (off - (h.bytes v).length)) := by
  induction v generalizing u n off with
  | nil =>
    right
    refine ⟨.inl rfl, ?_, rfl⟩
    cases n <;> rfl
  | cons b v ih =>
    cases n with
    | zero => simp at hn
    | succ n =>
      have hnext : h.links.next b = v.head? := hw.next_eq
      have hlen := hi.content_length b
      obtain ⟨hok, hcap⟩ := hi.ok b
      have hle := hok.le
      have hfits := hok.fits
      by_cases hoff : off ≤ (h.buf b).getSize
      · left
        refine ⟨[], b, v, off, rfl, by simp, hoff, ?_, if_pos hoff⟩
        have hset : h.setSize b off =
            (h.resize b { h.buf b with fin := (h.buf b).beg + off } (h.getSize b), none) := by
          apply hi.setSize_eq
          unfold Buf.getSize at hoff
          omega
        rw [List.head?_cons, Heap.skip, hi.toSize_getSize, if_pos hoff, hset]
        simp only [orThrow, bind, Except.bind, pure, Except.pure, resize_links, hnext]
      · have hskip : h.skip (n + 1) (b :: v).head? off =
            h.skip n v.head? (off - (h.buf b).getSize) := by
          rw [List.head?_cons, Heap.skip, hi.toSize_getSize, if_neg hoff, hnext]
        have hland : h.landing maxcap capa (b :: v) off =
            h.landing maxcap capa v (off - (h.buf b).getSize) := if_neg hoff
        have hw' : h.links.Whole ((u ++ [b]) ++ v) := by simpa using hw
        rw [hskip, hland]
        rcases @ih n (off - (h.buf b).getSize) (u ++ [b]) hw' (by simpa using hn) with
          ⟨w, k, v', s, rfl, hs, hle', heq, hl⟩ | ⟨hpast, heq, hl⟩
        · left
          refine ⟨b :: w, k, v', s, rfl, ?_, hle', heq, hl⟩
          rw [bytes_cons, List.length_append]
          omega
        · right
          have htotal : (h.bytes (b :: v)).length = (h.buf b).getSize + (h.bytes v).length := by
            rw [bytes_cons, List.length_append, hlen]
          rw [Nat.sub_sub, ← htotal] at heq hl
          refine ⟨.inr ?_, heq, hl⟩
          rcases hpast with rfl | hpast
          · rw [htotal, bytes_nil, List.length_nil]
            omega
          · omega

/-- Buffers are added up to an offset past the end; the last of them ends there. -/
theorem addDummies_eq (hi : Inv maxcap h) (hc : ChainIs h c xs)
    (hlo : Buf.HEADROOM + TAILROOM < maxcap) (hcapa : 1 ≤ capa) (hpos : 0 < off) (hn : off ≤ n)
    {b : Option ℕ} :
    ∃ h' u k junk, Heap.addDummies maxcap capa c n h b off = .ok (h', some k) ∧ Inv maxcap h' ∧
      ChainIs h' c (u ++ [k]) ∧ h'.bytes (u ++ [k]) = h.bytes xs ++ junk ∧ junk.length = off ∧
      (h'.buf k).beg = Buf.HEADROOM ∧
      (h'.buf k).fin = Buf.HEADROOM + ((off - 1) % dummySize maxcap capa + 1) := by
  have hmax := (hi.ok 0).2 ▸ (hi.ok 0).1.capa
  have hcap : Buf.HEADROOM ≤ maxcap := (Nat.le_add_right _ _).trans hlo.le
  induction n generalizing h xs off b with
  | zero => omega
  | succ n ih =>
    obtain ⟨h₁, hcreate, hc₁, hfresh, hbuf⟩ := hi.createAtTail_chainIs hc hcap capa
    have hi₁ : Inv maxcap h₁ := by
      simpa only [hcreate] using @createAtTail maxcap h c hi hcap capa true
    have hnew : h₁.buf h.fresh = Buf.getBuf (h.buf h.fresh).data := by
      rw [hbuf, Function.update_self]
    have hbeg : (h₁.buf h.fresh).beg = Buf.HEADROOM := by rw [hnew]; rfl
    have hfin : (h₁.buf h.fresh).fin = Buf.HEADROOM := by rw [hnew]; rfl
    have havail : toSize (h₁.getAvail h.fresh - TAILROOM) = maxcap - (Buf.HEADROOM + TAILROOM) := by
      rw [hi₁.getAvail_eq, hfin, toSize]
      unfold Buf.HEADROOM TAILROOM at *
      omega
    let δ := min off (dummySize maxcap capa)
    have hδ : (if off < (if capa < maxcap - (Buf.HEADROOM + TAILROOM) then capa
        else maxcap - (Buf.HEADROOM + TAILROOM)) then off
        else (if capa < maxcap - (Buf.HEADROOM + TAILROOM) then capa
          else maxcap - (Buf.HEADROOM + TAILROOM))) = δ := by
      simp only [δ, dummySize]
      split_ifs <;> omega
    have hδpos : 0 < δ := by
      simp only [δ, dummySize]
      omega
    have hδcap : Buf.HEADROOM + δ ≤ maxcap := by
      simp only [δ, dummySize]
      omega
    have hset : h₁.setSize h.fresh δ = (h₁.resize h.fresh
        { h₁.buf h.fresh with fin := (h₁.buf h.fresh).beg + δ } (h₁.getSize h.fresh), none) := by
      apply hi₁.setSize_eq
      rw [hbeg]
      exact hδcap
    obtain ⟨hok₁, hlen₁⟩ := hi₁.ok h.fresh
    generalize hb' : ({ h₁.buf h.fresh with fin := (h₁.buf h.fresh).beg + δ } : Buf) = b' at hset
    have hok' : b'.Ok := by
      rw [← hb']
      refine ⟨Nat.le_add_right _ _, ?_, hok₁.capa⟩
      rw [hbeg]
      exact hδcap.trans hlen₁.ge
    have hlen' : b'.getCapacity = maxcap := by
      rw [← hb']
      exact hlen₁
    have hi₂ : Inv maxcap (h₁.resize h.fresh b' (h₁.getSize h.fresh)) := hi₁.resize hok' hlen'
    have hc₂ : ChainIs (h₁.resize h.fresh b' (h₁.getSize h.fresh)) c (xs ++ [h.fresh]) := hc₁.resize
    have hfreshx : h.fresh ∉ xs := fun hm ↦ by
      have hlt := hi.lt_of_chainOf ((hc.mem _).2 hm)
      omega
    have hbuf₂ : (h₁.resize h.fresh b' (h₁.getSize h.fresh)).buf h.fresh = b' := by
      rw [resize_buf, Function.update_self]
    have hbytes : (h₁.resize h.fresh b' (h₁.getSize h.fresh)).bytes (xs ++ [h.fresh]) =
        h.bytes xs ++ b'.content := by
      have hold : h₁.bytes xs = h.bytes xs := by
        apply bytes_congr
        intro i hx
        rw [hbuf, Function.update_of_ne (ne_of_mem_of_not_mem hx hfreshx)]
      rw [bytes_append, bytes_resize hfreshx, hold, bytes_cons, hbuf₂, bytes_nil, List.append_nil]
    have hjunk : b'.content.length = δ := by
      rw [hok'.content_length, Buf.getSize, ← hb']
      simp
    have hstep : Heap.addDummies maxcap capa c (n + 1) h b off = Heap.addDummies maxcap capa c n
        (h₁.resize h.fresh b' (h₁.getSize h.fresh)) (some h.fresh) (off - δ) := by
      rw [Heap.addDummies, if_neg (by omega), hcreate]
      dsimp only [orThrow, bind, Except.bind]
      rw [havail, hδ, hset]
    generalize h₁.resize h.fresh b' (h₁.getSize h.fresh) = h₂ at *
    rw [hstep]
    by_cases hlast : off ≤ dummySize maxcap capa
    · have hδoff : δ = off := min_eq_left hlast
      have hdone : Heap.addDummies maxcap capa c n h₂ (some h.fresh) (off - δ) =
          .ok (h₂, some h.fresh) := by
        rw [hδoff, Nat.sub_self]
        cases n <;> rfl
      refine ⟨h₂, xs, h.fresh, b'.content, hdone, hi₂, hc₂, hbytes, hjunk.trans hδoff, ?_, ?_⟩
      · rw [hbuf₂, ← hb']
        exact hbeg
      · rw [hbuf₂, ← hb', Nat.mod_eq_of_lt (by omega), hbeg, hδoff]
        change Buf.HEADROOM + off = _
        omega
    · have hδD : δ = dummySize maxcap capa := min_eq_right (by omega)
      obtain ⟨h₃, us, k, junk, heq, hi₃, hc₃, hbytes₃, hjunk₃, hbeg₃, hfin₃⟩ :=
        @ih (off - δ) h₂ (xs ++ [h.fresh]) hi₂ hc₂ (by omega) (by omega) (some h.fresh)
      refine ⟨h₃, us, k, b'.content ++ junk, heq, hi₃, hc₃, ?_, ?_, hbeg₃, ?_⟩
      · rw [hbytes₃, hbytes, List.append_assoc]
      · rw [List.length_append, hjunk, hjunk₃]
        omega
      · have hmod : (off - δ - 1) % dummySize maxcap capa = (off - 1) % dummySize maxcap capa := by
          have hsub : off - 1 = (off - δ - 1) + dummySize maxcap capa := by omega
          rw [hsub, Nat.add_mod_right]
        rw [hfin₃, hmod]

/-- Where `insert` begins to copy. -/
theorem land (hi : Inv maxcap h) (hc : ChainIs h c xs) (hlo : Buf.HEADROOM + TAILROOM < maxcap)
    (hcapa : 1 ≤ capa) (off : ℕ) :
    ∃ h₁ off₁ b₁ h₂ u v junk,
      h.skip h.fresh (h.chain c).head off = .ok (h₁, off₁, b₁, v.tail.head?) ∧
      Heap.addDummies maxcap capa c off₁ h₁ b₁ off₁ = .ok (h₂, v.head?) ∧ Inv maxcap h₂ ∧
      ChainIs h₂ c (u ++ v) ∧ h₂.bytes (u ++ v.take 1) = (h.bytes xs).take off ++ junk ∧
      junk.length = off - (h.bytes xs).length ∧
      (v = [] → u = [] ∧ h.landing maxcap capa xs off = none) ∧
      ∀ b w, v = b :: w →
        h.landing maxcap capa xs off = some ((h₂.buf b).beg, (h₂.buf b).getSize, w) ∧
          ∀ i ∈ w, h₂.buf i = h.buf i := by
  have hlen : xs.length ≤ h.fresh := by
    cases xs with
    | nil => exact Nat.zero_le _
    | cons b xs =>
      have hb : h.chainOf b = some c := (hc.mem b).2 (List.mem_cons_self ..)
      exact hi.length_le hc.whole (List.mem_cons_self ..) (hi.lt_of_chainOf hb)
  rw [hc.head]
  rcases @skip_cases maxcap capa h.fresh off h [] xs hi hc.whole hlen with
    ⟨w, b, v, s, rfl, rfl, hs, hskip, hland⟩ | ⟨hpast, hskip, hland⟩
  · obtain ⟨hok, hcap⟩ := hi.ok b
    have hle := hok.le
    have hfits := hok.fits
    have hclen := hi.content_length b
    have hnd := hc.nodup
    have hbw : b ∉ w := fun hm ↦ List.disjoint_of_nodup_append hnd hm (by simp)
    have hbv : b ∉ v := (List.nodup_cons.1 (List.nodup_append.1 hnd).2.1).1
    generalize hb' : ({ h.buf b with fin := (h.buf b).beg + s } : Buf) = b' at hskip
    have hok' : b'.Ok := by
      rw [← hb']
      refine ⟨Nat.le_add_right _ _, ?_, hok.capa⟩
      change (h.buf b).beg + s ≤ (h.buf b).getCapacity
      unfold Buf.getSize at hs
      omega
    have hcap' : b'.getCapacity = maxcap := hb' ▸ hcap
    have hcontent : b'.content = (h.buf b).content.take s := by
      rw [← hb', Buf.content, Buf.content, Buf.getSize, Nat.add_sub_cancel_left, List.take_take,
        min_eq_left hs]
      rfl
    have hbuf : (h.resize b b' (h.getSize b)).buf b = b' := by rw [resize_buf, Function.update_self]
    refine ⟨_, 0, some b, _, w, b :: v, [], hskip, rfl, hi.resize hok' hcap', hc.resize, ?_, ?_,
      fun hv ↦ (List.cons_ne_nil _ _ hv).elim, fun k w' hv ↦ ?_⟩
    · rw [List.append_nil, bytes_append, List.take_one, List.head?_cons, Option.toList_some,
        bytes_cons, hbuf, bytes_resize hbw, hcontent, bytes_nil, List.append_nil, bytes_append,
        List.take_length_add_append, bytes_cons, List.take_append_of_le_length (by omega)]
    · rw [bytes_append, bytes_cons, List.length_append, List.length_append, List.length_nil]
      omega
    · obtain ⟨rfl, rfl⟩ := List.cons.inj hv
      refine ⟨?_, fun i hx ↦ ?_⟩
      · rw [hland, hbuf, ← hb', Buf.getSize, Nat.add_sub_cancel_left]
      · rw [resize_buf, Function.update_of_ne (ne_of_mem_of_not_mem hx hbv)]
  · have hle : (h.bytes xs).length ≤ off := by
      rcases hpast with rfl | hpast
      · exact Nat.zero_le _
      · exact hpast.le
    by_cases hoff : off - (h.bytes xs).length = 0
    · obtain rfl : xs = [] := hpast.resolve_right (by omega)
      obtain rfl : off = 0 := by simpa using hoff
      exact ⟨h, 0, none, h, [], [], [], hskip, rfl, hi, hc, rfl, rfl, fun _ ↦ ⟨rfl, rfl⟩,
        fun b w hv ↦ (List.cons_ne_nil _ _ hv.symm).elim⟩
    · obtain ⟨h₂, u, k, junk, heq, hi₂, hc₂, hbytes, hjunk, hbeg, hfin⟩ :=
        @addDummies_eq maxcap capa c _ (off - (h.bytes xs).length) h xs hi hc hlo hcapa (by omega) le_rfl
          none
      refine ⟨h, _, none, h₂, u, [k], junk, hskip, heq, hi₂, hc₂, ?_, hjunk,
        fun hv ↦ (List.cons_ne_nil _ _ hv).elim, fun b w hv ↦ ?_⟩
      · rw [List.take_of_length_le hle]
        exact hbytes
      · obtain ⟨rfl, rfl⟩ := List.cons.inj hv
        refine ⟨?_, fun i hx ↦ by cases hx⟩
        obtain ⟨m, hm⟩ := Nat.exists_eq_succ_of_ne_zero hoff
        have hsize : (h₂.buf k).getSize = m % dummySize maxcap capa + 1 := by
          rw [Buf.getSize, hfin, hbeg, hm]
          exact Nat.add_sub_cancel_left _ _
        rw [hland, hm, hsize, hbeg]
        rfl

end Inv

/-- The chain holds the first bytes that it held, up to the offset, and then those of `src`. -/
def Heap.Inserted (h : Heap) (c : ℕ) (old : Bytes) (off : ℕ) (src : Bytes) : Prop :=
  ∃ xs junk, ChainIs h c xs ∧ h.bytes xs = old.take off ++ junk ++ src ∧
    junk.length = off - old.length

/-- The end of `insert`. -/
def finish (r : Except InsertError (Heap × Option ℕ)) : Except InsertError Heap := do
  let (h, q) ← r
  return h.dropRest h.fresh q

theorem ChainIs.unique {ys : List ℕ} (hc : ChainIs h c xs) (hc' : ChainIs h c ys) : xs = ys := by
  cases xs with
  | nil =>
    refine (List.eq_nil_iff_forall_not_mem.2 fun i hi ↦ ?_).symm
    exact absurd ((hc.mem i).1 ((hc'.mem i).2 hi)) List.not_mem_nil
  | cons b xs =>
    have hb := (hc'.mem b).1 ((hc.mem b).2 (List.mem_cons_self ..))
    exact hc.whole.unique hc'.whole (List.mem_cons_self ..) hb

section Finish

variable {old x y z junk : Bytes} {r : Except InsertError (Heap × Option ℕ)}

/-- Nothing but `src` may stand behind the offset. -/
theorem finish_ok (hr : r = .ok (h, q)) (hjunk : junk.length = off - old.length)
    (hf : Filled maxcap c (old.take off ++ junk ++ x ++ z ++ y) h q) :
    ((∃ h', finish r = .ok h' ∧ h'.Inserted c old off (x ++ y)) ↔ z = []) ∧
      finish r ≠ .error .diverges := by
  obtain ⟨-, xs, hc, hbytes⟩ := hf.dropRest
  have hfinish : finish r = .ok (h.dropRest h.fresh q) := by
    rw [hr]
    rfl
  rw [hfinish]
  refine ⟨⟨?_, ?_⟩, by simp⟩
  · rintro ⟨h', heq, ys, junk', hc', hbytes', hjunk'⟩
    obtain rfl := Except.ok.inj heq
    rw [hc'.unique hc, hbytes] at hbytes'
    have hlen := congrArg List.length hbytes'
    simp only [List.length_append] at hlen
    exact List.length_eq_zero_iff.1 (by omega)
  · rintro rfl
    exact ⟨_, rfl, xs, junk, hc, by simpa using hbytes, hjunk⟩

theorem finish_overrun (c : ℕ) (old : Bytes) (off : ℕ) (src : Bytes) (hr : r = .error .overrun) :
    (¬∃ h', finish r = .ok h' ∧ h'.Inserted c old off src) ∧ finish r ≠ .error .diverges := by
  have hfinish : finish r = .error .overrun := by
    rw [hr]
    rfl
  rw [hfinish]
  exact ⟨fun ⟨h', heq, _⟩ ↦ (by cases heq), by simp⟩

end Finish

/-- The loop that copies, from where `insert` begins to copy. -/
theorem Inv.fill_iff {junk old : Bytes} (hi : Inv maxcap h) (hc : ChainIs h c (u ++ v))
    (hlo : Buf.HEADROOM + TAILROOM < maxcap) (hcapa : 1 ≤ capa) (hcapa' : capa < 2 ^ 64) (src : Bytes)
    (hpre : h.bytes (u ++ v.take 1) = old.take off ++ junk) (hjunk : junk.length = off - old.length)
    (hu : v = [] → u = []) :
    ((∃ h', finish (Heap.fill maxcap capa c src.length h v.head? v.tail.head? src) = .ok h' ∧
        h'.Inserted c old off src) ↔
      (src.length = 0 ∨
        match v with
        | [] => FitsNew maxcap capa src.length
        | b :: w =>
          match h.roomIn capa b with
          | none => FitsNew maxcap capa src.length ∧ h.bytes w = []
          | some r => src.length ≤ r.toNat ∨ capa < 2 ^ 63 ∨
              FitsNew maxcap capa (src.length - r.toNat) ∧ h.bytes w.tail = [])) ∧
      finish (Heap.fill maxcap capa c src.length h v.head? v.tail.head? src) ≠ .error .diverges := by
  have hcap : Buf.HEADROOM ≤ maxcap := (Nat.le_add_right _ _).trans hlo.le
  have hiff {P Q R S : Prop} (h₁ : (P ↔ Q) ∧ S) (h₂ : Q ↔ R) : (P ↔ R) ∧ S :=
    ⟨h₁.1.trans h₂, h₁.2⟩
  by_cases hsrc : src = []
  · subst hsrc
    have hf : Filled maxcap c (old.take off ++ junk ++ [] ++ [] ++ []) h v.tail.head? := by
      refine ⟨hi, u ++ v.take 1, v.tail, ?_, rfl, ?_, by simpa using hpre⟩
      · cases v <;> simpa using hc
      · cases v with
        | nil => exact .inl rfl
        | cons b w => exact .inr (by simp)
    exact hiff (finish_ok fill_nil hjunk hf) (by simp)
  · have hne : src.length ≠ 0 := fun hl ↦ hsrc (List.length_eq_zero_iff.1 hl)
    rw [or_iff_right hne]
    cases v with
    | nil =>
      obtain rfl := hu rfl
      obtain ⟨hok, hover⟩ := hi.fill_tail hlo hcapa hcapa' le_rfl hsrc hc (q := none)
      by_cases hfits : FitsNew maxcap capa src.length
      · obtain ⟨h', heq, hf⟩ := hok hfits
        have hpre' : h.bytes ([] ++ []) = old.take off ++ junk := hpre
        rw [hpre'] at hf
        exact hiff (finish_ok (x := []) (z := []) heq hjunk (by simpa using hf)) (by simp [hfits])
      · obtain ⟨hno, hterm⟩ := finish_overrun c old off src (hover hfits)
        exact ⟨iff_of_false hno hfits, hterm⟩
    | cons b w =>
      have hpre' : h.bytes (u ++ [b]) = old.take off ++ junk := hpre
      rw [List.head?_cons, List.tail_cons]
      dsimp only
      cases hr : h.roomIn capa b with
      | none =>
        obtain ⟨m, hm⟩ := Nat.exists_eq_succ_of_ne_zero hne
        have hfull : Heap.fill maxcap capa c src.length h (some b) w.head? src =
            Heap.fill maxcap capa c src.length h none w.head? src := by
          rw [hm]
          exact fill_full hr hsrc
        obtain ⟨hok, hover⟩ := hi.fill_tail hlo hcapa hcapa' le_rfl hsrc hc (q := w.head?)
        rw [hfull]
        by_cases hfits : FitsNew maxcap capa src.length
        · obtain ⟨h', heq, hf⟩ := hok hfits
          have hsplit : h.bytes (u ++ b :: w) = old.take off ++ junk ++ h.bytes w := by
            rw [← hpre', ← bytes_append, List.append_assoc, List.singleton_append]
          rw [hsplit] at hf
          exact hiff (finish_ok (x := []) heq hjunk (by simpa using hf)) (by simp [hfits])
        · obtain ⟨hno, hterm⟩ := finish_overrun c old off src (hover hfits)
          exact ⟨iff_of_false hno fun hf ↦ hfits hf.1, hterm⟩
      | some r =>
        dsimp only
        by_cases hle : src.length ≤ r.toNat
        · obtain ⟨h', nxtb', heq, hf⟩ := hi.fill_short hc hr hsrc hcap hle le_rfl (q := w.head?)
          rw [hpre'] at hf
          exact hiff (finish_ok (x := []) (z := []) heq hjunk (by simpa using hf)) (by simp [hle])
        · by_cases hsmall : capa < 2 ^ 63
          · obtain ⟨h', nxtb', heq, hf⟩ := hi.fill_chain hlo hcapa hcapa' le_rfl hsrc hsmall hc
              (q := w.head?) (fun y hy ↦ by
                obtain rfl := Option.some.inj hy
                rw [hr]
                rfl)
            rw [hpre] at hf
            exact hiff (finish_ok (x := []) (z := []) heq hjunk (by simpa using hf))
              (iff_of_true rfl (.inr (.inl hsmall)))
          · obtain ⟨hok, hover⟩ := hi.fill_large hc hr hsrc hlo hcapa hcapa' hsmall (not_le.1 hle) le_rfl
              (q := w.head?)
            rw [or_iff_right hle, or_iff_right hsmall]
            by_cases hfits : FitsNew maxcap capa (src.length - r.toNat)
            · obtain ⟨h', heq, hf⟩ := hok hfits
              rw [hpre'] at hf
              have hsrc' := List.take_append_drop r.toNat src
              have hfin := finish_ok heq hjunk hf
              rw [hsrc'] at hfin
              exact hiff hfin (by simp [hfits])
            · obtain ⟨hno, hterm⟩ := finish_overrun c old off src (hover hfits)
              exact ⟨iff_of_false hno fun hf ↦ hfits hf.1, hterm⟩

theorem Inv.insert_iff (hi : Inv maxcap h) (hc : ChainIs h c xs)
    (hlo : Buf.HEADROOM + TAILROOM < maxcap) (hcapa : 1 ≤ capa) (hcapa' : capa < 2 ^ 64) (src : Bytes)
    (off : ℕ) :
    ((∃ h', h.insert maxcap capa c src off = .ok h' ∧ h'.Inserted c (h.bytes xs) off src) ↔
      h.InsertFits maxcap capa xs off src.length) ∧
    h.insert maxcap capa c src off ≠ .error .diverges := by
  obtain ⟨h₁, off₁, b₁, h₂, u, v, junk, hskip, hadd, hi₂, hc₂, hpre, hjunk, hnil, hcons⟩ :=
    hi.land hc hlo hcapa off
  have hins : h.insert maxcap capa c src off =
      finish (Heap.fill maxcap capa c src.length h₂ v.head? v.tail.head? src) := by
    rw [Heap.insert, hskip]
    dsimp only [bind, Except.bind]
    rw [hadd]
    rfl
  obtain ⟨hiff, hterm⟩ := hi₂.fill_iff hc₂ hlo hcapa hcapa' src hpre hjunk
    (fun hv ↦ (hnil hv).1)
  rw [hins]
  refine ⟨hiff.trans ?_, hterm⟩
  unfold Heap.InsertFits
  cases v with
  | nil => rw [(hnil rfl).2]
  | cons b w =>
    obtain ⟨hland, hsame⟩ := hcons b w rfl
    have hle := (hi₂.ok b).1.le
    have hfin : (h₂.buf b).beg + (h₂.buf b).getSize = (h₂.buf b).fin := by
      unfold Buf.getSize
      omega
    have hempty : ∀ y ⊆ w, h₂.bytes y = [] ↔ ∀ i ∈ y, (h.buf i).getSize = 0 := by
      intro y hy
      rw [bytes_eq_nil hi₂]
      exact forall₂_congr fun i hx ↦ by rw [hsame i (hy hx)]
    rw [hland]
    dsimp only
    rw [hi₂.roomIn_eq, hfin, hempty w (List.Subset.refl w), hempty w.tail fun _ ↦ List.mem_of_mem_tail]

/-- `insert` leaves what it should exactly where the bytes fit; it always comes to an end, and
`extract` copies the bytes from the offset on. -/
theorem insert_extract_iff (hi : Inv maxcap h) (hc : ChainIs h c xs)
    (hlo : Buf.HEADROOM + TAILROOM < maxcap) (hcapa : 1 ≤ capa) (hcapa' : capa < 2 ^ 64) (src : Bytes)
    (off : ℕ) :
    ((∃ h', h.insert maxcap capa c src off = .ok h' ∧ h'.Inserted c (h.bytes xs) off src) ↔
      h.InsertFits maxcap capa xs off src.length) ∧
    h.insert maxcap capa c src off ≠ .error .diverges ∧
    ∀ m, h.extract c off m = ((h.bytes xs).drop off).take m := by
  obtain ⟨hiff, hterm⟩ := hi.insert_iff hc hlo hcapa hcapa' src off
  exact ⟨hiff, hterm, fun m ↦ hi.extract_eq hc⟩

/-- Two buffers of two bytes each. -/
theorem twoBuffers : ∃ h, ReflTransGen (Heap.CarefulStep 64) (.init zeros) h ∧ h.fresh = 2 ∧
    (h.chain 0).head = some 0 ∧ (h.chain 0).tail = some 1 ∧ (h.chain 0).len = 2 ∧
    (h.buf 0).beg = 32 ∧ (h.buf 0).getSize = 2 ∧ (h.buf 1).getSize = 2 := by
  have hcreate (h : Heap) : h.CarefulStep 64 (h.createAtTail 0 64 65535 false).1 :=
    ⟨.createAtTail 0 65535 false, by simp [Event.bufs], trivial, rfl⟩
  have hset (h : Heap) (b : ℕ) (hb : b < h.fresh) (he : h.EndsBehind b 2) :
      h.CarefulStep 64 (h.setSize b 2).1 :=
    ⟨.setSize b 2, List.forall_mem_singleton.2 hb, he, rfl⟩
  refine ⟨_, (((ReflTransGen.refl.tail (hcreate _)).tail (hset _ 0 ?_ ?_)).tail (hcreate _)).tail
    (hset _ 1 ?_ ?_), ?_⟩
  all_goals decide

/-- The chain of these two buffers. -/
theorem twoBuffers_chainIs : ∃ h, Inv 64 h ∧ ChainIs h 0 [0, 1] ∧ (h.buf 0).beg = 32 ∧
    (h.buf 0).getSize = 2 ∧ (h.buf 1).getSize = 2 := by
  obtain ⟨h, hrun, -, hhead, htail, hlen, hbeg, hsize₀, hsize₁⟩ := twoBuffers
  have hi : Inv 64 h := .run (by simp [zeros]) (by decide) (by decide) hrun
  obtain ⟨xs, hc⟩ := hi.chains 0
  have hl : xs.length = 2 := by
    have hlen' := hc.len
    rw [hlen] at hlen'
    omega
  obtain ⟨a, b, rfl⟩ := List.length_eq_two.1 hl
  obtain rfl : 0 = a := by simpa [hhead] using hc.head
  obtain rfl : 1 = b := by simpa [htail] using hc.tail
  exact ⟨h, hi, hc, hbeg, hsize₀, hsize₁⟩

theorem insertShort_inserted : ∃ h xs h', ChainIs h 0 xs ∧ h.insert 64 9 0 [7, 8] 1 = .ok h' ∧
    h'.Inserted 0 (h.bytes xs) 1 [7, 8] ∧ h.extract 0 1 3 = ((h.bytes xs).drop 1).take 3 := by
  obtain ⟨h, hi, hc, hbeg, hsize₀, -⟩ := twoBuffers_chainIs
  obtain ⟨hiff, -, hext⟩ := @insert_extract_iff 64 9 0 h [0, 1] hi hc (by decide) (by decide)
    (by decide) [7, 8] 1
  have hfits : h.InsertFits 64 9 [0, 1] 1 2 := by
    have hroom : roomFor 64 9 (32 + 1) 1 = some 8 := by decide
    simp [Heap.InsertFits, Heap.landing, hsize₀, hbeg, hroom]
  obtain ⟨h', heq, hins⟩ := hiff.2 hfits
  exact ⟨h, _, h', hc, heq, hins, hext 3⟩

/-- With a capacity of two bytes the first buffer is full, and the bytes go behind the second one. -/
theorem insertFull_not_inserted : ∃ h xs, Inv 64 h ∧ ChainIs h 0 xs ∧
    ¬∃ h', h.insert 64 2 0 [7] 2 = .ok h' ∧ h'.Inserted 0 (h.bytes xs) 2 [7] := by
  obtain ⟨h, hi, hc, hbeg, hsize₀, hsize₁⟩ := twoBuffers_chainIs
  obtain ⟨hiff, -⟩ := @Inv.insert_iff 64 2 0 h [0, 1] hi hc (by decide) (by decide) (by decide) [7] 2
  refine ⟨h, _, hi, hc, fun hins ↦ ?_⟩
  have hroom : roomFor 64 2 (32 + 2) 2 = none := by decide
  have hfits := hiff.1 hins
  simp [Heap.InsertFits, Heap.landing, hsize₀, hsize₁, hbeg, hroom] at hfits

end Cpsw.BufHeap
