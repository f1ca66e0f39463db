import Cpsw.BufHeap.DropRest
import Cpsw.Lib.Run

namespace Cpsw.BufHeap

open Cpsw.Lib

variable {maxcap capa c me n s off : ℕ} {h h' : Heap} {b b' nxtb nxtb' : Option ℕ} {src : Bytes}

@[simp] theorem setSize_links : (h.setSize me s).1.links = h.links := by
  unfold Heap.setSize
  split
  · exact resize_links
  · rfl

@[simp] theorem setSize_chainOf : (h.setSize me s).1.chainOf = h.chainOf := by
  unfold Heap.setSize
  split
  · exact resize_chainOf
  · rfl

theorem orThrow_ok {r : Heap × Option HeapError} (hr : orThrow r = .ok h') : h' = r.1 ∧ r.2 = none := by
  obtain ⟨h, e⟩ := r
  cases e with
  | none => exact ⟨(Except.ok.inj hr).symm, rfl⟩
  | some e => cases hr

/-- A buffer of the chain, if there is one. -/
def Heap.On (h : Heap) (c : ℕ) (b : Option ℕ) : Prop := ∀ x, b = some x → h.chainOf x = some c

/-- What comes behind a buffer of the chain, or nothing. -/
def Heap.Behind (h : Heap) (c : ℕ) (nxtb : Option ℕ) : Prop :=
  nxtb = none ∨ ∃ k, h.chainOf k = some c ∧ nxtb = h.links.next k

theorem on_none : h.On c none := fun x hx ↦ by cases hx

namespace Inv

theorem on_head (hi : Inv maxcap h) : h.On c (h.chain c).head := by
  obtain ⟨xs, hc⟩ := hi.chains c
  intro x hx
  exact (hc.mem x).2 (List.mem_of_head? (hc.head.symm.trans hx))

theorem around_on (hi : Inv maxcap h) {k : ℕ} (hk : h.chainOf k = some c) :
    ∃ u v, ChainIs h c (u ++ k :: v) ∧ h.links.next k = v.head? := by
  obtain ⟨u, v, hw, -⟩ := hi.around k
  exact ⟨u, v, hi.list_eq hk hw (by simp), hw.next_eq⟩

theorem on_behind (hi : Inv maxcap h) (hb : h.Behind c nxtb) : h.On c nxtb := by
  intro x hx
  rcases hb with rfl | ⟨k, hk, rfl⟩
  · cases hx
  · obtain ⟨u, v, hc, hnext⟩ := hi.around_on hk
    exact (hc.mem x).2 (by simp [List.mem_of_head? (hnext.symm.trans hx)])

theorem truncate (hi : Inv maxcap h) (hs : s ≤ (h.buf me).getSize) : h.EndsBehind me s := by
  obtain ⟨hok, -⟩ := hi.ok me
  have hle := hok.le
  have hfits := hok.fits
  have hcapa := hok.capa
  unfold Heap.EndsBehind
  unfold Buf.getSize at hs
  omega

theorem skip (hi : Inv maxcap h) (hb : h.On c b) {off' : ℕ}
    (hs : h.skip n b off = .ok (h', off', b', nxtb)) :
    Inv maxcap h' ∧ h'.On c b' ∧ h'.Behind c nxtb ∧ (off' = 0 ∨ nxtb = none) := by
  induction n generalizing b off with
  | zero =>
    cases hs
    exact ⟨hi, on_none, .inl rfl, .inr rfl⟩
  | succ n ih =>
    cases b with
    | none =>
      cases hs
      exact ⟨hi, on_none, .inl rfl, .inr rfl⟩
    | some k =>
      have hk := hb k rfl
      rw [Heap.skip] at hs
      split_ifs at hs with hoff
      · obtain ⟨h₁, hset, hret⟩ := Run.bind_ok.1 hs
        obtain ⟨rfl, -⟩ := orThrow_ok hset
        cases hret
        rw [hi.toSize_getSize] at hoff
        refine ⟨hi.setSize (hi.truncate hoff), ?_, .inr ⟨k, ?_, rfl⟩, .inl rfl⟩
        · intro x hx
          cases hx
          simpa using hk
        · simpa using hk
      · exact ih (hi.on_behind (.inr ⟨k, hk, rfl⟩)) hs

/-- A buffer that is created for `insert`. -/
theorem created (hi : Inv maxcap h) (hcap : Buf.HEADROOM ≤ maxcap)
    (hs : orThrow (h.createAtTail c maxcap capa true) = .ok h') :
    Inv maxcap h' ∧ h'.chainOf h.fresh = some c ∧ h'.fresh = h.fresh + 1 ∧
      (h'.buf h.fresh).beg = Buf.HEADROOM ∧ (h'.buf h.fresh).fin = Buf.HEADROOM := by
  obtain ⟨xs, hc⟩ := hi.chains c
  obtain ⟨h₁, heq, hc₁, hfresh, hbuf⟩ := hi.createAtTail_chainIs hc hcap capa
  have hinv : Inv maxcap (h.createAtTail c maxcap capa true).1 := hi.createAtTail hcap
  rw [heq] at hs hinv
  obtain ⟨rfl, -⟩ := orThrow_ok hs
  refine ⟨hinv, (hc₁.mem _).2 (by simp), hfresh, ?_, ?_⟩
  · rw [hbuf, Function.update_self]
    rfl
  · rw [hbuf, Function.update_self]
    rfl

theorem addDummies (hi : Inv maxcap h) (hcap : Buf.HEADROOM + TAILROOM ≤ maxcap) (hb : h.On c b)
    (hs : Heap.addDummies maxcap capa c n h b off = .ok (h', b')) :
    Inv maxcap h' ∧ h'.On c b' ∧ (off = 0 → h' = h) := by
  have hcap' : Buf.HEADROOM ≤ maxcap := (Nat.le_add_right _ _).trans hcap
  induction n generalizing h b off with
  | zero =>
    rw [Heap.addDummies] at hs
    split_ifs at hs with hoff
    cases hs
    exact ⟨hi, hb, fun _ ↦ rfl⟩
  | succ n ih =>
    rw [Heap.addDummies] at hs
    split_ifs at hs with hoff
    · cases hs
      exact ⟨hi, hb, fun _ ↦ rfl⟩
    · obtain ⟨h₁, hcreate, hs⟩ := Run.bind_ok.1 hs
      obtain ⟨h₂, hset, hs⟩ := Run.bind_ok.1 hs
      obtain ⟨hi₁, hon, -, hbeg, hfin⟩ := hi.created hcap' hcreate
      obtain ⟨rfl, -⟩ := orThrow_ok hset
      have havail := hi₁.getAvail_eq h.fresh
      have hmax := (hi₁.ok h.fresh).2 ▸ (hi₁.ok h.fresh).1.capa
      have hsize : toSize (h₁.getAvail h.fresh - TAILROOM) ≤ maxcap - TAILROOM := by
        unfold toSize
        omega
      obtain ⟨hi₂, hon₂, -⟩ := ih (hi₁.setSize (by
        unfold Heap.EndsBehind
        split_ifs <;> omega)) (by
        intro x hx
        cases hx
        simpa using hon) hs
      exact ⟨hi₂, hon₂, fun h0 ↦ absurd h0 hoff⟩

theorem takeRoom (hi : Inv maxcap h) (hcap : Buf.HEADROOM ≤ maxcap) (hb : h.On c b) {x : ℕ} {room : ℤ}
    (hs : h.takeRoom maxcap capa c b = .ok (h', x, room)) : Inv maxcap h' ∧ h'.chainOf x = some c := by
  rw [Heap.takeRoom] at hs
  cases hroom : b.bind fun b ↦ (h.roomIn capa b).map fun room ↦ (b, room) with
  | some r =>
    rw [hroom] at hs
    cases hs
    obtain ⟨z, rfl, hroom⟩ := Option.bind_eq_some_iff.1 hroom
    obtain ⟨r, -, hr⟩ := Option.map_eq_some_iff.1 hroom
    cases hr
    exact ⟨hi, hb _ rfl⟩
  | none =>
    rw [hroom] at hs
    obtain ⟨h₁, hcreate, hs⟩ := Run.bind_ok.1 hs
    obtain ⟨hi₁, hon, -⟩ := hi.created hcap hcreate
    cases hs
    exact ⟨hi₁, hon⟩

theorem appendTo (hi : Inv maxcap h) {p : Bytes} (hs : h.appendTo me p = .ok h') :
    Inv maxcap h' ∧ h'.links = h.links ∧ h'.chainOf = h.chainOf := by
  obtain ⟨hok, hcap⟩ := hi.ok me
  by_cases hfit : (h.buf me).fin + p.length > (h.buf me).getCapacity
  · rw [Heap.appendTo, if_pos hfit] at hs
    cases hs
  · rw [not_lt] at hfit
    rw [hi.appendTo_eq (hfit.trans hcap.le)] at hs
    cases hs
    exact ⟨hi.resize (appended_ok hok hfit) ((appended_capacity hfit).trans hcap), resize_links,
      resize_chainOf⟩

theorem fill (hi : Inv maxcap h) (hcap : Buf.HEADROOM ≤ maxcap) (hb : h.On c b)
    (hn : h.Behind c nxtb) (hs : Heap.fill maxcap capa c n h b nxtb src = .ok (h', nxtb')) :
    Inv maxcap h' ∧ h'.Behind c nxtb' := by
  induction n generalizing h b nxtb src with
  | zero =>
    cases src with
    | nil =>
      cases hs
      exact ⟨hi, hn⟩
    | cons x src => cases hs
  | succ n ih =>
    cases src with
    | nil =>
      cases hs
      exact ⟨hi, hn⟩
    | cons y src =>
      rw [Heap.fill] at hs
      · obtain ⟨⟨h₁, x, room⟩, htake, hs⟩ := Run.bind_ok.1 hs
        obtain ⟨h₂, happend, hs⟩ := Run.bind_ok.1 hs
        obtain ⟨hi₁, hx⟩ := hi.takeRoom hcap hb htake
        obtain ⟨hi₂, hlinks, hof⟩ := hi₁.appendTo happend
        have hx₂ : h₂.chainOf x = some c := (congrFun hof x).trans hx
        cases hnext : h₂.links.next x with
        | none =>
          simp only [hnext] at hs
          exact ih hi₂ on_none (.inl rfl) hs
        | some z =>
          simp only [hnext] at hs
          have hz : h₂.Behind c (some z) := .inr ⟨x, hx₂, hnext.symm⟩
          have hof' : (h₂.reinit z).chainOf = h₂.chainOf := resize_chainOf
          have hlinks' : (h₂.reinit z).links = h₂.links := resize_links
          apply ih (hi₂.reinit hcap) _ _ hs
          · intro w hw
            rw [hof']
            exact hi₂.on_behind hz w hw
          · exact .inr ⟨x, (congrFun hof' x).trans hx₂, by rw [hlinks', hnext]⟩
      · simp

/-- `insert`, when it returns, leaves all chains in order. -/
theorem insert (hi : Inv maxcap h) (hcap : Buf.HEADROOM + TAILROOM ≤ maxcap)
    (hs : h.insert maxcap capa c src off = .ok h') : Inv maxcap h' := by
  have hcap' : Buf.HEADROOM ≤ maxcap := (Nat.le_add_right _ _).trans hcap
  unfold Heap.insert at hs
  obtain ⟨⟨h₁, off₁, b₁, nxtb₁⟩, hskip, hs⟩ := Run.bind_ok.1 hs
  obtain ⟨⟨h₂, b₂⟩, hadd, hs⟩ := Run.bind_ok.1 hs
  obtain ⟨⟨h₃, nxtb₃⟩, hfill, hs⟩ := Run.bind_ok.1 hs
  cases hs
  obtain ⟨hi₁, hon₁, hbehind₁, hoff⟩ := hi.skip hi.on_head hskip
  obtain ⟨hi₂, hon₂, hsame⟩ := hi₁.addDummies hcap hon₁ hadd
  have hbehind₂ : h₂.Behind c nxtb₁ := by
    rcases hoff with rfl | rfl
    · rwa [hsame rfl]
    · exact .inl rfl
  obtain ⟨hi₃, hbehind₃⟩ := hi₂.fill hcap' hon₂ hbehind₂ hfill
  rcases hbehind₃ with rfl | ⟨k, hk, rfl⟩
  · have hdrop : h₃.dropRest h₃.fresh none = h₃ := by
      cases h₃.fresh <;> rfl
    rwa [hdrop]
  · obtain ⟨u, v, hc, hnext⟩ := hi₃.around_on hk
    have hlen := hi₃.length_le hc.whole (by simp) (hi₃.lt_of_chainOf hk)
    rw [List.length_append, List.length_cons] at hlen
    obtain ⟨h₄, heq, hi₄, -⟩ := hi₃.dropRest hc (n := h₃.fresh) (by omega)
    rwa [hnext, heq]

end Inv

end Cpsw.BufHeap
