import Cpsw.Rssi.Buf
import Mathlib.Data.List.GetD
import Mathlib.Logic.Function.Iterate

namespace Cpsw.Rssi

variable {α : Type}

/-- A queue of numbered entries, oldest first; `oldest` is also the number of the next entry of an
empty queue. -/
structure Fifo (α : Type) where
  oldest : SeqNo
  entries : List (SeqNo × α)

inductive RingOp (α : Type)
  | push (b : α)
  | pop
  | ack (ackNo : SeqNo)
  | resize (newCapa : ℕ)
  | purge
  | seed (synSeqNo : SeqNo)
  /-- what an iterator points to that was advanced `i` times -/
  | iterate (i : ℕ)

inductive RingResult (α : Type)
  | done
  | entry (b : Option α)
  | count (n : ℤ)

namespace Fifo

def step : RingOp α → Fifo α → RingResult α × Fifo α
  | .push b, f =>
    (.done, { f with entries := f.entries ++ [(f.oldest + UInt8.ofNat f.entries.length, b)] })
  | .pop, f =>
    match f.entries with
    | [] => (.entry none, f)
    | e :: es => (.entry (some e.2), { oldest := e.1 + 1, entries := es })
  | .ack n, f =>
    match f.entries.findIdx? (·.1 = n) with
    | some i => (.count (i + 1), { oldest := n + 1, entries := f.entries.drop (i + 1) })
    | none => (.count (if n + 1 = f.oldest then 0 else -1), f)
  | .resize _, f => (.done, f)
  | .purge, f => (.done, { oldest := f.oldest + UInt8.ofNat f.entries.length, entries := [] })
  | .seed s, f =>
    (.done, { oldest := s, entries := f.entries.mapIdx fun i e ↦ (s + UInt8.ofNat i, e.2) })
  | .iterate i, f => (.entry (f.entries[i]?.map (·.2)), f)

def run : List (RingOp α) → Fifo α → List (RingResult α) × Fifo α
  | [], f => ([], f)
  | op :: ops, f =>
    let (x, f) := f.step op
    let (xs, f) := f.run ops
    (x :: xs, f)

end Fifo

namespace RingBuf

/-- `++it` on an iterator at the position `idx` -/
def next (r : RingBuf α) (idx : ℕ) : ℕ := if idx ≠ r.wp then (idx + 1) % 2 ^ 32 else idx

def step : RingOp α → RingBuf α → Except CPSWError (RingResult α × RingBuf α)
  | .push b, r => do pure (.done, ← r.push (some b))
  | .pop, r => pure (.entry r.pop.1, r.pop.2)
  | .ack n, r => pure (.count (r.ack n).1, (r.ack n).2)
  | .resize n, r => do pure (.done, ← r.resize n)
  | .purge, r => pure (.done, r.purge)
  | .seed s, r => pure (.done, r.seed s)
  | .iterate i, r => pure (.entry (r.deref (r.next^[i] r.rp)), r)

def run : List (RingOp α) → RingBuf α → Except CPSWError (List (RingResult α) × RingBuf α)
  | [], r => pure ([], r)
  | op :: ops, r => do
    let (x, r) ← r.step op
    let (xs, r) ← r.run ops
    pure (x :: xs, r)

/-- What the users of a ring keep to: no more entries than it may hold, and it only grows. -/
def Permits (r : RingBuf α) : RingOp α → Prop
  | .push _ => r.getSize < min r.capa 255
  | .resize n => r.capa < n ∧ n ≤ 256
  | _ => True

/-- Every operation of a sequence is permitted in its turn. -/
def PermitsAll : List (RingOp α) → RingBuf α → Prop
  | [], _ => True
  | op :: ops, r => r.Permits op ∧
    match r.step op with
    | .ok (_, r') => r'.PermitsAll ops
    | .error _ => True

instance (r : RingBuf α) : (op : RingOp α) → Decidable (r.Permits op)
  | .push _ => inferInstanceAs (Decidable (r.getSize < min r.capa 255))
  | .resize n => inferInstanceAs (Decidable (r.capa < n ∧ n ≤ 256))
  | .pop | .ack _ | .purge | .seed _ | .iterate _ => isTrue trivial

instance decidablePermitsAll : (ops : List (RingOp α)) → (r : RingBuf α) → Decidable (r.PermitsAll ops)
  | [], _ => isTrue trivial
  | op :: ops, r =>
    have : Decidable (match r.step op with
        | .ok (_, r') => r'.PermitsAll ops
        | .error _ => True) :=
      match r.step op with
      | .ok (_, r') => decidablePermitsAll ops r'
      | .error _ => isTrue trivial
    inferInstanceAs (Decidable (r.Permits op ∧ _))

/-- The ring holds the entries of the queue, which are numbered on from the oldest. -/
structure Refines (r : RingBuf α) (f : Fifo α) : Prop where
  holds : r.Holds (f.entries.map (·.2))
  oldest : r.oldest = f.oldest
  numbered : ∀ i e, f.entries[i]? = some e → e.1 = f.oldest + UInt8.ofNat i
  few : f.entries.length ≤ 255

variable {r : RingBuf α} {f : Fifo α} {q : List α}

theorem Holds.next_iterate (h : r.Holds q) (i : ℕ) :
    r.next^[i] r.rp = (r.rp + min i q.length) % 2 ^ 32 := by
  have hrp := h.wf.rp
  have hlt := h.length_lt
  induction i with
  | zero =>
    rw [Function.iterate_zero_apply]
    omega
  | succ i ih =>
    have hwp := h.wp
    rw [Function.iterate_succ_apply', ih, next]
    split_ifs with hend
    · have hi : i < q.length := by
        by_contra hle
        rw [Nat.min_eq_right (not_lt.1 hle)] at hend
        exact hend hwp.symm
      omega
    · omega

theorem Holds.iterate (h : r.Holds q) (i : ℕ) : r.deref (r.next^[i] r.rp) = q[i]? := by
  rw [h.next_iterate, ← iter, h.deref (Nat.min_le_right _ _)]
  rcases Nat.le_total i q.length with hi | hi
  · rw [Nat.min_eq_left hi]
  · rw [Nat.min_eq_right hi, List.getElem?_eq_none hi, List.getElem?_eq_none le_rfl]

theorem Holds.purgeLoop_oldest (n : ℕ) (h : r.Holds q) (hn : q.length ≤ n) :
    (r.purgeLoop n).oldest = r.oldest + UInt8.ofNat q.length := by
  induction n generalizing r q with
  | zero =>
    obtain rfl : q = [] := List.eq_nil_of_length_eq_zero (by omega)
    exact (UInt8.add_zero _).symm
  | succ n ih =>
    cases q with
    | nil =>
      unfold RingBuf.purgeLoop
      rw [h.pop_nil]
      exact (UInt8.add_zero _).symm
    | cons x q =>
      obtain ⟨r', hp, h', -, ho⟩ := h.pop_cons
      unfold RingBuf.purgeLoop
      rw [hp, ih h' (by simpa using hn), ho, List.length_cons, UInt8.ofNat_add, UInt8.add_assoc,
        UInt8.add_comm 1]
      rfl

theorem Refines.number_eq (h : r.Refines f) {i : ℕ} (_ : i < f.entries.length) {n : SeqNo} :
    f.oldest + UInt8.ofNat i = n ↔ (n - f.oldest).toNat = i := by
  have hfew := h.few
  constructor
  · rintro rfl
    rw [UInt8.add_comm, UInt8.add_sub_cancel, UInt8.toNat_ofNat', Nat.mod_eq_of_lt (by omega)]
  · intro hn
    rw [← hn, UInt8.ofNat_toNat, UInt8.add_comm, UInt8.sub_add_cancel]

/-- The entry that an ACK number names. -/
theorem Refines.findIdx (h : r.Refines f) (n : SeqNo) : f.entries.findIdx? (·.1 = n) =
    if (n - f.oldest).toNat < f.entries.length then some (n - f.oldest).toNat else none := by
  have hnum : ∀ i (_ : i < f.entries.length), f.entries[i].1 = n ↔ (n - f.oldest).toNat = i := by
    intro i hi
    rw [h.numbered i _ (List.getElem?_eq_getElem hi)]
    exact h.number_eq hi
  split_ifs with hlt
  · rw [List.findIdx?_eq_some_iff_getElem]
    refine ⟨hlt, by simpa using (hnum _ hlt).2 rfl, fun j hj ↦ ?_⟩
    have hne := (hnum j (by omega)).not.2 (by omega)
    simpa using hne
  · rw [List.findIdx?_eq_none_iff]
    intro e he
    obtain ⟨i, hi, rfl⟩ := List.getElem_of_mem he
    have hne := (hnum i hi).not.2 (by omega)
    simpa using hne

theorem Refines.drop (h : r.Refines f) {r' : RingBuf α} {i : ℕ}
    (hr : r'.Holds ((f.entries.map (·.2)).drop i)) (ho : r'.oldest = f.oldest + UInt8.ofNat i) :
    r'.Refines { oldest := f.oldest + UInt8.ofNat i, entries := f.entries.drop i } := by
  have hfew := h.few
  refine ⟨by rw [List.map_drop]; exact hr, ho, fun j e he ↦ ?_, by simp; omega⟩
  rw [List.getElem?_drop] at he
  rw [h.numbered _ e he, UInt8.ofNat_add, UInt8.add_assoc]

theorem Refines.ack (h : r.Refines f) (n : SeqNo) : ∃ x f', f.step (.ack n) = (x, f') ∧
    r.step (.ack n) = .ok (x, (r.ack n).2) ∧ (r.ack n).2.Refines f' := by
  have hlen : (f.entries.map (·.2)).length = f.entries.length := List.length_map _
  have hfew := h.few
  obtain ⟨hout, hin⟩ := h.holds.ack n
  rw [hlen] at hout hin
  have hstep : f.step (.ack n) = match f.entries.findIdx? (·.1 = n) with
      | some i => (.count (i + 1), { oldest := n + 1, entries := f.entries.drop (i + 1) })
      | none => (.count (if n + 1 = f.oldest then 0 else -1), f) := rfl
  rw [hstep, h.findIdx]
  have hcum : r.cumAck n = (n - f.oldest + 1).toNat := by rw [cumAck, h.oldest]
  have hsucc : (n - f.oldest + 1).toNat = ((n - f.oldest).toNat + 1) % 256 := UInt8.toNat_add _ _
  have hlt := (n - f.oldest).toNat_lt
  by_cases hmem : (n - f.oldest).toNat < f.entries.length
  · rw [if_pos hmem]
    have hc : r.cumAck n = (n - f.oldest).toNat + 1 := by omega
    obtain ⟨hcount, hholds, -, hold⟩ := hin (by omega)
    refine ⟨_, _, rfl, ?_, ?_⟩
    · change Except.ok _ = _
      rw [hcount, hc]
      rfl
    · have hn : n + 1 = f.oldest + UInt8.ofNat ((n - f.oldest).toNat + 1) := by
        rw [UInt8.ofNat_add, UInt8.ofNat_toNat]
        grind
      rw [hn]
      exact h.drop (hc ▸ hholds) (hold.trans hn)
  · rw [if_neg hmem]
    by_cases hfirst : n + 1 = f.oldest
    · have hzero : n - f.oldest + 1 = 0 := by grind
      have hc : r.cumAck n = 0 := by rw [hcum, hzero]; rfl
      obtain ⟨hcount, hholds, -, hold⟩ := hin (by omega)
      refine ⟨_, _, rfl, ?_, ?_⟩
      · change Except.ok _ = _
        rw [hcount, hc]
        simp [hfirst]
      · rw [hc] at hholds
        exact ⟨hholds, hold.trans hfirst, h.numbered, h.few⟩
    · have hne : (n - f.oldest).toNat ≠ 255 := by
        intro h255
        have hn : n - f.oldest = 255 := UInt8.toNat_inj.1 h255
        exact hfirst (by grind)
      have hack := hout (by omega)
      refine ⟨_, _, rfl, ?_, ?_⟩
      · change Except.ok _ = _
        rw [hack]
        simp [hfirst]
      · rw [hack]
        exact h

theorem Refines.push (h : r.Refines f) (b : α) (hp : r.getSize < min r.capa 255) :
    ∃ r', r.push (some b) = .ok r' ∧ r'.Refines (f.step (.push b)).2 := by
  have hlen : (f.entries.map (·.2)).length = f.entries.length := List.length_map _
  rw [h.holds.getSize_eq, hlen] at hp
  obtain ⟨r', hr, hholds, -, hold⟩ := h.holds.push (by omega) b
  refine ⟨r', hr, by simpa [Fifo.step] using hholds, hold.trans h.oldest, fun i e he ↦ ?_, ?_⟩
  · change (f.entries ++ [_])[i]? = some e at he
    rw [List.getElem?_append] at he
    split_ifs at he with hi
    · exact h.numbered i e he
    · have hz : i - f.entries.length = 0 := by
        by_contra hne
        rw [List.getElem?_eq_none (by rw [List.length_singleton]; omega)] at he
        cases he
      rw [hz] at he
      obtain rfl := Option.some.inj he
      have hi' : i = f.entries.length := by omega
      rw [hi']
      rfl
  · change (f.entries ++ [_]).length ≤ 255
    rw [List.length_append, List.length_singleton]
    omega

theorem Refines.pop (h : r.Refines f) : ∃ x f', f.step .pop = (.entry x, f') ∧ r.pop.1 = x ∧
    r.pop.2.Refines f' := by
  cases hf : f.entries with
  | nil =>
    have hholds := h.holds
    rw [hf, List.map_nil] at hholds
    refine ⟨none, f, by simp [Fifo.step, hf], ?_, ?_⟩
    · rw [hholds.pop_nil]
    · rw [hholds.pop_nil]
      exact h
  | cons e es =>
    have hholds := h.holds
    rw [hf, List.map_cons] at hholds
    obtain ⟨r', hr, hholds', -, hold⟩ := hholds.pop_cons
    have hfirst : e.1 = f.oldest := by
      rw [h.numbered 0 e (by rw [hf]; rfl)]
      exact UInt8.add_zero _
    have hdrop := @Refines.drop _ _ _ h r' 1 (by simpa [hf] using hholds')
      (hold.trans (by rw [h.oldest]; rfl))
    refine ⟨some e.2, { oldest := e.1 + 1, entries := es }, by simp [Fifo.step, hf], ?_, ?_⟩
    · rw [hr]
    · rw [hr, hfirst]
      simpa [hf] using hdrop

theorem Refines.purge (h : r.Refines f) : r.purge.Refines (f.step .purge).2 := by
  refine ⟨h.holds.purge.1, ?_, nofun, Nat.zero_le _⟩
  have hold := h.holds.purgeLoop_oldest _ h.holds.fits
  rw [List.length_map, h.oldest] at hold
  exact hold

theorem Refines.seed (h : r.Refines f) (s : SeqNo) : (r.seed s).Refines (f.step (.seed s)).2 := by
  refine ⟨?_, rfl, fun i e he ↦ ?_, ?_⟩
  · have hmap : (f.step (.seed s)).2.entries.map (·.2) = f.entries.map (·.2) := by
      apply List.ext_getElem
      · simp [Fifo.step]
      · intro i h₁ h₂
        simp [Fifo.step]
    rw [hmap]
    exact h.holds.seed s
  · simp only [Fifo.step, List.getElem?_mapIdx, Option.map_eq_some_iff] at he
    obtain ⟨e', -, rfl⟩ := he
    rfl
  · simpa [Fifo.step] using h.few

/-- Each operation that is permitted succeeds, with the result that it has on the queue. -/
theorem Refines.step (h : r.Refines f) {op : RingOp α} (hp : r.Permits op) :
    ∃ r', r.step op = .ok ((f.step op).1, r') ∧ r'.Refines (f.step op).2 := by
  cases op with
  | push b =>
    obtain ⟨r', hr, hr'⟩ := h.push b hp
    refine ⟨r', ?_, hr'⟩
    change (do pure (RingResult.done, ← r.push (some b)) : Except CPSWError _) = _
    rw [hr]
    rfl
  | pop =>
    obtain ⟨x, f', hf, hx, hr⟩ := h.pop
    rw [hf]
    exact ⟨_, by rw [← hx]; rfl, hr⟩
  | ack n =>
    obtain ⟨x, f', hf, hx, hr⟩ := h.ack n
    rw [hf]
    exact ⟨_, hx, hr⟩
  | resize n =>
    have hfits := h.holds.fits
    obtain ⟨r', hr, hholds, -, hold⟩ := h.holds.resize n hp.2 (hfits.trans hp.1.le)
    refine ⟨r', ?_, hholds, hold.trans h.oldest, h.numbered, h.few⟩
    change (do pure (RingResult.done, ← r.resize n) : Except CPSWError _) = _
    rw [hr]
    rfl
  | purge => exact ⟨_, rfl, h.purge⟩
  | seed s => exact ⟨_, rfl, h.seed s⟩
  | iterate i =>
    refine ⟨r, ?_, h⟩
    change Except.ok _ = _
    rw [h.holds.iterate, List.getElem?_map]
    rfl

theorem Refines.run {ops : List (RingOp α)} (h : r.Refines f) (hp : r.PermitsAll ops) :
    ∃ r', r.run ops = .ok ((f.run ops).1, r') ∧ r'.Refines (f.run ops).2 := by
  induction ops generalizing r f with
  | nil => exact ⟨r, rfl, h⟩
  | cons op ops ih =>
    obtain ⟨r₁, hr₁, h₁⟩ := h.step hp.1
    have hrest := hp.2
    rw [hr₁] at hrest
    obtain ⟨r₂, hr₂, h₂⟩ := ih h₁ hrest
    refine ⟨r₂, ?_, h₂⟩
    rw [RingBuf.run, hr₁]
    change (do
      let (xs, r) ← r₁.run ops
      pure ((f.step op).1 :: xs, r) : Except CPSWError _) = _
    rw [hr₂]
    rfl

/-- From any seed on, a ring does what the queue does. -/
theorem run_refines_fifo {ld : ℕ} (hld : ld ≤ 8) (junk s : SeqNo) {ops : List (RingOp α)}
    (hp : ((new ld junk : RingBuf α).seed s).PermitsAll ops) :
    ∃ r', ((new ld junk : RingBuf α).seed s).run ops =
        .ok ((({ oldest := s, entries := [] } : Fifo α).run ops).1, r') ∧
      r'.Refines (({ oldest := s, entries := [] } : Fifo α).run ops).2 := by
  have h : ((new ld junk : RingBuf α).seed s).Refines { oldest := s, entries := [] } :=
    ⟨(holds_new ld hld junk).seed s, rfl, nofun, Nat.zero_le _⟩
  exact h.run hp

/-- Numbers that wrap, an ACK in the middle, and a ring that grows with entries in it. -/
theorem run_refines_fifo_wrapping :
    let ops : List (RingOp ℕ) := [.push 10, .push 11, .ack 254, .push 12, .resize 4, .push 13, .ack 0,
      .ack 7, .iterate 0, .pop, .pop]
    ∃ r', ((new 1 0 : RingBuf ℕ).seed 254).run ops =
      .ok ((({ oldest := 254, entries := [] } : Fifo ℕ).run ops).1, r') ∧ r'.oldest = 2 := by
  intro ops
  have hp : ((new 1 0 : RingBuf ℕ).seed 254).PermitsAll ops := by decide +kernel
  obtain ⟨r', hr, href⟩ := run_refines_fifo (by decide) 0 254 hp
  exact ⟨r', hr, href.oldest⟩

end RingBuf

end Cpsw.Rssi
