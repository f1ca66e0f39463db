import Cpsw.Lib.Circular
import Cpsw.Lib.Run

namespace Cpsw.Rssi

open Cpsw.Lib.Circular Cpsw.Lib.Run

abbrev SeqNo := UInt8

/-- The exceptions the code below can throw, one for each `throw`. -/
inductive CPSWError
  | spuriousWakeup
  | segmentTooLarge
  | ringBufOverflow
  | sendBufferOverflow
  | timeUnits
  | outputQueueFull
  | payloadOutOfRange
  | noTimerActive
  | rxUnexpected
  | usrInputUnexpected
  | usrOutputUnexpected
  | rexUnexpected
  | ackUnexpected
  | nulUnexpected
  deriving DecidableEq, Repr

def CPSWError.text : CPSWError → String
  | .spuriousWakeup => "Spurious wakeup ??"
  | .segmentTooLarge => "RSSI segment size too large for peer"
  | .ringBufOverflow => "RingBuf Overflow"
  | .sendBufferOverflow => "Send buffer overflow"
  | .timeUnits => "Cannot handle time units less than 1us"
  | .outputQueueFull => "RSSI output queue should not be full!"
  | .payloadOutOfRange => "requested payload pointer out of range"
  | .noTimerActive => "RSSI: no timer active!"
  | .rxUnexpected => "RxEvent unexpected in this state"
  | .usrInputUnexpected => "UsrInputEvent unexpected in this state"
  | .usrOutputUnexpected => "UsrOutputEvent unexpected in this state"
  | .rexUnexpected => "RETRANSMISSIONTimeout unexpected in this state"
  | .ackUnexpected => "ACKTimeout unexpected in this state"
  | .nulUnexpected => "NULTimeout unexpected in this state"

structure BufBase (α : Type) where
  capa : ℕ
  buf : List (Option α)
  rp : ℕ
  msk : ℕ
  oldest : SeqNo

namespace BufBase

variable {α : Type}

/-- `oldest_` is left uninitialised by the constructor. -/
def new (ldsz : ℕ) (oldest : SeqNo) : BufBase α where
  capa := 2 ^ ldsz
  buf := List.replicate (2 ^ ldsz) none
  rp := 0
  msk := 2 ^ ldsz - 1
  oldest := oldest

def peek (b : BufBase α) : Option α := cell b.buf (b.rp &&& b.msk)

def pop (b : BufBase α) : Option α × BufBase α :=
  match b.peek with
  | none => (none, b)
  | some x =>
    (some x, { b with
      buf := b.buf.set (b.rp &&& b.msk) none
      rp := (b.rp + 1) % 2 ^ 32
      oldest := b.oldest + 1 })

def seed (b : BufBase α) (synSeqNo : SeqNo) : BufBase α := { b with oldest := synSeqNo }

/-- Sizes, masks and read positions as the constructors leave them. -/
structure WF (b : BufBase α) : Prop where
  capa : ∃ k ≤ 8, b.capa = 2 ^ k
  length : b.buf.length = b.capa
  msk : b.msk = b.capa - 1
  rp : b.rp < 2 ^ 32

/-- The slot `off` places after the oldest one. -/
def slot (b : BufBase α) (off : ℕ) : Option α := view b.buf b.rp off

theorem WF.capa_pos {b : BufBase α} (h : b.WF) : 0 < b.capa := by
  obtain ⟨k, -, hk⟩ := h.capa
  rw [hk]
  exact Nat.two_pow_pos k

theorem WF.length_dvd {b : BufBase α} (h : b.WF) : b.buf.length ∣ 2 ^ 32 := by
  obtain ⟨k, hk, hc⟩ := h.capa
  rw [h.length, hc]
  exact Nat.pow_dvd_pow 2 (by omega)

theorem WF.index {b : BufBase α} (h : b.WF) (n : ℕ) : n &&& b.msk = n % b.buf.length := by
  obtain ⟨k, -, hk⟩ := h.capa
  rw [h.msk, h.length, hk, land_mask]

theorem WF.peek_eq {b : BufBase α} (h : b.WF) : b.peek = b.slot 0 := by
  unfold peek slot view
  rw [h.index, Nat.add_zero]

theorem wf_new (ldsz : ℕ) (h : ldsz ≤ 8) (o : SeqNo) : (new ldsz o : BufBase α).WF where
  capa := ⟨ldsz, h, rfl⟩
  length := List.length_replicate
  msk := rfl
  rp := Nat.two_pow_pos 32

theorem slot_new (ldsz : ℕ) (o : SeqNo) (off : ℕ) : (new ldsz o : BufBase α).slot off = none :=
  view_replicate _ _ _

theorem WF.pop_none {b : BufBase α} (h : b.WF) (hs : b.slot 0 = none) : b.pop = (none, b) := by
  unfold pop
  rw [h.peek_eq, hs]

/-- Taking the oldest entry frees its slot and moves the others one place down. -/
theorem WF.pop_some {b : BufBase α} (h : b.WF) {x : α} (hs : b.slot 0 = some x) :
    ∃ b', b.pop = (some x, b') ∧ b'.WF ∧ b'.capa = b.capa ∧ b'.oldest = b.oldest + 1 ∧
      b'.rp = (b.rp + 1) % 2 ^ 32 ∧
      ∀ off < b.capa, b'.slot off = if off + 1 = b.capa then none else b.slot (off + 1) := by
  refine ⟨{ b with buf := b.buf.set (b.rp &&& b.msk) none, rp := (b.rp + 1) % 2 ^ 32,
                   oldest := b.oldest + 1 }, ?_, ?_, rfl, rfl, rfl, ?_⟩
  · unfold pop
    rw [h.peek_eq, hs]
  · exact ⟨h.capa, by rw [List.length_set, h.length], h.msk, Nat.mod_lt _ (by decide)⟩
  · intro off ho
    have hpos := h.capa_pos
    have hset : b.buf.set (b.rp &&& b.msk) none = b.buf.set ((b.rp + 0) % b.buf.length) none := by
      rw [h.index, Nat.add_zero]
    unfold slot
    dsimp only
    rw [view_mod _ (by rw [List.length_set]; exact h.length_dvd), view_succ, hset]
    by_cases hl : off + 1 = b.capa
    · have hp := view_period (b.buf.set ((b.rp + 0) % b.buf.length) none) b.rp 0
      rw [List.length_set, h.length, Nat.zero_add] at hp
      rw [if_pos hl, hl, h.length, hp, ← h.length,
        view_set _ _ (by rw [h.length]; exact hpos) (by rw [h.length]; exact hpos), if_pos rfl]
    · rw [if_neg hl, view_set _ _ (by rw [h.length]; exact hpos) (by rw [h.length]; omega),
        if_neg (by omega)]

end BufBase

structure RingBuf (α : Type) extends BufBase α where
  wp : ℕ

namespace RingBuf

variable {α : Type}

def new (ldsz : ℕ) (oldest : SeqNo) : RingBuf α := { BufBase.new ldsz oldest with wp := 0 }

def getSize (r : RingBuf α) : ℕ := (r.wp + (2 ^ 32 - r.rp)) % 2 ^ 32

def seed (r : RingBuf α) (synSeqNo : SeqNo) : RingBuf α :=
  { r with toBufBase := r.toBufBase.seed synSeqNo }

def pop (r : RingBuf α) : Option α × RingBuf α :=
  let (x, b) := r.toBufBase.pop
  (x, { r with toBufBase := b })

def popN : ℕ → RingBuf α → RingBuf α
  | 0, r => r
  | n + 1, r => popN n r.pop.2

/-- `while ( pop() );` takes at most one entry from each slot. -/
def purgeLoop : ℕ → RingBuf α → RingBuf α
  | 0, r => r
  | n + 1, r =>
    match r.pop with
    | (none, r) => r
    | (some _, r) => purgeLoop n r

def purge (r : RingBuf α) : RingBuf α := purgeLoop r.capa r

/-- The number of entries that `ackNo` covers, in 8-bit arithmetic. -/
def cumAck (r : RingBuf α) (ackNo : SeqNo) : ℕ := (ackNo - r.oldest + 1).toNat

def ack (ackNo : SeqNo) (r : RingBuf α) : ℤ × RingBuf α :=
  if r.getSize < r.cumAck ackNo then (-1, r) else (r.cumAck ackNo, popN (r.cumAck ackNo) r)

def push (b : Option α) (r : RingBuf α) : Except CPSWError (RingBuf α) :=
  if r.capa < r.getSize then .error .ringBufOverflow
  else .ok { r with buf := r.buf.set (r.wp &&& r.msk) b, wp := (r.wp + 1) % 2 ^ 32 }

def growLoop (newCapa : ℕ) : ℕ → ℕ → ℕ
  | 0, c => c
  | n + 1, c => if c < newCapa then growLoop newCapa n (c * 2) else c

/-- `for ( capa_=1; capa_ < new_capa; capa_<<=1 );` -/
def growCapa (newCapa : ℕ) : ℕ := growLoop newCapa 32 1

def popList : ℕ → RingBuf α → List (Option α) × RingBuf α
  | 0, r => ([], r)
  | n + 1, r =>
    let (x, r) := r.pop
    let (xs, r) := popList n r
    (x :: xs, r)

def pushList : List (Option α) → RingBuf α → Except CPSWError (RingBuf α)
  | [], r => .ok r
  | x :: xs, r => do pushList xs (← r.push x)

def resize (newCapa : ℕ) (r : RingBuf α) : Except CPSWError (RingBuf α) :=
  let tmpo := r.oldest
  let (tmp, r) := popList r.getSize r
  let capa := growCapa newCapa
  pushList tmp
    { capa := capa
      buf := r.buf.take capa ++ List.replicate (capa - r.buf.length) none
      rp := 0
      msk := capa - 1
      oldest := tmpo
      wp := 0 }

/-- `if ( n > getCapa() ) resize( n );` -/
def fit (n : ℕ) (r : RingBuf α) : Except CPSWError (RingBuf α) :=
  if n > r.capa then r.resize n else .ok r

/-- The position of an iterator that was advanced `i` times. -/
def iter (r : RingBuf α) (i : ℕ) : ℕ := (r.rp + i) % 2 ^ 32

/-- `*it`, where `it` stands at position `idx`. -/
def deref (r : RingBuf α) (idx : ℕ) : Option α :=
  if idx = r.wp then none else cell r.buf (idx &&& r.msk)

/-- An entry is a shared buffer: what is written through the iterator stays in the ring. -/
def update (r : RingBuf α) (idx : ℕ) (b : α) : RingBuf α :=
  { r with buf := r.buf.set (idx &&& r.msk) (some b) }

/-- The ring represents the queue `q`, oldest entry first. -/
structure Holds (r : RingBuf α) (q : List α) : Prop where
  wf : r.WF
  wp : r.wp = (r.rp + q.length) % 2 ^ 32
  fits : q.length ≤ r.capa
  slots : ∀ i < r.capa, r.slot i = q[i]?

variable {r : RingBuf α} {q : List α}

theorem Holds.length_lt (h : r.Holds q) : q.length < 2 ^ 32 := by
  obtain ⟨k, hk, hc⟩ := h.wf.capa
  have hp : 2 ^ k ≤ 2 ^ 8 := Nat.pow_le_pow_right (by decide) hk
  have := h.fits
  omega

theorem holds_new (ldsz : ℕ) (h : ldsz ≤ 8) (o : SeqNo) : (new ldsz o : RingBuf α).Holds [] where
  wf := BufBase.wf_new ldsz h o
  wp := rfl
  fits := Nat.zero_le _
  slots i _ := BufBase.slot_new ldsz o i

theorem Holds.getSize_eq (h : r.Holds q) : r.getSize = q.length := by
  have hr := h.wf.rp
  have hl := h.length_lt
  unfold getSize
  rw [h.wp]
  omega

theorem Holds.seed (h : r.Holds q) (s : SeqNo) : (r.seed s).Holds q :=
  ⟨⟨h.wf.capa, h.wf.length, h.wf.msk, h.wf.rp⟩, h.wp, h.fits, h.slots⟩

theorem Holds.pop_nil (h : r.Holds []) : r.pop = (none, r) := by
  have hs := h.slots 0 h.wf.capa_pos
  unfold pop
  rw [h.wf.pop_none (by simpa using hs)]

theorem Holds.pop_cons {x : α} (h : r.Holds (x :: q)) :
    ∃ r', r.pop = (some x, r') ∧ r'.Holds q ∧ r'.capa = r.capa ∧ r'.oldest = r.oldest + 1 := by
  have hs : r.slot 0 = some x := by simpa using h.slots 0 h.wf.capa_pos
  obtain ⟨b, hb, hwf, hc, ho, hrp, hsl⟩ := h.wf.pop_some hs
  have hf := h.fits
  have hw := h.wp
  simp only [List.length_cons] at hf hw
  refine ⟨{ r with toBufBase := b }, ?_, ⟨hwf, ?_, ?_, ?_⟩, hc, ho⟩
  · unfold pop
    rw [hb]
  · change r.wp = (b.rp + q.length) % 2 ^ 32
    rw [hrp, hw]
    omega
  · change q.length ≤ b.capa
    omega
  · intro i hi
    change i < b.capa at hi
    change b.slot i = q[i]?
    rw [hc] at hi
    rw [hsl i hi]
    split_ifs with hl
    · rw [List.getElem?_eq_none (by omega)]
    · rw [h.slots (i + 1) (by omega), List.getElem?_cons_succ]

theorem Holds.popN (n : ℕ) (h : r.Holds q) (hn : n ≤ q.length) :
    (r.popN n).Holds (q.drop n) ∧ (r.popN n).capa = r.capa ∧
      (r.popN n).oldest = r.oldest + UInt8.ofNat n := by
  induction n generalizing r q with
  | zero => exact ⟨h, rfl, by simp [RingBuf.popN]⟩
  | succ n ih =>
    cases q with
    | nil => simp at hn
    | cons x q =>
      obtain ⟨r', hp, h', hc, ho⟩ := h.pop_cons
      obtain ⟨h1, h2, h3⟩ := ih h' (by simpa using hn)
      simp only [RingBuf.popN, hp, List.drop_succ_cons]
      refine ⟨h1, h2.trans hc, ?_⟩
      rw [h3, ho, UInt8.ofNat_add, UInt8.add_assoc, UInt8.add_comm 1]
      rfl

theorem Holds.purgeLoop (n : ℕ) (h : r.Holds q) (hn : q.length ≤ n) :
    (r.purgeLoop n).Holds [] ∧ (r.purgeLoop n).capa = r.capa := by
  induction n generalizing r q with
  | zero =>
    have hq : q = [] := List.eq_nil_of_length_eq_zero (by omega)
    exact ⟨hq ▸ h, rfl⟩
  | succ n ih =>
    cases q with
    | nil =>
      unfold RingBuf.purgeLoop
      rw [h.pop_nil]
      exact ⟨h, rfl⟩
    | cons x q =>
      obtain ⟨r', hp, h', hc, -⟩ := h.pop_cons
      obtain ⟨h1, h2⟩ := ih h' (by simpa using hn)
      unfold RingBuf.purgeLoop
      rw [hp]
      exact ⟨h1, h2.trans hc⟩

theorem Holds.purge (h : r.Holds q) : r.purge.Holds [] ∧ r.purge.capa = r.capa :=
  h.purgeLoop _ h.fits

/-- A number outside `oldest - 1 .. newest` leaves the ring alone; any other
one takes the entries up to and including its own. -/
theorem Holds.ack (h : r.Holds q) (a : SeqNo) :
    (q.length < r.cumAck a → r.ack a = (-1, r)) ∧
    (r.cumAck a ≤ q.length → (r.ack a).1 = r.cumAck a ∧
      (r.ack a).2.Holds (q.drop (r.cumAck a)) ∧ (r.ack a).2.capa = r.capa ∧
      (r.ack a).2.oldest = a + 1) := by
  constructor
  · intro hlt
    rw [RingBuf.ack, h.getSize_eq, if_pos hlt]
  · intro hle
    obtain ⟨h1, h2, h3⟩ := h.popN _ hle
    rw [RingBuf.ack, h.getSize_eq, if_neg (by omega)]
    refine ⟨rfl, h1, h2, ?_⟩
    rw [h3, RingBuf.cumAck, UInt8.ofNat_toNat]
    grind

theorem Holds.push (h : r.Holds q) (hq : q.length < r.capa) (x : α) :
    ∃ r', r.push (some x) = .ok r' ∧ r'.Holds (q ++ [x]) ∧ r'.capa = r.capa ∧
      r'.oldest = r.oldest := by
  have hl := h.wf.length
  have hidx : r.wp &&& r.msk = (r.rp + q.length) % r.buf.length := by
    rw [h.wf.index, h.wp, Nat.mod_mod_of_dvd _ h.wf.length_dvd]
  refine ⟨{ r with buf := r.buf.set (r.wp &&& r.msk) (some x), wp := (r.wp + 1) % 2 ^ 32 },
    ?_, ⟨⟨h.wf.capa, by rw [List.length_set, hl], h.wf.msk, h.wf.rp⟩, ?_, ?_, ?_⟩, rfl, rfl⟩
  · rw [RingBuf.push, h.getSize_eq, if_neg (by omega)]
  · have hw := h.wp
    simp only [List.length_append, List.length_singleton]
    omega
  · rw [List.length_append, List.length_singleton]
    exact hq
  · intro i hi
    change i < r.capa at hi
    change view (r.buf.set (r.wp &&& r.msk) (some x)) r.rp i = _
    rw [hidx, view_set _ _ (by omega) (by omega)]
    have hs : view r.buf r.rp i = q[i]? := h.slots i hi
    split_ifs with he
    · subst he; simp
    · rw [hs, List.getElem?_append]
      split_ifs with hlt
      · rfl
      · rw [List.getElem?_eq_none (by omega), List.getElem?_eq_none (by simp; omega)]

theorem Holds.popList (n : ℕ) (h : r.Holds q) (hn : n = q.length) :
    ∃ r', r.popList n = (q.map some, r') ∧ r'.Holds [] ∧ r'.capa = r.capa := by
  subst hn
  induction q generalizing r with
  | nil => exact ⟨r, rfl, h, rfl⟩
  | cons x q ih =>
    obtain ⟨r₁, hp, h₁, hc₁, -⟩ := h.pop_cons
    obtain ⟨r₂, hl, h₂, hc₂⟩ := ih h₁
    refine ⟨r₂, ?_, h₂, hc₂.trans hc₁⟩
    simp only [List.length_cons, RingBuf.popList, hp, hl, List.map_cons]

theorem Holds.pushList (p : List α) (h : r.Holds q) (hq : q.length + p.length ≤ r.capa) :
    ∃ r', r.pushList (p.map some) = .ok r' ∧ r'.Holds (q ++ p) ∧ r'.capa = r.capa ∧
      r'.oldest = r.oldest := by
  induction p generalizing r q with
  | nil => exact ⟨r, rfl, by simpa using h, rfl, rfl⟩
  | cons x p ih =>
    simp only [List.length_cons] at hq
    obtain ⟨r₁, hp, h₁, hc₁, ho₁⟩ := h.push (by omega) x
    obtain ⟨r₂, hl, h₂, hc₂, ho₂⟩ := ih h₁ (by rw [hc₁]; simp; omega)
    refine ⟨r₂, ?_, by simpa using h₂, hc₂.trans hc₁, ho₂.trans ho₁⟩
    simp only [List.map_cons, RingBuf.pushList, hp]
    exact hl

theorem growLoop_spec (n fuel j : ℕ) (hj : j ≤ 8) (hn : n ≤ 2 ^ 8) (hf : 8 ≤ j + fuel) :
    ∃ k ≤ 8, growLoop n fuel (2 ^ j) = 2 ^ k ∧ n ≤ 2 ^ k := by
  induction fuel generalizing j with
  | zero =>
    obtain rfl : j = 8 := by omega
    exact ⟨8, hj, rfl, hn⟩
  | succ fuel ih =>
    unfold growLoop
    split_ifs with hlt
    · have hj' : j ≠ 8 := by
        rintro rfl
        omega
      rw [← Nat.pow_succ]
      exact ih (j + 1) (by omega) (by omega)
    · exact ⟨j, hj, rfl, by omega⟩

/-- The capacity `resize` settles on. -/
theorem growCapa_spec {n : ℕ} (hn : n ≤ 2 ^ 8) : ∃ k ≤ 8, growCapa n = 2 ^ k ∧ n ≤ 2 ^ k := by
  have h := growLoop_spec n 32 0 (by omega) hn (by omega)
  rwa [Nat.pow_zero] at h

/-- Growing keeps the entries, their order and the oldest number. -/
theorem Holds.resize (h : r.Holds q) (n : ℕ) (hn : n ≤ 2 ^ 8) (hq : q.length ≤ n) :
    ∃ r', r.resize n = .ok r' ∧ r'.Holds q ∧ n ≤ r'.capa ∧ r'.oldest = r.oldest := by
  obtain ⟨k, hk, hg, hnk⟩ := growCapa_spec hn
  obtain ⟨r₁, hl, h₁, hc₁⟩ := h.popList r.getSize h.getSize_eq
  unfold RingBuf.resize
  simp only [hl, hg]
  have hcell : ∀ i, cell r₁.buf i = none := by
    refine @cell_none_of_view _ _ r₁.rp fun off ho ↦ ?_
    rw [h₁.wf.length] at ho
    exact (h₁.slots off ho).trans (List.getElem?_nil)
  have hlen : (r₁.buf.take (2 ^ k) ++
      List.replicate (2 ^ k - r₁.buf.length) (none : Option α)).length = 2 ^ k := by
    rw [List.length_append, List.length_take, List.length_replicate]
    omega
  generalize hb : r₁.buf.take (2 ^ k) ++ List.replicate (2 ^ k - r₁.buf.length) none = buf at hlen ⊢
  have he : ({ capa := 2 ^ k, buf := buf, rp := 0, msk := 2 ^ k - 1,
               oldest := r.oldest, wp := 0 } : RingBuf α).Holds [] :=
    { wf := ⟨⟨k, hk, rfl⟩, hlen, rfl, Nat.two_pow_pos 32⟩
      wp := rfl
      fits := Nat.zero_le _
      slots := fun i _ ↦ by
        change cell buf _ = none
        rw [← hb]
        exact cell_take_fill hcell _ _ _ }
  obtain ⟨r₂, hp, h₂, hc₂, ho₂⟩ := he.pushList q (by simpa using hq.trans hnk)
  exact ⟨r₂, hp, by simpa using h₂, hc₂.symm ▸ hnk, ho₂⟩

theorem Holds.fit (h : r.Holds q) (n : ℕ) (hn : n ≤ 2 ^ 8) :
    ∃ r', r.fit n = .ok r' ∧ r'.Holds q ∧ n ≤ r'.capa ∧ r.capa ≤ r'.capa ∧
      r'.oldest = r.oldest := by
  unfold RingBuf.fit
  split_ifs with hlt
  · obtain ⟨r', hr, h', hc, ho⟩ := h.resize n hn (h.fits.trans hlt.le)
    exact ⟨r', hr, h', hc, hlt.le.trans hc, ho⟩
  · exact ⟨r, rfl, h, Nat.le_of_not_lt hlt, le_rfl, rfl⟩

theorem Holds.deref (h : r.Holds q) {i : ℕ} (hi : i ≤ q.length) :
    r.deref (r.iter i) = q[i]? := by
  have hl := h.length_lt
  have hw := h.wp
  have hf := h.fits
  have hlen := h.wf.length
  unfold RingBuf.deref iter
  by_cases he : i = q.length
  · rw [if_pos (by rw [hw, he]), he, List.getElem?_eq_none le_rfl]
  · rw [if_neg (by omega), h.wf.index, Nat.mod_mod_of_dvd _ h.wf.length_dvd]
    exact h.slots i (by omega)

theorem Holds.update (h : r.Holds q) {i : ℕ} (hi : i < q.length) (b : α) :
    (r.update (r.iter i) b).Holds (q.set i b) := by
  have hlen := h.wf.length
  have hf := h.fits
  have hidx : r.iter i &&& r.msk = (r.rp + i) % r.buf.length := by
    rw [iter, h.wf.index, Nat.mod_mod_of_dvd _ h.wf.length_dvd]
  refine ⟨⟨h.wf.capa, by simp only [RingBuf.update, List.length_set, hlen], h.wf.msk, h.wf.rp⟩,
    ?_, ?_, ?_⟩
  · change r.wp = (r.rp + (q.set i b).length) % 2 ^ 32
    rw [List.length_set]
    exact h.wp
  · change (q.set i b).length ≤ r.capa
    rw [List.length_set]
    exact hf
  · intro j hj
    change j < r.capa at hj
    change view (r.buf.set (r.iter i &&& r.msk) (some b)) r.rp j = _
    rw [hidx, view_set _ _ (by omega) (by omega), List.getElem?_set]
    have hs : view r.buf r.rp j = q[j]? := h.slots j hj
    split_ifs <;> simp_all

end RingBuf

structure ReassembleBuf (α : Type) extends BufBase α where
  lim : SeqNo

namespace ReassembleBuf

variable {α : Type}

def new (ldCapa : ℕ) (oldest : SeqNo) : ReassembleBuf α :=
  { BufBase.new ldCapa oldest with lim := UInt8.ofNat (2 ^ ldCapa) }

def off (r : ReassembleBuf α) (seqNo : SeqNo) : ℕ := (seqNo - r.oldest).toNat

def canAccept (r : ReassembleBuf α) (seqNo : SeqNo) : Bool := r.off seqNo < r.lim.toNat

def store (seqNo : SeqNo) (b : α) (r : ReassembleBuf α) :
    Except CPSWError (ReassembleBuf α) :=
  if r.off seqNo < r.lim.toNat then
    .ok { r with buf := r.buf.set ((r.off seqNo + r.rp) % 2 ^ 32 &&& r.msk) (some b) }
  else .error .sendBufferOverflow

def getLastInOrder (r : ReassembleBuf α) : SeqNo := r.oldest - 1

def seed (r : ReassembleBuf α) (synSeqNo : SeqNo) : ReassembleBuf α :=
  { r with toBufBase := r.toBufBase.seed synSeqNo }

def pop (r : ReassembleBuf α) : Option α × ReassembleBuf α :=
  let (x, b) := r.toBufBase.pop
  (x, { r with toBufBase := b })

/-- All slots are reset; neither the read position nor `oldest_` moves. -/
def purge (r : ReassembleBuf α) : ReassembleBuf α :=
  { r with buf := r.buf.map fun _ ↦ none }

structure Ok (r : ReassembleBuf α) : Prop where
  wf : r.WF
  lim : r.lim.toNat = r.capa

variable {r : ReassembleBuf α}

theorem ok_new (ld : ℕ) (h : ld < 8) (o : SeqNo) : (new ld o : ReassembleBuf α).Ok where
  wf := BufBase.wf_new ld (by omega) o
  lim := by
    change (UInt8.ofNat (2 ^ ld)).toNat = 2 ^ ld
    have hp : 2 ^ ld ≤ 2 ^ 7 := Nat.pow_le_pow_right (by decide) (by omega)
    rw [UInt8.toNat_ofNat', Nat.mod_eq_of_lt (by omega)]

theorem slot_new (ld : ℕ) (o : SeqNo) (i : ℕ) : (new ld o : ReassembleBuf α).slot i = none :=
  BufBase.slot_new ld o i

theorem Ok.seed (h : r.Ok) (s : SeqNo) : (r.seed s).Ok :=
  ⟨⟨h.wf.capa, h.wf.length, h.wf.msk, h.wf.rp⟩, h.lim⟩

theorem Ok.purge (h : r.Ok) : r.purge.Ok :=
  ⟨⟨h.wf.capa, by rw [ReassembleBuf.purge, List.length_map]; exact h.wf.length, h.wf.msk,
    h.wf.rp⟩, h.lim⟩

theorem slot_purge (i : ℕ) : r.purge.slot i = none := by
  change cell (r.buf.map fun _ ↦ none) _ = none
  unfold cell
  rw [List.getElem?_map]
  cases r.buf[(r.purge.rp + i) % r.purge.buf.length]? with
  | none => rfl
  | some _ => rfl

/-- What is stored lies in its own slot; every other slot keeps its content. -/
theorem Ok.store (h : r.Ok) {s : SeqNo} (hs : r.canAccept s = true) (b : α) :
    ∃ r', r.store s b = .ok r' ∧ r'.Ok ∧ r'.oldest = r.oldest ∧ r'.capa = r.capa ∧
      r.off s < r.capa ∧
      ∀ i < r.capa, r'.slot i = if i = r.off s then some b else r.slot i := by
  have hlt : r.off s < r.lim.toNat := by simpa [canAccept] using hs
  have hcap : r.off s < r.capa := h.lim ▸ hlt
  have hidx : (r.off s + r.rp) % 2 ^ 32 &&& r.msk = (r.rp + r.off s) % r.buf.length := by
    rw [h.wf.index, Nat.mod_mod_of_dvd _ h.wf.length_dvd, Nat.add_comm]
  refine ⟨_, if_pos hlt, ⟨⟨h.wf.capa, ?_, h.wf.msk, h.wf.rp⟩, h.lim⟩, rfl, rfl, hcap, ?_⟩
  · rw [List.length_set]
    exact h.wf.length
  · intro i hi
    change view (r.buf.set _ (some b)) r.rp i = _
    rw [hidx, view_set _ _ (by rw [h.wf.length]; exact hcap) (by rw [h.wf.length]; exact hi)]
    by_cases he : i = r.off s
    · rw [if_pos he.symm, if_pos he]
    · rw [if_neg (fun h ↦ he h.symm), if_neg he]
      rfl

theorem Ok.pop_some (h : r.Ok) {x : α} (hs : r.slot 0 = some x) :
    ∃ r', r.pop = (some x, r') ∧ r'.Ok ∧ r'.capa = r.capa ∧ r'.oldest = r.oldest + 1 ∧
      ∀ i < r.capa, r'.slot i = if i + 1 = r.capa then none else r.slot (i + 1) := by
  obtain ⟨b, hb, hwf, hc, ho, -, hsl⟩ := h.wf.pop_some hs
  refine ⟨{ r with toBufBase := b }, ?_, ⟨hwf, h.lim.trans hc.symm⟩, hc, ho, hsl⟩
  unfold pop
  rw [hb]

end ReassembleBuf

end Cpsw.Rssi
