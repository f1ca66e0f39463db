import Cpsw.Depack.InSequence
import Cpsw.Depack.Packet
import Cpsw.Depack.Send

namespace Cpsw.Depack

open Cpsw.Lib.Run

/-- The buffers that go to a fragment of which `sz` bytes are taken, and the rest. -/
def cut (mtu : ℕ) : ℕ → BufChain → BufChain × BufChain
  | _, [] => ([], [])
  | sz, b :: bs =>
    if fitsInMTU mtu (sz + b.getSize) then
      let r := cut mtu (sz + b.getSize) bs
      (b :: r.1, r.2)
    else ([], b :: bs)

/-- The buffers of each of the fragments; the first buffer of a fragment gets `extra` bytes more. -/
def pieces (mtu : ℕ) : ℕ → ℕ → BufChain → List BufChain
  | 0, _, _ => []
  | n + 1, extra, bc =>
    if fitsInMTU mtu (extra + total bc) then [bc]
    else (cut mtu extra bc).1 :: pieces mtu n HEADER_SIZE (cut mtu extra bc).2

/-- The last buffer has room for the tail, unless the tail gets a buffer of its own. -/
def TailRoom (mtu extra : ℕ) (g : BufChain) : Prop :=
  ∀ b ∈ g.getLast?, fitsInMTU mtu ((if g.length = 1 then extra else 0) + b.getSize + axis.TAIL_SIZE) →
    0 < b.getAvail

/-- The first buffer has room for a header before it. -/
def HeadRoom (g : BufChain) : Prop := ∀ b ∈ g.head?, HEADER_SIZE ≤ b.getHeadroom

/-- The first fragment has its header already. -/
def RoomFor (mtu extra : ℕ) : List BufChain → Prop
  | [] => True
  | g :: gs => TailRoom mtu extra g ∧ ∀ g' ∈ gs, HeadRoom g' ∧ TailRoom mtu HEADER_SIZE g'

variable {mtu sz extra : ℕ} {bc : BufChain} {b : Buf}

theorem cut_append (mtu sz : ℕ) (bc : BufChain) : (cut mtu sz bc).1 ++ (cut mtu sz bc).2 = bc := by
  induction bc generalizing sz with
  | nil => rfl
  | cons b bs ih =>
    unfold cut
    split_ifs
    · simp [ih]
    · rfl

theorem cut_nil (hne : bc ≠ []) (h : (cut mtu sz bc).2 = []) :
    fitsInMTU mtu (sz + total bc) = true := by
  induction bc generalizing sz with
  | nil => contradiction
  | cons b bs ih =>
    unfold cut at h
    split_ifs at h with hf
    cases hbs : bs with
    | nil => simpa using hf
    | cons b' bs' =>
      rw [← hbs, total_cons, ← Nat.add_assoc]
      apply ih _ h
      simp [hbs]

theorem cut_taken (hfit : fitsInMTU mtu sz = true) :
    fitsInMTU mtu (sz + total (cut mtu sz bc).1) = true := by
  induction bc generalizing sz with
  | nil => simpa [cut] using hfit
  | cons b bs ih =>
    unfold cut
    split_ifs with hf
    · simpa [Nat.add_assoc] using ih hf
    · simpa using hfit

theorem cut_left {bs : BufChain} (h : (cut mtu sz bc).2 = b :: bs) :
    fitsInMTU mtu (sz + total (cut mtu sz bc).1 + b.getSize) = false := by
  induction bc generalizing sz with
  | nil =>
    unfold cut at h
    contradiction
  | cons b' bs' ih =>
    unfold cut at h ⊢
    split_ifs at h ⊢ with hf
    · simpa [Nat.add_assoc] using ih h
    · obtain ⟨rfl, rfl⟩ := List.cons.inj h
      simpa using hf

namespace CProtoModDepack

theorem moveLoop_spec (mtu n sz : ℕ) (c res : Chain) (hn : c.bufs.length ≤ n) (hc : c.Sized)
    (hr : res.Sized) : ∃ c' res', moveLoop mtu n sz c res =
        (sz + total (cut mtu sz c.bufs).1, c', res') ∧
      c'.bufs = (cut mtu sz c.bufs).2 ∧ c'.Sized ∧
      res'.bufs = res.bufs ++ (cut mtu sz c.bufs).1 ∧ res'.Sized := by
  induction n generalizing sz c res with
  | zero =>
    have h0 : c.bufs = [] := List.eq_nil_of_length_eq_zero (by omega)
    refine ⟨c, res, ?_, ?_, hc, ?_, hr⟩ <;> simp [moveLoop, h0, cut]
  | succ n ih =>
    unfold moveLoop
    cases hb : c.bufs with
    | nil =>
      refine ⟨c, res, ?_, ?_, hc, ?_, hr⟩ <;> simp [hb, cut]
    | cons b bs =>
      dsimp only
      have hu : c.unlinkHead.bufs = bs := by
        unfold Chain.unlinkHead
        rw [hb]
      have hlen : bs.length ≤ n := by
        rw [hb] at hn
        simpa using hn
      unfold cut
      split_ifs with hf
      · obtain ⟨c', res', h₁, h₂, h₃, h₄, h₅⟩ := ih (sz + b.getSize) c.unlinkHead (res.addAtTail b)
          (by rw [hu]; exact hlen) hc.unlinkHead (hr.addAtTail b)
        rw [hu] at h₁ h₂ h₄
        refine ⟨c', res', ?_, h₂, h₃, ?_, h₅⟩
        · rw [h₁, total_cons, Nat.add_assoc]
        · rw [h₄, Chain.addAtTail_bufs, List.append_assoc]
          rfl
      · refine ⟨c, res, ?_, hb, hc, ?_, hr⟩ <;> simp

variable {storage : Bytes} {c : Chain} {t : Buf} {eof : Bool}

/-- The byte of a tail. -/
theorem tail_bytes (eof : Bool) : ∃ x : UInt8, insertTailEOF axis eof (iniTail axis) = [x] := by
  cases eof
  · exact ⟨_, rfl⟩
  · exact ⟨_, rfl⟩

/-- What the chain becomes with its tail. -/
structure Tailed (eof : Bool) (c c' : Chain) : Prop where
  ok : ∀ b ∈ c'.bufs, b.Ok
  sized : c'.Sized
  bytes : BufChain.bytes c'.bufs = BufChain.bytes c.bufs ++ insertTailEOF axis eof (iniTail axis)
  head : ∀ k, (∀ b ∈ c.bufs.head?, k ≤ b.getSize) → ∀ b ∈ c'.bufs.head?, k ≤ b.getSize
  last : ∀ b ∈ c'.bufs.getLast?, axis.TAIL_SIZE ≤ b.getSize

theorem appendTailByte_ok (eof : Bool) (hst : (Buf.getBuf storage).Ok) (hroom : Buf.HEADROOM < storage.length)
    (hok : ∀ b ∈ c.bufs, b.Ok) (hs : c.Sized) (ht : c.bufs.getLast? = some t)
    (hr : fitsInMTU mtu (t.getSize + axis.TAIL_SIZE) → 0 < t.getAvail) :
    ∃ c', appendTailByte mtu storage eof c = .ok c' ∧ Tailed eof c c' := by
  obtain ⟨x, hx⟩ := tail_bytes eof
  obtain ⟨init, hi⟩ := List.getLast?_eq_some_iff.1 ht
  have htok : t.Ok := hok t (by simp [hi])
  have hle := htok.le
  have hfit := htok.fits
  have hcapa := htok.capa
  unfold appendTailByte
  rw [ht]
  dsimp only
  split_ifs with hf
  · have hav : t.fin < t.getCapacity := by
      have := hr hf
      unfold Buf.getAvail at this
      omega
    have hset : t.setSize ((t.getSize : ℤ) + axis.TAIL_SIZE) = .ok { t with fin := t.fin + 1 } := by
      have := htok.setSize_eq (s := t.getSize + 1) (by unfold Buf.getSize; omega)
      rw [if_neg (by unfold Buf.getSize; omega)] at this
      rw [show t.beg + (t.getSize + 1) = t.fin + 1 by unfold Buf.getSize; omega] at this
      exact this
    obtain ⟨hpok, hpc⟩ := htok.push hav x
    rw [hset]
    dsimp only
    have hsize : ({ t with fin := t.fin + 1 } : Buf).getSize - axis.TAIL_SIZE = t.getSize := by
      change t.fin + 1 - t.beg - 1 = t.fin - t.beg
      omega
    rw [hsize, hx]
    let t' := ({ t with fin := t.fin + 1 } : Buf).write t.getSize [x]
    have hbufs : (c.setTail t').bufs = init ++ [t'] := by
      rw [Chain.setTail_bufs ht, hi, List.dropLast_concat]
    have ht' : t'.getSize = t.getSize + 1 := by
      change t.fin + 1 - t.beg = t.fin - t.beg + 1
      omega
    refine ⟨c.setTail t', rfl, fun b hb ↦ ?_, hs.setTail t', ?_, fun k hk b hb ↦ ?_, fun b hb ↦ ?_⟩
    · rw [hbufs, List.mem_append, List.mem_singleton] at hb
      rcases hb with hb | rfl
      · exact hok b (by simp [hi, hb])
      · exact hpok
    · rw [hbufs, hi, BufChain.bytes_append, BufChain.bytes_append, hx]
      simp only [BufChain.bytes, List.flatMap_cons, List.flatMap_nil, List.append_nil]
      rw [hpc, List.append_assoc]
    · rw [hbufs] at hb
      rw [hi] at hk
      cases init with
      | nil =>
        obtain rfl := Option.some.inj hb
        have := hk t rfl
        omega
      | cons a init => exact hk b hb
    · rw [hbufs, List.getLast?_concat] at hb
      obtain rfl := Option.some.inj hb
      rw [ht']
      exact Nat.le_add_left 1 _
  · have hst' : storage.length < 2 ^ 16 := hst.capa
    have hset : (Buf.getBuf storage).setSize axis.TAIL_SIZE =
        .ok { Buf.getBuf storage with fin := Buf.HEADROOM + 1 } := by
      have := hst.setSize_eq (s := 1) (by decide)
      rw [if_neg (by change ¬Buf.HEADROOM + 1 > storage.length; omega)] at this
      exact this
    obtain ⟨hpok, hpc⟩ := hst.push hroom x
    have hempty : (Buf.getBuf storage).content = [] := by
      apply List.eq_nil_of_length_eq_zero
      rw [hst.content_length]
      rfl
    rw [hempty, List.nil_append] at hpc
    rw [hset]
    dsimp only
    rw [hx]
    let t' := ({ Buf.getBuf storage with fin := Buf.HEADROOM + 1 } : Buf).write 0 [x]
    have hbufs : (c.addAtTail t').bufs = init ++ [t] ++ [t'] := by
      rw [Chain.addAtTail_bufs, hi]
    refine ⟨c.addAtTail t', rfl, fun b hb ↦ ?_, hs.addAtTail t', ?_, fun k hk b hb ↦ ?_,
      fun b hb ↦ ?_⟩
    · rw [hbufs, ← hi, List.mem_append, List.mem_singleton] at hb
      rcases hb with hb | rfl
      · exact hok b hb
      · exact hpok
    · rw [hbufs, ← hi, BufChain.bytes_append, hx]
      simp only [BufChain.bytes, List.flatMap_cons, List.flatMap_nil, List.append_nil]
      congr 1
    · rw [hbufs, ← hi] at hb
      cases hcb : c.bufs with
      | nil =>
        rw [hcb] at ht
        contradiction
      | cons a l =>
        rw [hcb] at hb hk
        exact hk b hb
    · rw [hbufs, List.getLast?_concat] at hb
      obtain rfl := Option.some.inj hb
      exact le_rfl

theorem appendTailByte_error (eof : Bool) (hok : ∀ b ∈ c.bufs, b.Ok) (ht : c.bufs.getLast? = some t)
    (hf : fitsInMTU mtu (t.getSize + axis.TAIL_SIZE) = true) (hr : ¬0 < t.getAvail) :
    appendTailByte mtu storage eof c = .error (.buf .requestedSizeTooBig) := by
  obtain ⟨init, hi⟩ := List.getLast?_eq_some_iff.1 ht
  have htok : t.Ok := hok t (by simp [hi])
  have hle := htok.le
  have hfit := htok.fits
  have hcapa := htok.capa
  have hset : t.setSize ((t.getSize : ℤ) + axis.TAIL_SIZE) = .error .requestedSizeTooBig := by
    have := htok.setSize_eq (s := t.getSize + 1) (by unfold Buf.getSize; omega)
    rw [if_pos (by unfold Buf.getAvail at hr; unfold Buf.getSize; omega)] at this
    exact this
  unfold appendTailByte
  rw [ht]
  dsimp only
  rw [if_pos hf, hset]

variable {hdr : CAxisFrameHeader} {h : Buf} {bs : BufChain}

/-- The chain is about to leave with the header `hdr` before the content of `b`: with `extra = 0`
the content of `b` starts with the header, with `extra = 8` it follows the header. -/
structure Start (extra : ℕ) (hdr : CAxisFrameHeader) (b h : Buf) (bs : BufChain) (c : Chain) :
    Prop where
  bufs : c.bufs = h :: bs
  sized : c.Sized
  ok : ∀ x ∈ h :: bs, x.Ok
  size : h.getSize = extra + b.getSize
  avail : h.getAvail = b.getAvail
  room : HEADER_SIZE ≤ h.getSize
  parse : CAxisFrameHeader.parse h.getPayload h.getSize = some hdr
  extra_le : extra ≤ HEADER_SIZE
  own : b.Ok
  content : h.content.drop HEADER_SIZE = b.content.drop (HEADER_SIZE - extra)

theorem bytes_cons (b : Buf) (bc : BufChain) :
    BufChain.bytes (b :: bc) = b.content ++ BufChain.bytes bc := rfl

/-- The chain with the header that it leaves with. -/
theorem Start.header (hs : Start extra hdr b h bs c) (hdr' : CAxisFrameHeader) :
    ∃ h', c.setHead (h.write 0 hdr'.insert) = { bufs := h' :: bs, size := c.size } ∧ h'.Ok ∧
      h'.getSize = extra + b.getSize ∧ h'.getAvail = b.getAvail ∧
      h'.content = hdr'.insert ++ b.content.drop (HEADER_SIZE - extra) := by
  have hok := hs.ok h List.mem_cons_self
  have hl : 0 + hdr'.insert.length ≤ h.getSize := by
    rw [insert_length, Nat.zero_add]
    exact hs.room
  obtain ⟨hok', hc⟩ := hok.write hl
  refine ⟨h.write 0 hdr'.insert, ?_, hok', hs.size, ?_, ?_⟩
  · unfold Chain.setHead
    rw [hs.bufs]
    dsimp only
    rw [Buf.getSize_write, Int.sub_self, Int.add_zero]
  · have hcap : (h.write 0 hdr'.insert).getCapacity = h.getCapacity := by
      have h₁ := hok.le
      have h₂ := hok.fits
      unfold Buf.getSize at hl
      simp only [Buf.getCapacity, Buf.write, List.length_append, List.length_take,
        List.length_drop] at *
      omega
    rw [← hs.avail]
    unfold Buf.getAvail
    rw [hcap]
    rfl
  · rw [hc, insert_length, List.take_zero, List.nil_append, Nat.zero_add, hs.content]

/-- The fragments that leave for the payloads `xs`, the first one with the header `hdr`. -/
inductive Sent : CAxisFrameHeader → List Bytes → List Chain → Prop
  | last {hdr : CAxisFrameHeader} {x : Bytes} {c : Chain} :
    c.Sized → Carries c.bufs (packet hdr x true) → Sent hdr [x] [c]
  | more {hdr : CAxisFrameHeader} {x : Bytes} {xs : List Bytes} {c : Chain} {cs : List Chain} :
    c.Sized → Carries c.bufs (packet hdr x false) → Sent (followHeader hdr) xs cs →
      Sent hdr (x :: xs) (c :: cs)

/-- A fragment of the buffers `h' :: g`, with its tail. -/
theorem Tailed.carries {c c' : Chain} {h' : Buf} {g : BufChain} {hdr : CAxisFrameHeader}
    (ht : Tailed eof c c') (hb : c.bufs = h' :: g) (hsize : HEADER_SIZE ≤ h'.getSize)
    (hown : b.Ok) (hx : HEADER_SIZE ≤ extra + b.getSize) (hle : extra ≤ HEADER_SIZE)
    (hc : h'.content = hdr.insert ++ b.content.drop (HEADER_SIZE - extra)) :
    Carries c'.bufs
      (packet hdr ((BufChain.bytes (b :: g)).drop (HEADER_SIZE - extra)) eof) := by
  have hl := hown.content_length
  refine ⟨ht.ok, ?_, ht.head HEADER_SIZE fun x hx ↦ ?_, ht.last⟩
  · rw [ht.bytes, hb, bytes_cons, bytes_cons, hc, packet, List.drop_append_of_le_length (by omega)]
    simp only [List.append_assoc]
  · rw [hb] at hx
    obtain rfl := Option.some.inj hx
    exact hsize

theorem tailRoom_iff {h' : Buf} {g : BufChain} (hsize : h'.getSize = extra + b.getSize)
    (havail : h'.getAvail = b.getAvail) : ∃ t, (h' :: g).getLast? = some t ∧
      (TailRoom mtu extra (b :: g) ↔
        (fitsInMTU mtu (t.getSize + axis.TAIL_SIZE) = true → 0 < t.getAvail)) := by
  cases hg : g.getLast? with
  | none =>
    obtain rfl : g = [] := List.getLast?_eq_none_iff.1 hg
    refine ⟨h', rfl, ?_⟩
    rw [hsize, havail]
    simp [TailRoom]
  | some t =>
    obtain ⟨init, rfl⟩ := List.getLast?_eq_some_iff.1 hg
    refine ⟨t, ?_, ?_⟩
    · rw [← List.cons_append, List.getLast?_concat]
    · have hlast : (b :: (init ++ [t])).getLast? = some t := by
        rw [← List.cons_append, List.getLast?_concat]
      simp [TailRoom, hlast]

variable (frameNo : ℕ)

/-- The last fragment leaves with all that is left. -/
theorem processOutput_last (hst : (Buf.getBuf storage).Ok)
    (hroom : Buf.HEADROOM < storage.length) (hs : Start extra hdr b h bs c)
    (hf : fitsInMTU mtu (extra + total (b :: bs)) = true) :
    (TailRoom mtu extra (b :: bs) → ∃ c', processOutput mtu storage frameNo c =
        .ok (c', none, nextFrameNo frameNo hdr) ∧ c'.Sized ∧ Carries c'.bufs
          (packet (sendHeader frameNo hdr) ((BufChain.bytes (b :: bs)).drop (HEADER_SIZE - extra)) true)) ∧
    (¬TailRoom mtu extra (b :: bs) → ∃ e, processOutput mtu storage frameNo c = .error e) := by
  obtain ⟨h', hset, hok, hsize, havail, hc⟩ := hs.header (sendHeader frameNo hdr)
  have hsized : ({ bufs := h' :: bs, size := c.size } : Chain).Sized := by
    rw [← hset]
    exact hs.sized.setHead _
  have htotal : ({ bufs := h' :: bs, size := c.size } : Chain).getSize = extra + total (b :: bs) := by
    rw [hsized.getSize_eq, total_cons, total_cons, hsize]
    omega
  have hoks : ∀ x ∈ h' :: bs, x.Ok := by
    intro x hx
    rcases List.mem_cons.1 hx with rfl | hx
    · exact hok
    · exact hs.ok x (List.mem_cons_of_mem _ hx)
  have hroom' := hs.room
  rw [hs.size] at hroom'
  obtain ⟨t, ht, hiff⟩ := @tailRoom_iff mtu extra b h' bs hsize havail
  have hproc : processOutput mtu storage frameNo c =
      (appendTailByte mtu storage true { bufs := h' :: bs, size := c.size }).map
        fun res ↦ (res, none, nextFrameNo frameNo hdr) := by
    unfold processOutput
    rw [hs.bufs]
    dsimp only
    rw [hs.parse]
    dsimp only
    rw [hset, htotal, if_pos hf]
    cases appendTailByte mtu storage true { bufs := h' :: bs, size := c.size } <;> rfl
  refine ⟨fun hr ↦ ?_, fun hr ↦ ?_⟩
  · obtain ⟨c', happ, htail⟩ := appendTailByte_ok true hst hroom hoks hsized ht (hiff.1 hr)
    refine ⟨c', ?_, htail.sized, htail.carries rfl ?_ hs.own hroom' hs.extra_le hc⟩
    · rw [hproc, happ]
      rfl
    · rw [hsize]
      exact hroom'
  · rw [hiff] at hr
    have happ := @appendTailByte_error mtu storage { bufs := h' :: bs, size := c.size } t true hoks ht
      (by_contra fun hn ↦ hr fun hf ↦ absurd hf hn) (fun hav ↦ hr fun _ ↦ hav)
    refine ⟨.buf .requestedSizeTooBig, ?_⟩
    rw [hproc, happ]
    rfl

/-- What the chain is after a fragment has left and others follow. -/
structure Left (hdr : CAxisFrameHeader) (b : Buf) (bs : BufChain) (c : Chain) : Prop where
  start : HEADER_SIZE ≤ b.getHeadroom → ∃ h, Start HEADER_SIZE hdr b h bs c
  stuck : ¬HEADER_SIZE ≤ b.getHeadroom → ∃ h, c.bufs = h :: b :: bs ∧ h.getSize = 0
  pos : c.getSize ≠ 0

/-- The header as the next call finds it. -/
def found (hdr : CAxisFrameHeader) : CAxisFrameHeader := { hdr with fragNo := hdr.fragNo % 2 ^ 24 }

theorem found_eq (h : hdr.fragNo < 2 ^ 24) : found hdr = hdr := by
  unfold found
  rw [Nat.mod_eq_of_lt h]

theorem addHeader_left (storage : Bytes) (hv : hdr.vers = 0) (hfr : hdr.frameNo < 4096)
    (hb : c.bufs = b :: bs) (hs : c.Sized) (hok : ∀ x ∈ b :: bs, x.Ok) (hpos : 0 < b.getSize) :
    Left (found hdr) b bs (addHeader storage hdr c) := by
  have hbok := hok b List.mem_cons_self
  have hle := hbok.le
  unfold addHeader
  rw [hb]
  dsimp only
  by_cases hroom : HEADER_SIZE ≤ b.getHeadroom
  · have hbeg : 8 ≤ b.beg := hroom
    have hadj : b.adjPayload (-HEADER_SIZE) = some { b with beg := b.beg - 8 } := by
      unfold Buf.adjPayload
      rw [if_neg]
      · congr 2
        change ((-8 : ℤ) + b.beg).toNat = _
        omega
      · change ¬((-8 : ℤ) + b.beg < 0 ∨ (-8 : ℤ) > b.getSize)
        omega
    rw [hadj]
    dsimp only
    have hwok : ({ b with beg := b.beg - 8 } : Buf).Ok := ⟨by simp only; omega, hbok.fits, hbok.capa⟩
    have hwsize : ({ b with beg := b.beg - 8 } : Buf).getSize = HEADER_SIZE + b.getSize := by
      change b.fin - (b.beg - 8) = 8 + (b.fin - b.beg)
      omega
    have hl : 0 + hdr.insert.length ≤ ({ b with beg := b.beg - 8 } : Buf).getSize := by
      rw [insert_length, hwsize]
      omega
    obtain ⟨hok', hc⟩ := hwok.write hl
    have hdrop : ({ b with beg := b.beg - 8 } : Buf).content.drop HEADER_SIZE = b.content := by
      rw [← Buf.content_drop]
      congr 1
      simp only [HEADER_SIZE]
      rw [Nat.sub_add_cancel hbeg]
    have hcont : (({ b with beg := b.beg - 8 } : Buf).write 0 hdr.insert).content =
        hdr.insert ++ b.content := by
      rw [hc, insert_length, List.take_zero, List.nil_append, Nat.zero_add, hdrop]
    have hsize : (({ b with beg := b.beg - 8 } : Buf).write 0 hdr.insert).getSize =
        HEADER_SIZE + b.getSize := hwsize
    have hstart : Start HEADER_SIZE (found hdr) b (({ b with beg := b.beg - 8 } : Buf).write 0 hdr.insert) bs
        (c.setHead (({ b with beg := b.beg - 8 } : Buf).write 0 hdr.insert)) := by
      refine ⟨Chain.setHead_bufs hb _, hs.setHead _, fun x hx ↦ ?_, hsize, ?_, ?_, ?_, le_rfl, hbok, ?_⟩
      · rcases List.mem_cons.1 hx with rfl | hx
        · exact hok'
        · exact hok x (List.mem_cons_of_mem _ hx)
      · have h₂ := hbok.fits
        unfold Buf.getCapacity at h₂
        simp only [Buf.getAvail, Buf.getCapacity, Buf.write, List.length_append, List.length_take,
          List.length_drop, insert_length, HEADER_SIZE]
        omega
      · rw [hsize]
        omega
      · rw [parse_take _ (by rw [hsize]; exact Nat.le_add_right 8 _)]
        have ht : (({ b with beg := b.beg - 8 } : Buf).write 0 hdr.insert).getPayload.take 8 =
            hdr.insert := by
          have h₁ : ((({ b with beg := b.beg - 8 } : Buf).write 0 hdr.insert).content).take 8 =
              hdr.insert := by
            rw [hcont]
            exact List.take_left' (insert_length hdr)
          rw [Buf.content, List.take_take, hsize,
            show min 8 (HEADER_SIZE + b.getSize) = 8 from Nat.min_eq_left (Nat.le_add_right 8 _)] at h₁
          exact h₁
        rw [ht]
        have := parse_insert_mod hdr hv hfr [] (le_refl 8)
        rwa [List.append_nil] at this
      · rw [hcont, List.drop_left' (insert_length hdr), Nat.sub_self]
        rfl
    refine ⟨fun _ ↦ ⟨_, hstart⟩, fun hn ↦ absurd hroom hn, ?_⟩
    rw [hstart.sized.getSize_eq, hstart.bufs, total_cons, hsize]
    change 8 + b.getSize + total bs ≠ 0
    omega
  · have hadj : b.adjPayload (-HEADER_SIZE) = none := by
      unfold Buf.adjPayload
      rw [if_pos]
      left
      change (-8 : ℤ) + b.beg < 0
      have : ¬8 ≤ b.beg := hroom
      omega
    rw [hadj]
    dsimp only
    refine ⟨fun hn ↦ absurd hn hroom,
      fun _ ↦ ⟨(Buf.getBuf storage).write 0 hdr.insert, ?_, Nat.sub_self _⟩, ?_⟩
    · rw [Chain.addAtHead_bufs, hb]
    · rw [(hs.addAtHead _).getSize_eq, Chain.addAtHead_bufs, hb, total_cons, total_cons]
      omega

theorem sendHeader_valid (hv : hdr.vers = 0) (hfr : hdr.frameNo < 4096) :
    (sendHeader frameNo hdr).vers = 0 ∧ (sendHeader frameNo hdr).frameNo < 4096 ∧
      (sendHeader frameNo hdr).fragNo = hdr.fragNo := by
  unfold sendHeader
  split_ifs
  · exact ⟨hv, Nat.mod_lt _ (by decide), rfl⟩
  · exact ⟨hv, hfr, rfl⟩

/-- A fragment that others follow leaves with the buffers that fit. -/
theorem processOutput_more (hst : (Buf.getBuf storage).Ok)
    (hroom : Buf.HEADROOM < storage.length) (hs : Start extra hdr b h bs c)
    (hv : hdr.vers = 0) (hfr : hdr.frameNo < 4096)
    (hf : ¬fitsInMTU mtu (extra + total (b :: bs)) = true)
    (hfit : fitsInMTU mtu (extra + b.getSize) = true) :
    ∃ g b' bs', cut mtu extra (b :: bs) = (b :: g, b' :: bs') ∧
    (TailRoom mtu extra (b :: g) → ∃ c' rest, processOutput mtu storage frameNo c =
        .ok (c', some rest, nextFrameNo frameNo hdr) ∧ c'.Sized ∧ Carries c'.bufs
          (packet (sendHeader frameNo hdr) ((BufChain.bytes (b :: g)).drop (HEADER_SIZE - extra)) false) ∧
          Left (found (followHeader (sendHeader frameNo hdr))) b' bs' rest) ∧
    (¬TailRoom mtu extra (b :: g) → ∃ e, processOutput mtu storage frameNo c = .error e) := by
  obtain ⟨h', hset, hok, hsize, havail, hc⟩ := hs.header (sendHeader frameNo hdr)
  have hsized : ({ bufs := h' :: bs, size := c.size } : Chain).Sized := by
    rw [← hset]
    exact hs.sized.setHead _
  have htotal : ({ bufs := h' :: bs, size := c.size } : Chain).getSize = extra + total (b :: bs) := by
    rw [hsized.getSize_eq, total_cons, total_cons, hsize]
    omega
  have hroom' := hs.room
  rw [hs.size] at hroom'
  -- the cut is the same with and without the header
  obtain ⟨g, rest, hcut⟩ : ∃ g rest, cut mtu (extra + b.getSize) bs = (g, rest) := ⟨_, _, rfl⟩
  have hcut₁ : cut mtu extra (b :: bs) = (b :: g, rest) := by
    unfold cut
    rw [if_pos hfit, hcut]
  have hcut₂ : cut mtu 0 (h' :: bs) = (h' :: g, rest) := by
    unfold cut
    rw [Nat.zero_add, hsize, if_pos hfit, hcut]
  have happend : b :: g ++ rest = b :: bs := by
    have := cut_append mtu extra (b :: bs)
    rwa [hcut₁] at this
  cases hrest : rest with
  | nil =>
    have := @cut_nil mtu extra (b :: bs) nofun (by rw [hcut₁, hrest])
    exact absurd this hf
  | cons b' bs' =>
    rw [hrest] at hcut₁ hcut₂ happend
    refine ⟨g, b', bs', hcut₁, ?_⟩
    have hbs : bs = g ++ b' :: bs' := (List.cons.inj happend).2.symm
    have hoks : ∀ x ∈ bs, x.Ok := fun x hx ↦ hs.ok x (List.mem_cons_of_mem _ hx)
    obtain ⟨c₁, res, hmove, hc₁, hs₁, hres, hsres⟩ := moveLoop_spec mtu (h' :: bs).length 0
      { bufs := h' :: bs, size := c.size } Chain.create le_rfl hsized Chain.sized_create
    rw [hcut₂] at hmove hc₁ hres
    replace hres : res.bufs = h' :: g := hres
    have hresok : ∀ x ∈ res.bufs, x.Ok := by
      rw [hres]
      intro x hx
      rcases List.mem_cons.1 hx with rfl | hx
      · exact hok
      · exact hoks x (by simp [hbs, hx])
    have hsz : 0 + total (h' :: g) ≠ 0 := by
      rw [total_cons, hsize]
      change 8 ≤ _ at hroom'
      omega
    obtain ⟨t, ht, hiff⟩ := @tailRoom_iff mtu extra b h' g hsize havail
    rw [← hres] at ht
    have hproc : processOutput mtu storage frameNo c =
        (appendTailByte mtu storage false res).map fun res ↦
          (res, some (addHeader storage (followHeader (sendHeader frameNo hdr)) c₁),
            nextFrameNo frameNo hdr) := by
      unfold processOutput
      rw [hs.bufs]
      dsimp only
      rw [hs.parse]
      dsimp only
      rw [hset, htotal, if_neg hf]
      dsimp only
      rw [hmove]
      dsimp only
      rw [if_neg hsz]
      cases appendTailByte mtu storage false res <;> rfl
    refine ⟨fun hr ↦ ?_, fun hr ↦ ?_⟩
    · obtain ⟨c', happ, htail⟩ := appendTailByte_ok false hst hroom hresok hsres ht (hiff.1 hr)
      obtain ⟨hv', hfr', -⟩ := sendHeader_valid frameNo hv hfr
      have hleft : fitsInMTU mtu (extra + total (b :: g) + b'.getSize) = false := by
        have := @cut_left mtu extra (b :: bs) b' bs' (by rw [hcut₁])
        rwa [hcut₁] at this
      have htaken : fitsInMTU mtu (extra + total (b :: g)) = true := by
        have := @cut_taken mtu (extra + b.getSize) bs hfit
        rwa [hcut, Nat.add_assoc, ← total_cons] at this
      have hpos : 0 < b'.getSize := by
        apply Nat.pos_of_ne_zero
        intro h0
        rw [h0, Nat.add_zero, htaken] at hleft
        contradiction
      refine ⟨c', _, ?_, htail.sized, htail.carries hres ?_ hs.own hroom' hs.extra_le hc,
        addHeader_left storage hv' hfr' hc₁ hs₁ ?_ hpos⟩
      · rw [hproc, happ]
        rfl
      · rw [hsize]
        exact hroom'
      · intro x hx
        exact hoks x (by rw [hbs]; exact List.mem_append_right _ hx)
    · rw [hiff] at hr
      have happ := @appendTailByte_error mtu storage res t false hresok ht
        (by_contra fun hn ↦ hr fun hf ↦ absurd hf hn) (fun hav ↦ hr fun _ ↦ hav)
      refine ⟨.buf .requestedSizeTooBig, ?_⟩
      rw [hproc, happ]
      rfl

theorem pushLoop_succ {n frameNo : ℕ} (hpos : c.getSize ≠ 0) : pushLoop mtu storage (n + 1) frameNo (some c) =
    processOutput mtu storage frameNo c >>= fun r ↦
      pushLoop mtu storage n r.2.2 r.2.1 >>= fun q ↦ pure (r.1 :: q.1, q.2) :=
  if_neg hpos

/-- A header of fragment 0 gets the next frame number, any other one is left as it is. -/
theorem sendHeader_follow (frameNo : ℕ) (hdr : CAxisFrameHeader) :
    sendHeader frameNo (followHeader hdr) = followHeader hdr := by
  unfold sendHeader
  rw [if_neg]
  exact Nat.succ_ne_zero _

/-- All the fragments leave, or the loop ends in an exception. -/
theorem pushLoop_spec (hst : (Buf.getBuf storage).Ok) (hroom : Buf.HEADROOM < storage.length)
    (n : ℕ) (hn : bs.length < n) (hs : Start extra hdr b h bs c) (hv : hdr.vers = 0)
    (hfr : hdr.frameNo < 4096) (hfg : hdr.fragNo + (pieces mtu n extra (b :: bs)).length < 2 ^ 24)
    (hfit : fitsInMTU mtu (extra + b.getSize) = true)
    (hfits : ∀ x ∈ bs, fitsInMTU mtu (HEADER_SIZE + x.getSize) = true) :
    (RoomFor mtu extra (pieces mtu n extra (b :: bs)) → ∃ cs xs nf,
        pushLoop mtu storage (n + 1) frameNo (some c) = .ok (cs, nf) ∧
          Sent (sendHeader frameNo hdr) xs cs ∧ xs.length = (pieces mtu n extra (b :: bs)).length ∧
            xs.flatten = (BufChain.bytes (b :: bs)).drop (HEADER_SIZE - extra)) ∧
    (¬RoomFor mtu extra (pieces mtu n extra (b :: bs)) →
      ∃ e, pushLoop mtu storage (n + 1) frameNo (some c) = .error e) := by
  induction n generalizing frameNo extra hdr b h bs c with
  | zero => contradiction
  | succ n ih =>
    have hpos : c.getSize ≠ 0 := by
      have := hs.room
      rw [hs.sized.getSize_eq, hs.bufs, total_cons]
      change 8 ≤ h.getSize at this
      omega
    rw [pushLoop_succ hpos]
    unfold pieces at hfg ⊢
    by_cases hf : fitsInMTU mtu (extra + total (b :: bs)) = true
    · rw [if_pos hf] at hfg ⊢
      obtain ⟨h₁, h₂⟩ := processOutput_last frameNo hst hroom hs hf
      refine ⟨fun hr ↦ ?_, fun hr ↦ ?_⟩
      · obtain ⟨c', hp, hsz, hc⟩ := h₁ hr.1
        refine ⟨[c'], _, nextFrameNo frameNo hdr, ?_, .last hsz hc, rfl, by simp⟩
        rw [hp]
        rfl
      · obtain ⟨e, he⟩ := h₂ fun ht ↦ hr ⟨ht, nofun⟩
        refine ⟨e, ?_⟩
        rw [he]
        rfl
    · rw [if_neg hf] at hfg ⊢
      rw [List.length_cons] at hfg
      obtain ⟨g, b', bs', hcut, h₁, h₂⟩ := processOutput_more frameNo hst hroom hs hv hfr hf hfit
      have happend : b :: g ++ b' :: bs' = b :: bs := by
        have := cut_append mtu extra (b :: bs)
        rwa [hcut] at this
      have hbs : bs = g ++ b' :: bs' := (List.cons.inj happend).2.symm
      rw [hcut] at hfg ⊢
      dsimp only at hfg ⊢
      have hlen : bs'.length < n := by
        rw [hbs, List.length_append, List.length_cons] at hn
        omega
      have hb'fit : fitsInMTU mtu (HEADER_SIZE + b'.getSize) = true := hfits b' (by simp [hbs])
      obtain ⟨hv', hfr', hfg'⟩ := sendHeader_valid frameNo hv hfr
      -- the next fragment starts with the first of the buffers that are left
      obtain ⟨n, rfl⟩ : ∃ m, n = m + 1 := ⟨n - 1, by omega⟩
      have hhead : ∃ g' gs, pieces mtu (n + 1) HEADER_SIZE (b' :: bs') = (b' :: g') :: gs := by
        unfold pieces
        split_ifs
        · exact ⟨bs', [], rfl⟩
        · unfold cut
          rw [if_pos hb'fit]
          exact ⟨_, _, rfl⟩
      obtain ⟨g', gs, hgs⟩ := hhead
      by_cases ht : TailRoom mtu extra (b :: g)
      · obtain ⟨c', rest, hp, hsz, hc, hleft⟩ := h₁ ht
        rw [hp]
        have hfg'' : (followHeader (sendHeader frameNo hdr)).fragNo = hdr.fragNo + 1 :=
          congrArg (· + 1) hfg'
        rw [found_eq (by omega)] at hleft
        change (RoomFor mtu extra _ → ∃ cs xs nf, (pushLoop mtu storage (n + 1 + 1)
          (nextFrameNo frameNo hdr) (some rest) >>= fun q ↦ pure (c' :: q.1, q.2)) = _ ∧ _) ∧
            (_ → ∃ e, (pushLoop mtu storage (n + 1 + 1) (nextFrameNo frameNo hdr) (some rest) >>=
              fun q ↦ pure (c' :: q.1, q.2)) = _)
        by_cases hh : HEADER_SIZE ≤ b'.getHeadroom
        · obtain ⟨h'', hs'⟩ := hleft.start hh
          obtain ⟨h₃, h₄⟩ := ih (nextFrameNo frameNo hdr) hlen hs' hv' hfr'
            (by rw [hfg'']; omega) hb'fit (fun x hx ↦ hfits x (by simp [hbs, hx]))
          rw [sendHeader_follow] at h₃
          have hiff : RoomFor mtu extra ((b :: g) :: pieces mtu (n + 1) HEADER_SIZE (b' :: bs')) ↔
              RoomFor mtu HEADER_SIZE (pieces mtu (n + 1) HEADER_SIZE (b' :: bs')) := by
            rw [hgs]
            refine ⟨fun hr ↦ ⟨(hr.2 _ List.mem_cons_self).2, fun x hx ↦ hr.2 x (List.mem_cons_of_mem _ hx)⟩,
              fun hr ↦ ⟨ht, fun x hx ↦ ?_⟩⟩
            rcases List.mem_cons.1 hx with rfl | hx
            · refine ⟨fun y hy ↦ ?_, hr.1⟩
              obtain rfl := Option.some.inj hy
              exact hh
            · exact hr.2 x hx
          rw [hiff]
          refine ⟨fun hr ↦ ?_, fun hr ↦ ?_⟩
          · obtain ⟨cs, xs, nf, hpush, hsent, hxs, hflat⟩ := h₃ hr
            refine ⟨c' :: cs, _ :: xs, nf, ?_, .more hsz hc hsent, congrArg (· + 1) hxs, ?_⟩
            · rw [hpush]
              rfl
            · have hl := hs.own.content_length
              have hr := hs.room
              have hle := hs.extra_le
              rw [hs.size] at hr
              rw [List.flatten_cons, hflat, Nat.sub_self, List.drop_zero, ← happend,
                BufChain.bytes_append, List.drop_append_of_le_length]
              rw [bytes_cons, List.length_append]
              omega
          · obtain ⟨e, he⟩ := h₄ hr
            refine ⟨e, ?_⟩
            rw [he]
            rfl
        · refine ⟨fun hr ↦ ?_, fun _ ↦ ?_⟩
          · rw [hgs] at hr
            exact absurd ((hr.2 _ List.mem_cons_self).1 b' rfl) hh
          · obtain ⟨h'', hb'', h0⟩ := hleft.stuck hh
            have hparse : CAxisFrameHeader.parse h''.getPayload h''.getSize = none := by
              rw [h0]
              rfl
            refine ⟨.invalidHeader, ?_⟩
            rw [pushLoop_succ hleft.pos]
            unfold processOutput
            rw [hb'']
            dsimp only
            rw [hparse]
            rfl
      · refine ⟨fun hr ↦ absurd hr.1 ht, fun _ ↦ ?_⟩
        obtain ⟨e, he⟩ := h₂ ht
        refine ⟨e, ?_⟩
        rw [he]
        rfl

theorem iterate_followHeader (j : ℕ) (hdr : CAxisFrameHeader) :
    (followHeader^[j] hdr).vers = hdr.vers ∧ (followHeader^[j] hdr).frameNo = hdr.frameNo ∧
      (followHeader^[j] hdr).fragNo = hdr.fragNo + j := by
  induction j generalizing hdr with
  | zero => exact ⟨rfl, rfl, rfl⟩
  | succ j ih =>
    rw [Function.iterate_succ_apply]
    obtain ⟨h₁, h₂, h₃⟩ := ih (followHeader hdr)
    refine ⟨h₁, h₂, h₃.trans ?_⟩
    change hdr.fragNo + 1 + j = _
    omega

theorem Sent.get {xs : List Bytes} {cs : List Chain} (h : Sent hdr xs cs) : cs.length = xs.length ∧
    ∀ (j : ℕ) (c : Chain) (x : Bytes), cs[j]? = some c → xs[j]? = some x → c.Sized ∧
      Carries c.bufs (packet (followHeader^[j] hdr) x (j + 1 == xs.length)) := by
  induction h with
  | last hs hc =>
    refine ⟨rfl, fun j c x hj hx ↦ ?_⟩
    cases j with
    | zero =>
      obtain rfl := Option.some.inj hj
      obtain rfl := Option.some.inj hx
      exact ⟨hs, hc⟩
    | succ j => cases hj
  | more hs hc hsent ih =>
    rename_i hdr x₀ xs c₀ cs
    obtain ⟨hlen, hget⟩ := ih
    refine ⟨congrArg (· + 1) hlen, fun j c x hj hx ↦ ?_⟩
    have hpos : xs.length ≠ 0 := by
      cases hsent <;> exact Nat.succ_ne_zero _
    cases j with
    | zero =>
      obtain rfl := Option.some.inj hj
      obtain rfl := Option.some.inj hx
      have hlast : (0 + 1 == (x₀ :: xs).length) = false := by
        simp only [List.length_cons, beq_eq_false_iff_ne]
        omega
      rw [hlast]
      exact ⟨hs, hc⟩
    | succ j =>
      obtain ⟨h₁, h₂⟩ := hget j c x hj hx
      refine ⟨h₁, ?_⟩
      rw [Function.iterate_succ_apply]
      have hlast : (j + 1 + 1 == (x₀ :: xs).length) = (j + 1 == xs.length) := by
        rw [List.length_cons, Bool.eq_iff_iff, beq_iff_eq, beq_iff_eq]
        omega
      rw [hlast]
      exact h₂

/-- A chain that starts with the header of a first fragment, in buffers that fit the MTU with the
header that goes before them, and that makes fewer than 2^24 fragments. -/
structure Sendable (mtu : ℕ) (c : Chain) : Prop where
  sized : c.Sized
  ok : ∀ x ∈ c.bufs, x.Ok
  header : ∃ b bs hdr, c.bufs = b :: bs ∧ HEADER_SIZE ≤ b.getSize ∧
    CAxisFrameHeader.parse b.getPayload b.getSize = some hdr ∧ hdr.fragNo = 0 ∧
    fitsInMTU mtu b.getSize = true ∧ ∀ x ∈ bs, fitsInMTU mtu (HEADER_SIZE + x.getSize) = true
  count : (pieces mtu c.bufs.length 0 c.bufs).length < 2 ^ 24

/-- The fragments bear the frame number `f` and consecutive fragment numbers, and the last one is
marked. -/
def Emitted (f : ℕ) (cs : List Chain) : Prop :=
  ∀ i c, cs[i]? = some c → ∃ b bs hdr, c.bufs = b :: bs ∧
    CAxisFrameHeader.parse b.getPayload b.getSize = some hdr ∧ hdr.frameNo = f ∧ hdr.fragNo = i ∧
    (tailEOF c.bufs = true ↔ i + 1 = cs.length) ∧ c.Sized

/-- All the fragments leave, and what a receiver makes of them is one frame with the payload. -/
def RoundTrip (mtu : ℕ) (storage : Bytes) (cfg : Config) (frameNo : ℕ) (c : Chain) : Prop :=
  ∃ cs nf f s d, pushAll mtu storage frameNo c = .ok (cs, nf) ∧ Emitted f cs ∧
    (cs.map fun c ↦ Input.datagram c.bufs).foldlM (fun s i ↦ receive i s) (new cfg) = .ok s ∧
    s.pushed = [d] ∧ payload (BufChain.bytes d) = (BufChain.bytes c.bufs).drop HEADER_SIZE

theorem parse_vers {p : Bytes} {n : ℕ} (h : CAxisFrameHeader.parse p n = some hdr) : hdr.vers = 0 := by
  rw [parse_of_le p (parse_size h)] at h
  split_ifs at h with hv
  obtain rfl := Option.some.inj h
  exact of_not_not hv

theorem Sendable.start {c : Chain} (h : Sendable mtu c) : ∃ b bs hdr, Start 0 hdr b b bs c ∧
    hdr.vers = 0 ∧ hdr.frameNo < 4096 ∧ hdr.fragNo = 0 ∧ fitsInMTU mtu (0 + b.getSize) = true ∧
      ∀ x ∈ bs, fitsInMTU mtu (HEADER_SIZE + x.getSize) = true := by
  obtain ⟨b, bs, hdr, hb, hsize, hp, hfg, hfit, hfits⟩ := h.header
  have hok := h.ok
  rw [hb] at hok
  refine ⟨b, bs, hdr, ⟨hb, h.sized, hok, (Nat.zero_add _).symm, rfl, hsize, hp, Nat.zero_le _,
    hok b List.mem_cons_self, rfl⟩, parse_vers hp, (parse_frameNo_lt hp).1, hfg, ?_, hfits⟩
  rwa [Nat.zero_add]

theorem pushAll_error (hst : (Buf.getBuf storage).Ok) (hroom : Buf.HEADROOM < storage.length)
    (h : Sendable mtu c) (hr : ¬RoomFor mtu 0 (pieces mtu c.bufs.length 0 c.bufs)) :
    ∃ e, pushAll mtu storage frameNo c = .error e := by
  obtain ⟨b, bs, hdr, hs, hv, hfr, hfg, hfit, hfits⟩ := h.start
  have hcount := h.count
  unfold pushAll
  rw [hs.bufs] at hr hcount ⊢
  refine (pushLoop_spec frameNo hst hroom (b :: bs).length (Nat.lt_succ_self _) hs hv hfr ?_ hfit hfits).2 hr
  rw [hfg, Nat.zero_add]
  exact hcount

theorem roundTrip_of_room (hst : (Buf.getBuf storage).Ok) (hroom : Buf.HEADROOM < storage.length)
    (cfg : Config) (h : Sendable mtu c) (hr : RoomFor mtu 0 (pieces mtu c.bufs.length 0 c.bufs)) :
    RoundTrip mtu storage cfg frameNo c := by
  obtain ⟨b, bs, hdr, hs, hv, hfr, hfg, hfit, hfits⟩ := h.start
  have hcount := h.count
  rw [hs.bufs] at hr hcount
  obtain ⟨cs, xs, nf, hpush, hsent, hlen, hflat⟩ :=
    (pushLoop_spec frameNo hst hroom (b :: bs).length (Nat.lt_succ_self _) hs hv hfr
      (by rw [hfg, Nat.zero_add]; exact hcount) hfit hfits).1 hr
  obtain ⟨hv', hfr', hfg'⟩ := sendHeader_valid frameNo hv hfr
  obtain ⟨hcl, hget⟩ := hsent.get
  let hdr₀ := sendHeader frameNo hdr
  let ps : List Bytes := xs.mapIdx fun j x ↦ packet (followHeader^[j] hdr₀) x (j + 1 == xs.length)
  have hps : Fragments hdr₀.frameNo ps := by
    refine fragments_packets hfr' (fun j ↦ followHeader^[j] hdr₀) (fun j _ ↦ ?_) (by omega)
    obtain ⟨h₁, h₂, h₃⟩ := iterate_followHeader j hdr₀
    refine ⟨h₁.trans hv', h₂, h₃.trans ?_⟩
    rw [hfg', hfg, Nat.zero_add]
  have hpl : ps.length = xs.length := List.length_mapIdx
  have hcarries : ∀ (j : ℕ) (c : Chain) (p : Bytes), cs[j]? = some c → ps[j]? = some p →
      c.Sized ∧ Carries c.bufs p := by
    intro j c p hj hp
    rw [List.getElem?_mapIdx] at hp
    obtain ⟨x, hx, rfl⟩ := Option.map_eq_some_iff.1 hp
    exact hget j c x hj hx
  have hne : xs ≠ [] := by
    intro hn
    rw [hn] at hsent
    cases hsent
  have hpos := List.length_pos_of_ne_nil hne
  have hmap : (cs.map Chain.bufs).length = ps.length := by
    rw [List.length_map, hcl, hpl]
  obtain ⟨s, hfold, hcase⟩ := inSequence_run cfg hps hfr' (cs.map Chain.bufs) hmap.le
    (by rw [hmap, hpl, hlen]; exact hcount)
    (fun hn ↦ by rw [hn, hpl] at hmap; exact absurd hmap.symm (by simpa using hpos.ne'))
    (fun j bc p hj hp ↦ by
      rw [List.getElem?_map] at hj
      obtain ⟨c', hc', rfl⟩ := Option.map_eq_some_iff.1 hj
      exact (hcarries j c' p hc' hp).2)
  rw [if_pos (.inl hmap)] at hcase
  obtain ⟨d, hd, hbytes⟩ := hcase
  refine ⟨cs, nf, hdr₀.frameNo, s, d, ?_, fun i c' hc' ↦ ?_, ?_, hd, ?_⟩
  · unfold pushAll
    rw [hs.bufs]
    exact hpush
  · have hi : i < ps.length := by
      rw [hpl, ← hcl]
      exact (List.getElem?_eq_some_iff.1 hc').1
    have hp : ps[i]? = some ps[i] := List.getElem?_eq_getElem hi
    obtain ⟨hsz, hc⟩ := hcarries i c' _ hc' hp
    have hlong := hps.long _ (List.mem_of_getElem? hp)
    obtain ⟨bh, rest, hb, -⟩ := hc.cons hlong
    obtain ⟨hdr', hparse, hfr'', hfg''⟩ := hps.header i _ hp
    refine ⟨bh, rest, hdr', hb, ?_, hfr'', hfg'', ?_, hsz⟩
    · rw [hb] at hc
      rw [hc.parse]
      exact hparse
    · rw [hc.tailEOF hlong, hps.eof i _ hp, hpl, hcl]
  · rw [List.map_map] at hfold
    exact hfold
  · have hpne : ps ≠ [] := by
      intro hn
      rw [hn] at hpl
      exact absurd hpl.symm (by simpa using hpos.ne')
    rw [hbytes, hmap, assembled_length hpne, content_packets _ hne, hs.bufs, hflat]
    exact payload_packet

/-- A chain makes the round trip if and only if there is room for every header and every tail: each
buffer with which a further fragment starts has eight bytes before its payload, and the last buffer
of each fragment has a byte after it, unless it would not fit the MTU then. -/
theorem roundTrip_iff (cfg : Config) (hst : (Buf.getBuf storage).Ok)
    (hroom : Buf.HEADROOM < storage.length) (h : Sendable mtu c) :
    RoundTrip mtu storage cfg frameNo c ↔ RoomFor mtu 0 (pieces mtu c.bufs.length 0 c.bufs) := by
  constructor
  · rintro ⟨cs, nf, f, s, d, hpush, -⟩
    by_contra hr
    obtain ⟨e, he⟩ := pushAll_error frameNo hst hroom h hr
    rw [hpush] at he
    cases he
  · exact roundTrip_of_room frameNo hst hroom cfg h

/-- A buffer of `n` bytes, the first of which are those of a header, at the offset `beg`. -/
def sample (beg n : ℕ) : Buf :=
  { data := List.replicate (beg + n + 1) 0, beg := beg, fin := beg + n }

theorem sample_ok {beg n : ℕ} (h : beg + n + 1 < 2 ^ 16) : (sample beg n).Ok := by
  have hl : (List.replicate (beg + n + 1) (0 : UInt8)).length = beg + n + 1 := List.length_replicate
  refine ⟨Nat.le_add_right _ _, ?_, ?_⟩
  · change beg + n ≤ (List.replicate (beg + n + 1) (0 : UInt8)).length
    omega
  · change (List.replicate (beg + n + 1) (0 : UInt8)).length < 2 ^ 16
    omega

/-- Two buffers that do not fit the MTU together, the second one with or without headroom. -/
def sampleChain (beg : ℕ) : Chain := { bufs := [sample 0 600, sample beg 600], size := 1200 }

theorem pieces_sampleChain (beg : ℕ) : pieces 1024 2 0 (sampleChain beg).bufs =
    [[sample 0 600], [sample beg 600]] := by
  have hs : ∀ k, (sample k 600).getSize = 600 := fun k ↦ Nat.add_sub_cancel_left _ _
  have h₁ : fitsInMTU 1024 (0 + total (sampleChain beg).bufs) = false := by
    rw [show total (sampleChain beg).bufs = 1200 by simp [sampleChain, hs]]
    rfl
  have h₂ : cut 1024 0 (sampleChain beg).bufs = ([sample 0 600], [sample beg 600]) := by
    simp only [sampleChain, cut, hs]
    rfl
  have h₃ : fitsInMTU 1024 (HEADER_SIZE + total [sample beg 600]) = true := by
    rw [total_cons, hs]
    rfl
  unfold pieces
  rw [h₁, h₂]
  unfold pieces
  rw [h₃]
  rfl

theorem sendable_sampleChain {beg : ℕ} (hbeg : beg < 1000) : Sendable 1024 (sampleChain beg) := by
  have hs : ∀ k, (sample k 600).getSize = 600 := fun k ↦ Nat.add_sub_cancel_left _ _
  have hp : ∃ hdr, CAxisFrameHeader.parse (sample 0 600).getPayload (sample 0 600).getSize = some hdr ∧
      hdr.fragNo = 0 := by
    rw [parse_take _ (by rw [hs]; decide)]
    exact ⟨⟨⟨0, 0, 0, 0, 0⟩, 0⟩, by decide +kernel, rfl⟩
  obtain ⟨hdr, hp, hfg⟩ := hp
  refine ⟨?_, fun x hx ↦ ?_, ⟨_, _, hdr, rfl, ?_, hp, hfg, ?_, fun x hx ↦ ?_⟩, ?_⟩
  · simp [Chain.Sized, sampleChain, hs]
  · simp only [sampleChain, List.mem_cons, List.not_mem_nil, or_false] at hx
    rcases hx with rfl | rfl
    · exact sample_ok (by decide)
    · exact sample_ok (by omega)
  · rw [hs]
    decide
  · rw [hs]
    rfl
  · obtain rfl := List.mem_singleton.1 hx
    rw [hs]
    rfl
  · change (pieces 1024 2 0 (sampleChain beg).bufs).length < 2 ^ 24
    rw [pieces_sampleChain]
    change 2 < 2 ^ 24
    decide

theorem roundTrip_iff_sample : RoundTrip 1024 (List.replicate 1968 0) rssiConfig 7 (sampleChain 32) ↔
    RoomFor 1024 0 (pieces 1024 2 0 (sampleChain 32).bufs) := by
  refine roundTrip_iff 7 rssiConfig ⟨le_rfl, ?_, ?_⟩ ?_ (sendable_sampleChain (by decide))
  · change 32 ≤ (List.replicate 1968 (0 : UInt8)).length
    rw [List.length_replicate]
    decide
  · change (List.replicate 1968 (0 : UInt8)).length < 2 ^ 16
    rw [List.length_replicate]
    decide
  · rw [List.length_replicate]
    decide

/-- The second buffer has no room for the header: it goes to a new buffer, whose size is not set,
and the next call finds no header. -/
theorem not_roundTrip_noHeadroom : Sendable 1024 (sampleChain 0) ∧
    ¬RoundTrip 1024 (List.replicate 1968 0) rssiConfig 7 (sampleChain 0) := by
  have hsend := sendable_sampleChain (by decide : 0 < 1000)
  have hl : (List.replicate 1968 (0 : UInt8)).length = 1968 := List.length_replicate
  have hst : (Buf.getBuf (List.replicate 1968 0)).Ok := by
    refine ⟨le_rfl, ?_, ?_⟩
    · change 32 ≤ (List.replicate 1968 (0 : UInt8)).length
      omega
    · change (List.replicate 1968 (0 : UInt8)).length < 2 ^ 16
      omega
  refine ⟨hsend, ?_⟩
  rintro ⟨cs, nf, f, s, d, hpush, -⟩
  have hr : ¬RoomFor 1024 0 (pieces 1024 (sampleChain 0).bufs.length 0 (sampleChain 0).bufs) := by
    change ¬RoomFor 1024 0 (pieces 1024 2 0 (sampleChain 0).bufs)
    rw [pieces_sampleChain]
    rintro ⟨-, hr⟩
    have : 8 ≤ 0 := (hr _ List.mem_cons_self).1 _ rfl
    omega
  obtain ⟨e, he⟩ := pushAll_error 7 hst (by rw [hl]; decide) hsend hr
  rw [hpush] at he
  cases he

end CProtoModDepack

end Cpsw.Depack
