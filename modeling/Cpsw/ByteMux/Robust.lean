import Cpsw.ByteMux.Demux
import Cpsw.TDest.Fragment

namespace Cpsw.ByteMux

open Depack Lib Lib.Throw TDest

/-- `b'` is a stretch of the payload of `b`. -/
structure Part (b' b : Buf) : Prop where
  data : b'.data = b.data
  beg : b.beg ≤ b'.beg
  le : b'.beg ≤ b'.fin
  fin : b'.fin ≤ b.fin

/-- The first buffer holds a header of the protocol. -/
def ValidHeader (L : Layout) (bc : BufChain) : Prop :=
  ∃ b ∈ bc.head?, HEADER_SIZE ≤ b.getSize ∧
    getNum VERSION_BIT_OFFSET VERSION_BIT_SIZE b.getPayload = L.VERSION

/-- The last buffer is not empty, also without the header. -/
def HasTail (bc : BufChain) : Prop :=
  (bc.length = 1 → ∀ b ∈ bc.head?, HEADER_SIZE < b.getSize) ∧ ∀ t ∈ bc.getLast?, 0 < t.getSize

/-- The last buffer holds the whole tail; or the one before it does not hold what is missing, or
has no more bytes than the last one. -/
def TailInside (bc : BufChain) : Prop :=
  ∀ t prev, bc.reverse = t :: prev → TAIL_SIZE ≤ t.getSize ∨
    ∃ p ∈ prev.head?, p.getSize + t.getSize < TAIL_SIZE ∨ p.getSize ≤ t.getSize

namespace Kind

/-- Where the number of the channel is in a datagram. -/
def position : Kind → ℕ
  | tdest => axis.TDEST_BIT_OFFSET / 8
  | tdest2 => depack2.TDEST_BIT_OFFSET / 8
  | srp v => v.vcOff.getD 0

/-- The buffers that a port has in what it has passed on and in what it assembles. -/
def held : (k : Kind) → k.Port → List Buf
  | tdest, (p : CTDestPort) => p.pushed.flatten
  | tdest2, (p : CTDestPort2) => p.pushed.flatten ++ p.assembleBuffer.getD []
  | srp _, (p : CSRPPort) => p.pushed.flatten

def Malformed : Kind → BufChain → Prop
  | tdest, bc => ¬ValidHeader axis bc
  | tdest2, bc => ¬ValidHeader depack2 bc ∨ total bc < HEADER_SIZE + TAIL_SIZE ∨
      (∀ t ∈ bc.getLast?, TAIL_SIZE ≤ t.getSize) ∧
        CDepack2Header.parseNumLanes (tailBytes bc.bytes) = none
  | srp v, bc => ∀ off ∈ v.vcOff, total bc ≤ off

/-- The port of the channel that the datagram names gets it, and nothing else happens. -/
structure Handled (k : Kind) (ds ds' : k.Downstream) (bc : BufChain) (log : List Access) :
    Prop where
  reads : ∀ a ∈ log, a.buf ∈ bc ∧ a.off + a.len ≤ a.buf.getSize
  dropped : (∀ c, bc.bytes[k.position]? = some c → ds c = none) → ds' = ds
  handed : ∀ c p, bc.bytes[k.position]? = some c → ds c = some p → ∃ p' log log',
    (k.pushDownstream bc p).exec log = (.ok p', log') ∧ ds' = Function.update ds c (some p')
  parts : ∀ c p', ds' c = some p' → ∀ b' ∈ k.held p',
    (∃ p, ds c = some p ∧ b' ∈ k.held p) ∨ ∃ b ∈ bc, Part b' b
  malformed : k.Malformed bc → ds' = ds

/-- No exception ends the thread while it takes the datagrams one after the other, and each of them is
handled. -/
def Robust (k : Kind) : k.Downstream → List BufChain → Prop
  | _, [] => True
  | ds, bc :: bcs => ∃ ds' log, (k.pushDown ds bc).exec [] = (.ok ds', log) ∧
      k.Handled ds ds' bc log ∧ k.Robust ds' bcs

/-- What the code expects of a datagram. -/
def Expected : (k : Kind) → k.Downstream → BufChain → Prop
  | tdest, ds, bc => ValidHeader axis bc ∧ ∀ c (p : CTDestPort),
      bc.bytes[tdest.position]? = some c → ds c = some p → p.stripHeader = true → HasTail bc
  | tdest2, ds, bc => ValidHeader depack2 bc ∧ ∀ c (p : CTDestPort2),
      bc.bytes[tdest2.position]? = some c → ds c = some p →
        total bc < HEADER_SIZE + TAIL_SIZE ∨ TailInside bc
  | srp v, _, _ => v ≠ .SRP_UDP_NONE

end Kind

variable {L : Layout} {bc : BufChain} {b : Buf} {rest : BufChain} {log : List Access}

theorem exec_load_eq {off len : ℕ} : (load b off len).exec log =
    (if ((b.getPayload.drop off).take len).length < len then .error (.port .outOfStorage)
      else .ok ((b.getPayload.drop off).take len), log ++ [⟨b, off, len⟩]) := by
  unfold load note
  simp only [exec_bind, exec_modify]
  split_ifs <;> rfl

theorem exec_load {off len : ℕ} (hb : b.Ok) (h : off + len ≤ b.getSize) :
    (load b off len).exec log =
      (.ok ((b.getPayload.drop off).take len), log ++ [⟨b, off, len⟩]) := by
  have hl := hb.getPayload_length
  rw [exec_load_eq, if_neg]
  rw [List.length_take, List.length_drop]
  omega

theorem exec_parseVersion (hb : b.Ok) (h : 0 < b.getSize) : (parseVersion b).exec log =
    (.ok (getNum VERSION_BIT_OFFSET VERSION_BIT_SIZE b.getPayload), log ++ [⟨b, 0, 1⟩]) := by
  unfold parseVersion
  rw [exec_bind, exec_load hb h]
  simp only [List.drop_zero, exec_pure]
  rw [getNum_take _ (by decide)]

/-- The destination is read from a valid header, and from no other. -/
theorem exec_parseTDest (rest : BufChain) (log : List Access) (hb : b.Ok) (hL : L.TDEST_BIT_OFFSET / 8 < HEADER_SIZE) :
    (ValidHeader L (b :: rest) ∧ (parseTDest L b).exec log =
      (.ok (b.getPayload.getD (L.TDEST_BIT_OFFSET / 8) 0),
        log ++ [⟨b, 0, 1⟩] ++ [⟨b, L.TDEST_BIT_OFFSET / 8, 1⟩])) ∨
    (¬ValidHeader L (b :: rest) ∧ ∃ e log', (parseTDest L b).exec log = (.error e, log')) := by
  unfold parseTDest
  by_cases h0 : b.getSize = 0
  · right
    refine ⟨?_, ?_⟩
    · rintro ⟨b', hb', hs, -⟩
      cases hb'
      rw [h0] at hs
      exact absurd hs (by decide)
    · rw [exec_bind]
      rcases (parseVersion b).exec log with ⟨e | v, log'⟩
      · exact ⟨e, log', rfl⟩
      · refine ⟨.port .invalidHeader, log', ?_⟩
        have hlt : b.getSize < HEADER_SIZE := h0 ▸ (by decide)
        simp only [if_pos (Or.inr hlt), exec_throw]
  · rw [exec_bind, exec_parseVersion hb (Nat.pos_of_ne_zero h0)]
    dsimp only
    by_cases hv : getNum VERSION_BIT_OFFSET VERSION_BIT_SIZE b.getPayload ≠ L.VERSION ∨
        b.getSize < HEADER_SIZE
    · right
      refine ⟨?_, ?_⟩
      · rintro ⟨b', hb', hs, hver⟩
        cases hb'
        rcases hv with hv | hv
        · exact hv hver
        · omega
      · rw [if_pos hv]
        exact ⟨_, _, rfl⟩
    · left
      push Not at hv
      refine ⟨⟨b, rfl, hv.2, hv.1⟩, ?_⟩
      rw [if_neg (by push Not; exact hv), exec_bind, exec_load hb (by omega)]
      simp only [exec_pure, List.getD_eq_getElem?_getD, List.headD_eq_head?_getD, List.head?_take,
        List.head?_drop]
      rfl

/-- The byte at the position of the destination. -/
theorem bytes_getElem {off : ℕ} (hb : b.Ok) (h : off < b.getSize) :
    (BufChain.bytes (b :: rest))[off]? = some (b.getPayload.getD off 0) := by
  have hl := hb.content_length
  have hp := hb.getPayload_length
  have hbytes : BufChain.bytes (b :: rest) = b.content ++ BufChain.bytes rest := by
    simp [BufChain.bytes]
  rw [hbytes, List.getElem?_append_left (by omega), Buf.content, List.getElem?_take, if_pos h,
    List.getElem?_eq_getElem (by omega), List.getD_eq_getElem?_getD,
    List.getElem?_eq_getElem (by omega)]
  rfl

theorem exec_extractTDest (hr : Received bc) (hL : L.TDEST_BIT_OFFSET / 8 < HEADER_SIZE) :
    (ValidHeader L bc ∧ ∃ c b, bc.bytes[L.TDEST_BIT_OFFSET / 8]? = some c ∧ bc.head? = some b ∧
      (extractTDest L bc).exec [] =
        (.ok (some c), [⟨b, 0, 1⟩, ⟨b, L.TDEST_BIT_OFFSET / 8, 1⟩])) ∨
    (¬ValidHeader L bc ∧ ∃ e log, (extractTDest L bc).exec [] = (.error e, log)) := by
  cases bc with
  | nil => exact absurd rfl hr.ne
  | cons b rest =>
    have hb := hr.ok b List.mem_cons_self
    unfold extractTDest
    rcases exec_parseTDest rest [] hb hL with ⟨hv, he⟩ | ⟨hv, e, log, he⟩
    · left
      obtain ⟨b', hb', hs, -⟩ := id hv
      cases hb'
      refine ⟨hv, _, b, bytes_getElem hb (by omega), rfl, ?_⟩
      rw [exec_bind, he]
      rfl
    · right
      refine ⟨hv, e, log, ?_⟩
      rw [exec_bind, he]

namespace Kind

variable {k : Kind} {ds ds' : k.Downstream} {c : UInt8}

theorem exec_pushDown (h : (k.extractDest bc).exec [] = (.ok (some c), log)) :
    (k.pushDown ds bc).exec [] =
      match ds c with
      | none => (.ok ds, log)
      | some p =>
        match (k.pushDownstream bc p).exec log with
        | (.ok p', log) => (.ok (Function.update ds c (some p')), log)
        | (.error e, log) => (.error e, log) := by
  unfold pushDown
  rw [exec_bind, h]
  dsimp only
  cases ds c with
  | none => rfl
  | some p =>
    dsimp only
    rw [exec_bind]
    rcases (k.pushDownstream bc p).exec log with ⟨_ | p', log'⟩ <;> rfl

theorem exec_pushDown_error {e : MuxError} (h : (k.extractDest bc).exec [] = (.error e, log)) :
    (k.pushDown ds bc).exec [] = (.error e, log) := by
  unfold pushDown
  rw [exec_bind, h]

end Kind

theorem part_refl (h : b.beg ≤ b.fin) : Part b b := ⟨rfl, le_rfl, h, le_rfl⟩

/-- The buffer that is left when the header is stripped. -/
theorem adjPayload_header (h : HEADER_SIZE ≤ b.getSize) :
    b.adjPayload (HEADER_SIZE : ℕ) = some { b with beg := b.beg + HEADER_SIZE } := by
  unfold Buf.adjPayload
  rw [if_neg]
  · congr 2
  · omega

/-- The tail is stripped from the last buffer of what is left without the header. -/
theorem hasTail_iff {init : BufChain} {t : Buf}
    (ht : { b with beg := b.beg + HEADER_SIZE } :: rest = init ++ [t])
    (h : HEADER_SIZE ≤ b.getSize) : HasTail (b :: rest) ↔ 0 < t.getSize := by
  cases rest using List.reverseRecOn with
  | nil =>
    have htb : t = { b with beg := b.beg + HEADER_SIZE } := by
      cases init with
      | nil => simpa using ht.symm
      | cons x xs => simp at ht
    subst htb
    simp only [HasTail, Buf.getSize] at h ⊢
    constructor
    · intro hh
      have := hh.1 rfl b rfl
      omega
    · intro hh
      refine ⟨?_, ?_⟩
      · rintro - b' hb'
        cases hb'
        omega
      · intro b' hb'
        obtain rfl : b = b' := by simpa using hb'
        omega
  | append_singleton rest x =>
    obtain ⟨-, hx⟩ := List.append_inj'
      (show ({ b with beg := b.beg + HEADER_SIZE } :: rest) ++ [x] = init ++ [t] from ht) rfl
    cases hx
    rw [HasTail, ← List.cons_append, List.getLast?_concat]
    constructor
    · intro hh
      exact hh.2 t rfl
    · intro hh
      refine ⟨?_, ?_⟩
      · intro hlen
        simp at hlen
      · intro b' hb'
        cases hb'
        exact hh

theorem exec_strip {p : CTDestPort} {init : BufChain} {t : Buf} (hr : Received (b :: rest))
    (hv : ValidHeader axis (b :: rest)) (hs : p.stripHeader = true)
    (ht : { b with beg := b.beg + HEADER_SIZE } :: rest = init ++ [t]) :
    (p.pushDownstream (b :: rest)).exec log =
      match t.setSize ((t.getSize : ℤ) - 1) with
      | .error e => (.error (.port (.buf e)), log ++ [⟨b, 0, 1⟩] ++ [⟨b, 0, 1⟩])
      | .ok t => (.ok { p with pushed := p.pushed ++ [init ++ [t]] },
          log ++ [⟨b, 0, 1⟩] ++ [⟨b, 0, 1⟩]) := by
  obtain ⟨b', hb', hsize, hver⟩ := hv
  cases hb'
  have hb := hr.ok b List.mem_cons_self
  have hpos : 0 < b.getSize := Nat.lt_of_lt_of_le (by decide) hsize
  unfold CTDestPort.pushDownstream parseHeaderSize parseTailSize
  rw [if_pos hs]
  simp only [exec_bind, exec_parseVersion hb hpos, hver, ne_eq, not_true_eq_false, if_false,
    exec_pure, adjPayload_header hsize, Option.getD_some, ht, List.getLast?_concat,
    List.dropLast_concat]
  have htail : (axis.TAIL_SIZE : ℤ) = 1 := rfl
  rw [htail]
  cases t.setSize ((t.getSize : ℤ) - 1) <;> rfl

/-- The size of an empty last buffer wraps around. -/
theorem setSize_wraps {t t' : Buf} (ht : t.Ok) (h : t.getSize = 0)
    (hs : t.setSize ((t.getSize : ℤ) - 1) = .ok t') : t'.fin < t'.beg := by
  have hcapa := ht.capa
  have hfits := ht.fits
  have hle := ht.le
  unfold Buf.setSize at hs
  rw [h] at hs
  dsimp only at hs
  split_ifs at hs with hc
  cases hs
  dsimp only
  omega

/-- What the port of the first kind does with a datagram that has a valid header: it takes a part of
it, unless there is no tail to strip. -/
theorem tdest_push {p : CTDestPort} (hr : Received bc) (hv : ValidHeader axis bc) :
    ((p.stripHeader = true → HasTail bc) ∧ ∃ bc' log',
      (p.pushDownstream bc).exec log = (.ok { p with pushed := p.pushed ++ [bc'] }, log ++ log') ∧
        (∀ b' ∈ bc', ∃ b ∈ bc, Part b' b) ∧
        ∀ a ∈ log', a.buf ∈ bc ∧ a.off + a.len ≤ a.buf.getSize) ∨
    (¬(p.stripHeader = true → HasTail bc) ∧
      ∀ p' log', (p.pushDownstream bc).exec log = (.ok p', log') →
        ∃ b' ∈ p'.pushed.flatten, b'.fin < b'.beg) := by
  by_cases hs : p.stripHeader = true
  swap
  · left
    refine ⟨fun h ↦ absurd h hs, bc, [], ?_, ?_, nofun⟩
    · unfold CTDestPort.pushDownstream
      rw [if_neg hs, List.append_nil]
      rfl
    · intro b hb
      exact ⟨b, hb, part_refl (hr.ok b hb).le⟩
  · cases bc with
    | nil => exact absurd rfl hr.ne
    | cons b rest =>
      obtain ⟨b', hb', hsize, -⟩ := id hv
      cases hb'
      have hb := hr.ok b List.mem_cons_self
      have hpos : 0 < b.getSize := Nat.lt_of_lt_of_le (by decide) hsize
      obtain ⟨init, t, ht⟩ : ∃ init t,
          { b with beg := b.beg + HEADER_SIZE } :: rest = init ++ [t] :=
        ⟨_, _, (List.dropLast_concat_getLast (List.cons_ne_nil _ _)).symm⟩
      have hheader : ({ b with beg := b.beg + HEADER_SIZE } : Buf).Ok ∧
          Part { b with beg := b.beg + HEADER_SIZE } b := by
        have hle := hb.le
        unfold Buf.getSize at hsize
        have hbeg : b.beg + HEADER_SIZE ≤ b.fin := by omega
        exact ⟨⟨hbeg, hb.fits, hb.capa⟩, rfl, Nat.le_add_right _ _, hbeg, le_rfl⟩
      have hparts : ∀ x ∈ init ++ [t], x.Ok ∧ ∃ y ∈ b :: rest, Part x y := by
        rw [← ht]
        intro x hx
        rcases List.mem_cons.1 hx with rfl | hx
        · exact ⟨hheader.1, b, List.mem_cons_self, hheader.2⟩
        · have hxok := hr.ok x (List.mem_cons_of_mem b hx)
          exact ⟨hxok, x, List.mem_cons_of_mem b hx, part_refl hxok.le⟩
      obtain ⟨htok, y, hy, hty⟩ := hparts t (by simp)
      rw [hasTail_iff ht hsize, exec_strip hr hv hs ht]
      by_cases htail : 0 < t.getSize
      · left
        rw [htok.setSize_pred htail]
        refine ⟨fun _ ↦ htail, init ++ [{ t with fin := t.fin - 1 }], [⟨b, 0, 1⟩, ⟨b, 0, 1⟩],
          by simp, ?_, ?_⟩
        · intro x hx
          rcases List.mem_append.1 hx with hx | hx
          · exact (hparts x (List.mem_append_left _ hx)).2
          · rw [List.mem_singleton] at hx
            subst hx
            unfold Buf.getSize at htail
            refine ⟨y, hy, hty.data, hty.beg, ?_, Nat.le_trans (Nat.sub_le _ _) hty.fin⟩
            dsimp only
            omega
        · intro a ha
          have ha : a = ⟨b, 0, 1⟩ := by simpa using ha
          subst ha
          exact ⟨List.mem_cons_self, hpos⟩
      · right
        refine ⟨fun h ↦ htail (h hs), ?_⟩
        intro p' log' h
        cases hset : t.setSize ((t.getSize : ℤ) - 1) with
        | error e =>
          rw [hset] at h
          cases h
        | ok t' =>
          rw [hset] at h
          cases h
          exact ⟨t', by simp, setSize_wraps htok (Nat.eq_zero_of_not_pos htail) hset⟩

/-- What `notedParse` and `notedTail` read. -/
def headAccesses (b : Buf) : List Access :=
  (if 1 ≤ b.getSize then [⟨b, 0, 1⟩] else []) ++
    if (CDepack2Header.parse b.getPayload b.getSize).isSome then [⟨b, 0, HEADER_SIZE⟩] else []

def tailAccesses (bc : BufChain) : List Access :=
  match bc.reverse with
  | [] => []
  | t :: prev =>
    let prevcpy := TAIL_SIZE - min TAIL_SIZE t.getSize
    ⟨t, t.getSize - min TAIL_SIZE t.getSize, min TAIL_SIZE t.getSize⟩ ::
      if prevcpy > 0 then
        match prev with
        | [] => []
        | p :: _ => if p.getSize < prevcpy then [] else [⟨t, p.getSize - prevcpy, prevcpy⟩]
      else []

theorem exec_notedParse : (notedParse b).exec log =
    (.ok (CDepack2Header.parse b.getPayload b.getSize), log ++ headAccesses b) := by
  unfold notedParse headAccesses note
  by_cases h₁ : 1 ≤ b.getSize
  · cases h₂ : (CDepack2Header.parse b.getPayload b.getSize).isSome <;>
      simp [exec_bind, h₁, h₂, -bind_pure_comp]
  · cases h₂ : (CDepack2Header.parse b.getPayload b.getSize).isSome <;>
      simp [exec_bind, h₁, h₂, -bind_pure_comp]

theorem exec_notedTail (hr : Received bc) : (notedTail bc).exec log =
    ((CTDestPort2.readTail bc).mapError .port, log ++ tailAccesses bc) := by
  unfold notedTail CTDestPort2.readTail tailAccesses
  cases hbc : bc.reverse with
  | nil => exact absurd (List.reverse_eq_nil_iff.1 hbc) hr.ne
  | cons t prev =>
    have ht : t.Ok := hr.ok t (List.mem_reverse.1 (hbc ▸ List.mem_cons_self))
    have hle : t.getSize - min TAIL_SIZE t.getSize + min TAIL_SIZE t.getSize ≤ t.getSize := by omega
    dsimp only
    rw [exec_bind, exec_load ht hle]
    dsimp only
    split_ifs with hprev
    · cases prev with
      | nil => rfl
      | cons p prev =>
        dsimp only
        split_ifs with hp hshort
        · rfl
        · rw [exec_bind, exec_load_eq, if_pos hshort]
          simp [Except.mapError]
        · rw [exec_bind, exec_load_eq, if_neg hshort]
          simp [Except.mapError]
    · rfl

/-- The port does what it does without the record of what it reads. -/
theorem exec_pushDownstream2 {s : CTDestPort2} (log : List Access) (hr : Received bc) :
    ∃ accesses, (pushDownstream2 bc s).exec log =
        ((s.pushDownstream bc).mapError .port, log ++ accesses) ∧
      ∀ b ∈ bc.head?, accesses = headAccesses b ++
        if (CDepack2Header.parse b.getPayload b.getSize).isSome ∧
          HEADER_SIZE + TAIL_SIZE ≤ total bc then tailAccesses bc else [] := by
  cases bc with
  | nil => exact absurd rfl hr.ne
  | cons b rest =>
    refine ⟨_, ?_, fun b' hb' ↦ by cases hb'; rfl⟩
    unfold pushDownstream2 CTDestPort2.pushDownstream
    rw [exec_bind, exec_notedParse]
    dsimp only
    cases hh : CDepack2Header.parse b.getPayload b.getSize with
    | none => simp [Except.mapError]
    | some hdr =>
      dsimp only
      by_cases hsize : HEADER_SIZE + TAIL_SIZE > total (b :: rest)
      · rw [if_pos hsize, if_pos hsize, if_neg (by omega)]
        simp [Except.mapError]
      · rw [if_neg hsize, if_neg hsize, if_pos ⟨rfl, Nat.le_of_not_lt hsize⟩, exec_bind,
          exec_notedTail hr]
        cases CTDestPort2.readTail (b :: rest) with
        | error e => simp [Except.mapError]
        | ok tail =>
          cases tail with
          | none => simp [Except.mapError]
          | some tail =>
            simp only [Except.mapError]
            cases CDepack2Header.parseNumLanes tail with
            | none => simp
            | some numLanes =>
              dsimp only
              rcases s.strip _ _ numLanes (b :: rest) with e | _ | bc' <;> simp

theorem headAccesses_within (hs : HEADER_SIZE ≤ b.getSize) : ∀ a ∈ headAccesses b,
    a.buf = b ∧ a.off + a.len ≤ a.buf.getSize := by
  have hpos : 1 ≤ b.getSize := Nat.le_trans (by decide) hs
  unfold headAccesses
  intro a ha
  rcases List.mem_append.1 ha with ha | ha
  · rw [if_pos hpos, List.mem_singleton] at ha
    subst ha
    exact ⟨rfl, hpos⟩
  · split_ifs at ha
    · rw [List.mem_singleton] at ha
      subst ha
      refine ⟨rfl, ?_⟩
      rw [Nat.zero_add]
      exact hs
    · cases ha

/-- The tail is read from the datagram exactly if it lies as the code expects it. -/
theorem tailAccesses_iff (hr : Received bc) (hsize : HEADER_SIZE + TAIL_SIZE ≤ total bc) :
    (∀ a ∈ tailAccesses bc, a.buf ∈ bc ∧ a.off + a.len ≤ a.buf.getSize) ↔ TailInside bc := by
  have htot : total bc.reverse = total bc := by simp [total]
  have h8 : TAIL_SIZE = 8 := rfl
  unfold tailAccesses TailInside
  cases hbc : bc.reverse with
  | nil => exact absurd (List.reverse_eq_nil_iff.1 hbc) hr.ne
  | cons t prev =>
    have ht : t ∈ bc := List.mem_reverse.1 (hbc ▸ List.mem_cons_self)
    rw [hbc] at htot
    have hmin : t.getSize - min TAIL_SIZE t.getSize + min TAIL_SIZE t.getSize ≤ t.getSize := by omega
    dsimp only
    constructor
    · intro h t' prev' htp
      cases htp
      by_cases h₁ : TAIL_SIZE ≤ t.getSize
      · exact .inl h₁
      · right
        cases prev with
        | nil =>
          rw [total_cons, total_nil] at htot
          omega
        | cons p prev =>
          refine ⟨p, rfl, ?_⟩
          by_cases h₂ : p.getSize < TAIL_SIZE - min TAIL_SIZE t.getSize
          · left
            omega
          · right
            have hmem := h ⟨t, p.getSize - (TAIL_SIZE - min TAIL_SIZE t.getSize),
              TAIL_SIZE - min TAIL_SIZE t.getSize⟩ (by
                rw [if_pos (by omega)]
                simp [h₂])
            have hle := hmem.2
            dsimp only at hle
            omega
    · intro h a ha
      rcases List.mem_cons.1 ha with rfl | ha
      · exact ⟨ht, hmin⟩
      · split_ifs at ha with h₁
        · cases prev with
          | nil => cases ha
          | cons p prev =>
            dsimp only at ha
            split_ifs at ha with h₂
            · cases ha
            · rw [List.mem_singleton] at ha
              subst ha
              refine ⟨ht, ?_⟩
              dsimp only
              rcases h t (p :: prev) rfl with h | ⟨p', hp', h⟩
              · omega
              · cases hp'
                omega
        · cases ha

theorem readTail_of_inside (hr : Received bc) (h : TailInside bc) :
    ∃ r, CTDestPort2.readTail bc = .ok r := by
  have h8 : TAIL_SIZE = 8 := rfl
  unfold CTDestPort2.readTail
  cases hbc : bc.reverse with
  | nil => exact absurd (List.reverse_eq_nil_iff.1 hbc) hr.ne
  | cons t prev =>
    have ht : t.Ok := hr.ok t (List.mem_reverse.1 (hbc ▸ List.mem_cons_self))
    have hl := ht.getPayload_length
    dsimp only
    split_ifs with h₁
    · rcases h t prev hbc with h | ⟨p, hp, h⟩
      · omega
      · cases prev with
        | nil => cases hp
        | cons p' prev =>
          cases hp
          dsimp only
          split_ifs with h₂ h₃
          · exact ⟨none, rfl⟩
          · rw [List.length_take, List.length_drop] at h₃
            omega
          · exact ⟨_, rfl⟩
    · exact ⟨_, rfl⟩

theorem trimLoop_parts {n : ℕ} {bufs : List Buf} (hok : ∀ b ∈ bufs, b.Ok) (hn : n ≤ total bufs) :
    ∃ bufs', CTDestPort2.trimLoop n bufs = .ok bufs' ∧ ∀ x ∈ bufs', ∃ y ∈ bufs, Part x y := by
  induction bufs generalizing n with
  | nil =>
    obtain rfl : n = 0 := by simpa using hn
    exact ⟨[], rfl, nofun⟩
  | cons t prev ih =>
    have ht := hok t List.mem_cons_self
    have hprev : ∀ b ∈ prev, b.Ok := fun b hb ↦ hok b (List.mem_cons_of_mem t hb)
    rw [total_cons] at hn
    cases n with
    | zero => exact ⟨t :: prev, rfl, fun x hx ↦ ⟨x, hx, part_refl (hok x hx).le⟩⟩
    | succ n =>
      have hset := ht.setSize_sub (Nat.min_le_right (n + 1) t.getSize)
      obtain ⟨prev', hp, hparts⟩ := ih (n := n + 1 - min (n + 1) t.getSize) hprev (by omega)
      refine ⟨{ t with fin := t.fin - min (n + 1) t.getSize } :: prev', ?_, ?_⟩
      · simp only [CTDestPort2.trimLoop, hset, hp]
      · intro x hx
        rcases List.mem_cons.1 hx with rfl | hx
        · exact ⟨t, List.mem_cons_self, rfl, le_rfl, (ht.shrink (Nat.min_le_right _ _)).le,
            Nat.sub_le _ _⟩
        · obtain ⟨y, hy, hxy⟩ := hparts x hx
          exact ⟨y, List.mem_cons_of_mem t hy, hxy⟩

theorem Part.trans {x y z : Buf} (h : Part x y) (h' : Part y z) : Part x z :=
  ⟨h.data.trans h'.data, Nat.le_trans h'.beg h.beg, h.le, Nat.le_trans h.fin h'.fin⟩

theorem trimHead_parts (hok : ∀ x ∈ b :: rest, x.Ok) (hs : HEADER_SIZE ≤ b.getSize) :
    ∀ x ∈ CTDestPort2.trimHead (b :: rest), ∃ y ∈ b :: rest, Part x y := by
  have htrim : CTDestPort2.trimHead (b :: rest) =
      { b with beg := b.beg + HEADER_SIZE } :: rest := by
    rw [CTDestPort2.trimHead, adjPayload_header hs]
    rfl
  have hle := (hok b List.mem_cons_self).le
  unfold Buf.getSize at hs
  rw [htrim]
  intro x hx
  rcases List.mem_cons.1 hx with rfl | hx
  · refine ⟨b, List.mem_cons_self, rfl, Nat.le_add_right _ _, ?_, le_rfl⟩
    dsimp only
    omega
  · exact ⟨x, List.mem_cons_of_mem b hx, part_refl (hok x (List.mem_cons_of_mem b hx)).le⟩

variable {s : CTDestPort2}

/-- What is left without header and tail is a part of the datagram. -/
theorem strip_parts (sof eof : Bool) (numLanes : ℕ) (hok : ∀ x ∈ b :: rest, x.Ok)
    (hs : HEADER_SIZE ≤ b.getSize) : ∃ r, s.strip sof eof numLanes (b :: rest) = .ok r ∧
      ∀ bc' ∈ r, ∀ x ∈ bc', ∃ y ∈ b :: rest, Part x y := by
  unfold CTDestPort2.strip
  dsimp only
  obtain ⟨bc, hbc, hbcok, hparts⟩ : ∃ bc,
      (if s.stripHeader || !sof then CTDestPort2.trimHead (b :: rest) else b :: rest) = bc ∧
        (∀ x ∈ bc, x.Ok) ∧ ∀ x ∈ bc, ∃ y ∈ b :: rest, Part x y := by
    split_ifs
    · exact ⟨_, rfl, (CTDestPort2.trimHead_ok hok hs).1, trimHead_parts hok hs⟩
    · exact ⟨_, rfl, hok, fun x hx ↦ ⟨x, hx, part_refl (hok x hx).le⟩⟩
  rw [hbc]
  split_ifs with h₁ h₂
  · exact ⟨none, rfl, nofun⟩
  · have htot : total bc.reverse = total bc := by simp [total]
    have hrev : ∀ x ∈ bc.reverse, x.Ok := fun x hx ↦ hbcok x (List.mem_reverse.1 hx)
    obtain ⟨bufs', hb', hp⟩ := trimLoop_parts (n := 2 * TAIL_SIZE - numLanes) hrev (by omega)
    refine ⟨some bufs'.reverse, by simp [CTDestPort2.trimTail, hb', Except.map], ?_⟩
    intro bc' hbc' x hx
    cases hbc'
    obtain ⟨y, hy, hxy⟩ := hp x (List.mem_reverse.1 hx)
    obtain ⟨z, hz, hyz⟩ := hparts y (List.mem_reverse.1 hy)
    exact ⟨z, hz, hxy.trans hyz⟩
  · refine ⟨some bc, rfl, ?_⟩
    intro bc' hbc'
    cases hbc'
    exact hparts

theorem finish_held (eof : Bool) : (s.finish eof).stripHeader = s.stripHeader ∧
    ∀ x ∈ Kind.tdest2.held (s.finish eof), x ∈ Kind.tdest2.held s := by
  unfold CTDestPort2.finish
  cases hs : s.assembleBuffer with
  | none => exact ⟨rfl, fun _ ↦ id⟩
  | some c =>
    cases eof with
    | false => exact ⟨rfl, fun _ ↦ id⟩
    | true =>
      refine ⟨rfl, ?_⟩
      intro x hx
      simpa [Kind.held, hs] using hx

theorem accept_held (sof eof : Bool) (fragNo : ℕ) :
    (s.accept sof eof fragNo bc).stripHeader = s.stripHeader ∧
      ∀ x ∈ Kind.tdest2.held (s.accept sof eof fragNo bc), x ∈ Kind.tdest2.held s ∨ x ∈ bc := by
  unfold CTDestPort2.accept
  cases sof with
  | true =>
    rw [if_pos rfl]
    refine ⟨(finish_held eof).1, ?_⟩
    intro x hx
    have hx := (finish_held eof).2 x hx
    rcases List.mem_append.1 hx with hx | hx
    · exact .inl (List.mem_append_left _ hx)
    · exact .inr hx
  | false =>
    rw [if_neg (by simp)]
    cases hs : s.assembleBuffer with
    | none => exact ⟨rfl, fun _ ↦ .inl⟩
    | some c =>
      dsimp only
      split_ifs
      · refine ⟨rfl, ?_⟩
        intro x hx
        rcases List.mem_append.1 hx with hx | hx
        · exact .inl (List.mem_append_left _ hx)
        · cases hx
      · refine ⟨(finish_held eof).1, ?_⟩
        intro x hx
        have hx := (finish_held eof).2 x hx
        rcases List.mem_append.1 hx with hx | hx
        · exact .inl (List.mem_append_left _ hx)
        · rcases List.mem_append.1 hx with hx | hx
          · left
            apply List.mem_append_right
            rw [hs]
            exact hx
          · exact .inr hx

theorem parse_of_version (hs : HEADER_SIZE ≤ b.getSize)
    (hv : getNum VERSION_BIT_OFFSET VERSION_BIT_SIZE b.getPayload = depack2.VERSION) :
    ∃ hdr, CDepack2Header.parse b.getPayload b.getSize = some hdr :=
  ⟨_, (TDest.parse_of_le b.getPayload hs).trans (if_neg (not_not_intro hv))⟩

/-- What the port of the second kind does with a datagram with a valid header whose tail, if it has
one, lies as the code expects it. -/
theorem pushDownstream_inside (hr : Received bc) (hv : ValidHeader depack2 bc)
    (h : total bc < HEADER_SIZE + TAIL_SIZE ∨ TailInside bc) :
    ∃ s', s.pushDownstream bc = .ok s' ∧ s'.stripHeader = s.stripHeader ∧
      (∀ x ∈ Kind.tdest2.held s', x ∈ Kind.tdest2.held s ∨ ∃ y ∈ bc, Part x y) ∧
      (Kind.tdest2.Malformed bc → s' = s) := by
  have hsame : ∃ s', (.ok s : Except PortError CTDestPort2) = .ok s' ∧
      s'.stripHeader = s.stripHeader ∧
      (∀ x ∈ Kind.tdest2.held s', x ∈ Kind.tdest2.held s ∨ ∃ y ∈ bc, Part x y) ∧
      (Kind.tdest2.Malformed bc → s' = s) := ⟨s, rfl, rfl, fun _ ↦ .inl, fun _ ↦ rfl⟩
  cases bc with
  | nil => exact absurd rfl hr.ne
  | cons b rest =>
    obtain ⟨b', hb', hsize, hver⟩ := id hv
    cases hb'
    obtain ⟨hdr, hparse⟩ := parse_of_version hsize hver
    unfold CTDestPort2.pushDownstream
    dsimp only
    rw [hparse]
    dsimp only
    split_ifs with htot
    · exact hsame
    · obtain ⟨r, hread⟩ := readTail_of_inside hr (h.resolve_left htot)
      rw [hread]
      cases r with
      | none => exact hsame
      | some tail =>
        dsimp only
        cases hl : CDepack2Header.parseNumLanes tail with
        | none => exact hsame
        | some numLanes =>
          obtain ⟨r, hstrip, hparts⟩ := strip_parts (s := s)
            (CDepack2Header.isFirst b.getPayload) (parseTailEOF depack2 tail) numLanes hr.ok hsize
          dsimp only
          rw [hstrip]
          cases r with
          | none => exact hsame
          | some bc' =>
            refine ⟨_, rfl, (accept_held _ _ _).1, ?_, ?_⟩
            · intro x hx
              rcases (accept_held _ _ _).2 x hx with hx | hx
              · exact .inl hx
              · exact .inr (hparts bc' rfl x hx)
            · rintro (hm | hm | ⟨hm, hnone⟩)
              · exact absurd hv hm
              · exact absurd hm htot
              · exfalso
                obtain ⟨init, t, ht⟩ : ∃ init t, b :: rest = init ++ [t] :=
                  ⟨_, _, (List.dropLast_concat_getLast (List.cons_ne_nil _ _)).symm⟩
                rw [ht] at hm hread hnone
                have hok := hr.ok
                rw [ht] at hok
                rw [CTDestPort2.readTail_ok hok (hm t (List.getLast?_concat ..))] at hread
                cases hread
                rw [hl] at hnone
                cases hnone

theorem exec_extractByte {off : ℕ} (log : List Access) (hok : ∀ b ∈ bc, b.Ok) (h : off < total bc) : ∃ c a,
    (extractByte off bc).exec log = (.ok c, log ++ [a]) ∧ bc.bytes[off]? = some c ∧
      a.buf ∈ bc ∧ a.off + a.len ≤ a.buf.getSize := by
  induction bc generalizing off with
  | nil => exact absurd h (Nat.not_lt_zero _)
  | cons b rest ih =>
    have hb := hok b List.mem_cons_self
    rw [extractByte]
    split_ifs with hs
    · rw [total_cons] at h
      have hoff : off - b.getSize < total rest := by omega
      obtain ⟨c, a, he, hc, ha, hle⟩ := ih (fun x hx ↦ hok x (List.mem_cons_of_mem b hx)) hoff
      refine ⟨c, a, he, ?_, List.mem_cons_of_mem b ha, hle⟩
      have hbytes : BufChain.bytes (b :: rest) = b.content ++ BufChain.bytes rest := by
        simp [BufChain.bytes]
      rw [hbytes, List.getElem?_append_right (by rw [hb.content_length]; exact hs),
        hb.content_length]
      exact hc
    · refine ⟨_, ⟨b, off, 1⟩, ?_, bytes_getElem hb (Nat.lt_of_not_le hs), List.mem_cons_self,
        Nat.lt_of_not_le hs⟩
      rw [exec_bind, exec_load hb (Nat.lt_of_not_le hs)]
      simp only [exec_pure, List.getD_eq_getElem?_getD, List.headD_eq_head?_getD, List.head?_take,
        List.head?_drop]
      rfl

namespace Kind

variable {k : Kind} {ds ds' : k.Downstream} {c : UInt8} {p p' : k.Port}

/-- No port is attached to the channel. -/
theorem handled_none (hd : ∀ c, bc.bytes[k.position]? = some c → ds c = none)
    (hreads : ∀ a ∈ log, a.buf ∈ bc ∧ a.off + a.len ≤ a.buf.getSize) :
    k.Handled ds ds bc log where
  reads := hreads
  dropped _ := rfl
  handed c p hc hp := by
    rw [hd c hc] at hp
    cases hp
  parts c p hp b hb := .inl ⟨p, hp, hb⟩
  malformed _ := rfl

/-- The port of the channel takes the datagram. -/
theorem handled_some {log₁ log₂ : List Access} (hc : bc.bytes[k.position]? = some c)
    (hp : ds c = some p) (hpush : (k.pushDownstream bc p).exec log₁ = (.ok p', log₂))
    (hreads : ∀ a ∈ log, a.buf ∈ bc ∧ a.off + a.len ≤ a.buf.getSize)
    (hparts : ∀ x ∈ k.held p', x ∈ k.held p ∨ ∃ y ∈ bc, Part x y)
    (hm : k.Malformed bc → p' = p) :
    k.Handled ds (Function.update ds c (some p')) bc log where
  reads := hreads
  dropped hd := by
    rw [hd c hc] at hp
    cases hp
  handed c' q hc' hq := by
    cases hc.symm.trans hc'
    cases hp.symm.trans hq
    exact ⟨p', log₁, log₂, hpush, rfl⟩
  parts c' q hq x hx := by
    by_cases hcc : c' = c
    · subst hcc
      rw [Function.update_self] at hq
      cases hq
      rcases hparts x hx with h | h
      · exact .inl ⟨p, hp, h⟩
      · exact .inr h
    · rw [Function.update_of_ne hcc] at hq
      exact .inl ⟨q, hq, hx⟩
  malformed h := by
    rw [hm h, ← hp, Function.update_eq_self]

/-- A port holds nothing but stretches of buffers. -/
def Sound (k : Kind) (ds : k.Downstream) : Prop :=
  ∀ c p, ds c = some p → ∀ b ∈ k.held p, b.beg ≤ b.fin

theorem Handled.sound (h : k.Handled ds ds' bc log) (hs : k.Sound ds) : k.Sound ds' := by
  intro c p hp b hb
  rcases h.parts c p hp b hb with ⟨q, hq, hb⟩ | ⟨y, -, hy⟩
  · exact hs c q hq b hb
  · exact hy.le

/-- With the channel extracted, it is up to the port of that channel. -/
theorem step_iff_of_extract (hc : bc.bytes[k.position]? = some c)
    (he : (k.extractDest bc).exec [] = (.ok (some c), log))
    (hreads : ∀ a ∈ log, a.buf ∈ bc ∧ a.off + a.len ≤ a.buf.getSize) :
    (∃ ds' log', (k.pushDown ds bc).exec [] = (.ok ds', log') ∧ k.Handled ds ds' bc log') ↔
      ∀ c p, bc.bytes[k.position]? = some c → ds c = some p → ∃ p' log',
        (k.pushDownstream bc p).exec log = (.ok p', log') ∧
          k.Handled ds (Function.update ds c (some p')) bc log' := by
  rw [exec_pushDown he]
  cases hp : ds c with
  | none =>
    have hd : ∀ c', bc.bytes[k.position]? = some c' → ds c' = none := by
      intro c' hc'
      cases hc.symm.trans hc'
      exact hp
    constructor
    · intro _ c' p hc' hp'
      rw [hd c' hc'] at hp'
      cases hp'
    · intro _
      exact ⟨ds, log, rfl, handled_none hd hreads⟩
  | some p =>
    dsimp only
    constructor
    · rintro ⟨ds', log', he', hh⟩ c' p' hc' hp'
      cases hc.symm.trans hc'
      cases hp.symm.trans hp'
      rcases hpush : (k.pushDownstream bc p).exec log with ⟨e | q, log''⟩
      · rw [hpush] at he'
        cases he'
      · rw [hpush] at he'
        cases he'
        exact ⟨q, _, rfl, hh⟩
    · intro h
      obtain ⟨q, log', hpush, hh⟩ := h c p hc hp
      exact ⟨_, log', by rw [hpush], hh⟩

theorem header_within (off : ℕ) (hv : ValidHeader L bc) (hb : bc.head? = some b)
    (ho : off < HEADER_SIZE) : ∀ a ∈ [(⟨b, 0, 1⟩ : Access), ⟨b, off, 1⟩],
      a.buf ∈ bc ∧ a.off + a.len ≤ a.buf.getSize := by
  obtain ⟨b', hb', hsize, -⟩ := hv
  cases hb.symm.trans hb'
  have hmem : b ∈ bc := List.mem_of_mem_head? hb
  have hpos : 0 < b.getSize := Nat.lt_of_lt_of_le (by decide) hsize
  intro a ha
  rcases List.mem_cons.1 ha with rfl | ha
  · exact ⟨hmem, hpos⟩
  · rw [List.mem_singleton] at ha
    subst ha
    exact ⟨hmem, Nat.lt_of_lt_of_le ho hsize⟩

/-- Without a valid header there is an exception. -/
theorem not_step_of_extract {e : MuxError} (he : (k.extractDest bc).exec [] = (.error e, log)) :
    ¬∃ ds' log', (k.pushDown ds bc).exec [] = (.ok ds', log') ∧ k.Handled ds ds' bc log' := by
  rintro ⟨ds', log', he', -⟩
  rw [exec_pushDown_error he] at he'
  cases he'

theorem tdest_step_iff {ds : tdest.Downstream} (hr : Received bc) (hs : tdest.Sound ds) :
    (∃ ds' log, (tdest.pushDown ds bc).exec [] = (.ok ds', log) ∧ tdest.Handled ds ds' bc log) ↔
      tdest.Expected ds bc := by
  rcases exec_extractTDest (L := axis) hr (by decide) with ⟨hv, c, b, hc, hb, he⟩ | ⟨hv, e, log, he⟩
  · have hreads := header_within (axis.TDEST_BIT_OFFSET / 8) hv hb (by decide)
    rw [step_iff_of_extract (k := tdest) hc he hreads, Expected, and_iff_right hv]
    apply forall₄_congr
    intro c p hc hp
    rcases tdest_push (p := p) hr hv with ⟨htail, bc', log', hpush, hparts, hin⟩ | ⟨htail, hbad⟩
    · refine iff_of_true ⟨_, _, hpush, handled_some (k := tdest) hc hp hpush ?_ ?_ ?_⟩ htail
      · intro a ha
        rcases List.mem_append.1 ha with ha | ha
        · exact hreads a ha
        · exact hin a ha
      · intro x hx
        change x ∈ (p.pushed ++ [bc']).flatten at hx
        rw [List.flatten_concat] at hx
        rcases List.mem_append.1 hx with hx | hx
        · exact .inl hx
        · exact .inr (hparts x hx)
      · intro hm
        exact absurd hv hm
    · refine iff_of_false ?_ htail
      rintro ⟨p', log', hpush, hh⟩
      obtain ⟨b', hb', hlt⟩ := hbad p' log' hpush
      rcases hh.parts c p' (Function.update_self ..) b' hb' with ⟨q, hq, hb'⟩ | ⟨y, -, hy⟩
      · have hle := hs c q hq b' hb'
        omega
      · have hle := hy.le
        omega
  · refine iff_of_false (not_step_of_extract he) ?_
    intro h
    exact hv h.1

theorem tdest2_step_iff {ds : tdest2.Downstream} (hr : Received bc) :
    (∃ ds' log, (tdest2.pushDown ds bc).exec [] = (.ok ds', log) ∧
      tdest2.Handled ds ds' bc log) ↔ tdest2.Expected ds bc := by
  rcases exec_extractTDest (L := depack2) hr (by decide) with
    ⟨hv, c, b, hc, hb, he⟩ | ⟨hv, e, log, he⟩
  · have hreads := header_within (depack2.TDEST_BIT_OFFSET / 8) hv hb (by decide)
    rw [step_iff_of_extract (k := tdest2) hc he hreads, Expected, and_iff_right hv]
    apply forall₄_congr
    intro c p hc hp
    obtain ⟨accesses, hexec, hacc⟩ := exec_pushDownstream2 (s := p)
      [⟨b, 0, 1⟩, ⟨b, depack2.TDEST_BIT_OFFSET / 8, 1⟩] hr
    have hacc := hacc b hb
    obtain ⟨b', hb', hsize, hver⟩ := id hv
    cases hb.symm.trans hb'
    obtain ⟨hdr, hparse⟩ := parse_of_version hsize hver
    rw [hparse] at hacc
    constructor
    · rintro ⟨p', log', hpush, hh⟩
      by_cases htot : total bc < HEADER_SIZE + TAIL_SIZE
      · exact .inl htot
      · right
        apply (tailAccesses_iff hr (Nat.le_of_not_lt htot)).1
        intro a ha
        have hlog := (Prod.mk.inj (hexec.symm.trans hpush)).2
        apply hh.reads
        rw [← hlog]
        apply List.mem_append_right
        rw [hacc, if_pos ⟨rfl, Nat.le_of_not_lt htot⟩]
        exact List.mem_append_right _ ha
    · intro htail
      obtain ⟨p', hp', -, hparts, hm⟩ := pushDownstream_inside (s := p) hr hv htail
      rw [hp'] at hexec
      refine ⟨p', _, hexec, handled_some (k := tdest2) hc hp hexec ?_ hparts hm⟩
      intro a ha
      rcases List.mem_append.1 ha with ha | ha
      · exact hreads a ha
      · rw [hacc] at ha
        rcases List.mem_append.1 ha with ha | ha
        · obtain ⟨h₁, h₂⟩ := headAccesses_within hsize a ha
          exact ⟨h₁ ▸ List.mem_of_mem_head? hb, h₂⟩
        · split_ifs at ha with hif
          · exact (tailAccesses_iff hr hif.2).2 (htail.resolve_left (Nat.not_lt_of_le hif.2)) a ha
          · cases ha
  · refine iff_of_false (not_step_of_extract he) ?_
    intro h
    exact hv h.1

theorem srp_step_iff {v : SRPProtoVersion} {ds : (srp v).Downstream} (hr : Received bc) :
    (∃ ds' log, ((srp v).pushDown ds bc).exec [] = (.ok ds', log) ∧
      (srp v).Handled ds ds' bc log) ↔ (srp v).Expected ds bc := by
  cases hv : v.vcOff with
  | none =>
    have hnone : v = .SRP_UDP_NONE := by
      cases v <;> first | rfl | cases hv
    subst hnone
    refine iff_of_false ?_ (fun h ↦ h rfl)
    have he : ((srp .SRP_UDP_NONE).extractDest bc).exec [] = (.error .internalError, []) := rfl
    exact not_step_of_extract he
  | some off =>
    have hne : v ≠ .SRP_UDP_NONE := by
      rintro rfl
      cases hv
    refine iff_of_true ?_ hne
    have hpos : (srp v).position = off := by simp [position, hv]
    have hlen := bytes_length hr.ok
    by_cases htot : total bc ≤ off
    · refine ⟨ds, [], ?_, handled_none (k := srp v) ?_ nofun⟩
      · simp [pushDown, extractDest, extractVC, hv, htot]
      · intro c hc
        rw [hpos, List.getElem?_eq_none (by omega)] at hc
        cases hc
    · obtain ⟨c, a, he, hc, ha⟩ := exec_extractByte [] hr.ok (Nat.lt_of_not_le htot)
      have hextract : ((srp v).extractDest bc).exec [] = (.ok (some c), [a]) := by
        dsimp only [extractDest, extractVC]
        rw [hv]
        dsimp only
        rw [if_neg htot, exec_bind, he]
        rfl
      have hreads : ∀ a' ∈ [a], a'.buf ∈ bc ∧ a'.off + a'.len ≤ a'.buf.getSize := by
        intro a' ha'
        rw [List.mem_singleton] at ha'
        exact ha' ▸ ha
      rw [← hpos] at hc
      apply (step_iff_of_extract (k := srp v) hc hextract hreads).2
      intro c' (p : CSRPPort) hc' hp
      have hpush : ((srp v).pushDownstream bc p).exec [a] =
          (.ok ({ p with pushed := p.pushed ++ [bc] } : CSRPPort), [a]) := rfl
      refine ⟨_, _, hpush, handled_some (k := srp v) hc' hp hpush hreads ?_ ?_⟩
      · intro x hx
        change x ∈ (p.pushed ++ [bc]).flatten at hx
        rw [List.flatten_concat] at hx
        rcases List.mem_append.1 hx with hx | hx
        · exact .inl hx
        · exact .inr ⟨x, hx, part_refl (hr.ok x hx).le⟩
      · intro hm
        exact absurd (hm off hv) htot

theorem step_iff (hr : Received bc) (hs : k.Sound ds) :
    (∃ ds' log, (k.pushDown ds bc).exec [] = (.ok ds', log) ∧ k.Handled ds ds' bc log) ↔
      k.Expected ds bc := by
  cases k with
  | tdest => exact tdest_step_iff hr hs
  | tdest2 => exact tdest2_step_iff hr
  | srp v => exact srp_step_iff hr

/-- What a port strips does not change. -/
theorem pushDownstream_stripHeader {p p' : CTDestPort} {log log' : List Access}
    (h : (p.pushDownstream bc).exec log = (.ok p', log')) : p'.stripHeader = p.stripHeader := by
  unfold CTDestPort.pushDownstream at h
  split_ifs at h
  · cases bc with
    | nil => cases h
    | cons b rest =>
      obtain ⟨hsize, log₁, -, h⟩ := exec_bind_ok.1 h
      obtain ⟨tsize, log₂, -, h⟩ := exec_bind_ok.1 h
      dsimp only at h
      split at h
      · cases h
      · split at h
        · cases h
        · cases h
          rfl
  · cases h
    rfl

/-- What the code expects of the next datagrams is the same after a datagram. -/
theorem Handled.expected_iff (h : k.Handled ds ds' bc log) (bc' : BufChain) :
    k.Expected ds' bc' ↔ k.Expected ds bc' := by
  by_cases hcp : ∃ c p, bc.bytes[k.position]? = some c ∧ ds c = some p
  · obtain ⟨c, p, hc, hp⟩ := hcp
    obtain ⟨p', log₁, log₂, hpush, rfl⟩ := h.handed c p hc hp
    cases k with
    | srp v => exact Iff.rfl
    | tdest =>
      have hs : p'.stripHeader = p.stripHeader := pushDownstream_stripHeader hpush
      apply and_congr_right'
      apply forall_congr'
      intro c'
      by_cases hcc : c' = c
      · subst hcc
        rw [Function.update_self, hp]
        constructor
        · intro hh q hq hqp hst
          cases hqp
          exact hh p' hq rfl (hs.trans hst)
        · intro hh q hq hqp hst
          cases hqp
          exact hh p hq rfl (hs.symm.trans hst)
      · simp [Function.update_of_ne hcc]
    | tdest2 =>
      apply and_congr_right'
      apply forall_congr'
      intro c'
      by_cases hcc : c' = c
      · subst hcc
        rw [Function.update_self, hp]
        constructor
        · intro hh q hq _
          exact hh p' hq rfl
        · intro hh q hq _
          exact hh p hq rfl
      · simp [Function.update_of_ne hcc]
  · push Not at hcp
    rw [h.dropped]
    intro c hc
    cases hp : ds c with
    | none => rfl
    | some p => exact absurd hp (hcp c p hc)

/-- The thread is robust exactly if all the datagrams are as the code expects them. -/
theorem robust_iff {bcs : List BufChain} (hr : ∀ bc ∈ bcs, Received bc) (hs : k.Sound ds) :
    k.Robust ds bcs ↔ ∀ bc ∈ bcs, k.Expected ds bc := by
  induction bcs generalizing ds with
  | nil => exact iff_of_true trivial nofun
  | cons bc bcs ih =>
    have hstep := step_iff (k := k) (hr bc List.mem_cons_self) hs
    have hrest : ∀ bc ∈ bcs, Received bc := fun x hx ↦ hr x (List.mem_cons_of_mem bc hx)
    rw [Robust, List.forall_mem_cons, ← hstep]
    constructor
    · rintro ⟨ds', log, he, hh, hrob⟩
      refine ⟨⟨ds', log, he, hh⟩, ?_⟩
      intro x hx
      exact (hh.expected_iff x).1 ((ih hrest (hh.sound hs)).1 hrob x hx)
    · rintro ⟨⟨ds', log, he, hh⟩, hall⟩
      refine ⟨ds', log, he, hh, (ih hrest (hh.sound hs)).2 ?_⟩
      intro x hx
      exact (hh.expected_iff x).2 (hall x hx)

/-- A datagram of a single byte, in a buffer as it comes from the free list. -/
def oneByte : BufChain := [{ data := List.replicate 64 2, beg := 32, fin := 33 }]

/-- A single byte with the version of the protocol ends the thread of a multiplexer. -/
theorem not_robust : ¬tdest2.Robust (fun _ ↦ none) [oneByte] := by
  rintro ⟨ds', log, he, -⟩
  have hend : ((tdest2.extractDest oneByte).exec []).1 =
      .error (.port .invalidHeader) := by decide
  have hextract : (tdest2.extractDest oneByte).exec [] =
      (.error (.port .invalidHeader), ((tdest2.extractDest oneByte).exec []).2) := Prod.ext hend rfl
  rw [exec_pushDown_error hextract] at he
  cases he

/-- A whole fragment for the channel 3. -/
def wholeFragment : BufChain :=
  [{ data := [2, 0, 3, 0, 0, 0, 0, 0x80, 0xaa, 0, 0, 0, 0, 0, 0, 0, 0, 1, 8, 0, 0, 0, 0, 0],
     beg := 0, fin := 24 }]

/-- A header for the channel 4, with nothing after it. -/
def bareHeader : BufChain := [{ data := [2, 0, 4, 0, 0, 0, 0, 0x80], beg := 0, fin := 8 }]

/-- A port for the channel 3. -/
def onePort : tdest2.Downstream := fun c ↦ if c = 3 then some (CTDestPort2.new true) else none

theorem robust_wholeFragment : tdest2.Robust onePort [wholeFragment, bareHeader] := by
  apply (robust_iff (k := tdest2) ?_ ?_).2
  · intro bc hbc
    rcases List.mem_pair.1 hbc with rfl | rfl
    · refine ⟨⟨_, rfl, by decide, by decide⟩, ?_⟩
      intro c p hc hp
      right
      intro t prev ht
      cases ht
      exact .inl (by decide)
    · refine ⟨⟨_, rfl, by decide, by decide⟩, ?_⟩
      intro c p hc hp
      exact .inl (by decide)
  · intro bc hbc
    rcases List.mem_pair.1 hbc with rfl | rfl
    · refine ⟨List.cons_ne_nil _ _, ?_⟩
      intro b hb
      obtain rfl := List.mem_singleton.1 hb
      exact ⟨by decide, by decide, by decide⟩
    · refine ⟨List.cons_ne_nil _ _, ?_⟩
      intro b hb
      obtain rfl := List.mem_singleton.1 hb
      exact ⟨by decide, by decide, by decide⟩
  · intro c p hp b hb
    unfold onePort at hp
    split_ifs at hp
    cases hp
    cases hb

end Kind

end Cpsw.ByteMux
