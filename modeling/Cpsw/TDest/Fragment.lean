import Cpsw.Lib.Assembly
import Cpsw.TDest.Receive

namespace Cpsw.TDest

open Cpsw.Depack Cpsw.Lib.Assembly

/-- Fragment numbers have 16 bits. -/
def M : ℕ := 2 ^ 16

/-- The first buffer holds the header. -/
def HeadWhole (bc : BufChain) : Prop := ∃ b ∈ bc.head?, HEADER_SIZE ≤ b.getSize

instance (bc : BufChain) : Decidable (HeadWhole bc) :=
  inferInstanceAs (Decidable (∃ b ∈ bc.head?, HEADER_SIZE ≤ b.getSize))

def tailBytes (p : Bytes) : Bytes := p.drop (p.length - TAIL_SIZE)

/-- What the bytes of a fragment say; `none` for a malformed header or tail. -/
def viewBytes (p : Bytes) : Option (Piece UInt8) :=
  if p.length < HEADER_SIZE + TAIL_SIZE then none
  else
    match CDepack2Header.parse p p.length, CDepack2Header.parseNumLanes (tailBytes p) with
    | some hdr, some numLanes =>
      let n := 2 * TAIL_SIZE - numLanes
      if p.length - HEADER_SIZE < n then none
      else some {
        first := CDepack2Header.isFirst p
        last := parseTailEOF depack2 (tailBytes p)
        num := hdr.fragNo
        data := (p.drop HEADER_SIZE).take (p.length - HEADER_SIZE - n) }
    | _, _ => none

def view (bc : BufChain) : Option (Piece UInt8) :=
  if HeadWhole bc then viewBytes bc.bytes else none

/-- A fragment whose header is well formed but whose tail starts before its last buffer. -/
def SplitsTail (bc : BufChain) : Prop :=
  HeadWhole bc ∧ (CDepack2Header.parse bc.bytes bc.bytes.length).isSome ∧
    HEADER_SIZE + TAIL_SIZE ≤ total bc ∧ ∃ t ∈ bc.getLast?, t.getSize < TAIL_SIZE

/-- A chain that a port can get: some buffers with their storage. -/
structure Received (bc : BufChain) : Prop where
  ne : bc ≠ []
  ok : ∀ b ∈ bc, b.Ok

variable {bc : BufChain} {b : Buf} {rest : BufChain}

theorem parse_of_le (p : Bytes) {n : ℕ} (h : 8 ≤ n) : CDepack2Header.parse p n =
    if getNum 0 4 p ≠ 2 then none
    else some { vers := getNum 0 4 p, fragNo := getNum 32 16 p,
                tDest := UInt8.ofNat (getNum 16 8 p), tId := UInt8.ofNat (getNum 24 8 p),
                tUsr1 := UInt8.ofNat (getNum 8 8 p), crcMode := getNum 4 4 p } := by
  have h₁ : ¬n < (VERSION_BIT_OFFSET + VERSION_BIT_SIZE + 7) / 8 := by
    change ¬n < 1
    omega
  have h₂ : ¬n < HEADER_SIZE := Nat.not_lt_of_le h
  unfold CDepack2Header.parse PackHeader.parse
  rw [if_neg h₁, if_neg h₂]
  by_cases hv : getNum VERSION_BIT_OFFSET VERSION_BIT_SIZE p = depack2.VERSION
  · rw [if_neg (fun hn ↦ hn hv)]
    exact (if_neg (fun hn ↦ hn hv)).symm
  · rw [if_pos hv]
    exact (if_pos hv).symm

/-- The header is within the first eight bytes. -/
theorem parse_take (p : Bytes) {n : ℕ} (h : 8 ≤ n) :
    CDepack2Header.parse p n = CDepack2Header.parse (p.take 8) 8 := by
  have hnum : ∀ {off bits : ℕ}, off / 8 + (off % 8 + bits + 7) / 8 ≤ 8 →
      getNum off bits (p.take 8) = getNum off bits p := fun hb ↦ getNum_take p hb
  rw [parse_of_le p h, parse_of_le _ le_rfl, hnum (by decide), hnum (by decide), hnum (by decide),
    hnum (by decide), hnum (by decide), hnum (by decide)]

theorem isFirst_take (p : Bytes) : CDepack2Header.isFirst (p.take 8) = CDepack2Header.isFirst p := by
  simp [CDepack2Header.isFirst, SOF_BIT_OFFSET, List.getD_eq_getElem?_getD]

theorem parseTDest_take (p : Bytes) {n : ℕ} (h : 8 ≤ n) :
    CDepack2Header.parseTDest p n = CDepack2Header.parseTDest (p.take 8) 8 := by
  have hnum : getNum 0 4 (p.take 8) = getNum 0 4 p := getNum_take p (by decide)
  have hn : ¬n < 8 := Nat.not_lt_of_le h
  simp [CDepack2Header.parseTDest, VERSION_BIT_OFFSET, VERSION_BIT_SIZE, HEADER_SIZE, depack2, hnum, hn,
    List.getD_eq_getElem?_getD]

/-- What lies at the payload of the first buffer is what the chain starts with. -/
theorem head_take (hok : b.Ok) (hs : 8 ≤ b.getSize) :
    (BufChain.bytes (b :: rest)).take 8 = b.getPayload.take 8 := by
  have hl := hok.content_length
  have hb : BufChain.bytes (b :: rest) = b.content ++ BufChain.bytes rest := by
    simp [BufChain.bytes]
  rw [hb, List.take_append_of_le_length (by omega), Buf.content, List.take_take, Nat.min_eq_left hs]

theorem parse_head (hok : b.Ok) (hs : 8 ≤ b.getSize) :
    CDepack2Header.parse b.getPayload b.getSize =
        CDepack2Header.parse (BufChain.bytes (b :: rest)) (BufChain.bytes (b :: rest)).length ∧
      CDepack2Header.isFirst b.getPayload =
        CDepack2Header.isFirst (BufChain.bytes (b :: rest)) := by
  have ht := @head_take b rest hok hs
  have hl : 8 ≤ (BufChain.bytes (b :: rest)).length := by
    have := hok.content_length
    simp only [BufChain.bytes, List.flatMap_cons, List.length_append]
    omega
  constructor
  · rw [parse_take _ hs, parse_take _ hl, ht]
  · rw [← isFirst_take, ← isFirst_take (BufChain.bytes (b :: rest)), ht]

theorem parse_short {p : Bytes} {n : ℕ} (h : n < 8) : CDepack2Header.parse p n = none := by
  simp only [CDepack2Header.parse, PackHeader.parse, HEADER_SIZE, h, if_true]
  split <;> simp_all

/-- The bytes before the last buffer and those in it. -/
theorem bytes_concat (init : BufChain) (t : Buf) :
    BufChain.bytes (init ++ [t]) = BufChain.bytes init ++ t.content := by
  simp [BufChain.bytes]

namespace CTDestPort2

theorem readTail_ok {init : BufChain} {t : Buf} (hok : ∀ b ∈ init ++ [t], b.Ok)
    (ht : TAIL_SIZE ≤ t.getSize) :
    readTail (init ++ [t]) = .ok (some (tailBytes (BufChain.bytes (init ++ [t])))) := by
  have htok := hok t (by simp)
  have hl := htok.content_length
  have hmin : min TAIL_SIZE t.getSize = TAIL_SIZE := Nat.min_eq_left ht
  have hbytes : (t.getPayload.drop (t.getSize - TAIL_SIZE)).take TAIL_SIZE =
      tailBytes (BufChain.bytes (init ++ [t])) := by
    have hc : (t.getPayload.drop (t.getSize - TAIL_SIZE)).take TAIL_SIZE =
        t.content.drop (t.getSize - TAIL_SIZE) := by
      rw [Buf.content, List.drop_take]
      congr 1
      omega
    have hdrop : BufChain.bytes (init ++ [t]) = BufChain.bytes init ++ t.content := bytes_concat init t
    have hnil : (BufChain.bytes init).drop
        ((BufChain.bytes init).length + t.content.length - TAIL_SIZE) = [] := by
      apply List.drop_eq_nil_of_le
      omega
    rw [hc, tailBytes, hdrop, List.length_append, List.drop_append, hnil, List.nil_append]
    congr 1
    omega
  simp [readTail, hmin, hbytes]

/-- The last `n` bytes go. -/
theorem trimLoop_ok (n : ℕ) (bufs : List Buf) (hok : ∀ b ∈ bufs, b.Ok) (hn : n ≤ total bufs) :
    ∃ bufs', trimLoop n bufs = .ok bufs' ∧ BufChain.bytes bufs'.reverse =
      (BufChain.bytes bufs.reverse).take (total bufs - n) := by
  induction bufs generalizing n with
  | nil =>
    obtain rfl : n = 0 := by simpa using hn
    exact ⟨[], rfl, rfl⟩
  | cons t prev ih =>
    have htok := hok t List.mem_cons_self
    have hprev : ∀ b ∈ prev, b.Ok := fun b hb ↦ hok b (List.mem_cons_of_mem _ hb)
    have hl := htok.content_length
    have hpl : (BufChain.bytes prev.reverse).length = total prev := by
      rw [bytes_length fun b hb ↦ hprev b (List.mem_reverse.1 hb)]
      simp [total]
    rw [total_cons] at hn
    cases n with
    | zero =>
      refine ⟨t :: prev, rfl, ?_⟩
      rw [List.take_of_length_le]
      rw [List.reverse_cons, bytes_concat, List.length_append, hpl, hl, total_cons]
      omega
    | succ n =>
      have hset := htok.setSize_sub (Nat.min_le_right (n + 1) t.getSize)
      obtain ⟨prev', hp, hb⟩ := ih (n + 1 - min (n + 1) t.getSize) hprev (by omega)
      refine ⟨{ t with fin := t.fin - min (n + 1) t.getSize } :: prev', ?_, ?_⟩
      · simp only [trimLoop, hset, hp]
      · rw [List.reverse_cons, List.reverse_cons, bytes_concat, bytes_concat, hb,
          Buf.content_shrink, total_cons, List.take_append, hpl]
        by_cases hc : n + 1 ≤ t.getSize
        · rw [Nat.min_eq_left hc]
          congr 1
          · rw [List.take_of_length_le (by omega), List.take_of_length_le (by omega)]
          · congr 1
            omega
        · rw [Nat.min_eq_right (by omega)]
          congr 1
          · congr 1
            omega
          · rw [Nat.sub_self, List.take_zero]
            symm
            apply List.take_eq_nil_iff.2
            left
            omega

theorem trimTail_ok {n : ℕ} (hok : ∀ b ∈ bc, b.Ok) (hn : n ≤ total bc) :
    ∃ bc', trimTail n bc = .ok bc' ∧ bc'.bytes = bc.bytes.take (total bc - n) := by
  have htot : total bc.reverse = total bc := by simp [total]
  obtain ⟨bufs', hb, hbytes⟩ := trimLoop_ok n bc.reverse (fun b hb ↦ hok b (List.mem_reverse.1 hb))
    (by omega)
  refine ⟨bufs'.reverse, ?_, ?_⟩
  · simp [trimTail, hb, Except.map]
  · rw [hbytes, List.reverse_reverse, htot]

theorem trimHead_ok (hok : ∀ x ∈ b :: rest, x.Ok) (hs : HEADER_SIZE ≤ b.getSize) :
    (∀ x ∈ trimHead (b :: rest), x.Ok) ∧ total (trimHead (b :: rest)) = total (b :: rest) - HEADER_SIZE ∧
      BufChain.bytes (trimHead (b :: rest)) = (BufChain.bytes (b :: rest)).drop HEADER_SIZE := by
  have hbok := hok b List.mem_cons_self
  have hl := hbok.content_length
  have h₁ := hbok.le
  have hadj : b.adjPayload HEADER_SIZE = some { b with beg := b.beg + HEADER_SIZE } := by
    unfold Buf.adjPayload
    rw [if_neg]
    · congr 2
    · omega
  have htrim : trimHead (b :: rest) = { b with beg := b.beg + HEADER_SIZE } :: rest := by
    simp [trimHead, hadj]
  unfold Buf.getSize at hs hl
  rw [htrim]
  refine ⟨?_, ?_, ?_⟩
  · intro x hx
    rcases List.mem_cons.1 hx with rfl | hx
    · refine ⟨?_, hbok.fits, hbok.capa⟩
      simp only
      omega
    · exact hok x (List.mem_cons_of_mem _ hx)
  · simp only [total_cons, Buf.getSize]
    omega
  · have hdrop := Buf.content_drop b HEADER_SIZE
    simp only [BufChain.bytes, List.flatMap_cons]
    rw [hdrop, List.drop_append_of_le_length (by omega)]

variable {s : CTDestPort2}

theorem strip_ok (hs : s.stripHeader = true) (sof eof : Bool) (numLanes : ℕ)
    (hok : ∀ x ∈ b :: rest, x.Ok) (hb : HEADER_SIZE ≤ b.getSize) :
    (BufChain.bytes (b :: rest)).length - HEADER_SIZE < 2 * TAIL_SIZE - numLanes ∧
        s.strip sof eof numLanes (b :: rest) = .ok none ∨
      ¬(BufChain.bytes (b :: rest)).length - HEADER_SIZE < 2 * TAIL_SIZE - numLanes ∧
        ∃ bc', s.strip sof eof numLanes (b :: rest) = .ok (some bc') ∧
          bc'.bytes = ((BufChain.bytes (b :: rest)).drop HEADER_SIZE).take
            ((BufChain.bytes (b :: rest)).length - HEADER_SIZE - (2 * TAIL_SIZE - numLanes)) := by
  obtain ⟨hok', htot, hbytes⟩ := trimHead_ok hok hb
  have hlen := bytes_length hok
  rw [hlen, ← htot]
  by_cases hn : total (trimHead (b :: rest)) < 2 * TAIL_SIZE - numLanes
  · left
    exact ⟨hn, by simp [strip, hs, hn]⟩
  · right
    obtain ⟨bc', ht, hb'⟩ := trimTail_ok hok' (Nat.le_of_not_lt hn)
    refine ⟨hn, bc', ?_, ?_⟩
    · simp [strip, hs, hn, ht, Except.map]
    · rw [hb', hbytes]

/-- A fragment whose tail is not split is taken for what its bytes say. -/
theorem pushDownstream_ok (hs : s.stripHeader = true) (hr : Received bc) (hn : ¬SplitsTail bc) :
    view bc = none ∧ s.pushDownstream bc = .ok s ∨
      ∃ f bc', view bc = some f ∧ bc'.bytes = f.data ∧
        s.pushDownstream bc = .ok (s.accept f.first f.last f.num bc') := by
  obtain ⟨hne, hok⟩ := hr
  cases bc with
  | nil => exact absurd rfl hne
  | cons b rest =>
    have hlen := bytes_length hok
    by_cases hb : HEADER_SIZE ≤ b.getSize
    swap
    · left
      have hw : ¬HeadWhole (b :: rest) := by
        rintro ⟨b', hb', hsize⟩
        obtain rfl := Option.some.inj hb'
        exact hb hsize
      have hp := @parse_short b.getPayload _ (Nat.lt_of_not_le hb)
      exact ⟨if_neg hw, by simp [pushDownstream, hp]⟩
    have hw : HeadWhole (b :: rest) := ⟨b, rfl, hb⟩
    have hview : view (b :: rest) = viewBytes (BufChain.bytes (b :: rest)) := if_pos hw
    obtain ⟨hparse, hfirst⟩ := @parse_head b rest (hok b List.mem_cons_self) hb
    rw [hview]
    generalize hp : BufChain.bytes (b :: rest) = p at *
    cases hh : CDepack2Header.parse p p.length with
    | none =>
      left
      simp [-total_cons, viewBytes, pushDownstream, hparse, hh]
    | some hdr =>
      by_cases hsize : total (b :: rest) < HEADER_SIZE + TAIL_SIZE
      · left
        have hsize' : p.length < HEADER_SIZE + TAIL_SIZE := by omega
        simp [-total_cons, viewBytes, pushDownstream, hparse, hh, hsize, hsize']
      -- the tail is in the last buffer
      obtain ⟨t, ht⟩ : ∃ t, (b :: rest).getLast? = some t := ⟨_, List.getLast?_cons⟩
      obtain ⟨init, hi⟩ := List.getLast?_eq_some_iff.1 ht
      have htail : TAIL_SIZE ≤ t.getSize := by
        by_contra hc
        refine hn ⟨hw, ?_, Nat.le_of_not_lt hsize, t, ht, Nat.lt_of_not_le hc⟩
        rw [hp, hh]
        rfl
      have hread : readTail (b :: rest) = .ok (some (tailBytes p)) := by
        rw [← hp, hi]
        rw [hi] at hok
        exact readTail_ok hok htail
      have hsize' : ¬p.length < HEADER_SIZE + TAIL_SIZE := by omega
      cases hl : CDepack2Header.parseNumLanes (tailBytes p) with
      | none =>
        left
        simp [-total_cons, viewBytes, pushDownstream, hparse, hh, hsize, hsize', hread, hl]
      | some numLanes =>
        rcases strip_ok hs (CDepack2Header.isFirst p) (parseTailEOF depack2 (tailBytes p)) numLanes
          hok hb with ⟨hc, hst⟩ | ⟨hc, bc', hst, hb'⟩
        · left
          rw [hp] at hc
          simp [-total_cons, viewBytes, pushDownstream, hparse, hfirst, hh, hsize, hsize', hread, hl, hst, hc]
        · right
          rw [hp] at hc hb'
          refine ⟨⟨CDepack2Header.isFirst p, parseTailEOF depack2 (tailBytes p), hdr.fragNo, _⟩, bc',
            ?_, hb', ?_⟩
          · simp only [viewBytes, if_neg hsize', hh, hl, if_neg hc]
          · simp [-total_cons, pushDownstream, hparse, hfirst, hh, hsize, hread, hl, hst]

end CTDestPort2

end Cpsw.TDest
