import Cpsw.TDest.Tail

namespace Cpsw.TDest

open Cpsw.Depack CDepack2Header

variable {body p pad tail data : Bytes} {eof first last : Bool} {bc rest init : BufChain} {b t : Buf}
  {hdr : CDepack2Header} {num : ℕ} {s : CTDestPort2}

/-- A fragment that arrives, in buffers of which the first one holds the header. -/
structure Arrived (body : Bytes) (eof : Bool) (hdr : CDepack2Header) (bc : BufChain) : Prop where
  received : Received bc
  head : HeadWhole bc
  built : Built body eof bc.bytes
  header : parse body body.length = some hdr

/-- The byte `i` of a tail that the last buffer `t` has only the end of: it is looked for at the
offset that it has in the buffer `p` before it, but in the storage of `t`. -/
def strayByte (t p : Buf) (i : ℕ) : UInt8 :=
  t.getPayload.getD (p.getSize - (TAIL_SIZE - t.getSize) + i) 0

/-- What is found where the tail of a fragment of `size` bytes is looked for has the flag and the
number of lanes with which as much is cut off as was put there. -/
def TailFound (size : ℕ) (eof : Bool) (init : BufChain) (t : Buf) : Prop :=
  (t.getSize < TAIL_SIZE → ∃ p ∈ init.getLast?, TAIL_SIZE ≤ p.getSize + t.getSize ∧
      t.beg + p.getSize ≤ t.getCapacity ∧
      (t.getSize + 1 < TAIL_SIZE → ((strayByte t p 1).toNat % 2 = 1 ↔ eof = true)) ∧
      (t.getSize + 2 < TAIL_SIZE →
        (strayByte t p 2).toNat % 16 = ALIGNMENT - getTailPadding size)) ∧
    (TAIL_SIZE ≤ t.getSize + 2 → HEADER_SIZE < size)

namespace CTDestPort2

/-- The port is at the fragment `num` of a frame. -/
def Expects (s : CTDestPort2) (first : Bool) (num : ℕ) : Prop :=
  first = true ∨ s.assembleBuffer.isSome = true ∧
    (s.fragNo + 1) % 2 ^ 32 % 2 ^ depack2.FRAG_NO_BIT_SIZE = num

/-- The bytes of the frame so far. -/
def frame (s : CTDestPort2) : Bytes := BufChain.bytes (s.assembleBuffer.getD [])

/-- The port after a fragment with which the frame becomes `c`. -/
def grown (s : CTDestPort2) (first last : Bool) (c : BufChain) : CTDestPort2 :=
  { s with
    fragNo := if first then 0 else (s.fragNo + 1) % 2 ^ 32
    assembleBuffer := if last then none else some c
    pushed := if last then s.pushed ++ [c] else s.pushed }

/-- The fragment `bc` adds exactly `data` to the frame that the port assembles. -/
def Contributes (first last : Bool) (num : ℕ) (data : Bytes) (bc : BufChain) : Prop :=
  ∀ s : CTDestPort2, s.stripHeader = true → s.Expects first num →
    ∃ c : BufChain, c.bytes = (if first then [] else s.frame) ++ data ∧
      s.pushDownstream bc = .ok (s.grown first last c)

/-- The fragment after its tail has been read. -/
def afterTail (s : CTDestPort2) (first : Bool) (num : ℕ) (bc : BufChain) :
    Except PortError (Option Bytes) → Except PortError CTDestPort2
  | .error e => .error e
  | .ok none => .ok s
  | .ok (some tail) =>
    match parseNumLanes tail with
    | none => .ok s
    | some numLanes =>
      match s.strip first (parseTailEOF depack2 tail) numLanes bc with
      | .error e => .error e
      | .ok none => .ok s
      | .ok (some bc) => .ok (s.accept first (parseTailEOF depack2 tail) num bc)

theorem accept_expected (he : s.Expects first num) (bc : BufChain) :
    ∃ c : BufChain, c.bytes = (if first then [] else s.frame) ++ bc.bytes ∧
      s.accept first last num bc = s.grown first last c := by
  cases first with
  | true =>
    refine ⟨bc, rfl, ?_⟩
    cases last <;> rfl
  | false =>
    rcases he with he | ⟨hc, hnum⟩
    · cases he
    obtain ⟨c, hc⟩ := Option.isSome_iff_exists.1 hc
    refine ⟨c ++ bc, ?_, ?_⟩
    · simp [frame, hc, BufChain.bytes]
    · unfold accept
      rw [hc]
      dsimp only
      rw [if_neg Bool.false_ne_true, if_neg (not_not_intro hnum)]
      cases last <;> rfl

/-- A port that waits for the fragment `num`. -/
def expecting (first : Bool) (num : ℕ) : CTDestPort2 where
  stripHeader := true
  assembleBuffer := if first then none else some []
  fragNo := num + 65535
  pushed := []

theorem expects_expecting (hnum : num < 2 ^ 16) : (expecting first num).Expects first num := by
  cases first with
  | true => exact .inl rfl
  | false =>
    refine .inr ⟨rfl, ?_⟩
    change (num + 65535 + 1) % 2 ^ 32 % 2 ^ 16 = num
    omega

/-- A fragment that is dropped leaves the port as it was. -/
theorem grown_ne (c : BufChain) :
    (expecting first num).grown first last c ≠ expecting first num := by
  intro h
  cases first with
  | true =>
    have ha := congrArg assembleBuffer h
    have hp := congrArg pushed h
    cases last with
    | true => cases hp
    | false => cases ha
  | false =>
    have hf := congrArg fragNo h
    simp only [grown, expecting, Bool.false_eq_true, if_false] at hf
    omega

theorem grown_inj {c c' : BufChain} {last' : Bool}
    (h : (expecting first num).grown first last c = (expecting first num).grown first last' c') :
    last = last' ∧ c = c' := by
  have ha : (if last then none else some c) = if last' then none else some c' :=
    congrArg assembleBuffer h
  have hp : (if last then [c] else []) = if last' then [c'] else [] := congrArg pushed h
  cases last with
  | true =>
    cases last' with
    | true => exact ⟨rfl, List.singleton_inj.1 hp⟩
    | false => cases hp
  | false =>
    cases last' with
    | true => cases hp
    | false => exact ⟨rfl, Option.some.inj ha⟩

theorem frame_expecting (first : Bool) (num : ℕ) :
    (if first then [] else (expecting first num).frame) = [] := by
  cases first <;> rfl

end CTDestPort2

open CTDestPort2

/-- A fragment is at least the header and the tail. -/
theorem Arrived.facts (ha : Arrived body eof hdr bc) : ∃ b rest pad tail, bc = b :: rest ∧
    HEADER_SIZE ≤ b.getSize ∧ (∀ x ∈ bc, x.Ok) ∧ bc.bytes = body ++ pad ++ tail ∧
    Suffix body.length eof pad tail ∧ HEADER_SIZE ≤ body.length := by
  obtain ⟨pad, tail, hp, hsuf⟩ := ha.built.suffix
  obtain ⟨b, hb, hsize⟩ := ha.head
  have hlen : HEADER_SIZE ≤ body.length := by
    by_contra hn
    have := ha.header
    rw [parse_short (Nat.lt_of_not_le hn)] at this
    cases this
  cases hbc : bc with
  | nil =>
    rw [hbc] at hb
    cases hb
  | cons b' rest =>
    rw [hbc] at hb
    obtain rfl := Option.some.inj hb
    rw [← hbc]
    exact ⟨b', rest, pad, tail, hbc, hsize, ha.received.ok, hp, hsuf, hlen⟩

theorem Arrived.length (ha : Arrived body eof hdr bc) :
    bc.bytes.length = body.length + getTailPadding body.length + TAIL_SIZE := by
  obtain ⟨pad, tail, hp, hsuf⟩ := ha.built.suffix
  rw [hp, List.length_append, List.length_append, hsuf.pad_length, hsuf.tail_length]

theorem Arrived.fragNo_lt (ha : Arrived body eof hdr bc) : hdr.fragNo < 2 ^ 16 := by
  have hh := ha.header
  obtain ⟨b, rest, pad, tail, -, -, -, -, -, hlen⟩ := ha.facts
  rw [parse_of_le body hlen] at hh
  split_ifs at hh
  cases hh
  have hlt : getNum 32 16 body < 2 ^ 16 := getNum_lt body (by decide)
  exact hlt

theorem Arrived.pushDownstream_eq (ha : Arrived body eof hdr bc) (s : CTDestPort2) :
    s.pushDownstream bc = s.afterTail (isFirst body) hdr.fragNo bc (readTail bc) := by
  obtain ⟨b, rest, pad, tail, rfl, hsize, hok, hp, hsuf, hlen⟩ := ha.facts
  obtain ⟨hparse, hfirst⟩ := @parse_head b rest (hok b List.mem_cons_self) hsize
  have hl := ha.length
  have htake : (BufChain.bytes (b :: rest)).take 8 = body.take 8 := by
    rw [hp, List.append_assoc, List.take_append_of_le_length (show 8 ≤ body.length from hlen)]
  have hle : 8 ≤ (BufChain.bytes (b :: rest)).length := by
    change 8 ≤ body.length at hlen
    omega
  have hh := ha.header
  rw [parse_take body hlen, ← htake, ← parse_take _ hle] at hh
  have hf : isFirst (BufChain.bytes (b :: rest)) = isFirst body := by
    rw [← isFirst_take, htake, isFirst_take]
  have hsz : ¬HEADER_SIZE + TAIL_SIZE > total (b :: rest) := by
    rw [← bytes_length hok, hl]
    omega
  unfold pushDownstream
  dsimp only
  rw [hparse, hh, hfirst, hf]
  dsimp only
  rw [if_neg hsz]
  cases hr : readTail (b :: rest) with
  | error e => rfl
  | ok o =>
    cases o with
    | none => rfl
    | some tail' => rfl

/-- What is read for the tail decides. -/
theorem contributes_iff_of_read (ha : Arrived body eof hdr bc) {tail' : Bytes}
    (hread : readTail bc = .ok (some tail')) :
    Contributes (isFirst body) eof hdr.fragNo (body.drop HEADER_SIZE) bc ↔
      parseTailEOF depack2 tail' = eof ∧
        parseNumLanes tail' = some (ALIGNMENT - getTailPadding body.length) := by
  obtain ⟨b, rest, pad, tail, hbc, hsize, hok, hp, hsuf, hlen⟩ := ha.facts
  have hl := ha.length
  have hpad := getTailPadding_lt body.length
  change getTailPadding body.length < 8 at hpad
  change _ = _ + 8 at hl
  change 8 ≤ body.length at hlen
  constructor
  · intro hc
    obtain ⟨c, hcb, hpush⟩ := hc (expecting (isFirst body) hdr.fragNo) rfl (expects_expecting ha.fragNo_lt)
    rw [ha.pushDownstream_eq, hread] at hpush
    unfold afterTail at hpush
    dsimp only at hpush
    cases hn : parseNumLanes tail' with
    | none =>
      rw [hn] at hpush
      exact absurd (Except.ok.inj hpush).symm (grown_ne c)
    | some numLanes =>
      rw [hn] at hpush
      dsimp only at hpush
      have hle : numLanes ≤ 8 := by
        unfold parseNumLanes at hn
        dsimp only at hn
        split_ifs at hn with hgt
        cases hn
        exact Nat.le_of_not_gt hgt
      rw [hbc] at hpush
      rcases @strip_ok b rest (expecting (isFirst body) hdr.fragNo) rfl (isFirst body)
        (parseTailEOF depack2 tail') numLanes (hbc ▸ hok) hsize with ⟨-, hst⟩ | ⟨hlt, bc', hst, hb'⟩
      · rw [hst] at hpush
        exact absurd (Except.ok.inj hpush).symm (grown_ne c)
      · rw [hst] at hpush
        dsimp only at hpush
        obtain ⟨c', hc', hacc⟩ := @accept_expected _ (parseTailEOF depack2 tail') _ _
          (expects_expecting ha.fragNo_lt) bc'
        rw [hacc] at hpush
        obtain ⟨heof, rfl⟩ := grown_inj (Except.ok.inj hpush)
        rw [hcb, frame_expecting, hb', ← hbc] at hc'
        have hlen' := congrArg List.length hc'
        simp only [List.nil_append, List.length_take, List.length_drop, hl] at hlen'
        rw [← hbc, hl] at hlt
        refine ⟨heof, congrArg some ?_⟩
        change ¬body.length + _ + 8 - 8 < 16 - numLanes at hlt
        change body.length - 8 = min (body.length + _ + 8 - 8 - (16 - numLanes)) (body.length + _ + 8 - 8) at hlen'
        change numLanes = 8 - _
        omega
  · rintro ⟨he, hn⟩ s hs hexp
    have hcut : bc.bytes.length - HEADER_SIZE -
        (2 * TAIL_SIZE - (ALIGNMENT - getTailPadding body.length)) = body.length - HEADER_SIZE := by
      rw [hl]
      change body.length + _ + 8 - 8 - (16 - (8 - getTailPadding body.length)) = body.length - 8
      omega
    have hkeep : (bc.bytes.drop HEADER_SIZE).take (body.length - HEADER_SIZE) =
        body.drop HEADER_SIZE := by
      rw [hp, List.append_assoc, List.drop_append_of_le_length (show HEADER_SIZE ≤ body.length from hlen)]
      apply List.take_left'
      exact List.length_drop
    rw [ha.pushDownstream_eq, hread]
    unfold afterTail
    dsimp only
    rw [hn, he, hbc]
    rcases @strip_ok b rest s hs (isFirst body) eof (ALIGNMENT - getTailPadding body.length)
      (hbc ▸ hok) hsize with ⟨hlt, -⟩ | ⟨-, bc', hst, hb'⟩
    · rw [← hbc, hl] at hlt
      change body.length + _ + 8 - 8 < 16 - (8 - getTailPadding body.length) at hlt
      omega
    · rw [← hbc, hcut, hkeep] at hb'
      obtain ⟨c, hc, hacc⟩ := @accept_expected _ eof _ _ hexp bc'
      refine ⟨c, ?_, ?_⟩
      · rw [hc, hb']
      · dsimp only
        rw [hst]
        exact congrArg Except.ok hacc

/-- The last buffer holds the tail. -/
theorem readTail_whole (ha : Arrived body eof hdr (init ++ [t])) (ht : TAIL_SIZE ≤ t.getSize) :
    ∃ tail, readTail (init ++ [t]) = .ok (some tail) ∧ parseTailEOF depack2 tail = eof ∧
      parseNumLanes tail = some (lanes body.length) := by
  obtain ⟨b, rest, pad, tail, -, -, hok, hp, hsuf, -⟩ := ha.facts
  refine ⟨tail, ?_, hsuf.tail_eof, hsuf.tail_lanes⟩
  rw [readTail_ok hok ht, tailBytes, ha.length, Nat.add_sub_cancel, hp]
  congr 2
  apply List.drop_left'
  rw [List.length_append, hsuf.pad_length]

/-- The last buffer holds only the end of the tail, and the beginning is looked for in it. -/
theorem readTail_split (init : BufChain) {q t : Buf} (ht : t.getSize < TAIL_SIZE)
    (hq : TAIL_SIZE ≤ q.getSize + t.getSize) (hcap : t.beg + q.getSize ≤ t.getCapacity) :
    ∃ low : Bytes, low.length = TAIL_SIZE - t.getSize ∧
      (∀ i < TAIL_SIZE - t.getSize, low.getD i 0 = strayByte t q i) ∧
      readTail (init ++ [q] ++ [t]) = .ok (some (low ++ t.content)) := by
  let k := TAIL_SIZE - t.getSize
  let low := (t.getPayload.drop (q.getSize - k)).take k
  have hpl : t.getPayload.length = t.getCapacity - t.beg := List.length_drop
  have hlow : low.length = k := by
    rw [List.length_take, List.length_drop, hpl]
    simp only [k]
    omega
  have hmin : min TAIL_SIZE t.getSize = t.getSize := Nat.min_eq_right ht.le
  refine ⟨low, hlow, fun i hi ↦ ?_, ?_⟩
  · have hi' : i < k := hi
    simp only [low, strayByte, List.getD_eq_getElem?_getD]
    rw [List.getElem?_take_of_lt hi', List.getElem?_drop]
  · have hk : k > 0 := Nat.sub_pos_of_lt ht
    have hnot : ¬q.getSize < k := by
      simp only [k]
      omega
    unfold readTail
    rw [List.reverse_append, List.reverse_append]
    simp only [List.reverse_cons, List.reverse_nil, List.nil_append, List.cons_append, hmin]
    rw [if_pos hk, if_neg hnot, if_neg (by rw [hlow]; exact Nat.lt_irrefl _), Nat.sub_self,
      List.drop_zero]
    rfl

/-- Otherwise nothing is read that could be a tail. -/
theorem readTail_fails (init : BufChain) {q t : Buf} (ht : t.getSize < TAIL_SIZE)
    (h : q.getSize + t.getSize < TAIL_SIZE ∨ t.getCapacity < t.beg + q.getSize) :
    readTail (init ++ [q] ++ [t]) = .ok none ∨ ∃ e, readTail (init ++ [q] ++ [t]) = .error e := by
  have hmin : min TAIL_SIZE t.getSize = t.getSize := Nat.min_eq_right ht.le
  have hk : TAIL_SIZE - t.getSize > 0 := Nat.sub_pos_of_lt ht
  have hpl : t.getPayload.length = t.getCapacity - t.beg := List.length_drop
  unfold readTail
  rw [List.reverse_append, List.reverse_append]
  simp only [List.reverse_cons, List.reverse_nil, List.nil_append, List.cons_append, hmin]
  rw [if_pos hk]
  by_cases hq : q.getSize < TAIL_SIZE - t.getSize
  · rw [if_pos hq]
    exact .inl rfl
  · rw [if_neg hq, if_pos]
    · exact .inr ⟨_, rfl⟩
    · rw [List.length_take, List.length_drop, hpl]
      omega

theorem lanes_iff (size : ℕ) :
    lanes size = ALIGNMENT - getTailPadding size ↔ HEADER_SIZE < size := by
  have hpad := getTailPadding_lt size
  unfold lanes
  split_ifs with h
  · refine iff_of_false (fun h0 ↦ ?_) (Nat.not_lt_of_le h)
    omega
  · exact iff_of_true rfl (Nat.lt_of_not_le h)

/-- The end of the tail is where it should be. -/
theorem Arrived.end_of_tail (ha : Arrived body eof hdr (init ++ [t])) (ht : t.getSize ≤ TAIL_SIZE) :
    ∃ tail : Bytes, tail.drop (TAIL_SIZE - t.getSize) = t.content ∧
      parseTailEOF depack2 tail = eof ∧ parseNumLanes tail = some (lanes body.length) := by
  obtain ⟨b, rest, pad, tail, -, -, hok, hp, hsuf, -⟩ := ha.facts
  have htl : t.content.length = t.getSize := (hok t (by simp)).content_length
  have hl := congrArg List.length hp
  rw [bytes_concat] at hp hl
  simp only [List.length_append, hsuf.tail_length, htl] at hl
  refine ⟨tail, ?_, hsuf.tail_eof, hsuf.tail_lanes⟩
  have hdrop := congrArg (List.drop (BufChain.bytes init).length) hp
  rw [List.drop_left, List.drop_append, List.drop_eq_nil_of_le, List.nil_append] at hdrop
  · rw [hdrop]
    congr 1
    rw [List.length_append]
    omega
  · rw [List.length_append]
    omega

theorem Arrived.reads (ha : Arrived body eof hdr bc)
    (hc : Contributes (isFirst body) eof hdr.fragNo (body.drop HEADER_SIZE) bc) :
    ∃ tail, readTail bc = .ok (some tail) := by
  obtain ⟨c, -, hpush⟩ := hc (expecting (isFirst body) hdr.fragNo) rfl (expects_expecting ha.fragNo_lt)
  rw [ha.pushDownstream_eq] at hpush
  cases hr : readTail bc with
  | error e =>
    rw [hr] at hpush
    cases hpush
  | ok o =>
    cases o with
    | none =>
      rw [hr] at hpush
      exact absurd (Except.ok.inj hpush).symm (grown_ne c)
    | some tail => exact ⟨tail, rfl⟩

theorem getD_append_ge {low z : Bytes} {i : ℕ} (h : low.length ≤ i) :
    (low ++ z).getD i 0 = z.getD (i - low.length) 0 := by
  rw [List.getD_eq_getElem?_getD, List.getElem?_append_right h, ← List.getD_eq_getElem?_getD]

theorem getD_append_lt {low z : Bytes} {i : ℕ} (h : i < low.length) :
    (low ++ z).getD i 0 = low.getD i 0 := by
  rw [List.getD_eq_getElem?_getD, List.getElem?_append_left h, ← List.getD_eq_getElem?_getD]

/-- A fragment adds its payload to the frame if and only if there is a payload and the flag and the
lanes, where they are not in the last buffer, happen to lie where they are looked for. -/
theorem contributes_iff (ha : Arrived body eof hdr (init ++ [t])) :
    Contributes (isFirst body) eof hdr.fragNo (body.drop HEADER_SIZE) (init ++ [t]) ↔
      TailFound body.length eof init t := by
  by_cases ht : TAIL_SIZE ≤ t.getSize
  · obtain ⟨tail, hread, heof, hlanes⟩ := readTail_whole ha ht
    rw [contributes_iff_of_read ha hread, hlanes, Option.some_inj, lanes_iff]
    refine ⟨fun h ↦ ⟨fun hn ↦ absurd ht (Nat.not_le_of_lt hn), fun _ ↦ h.2⟩, fun h ↦ ⟨heof, h.2 ?_⟩⟩
    omega
  have hlt := Nat.lt_of_not_le ht
  obtain ⟨b, rest, -, -, hbc, hsize, -⟩ := ha.facts
  -- the header is not in the last buffer
  obtain ⟨init, q, rfl⟩ : ∃ init' q, init = init' ++ [q] := by
    cases hg : init.getLast? with
    | none =>
      obtain rfl : init = [] := List.getLast?_eq_none_iff.1 hg
      obtain ⟨rfl, -⟩ := List.cons.inj hbc
      exact absurd hsize ht
    | some q =>
      obtain ⟨init', hi⟩ := List.getLast?_eq_some_iff.1 hg
      exact ⟨init', q, hi⟩
  by_cases hread : TAIL_SIZE ≤ q.getSize + t.getSize ∧ t.beg + q.getSize ≤ t.getCapacity
  · obtain ⟨hq, hcap⟩ := hread
    obtain ⟨low, hlow, hstray, hread⟩ := readTail_split init hlt hq hcap
    obtain ⟨tail, hdrop, heof, hlanes⟩ := ha.end_of_tail hlt.le
    have hsame : ∀ i, low.length ≤ i → (low ++ t.content).getD i 0 = tail.getD i 0 := by
      intro i hi
      rw [getD_append_ge hi, ← hdrop, ← hlow, List.getD_eq_getElem?_getD, List.getElem?_drop,
        Nat.add_sub_cancel' hi, ← List.getD_eq_getElem?_getD]
    have hle : ALIGNMENT - getTailPadding body.length ≤ ALIGNMENT := Nat.sub_le _ _
    have hflag : parseTailEOF depack2 (low ++ t.content) = eof ↔
        (t.getSize + 1 < TAIL_SIZE → ((strayByte t q 1).toNat % 2 = 1 ↔ eof = true)) := by
      rw [Bool.eq_iff_iff, parseTailEOF_iff]
      by_cases h1 : 1 < low.length
      · rw [getD_append_lt h1, hstray 1 (by omega)]
        exact ⟨fun h _ ↦ h, fun h ↦ h (by omega)⟩
      · rw [hsame 1 (Nat.le_of_not_lt h1), ← parseTailEOF_iff, ← Bool.eq_iff_iff]
        exact iff_of_true heof fun h ↦ absurd h (by omega)
    have hcount : parseNumLanes (low ++ t.content) = some (ALIGNMENT - getTailPadding body.length) ↔
        (t.getSize + 2 < TAIL_SIZE →
          (strayByte t q 2).toNat % 16 = ALIGNMENT - getTailPadding body.length) ∧
        (TAIL_SIZE ≤ t.getSize + 2 → HEADER_SIZE < body.length) := by
      rw [parseNumLanes_iff hle]
      by_cases h2 : 2 < low.length
      · rw [getD_append_lt h2, hstray 2 (by omega)]
        exact ⟨fun h ↦ ⟨fun _ ↦ h, fun hn ↦ absurd hn (by omega)⟩, fun h ↦ h.1 (by omega)⟩
      · rw [hsame 2 (Nat.le_of_not_lt h2), ← parseNumLanes_iff hle, hlanes, Option.some_inj, lanes_iff]
        exact ⟨fun h ↦ ⟨fun hn ↦ absurd hn (by omega), fun _ ↦ h⟩, fun h ↦ h.2 (by omega)⟩
    rw [contributes_iff_of_read ha hread, hflag, hcount]
    constructor
    · rintro ⟨h1, h2, h3⟩
      exact ⟨fun _ ↦ ⟨q, List.getLast?_concat, hq, hcap, h1, h2⟩, h3⟩
    · rintro ⟨h, h3⟩
      obtain ⟨q', hq', -, -, h1, h2⟩ := h hlt
      obtain rfl := Option.some.inj (List.getLast?_concat.symm.trans hq')
      exact ⟨h1, h2, h3⟩
  · refine iff_of_false (fun hc ↦ ?_) fun h ↦ hread ?_
    · obtain ⟨tail, hr⟩ := ha.reads hc
      rcases readTail_fails init hlt (q := q) (by omega) with hf | ⟨e, hf⟩
      · rw [hr] at hf
        cases hf
      · rw [hr] at hf
        cases hf
    · obtain ⟨q', hq', hq, hcap, -⟩ := h.1 hlt
      obtain rfl := Option.some.inj (List.getLast?_concat.symm.trans hq')
      exact ⟨hq, hcap⟩

/-- A buffer with some room behind its payload. -/
def roomy (data : Bytes) : Buf :=
  { data := data ++ List.replicate 32 0, beg := 0, fin := data.length }

theorem roomy_ok (h : data.length + 32 < 2 ^ 16) : (roomy data).Ok := by
  have hl : (data ++ List.replicate 32 (0 : UInt8)).length = data.length + 32 := by
    rw [List.length_append, List.length_replicate]
  refine ⟨Nat.zero_le _, ?_, ?_⟩
  · exact (Nat.le_add_right _ 32).trans hl.ge
  · exact hl.trans_lt h

/-- A fragment in two buffers. -/
def cutAt (n : ℕ) (p : Bytes) : BufChain := [roomy (p.take n)] ++ [roomy (p.drop n)]

theorem bytes_cutAt (n : ℕ) (p : Bytes) : (cutAt n p).bytes = p := by
  have hroomy : ∀ x : Bytes, (roomy x).content = x := fun x ↦ List.take_left
  simp [cutAt, BufChain.bytes, hroomy]

theorem arrived_cutAt {n : ℕ} (hb : Built body eof p) (hp : parse body body.length = some hdr)
    (hn : HEADER_SIZE ≤ min n p.length) (hl : p.length + 32 < 2 ^ 16) :
    Arrived body eof hdr (cutAt n p) := by
  refine ⟨⟨nofun, fun x hx ↦ ?_⟩, ⟨roomy (p.take n), rfl, ?_⟩, (bytes_cutAt n p).symm ▸ hb, hp⟩
  · rcases List.mem_cons.1 hx with rfl | hx
    · apply roomy_ok
      rw [List.length_take]
      omega
    · obtain rfl := List.mem_singleton.1 hx
      apply roomy_ok
      rw [List.length_drop]
      omega
  · change HEADER_SIZE ≤ (p.take n).length - 0
    rw [List.length_take]
    exact hn

/-- The header of a first fragment. -/
def sampleHeader : Bytes := (CDepack2Header.new 0 5).insert

/-- A fragment that is the first and the last one. -/
def sampleFrag (data : Bytes) : Bytes :=
  let body := sampleHeader ++ data
  let r := appendTail (body ++ List.replicate 16 0) body.length true 0
  r.1.take (body.length + r.2)

theorem built_sampleFrag (data : Bytes) : Built (sampleHeader ++ data) true (sampleFrag data) := by
  refine .appendTail 0 List.take_left ?_
  have hl := @List.length_append UInt8 (sampleHeader ++ data) (List.replicate 16 0)
  rw [List.length_replicate] at hl
  exact hl.ge

theorem parse_sampleHeader (n : ℕ) (hn : 8 ≤ n) (rest : Bytes) :
    parse (sampleHeader ++ rest) n =
      some { vers := 2, fragNo := 0, tDest := 5, tId := 0, tUsr1 := 2, crcMode := 2 } := by
  have hl : sampleHeader.length = 8 := CDepack2Header.insert_length _
  rw [parse_take _ hn, List.take_left' hl]
  decide +kernel

/-- One byte, and a tail of which the first byte is in the first buffer. -/
theorem contributes_sample : Contributes true true 0 [0xaa] (cutAt 17 (sampleFrag [0xaa])) := by
  have ha := arrived_cutAt (n := 17) (built_sampleFrag [0xaa])
    (parse_sampleHeader _ (by decide +kernel) _) (by decide +kernel) (by decide +kernel)
  refine (contributes_iff ha).2 ⟨fun _ ↦ ⟨_, rfl, ?_, ?_, ?_, ?_⟩, fun _ ↦ ?_⟩
  · decide +kernel
  · decide +kernel
  · exact fun h ↦ absurd h (by decide +kernel)
  · exact fun h ↦ absurd h (by decide +kernel)
  · decide +kernel

/-- Without payload the tail says that there are no lanes, and 16 bytes should be cut off where
there are 8. -/
theorem not_contributes_empty :
    (∃ hdr, hdr.fragNo = 0 ∧ Arrived sampleHeader true hdr (cutAt 8 (sampleFrag []))) ∧
      ¬Contributes (isFirst sampleHeader) true 0 (sampleHeader.drop HEADER_SIZE)
        (cutAt 8 (sampleFrag [])) := by
  have hb := built_sampleFrag []
  rw [List.append_nil] at hb
  have hp := parse_sampleHeader 8 le_rfl []
  rw [List.append_nil] at hp
  have ha := arrived_cutAt (n := 8) hb hp (by decide +kernel) (by decide +kernel)
  refine ⟨⟨_, rfl, ha⟩, fun hc ↦ ?_⟩
  obtain ⟨tail, hread, -, hlanes⟩ := readTail_whole ha (by decide +kernel)
  obtain ⟨-, hn⟩ := (contributes_iff_of_read ha hread).1 hc
  rw [hlanes] at hn
  exact absurd (Option.some.inj hn) (by decide +kernel)

end Cpsw.TDest
