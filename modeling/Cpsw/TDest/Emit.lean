import Cpsw.TDest.Fragment
import Cpsw.TDest.Send

namespace Cpsw.TDest

open Cpsw.Depack Cpsw.Lib.Assembly

/-- The storage that new buffers come with. -/
structure Storage where
  bytes : Bytes
  le : Buf.CAPA_ETH_HDR ≤ bytes.length
  lt : bytes.length < 2 ^ 16

/-- The buffers of each of the fragments, of which `acc` is the first one so far. -/
def pieces (mtu : ℕ) (acc : BufChain) : BufChain → List BufChain
  | [] => [acc]
  | b :: bufs =>
    if total acc + b.getSize ≤ mtu then pieces mtu (acc ++ [b]) bufs
    else acc :: pieces mtu [b] bufs

/-- A payload, in buffers that fit the MTU and have room for a header. -/
structure Sendable (mtu : ℕ) (c : Chain) : Prop where
  sized : c.Sized
  ok : ∀ b ∈ c.bufs, b.Ok
  room : ∀ b ∈ c.bufs, HEADER_SIZE ≤ b.getHeadroom
  fits : ∀ b ∈ c.bufs, b.getSize ≤ mtu
  pos : 0 < total c.bufs

/-- The fragment with the number `fragNo` and the payload `data`, as it leaves. -/
structure IsFragment (upstream : ℕ) (w : Work) (last : Bool) (data : Bytes) (frag : Chain) : Prop where
  received : Received frag.bufs
  whole : ¬SplitsTail frag.bufs
  view : view frag.bufs = some ⟨w.fragNo == 0, last, w.fragNo % M, data⟩
  dest : extractDest frag.bufs = some w.tdest
  aligned : frag.getSize % ALIGNMENT = 0
  fits : frag.getSize ≤ upstream

variable {mtu : ℕ} {c c' frag : Chain} {b h t : Buf} {bufs rest : BufChain} {w : Work} {n : ℕ}
  {storage : Storage} {tail : Bytes}

theorem total_pos_ne (hp : 0 < total bufs) : bufs ≠ [] := by
  rintro rfl
  simp at hp

theorem pieces_fit (acc : BufChain) (h : total acc + total bufs ≤ mtu) :
    pieces mtu acc bufs = [acc ++ bufs] := by
  induction bufs generalizing acc with
  | nil => simp [pieces]
  | cons b bufs ih =>
    rw [total_cons] at h
    have hb : total acc + b.getSize ≤ mtu := by omega
    simp only [pieces, hb, if_true]
    rw [ih (acc ++ [b]) (by simp; omega), List.append_assoc]
    rfl

theorem pieces_nil (hb : b.getSize ≤ mtu) : pieces mtu [] (b :: bufs) = pieces mtu [b] bufs := by
  simp [pieces, hb]

theorem pieces_ne (acc bufs : BufChain) : pieces mtu acc bufs ≠ [] := by
  induction bufs generalizing acc with
  | nil => simp [pieces]
  | cons b bufs ih =>
    unfold pieces
    split_ifs
    · exact ih _
    · simp

/-- Where the loop stops: some of the buffers have gone, and the next one does not fit. -/
theorem splitLoop_ok (size : ℤ) (hf : frag.Sized) (hs : size = total bufs)
    (hle : total frag.bufs ≤ mtu) (hlt : mtu < total frag.bufs + total bufs)
    (hfits : ∀ b ∈ bufs, b.getSize ≤ mtu) :
    ∃ frag' rest, splitLoop mtu frag size bufs = some (frag', rest) ∧ frag'.Sized ∧ rest.Sized ∧
      frag'.bufs ++ rest.bufs = frag.bufs ++ bufs ∧ 0 < total frag'.bufs ∧ 0 < total rest.bufs ∧
      total frag'.bufs ≤ mtu ∧ pieces mtu frag.bufs bufs = frag'.bufs :: pieces mtu [] rest.bufs := by
  induction bufs generalizing frag size with
  | nil =>
    simp only [total_nil] at hlt
    omega
  | cons b bufs ih =>
    have hb := hfits b List.mem_cons_self
    rw [total_cons] at hlt hs
    simp only [splitLoop, hf.getSize_eq]
    by_cases hc : total frag.bufs + b.getSize ≤ mtu
    · have htot : total (frag.addAtTail b).bufs = total frag.bufs + b.getSize := by
        simp [Chain.addAtTail_bufs]
      obtain ⟨frag', rest, h₁, h₂, h₃, h₄, h₅, h₆, h₇, h₈⟩ := @ih (frag.addAtTail b)
        (size - b.getSize) (hf.addAtTail b) (by omega) (by omega) (by omega)
        (fun x hx ↦ hfits x (List.mem_cons_of_mem _ hx))
      refine ⟨frag', rest, ?_, h₂, h₃, ?_, h₅, h₆, h₇, ?_⟩
      · simp only [hc, if_true, h₁]
      · simp [h₄, Chain.addAtTail_bufs]
      · simp only [pieces, hc, if_true]
        rw [← Chain.addAtTail_bufs, h₈]
    · refine ⟨frag, { bufs := b :: bufs, size := size }, ?_, hf, ?_, rfl, ?_, ?_, hle, ?_⟩
      · simp only [hc, if_false]
      · simp only [Chain.Sized, total_cons, hs]
      · omega
      · rw [total_cons]
        omega
      · simp only [pieces, hc, if_false]
        simp [hb]

/-- The fragment with its header. -/
theorem addHeader_ok (hw : w.stripHeader = true) (hok : h.Ok) (hr : HEADER_SIZE ≤ h.getHeadroom) :
    ∃ h', addHeader w h = .ok h' ∧ h'.Ok ∧
      h'.content = (CDepack2Header.new w.fragNo w.tdest).insert ++ h.content := by
  have hlen : (CDepack2Header.new w.fragNo w.tdest).insert.length = HEADER_SIZE := by
    rw [CDepack2Header.insert_new]
    rfl
  obtain ⟨hok', hc⟩ := @Buf.Ok.prepend h hok (CDepack2Header.new w.fragNo w.tdest).insert
    (by rw [hlen]; exact hr)
  rw [hlen] at hok' hc
  refine ⟨_, ?_, hok', hc⟩
  have hadj := @Buf.adjPayload_neg h HEADER_SIZE hr
  have hsize : ¬({ h with beg := h.beg - HEADER_SIZE } : Buf).getSize < HEADER_SIZE := by
    have h₁ := hok.le
    change HEADER_SIZE ≤ h.beg at hr
    simp only [Buf.getSize]
    omega
  simp [addHeader, hw, hadj, writeHeader, hsize]

/-- What a chain is with `n` more bytes at its end, all of them in its last buffer. -/
structure Extended (n : ℕ) (c c' : Chain) : Prop where
  ok : ∀ b ∈ c'.bufs, b.Ok
  sized : c'.Sized
  bytes : ∃ junk : Bytes, junk.length = n ∧ BufChain.bytes c'.bufs = BufChain.bytes c.bufs ++ junk
  head : ∀ b ∈ c.bufs.head?, ∃ b' ∈ c'.bufs.head?, b.getSize ≤ b'.getSize
  last : ∃ t ∈ c'.bufs.getLast?, n ≤ t.getSize

theorem head_concat (init : BufChain) (t x : Buf) (h : t.getSize ≤ x.getSize) :
    ∀ b ∈ (init ++ [t]).head?, ∃ b' ∈ (init ++ [x]).head?, b.getSize ≤ b'.getSize := by
  cases init with
  | nil =>
    intro b hb
    obtain rfl := Option.some.inj hb
    exact ⟨x, rfl, h⟩
  | cons a init =>
    intro b hb
    exact ⟨b, hb, le_rfl⟩

theorem extend_last {init : BufChain} (hc : c.bufs = init ++ [t]) (hok : ∀ b ∈ c.bufs, b.Ok)
    (hs : c.Sized) (hn : n ≤ t.getAvail) : ∃ t', t.setSize (t.getSize + n : ℕ) = .ok t' ∧
      Extended n c (c.setTail t') := by
  have htok : t.Ok := hok t (by simp [hc])
  have hle := htok.le
  have hfit := htok.fits
  have hcapa := htok.capa
  have hlast : c.bufs.getLast? = some t := by simp [hc]
  unfold Buf.getAvail at hn
  obtain ⟨hok', junk, hj, hcont⟩ := @Buf.Ok.extend t htok n (by omega)
  have hset : t.setSize (t.getSize + n : ℕ) = .ok { t with fin := t.fin + n } := by
    have hsum : t.beg + (t.getSize + n) = t.fin + n := by
      unfold Buf.getSize
      omega
    rw [htok.setSize_eq (by unfold Buf.getSize; omega), hsum, if_neg (by omega)]
  have hbufs : (c.setTail { t with fin := t.fin + n }).bufs = init ++ [{ t with fin := t.fin + n }] := by
    rw [Chain.setTail_bufs hlast, hc, List.dropLast_concat]
  have hsize : ({ t with fin := t.fin + n } : Buf).getSize = t.getSize + n := by
    simp only [Buf.getSize]
    omega
  refine ⟨_, hset, ?_, hs.setTail _, ⟨junk, hj, ?_⟩, ?_, ?_⟩
  · intro b hb
    rw [hbufs, List.mem_append, List.mem_singleton] at hb
    rcases hb with hb | rfl
    · exact hok b (by simp [hc, hb])
    · exact hok'
  · rw [hbufs, hc, bytes_concat, bytes_concat, hcont, List.append_assoc]
  · rw [hbufs, hc]
    apply head_concat
    omega
  · rw [hbufs, List.getLast?_concat]
    exact ⟨_, rfl, by omega⟩

theorem extend_new (storage : Storage) (hok : ∀ b ∈ c.bufs, b.Ok) (hs : c.Sized)
    (hn : n ≤ 16) : ∃ t', (Buf.getBuf storage.bytes).setSize n = .ok t' ∧
      Extended n c (c.addAtTail t') := by
  have hcap : (Buf.getBuf storage.bytes).getCapacity = storage.bytes.length := rfl
  have hle := storage.le
  have hlt := storage.lt
  unfold Buf.CAPA_ETH_HDR at hle
  have hst : (Buf.getBuf storage.bytes).Ok := by
    refine ⟨le_rfl, ?_, hlt⟩
    change 32 ≤ storage.bytes.length
    omega
  have hfin : (Buf.getBuf storage.bytes).fin = 32 := rfl
  have hbeg : (Buf.getBuf storage.bytes).beg = 32 := rfl
  obtain ⟨hok', junk, hj, hcont⟩ := @Buf.Ok.extend _ hst n (by omega)
  have hempty : (Buf.getBuf storage.bytes).content = [] := by
    apply List.eq_nil_of_length_eq_zero
    rw [hst.content_length]
    rfl
  rw [hempty, List.nil_append] at hcont
  have hset : (Buf.getBuf storage.bytes).setSize n =
      .ok { Buf.getBuf storage.bytes with fin := (Buf.getBuf storage.bytes).fin + n } := by
    rw [hst.setSize_eq (by omega), if_neg (by omega)]
    rfl
  refine ⟨_, hset, ?_, hs.addAtTail _, ⟨junk, hj, ?_⟩, ?_, ?_⟩
  · intro b hb
    rw [Chain.addAtTail_bufs, List.mem_append, List.mem_singleton] at hb
    rcases hb with hb | rfl
    · exact hok b hb
    · exact hok'
  · rw [Chain.addAtTail_bufs, bytes_concat, hcont]
  · intro b hb
    rw [Chain.addAtTail_bufs]
    refine ⟨b, ?_, le_rfl⟩
    cases hc : c.bufs with
    | nil => simp [hc] at hb
    | cons a l => simpa [hc] using hb
  · rw [Chain.addAtTail_bufs, List.getLast?_concat]
    refine ⟨_, rfl, ?_⟩
    simp only [Buf.getSize, hfin, hbeg]
    omega

theorem putTail_ok (hok : ∀ b ∈ c.bufs, b.Ok) (hs : c.Sized) (ht : c.bufs.getLast? = some t)
    (hl : tail.length ≤ t.getSize) :
    (∀ b ∈ (putTail tail c).bufs, b.Ok) ∧ (putTail tail c).Sized ∧
      BufChain.bytes (putTail tail c).bufs =
        (BufChain.bytes c.bufs).take (total c.bufs - tail.length) ++ tail ∧
      (∀ b ∈ c.bufs.head?, ∃ b' ∈ (putTail tail c).bufs.head?, b.getSize ≤ b'.getSize) ∧
      ∃ t' ∈ (putTail tail c).bufs.getLast?, t.getSize ≤ t'.getSize := by
  obtain ⟨init, hi⟩ := List.getLast?_eq_some_iff.1 ht
  have htok : t.Ok := hok t (by simp [hi])
  obtain ⟨hok', hc⟩ := @Buf.Ok.writeEnd t htok tail hl
  have hput : putTail tail c = c.setTail (t.writeEnd tail) := by
    simp only [putTail, ht]
  have hbufs : (c.setTail (t.writeEnd tail)).bufs = init ++ [t.writeEnd tail] := by
    rw [Chain.setTail_bufs ht, hi, List.dropLast_concat]
  have hil : (BufChain.bytes init).length = total init :=
    bytes_length fun b hb ↦ hok b (by simp [hi, hb])
  have htl := htok.content_length
  rw [hput]
  refine ⟨?_, hs.setTail _, ?_, ?_, ?_⟩
  · intro b hb
    rw [hbufs, List.mem_append, List.mem_singleton] at hb
    rcases hb with hb | rfl
    · exact hok b (by simp [hi, hb])
    · exact hok'
  · have hsub : total init + t.getSize - tail.length - total init = t.getSize - tail.length := by omega
    have hpre : (BufChain.bytes init).take (total init + t.getSize - tail.length) =
        BufChain.bytes init := List.take_of_length_le (by omega)
    rw [hbufs, hi, bytes_concat, bytes_concat, hc, total_append, total_cons, total_nil,
      Nat.add_zero, List.take_append, hil, hsub, hpre, List.append_assoc]
  · rw [hbufs, hi]
    exact head_concat init t _ le_rfl
  · rw [hbufs, List.getLast?_concat]
    exact ⟨_, rfl, le_rfl⟩

namespace CDepack2Header

/-- The tail of a fragment, with any CRC. -/
theorem insertCrc_mkTail (crc : UInt32) {numLanes : ℕ} (hn : numLanes ≤ ALIGNMENT) (last : Bool) :
    ∃ x y z v : UInt8, insertCrc crc (mkTail numLanes 0 last) =
      [0, if last then 1 else 0, UInt8.ofNat numLanes, 0, x, y, z, v] := by
  have htail : ∀ (n : Fin 9) (l : Bool), mkTail n 0 l =
      [0, if l then 1 else 0, UInt8.ofNat n, 0, 0, 0, 0, 0] := by decide
  have hm : mskn 0 32 = 0 := by decide
  rw [htail ⟨numLanes, Nat.lt_succ_of_le hn⟩ last]
  simp only [insertCrc, setNum, T_CRC_BIT_OFFSET, T_CRC_BIT_SIZE, fieldMask, hm]
  simp [List.range_succ]

theorem parse_mkTail (crc : UInt32) {numLanes : ℕ} (hn : numLanes ≤ ALIGNMENT) (last : Bool) :
    (insertCrc crc (mkTail numLanes 0 last)).length = TAIL_SIZE ∧
    parseTailEOF depack2 (insertCrc crc (mkTail numLanes 0 last)) = last ∧
      parseNumLanes (insertCrc crc (mkTail numLanes 0 last)) = some numLanes := by
  obtain ⟨x, y, z, v, ht⟩ := insertCrc_mkTail crc hn last
  have hlt : numLanes < 9 := Nat.lt_succ_of_le hn
  have hlanes : getNum T_NLANES_BIT_OFFSET T_NLANES_BIT_SIZE
      [0, if last then 1 else 0, UInt8.ofNat numLanes, 0, x, y, z, v] = numLanes := by
    simp [getNum, T_NLANES_BIT_OFFSET, T_NLANES_BIT_SIZE, List.range_succ]
    omega
  rw [ht]
  refine ⟨rfl, ?_, ?_⟩
  · cases last <;> simp [parseTailEOF, depack2]
  · simp only [parseNumLanes, hlanes]
    exact if_neg (Nat.not_lt_of_le hn)

theorem getTailPadding_lt (size : ℕ) : getTailPadding size < ALIGNMENT :=
  Nat.mod_lt _ (by decide)

end CDepack2Header

open CDepack2Header

/-- The bytes of a fragment say what they were made of. -/
theorem viewBytes_fragment (fragNo : ℕ) (tDest : UInt8) (last : Bool) {data pad : Bytes}
    (hdata : 0 < data.length) (hpad : pad.length < ALIGNMENT) (crc : UInt32) :
    viewBytes ((new fragNo tDest).insert ++ data ++ pad ++
      insertCrc crc (mkTail (ALIGNMENT - pad.length) 0 last)) =
        some ⟨fragNo == 0, last, fragNo % M, data⟩ := by
  obtain ⟨htl, heof, hlanes⟩ := parse_mkTail crc (Nat.sub_le ALIGNMENT pad.length) last
  generalize insertCrc crc (mkTail (ALIGNMENT - pad.length) 0 last) = tail at *
  have hhdr : (new fragNo tDest).insert.length = HEADER_SIZE := by
    rw [insert_new]
    rfl
  have hlen : ((new fragNo tDest).insert ++ data ++ pad ++ tail).length =
      HEADER_SIZE + data.length + pad.length + TAIL_SIZE := by
    simp only [List.length_append, hhdr, htl]
  have hsize : 8 ≤ ((new fragNo tDest).insert ++ data ++ pad ++ tail).length := by
    rw [hlen]
    simp only [HEADER_SIZE]
    omega
  obtain ⟨⟨hdr, hparse, hfragNo⟩, -, hfirst⟩ := parse_new fragNo tDest (data ++ pad ++ tail) hsize
  have happend : (new fragNo tDest).insert ++ (data ++ pad ++ tail) =
      (new fragNo tDest).insert ++ data ++ pad ++ tail := by
    simp only [List.append_assoc]
  rw [happend] at hparse hfirst
  have htail : tailBytes ((new fragNo tDest).insert ++ data ++ pad ++ tail) = tail := by
    rw [tailBytes, hlen, Nat.add_sub_cancel]
    apply List.drop_left'
    simp only [List.length_append, hhdr]
  have hcut : ((new fragNo tDest).insert ++ data ++ pad ++ tail).length - HEADER_SIZE -
      (2 * TAIL_SIZE - (ALIGNMENT - pad.length)) = data.length := by
    rw [hlen]
    simp only [TAIL_SIZE, depack2, ALIGNMENT] at *
    omega
  have hkeep : (((new fragNo tDest).insert ++ data ++ pad ++ tail).drop HEADER_SIZE).take
      data.length = data := by
    rw [List.append_assoc, List.append_assoc, List.drop_left' hhdr, List.take_left]
  have h₁ : ¬((new fragNo tDest).insert ++ data ++ pad ++ tail).length < HEADER_SIZE + TAIL_SIZE := by
    omega
  have h₂ : ¬((new fragNo tDest).insert ++ data ++ pad ++ tail).length - HEADER_SIZE <
      2 * TAIL_SIZE - (ALIGNMENT - pad.length) := by
    omega
  simp only [viewBytes, h₁, if_false, hparse, htail, hlanes, h₂, hcut, hkeep, hfirst, heof, hfragNo]
  rfl

/-- The lanes of the last word of the payload; there are none without a payload. -/
def lanes (size : ℕ) : ℕ := if size ≤ HEADER_SIZE then 0 else ALIGNMENT - getTailPadding size

theorem makeTail_ok (storage : Storage) {stripHeader : Bool} (last : Bool)
    (hu : stripHeader = true ∨ last = false) (hok : ∀ b ∈ c.bufs, b.Ok) (hs : c.Sized)
    (hne : c.bufs ≠ []) : ∃ c', makeTail storage.bytes stripHeader last c =
        .ok (c', mkTail (lanes (total c.bufs)) 0 last) ∧
      Extended (getTailPadding (total c.bufs) + TAIL_SIZE) c c' := by
  obtain ⟨t, ht⟩ : ∃ t, c.bufs.getLast? = some t := ⟨_, List.getLast?_eq_some_getLast hne⟩
  obtain ⟨init, hi⟩ := List.getLast?_eq_some_iff.1 ht
  have hpad := getTailPadding_lt (total c.bufs)
  have hlanes : (total c.bufs + (getTailPadding (total c.bufs) + TAIL_SIZE) ≤ HEADER_SIZE + TAIL_SIZE) ↔
      total c.bufs ≤ HEADER_SIZE := by
    simp only [getTailPadding, ALIGNMENT, HEADER_SIZE, TAIL_SIZE, depack2]
    omega
  have hsmall : getTailPadding (total c.bufs) + TAIL_SIZE ≤ 16 := by
    simp only [ALIGNMENT, TAIL_SIZE, depack2] at *
    omega
  have hown : (!stripHeader && last) = false := by
    rcases hu with rfl | rfl
    · rfl
    · exact Bool.and_false _
  simp only [makeTail, ht, hown, Bool.false_eq_true, if_false, hs.getSize_eq, hlanes]
  by_cases hav : t.getAvail ≥ getTailPadding (total c.bufs) + TAIL_SIZE
  · obtain ⟨t', hset, hext⟩ := extend_last hi hok hs hav
    refine ⟨c.setTail t', ?_, hext⟩
    push_cast at hset ⊢
    simp only [hav, if_true, hset, lanes]
  · obtain ⟨t', hset, hext⟩ := extend_new storage hok hs hsmall
    refine ⟨c.addAtTail t', ?_, hext⟩
    push_cast at hset ⊢
    simp only [hav, if_false, hset, lanes]

/-- The chain of a fragment, from the payload to what leaves. -/
theorem emit_ok (storage : Storage) {upstream : ℕ} (last : Bool) (hw : w.stripHeader = true)
    (hok : ∀ b ∈ c.bufs, b.Ok) (hs : c.Sized) (hroom : ∀ b ∈ c.bufs, HEADER_SIZE ≤ b.getHeadroom)
    (hpos : 0 < total c.bufs) (hle : total c.bufs ≤ getMTU upstream) :
    ∃ h bufs h' c' tail, c.bufs = h :: bufs ∧ addHeader w h = .ok h' ∧
      makeTail storage.bytes true last (c.setHead h') = .ok (c', tail) ∧
      ∀ crc, IsFragment upstream w last (BufChain.bytes c.bufs) (putTail (insertCrc crc tail) c') := by
  obtain ⟨h, bufs, hb⟩ := List.exists_cons_of_ne_nil (total_pos_ne hpos)
  have hmem : h ∈ c.bufs := by simp [hb]
  obtain ⟨h', hadd, hok', hcont⟩ := addHeader_ok hw (hok h hmem) (hroom h hmem)
  have hhdr : (new w.fragNo w.tdest).insert.length = HEADER_SIZE := by
    rw [insert_new]
    rfl
  have hsize : h'.getSize = HEADER_SIZE + h.getSize := by
    rw [← hok'.content_length, hcont, List.length_append, hhdr, (hok h hmem).content_length]
  have hbufs : (c.setHead h').bufs = h' :: bufs := Chain.setHead_bufs hb h'
  have htot : total (c.setHead h').bufs = HEADER_SIZE + total c.bufs := by
    rw [hbufs, hb, total_cons, total_cons, hsize, Nat.add_assoc]
  have hoks : ∀ b ∈ (c.setHead h').bufs, b.Ok := by
    intro b hb'
    rw [hbufs] at hb'
    rcases List.mem_cons.1 hb' with rfl | hb'
    · exact hok'
    · exact hok b (by simp [hb, hb'])
  have hbytes : BufChain.bytes (c.setHead h').bufs =
      (new w.fragNo w.tdest).insert ++ BufChain.bytes c.bufs := by
    rw [hbufs, hb]
    simp [BufChain.bytes, hcont]
  have hlanes : lanes (total (c.setHead h').bufs) =
      ALIGNMENT - getTailPadding (total (c.setHead h').bufs) := if_neg (by omega)
  obtain ⟨c', hmake, hext⟩ := makeTail_ok storage last (.inl rfl) hoks (hs.setHead h')
    (by rw [hbufs]; exact List.cons_ne_nil _ _)
  rw [hlanes] at hmake
  refine ⟨h, bufs, h', c', _, hb, hadd, hmake, fun crc ↦ ?_⟩
  obtain ⟨junk, hj, hjunk⟩ := hext.bytes
  obtain ⟨t, ht, hts⟩ := hext.last
  have hpad := getTailPadding_lt (total (c.setHead h').bufs)
  obtain ⟨htl, -, -⟩ := parse_mkTail crc
    (Nat.sub_le ALIGNMENT (getTailPadding (total (c.setHead h').bufs))) last
  obtain ⟨hok₂, hs₂, hbytes₂, hhead₂, t₂, ht₂, hts₂⟩ := putTail_ok hext.ok hext.sized ht
    (htl.le.trans ((Nat.le_add_left _ _).trans hts))
  -- padding is what happens to lie in the storage
  have hlen₁ : (BufChain.bytes c'.bufs).length =
      HEADER_SIZE + total c.bufs + (getTailPadding (total (c.setHead h').bufs) + TAIL_SIZE) := by
    rw [hjunk, List.length_append, hj, bytes_length hoks, htot]
  have hfrag : BufChain.bytes (putTail (insertCrc crc (mkTail
      (ALIGNMENT - getTailPadding (total (c.setHead h').bufs)) 0 last)) c').bufs =
      (new w.fragNo w.tdest).insert ++ BufChain.bytes c.bufs ++
        junk.take (getTailPadding (total (c.setHead h').bufs)) ++
        insertCrc crc (mkTail (ALIGNMENT - getTailPadding (total (c.setHead h').bufs)) 0 last) := by
    have hcut : total c'.bufs - TAIL_SIZE = (BufChain.bytes (c.setHead h').bufs).length +
        getTailPadding (total (c.setHead h').bufs) := by
      rw [← bytes_length hext.ok, hlen₁, bytes_length hoks, htot]
      omega
    rw [hbytes₂, htl, hcut, hjunk, List.take_length_add_append, hbytes]
  have hpl : (junk.take (getTailPadding (total (c.setHead h').bufs))).length =
      getTailPadding (total (c.setHead h').bufs) := by
    rw [List.length_take, hj]
    omega
  have hdl : (BufChain.bytes c.bufs).length = total c.bufs := bytes_length hok
  have hview := @viewBytes_fragment w.fragNo w.tdest last (BufChain.bytes c.bufs)
    (junk.take (getTailPadding (total (c.setHead h').bufs))) (by omega) (by omega) crc
  rw [hpl, ← hfrag] at hview
  have hlen : (BufChain.bytes (putTail (insertCrc crc (mkTail
      (ALIGNMENT - getTailPadding (total (c.setHead h').bufs)) 0 last)) c').bufs).length =
      HEADER_SIZE + total c.bufs + getTailPadding (total (c.setHead h').bufs) + TAIL_SIZE := by
    rw [hfrag]
    simp only [List.length_append, hpl, htl, hhdr, hdl]
  rw [bytes_length hok₂] at hlen
  have hfrag' := hfrag
  generalize putTail (insertCrc crc (mkTail
    (ALIGNMENT - getTailPadding (total (c.setHead h').bufs)) 0 last)) c' = frag at *
  obtain ⟨h₁, hh₁, hhs₁⟩ := hext.head h' (by simp [hbufs])
  obtain ⟨h₂, hh₂, hhs₂⟩ := hhead₂ h₁ hh₁
  have hwhole : HEADER_SIZE ≤ h₂.getSize := by omega
  refine ⟨⟨?_, hok₂⟩, ?_, ?_, ?_, ?_, ?_⟩
  · intro hnil
    simp [hnil] at ht₂
  · rintro ⟨-, -, -, t₃, ht₃, hlt⟩
    obtain rfl := Option.some.inj (ht₂.symm.trans ht₃)
    omega
  · exact (if_pos ⟨h₂, hh₂, hwhole⟩).trans hview
  · cases hfb : frag.bufs with
    | nil => simp [hfb] at hh₂
    | cons b₀ rest₀ =>
      have hb₀ : b₀ = h₂ := by simpa [hfb] using hh₂
      subst hb₀
      rw [hfb] at hfrag' hok₂
      have htake := @head_take b₀ rest₀ (hok₂ b₀ List.mem_cons_self) hwhole
      obtain ⟨-, hdest, -⟩ := parse_new w.fragNo w.tdest [] (le_refl 8)
      rw [List.append_nil] at hdest
      rw [hfrag', List.append_assoc, List.append_assoc,
        List.take_left' (show (new w.fragNo w.tdest).insert.length = 8 from hhdr)] at htake
      simp only [extractDest]
      rw [parseTDest_take _ hwhole, ← htake]
      exact hdest
  · rw [hs₂.getSize_eq, hlen, htot]
    simp only [getTailPadding, ALIGNMENT, HEADER_SIZE, TAIL_SIZE, depack2]
    omega
  · rw [hs₂.getSize_eq, hlen]
    simp only [getMTU, HEADER_SIZE, TAIL_SIZE, ALIGNMENT, depack2] at *
    split_ifs at hle <;> omega

/-- One fragment leaves, with the buffers that fit; the others stay. -/
theorem sendFrag_ok (storage : Storage) {upstream : ℕ} (hw : w.stripHeader = true)
    (hbc : w.bc = some c) (hs : Sendable (getMTU upstream) c) :
    ∃ g gs frag w', pieces (getMTU upstream) [] c.bufs = g :: gs ∧
      sendFrag (getMTU upstream) storage.bytes w = .ok (frag, gs.isEmpty, w') ∧
      IsFragment upstream w gs.isEmpty (BufChain.bytes g) frag ∧ 0 < total g ∧
      (∀ b ∈ g, b.Ok) ∧ w'.fragNo = (w.fragNo + 1) % 2 ^ 32 ∧ w'.tdest = w.tdest ∧
      w'.stripHeader = true ∧
      ((gs = [] ∧ w'.bc = none) ∨ ∃ rest, w'.bc = some rest ∧ Sendable (getMTU upstream) rest ∧
        pieces (getMTU upstream) [] rest.bufs = gs ∧ gs ≠ []) := by
  -- the chain of the fragment
  obtain ⟨bc, rest, gs, htake, hp, hsub, hsz, hpos, hle, hrest⟩ : ∃ bc rest gs,
      takeFrag (getMTU upstream) c = .ok (bc, rest) ∧
      pieces (getMTU upstream) [] c.bufs = bc.bufs :: gs ∧ (∀ b ∈ bc.bufs, b ∈ c.bufs) ∧ bc.Sized ∧
      0 < total bc.bufs ∧ total bc.bufs ≤ getMTU upstream ∧
      ((gs = [] ∧ rest = none) ∨ ∃ r, rest = some r ∧ Sendable (getMTU upstream) r ∧
        pieces (getMTU upstream) [] r.bufs = gs ∧ gs ≠ []) := by
    by_cases hc : total c.bufs ≤ getMTU upstream
    · refine ⟨c, none, [], ?_, ?_, fun b hb ↦ hb, hs.sized, hs.pos, hc, .inl ⟨rfl, rfl⟩⟩
      · simp only [takeFrag, hs.sized.getSize_eq, hc, if_true]
      · simpa using @pieces_fit (getMTU upstream) c.bufs [] (by simpa using hc)
    · obtain ⟨frag, r, hsplit, hfs, hrs, happ, hfpos, hrpos, hfle, hp⟩ :=
        splitLoop_ok c.size Chain.sized_create hs.sized (Nat.zero_le _)
          (by simpa [Chain.create] using hc) hs.fits
      have hmem : ∀ b, b ∈ frag.bufs ∨ b ∈ r.bufs → b ∈ c.bufs := by
        intro b hb
        have hb' : b ∈ frag.bufs ++ r.bufs := List.mem_append.2 hb
        rw [happ] at hb'
        simpa [Chain.create] using hb'
      refine ⟨frag, some r, _, ?_, hp, fun b hb ↦ hmem b (.inl hb), hfs, hfpos, hfle,
        .inr ⟨r, rfl, ⟨hrs, ?_, ?_, ?_, hrpos⟩, rfl, ?_⟩⟩
      · simp only [takeFrag, hs.sized.getSize_eq, hc, if_false, hsplit, total_pos_ne hfpos]
      · exact fun b hb ↦ hs.ok b (hmem b (.inr hb))
      · exact fun b hb ↦ hs.room b (hmem b (.inr hb))
      · exact fun b hb ↦ hs.fits b (hmem b (.inr hb))
      · exact pieces_ne _ _
  have hlast : rest.isNone = gs.isEmpty := by
    rcases hrest with ⟨rfl, rfl⟩ | ⟨r, rfl, -, -, hne⟩
    · rfl
    · simp [hne]
  obtain ⟨h, bufs, h', c', tail, hb, hadd, hmake, hfrag⟩ := emit_ok storage gs.isEmpty hw
    (fun b hb ↦ hs.ok b (hsub b hb)) hsz (fun b hb ↦ hs.room b (hsub b hb)) hpos hle
  let crc := fragCrc (new w.fragNo w.tdest).crcMode w.crc (putTail tail c')
  refine ⟨bc.bufs, gs, _, { w with bc := rest, fragNo := (w.fragNo + 1) % 2 ^ 32, crc := crc }, hp,
    ?_, hfrag (~~~crc), hpos, fun b hb ↦ hs.ok b (hsub b hb), rfl, rfl, hw, hrest⟩
  simp only [sendFrag, hbc, htake, hb, hadd, hw, hlast, hmake, crc]

end Cpsw.TDest
