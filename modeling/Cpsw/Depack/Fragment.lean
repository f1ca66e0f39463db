import Cpsw.Depack.Receive

namespace Cpsw.Depack

theorem parse_of_le (p : Bytes) {n : ℕ} (h : 8 ≤ n) : CAxisFrameHeader.parse p n =
    if getNum 0 4 p ≠ 0 then none
    else some { vers := getNum 0 4 p, fragNo := getNum 16 24 p,
                tDest := UInt8.ofNat (getNum 40 8 p), tId := UInt8.ofNat (getNum 48 8 p),
                tUsr1 := UInt8.ofNat (getNum 56 8 p), frameNo := getNum 4 12 p } := by
  have h₁ : ¬n < (VERSION_BIT_OFFSET + VERSION_BIT_SIZE + 7) / 8 := by
    change ¬n < 1
    omega
  have h₂ : ¬n < HEADER_SIZE := Nat.not_lt_of_le h
  unfold CAxisFrameHeader.parse PackHeader.parse
  rw [if_neg h₁, if_neg h₂]
  by_cases hv : getNum VERSION_BIT_OFFSET VERSION_BIT_SIZE p = axis.VERSION
  · rw [if_neg (fun hn ↦ hn hv)]
    exact (if_neg (fun hn ↦ hn hv)).symm
  · rw [if_pos hv]
    exact (if_pos hv).symm

/-- The header is within the first eight bytes. -/
theorem parse_take (p : Bytes) {n : ℕ} (h : 8 ≤ n) :
    CAxisFrameHeader.parse p n = CAxisFrameHeader.parse (p.take 8) 8 := by
  have hnum : ∀ {off bits : ℕ}, off / 8 + (off % 8 + bits + 7) / 8 ≤ 8 →
      getNum off bits (p.take 8) = getNum off bits p := fun hb ↦ getNum_take p hb
  rw [parse_of_le p h, parse_of_le _ le_rfl, hnum (by decide), hnum (by decide), hnum (by decide),
    hnum (by decide), hnum (by decide), hnum (by decide)]

variable {p : Bytes} {bc : BufChain} {g last : ℕ}

/-- The bytes between the header and the tail. -/
def payload (p : Bytes) : Bytes := (p.drop HEADER_SIZE).dropLast

/-- The byte of the tail. -/
def tail (p : Bytes) : Bytes := p.drop (p.length - axis.TAIL_SIZE)

/-- The fragment `p` in any buffers, with the header in the first one and the tail in the last. -/
structure Carries (bc : BufChain) (p : Bytes) : Prop where
  ok : ∀ b ∈ bc, b.Ok
  bytes : bc.bytes = p
  head : ∀ bh ∈ bc.head?, HEADER_SIZE ≤ bh.getSize
  last : ∀ bt ∈ bc.getLast?, axis.TAIL_SIZE ≤ bt.getSize

theorem split_fragment (h : HEADER_SIZE + axis.TAIL_SIZE ≤ p.length) :
    p = p.take HEADER_SIZE ++ payload p ++ tail p := by
  have h₁ : p.drop HEADER_SIZE = payload p ++ tail p := by
    have h₂ : (p.drop HEADER_SIZE).drop ((p.drop HEADER_SIZE).length - 1) = tail p := by
      unfold tail
      change 8 + 1 ≤ p.length at h
      simp only [List.drop_drop, List.length_drop, HEADER_SIZE, axis]
      congr 1
      omega
    rw [payload, ← h₂, List.dropLast_eq_take, List.take_append_drop]
  rw [List.append_assoc, ← h₁, List.take_append_drop]

theorem Carries.cons (h : Carries bc p) (hp : HEADER_SIZE + axis.TAIL_SIZE ≤ p.length) :
    ∃ bh rest, bc = bh :: rest ∧ HEADER_SIZE ≤ bh.getSize := by
  cases bc with
  | nil =>
    have := h.bytes
    subst this
    contradiction
  | cons bh rest => exact ⟨bh, rest, rfl, h.head bh rfl⟩

theorem Carries.parse {bh : Buf} {rest : BufChain} (h : Carries (bh :: rest) p) :
    CAxisFrameHeader.parse bh.getPayload bh.getSize = CAxisFrameHeader.parse p p.length := by
  have hs : 8 ≤ bh.getSize := h.head bh rfl
  have hl := (h.ok bh List.mem_cons_self).content_length
  have hp : p = bh.content ++ BufChain.bytes rest := h.bytes.symm
  have ht : p.take 8 = bh.getPayload.take 8 := by
    rw [hp, List.take_append_of_le_length (by omega), Buf.content, List.take_take,
      Nat.min_eq_left hs]
  have hlen : 8 ≤ p.length := by
    rw [hp, List.length_append]
    omega
  rw [parse_take _ hs, parse_take _ hlen, ht]

/-- Skipping the header, or not. -/
theorem Carries.skipHead {bh : Buf} {rest : BufChain} (h : Carries (bh :: rest) p)
    (hp : HEADER_SIZE + axis.TAIL_SIZE ≤ p.length) :
    ∃ bh', bh.setPayload HEADER_SIZE = .ok bh' ∧ (∀ b ∈ bh' :: rest, b.Ok) ∧
      BufChain.bytes (bh' :: rest) = p.drop HEADER_SIZE ∧
        ∀ bt ∈ (bh' :: rest).getLast?, axis.TAIL_SIZE ≤ bt.getSize := by
  have hok := h.ok bh List.mem_cons_self
  have hs : HEADER_SIZE ≤ bh.getSize := h.head bh rfl
  have hl := hok.content_length
  have hbytes : BufChain.bytes ({ bh with beg := bh.beg + HEADER_SIZE } :: rest) =
      p.drop HEADER_SIZE := by
    have hp' : p = bh.content ++ BufChain.bytes rest := h.bytes.symm
    rw [hp', List.drop_append_of_le_length (by omega), ← Buf.content_drop]
    rfl
  refine ⟨{ bh with beg := bh.beg + HEADER_SIZE }, hok.setPayload_eq hs, fun b hb ↦ ?_, hbytes, ?_⟩
  · rcases List.mem_cons.1 hb with rfl | hb
    · have h₁ := hok.le
      have h₂ := hok.fits
      have h₃ := hok.capa
      unfold Buf.getSize at hs
      refine ⟨?_, h₂, h₃⟩
      change bh.beg + 8 ≤ bh.fin
      change 8 ≤ bh.fin - bh.beg at hs
      omega
    · exact h.ok b (List.mem_cons_of_mem _ hb)
  · cases rest with
    | nil =>
      intro bt hbt
      obtain rfl := Option.some.inj hbt
      have hb : bh.content = p := by simpa [BufChain.bytes] using h.bytes
      have hlen : bh.content.length = p.length := congrArg List.length hb
      change 8 + 1 ≤ p.length at hp
      change 1 ≤ bh.fin - (bh.beg + 8)
      unfold Buf.getSize at hl
      omega
    | cons b rest =>
      intro bt hbt
      exact h.last bt (by simpa using hbt)

/-- Cutting off the tail. -/
theorem skipTail {c : BufChain} {bt : Buf} (hok : ∀ b ∈ c, b.Ok) (hlast : c.getLast? = some bt)
    (hs : axis.TAIL_SIZE ≤ bt.getSize) :
    ∃ bt', bt.setSize ((bt.getSize : ℤ) - axis.TAIL_SIZE) = .ok bt' ∧
      BufChain.bytes (c.dropLast ++ [bt']) = c.bytes.dropLast := by
  obtain ⟨init, rfl⟩ := List.getLast?_eq_some_iff.1 hlast
  have hbt := hok bt (by simp)
  have hl := hbt.content_length
  change 1 ≤ bt.getSize at hs
  refine ⟨{ bt with fin := bt.fin - 1 }, hbt.setSize_pred hs, ?_⟩
  have hne : bt.content ≠ [] := by
    rintro he
    rw [he] at hl
    change 0 = _ at hl
    omega
  rw [List.dropLast_concat, BufChain.bytes_append, BufChain.bytes_append]
  simp only [BufChain.bytes, List.flatMap_cons, List.flatMap_nil, List.append_nil]
  rw [List.dropLast_append_of_ne_nil hne, Buf.content_shrink, List.dropLast_eq_take, hl]

/-- What is left of the fragment `g` of a frame whose last one is `last`. -/
def kept (g last : ℕ) (p : Bytes) : Bytes :=
  (if g = 0 then p.take HEADER_SIZE else []) ++ payload p ++ (if g = last then tail p else [])

theorem Carries.trim (h : Carries bc p) (hp : HEADER_SIZE + axis.TAIL_SIZE ≤ p.length) :
    ∃ bc', CProtoModDepack.trim g last bc = .ok bc' ∧ bc'.bytes = kept g last p := by
  obtain ⟨bh, rest, rfl, -⟩ := h.cons hp
  have hsplit := split_fragment hp
  have hlen : p.length = 8 + (payload p).length + 1 := by
    change 8 + 1 ≤ p.length at hp
    simp only [payload, List.length_dropLast, List.length_drop, HEADER_SIZE]
    omega
  -- the chain without its header, where the header is to be skipped
  obtain ⟨c, hc, hok, hbytes, bt, hbt, hs⟩ : ∃ c : BufChain,
      CProtoModDepack.trim g last (bh :: rest) =
        (if g ≠ last then
          c.getLast?.elim (pure c) fun bt ↦ do
            let bt ← bt.setSize ((bt.getSize : ℤ) - axis.TAIL_SIZE)
            pure (c.dropLast ++ [bt])
        else pure c) ∧ (∀ b ∈ c, b.Ok) ∧
        c.bytes = (if g = 0 then p.take HEADER_SIZE else []) ++ payload p ++ tail p ∧
          ∃ bt, c.getLast? = some bt ∧ axis.TAIL_SIZE ≤ bt.getSize := by
    by_cases hg : g = 0
    · refine ⟨bh :: rest, if_neg (fun hn ↦ hn hg), h.ok, ?_, _, List.getLast?_cons, ?_⟩
      · rw [if_pos hg, ← hsplit]
        exact h.bytes
      · exact h.last _ List.getLast?_cons
    · obtain ⟨bh', hb, hok, hbytes, hl⟩ := h.skipHead hp
      refine ⟨bh' :: rest, ?_, hok, ?_, _, List.getLast?_cons, hl _ List.getLast?_cons⟩
      · refine (if_pos hg).trans ?_
        simp only [hb]
        rfl
      · rw [if_neg hg, hbytes]
        conv_lhs => rw [hsplit]
        have h8 : (p.take HEADER_SIZE).length = HEADER_SIZE := by
          rw [List.length_take]
          change 8 + 1 ≤ p.length at hp
          change min 8 p.length = 8
          omega
        rw [List.append_assoc, List.drop_left' h8]
        rfl
  obtain ⟨bt', ht, hcut⟩ := skipTail hok hbt hs
  have htail : (tail p).length = 1 := by
    unfold tail
    rw [List.length_drop]
    change p.length - (p.length - 1) = 1
    omega
  rw [hc]
  by_cases hg : g = last
  · refine ⟨c, if_neg (fun hn ↦ hn hg), ?_⟩
    rw [kept, if_pos hg, hbytes]
  · refine ⟨c.dropLast ++ [bt'], ?_, ?_⟩
    · rw [if_pos hg, hbt, Option.elim_some]
      simp only [ht]
      rfl
    · obtain ⟨x, hx⟩ := List.length_eq_one_iff.1 htail
      rw [hcut, hbytes, kept, if_neg hg, hx, List.dropLast_concat, List.append_nil]

theorem Carries.tailEOF (h : Carries bc p) (hp : HEADER_SIZE + axis.TAIL_SIZE ≤ p.length) :
    CProtoModDepack.tailEOF bc = parseTailEOF axis (tail p) := by
  obtain ⟨bh, rest, rfl, -⟩ := h.cons hp
  cases hbt : (bh :: rest).getLast? with
  | none => simp at hbt
  | some bt =>
    have hs : 1 ≤ bt.getSize := h.last bt hbt
    obtain ⟨init, hi⟩ := List.getLast?_eq_some_iff.1 hbt
    have hok := h.ok bt (by rw [hi]; simp)
    have hl := hok.content_length
    have hfit := hok.fits
    have hpb : p = BufChain.bytes init ++ bt.content := by
      rw [← h.bytes, hi, BufChain.bytes_append]
      simp [BufChain.bytes]
    have hbyte : (bt.data.drop (bt.fin - 1)).getD 0 0 = (tail p).getD 0 0 := by
      unfold tail
      simp only [List.getD_eq_getElem?_getD, List.getElem?_drop, Nat.add_zero]
      have hpl : p.length = (BufChain.bytes init).length + bt.getSize := by
        rw [hpb, List.length_append, hl]
      change _ = (p[p.length - 1]?).getD 0
      rw [hpl]
      conv_rhs => rw [hpb]
      rw [List.getElem?_append_right (by omega)]
      unfold Buf.content Buf.getPayload
      unfold Buf.getSize at *
      rw [List.getElem?_take_of_lt (by omega), List.getElem?_drop]
      congr 2
      omega
    unfold CProtoModDepack.tailEOF parseTailEOF
    rw [hbt]
    dsimp only [axis]
    change ((bt.data.drop (bt.fin - 1)).getD 0 0 &&& _ != 0) = ((tail p).getD 0 0 &&& _ != 0)
    rw [hbyte]

end Cpsw.Depack
