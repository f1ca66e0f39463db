import Cpsw.TDest.Emit

namespace Cpsw.TDest

open Cpsw.Depack

namespace CDepack2Header

/-- The buffer with a tail behind its first `size` bytes, and what the fragment grows by. The bytes
that pad it stay as they are. -/
def appendTail (bufBase : Bytes) (size : ℕ) (eof : Bool) (tUsr2 : UInt8) : Bytes × ℕ :=
  let pad := getTailPadding size
  let numLanes := if size > HEADER_SIZE then 8 - pad else 0
  (bufBase.take (size + pad) ++ mkTail numLanes tUsr2.toNat eof ++
    bufBase.drop (size + pad + TAIL_SIZE), pad + TAIL_SIZE)

/-- The bytes that make the fragment whole words, and the tail. -/
structure Suffix (size : ℕ) (eof : Bool) (pad tail : Bytes) : Prop where
  pad_length : pad.length = getTailPadding size
  tail_length : tail.length = TAIL_SIZE
  tail_eof : parseTailEOF depack2 tail = eof
  tail_lanes : parseNumLanes tail =
    some (lanes size)

theorem mkTail_eq {numLanes : ℕ} (hn : numLanes ≤ ALIGNMENT) (tUsr2 : UInt8) (last : Bool) :
    mkTail numLanes tUsr2.toNat last =
      [tUsr2, if last then 1 else 0, UInt8.ofNat numLanes, 0, 0, 0, 0, 0] := by
  have hlanes : ∀ n : Fin 9, insertNumLanes n (iniTail depack2) =
      [0, 0, UInt8.ofNat n, 0, 0, 0, 0, 0] := by decide
  unfold mkTail
  rw [hlanes ⟨numLanes, Nat.lt_succ_of_le hn⟩]
  unfold insertTUsr2
  rw [T_TUSR2_BIT_OFFSET, T_TUSR2_BIT_SIZE, setNum_byte rfl]
  cases last <;> simp [insertTailEOF, depack2]

/-- Of a tail, only the second and the third byte are looked at. -/
theorem parseTailEOF_iff (tail : Bytes) :
    parseTailEOF depack2 tail = true ↔ (tail.getD 1 0).toNat % 2 = 1 := by
  change ((tail.getD 1 0 &&& 1) != 0) = true ↔ _
  generalize tail.getD 1 0 = x
  have hx : (x &&& 1).toNat = x.toNat % 2 := by
    rw [UInt8.toNat_and]
    exact Nat.and_one_is_mod _
  rw [bne_iff_ne, ne_eq, ← UInt8.toNat_inj, hx]
  change ¬x.toNat % 2 = 0 ↔ _
  omega

theorem getNum_lanes (tail : Bytes) :
    getNum T_NLANES_BIT_OFFSET T_NLANES_BIT_SIZE tail = (tail.getD 2 0).toNat % 16 := by
  have hlt := UInt8.toNat_lt (tail.getD 2 0)
  simp only [getNum, T_NLANES_BIT_OFFSET, T_NLANES_BIT_SIZE, List.range_succ]
  simp

theorem parseNumLanes_iff {tail : Bytes} {n : ℕ} (hn : n ≤ ALIGNMENT) :
    parseNumLanes tail = some n ↔ (tail.getD 2 0).toNat % 16 = n := by
  unfold parseNumLanes
  dsimp only
  rw [getNum_lanes]
  split_ifs with h
  · simp only [false_iff]
    omega
  · exact Option.some_inj

theorem lanes_le (size : ℕ) : lanes size ≤ ALIGNMENT := by
  unfold lanes
  split_ifs
  · exact Nat.zero_le _
  · exact Nat.sub_le _ _

theorem suffix_of {size : ℕ} {eof : Bool} {pad : Bytes} (tUsr2 x y z v : UInt8)
    (hpad : pad.length = getTailPadding size) :
    Suffix size eof pad [tUsr2, if eof then 1 else 0, UInt8.ofNat (lanes size), 0, x, y, z, v] := by
  have hle := lanes_le size
  refine ⟨hpad, rfl, ?_, ?_⟩
  · rw [Bool.eq_iff_iff, parseTailEOF_iff]
    cases eof
    · refine iff_of_false ?_ Bool.false_ne_true
      change ¬(0 : UInt8).toNat % 2 = 1
      decide
    · refine iff_of_true ?_ rfl
      change (1 : UInt8).toNat % 2 = 1
      decide
  · rw [parseNumLanes_iff hle]
    change (UInt8.ofNat (lanes size)).toNat % 16 = lanes size
    rw [UInt8.toNat_ofNat']
    change (lanes size) ≤ 8 at hle
    omega

end CDepack2Header

open CDepack2Header

variable {body p pad tail : Bytes} {eof : Bool} {c c' frag : Chain} {bc : BufChain} {b t : Buf}
  {storage : Storage} {w w' : Work} {mtu : ℕ}

/-- The bytes of a fragment: `body`, the header and the payload, and what `appendTail` or `sendFrag`
puts behind them. -/
inductive Built (body : Bytes) (eof : Bool) : Bytes → Prop
  | appendTail {buf : Bytes} (tUsr2 : UInt8) :
    buf.take body.length = body → body.length + 2 * TAIL_SIZE ≤ buf.length →
      Built body eof ((appendTail buf body.length eof tUsr2).1.take
        (body.length + (appendTail buf body.length eof tUsr2).2))
  | sendFrag {storage : Storage} {stripHeader : Bool} {c c' : Chain} {tail : Bytes} (crc : UInt32) :
    (∀ b ∈ c.bufs, b.Ok) → c.Sized → BufChain.bytes c.bufs = body →
      (stripHeader = true ∨ eof = false) →
      makeTail storage.bytes stripHeader eof c = .ok (c', tail) →
        Built body eof (BufChain.bytes (putTail (insertCrc crc tail) c').bufs)

theorem suffix_appendTail {buf : Bytes} (tUsr2 : UInt8) (hbuf : buf.take body.length = body)
    (hl : body.length + 2 * TAIL_SIZE ≤ buf.length) : ∃ pad tail,
      (appendTail buf body.length eof tUsr2).1.take
        (body.length + (appendTail buf body.length eof tUsr2).2) = body ++ pad ++ tail ∧
      Suffix body.length eof pad tail := by
  have hpad := getTailPadding_lt body.length
  change getTailPadding body.length < 8 at hpad
  change body.length + 16 ≤ buf.length at hl
  have hlanes : (if body.length > HEADER_SIZE then 8 - getTailPadding body.length else 0) =
      lanes body.length := by
    unfold lanes
    split_ifs with h₁ h₂ h₂
    · exact absurd h₂ (Nat.not_le_of_lt h₁)
    · rfl
    · rfl
    · exact absurd (Nat.lt_of_not_le h₂) h₁
  refine ⟨(buf.drop body.length).take (getTailPadding body.length), _, ?_,
    suffix_of tUsr2 0 0 0 0 ?_⟩
  · have htake : buf.take (body.length + getTailPadding body.length) =
        body ++ (buf.drop body.length).take (getTailPadding body.length) := by
      rw [List.take_add, hbuf]
    unfold appendTail
    dsimp only
    rw [hlanes, mkTail_eq (lanes_le _), htake, List.take_left']
    simp only [List.length_append, List.length_take, List.length_drop, List.length_cons,
      List.length_nil]
    change _ = body.length + (getTailPadding body.length + 8)
    omega
  · rw [List.length_take, List.length_drop]
    omega

theorem suffix_sendFrag {stripHeader : Bool} (crc : UInt32) (hok : ∀ b ∈ c.bufs, b.Ok) (hs : c.Sized)
    (hbody : BufChain.bytes c.bufs = body) (hu : stripHeader = true ∨ eof = false)
    (hmake : makeTail storage.bytes stripHeader eof c = .ok (c', tail)) : ∃ pad tail',
      BufChain.bytes (putTail (insertCrc crc tail) c').bufs = body ++ pad ++ tail' ∧
      Suffix body.length eof pad tail' := by
  have hne : c.bufs ≠ [] := by
    intro hn
    unfold makeTail at hmake
    rw [hn] at hmake
    cases hmake
  obtain ⟨c₁, hmake₁, hext⟩ := makeTail_ok storage eof hu hok hs hne
  obtain ⟨rfl, rfl⟩ : c' = c₁ ∧ tail = mkTail (lanes (total c.bufs)) 0 eof := by
    simpa using hmake.symm.trans hmake₁
  have hl : body.length = total c.bufs := by
    rw [← hbody]
    exact bytes_length hok
  obtain ⟨junk, hj, hjunk⟩ := hext.bytes
  obtain ⟨t, ht, hts⟩ := hext.last
  obtain ⟨x, y, z, v, hcrc⟩ := insertCrc_mkTail crc (lanes_le (total c.bufs)) eof
  have hle : (insertCrc crc (mkTail (lanes (total c.bufs)) 0 eof)).length ≤ t.getSize := by
    rw [hcrc]
    change 8 ≤ t.getSize
    change _ + 8 ≤ _ at hts
    omega
  obtain ⟨-, -, hbytes, -⟩ := putTail_ok hext.ok hext.sized ht hle
  refine ⟨junk.take (getTailPadding body.length), _, ?_, suffix_of 0 x y z v ?_⟩
  · have hcut : total c'.bufs - 8 = body.length + getTailPadding body.length := by
      rw [← bytes_length hext.ok, hjunk, List.length_append, hj, hbody, hl]
      change _ + (_ + 8) - 8 = _
      omega
    rw [hbytes, hcrc, ← hl]
    change (BufChain.bytes c'.bufs).take (total c'.bufs - 8) ++ _ = _
    rw [hcut, hjunk, hbody, List.take_length_add_append]
  · rw [List.length_take, hj, hl]
    omega

theorem Built.suffix (h : Built body eof p) : ∃ pad tail, p = body ++ pad ++ tail ∧
    Suffix body.length eof pad tail := by
  cases h with
  | appendTail tUsr2 hbuf hl => exact suffix_appendTail tUsr2 hbuf hl
  | sendFrag crc hok hs hbody hu hmake => exact suffix_sendFrag crc hok hs hbody hu hmake

theorem foldl_set_length (i : ℕ → ℕ) (x : Bytes → ℕ → UInt8) (l : List ℕ) (p : Bytes) :
    (l.foldl (fun p k ↦ p.set (i k) (x p k)) p).length = p.length := by
  induction l generalizing p with
  | nil => rfl
  | cons k l ih => rw [List.foldl_cons, ih, List.length_set]

theorem setNum_length (off bitSize val : ℕ) (p : Bytes) :
    (setNum off bitSize val p).length = p.length := by
  unfold setNum
  split_ifs
  · rfl
  · exact foldl_set_length _ _ _ _

theorem CDepack2Header.insert_length (h : CDepack2Header) : h.insert.length = HEADER_SIZE := by
  unfold insert
  rw [setNum_length]
  split_ifs
  · rw [List.length_set, PackHeader.insert, setNum_length, setNum_length, setNum_length,
      setNum_length, setNum_length]
    rfl
  · rw [PackHeader.insert, setNum_length, setNum_length, setNum_length, setNum_length, setNum_length]
    rfl

theorem adjPayload_getD_ok (hok : b.Ok) (delta : ℤ) : ((b.adjPayload delta).getD b).Ok := by
  have hle := hok.le
  unfold Buf.adjPayload
  split_ifs with h
  · exact hok
  · refine ⟨?_, hok.fits, hok.capa⟩
    unfold Buf.getSize at h
    change (b.beg + delta).toNat ≤ b.fin
    omega

theorem writeHeader_ok {hdr : CDepack2Header} {h h' : Buf} (hok : h.Ok)
    (hw : writeHeader hdr h = .ok h') : h'.Ok := by
  unfold writeHeader at hw
  split_ifs at hw with hs
  cases hw
  refine (hok.write ?_).1
  rw [hdr.insert_length]
  omega

theorem addHeader_keeps {h h' : Buf} (hok : h.Ok) (ha : addHeader w h = .ok h') : h'.Ok := by
  unfold addHeader at ha
  split_ifs at ha
  · split at ha
    · cases ha
    · exact writeHeader_ok hok ha
  · exact writeHeader_ok (adjPayload_getD_ok hok _) ha

theorem splitLoop_keeps {size : ℤ} {bufs : BufChain} {rest : Chain} (hf : frag.Sized)
    (h : splitLoop mtu frag size bufs = some (c, rest)) :
    c.Sized ∧ ∀ b ∈ c.bufs, b ∈ frag.bufs ++ bufs := by
  induction bufs generalizing frag size with
  | nil => cases h
  | cons b bufs ih =>
    unfold splitLoop at h
    split_ifs at h
    · obtain ⟨hc, hmem⟩ := ih (hf.addAtTail b) h
      refine ⟨hc, fun x hx ↦ ?_⟩
      have := hmem x hx
      rwa [Chain.addAtTail_bufs, List.append_assoc] at this
    · cases h
      exact ⟨hf, fun x hx ↦ List.mem_append_left _ hx⟩

theorem takeFrag_keeps {rest : Option Chain} (hs : c.Sized) (h : takeFrag mtu c = .ok (c', rest)) :
    c'.Sized ∧ ∀ b ∈ c'.bufs, b ∈ c.bufs := by
  unfold takeFrag at h
  split_ifs at h
  · cases h
    exact ⟨hs, fun b hb ↦ hb⟩
  · split at h
    · cases h
    · rename_i hsplit
      split_ifs at h
      cases h
      exact splitLoop_keeps Chain.sized_create hsplit

end Cpsw.TDest
