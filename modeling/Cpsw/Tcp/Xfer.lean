import Cpsw.Buf
import Mathlib.Algebra.Order.BigOperators.Group.List
import Mathlib.Tactic.SplitIfs

namespace Cpsw.Tcp

/-- `struct iovec`: the `len` bytes from `getPayload() + base` on, in the storage of `buf`. -/
structure IoVec where
  buf : Buf
  base : ℕ
  len : ℕ
  deriving DecidableEq, Repr

inductive TcpError
  | readLength
  | xfer (nm : String)
  | tooManyFragments
  | headroom
  | nullHead
  | buf (err : BufError)
  | blocked
  deriving DecidableEq, Repr

/-- The texts of the exceptions. There is none for a call that is still `blocked`, nor for a null
pointer that is followed. -/
def TcpError.text : TcpError → Option String
  | .readLength => some "TCP reading length: "
  | .xfer nm => some ("TCP: " ++ nm ++ " error: ")
  | .tooManyFragments => some "Too many TCP fragments"
  | .headroom => some "CProtoModTcp: not enough headroom to prepend size"
  | .buf err => some err.text
  | .nullHead => none
  | .blocked => none

namespace IoVec

/-- The bytes that the entry describes. -/
def bytes (v : IoVec) : Bytes := (v.buf.getPayload.drop v.base).take v.len

/-- What lies before the end of the described bytes: those that are there already, and these. -/
def stored (v : IoVec) : Bytes := v.buf.getPayload.take (v.base + v.len)

/-- The entry lies within the storage. -/
def Room (v : IoVec) : Prop :=
  v.buf.beg ≤ v.buf.getCapacity ∧ v.base + v.len ≤ v.buf.getPayload.length

end IoVec

/-- The number of bytes that a vector describes. -/
def lens (iov : List IoVec) : ℕ := (iov.map IoVec.len).sum

/-- What `readv` does to the storage: the entries are filled one after the other. -/
def scatter : Bytes → List IoVec → List IoVec
  | _, [] => []
  | bs, v :: iov =>
    { v with buf := v.buf.write v.base (bs.take v.len) } :: scatter (bs.drop v.len) iov

/-- A `writev` that returns `xfr`; the bytes join those that are already on their way. -/
def writev (xfr : ℕ) (stream : Bytes) (iov : List IoVec) : Bytes × List IoVec :=
  (stream ++ (iov.flatMap IoVec.bytes).take xfr, iov)

/-- A `readv` that returns `xfr`. -/
def readv (xfr : ℕ) (stream : Bytes) (iov : List IoVec) : Bytes × List IoVec :=
  (stream.drop xfr, scatter (stream.take xfr) iov)

/-- The inner loop of `xfer`: the entries that `iop` passes, and those from the new `iop` on. The
passed ones stay as they are. -/
def advance : ℕ → List IoVec → List IoVec × List IoVec
  -- here `xfr` is 0, and whatever `iop` points to keeps its base and length
  | _, [] => ([], [])
  | xfr, v :: iov =>
    if v.len ≤ xfr then ((v :: (advance (xfr - v.len) iov).1), (advance (xfr - v.len) iov).2)
    else ([], { v with base := v.base + xfr, len := v.len - xfr } :: iov)

/-- `xfer`, where the calls of `op` return `cuts`; the vector as it is left. -/
def xfer (nm : String) (op : ℕ → Bytes → List IoVec → Bytes × List IoVec) :
    List ℕ → Bytes → List IoVec → ℕ → Except TcpError (Bytes × List IoVec)
  | [], stream, iov, len => if 0 < len then .error .blocked else .ok (stream, iov)
  | xfr :: cuts, stream, iov, len =>
    if 0 < len then
      if xfr = 0 then .error (.xfer nm)
      else
        let (stream, iov) := op xfr stream iov
        let (passed, iop) := advance xfr iov
        -- the entries that were passed and the last, partial one add up to what was transferred
        match xfer nm op cuts stream iop (len - xfr) with
        | .error err => .error err
        | .ok (stream, iov) => .ok (stream, passed ++ iov)
    else .ok (stream, iov)

/-- The results of the calls that transfer `n` bytes together: each of them at least one byte. -/
structure Cuts (n : ℕ) (cuts : List ℕ) : Prop where
  pos : ∀ c ∈ cuts, 0 < c
  sum : cuts.sum = n

variable {iov vs ws : List IoVec} {v w : IoVec} {cuts : List ℕ} {stream s p : Bytes} {c n : ℕ}

@[simp] theorem lens_nil : lens [] = 0 := rfl

@[simp] theorem lens_cons (v : IoVec) (iov : List IoVec) : lens (v :: iov) = v.len + lens iov := by
  simp [lens]

theorem Cuts.nil (h : Cuts n []) : n = 0 := h.sum.symm

theorem Cuts.tail (h : Cuts n (c :: cuts)) : Cuts (n - c) cuts := by
  refine ⟨fun x hx ↦ h.pos x (List.mem_cons_of_mem c hx), ?_⟩
  have hs := h.sum
  rw [List.sum_cons] at hs
  omega

theorem Cuts.le (h : Cuts n (c :: cuts)) : 0 < c ∧ c ≤ n := by
  have hs := h.sum
  rw [List.sum_cons] at hs
  exact ⟨h.pos c List.mem_cons_self, by omega⟩

/-- One more round of `xfer`. -/
theorem Cuts.xfer_cons {nm : String} {op : ℕ → Bytes → List IoVec → Bytes × List IoVec}
    (h : Cuts n (c :: cuts)) :
    xfer nm op (c :: cuts) stream iov n =
      match xfer nm op cuts (op c stream iov).1 (advance c (op c stream iov).2).2 (n - c) with
      | .error err => .error err
      | .ok (stream', iov') => .ok (stream', (advance c (op c stream iov).2).1 ++ iov') := by
  obtain ⟨hc, hn⟩ := h.le
  simp only [xfer, if_pos (hc.trans_le hn), if_neg hc.ne']

theorem len_eq_zero (h : lens iov = 0) : ∀ v ∈ iov, v.len = 0 := by
  intro v hv
  have := List.single_le_sum (fun x _ ↦ Nat.zero_le x) v.len (List.mem_map.2 ⟨v, hv, rfl⟩)
  unfold lens at h
  omega

theorem lens_advance (h : c ≤ lens iov) : lens (advance c iov).2 = lens iov - c := by
  induction iov generalizing c with
  | nil => simp [advance]
  | cons v iov ih =>
    simp only [lens_cons] at h ⊢
    unfold advance
    split_ifs with hv
    · rw [ih (by omega)]
      omega
    · simp only [lens_cons]
      omega

/-- What is left to transfer once `c` bytes have been. -/
theorem bytes_advance (h : ∀ v ∈ iov, v.Room) :
    (advance c iov).2.flatMap IoVec.bytes = (iov.flatMap IoVec.bytes).drop c := by
  induction iov generalizing c with
  | nil => simp [advance]
  | cons v iov ih =>
    have hv := (h v List.mem_cons_self).2
    have hlen : v.bytes.length = v.len := by
      simp only [IoVec.bytes, List.length_take, List.length_drop]
      omega
    unfold advance
    split_ifs with hc
    · have hnil : v.bytes.drop c = [] := List.drop_eq_nil_of_le (hlen.trans_le hc)
      rw [ih (fun w hw ↦ h w (List.mem_cons_of_mem v hw)), List.flatMap_cons, List.drop_append,
        hnil, hlen, List.nil_append]
    · rw [List.flatMap_cons, List.flatMap_cons, List.drop_append_of_le_length (by omega)]
      simp only [IoVec.bytes, List.drop_take, List.drop_drop]

theorem room_advance (h : ∀ v ∈ iov, v.Room) : ∀ v ∈ (advance c iov).2, v.Room := by
  induction iov generalizing c with
  | nil => simp [advance]
  | cons v iov ih =>
    have hv := h v List.mem_cons_self
    have hiov : ∀ w ∈ iov, w.Room := fun w hw ↦ h w (List.mem_cons_of_mem v hw)
    unfold advance
    split_ifs with hc
    · exact ih hiov
    · intro w hw
      rcases List.mem_cons.1 hw with rfl | hw
      · refine ⟨hv.1, ?_⟩
        simp only
        have := hv.2
        omega
      · exact hiov w hw

/-- All the bytes of the vector go out, in order, however the calls cut them. -/
theorem xfer_writev (h : ∀ v ∈ iov, v.Room) (hc : Cuts (lens iov) cuts) (nm : String) :
    ∃ iov', xfer nm writev cuts stream iov (lens iov) =
      .ok (stream ++ iov.flatMap IoVec.bytes, iov') := by
  induction cuts generalizing stream iov with
  | nil =>
    have hz := hc.nil
    have hb : iov.flatMap IoVec.bytes = [] := by
      apply List.flatMap_eq_nil_iff.2
      intro v hv
      simp [IoVec.bytes, len_eq_zero hz v hv]
    exact ⟨iov, by simp [xfer, hz, hb]⟩
  | cons c cuts ih =>
    have hl := lens_advance hc.le.2
    have ht := hc.tail
    rw [← hl] at ht
    obtain ⟨iov', he⟩ := @ih _ (stream ++ (iov.flatMap IoVec.bytes).take c) (room_advance h) ht
    refine ⟨(advance c iov).1 ++ iov', ?_⟩
    rw [hc.xfer_cons]
    simp only [writev]
    rw [← hl, he, bytes_advance h, List.append_assoc, List.take_append_drop]

/-- `w` is `v` after the bytes `p` have been stored there. -/
structure IoVec.Fills (v : IoVec) (p : Bytes) (w : IoVec) : Prop where
  beg : w.buf.beg = v.buf.beg
  fin : w.buf.fin = v.buf.fin
  capa : w.buf.getCapacity = v.buf.getCapacity
  base : v.base ≤ w.base
  last : w.base + w.len = v.base + v.len
  stored : w.stored = v.buf.getPayload.take v.base ++ p
  length : p.length = v.len

/-- The entries of `ws` are those of `vs` after the bytes `s` have been stored there, in order. -/
inductive Filled : List IoVec → Bytes → List IoVec → Prop
  | nil : Filled [] [] []
  | cons {v w : IoVec} {p s : Bytes} {vs ws : List IoVec} (head : v.Fills p w)
      (tail : Filled vs s ws) : Filled (v :: vs) (p ++ s) (w :: ws)

theorem getPayload_write {b : Buf} (hb : b.beg ≤ b.getCapacity) (off : ℕ) (p : Bytes) :
    (b.write off p).getPayload =
      b.getPayload.take off ++ p ++ b.getPayload.drop (off + p.length) := by
  unfold Buf.getCapacity at hb
  have hpre : (b.data.take (b.beg + off)).drop b.beg = (b.data.drop b.beg).take off := by
    rw [List.drop_take, Nat.add_sub_cancel_left]
  simp only [Buf.getPayload, Buf.write, List.append_assoc]
  rw [List.drop_append_of_le_length (by rw [List.length_take]; omega), hpre, List.drop_drop,
    Nat.add_assoc]

theorem getCapacity_write {b : Buf} (hb : b.beg ≤ b.getCapacity) {off : ℕ} {p : Bytes}
    (hoff : off + p.length ≤ b.getPayload.length) :
    (b.write off p).getCapacity = b.getCapacity := by
  unfold Buf.getCapacity at *
  simp only [Buf.getPayload, List.length_drop] at hoff
  simp only [Buf.write, List.length_append, List.length_take, List.length_drop]
  omega

theorem scatter_nil (h : ∀ v ∈ iov, v.Room) : scatter [] iov = iov := by
  induction iov with
  | nil => rfl
  | cons v iov ih =>
    have hw : v.buf.write v.base [] = v.buf := by simp [Buf.write]
    unfold scatter
    rw [List.take_nil, List.drop_nil, ih (fun w hw ↦ h w (List.mem_cons_of_mem v hw)), hw]

theorem IoVec.Room.write (h : v.Room) {p : Bytes} (hp : p.length ≤ v.len) :
    v.buf.beg ≤ v.buf.getCapacity ∧ v.base + p.length ≤ v.buf.getPayload.length :=
  ⟨h.1, (Nat.add_le_add_left hp v.base).trans h.2⟩

/-- An entry that is filled at once, and passed. -/
theorem IoVec.Room.fills (h : v.Room) (hp : p.length = v.len) :
    v.Fills p { v with buf := v.buf.write v.base p } := by
  obtain ⟨hb, hoff⟩ := h.write hp.le
  have hpay := getPayload_write hb v.base p
  have hl : (v.buf.getPayload.take v.base ++ p).length = v.base + v.len := by
    rw [List.length_append, List.length_take, hp]
    omega
  refine ⟨rfl, rfl, getCapacity_write hb hoff, le_rfl, rfl, ?_, hp⟩
  unfold IoVec.stored
  simp only
  rw [hpay, List.take_left' hl]

/-- An entry that is left half way, and filled later. -/
theorem IoVec.Room.fills_part (h : v.Room) (hp : p.length < v.len)
    (hw : IoVec.Fills { v with
      buf := v.buf.write v.base p
      base := v.base + p.length
      len := v.len - p.length } s w) :
    v.Fills (p ++ s) w := by
  obtain ⟨hb, hoff⟩ := h.write hp.le
  have hpay := getPayload_write hb v.base p
  have hl : (v.buf.getPayload.take v.base ++ p).length = v.base + p.length := by
    rw [List.length_append, List.length_take]
    omega
  refine ⟨hw.beg, hw.fin, hw.capa.trans (getCapacity_write hb hoff),
    (Nat.le_add_right _ _).trans hw.base, ?_, ?_, ?_⟩
  · rw [hw.last]
    simp only
    omega
  · rw [hw.stored]
    simp only
    rw [hpay, List.take_left' hl, List.append_assoc]
  · rw [List.length_append, hw.length]
    simp only
    omega

theorem room_scatter (h : ∀ v ∈ iov, v.Room) : ∀ v ∈ scatter s iov, v.Room := by
  induction iov generalizing s with
  | nil => simp [scatter]
  | cons v iov ih =>
    intro w hw
    rcases List.mem_cons.1 hw with rfl | hw
    · have hv := h v List.mem_cons_self
      have hp : (s.take v.len).length ≤ v.len := List.length_take_le _ _
      obtain ⟨hb, hoff⟩ := hv.write hp
      have hcap := getCapacity_write hb hoff
      refine ⟨hcap ▸ hb, ?_⟩
      have hpay : (v.buf.write v.base (s.take v.len)).getPayload.length = v.buf.getPayload.length := by
        unfold Buf.getCapacity at hcap
        simp only [Buf.getPayload, List.length_drop, hcap, Buf.write_beg]
      simp only [hpay]
      exact hv.2
    · exact ih (fun u hu ↦ h u (List.mem_cons_of_mem v hu)) w hw

theorem len_scatter : (scatter s iov).map IoVec.len = iov.map IoVec.len := by
  induction iov generalizing s with
  | nil => rfl
  | cons v iov ih => simp [scatter, ih]

theorem lens_scatter : lens (scatter s iov) = lens iov := congrArg List.sum len_scatter

theorem base_scatter : (scatter s iov).map IoVec.base = iov.map IoVec.base := by
  induction iov generalizing s with
  | nil => rfl
  | cons v iov ih => simp [scatter, ih]

/-- A `readv` of `c` bytes, and what the later ones make of the entries from the new `iop` on. -/
theorem Filled.readv (h : ∀ v ∈ vs, v.Room) (hs : s.length = lens vs) (hc : c ≤ lens vs)
    (hf : Filled (advance c (scatter (s.take c) vs)).2 (s.drop c) ws) :
    Filled vs s ((advance c (scatter (s.take c) vs)).1 ++ ws) := by
  induction vs generalizing c s ws with
  | nil =>
    obtain rfl : s = [] := List.length_eq_zero_iff.1 hs
    simpa [scatter, advance] using hf
  | cons v vs ih =>
    have hv := h v List.mem_cons_self
    have hvs : ∀ w ∈ vs, w.Room := fun w hw ↦ h w (List.mem_cons_of_mem v hw)
    simp only [lens_cons] at hs hc
    simp only [scatter, advance] at hf ⊢
    split_ifs at hf ⊢ with hle
    · have htake : (s.take c).take v.len = s.take v.len := by
        rw [List.take_take, Nat.min_eq_left hle]
      have hdrop : (s.take c).drop v.len = (s.drop v.len).take (c - v.len) := List.drop_take ..
      have hrest : s.drop c = (s.drop v.len).drop (c - v.len) := by
        rw [List.drop_drop, Nat.add_sub_cancel' hle]
      rw [hdrop, hrest] at hf
      have htail := ih hvs (by rw [List.length_drop]; omega) (by omega) hf
      have hhead := hv.fills (p := s.take v.len) (by rw [List.length_take]; omega)
      simp only [htake, hdrop]
      rw [← List.take_append_drop v.len s]
      have hcons := Filled.cons hhead htail
      rw [List.take_append_drop] at hcons ⊢
      exact hcons
    · have hlen : (s.take c).length = c := by
        rw [List.length_take]
        omega
      have htake : (s.take c).take v.len = s.take c := List.take_of_length_le (by omega)
      have hdrop : (s.take c).drop v.len = [] := List.drop_eq_nil_of_le (by omega)
      rw [htake, hdrop, scatter_nil hvs] at hf
      generalize hd : s.drop c = d at hf
      cases hf with
      | cons hw htail =>
        have hhead := hv.fills_part (p := s.take c) (by omega) (by rw [hlen]; exact hw)
        rw [← List.take_append_drop c s, hd, ← List.append_assoc]
        exact Filled.cons hhead htail

theorem Filled.refl (h : ∀ v ∈ vs, v.len = 0) : Filled vs [] vs := by
  induction vs with
  | nil => exact .nil
  | cons v vs ih =>
    have hv := h v List.mem_cons_self
    have hhead : v.Fills [] v := ⟨rfl, rfl, rfl, le_rfl, rfl, by simp [IoVec.stored, hv], hv.symm⟩
    exact Filled.cons hhead (ih fun w hw ↦ h w (List.mem_cons_of_mem v hw))

/-- The bytes of the stream are stored in the entries in order, however the calls cut them. -/
theorem xfer_readv (h : ∀ v ∈ iov, v.Room) (hc : Cuts (lens iov) cuts)
    (hs : lens iov ≤ stream.length) (nm : String) :
    ∃ iov', xfer nm readv cuts stream iov (lens iov) = .ok (stream.drop (lens iov), iov') ∧
      Filled iov (stream.take (lens iov)) iov' := by
  induction cuts generalizing stream iov with
  | nil =>
    have hz := hc.nil
    refine ⟨iov, ?_, ?_⟩
    · simp [xfer, hz]
    · rw [hz]
      exact Filled.refl (len_eq_zero hz)
  | cons c cuts ih =>
    have hle := hc.le.2
    have hl : lens (advance c (scatter (stream.take c) iov)).2 = lens iov - c := by
      rw [lens_advance (by rwa [lens_scatter]), lens_scatter]
    have ht := hc.tail
    rw [← hl] at ht
    obtain ⟨iov', he, hf⟩ := @ih _ (stream.drop c) (room_advance (room_scatter h)) ht
      (by rw [hl, List.length_drop]; omega)
    have hrest : (stream.take (lens iov)).drop c = (stream.drop c).take (lens iov - c) :=
      List.drop_take ..
    have hfirst : (stream.take (lens iov)).take c = stream.take c := by
      rw [List.take_take, Nat.min_eq_left hle]
    refine ⟨(advance c (scatter (stream.take c) iov)).1 ++ iov', ?_, ?_⟩
    · rw [hc.xfer_cons]
      simp only [Tcp.readv]
      rw [← hl, he, hl, List.drop_drop, Nat.add_sub_cancel' hle]
    · have hr := @Filled.readv iov iov' (stream.take (lens iov)) c h
        (by rw [List.length_take, Nat.min_eq_left hs]) hle
      rw [hfirst, hrest, ← hl] at hr
      exact hr hf

/-- Every call ends where an entry does. -/
def Aligned (ls cuts : List ℕ) : Prop := ∀ k, ∃ j, (cuts.take k).sum = (ls.take j).sum

/-- The first call ends where an entry does, and so do the others on the entries that are left. -/
theorem aligned_cons {ls : List ℕ} :
    Aligned ls (c :: cuts) ↔ ∃ j, c = (ls.take j).sum ∧ Aligned (ls.drop j) cuts := by
  have hsplit (j i : ℕ) : (ls.take (j + i)).sum = (ls.take j).sum + ((ls.drop j).take i).sum := by
    rw [List.take_add, List.sum_append]
  constructor
  · intro h
    obtain ⟨j, hj⟩ := h 1
    have hc : c = (ls.take j).sum := by simpa using hj
    refine ⟨j, hc, ?_⟩
    intro k
    obtain ⟨i, hi⟩ := h (k + 1)
    rw [List.take_succ_cons, List.sum_cons] at hi
    rcases le_total j i with hji | hij
    · obtain ⟨d, rfl⟩ := Nat.exists_eq_add_of_le hji
      rw [hsplit] at hi
      exact ⟨d, by omega⟩
    · obtain ⟨d, rfl⟩ := Nat.exists_eq_add_of_le hij
      rw [hsplit] at hc
      refine ⟨0, ?_⟩
      rw [List.take_zero, List.sum_nil]
      omega
  · rintro ⟨j, hc, h⟩ k
    cases k with
    | zero => exact ⟨0, by simp⟩
    | succ k =>
      obtain ⟨i, hi⟩ := h k
      refine ⟨j + i, ?_⟩
      rw [List.take_succ_cons, List.sum_cons, hsplit, ← hc, hi]

/-- The sum of the entries' `base`. -/
def bases (iov : List IoVec) : ℕ := (iov.map IoVec.base).sum

theorem bases_append : bases (vs ++ ws) = bases vs + bases ws := by simp [bases]

theorem bases_scatter : bases (scatter s iov) = bases iov := congrArg List.sum base_scatter

theorem Filled.lens_bases (h : Filled vs s ws) : bases vs ≤ bases ws ∧
    lens ws + bases ws = lens vs + bases vs := by
  induction h with
  | nil => simp
  | cons head _ ih =>
    have hb := head.base
    have hl := head.last
    simp only [bases, List.map_cons, List.sum_cons, lens_cons] at ih ⊢
    omega

/-- The entries that are passed are left alone, and the next one only if the call ended there. -/
theorem bases_advance (hpos : ∀ v ∈ iov, 0 < v.len) (hc : c ≤ lens iov) :
    bases iov ≤ bases ((advance c iov).1 ++ (advance c iov).2) ∧
      (bases ((advance c iov).1 ++ (advance c iov).2) = bases iov →
        ∃ j, c = ((iov.map IoVec.len).take j).sum) := by
  induction iov generalizing c with
  | nil => exact ⟨le_rfl, fun _ ↦ ⟨0, by simpa using hc⟩⟩
  | cons v iov ih =>
    have hv := hpos v List.mem_cons_self
    simp only [lens_cons] at hc
    unfold advance
    split_ifs with hle
    · obtain ⟨hmono, hj⟩ := @ih (c - v.len) (fun w hw ↦ hpos w (List.mem_cons_of_mem v hw))
        (by omega)
      simp only [List.cons_append, bases, List.map_cons, List.sum_cons] at hmono hj ⊢
      refine ⟨by omega, ?_⟩
      intro he
      obtain ⟨j, hj⟩ := hj (by omega)
      refine ⟨j + 1, ?_⟩
      rw [List.take_succ_cons, List.sum_cons, ← hj]
      omega
    · simp only [List.nil_append, bases, List.map_cons, List.sum_cons]
      refine ⟨by omega, ?_⟩
      intro he
      exact ⟨0, by simp; omega⟩

theorem advance_boundary (hpos : ∀ v ∈ iov, 0 < v.len) (j : ℕ) :
    advance ((iov.map IoVec.len).take j).sum iov = (iov.take j, iov.drop j) := by
  induction iov generalizing j with
  | nil => simp [advance]
  | cons v iov ih =>
    have hv := hpos v List.mem_cons_self
    have hiov : ∀ w ∈ iov, 0 < w.len := fun w hw ↦ hpos w (List.mem_cons_of_mem v hw)
    cases j with
    | zero => simp [advance, hv.ne']
    | succ j =>
      rw [List.map_cons, List.take_succ_cons, List.sum_cons, advance,
        if_pos (Nat.le_add_right _ _), Nat.add_sub_cancel_left, ih hiov]
      rfl

theorem pos_advance (hpos : ∀ v ∈ iov, 0 < v.len) : ∀ v ∈ (advance c iov).2, 0 < v.len := by
  induction iov generalizing c with
  | nil => simp [advance]
  | cons v iov ih =>
    have hiov : ∀ w ∈ iov, 0 < w.len := fun w hw ↦ hpos w (List.mem_cons_of_mem v hw)
    unfold advance
    split_ifs with hc
    · exact ih hiov
    · intro w hw
      rcases List.mem_cons.1 hw with rfl | hw
      · simp only
        omega
      · exact hiov w hw

theorem pos_scatter (hpos : ∀ v ∈ iov, 0 < v.len) : ∀ v ∈ scatter s iov, 0 < v.len := by
  intro v hv
  have hm : v.len ∈ (scatter s iov).map IoVec.len := List.mem_map.2 ⟨v, hv, rfl⟩
  rw [len_scatter] at hm
  obtain ⟨w, hw, he⟩ := List.mem_map.1 hm
  exact he ▸ hpos w hw

/-- The entries are left as they were exactly when every call ends where an entry does. -/
theorem bases_xfer (hpos : ∀ v ∈ iov, 0 < v.len) (hc : Cuts (lens iov) cuts) {nm : String}
    (h : xfer nm readv cuts stream iov (lens iov) = .ok (s, ws)) :
    bases iov ≤ bases ws ∧ (bases ws = bases iov ↔ Aligned (iov.map IoVec.len) cuts) := by
  induction cuts generalizing stream iov ws with
  | nil =>
    have hz := hc.nil
    simp only [xfer, hz] at h
    cases h
    exact ⟨le_rfl, fun _ k ↦ ⟨0, by simp⟩, fun _ ↦ rfl⟩
  | cons c cuts ih =>
    have hle := hc.le.2
    have hus := @pos_scatter iov (stream.take c) hpos
    have hlus : lens (scatter (stream.take c) iov) = lens iov := lens_scatter
    have hbus : bases (scatter (stream.take c) iov) = bases iov := bases_scatter
    have hmus : (scatter (stream.take c) iov).map IoVec.len = iov.map IoVec.len := len_scatter
    rw [hc.xfer_cons] at h
    simp only [Tcp.readv] at h
    generalize scatter (stream.take c) iov = us at h hus hlus hbus hmus
    have hl : lens (advance c us).2 = lens iov - c := by rw [lens_advance (hlus ▸ hle), hlus]
    rw [← hl] at h
    cases hx : xfer nm Tcp.readv cuts (stream.drop c) (advance c us).2 (lens (advance c us).2) with
    | error err => simp [hx] at h
    | ok r =>
      rw [hx] at h
      cases h
      obtain ⟨hmono, hiff⟩ := ih (pos_advance hus) (hl ▸ hc.tail) hx
      obtain ⟨hadv, hends⟩ := bases_advance hus (hlus ▸ hle)
      rw [bases_append] at hadv hends ⊢
      refine ⟨by omega, ?_⟩
      rw [← hmus, aligned_cons]
      constructor
      · intro he
        obtain ⟨j, hj⟩ := hends (by omega)
        refine ⟨j, hj, ?_⟩
        have ha := hiff.1 (by omega)
        rw [hj, advance_boundary hus] at ha
        rwa [← List.map_drop]
      · rintro ⟨j, hj, ha⟩
        rw [← List.map_drop] at ha
        have hpass := advance_boundary hus j
        rw [← hj] at hpass
        have hws := hiff.2 (by rw [hpass]; exact ha)
        have hsum : bases (us.take j) + bases (us.drop j) = bases us := by
          rw [← bases_append, List.take_append_drop]
        rw [hws, hpass]
        exact hsum.trans hbus

end Cpsw.Tcp
