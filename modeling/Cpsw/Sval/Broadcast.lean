import Cpsw.Path.Flatten
import Cpsw.Sval.SetVal

namespace Cpsw.Sval

open Cpsw.Lib Cpsw.Lib.Digits Cpsw.Path

/-- An `IndexRange` of one level; negative bounds are not given. -/
structure IndexRange where
  getFrom : ℤ
  getTo : ℤ
  deriving DecidableEq, Repr

inductive SetValError
  | iterator (e : IteratorError)
  | invalidArg (text : String)
  /-- An access to memory beyond the buffers. -/
  | outOfBounds
  deriving DecidableEq, Repr

/-- A scalar at the end of a path. The address in front of it puts the elements that an iterator
goes over where `addr` says. -/
structure IIntEntryAdapt (Ent Addr : Type) where
  p_ : PathImpl Ent Addr
  ie_ : CIntEntry
  byteOrder : ByteOrder
  addr : CompositePathIterator Addr → ℕ → ℕ

/-- An element that is as wide as the register. -/
def elementSize (e : CIntEntry) : ℕ :=
  if e.getSize ≤ 1 then 1 else if e.getSize ≤ 2 then 2 else if e.getSize ≤ 4 then 4 else 8

/-- No `int` that counts the bytes of the elements overflows, and the passes keep to their element. -/
structure InBounds (e : CIntEntry) (sbytes nelms : ℕ) : Prop where
  iidx : (nelms - 1) * sbytes < 2 ^ 31
  oidx : (nelms - 1) * (e.getSize % 2 ^ 32) < 2 ^ 31
  holds : e.Holds sbytes

instance {e : CIntEntry} {sbytes : ℕ} : Decidable (e.Holds sbytes) :=
  decidable_of_iff ((0 < e.wordSwap → b2B e.sizeBits % 2 ^ 32 ≤ e.getSize % 2 ^ 32) ∧
    (8 * sbytes < e.sizeBits → sbytes ≤ e.getSize % 2 ^ 32)) ⟨fun h ↦ ⟨h.1, h.2⟩, fun h ↦ ⟨h.1, h.2⟩⟩

instance {e : CIntEntry} {sbytes nelms : ℕ} : Decidable (InBounds e sbytes nelms) :=
  decidable_of_iff ((nelms - 1) * sbytes < 2 ^ 31 ∧ (nelms - 1) * (e.getSize % 2 ^ 32) < 2 ^ 31 ∧
    e.Holds sbytes) ⟨fun h ↦ ⟨h.1, h.2.1, h.2.2⟩, fun h ↦ ⟨h.1, h.2, h.3⟩⟩

namespace IIntEntryAdapt

variable {Ent Addr : Type} (ad : IIntEntryAdapt Ent Addr)

def nelmsFromIdx : Option IndexRange → Except SetValError UInt32
  | none => .ok ad.p_.getNelms
  | some r =>
    if r.getFrom ≥ 0 ∨ r.getTo ≥ 0 then
      let it := CompositePathIterator.ofPath ad.p_
      match it.cur with
      | [] => .error (.iterator .pastRoot)
      | e :: _ =>
        let f := if r.getFrom < 0 then e.idxf else e.idxf + r.getFrom
        let t := if r.getTo < 0 then e.idxt else e.idxf + r.getTo
        let t := t - f + 1
        let d := toInt it.getNelmsRight
        let d := if t ≥ 0 ∧ t < d then t else d
        .ok (it.getNelmsLeft * UInt32.ofInt d)
    else .ok ad.p_.getNelms

def checkNelms (nelms : UInt32) (it : CompositePathIterator Addr) : Except SetValError UInt32 :=
  if nelms ≥ it.getNelmsLeft then .ok it.getNelmsLeft
  else .error (.invalidArg "Invalid Argument: buffer too small")

variable [DecidableEq Ent] (H : Hierarchy Ent Addr) (theRootDev : Ent)

def slicedPathIterator (range : Option IndexRange) :
    Except SetValError (CompositePathIterator Addr) :=
  ((CompositePathIterator.ofPath ad.p_).clip H theRootDev
    (range.toList.map fun r ↦ (r.getFrom, r.getTo))).mapError .iterator

variable (host : ByteOrder)

/-- `setVal` for `nelms` elements of `elsz` bytes at `buf`, with `tmp` for the elements on their way:
what it returns, and what it leaves in the memory of the device. -/
def setVal (elsz : ℕ) (nelms : UInt32) (range : Option IndexRange) (buf tmp : ℕ) (m dev : Mem) :
    Except SetValError (UInt32 × Mem) := do
  let it ← ad.slicedPathIterator H theRootDev range
  if it.cur = [] then .error (.iterator .pastRoot)
  else
    let nelms ← checkNelms nelms it
    let need_work := resolveOrder host ad.byteOrder ≠ host ∨ ad.ie_.lsBit ≠ 0 ∨
      ad.ie_.sizeBits ≠ 8 * elsz ∨ ad.ie_.wordSwap > 0
    if need_work ∧ ¬InBounds ad.ie_ elsz nelms.toNat then .error .outOfBounds
    -- the address goes over all elements, whatever their number is in 32 bits
    else if (nelms.toNat : ℤ) ≠ count (flatten (it.cur :: it.l_)) then .error .outOfBounds
    else
      .ok (nelms, Sval.setVal host ad.byteOrder ad.ie_ elsz nelms.toNat buf tmp m dev (ad.addr it))

/-- The buffer of `Vals`, with the same value in all its elements. -/
def fillVals (elsz : ℕ) (nelms : UInt32) (buf : ℕ) (v : UInt64) (m : Mem) : Mem :=
  m.put buf ((List.range nelms.toNat).flatMap fun _ ↦ lowFirst host (bytes elsz v.toNat))

/-- `setVal(uint64_t, IndexRange *)` -/
def setValAll (v : UInt64) (r : Option IndexRange) (buf tmp : ℕ) (m dev : Mem) :
    Except SetValError (UInt32 × Mem) := do
  let nelms ← ad.nelmsFromIdx r
  let elsz := elementSize ad.ie_
  ad.setVal H theRootDev host elsz nelms r buf tmp (fillVals host elsz nelms buf v m) dev

end IIntEntryAdapt

section Count

variable {Ent Addr : Type} {H : Hierarchy Ent Addr} {ad : IIntEntryAdapt Ent Addr}
variable {it : CompositePathIterator Addr} {range : Option IndexRange}

/-- The path to the elements that a range leaves. -/
def addressed (p : PathImpl Ent Addr) : Option IndexRange → PathImpl Ent Addr
  | none => p
  | some r => (p.entries.getLast?.map fun e ↦ p.sliced e r.getFrom r.getTo).getD p

theorem getNelms_eq {p : PathImpl Ent Addr} (hp : Sound H p) :
    p.getNelms = UInt32.ofInt (count p.entries) := by
  rw [PathImpl.getNelms, hp.scaled.last_eq, UInt32.one_mul]

variable [DecidableEq Ent] {theRootDev : Ent}

theorem sliced_ok (hp : Sound H ad.p_) (h : ad.slicedPathIterator H theRootDev range = .ok it) :
    Follows H it ⟨addressed ad.p_ range, []⟩ ∧ ∀ r, range = some r → ∃ e,
      ad.p_.entries.getLast? = some e ∧ rangeFrom r.getFrom ≤ rangeTo e r.getTo := by
  have hfol := Follows.ofPath hp
  cases range with
  | none =>
    obtain rfl : CompositePathIterator.ofPath ad.p_ = it := Except.ok.inj h
    exact ⟨hfol, fun r hr ↦ by cases hr⟩
  | some r =>
    have hclip : (CompositePathIterator.ofPath ad.p_).clip H theRootDev [(r.getFrom, r.getTo)] =
        .ok it := by
      unfold IIntEntryAdapt.slicedPathIterator at h
      cases hres : (CompositePathIterator.ofPath ad.p_).clip H theRootDev [(r.getFrom, r.getTo)] with
      | error e => exact absurd h (by simp [hres, Except.mapError])
      | ok it' =>
        simp only [Option.toList_some, List.map_cons, List.map_nil, hres] at h
        exact congrArg _ (Except.ok.inj h)
    cases hlast : ad.p_.entries.getLast? with
    | none =>
      have hnil : (CompositePathIterator.ofPath ad.p_).cur = [] := by
        simp [CompositePathIterator.ofPath, List.getLast?_eq_none_iff.1 hlast]
      rw [CompositePathIterator.clip, hnil] at hclip
      cases hclip
    | some e =>
      have hstack : (CompositePathIterator.ofPath ad.p_).l_ ≠ [] →
          (⟨ad.p_, []⟩ : Flat Ent Addr).total < 2 ^ 32 := fun hl ↦ absurd rfl hl
      obtain ⟨hiff, hkeep⟩ := @Follows.clip_iff _ _ _ _ _ _ _ [(r.getFrom, r.getTo)] theRootDev hfol hlast hstack
      rcases hiff.1 ⟨it, hclip⟩ with hr | ⟨f, t, hr, hft, -⟩
      · cases hr
      · cases hr
        rw [addressed, hlast]
        refine ⟨hkeep _ _ it rfl rfl hclip, fun r' hr' ↦ ?_⟩
        cases hr'
        exact ⟨e, rfl, hft⟩

/-- The buffer has as many elements as the path without the range, as far as 32 bits count. -/
theorem nelmsFromIdx_eq (hp : Sound H ad.p_)
    (h : ad.slicedPathIterator H theRootDev range = .ok it) :
    ad.nelmsFromIdx range = .ok (UInt32.ofInt (count ad.p_.entries)) := by
  obtain ⟨-, hrange⟩ := sliced_ok hp h
  have hgetNelms := getNelms_eq hp
  cases range with
  | none => rw [IIntEntryAdapt.nelmsFromIdx, hgetNelms]
  | some r =>
    obtain ⟨e, hlast, hft⟩ := hrange r rfl
    obtain ⟨e', es, hcur, rfl⟩ := (Follows.ofPath hp).cur_of_getLast hlast
    rw [IIntEntryAdapt.nelmsFromIdx]
    by_cases hgiven : r.getFrom ≥ 0 ∨ r.getTo ≥ 0
    · have hwidth : ∀ f t, f = (if r.getFrom < 0 then e'.idxf else e'.idxf + r.getFrom) →
          t = (if r.getTo < 0 then e'.idxt else e'.idxf + r.getTo) → 1 ≤ t - f + 1 := by
        intro f t hf ht
        simp only [rangeFrom, rangeTo, PathEntry.width, scale] at hft
        rw [hf, ht]
        split_ifs at hft ⊢ <;> omega
      have hone : toInt (CompositePathIterator.ofPath ad.p_).getNelmsRight = 1 := by
        change toInt 1 = 1
        decide
      dsimp only
      rw [if_pos hgiven, hcur]
      dsimp only
      rw [hone, (Follows.ofPath hp).getNelmsLeft_eq, if_neg]
      · simp
      · have h1 := hwidth _ _ rfl rfl
        omega
    · dsimp only
      rw [if_neg hgiven, hgetNelms]

end Count

section Width

variable {host target : ByteOrder} {e : CIntEntry} {obufp obufp' us : Bytes} {v : ℕ}

theorem elementSize_spec (e : CIntEntry) : 0 < elementSize e ∧ elementSize e ≤ 8 ∧
    (e.getSize ≤ 8 → e.getSize ≤ elementSize e) ∧ (8 < e.getSize → elementSize e = 8) := by
  unfold elementSize
  split_ifs <;> omega

theorem getSize_le (e : CIntEntry) : e.getSize ≤ b2B (e.sizeBits + e.lsBit) + 1 := by
  unfold CIntEntry.getSize computeSize
  split_ifs <;> simp only [b2B] <;> omega

theorem CIntEntry.CheckArgs.bits_le (he : e.CheckArgs) : e.sizeBits ≤ 8 * e.getSize := by
  rcases Nat.eq_zero_or_pos e.sizeBits with hzero | hpos
  · omega
  · have hle := (he.checked hpos).bits_le
    omega

/-- Where the new buffer shows in what is sent, the register keeps its own bits. -/
theorem writeFunc8_pack (he : e.Checked) (hmode : e.mode ≠ .RO) (hlt : e.sizeBits < 2 ^ 32)
    (hhost : host = .LE ∨ host = .BE) (htarget : target = .LE ∨ target = .BE)
    (hob : obufp.length = e.getSize) (hob' : obufp'.length = e.getSize) (hus : us.length = 8)
    {old : Bytes} (hold : old.length = e.getSize) :
    writeFunc8 (masks target e).1 (masks target e).2 old (pack host target e 8 obufp us) =
      writeFunc8 (masks target e).1 (masks target e).2 old (pack host target e 8 obufp' us) := by
  have hle := he.bits_le
  have hpos := he.sizeBits
  have hn : 0 < e.getSize := by omega
  obtain ⟨hlen, hval⟩ := pack_spec he (by decide) hob hus hlt hmode hhost htarget
  obtain ⟨hlen', hval'⟩ := pack_spec he (by decide) hob' hus hlt hmode hhost htarget
  have hwritten := fun src hsrc ↦
    (@writeFunc8_spec (masks target e).1 (masks target e).2 old src _ hn hold hsrc).1
  apply lowFirst_inj target
  apply value_inj
  · rw [lowFirst_length, lowFirst_length, hwritten _ hlen, hwritten _ hlen']
  · apply Nat.eq_of_testBit_eq
    intro k
    rw [testBit_merged he hmode htarget hold hlen, testBit_merged he hmode htarget hold hlen']
    refine ite_congr rfl (fun hk ↦ ?_) fun _ ↦ rfl
    have hbit : k - e.lsBit < e.sizeBits := by omega
    have hfield : ∀ w : ℕ, (w / 2 ^ e.lsBit % 2 ^ e.sizeBits).testBit (k - e.lsBit) = w.testBit k := by
      intro w
      rw [Nat.testBit_mod_two_pow, Nat.testBit_div_two_pow, decide_eq_true hbit, Bool.true_and,
        Nat.sub_add_cancel hk.1]
    rw [← hfield, hval, ← hval', hfield]

/-- A number comes out the same from an element that is as wide as the register and from one of 64
bits. -/
theorem writeFunc8_width (he : e.CheckArgs) (hmode : e.mode ≠ .RO)
    (hhost : host = .LE ∨ host = .BE) (htarget : target = .LE ∨ target = .BE) (hholds : e.Holds 8)
    (hob : obufp.length = e.getSize % 2 ^ 32) (hob' : obufp'.length = e.getSize % 2 ^ 32)
    {old : Bytes} (hold : old.length = e.getSize % 2 ^ 32) :
    writeFunc8 (masks target e).1 (masks target e).2 old
        (pack host target e (elementSize e) obufp (lowFirst host (bytes (elementSize e) v))) =
      writeFunc8 (masks target e).1 (masks target e).2 old
        (pack host target e 8 obufp' (lowFirst host (bytes 8 v))) := by
  obtain ⟨-, hle, hnarrow, hwide⟩ := elementSize_spec e
  have hus : (lowFirst host (bytes 8 v)).length = 8 := by simp
  have hbits := he.bits_le
  rcases Nat.lt_or_ge 8 e.getSize with h8 | h8
  · rw [hwide h8]
    by_cases hext : e.sizeBits > 8 * 8
    · rw [pack_eq_passes, pack_eq_passes, if_pos hext, if_pos hext,
        signExtend_moveLow hhost (by decide) (hholds.sign hext) hob hob' hus]
    · have hsize := getSize_le e
      have hls := he.lsBit
      simp only [b2B] at hsize
      have hmod : e.getSize % 2 ^ 32 = e.getSize := Nat.mod_eq_of_lt (by omega)
      rw [hmod] at hob hob' hold
      exact writeFunc8_pack (he.checked (by omega)) hmode (by omega) hhost htarget hob hob' hus hold
  · have hmod : e.getSize % 2 ^ 32 = e.getSize := Nat.mod_eq_of_lt (by omega)
    have hsize := hnarrow h8
    rw [hmod] at hob hob'
    rw [pack_eq_passes, pack_eq_passes, if_neg (by omega), if_neg (by omega), hmod,
      moveLow_bytes hhost hob hsize, moveLow_bytes hhost hob' h8]

theorem CIntEntry.Holds.narrow (he : e.CheckArgs) (h : e.Holds 8) : e.Holds (elementSize e) := by
  obtain ⟨-, -, hnarrow, hwide⟩ := elementSize_spec e
  have hbits := he.bits_le
  refine ⟨h.words, fun hext ↦ ?_⟩
  rcases Nat.lt_or_ge 8 e.getSize with h8 | h8
  · rw [hwide h8] at hext ⊢
    exact h.sign hext
  · have hle := hnarrow h8
    omega

variable {nelms buf tmp buf' tmp' : ℕ} {m m' dev : Mem} {addr : ℕ → ℕ}

/-- The memory of the device is the same after a number has been written to all elements, from
elements as wide as the register or from ones of 64 bits. -/
theorem setVal_width (he : e.CheckArgs) (hmode : e.mode ≠ .RO)
    (hhost : host = .LE ∨ host = .BE)
    (htarget : resolveOrder host target = .LE ∨ resolveOrder host target = .BE) (hholds : e.Holds 8)
    (hvals : ∀ i < nelms, m.get (buf + i * elementSize e) (elementSize e) =
      lowFirst host (bytes (elementSize e) v))
    (hvals' : ∀ i < nelms, m'.get (buf' + i * 8) 8 = lowFirst host (bytes 8 v))
    (htmp : Mem.Apart tmp (nelms * (e.getSize % 2 ^ 32)) buf (nelms * elementSize e))
    (htmp' : Mem.Apart tmp' (nelms * (e.getSize % 2 ^ 32)) buf' (nelms * 8)) :
    setVal host target e (elementSize e) nelms buf tmp m dev addr =
      setVal host target e 8 nelms buf' tmp' m' dev addr := by
  obtain ⟨hpos, hle, -, -⟩ := elementSize_spec e
  obtain ⟨src, heq, hsrc⟩ := @setVal_packs host target e nelms (elementSize e) m dev addr buf tmp hhost
    hpos (hholds.narrow he) (fun _ ↦ by omega) htmp
  obtain ⟨src', heq', hsrc'⟩ := @setVal_packs host target e nelms 8 m' dev addr buf' tmp' hhost
    (by decide) hholds (fun _ ↦ by decide) htmp'
  rw [heq, heq']
  apply writeElements_congr
  intro i hi old hold
  obtain ⟨obufp, hob, hpack⟩ := hsrc i hi
  obtain ⟨obufp', hob', hpack'⟩ := hsrc' i hi
  rw [hpack, hpack', hvals i hi, hvals' i hi]
  exact writeFunc8_width he hmode hhost htarget hholds hob hob' hold

end Width

section Call

variable {Ent Addr : Type} [DecidableEq Ent] {H : Hierarchy Ent Addr} {ad : IIntEntryAdapt Ent Addr}
variable {it : CompositePathIterator Addr} {range : Option IndexRange} {theRootDev : Ent}
variable {host : ByteOrder} {elsz buf tmp : ℕ} {nelms n : UInt32} {m dev dev' : Mem}

/-- What `setVal` has checked when it returns. -/
structure Accepts (ad : IIntEntryAdapt Ent Addr) (H : Hierarchy Ent Addr) (theRootDev : Ent)
    (host : ByteOrder) (elsz : ℕ) (nelms : UInt32) (range : Option IndexRange)
    (it : CompositePathIterator Addr) : Prop where
  sliced : ad.slicedPathIterator H theRootDev range = .ok it
  cur : it.cur ≠ []
  room : it.getNelmsLeft ≤ nelms
  inBounds : resolveOrder host ad.byteOrder ≠ host ∨ ad.ie_.lsBit ≠ 0 ∨ ad.ie_.sizeBits ≠ 8 * elsz ∨
    ad.ie_.wordSwap > 0 → InBounds ad.ie_ elsz it.getNelmsLeft.toNat
  all : (it.getNelmsLeft.toNat : ℤ) = count (flatten (it.cur :: it.l_))

theorem setVal_ok_iff : ad.setVal H theRootDev host elsz nelms range buf tmp m dev = .ok (n, dev') ↔
    ∃ it, Accepts ad H theRootDev host elsz nelms range it ∧ n = it.getNelmsLeft ∧
      dev' = setVal host ad.byteOrder ad.ie_ elsz n.toNat buf tmp m dev (ad.addr it) := by
  unfold IIntEntryAdapt.setVal
  constructor
  · intro h
    cases hit : ad.slicedPathIterator H theRootDev range with
    | error e =>
      rw [hit] at h
      cases h
    | ok it =>
      rw [hit] at h
      dsimp only [bind, Except.bind] at h
      by_cases hcur : it.cur = []
      · rw [if_pos hcur] at h
        cases h
      · rw [if_neg hcur, IIntEntryAdapt.checkNelms] at h
        by_cases hroom : nelms ≥ it.getNelmsLeft
        · rw [if_pos hroom] at h
          dsimp only at h
          split_ifs at h with hwork hall
          cases h
          refine ⟨it, ⟨hit, hcur, hroom, fun hneed ↦ ?_, not_not.1 hall⟩, rfl, rfl⟩
          exact not_not.1 (not_and.1 hwork hneed)
        · rw [if_neg hroom] at h
          cases h
  · intro h
    obtain ⟨it, hacc, rfl, rfl⟩ := h
    rw [hacc.sliced]
    dsimp only [bind, Except.bind]
    rw [if_neg hacc.cur, IIntEntryAdapt.checkNelms, if_pos hacc.room]
    dsimp only
    rw [if_neg (not_and.2 fun hneed ↦ not_not.2 (hacc.inBounds hneed)), if_neg (not_not.2 hacc.all)]

/-- A shorter element asks for nothing that one of 64 bits does not. -/
theorem Accepts.narrow {nelms' : UInt32} (he : ad.ie_.CheckArgs)
    (h : Accepts ad H theRootDev host 8 nelms range it) (hroom : it.getNelmsLeft ≤ nelms') :
    ad.ie_.Holds 8 ∧ Accepts ad H theRootDev host (elementSize ad.ie_) nelms' range it := by
  obtain ⟨-, hle, -, hwide⟩ := elementSize_spec ad.ie_
  by_cases hneed : resolveOrder host ad.byteOrder ≠ host ∨ ad.ie_.lsBit ≠ 0 ∨
      ad.ie_.sizeBits ≠ 8 * 8 ∨ ad.ie_.wordSwap > 0
  · have hin := h.inBounds hneed
    refine ⟨hin.holds, h.sliced, h.cur, hroom, fun _ ↦ ⟨?_, hin.oidx, hin.holds.narrow he⟩, h.all⟩
    exact lt_of_le_of_lt (Nat.mul_le_mul_left _ hle) hin.iidx
  · simp only [not_or, not_not, Nat.not_lt, Nat.le_zero] at hneed
    obtain ⟨horder, hls, hbits, hw⟩ := hneed
    have hsize : elementSize ad.ie_ = 8 := by
      have hbytes : ad.ie_.getSize = 8 := by
        simp only [CIntEntry.getSize, computeSize, hw, hls, hbits, b2B]
        decide
      rw [elementSize, hbytes]
      rfl
    refine ⟨⟨fun _ ↦ by omega, fun _ ↦ by omega⟩, h.sliced, h.cur, hroom, fun hneed' ↦ ?_, h.all⟩
    rw [hsize] at hneed' ⊢
    exact h.inBounds hneed'

/-- Where an array of numbers that are all the same can be written to elements of a path, the number
itself can be, and with the same outcome, exactly if the elements of the whole path, in 32 bits, are
no fewer than those that the range leaves. -/
theorem setValAll_iff [DecidableEq Addr] {v : UInt64} {vals tmp' : ℕ} {m' : Mem} (hp : Reachable H ad.p_)
    (he : ad.ie_.CheckArgs) (hmode : ad.ie_.mode ≠ .RO) (hhost : host = .LE ∨ host = .BE)
    (horder : resolveOrder host ad.byteOrder = .LE ∨ resolveOrder host ad.byteOrder = .BE)
    (harray : ad.setVal H theRootDev host 8 nelms range buf tmp m dev = .ok (n, dev'))
    (hvals : ∀ i < n.toNat, m.get (buf + i * 8) 8 = lowFirst host (bytes 8 v.toNat))
    (htmp : Mem.Apart tmp (n.toNat * (ad.ie_.getSize % 2 ^ 32)) buf (n.toNat * 8))
    (htmp' : Mem.Apart tmp' (n.toNat * (ad.ie_.getSize % 2 ^ 32)) vals
      (n.toNat * elementSize ad.ie_)) :
    ad.setValAll H theRootDev host v range vals tmp' m' dev = .ok (n, dev') ↔
      count (addressed ad.p_ range).entries ≤ count ad.p_.entries % 2 ^ 32 := by
  obtain ⟨it, hacc, rfl, rfl⟩ := setVal_ok_iff.1 harray
  obtain ⟨hfol, -⟩ := sliced_ok hp.sound hacc.sliced
  have hidx := nelmsFromIdx_eq hp.sound hacc.sliced
  have hall := hacc.all
  rw [← hfol.entries, count_reverse] at hall
  have hroom : it.getNelmsLeft ≤ UInt32.ofInt (count ad.p_.entries) ↔
      count (addressed ad.p_ range).entries ≤ count ad.p_.entries % 2 ^ 32 := by
    rw [UInt32.le_iff_toNat_le, ← hall, ← toNat_ofInt]
    exact Int.ofNat_le.symm
  rw [← hroom, IIntEntryAdapt.setValAll, hidx]
  dsimp only [bind, Except.bind]
  rw [setVal_ok_iff]
  constructor
  · intro h
    obtain ⟨it', hacc', hn, -⟩ := h
    rw [hn]
    exact hacc'.room
  · intro hle
    obtain ⟨hholds, hacc'⟩ := hacc.narrow he hle
    refine ⟨it, hacc', rfl, (setVal_width he hmode hhost horder hholds (fun i hi ↦ ?_) hvals htmp'
      htmp).symm⟩
    exact Mem.get_put_flatMap (by simp) (lt_of_lt_of_le hi (UInt32.le_iff_toNat_le.1 hle))

end Call

/-- Registers of 12 bits, the first byte the highest, at a path to leaves of `nested`. -/
def nestedAdapt (p : PathImpl (Fin 3) (Fin 2)) : IIntEntryAdapt (Fin 3) (Fin 2) :=
  ⟨p, ⟨true, 0, 12, .RW, 0⟩, .BE, fun _ i ↦ 2 * i⟩

/-- Two leaves each of four hubs. -/
theorem setValAll_nested :
    let ad := nestedAdapt ⟨0, [⟨0, 0, 3, 4⟩, ⟨1, 0, 3, 16⟩]⟩
    let m : Mem := fun p ↦ if p % 8 = 0 then 0xfe else 0
    ∃ dev', ad.setVal (nested 4 4) 0 .LE 8 8 (some ⟨1, 2⟩) 0 64 m (fun _ ↦ 0x11) = .ok (8, dev') ∧
      ad.setValAll (nested 4 4) 0 .LE 0xfe (some ⟨1, 2⟩) 0 32 (fun _ ↦ 0) (fun _ ↦ 0x11) =
        .ok (8, dev') ∧ dev'.get 0 4 = [0x10, 0xfe, 0x10, 0xfe] := by
  intro ad m
  have hp : (PathImpl.create 0).findByName (nested 4 4) ['a', '/', 'b'] =
      .ok ⟨0, [⟨0, 0, 3, 4⟩, ⟨1, 0, 3, 16⟩]⟩ := Run.toOption_eq_some.1 (by decide +kernel)
  have hacc : Accepts ad (nested 4 4) 0 .LE 8 8 (some ⟨1, 2⟩)
      ⟨false, [⟨1, 1, 2, 2⟩], [[⟨0, 0, 3, 4⟩]], 1, 4⟩ :=
    ⟨rfl, by decide, by decide, by decide, by decide⟩
  have harray : ad.setVal (nested 4 4) 0 .LE 8 8 (some ⟨1, 2⟩) 0 64 m (fun _ ↦ 0x11) =
      .ok (8, setVal .LE .BE ad.ie_ 8 8 0 64 m (fun _ ↦ 0x11) fun i ↦ 2 * i) :=
    setVal_ok_iff.2 ⟨_, hacc, rfl, rfl⟩
  have hvals : ∀ i < (8 : UInt32).toNat, m.get (0 + i * 8) 8 =
      lowFirst .LE (bytes 8 (0xfe : UInt64).toNat) := by decide
  refine ⟨_, harray, ?_, by decide +kernel⟩
  exact (setValAll_iff (.findByName (.create rfl) hp) ⟨by decide, by decide, by decide⟩ (by decide)
    (.inl rfl) (.inr rfl) harray hvals (.inr (by decide)) (.inr (by decide))).2 (by decide)

/-- The number of elements of the whole path wraps around: the number finds no room for the elements
for which an array has it. -/
theorem not_setValAll :
    let p : PathImpl (Fin 3) (Fin 2) := ⟨0, [⟨0, 0, 65535, 65536⟩, ⟨1, 0, 65535, 0⟩]⟩
    let ad := nestedAdapt p
    let m : Mem := fun _ ↦ 0
    Reachable (nested 65536 65536) p ∧
      (∃ dev', ad.setVal (nested 65536 65536) 0 .LE 8 65536 (some ⟨0, 0⟩) 0 (65536 * 8) m m =
        .ok (65536, dev')) ∧
      ad.setValAll (nested 65536 65536) 0 .LE 0 (some ⟨0, 0⟩) 0 0 m m =
        .error (.invalidArg "Invalid Argument: buffer too small") := by
  intro p ad m
  have hacc : Accepts ad (nested 65536 65536) 0 .LE 8 65536 (some ⟨0, 0⟩)
      ⟨false, [⟨1, 0, 0, 1⟩], [[⟨0, 0, 65535, 65536⟩]], 1, 65536⟩ :=
    ⟨Run.toOption_eq_some.1 (by decide +kernel), by decide, by decide, by decide +kernel,
      by decide +kernel⟩
  have hidx : ad.nelmsFromIdx (some ⟨0, 0⟩) = .ok 0 := Run.toOption_eq_some.1 (by decide +kernel)
  refine ⟨large_reachable, ⟨_, setVal_ok_iff.2 ⟨_, hacc, by decide +kernel, rfl⟩⟩, ?_⟩
  have hroom : @IIntEntryAdapt.checkNelms (Fin 2) 0
      ⟨false, [⟨1, 0, 0, 1⟩], [[⟨0, 0, 65535, 65536⟩]], 1, 65536⟩ =
      .error (.invalidArg "Invalid Argument: buffer too small") := if_neg (by decide +kernel)
  rw [IIntEntryAdapt.setValAll, hidx]
  dsimp only [bind, Except.bind]
  rw [IIntEntryAdapt.setVal, hacc.sliced]
  dsimp only [bind, Except.bind]
  rw [if_neg hacc.cur, hroom]

end Cpsw.Sval
