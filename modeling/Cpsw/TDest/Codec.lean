import Cpsw.Depack.Codec
import Cpsw.TDest.Crc

namespace Cpsw.TDest

open Cpsw.Depack

section Bits

variable {p q : Bytes} {k n : ℕ}

theorem bitAt_set {i : ℕ} (x : UInt8) (hi : i < p.length) (k : ℕ) :
    bitAt (p.set i x) k = if k / 8 = i then x.toBitVec.getLsbD (k % 8) else bitAt p k := by
  rw [bitAt, List.getD_eq_getElem?_getD, List.getElem?_set]
  by_cases h : i = k / 8
  · rw [if_pos h, if_pos h.symm, if_pos (h ▸ hi)]
    rfl
  · rw [if_neg h, if_neg (Ne.symm h), ← List.getD_eq_getElem?_getD]
    rfl

/-- Bytes are told apart by their bits. -/
theorem eq_of_bits (hlen : p.length = q.length) (h : ∀ k, bitAt p k = bitAt q k) : p = q := by
  apply List.ext_getElem hlen
  intro i hp hq
  apply UInt8.toBitVec_inj.1
  apply BitVec.eq_of_getLsbD_eq
  intro j hj
  have hdiv : (8 * i + j) / 8 = i := by omega
  have hmod : (8 * i + j) % 8 = j := by omega
  have hbit := h (8 * i + j)
  rwa [bitAt, bitAt, hdiv, hmod, List.getD_eq_getElem _ _ hp, List.getD_eq_getElem _ _ hq] at hbit

theorem bitAt_drop (p : Bytes) (n k : ℕ) : bitAt (p.drop n) k = bitAt p (8 * n + k) := by
  have hdiv : (8 * n + k) / 8 = n + k / 8 := by omega
  have hmod : (8 * n + k) % 8 = k % 8 := by omega
  rw [bitAt, bitAt, hdiv, hmod, List.getD_eq_getElem?_getD, List.getElem?_drop,
    ← List.getD_eq_getElem?_getD]

/-- The mark in the tail of a last fragment is one bit. -/
theorem bitAt_insertTailEOF (L : Layout) (eof : Bool) (hl : L.T_FRAG_LAST_BIT < 8 * p.length) (k : ℕ) :
    bitAt (insertTailEOF L eof p) k = if k = L.T_FRAG_LAST_BIT then eof else bitAt p k := by
  have hm : L.T_FRAG_LAST_BIT % 8 < 8 := Nat.mod_lt _ (by decide)
  unfold insertTailEOF
  dsimp only
  rw [bitAt_set _ (by omega), getLsbD_setBit _ _ _ (Nat.mod_lt _ (by decide))]
  by_cases hk : k / 8 = L.T_FRAG_LAST_BIT / 8
  · rw [if_pos hk]
    by_cases he : k % 8 = L.T_FRAG_LAST_BIT % 8
    · rw [if_pos he, if_pos (by omega)]
    · rw [if_neg he, if_neg (by omega), ← hk]
      rfl
  · rw [if_neg hk, if_neg (by omega)]

theorem parseTailEOF_eq (L : Layout) (p : Bytes) : parseTailEOF L p = bitAt p L.T_FRAG_LAST_BIT :=
  and_two_pow_ne_zero _ (Nat.mod_lt _ (by decide))

end Bits

namespace CDepack2Header

variable {k n : ℕ}

def setCrcMode (crcMode : ℕ) (h : CDepack2Header) : CDepack2Header := { h with crcMode := crcMode }

inductive Setter
  | base (s : PackHeader.Setter)
  | crcMode (v : ℕ)

def Setter.run : Setter → CDepack2Header → CDepack2Header
  | base s, h => { h with toPackHeader := s.run depack2 h.toPackHeader }
  | crcMode v, h => setCrcMode v h

/-- There are two marks of a first fragment. -/
def Setter.Owns : Setter → ℕ → Prop
  | base (.fragNo v), k => (PackHeader.Setter.fragNo v).Owns depack2 k ∨ k = SOF_BIT_OFFSET
  | base s, k => s.Owns depack2 k
  | crcMode _, k => Field.Has ⟨CRC_MODE_BIT_OFFSET, CRC_MODE_BIT_SIZE, 0⟩ k

def fields (h : CDepack2Header) : List Field :=
  h.toPackHeader.fields depack2 ++ [⟨CRC_MODE_BIT_OFFSET, CRC_MODE_BIT_SIZE, h.crcMode⟩]

theorem fields_fit (h : CDepack2Header) :
    (∀ f ∈ h.fields, f.Fits HEADER_SIZE) ∧ h.fields.Pairwise Field.Apart := by
  have hshape : h.fields.map Field.shape =
      [⟨0, 4, 0⟩, ⟨32, 16, 0⟩, ⟨16, 8, 0⟩, ⟨24, 8, 0⟩, ⟨8, 8, 0⟩, ⟨4, 4, 0⟩] := rfl
  apply Field.fit_of_shape
  rw [hshape]
  decide

/-- What goes into the header before the CRC mode: the mark lies in a bit of its own. -/
theorem bitAt_mark {fs : List Field} (hfit : ∀ f ∈ fs, f.Fits HEADER_SIZE)
    (hno : ∀ f ∈ fs, ¬f.Has SOF_BIT_OFFSET) (first : Prop) [Decidable first] (k : ℕ) :
    bitAt (if first then
        (Field.write (List.replicate HEADER_SIZE 0) fs).set (SOF_BIT_OFFSET / 8)
          ((Field.write (List.replicate HEADER_SIZE 0) fs).getD (SOF_BIT_OFFSET / 8) 0 |||
            UInt8.ofNat (2 ^ (SOF_BIT_OFFSET % 8)))
      else Field.write (List.replicate HEADER_SIZE 0) fs) k =
    if k = SOF_BIT_OFFSET then decide first
    else bitAt (Field.write (List.replicate HEADER_SIZE 0) fs) k := by
  have hlen := Field.length_write (List.replicate HEADER_SIZE 0) fs
  have hzero : bitAt (Field.write (List.replicate HEADER_SIZE 0) fs) SOF_BIT_OFFSET = false :=
    Field.bitAt_write_of_not hfit hno
  generalize Field.write (List.replicate HEADER_SIZE 0) fs = p at hlen hzero ⊢
  by_cases hf : first
  · have hbit := getLsbD_setBit (p.getD (SOF_BIT_OFFSET / 8) 0) true (SOF_BIT_OFFSET % 8)
      (Nat.mod_lt k (by decide : 0 < 8))
    rw [if_pos rfl] at hbit
    rw [if_pos hf, bitAt_set _ (by rw [hlen]; decide), hbit, decide_eq_true hf]
    change (if k / 8 = 7 then if k % 8 = 7 then true else _ else _) = if k = 63 then true else _
    by_cases hk : k = 63
    · subst hk
      rfl
    · rw [if_neg hk]
      by_cases h7 : k / 8 = 7
      · rw [if_pos h7, if_neg (by omega), bitAt, h7]
        rfl
      · rw [if_neg h7]
  · rw [if_neg hf, decide_eq_false hf]
    by_cases hk : k = SOF_BIT_OFFSET
    · rw [if_pos hk, hk, hzero]
    · rw [if_neg hk]

theorem not_has_sof (h : CDepack2Header) : ∀ f ∈ h.fields, ¬f.Has SOF_BIT_OFFSET := by
  have hshape : h.fields.map Field.shape =
      [⟨0, 4, 0⟩, ⟨32, 16, 0⟩, ⟨16, 8, 0⟩, ⟨24, 8, 0⟩, ⟨8, 8, 0⟩, ⟨4, 4, 0⟩] := rfl
  have hall : ∀ f ∈ h.fields.map Field.shape, ¬f.Has SOF_BIT_OFFSET := by
    rw [hshape]
    decide
  exact fun f hf ↦ hall f.shape (List.mem_map_of_mem hf)

theorem bitAt_insert (h : CDepack2Header) (k : ℕ) : bitAt h.insert k =
    if k = SOF_BIT_OFFSET then h.fragNo == 0
    else bitAt (Field.write (List.replicate HEADER_SIZE 0) h.fields) k := by
  have hmark := bitAt_mark (fun f hf ↦ h.fields_fit.1 f (List.mem_append_left _ hf))
    (fun f hf ↦ h.not_has_sof f (List.mem_append_left _ hf)) (h.fragNo = 0) k
  have hcrc := h.fields_fit.1 ⟨CRC_MODE_BIT_OFFSET, CRC_MODE_BIT_SIZE, h.crcMode⟩
    (List.mem_append_right _ List.mem_cons_self)
  have hout := h.not_has_sof ⟨CRC_MODE_BIT_OFFSET, CRC_MODE_BIT_SIZE, h.crcMode⟩
    (List.mem_append_right _ List.mem_cons_self)
  have hlast : Field.write (List.replicate HEADER_SIZE 0) h.fields =
      setNum CRC_MODE_BIT_OFFSET CRC_MODE_BIT_SIZE h.crcMode
        (Field.write (List.replicate HEADER_SIZE 0) (h.toPackHeader.fields depack2)) := by
    rw [fields, Field.write, Field.write, List.foldl_append, List.foldl_cons, List.foldl_nil]
  rw [hlast, insert, PackHeader.insert_eq_write]
  have hlen := Field.length_write (List.replicate HEADER_SIZE 0) (h.toPackHeader.fields depack2)
  generalize Field.write (List.replicate HEADER_SIZE 0) (h.toPackHeader.fields depack2) = p
    at hmark hlen ⊢
  have hlen' : (if h.fragNo = 0 then p.set (SOF_BIT_OFFSET / 8) (p.getD (SOF_BIT_OFFSET / 8) 0 |||
      UInt8.ofNat (2 ^ (SOF_BIT_OFFSET % 8))) else p).length = HEADER_SIZE := by
    split_ifs
    · rw [List.length_set, hlen, List.length_replicate]
    · rw [hlen, List.length_replicate]
  rw [List.length_replicate] at hlen
  rw [Field.Fits.bitAt_setNum (f := ⟨CRC_MODE_BIT_OFFSET, CRC_MODE_BIT_SIZE, h.crcMode⟩) (hlen' ▸ hcrc),
    Field.Fits.bitAt_setNum (f := ⟨CRC_MODE_BIT_OFFSET, CRC_MODE_BIT_SIZE, h.crcMode⟩) (hlen ▸ hcrc),
    hmark]
  by_cases hk : k = SOF_BIT_OFFSET
  · rw [if_pos hk, if_pos hk, if_neg (hk ▸ hout)]
    rfl
  · rw [if_neg hk, if_neg hk]

/-- A setter changes the bits of its field. -/
theorem bitAt_run (s : Setter) (h : CDepack2Header) (hk : ¬s.Owns k) :
    bitAt (s.run h).insert k = bitAt h.insert k := by
  have hshape : ∀ s : Setter, ¬s.Owns k → k ≠ SOF_BIT_OFFSET →
      bitAt (Field.write (List.replicate HEADER_SIZE 0) (s.run h).fields) k =
        bitAt (Field.write (List.replicate HEADER_SIZE 0) h.fields) k := by
    intro s hk hne
    refine (Field.bitAt_write_congr h.fields_fit.1 rfl rfl ?_).symm
    cases s with
    | base s =>
      refine List.rel_append (s.fields_run depack2 (by decide) h.toPackHeader ?_)
        (.cons ⟨rfl, rfl, fun _ ↦ rfl⟩ .nil)
      cases s with
      | fragNo v => exact fun ho ↦ hk (.inl ho)
      | tDest v => exact hk
      | tUsr1 v => exact hk
      | tId v => exact hk
    | crcMode v =>
      refine List.rel_append ?_ (.cons ⟨rfl, rfl, fun hh ↦ absurd hh hk⟩ .nil)
      exact List.forall₂_same.2 fun f _ ↦ ⟨rfl, rfl, fun _ ↦ rfl⟩
  rw [bitAt_insert, bitAt_insert]
  by_cases hsof : k = SOF_BIT_OFFSET
  · rw [if_pos hsof, if_pos hsof]
    match s, hk with
    | .base (.fragNo _), hk => exact absurd (.inr hsof) hk
    | .base (.tDest _), _ => rfl
    | .base (.tUsr1 _), _ => rfl
    | .base (.tId _), _ => rfl
    | .crcMode _, _ => rfl
  · rw [if_neg hsof, if_neg hsof, hshape s hk hsof]

/-- What has been written is read back, and the mark tells the first fragment. -/
theorem parse_insert_append (h : CDepack2Header) (rest : Bytes) (hn : HEADER_SIZE ≤ n)
    (hv : h.vers = depack2.VERSION) (hcrc : h.crcMode < 2 ^ CRC_MODE_BIT_SIZE) :
    parse (h.insert ++ rest) n = some { h with fragNo := h.fragNo % 2 ^ depack2.FRAG_NO_BIT_SIZE } ∧
    isFirst (h.insert ++ rest) = (h.fragNo == 0) := by
  have hlen : h.insert.length = HEADER_SIZE := h.insert_length
  have hread : ∀ f ∈ h.fields, getNum f.off f.size (h.insert ++ rest) = f.val % 2 ^ f.size := by
    intro f hf
    have hfit := h.fields_fit.1 f hf
    rw [← Field.getNum_write (p := List.replicate HEADER_SIZE 0) h.fields_fit.1 h.fields_fit.2 hf rest]
    apply getNum_congr hfit.pos hfit.narrow.1 hfit.narrow.2
    intro k hle hlt
    have hk : k < 8 * HEADER_SIZE := hlt.trans_le hfit.le
    have hne : k ≠ SOF_BIT_OFFSET := by
      rintro rfl
      exact h.not_has_sof f hf ⟨hle, hlt⟩
    rw [bitAt_append (by rw [hlen]; exact hk), bitAt_append (by rw [Field.length_write]; exact hk),
      bitAt_insert, if_neg hne]
  constructor
  · have hmode := hread ⟨CRC_MODE_BIT_OFFSET, CRC_MODE_BIT_SIZE, h.crcMode⟩
      (List.mem_append_right _ List.mem_cons_self)
    rw [parse, PackHeader.parse_fields depack2 hn hv (by decide) fun f hf ↦
      hread f (List.mem_append_left _ hf)]
    dsimp only at hmode ⊢
    rw [hmode, Nat.mod_eq_of_lt hcrc]
  · have hbit : isFirst (h.insert ++ rest) = bitAt (h.insert ++ rest) SOF_BIT_OFFSET :=
      and_two_pow_ne_zero _ (by decide)
    rw [hbit, bitAt_append (by rw [hlen]; decide), bitAt_insert, if_pos rfl]

end CDepack2Header

section Tail

open CDepack2Header

variable {tail : Bytes} {k : ℕ}

inductive TailSetter
  | eof (v : Bool)
  | numLanes (v : ℕ)
  | tUsr2 (v : ℕ)
  | crc (v : UInt32)

namespace TailSetter

def run : TailSetter → Bytes → Bytes
  | eof v => insertTailEOF depack2 v
  | numLanes v => insertNumLanes v
  | tUsr2 v => insertTUsr2 v
  | crc v => insertCrc v

def Owns : TailSetter → ℕ → Prop
  | eof _, k => k = depack2.T_FRAG_LAST_BIT
  | numLanes _, k => Field.Has ⟨T_NLANES_BIT_OFFSET, T_NLANES_BIT_SIZE, 0⟩ k
  | tUsr2 _, k => Field.Has ⟨T_TUSR2_BIT_OFFSET, T_TUSR2_BIT_SIZE, 0⟩ k
  | crc _, k => Field.Has ⟨T_CRC_BIT_OFFSET, T_CRC_BIT_SIZE, 0⟩ k

theorem length_run (s : TailSetter) (tail : Bytes) : (s.run tail).length = tail.length := by
  cases s with
  | eof v => exact List.length_set
  | numLanes v => exact setNum_length T_NLANES_BIT_OFFSET T_NLANES_BIT_SIZE v tail
  | tUsr2 v => exact setNum_length T_TUSR2_BIT_OFFSET T_TUSR2_BIT_SIZE v tail
  | crc v => exact setNum_length T_CRC_BIT_OFFSET T_CRC_BIT_SIZE (bswap32 v).toNat tail

theorem bitAt_run (s : TailSetter) (ht : tail.length = TAIL_SIZE) (hk : ¬s.Owns k) :
    bitAt (s.run tail) k = bitAt tail k := by
  change tail.length = 8 at ht
  have hnum : ∀ off bitSize v, 0 < bitSize → off % 8 + bitSize ≤ 64 →
      off / 8 + (off % 8 + bitSize + 7) / 8 ≤ 8 → ¬Field.Has ⟨off, bitSize, 0⟩ k →
        bitAt (setNum off bitSize v tail) k = bitAt tail k := by
    intro off bitSize v hb h64 hfits hk
    rw [bitAt_setNum hb h64 (ht ▸ hfits)]
    exact if_neg hk
  cases s with
  | eof v =>
    have hl : depack2.T_FRAG_LAST_BIT < 8 * tail.length := by rw [ht]; decide
    exact (bitAt_insertTailEOF depack2 v hl k).trans (if_neg hk)
  | numLanes v =>
    exact hnum T_NLANES_BIT_OFFSET T_NLANES_BIT_SIZE v (by decide) (by decide) (by decide) hk
  | tUsr2 v =>
    exact hnum T_TUSR2_BIT_OFFSET T_TUSR2_BIT_SIZE v (by decide) (by decide) (by decide) hk
  | crc v =>
    exact hnum T_CRC_BIT_OFFSET T_CRC_BIT_SIZE (bswap32 v).toNat (by decide) (by decide) (by decide) hk

end TailSetter

/-- What the accessors read in a tail. Of the CRC these are the bytes: `parseCrc` masks them with
`(1<<32)-1`, which the language does not define. -/
structure TailFields where
  eof : Bool
  numLanes : Option ℕ
  tUsr2 : ℕ
  crc : Bytes
  deriving DecidableEq, Repr

def TailFields.of (tail : Bytes) : TailFields where
  eof := parseTailEOF depack2 tail
  numLanes := parseNumLanes tail
  tUsr2 := parseTUsr2 tail
  crc := tail.drop 4

/-- What a call should change in them. -/
def TailSetter.assign : TailSetter → TailFields → TailFields
  | eof v, f => { f with eof := v }
  | numLanes v, f =>
    { f with numLanes := if v % 2 ^ T_NLANES_BIT_SIZE > ALIGNMENT then none
                         else some (v % 2 ^ T_NLANES_BIT_SIZE) }
  | tUsr2 v, f => { f with tUsr2 := v % 2 ^ T_TUSR2_BIT_SIZE }
  | crc v, f => { f with crc := be32 v }

theorem getNum_setNum_tail {off bitSize : ℕ} (v : ℕ) (hb : 0 < bitSize) (hn : off % 8 + bitSize ≤ 32)
    (h31 : bitSize < 31) (hl : off + bitSize ≤ 8 * tail.length) :
    getNum off bitSize (setNum off bitSize v tail) = v % 2 ^ bitSize := by
  have hfit : ∀ f ∈ [(⟨off, bitSize, v⟩ : Field)], f.Fits tail.length := by
    rintro f hf
    obtain rfl := List.mem_singleton.1 hf
    exact ⟨hb, ⟨hn, h31⟩, hl⟩
  have hread := Field.getNum_write hfit (List.pairwise_singleton _ _) List.mem_cons_self []
  rwa [List.append_nil] at hread

/-- The accessors do not disturb one another. -/
theorem TailSetter.of_run (s : TailSetter) (ht : tail.length = TAIL_SIZE) :
    TailFields.of (s.run tail) = s.assign (TailFields.of tail) := by
  have heof : ¬s.Owns 8 → parseTailEOF depack2 (s.run tail) = parseTailEOF depack2 tail := by
    intro hk
    rw [parseTailEOF_eq, parseTailEOF_eq]
    exact s.bitAt_run ht hk
  have hlanes : (∀ k, 16 ≤ k → k < 20 → ¬s.Owns k) →
      parseNumLanes (s.run tail) = parseNumLanes tail := by
    intro hk
    have hnum : getNum T_NLANES_BIT_OFFSET T_NLANES_BIT_SIZE (s.run tail) =
        getNum T_NLANES_BIT_OFFSET T_NLANES_BIT_SIZE tail :=
      getNum_congr (by decide) (by decide) (by decide) fun k h₁ h₂ ↦ s.bitAt_run ht (hk k h₁ h₂)
    rw [parseNumLanes, parseNumLanes, hnum]
  have husr : (∀ k < 8, ¬s.Owns k) → parseTUsr2 (s.run tail) = parseTUsr2 tail := fun hk ↦
    getNum_congr (by decide) (by decide) (by decide) fun k _ h ↦
      s.bitAt_run ht (hk k (h.trans_eq (Nat.zero_add 8)))
  have hcrc : (∀ k, 32 ≤ k → ¬s.Owns k) → (s.run tail).drop 4 = tail.drop 4 := by
    intro hk
    apply eq_of_bits
    · rw [List.length_drop, List.length_drop, s.length_run]
    · intro k
      rw [bitAt_drop, bitAt_drop, s.bitAt_run ht (hk _ (Nat.le_add_right 32 k))]
  change tail.length = 8 at ht
  cases s with
  | eof v =>
    have hown : parseTailEOF depack2 (insertTailEOF depack2 v tail) = v := by
      have hl : depack2.T_FRAG_LAST_BIT < 8 * tail.length := by rw [ht]; decide
      rw [parseTailEOF_eq, bitAt_insertTailEOF depack2 v hl, if_pos rfl]
    have h₂ := hlanes fun k h h' (he : k = 8) ↦ by omega
    have h₃ := husr fun k h (he : k = 8) ↦ by omega
    have h₄ := hcrc fun k h (he : k = 8) ↦ by omega
    rw [TailFields.of, h₂, h₃, h₄]
    exact congrArg (fun e ↦ TailFields.mk e _ _ _) hown
  | numLanes v =>
    have hown : getNum T_NLANES_BIT_OFFSET T_NLANES_BIT_SIZE (insertNumLanes v tail) =
        v % 2 ^ T_NLANES_BIT_SIZE :=
      getNum_setNum_tail v (by decide) (by decide) (by decide) (by rw [ht]; decide)
    have h₁ := heof fun he : 16 ≤ 8 ∧ 8 < 20 ↦ by omega
    have h₃ := husr fun k h (he : 16 ≤ k ∧ k < 20) ↦ by omega
    have h₄ := hcrc fun k h (he : 16 ≤ k ∧ k < 20) ↦ by omega
    rw [TailFields.of, h₁, h₃, h₄]
    refine congrArg (fun n ↦ TailFields.mk _ n _ _) ?_
    change parseNumLanes (insertNumLanes v tail) = _
    rw [parseNumLanes, hown]
  | tUsr2 v =>
    have hown : getNum T_TUSR2_BIT_OFFSET T_TUSR2_BIT_SIZE (insertTUsr2 v tail) =
        v % 2 ^ T_TUSR2_BIT_SIZE :=
      getNum_setNum_tail v (by decide) (by decide) (by decide) (by rw [ht]; decide)
    have h₁ := heof fun he : 0 ≤ 8 ∧ 8 < 0 + 8 ↦ by omega
    have h₂ := hlanes fun k h h' (he : 0 ≤ k ∧ k < 0 + 8) ↦ by omega
    have h₄ := hcrc fun k h (he : 0 ≤ k ∧ k < 0 + 8) ↦ by omega
    rw [TailFields.of, h₁, h₂, h₄]
    exact congrArg (fun n ↦ TailFields.mk _ _ n _) hown
  | crc v =>
    have hown : (insertCrc v tail).drop 4 = be32 v := by
      rw [insertCrc_eq v ht, List.drop_left' (by rw [List.length_take, ht]; rfl)]
    have h₁ := heof fun he : 32 ≤ 8 ∧ 8 < 64 ↦ by omega
    have h₂ := hlanes fun k h h' (he : 32 ≤ k ∧ k < 64) ↦ by omega
    have h₃ := husr fun k h (he : 32 ≤ k ∧ k < 64) ↦ by omega
    rw [TailFields.of, h₁, h₂, h₃]
    exact congrArg (fun e ↦ TailFields.mk _ _ _ e) hown

end Tail

/-- Both headers and the tail. The mark of a first fragment is a bit of the user's byte, which the
number sets and the byte sets; the second one of version 2 is set by the number alone. -/
theorem header_codecs :
    (∀ (h : CAxisFrameHeader) (rest : Bytes) (n : ℕ), HEADER_SIZE ≤ n → h.vers = axis.VERSION →
      h.frameNo < 2 ^ FRAME_NO_BIT_SIZE → h.fragNo < 2 ^ axis.FRAG_NO_BIT_SIZE →
        CAxisFrameHeader.parse (h.insert ++ rest) n = some h) ∧
    (∀ (h : CDepack2Header) (rest : Bytes) (n : ℕ), HEADER_SIZE ≤ n → h.vers = depack2.VERSION →
      h.crcMode < 2 ^ CRC_MODE_BIT_SIZE →
        CDepack2Header.parse (h.insert ++ rest) n =
          some { h with fragNo := h.fragNo % 2 ^ depack2.FRAG_NO_BIT_SIZE } ∧
        CDepack2Header.isFirst (h.insert ++ rest) = (h.fragNo == 0)) ∧
    (∀ L ∈ [axis, depack2], ∀ (fragNo : ℕ) (tDest : UInt8) (h : PackHeader),
      (PackHeader.new L fragNo tDest).getSOF L = (fragNo == 0) ∧
      (h.setFragNo L fragNo).getSOF L = (fragNo == 0) ∧
      ∀ j < 8, j ≠ L.FRAG_FRST_BIT →
        (h.setFragNo L fragNo).tUsr1.toNat.testBit j = h.tUsr1.toNat.testBit j) ∧
    (∀ (s : CAxisFrameHeader.Setter) (h : CAxisFrameHeader) (k : ℕ), ¬s.Owns k →
      bitAt (s.run h).insert k = bitAt h.insert k) ∧
    (∀ (s : CDepack2Header.Setter) (h : CDepack2Header) (k : ℕ), ¬s.Owns k →
      bitAt (s.run h).insert k = bitAt h.insert k) ∧
    (∀ L ∈ [axis, depack2], ∀ (tail : Bytes) (eof : Bool), tail.length = L.TAIL_SIZE →
      parseTailEOF L (insertTailEOF L eof tail) = eof ∧
      ∀ k, k ≠ L.T_FRAG_LAST_BIT → bitAt (insertTailEOF L eof tail) k = bitAt tail k) ∧
    ∀ (s : TailSetter) (tail : Bytes), tail.length = TAIL_SIZE →
      TailFields.of (s.run tail) = s.assign (TailFields.of tail) := by
  refine ⟨fun h rest n ↦ h.parse_insert_append rest, fun h rest n ↦ h.parse_insert_append rest,
    fun L hL fragNo tDest h ↦ ?_, fun s h k ↦ CAxisFrameHeader.bitAt_run s h,
    fun s h k ↦ CDepack2Header.bitAt_run s h,
    fun L hL tail eof ht ↦ ?_, fun s tail ht ↦ s.of_run ht⟩
  · have hlt : ∀ L ∈ [axis, depack2], L.FRAG_FRST_BIT < 8 := by decide
    refine ⟨?_, PackHeader.getSOF_setFragNo L (hlt L hL) fragNo h⟩
    exact (PackHeader.getSOF_setFragNo L (hlt L hL) fragNo
      { vers := L.VERSION, fragNo := fragNo, tDest := tDest, tId := 0, tUsr1 := 0 }).1
  · have hlt : ∀ L ∈ [axis, depack2], L.T_FRAG_LAST_BIT < 8 * L.TAIL_SIZE := by decide
    have hl : L.T_FRAG_LAST_BIT < 8 * tail.length := ht ▸ hlt L hL
    rw [parseTailEOF_eq, bitAt_insertTailEOF L eof hl, if_pos rfl]
    exact ⟨rfl, fun k hk ↦ (bitAt_insertTailEOF L eof hl k).trans (if_neg hk)⟩

def sampleAxis : CAxisFrameHeader :=
  { vers := 0, fragNo := 0x123456, tDest := 7, tId := 9, tUsr1 := 0xfd, frameNo := 0xabc }

theorem header_codecs_sample :
    CAxisFrameHeader.parse (sampleAxis.insert ++ [1, 2, 3]) 11 = some sampleAxis :=
  header_codecs.1 sampleAxis [1, 2, 3] 11 (by decide) rfl (by decide) (by decide)

/-- A first fragment of which the user's byte is zero: assigned after the number, the byte takes the
mark away; assigned before it, the byte comes back with the mark. -/
theorem not_header_codecs :
    (∃ h : CAxisFrameHeader, h.toPackHeader = (PackHeader.new axis 0 0).setTUsr1 0 ∧
      (CAxisFrameHeader.parse h.insert 8).any (fun h ↦ h.fragNo == 0 && !h.getSOF axis)) ∧
    ∃ h : CAxisFrameHeader, h.toPackHeader = ((PackHeader.new axis 1 0).setTUsr1 0).setFragNo axis 0 ∧
      (CAxisFrameHeader.parse h.insert 8).any (fun h ↦ h.fragNo == 0 && h.tUsr1 != 0) := by
  refine ⟨⟨⟨(PackHeader.new axis 0 0).setTUsr1 0, 0⟩, rfl, ?_⟩,
    ⟨⟨((PackHeader.new axis 1 0).setTUsr1 0).setFragNo axis 0, 0⟩, rfl, ?_⟩⟩
  · decide +kernel
  · decide +kernel

end Cpsw.TDest
