import Cpsw.Buf
import Cpsw.Lib.Throw

namespace Cpsw

/-- The numbers in a `CBufImpl`; a pointer into `data_` is its distance from there. -/
structure CBufImpl where
  beg : UInt16
  fin : UInt16
  capa : UInt16
  deriving DecidableEq, Repr

namespace CBufImpl

open Lib Throw

def getCapacity (b : CBufImpl) : UInt64 := b.capa.toUInt64

def getSize (b : CBufImpl) : UInt64 := b.fin.toUInt64 - b.beg.toUInt64

def setSize (s : UInt64) : Throw BufError CBufImpl Unit := do
  let b ← get
  let e := (b.beg.toUInt64 + s).toUInt32
  if e.toUInt64 > b.getCapacity then throw .requestedSizeTooBig
  else modify fun b ↦ { b with fin := e.toUInt16 }

/-- `none` is the null pointer. -/
def setPayload (p : Option ℤ) : Throw BufError CBufImpl Unit := do
  let b ← get
  match p with
  | none => modify fun b ↦ { b with beg := 0 }
  | some p =>
    if p < 0 ∨ p > b.capa.toNat then throw .payloadOutOfRange
    else modify fun b ↦
      let beg := UInt16.ofNat p.toNat
      { b with beg, fin := if b.fin < beg then beg else b.fin }

/-- The result says whether the payload was moved. -/
def adjPayload (delta : Int64) : Throw BufError CBufImpl Bool := do
  let b ← get
  let oldSize := b.getSize.toInt64
  let beg := b.beg.toUInt64.toInt64
  if delta + beg < 0 ∨ delta > oldSize then pure false
  else do
    modify fun b ↦ { b with beg := (beg + delta).toUInt64.toUInt16 }
    pure true

def reinit : Throw BufError CBufImpl Unit :=
  modify fun b ↦ { b with beg := UInt16.ofNat Buf.HEADROOM, fin := UInt16.ofNat Buf.HEADROOM }

inductive Call
  | setSize (s : UInt64)
  | setPayload (p : Option ℤ)
  | adjPayload (delta : Int64)
  | reinit
  deriving DecidableEq

/-- The call, and whether it did something. -/
def Call.run : Call → Throw BufError CBufImpl Bool
  | setSize s => do
    CBufImpl.setSize s
    pure true
  | setPayload p => do
    CBufImpl.setPayload p
    pure true
  | adjPayload delta => CBufImpl.adjPayload delta
  | reinit => do
    CBufImpl.reinit
    pure true

/-- The payload lies within the storage. -/
structure Ok (b : CBufImpl) : Prop where
  le : b.beg.toNat ≤ b.fin.toNat
  fits : b.fin.toNat ≤ b.capa.toNat

/-- What is refused changes nothing; what is done keeps the payload within the storage. -/
structure Kept (b : CBufImpl) (c : Call) : Prop where
  refused : ∀ r b', exec c.run b = (r, b') → r ≠ .ok true → b' = b
  done : ∀ b', exec c.run b = (.ok true, b') → b'.Ok ∧ ∀ s, c = .setSize s → b'.getSize = s

/-- The requested end is a 32-bit number, or what is left of it in 32 bits is beyond the storage;
the initial headroom lies within the storage. -/
def Call.Fits (b : CBufImpl) : Call → Prop
  | setSize s => b.beg.toNat + s.toNat < 2 ^ 32 ∨ b.capa.toNat < (b.beg.toNat + s.toNat) % 2 ^ 32
  | setPayload _ => True
  | adjPayload _ => True
  | reinit => Buf.HEADROOM ≤ b.capa.toNat

variable {b b' : CBufImpl} {s : UInt64} {c : Call}

theorem kept_of_refused {r : Except BufError Bool} (h : exec c.run b = (r, b)) (hr : r ≠ .ok true) :
    Kept b c where
  refused _ _ hx _ := congrArg Prod.snd (hx.symm.trans h)
  done _ hx := absurd (congrArg Prod.fst (hx.symm.trans h)).symm hr

theorem kept_iff_of_done (h : exec c.run b = (.ok true, b')) :
    Kept b c ↔ b'.Ok ∧ ∀ s, c = .setSize s → b'.getSize = s := by
  constructor
  · exact fun hk ↦ hk.done b' h
  · intro hok
    refine ⟨fun r b'' hx hr ↦ absurd (congrArg Prod.fst (hx.symm.trans h)) hr, fun b'' hx ↦ ?_⟩
    obtain rfl : b'' = b' := congrArg Prod.snd (hx.symm.trans h)
    exact hok

theorem toNat_getSize (hb : b.Ok) : b.getSize.toNat = b.fin.toNat - b.beg.toNat := by
  have hle := hb.le
  have hfin := b.fin.toNat_lt
  rw [getSize, UInt64.toNat_sub, UInt16.toNat_toUInt64, UInt16.toNat_toUInt64]
  omega

/-- The end that `setSize` computes. -/
theorem toNat_end (b : CBufImpl) (s : UInt64) :
    (b.beg.toUInt64 + s).toUInt32.toNat = (b.beg.toNat + s.toNat) % 2 ^ 32 := by
  rw [UInt64.toNat_toUInt32, UInt64.toNat_add, UInt16.toNat_toUInt64]
  omega

theorem kept_setSize (hb : b.Ok) : Kept b (.setSize s) ↔ Call.Fits b (.setSize s) := by
  have hend := toNat_end b s
  have hcapa := b.capa.toNat_lt
  have hbeg : b.beg.toNat ≤ b.capa.toNat := hb.le.trans hb.fits
  have hgt : (b.beg.toUInt64 + s).toUInt32.toUInt64 > b.getCapacity ↔
      b.capa.toNat < (b.beg.toNat + s.toNat) % 2 ^ 32 := by
    rw [gt_iff_lt, UInt64.lt_iff_toNat_lt, UInt32.toNat_toUInt64, hend, getCapacity,
      UInt16.toNat_toUInt64]
  by_cases hlt : b.capa.toNat < (b.beg.toNat + s.toNat) % 2 ^ 32
  · have hx : exec (Call.setSize s).run b = (.error .requestedSizeTooBig, b) := by
      rw [Call.run, CBufImpl.setSize, exec_bind, exec_bind, exec_get]
      dsimp only
      rw [if_pos (hgt.2 hlt)]
      rfl
    exact iff_of_true (kept_of_refused hx nofun) (Or.inr hlt)
  · have hx : exec (Call.setSize s).run b =
        (.ok true, { b with fin := (b.beg.toUInt64 + s).toUInt32.toUInt16 }) := by
      rw [Call.run, CBufImpl.setSize, exec_bind, exec_bind, exec_get]
      dsimp only
      rw [if_neg (mt hgt.1 hlt)]
      rfl
    have hfin : ((b.beg.toUInt64 + s).toUInt32.toUInt16).toNat =
        (b.beg.toNat + s.toNat) % 2 ^ 32 := by
      rw [UInt32.toNat_toUInt16, hend]
      omega
    rw [kept_iff_of_done hx, Call.Fits, or_iff_left hlt]
    constructor
    · rintro ⟨hok, hsize⟩
      have hs := congrArg UInt64.toNat (hsize s rfl)
      have hle := hok.le
      rw [toNat_getSize hok] at hs
      dsimp only at hs hle
      rw [hfin] at hs hle
      omega
    · intro hs
      have hok : Ok { b with fin := (b.beg.toUInt64 + s).toUInt32.toUInt16 } := by
        constructor <;> dsimp only <;> rw [hfin] <;> omega
      refine ⟨hok, ?_⟩
      rintro _ ⟨⟩
      apply UInt64.toNat_inj.1
      rw [toNat_getSize hok]
      dsimp only
      rw [hfin]
      omega

theorem kept_setPayload (hb : b.Ok) (p : Option ℤ) : Kept b (.setPayload p) := by
  have hcapa := b.capa.toNat_lt
  have hle := hb.le
  have hfits := hb.fits
  cases p with
  | none =>
    have hx : exec (Call.setPayload none).run b = (.ok true, { b with beg := 0 }) := rfl
    exact (kept_iff_of_done hx).2 ⟨⟨Nat.zero_le _, hfits⟩, nofun⟩
  | some p =>
    by_cases hp : p < 0 ∨ p > b.capa.toNat
    · have hx : exec (Call.setPayload (some p)).run b = (.error .payloadOutOfRange, b) := by
        rw [Call.run, CBufImpl.setPayload, exec_bind, exec_bind, exec_get]
        dsimp only
        rw [if_pos hp]
        rfl
      exact kept_of_refused hx nofun
    · have hx : exec (Call.setPayload (some p)).run b = (.ok true, { b with
          beg := UInt16.ofNat p.toNat
          fin := if b.fin < UInt16.ofNat p.toNat then UInt16.ofNat p.toNat else b.fin }) := by
        rw [Call.run, CBufImpl.setPayload, exec_bind, exec_bind, exec_get]
        dsimp only
        rw [if_neg hp]
        rfl
      have hbeg : (UInt16.ofNat p.toNat).toNat = p.toNat := by
        apply UInt16.toNat_ofNat_of_lt'
        change p.toNat < 2 ^ 16
        omega
      refine (kept_iff_of_done hx).2 ⟨?_, nofun⟩
      by_cases hlt : b.fin < UInt16.ofNat p.toNat
      · rw [if_pos hlt]
        refine ⟨le_rfl, ?_⟩
        dsimp only
        rw [hbeg]
        omega
      · rw [if_neg hlt]
        rw [UInt16.lt_iff_toNat_lt] at hlt
        exact ⟨not_lt.1 hlt, hfits⟩

theorem kept_reinit : Kept b .reinit ↔ Call.Fits b .reinit := by
  have hx : exec Call.reinit.run b = (.ok true, { b with
      beg := UInt16.ofNat Buf.HEADROOM, fin := UInt16.ofNat Buf.HEADROOM }) := rfl
  rw [kept_iff_of_done hx]
  exact ⟨fun h ↦ h.1.fits, fun h ↦ ⟨⟨le_rfl, h⟩, nofun⟩⟩

theorem toInt_toInt64 {n : UInt64} (hn : n.toNat < 2 ^ 63) : n.toInt64.toInt = n.toNat := by
  rw [Int64.toInt, UInt64.toBitVec_toInt64, BitVec.toInt_eq_toNat_of_lt]
  · rfl
  · change 2 * n.toNat < 2 ^ 64
    omega

theorem kept_adjPayload (hb : b.Ok) (delta : Int64) : Kept b (.adjPayload delta) := by
  have hcapa := b.capa.toNat_lt
  have hle := hb.le
  have hfits := hb.fits
  have hsize : b.getSize.toInt64.toInt = b.fin.toNat - b.beg.toNat := by
    rw [toInt_toInt64 (by rw [toNat_getSize hb]; omega), toNat_getSize hb]
    omega
  have hbeg : b.beg.toUInt64.toInt64.toInt = b.beg.toNat := by
    rw [toInt_toInt64 (by rw [UInt16.toNat_toUInt64]; omega), UInt16.toNat_toUInt64]
  by_cases hno : delta + b.beg.toUInt64.toInt64 < 0 ∨ delta > b.getSize.toInt64
  · have hx : exec (Call.adjPayload delta).run b = (.ok false, b) := by
      rw [Call.run, CBufImpl.adjPayload, exec_bind, exec_get]
      dsimp only
      rw [if_pos hno]
      rfl
    exact kept_of_refused hx nofun
  · have hx : exec (Call.adjPayload delta).run b =
        (.ok true, { b with beg := (b.beg.toUInt64.toInt64 + delta).toUInt64.toUInt16 }) := by
      rw [Call.run, CBufImpl.adjPayload, exec_bind, exec_get]
      dsimp only
      rw [if_neg hno]
      rfl
    rw [not_or, gt_iff_lt, Int64.lt_iff_toInt_lt, Int64.lt_iff_toInt_lt, hsize] at hno
    have hmin := delta.le_toInt
    -- neither sum leaves the range of a `long`
    have hsum : (delta.toInt + (b.beg.toNat : ℤ)).bmod (2 ^ 64) = delta.toInt + b.beg.toNat := by
      rw [Int.bmod_eq_of_le] <;> omega
    have hsum' : (b.beg.toUInt64.toInt64 + delta).toInt = delta.toInt + b.beg.toNat := by
      rw [Int64.toInt_add, hbeg, Int.add_comm, hsum]
    rw [Int64.toInt_add, hbeg, hsum, Int64.toInt_zero] at hno
    have hnonneg : 0 ≤ b.beg.toUInt64.toInt64 + delta := by
      rw [Int64.le_iff_toInt_le, hsum', Int64.toInt_zero]
      omega
    have hnew : (b.beg.toUInt64.toInt64 + delta).toUInt64.toUInt16.toNat =
        (delta.toInt + b.beg.toNat).toNat := by
      rw [UInt64.toNat_toUInt16, Int64.toNat_toUInt64_of_le hnonneg, Int64.toNatClampNeg, hsum']
      omega
    refine (kept_iff_of_done hx).2 ⟨⟨?_, hfits⟩, nofun⟩
    dsimp only
    rw [hnew]
    omega

/-- Which calls keep a buffer within its bounds. -/
theorem kept_iff_fits (hb : b.Ok) : Kept b c ↔ Call.Fits b c := by
  cases c with
  | setSize s => exact kept_setSize hb
  | setPayload p => exact iff_of_true (kept_setPayload hb p) trivial
  | adjPayload delta => exact iff_of_true (kept_adjPayload hb delta) trivial
  | reinit => exact kept_reinit

theorem kept_iff_fits_sample :
    Kept ⟨32, 40, 1976⟩ (.setSize 100) ↔ Call.Fits ⟨32, 40, 1976⟩ (.setSize 100) :=
  kept_iff_fits ⟨by decide, by decide⟩

/-- A caller subtracts one too many: the payload ends before it begins. -/
theorem not_kept : ∃ b : CBufImpl, ∃ c, b.Ok ∧ ¬Kept b c := by
  refine ⟨⟨32, 40, 1976⟩, .setSize (-1), ⟨by decide, by decide⟩, fun hk ↦ ?_⟩
  have hok := (hk.done ⟨32, 31, 1976⟩ (Prod.ext rfl rfl)).1
  exact absurd hok.le (by decide)

end CBufImpl

/-- The numbers in a buffer. -/
def Buf.toImpl (b : Buf) : CBufImpl :=
  ⟨UInt16.ofNat b.beg, UInt16.ofNat b.fin, UInt16.ofNat b.getCapacity⟩

open Lib.Throw in
/-- `setSize` on the buffers that the protocol modules exchange. -/
theorem Buf.Ok.setSize_toImpl {b : Buf} (hb : b.Ok) (s : ℤ) :
    exec (CBufImpl.setSize (UInt64.ofInt s)) b.toImpl =
      match b.setSize s with
      | .error e => (.error e, b.toImpl)
      | .ok b' => (.ok (), b'.toImpl) := by
  have hcapa := hb.capa
  have hbeg : b.beg < 2 ^ 16 := (hb.le.trans hb.fits).trans_lt hcapa
  have hbeg' : b.toImpl.beg.toNat = b.beg := UInt16.toNat_ofNat_of_lt' hbeg
  have hcapa' : b.toImpl.capa.toNat = b.getCapacity := UInt16.toNat_ofNat_of_lt' hcapa
  have hend : (b.toImpl.beg.toUInt64 + UInt64.ofInt s).toUInt32.toNat =
      ((b.beg + s) % 2 ^ 32).toNat := by
    rw [CBufImpl.toNat_end, hbeg', UInt64.ofInt, UInt64.toNat_ofNat']
    omega
  have hgt : (b.toImpl.beg.toUInt64 + UInt64.ofInt s).toUInt32.toUInt64 > b.toImpl.getCapacity ↔
      ((b.beg + s) % 2 ^ 32).toNat > b.getCapacity := by
    rw [gt_iff_lt, UInt64.lt_iff_toNat_lt, UInt32.toNat_toUInt64, hend, CBufImpl.getCapacity,
      UInt16.toNat_toUInt64, hcapa']
  rw [CBufImpl.setSize, exec_bind, exec_get, Buf.setSize]
  dsimp only
  by_cases h : ((b.beg + s) % 2 ^ 32).toNat > b.getCapacity
  · rw [if_pos h, if_pos (hgt.2 h)]
    rfl
  · rw [if_neg h, if_neg (mt hgt.1 h)]
    refine Prod.ext rfl (congrArg (CBufImpl.mk _ · _) ?_)
    apply UInt16.toNat_inj.1
    rw [UInt32.toNat_toUInt16, hend, UInt16.toNat_ofNat']

end Cpsw
