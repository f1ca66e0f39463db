import Cpsw.ProtoMod.Requested
import Mathlib.Data.List.Pairwise

namespace Cpsw.ProtoMod

open ParamName

variable {br p q : Branch} {brs : List Branch} {l : Link} {n : ParamName} {v : UInt32}
variable {b : CProtoStackBuilder}

namespace Branch

/-- The first of the links that has a value for the parameter. -/
theorem val_eq (br : Branch) (n : ParamName) : br.val n =
    (br.srp.bind fun l ↦ l.impl.port.offers n).or ((br.tdest.bind fun l ↦ l.impl.port.offers n).or
      ((br.depack.bind fun l ↦ l.impl.port.offers n).or ((br.rssi.bind fun l ↦ l.impl.port.offers n).or
        (br.xprt.impl.port.offers n)))) := by
  have hpart (o : Option Link) : (o.toList.map fun l ↦ l.impl.port).findSome?
      (fun port ↦ port.offers n) = o.bind fun l ↦ l.impl.port.offers n := by
    cases o <;> simp
  unfold val valOf links base ProtoPort.ports
  simp only [List.map_append, List.findSome?_append, hpart, List.map_cons, List.map_nil,
    List.findSome?_singleton, Option.or_assoc]

theorem srp_offers (br : Branch) (hn : n ≠ srpVersion ∧ n ≠ srpVC) :
    (br.srp.bind fun l ↦ l.impl.port.offers n) = none := by
  cases h : br.srp with
  | none => rfl
  | some l =>
    obtain ⟨v, d, hp⟩ := br.srp_port l h
    rw [Option.bind_some, hp]
    cases n <;> simp_all [Port.offers]

theorem tdest_offers (br : Branch) (hn : n ≠ tDest ∧ n ≠ depackVersion ∧ n ≠ haveDepack) :
    (br.tdest.bind fun l ↦ l.impl.port.offers n) = none := by
  cases h : br.tdest with
  | none => rfl
  | some l =>
    obtain ⟨d, -, hp | ⟨hp, -⟩⟩ := br.tdest_port l h <;> rw [Option.bind_some, hp] <;>
      cases n <;> simp_all [Port.offers]

theorem depack_offers (br : Branch) (hn : n ≠ depackVersion ∧ n ≠ haveDepack) :
    (br.depack.bind fun l ↦ l.impl.port.offers n) = none := by
  cases h : br.depack with
  | none => rfl
  | some l =>
    rw [Option.bind_some, br.depack_port l h]
    cases n <;> simp_all [Port.offers]

theorem rssi_offers (br : Branch) (hn : n ≠ haveRssi) :
    (br.rssi.bind fun l ↦ l.impl.port.offers n) = none := by
  cases h : br.rssi with
  | none => rfl
  | some l =>
    rw [Option.bind_some, br.rssi_port l h]
    cases n <;> simp_all [Port.offers]

theorem xprt_offers (br : Branch) (hn : n ≠ udpDestPort ∧ n ≠ tcpDestPort) :
    br.xprt.impl.port.offers n = none := by
  obtain ⟨d, hp⟩ | ⟨d, hp⟩ := br.xprt_port <;> rw [hp] <;> cases n <;> simp_all [Port.offers]

theorem val_tDest (br : Branch) : br.val tDest = br.tdest.bind fun l ↦ l.impl.port.offers tDest := by
  simp [val_eq, srp_offers, depack_offers, rssi_offers, xprt_offers]

theorem val_srpVersion (br : Branch) :
    br.val srpVersion = br.srp.bind fun l ↦ l.impl.port.offers srpVersion := by
  simp [val_eq, tdest_offers, depack_offers, rssi_offers, xprt_offers]

theorem val_srpVC (br : Branch) : br.val srpVC = br.srp.bind fun l ↦ l.impl.port.offers srpVC := by
  simp [val_eq, tdest_offers, depack_offers, rssi_offers, xprt_offers]

theorem val_haveRssi (br : Branch) : br.val haveRssi = br.rssi.map fun _ ↦ 1 := by
  rw [val_eq]
  simp only [ne_eq, reduceCtorEq, not_false_eq_true, and_self, srp_offers, tdest_offers, depack_offers,
    xprt_offers, Option.none_or, Option.or_none]
  cases h : br.rssi with
  | none => rfl
  | some l => simp [br.rssi_port l h, Port.offers]

theorem val_haveDepack (br : Branch) : br.val haveDepack =
    (br.tdest.bind fun l ↦ l.impl.port.offers haveDepack).or (br.depack.map fun _ ↦ 1) := by
  rw [val_eq]
  simp only [ne_eq, reduceCtorEq, not_false_eq_true, and_self, srp_offers, rssi_offers,
    xprt_offers, Option.none_or, Option.or_none]
  congr 1
  cases h : br.depack with
  | none => rfl
  | some l => simp [br.depack_port l h, Port.offers]

theorem val_depackVersion (br : Branch) : br.val depackVersion =
    (br.tdest.bind fun l ↦ l.impl.port.offers depackVersion).or
      (br.depack.map fun _ ↦ DEPACKETIZER_V0) := by
  rw [val_eq]
  simp only [ne_eq, reduceCtorEq, not_false_eq_true, and_self, srp_offers, rssi_offers,
    xprt_offers, Option.none_or, Option.or_none]
  congr 1
  cases h : br.depack with
  | none => rfl
  | some l => simp [br.depack_port l h, Port.offers]

theorem val_haveDepack_eq (br : Branch) :
    br.val haveDepack = (br.val depackVersion).map fun _ ↦ 1 := by
  rw [val_haveDepack, val_depackVersion]
  cases ht : br.tdest with
  | none => cases br.depack <;> rfl
  | some l =>
    obtain ⟨d, -, hp | ⟨hp, -⟩⟩ := br.tdest_port l ht <;> cases br.depack <;> simp [hp, Port.offers]

end Branch

/-- The version of the depacketizer that a multiplexer is itself. -/
def MuxKind.version : MuxKind → Option UInt32
  | tdest2 _ => some DEPACKETIZER_V2
  | _ => none

theorem offers_depackVersion {kind : MuxKind} (h : l.impl.muxKind = some kind) :
    l.impl.port.offers depackVersion = kind.version := by
  cases hi : l.impl <;> rw [hi] at h <;> cases h <;> rfl

/-- Two branches with the same modules upstream of the TDEST. -/
structure SameBase (p q : Branch) : Prop where
  xprt : p.xprt = q.xprt
  rssi : p.rssi = q.rssi
  depack : p.depack = q.depack
  kind : (p.tdest.bind fun l ↦ l.impl.muxKind) = q.tdest.bind fun l ↦ l.impl.muxKind

/-- Two branches on one transport: they differ in the TDEST, or in the virtual channel of one SRP
version. -/
structure Sibling (p q : Branch) : Prop extends SameBase p q where
  differs : p.val tDest = q.val tDest →
    p.val srpVersion = q.val srpVersion ∧ p.val srpVC ≠ q.val srpVC

def Coherent (brs : List Branch) : Prop :=
  brs.Pairwise fun p q ↦ p.xprt.impl.port = q.xprt.impl.port → Sibling p q

theorem SameBase.symm (h : SameBase p q) : SameBase q p :=
  ⟨h.xprt.symm, h.rssi.symm, h.depack.symm, h.kind.symm⟩

theorem Branch.muxKind_isSome (br : Branch) (h : br.tdest = some l) : l.impl.muxKind.isSome = true := by
  obtain ⟨d, -, hp | ⟨hp, -⟩⟩ := br.tdest_port l h <;> revert hp <;> cases l.impl <;>
    simp [PortImpl.port, PortImpl.muxKind]

theorem Branch.tdest_bind_version (br : Branch) :
    (br.tdest.bind fun l ↦ l.impl.port.offers depackVersion) =
      (br.tdest.bind fun l ↦ l.impl.muxKind).bind MuxKind.version := by
  cases h : br.tdest with
  | none => rfl
  | some l =>
    obtain ⟨kind, hk⟩ := Option.isSome_iff_exists.1 (br.muxKind_isSome h)
    simp [hk, offers_depackVersion hk]

theorem SameBase.version (h : SameBase p q) : p.val depackVersion = q.val depackVersion := by
  rw [Branch.val_depackVersion, Branch.val_depackVersion, Branch.tdest_bind_version,
    Branch.tdest_bind_version, h.kind, h.depack]

theorem SameBase.fits (h : SameBase p q) (hq : b.Fits q) : b.Fits p where
  xprt := h.xprt ▸ hq.xprt
  rssi hr := by
    have := hq.rssi hr
    rwa [Branch.val_haveRssi, ← h.rssi, ← Branch.val_haveRssi] at this
  depack hd := by
    have := hq.depack hd
    rwa [Branch.val_haveDepack_eq, ← h.version, ← Branch.val_haveDepack_eq] at this
  version hv := h.version ▸ hq.version hv

theorem Coherent.sameBase (h : Coherent brs) (hp : p ∈ brs) (hq : q ∈ brs)
    (hx : p.xprt.impl.port = q.xprt.impl.port) : SameBase p q := by
  have hboth : brs.Pairwise fun p q ↦ p.xprt.impl.port = q.xprt.impl.port → SameBase p q :=
    h.imp fun hs he ↦ (hs he).toSameBase
  have hflip : brs.Pairwise (flip fun p q ↦ p.xprt.impl.port = q.xprt.impl.port → SameBase p q) :=
    hboth.imp fun hs he ↦ (hs he.symm).symm
  exact hboth.forall_of_forall_of_flip (fun _ _ _ ↦ ⟨rfl, rfl, rfl, rfl⟩) hflip hp hq hx

end Cpsw.ProtoMod
