import Cpsw.ProtoMod.Grown

namespace Cpsw.ProtoMod

open ParamName
open CProtoStackBuilder (Fits AskedSRP Grown)

/-- One call of `build`, with the ports that it is given. -/
structure BuildStep where
  bldr : CProtoStackBuilder
  existingPorts : List ProtoPort
  result : Except CPSWError (Option ProtoPort)

/-- The ports that a successful build adds to those of the device. -/
def BuildStep.returned (step : BuildStep) : List ProtoPort :=
  match step.result with
  | .ok (some p) => [p]
  | _ => []

/-- Builds for one device, with the ports that they have returned. The device hands over all its ports
in any order; what is created has not been there before, and creating the transport may fail. -/
inductive Builds : List BuildStep → List ProtoPort → Prop
  | nil : Builds [] []
  | build {steps : List BuildStep} {ports existingPorts : List ProtoPort} (b : CProtoStackBuilder)
      (xprtError : Option CPSWError) (next : ℕ) (h : Builds steps ports)
      (hall : existingPorts.Perm ports) (hnext : ∀ p ∈ ports, ∀ l ∈ p, l.mod < next)
      (step : BuildStep) (hstep : step = ⟨b, existingPorts, b.build xprtError existingPorts next⟩) :
      Builds (steps ++ [step]) (step.returned ++ ports)

namespace CProtoStackBuilder

/-- The value that is asked for, for each parameter. -/
def requested (b : CProtoStackBuilder) : ParamName → Option UInt32
  | udpDestPort => if b.hasUdp then some b.getUdpPort else none
  | tcpDestPort => if b.hasUdp then none else some b.getTcpPort
  | haveRssi => if b.hasRssiAndUdp then some 1 else none
  | haveDepack => if b.hasDepack then some 1 else none
  | depackVersion => if b.hasDepack then some b.getDepackVersion.toUnsigned else none
  | tDest => if b.hasTDestMux then some b.getTDestMuxTDEST else none
  | srpVersion => if b.hasSRPMux then some (srpUnsigned b.getSRPVersion) else none
  | srpVC => if b.hasSRPMux then some b.getSRPMuxVirtualChannel else none

/-- The port and those upstream of it are what is asked for, and nothing else. -/
def Exactly (b : CProtoStackBuilder) (p : ProtoPort) : Prop :=
  ∀ n, (p.ports.filterMap fun port ↦ port.offers n) = (b.requested n).toList

/-- What is asked for goes together with the ports that are there. -/
structure GoesWith (b : CProtoStackBuilder) (existingPorts : List ProtoPort) : Prop where
  /-- The depacketizer of version 2 is the TDEST multiplexer. -/
  version : b.getDepackVersion = .V2 → b.hasDepack = b.hasTDestMux
  /-- RSSI is not left out where the transport has it. -/
  rssi : ∀ p ∈ existingPorts, b.xprtIs ∈ p.ports → Port.rssi ∈ p.ports → b.hasRssiAndUdp = true
  /-- Nor is the depacketizer. -/
  depack : ∀ p ∈ existingPorts, b.xprtIs ∈ p.ports →
    (∃ port ∈ p.ports, port.handles haveDepack = true) → b.hasDepack = true
  /-- A TDEST that is there is shared with an SRP multiplexer. -/
  srpMux : ∀ p ∈ existingPorts, b.xprtIs ∈ p.ports →
    (∃ port ∈ p.ports, port.offers tDest = some b.getTDestMuxTDEST) → b.hasTDestMux = true →
      b.hasSRP = true → b.hasSRPMux = true

end CProtoStackBuilder

/-- Ports of one transport port, UDP or TCP, are on one transport module. -/
def OneTransport (ports : List ProtoPort) : Prop :=
  ∀ p ∈ ports, ∀ q ∈ ports, ∀ l ∈ p, ∀ m ∈ q,
    l.impl.port.handles udpDestPort = true ∨ l.impl.port.handles tcpDestPort = true →
      l.impl.port = m.impl.port → l.mod = m.mod

/-- The transport port, the TDEST and the virtual channel. -/
def ProtoPort.key (p : ProtoPort) : List (List UInt32) :=
  [udpDestPort, tcpDestPort, tDest, srpVC].map fun n ↦ p.ports.filterMap fun port ↦ port.offers n

variable {b : CProtoStackBuilder} {br p q : Branch} {brs : List Branch} {ps ports : List ProtoPort}
variable {n : ParamName} {v : UInt32} {steps : List BuildStep}

theorem filterMap_links (br : Branch) (n : ParamName) :
    (br.links.ports.filterMap fun port ↦ port.offers n) = (br.val n).toList := by
  rw [br.ports_links, filterMap_offers, ← br.val_stack]

theorem mem_ports {port : Port} : port ∈ br.links.ports ↔ ∃ l ∈ br.links, l.impl.port = port := by
  simp [ProtoPort.ports]

theorem xprtIs_mem : b.xprtIs ∈ br.links.ports ↔ br.xprt.impl.port = b.xprtIs := by
  rw [mem_ports]
  constructor
  · rintro ⟨l, hl, hp⟩
    have hx : br.xprt = l := by
      unfold CProtoStackBuilder.xprtIs at hp
      split_ifs at hp
      · exact Branch.xprt_of_offers hl (.inl rfl) (by rw [hp]; rfl)
      · exact Branch.xprt_of_offers hl (.inr rfl) (by rw [hp]; rfl)
    rw [hx, hp]
  · intro h
    exact ⟨br.xprt, Branch.mem_links.2 (by simp), h⟩

theorem rssi_mem : Port.rssi ∈ br.links.ports ↔ br.rssi.isSome = true := by
  rw [mem_ports]
  constructor
  · rintro ⟨l, hl, hp⟩
    have h : br.val haveRssi = some 1 := br.val_eq_some.2 ⟨l, hl, by rw [hp]; rfl⟩
    rw [br.val_haveRssi] at h
    obtain ⟨l', h, -⟩ := Option.map_eq_some_iff.1 h
    simp [h]
  · intro h
    obtain ⟨l, hl⟩ := Option.isSome_iff_exists.1 h
    exact ⟨l, Branch.mem_links.2 (by simp [hl]), br.rssi_port l hl⟩

theorem handles_mem : (∃ port ∈ br.links.ports, port.handles n = true) ↔ (br.val n).isSome = true := by
  rw [Option.isSome_iff_exists]
  constructor
  · rintro ⟨port, hport, hh⟩
    obtain ⟨l, hl, rfl⟩ := mem_ports.1 hport
    obtain ⟨v, hv⟩ := Option.isSome_iff_exists.1 hh
    exact ⟨v, br.val_eq_some.2 ⟨l, hl, hv⟩⟩
  · rintro ⟨v, hv⟩
    obtain ⟨l, hl, ho⟩ := br.val_eq_some.1 hv
    exact ⟨l.impl.port, mem_ports.2 ⟨l, hl, rfl⟩, by simp [Port.handles, ho]⟩

theorem offers_mem : (∃ port ∈ br.links.ports, port.offers n = some v) ↔ br.val n = some v := by
  rw [br.val_eq_some]
  constructor
  · rintro ⟨port, hport, ho⟩
    obtain ⟨l, hl, rfl⟩ := mem_ports.1 hport
    exact ⟨l, hl, ho⟩
  · rintro ⟨l, hl, ho⟩
    exact ⟨l.impl.port, mem_ports.2 ⟨l, hl, rfl⟩, ho⟩

/-- `GoesWith` with the branches instead of the ports. -/
theorem goesWith_iff (hps : ∀ p ∈ ps, ∃ br ∈ brs, br.links = p) (hbrs : ∀ br ∈ brs, br.links ∈ ps) :
    b.GoesWith ps ↔ (b.getDepackVersion = .V2 → b.hasDepack = b.hasTDestMux) ∧
      ∀ br ∈ brs, br.xprt.impl.port = b.xprtIs → (br.rssi.isSome = true → b.hasRssiAndUdp = true) ∧
        ((br.val depackVersion).isSome = true → b.hasDepack = true) ∧
        (br.val tDest = some b.getTDestMuxTDEST → b.hasTDestMux = true → b.hasSRP = true →
          b.hasSRPMux = true) := by
  constructor
  · rintro ⟨hv, hr, hd, hm⟩
    refine ⟨hv, fun br hbr hx ↦ ⟨fun h ↦ ?_, fun h ↦ ?_, fun h ↦ ?_⟩⟩
    · exact hr _ (hbrs br hbr) (xprtIs_mem.2 hx) (rssi_mem.2 h)
    · refine hd _ (hbrs br hbr) (xprtIs_mem.2 hx) (handles_mem.2 ?_)
      simpa [br.val_haveDepack_eq] using h
    · exact hm _ (hbrs br hbr) (xprtIs_mem.2 hx) (offers_mem.2 h)
  · rintro ⟨hv, h⟩
    refine ⟨hv, fun p hp hx hr ↦ ?_, fun p hp hx hd ↦ ?_, fun p hp hx ht ↦ ?_⟩
    · obtain ⟨br, hbr, rfl⟩ := hps p hp
      exact (h br hbr (xprtIs_mem.1 hx)).1 (rssi_mem.1 hr)
    · obtain ⟨br, hbr, rfl⟩ := hps p hp
      have := handles_mem.1 hd
      rw [br.val_haveDepack_eq, Option.isSome_map] at this
      exact (h br hbr (xprtIs_mem.1 hx)).2.1 this
    · obtain ⟨br, hbr, rfl⟩ := hps p hp
      exact (h br hbr (xprtIs_mem.1 hx)).2.2 (offers_mem.1 ht)

/-- What is left to compare, once the transport, the TDEST and the SRP port are what is asked for. -/
theorem exactly_iff (hx : br.xprt.impl.port = b.xprtIs) (ht : br.val tDest = b.tDestAsked)
    (hs : AskedSRP b br) : b.Exactly br.links ↔ br.rssi.isSome = b.hasRssiAndUdp ∧
      br.val depackVersion = if b.hasDepack then some b.getDepackVersion.toUnsigned else none := by
  have hlist (n : ParamName) : (br.links.ports.filterMap fun port ↦ port.offers n) =
      (b.requested n).toList ↔ br.val n = b.requested n := by
    rw [filterMap_links]
    cases br.val n <;> cases b.requested n <;> simp
  have hudp : br.val udpDestPort = b.requested udpDestPort := by
    unfold CProtoStackBuilder.xprtIs at hx
    simp only [CProtoStackBuilder.requested]
    split_ifs at hx ⊢ with hu
    · exact br.val_udp.2 hx
    · apply Option.eq_none_iff_forall_ne_some.2
      intro v hv
      rw [br.val_udp.1 hv] at hx
      cases hx
  have htcp : br.val tcpDestPort = b.requested tcpDestPort := by
    unfold CProtoStackBuilder.xprtIs at hx
    simp only [CProtoStackBuilder.requested]
    split_ifs at hx ⊢ with hu
    · apply Option.eq_none_iff_forall_ne_some.2
      intro v hv
      rw [br.val_tcp.1 hv] at hx
      cases hx
    · exact br.val_tcp.2 hx
  unfold CProtoStackBuilder.Exactly
  simp only [hlist]
  rw [ParamName.forall]
  simp only [htcp, hudp, hs.version, hs.vc, ht, br.val_haveRssi, br.val_haveDepack_eq]
  unfold CProtoStackBuilder.requested CProtoStackBuilder.tDestAsked
  cases br.rssi <;> cases b.hasRssiAndUdp <;> cases b.hasDepack <;> cases br.val depackVersion <;> simp

theorem SameBase.rssi_isSome (h : SameBase p q) : p.rssi.isSome = q.rssi.isSome := by rw [h.rssi]

/-- For a stack that fits, asking for no less than it has. -/
theorem fits_exactly (h : Fits b q) : (q.rssi.isSome = b.hasRssiAndUdp ∧
    q.val depackVersion = if b.hasDepack then some b.getDepackVersion.toUnsigned else none) ↔
      (q.rssi.isSome = true → b.hasRssiAndUdp = true) ∧
        ((q.val depackVersion).isSome = true → b.hasDepack = true) := by
  have hr := h.rssi
  have hv := h.version
  rw [q.val_haveRssi, Option.isSome_map] at hr
  constructor
  · rintro ⟨h₁, h₂⟩
    refine ⟨fun h ↦ h₁ ▸ h, fun hd ↦ ?_⟩
    by_contra hn
    rw [h₂, if_neg hn] at hd
    cases hd
  · rintro ⟨h₁, h₂⟩
    refine ⟨Bool.eq_iff_iff.2 ⟨h₁, hr⟩, ?_⟩
    by_cases hd : b.hasDepack = true
    · rw [if_pos hd, hv (.inl hd)]
    · rw [if_neg hd]
      exact Option.isSome_eq_false_iff.1 (Bool.eq_false_iff.2 fun hs ↦ hd (h₂ hs)) |>
        Option.isNone_iff_eq_none.1

/-- A depacketizer of version 2 comes with a TDEST. -/
theorem tdest_of_V2 (h : q.val depackVersion = some DEPACKETIZER_V2) : (q.val tDest).isSome = true := by
  rw [q.val_depackVersion] at h
  rw [q.val_tDest]
  cases ht : q.tdest with
  | none =>
    rw [ht] at h
    cases hd : q.depack <;> rw [hd] at h <;> simp [DEPACKETIZER_V0, DEPACKETIZER_V2] at h
  | some l => obtain ⟨d, -, hp | ⟨hp, -⟩⟩ := q.tdest_port l ht <;> simp [hp, Port.offers]

/-- The version goes with the stack that is shared, when the depacketizer does. -/
theorem fits_version (h : Fits b q) (hd : (q.val depackVersion).isSome = true → b.hasDepack = true)
    (ht : b.hasTDestMux = false → q.val tDest = none) :
    b.getDepackVersion = .V2 → b.hasDepack = b.hasTDestMux := by
  intro hv
  have hver := h.version
  rw [hv] at hver
  cases hm : b.hasTDestMux with
  | true => exact hd (by rw [hver (.inr hm)]; rfl)
  | false =>
    by_contra hne
    have := tdest_of_V2 (hver (.inl (by simpa using hne)))
    rw [ht hm] at this
    cases this

/-- A successful build returns what is asked for exactly when that goes with what is there. -/
theorem exactly_iff_goesWith (hc : Coherent brs) (hps : ∀ p ∈ ps, ∃ br ∈ brs, br.links = p)
    (hbrs : ∀ br ∈ brs, br.links ∈ ps) {rval : Option ProtoPort} (h : Grown b brs rval) :
    (∃ p, rval = some p ∧ b.Exactly p) ↔ b.GoesWith ps := by
  rw [goesWith_iff hps hbrs]
  have hshared {br q : Branch} (hq : q ∈ brs) (hfits : Fits b q) (hbase : SameBase br q)
      (ht : br.val tDest = b.tDestAsked) (hs : AskedSRP b br)
      (hnone : b.hasTDestMux = false → q.val tDest = none)
      (hmux : ∀ p ∈ brs, p.xprt.impl.port = b.xprtIs → p.val tDest = some b.getTDestMuxTDEST →
        b.hasTDestMux = true → b.hasSRP = true → b.hasSRPMux = true) :
      (∃ p, some br.links = some p ∧ b.Exactly p) ↔
        (b.getDepackVersion = .V2 → b.hasDepack = b.hasTDestMux) ∧
          ∀ br ∈ brs, br.xprt.impl.port = b.xprtIs → (br.rssi.isSome = true → b.hasRssiAndUdp = true) ∧
            ((br.val depackVersion).isSome = true → b.hasDepack = true) ∧
            (br.val tDest = some b.getTDestMuxTDEST → b.hasTDestMux = true → b.hasSRP = true →
              b.hasSRPMux = true) := by
    have hx : br.xprt.impl.port = b.xprtIs := hbase.xprt ▸ hfits.xprt
    simp only [Option.some.injEq, exists_eq_left']
    rw [exactly_iff hx ht hs, hbase.rssi_isSome, hbase.version, fits_exactly hfits]
    constructor
    · rintro ⟨hr, hd⟩
      refine ⟨fits_version hfits hd hnone, fun p hp hpx ↦ ⟨?_, ?_, hmux p hp hpx⟩⟩
      · rwa [(hc.sameBase hp hq (hpx.trans hfits.xprt.symm)).rssi_isSome]
      · rwa [(hc.sameBase hp hq (hpx.trans hfits.xprt.symm)).version]
    · rintro ⟨-, h⟩
      exact ⟨(h q hq hfits.xprt).1, (h q hq hfits.xprt).2.1⟩
  cases h with
  | stack br fresh xprt rssi version tdest srp =>
    simp only [Option.some.injEq, exists_eq_left']
    rw [exactly_iff xprt tdest srp, version]
    have hno (P : Branch → Prop) : ∀ br ∈ brs, br.xprt.impl.port = b.xprtIs → P br :=
      fun p hp hx ↦ absurd hx (fresh p hp)
    constructor
    · rintro ⟨-, hv⟩
      refine ⟨fun h2 ↦ ?_, hno _⟩
      unfold CProtoStackBuilder.newVersion at hv
      rw [h2] at hv
      cases hd : b.hasDepack <;> cases ht : b.hasTDestMux <;> simp [hd, ht] at hv ⊢
    · rintro ⟨hv, -⟩
      refine ⟨rssi, ?_⟩
      unfold CProtoStackBuilder.newVersion
      cases h2 : b.getDepackVersion with
      | V0 => rfl
      | V2 => rw [hv h2]; rfl
  | tDestPort br q mem fits base mux fresh tdest srp =>
    refine hshared mem fits base tdest srp (fun hn ↦ by simp [mux] at hn) ?_
    intro p hp hx ht
    have hpf := (hc.sameBase hp mem (hx.trans fits.xprt.symm)).fits fits
    exact absurd (ht.trans (by rw [CProtoStackBuilder.tDestAsked, if_pos mux])) (fresh p hp hpf)
  | srpPort br q mem fits base mux fresh tdest same version srp =>
    refine hshared mem fits base tdest srp ?_ (fun _ _ _ _ _ _ ↦ mux)
    intro hn
    rw [same, CProtoStackBuilder.tDestAsked, hn]
    rfl
  | null q mem fits same hasSRP mux noMux =>
    constructor
    · rintro ⟨p, hp, -⟩
      cases hp
    · rintro ⟨-, h⟩
      rw [CProtoStackBuilder.tDestAsked, if_pos mux] at same
      have := (h q mem fits.xprt).2.2 same mux hasSRP
      simp [noMux] at this

theorem SameBase.trans {r : Branch} (h : SameBase p q) (h' : SameBase q r) : SameBase p r :=
  ⟨h.xprt.trans h'.xprt, h.rssi.trans h'.rssi, h.depack.trans h'.depack, h.kind.trans h'.kind⟩

/-- One SRP version for a TDEST. -/
theorem Coherent.oneVersion (hc : Coherent brs) (hp : p ∈ brs) (hq : q ∈ brs)
    (hx : p.xprt.impl.port = q.xprt.impl.port) (ht : p.val tDest = q.val tDest) :
    p.val srpVersion = q.val srpVersion := by
  have hboth : brs.Pairwise fun p q ↦ p.xprt.impl.port = q.xprt.impl.port →
      p.val tDest = q.val tDest → p.val srpVersion = q.val srpVersion :=
    hc.imp fun hs he ht ↦ ((hs he).differs ht).1
  have hflip : brs.Pairwise (flip fun p q ↦ p.xprt.impl.port = q.xprt.impl.port →
      p.val tDest = q.val tDest → p.val srpVersion = q.val srpVersion) :=
    hboth.imp fun hs he ht ↦ (hs he.symm ht.symm).symm
  exact hboth.forall_of_forall_of_flip (fun _ _ _ _ ↦ rfl) hflip hp hq hx ht

/-- The branches stay coherent. -/
theorem Coherent.grown (hc : Coherent brs) {r : ProtoPort} (h : Grown b brs (some r)) :
    ∃ br : Branch, br.links = r ∧ Coherent (br :: brs) := by
  have hcons {br : Branch} (hs : ∀ p ∈ brs, br.xprt.impl.port = p.xprt.impl.port → Sibling br p) :
      Coherent (br :: brs) := List.pairwise_cons.2 ⟨hs, hc⟩
  cases h with
  | stack br fresh xprt rssi version tdest srp =>
    refine ⟨br, rfl, hcons ?_⟩
    intro p hp hx
    exact absurd (hx.symm.trans xprt) (fresh p hp)
  | tDestPort br q mem fits base mux fresh tdest srp =>
    refine ⟨br, rfl, hcons ?_⟩
    intro p hp hx
    have hqp := hc.sameBase mem hp (base.xprt ▸ hx)
    refine ⟨base.trans hqp, ?_⟩
    intro ht
    exact absurd (ht.symm.trans tdest) (fresh p hp (hqp.symm.fits fits))
  | srpPort br q mem fits base mux fresh tdest same version srp =>
    refine ⟨br, rfl, hcons ?_⟩
    intro p hp hx
    have hqx : q.xprt.impl.port = p.xprt.impl.port := base.xprt ▸ hx
    have hqp := hc.sameBase mem hp hqx
    refine ⟨base.trans hqp, ?_⟩
    intro ht
    have hpt : p.val tDest = b.tDestAsked := ht.symm.trans tdest
    have hpv := hc.oneVersion hp mem hqx.symm (hpt.trans same.symm)
    refine ⟨?_, ?_⟩
    · rw [srp.version, if_pos mux, hpv, version]
    · rw [srp.vc, if_pos mux]
      exact (fresh p hp (hqp.symm.fits fits) hpt (hpv.trans version)).symm

theorem key_ne (h : p.xprt.impl.port = q.xprt.impl.port → Sibling p q) :
    p.links.key ≠ q.links.key := by
  intro he
  simp only [ProtoPort.key, filterMap_links, List.map_cons, List.map_nil, List.cons.injEq] at he
  have heq {n : ParamName} (h : (p.val n).toList = (q.val n).toList) : p.val n = q.val n := by
    revert h
    cases p.val n <;> cases q.val n <;> simp
  obtain ⟨hu, ht, hd, hv, -⟩ := he
  have hx : p.xprt.impl.port = q.xprt.impl.port := by
    obtain ⟨d, hp⟩ | ⟨d, hp⟩ := q.xprt_port
    · rw [hp]
      exact p.val_udp.1 ((heq hu).trans (q.val_udp.2 hp))
    · rw [hp]
      exact p.val_tcp.1 ((heq ht).trans (q.val_tcp.2 hp))
  exact ((h hx).differs (heq hd)).2 (heq hv)

theorem Coherent.oneTransport (hc : Coherent brs) : OneTransport (brs.map Branch.links) := by
  intro p hp q hq l hl m hm hx he
  obtain ⟨p, hpb, rfl⟩ := List.mem_map.1 hp
  obtain ⟨q, hqb, rfl⟩ := List.mem_map.1 hq
  have hxl {br : Branch} {l : Link} (h : l ∈ br.links)
      (hx : l.impl.port.handles udpDestPort = true ∨ l.impl.port.handles tcpDestPort = true) :
      br.xprt = l := by
    rcases hx with hx | hx
    · obtain ⟨v, hv⟩ := Option.isSome_iff_exists.1 hx
      exact Branch.xprt_of_offers h (.inl rfl) hv
    · obtain ⟨v, hv⟩ := Option.isSome_iff_exists.1 hx
      exact Branch.xprt_of_offers h (.inr rfl) hv
  have hpl := hxl hl hx
  have hqm := hxl hm (he ▸ hx)
  have hpq := (hc.sameBase hpb hqb (by rw [hpl, hqm, he])).xprt
  rw [← hpl, ← hqm, hpq]

theorem Coherent.key_nodup (hc : Coherent brs) : ((brs.map Branch.links).map ProtoPort.key).Nodup := by
  rw [List.map_map]
  exact List.pairwise_map.2 (hc.imp key_ne)

/-- The ports that builds return are coherent branches. -/
theorem Builds.coherent (h : Builds steps ports) :
    ∃ brs : List Branch, brs.map Branch.links = ports ∧ Coherent brs ∧
      ∀ step ∈ steps, ∀ rval, step.result = .ok rval →
        ((∃ p, rval = some p ∧ step.bldr.Exactly p) ↔ step.bldr.GoesWith step.existingPorts) := by
  induction h with
  | nil => exact ⟨[], rfl, List.Pairwise.nil, by simp⟩
  | @build steps ports existingPorts b xprtError next h hall hnext step hstep ih =>
    obtain ⟨brs, rfl, hc, hsteps⟩ := ih
    have hps : ∀ p ∈ existingPorts, ∃ br ∈ brs, br.links = p :=
      fun p hp ↦ List.mem_map.1 (hall.mem_iff.1 hp)
    have hbrs : ∀ br ∈ brs, br.links ∈ existingPorts :=
      fun br hbr ↦ hall.mem_iff.2 (List.mem_map_of_mem hbr)
    have hgrown (rval : Option ProtoPort) (hr : step.result = .ok rval) : Grown b brs rval := by
      rw [hstep] at hr
      exact CProtoStackBuilder.build_grown hps hbrs hr
    have hlast (rval : Option ProtoPort) (hr : step.result = .ok rval) :
        (∃ p, rval = some p ∧ step.bldr.Exactly p) ↔ step.bldr.GoesWith step.existingPorts := by
      have := exactly_iff_goesWith hc hps hbrs (hgrown rval hr)
      rwa [hstep]
    have hall' : ∀ step' ∈ steps ++ [step], ∀ rval, step'.result = .ok rval →
        ((∃ p, rval = some p ∧ step'.bldr.Exactly p) ↔ step'.bldr.GoesWith step'.existingPorts) := by
      intro step' hs
      rcases List.mem_append.1 hs with hs | hs
      · exact hsteps step' hs
      · rw [List.mem_singleton.1 hs]
        exact hlast
    cases hr : step.result with
    | error e => exact ⟨brs, by simp [BuildStep.returned, hr], hc, hall'⟩
    | ok rval =>
      cases rval with
      | none => exact ⟨brs, by simp [BuildStep.returned, hr], hc, hall'⟩
      | some r =>
        obtain ⟨br, rfl, hc'⟩ := hc.grown (hgrown _ hr)
        exact ⟨br :: brs, by simp [BuildStep.returned, hr], hc', hall'⟩

/-- After any builds for one device, a transport port has one transport module, no two ports that were
returned have the same transport port, TDEST and virtual channel, and each build that succeeded has
returned what it was asked for, and nothing else, exactly when that went with the ports that were
there. -/
theorem built_iff_goesWith (h : Builds steps ports) :
    OneTransport ports ∧ (ports.map ProtoPort.key).Nodup ∧
      ∀ step ∈ steps, ∀ rval, step.result = .ok rval →
        ((∃ p, rval = some p ∧ step.bldr.Exactly p) ↔ step.bldr.GoesWith step.existingPorts) := by
  obtain ⟨brs, rfl, hc, hsteps⟩ := h.coherent
  exact ⟨hc.oneTransport, hc.key_nodup, hsteps⟩

/-- UDP with RSSI, and SRP on virtual channel 0. -/
def withRssi : CProtoStackBuilder := { ipAddr := 0x7f000001, rssi := true }

/-- The same port without RSSI, and virtual channel 1. -/
def withoutRssi : CProtoStackBuilder :=
  { ipAddr := 0x7f000001, srpMuxVirtualChannel := ⟨1, by decide⟩ }

def rssiStep : BuildStep := ⟨withRssi, [], withRssi.build none [] 0⟩

def sharedStep : BuildStep :=
  ⟨withoutRssi, rssiStep.returned, withoutRssi.build none rssiStep.returned 5⟩

theorem builds_shared : Builds [rssiStep, sharedStep] (sharedStep.returned ++ (rssiStep.returned ++ [])) := by
  have h := Builds.build withRssi none 0 .nil (.refl []) (by simp) rssiStep rfl
  exact .build withoutRssi none 5 h (by rw [List.append_nil]) (by decide +kernel) sharedStep rfl

theorem built_iff_goesWith_shared : OneTransport (sharedStep.returned ++ (rssiStep.returned ++ [])) ∧
    ((sharedStep.returned ++ (rssiStep.returned ++ [])).map ProtoPort.key).Nodup ∧
      ∀ step ∈ [rssiStep, sharedStep], ∀ rval, step.result = .ok rval →
        ((∃ p, rval = some p ∧ step.bldr.Exactly p) ↔ step.bldr.GoesWith step.existingPorts) :=
  built_iff_goesWith builds_shared

/-- RSSI is excluded, yet the second port is on the stack with RSSI. -/
theorem not_built_exactly : ¬∀ (steps : List BuildStep) (ports : List ProtoPort), Builds steps ports →
    OneTransport ports ∧ (ports.map ProtoPort.key).Nodup ∧
      ∀ step ∈ steps, ∀ rval, step.result = .ok rval → ∃ p, rval = some p ∧ step.bldr.Exactly p := by
  intro h
  obtain ⟨-, -, hsteps⟩ := h _ _ builds_shared
  have hr : sharedStep.result = .ok (some [⟨4, .srp .SRP_UDP_V2 0 1 22⟩, ⟨1, .rssi 0 {}⟩,
      ⟨0, .udp 8192 10 0 1 (-1)⟩]) := by decide +kernel
  obtain ⟨p, hp, hexact⟩ := hsteps sharedStep (by simp) _ hr
  cases hp
  have := hexact haveRssi
  revert this
  decide +kernel

end Cpsw.ProtoMod
