import Cpsw.ProtoMod.Coherent

namespace Cpsw.ProtoMod

open ParamName
open Lib

variable {b : CProtoStackBuilder} {br p q : Branch} {l : Link} {mux : Mux} {ps : List ProtoPort}
variable {n : ParamName}

namespace Branch

def withSRP (br : Branch) (l : Link) (h : ∃ v d, l.impl.port = .srp v d) : Branch :=
  { br with
    srp := some l
    srp_port := by
      rintro l' h'
      obtain rfl := Option.some.inj h'
      exact h }

/-- A port of the TDEST multiplexer, with nothing downstream. -/
def withTDest (br : Branch) (l : Link)
    (h : ∃ d ≤ 255, l.impl.port = .tdest d ∨ l.impl.port = .tdest2 d ∧ br.depack = none) : Branch :=
  { br with
    tdest := some l
    srp := none
    tdest_port := by
      rintro l' h'
      obtain rfl := Option.some.inj h'
      exact h
    srp_port := by simp }

end Branch

namespace CProtoStackBuilder

theorem addPort_ok {dest : UInt32} {impl : PortImpl} {r : ProtoPort}
    (h : mux.addPort ps dest impl = .ok r) : r = ⟨mux.mod, impl⟩ :: mux.up := by
  unfold Mux.addPort at h
  split_ifs at h
  cases h
  rfl

/-- The port of the TDEST multiplexer that is asked for. -/
def tDestPort (b : CProtoStackBuilder) : Port :=
  match b.getDepackVersion with
  | .V0 => .tdest b.getTDestMuxTDEST
  | .V2 => .tdest2 b.getTDestMuxTDEST

theorem createTDestPort_ok {r : ProtoPort} (h : b.createTDestPort mux ps = .ok r) :
    ∃ l, r = l :: mux.up ∧ l.impl.port = b.tDestPort ∧ l.impl.muxKind = some mux.kind := by
  unfold createTDestPort at h
  unfold tDestPort
  split at h
  · rename_i prio hv hk
    exact ⟨_, addPort_ok h, by rw [hv]; rfl, by rw [hk]; rfl⟩
  · cases h
  · rename_i prio hv hk
    exact ⟨_, addPort_ok h, by rw [hv]; rfl, by rw [hk]; rfl⟩
  · cases h

theorem createSRPPort_ok {r : ProtoPort} (h : b.createSRPPort mux ps = .ok r) :
    ∃ l version prio, r = l :: mux.up ∧ mux.kind = .srp version prio ∧
      l.impl.port = .srp (srpUnsigned version) b.getSRPMuxVirtualChannel := by
  unfold createSRPPort at h
  split at h
  · rename_i version prio hk
    exact ⟨_, version, prio, addPort_ok h, hk, rfl⟩
  · cases h

/-- What follows the TDEST multiplexer: an SRP port on a new multiplexer, or nothing. -/
def Topped (b : CProtoStackBuilder) (ps : List ProtoPort) (next : ℕ) (up : ProtoPort)
    (rval : Option ProtoPort) : Prop :=
  if b.hasSRPMux then ∃ r, b.createSRPPort (b.newSRPMux next up) ps = .ok r ∧ rval = some r
  else rval = some up

/-- What `build` makes of what the searches have found. -/
def Shared.Built (b : CProtoStackBuilder) (ps : List ProtoPort) (next : ℕ)
    (rval : Option ProtoPort) : Shared → Prop
  | .nothing =>
    if b.hasTDestMux then
      ∃ up, b.createTDestPort (b.newTDestMux next (b.newStack next)) ps = .ok up ∧ b.Topped ps next up rval
    else b.Topped ps next (b.newStack next) rval
  | .tDestMux mux => ∃ up, b.createTDestPort mux ps = .ok up ∧ b.Topped ps next up rval
  | .srpMux mux =>
    if b.hasSRPMux then ∃ r, b.createSRPPort mux ps = .ok r ∧ rval = some r else rval = none

theorem map_some_ok {x : Except CPSWError ProtoPort} {rval : Option ProtoPort}
    (h : (some <$> x) = .ok rval) : ∃ r, x = .ok r ∧ rval = some r := by
  cases x with
  | error e => cases h
  | ok r =>
    cases h
    exact ⟨r, rfl, rfl⟩

theorem addSRP_topped {sh : Shared} {next : ℕ} {up : ProtoPort} {rval : Option ProtoPort}
    (hsh : ∀ mux, sh ≠ .srpMux mux) (h : b.addSRP sh (some up) ps next = .ok rval) :
    b.Topped ps next up rval := by
  unfold addSRP at h
  unfold Topped
  by_cases hm : b.hasSRPMux = true
  · rw [if_pos hm] at h ⊢
    cases sh with
    | srpMux mux => exact absurd rfl (hsh mux)
    | _ => exact map_some_ok h
  · rw [if_neg hm] at h ⊢
    cases h
    rfl

theorem build_ok {xprtError : Option CPSWError} {next : ℕ} {rval : Option ProtoPort}
    (h : b.build xprtError ps next = .ok rval) :
    ∃ sh, Shared.Found b ps sh ∧ Shared.Built b ps next rval sh := by
  unfold build at h
  split_ifs at h
  obtain ⟨sh, hsh, h⟩ := Run.bind_ok.1 h
  obtain ⟨r₁, h₁, h⟩ := Run.bind_ok.1 h
  obtain ⟨r₂, h₂, h⟩ := Run.bind_ok.1 h
  refine ⟨sh, share_ok hsh, ?_⟩
  unfold Shared.Built
  cases sh with
  | nothing =>
    obtain rfl : some (b.newStack next) = r₁ := by
      unfold addStack at h₁
      cases xprtError with
      | none => exact Except.ok.inj h₁
      | some e => cases h₁
    unfold addTDest at h₂
    by_cases ht : b.hasTDestMux = true
    · simp only [ht, if_true] at h₂ ⊢
      obtain ⟨up, hup, rfl⟩ := map_some_ok h₂
      exact ⟨up, hup, addSRP_topped (by simp) h⟩
    · simp only [ht] at h₂ ⊢
      cases h₂
      exact addSRP_topped (by simp) h
  | tDestMux mux =>
    obtain ⟨ht, -⟩ := share_ok hsh
    unfold addTDest at h₂
    rw [if_pos ht] at h₂
    obtain ⟨up, hup, rfl⟩ := map_some_ok h₂
    exact ⟨up, hup, addSRP_topped (by simp) h⟩
  | srpMux mux =>
    obtain rfl : none = r₁ := Except.ok.inj h₁
    obtain rfl : none = r₂ := by
      unfold addTDest at h₂
      split_ifs at h₂ <;> exact Except.ok.inj h₂
    unfold addSRP at h
    by_cases hm : b.hasSRPMux = true
    · simp only [hm, if_true] at h ⊢
      exact map_some_ok h
    · simp only [hm] at h ⊢
      cases h
      rfl

/-- The SRP port is there when it is asked for. -/
structure AskedSRP (b : CProtoStackBuilder) (br : Branch) : Prop where
  version : br.val srpVersion = if b.hasSRPMux then some (srpUnsigned b.getSRPVersion) else none
  vc : br.val srpVC = if b.hasSRPMux then some b.getSRPMuxVirtualChannel else none

/-- The depacketizer of a new stack. -/
def newVersion (b : CProtoStackBuilder) : Option UInt32 :=
  match b.getDepackVersion with
  | .V0 => if b.hasDepack then some DEPACKETIZER_V0 else none
  | .V2 => if b.hasTDestMux then some DEPACKETIZER_V2 else none

/-- The port that `build` returns, beside those that are there. -/
inductive Grown (b : CProtoStackBuilder) (brs : List Branch) : Option ProtoPort → Prop
  | stack (br : Branch) (fresh : ∀ p ∈ brs, p.xprt.impl.port ≠ b.xprtIs)
      (xprt : br.xprt.impl.port = b.xprtIs) (rssi : br.rssi.isSome = b.hasRssiAndUdp)
      (version : br.val depackVersion = b.newVersion) (tdest : br.val tDest = b.tDestAsked)
      (srp : b.AskedSRP br) : Grown b brs (some br.links)
  | tDestPort (br q : Branch) (mem : q ∈ brs) (fits : b.Fits q) (base : SameBase br q)
      (mux : b.hasTDestMux = true)
      (fresh : ∀ p ∈ brs, b.Fits p → p.val tDest ≠ b.tDestAsked) (tdest : br.val tDest = b.tDestAsked)
      (srp : b.AskedSRP br) : Grown b brs (some br.links)
  | srpPort (br q : Branch) (mem : q ∈ brs) (fits : b.Fits q) (base : SameBase br q)
      (mux : b.hasSRPMux = true) (fresh : ∀ p ∈ brs, b.Fits p → p.val tDest = b.tDestAsked →
        p.val srpVersion = some (srpUnsigned b.getSRPVersion) →
          p.val srpVC ≠ some b.getSRPMuxVirtualChannel)
      (tdest : br.val tDest = b.tDestAsked) (same : q.val tDest = b.tDestAsked)
      (version : q.val srpVersion = some (srpUnsigned b.getSRPVersion)) (srp : b.AskedSRP br) :
      Grown b brs (some br.links)
  | null (q : Branch) (mem : q ∈ brs) (fits : b.Fits q) (same : q.val tDest = b.tDestAsked)
      (hasSRP : b.hasSRP = true) (mux : b.hasTDestMux = true) (noMux : b.hasSRPMux = false) :
      Grown b brs none

/-- The modules upstream of the multiplexers, when they are new. -/
theorem newStack_branch (b : CProtoStackBuilder) (next : ℕ) : ∃ br : Branch,
    br.links = b.newStack next ∧ br.xprt.impl.port = b.xprtIs ∧ br.rssi.isSome = b.hasRssiAndUdp ∧
      br.depack.isSome = (b.hasDepack && b.getDepackVersion = .V0) ∧ br.tdest = none ∧ br.srp = none := by
  let br : Branch :=
    { xprt := ⟨next, if b.hasUdp then
          .udp b.getUdpPort b.getUdpOutQueueDepth b.udpThreadPriority b.getUdpNumRxThreads
            b.getUdpPollSecs
        else
          .tcp b.getTcpPort b.getTcpOutQueueDepth b.tcpThreadPriority
            (if b.hasRssiBridge then some b.hasRssi else none)⟩
      rssi := if b.hasRssiAndUdp then
        some ⟨next + 1, .rssi b.getRssiThreadPriority b.rssiConfig⟩ else none
      depack := if b.hasDepack && b.getDepackVersion = .V0 then
        some ⟨next + 2, .depack b.getDepackOutQueueDepth (1 <<< b.getDepackLdFrameWinSize)
          (1 <<< b.getDepackLdFragWinSize) b.getDepackThreadPriority⟩ else none
      tdest := none
      srp := none
      xprt_port := by cases b.hasUdp <;> simp [PortImpl.port]
      rssi_port := by
        intro l h
        obtain ⟨-, h⟩ := Option.ite_none_right_eq_some.1 h
        cases h
        rfl
      depack_port := by
        intro l h
        obtain ⟨-, h⟩ := Option.ite_none_right_eq_some.1 h
        cases h
        rfl
      tdest_port := by simp
      srp_port := by simp }
  refine ⟨br, ?_, ?_, ?_, ?_, rfl, rfl⟩
  · simp only [br, Branch.links, Branch.base, newStack, Option.toList_none, List.nil_append]
    cases b.hasRssiAndUdp <;> cases b.hasDepack && decide (b.getDepackVersion = .V0) <;> rfl
  · simp only [br, xprtIs]
    cases b.hasUdp <;> rfl
  · simp only [br]
    cases b.hasRssiAndUdp <;> rfl
  · simp only [br]
    cases b.hasDepack && decide (b.getDepackVersion = .V0) <;> rfl

theorem topped_branch {next : ℕ} {rval : Option ProtoPort} (hs : br.srp = none)
    (h : b.Topped ps next br.links rval) : ∃ br' : Branch, rval = some br'.links ∧
      SameBase br' br ∧ br'.val tDest = br.val tDest ∧ b.AskedSRP br' := by
  unfold Topped at h
  by_cases hm : b.hasSRPMux = true
  · rw [if_pos hm] at h
    obtain ⟨r, hr, rfl⟩ := h
    obtain ⟨l, version, prio, rfl, hk, hp⟩ := createSRPPort_ok hr
    obtain ⟨rfl, rfl⟩ := MuxKind.srp.inj hk
    refine ⟨br.withSRP l ⟨_, _, hp⟩, ?_, ⟨rfl, rfl, rfl, rfl⟩, ?_, ?_, ?_⟩
    · simp [Branch.links, Branch.withSRP, Branch.base, newSRPMux, hs]
    · rw [Branch.val_tDest, Branch.val_tDest]
      rfl
    · simp [Branch.val_srpVersion, Branch.withSRP, hp, hm, Port.offers]
    · simp [Branch.val_srpVC, Branch.withSRP, hp, hm, Port.offers]
  · rw [if_neg hm] at h
    refine ⟨br, h, ⟨rfl, rfl, rfl, rfl⟩, rfl, ?_, ?_⟩
    · simp [Branch.val_srpVersion, hs, hm]
    · simp [Branch.val_srpVC, hs, hm]

theorem createTDest_branch {r : ProtoPort} (hm : mux.up = br.base)
    (hk : ∀ prio, mux.kind = .tdest2 prio → br.depack = none)
    (h : b.createTDestPort mux ps = .ok r) : ∃ br' : Branch, r = br'.links ∧ br'.xprt = br.xprt ∧
      br'.rssi = br.rssi ∧ br'.depack = br.depack ∧
      (br'.tdest.bind fun l ↦ l.impl.muxKind) = some mux.kind ∧
      br'.val tDest = some b.getTDestMuxTDEST ∧ br'.srp = none := by
  obtain ⟨l, rfl, hp, hkind⟩ := createTDestPort_ok h
  have hle : b.getTDestMuxTDEST ≤ 255 := b.tDestMuxTDEST.2
  have hport : l.impl.port = .tdest b.getTDestMuxTDEST ∨
      l.impl.port = .tdest2 b.getTDestMuxTDEST ∧ br.depack = none := by
    unfold tDestPort at hp
    cases hv : b.getDepackVersion with
    | V0 =>
      rw [hv] at hp
      exact .inl hp
    | V2 =>
      rw [hv] at hp
      refine .inr ⟨hp, ?_⟩
      cases hi : l.impl with
      | tdest2 prio =>
        rw [hi] at hkind
        exact hk prio (Option.some.inj hkind).symm
      | _ =>
        rw [hi] at hp
        cases hp
  refine ⟨br.withTDest l ⟨_, hle, hport⟩, ?_, rfl, rfl, rfl, hkind, ?_, rfl⟩
  · simp [Branch.links, Branch.withTDest, Branch.base, hm]
  · rw [Branch.val_tDest]
    obtain hl | ⟨hl, -⟩ := hport <;> simp [Branch.withTDest, hl, Port.offers]

theorem depack_of_tdest2 {prio : ℤ} (h : br.tdest = some l) (hk : l.impl.muxKind = some (.tdest2 prio)) :
    br.depack = none := by
  obtain ⟨d, -, hp | ⟨-, hd⟩⟩ := br.tdest_port l h
  · cases hi : l.impl <;> rw [hi] at hp hk <;> simp [PortImpl.port, PortImpl.muxKind] at hp hk
  · exact hd

/-- The first of the modules for a transport, with what is downstream of them. -/
theorem nothing_grown {brs : List Branch} {next : ℕ} {rval : Option ProtoPort}
    (hf : ∀ p ∈ brs, p.xprt.impl.port ≠ b.xprtIs) (h : Shared.Built b ps next rval .nothing) :
    Grown b brs rval := by
  obtain ⟨br, hlinks, hx, hr, hd, ht, hs⟩ := newStack_branch b next
  have hd' : (br.depack.map fun _ ↦ DEPACKETIZER_V0) =
      if (b.hasDepack && b.getDepackVersion = .V0) = true then some DEPACKETIZER_V0 else none := by
    rw [← hd]
    cases br.depack <;> rfl
  unfold Shared.Built at h
  by_cases hm : b.hasTDestMux = true
  · simp only [hm, if_true] at h
    obtain ⟨up, hup, htop⟩ := h
    have hmux : (b.newTDestMux next (b.newStack next)).up = br.base := by
      have hb : br.links = br.base := by simp [Branch.links, ht, hs]
      rw [← hb, hlinks]
      unfold newTDestMux
      split <;> rfl
    have hkind (prio : ℤ) (hk : (b.newTDestMux next (b.newStack next)).kind = .tdest2 prio) :
        br.depack = none := by
      unfold newTDestMux at hk
      split at hk
      · rename_i hv
        rw [hv] at hd
        simpa using hd
      · cases hk
    obtain ⟨br₁, rfl, hx₁, hr₁, hd₁, hk₁, ht₁, hs₁⟩ := createTDest_branch hmux hkind hup
    obtain ⟨br₂, rfl, hsame, ht₂, hsrp⟩ := topped_branch hs₁ htop
    refine .stack br₂ hf (by rw [hsame.xprt, hx₁, hx]) (by rw [hsame.rssi, hr₁, hr]) ?_ ?_ hsrp
    · rw [hsame.version, Branch.val_depackVersion, Branch.tdest_bind_version, hk₁, hd₁, hd']
      unfold newVersion newTDestMux
      cases b.getDepackVersion <;> simp [hm, MuxKind.version]
    · rw [ht₂, ht₁, tDestAsked, if_pos hm]
  · simp only [hm] at h
    rw [← hlinks] at h
    obtain ⟨br₂, rfl, hsame, ht₂, hsrp⟩ := topped_branch hs h
    refine .stack br₂ hf (by rw [hsame.xprt, hx]) (by rw [hsame.rssi, hr]) ?_ ?_ hsrp
    · rw [hsame.version, Branch.val_depackVersion, ht, hd']
      unfold newVersion
      cases b.getDepackVersion <;> simp [hm]
    · rw [ht₂, Branch.val_tDest, ht, tDestAsked, if_neg hm]
      rfl

theorem tDestMux_grown {brs : List Branch} {next : ℕ} {rval : Option ProtoPort} {q : Branch}
    {l : Link} {kind : MuxKind} (hm : b.hasTDestMux = true)
    (hf : ∀ p ∈ brs, b.Fits p → p.val tDest ≠ b.tDestAsked) (hq : q ∈ brs) (hfits : b.Fits q)
    (hl : q.tdest = some l) (hk : l.impl.muxKind = some kind)
    (h : Shared.Built b ps next rval (.tDestMux ⟨l.mod, kind, q.base⟩)) : Grown b brs rval := by
  obtain ⟨up, hup, htop⟩ := h
  have hkind (prio : ℤ) (he : kind = .tdest2 prio) : q.depack = none :=
    depack_of_tdest2 hl (he ▸ hk)
  have hbase : (⟨l.mod, kind, q.base⟩ : Mux).up = q.base := rfl
  obtain ⟨br₁, rfl, hx₁, hr₁, hd₁, hk₁, ht₁, hs₁⟩ := createTDest_branch hbase hkind hup
  obtain ⟨br₂, rfl, hsame, ht₂, hsrp⟩ := topped_branch hs₁ htop
  refine .tDestPort br₂ q hq hfits ⟨?_, ?_, ?_, ?_⟩ hm hf ?_ hsrp
  · rw [hsame.xprt, hx₁]
  · rw [hsame.rssi, hr₁]
  · rw [hsame.depack, hd₁]
  · rw [hsame.kind, hk₁, hl, Option.bind_some, hk]
  · rw [ht₂, ht₁, tDestAsked, if_pos hm]

theorem srpMux_grown {brs : List Branch} {next : ℕ} {rval : Option ProtoPort} {q : Branch}
    {l : Link} {kind : MuxKind} (hsrp : b.hasSRP = true) (hmux : b.hasTDestMux = true ∨ b.hasSRPMux = true)
    (hf : ∀ p ∈ brs, b.Fits p → p.val tDest = b.tDestAsked →
      p.val srpVersion = some (srpUnsigned b.getSRPVersion) → p.val srpVC ≠ some b.getSRPMuxVirtualChannel)
    (hq : q ∈ brs) (hfits : b.Fits q) (ht : q.val tDest = b.tDestAsked)
    (hv : q.val srpVersion = some (srpUnsigned b.getSRPVersion)) (hl : q.srp = some l)
    (hk : l.impl.muxKind = some kind)
    (h : Shared.Built b ps next rval (.srpMux ⟨l.mod, kind, q.tdest.toList ++ q.base⟩)) :
    Grown b brs rval := by
  unfold Shared.Built at h
  by_cases hm : b.hasSRPMux = true
  · simp only [hm, if_true] at h
    obtain ⟨r, hr, rfl⟩ := h
    obtain ⟨l', version, prio, rfl, hkind, hp⟩ := createSRPPort_ok hr
    have hver : srpUnsigned version = srpUnsigned b.getSRPVersion := by
      simp only at hkind
      rw [Branch.val_srpVersion, hl, Option.bind_some] at hv
      rw [hkind] at hk
      cases hi : l.impl <;> rw [hi] at hk hv <;> simp [PortImpl.muxKind] at hk
      rw [← hk.1]
      exact Option.some.inj hv
    have hlinks : l' :: (q.tdest.toList ++ q.base) = (q.withSRP l' ⟨_, _, hp⟩).links := by
      simp [Branch.links, Branch.withSRP, Branch.base]
    simp only [hlinks]
    have ht' : (q.withSRP l' ⟨_, _, hp⟩).val tDest = q.val tDest := by
      rw [Branch.val_tDest, Branch.val_tDest]
      rfl
    refine .srpPort _ q hq hfits ⟨rfl, rfl, rfl, rfl⟩ hm hf (ht'.trans ht) ht hv ⟨?_, ?_⟩
    · simp [Branch.val_srpVersion, Branch.withSRP, hp, hm, hver, Port.offers]
    · simp [Branch.val_srpVC, Branch.withSRP, hp, hm, Port.offers]
  · simp only [hm] at h
    obtain rfl : rval = none := h
    refine .null q hq hfits ht hsrp ?_ (by simpa using hm)
    rcases hmux with ht | hs
    · exact ht
    · exact absurd hs hm

/-- What `build` returns beside the ports that are there. -/
theorem build_grown {brs : List Branch} {xprtError : Option CPSWError} {next : ℕ}
    {rval : Option ProtoPort} (hps : ∀ p ∈ ps, ∃ br ∈ brs, br.links = p)
    (hbrs : ∀ br ∈ brs, br.links ∈ ps) (h : b.build xprtError ps next = .ok rval) :
    Grown b brs rval := by
  obtain ⟨sh, hfound, hbuilt⟩ := build_ok h
  cases sh with
  | nothing =>
    refine nothing_grown ?_ hbuilt
    intro p hp hx
    exact hfound _ (hbrs p hp) ((matches_xprt p).2 hx)
  | tDestMux mux =>
    obtain ⟨hm, hf, p, hp, hmatch, cmp, hby, hh⟩ := hfound
    obtain ⟨q, hq, rfl⟩ := hps p hp
    obtain ⟨l, kind, hl, hk, rfl⟩ := handler_tDest hby hh
    refine tDestMux_grown hm ?_ hq ((matches_anyTDest q hm).1 hmatch).1 hl hk hbuilt
    intro p hp hfits ht
    exact hf _ (hbrs p hp) ((matches_stack p).2 ⟨hfits, ht⟩)
  | srpMux mux =>
    obtain ⟨hsrp, hm, -, hf, p, hp, hmatch, cmp, hby, hh⟩ := hfound
    obtain ⟨q, hq, rfl⟩ := hps p hp
    obtain ⟨l, kind, hl, hk, rfl⟩ := handler_srpVC hby hh
    obtain ⟨⟨hfits, ht⟩, hv, -⟩ := (matches_anySRP q).1 hmatch
    refine srpMux_grown hsrp hm ?_ hq hfits ht hv hl hk hbuilt
    intro p hp hfits' ht' hv' hvc
    exact hf _ (hbrs p hp) ((matches_srp p).2 ⟨⟨hfits', ht'⟩, hv', hvc⟩)

end CProtoStackBuilder

end Cpsw.ProtoMod
