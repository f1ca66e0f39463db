import Cpsw.Rssi.AckTimer
import Cpsw.Rssi.Syns

namespace Cpsw.Rssi

open Cpsw.Lib.Run

variable {cfg : Config} {k k' : Core} {b : Bytes} {y : RssiSynHeader} {p p' : Params} {c c' : CRssi}

/-- How many microseconds the unit of the SYN has. -/
def RssiSynHeader.unitUS (y : RssiSynHeader) : ℕ := 10 ^ (6 - y.units.toNat)

/-- The parameters that a SYN asks for, in 32-bit arithmetic. -/
structure Adopts (cfg : Config) (y : RssiSynHeader) (p : Params) : Prop where
  rexTO : p.rexTO = y.rexTO * y.unitUS % 2 ^ 32
  cakTO : p.cakTO = y.cakTO * y.unitUS % 2 ^ 32
  nulTO : p.nulTO = setNulTimeout cfg (y.nulTO * y.unitUS % 2 ^ 32)
  rexMX : p.rexMX = y.rexMX.toNat
  cakMX : p.cakMX = y.cakMX.toNat

/-- The time-outs that a SYN asks for; a client takes a third of the NUL time-out. -/
structure AdoptsExactly (cfg : Config) (y : RssiSynHeader) (p : Params) : Prop where
  rexTO : p.rexTO = y.rexTO * y.unitUS
  cakTO : p.cakTO = y.cakTO * y.unitUS
  nulTO : p.nulTO = setNulTimeout cfg (y.nulTO * y.unitUS)

def RssiSynHeader.NoWrap (y : RssiSynHeader) : Prop :=
  y.rexTO * y.unitUS < 2 ^ 32 ∧ y.cakTO * y.unitUS < 2 ^ 32 ∧ y.nulTO * y.unitUS < 2 ^ 32

/-- Time-outs less than one unit apart, and the same limits. -/
structure Params.Near (p p' : Params) : Prop where
  rexTO : p.rexTO < p'.rexTO + UNIT_US ∧ p'.rexTO < p.rexTO + UNIT_US
  cakTO : p.cakTO < p'.cakTO + UNIT_US ∧ p'.cakTO < p.cakTO + UNIT_US
  nulTO : p.nulTO < p'.nulTO + UNIT_US ∧ p'.nulTO < p.nulTO + UNIT_US
  rexMX : p'.rexMX = p.rexMX
  cakMX : p'.cakMX = p.cakMX

theorem setNulTimeout_wrap (cfg : Config) (v : ℕ) :
    setNulTimeout cfg (v % 2 ^ 32) = setNulTimeout cfg v ↔ v < 2 ^ 32 := by
  unfold setNulTimeout
  split_ifs <;> omega

theorem Adopts.exactly_iff (h : Adopts cfg y p) : AdoptsExactly cfg y p ↔ y.NoWrap := by
  constructor
  · rintro ⟨hrex, hcak, hnul⟩
    rw [h.rexTO] at hrex
    rw [h.cakTO] at hcak
    rw [h.nulTO, setNulTimeout_wrap] at hnul
    exact ⟨by omega, by omega, hnul⟩
  · rintro ⟨hrex, hcak, hnul⟩
    exact ⟨by rw [h.rexTO, Nat.mod_eq_of_lt hrex], by rw [h.cakTO, Nat.mod_eq_of_lt hcak],
      by rw [h.nulTO, Nat.mod_eq_of_lt hnul]⟩

theorem negotiate_adopts (h : k.negotiate y = .ok k') : Adopts k.cfg y k'.prm := by
  unfold Core.negotiate at h
  split_ifs at h
  obtain rfl := Except.ok.inj h
  exact ⟨rfl, rfl, rfl, rfl, rfl⟩

/-- A client, or whoever is told to, adopts the parameters of its peer. -/
theorem extractConnectionParams_adopts {a : Bool} (ha : k.cfg.isServer = false ∨ a = true)
    (h : k.extractConnectionParams y a = .ok k') : Adopts k.cfg y k'.prm := by
  obtain ⟨k₁, h₁, h₂⟩ := bind_ok.1 h
  obtain ⟨ring, -, rfl⟩ := extractWindow_ok h₁
  have hadopt : (!k.cfg.isServer || a) = true := by
    rcases ha with ha | ha <;> rw [ha]
    · rfl
    · exact Bool.or_true _
  rw [if_pos hadopt] at h₂
  have := negotiate_adopts h₂
  exact this

/-- What is announced in milliseconds comes back less than one of them smaller. -/
theorem near_scaled {v w : ℕ} (h : v / UNIT_US < 65536) (hw : w = v / UNIT_US * UNIT_US % 2 ^ 32) :
    v < w + UNIT_US ∧ w < v + UNIT_US := by
  unfold UNIT_US at *
  omega

/-- A client keeps a third of the NUL time-out. -/
theorem near_setNulTimeout {v w : ℕ} (h : v < w + UNIT_US ∧ w < v + UNIT_US) :
    setNulTimeout cfg v < setNulTimeout cfg w + UNIT_US ∧
      setNulTimeout cfg w < setNulTimeout cfg v + UNIT_US := by
  unfold setNulTimeout UNIT_US at *
  split_ifs <;> omega

theorem near_closedParams {k : Core} (h : k.Fresh) : k.getNulTimeout / UNIT_US = (announced k.cfg).nulTO ∧
    setNulTimeout k.cfg k.getNulTimeout = (closedParams k.cfg).nulTO := by
  obtain ⟨n, hp⟩ := h
  unfold Core.getNulTimeout
  rw [hp]
  unfold closedParams announced setNulTimeout
  dsimp only
  split_ifs
  · exact ⟨rfl, rfl⟩
  · exact ⟨rfl, Nat.mul_div_cancel _ (by decide)⟩

/-- The side `cfg` adopts what the side `k` announces. -/
theorem Adopts.near (h : Adopts cfg (announced k.cfg) p) (hk : k.Fresh) :
    ({ closedParams k.cfg with nulTO := setNulTimeout cfg k.getNulTimeout } : Params).Near p := by
  obtain ⟨hrex, hcak, hnul⟩ := announced_lt k.cfg
  obtain ⟨hdiv, -⟩ := near_closedParams hk
  rw [← hdiv] at hnul
  refine ⟨near_scaled hrex h.rexTO, near_scaled hcak h.cakTO, ?_, h.rexMX, h.cakMX⟩
  rw [h.nulTO, ← hdiv]
  exact near_setNulTimeout (near_scaled hnul rfl)

/-- A client takes over what the SYN of the server says. -/
theorem CRssi.client_adopts {q : List Bytes} {bc : RxBuf} {clk : Clock} {seg : Segment}
    (hw : Window c.toCore q) (hs : c.state = .CLNT_WAIT_SYN_ACK)
    (hrx : (rxParse c.prm.verifyChecksum).val bc = .syn seg y) (hack : hasFlag seg.flags FLG_ACK = true)
    (h : c.handle (.rx bc clk) = .ok c') : Adopts c.cfg y c'.prm := by
  replace h := wait_bind_ok h
  have hbase : c.clearChanges.rxBase .CLNT_WAIT_SYN_ACK bc clk = .ok c' := by
    unfold handleRxEvent at h
    rw [show c.clearChanges.state = .CLNT_WAIT_SYN_ACK from hs] at h
    exact h
  unfold rxBase at hbase
  rw [show (rxParse c.clearChanges.prm.verifyChecksum).val bc = .syn seg y from hrx] at hbase
  obtain ⟨⟨o, c₁⟩, hd, ha⟩ := bind_ok.1 hbase
  obtain ⟨q₁, hw₁⟩ := Acts.window (rxDispatch_acts (c := c.clearChanges) (d := some seg) hs nofun hd).1 hw
  obtain ⟨⟨b, c₂⟩, hsyn, hd⟩ := bind_ok.1 hd
  obtain ⟨rfl, rfl⟩ := Prod.mk.inj (Except.ok.inj hd)
  obtain ⟨c₃, h₃, hsyn⟩ := bind_ok.1 hsyn
  rw [if_neg (by rw [hack]; decide)] at hsyn
  obtain ⟨rfl, rfl⟩ := Prod.mk.inj (Except.ok.inj hsyn)
  obtain ⟨k, hk, rfl⟩ := extractConnectionParams_ok h₃
  have hadopt := extractConnectionParams_adopts (.inr rfl) hk
  rw [(rxAccepted_counted hw₁.holds ha).prm]
  split_ifs <;> exact hadopt

theorem read_of_rxParse {v : Bool} {bc : RxBuf} {seg : Segment} (h : (rxParse v).val bc = .syn seg y) :
    RssiSynHeader.read.val bc = .ok y := by
  rw [rxParse, Rd.val_bind] at h
  split_ifs at h
  · cases h
  · rw [Rd.val_bind] at h
    split at h
    · cases h
    · cases h
    · rw [Rd.val_bind] at h
      split_ifs at h
      · rw [Rd.val_bind] at h
        split at h
        · cases h
        · rename_i y' hy
          obtain ⟨-, rfl⟩ := Rx.syn.inj h
          exact hy
      · cases h

theorem toNat_ossMX (cfg : Config) : (announced cfg).ossMX.toNat = cfg.maxUnackedSegs := by
  have hld := cfg.ld_lt
  have hpow : 2 ^ cfg.ld ≤ 2 ^ 7 := Nat.pow_le_pow_right (by decide) (by omega)
  change (UInt8.ofNat (2 ^ cfg.ld)).toNat = 2 ^ cfg.ld
  rw [UInt8.toNat_ofNat', Nat.mod_eq_of_lt (by omega)]

theorem sgsMX_forced (h : cfg.defaults.forcedSegsMax ≠ 0) :
    (announced cfg).sgsMX = cfg.defaults.forcedSegsMax := by
  have hv := cfg.valid
  unfold CRssiConfigParams.assertValid at hv
  split_ifs at hv with _ _ _ _ hlt
  have hm : maxSegSize cfg = cfg.defaults.forcedSegsMax := by
    unfold maxSegSize
    dsimp only
    rw [if_pos h, if_neg (by omega)]
  change (maxSegSize cfg).toNat % 65536 = _
  rw [hm, Int.toNat_natCast, Nat.mod_eq_of_lt (Nat.lt_of_not_ge hlt)]

/-- The time-outs that a side adopts are the announced ones exactly where the 32-bit products do not
wrap; a SYN written from a configuration reads back as that configuration; and a client that has
accepted the SYN of a server uses what the server uses. -/
theorem negotiation (k : Core) (s c : CRssi) :
    (∀ k' y a, y.units.toNat ≤ 6 → (k.cfg.isServer = false ∨ a = true) →
      k.extractConnectionParams y a = .ok k' → (AdoptsExactly k.cfg y k'.prm ↔ y.NoWrap)) ∧
    (∀ busy doAck n id beyond, k.Fresh →
      ∃ y, RssiSynHeader.read.val ⟨k.stamp busy (k.synHeader doAck n id), beyond⟩ = .ok y ∧
        y.ossMX.toNat = k.cfg.maxUnackedSegs ∧
        (k.cfg.defaults.forcedSegsMax ≠ 0 → y.sgsMX = k.cfg.defaults.forcedSegsMax) ∧
        ∀ k₁ : Core, k₁.cfg = k.cfg → ∃ k', k₁.negotiate y = .ok k' ∧ (closedParams k.cfg).Near k'.prm) ∧
    (∀ c' e beyond seg y clk, Reachable s → s.cfg.isServer = true → e ∈ s.out →
      HasSyn e.bytes → Reachable c → c.state = .CLNT_WAIT_SYN_ACK →
      (rxParse c.prm.verifyChecksum).val ⟨e.bytes, beyond⟩ = .syn seg y → hasFlag seg.flags FLG_ACK = true →
      c.handle (.rx ⟨e.bytes, beyond⟩ clk) = .ok c' →
      ({ s.prm with nulTO := setNulTimeout c.cfg s.prm.nulTO } : Params).Near c'.prm) := by
  refine ⟨fun k' y a _ ha h ↦ (extractConnectionParams_adopts ha h).exactly_iff, ?_, ?_⟩
  · intro busy doAck n id beyond hk
    have hann : Announces k.cfg (k.stamp busy (k.synHeader doAck n id)) :=
      (announces_synHeader hk doAck n id).stamp
    refine ⟨_, hann.read beyond, toNat_ossMX k.cfg, sgsMX_forced, fun k₁ hcfg ↦ ?_⟩
    have hok : ∃ k', k₁.negotiate (announced k.cfg) = .ok k' := by
      unfold Core.negotiate
      exact ⟨_, if_neg (show ¬(3 : UInt8).toNat > 6 by decide)⟩
    obtain ⟨k', hk'⟩ := hok
    have hadopt := negotiate_adopts hk'
    rw [hcfg] at hadopt
    have hnear := hadopt.near hk
    rw [(near_closedParams hk).2] at hnear
    exact ⟨k', hk', hnear⟩
  · intro c' e beyond seg y clk hs hsrv he hsyn hc hst hrx hack hh
    obtain ⟨q, hw⟩ := hc.window
    have hfresh := hs.syns.fresh hsrv
    have hy : y = announced s.cfg := by
      have hread := (hs.syns.out e he hsyn).read beyond
      rw [read_of_rxParse hrx] at hread
      exact Except.ok.inj hread
    subst hy
    have hnear := (CRssi.client_adopts hw hst hrx hack hh).near hfresh
    obtain ⟨n, hp⟩ := hfresh
    have hnul : s.getNulTimeout = s.prm.nulTO := by
      unfold Core.getNulTimeout
      rw [if_pos hsrv]
    rw [hnul] at hnear
    rw [hp] at hnear ⊢
    exact ⟨hnear.rexTO, hnear.cakTO, hnear.nulTO, hnear.rexMX, hnear.cakMX⟩

/-- The SYN of a server with the default parameters, in answer to `clientSyn`. -/
def serverSyn : RxBuf := datagram
  [192, 24, 248, 7, 28, 2, 5, 184, 0, 100, 0, 50, 11, 184, 15, 5, 0, 3, 0, 0, 0, 1, 10, 206]

theorem negotiation_default : ∃ s c c' : CRssi, Reachable s ∧ s.cfg.isServer = true ∧ Reachable c ∧
    c.cfg.isServer = false ∧ c.handle (.rx serverSyn ⟨1, 7⟩) = .ok c' ∧
    ({ s.prm with nulTO := setNulTimeout c.cfg s.prm.nulTO } : Params).Near c'.prm := by
  have hs : ((CRssi.new (smallConfig true) zeroJunk).runs [.advance ⟨0, 7⟩, .rx clientSyn ⟨1, 7⟩]).map
      (fun s ↦ (s.cfg.isServer, s.out.map (·.bytes))) = some (true, [serverSyn.data]) := by rfl
  have hc : ((CRssi.new (smallConfig false) zeroJunk).runs [.advance ⟨0, 7⟩]).map
      (fun c ↦ (c.cfg.isServer, c.state, c.prm.verifyChecksum, (c.handle (.rx serverSyn ⟨1, 7⟩)).toOption.isSome)) =
      some (false, .CLNT_WAIT_SYN_ACK, false, true) := by rfl
  obtain ⟨s, hrs, hfs⟩ := reachable_of_runs hs
  obtain ⟨c, hrc, hfc⟩ := reachable_of_runs hc
  obtain ⟨hsrv, hout⟩ := Prod.mk.inj hfs
  simp only [Prod.mk.injEq] at hfc
  obtain ⟨hcl, hst, hver, hsome⟩ := hfc
  obtain ⟨c', hh⟩ := Option.isSome_iff_exists.1 hsome
  have hh := toOption_eq_some.1 hh
  obtain ⟨e, he, hbytes⟩ : ∃ e ∈ s.out, e.bytes = serverSyn.data := by
    have hmem : serverSyn.data ∈ s.out.map (·.bytes) := hout ▸ List.mem_singleton_self _
    exact List.mem_map.1 hmem
  have hsyn : HasSyn e.bytes := by
    rw [hbytes]
    rfl
  have hdat : (⟨e.bytes, fun _ ↦ 0⟩ : RxBuf) = serverSyn := by rw [hbytes]; rfl
  have hrx : ∃ seg y, (rxParse c.prm.verifyChecksum).val serverSyn = .syn seg y ∧
      hasFlag seg.flags FLG_ACK = true := by
    rw [hver]
    exact ⟨_, _, rfl, rfl⟩
  obtain ⟨seg, y, hrx, hack⟩ := hrx
  refine ⟨s, c, c', hrs, hsrv, hrc, hcl, hh, ?_⟩
  exact (negotiation c.toCore s c).2.2 c' e (fun _ ↦ 0) seg y ⟨1, 7⟩ hrs hsrv he hsyn hrc hst
    (by rw [hdat]; exact hrx) hack (by rw [hdat]; exact hh)

/-- Time-outs in seconds, 4295 of them for a retransmission. -/
def coarseSyn : RxBuf := datagram
  [192, 24, 248, 7, 28, 2, 5, 184, 16, 199, 0, 50, 11, 184, 15, 5, 0, 0, 0, 0, 0, 1, 0, 0]

theorem not_adoptsExactly : ¬∀ b y (k k' : Core), RssiSynHeader.read.val b = .ok y → y.units.toNat ≤ 6 →
    k.cfg.isServer = false → k.extractConnectionParams y true = .ok k' → AdoptsExactly k.cfg y k'.prm := by
  intro h
  have hread : ∃ y, RssiSynHeader.read.val coarseSyn = .ok y ∧ y.units.toNat ≤ 6 ∧
      y.rexTO * y.unitUS = 4295000000 ∧
      ((CRssi.new (smallConfig false) zeroJunk).toCore.extractConnectionParams y true).toOption.map
        (·.prm.rexTO) = some 32704 := ⟨_, rfl, by decide, rfl, rfl⟩
  obtain ⟨y, hy, hu, hprod, hk⟩ := hread
  obtain ⟨k', hk', hrex⟩ := Option.map_eq_some_iff.1 hk
  have hexact := (h coarseSyn y _ k' hy hu rfl (toOption_eq_some.1 hk')).rexTO
  rw [hrex, hprod] at hexact
  omega

end Cpsw.Rssi
