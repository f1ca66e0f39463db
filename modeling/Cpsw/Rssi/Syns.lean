import Cpsw.Rssi.Emit
import Cpsw.Rssi.SynHeader

namespace Cpsw.Rssi

open Cpsw.Lib.Run

variable {cfg : Config} {k k' : Core} {b : Bytes} {d : Option Segment}

def HasSyn (b : Bytes) : Prop := hasFlag (getFlags b) FLG_SYN = true

theorem hasSyn_stamp {busy : Bool} (hw : Whole b) : HasSyn (k.stamp busy b) ↔ HasSyn b := by
  have hf : getFlags (k.stamp busy b) = if busy then getFlags b ||| FLG_BSY else getFlags b :=
    congrArg Segment.flags (ofBytes_stamp hw)
  unfold HasSyn
  rw [hf]
  split_ifs
  · rw [hasFlag_or rfl]
  · exact Iff.rfl

/-- A SYN announces the parameters of this configuration. -/
def SynTells (cfg : Config) (b : Bytes) : Prop := HasSyn b → Announces cfg b

theorem SynTells.stamp {busy : Bool} (h : SynTells cfg b) (hw : Whole b) :
    SynTells cfg (k.stamp busy b) := fun hs ↦ (h ((hasSyn_stamp hw).1 hs)).stamp

theorem synTells_header {flags : UInt8} (h : hasFlag flags FLG_SYN = false) (s : SeqNo) (x : Bytes) :
    SynTells cfg (RssiHeader.set flags s ++ x) := by
  intro hs
  change hasFlag flags FLG_SYN = true at hs
  rw [h] at hs
  contradiction

/-- All SYNs, sent or waiting to be sent again, announce what the configuration says; a server,
which alone listens, never takes over anything else. -/
structure Syns (k : Core) : Prop where
  ring : ∃ q, k.snd.unAckedSegs.Holds q ∧ ∀ b ∈ q, SynTells k.cfg b
  out : ∀ e ∈ k.out, SynTells k.cfg e.bytes
  client : k.state = .CLNT_WAIT_SYN_ACK → k.cfg.isServer = false
  server : k.state = .LISTEN → k.cfg.isServer = true
  fresh : k.cfg.isServer = true → k.Fresh

/-- The ring, the output and the parameters stay. -/
theorem Syns.frame (h : Syns k) (hc : k'.cfg = k.cfg) (hp : k'.prm = k.prm) (ho : k'.out = k.out)
    (hr : k'.snd.unAckedSegs = k.snd.unAckedSegs)
    (hs : k'.state = k.state ∨ k'.state.early = false) : Syns k' := by
  refine ⟨by rw [hr, hc]; exact h.ring, by rw [ho, hc]; exact h.out, fun hst ↦ ?_, fun hst ↦ ?_, fun hsrv ↦ ?_⟩
  · rcases hs with hs | hs
    · rw [hc]
      exact h.client (hs.symm.trans hst)
    · rw [hst] at hs
      contradiction
  · rcases hs with hs | hs
    · rw [hc]
      exact h.server (hs.symm.trans hst)
    · rw [hst] at hs
      contradiction
  · rw [hc] at hsrv
    unfold Core.Fresh
    rw [hp, hc]
    exact h.fresh hsrv

/-- A segment goes out, and perhaps joins the ring or takes its place there. -/
theorem Syns.emit {e : Emission} (h : Syns k) (hc : k'.cfg = k.cfg) (hp : k'.prm = k.prm)
    (ho : k'.out = k.out ++ [e]) (he : SynTells k.cfg e.bytes)
    (hr : ∃ q, k'.snd.unAckedSegs.Holds q ∧ ∀ b ∈ q, SynTells k.cfg b)
    (hs : k'.state = k.state ∨ k'.state.early = false) : Syns k' := by
  have hmid : Syns { k' with out := k.out, snd := k.snd } := h.frame hc hp rfl rfl hs
  refine ⟨by rw [hc]; exact hr, fun e' hm ↦ ?_, hmid.client, hmid.server, hmid.fresh⟩
  rw [hc]
  rw [ho] at hm
  rcases List.mem_append.1 hm with hm | hm
  · exact h.out e' hm
  · obtain rfl := List.mem_singleton.1 hm
    exact he

theorem push_synTells {ring ring' : RingBuf Bytes} {q : List Bytes} (hq : ring.Holds q)
    (hlt : q.length < ring.capa) (hp : ring.push (some b) = .ok ring')
    (h : ∀ x ∈ q, SynTells cfg x) (hb : SynTells cfg b) :
    ∃ q', ring'.Holds q' ∧ ∀ x ∈ q', SynTells cfg x := by
  obtain ⟨r, hr, hring, -⟩ := hq.push hlt b
  obtain rfl : r = ring' := Except.ok.inj (hr.symm.trans hp)
  refine ⟨_, hring, fun x hx ↦ ?_⟩
  rcases List.mem_append.1 hx with hx | hx
  · exact h x hx
  · obtain rfl := List.mem_singleton.1 hx
    exact hb

theorem whole_bare (flags : UInt8) (s : SeqNo) : Whole (RssiHeader.set flags s) := by
  have hw := whole_set flags s []
  rwa [List.append_nil] at hw

theorem synTells_bare {flags : UInt8} (h : hasFlag flags FLG_SYN = false) (s : SeqNo) :
    SynTells cfg (RssiHeader.set flags s) := by
  have ht := @synTells_header cfg flags h s []
  rwa [List.append_nil] at ht

theorem Act.syns {q : List Bytes} (h : Act d k k') (hw : Window k q) (hk : Syns k) : Syns k' := by
  obtain ⟨qr, hqr, hmem⟩ := hk.ring
  have hroom := hw.room
  cases h with
  | state s _ he _ => exact hk.frame rfl rfl rfl rfl (.inr he)
  | rst | store | drain | acceptSyn => exact hk.frame rfl rfl rfl rfl (.inl rfl)
  | acked seg _ _ =>
    refine ⟨?_, hk.out, hk.client, hk.server, hk.fresh⟩
    obtain ⟨hout, hin⟩ := hqr.ack seg.ackNo
    change ∃ q, (k.snd.unAckedSegs.ack seg.ackNo).2.Holds q ∧ _
    rcases Nat.lt_or_ge qr.length (k.snd.unAckedSegs.cumAck seg.ackNo) with hlt | hge
    · rw [hout hlt]
      exact ⟨qr, hqr, hmem⟩
    · exact ⟨_, (hin hge).2.1, fun b hb ↦ hmem b (List.mem_of_mem_drop hb)⟩
  | sendACK busy _ =>
    exact hk.emit rfl rfl rfl ((synTells_bare rfl _).stamp (whole_bare _ _)) hk.ring (.inl rfl)
  | sendRST busy =>
    exact hk.emit rfl rfl rfl ((synTells_bare rfl _).stamp (whole_bare _ _)) hk.ring (.inl rfl)
  | sendDAT busy p ring _ hlt _ hp =>
    rw [hqr.getSize_eq] at hlt
    have hb : SynTells k.cfg (k.stamp busy (RssiHeader.set FLG_ACK (k.snd.lastSeqSent + 1) ++ p)) :=
      (synTells_header rfl _ p).stamp (whole_set _ _ p)
    exact hk.emit rfl rfl rfl hb (push_synTells hqr (hlt.trans_le hroom) hp hmem hb) (.inl rfl)
  | sendNUL busy ring _ hlt hp =>
    rw [hqr.getSize_eq] at hlt
    have hb : SynTells k.cfg (k.stamp busy (RssiHeader.set (FLG_ACK ||| FLG_NUL) (k.snd.lastSeqSent + 1))) :=
      (synTells_bare rfl _).stamp (whole_bare _ _)
    exact hk.emit rfl rfl rfl hb (push_synTells hqr (hlt.trans_le hroom) hp hmem hb) (.inl rfl)
  | resend busy i b hi hb =>
    have hwb : Whole b := hw.whole b (List.mem_of_getElem? (hw.deref hi hb))
    rw [hqr.getSize_eq] at hi
    rw [hqr.deref hi.le] at hb
    have hs : SynTells k.cfg (k.stamp busy b) := (hmem b (List.mem_of_getElem? hb)).stamp hwb
    refine hk.emit rfl rfl rfl hs ⟨_, hqr.update hi _, fun x hx ↦ ?_⟩ (.inl rfl)
    rcases List.mem_or_eq_of_mem_set hx with hx | rfl
    · exact hmem x hx
    · exact hs
  | params y a he ha hp =>
    obtain ⟨ring, prm, hfit, -, rfl⟩ := params_ok hp
    have hlt := UInt8.toNat_lt y.ossMX
    obtain ⟨ring', hf', hring, -⟩ := hqr.fit y.ossMX.toNat (by omega)
    obtain rfl : ring' = ring := Except.ok.inj (hf'.symm.trans hfit)
    refine ⟨⟨qr, hring, hmem⟩, hk.out, hk.client, hk.server, fun hsrv ↦ ?_⟩
    cases a with
    | true =>
      have hcl := hk.client (ha rfl)
      exact absurd (hsrv.symm.trans hcl) nofun
    | false =>
      obtain ⟨k₁, h₁, h₂⟩ := bind_ok.1 hp
      obtain ⟨ring₁, -, rfl⟩ := extractWindow_ok h₁
      change k.cfg.isServer = true at hsrv
      rw [hsrv] at h₂
      obtain ⟨n, hn⟩ := hk.fresh hsrv
      have hprm := congrArg Core.prm (Except.ok.inj h₂)
      refine ⟨y.sgsMX, hprm.symm.trans ?_⟩
      change { k.prm with peerSgsMX := y.sgsMX } = _
      rw [hn]
  | sendSynAck busy n b id ring hst hb hp =>
    subst hb
    have hsrv := hk.server hst
    have hfresh : (k.seedSeqSent n).Fresh := hk.fresh hsrv
    have hann : SynTells k.cfg ((k.seedSeqSent n).stamp busy (k.synHeader true n id)) :=
      fun _ ↦ (announces_synHeader (hk.fresh hsrv) true n id).stamp
    obtain ⟨rfl, -⟩ := hw.listen hst
    have hlen : qr.length = 0 := hqr.getSize_eq.symm.trans hw.size
    have hpos := hqr.wf.capa_pos
    refine hk.emit rfl rfl rfl hann ?_ (.inr rfl)
    exact push_synTells (hqr.seed n) (by change qr.length < k.snd.unAckedSegs.capa; omega) hp hmem hann

theorem Opens.syns {q : List Bytes} (h : Opens k k') (hw : Window k q) : Syns k' := by
  cases h with
  | listen hs hsrv =>
    exact ⟨⟨[], (hw.close hs).holds, nofun⟩, nofun, nofun, fun _ ↦ hsrv, fun _ ↦ ⟨_, rfl⟩⟩
  | connect busy n b id ring hs hcl hb hp =>
    subst hb
    have hfresh : k.close.Fresh := ⟨_, rfl⟩
    have hann : SynTells k.cfg ((k.close.seedSeqSent n).stamp busy (k.close.synHeader false n id)) :=
      fun _ ↦ (announces_synHeader hfresh false n id).stamp
    have hq := (hw.close hs).holds
    refine ⟨push_synTells (hq.seed n) hq.wf.capa_pos hp nofun hann, fun e he ↦ ?_, fun _ ↦ hcl, nofun,
      fun hsrv ↦ absurd (hsrv.symm.trans hcl) nofun⟩
    obtain rfl := List.mem_singleton.1 he
    exact hann

theorem Reachable.syns {c : CRssi} (h : Reachable c) : Syns c.toCore :=
  (h.core_invariant (I := fun k ↦ (∃ q, Window k q) ∧ Syns k)
    (fun cfg j ↦ ⟨⟨[], window_new cfg j⟩, ⟨⟨[], (window_new cfg j).holds, nofun⟩, nofun, nofun, nofun, fun _ ↦ ⟨_, rfl⟩⟩⟩)
    (fun _ _ ⟨⟨_, hw⟩, _⟩ ho ↦ ⟨ho.window hw, ho.syns hw⟩)
    (fun _ _ _ ⟨⟨_, hw⟩, hs⟩ ha ↦ ⟨ha.window hw, ha.syns hw hs⟩)).2

end Cpsw.Rssi
