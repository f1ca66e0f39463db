import Cpsw.Rssi.Link

namespace Cpsw.Rssi

open Cpsw.Lib.Run

variable {k k' o : Core} {d : Option Segment} {inc out l : List Emission}

/-- The handshake lies behind, and no RST has been sent or accepted. -/
structure Core.Connected (k : Core) : Prop where
  rst : k.rst = false
  early : k.state.early = false
  begun : k.state.begun = true

/-- From `k` to `k'` nothing has happened but that `l` was emitted. -/
structure Core.Extends (k k' : Core) (l : List Emission) : Prop where
  rcv : k'.rcv = k.rcv
  out : k'.out = k.out ++ l
  sent : ∃ m, k'.snd.sent = k.snd.sent ++ m
  window : k'.snd.peerOssMX = k.snd.peerOssMX
  acked : k'.snd.acked = k.snd.acked
  emitted : ∀ e ∈ l, e.rcv = k.rcv ∧ e.nSent = k'.snd.sent.length

theorem extends_emit {e : Emission} {m : List Bytes} (hr : k'.rcv = k.rcv)
    (ho : k'.out = k.out ++ [e]) (hs : k'.snd.sent = k.snd.sent ++ m)
    (hp : k'.snd.peerOssMX = k.snd.peerOssMX) (ha : k'.snd.acked = k.snd.acked)
    (her : e.rcv = k.rcv) (hn : e.nSent = k'.snd.sent.length) : k.Extends k' [e] := by
  refine ⟨hr, ho, ⟨m, hs⟩, hp, ha, fun x hx ↦ ?_⟩
  obtain rfl := List.mem_singleton.1 hx
  exact ⟨her, hn⟩

theorem extends_nil (hr : k'.rcv = k.rcv) (ho : k'.out = k.out) (hs : k'.snd = k.snd) :
    k.Extends k' [] :=
  ⟨hr, by rw [ho, List.append_nil], ⟨[], by rw [hs, List.append_nil]⟩, by rw [hs], by rw [hs], nofun⟩

/-- Once connected, a peer emits something, takes an ACK, stores a segment or drains its buffer. -/
theorem Act.effect (h : Act d k k') (hk : k.Connected) :
    (∃ l, k.Extends k' l) ∨
    (∃ seg, d = some seg ∧ hasFlag seg.flags FLG_ACK = true ∧ k' = k.acknowledge seg.ackNo) ∨
    (∃ seg ro, d = some seg ∧ seg.Storable ∧ k.rcv.unOrderedSegs.canAccept seg.seqNo = true ∧
      k.rcv.unOrderedSegs.store seg.seqNo seg = .ok ro ∧
        k' = { k with rcv := { k.rcv with unOrderedSegs := ro } }) ∨
    ∃ r, Drains k.rcv r ∧ k' = { k with rcv := r } := by
  cases h with
  | state | rst => exact .inl ⟨_, extends_nil rfl rfl rfl⟩
  | acked seg hd hf => exact .inr (.inl ⟨seg, hd, hf, rfl⟩)
  | sendACK | sendRST =>
    exact .inl ⟨_, extends_emit rfl rfl (List.append_nil _).symm rfl rfl rfl rfl⟩
  | sendDAT | sendNUL => exact .inl ⟨_, extends_emit rfl rfl rfl rfl rfl rfl rfl⟩
  | resend => exact .inl ⟨_, extends_emit rfl rfl (List.append_nil _).symm rfl rfl rfl rfl⟩
  | store seg ro hd _ hst ha hs => exact .inr (.inr (.inl ⟨seg, ro, hd, hst, ha, hs, rfl⟩))
  | drain r _ hd => exact .inr (.inr (.inr ⟨r, hd, rfl⟩))
  | params y a he _ _ => exact absurd (hk.early.symm.trans he) nofun
  | acceptSyn n he => exact absurd (hk.early.symm.trans he) nofun
  | sendSynAck busy n b id ring hs _ _ =>
    have he := hk.early
    rw [hs] at he
    contradiction

theorem Act.connected (h : Act d k k') (hk : k.Connected) (hr : k'.rst = false) : k'.Connected := by
  have keep : k'.state = k.state → k'.Connected :=
    fun hs ↦ ⟨hr, by rw [hs]; exact hk.early, by rw [hs]; exact hk.begun⟩
  cases h with
  | state s _ he hs =>
    refine ⟨hr, he, ?_⟩
    rcases hs with hb | hb
    · exact hb
    · exact absurd (hr.symm.trans hb) nofun
  | params y a _ _ hp => exact keep (params_state hp)
  | sendSynAck => exact ⟨hr, rfl, rfl⟩
  | rst | acked | sendACK | sendRST | sendDAT | sendNUL | resend | store | drain | acceptSyn =>
    exact keep rfl

/-- A peer and the two directions of its connection to `o`. -/
structure Joint (o k : Core) (inc out : List Emission) : Prop extends k.Connected where
  sound : Sound k
  receives : Link o.snd k.rcv inc out
  sends : Link k.snd o.rcv out inc

/-- What the peer `o` sends on its way: nothing but what it has emitted, in order. -/
structure Incoming (o : Core) (inc : List Emission) (d : Option Segment) : Prop where
  sound : Sound o
  rst : o.rst = false
  sub : inc.Sublist o.out
  first : ∀ seg, d = some seg →
    ∃ e ∈ inc, seg = Segment.ofBytes e.bytes ∧ ∀ e' ∈ inc, e.Before e'

theorem Act.joint (h : Act d k k') (hj : Joint o k inc out) (ho : Incoming o inc d)
    (hr : k'.rst = false) : ∃ l, k'.out = k.out ++ l ∧ Joint o k' inc (out ++ l) := by
  have hs := h.sound hj.sound
  have hc := h.connected hj.toConnected hr
  obtain ⟨q, hw⟩ := hj.sound.window
  obtain ⟨q', hw'⟩ := ho.sound.window
  have hrcv := hj.receives
  have hsnd := hj.sends
  rcases h.effect hj.toConnected with ⟨l, he⟩ | ⟨seg, hd, hf, rfl⟩ |
    ⟨seg, ro, hd, hst, hacc, hstore, rfl⟩ | ⟨r, hdr, rfl⟩
  · obtain ⟨m, hm⟩ := he.sent
    refine ⟨l, he.out, hc, hs, ?_, ?_⟩
    · rw [he.rcv]
      exact hrcv.reply fun e hm ↦ (he.emitted e hm).1
    · exact hsnd.grow hm he.window he.acked fun e hm ↦ (he.emitted e hm).2
  · obtain ⟨e, hm, rfl, hbefore⟩ := ho.first seg hd
    have hout := ho.sub.subset hm
    refine ⟨[], (List.append_nil _).symm, hc, hs, ?_, ?_⟩
    · rw [List.append_nil]
      exact hrcv
    · rw [List.append_nil]
      exact hsnd.acknowledge hw hj.rst ho.sound.acking.ok hm (ho.sound.acking.out e hout)
        ((ho.sound.sending ho.rst).consumed e hout) (fun e' he' ↦ (hbefore e' he').2) hf
  · obtain ⟨e, hm, rfl, hbefore⟩ := ho.first seg hd
    refine ⟨[], (List.append_nil _).symm, hc, hs, ?_, ?_⟩
    · rw [List.append_nil]
      exact hrcv.store hw' ho.rst (hj.sound.acking.acks _ hrcv.syn) hm
        ((ho.sound.sending ho.rst).copies e (ho.sub.subset hm)) (fun e' he' ↦ (hbefore e' he').1)
        hst hacc hstore
    · rw [List.append_nil]
      exact hsnd
  · refine ⟨[], (List.append_nil _).symm, hc, hs, ?_, ?_⟩
    · rw [List.append_nil]
      exact hrcv.drains hj.sound.acking.ok hdr
    · rw [List.append_nil]
      exact hsnd

theorem Acts.joint (h : Acts d k k') (hj : Joint o k inc out) (ho : Incoming o inc d)
    (hr : k'.rst = false) : ∃ l, k'.out = k.out ++ l ∧ Joint o k' inc (out ++ l) := by
  induction h with
  | refl => exact ⟨[], (List.append_nil _).symm, by rw [List.append_nil]; exact hj⟩
  | tail _ ha ih =>
    obtain ⟨l₁, h₁, hj₁⟩ := ih (ha.rst_mono hr)
    obtain ⟨l₂, h₂, hj₂⟩ := ha.joint hj₁ ho hr
    exact ⟨l₁ ++ l₂, by rw [h₂, h₁, List.append_assoc], by rw [← List.append_assoc]; exact hj₂⟩

/-- Two peers, and what each of them has sent that has not reached the other yet. -/
structure Net where
  peer : Bool → CRssi
  chan : Bool → List Emission

def Event.isLocal : Event → Bool
  | .rx _ _ => false
  | _ => true

/-- What a peer has emitted on the way from `c` to `c'`; leaving `CLOSED` it forgets the past. -/
def CRssi.emitted (c c' : CRssi) : List Emission :=
  if c.state = .CLOSED then c'.out else c'.out.drop c.out.length

theorem segment?_rx {c : CRssi} {bc : RxBuf} {clk : Clock} {seg : Segment}
    (h : c.segment? (.rx bc clk) = some seg) : seg = Segment.ofBytes bc.data := by
  have hp := rxParse_parses c.prm.verifyChecksum bc
  change ((rxParse c.prm.verifyChecksum).val bc).segment? = some seg at h
  generalize (rxParse c.prm.verifyChecksum).val bc = rx at h hp
  cases hp with
  | tooShort | badHeader | badChecksum | badSyn => contradiction
  | syn | oth => exact (Option.some.inj h).symm

namespace Net

/-- The peer `p` takes a step. -/
def after (p : Bool) (c' : CRssi) (n : Net) : Net where
  peer := Function.update n.peer p c'
  chan := Function.update n.chan p (n.chan p ++ (n.peer p).emitted c')

def setChan (p : Bool) (l : List Emission) (n : Net) : Net :=
  { n with chan := Function.update n.chan p l }

/-- The channels may lose any datagram, but neither reorder nor corrupt one. -/
inductive Step (n : Net) : Net → Prop
  | event (p : Bool) (ev : Event) (c' : CRssi) : ev.isLocal = true →
      ev.enabled (n.peer p) = true → (n.peer p).handle ev = .ok c' → Step n (n.after p c')
  | deliver (p : Bool) (e : Emission) (rest : List Emission) (beyond : ℕ → UInt8) (clk : Clock)
      (c' : CRssi) : n.chan (!p) = e :: rest →
      Event.enabled (n.peer p) (.rx ⟨e.bytes, beyond⟩ clk) = true →
      (n.peer p).handle (.rx ⟨e.bytes, beyond⟩ clk) = .ok c' →
      Step n ((n.setChan (!p) rest).after p c')
  | lose (p : Bool) (pre : List Emission) (e : Emission) (post : List Emission) :
      n.chan p = pre ++ e :: post → Step n (n.setChan p (pre ++ post))

/-- Neither side has sent or accepted an RST. -/
def Calm (n : Net) : Prop := ∀ p, (n.peer p).rst = false

def Run (n n' : Net) : Prop := Relation.ReflTransGen (fun m m' ↦ m.Step m' ∧ m'.Calm) n n'

structure Joined (n : Net) : Prop where
  reachable : ∀ p, Reachable (n.peer p)
  connected : ∀ p, (n.peer p).Connected
  sub : ∀ p, (n.chan p).Sublist (n.peer p).out
  link : ∀ p, Link (n.peer p).snd (n.peer (!p)).rcv (n.chan p) (n.chan (!p))

variable {n n' : Net}

theorem Joined.setChan {p : Bool} {l : List Emission} (h : n.Joined) (hl : l.Sublist (n.chan p)) :
    (n.setChan p l).Joined := by
  have hsub : ∀ r, ((n.setChan p l).chan r).Sublist (n.chan r) := by
    intro r
    unfold Net.setChan
    dsimp only
    by_cases hr : r = p
    · subst hr
      rw [Function.update_self]
      exact hl
    · rw [Function.update_of_ne hr]
  exact ⟨h.reachable, h.connected, fun r ↦ (hsub r).trans (h.sub r),
    fun r ↦ (h.link r).sublist (hsub r) (hsub (!r))⟩

theorem Joined.incoming {p : Bool} {d : Option Segment} (h : n.Joined)
    (hd : ∀ seg, d = some seg → ∃ e rest, n.chan (!p) = e :: rest ∧ seg = Segment.ofBytes e.bytes) :
    Incoming (n.peer (!p)).toCore (n.chan (!p)) d := by
  have hs := (h.reachable (!p)).sound
  have hr := (h.connected (!p)).rst
  refine ⟨hs, hr, h.sub _, fun seg hseg ↦ ?_⟩
  obtain ⟨e, rest, hc, rfl⟩ := hd seg hseg
  have hord := (hs.sending hr).ordered.sublist (h.sub (!p))
  rw [hc] at hord ⊢
  refine ⟨e, List.mem_cons_self, rfl, fun e' he' ↦ ?_⟩
  rcases List.mem_cons.1 he' with rfl | he'
  · exact ⟨le_rfl, le_rfl⟩
  · exact List.rel_of_pairwise_cons hord he'

theorem emitted_eq {c c' : CRssi} {l : List Emission} (hc : c.state ≠ .CLOSED)
    (ho : c'.out = c.out ++ l) : c.emitted c' = l := by
  unfold CRssi.emitted
  rw [if_neg hc, ho, List.drop_left]

theorem setChan_after {p : Bool} {l : List Emission} {c' : CRssi} :
    (n.after p c').setChan (!p) l = (n.setChan (!p) l).after p c' := by
  unfold Net.after Net.setChan
  dsimp only
  rw [Function.update_comm (Bool.not_ne_self p), Function.update_of_ne (Bool.not_ne_self p).symm]

/-- The step of one peer, with the datagram that it handles still in its channel. -/
theorem Joined.after {p : Bool} {ev : Event} {c' : CRssi} (h : n.Joined)
    (hd : ∀ seg, (n.peer p).segment? ev = some seg →
      ∃ e rest, n.chan (!p) = e :: rest ∧ seg = Segment.ofBytes e.bytes)
    (he : ev.enabled (n.peer p) = true) (hc : (n.peer p).handle ev = .ok c') (hr : c'.rst = false) :
    (n.after p c').Joined := by
  have hp := h.connected p
  have hcl : (n.peer p).state ≠ .CLOSED := by
    intro hs
    have hb := hp.begun
    rw [hs] at hb
    contradiction
  have hreach : Reachable c' := (h.reachable p).step ⟨ev, he, hc⟩
  have hrecv := h.link (!p)
  rw [Bool.not_not] at hrecv
  have hj : Joint (n.peer (!p)).toCore (n.peer p).toCore (n.chan (!p)) (n.chan p) :=
    ⟨hp, (h.reachable p).sound, hrecv, h.link p⟩
  have ha : Acts ((n.peer p).segment? ev) (n.peer p).toCore c'.toCore := by
    rcases CRssi.handle_acts hc with ho | ha
    · exact absurd ho.closed hcl
    · exact ha
  obtain ⟨l, hout, hj'⟩ := ha.joint hj (h.incoming hd) hr
  have hemit := emitted_eq hcl hout
  have hne : ∀ {r}, r ≠ p → r = !p := fun hr ↦ Bool.eq_not.2 hr
  have hself : (n.after p c').peer p = c' ∧ (n.after p c').chan p = n.chan p ++ l := by
    refine ⟨Function.update_self _ _ _, ?_⟩
    unfold Net.after
    rw [hemit]
    exact Function.update_self _ _ _
  have hother : (n.after p c').peer (!p) = n.peer (!p) ∧ (n.after p c').chan (!p) = n.chan (!p) :=
    ⟨Function.update_of_ne (Bool.not_ne_self p) _ _, Function.update_of_ne (Bool.not_ne_self p) _ _⟩
  constructor
  · intro r
    by_cases hrp : r = p
    · rw [hrp, hself.1]
      exact hreach
    · rw [hne hrp, hother.1]
      exact h.reachable _
  · intro r
    by_cases hrp : r = p
    · rw [hrp, hself.1]
      exact hj'.toConnected
    · rw [hne hrp, hother.1]
      exact h.connected _
  · intro r
    by_cases hrp : r = p
    · rw [hrp, hself.1, hself.2, hout]
      exact (h.sub p).append_right l
    · rw [hne hrp, hother.1, hother.2]
      exact h.sub _
  · intro r
    by_cases hrp : r = p
    · rw [hrp, hself.1, hself.2, hother.1, hother.2]
      exact hj'.sends
    · rw [hne hrp, Bool.not_not, hself.1, hself.2, hother.1, hother.2]
      exact hj'.receives

theorem Joined.step (h : n.Joined) (hs : n.Step n') (hc : n'.Calm) : n'.Joined := by
  cases hs with
  | event p ev c' hl he hh =>
    have hr := hc p
    rw [show (n.after p c').peer p = c' from Function.update_self _ _ _] at hr
    have hnone : (n.peer p).segment? ev = none := by cases ev <;> first | contradiction | rfl
    exact h.after (fun seg hseg ↦ absurd (hnone.symm.trans hseg) nofun) he hh hr
  | deliver p e rest beyond clk c' hch he hh =>
    have hr := hc p
    rw [show ((n.setChan (!p) rest).after p c').peer p = c' from Function.update_self _ _ _] at hr
    have hj := h.after (fun seg hseg ↦ ⟨e, rest, hch, segment?_rx hseg⟩) he hh hr
    have hsub : rest.Sublist ((n.after p c').chan (!p)) := by
      rw [show (n.after p c').chan (!p) = n.chan (!p) from
        Function.update_of_ne (Bool.not_ne_self p) _ _, hch]
      exact List.sublist_cons_self e rest
    rw [← setChan_after]
    exact hj.setChan hsub
  | lose p pre e post hch =>
    refine h.setChan ?_
    rw [hch]
    exact List.Sublist.append_left (List.sublist_cons_self e post) pre

end Net

/-- The handshake from `x` to `y` is complete: `y` expects the segment after the SYN of `x` and has
taken none yet, the SYN is acknowledged, and `x` knows the window of `y`. Segments of `x` may have
come early and wait at `y`; any of those it sent later, and of the answers of `y`, are on the way. -/
structure Handshaken (x y : CRssi) (fwd back : List Emission) : Prop where
  syn : y.rcv.irs = some x.snd.isn
  consumed : y.rcv.consumed = []
  acked : x.snd.acked = 1
  window : x.snd.peerOssMX = 2 ^ y.cfg.ld
  fwd : ∃ pre post, x.out = pre ++ post ∧ fwd.Sublist post ∧
    ∀ off < y.rcv.unOrderedSegs.capa, ∀ s, y.rcv.unOrderedSegs.slot off = some s →
      ∃ e ∈ pre, s = Segment.ofBytes e.bytes
  back : back.Sublist y.out ∧ ∀ e ∈ back,
    hasFlag (Segment.ofBytes e.bytes).flags FLG_ACK = true → e.rcv.irs = some x.snd.isn

theorem Handshaken.link {x y : CRssi} {fwd back : List Emission} (h : Handshaken x y fwd back)
    (hx : Sound x.toCore) (hc : x.Connected) (hy : Sound y.toCore) :
    Link x.snd y.rcv fwd back := by
  obtain ⟨q, hw⟩ := hx.window
  obtain ⟨pre, post, hout, hfwd, hslots⟩ := h.fwd
  have hs := hx.sending hc.rst
  have hacks := hy.acking.acks _ h.syn
  have hlen₀ : y.rcv.consumed.length = 0 := by
    rw [h.consumed]
    rfl
  have hwin : x.snd.peerOssMX = y.rcv.unOrderedSegs.capa := h.window.trans hy.acking.capa.symm
  have hcapa := hacks.ok.capa_le
  have hpos := hacks.ok.wf.capa_pos
  have hlen := hw.length_eq
  have hbound := hw.bound
  have hack := h.acked
  -- what waits in the slot `off` is a copy of the segment `1 + off`
  have early : ∀ off < y.rcv.unOrderedSegs.capa, ∀ s, y.rcv.unOrderedSegs.slot off = some s →
      ∃ e ∈ pre, 1 + off < e.nSent ∧
        ∃ b, x.snd.sent[1 + off]? = some b ∧ s.content = content b := by
    intro off ho s hs₁
    obtain ⟨hseq, hst⟩ := hacks.waiting off ho s hs₁
    obtain ⟨e, he, rfl⟩ := hslots off ho s hs₁
    have hmem : e ∈ x.out := hout ▸ List.mem_append_left post he
    obtain ⟨i, b, hb, hcont, hi, -⟩ := (hs.copies e hmem).copy hst
    have hlt := (List.getElem?_eq_some_iff.1 hb).1
    have hnum : (Segment.ofBytes e.bytes).seqNo = x.snd.isn + UInt8.ofNat i :=
      (congrArg Segment.seqNo hcont).trans (hw.numbered hc.rst i b hb)
    have hmod : UInt8.ofNat i = UInt8.ofNat (1 + off) := by
      rw [hacks.oldest, hlen₀, hnum] at hseq
      rw [UInt8.ofNat_add]
      change _ = 1 + UInt8.ofNat off
      change _ = x.snd.isn + 1 + 0 + UInt8.ofNat off at hseq
      grind
    have hi' : i = 1 + off := by
      have := congrArg UInt8.toNat hmod
      rw [UInt8.toNat_ofNat', UInt8.toNat_ofNat'] at this
      omega
    subst hi'
    exact ⟨e, he, hi, b, hb, hcont⟩
  refine ⟨h.syn, hwin, by omega, ?_, ?_, fun off ho s hs₁ ↦ ?_, fun e he ↦ ⟨?_, fun off ho s hs₁ ↦ ?_⟩,
    fun e he hf ↦ ⟨h.back.2 e he hf, by omega⟩⟩
  · rw [hlen₀]
    exact List.length_pos_of_ne_nil (hw.begun hc.rst hc.begun)
  · rw [h.consumed]
    exact nofun
  · obtain ⟨-, -, -, b, hb, hcont⟩ := early off ho s hs₁
    exact ⟨b, by rw [hlen₀]; exact hb, hcont⟩
  · have hmem : e ∈ x.out := hout ▸ List.mem_append_right pre (hfwd.subset he)
    have := (hs.copies e hmem).pos
    omega
  · obtain ⟨e', he', hlt, -⟩ := early off ho s hs₁
    have hord := hs.ordered
    rw [hout, List.pairwise_append] at hord
    have := (hord.2.2 e' he' e (hfwd.subset he)).1
    omega

/-- Both peers have reached `OPEN` through a handshake. -/
structure Net.Open (n : Net) : Prop where
  reachable : ∀ p, Reachable (n.peer p)
  isOpen : ∀ p, (n.peer p).state.isOpen = true
  calm : n.Calm
  handshaken : ∀ p, Handshaken (n.peer p) (n.peer (!p)) (n.chan p) (n.chan (!p))

theorem Net.Open.joined {n : Net} (h : n.Open) : n.Joined := by
  have hc : ∀ p, (n.peer p).Connected := by
    intro p
    have ho := h.isOpen p
    refine ⟨h.calm p, ?_, ?_⟩ <;> cases hs : (n.peer p).state <;> rw [hs] at ho <;>
      first | contradiction | rfl
  refine ⟨h.reachable, hc, fun p ↦ ?_, fun p ↦
    (h.handshaken p).link (h.reachable p).sound (hc p) (h.reachable (!p)).sound⟩
  obtain ⟨pre, post, hout, hfwd, -⟩ := (h.handshaken p).fwd
  rw [hout]
  exact hfwd.trans (List.sublist_append_right pre post)

theorem payloads_content (l : List Segment) : payloads (l.map Segment.content) = payloads l := by
  have hf : ∀ s : Segment, hasFlag s.content.flags FLG_NUL = hasFlag s.flags FLG_NUL :=
    fun s ↦ hasFlag_or rfl
  induction l with
  | nil => rfl
  | cons s l ih =>
    unfold payloads at ih ⊢
    rw [List.map_cons, List.filter_cons, List.filter_cons, hf s]
    split_ifs
    · exact congrArg (s.payload :: ·) ih
    · exact ih

/-- What has been consumed is where the sent segments begin, after the SYN. -/
theorem Link.consumed_prefix {x : Sender} {y : Receiver} (h : Link x y inc out) :
    y.consumed.map Segment.content <+: (x.sent.tail.map Segment.ofBytes).map Segment.content := by
  rw [List.prefix_iff_getElem?]
  intro i hi
  rw [List.length_map] at hi
  obtain ⟨b, hb, hc⟩ := h.consumed i _ (List.getElem?_eq_getElem hi)
  rw [List.getElem?_map, List.getElem?_map, List.getElem?_tail, hb, List.getElem_map, hc]
  rfl

theorem payloads_prefix {l m : List Segment} (h : l <+: m) : payloads l <+: payloads m :=
  (h.filter _).map _

/-- Whatever is lost on the way, and in whatever order the peers act: what the user of one side is
given is the beginning of what the user of the other side had sent. -/
theorem delivers_in_order {n n' : Net} (h : n.Open) (hr : n.Run n') (p : Bool) :
    (n'.peer p).rcv.given <+: (n'.peer (!p)).snd.popped := by
  have hj : n'.Joined :=
    @invariant Net _ Net.Joined (fun _ _ hj hs ↦ hj.step hs.1 hs.2) n n' hr h.joined
  have hlink := hj.link (!p)
  rw [Bool.not_not] at hlink
  have hgiven := ((hj.reachable p).sound.acking.acks _ hlink.syn).given
  have hpopped := ((hj.reachable (!p)).sound.sending (hj.connected (!p)).rst).popped
  have hpre := payloads_prefix hlink.consumed_prefix
  rw [payloads_content, payloads_content] at hpre
  rw [hgiven, hpopped]
  exact hpre

theorem handshaken_idle {x y : CRssi} (h₁ : y.rcv.irs = some x.snd.isn) (h₂ : y.rcv.consumed = [])
    (h₃ : x.snd.acked = 1) (h₄ : x.snd.peerOssMX = 2 ^ y.cfg.ld)
    (h₅ : ∀ off < y.rcv.unOrderedSegs.capa, y.rcv.unOrderedSegs.slot off = none) :
    Handshaken x y [] [] :=
  ⟨h₁, h₂, h₃, h₄, ⟨x.out, [], (List.append_nil _).symm, .slnil,
    fun off ho _ hs ↦ absurd ((h₅ off ho).symm.trans hs) nofun⟩, List.nil_sublist _, nofun⟩

theorem handle_of_runs {ev : Event} {c c' : CRssi} (h : c.runs [ev] = some c') :
    ev.enabled c = true ∧ c.handle ev = .ok c' := by
  unfold CRssi.runs at h
  split_ifs at h with he
  split at h
  · rename_i c₁ h₁
    obtain rfl := Option.some.inj h
    exact ⟨he, h₁⟩
  · cases h

/-- A client that a server with `serverOpens` has opened; its user has queued a payload. -/
def clientOpens : List Event :=
  [.advance ⟨0, 7⟩, .rx (datagram [192, 24, 248, 7, 28, 2, 5, 184, 0, 100, 0, 50, 11, 184, 15, 5,
    0, 3, 0, 0, 0, 0, 0, 0]) ⟨1, 7⟩, .advance ⟨2, 7⟩, .push ⟨8, [42]⟩]

/-- Just opened, with nothing received yet and a window of two segments at either side. -/
def CRssi.idleAt (isn irs : SeqNo) (c : CRssi) : Bool :=
  c.state = .OPEN ∧ c.rst = false ∧ c.snd.isn = isn ∧ c.snd.acked = 1 ∧ c.rcv.irs = some irs ∧
    c.snd.peerOssMX = 2 ∧ c.cfg.ld = 1 ∧ c.rcv.consumed = [] ∧
      ∀ off < c.rcv.unOrderedSegs.capa, c.rcv.unOrderedSegs.slot off = none

theorem delivers_in_order_once : ∃ n n' : Net, n.Open ∧ n.Run n' ∧
    (n'.peer true).rcv.given = [[42]] ∧ (n'.peer true).rcv.given <+: (n'.peer false).snd.popped := by
  have hclient : ((CRssi.new (smallConfig false) zeroJunk).runs clientOpens).map (fun c ↦
      (c.idleAt 7 248, (c.runs [.usrInput ⟨3, 7⟩]).map fun c' ↦
        (c'.rst, (c.emitted c').map (·.bytes)))) =
      some (true, some (false, [[64, 8, 8, 248, 0, 0, 182, 255, 42]])) := by decide +kernel
  have hserver : ((CRssi.new (smallConfig true) zeroJunk).runs serverOpens).map (fun c ↦
      (c.idleAt 248 7, (c.runs [.rx (datagram [64, 8, 8, 248, 0, 0, 182, 255, 42]) ⟨4, 7⟩]).map
        fun c' ↦ (c'.rst, c'.rcv.given))) =
      some (true, some (false, [[42]])) := by decide +kernel
  obtain ⟨c, hc, hfc⟩ := reachable_of_runs hclient
  obtain ⟨s, hs, hfs⟩ := reachable_of_runs hserver
  simp only [Prod.mk.injEq, Option.map_eq_some_iff] at hfc hfs
  obtain ⟨hcl, c', hc', hc₁₀, hemit⟩ := hfc
  obtain ⟨hsv, s', hs', hs₁₀, hgiven⟩ := hfs
  obtain ⟨hc₁, hc₂, hc₃, hc₄, hc₅, hc₆, hc₇, hc₈, hc₉⟩ := of_decide_eq_true hcl
  obtain ⟨hs₁, hs₂, hs₃, hs₄, hs₅, hs₆, hs₇, hs₈, hs₉⟩ := of_decide_eq_true hsv
  obtain ⟨hec, hhc⟩ := handle_of_runs hc'
  obtain ⟨hes, hhs⟩ := handle_of_runs hs'
  obtain ⟨e, hl, hbytes⟩ : ∃ e, c.emitted c' = [e] ∧ e.bytes = [64, 8, 8, 248, 0, 0, 182, 255, 42] := by
    obtain ⟨e, rest, hl, hb, hr⟩ := List.map_eq_cons_iff.1 hemit
    exact ⟨e, by rw [hl, List.map_eq_nil_iff.1 hr], hb⟩
  let n : Net := { peer := fun p ↦ if p then s else c, chan := fun _ ↦ [] }
  have hopen : n.Open := by
    refine ⟨?_, ?_, ?_, ?_⟩ <;> rintro (_ | _)
    · exact hc
    · exact hs
    · change c.state.isOpen = true
      rw [hc₁]
      rfl
    · change s.state.isOpen = true
      rw [hs₁]
      rfl
    · exact hc₂
    · exact hs₂
    · exact handshaken_idle (hs₅.trans (congrArg some hc₃.symm)) hs₈ hc₄
        (by change c.snd.peerOssMX = 2 ^ s.cfg.ld; rw [hc₆, hs₇]; rfl) hs₉
    · exact handshaken_idle (hc₅.trans (congrArg some hs₃.symm)) hc₈ hs₄
        (by change s.snd.peerOssMX = 2 ^ c.cfg.ld; rw [hs₆, hc₇]; rfl) hc₉
  have h₁ : n.Step (n.after false c') := .event false _ c' rfl hec hhc
  have hchan : (n.after false c').chan (!true) = [e] := hl
  have h₂ : (n.after false c').Step (((n.after false c').setChan (!true) []).after true s') := by
    refine .deliver true e [] (fun _ ↦ 0) ⟨4, 7⟩ s' hchan ?_ ?_
    · rw [hbytes]
      exact hes
    · rw [hbytes]
      exact hhs
  have hrun : n.Run (((n.after false c').setChan (!true) []).after true s') := by
    refine .tail (.single ⟨h₁, ?_⟩) ⟨h₂, ?_⟩ <;> rintro (_ | _)
    · exact hc₁₀
    · exact hs₂
    · exact hc₁₀
    · exact hs₁₀
  exact ⟨n, _, hopen, hrun, hgiven, delivers_in_order hopen hrun true⟩

end Cpsw.Rssi
