import Cpsw.Rssi.Ack
import Mathlib.Data.List.GetD

namespace Cpsw.Rssi

open Cpsw.Lib.Run

/-- A SYN as it should be: nothing but a header of 24 bytes, of the right version. -/
def RxBuf.IsSyn (b : RxBuf) : Prop :=
  b.data.length = 24 ∧ b.data.getD 1 0 = 24 ∧ b.data.getD 4 0 >>> 4 = RSSI_VERSION_1

/-- Only one of the two lengths is that of a SYN. -/
def RxBuf.Loose (b : RxBuf) : Prop :=
  (b.data.getD 1 0).toNat ≤ b.data.length ∧ b.data.getD 4 0 >>> 4 = RSSI_VERSION_1 ∧
    ¬(b.data.length = 24 ↔ b.data.getD 1 0 = 24)

theorem RssiSynHeader.val_read {b : RxBuf} (h : 2 ≤ b.data.length) :
    (∃ y, RssiSynHeader.read.val b = .ok y) ↔ (b.data.getD 1 0).toNat ≤ b.data.length ∧
      (b.data.length = 24 ∨ b.data.getD 1 0 = 24) ∧ b.data.getD 4 0 >>> 4 = RSSI_VERSION_1 := by
  have h1 := b.load_eq 1 (by omega)
  have herror (e : BadHeader) : ¬∃ y : RssiSynHeader, Except.error e = .ok y := by
    rintro ⟨y, hy⟩
    cases hy
  have hread : (RssiHeader.read false).val b =
      if b.data.length < (b.data.getD 1 0).toNat then .error .headerSize else .ok true := by
    rw [RssiHeader.read, Rd.val_bind, Rd.val_size, if_neg (by omega), Rd.val_bind, Rd.val_ld, h1]
    simp only [Bool.false_eq_true, if_false]
    split_ifs <;> rfl
  rw [RssiSynHeader.read, Rd.val_bind, hread]
  by_cases hlt : b.data.length < (b.data.getD 1 0).toNat
  · rw [if_pos hlt]
    exact iff_of_false (herror _) fun hle ↦ absurd hle.1 (by omega)
  · rw [if_neg hlt]
    simp only [Rd.val_bind, Rd.val_size, Rd.val_ld, h1]
    by_cases hs : b.data.length ≠ 24 ∧ b.data.getD 1 0 ≠ 24
    · rw [if_pos hs]
      exact iff_of_false (herror _) fun hle ↦ hle.2.1.elim hs.1 hs.2
    · rw [if_neg hs, Rd.val_bind, Rd.val_ld]
      have hor : b.data.length = 24 ∨ b.data.getD 1 0 = 24 := by
        by_contra hc
        exact hs (not_or.1 hc)
      have hlen : 4 < b.data.length := by
        rcases hor with hl | hl
        · omega
        · rw [hl] at hlt
          exact Nat.lt_of_lt_of_le (by decide) (not_lt.1 hlt)
      rw [b.load_eq 4 hlen]
      by_cases hv : b.data.getD 4 0 >>> 4 ≠ RSSI_VERSION_1
      · rw [if_pos hv]
        exact iff_of_false (herror _) fun hle ↦ hv hle.2.2
      · rw [if_neg hv]
        exact iff_of_true ⟨_, rfl⟩ ⟨not_lt.1 hlt, hor, not_not.1 hv⟩

theorem RssiSynHeader.val_read_short {b : RxBuf} (h : b.data.length < 2) :
    RssiSynHeader.read.val b = .error .headerSize := by
  rw [RssiSynHeader.read, Rd.val_bind, RssiHeader.read, Rd.val_bind, Rd.val_size, if_pos h]
  rfl

/-- The constructor takes the SYNs alone, exactly where no other buffer has one of their lengths. -/
theorem RssiSynHeader.accepts_iff (b : RxBuf) :
    ((∃ y, RssiSynHeader.read.val b = .ok y) ↔ b.IsSyn) ↔ ¬b.Loose := by
  rcases Nat.lt_or_ge b.data.length 2 with hs | hs
  · have hnil : b.data.getD 1 0 = 0 := List.getD_eq_default _ _ (by omega)
    have hloose : ¬b.Loose := by
      intro hl
      refine hl.2.2 (iff_of_false (by omega) ?_)
      rw [hnil]
      decide
    refine iff_of_true (iff_of_false ?_ fun hb ↦ ?_) hloose
    · rw [RssiSynHeader.val_read_short hs]
      exact nofun
    · have hlen := hb.1
      omega
  · rw [RssiSynHeader.val_read hs]
    have hfit : b.data.length = 24 → b.data.getD 1 0 = 24 →
        (b.data.getD 1 0).toNat ≤ b.data.length := by
      intro hl hh
      rw [hl, hh]
      decide
    unfold RxBuf.IsSyn RxBuf.Loose
    tauto

/-- A segment with the SYN flag brings no data. -/
def Segment.NoSynData (s : Segment) : Prop := hasFlag s.flags FLG_SYN = true → s.payload = []

/-- No payload of a SYN has been entered into the reassembly buffer. -/
structure Receiver.NoSynData (r : Receiver) : Prop where
  waiting : ∀ off < r.unOrderedSegs.capa, ∀ s, r.unOrderedSegs.slot off = some s → s.NoSynData
  consumed : ∀ s ∈ r.consumed, s.NoSynData

variable {k k' : Core} {d : Option Segment} {r r' : Receiver}

theorem noSynData_of_parses {b : RxBuf} {verify : Bool} {seg : Segment} (hb : ¬b.Loose)
    (h : ((rxParse verify).val b).segment? = some seg) : seg.NoSynData := by
  intro hf
  rw [rxParse, Rd.val_bind, Rd.val_size] at h
  split_ifs at h with hs
  · cases h
  · have h8 : 8 ≤ b.data.length := Nat.le_of_not_lt hs
    rw [Rd.val_bind, RssiHeader.val_read h8] at h
    split_ifs at h with hlt
    · cases h
    · cases hc : (!verify || cs.val b == 0) with
      | false =>
        rw [hc] at h
        cases h
      | true =>
        rw [hc] at h
        change Rx.segment? (Rd.val (_ >>= _) b) = _ at h
        rw [Rd.val_bind, Segment.val_load h8] at h
        split_ifs at h with hsyn
        · rw [Rd.val_bind] at h
          cases hread : RssiSynHeader.read.val b with
          | error e =>
            rw [hread] at h
            cases h
          | ok y =>
            rw [hread] at h
            obtain rfl := Option.some.inj h
            obtain ⟨hl, hh, -⟩ := ((RssiSynHeader.accepts_iff b).2 hb).1 ⟨y, hread⟩
            refine List.drop_of_length_le ?_
            rw [hl, hh]
            decide
        · obtain rfl := Option.some.inj h
          exact absurd hf hsyn

theorem Receiver.NoSynData.drains (h : r.NoSynData) (hok : r.unOrderedSegs.Ok) (hd : Drains r r') :
    r'.NoSynData := by
  induction hd with
  | done r => exact ⟨h.waiting, h.consumed⟩
  | @take r r' s hs _ ih =>
    have hs₀ : r.unOrderedSegs.slot 0 = some s := hok.wf.peek_eq.symm.trans hs
    obtain ⟨b, hb, hok', hcapa, -, hslot⟩ := hok.pop_some hs₀
    have hpop : (r.take s).unOrderedSegs = b := by
      change r.unOrderedSegs.pop.2 = b
      rw [hb]
    rw [← hpop] at hok' hcapa hslot
    refine ih ⟨fun off ho x hx ↦ ?_, fun x hx ↦ ?_⟩ hok'
    · rw [hcapa] at ho
      rw [hslot off ho] at hx
      split_ifs at hx
      exact h.waiting (off + 1) (by omega) x hx
    · rcases List.mem_append.1 hx with hx | hx
      · exact h.consumed x hx
      · obtain rfl := List.mem_singleton.1 hx
        exact h.waiting 0 hok.wf.capa_pos x hs₀

theorem Act.noSynData (h : Act d k k') (hd : ∀ seg, d = some seg → seg.NoSynData) (hk : Acking k)
    (hs : k.rcv.NoSynData) : k'.rcv.NoSynData := by
  cases h with
  | store seg ro hseg _ _ hacc hst =>
    obtain ⟨ro', hs', -, -, hcapa, -, hslot⟩ := hk.ok.store hacc seg
    obtain rfl : ro' = ro := Except.ok.inj (hs'.symm.trans hst)
    refine ⟨fun off ho s hx ↦ ?_, hs.consumed⟩
    change off < ro'.capa at ho
    rw [hcapa] at ho
    change ro'.slot off = some s at hx
    rw [hslot off ho] at hx
    split_ifs at hx with he
    · obtain rfl := Option.some.inj hx
      exact hd _ hseg
    · exact hs.waiting off ho s hx
  | drain r _ hdr => exact hs.drains hk.ok hdr
  | acceptSyn n he =>
    refine ⟨fun off _ s hx ↦ ?_, nofun⟩
    exact absurd ((hk.empty he off).symm.trans hx) nofun
  | params y a _ _ hp =>
    obtain ⟨ring, prm, -, -, rfl⟩ := params_ok hp
    exact hs
  | state | rst | acked | sendACK | sendRST | sendDAT | sendNUL | resend | sendSynAck => exact hs

theorem Opens.noSynData (h : Opens k k') : k'.rcv.NoSynData := by
  cases h <;> exact ⟨fun off _ s hx ↦ absurd ((ReassembleBuf.slot_purge off).symm.trans hx) nofun, nofun⟩

/-- A step that receives no datagram with one of the two lengths of a SYN alone. -/
def TightStep (c c' : CRssi) : Prop :=
  ∃ ev : Event, ev.enabled c = true ∧ c.handle ev = .ok c' ∧ ∀ bc clk, ev = .rx bc clk → ¬bc.Loose

theorem TightStep.step {c c' : CRssi} (h : TightStep c c') : Step c c' := by
  obtain ⟨ev, he, hh, -⟩ := h
  exact ⟨ev, he, hh⟩

theorem TightStep.noSynData {c c' : CRssi} (h : TightStep c c') (hc : Reachable c)
    (hs : c.rcv.NoSynData) : c'.rcv.NoSynData := by
  obtain ⟨ev, -, hh, hev⟩ := h
  have hd : ∀ seg, c.segment? ev = some seg → seg.NoSynData := by
    intro seg hseg
    cases ev with
    | rx bc clk => exact noSynData_of_parses (hev bc clk rfl) hseg
    | advance | usrInput | usrOutput | expiry | push | pop => cases hseg
  rcases CRssi.handle_acts hh with ho | ha
  · exact ho.noSynData
  · refine (@invariant Core _ (fun k ↦ ((∃ q, Window k q) ∧ Acking k) ∧ k.rcv.NoSynData) ?_ _ _ ha
      ⟨⟨hc.window, hc.acking⟩, hs⟩).2
    rintro k k' ⟨⟨⟨q, hw⟩, hack⟩, hk⟩ hact
    exact ⟨⟨hact.window hw, hact.acking hw hack⟩, hact.noSynData hd hack hk⟩

/-- A SYN is taken for what it is, and its payload never for data, as long as no datagram comes
that has one of the two lengths of a SYN alone. -/
theorem syn_without_data (b : RxBuf) {cfg : Config} {j : Junk} {c : CRssi}
    (h : Relation.ReflTransGen TightStep (CRssi.new cfg j) c) :
    (((∃ y, RssiSynHeader.read.val b = .ok y) ↔ b.IsSyn) ↔ ¬b.Loose) ∧ c.rcv.NoSynData := by
  refine ⟨RssiSynHeader.accepts_iff b, ?_⟩
  refine (@invariant CRssi TightStep (fun c ↦ Reachable c ∧ c.rcv.NoSynData) ?_ _ _ h
    ⟨⟨cfg, j, .refl⟩, ⟨fun off _ s hx ↦ absurd ((ReassembleBuf.slot_new _ _ off).symm.trans hx) nofun,
      nofun⟩⟩).2
  intro c c' ⟨hc, hs⟩ hstep
  exact ⟨hc.step hstep.step, hstep.noSynData hc hs⟩

/-- A server that has answered a SYN. -/
theorem syn_without_data_answered : ∃ c c' : CRssi,
    (CRssi.new (smallConfig true) zeroJunk).handle (.advance ⟨0, 7⟩) = .ok c ∧
      c.handle (.rx clientSyn ⟨1, 7⟩) = .ok c' ∧
      (((∃ y, RssiSynHeader.read.val clientSyn = .ok y) ↔ clientSyn.IsSyn) ↔ ¬clientSyn.Loose) ∧
      c'.rcv.NoSynData := by
  have hrun : ((CRssi.new (smallConfig true) zeroJunk).handle (.advance ⟨0, 7⟩)).toOption.map
      (fun c ↦ ((Event.rx clientSyn ⟨1, 7⟩).enabled c,
        (c.handle (.rx clientSyn ⟨1, 7⟩)).toOption.isSome)) = some (true, true) := by rfl
  obtain ⟨c, hc, hf⟩ := Option.map_eq_some_iff.1 hrun
  obtain ⟨hen, hsome⟩ := Prod.mk.inj hf
  obtain ⟨c', hc'⟩ := Option.isSome_iff_exists.1 hsome
  have hc := toOption_eq_some.1 hc
  have hc' := toOption_eq_some.1 hc'
  have hfirst : TightStep (CRssi.new (smallConfig true) zeroJunk) c := ⟨_, rfl, hc, nofun⟩
  have hsecond : TightStep c c' := by
    refine ⟨_, hen, hc', ?_⟩
    intro bc clk h hl
    cases h
    exact hl.2.2 (by decide)
  exact ⟨c, c', hc, hc', syn_without_data clientSyn (.tail (.single hfirst) hsecond)⟩

/-- A SYN with a byte of data behind its header. -/
def synWithData : RxBuf := datagram
  [128, 24, 8, 0, 28, 2, 5, 184, 0, 100, 0, 50, 11, 184, 15, 5, 0, 3, 0, 0, 0, 0, 0, 0, 42]

/-- The SYN with data is accepted, and its payload is given to the user of an open connection. -/
theorem syn_with_data :
    ((∃ y, RssiSynHeader.read.val synWithData = .ok y) ∧ ¬synWithData.IsSyn) ∧
    ∃ c, Reachable c ∧ c.rcv.consumed.map (fun s ↦ (hasFlag s.flags FLG_SYN, s.payload)) =
      [(true, [42])] := by
  refine ⟨⟨⟨_, rfl⟩, fun h ↦ absurd h.1 (by decide)⟩, ?_⟩
  have hrun : ((CRssi.new (smallConfig true) zeroJunk).runs (serverOpens ++
      [.rx synWithData ⟨4, 7⟩])).map
      (fun c ↦ c.rcv.consumed.map fun s ↦ (hasFlag s.flags FLG_SYN, s.payload)) =
        some [(true, [42])] := by rfl
  exact reachable_of_runs hrun

end Cpsw.Rssi
