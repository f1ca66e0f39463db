import Cpsw.ProtoMod.Build
import Cpsw.ProtoMod.Builder

namespace Cpsw.ProtoMod

open ParamName

/-- The number of matches that was asked for is found. -/
def Matches (cmp : ProtoPortMatchParams) (s : List Port) : Prop :=
  cmp.requestedMatches = (findMatches cmp.reset s).1

instance (cmp : ProtoPortMatchParams) (s : List Port) : Decidable (Matches cmp s) :=
  inferInstanceAs (Decidable (_ = _))

/-- The value that the ports have for a parameter. -/
def valOf (s : List Port) (n : ParamName) : Option UInt32 := s.findSome? fun port ↦ port.offers n

/-- A port as `build` makes it: the transport, and the modules that may be downstream of it. -/
structure Branch where
  xprt : Link
  rssi : Option Link
  depack : Option Link
  tdest : Option Link
  srp : Option Link
  xprt_port : (∃ d, xprt.impl.port = .udp d) ∨ ∃ d, xprt.impl.port = .tcp d
  rssi_port : ∀ l ∈ rssi, l.impl.port = .rssi
  depack_port : ∀ l ∈ depack, l.impl.port = .depack
  tdest_port : ∀ l ∈ tdest, ∃ d ≤ 255, l.impl.port = .tdest d ∨ l.impl.port = .tdest2 d ∧ depack = none
  srp_port : ∀ l ∈ srp, ∃ v d, l.impl.port = .srp v d

namespace Branch

/-- Upstream of the multiplexers. -/
def base (br : Branch) : ProtoPort := br.depack.toList ++ br.rssi.toList ++ [br.xprt]

def links (br : Branch) : ProtoPort := br.srp.toList ++ br.tdest.toList ++ br.base

def framing (br : Branch) : Framing :=
  match br.tdest.map fun l ↦ l.impl.port with
  | some (Port.tdest d) => .tdest br.depack.isSome d
  | some (Port.tdest2 d) => .tdest2 d
  | _ => if br.depack.isSome then .depack else .plain

def stack (br : Branch) : Stack where
  udp := match br.xprt.impl.port with
    | .udp _ => true
    | _ => false
  destPort := match br.xprt.impl.port with
    | .udp d => d
    | .tcp d => d
    | _ => 0
  rssi := br.rssi.isSome
  framing := br.framing
  srp := br.srp.bind fun l ↦ match l.impl.port with
    | .srp v d => some (v, d)
    | _ => none

variable {cmp cmp' : ProtoPortMatchParams} {br : Branch} {n : ParamName} {v : UInt32}

theorem ports_links (br : Branch) : br.links.ports = br.stack.ports := by
  have hx : [br.xprt.impl.port] =
      [if br.stack.udp then .udp br.stack.destPort else .tcp br.stack.destPort] := by
    obtain ⟨d, hd⟩ | ⟨d, hd⟩ := br.xprt_port <;> simp [stack, hd]
  have hr : (br.rssi.toList.map fun l ↦ l.impl.port) = if br.stack.rssi then [Port.rssi] else [] := by
    cases h : br.rssi with
    | none => simp [stack, h]
    | some l => simp [stack, h, br.rssi_port l h]
  have hd : (br.depack.toList.map fun l ↦ l.impl.port) =
      if br.depack.isSome then [Port.depack] else [] := by
    cases h : br.depack with
    | none => simp
    | some l => simp [br.depack_port l h]
  have hf : (br.tdest.toList.map fun l ↦ l.impl.port) ++
      (br.depack.toList.map fun l ↦ l.impl.port) = br.stack.framing.ports := by
    rw [hd]
    cases h : br.tdest with
    | none => cases hs : br.depack.isSome <;> simp [stack, framing, h, hs, Framing.ports]
    | some l =>
      obtain ⟨d, -, hl | ⟨hl, hn⟩⟩ := br.tdest_port l h
      · simp [stack, framing, h, hl, Framing.ports]
      · simp [stack, framing, h, hl, hn, Framing.ports]
  have hs : (br.srp.toList.map fun l ↦ l.impl.port) = br.stack.srp.elim [] fun v ↦ [.srp v.1 v.2] := by
    cases h : br.srp with
    | none => simp [stack, h]
    | some l =>
      obtain ⟨v, d, hl⟩ := br.srp_port l h
      simp [stack, h, hl]
  unfold links base ProtoPort.ports Stack.ports
  rw [← hs, ← hf, ← hr, ← hx]
  simp

end Branch

variable {cmp cmp' : ProtoPortMatchParams} {s : Stack} {n : ParamName} {v : UInt32}

/-- A stack as the builder makes it has at most one value for a parameter. -/
theorem filterMap_offers (s : Stack) (n : ParamName) :
    (s.ports.filterMap fun port ↦ port.offers n) = (valOf s.ports n).toList := by
  have hle : (s.ports.filterMap fun port ↦ port.offers n).length ≤ 1 := by
    rw [List.length_filterMap_eq_countP]
    exact countP_handles_le s n
  rw [valOf, ← List.head?_filterMap]
  generalize s.ports.filterMap (fun port ↦ port.offers n) = vs at hle
  cases vs with
  | nil => rfl
  | cons v vs =>
    obtain rfl : vs = [] := by simpa using hle
    rfl

theorem valOf_eq_some : valOf s.ports n = some v ↔ ∃ port ∈ s.ports, port.offers n = some v := by
  rw [← List.mem_filterMap, filterMap_offers]
  simp

theorem valOf_eq_none : valOf s.ports n = none ↔ ∀ port ∈ s.ports, port.handles n = false := by
  simp [valOf, Port.handles]

theorem framing_of_tdest {d : UInt32} (h : Port.tdest d ∈ s.ports) : ∃ o, s.framing = .tdest o d := by
  unfold Stack.ports at h
  cases hr : s.rssi <;> cases hu : s.udp <;> cases hs : s.srp <;> cases hf : s.framing with
  | tdest o d' =>
    cases o <;> simp [hr, hu, hs, hf, Framing.ports] at h <;> exact ⟨_, by rw [h]⟩
  | _ => simp [hr, hu, hs, hf, Framing.ports] at h

theorem framing_of_tdest2 {d : UInt32} (h : Port.tdest2 d ∈ s.ports) : s.framing = .tdest2 d := by
  unfold Stack.ports at h
  cases hr : s.rssi <;> cases hu : s.udp <;> cases hs : s.srp <;> cases hf : s.framing with
  | tdest o d' => cases o <;> simp [hr, hu, hs, hf, Framing.ports] at h
  | tdest2 d' =>
    simp [hr, hu, hs, hf, Framing.ports] at h
    rw [h]
  | _ => simp [hr, hu, hs, hf, Framing.ports] at h

/-- The value is what is asked for: the excluded parameters should have none. -/
def Agrees (m : MatchParam) (n : ParamName) : Option UInt32 → Prop
  | none => m.exclude = true
  | some v => n = haveRssi ∨ n = haveDepack ∨ m.any = true ∨ m.val = v

/-- A TDEST is asked for together with a version of the depacketizer, and an excluded one is not a
TDEST. -/
def Versioned (cmp : ProtoPortMatchParams) : Prop :=
  (cmp tDest).doMatch = true →
    (cmp tDest).exclude = false ∧ (cmp depackVersion).doMatch = true ∧
        (cmp depackVersion).exclude = false ∨
      (cmp tDest).any = false ∧ (cmp tDest).val = 0xffffffff

theorem depackVersion_eq_V0 {d : UInt32} (hver : Versioned cmp)
    (h : ∀ n, (cmp n).doMatch = true → Agrees (cmp n) n (valOf s.ports n))
    (ho : valOf s.ports tDest = some d) (hd : d ≤ 255) (hn : (cmp tDest).doMatch = true)
    (hport : Port.tdest d ∈ s.ports) : (cmp depackVersion).eq DEPACKETIZER_V0 = true := by
  rcases hver hn with ⟨-, hm, hx⟩ | ⟨hany, hval⟩
  · have ha := h depackVersion hm
    cases hw : valOf s.ports depackVersion with
    | none =>
      rw [hw] at ha
      simp [Agrees, hx] at ha
    | some w =>
      have hw0 : w = DEPACKETIZER_V0 := by
        obtain ⟨port, hport', hw⟩ := valOf_eq_some.1 hw
        cases port with
        | depack => exact (Option.some.inj hw).symm
        | tdest2 d' =>
          obtain ⟨o, ho⟩ := framing_of_tdest hport
          rw [framing_of_tdest2 hport'] at ho
          cases ho
        | _ => simp [Port.offers] at hw
      rw [hw, hw0] at ha
      simpa [Agrees, MatchParam.eq, hm] using ha
  · have ha := h tDest hn
    rw [ho] at ha
    simp only [Agrees, hany, hval, reduceCtorEq, false_or, Bool.false_eq_true] at ha
    subst ha
    exact absurd hd (by decide)

/-- A stack has the number of matches that is asked for when each parameter agrees. -/
theorem matches_iff (hver : Versioned cmp) (hd : ∀ d, valOf s.ports tDest = some d → d ≤ 255) :
    Matches cmp s.ports ↔ ∀ n, (cmp n).doMatch = true → Agrees (cmp n) n (valOf s.ports n) := by
  unfold Matches
  rw [requested_eq_found_stack]
  constructor
  · intro h n hn
    have hs : share cmp s.ports n ≠ 0 := fun hs ↦ h ⟨n, hn, hs⟩
    cases ho : valOf s.ports n with
    | none =>
      by_contra hx
      apply hs
      apply share_eq_zero.2
      have hno := valOf_eq_none.1 ho
      constructor
      · intro port hport
        by_contra hc
        have := handles_of_counts (Bool.eq_true_of_not_eq_false hc)
        simp [hno port hport] at this
      · intro _ he
        exact absurd he hx
    | some v =>
      obtain ⟨port, hport, hv⟩ := valOf_eq_some.1 ho
      have hc : ∃ port ∈ s.ports, port.counts cmp n = true := by
        by_contra hc
        apply hs
        apply share_eq_zero.2
        refine ⟨by simpa using hc, fun _ _ ↦ ⟨port, hport, by simp [Port.handles, hv]⟩⟩
      obtain ⟨port', hport', hc⟩ := hc
      obtain ⟨v', hv'⟩ := Option.isSome_iff_exists.1 (handles_of_counts hc)
      have hsame := valOf_eq_some.2 ⟨port', hport', hv'⟩
      rw [ho] at hsame
      cases hsame
      unfold Port.counts Port.provides at hc
      simp only [hv', Bool.and_eq_true, Option.any_some] at hc
      simpa [Agrees, or_assoc] using hc.1.2
  · rintro h ⟨n, hn, hs⟩
    obtain ⟨hc, hx⟩ := share_eq_zero.1 hs
    have ha := h n hn
    cases ho : valOf s.ports n with
    | none =>
      rw [ho] at ha
      obtain ⟨port, hport, hh⟩ := hx hn ha
      simp [valOf_eq_none.1 ho port hport] at hh
    | some v =>
      rw [ho] at ha
      obtain ⟨port, hport, hv⟩ := valOf_eq_some.1 ho
      have hp : port.provides n (cmp n) = true := by
        simpa [Port.provides, hv, Agrees, or_assoc] using ha
      by_cases hne : n = tDest
      · subst hne
        have hcount : port.counts cmp tDest = true := by
          unfold Port.counts
          rw [hn, hp]
          cases port with
          | tdest d =>
            obtain rfl : d = v := by simpa [Port.offers] using hv
            simpa using depackVersion_eq_V0 hver h ho (hd d ho) hn hport
          | _ => rfl
        simp [hc port hport] at hcount
      · have := counts_of_provides hn hp hne
        simp [hc port hport] at this

end Cpsw.ProtoMod
