import Cpsw.ProtoMod.Search

namespace Cpsw.ProtoMod

open ParamName

variable {cmp : ProtoPortMatchParams} {br : Branch} {m : MatchParam} {n : ParamName} {v : UInt32}
variable {o : Option UInt32} {b : CProtoStackBuilder} {l : Link}

def Branch.val (br : Branch) (n : ParamName) : Option UInt32 := valOf br.links.ports n

theorem agrees_assign (hn : n ≠ haveRssi) (hd : n ≠ haveDepack) :
    Agrees (m.assign v) n o ↔ o = some v := by
  cases o <;> simp [Agrees, MatchParam.assign, MatchParam.setInclude, hn, hd, eq_comm]

theorem agrees_wildcard : Agrees m.wildcard n o ↔ o.isSome = true := by
  cases o <;> simp [Agrees, MatchParam.wildcard, MatchParam.setInclude]

theorem agrees_setInclude (hn : n = haveRssi ∨ n = haveDepack) :
    Agrees m.setInclude n o ↔ o.isSome = true := by
  cases o with
  | none => simp [Agrees, MatchParam.setInclude]
  | some v => rcases hn with rfl | rfl <;> simp [Agrees]

theorem agrees_setExclude (hn : n = haveRssi ∨ n = haveDepack) : Agrees m.setExclude n o := by
  cases o with
  | none => rfl
  | some v => rcases hn with rfl | rfl <;> simp [Agrees]

theorem ParamName.forall {P : ParamName → Prop} : (∀ n, P n) ↔
    P tcpDestPort ∧ P udpDestPort ∧ P srpVersion ∧ P srpVC ∧ P tDest ∧ P depackVersion ∧
      P haveRssi ∧ P haveDepack := by
  constructor
  · intro h
    simp [h]
  · rintro ⟨h₁, h₂, h₃, h₄, h₅, h₆, h₇, h₈⟩ n
    cases n <;> assumption

namespace Branch

theorem val_stack (br : Branch) (n : ParamName) : br.val n = valOf br.stack.ports n := by
  rw [val, ports_links]

theorem val_eq_some (br : Branch) : br.val n = some v ↔ ∃ l ∈ br.links, l.impl.port.offers n = some v := by
  rw [val_stack, valOf_eq_some, ← ports_links]
  simp [ProtoPort.ports]

theorem val_tDest_le (br : Branch) (h : br.val tDest = some v) : v ≤ 255 := by
  obtain ⟨l, hl, ho⟩ := br.val_eq_some.1 h
  obtain ⟨d, hd, hp | ⟨hp, -⟩⟩ := br.tdest_port l (tdest_of_handles hl (by simp [Port.handles, ho]))
  · rw [hp] at ho
    exact Option.some.inj ho ▸ hd
  · rw [hp] at ho
    exact Option.some.inj ho ▸ hd

theorem matches_iff (hv : Versioned cmp) (br : Branch) : Matches cmp br.links.ports ↔
    ∀ n, (cmp n).doMatch = true → Agrees (cmp n) n (br.val n) := by
  simp only [val_stack]
  rw [ports_links]
  exact ProtoMod.matches_iff hv fun d hd ↦ br.val_tDest_le ((br.val_stack tDest).trans hd)

theorem xprt_of_offers (h : l ∈ br.links) (hn : n = udpDestPort ∨ n = tcpDestPort)
    (ho : l.impl.port.offers n = some v) : br.xprt = l := by
  rcases mem_links.1 h with hs | hs | hs | hs | hs
  · obtain ⟨v, d, hp⟩ := br.srp_port l hs
    rcases hn with rfl | rfl <;> simp [hp, Port.offers] at ho
  · obtain ⟨d, -, hp | ⟨hp, -⟩⟩ := br.tdest_port l hs <;> rcases hn with rfl | rfl <;>
      simp [hp, Port.offers] at ho
  · rcases hn with rfl | rfl <;> simp [br.depack_port l hs, Port.offers] at ho
  · rcases hn with rfl | rfl <;> simp [br.rssi_port l hs, Port.offers] at ho
  · exact hs

theorem val_udp (br : Branch) : br.val udpDestPort = some v ↔ br.xprt.impl.port = .udp v := by
  rw [val_eq_some]
  constructor
  · rintro ⟨l, hl, ho⟩
    rw [xprt_of_offers hl (.inl rfl) ho]
    revert ho
    cases l.impl.port <;> simp [Port.offers]
  · intro h
    exact ⟨br.xprt, mem_links.2 (by simp), by simp [h, Port.offers]⟩

theorem val_tcp (br : Branch) : br.val tcpDestPort = some v ↔ br.xprt.impl.port = .tcp v := by
  rw [val_eq_some]
  constructor
  · rintro ⟨l, hl, ho⟩
    rw [xprt_of_offers hl (.inr rfl) ho]
    revert ho
    cases l.impl.port <;> simp [Port.offers]
  · intro h
    exact ⟨br.xprt, mem_links.2 (by simp), by simp [h, Port.offers]⟩

end Branch

theorem agrees_tDest_setExclude (ho : ∀ v, o = some v → v ≤ 255) :
    Agrees (MatchParam.setExclude {}) tDest o ↔ o = none := by
  cases o with
  | none => simp [Agrees, MatchParam.setExclude]
  | some v =>
    have hv : 4294967295 ≠ v := by
      intro h
      have := ho v rfl
      rw [← h] at this
      exact absurd this (by decide)
    simp [Agrees, MatchParam.setExclude, hv]

namespace CProtoStackBuilder

/-- The port of the transport that is asked for. -/
def xprtIs (b : CProtoStackBuilder) : Port :=
  if b.hasUdp then .udp b.getUdpPort else .tcp b.getTcpPort

/-- The stack has what is asked for up to the TDEST; it may have more. -/
structure Fits (b : CProtoStackBuilder) (br : Branch) : Prop where
  xprt : br.xprt.impl.port = b.xprtIs
  rssi : b.hasRssiAndUdp = true → (br.val haveRssi).isSome = true
  depack : b.hasDepack = true → (br.val haveDepack).isSome = true
  version : b.hasDepack = true ∨ b.hasTDestMux = true →
    br.val depackVersion = some b.getDepackVersion.toUnsigned

def tDestAsked (b : CProtoStackBuilder) : Option UInt32 :=
  if b.hasTDestMux then some b.getTDestMuxTDEST else none

variable (b)

theorem stackParams_apply (cmp : ProtoPortMatchParams) (n : ParamName) : b.stackParams cmp n =
    match n with
    | haveRssi => if b.hasRssiAndUdp then (cmp haveRssi).setInclude else (cmp haveRssi).setExclude
    | haveDepack => if b.hasDepack then (cmp haveDepack).setInclude else (cmp haveDepack).setExclude
    | depackVersion => if b.hasDepack || b.hasTDestMux then
        (cmp depackVersion).assign b.getDepackVersion.toUnsigned else cmp depackVersion
    | tDest => if b.hasTDestMux then (cmp tDest).assign b.getTDestMuxTDEST else (cmp tDest).setExclude
    | n => cmp n := by
  unfold stackParams ProtoPortMatchParams.modify
  cases n <;> cases b.hasRssiAndUdp <;> cases b.hasDepack <;> cases b.hasTDestMux <;>
    simp [Function.update, MatchParam.assign, MatchParam.setInclude]

theorem xprtParams_apply (n : ParamName) : b.xprtParams n =
    match n with
    | udpDestPort => if b.hasUdp then MatchParam.assign b.getUdpPort {} else {}
    | tcpDestPort => if b.hasUdp then {} else MatchParam.assign b.getTcpPort {}
    | _ => {} := by
  unfold xprtParams ProtoPortMatchParams.modify
  cases n <;> cases b.hasUdp <;> simp [Function.update]

variable {b}

theorem doMatch_assign : (m.assign v).doMatch = true := rfl

theorem doMatch_wildcard : m.wildcard.doMatch = true := rfl

theorem doMatch_setInclude : m.setInclude.doMatch = true := rfl

theorem doMatch_setExclude : m.setExclude.doMatch = true := rfl

theorem matches_xprt (br : Branch) : Matches b.xprtParams br.links.ports ↔
    br.xprt.impl.port = b.xprtIs := by
  rw [br.matches_iff (by simp [Versioned, xprtParams_apply]), ParamName.forall]
  simp only [xprtParams_apply, xprtIs]
  cases b.hasUdp with
  | true => simpa [agrees_assign, doMatch_assign] using br.val_udp
  | false => simpa [agrees_assign, doMatch_assign] using br.val_tcp

theorem versioned_stackParams (b : CProtoStackBuilder) : Versioned (b.stackParams b.xprtParams) := by
  unfold Versioned
  simp only [stackParams_apply, xprtParams_apply]
  cases b.hasTDestMux <;> simp [MatchParam.assign, MatchParam.setInclude, MatchParam.setExclude]

theorem fits_iff (br : Branch) : b.Fits br ↔ br.xprt.impl.port = b.xprtIs ∧
    ((b.hasDepack || b.hasTDestMux) = true →
      br.val depackVersion = some b.getDepackVersion.toUnsigned) ∧
    (b.hasRssiAndUdp = true → (br.val haveRssi).isSome = true) ∧
    (b.hasDepack = true → (br.val haveDepack).isSome = true) := by
  rw [Bool.or_eq_true]
  exact ⟨fun ⟨h₁, h₂, h₃, h₄⟩ ↦ ⟨h₁, h₄, h₂, h₃⟩, fun ⟨h₁, h₄, h₂, h₃⟩ ↦ ⟨h₁, h₂, h₃, h₄⟩⟩

/-- What the second search asks of each parameter but the TDEST. -/
theorem asks_iff (br : Branch) : (∀ n, n ≠ tDest → (b.stackParams b.xprtParams n).doMatch = true →
    Agrees (b.stackParams b.xprtParams n) n (br.val n)) ↔ b.Fits br := by
  rw [fits_iff, ← matches_xprt, br.matches_iff (by simp [Versioned, xprtParams_apply]),
    ParamName.forall, ParamName.forall]
  simp only [stackParams_apply, xprtParams_apply]
  cases b.hasUdp <;> cases b.hasRssiAndUdp <;> cases b.hasDepack <;> cases b.hasTDestMux <;>
    simp [agrees_assign, agrees_setInclude, agrees_setExclude, doMatch_assign, doMatch_setInclude,
      doMatch_setExclude]

theorem matches_stack (br : Branch) : Matches (b.stackParams b.xprtParams) br.links.ports ↔
    b.Fits br ∧ br.val tDest = b.tDestAsked := by
  rw [br.matches_iff (versioned_stackParams b), ← asks_iff]
  have ht : ((b.stackParams b.xprtParams tDest).doMatch = true →
      Agrees (b.stackParams b.xprtParams tDest) tDest (br.val tDest)) ↔
        br.val tDest = b.tDestAsked := by
    simp only [stackParams_apply, xprtParams_apply, tDestAsked]
    cases b.hasTDestMux with
    | true => simp [agrees_assign, doMatch_assign]
    | false => simp [agrees_tDest_setExclude fun v ↦ br.val_tDest_le, doMatch_setExclude]
  rw [← ht]
  constructor
  · exact fun h ↦ ⟨fun n _ ↦ h n, h tDest⟩
  · rintro ⟨h, ht⟩ n
    by_cases hn : n = tDest
    · exact hn ▸ ht
    · exact h n hn

theorem matches_anyTDest (br : Branch) (ht : b.hasTDestMux = true) :
    Matches ((b.stackParams b.xprtParams).modify tDest (·.wildcard)) br.links.ports ↔
      b.Fits br ∧ (br.val tDest).isSome = true := by
  have hv : Versioned ((b.stackParams b.xprtParams).modify tDest (·.wildcard)) := by
    intro _
    simp [ProtoPortMatchParams.modify, stackParams_apply, ht, MatchParam.wildcard,
      MatchParam.setInclude, MatchParam.assign]
  rw [br.matches_iff hv, ← asks_iff]
  constructor
  · intro h
    refine ⟨fun n hn ↦ ?_, ?_⟩
    · simpa [ProtoPortMatchParams.modify, hn] using h n
    · simpa [ProtoPortMatchParams.modify, agrees_wildcard, doMatch_wildcard] using h tDest
  · rintro ⟨h, ht⟩ n
    by_cases hn : n = tDest
    · subst hn
      simpa [ProtoPortMatchParams.modify, agrees_wildcard] using fun _ ↦ ht
    · simpa [ProtoPortMatchParams.modify, hn] using h n hn

/-- Asking for one more parameter. -/
theorem matches_modify {f : MatchParam → MatchParam} (hv : Versioned cmp) (br : Branch)
    (hn : n ≠ tDest ∧ n ≠ depackVersion) (hm : (cmp n).doMatch = false)
    (hf : (f (cmp n)).doMatch = true) : Versioned (cmp.modify n f) ∧
      (Matches (cmp.modify n f) br.links.ports ↔
        Matches cmp br.links.ports ∧ Agrees (f (cmp n)) n (br.val n)) := by
  have hv' : Versioned (cmp.modify n f) := by
    unfold Versioned ProtoPortMatchParams.modify
    rwa [Function.update_of_ne hn.1.symm, Function.update_of_ne hn.2.symm]
  refine ⟨hv', ?_⟩
  rw [br.matches_iff hv', br.matches_iff hv]
  constructor
  · intro h
    refine ⟨fun k hk ↦ ?_, ?_⟩
    · have hne : k ≠ n := by
        rintro rfl
        simp [hm] at hk
      simpa [ProtoPortMatchParams.modify, hne, hk] using h k
    · simpa [ProtoPortMatchParams.modify, hf] using h n
  · rintro ⟨h, ha⟩ k hk
    by_cases hne : k = n
    · subst hne
      simpa [ProtoPortMatchParams.modify] using ha
    · rw [ProtoPortMatchParams.modify, Function.update_of_ne hne] at hk ⊢
      exact h k hk

theorem matches_srpVersion (br : Branch) :
    Versioned ((b.stackParams b.xprtParams).modify srpVersion
      (·.assign (srpUnsigned b.getSRPVersion))) ∧
    (Matches ((b.stackParams b.xprtParams).modify srpVersion
        (·.assign (srpUnsigned b.getSRPVersion))) br.links.ports ↔
      (b.Fits br ∧ br.val tDest = b.tDestAsked) ∧
        br.val srpVersion = some (srpUnsigned b.getSRPVersion)) := by
  have h := matches_modify (versioned_stackParams b) br (n := srpVersion)
    (f := (·.assign (srpUnsigned b.getSRPVersion))) (by decide) (by simp [stackParams_apply, xprtParams_apply]) rfl
  rwa [matches_stack, agrees_assign (by decide) (by decide)] at h

theorem matches_srp (br : Branch) : Matches b.srpParams br.links.ports ↔
    (b.Fits br ∧ br.val tDest = b.tDestAsked) ∧
      br.val srpVersion = some (srpUnsigned b.getSRPVersion) ∧
        br.val srpVC = some b.getSRPMuxVirtualChannel := by
  have h := (matches_modify (matches_srpVersion (b := b) br).1 br (n := srpVC)
    (f := (·.assign b.getSRPMuxVirtualChannel)) (by decide)
      (by simp [ProtoPortMatchParams.modify, stackParams_apply, xprtParams_apply]) rfl).2
  rwa [(matches_srpVersion br).2, agrees_assign (by decide) (by decide), and_assoc] at h

theorem matches_anySRP (br : Branch) :
    Matches (b.srpParams.modify srpVC (·.wildcard)) br.links.ports ↔
      (b.Fits br ∧ br.val tDest = b.tDestAsked) ∧
        br.val srpVersion = some (srpUnsigned b.getSRPVersion) ∧ (br.val srpVC).isSome = true := by
  have h := (matches_modify (matches_srpVersion (b := b) br).1 br (n := srpVC)
    (f := fun m ↦ (m.assign b.getSRPMuxVirtualChannel).wildcard) (by decide)
      (by simp [ProtoPortMatchParams.modify, stackParams_apply, xprtParams_apply]) rfl).2
  rw [(matches_srpVersion br).2, agrees_wildcard, and_assoc] at h
  rw [← h]
  apply iff_of_eq
  congr 1
  simp [srpParams, ProtoPortMatchParams.modify]

end CProtoStackBuilder

end Cpsw.ProtoMod
