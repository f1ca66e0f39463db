import Cpsw.ProtoMod.Match

namespace Cpsw.ProtoMod

open ParamName

/-- What `build` puts on the transport and RSSI: nothing, the depacketizer (version 0), and the port
of a TDEST multiplexer of version 0 (with the depacketizer or without it) or of version 2. -/
inductive Framing
  | plain
  | depack
  | tdest (overDepack : Bool) (dest : UInt32)
  | tdest2 (dest : UInt32)
  deriving DecidableEq, Repr

/-- A stack as `CProtoStackBuilder::build` makes it. -/
structure Stack where
  udp : Bool
  destPort : UInt32
  rssi : Bool
  framing : Framing
  srp : Option (UInt32 × UInt32)
  deriving DecidableEq, Repr

def Framing.ports : Framing → List Port
  | .plain => []
  | .depack => [Port.depack]
  | .tdest overDepack dest => .tdest dest :: if overDepack then [.depack] else []
  | .tdest2 dest => [.tdest2 dest]

/-- The port of the stack, and those upstream of it. -/
def Stack.ports (s : Stack) : List Port :=
  (s.srp.elim [] fun v ↦ [.srp v.1 v.2]) ++ s.framing.ports ++ (if s.rssi then [.rssi] else []) ++
    [if s.udp then .udp s.destPort else .tcp s.destPort]

/-- An included parameter that no port provides, or an excluded one that is handled by some port, but
not counted. -/
def Missed (cmp : ProtoPortMatchParams) (s : List Port) (n : ParamName) : Prop :=
  (cmp n).doMatch = true ∧
    ((cmp n).exclude = false ∧ (∀ port ∈ s, port.provides n (cmp n) = false) ∨
      (cmp n).exclude = true ∧ (∃ port ∈ s, port.handles n = true) ∧
        ∀ port ∈ s, port.counts cmp n = false)

/-- An excluded parameter that some port counts. -/
def Miscounted (cmp : ProtoPortMatchParams) (s : List Port) (n : ParamName) : Prop :=
  (cmp n).exclude = true ∧ ∃ port ∈ s, port.counts cmp n = true

/-- The TDEST is included and there, but not counted, as version 0 of the depacketizer is not
asked for. -/
def TDestUncounted (cmp : ProtoPortMatchParams) (s : List Port) : Prop :=
  (cmp tDest).doMatch = true ∧ (cmp tDest).exclude = false ∧
    (∃ port ∈ s, port.provides tDest (cmp tDest) = true) ∧ ∀ port ∈ s, port.counts cmp tDest = false

variable {cmp : ProtoPortMatchParams} {s : List Port} {n : ParamName}

theorem countP_handles_le (s : Stack) (n : ParamName) :
    s.ports.countP (fun port ↦ port.handles n) ≤ 1 := by
  have hsrp : (s.srp.elim [] fun v ↦ [Port.srp v.1 v.2]).countP (fun port ↦ port.handles n) ≤
      if n = srpVersion ∨ n = srpVC then 1 else 0 := by
    cases s.srp <;> simp only [Option.elim, List.countP_cons, List.countP_nil] <;> cases n <;>
      simp [Port.handles, Port.offers]
  have hframing : s.framing.ports.countP (fun port ↦ port.handles n) ≤
      if n = tDest ∨ n = depackVersion ∨ n = haveDepack then 1 else 0 := by
    cases s.framing with
    | tdest overDepack dest =>
      cases overDepack <;> simp only [Framing.ports, reduceIte, Bool.false_eq_true, List.countP_cons,
        List.countP_nil] <;> cases n <;> simp [Port.handles, Port.offers]
    | _ =>
      simp only [Framing.ports, List.countP_cons, List.countP_nil]
      cases n <;> simp [Port.handles, Port.offers]
  have hrssi : (if s.rssi then [Port.rssi] else []).countP (fun port ↦ port.handles n) ≤
      if n = haveRssi then 1 else 0 := by
    cases s.rssi <;> simp only [reduceIte, Bool.false_eq_true, List.countP_cons, List.countP_nil] <;>
      cases n <;> simp [Port.handles, Port.offers]
  have htransport : [if s.udp then Port.udp s.destPort else .tcp s.destPort].countP
      (fun port ↦ port.handles n) ≤ if n = udpDestPort ∨ n = tcpDestPort then 1 else 0 := by
    cases s.udp <;> simp only [reduceIte, Bool.false_eq_true, List.countP_cons, List.countP_nil] <;>
      cases n <;> simp [Port.handles, Port.offers]
  unfold Stack.ports
  rw [List.countP_append, List.countP_append, List.countP_append]
  generalize List.countP _ (s.srp.elim [] fun v ↦ [Port.srp v.1 v.2]) = a at hsrp ⊢
  generalize List.countP _ s.framing.ports = b at hframing ⊢
  generalize List.countP _ (if s.rssi then [Port.rssi] else []) = c at hrssi ⊢
  generalize List.countP _ [if s.udp then Port.udp s.destPort else .tcp s.destPort] = d
    at htransport ⊢
  cases n <;> simp at hsrp hframing hrssi htransport <;> omega

theorem handles_of_counts {port : Port} (h : port.counts cmp n = true) : port.handles n = true := by
  unfold Port.counts Port.provides at h
  unfold Port.handles
  cases ho : port.offers n with
  | none => simp [ho] at h
  | some v => rfl

theorem handles_of_provides {port : Port} {m : MatchParam} (h : port.provides n m = true) :
    port.handles n = true := by
  unfold Port.provides at h
  unfold Port.handles
  cases ho : port.offers n with
  | none => simp [ho] at h
  | some v => rfl

/-- A requested parameter that a port provides is counted, the TDEST of a port of version 0 apart. -/
theorem counts_of_provides {port : Port} (hd : (cmp n).doMatch = true)
    (h : port.provides n (cmp n) = true) (hn : n ≠ tDest) : port.counts cmp n = true := by
  unfold Port.counts
  rw [hd, h]
  cases port with
  | tdest dest =>
    have hh := handles_of_provides h
    cases n <;> contradiction
  | _ => rfl

theorem share_eq_zero : share cmp s n = 0 ↔ (∀ port ∈ s, port.counts cmp n = false) ∧
    ((cmp n).doMatch = true → (cmp n).exclude = true → ∃ port ∈ s, port.handles n = true) := by
  unfold share count
  rw [Nat.add_eq_zero_iff, List.countP_eq_zero]
  simp

/-- What keeps the sums apart, as long as nothing is counted twice. -/
theorem lacking_iff : (∃ n, (cmp n).doMatch = true ∧ share cmp s n = 0) ↔
    (∃ n, Missed cmp s n) ∨ TDestUncounted cmp s := by
  constructor
  · rintro ⟨n, hd, hs⟩
    obtain ⟨hc, hx⟩ := share_eq_zero.1 hs
    cases he : (cmp n).exclude with
    | true => exact .inl ⟨n, hd, .inr ⟨he, hx hd he, hc⟩⟩
    | false =>
      by_cases hp : ∀ port ∈ s, port.provides n (cmp n) = false
      · exact .inl ⟨n, hd, .inl ⟨he, hp⟩⟩
      · obtain ⟨port, hport, hp⟩ : ∃ port ∈ s, port.provides n (cmp n) = true := by simpa using hp
        by_cases hn : n = tDest
        · subst hn
          exact .inr ⟨hd, he, ⟨port, hport, hp⟩, hc⟩
        · have hcount := counts_of_provides hd hp hn
          simp [hc port hport] at hcount
  · rintro (⟨n, hd, ⟨he, hp⟩ | ⟨he, hh, hc⟩⟩ | ⟨hd, he, hp, hc⟩)
    · refine ⟨n, hd, share_eq_zero.2 ⟨?_, ?_⟩⟩
      · intro port hport
        simp [Port.counts, hp port hport]
      · intro _ hx
        simp [he] at hx
    · exact ⟨n, hd, share_eq_zero.2 ⟨hc, fun _ _ ↦ hh⟩⟩
    · refine ⟨tDest, hd, share_eq_zero.2 ⟨hc, ?_⟩⟩
      intro _ hx
      simp [he] at hx

theorem satisfies_iff :
    Satisfies cmp s ↔ (¬∃ n, Missed cmp s n) ∧ ¬∃ n, Miscounted cmp s n := by
  constructor
  · intro h
    constructor
    · rintro ⟨n, hd, ⟨he, hp⟩ | ⟨he, ⟨port, hport, hh⟩, -⟩⟩
      · obtain ⟨port, hport, hq⟩ := (h n hd).1 he
        simp [hp port hport] at hq
      · simp [(h n hd).2 he port hport] at hh
    · rintro ⟨n, he, port, hport, hc⟩
      have hd : (cmp n).doMatch = true := by
        unfold Port.counts at hc
        simp only [Bool.and_eq_true] at hc
        exact hc.1.1
      have hh := handles_of_counts hc
      simp [(h n hd).2 he port hport] at hh
  · rintro ⟨hm, hc⟩ n hd
    constructor
    · intro he
      by_contra hp
      exact hm ⟨n, hd, .inl ⟨he, by simpa using hp⟩⟩
    · intro he port hport
      by_contra hh
      have hh : port.handles n = true := by simpa using hh
      by_cases hcount : ∃ port ∈ s, port.counts cmp n = true
      · exact hc ⟨n, he, hcount⟩
      · exact hm ⟨n, hd, .inr ⟨he, ⟨port, hport, hh⟩, by simpa using hcount⟩⟩

/-- In a stack as the builder makes it nothing is counted twice. -/
theorem share_le_one (cmp : ProtoPortMatchParams) (s : Stack) (n : ParamName) :
    share cmp s.ports n ≤ 1 := by
  have hle : count cmp s.ports n ≤ s.ports.countP fun port ↦ port.handles n :=
    List.countP_mono_left fun _ _ hc ↦ handles_of_counts hc
  have hone := countP_handles_le s n
  unfold share
  split_ifs with hex
  · have hnone : ∀ port ∈ s.ports, port.handles n = false := by simpa using (Bool.and_eq_true_iff.1 hex).2
    have hzero : (s.ports.countP fun port ↦ port.handles n) = 0 := by
      rw [List.countP_eq_zero]
      intro port hport
      simp [hnone port hport]
    omega
  · omega

/-- The sums agree exactly when every requested parameter has its share. -/
theorem requested_eq_found_stack (cmp : ProtoPortMatchParams) (s : Stack) :
    cmp.requestedMatches = (findMatches cmp.reset s.ports).1 ↔
      ¬∃ n, (cmp n).doMatch = true ∧ share cmp s.ports n = 0 := by
  have hextra : extra cmp s.ports = 0 := by
    apply List.sum_eq_zero_iff_forall_eq_nat.2
    intro k hk
    obtain ⟨n, -, rfl⟩ := List.mem_map.1 hk
    have := share_le_one cmp s n
    omega
  rw [requested_eq_found_iff, hextra, eq_comm, lacking, List.sum_eq_zero_iff_forall_eq_nat]
  constructor
  · rintro h ⟨n, hn⟩
    have hz := h _ (List.mem_map.2 ⟨n, n.mem_all, rfl⟩)
    rw [if_pos hn] at hz
    cases hz
  · intro h k hk
    obtain ⟨n, -, rfl⟩ := List.mem_map.1 hk
    exact if_neg fun hn ↦ h ⟨n, hn⟩

/-- A port that is asked for, without a depacketizer. -/
def noDepack : ProtoPortMatchParams
  | udpDestPort => { val := 8192, doMatch := true }
  | haveDepack => { doMatch := true, exclude := true }
  | _ => {}

/-- UDP, RSSI and a depacketizer of version 0. -/
def depackStack : Stack :=
  { udp := true, destPort := 8192, rssi := true, framing := .depack, srp := none }

end Cpsw.ProtoMod
