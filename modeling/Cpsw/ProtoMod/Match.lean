import Mathlib.Algebra.BigOperators.Group.List.Basic
import Mathlib.Algebra.Order.BigOperators.Group.List
import Mathlib.Algebra.Ring.Nat
import Mathlib.Logic.Function.Basic
import Mathlib.Tactic.SplitIfs

namespace Cpsw.ProtoMod

def DEPACKETIZER_V0 : UInt32 := 0

def DEPACKETIZER_V2 : UInt32 := 2

/-- The ports of a protocol stack, with the parameters that a request is compared to. -/
inductive Port
  | udp (destPort : UInt32)
  | tcp (destPort : UInt32)
  | rssi
  | depack
  | tdest (dest : UInt32)
  | tdest2 (dest : UInt32)
  | srp (protoVersion dest : UInt32)
  deriving Repr

/-- The members of `ProtoPortMatchParams`. -/
inductive ParamName
  | tcpDestPort
  | udpDestPort
  | srpVersion
  | srpVC
  | tDest
  | depackVersion
  | haveRssi
  | haveDepack
  deriving DecidableEq, Repr

open ParamName

/-- What a port handles, and the value that it has for it. -/
def Port.offers : Port → ParamName → Option UInt32
  | .udp destPort, udpDestPort => some destPort
  | .tcp destPort, tcpDestPort => some destPort
  | .rssi, haveRssi => some 1
  | .depack, haveDepack => some 1
  | .depack, depackVersion => some DEPACKETIZER_V0
  | .tdest dest, tDest => some dest
  | .tdest2 dest, tDest => some dest
  | .tdest2 _, depackVersion => some DEPACKETIZER_V2
  | .tdest2 _, haveDepack => some 1
  | .srp protoVersion _, srpVersion => some protoVersion
  | .srp _ dest, srpVC => some dest
  | _, _ => none

deriving instance DecidableEq for Port

def ParamName.all : List ParamName :=
  [tcpDestPort, udpDestPort, haveDepack, srpVersion, depackVersion, srpVC, haveRssi, tDest]

theorem ParamName.mem_all (n : ParamName) : n ∈ all := by cases n <;> decide

/-- `MatchParam` and `MatchParamUnsigned`; `haveRssi` and `haveDepack` make no use of `val` and
`any`. -/
structure MatchParam where
  val : UInt32 := 0xffffffff
  any : Bool := false
  doMatch : Bool := false
  exclude : Bool := false
  matchedBy : Option Port := none
  handledBy : Option Port := none
  deriving DecidableEq, Repr

namespace MatchParam

def reset (m : MatchParam) : MatchParam := { m with matchedBy := none, handledBy := none }

def excluded (m : MatchParam) : ℕ := if m.doMatch && m.exclude && m.handledBy.isNone then 1 else 0

/-- `MatchParamUnsigned::operator==` -/
def eq (m : MatchParam) (val : UInt32) : Bool := m.doMatch && (m.any || m.val == val)

end MatchParam

abbrev ProtoPortMatchParams := ParamName → MatchParam

namespace ProtoPortMatchParams

def reset (cmp : ProtoPortMatchParams) : ProtoPortMatchParams := fun n ↦ (cmp n).reset

def requestedMatches (cmp : ProtoPortMatchParams) : ℕ :=
  (all.map fun n ↦ if (cmp n).doMatch then 1 else 0).sum

def excluded (cmp : ProtoPortMatchParams) : ℕ := (all.map fun n ↦ (cmp n).excluded).sum

def handled (n : ParamName) (port : Port) (cmp : ProtoPortMatchParams) : ProtoPortMatchParams :=
  Function.update cmp n { cmp n with handledBy := some port }

def matched (n : ParamName) (port : Port) (cmp : ProtoPortMatchParams) : ProtoPortMatchParams :=
  Function.update cmp n { cmp n with matchedBy := some port }

/-- A parameter that is handled whatever is requested: `CProtoModUdp::iMatch` and others. -/
def compare (n : ParamName) (val : UInt32) (port : Port) (cmp : ProtoPortMatchParams) :
    ℕ × ProtoPortMatchParams :=
  let cmp := cmp.handled n port
  if (cmp n).eq val then (1, cmp.matched n port) else (0, cmp)

/-- A parameter that is handled when it is requested: `CProtoModDepack::iMatch` and others. -/
def compareRequested (n : ParamName) (val : UInt32) (port : Port) (cmp : ProtoPortMatchParams) :
    ℕ × ProtoPortMatchParams :=
  if (cmp n).doMatch then cmp.compare n val port else (0, cmp)

/-- `haveDepack_`, which a depacketizer matches when it is requested. -/
def haveDepackRequested (port : Port) (cmp : ProtoPortMatchParams) : ℕ × ProtoPortMatchParams :=
  if (cmp haveDepack).doMatch then (1, (cmp.handled haveDepack port).matched haveDepack port)
  else (0, cmp)

end ProtoPortMatchParams

/-- The `iMatch` of each class of ports. -/
def Port.iMatch (port : Port) (cmp : ProtoPortMatchParams) : ℕ × ProtoPortMatchParams :=
  match port with
  | .udp destPort => cmp.compare udpDestPort destPort port
  | .tcp destPort => cmp.compare tcpDestPort destPort port
  | .rssi =>
    let cmp := cmp.handled haveRssi port
    if (cmp haveRssi).doMatch then (1, cmp.matched haveRssi port) else (0, cmp)
  | .depack =>
    let (rval, cmp) := cmp.haveDepackRequested port
    let (r, cmp) := cmp.compareRequested depackVersion DEPACKETIZER_V0 port
    (rval + r, cmp)
  | .tdest dest =>
    let cmp := cmp.handled tDest port
    if (cmp tDest).eq dest && (cmp depackVersion).eq DEPACKETIZER_V0 then
      (1, cmp.matched tDest port)
    else (0, cmp)
  | .tdest2 dest =>
    let (rval, cmp) := cmp.compareRequested tDest dest port
    let (r, cmp) := cmp.compareRequested depackVersion DEPACKETIZER_V2 port
    let (h, cmp) := cmp.haveDepackRequested port
    (rval + r + h, cmp)
  | .srp protoVersion dest =>
    let (rval, cmp) := cmp.compare srpVersion protoVersion port
    let (r, cmp) := cmp.compare srpVC dest port
    (rval + r, cmp)

/-- `IPortImpl::match`, over the ports from this one upstream. -/
def matchUp : List Port → ProtoPortMatchParams → ℕ × ProtoPortMatchParams
  | [], cmp => (0, cmp)
  | port :: up, cmp =>
    let (rval, cmp) := port.iMatch cmp
    let (r, cmp) := matchUp up cmp
    (rval + r, cmp)

def findMatches (cmp : ProtoPortMatchParams) (s : List Port) : ℕ × ProtoPortMatchParams :=
  let (rval, cmp) := matchUp s cmp
  (rval + cmp.excluded, cmp)

/-- The loop of `findProtoPort`, which resets the parameters before each stack. -/
def findFrom (requestedMatches : ℕ) :
    List (List Port) → ProtoPortMatchParams → Option (List Port) × ProtoPortMatchParams
  | [], cmp => (none, cmp)
  | s :: existingPorts, cmp =>
    let (found, cmp) := findMatches cmp.reset s
    if requestedMatches = found then (some s, cmp) else findFrom requestedMatches existingPorts cmp

def findProtoPort (cmp : ProtoPortMatchParams) (existingPorts : List (List Port)) :
    Option (List Port) × ProtoPortMatchParams :=
  findFrom cmp.requestedMatches existingPorts cmp

def Port.handles (port : Port) (n : ParamName) : Bool := (port.offers n).isSome

/-- The port has the value that is asked for, or whatever it has will do. -/
def Port.provides (port : Port) (n : ParamName) (m : MatchParam) : Bool :=
  (port.offers n).any fun val ↦ n = haveRssi || n = haveDepack || m.any || m.val == val

/-- The stack provides every included parameter and handles no excluded one. -/
def Satisfies (cmp : ProtoPortMatchParams) (s : List Port) : Prop :=
  ∀ n, (cmp n).doMatch = true →
    ((cmp n).exclude = false → ∃ port ∈ s, port.provides n (cmp n) = true) ∧
    ((cmp n).exclude = true → ∀ port ∈ s, port.handles n = false)

/-- `iMatch` counts the parameter. -/
def Port.counts (port : Port) (cmp : ProtoPortMatchParams) (n : ParamName) : Bool :=
  (cmp n).doMatch && port.provides n (cmp n) &&
    match port with
    | .tdest _ => (cmp depackVersion).eq DEPACKETIZER_V0
    | _ => true

variable {cmp cmp' : ProtoPortMatchParams} {port : Port} {s : List Port} {n : ParamName} {v : UInt32}

/-- What matching does: `count` for each parameter, and which ones are handled by then. Only the
results change in the parameters. -/
structure Accounts (cmp : ProtoPortMatchParams) (res : ℕ × ProtoPortMatchParams)
    (count : ParamName → ℕ) (hand : ParamName → Bool) : Prop where
  reset : res.2.reset = cmp.reset
  rval : res.1 = (all.map count).sum
  handled : ∀ n, (cmp n).doMatch = true →
    (res.2 n).handledBy.isSome = ((cmp n).handledBy.isSome || hand n)

variable {cmp cmp' : ProtoPortMatchParams} {port : Port} {s : List Port} {n : ParamName} {v : UInt32}
variable {res res' : ℕ × ProtoPortMatchParams} {f f' : ParamName → ℕ}
variable {hand hand' : ParamName → Bool}

theorem doMatch_of_reset (h : cmp'.reset = cmp.reset) (n : ParamName) :
    (cmp' n).doMatch = (cmp n).doMatch := by
  change (cmp'.reset n).doMatch = (cmp.reset n).doMatch
  rw [h]

theorem exclude_of_reset (h : cmp'.reset = cmp.reset) (n : ParamName) :
    (cmp' n).exclude = (cmp n).exclude := by
  change (cmp'.reset n).exclude = (cmp.reset n).exclude
  rw [h]

theorem eq_of_reset (h : cmp'.reset = cmp.reset) (n : ParamName) (v : UInt32) :
    (cmp' n).eq v = (cmp n).eq v := by
  change (cmp'.reset n).eq v = (cmp.reset n).eq v
  rw [h]

theorem counts_of_reset (h : cmp'.reset = cmp.reset) (port : Port) (n : ParamName) :
    port.counts cmp' n = port.counts cmp n := by
  change port.counts cmp'.reset n = port.counts cmp.reset n
  rw [h]

theorem requestedMatches_of_reset (h : cmp'.reset = cmp.reset) :
    cmp'.requestedMatches = cmp.requestedMatches := by
  change cmp'.reset.requestedMatches = cmp.reset.requestedMatches
  rw [h]

theorem Accounts.of_eq (h : Accounts cmp res f hand) (hc : ∀ n, f' n = f n)
    (hh : ∀ n, hand' n = hand n) : Accounts cmp res f' hand' := by
  obtain rfl : f' = f := funext hc
  obtain rfl : hand' = hand := funext hh
  exact h

/-- One after the other. -/
theorem Accounts.add (h : Accounts cmp res f hand) (h' : Accounts res.2 res' f' hand') :
    Accounts cmp (res.1 + res'.1, res'.2) (fun n ↦ f n + f' n)
      (fun n ↦ hand n || hand' n) := by
  refine ⟨h'.reset.trans h.reset, ?_, ?_⟩
  · rw [h.rval, h'.rval, List.sum_map_add]
  · intro n hn
    rw [h'.handled n ((doMatch_of_reset h.reset n).trans hn), h.handled n hn, Bool.or_assoc]

theorem Accounts.zero : Accounts cmp (0, cmp) (fun _ ↦ 0) (fun _ ↦ false) := by
  refine ⟨rfl, by simp, ?_⟩
  intro n _
  simp

theorem Accounts.nothing (h : (cmp n).doMatch = false) :
    Accounts cmp (0, cmp) (fun _ ↦ 0) (fun m ↦ m = n) := by
  refine ⟨rfl, by simp, ?_⟩
  intro m hm
  have hne : m ≠ n := by
    rintro rfl
    simp [h] at hm
  simp [hne]

/-- One parameter is handled, and counted or not. -/
theorem Accounts.one (n : ParamName) (port : Port) (b : Bool) :
    Accounts cmp (if b then (1, (cmp.handled n port).matched n port) else (0, cmp.handled n port))
      (fun m ↦ if m = n ∧ b = true then 1 else 0) (fun m ↦ m = n) := by
  have hsum : (all.map fun m ↦ if m = n then 1 else 0).sum = 1 := by cases n <;> rfl
  have hres (m : ParamName) : ((cmp.handled n port) m).handledBy.isSome =
      ((cmp m).handledBy.isSome || decide (m = n)) := by
    by_cases hm : m = n
    · subst hm
      simp [ProtoPortMatchParams.handled]
    · simp [ProtoPortMatchParams.handled, hm]
  have hreset : (cmp.handled n port).reset = cmp.reset := by
    funext m
    by_cases hm : m = n
    · subst hm
      simp [ProtoPortMatchParams.handled, ProtoPortMatchParams.reset, MatchParam.reset]
    · simp [ProtoPortMatchParams.handled, ProtoPortMatchParams.reset, hm]
  cases b with
  | false => exact ⟨hreset, by simp, fun m _ ↦ hres m⟩
  | true =>
    refine ⟨?_, by simpa using hsum.symm, ?_⟩
    · rw [← hreset]
      funext m
      by_cases hm : m = n
      · subst hm
        simp [ProtoPortMatchParams.matched, ProtoPortMatchParams.reset, MatchParam.reset]
      · simp [ProtoPortMatchParams.matched, ProtoPortMatchParams.reset, hm]
    · intro m _
      rw [← hres m]
      by_cases hm : m = n
      · subst hm
        simp [ProtoPortMatchParams.matched]
      · simp [ProtoPortMatchParams.matched, hm]

theorem accounts_compare (n : ParamName) (v : UInt32) (port : Port) :
    Accounts cmp (cmp.compare n v port) (fun m ↦ if m = n ∧ (cmp n).eq v = true then 1 else 0)
      (fun m ↦ m = n) := by
  have heq : ((cmp.handled n port) n).eq v = (cmp n).eq v := by
    simp [ProtoPortMatchParams.handled, MatchParam.eq]
  have h := @Accounts.one cmp n port ((cmp n).eq v)
  unfold ProtoPortMatchParams.compare
  simpa only [heq] using h

theorem accounts_compareRequested (n : ParamName) (v : UInt32) (port : Port) :
    Accounts cmp (cmp.compareRequested n v port)
      (fun m ↦ if m = n ∧ (cmp n).eq v = true then 1 else 0) (fun m ↦ m = n) := by
  unfold ProtoPortMatchParams.compareRequested
  cases hd : (cmp n).doMatch with
  | true => exact accounts_compare n v port
  | false =>
    refine (Accounts.nothing hd).of_eq ?_ (fun _ ↦ rfl)
    intro m
    simp [MatchParam.eq, hd]

theorem accounts_haveDepack (port : Port) :
    Accounts cmp (cmp.haveDepackRequested port)
      (fun m ↦ if m = haveDepack ∧ (cmp haveDepack).doMatch = true then 1 else 0)
      (fun m ↦ m = haveDepack) := by
  unfold ProtoPortMatchParams.haveDepackRequested
  cases hd : (cmp haveDepack).doMatch with
  | true => exact Accounts.one haveDepack port true
  | false => exact (Accounts.nothing hd).of_eq (by simp) (fun _ ↦ rfl)

/-- What each class of ports handles and counts. -/
theorem accounts_iMatch (port : Port) (cmp : ProtoPortMatchParams) :
    Accounts cmp (port.iMatch cmp) (fun n ↦ if port.counts cmp n then 1 else 0) port.handles := by
  cases port with
  | udp destPort =>
    apply (accounts_compare udpDestPort destPort (.udp destPort)).of_eq <;> intro n <;>
      cases n <;> simp [Port.counts, Port.provides, Port.handles, Port.offers, MatchParam.eq]
  | tcp destPort =>
    apply (accounts_compare tcpDestPort destPort (.tcp destPort)).of_eq <;> intro n <;>
      cases n <;> simp [Port.counts, Port.provides, Port.handles, Port.offers, MatchParam.eq]
  | rssi =>
    have h := @Accounts.one cmp haveRssi .rssi (cmp haveRssi).doMatch
    have hd : ((cmp.handled haveRssi .rssi) haveRssi).doMatch = (cmp haveRssi).doMatch := by
      simp [ProtoPortMatchParams.handled]
    unfold Port.iMatch
    simp only [hd]
    apply h.of_eq <;> intro n <;> cases n <;> simp [Port.counts, Port.provides, Port.handles, Port.offers]
  | depack =>
    have h := (@accounts_haveDepack cmp .depack).add
      (accounts_compareRequested depackVersion DEPACKETIZER_V0 .depack)
    have he := eq_of_reset (@accounts_haveDepack cmp .depack).reset depackVersion DEPACKETIZER_V0
    apply h.of_eq <;> intro n <;> cases n <;>
      simp [Port.counts, Port.provides, Port.handles, Port.offers, he] <;> simp [MatchParam.eq]
  | tdest dest =>
    have h := @Accounts.one cmp tDest (.tdest dest)
      ((cmp tDest).eq dest && (cmp depackVersion).eq DEPACKETIZER_V0)
    have ht : ((cmp.handled tDest (.tdest dest)) tDest).eq dest = (cmp tDest).eq dest := by
      simp [ProtoPortMatchParams.handled, MatchParam.eq]
    have hv : ((cmp.handled tDest (.tdest dest)) depackVersion) = cmp depackVersion := by
      simp [ProtoPortMatchParams.handled]
    unfold Port.iMatch
    simp only [ht, hv]
    apply h.of_eq <;> intro n <;> cases n <;>
      simp [Port.counts, Port.provides, Port.handles, Port.offers, MatchParam.eq, and_assoc]
  | tdest2 dest =>
    have h₁ := @accounts_compareRequested cmp tDest dest (.tdest2 dest)
    have h₂ := h₁.add (accounts_compareRequested depackVersion DEPACKETIZER_V2 (.tdest2 dest))
    have h₃ := h₂.add (accounts_haveDepack (.tdest2 dest))
    have he := eq_of_reset h₁.reset depackVersion DEPACKETIZER_V2
    have hd := doMatch_of_reset h₂.reset haveDepack
    dsimp only at hd
    apply h₃.of_eq <;> intro n <;> cases n <;>
      simp [Port.counts, Port.provides, Port.handles, Port.offers, he, hd] <;> simp [MatchParam.eq]
  | srp protoVersion dest =>
    have h₁ := @accounts_compare cmp srpVersion protoVersion (.srp protoVersion dest)
    have h := h₁.add (accounts_compare srpVC dest (.srp protoVersion dest))
    have he := eq_of_reset h₁.reset srpVC dest
    apply h.of_eq <;> intro n <;> cases n <;>
      simp [Port.counts, Port.provides, Port.handles, Port.offers, he] <;> simp [MatchParam.eq]

/-- How many ports of the stack count the parameter. -/
def count (cmp : ProtoPortMatchParams) (s : List Port) (n : ParamName) : ℕ :=
  s.countP fun port ↦ port.counts cmp n

/-- What the parameter adds to the sum: an excluded one counts when no port handles it. -/
def share (cmp : ProtoPortMatchParams) (s : List Port) (n : ParamName) : ℕ :=
  count cmp s n +
    if (cmp n).doMatch && (cmp n).exclude && !s.any fun port ↦ port.handles n then 1 else 0

/-- How often parameters are counted more than once. -/
def extra (cmp : ProtoPortMatchParams) (s : List Port) : ℕ :=
  (all.map fun n ↦ share cmp s n - 1).sum

/-- How many of the requested parameters are not counted at all. -/
def lacking (cmp : ProtoPortMatchParams) (s : List Port) : ℕ :=
  (all.map fun n ↦ if (cmp n).doMatch ∧ share cmp s n = 0 then 1 else 0).sum

theorem accounts_matchUp (s : List Port) (cmp : ProtoPortMatchParams) :
    Accounts cmp (matchUp s cmp) (count cmp s) (fun n ↦ s.any fun port ↦ port.handles n) := by
  induction s generalizing cmp with
  | nil => exact Accounts.zero
  | cons port up ih =>
    have h := accounts_iMatch port cmp
    apply (h.add (ih (port.iMatch cmp).2)).of_eq
    · intro n
      have hup : count (port.iMatch cmp).2 up n = count cmp up n := by
        simp only [count, counts_of_reset h.reset]
      rw [hup, count, List.countP_cons, Nat.add_comm]
      rfl
    · intro n
      exact List.any_cons

theorem findMatches_spec (cmp : ProtoPortMatchParams) (s : List Port) :
    (findMatches cmp.reset s).1 = (all.map (share cmp s)).sum ∧
      (findMatches cmp.reset s).2.reset = cmp.reset := by
  have h := accounts_matchUp s cmp.reset
  refine ⟨?_, h.reset⟩
  have hex : (matchUp s cmp.reset).2.excluded = (all.map fun n ↦
      if (cmp n).doMatch && (cmp n).exclude && !s.any fun port ↦ port.handles n
        then 1 else 0).sum := by
    unfold ProtoPortMatchParams.excluded
    congr 1
    apply List.map_congr_left
    intro n _
    have hd : ((matchUp s cmp.reset).2 n).doMatch = (cmp n).doMatch := doMatch_of_reset h.reset n
    have he : ((matchUp s cmp.reset).2 n).exclude = (cmp n).exclude := exclude_of_reset h.reset n
    unfold MatchParam.excluded
    rw [hd, he]
    cases hm : (cmp n).doMatch with
    | false => simp
    | true =>
      have hh := h.handled n hm
      rw [show ((cmp.reset n).handledBy.isSome) = false from rfl, Bool.false_or] at hh
      rw [← Option.not_isSome, hh]
  unfold findMatches
  simp only [hex, h.rval]
  exact List.sum_map_add.symm

theorem counts_doMatch (h : (cmp n).doMatch = false) : share cmp s n = 0 := by
  simp [share, count, Port.counts, h]

/-- The sums agree when what is counted too often makes up for what is not counted. -/
theorem requested_eq_found_iff (cmp : ProtoPortMatchParams) (s : List Port) :
    cmp.requestedMatches = (findMatches cmp.reset s).1 ↔ extra cmp s = lacking cmp s := by
  have hsum : (all.map (share cmp s)).sum + lacking cmp s = cmp.requestedMatches + extra cmp s := by
    unfold lacking ProtoPortMatchParams.requestedMatches extra
    rw [← List.sum_map_add, ← List.sum_map_add]
    congr 1
    apply List.map_congr_left
    intro n _
    cases hd : (cmp n).doMatch with
    | false => simp [counts_doMatch hd]
    | true =>
      simp only [true_and, if_true]
      split_ifs <;> omega
  rw [(findMatches_spec cmp s).1]
  omega

/-- The port that is found is the first one with the requested matches. -/
theorem findProtoPort_eq (cmp : ProtoPortMatchParams) (existingPorts : List (List Port)) :
    (findProtoPort cmp existingPorts).1 = existingPorts.find? fun s ↦
      cmp.requestedMatches = (findMatches cmp.reset s).1 := by
  have hfrom (r : ℕ) (cmp' : ProtoPortMatchParams) (h : cmp'.reset = cmp.reset) :
      (findFrom r existingPorts cmp').1 = existingPorts.find? fun s ↦
        r = (findMatches cmp.reset s).1 := by
    induction existingPorts generalizing cmp' with
    | nil => rfl
    | cons s rest ih =>
      unfold findFrom
      rw [h, List.find?_cons]
      by_cases hr : r = (findMatches cmp.reset s).1
      · simp [hr]
      · simp only [hr, if_false, decide_false]
        exact ih _ (findMatches_spec cmp s).2
  exact hfrom _ cmp rfl

end Cpsw.ProtoMod
