import Cpsw.Lib.Run
import Cpsw.ProtoMod.Branch
import Mathlib.Data.List.TakeWhile

namespace Cpsw.ProtoMod

open ParamName

variable {α β : Type} {cmp cmp' : ProtoPortMatchParams} {ps : List ProtoPort} {p : ProtoPort}
variable {n : ParamName}

/-- The first element with the image that is found. -/
theorem find?_bind_find? [DecidableEq β] (f : α → β) (P : β → Bool) (l : List α) :
    ((l.map f).find? P).bind (fun s ↦ l.find? fun a ↦ f a = s) = l.find? fun a ↦ P (f a) := by
  induction l with
  | nil => rfl
  | cons a l ih =>
    cases hP : P (f a) with
    | true => simp [hP]
    | false =>
      rw [List.map_cons, List.find?_cons_of_neg (by simp [hP]), List.find?_cons_of_neg (by simp [hP]),
        ← ih]
      apply Option.bind_congr
      intro s hs
      rw [List.find?_cons_of_neg]
      rintro he
      have := List.find?_some hs
      simp_all

theorem matches_of_reset (h : cmp'.reset = cmp.reset) (s : List Port) :
    Matches cmp' s ↔ Matches cmp s := by
  unfold Matches
  rw [h, requestedMatches_of_reset h]

theorem findIn_fst (cmp : ProtoPortMatchParams) (ps : List ProtoPort) :
    (findIn cmp ps).1 = ps.find? fun p ↦ Matches cmp p.ports := by
  rw [← find?_bind_find? ProtoPort.ports (fun s ↦ Matches cmp s)]
  change (findProtoPort cmp (ps.map ProtoPort.ports)).1.bind _ = _
  rw [findProtoPort_eq]
  rfl

theorem findFrom_snd (r : ℕ) (ss : List (List Port)) (h : cmp'.reset = cmp.reset) :
    (findFrom r ss cmp').2.reset = cmp.reset ∧
      ∀ s, (findFrom r ss cmp').1 = some s → (findFrom r ss cmp').2 = (findMatches cmp.reset s).2 := by
  induction ss generalizing cmp' with
  | nil => exact ⟨h, fun s hs ↦ by cases hs⟩
  | cons s ss ih =>
    unfold findFrom
    rw [h]
    have hr := (findMatches_spec cmp s).2
    by_cases he : r = (findMatches cmp.reset s).1
    · simp only [he, if_true]
      refine ⟨hr, ?_⟩
      intro s' hs
      cases hs
      rfl
    · simp only [he, if_false]
      exact ih hr

theorem findIn_snd_reset (cmp : ProtoPortMatchParams) (ps : List ProtoPort) :
    (findIn cmp ps).2.reset = cmp.reset :=
  (findFrom_snd _ _ rfl).1

theorem findIn_snd (h : (findIn cmp ps).1 = some p) :
    (findIn cmp ps).2 = (findMatches cmp.reset p.ports).2 := by
  obtain ⟨s, hs, hp⟩ := Option.bind_eq_some_iff.1 h
  have he : p.ports = s := by simpa using List.find?_some hp
  rw [he]
  exact (findFrom_snd _ _ rfl).2 s hs

/-- What handles a parameter is one of the ports. -/
def HandledBy (s : List Port) (cmp : ProtoPortMatchParams) : Prop :=
  ∀ n port, (cmp n).handledBy = some port → port ∈ s ∧ port.handles n = true

theorem HandledBy.handled {s : List Port} {port : Port} (h : HandledBy s cmp) (hport : port ∈ s)
    (hn : port.handles n = true) : HandledBy s (cmp.handled n port) := by
  intro m port' hm
  unfold ProtoPortMatchParams.handled at hm
  by_cases hmn : m = n
  · subst hmn
    simp only [Function.update_self, Option.some.injEq] at hm
    subst hm
    exact ⟨hport, hn⟩
  · rw [Function.update_of_ne hmn] at hm
    exact h m port' hm

theorem HandledBy.matched {s : List Port} {port : Port} (h : HandledBy s cmp) :
    HandledBy s (cmp.matched n port) := by
  intro m port' hm
  unfold ProtoPortMatchParams.matched at hm
  by_cases hmn : m = n
  · subst hmn
    simp only [Function.update_self] at hm
    exact h m port' hm
  · rw [Function.update_of_ne hmn] at hm
    exact h m port' hm

theorem HandledBy.compare {s : List Port} {port : Port} {v : UInt32} (h : HandledBy s cmp)
    (hport : port ∈ s) (hn : port.handles n = true) : HandledBy s (cmp.compare n v port).2 := by
  unfold ProtoPortMatchParams.compare
  dsimp only
  split_ifs
  · exact (h.handled hport hn).matched
  · exact h.handled hport hn

theorem HandledBy.compareRequested {s : List Port} {port : Port} {v : UInt32} (h : HandledBy s cmp)
    (hport : port ∈ s) (hn : port.handles n = true) :
    HandledBy s (cmp.compareRequested n v port).2 := by
  unfold ProtoPortMatchParams.compareRequested
  split_ifs
  · exact h.compare hport hn
  · exact h

theorem HandledBy.haveDepackRequested {s : List Port} {port : Port} (h : HandledBy s cmp)
    (hport : port ∈ s) (hn : port.handles haveDepack = true) :
    HandledBy s (cmp.haveDepackRequested port).2 := by
  unfold ProtoPortMatchParams.haveDepackRequested
  split_ifs
  · exact (h.handled hport hn).matched
  · exact h

theorem HandledBy.iMatch {s : List Port} {port : Port} (h : HandledBy s cmp) (hport : port ∈ s) :
    HandledBy s (port.iMatch cmp).2 := by
  cases port with
  | udp d => exact h.compare hport rfl
  | tcp d => exact h.compare hport rfl
  | rssi =>
    unfold Port.iMatch
    dsimp only
    split_ifs
    · exact (h.handled hport rfl).matched
    · exact h.handled hport rfl
  | depack => exact (h.haveDepackRequested hport rfl).compareRequested hport rfl
  | tdest d =>
    unfold Port.iMatch
    dsimp only
    split_ifs
    · exact (h.handled hport rfl).matched
    · exact h.handled hport rfl
  | tdest2 d =>
    exact ((h.compareRequested hport rfl).compareRequested hport rfl).haveDepackRequested hport rfl
  | srp v d => exact (h.compare hport rfl).compare hport rfl

theorem HandledBy.matchUp {s t : List Port} (h : HandledBy t cmp) (hst : s ⊆ t) :
    HandledBy t (matchUp s cmp).2 := by
  induction s generalizing cmp with
  | nil => exact h
  | cons port up ih =>
    obtain ⟨hport, hup⟩ := List.cons_subset.1 hst
    exact ih (h.iMatch hport) hup

theorem handledBy_findMatches (cmp : ProtoPortMatchParams) (s : List Port) :
    HandledBy s (findMatches cmp.reset s).2 := by
  have h : HandledBy s cmp.reset := by
    intro n port hn
    cases hn
  exact h.matchUp (List.Subset.refl s)

namespace Branch

variable {br : Branch} {l : Link} {m : MatchParam}

theorem mem_links : l ∈ br.links ↔ br.srp = some l ∨ br.tdest = some l ∨ br.depack = some l ∨
    br.rssi = some l ∨ br.xprt = l := by
  simp [links, base, eq_comm]

theorem tdest_of_handles (h : l ∈ br.links) (ht : l.impl.port.handles tDest = true) :
    br.tdest = some l := by
  rcases mem_links.1 h with hs | hs | hs | hs | hs
  · obtain ⟨v, d, hp⟩ := br.srp_port l hs
    simp [hp, Port.handles, Port.offers] at ht
  · exact hs
  · simp [br.depack_port l hs, Port.handles, Port.offers] at ht
  · simp [br.rssi_port l hs, Port.handles, Port.offers] at ht
  · obtain ⟨d, hp⟩ | ⟨d, hp⟩ := hs ▸ br.xprt_port <;> simp [hp, Port.handles, Port.offers] at ht

theorem srp_of_handles (h : l ∈ br.links) (hv : l.impl.port.handles srpVC = true) :
    br.srp = some l := by
  rcases mem_links.1 h with hs | hs | hs | hs | hs
  · exact hs
  · obtain ⟨d, -, hp | ⟨hp, -⟩⟩ := br.tdest_port l hs <;> simp [hp, Port.handles, Port.offers] at hv
  · simp [br.depack_port l hs, Port.handles, Port.offers] at hv
  · simp [br.rssi_port l hs, Port.handles, Port.offers] at hv
  · obtain ⟨d, hp⟩ | ⟨d, hp⟩ := hs ▸ br.xprt_port <;> simp [hp, Port.handles, Port.offers] at hv

end Branch

variable {br : Branch} {mux : Mux} {m : MatchParam}

theorem handler_append {a b : ProtoPort} {l : Link} (h : m.handledBy = some l.impl.port)
    (ha : ∀ l' ∈ a, l'.impl.port ≠ l.impl.port) :
    handler m (a ++ l :: b) = l.impl.muxKind.map fun kind ↦ ⟨l.mod, kind, b⟩ := by
  have hdrop : ((a ++ l :: b).dropWhile fun l' ↦ some l'.impl.port ≠ m.handledBy) = l :: b := by
    rw [List.dropWhile_append_of_pos]
    · simp [h]
    · intro l' hl'
      simpa [h] using ha l' hl'
  unfold handler
  rw [hdrop]

theorem handler_none {p : ProtoPort} (h : m.handledBy = none) : handler m p = none := by
  have hdrop : (p.dropWhile fun l ↦ some l.impl.port ≠ m.handledBy) = [] :=
    List.dropWhile_eq_nil_iff.2 (by simp [h])
  unfold handler
  rw [hdrop]

/-- The multiplexer of the TDEST that handles the parameter. -/
theorem handler_tDest (hb : HandledBy br.links.ports cmp)
    (h : handler (cmp tDest) br.links = some mux) :
    ∃ l kind, br.tdest = some l ∧ l.impl.muxKind = some kind ∧ mux = ⟨l.mod, kind, br.base⟩ := by
  cases hm : (cmp tDest).handledBy with
  | none =>
    rw [handler_none hm] at h
    cases h
  | some port =>
    obtain ⟨hport, hh⟩ := hb tDest port hm
    obtain ⟨l, hl, rfl⟩ := List.mem_map.1 hport
    have ht := Branch.tdest_of_handles hl hh
    have hlinks : br.links = br.srp.toList ++ l :: br.base := by simp [Branch.links, ht]
    rw [hlinks, handler_append hm] at h
    · obtain ⟨kind, hkind, rfl⟩ := Option.map_eq_some_iff.1 h
      exact ⟨l, kind, ht, hkind, rfl⟩
    · intro l' hl' he
      obtain ⟨v, d, hp⟩ := br.srp_port l' (by simpa using hl')
      rw [← he, hp] at hh
      simp [Port.handles, Port.offers] at hh

theorem handler_srpVC (hb : HandledBy br.links.ports cmp)
    (h : handler (cmp srpVC) br.links = some mux) :
    ∃ l kind, br.srp = some l ∧ l.impl.muxKind = some kind ∧
      mux = ⟨l.mod, kind, br.tdest.toList ++ br.base⟩ := by
  cases hm : (cmp srpVC).handledBy with
  | none =>
    rw [handler_none hm] at h
    cases h
  | some port =>
    obtain ⟨hport, hh⟩ := hb srpVC port hm
    obtain ⟨l, hl, rfl⟩ := List.mem_map.1 hport
    have hs := Branch.srp_of_handles hl hh
    have hlinks : br.links = [] ++ l :: (br.tdest.toList ++ br.base) := by simp [Branch.links, hs]
    rw [hlinks, handler_append hm (by simp)] at h
    obtain ⟨kind, hkind, rfl⟩ := Option.map_eq_some_iff.1 h
    exact ⟨l, kind, hs, hkind, rfl⟩

theorem modify_reset {f : MatchParam → MatchParam} (hf : ∀ m, (f m).reset = f m.reset) :
    (cmp.modify n f).reset = cmp.reset.modify n f := by
  funext k
  unfold ProtoPortMatchParams.modify ProtoPortMatchParams.reset
  by_cases hk : k = n
  · subst hk
    simp [hf]
  · simp [hk]

theorem modify_congr {f : MatchParam → MatchParam} (hf : ∀ m, (f m).reset = f m.reset)
    (h : cmp'.reset = cmp.reset) : (cmp'.modify n f).reset = (cmp.modify n f).reset := by
  rw [modify_reset hf, modify_reset hf, h]

namespace CProtoStackBuilder

variable (b : CProtoStackBuilder)

theorem stackParams_congr (h : cmp'.reset = cmp.reset) :
    (b.stackParams cmp').reset = (b.stackParams cmp).reset := by
  unfold stackParams
  split_ifs <;> (repeat' refine modify_congr (fun _ ↦ rfl) ?_) <;> exact h

/-- The parameters of the search for the SRP port that is asked for. -/
def srpParams : ProtoPortMatchParams :=
  ((b.stackParams b.xprtParams).modify srpVersion (·.assign (srpUnsigned b.getSRPVersion))).modify srpVC
    (·.assign b.getSRPMuxVirtualChannel)

/-- What the searches have found out. -/
def Shared.Found (ps : List ProtoPort) : Shared → Prop
  | .nothing => ∀ p ∈ ps, ¬Matches b.xprtParams p.ports
  | .srpMux mux => b.hasSRP = true ∧ (b.hasTDestMux = true ∨ b.hasSRPMux = true) ∧
      (∃ p ∈ ps, Matches (b.stackParams b.xprtParams) p.ports) ∧
      (∀ p ∈ ps, ¬Matches b.srpParams p.ports) ∧
      ∃ p ∈ ps, Matches (b.srpParams.modify srpVC (·.wildcard)) p.ports ∧
        ∃ cmp, HandledBy p.ports cmp ∧ handler (cmp srpVC) p = some mux
  | .tDestMux mux => b.hasTDestMux = true ∧
      (∀ p ∈ ps, ¬Matches (b.stackParams b.xprtParams) p.ports) ∧
      ∃ p ∈ ps, Matches ((b.stackParams b.xprtParams).modify tDest (·.wildcard)) p.ports ∧
        ∃ cmp, HandledBy p.ports cmp ∧ handler (cmp tDest) p = some mux

end CProtoStackBuilder

variable {b : CProtoStackBuilder}

theorem findIn_none (h : (findIn cmp' ps).1.isSome = false) (hr : cmp'.reset = cmp.reset) :
    ∀ p ∈ ps, ¬Matches cmp p.ports := by
  rw [findIn_fst] at h
  intro p hp hm
  have := List.find?_eq_none.1 (Option.isSome_eq_false_iff.1 h |> Option.isNone_iff_eq_none.1) p hp
  exact this (by simpa using (matches_of_reset hr _).2 hm)

theorem findIn_some (h : (findIn cmp' ps).1 = some p) (hr : cmp'.reset = cmp.reset) :
    p ∈ ps ∧ Matches cmp p.ports ∧ HandledBy p.ports (findIn cmp' ps).2 := by
  refine ⟨?_, ?_, ?_⟩
  · rw [findIn_fst] at h
    exact List.mem_of_find?_eq_some h
  · rw [findIn_fst] at h
    exact (matches_of_reset hr _).1 (by simpa using List.find?_some h)
  · rw [findIn_snd h]
    exact handledBy_findMatches cmp' p.ports

namespace CProtoStackBuilder

theorem shareSRP_ok {sh : Shared} (hr : cmp'.reset = (b.stackParams b.xprtParams).reset)
    (hf : ∃ p ∈ ps, Matches (b.stackParams b.xprtParams) p.ports)
    (hd : b.hasTDestMux = true ∨ b.hasSRPMux = true) (h : b.shareSRP cmp' ps = .ok sh) :
    sh.Found b ps := by
  unfold shareSRP at h
  by_cases hsrp : b.hasSRP = true
  · simp only [hsrp, Bool.not_true, Bool.false_eq_true, if_false] at h
    have hr' : ((cmp'.modify srpVersion (·.assign (srpUnsigned b.getSRPVersion))).modify srpVC
        (·.assign b.getSRPMuxVirtualChannel)).reset = b.srpParams.reset :=
      modify_congr (fun _ ↦ rfl) (modify_congr (fun _ ↦ rfl) hr)
    generalize (cmp'.modify srpVersion (·.assign (srpUnsigned b.getSRPVersion))).modify srpVC
        (·.assign b.getSRPMuxVirtualChannel) = cmp₁ at h hr'
    cases hnone : (findIn cmp₁ ps).1.isSome with
    | true => simp [hnone] at h
    | false =>
      simp only [hnone, Bool.false_eq_true, if_false] at h
      have hr₂ : ((findIn cmp₁ ps).2.modify srpVC (·.wildcard)).reset =
          (b.srpParams.modify srpVC (·.wildcard)).reset :=
        modify_congr (fun _ ↦ rfl) ((findIn_snd_reset cmp₁ ps).trans hr')
      generalize (findIn cmp₁ ps).2.modify srpVC (·.wildcard) = cmp₂ at h hr₂
      cases hp : (findIn cmp₂ ps).1 with
      | none => simp [hp] at h
      | some p =>
        obtain ⟨hmem, hmatch, hby⟩ := findIn_some hp hr₂
        simp only [hp] at h
        split at h
        · rename_i mod version prio up hh
          cases h
          exact ⟨hsrp, hd, hf, findIn_none hnone hr', p, hmem, hmatch, _, hby, hh⟩
        · cases h
  · simp [hsrp] at h

theorem shareTDest_ok {sh : Shared} (hr : cmp'.reset = (b.stackParams b.xprtParams).reset)
    (hf : ∀ p ∈ ps, ¬Matches (b.stackParams b.xprtParams) p.ports) (h : b.shareTDest cmp' ps = .ok sh) :
    sh.Found b ps := by
  unfold shareTDest at h
  by_cases ht : b.hasTDestMux = true
  · simp only [ht, if_true] at h
    have hr' : (cmp'.modify tDest (·.wildcard)).reset =
        ((b.stackParams b.xprtParams).modify tDest (·.wildcard)).reset :=
      modify_congr (fun _ ↦ rfl) hr
    generalize cmp'.modify tDest (·.wildcard) = cmp₁ at h hr'
    cases hp : (findIn cmp₁ ps).1 with
    | none => simp [hp] at h
    | some p =>
      obtain ⟨hmem, hmatch, hby⟩ := findIn_some hp hr'
      simp only [hp] at h
      cases hh : handler ((findIn cmp₁ ps).2 tDest) p with
      | none => simp [hh] at h
      | some mux =>
        simp only [hh] at h
        cases h
        exact ⟨ht, hf, p, hmem, hmatch, _, hby, hh⟩
  · simp [ht] at h

/-- What the searches find. -/
theorem share_ok {sh : Shared} (h : b.share ps = .ok sh) : sh.Found b ps := by
  unfold share at h
  cases hx : (findIn b.xprtParams ps).1.isSome with
  | false =>
    simp only [hx, Bool.false_eq_true, if_false] at h
    cases h
    exact findIn_none hx rfl
  | true =>
    simp only [hx, if_true] at h
    by_cases hd : (!b.hasTDestMux && (!b.hasSRP || !b.hasSRPMux)) = true
    · simp [hd] at h
    · have hd' : b.hasTDestMux = true ∨ b.hasSRPMux = true := by
        cases ht : b.hasTDestMux <;> cases hm : b.hasSRPMux <;> simp [ht, hm] at hd ⊢
      simp only [hd] at h
      have hr : (b.stackParams (findIn b.xprtParams ps).2).reset =
          (b.stackParams b.xprtParams).reset :=
        stackParams_congr b (findIn_snd_reset b.xprtParams ps)
      generalize b.stackParams (findIn b.xprtParams ps).2 = cmp₁ at h hr
      have hr' := (findIn_snd_reset cmp₁ ps).trans hr
      cases hs : (findIn cmp₁ ps).1 with
      | none =>
        simp only [hs] at h
        exact shareTDest_ok hr' (findIn_none (by simp [hs]) hr) h
      | some p =>
        simp only [hs] at h
        obtain ⟨hmem, hmatch, -⟩ := findIn_some hs hr
        exact shareSRP_ok hr' ⟨p, hmem, hmatch⟩ hd' h

end CProtoStackBuilder

end Cpsw.ProtoMod
