import Cpsw.Path.Grammar

namespace Cpsw.Path

open Cpsw.Lib.Run PathImpl

variable {Ent Addr : Type} (H : Hierarchy Ent Addr)

/-- What a visitor is called with, and what it answers. -/
inductive VisitEvent (Ent Addr : Type)
  | visitPre (here : PathImpl Ent Addr) (descend : Bool)
  | visitPost (here : PathImpl Ent Addr)
  deriving DecidableEq

/-- A visitor may remember how it has been called. -/
abbrev IPathVisitor (Ent Addr : Type) := List (VisitEvent Ent Addr) → PathImpl Ent Addr → Bool

structure explorer_ctxt (Ent Addr : Type) where
  here : PathImpl Ent Addr
  calls : List (VisitEvent Ent Addr)

namespace PathImpl

/-- `explore_children_r`; `explore` is the call of `explore_r`. -/
def exploreChildrenCalls (explore : explorer_ctxt Ent Addr → Option (explorer_ctxt Ent Addr)) (d : Ent)
    (ctxt : explorer_ctxt Ent Addr) : Option (explorer_ctxt Ent Addr) :=
  let child (ctxt : explorer_ctxt Ent Addr) (a : Addr) (f t : ℤ) := do
    let ctxt ← explore { ctxt with here := ctxt.here.pushBack (.make H a f t ctxt.here.getNelms) }
    some { ctxt with here := ctxt.here.up }
  if H.isDev d then
    (H.children d).foldlM (fun ctxt a ↦
      if H.isDev (H.entry a) then
        (List.range (H.nelms a).toNat).foldlM (fun ctxt i ↦
          child ctxt a (toInt (UInt32.ofNat i)) (toInt (UInt32.ofNat i))) ctxt
      else child ctxt a (-1) (-1)) ctxt
  else some ctxt

variable (visitor : IPathVisitor Ent Addr)

/-- `explore_r`, where the hierarchy is at most `n` levels deep. -/
def exploreCallsR : ℕ → explorer_ctxt Ent Addr → Option (explorer_ctxt Ent Addr)
  | 0, _ => none
  | n + 1, ctxt => do
    let descend := visitor ctxt.calls ctxt.here
    let entered := { ctxt with calls := ctxt.calls ++ [.visitPre ctxt.here descend] }
    let ctxt ← if descend then
        exploreChildrenCalls H (exploreCallsR n) (ctxt.here.tailEntry H) entered
      else some entered
    some { ctxt with calls := ctxt.calls ++ [.visitPost ctxt.here] }

/-- `explore`: how the visitor is called. The index of the loop over the hubs at the tail is an `int`,
which there is no getting past the end of. -/
def exploreCalls (n : ℕ) (p : PathImpl Ent Addr) : Option (List (VisitEvent Ent Addr)) :=
  match p.entries.getLast? with
  | none =>
    (exploreChildrenCalls H (exploreCallsR H visitor n) p.originDev ⟨p, []⟩).map explorer_ctxt.calls
  | some tail =>
    if H.isDev (H.entry tail.c_p) then
      if tail.idxt = INT_MAX then none
      else
        ((List.range tail.width.toNat).foldlM (fun ctxt (k : ℕ) ↦
          let up := ctxt.here.up
          let i := tail.idxf + k
          exploreCallsR H visitor n
            { ctxt with here := up.pushBack (.make H tail.c_p i i up.getNelms) })
          ⟨p, []⟩).map explorer_ctxt.calls
    else (exploreCallsR H visitor n ⟨p, []⟩).map explorer_ctxt.calls

/-- The elements below a path: each hub of an array, an array of leaves as a whole. -/
def below (p : PathImpl Ent Addr) : List (PathImpl Ent Addr) :=
  if H.isDev (p.tailEntry H) then
    (H.children (p.tailEntry H)).flatMap fun a ↦
      if H.isDev (H.entry a) then
        (List.range (H.nelms a).toNat).map fun i : ℕ ↦ p.descend a i i
      else [p.descend a 0 ((H.nelms a).toNat - 1)]
  else []

/-- Where exploring starts: at each hub that a path ends at, or below its origin. -/
def starts (p : PathImpl Ent Addr) : List (PathImpl Ent Addr) :=
  match p.entries.getLast? with
  | none => p.below H
  | some tail =>
    if H.isDev (H.entry tail.c_p) then
      (List.range tail.width.toNat).map fun k : ℕ ↦
        p.up.descend tail.c_p (tail.idxf + k) (tail.idxf + k)
    else [p]

end PathImpl

/-- How a visitor is called for paths, one after the other, after it has been called as in the first
list: with each, and where it wants to, in between with what is below it. -/
inductive Forest (visitor : IPathVisitor Ent Addr)
    (below : PathImpl Ent Addr → List (PathImpl Ent Addr)) :
    List (VisitEvent Ent Addr) → List (PathImpl Ent Addr) → List (VisitEvent Ent Addr) → Prop
  | nil {before : List (VisitEvent Ent Addr)} : Forest visitor below before [] []
  | pruned {before ts : List (VisitEvent Ent Addr)} {q : PathImpl Ent Addr}
      {qs : List (PathImpl Ent Addr)} : visitor before q = false →
      Forest visitor below (before ++ [.visitPre q false, .visitPost q]) qs ts →
      Forest visitor below before (q :: qs) (.visitPre q false :: .visitPost q :: ts)
  | entered {before sub ts : List (VisitEvent Ent Addr)} {q : PathImpl Ent Addr}
      {qs : List (PathImpl Ent Addr)} : visitor before q = true →
      Forest visitor below (before ++ [.visitPre q true]) (below q) sub →
      Forest visitor below (before ++ .visitPre q true :: (sub ++ [.visitPost q])) qs ts →
      Forest visitor below before (q :: qs) (.visitPre q true :: (sub ++ .visitPost q :: ts))

/-- The elements that are below a path. -/
inductive Instance (p : PathImpl Ent Addr) : PathImpl Ent Addr → Prop
  | start {q : PathImpl Ent Addr} : q ∈ p.starts H → Instance p q
  | next {q r : PathImpl Ent Addr} : Instance p q → r ∈ q.below H → Instance p r

/-- The paths that `visitPre` is called with. -/
def visited (ts : List (VisitEvent Ent Addr)) : List (PathImpl Ent Addr) :=
  ts.filterMap fun
    | .visitPre here _ => some here
    | .visitPost _ => none

variable {H} {visitor : IPathVisitor Ent Addr} {next next' : PathImpl Ent Addr → List (PathImpl Ent Addr)}
variable {p q r : PathImpl Ent Addr} {qs qs' : List (PathImpl Ent Addr)}
variable {ts ts' before : List (VisitEvent Ent Addr)} {ctxt ctxt' : explorer_ctxt Ent Addr} {N n : ℕ}

theorem Forest.append (h : Forest visitor next before qs ts)
    (h' : Forest visitor next (before ++ ts) qs' ts') :
    Forest visitor next before (qs ++ qs') (ts ++ ts') := by
  induction h generalizing ts' with
  | nil => simpa using h'
  | pruned hv _ ih =>
    refine .pruned hv (ih ?_)
    simpa using h'
  | entered hv hsub _ _ ih =>
    rw [List.cons_append, List.cons_append, List.append_assoc, List.cons_append]
    refine .entered hv hsub (ih ?_)
    simpa using h'

/-- What comes of a call of one of the functions: the visitor is called for the paths `qs`, and the
path that the functions work on is as `I` says. -/
def Explored (visitor : IPathVisitor Ent Addr) (next : PathImpl Ent Addr → List (PathImpl Ent Addr))
    (I : PathImpl Ent Addr → Prop) (ctxt : explorer_ctxt Ent Addr) (qs : List (PathImpl Ent Addr))
    (res : Option (explorer_ctxt Ent Addr)) : Prop :=
  ∃ here ts, res = some ⟨here, ctxt.calls ++ ts⟩ ∧ I here ∧ Forest visitor next ctxt.calls qs ts

/-- A loop that explores paths one after the other. -/
theorem foldlM_explored {α : Type} {f : explorer_ctxt Ent Addr → α → Option (explorer_ctxt Ent Addr)}
    {paths : α → List (PathImpl Ent Addr)} {I : PathImpl Ent Addr → Prop} {as : List α}
    (hf : ∀ ctxt, ∀ a ∈ as, I ctxt.here → Explored visitor next I ctxt (paths a) (f ctxt a))
    (hI : I ctxt.here) : Explored visitor next I ctxt (as.flatMap paths) (as.foldlM f ctxt) := by
  induction as generalizing ctxt with
  | nil => exact ⟨ctxt.here, [], by simp, hI, .nil⟩
  | cons a as ih =>
    obtain ⟨here, ts, hres, hI', hts⟩ := hf ctxt a List.mem_cons_self hI
    have hrest : Explored visitor next I ⟨here, ctxt.calls ++ ts⟩ (as.flatMap paths)
        (as.foldlM f ⟨here, ctxt.calls ++ ts⟩) :=
      ih (fun ctxt b hb ↦ hf ctxt b (List.mem_cons_of_mem a hb)) hI'
    obtain ⟨here', ts', hres', hI'', hts'⟩ := hrest
    refine ⟨here', ts ++ ts', ?_, hI'', hts.append hts'⟩
    rw [List.foldlM_cons, hres]
    refine hres'.trans ?_
    rw [List.append_assoc]

theorem foldlM_explored_map {α : Type}
    {f : explorer_ctxt Ent Addr → α → Option (explorer_ctxt Ent Addr)} {path : α → PathImpl Ent Addr}
    {I : PathImpl Ent Addr → Prop} {as : List α}
    (hf : ∀ ctxt, ∀ a ∈ as, I ctxt.here → Explored visitor next I ctxt [path a] (f ctxt a))
    (hI : I ctxt.here) : Explored visitor next I ctxt (as.map path) (as.foldlM f ctxt) := by
  have h := foldlM_explored hf hI
  rw [← List.map_eq_flatMap] at h
  exact h

/-- The paths that the code goes on to from a path. -/
def PathImpl.children (H : Hierarchy Ent Addr) (p : PathImpl Ent Addr) : List (PathImpl Ent Addr) :=
  if H.isDev (p.tailEntry H) then
    (H.children (p.tailEntry H)).flatMap fun a ↦
      if H.isDev (H.entry a) then
        (List.range (H.nelms a).toNat).map fun i ↦
          p.pushBack (.make H a (toInt (UInt32.ofNat i)) (toInt (UInt32.ofNat i)) p.getNelms)
      else [p.pushBack (.make H a (-1) (-1) p.getNelms)]
  else []

@[simp] theorem PathImpl.up_pushBack {e : PathEntry Addr} : (p.pushBack e).up = p := by
  simp [up, pushBack]

theorem tailEntry_pushBack {e : PathEntry Addr} : (p.pushBack e).tailEntry H = H.entry e.c_p := by
  simp [tailEntry, pushBack]

/-- Below a hub: into each child, and back. -/
theorem exploreChildrenCalls_explored
    {explore : explorer_ctxt Ent Addr → Option (explorer_ctxt Ent Addr)}
    (hexp : ∀ ctxt, ctxt.here ∈ p.children H →
      Explored visitor next (· = ctxt.here) ctxt [ctxt.here] (explore ctxt))
    (hhere : ctxt.here = p) : Explored visitor next (· = p) ctxt (p.children H)
      (exploreChildrenCalls H explore (p.tailEntry H) ctxt) := by
  unfold exploreChildrenCalls
  unfold PathImpl.children at hexp ⊢
  by_cases hdev : H.isDev (p.tailEntry H) = true
  · rw [if_pos hdev] at hexp ⊢
    dsimp only
    rw [if_pos hdev]
    have hchild : ∀ (ctxt : explorer_ctxt Ent Addr) (e : PathEntry Addr), ctxt.here = p →
        (∀ ctxt : explorer_ctxt Ent Addr, ctxt.here = p.pushBack e →
          Explored visitor next (· = ctxt.here) ctxt [ctxt.here] (explore ctxt)) →
        Explored visitor next (· = p) ctxt [p.pushBack e]
          (explore { ctxt with here := p.pushBack e } >>= fun ctxt ↦
            some { ctxt with here := ctxt.here.up }) := by
      intro ctxt e _ hexp
      obtain ⟨here, ts, hres, rfl, hts⟩ := hexp { ctxt with here := p.pushBack e } rfl
      refine ⟨p, ts, ?_, rfl, hts⟩
      rw [hres]
      simp
    refine foldlM_explored (fun ctxt a ha hp ↦ ?_) hhere
    have hexp := fun ctxt h ↦ hexp ctxt (List.mem_flatMap.2 ⟨a, ha, h⟩)
    by_cases ha' : H.isDev (H.entry a) = true
    · simp only [if_pos ha'] at hexp ⊢
      refine foldlM_explored_map (fun ctxt i hi hp ↦ ?_) hp
      rw [hp]
      exact hchild ctxt _ hp fun ctxt h ↦ hexp ctxt (h ▸ List.mem_map_of_mem hi)
    · simp only [if_neg ha'] at hexp ⊢
      rw [hp]
      exact hchild ctxt _ hp fun ctxt h ↦ hexp ctxt (h ▸ List.mem_singleton_self _)
  · rw [if_neg hdev]
    dsimp only
    rw [if_neg hdev]
    exact ⟨p, [], by rw [List.append_nil, ← hhere], rfl, .nil⟩

theorem mem_children (h : r ∈ p.children H) : ∃ a f t, a ∈ H.children (p.tailEntry H) ∧
    r = p.pushBack (.make H a f t p.getNelms) := by
  unfold PathImpl.children at h
  split_ifs at h
  · obtain ⟨a, ha, h⟩ := List.mem_flatMap.1 h
    split_ifs at h
    · obtain ⟨i, -, rfl⟩ := List.mem_map.1 h
      exact ⟨a, _, _, ha, rfl⟩
    · exact ⟨a, _, _, ha, List.mem_singleton.1 h⟩
  · cases h

/-- At a path: the visitor, what is below it where the visitor wants to go there, and the visitor. -/
theorem exploreCallsR_explored (visitor : IPathVisitor Ent Addr)
    (ctxt : explorer_ctxt Ent Addr) (hN : ∀ a, H.depth (H.entry a) < N)
    (hn : N ≤ n + H.depth (ctxt.here.tailEntry H)) (hne : ctxt.here.entries ≠ []) :
    Explored visitor (PathImpl.children H) (· = ctxt.here) ctxt [ctxt.here]
      (exploreCallsR H visitor n ctxt) := by
  induction n generalizing ctxt with
  | zero =>
    obtain ⟨e, he⟩ : ∃ e, ctxt.here.entries.getLast? = some e := ⟨_, List.getLast?_eq_some_getLast hne⟩
    have hlt := hN e.c_p
    rw [tailEntry, he, Option.map_some, Option.getD_some] at hn
    omega
  | succ n ih =>
    cases hv : visitor ctxt.calls ctxt.here with
    | false =>
      refine ⟨ctxt.here, [.visitPre ctxt.here false, .visitPost ctxt.here], ?_, rfl, .pruned hv .nil⟩
      simp [exploreCallsR, hv]
    | true =>
      have hchildren : Explored visitor (PathImpl.children H) (· = ctxt.here)
          { ctxt with calls := ctxt.calls ++ [.visitPre ctxt.here true] }
          (ctxt.here.children H) (exploreChildrenCalls H (exploreCallsR H visitor n)
            (ctxt.here.tailEntry H)
            { ctxt with calls := ctxt.calls ++ [.visitPre ctxt.here true] }) := by
        refine exploreChildrenCalls_explored (fun ctxt' h ↦ ?_) rfl
        obtain ⟨a, f, t, ha, heq⟩ := mem_children h
        refine ih _ ?_ (by simp [heq, pushBack])
        have hdepth := H.depth_lt a
        rw [(H.mem_children _ _).1 ha] at hdepth
        rw [heq, tailEntry_pushBack, make_c_p]
        omega
      obtain ⟨here, ts, hres, hhere, hts⟩ := hchildren
      refine ⟨ctxt.here, .visitPre ctxt.here true :: (ts ++ [.visitPost ctxt.here]), ?_, rfl,
        .entered hv hts .nil⟩
      rw [exploreCallsR, hv]
      dsimp only
      rw [if_pos rfl, hres, hhere]
      simp

/-- The paths that the code starts at. -/
def PathImpl.starting (H : Hierarchy Ent Addr) (p : PathImpl Ent Addr) : List (PathImpl Ent Addr) :=
  match p.entries.getLast? with
  | none => p.children H
  | some tail =>
    if H.isDev (H.entry tail.c_p) then
      (List.range tail.width.toNat).map fun k : ℕ ↦
        p.up.pushBack (.make H tail.c_p (tail.idxf + k) (tail.idxf + k) p.up.getNelms)
    else [p]

/-- Exploring gets to its end, and calls the visitor for one path after the other. -/
theorem exploreCalls_explored (visitor : IPathVisitor Ent Addr)
    (hN : ∀ a, H.depth (H.entry a) < N) (hn : N ≤ n)
    (hend : ∀ e, p.entries.getLast? = some e → H.isDev (H.entry e.c_p) = true → e.idxt ≠ INT_MAX) :
    ∃ ts, p.exploreCalls H visitor n = some ts ∧
      Forest visitor (PathImpl.children H) [] (p.starting H) ts := by
  unfold exploreCalls starting
  cases hlast : p.entries.getLast? with
  | none =>
    have hnil := List.getLast?_eq_none_iff.1 hlast
    have htail : p.originDev = p.tailEntry H := by simp [tailEntry, hnil]
    have hchildren : Explored visitor (PathImpl.children H) (· = p) ⟨p, []⟩ (p.children H)
        (exploreChildrenCalls H (exploreCallsR H visitor n) (p.tailEntry H) ⟨p, []⟩) := by
      refine exploreChildrenCalls_explored (fun ctxt h ↦ ?_) rfl
      obtain ⟨a, f, t, ha, heq⟩ := mem_children h
      exact exploreCallsR_explored visitor ctxt hN (by omega) (by simp [heq, pushBack])
    obtain ⟨here, ts, hres, -, hts⟩ := hchildren
    dsimp only
    rw [htail, hres]
    exact ⟨ts, rfl, hts⟩
  | some e =>
    dsimp only
    by_cases hdev : H.isDev (H.entry e.c_p) = true
    · rw [if_pos hdev, if_pos hdev, if_neg (hend e hlast hdev)]
      have hloop : Explored visitor (PathImpl.children H) (fun here ↦ here.up = p.up) ⟨p, []⟩
          ((List.range e.width.toNat).map fun k : ℕ ↦ p.up.pushBack
            (.make H e.c_p (e.idxf + k) (e.idxf + k) p.up.getNelms))
          ((List.range e.width.toNat).foldlM (fun ctxt (k : ℕ) ↦
            let up := ctxt.here.up
            let i := e.idxf + k
            exploreCallsR H visitor n
              { ctxt with here := up.pushBack (.make H e.c_p i i up.getNelms) }) ⟨p, []⟩) := by
        refine foldlM_explored_map (fun ctxt k _ hup ↦ ?_) rfl
        let here := p.up.pushBack (.make H e.c_p (e.idxf + k) (e.idxf + k) p.up.getNelms)
        obtain ⟨here, ts, hres, hhere, hts⟩ := exploreCallsR_explored visitor
          { ctxt with here := here } hN (n := n) (by omega) (by simp [here, pushBack])
        dsimp only
        rw [hup]
        exact ⟨here, ts, hres, by rw [hhere]; exact up_pushBack, hts⟩
      obtain ⟨here, ts, hres, -, hts⟩ := hloop
      rw [hres]
      exact ⟨ts, rfl, hts⟩
    · rw [if_neg hdev, if_neg hdev]
      have hne : p.entries ≠ [] := by
        intro hnil
        rw [hnil] at hlast
        cases hlast
      obtain ⟨here, ts, hres, -, hts⟩ := exploreCallsR_explored visitor ⟨p, []⟩ hN (n := n)
        (by omega) hne
      rw [hres]
      exact ⟨ts, rfl, hts⟩

end Cpsw.Path
