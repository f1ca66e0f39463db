import Mathlib.Data.List.Nodup
import Cpsw.Path.Explore

namespace Cpsw.Path

open Cpsw.Lib.Run PathImpl

variable {Ent Addr : Type} (H : Hierarchy Ent Addr)

/-- A visitor is called as `Forest` says for where exploring starts and what is below, with no path
twice, with all that are below paths which it wants to descend from and no other ones. -/
structure VisitsOnce (visitor : IPathVisitor Ent Addr) (p : PathImpl Ent Addr)
    (ts : List (VisitEvent Ent Addr)) : Prop where
  follows : Forest visitor (below H) [] (p.starts H) ts
  once : (visited ts).Nodup
  complete : ∀ q, q ∈ visited ts ↔ q ∈ p.starts H ∨ ∃ r, .visitPre r true ∈ ts ∧ q ∈ r.below H
  wellFormed : ∀ q ∈ visited ts, WellFormed H q

variable {H} {visitor : IPathVisitor Ent Addr} {next next' : PathImpl Ent Addr → List (PathImpl Ent Addr)}
variable {p q r : PathImpl Ent Addr} {qs : List (PathImpl Ent Addr)} {e : PathEntry Addr}
variable {ts before : List (VisitEvent Ent Addr)} {I : PathImpl Ent Addr → Prop} {N n : ℕ}

@[simp] theorem visited_nil : visited ([] : List (VisitEvent Ent Addr)) = [] := rfl

@[simp] theorem visited_visitPre {b : Bool} : visited (.visitPre q b :: ts) = q :: visited ts := rfl

@[simp] theorem visited_visitPost : visited (.visitPost q :: ts) = visited ts := rfl

@[simp] theorem visited_append {ts' : List (VisitEvent Ent Addr)} :
    visited (ts ++ ts') = visited ts ++ visited ts' := List.filterMap_append

namespace Forest

/-- What holds of the paths and goes down holds of all that the visitor sees. -/
theorem keeps (h : Forest visitor next before qs ts) (hqs : ∀ q ∈ qs, I q)
    (hnext : ∀ q, I q → ∀ r ∈ next q, I r) : ∀ q ∈ visited ts, I q := by
  induction h with
  | nil => exact fun q hq ↦ absurd hq List.not_mem_nil
  | @pruned _ _ q' _ _ _ ih =>
    intro q hq
    rw [visited_visitPre, visited_visitPost] at hq
    rcases List.mem_cons.1 hq with rfl | hq
    · exact hqs q List.mem_cons_self
    · exact ih (fun r hr ↦ hqs r (List.mem_cons_of_mem q' hr)) q hq
  | @entered _ _ _ q' _ _ _ _ ihsub ih =>
    intro q hq
    rw [visited_visitPre, visited_append, visited_visitPost] at hq
    rcases List.mem_cons.1 hq with rfl | hq
    · exact hqs q List.mem_cons_self
    · rcases List.mem_append.1 hq with hq | hq
      · exact ihsub (hnext q' (hqs q' List.mem_cons_self)) q hq
      · exact ih (fun r hr ↦ hqs r (List.mem_cons_of_mem q' hr)) q hq

theorem congr (h : Forest visitor next before qs ts) (hqs : ∀ q ∈ qs, I q)
    (hnext : ∀ q, I q → ∀ r ∈ next' q, I r) (heq : ∀ q, I q → next q = next' q) :
    Forest visitor next' before qs ts := by
  induction h with
  | nil => exact .nil
  | @pruned _ _ q _ hv _ ih => exact .pruned hv (ih fun r hr ↦ hqs r (List.mem_cons_of_mem q hr))
  | @entered _ _ _ q _ hv _ _ ihsub ih =>
    have hq := hqs q List.mem_cons_self
    rw [heq q hq] at ihsub
    exact .entered hv (ihsub (hnext q hq)) (ih fun r hr ↦ hqs r (List.mem_cons_of_mem q hr))

/-- The visitor sees the paths, and what is below those from which it wants to descend. -/
theorem mem_visited_iff (h : Forest visitor next before qs ts) :
    q ∈ visited ts ↔ q ∈ qs ∨ ∃ r, .visitPre r true ∈ ts ∧ q ∈ next r := by
  induction h with
  | nil => simp
  | pruned _ _ ih => simp [ih, or_assoc]
  | @entered _ _ _ q' qs _ _ _ ihsub ih =>
    simp only [visited_visitPre, visited_append, visited_visitPost, List.mem_cons, List.mem_append,
      ihsub, ih, VisitEvent.visitPre.injEq, and_true, reduceCtorEq, false_or]
    constructor
    · intro h
      rcases h with rfl | (h | ⟨r, hr, hq⟩) | h | ⟨r, hr, hq⟩
      · exact .inl (.inl rfl)
      · exact .inr ⟨q', .inl rfl, h⟩
      · exact .inr ⟨r, .inr (.inl hr), hq⟩
      · exact .inl (.inr h)
      · exact .inr ⟨r, .inr (.inr hr), hq⟩
    · intro h
      rcases h with (rfl | h) | ⟨r, rfl | hr | hr, hq⟩
      · exact .inl rfl
      · exact .inr (.inr (.inl h))
      · exact .inr (.inl (.inl hq))
      · exact .inr (.inl (.inr ⟨r, hr, hq⟩))
      · exact .inr (.inr (.inr ⟨r, hr, hq⟩))

theorem descends (h : Forest visitor next before qs ts) (hv : ∀ before q, visitor before q = true)
    (hq : q ∈ visited ts) : .visitPre q true ∈ ts := by
  induction h with
  | nil => cases hq
  | pruned hfalse =>
    rw [hv] at hfalse
    cases hfalse
  | entered _ _ _ ihsub ih =>
    rw [visited_visitPre, visited_append, visited_visitPost] at hq
    rcases List.mem_cons.1 hq with rfl | hq
    · exact List.mem_cons_self
    · rcases List.mem_append.1 hq with hq | hq
      · exact List.mem_cons_of_mem _ (List.mem_append_left _ (ihsub hq))
      · exact List.mem_cons_of_mem _ (List.mem_append_right _ (List.mem_cons_of_mem _ (ih hq)))

/-- The path `r` leads to `q` or below it. -/
def Extends (q r : PathImpl Ent Addr) : Prop := r.originDev = q.originDev ∧ q.entries <+: r.entries

theorem Extends.eq {q' : PathImpl Ent Addr} (h : Extends q r) (h' : Extends q' r)
    (hl : q.entries.length = q'.entries.length) : q = q' := by
  have hentries := List.IsPrefix.eq_of_length (List.prefix_of_prefix_length_le h.2 h'.2 hl.le) hl
  cases q
  cases q'
  cases hentries
  cases h.1.symm.trans h'.1
  rfl

/-- No path is visited twice: what is visited is below one of the paths only. -/
theorem nodup (h : Forest visitor next before qs ts) {len : ℕ} (hlen : ∀ q ∈ qs, q.entries.length = len)
    (hqs : qs.Nodup) (hnext : ∀ q, (next q).Nodup ∧ ∀ r ∈ next q, ∃ e, r = q.pushBack e) :
    (visited ts).Nodup ∧ ∀ r ∈ visited ts, ∃ q ∈ qs, Extends q r := by
  induction h generalizing len with
  | nil => simp
  | @pruned _ _ q qs _ _ ih =>
    obtain ⟨hq, hqs⟩ := List.nodup_cons.1 hqs
    obtain ⟨hnd, hext⟩ := ih (fun r hr ↦ hlen r (List.mem_cons_of_mem q hr)) hqs
    rw [visited_visitPre, visited_visitPost]
    refine ⟨List.nodup_cons.2 ⟨fun hmem ↦ ?_, hnd⟩, fun r hr ↦ ?_⟩
    · obtain ⟨q', hq', hqq'⟩ := hext q hmem
      have heq := Extends.eq hqq' ⟨rfl, List.prefix_rfl⟩ (by
        rw [hlen q' (List.mem_cons_of_mem q hq'), hlen q List.mem_cons_self])
      exact hq (heq ▸ hq')
    · rcases List.mem_cons.1 hr with rfl | hr
      · exact ⟨r, List.mem_cons_self, rfl, List.prefix_rfl⟩
      · obtain ⟨q', hq', hqq'⟩ := hext r hr
        exact ⟨q', List.mem_cons_of_mem q hq', hqq'⟩
  | @entered _ sub _ q qs _ _ _ ihsub ih =>
    obtain ⟨hq, hqs⟩ := List.nodup_cons.1 hqs
    obtain ⟨hnd, hext⟩ := ih (fun r hr ↦ hlen r (List.mem_cons_of_mem q hr)) hqs
    have hlong : ∀ r ∈ next q, r.entries.length = len + 1 := by
      intro r hr
      obtain ⟨e, rfl⟩ := (hnext q).2 r hr
      simp [pushBack, hlen q List.mem_cons_self]
    obtain ⟨hndsub, hextsub⟩ := ihsub hlong (hnext q).1
    -- What is visited below `q` is longer than `q`, and leads through it.
    have hbelow : ∀ r ∈ visited sub, Extends q r ∧ len < r.entries.length := by
      intro r hr
      obtain ⟨q', hq', horigin, hpre⟩ := hextsub r hr
      have hlen' := hpre.length_le
      rw [hlong q' hq'] at hlen'
      obtain ⟨e, rfl⟩ := (hnext q).2 q' hq'
      exact ⟨⟨horigin, (List.prefix_append _ _).trans hpre⟩, by omega⟩
    have hother : ∀ r ∈ visited sub ++ visited _, r ∈ visited sub ∨ ∃ q' ∈ qs, Extends q' r :=
      fun r hr ↦ (List.mem_append.1 hr).imp id (hext r)
    have hunique : ∀ q' ∈ qs, ∀ r, Extends q' r → ¬Extends q r := by
      intro q' hq' r h' h
      have heq := Extends.eq h' h (by
        rw [hlen q' (List.mem_cons_of_mem q hq'), hlen q List.mem_cons_self])
      exact hq (heq ▸ hq')
    rw [visited_visitPre, visited_append, visited_visitPost]
    refine ⟨List.nodup_cons.2 ⟨fun hmem ↦ ?_, hndsub.append hnd ?_⟩, fun r hr ↦ ?_⟩
    · rcases hother q hmem with hsub | ⟨q', hq', hqq'⟩
      · have hlt := (hbelow q hsub).2
        rw [hlen q List.mem_cons_self] at hlt
        exact lt_irrefl _ hlt
      · exact hunique q' hq' q hqq' ⟨rfl, List.prefix_rfl⟩
    · intro r hr hr'
      obtain ⟨q', hq', hqq'⟩ := hext r hr'
      exact hunique q' hq' r hqq' (hbelow r hr).1
    · rcases List.mem_cons.1 hr with rfl | hr
      · exact ⟨r, List.mem_cons_self, rfl, List.prefix_rfl⟩
      · rcases hother r hr with hsub | ⟨q', hq', hqq'⟩
        · exact ⟨q, List.mem_cons_self, (hbelow r hsub).1⟩
        · exact ⟨q', List.mem_cons_of_mem q hq', hqq'⟩

end Forest

section Below

theorem below_pushBack (hr : r ∈ p.below H) : ∃ e, r = p.pushBack e := by
  unfold below at hr
  split_ifs at hr
  · obtain ⟨a, -, hr⟩ := List.mem_flatMap.1 hr
    split_ifs at hr
    · obtain ⟨i, -, rfl⟩ := List.mem_map.1 hr
      exact ⟨_, rfl⟩
    · exact ⟨_, List.mem_singleton.1 hr⟩
  · cases hr

/-- The hubs and the arrays below a path differ. -/
theorem below_nodup : (p.below H).Nodup := by
  unfold below
  by_cases hdev : H.isDev (p.tailEntry H) = true
  · rw [if_pos hdev, List.nodup_flatMap]
    have hparts : ∀ a, ∀ r ∈ (if H.isDev (H.entry a) = true then
        (List.range (H.nelms a).toNat).map fun i : ℕ ↦ p.descend a i i
        else [p.descend a 0 ((H.nelms a).toNat - 1)]), ∃ f t, r = p.descend a f t := by
      intro a r hr
      split_ifs at hr
      · obtain ⟨i, -, rfl⟩ := List.mem_map.1 hr
        exact ⟨_, _, rfl⟩
      · exact ⟨_, _, List.mem_singleton.1 hr⟩
    refine ⟨fun a _ ↦ ?_, ?_⟩
    · split_ifs
      · refine List.nodup_range.map fun i j hij ↦ ?_
        have hf := (descend_inj hij).2.1
        omega
      · exact List.nodup_singleton _
    · refine (List.Nodup.of_map _ (H.names_nodup (p.tailEntry H))).imp fun {a b} hab r ha hb ↦ ?_
      obtain ⟨f, t, rfl⟩ := hparts a r ha
      obtain ⟨f', t', heq⟩ := hparts b _ hb
      exact hab (descend_inj heq).1
  · rw [if_neg hdev]
    exact List.nodup_nil

theorem starts_nodup : (p.starts H).Nodup := by
  unfold starts
  split
  · exact below_nodup
  · split_ifs
    · refine List.nodup_range.map fun i j hij ↦ ?_
      have hf := (descend_inj hij).2.1
      omega
    · exact List.nodup_singleton _

theorem starts_length : ∃ len, ∀ q ∈ p.starts H, q.entries.length = len := by
  unfold starts
  split
  · refine ⟨p.entries.length + 1, fun q hq ↦ ?_⟩
    obtain ⟨e, rfl⟩ := below_pushBack hq
    simp [pushBack]
  · split_ifs
    · refine ⟨p.up.entries.length + 1, fun q hq ↦ ?_⟩
      obtain ⟨k, -, rfl⟩ := List.mem_map.1 hq
      simp [descend, pushBack]
    · exact ⟨p.entries.length, fun q hq ↦ by rw [List.mem_singleton.1 hq]⟩

/-- Where the arrays below a path fit, the code goes on to what is below it. -/
theorem children_eq_below (h : ∀ r ∈ p.below H, Fits H r) : p.children H = p.below H := by
  unfold PathImpl.children below at *
  by_cases hdev : H.isDev (p.tailEntry H) = true
  · rw [if_pos hdev] at h ⊢
    rw [if_pos hdev]
    refine List.flatMap_congr fun a ha ↦ ?_
    have hfits := fun r hr ↦ h r (List.mem_flatMap.2 ⟨a, ha, hr⟩)
    have hnelms : ∀ f t, Fits H (p.descend a f t) →
        0 < (H.nelms a).toNat ∧ (H.nelms a).toNat ≤ 2 ^ 31 := by
      intro f t hft
      exact hft.nelms _ (List.mem_append_right _ (List.mem_singleton_self _))
    have hpred := toInt_pred (H.nelms a)
    by_cases hsub : H.isDev (H.entry a) = true
    · simp only [if_pos hsub] at hfits ⊢
      refine List.map_congr_left fun i hi ↦ ?_
      obtain ⟨hpos, hle⟩ := hnelms _ _ (hfits _ (List.mem_map_of_mem hi))
      rw [if_pos ⟨hpos, hle⟩] at hpred
      rw [List.mem_range] at hi
      have hmod : (UInt32.ofNat i).toNat = i := by
        rw [UInt32.toNat_ofNat']
        omega
      have hint : toInt (UInt32.ofNat i) = i := by
        rw [toInt_eq, hmod, if_pos (by omega)]
      rw [hint, make_of_inRange (by omega) (le_refl _) (by omega)]
      rfl
    · simp only [if_neg hsub] at hfits ⊢
      obtain ⟨hpos, hle⟩ := hnelms _ _ (hfits _ (List.mem_singleton_self _))
      rw [if_pos ⟨hpos, hle⟩] at hpred
      have hmake : PathEntry.make H a (-1) (-1) p.getNelms =
          ⟨a, 0, (H.nelms a).toNat - 1,
            p.getNelms * UInt32.ofInt ((H.nelms a).toNat - 1 - 0 + 1)⟩ := by
        have hlt : ¬((H.nelms a).toNat : ℤ) - 1 < 0 := by omega
        simp only [PathEntry.make, hpred]
        norm_num [hlt]
      rw [hmake]
      rfl
  · rw [if_neg hdev, if_neg hdev]

/-- Where the array of hubs at the tail fits, the code starts at each of its hubs. -/
theorem starting_eq_starts (hp : Sound H p) (h : ∀ q ∈ p.starts H, Fits H q) :
    p.starting H = p.starts H := by
  unfold starting starts at *
  cases hlast : p.entries.getLast? with
  | none =>
    rw [hlast] at h
    exact children_eq_below h
  | some e =>
    rw [hlast] at h
    dsimp only at h ⊢
    by_cases hdev : H.isDev (H.entry e.c_p) = true
    · rw [if_pos hdev] at h ⊢
      rw [if_pos hdev]
      have hclip := hp.clipped e (List.mem_of_getLast? hlast)
      refine List.map_congr_left fun k hk ↦ ?_
      have hfits := (h _ (List.mem_map_of_mem hk)).nelms _
        (List.mem_append_right _ (List.mem_singleton_self _))
      dsimp only at hfits
      have hrange := hclip.inRange_iff.2 hfits
      have hpred := toInt_pred (H.nelms e.c_p)
      rw [if_pos hfits] at hpred
      rw [List.mem_range, PathEntry.width] at hk
      rw [make_of_inRange (by omega) (le_refl _) (by omega)]
      rfl
    · rw [if_neg hdev, if_neg hdev]

end Below

theorem sound_children (hp : Sound H p) (hr : r ∈ p.children H) : Sound H r := by
  obtain ⟨a, f, t, ha, rfl⟩ := mem_children hr
  exact hp.pushBack ha

theorem sound_starting (hp : Sound H p) (hq : q ∈ p.starting H) : Sound H q := by
  unfold starting at hq
  cases hlast : p.entries.getLast? with
  | none =>
    rw [hlast] at hq
    exact sound_children hp hq
  | some e =>
    rw [hlast] at hq
    dsimp only at hq
    split_ifs at hq
    · obtain ⟨k, -, rfl⟩ := List.mem_map.1 hq
      refine hp.up.pushBack ?_
      have hlinked := hp.linked
      rw [← List.dropLast_append_getLast? e hlast] at hlinked
      exact (linked_append.1 hlinked).2.1
    · rw [List.mem_singleton.1 hq]
      exact hp

variable [DecidableEq Ent] [DecidableEq Addr]

/-- Every visitor is shown each hub instance and each array of leaves once, in order and with a
well-formed path, exactly if the array at the tail ends before the largest `int` and all arrays on
the way to what is below the path fit. -/
theorem explore_visits_once_iff (hp : Reachable H p) (hN : ∀ a, H.depth (H.entry a) < N)
    (hn : N ≤ n) :
    (∀ visitor : IPathVisitor Ent Addr, ∃ ts, p.exploreCalls H visitor n = some ts ∧
      VisitsOnce H visitor p ts) ↔
    (∀ e, p.entries.getLast? = some e → H.isDev (H.entry e.c_p) = true → e.idxt ≠ INT_MAX) ∧
      ∀ q, Instance H p q → Fits H q := by
  constructor
  · intro h
    obtain ⟨ts, hts, honce⟩ := h fun _ _ ↦ true
    have hend : ∀ e, p.entries.getLast? = some e → H.isDev (H.entry e.c_p) = true →
        e.idxt ≠ INT_MAX := by
      intro e he hdev hmax
      rw [exploreCalls, he] at hts
      dsimp only at hts
      rw [if_pos hdev, if_pos hmax] at hts
      cases hts
    refine ⟨hend, fun q hq ↦ ?_⟩
    have hvisited : q ∈ visited ts := by
      induction hq with
      | start hq => exact (honce.complete _).2 (.inl hq)
      | next _ hr ih =>
        exact (honce.complete _).2 (.inr ⟨_, honce.follows.descends (fun _ _ ↦ rfl) ih, hr⟩)
    obtain ⟨ts', hts', hforest⟩ := exploreCalls_explored (fun _ _ ↦ true) hN hn hend
    cases hts.symm.trans hts'
    have hsound := hforest.keeps (I := Sound H) (fun q hq ↦ sound_starting hp.sound hq)
      (fun q hq r hr ↦ sound_children hq hr) q hvisited
    exact hsound.fits_of_wellFormed (honce.wellFormed q hvisited)
  · intro h visitor
    obtain ⟨hend, hfits⟩ := h
    obtain ⟨ts, hts, hforest⟩ := exploreCalls_explored visitor hN hn hend
    have hstarts := starting_eq_starts hp.sound fun q hq ↦ hfits q (.start hq)
    have heq : ∀ q, Instance H p q → q.children H = q.below H :=
      fun q hq ↦ children_eq_below fun r hr ↦ hfits r (.next hq hr)
    have hsound := hforest.keeps (I := Sound H) (fun q hq ↦ sound_starting hp.sound hq)
      fun q hq r hr ↦ sound_children hq hr
    rw [hstarts] at hforest
    have hbelow := hforest.congr (I := Instance H p) (fun q hq ↦ .start hq)
      (fun q hq r hr ↦ .next hq hr) heq
    obtain ⟨len, hlen⟩ := starts_length (H := H) (p := p)
    refine ⟨ts, hts, hbelow, ?_, fun q ↦ hbelow.mem_visited_iff, fun q hq ↦ ?_⟩
    · exact (hbelow.nodup hlen starts_nodup fun q ↦ ⟨below_nodup, fun r hr ↦ below_pushBack hr⟩).1
    · have hinst := hbelow.keeps (I := Instance H p) (fun q hq ↦ .start hq)
        (fun q hq r hr ↦ .next hq hr) q hq
      exact (hsound q hq).wellFormed_of_fits (hfits q hinst)

/-- Two hubs, and the leaves of each. -/
theorem explore_visits_once_nested : ∃ ts,
    (⟨0, [⟨0, 0, 1, 2⟩]⟩ : PathImpl (Fin 3) (Fin 2)).exploreCalls (nested 2 3) (fun _ _ ↦ true) 3 =
      some ts ∧ VisitsOnce (nested 2 3) (fun _ _ ↦ true) ⟨0, [⟨0, 0, 1, 2⟩]⟩ ts := by
  have hp : (create 0).findByName (nested 2 3) ['a'] = .ok ⟨0, [⟨0, 0, 1, 2⟩]⟩ :=
    toOption_eq_some.1 (by decide +kernel)
  let all : List (PathImpl (Fin 3) (Fin 2)) := [⟨0, [⟨0, 0, 0, 1⟩]⟩, ⟨0, [⟨0, 1, 1, 1⟩]⟩,
    ⟨0, [⟨0, 0, 0, 1⟩, ⟨1, 0, 2, 3⟩]⟩, ⟨0, [⟨0, 1, 1, 1⟩, ⟨1, 0, 2, 3⟩]⟩]
  have hstarts : ∀ q ∈ (⟨0, [⟨0, 0, 1, 2⟩]⟩ : PathImpl (Fin 3) (Fin 2)).starts (nested 2 3),
      q ∈ all := by decide +kernel
  have hbelow : ∀ q ∈ all, ∀ r ∈ q.below (nested 2 3), r ∈ all := by decide +kernel
  refine (explore_visits_once_iff (N := 3) (.findByName (.create rfl) hp) (by decide) (le_refl 3)).2
    ⟨fun e he _ ↦ ?_, fun q hq ↦ ?_⟩ fun _ _ ↦ true
  · cases he
    decide
  · have hmem : q ∈ all := by
      induction hq with
      | start h => exact hstarts _ h
      | next _ h ih => exact hbelow _ ih _ h
    have hfits : ∀ q ∈ all, (∀ e ∈ q.entries, 0 < ((nested 2 3).nelms e.c_p).toNat ∧
        ((nested 2 3).nelms e.c_p).toNat ≤ 2 ^ 31) ∧
          (q.entries.map PathEntry.width).prod < 2 ^ 32 := by decide +kernel
    exact ⟨(hfits q hmem).1, (hfits q hmem).2⟩

/-- A visitor is shown the element `-1` of an array of leaves that has none. -/
theorem not_visits_once : ¬∃ ts,
    (create 0).exploreCalls (nested 1 0) (fun _ _ ↦ true) 3 = some ts ∧
      VisitsOnce (nested 1 0) (fun _ _ ↦ true) (create 0) ts := by
  intro h
  obtain ⟨ts, hts, honce⟩ := h
  have hcalls : (create 0).exploreCalls (nested 1 0) (fun _ _ ↦ true) 3 =
      some [.visitPre ⟨0, [⟨0, 0, 0, 1⟩]⟩ true,
        .visitPre ⟨0, [⟨0, 0, 0, 1⟩, ⟨1, -1, -1, 1⟩]⟩ true,
        .visitPost ⟨0, [⟨0, 0, 0, 1⟩, ⟨1, -1, -1, 1⟩]⟩,
        .visitPost ⟨0, [⟨0, 0, 0, 1⟩]⟩] := by decide +kernel
  cases hts.symm.trans hcalls
  have hwf := honce.wellFormed ⟨0, [⟨0, 0, 0, 1⟩, ⟨1, -1, -1, 1⟩]⟩ (by simp)
  exact absurd (hwf.inRange ⟨1, -1, -1, 1⟩ (by simp)).1 (by decide)

end Cpsw.Path
