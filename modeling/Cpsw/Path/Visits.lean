import Cpsw.Path.Flatten

namespace Cpsw.Path

open Cpsw.Lib.Run PathImpl CompositePathIterator

variable {Ent Addr : Type} {H : Hierarchy Ent Addr}
variable {it it' : CompositePathIterator Addr} {s s' : Flat Ent Addr}

/-- To the end of the path: what the iterator shows are the entries of the path. -/
theorem Follows.visits (h : Follows H it s) (hlt : s.total < 2 ^ 32) :
    Visits it s.path.entries.reverse := by
  induction hn : s.path.entries.length generalizing it s with
  | zero =>
    have hnil := List.length_eq_zero_iff.1 hn
    rw [hnil]
    exact .atEnd (h.at_end_iff.2 hnil)
  | succ n ih =>
    have hne : s.path.entries ≠ [] := by
      intro hnil
      rw [hnil] at hn
      cases hn
    obtain ⟨e, he⟩ : ∃ e, s.path.entries.getLast? = some e := ⟨_, List.getLast?_eq_some_getLast hne⟩
    obtain ⟨it', hincr, hfol⟩ := h.incr he fun _ ↦ hlt
    obtain ⟨e', es, hcur, hscale⟩ := h.cur_of_getLast he
    have hsplit := List.dropLast_append_getLast? e he
    have hshow : ({ e' with nelmsLeft := it.getNelmsLeft } : PathEntry Addr) = e := by
      have hlast := h.sound.scaled.last_eq
      rw [he, Option.map_some, Option.getD_some, UInt32.one_mul] at hlast
      rw [h.getNelmsLeft_eq, ← hlast, hscale]
      rfl
    have hrest : s.path.entries.reverse = e :: s.path.up.entries.reverse := by
      conv_lhs => rw [← hsplit]
      rw [List.reverse_append]
      rfl
    have hend : it.at_end = false := by
      rw [Bool.eq_false_iff]
      exact mt h.at_end_iff.1 hne
    rw [hrest, ← hshow]
    refine .next hend (by rw [hcur]; rfl) hincr (ih hfol ?_ ?_)
    · rw [Follows.total_up he]
      exact hlt
    · rw [PathImpl.up, List.length_dropLast, hn]
      rfl

/-- An iterator that starts at the tail of a path and counts the elements of the path can do so. -/
theorem Follows.total_lt (h : Follows H it s) (hdone : s.done = [])
    (hcounts : (it.getNelmsLeft.toNat : ℤ) * it.getNelmsRight.toNat = s.total) :
    s.total < 2 ^ 32 := by
  have hright : it.getNelmsRight = 1 := by
    rw [getNelmsRight, h.right, hdone]
    rfl
  have hone : ((1 : UInt32).toNat : ℤ) = 1 := rfl
  have hlt := it.getNelmsLeft.toNat_lt
  rw [hright, hone] at hcounts
  omega

variable [DecidableEq Ent] [DecidableEq Addr] {theRootDev : Ent}
variable {x : CompositePathIterator Addr × Flat Ent Addr}
variable {xs : List (CompositePathIterator Addr × Flat Ent Addr)}

theorem Follows.agrees (h : Follows H it s) (hlt : s.total < 2 ^ 32) : Agrees H theRootDev it s := by
  refine ⟨h.visits hlt, h.counts hlt, fun q hq ↦ ?_,
    fun e range he ↦ (h.clip_iff theRootDev he fun _ ↦ hlt).1⟩
  by_cases hne : q.entries = []
  · have happend : it.append H q = .ok it := if_pos hne
    have hconcat : s.path.concat H q = .ok s.path := if_pos hne
    exact ⟨fun _ ↦ ⟨_, hconcat⟩, fun _ ↦ ⟨_, happend⟩⟩
  · exact (h.append_iff hq.sound hne).1

/-- What is done with an iterator keeps it at its path. -/
theorem Follows.step (h : Follows H it s) (hlt : s.total < 2 ^ 32)
    (hstep : IteratorStep H theRootDev (it, s) (it', s')) :
    Follows H it' s' ∧ (s'.done = [] ∨ s'.total = s.total) := by
  cases hstep with
  | incr he hit =>
    obtain ⟨it₁, hincr, hfol⟩ := h.incr he fun _ ↦ hlt
    cases hincr.symm.trans hit
    exact ⟨hfol, .inr (Follows.total_up he)⟩
  | append hq hne hit hr => exact ⟨(h.append_iff hq.sound hne).2 _ _ hit hr, .inl rfl⟩
  | clip he hit => exact ⟨(h.clip_iff theRootDev he fun _ ↦ hlt).2 _ _ _ rfl rfl hit, .inl rfl⟩

/-- An iterator is at its path as long as the elements before could be counted. -/
theorem IteratorTrace.follows (h : IteratorTrace H theRootDev (x :: xs))
    (hlt : ∀ y ∈ xs, y.2.total < 2 ^ 32) : Follows H x.1 x.2 := by
  induction xs generalizing x with
  | nil =>
    cases h with
    | ofPath hp => exact .ofPath hp.sound
  | cons y xs ih =>
    cases h with
    | step h hstep =>
      exact ((ih h fun z hz ↦ hlt z (List.mem_cons_of_mem y hz)).step
        (hlt y List.mem_cons_self) hstep).1

/-- Along the way from a path, whatever is appended and restricted, an iterator agrees with the path
exactly if 32 bits can count its elements, all the way. -/
theorem iterator_agrees_iff (h : IteratorTrace H theRootDev xs) :
    (∀ x ∈ xs, Agrees H theRootDev x.1 x.2) ↔ ∀ x ∈ xs, x.2.total < 2 ^ 32 := by
  induction xs with
  | nil => simp
  | cons x xs ih =>
    constructor
    · intro hagrees
      have hrest : ∀ y ∈ xs, y.2.total < 2 ^ 32 := by
        cases h with
        | ofPath => simp
        | step h _ => exact (ih h).1 fun y hy ↦ hagrees y (List.mem_cons_of_mem x hy)
      have hfol := h.follows hrest
      have hcounts := (hagrees x List.mem_cons_self).counts
      intro y hy
      rcases List.mem_cons.1 hy with rfl | hy
      · cases h with
        | ofPath => exact hfol.total_lt rfl hcounts
        | @step z _ zs h hstep =>
          have hz := hrest z List.mem_cons_self
          have hfolz := h.follows fun w hw ↦ hrest w (List.mem_cons_of_mem z hw)
          rcases (hfolz.step hz hstep).2 with hdone | htotal
          · exact hfol.total_lt hdone hcounts
          · rw [htotal]
            exact hz
      · exact hrest y hy
    · intro hlt y hmem
      rcases List.mem_cons.1 hmem with rfl | hy
      · exact (h.follows fun z hz ↦ hlt z (List.mem_cons_of_mem y hz)).agrees (hlt y List.mem_cons_self)
      · cases h with
        | ofPath => exact absurd hy List.not_mem_nil
        | step h _ => exact (ih h).2 (fun z hz ↦ hlt z (List.mem_cons_of_mem x hz)) y hy

/-- An array of hubs, the array of leaves in a hub, and two of these leaves. -/
theorem iterator_agrees_nested : Agrees (nested 4 4) 0
    ⟨false, [⟨1, 1, 2, 2⟩], [[⟨0, 0, 3, 4⟩]], 1, 4⟩ ⟨⟨0, [⟨0, 0, 3, 4⟩, ⟨1, 1, 2, 8⟩]⟩, []⟩ := by
  have hhubs : (create 0).findByName (nested 4 4) ['a'] = .ok ⟨0, [⟨0, 0, 3, 4⟩]⟩ :=
    toOption_eq_some.1 (by decide +kernel)
  have hleaves : (create 1).findByName (nested 4 4) ['b'] = .ok ⟨1, [⟨1, 0, 3, 4⟩]⟩ :=
    toOption_eq_some.1 (by decide +kernel)
  have htrace : IteratorTrace (nested 4 4) 0
      [(⟨false, [⟨1, 1, 2, 2⟩], [[⟨0, 0, 3, 4⟩]], 1, 4⟩, ⟨⟨0, [⟨0, 0, 3, 4⟩, ⟨1, 1, 2, 8⟩]⟩, []⟩),
        (⟨false, [⟨1, 0, 3, 4⟩], [[⟨0, 0, 3, 4⟩]], 1, 4⟩, ⟨⟨0, [⟨0, 0, 3, 4⟩, ⟨1, 0, 3, 16⟩]⟩, []⟩),
        (⟨false, [⟨0, 0, 3, 4⟩], [], 1, 1⟩, ⟨⟨0, [⟨0, 0, 3, 4⟩]⟩, []⟩)] := by
    have hclip : IteratorStep (nested 4 4) 0
        (⟨false, [⟨1, 0, 3, 4⟩], [[⟨0, 0, 3, 4⟩]], 1, 4⟩, ⟨⟨0, [⟨0, 0, 3, 4⟩, ⟨1, 0, 3, 16⟩]⟩, []⟩)
        (⟨false, [⟨1, 1, 2, 2⟩], [[⟨0, 0, 3, 4⟩]], 1, 4⟩,
          ⟨PathImpl.sliced ⟨0, [⟨0, 0, 3, 4⟩, ⟨1, 0, 3, 16⟩]⟩ ⟨1, 0, 3, 16⟩ 1 2, []⟩) :=
      .clip rfl rfl
    exact .step (.step (.ofPath (.findByName (.create rfl) hhubs))
      (.append (.findByName (.create rfl) hleaves) (by simp) rfl rfl)) hclip
  exact (iterator_agrees_iff htrace).2 (by decide) _ List.mem_cons_self

/-- The elements of a path wrap around, and there are none left to count. -/
theorem not_agrees :
    Reachable (nested 65536 65536) ⟨0, [⟨0, 0, 65535, 65536⟩, ⟨1, 0, 65535, 0⟩]⟩ ∧
      ¬Agrees (nested 65536 65536) 0 (.ofPath ⟨0, [⟨0, 0, 65535, 65536⟩, ⟨1, 0, 65535, 0⟩]⟩)
        ⟨⟨0, [⟨0, 0, 65535, 65536⟩, ⟨1, 0, 65535, 0⟩]⟩, []⟩ := by
  refine ⟨large_reachable, fun h ↦ ?_⟩
  exact absurd h.counts (by decide)

end Cpsw.Path
