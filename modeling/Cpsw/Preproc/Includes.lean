import Cpsw.Preproc.Events
import Mathlib.Data.Set.Finite.Basic
import Mathlib.Logic.Relation

namespace Cpsw.Preproc

open Cpsw.Lib

section Graph

variable (fs : FileSystem) (paths : FLookup)

/-- The lines of the header of a file; there are none of a file that does not exist. -/
def FileSystem.header (name : Text) : List Text :=
  match fs.read name with
  | some text => (IStream.ofText text).header.1
  | none => []

/-- A line of the header of `f` includes `g`. -/
def Includes (f g : Text) : Prop := ∃ line ∈ fs.header f, ∃ s, meaning fs paths f line = .include g s

/-- The tag of a `#once` line that comes before any line that includes a file. -/
def guardTag (name : Text) : List Text → Option Text
  | [] => none
  | line :: lines =>
    match directive name line with
    | .once tag => some tag
    | .include _ => none
    | _ => guardTag name lines

/-- The `#once` line of the file precedes its `#include` lines. -/
def Guarded (f : Text) : Prop := (guardTag f (fs.header f)).isSome = true

/-- Every cycle of files that include one another goes through a guarded one. -/
def CyclesGuarded : Prop :=
  ∀ f, ¬Relation.TransGen (fun f g ↦ ¬Guarded fs f ∧ Includes fs paths f g) f f

/-- The tags that guard files. -/
def guardTags : Finset Text :=
  ((fs.files.map Prod.fst).filterMap fun f ↦ guardTag f (fs.header f)).toFinset

/-- The guarding tags that are not known yet. -/
def unseen (tags : List Text) : ℕ := (guardTags fs \ tags.toFinset).card

end Graph

def onceTag? (name line : Text) : Option Text :=
  match directive name line with
  | .once tag => some tag
  | _ => none

/-- The tags of the `#once` lines of a file. -/
def Visit.onceTags (visit : Visit) : List Text := visit.lines.filterMap (onceTag? visit.name)

/-- A file of which all of the header has been read. -/
def Event.finished? : Event → Option Visit
  | .line .. => none
  | .file visit =>
    match visit.stop with
    | .done .. => some visit
    | _ => none

def finished (evs : List Event) : List Visit := evs.filterMap Event.finished?

/-- No tag stands in two files that are read to the end. -/
def Tree.OncePerTag (tree : Tree) : Prop :=
  ∀ tag, (finished tree.events).countP (tag ∈ ·.onceTags) ≤ 1

/-- A file without a tag is read at each of its inclusions. -/
def Tree.UntaggedKept (tree : Tree) : Prop :=
  ∀ visit, .file visit ∈ tree.events → visit.onceTags = [] → visit.stop ≠ .cut

variable {fs : FileSystem} {paths : FLookup} {tags tags' lines : List Text}
variable {name line tag f g : Text} {n : ℕ} {v : Version} {s body : IStream} {items : List Tree}
variable {stop : Stop}

section Acyclic

/-- A relation without cycles on finitely many elements is well-founded. -/
theorem wellFounded_of_acyclic {α : Type} {r : α → α → Prop} {t : Set α} (ht : t.Finite)
    (hr : ∀ a b, r a b → a ∈ t ∧ b ∈ t) (h : ∀ a, ¬Relation.TransGen r a a) :
    WellFounded fun b a ↦ r a b := by
  have : Finite t := ht
  let q : t → t → Prop := fun b a ↦ Relation.TransGen r a b
  have : IsTrans t q := ⟨fun _ _ _ h₁ h₂ ↦ h₂.trans h₁⟩
  have : Std.Irrefl q := ⟨fun a ha ↦ h a ha⟩
  have hq : WellFounded q := Finite.wellFounded_of_trans_of_irrefl q
  have hacc : ∀ a : t, Acc (fun b a ↦ r a b) a.1 := by
    intro a
    induction a using hq.induction with
    | _ a ih =>
      refine ⟨_, fun b hb ↦ ?_⟩
      exact ih ⟨b, (hr _ _ hb).2⟩ (.single hb)
  refine ⟨fun a ↦ ⟨_, fun b hb ↦ ?_⟩⟩
  exact hacc ⟨b, (hr _ _ hb).2⟩

end Acyclic

section Termination

theorem mem_of_read {text : Text} (h : fs.read name = some text) :
    name ∈ fs.files.map Prod.fst := by
  simp only [FileSystem.read, Option.map_eq_some_iff] at h
  obtain ⟨file, hfind, -⟩ := h
  have heq := List.find?_some hfind
  simp only [decide_eq_true_eq] at heq
  exact heq ▸ List.mem_map_of_mem (List.mem_of_find?_eq_some hfind)

theorem mem_of_header (h : line ∈ fs.header name) : name ∈ fs.files.map Prod.fst := by
  unfold FileSystem.header at h
  split at h
  · next hread => exact mem_of_read hread
  · cases h

theorem read_of_include (h : meaning fs paths name line = .include g s) :
    ∃ text, fs.read g = some text ∧ s = .ofText text := by
  unfold meaning at h
  cases hd : directive name line with
  | «include» fileName =>
    rw [hd] at h
    dsimp only at h
    cases hl : paths.lookup fs fileName with
    | error e =>
      rw [hl] at h
      cases h
    | ok incFnam =>
      rw [hl] at h
      dsimp only at h
      unfold mkstrm at h
      cases hr : fs.read incFnam with
      | none =>
        rw [hr] at h
        cases h
      | some text =>
        rw [hr] at h
        cases h
        exact ⟨text, hr, rfl⟩
  | _ =>
    rw [hd] at h
    cases h

theorem unseen_mono (h : tags ⊆ tags') : unseen fs tags' ≤ unseen fs tags := by
  apply Finset.card_le_card
  apply Finset.sdiff_subset_sdiff (Finset.Subset.refl _)
  intro t ht
  exact List.mem_toFinset.mpr (h (List.mem_toFinset.mp ht))

theorem unseen_cons (hguard : tag ∈ guardTags fs) (hnew : tag ∉ tags) :
    unseen fs (tag :: tags) < unseen fs tags := by
  apply Finset.card_lt_card
  rw [Finset.ssubset_iff]
  refine ⟨tag, by simp, ?_⟩
  intro t ht
  obtain rfl | ht := Finset.mem_insert.mp ht
  · simpa using ⟨hguard, hnew⟩
  · simp only [Finset.mem_sdiff, List.mem_toFinset, List.mem_cons, not_or] at ht ⊢
    exact ⟨ht.1, ht.2.2⟩

theorem Expands.tags_subset (h : Expands fs paths tags name n v lines body items stop tags') :
    tags ⊆ tags' := by
  induction h with
  | done => exact List.Subset.refl _
  | cut => exact List.Subset.refl _
  | once hm hk h ih => exact fun t ht ↦ ih (List.mem_cons_of_mem _ ht)
  | «include» hm hkid hok hnext ihkid ihnext => exact fun t ht ↦ ihnext (ihkid ht)
  | broken hm hkid hfail ihkid => exact ihkid
  | version hm h ih => exact ih
  | other hm h ih => exact ih
  | failed hm => exact List.Subset.refl _

/-- The file can be followed through all of its inclusions. -/
def Expandable (fs : FileSystem) (paths : FLookup) (tags : List Text) (name : Text)
    (s : IStream) : Prop :=
  ∃ items stop tags', Expands fs paths tags name 0 .none s.header.1 s.header.2 items stop tags'

/-- Lines can be followed when the files that they include can. -/
theorem exists_expands {k : ℕ}
    (hkids : ∀ tags, unseen fs tags ≤ k → ∀ line ∈ lines, ∀ g s,
      meaning fs paths name line = .include g s → Expandable fs paths tags g s)
    (htags : unseen fs tags ≤ k) :
    ∃ items stop tags', Expands fs paths tags name n v lines body items stop tags' := by
  induction lines generalizing tags n v with
  | nil => exact ⟨_, _, _, .done⟩
  | cons line lines ih =>
    have hnext {tags n v} := @ih tags n v
      fun tags ht l hl ↦ hkids tags ht l (List.mem_cons_of_mem _ hl)
    cases hm : meaning fs paths name line with
    | once tag =>
      by_cases hk : tag ∈ tags
      · exact ⟨_, _, _, .cut hm hk⟩
      · obtain ⟨_, _, _, h⟩ := hnext ((unseen_mono (List.subset_cons_self tag tags)).trans htags)
        exact ⟨_, _, _, .once hm hk h⟩
    | «include» g s =>
      obtain ⟨_, stop, _, hkid⟩ := hkids tags htags line List.mem_cons_self g s hm
      cases hstop : stop.fails with
      | true => exact ⟨_, _, _, .broken hm hkid hstop⟩
      | false =>
        obtain ⟨_, _, _, h⟩ := hnext ((unseen_mono hkid.tags_subset).trans htags)
        exact ⟨_, _, _, .include hm hkid hstop h⟩
    | version w =>
      obtain ⟨_, _, _, h⟩ := hnext htags
      exact ⟨_, _, _, .version hm h⟩
    | other =>
      obtain ⟨_, _, _, h⟩ := hnext htags
      exact ⟨_, _, _, .other hm h⟩
    | fails e => exact ⟨_, _, _, .failed hm⟩

/-- The `#once` line of a guarded file makes room for the files that it includes. -/
theorem exists_expands_guarded {k : ℕ} (hguard : guardTag name lines = some tag)
    (hmem : tag ∈ guardTags fs)
    (hkids : ∀ tags, unseen fs tags < k → ∀ line g s,
      meaning fs paths name line = .include g s → Expandable fs paths tags g s)
    (htags : unseen fs tags ≤ k) :
    ∃ items stop tags', Expands fs paths tags name n v lines body items stop tags' := by
  induction lines generalizing n v with
  | nil => cases hguard
  | cons line lines ih =>
    rw [guardTag] at hguard
    cases hd : directive name line with
    | once tag' =>
      rw [hd] at hguard
      cases hguard
      have hm : meaning fs paths name line = .once tag := by rw [meaning, hd]
      by_cases hk : tag ∈ tags
      · exact ⟨_, _, _, .cut hm hk⟩
      · have hlt : unseen fs (tag :: tags) < k := (unseen_cons hmem hk).trans_le htags
        have h : ∃ items stop tags', Expands fs paths (tag :: tags) name (n + 1) v lines body
            items stop tags' :=
          exists_expands (fun tags ht l _ ↦ hkids tags (ht.trans_lt hlt) l) le_rfl
        obtain ⟨_, _, _, h⟩ := h
        exact ⟨_, _, _, .once hm hk h⟩
    | «include» fileName =>
      rw [hd] at hguard
      cases hguard
    | noFileName => exact ⟨_, _, _, .failed (by rw [meaning, hd])⟩
    | schemaversion w =>
      rw [hd] at hguard
      obtain ⟨_, _, _, h⟩ := ih (n := n + 1) (v := w) hguard
      exact ⟨_, _, _, .version (by rw [meaning, hd]) h⟩
    | badVersion => exact ⟨_, _, _, .failed (by rw [meaning, hd])⟩
    | other =>
      rw [hd] at hguard
      obtain ⟨_, _, _, h⟩ := ih (n := n + 1) (v := v) hguard
      exact ⟨_, _, _, .other (by rw [meaning, hd]) h⟩

/-- Without unguarded cycles every file can be followed. -/
theorem expandable (hg : CyclesGuarded fs paths) {k : ℕ} (htags : unseen fs tags ≤ k)
    {text : Text} (hread : fs.read f = some text) :
    Expandable fs paths tags f (.ofText text) := by
  have hwf := wellFounded_of_acyclic (List.finite_toSet (fs.files.map Prod.fst))
    (fun f g ⟨_, line, hline, s, hm⟩ ↦
      ⟨mem_of_header hline, mem_of_read (read_of_include hm).choose_spec.1⟩) hg
  induction k using Nat.strongRecOn generalizing tags f text with
  | ind k ihk =>
    induction f using hwf.induction generalizing tags text with
    | _ f ihf =>
      have hheader : fs.header f = (IStream.ofText text).header.1 := by
        rw [FileSystem.header, hread]
      cases hguard : guardTag f (IStream.ofText text).header.1 with
      | some tag =>
        have hmem : tag ∈ guardTags fs := by
          rw [guardTags, List.mem_toFinset, List.mem_filterMap]
          exact ⟨f, mem_of_read hread, hheader ▸ hguard⟩
        refine exists_expands_guarded hguard hmem (fun tags ht line g s hm ↦ ?_) htags
        obtain ⟨text', hread', rfl⟩ := read_of_include hm
        exact ihk _ ht le_rfl hread'
      | none =>
        refine exists_expands (fun tags ht line hline g s hm ↦ ?_) htags
        obtain ⟨text', hread', rfl⟩ := read_of_include hm
        refine ihf g ⟨?_, line, hheader ▸ hline, _, hm⟩ ht hread'
        rw [Guarded, hheader, hguard]
        decide

end Termination

section Once

theorem onceTag?_of_once (h : meaning fs paths name line = .once tag) :
    onceTag? name line = some tag := by
  unfold meaning at h
  rw [onceTag?]
  cases hd : directive name line with
  | once tag' =>
    rw [hd] at h
    cases h
    rfl
  | «include» fileName =>
    rw [hd] at h
    dsimp only at h
    split at h
    · cases h
    · split at h <;> cases h
  | _ =>
    rw [hd] at h
    cases h

theorem onceTag?_of_ne (h : ∀ tag, meaning fs paths name line ≠ .once tag) :
    onceTag? name line = none := by
  rw [onceTag?]
  cases hd : directive name line with
  | once tag => exact absurd (by rw [meaning, hd]) (h tag)
  | _ => rfl

/-- What the tags of the files are that are read to the end between two states. -/
structure Tagged (tags tags' : List Text) (files : List (List Text)) : Prop where
  new : ∀ file ∈ files, file.Disjoint tags
  known : ∀ file ∈ files, file ⊆ tags'
  apart : files.Pairwise List.Disjoint

theorem Tagged.nil : Tagged tags tags' [] where
  new := by simp
  known := by simp
  apart := .nil

/-- A file without a tag. -/
theorem Tagged.empty : Tagged tags tags' [[]] where
  new := by simp
  known := by simp
  apart := List.pairwise_singleton _ _

/-- Files that are read one after the other have different tags. -/
theorem Tagged.append {tags₁ : List Text} {files files' : List (List Text)}
    (h : Tagged tags tags₁ files) (h' : Tagged tags₁ tags' files') (hsub : tags ⊆ tags₁)
    (hsub' : tags₁ ⊆ tags') : Tagged tags tags' (files ++ files') where
  new file hf := by
    obtain hf | hf := List.mem_append.mp hf
    · exact h.new file hf
    · exact fun t ht ht' ↦ h'.new file hf ht (hsub ht')
  known file hf := by
    obtain hf | hf := List.mem_append.mp hf
    · exact fun t ht ↦ hsub' (h.known file hf ht)
    · exact h'.known file hf
  apart := by
    refine List.pairwise_append.mpr ⟨h.apart, h'.apart, fun a ha b hb ↦ ?_⟩
    exact fun t ht ht' ↦ h'.new b hb ht' (h.known a ha ht)

/-- The tags of a file itself, when it is read to the end. -/
def Stop.own (file : List Text) : Stop → List (List Text)
  | .done _ _ _ => [file]
  | _ => []

/-- A tag that was not known before may stand in front of the ones of the file. -/
theorem Tagged.once {files : List (List Text)} {file : List Text} (hk : tag ∉ tags)
    (hsub : tag ∈ tags') (h : Tagged (tag :: tags) tags' (files ++ stop.own file)) :
    Tagged tags tags' (files ++ stop.own (tag :: file)) := by
  have hnew : ∀ f ∈ files ++ stop.own file, tag ∉ f ∧ f.Disjoint tags := fun f hf ↦
    List.disjoint_cons_right.mp (h.new f hf)
  cases stop with
  | done body n v =>
    have hlast : file ∈ files ++ [file] := List.mem_append_right _ (List.mem_singleton_self _)
    obtain ⟨hapart, -, hcross⟩ := List.pairwise_append.mp h.apart
    constructor
    · intro f hf
      obtain hf | hf := List.mem_append.mp hf
      · exact (hnew f (List.mem_append_left _ hf)).2
      · rw [List.mem_singleton.mp hf]
        exact List.disjoint_cons_left.mpr ⟨hk, (hnew file hlast).2⟩
    · intro f hf
      obtain hf | hf := List.mem_append.mp hf
      · exact h.known f (List.mem_append_left _ hf)
      · rw [List.mem_singleton.mp hf]
        exact List.cons_subset.mpr ⟨hsub, h.known file hlast⟩
    · refine List.pairwise_append.mpr ⟨hapart, List.pairwise_singleton _ _, fun f hf g hg ↦ ?_⟩
      rw [List.mem_singleton.mp hg]
      refine List.disjoint_cons_right.mpr ⟨(hnew f (List.mem_append_left _ hf)).1, ?_⟩
      exact hcross f hf file (List.mem_singleton_self _)
  | _ => exact ⟨fun f hf ↦ (hnew f hf).2, h.known, h.apart⟩

theorem finished_append {evs evs' : List Event} :
    finished (evs ++ evs') = finished evs ++ finished evs' := List.filterMap_append

theorem finished_self {visit : Visit} {kids : List Tree} :
    (finished (Tree.file visit kids).events).map Visit.onceTags =
      (finished (Tree.eventsAll kids)).map Visit.onceTags ++ visit.stop.own visit.onceTags := by
  have hlast : (finished [.file visit]).map Visit.onceTags = visit.stop.own visit.onceTags := by
    rw [finished, List.filterMap_cons, Event.finished?]
    cases visit.stop <;> rfl
  rw [Tree.events, finished_append, List.map_append, hlast]

theorem finished_file {visit : Visit} {kids : List Tree} :
    (finished (Tree.eventsAll (.file visit kids :: items))).map Visit.onceTags =
      ((finished (Tree.eventsAll kids)).map Visit.onceTags ++ visit.stop.own visit.onceTags) ++
        (finished (Tree.eventsAll items)).map Visit.onceTags := by
  rw [Tree.eventsAll, finished_append, List.map_append, finished_self]

theorem finished_line {m : ℕ} : finished (Tree.eventsAll (.line name m line :: items)) =
    finished (Tree.eventsAll items) := rfl

/-- What is read to the end below the rest of a header, the file itself being the last. -/
theorem Expands.tagged (h : Expands fs paths tags name n v lines body items stop tags') :
    Tagged tags tags' ((finished (Tree.eventsAll items)).map Visit.onceTags ++
      stop.own (lines.filterMap (onceTag? name))) := by
  induction h with
  | done => exact .empty
  | cut => exact .nil
  | once hm hk h ih =>
    rw [finished_line, List.filterMap_cons, onceTag?_of_once hm]
    exact ih.once hk (h.tags_subset List.mem_cons_self)
  | «include» hm hkid hok hnext ihkid ihnext =>
    rw [finished_line, finished_file, List.filterMap_cons,
      onceTag?_of_ne (by rw [hm]; simp), List.append_assoc]
    exact ihkid.append ihnext hkid.tags_subset hnext.tags_subset
  | broken hm hkid hfail ihkid =>
    rw [finished_line, finished_file]
    change Tagged _ _ ((_ ++ []) ++ [])
    rw [List.append_nil, List.append_nil]
    exact ihkid
  | version hm h ih =>
    rw [finished_line, List.filterMap_cons, onceTag?_of_ne (by rw [hm]; simp)]
    exact ih
  | other hm h ih =>
    rw [finished_line, List.filterMap_cons, onceTag?_of_ne (by rw [hm]; simp)]
    exact ih
  | failed hm => exact .nil

end Once

section Visited

/-- Every file of a tree has been expanded from its header, with the tags that were known then. -/
def Visited (fs : FileSystem) (paths : FLookup) (visit : Visit) : Prop :=
  ∃ tags body kids tags', Expands fs paths tags visit.name 0 .none visit.lines body kids
    visit.stop tags'

theorem visited_cons {ev : Event} {evs : List Event}
    (hev : ∀ visit, ev = .file visit → Visited fs paths visit)
    (h : ∀ visit, .file visit ∈ evs → Visited fs paths visit) :
    ∀ visit, .file visit ∈ ev :: evs → Visited fs paths visit := by
  intro visit hv
  obtain hv | hv := List.mem_cons.mp hv
  · exact hev visit hv.symm
  · exact h visit hv

theorem visited_file {visit : Visit} {kids : List Tree} (hself : Visited fs paths visit)
    (hkids : ∀ visit, .file visit ∈ Tree.eventsAll kids → Visited fs paths visit)
    (h : ∀ visit, .file visit ∈ Tree.eventsAll items → Visited fs paths visit) :
    ∀ visit', .file visit' ∈ Tree.eventsAll (.file visit kids :: items) →
      Visited fs paths visit' := by
  intro visit' hv
  obtain hv | hv := List.mem_append.mp hv
  · obtain hv | hv := List.mem_append.mp hv
    · exact hkids visit' hv
    · cases List.mem_singleton.mp hv
      exact hself
  · exact h visit' hv

theorem Expands.visited (h : Expands fs paths tags name n v lines body items stop tags') :
    ∀ visit, .file visit ∈ Tree.eventsAll items → Visited fs paths visit := by
  have hnil : ∀ visit, .file visit ∈ Tree.eventsAll [] → Visited fs paths visit := by
    intro visit hv
    cases hv
  induction h with
  | done => exact hnil
  | cut hm hk => exact visited_cons (fun _ h ↦ nomatch h) hnil
  | once hm hk h ih => exact visited_cons (fun _ h ↦ nomatch h) ih
  | «include» hm hkid hok hnext ihkid ihnext =>
    exact visited_cons (fun _ h ↦ nomatch h) (visited_file ⟨_, _, _, _, hkid⟩ ihkid ihnext)
  | broken hm hkid hfail ihkid =>
    exact visited_cons (fun _ h ↦ nomatch h) (visited_file ⟨_, _, _, _, hkid⟩ ihkid hnil)
  | version hm h ih => exact visited_cons (fun _ h ↦ nomatch h) ih
  | other hm h ih => exact visited_cons (fun _ h ↦ nomatch h) ih
  | failed hm => exact visited_cons (fun _ h ↦ nomatch h) hnil

/-- A file is cut at one of its `#once` lines. -/
theorem Expands.ne_cut (h : Expands fs paths tags name n v lines body items stop tags')
    (hnone : lines.filterMap (onceTag? name) = []) : stop ≠ .cut := by
  induction h with
  | cut hm hk =>
    rw [List.filterMap_cons, onceTag?_of_once hm] at hnone
    cases hnone
  | once hm hk h ih =>
    rw [List.filterMap_cons, onceTag?_of_once hm] at hnone
    cases hnone
  | «include» hm hkid hok hnext ihkid ihnext =>
    rw [List.filterMap_cons, onceTag?_of_ne (by rw [hm]; simp)] at hnone
    exact ihnext hnone
  | version hm h ih =>
    rw [List.filterMap_cons, onceTag?_of_ne (by rw [hm]; simp)] at hnone
    exact ih hnone
  | other hm h ih =>
    rw [List.filterMap_cons, onceTag?_of_ne (by rw [hm]; simp)] at hnone
    exact ih hnone
  | _ => exact fun h ↦ nomatch h

theorem lookup_ne {l : FLookup} {fileName : Text} : l.lookup fs fileName ≠ .error .outOfFuel := by
  have hsearch : ∀ ps, FLookup.search fs fileName ps ≠ .error .outOfFuel := by
    intro ps
    induction ps with
    | nil => exact fun h ↦ nomatch h
    | cons path ps ih =>
      rw [FLookup.search]
      split
      · exact fun h ↦ nomatch h
      · exact ih
      · exact fun h ↦ nomatch h
  unfold FLookup.lookup
  split
  · split <;> exact fun h ↦ nomatch h
  · exact hsearch _

theorem meaning_ne : meaning fs paths name line ≠ .fails .outOfFuel := by
  unfold meaning
  cases directive name line with
  | «include» fileName =>
    dsimp only
    cases hl : paths.lookup fs fileName with
    | error e =>
      intro h
      cases h
      exact lookup_ne hl
    | ok incFnam =>
      dsimp only
      rw [mkstrm]
      cases fs.read incFnam <;> exact fun h ↦ nomatch h
  | _ => exact fun h ↦ nomatch h

/-- No file fails for want of fuel. -/
theorem Expands.ne_outOfFuel (h : Expands fs paths tags name n v lines body items stop tags') :
    stop ≠ .failed .outOfFuel := by
  induction h with
  | failed hm =>
    intro heq
    cases heq
    exact meaning_ne hm
  | «include» hm hkid hok hnext ihkid ihnext => exact ihnext
  | once hm hk h ih => exact ih
  | version hm h ih => exact ih
  | other hm h ih => exact ih
  | _ => exact fun h ↦ nomatch h

end Visited

section Claim

/-- What a run of the preprocessor gives out, by the tree of inclusions. -/
structure Tree.Delivers (tree : Tree) (verbose : Bool)
    (run : Except PreprocError PUnit × YamlPreprocessor) : Prop where
  stops : run.1 ≠ .error .outOfFuel
  /-- What has been given out, in post-order, up to an error. -/
  emits : run.2.mux.streams <+: tree.emits verbose
  /-- All of it without an error. -/
  emitsAll : run.1 = .ok ⟨⟩ → run.2.mux.streams = tree.emits verbose ∧ tree.Whole
  /-- A reader gets one stream after the other. -/
  delivers : ∀ n, run.2.mux.deliver n =
    (run.2.mux.streams.flatMap fun el ↦ el.stream.rest).take n

theorem countP_le_one {visits : List Visit} (tag : Text)
    (h : (visits.map Visit.onceTags).Pairwise List.Disjoint) :
    visits.countP (tag ∈ ·.onceTags) ≤ 1 := by
  induction visits with
  | nil => exact Nat.zero_le _
  | cons visit visits ih =>
    rw [List.map_cons, List.pairwise_cons] at h
    by_cases ht : tag ∈ visit.onceTags
    · have hzero : visits.countP (tag ∈ ·.onceTags) = 0 := by
        rw [List.countP_eq_zero]
        intro v hv
        simpa using h.1 _ (List.mem_map_of_mem hv) ht
      rw [List.countP_cons_of_pos (by simpa using ht), hzero]
    · rw [List.countP_cons_of_neg (by simpa using ht)]
      exact ih h.2

theorem Inclusion.oncePerTag {tree : Tree} (h : Inclusion fs paths name s tree) :
    tree.OncePerTag := by
  obtain ⟨items, stop, tags, hexp, rfl⟩ := h
  intro tag
  apply countP_le_one
  rw [finished_self]
  exact hexp.tagged.apart

theorem Inclusion.visited {tree : Tree} (h : Inclusion fs paths name s tree) {visit : Visit}
    (hv : .file visit ∈ tree.events) : Visited fs paths visit := by
  obtain ⟨items, stop, tags, hexp, rfl⟩ := h
  obtain hv | hv := List.mem_append.mp hv
  · exact hexp.visited visit hv
  · cases List.mem_singleton.mp hv
    exact ⟨_, _, _, _, hexp⟩

theorem Inclusion.untaggedKept {tree : Tree} (h : Inclusion fs paths name s tree) :
    tree.UntaggedKept := by
  intro visit hv hnone
  obtain ⟨_, _, _, _, hexp⟩ := h.visited hv
  exact hexp.ne_cut hnone

theorem Inclusion.delivers {tree : Tree} (h : Inclusion fs paths name s tree) (verbose : Bool)
    {bufsz : ℕ} (hb : 0 < bufsz) :
    tree.Delivers verbose ((runs verbose tree.events).exec (.new (.new bufsz))) := by
  obtain ⟨els, hmux, hpre, hall, hfuel⟩ := runs_emits verbose tree.events
    (p := .new (.new bufsz)) (StreamMuxBuf.new_fresh bufsz)
  have hstreams : ((runs verbose tree.events).exec (.new (.new bufsz))).2.mux.streams = els := by
    rw [hmux]
    exact List.nil_append els
  constructor
  · intro herror
    obtain ⟨visit, hmem, hstop⟩ := hfuel herror
    obtain ⟨_, _, _, _, hexp⟩ := h.visited hmem
    exact hexp.ne_outOfFuel hstop
  · rw [hstreams]
    exact hpre
  · intro hok
    refine ⟨hstreams.trans (hall hok), ?_⟩
    obtain ⟨items, stop, tags, hexp, rfl⟩ := h
    exact (hexp.tags_of_runs (p := .new (.new bufsz)) rfl (Prod.ext hok rfl)).2
  · intro n
    rw [hstreams, hmux, StreamMuxBuf.deliver_eq ⟨hb, Nat.zero_le _⟩]
    rfl

theorem includes_handled (hg : CyclesGuarded fs paths) (name text : Text) (verbose : Bool)
    {bufsz : ℕ} (hb : 0 < bufsz) :
    ∃ tree, Inclusion fs paths name (.ofText text) tree ∧ tree.OncePerTag ∧ tree.UntaggedKept ∧
      ∃ N, ∀ fuel, N ≤ fuel → tree.Delivers verbose
        ((process fs paths verbose fuel (.ofText text) name 0 .none).exec
          (.new (.new bufsz))) := by
  have hexp : Expandable fs paths [] name (.ofText text) :=
    exists_expands (fun tags ht line _ g s hm ↦ by
      obtain ⟨text', hread, rfl⟩ := read_of_include hm
      exact expandable hg ht hread) le_rfl
  obtain ⟨items, stop, tags, hexp⟩ := hexp
  have hinc : Inclusion fs paths name (.ofText text)
      (.file ⟨name, (IStream.ofText text).header.1, stop⟩ items) := ⟨_, _, _, hexp, rfl⟩
  obtain ⟨N, hrun⟩ := hinc.runs_eq verbose (.new bufsz)
  refine ⟨_, hinc, hinc.oncePerTag, hinc.untaggedKept, N, fun fuel hN ↦ ?_⟩
  rw [hrun fuel hN]
  exact hinc.delivers verbose hb

/-- Two files that include each other; the first one is guarded. -/
def loopFiles : FileSystem where
  files := [("/a".toList, "#once a\n#include /b\nx: 1\n".toList),
    ("/b".toList, "#include /a\ny: 1\n".toList)]
  access := fun _ ↦ .ok

theorem cyclesGuarded_loopFiles : CyclesGuarded loopFiles ⟨[], true⟩ := by
  have hstep : ∀ f g, ¬Guarded loopFiles f ∧ Includes loopFiles ⟨[], true⟩ f g →
      f = "/b".toList ∧ g = "/a".toList := by
    rintro f g ⟨hng, line, hline, s, hm⟩
    have hf : f = "/a".toList ∨ f = "/b".toList := by
      simpa [loopFiles] using mem_of_header hline
    obtain rfl | rfl := hf
    · exact absurd (by unfold Guarded; decide +kernel) hng
    · have hheader : loopFiles.header "/b".toList = ["#include /a".toList] := by decide +kernel
      rw [hheader] at hline
      cases List.mem_singleton.mp hline
      have hmeaning : meaning loopFiles ⟨[], true⟩ "/b".toList "#include /a".toList =
          .include "/a".toList (.ofText "#once a\n#include /b\nx: 1\n".toList) := by
        decide +kernel
      rw [hmeaning] at hm
      cases hm
      exact ⟨rfl, rfl⟩
  intro f hf
  obtain ⟨g, hg, -⟩ := Relation.TransGen.head'_iff.mp hf
  obtain ⟨h, -, hh⟩ := Relation.TransGen.tail'_iff.mp hf
  have heq := (hstep _ _ hg).1.symm.trans (hstep _ _ hh).2
  exact absurd heq (by decide)

theorem includes_handled_loop :
    ∃ tree, Inclusion loopFiles ⟨[], true⟩ "m".toList (.ofText "#include /a\nz: 1\n".toList) tree ∧
      tree.OncePerTag ∧ tree.UntaggedKept ∧
      ∃ N, ∀ fuel, N ≤ fuel → tree.Delivers false
        ((process loopFiles ⟨[], true⟩ false fuel (.ofText "#include /a\nz: 1\n".toList)
          "m".toList 0 .none).exec (.new (.new 1024))) :=
  includes_handled cyclesGuarded_loopFiles _ _ false (by decide)

end Claim

end Cpsw.Preproc
