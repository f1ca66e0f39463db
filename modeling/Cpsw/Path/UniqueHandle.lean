import Cpsw.Lib.Whole
import Cpsw.Path.Elements

namespace Cpsw.Path

open Cpsw.Lib Cpsw.Lib.Run PathImpl

/-- The head of an entry's list of handles, or a handle. -/
inductive ListNode (Ent : Type)
  | head (e : Ent)
  | handle (i : ℕ)
  deriving DecidableEq

/-- The lists of handles and the `Path` objects, which handles refer to. -/
structure Handles (Ent Addr : Type) where
  links : Links (ListNode Ent)
  /-- `path_` of a handle -/
  path : ℕ → ℕ
  fresh : ℕ
  paths : ℕ → PathImpl Ent Addr
  /-- The entry that a live handle was made for, and the path it was made with. -/
  holder : ℕ → Option Ent
  granted : ℕ → PathImpl Ent Addr

inductive HandleError
  | invalidArg (text : String)
  | multipleInstantiation (text : List Char)

variable {Ent Addr : Type} (H : Hierarchy Ent Addr)

section Definitions

variable [DecidableEq Ent] [DecidableEq Addr]

def addUnguarded (l : Links (ListNode Ent)) (me h : ListNode Ent) : Links (ListNode Ent) :=
  l.link (some h) me (l.next h)

def delUnguarded (l : Links (ListNode Ent)) (me : ListNode Ent) : Links (ListNode Ent) :=
  let l' := l.unlink (l.prev me) (l.next me)
  { next := Function.update l'.next me none, prev := Function.update l'.prev me none }

namespace Handles

variable (s : Handles Ent Addr)

def init (paths : ℕ → PathImpl Ent Addr) : Handles Ent Addr :=
  ⟨⟨fun _ ↦ none, fun _ ↦ none⟩, fun _ ↦ 0, 0, paths, fun _ ↦ none, fun i ↦ paths i⟩

/-- The loop over the handles, of which there are no more than have been made. -/
def findIntersecting (new : PathImpl Ent Addr) : ℕ → Option (ListNode Ent) → Bool
  | n + 1, some (.handle i) =>
    if (s.paths (s.path i)).isIntersecting new then true
    else findIntersecting new n (s.links.next (.handle i))
  | _, _ => false

def getUniqueHandle (e : Ent) (ref : ℕ) : Except HandleError (Handles Ent Addr) :=
  if s.findIntersecting (s.paths ref) s.fresh (s.links.next (.head e)) then
    .error (.multipleInstantiation ((s.paths ref).toString H))
  else
    .ok { s with
      links := addUnguarded s.links (.handle s.fresh) (.head e)
      path := Function.update s.path s.fresh ref
      fresh := s.fresh + 1
      holder := Function.update s.holder s.fresh (some e)
      granted := Function.update s.granted s.fresh (s.paths ref) }

/-- `check_interface`, for an entry that wants a single interface. -/
def checkInterface (ref : ℕ) : Except HandleError (Handles Ent Addr) :=
  if (s.paths ref).entries = [] then .error (.invalidArg "Empty Path")
  else s.getUniqueHandle H ((s.paths ref).tailEntry H) ref

/-- The destructor of a handle. -/
def release (i : ℕ) : Handles Ent Addr :=
  { s with
    links := delUnguarded s.links (.handle i)
    holder := Function.update s.holder i none }

/-- A caller changes one of its paths, or makes one. -/
def modify (ref : ℕ) (p : PathImpl Ent Addr) : Handles Ent Addr :=
  { s with paths := Function.update s.paths ref p }

end Handles

inductive HandleEvent (Ent Addr : Type)
  | checkInterface (ref : ℕ)
  | release (i : ℕ)
  | modify (ref : ℕ) (p : PathImpl Ent Addr)

/-- An error leaves everything as it was. -/
def Handles.step (s : Handles Ent Addr) : HandleEvent Ent Addr → Handles Ent Addr
  | .checkInterface ref =>
    match s.checkInterface H ref with
    | .ok s => s
    | .error _ => s
  | .release i => s.release i
  | .modify ref p => s.modify ref p

/-- Interfaces are asked for along paths from one hub, and a path that a live handle refers to is
not changed. -/
def Careful (s : Handles Ent Addr) : HandleEvent Ent Addr → Prop
  | .checkInterface ref => ∀ i, s.holder i = some ((s.paths ref).tailEntry H) →
      (s.granted i).originDev = (s.paths ref).originDev
  | .release _ => True
  | .modify ref _ => ∀ i, s.holder i ≠ none → s.path i ≠ ref

/-- A step that keeps to this. -/
def CarefulStep (s t : Handles Ent Addr) : Prop :=
  ∃ ev, Careful H s ev ∧ t = s.step H ev

end Definitions

variable {H} {s t : Handles Ent Addr} {p q : PathImpl Ent Addr} {e : Ent} {i j ref : ℕ}

/-- What the lists of handles hold: they are linked in both directions, they hold the live handles,
a live handle refers to the path that it was made with, and those of one entry have no element in
common. -/
structure Exclusive (H : Hierarchy Ent Addr) (s : Handles Ent Addr) (l : Ent → List ℕ) : Prop where
  whole : ∀ e, s.links.Whole (.head e :: (l e).map .handle)
  mem : ∀ e i, i ∈ l e ↔ s.holder i = some e
  lt : ∀ e i, s.holder i = some e → i < s.fresh
  free : ∀ i, s.holder i = none →
    s.links.next (.handle i) = none ∧ s.links.prev (.handle i) = none
  current : ∀ e i, s.holder i = some e → s.paths (s.path i) = s.granted i
  apart : ∀ e i j, s.holder i = some e → s.holder j = some e → i ≠ j →
    ¬∃ c, Addresses H (s.granted i) c ∧ Addresses H (s.granted j) c

/-- The loop sees all handles from one on. -/
theorem findIntersecting_eq [DecidableEq Ent] [DecidableEq Addr] {u : List (ListNode Ent)} {v : List ℕ} {n : ℕ}
    (h : s.links.Whole (u ++ v.map .handle)) (hn : v.length ≤ n) :
    s.findIntersecting p n (v.map ListNode.handle).head? =
      v.any fun i ↦ (s.paths (s.path i)).isIntersecting p := by
  induction v generalizing u n with
  | nil =>
    cases n <;> rfl
  | cons i v ih =>
    cases n with
    | zero => simp at hn
    | succ n =>
      have hnext : s.links.next (.handle i) = (v.map ListNode.handle).head? := h.next_eq
      have hrest : s.links.Whole ((u ++ [.handle i]) ++ v.map .handle) := by simpa using h
      rw [List.map_cons, List.head?_cons, Handles.findIntersecting, hnext,
        ih hrest (by simpa using hn), List.any_cons]
      split_ifs with hi
      · rw [hi, Bool.true_or]
      · rw [Bool.eq_false_of_not_eq_true hi, Bool.false_or]

namespace Exclusive

variable {l : Ent → List ℕ}

theorem init (paths : ℕ → PathImpl Ent Addr) : Exclusive H (Handles.init paths) fun _ ↦ [] := by
  refine ⟨fun e ↦ .singleton rfl rfl, fun e i ↦ ?_, fun e i h ↦ ?_, fun i _ ↦ ⟨rfl, rfl⟩,
    fun e i h ↦ ?_, fun e i j h ↦ ?_⟩
  · simp [Handles.init]
  · cases h
  · cases h
  · cases h

theorem length_le (h : Exclusive H s l) (e : Ent) : (l e).length ≤ s.fresh := by
  have hnd : (l e).Nodup := .of_map ListNode.handle (List.nodup_cons.1 (h.whole e).nodup).2
  have hsub : l e ⊆ List.range s.fresh := by
    intro i hi
    exact List.mem_range.2 (h.lt e i ((h.mem e i).1 hi))
  simpa using (List.subperm_of_subset hnd hsub).length_le

/-- A path that is not modified while it is referred to keeps the lists as they are. -/
theorem modify (h : Exclusive H s l) (hc : Careful H s (.modify ref p)) :
    Exclusive H (s.modify ref p) l := by
  refine ⟨h.whole, h.mem, h.lt, h.free, fun e i hi ↦ ?_, h.apart⟩
  have hne : s.path i ≠ ref := hc i (by simp [show s.holder i = some e from hi])
  exact (Function.update_of_ne hne _ _).trans (h.current e i hi)

theorem eq_or_holder (h : Exclusive H s l) {y : ListNode Ent}
    (hy : y ∈ ListNode.head e :: (l e).map .handle) :
    y = .head e ∨ ∃ i, y = .handle i ∧ s.holder i = some e := by
  rcases List.mem_cons.1 hy with rfl | hy
  · exact .inl rfl
  · obtain ⟨i, hi, rfl⟩ := List.mem_map.1 hy
    exact .inr ⟨i, rfl, (h.mem e i).1 hi⟩

/-- The lists of two entries have no cell in common. -/
theorem disjoint (h : Exclusive H s l) {e' : Ent} (he : e ≠ e') {y : ListNode Ent}
    (hy : y ∈ ListNode.head e :: (l e).map .handle) :
    y ∉ ListNode.head e' :: (l e').map .handle := by
  intro hy'
  rcases h.eq_or_holder hy with rfl | ⟨i, rfl, hi⟩
  · rcases h.eq_or_holder hy' with hh | ⟨i, hh, -⟩
    · exact he (ListNode.head.inj hh)
    · cases hh
  · rcases h.eq_or_holder hy' with hh | ⟨j, hh, hj⟩
    · cases hh
    · cases hh
      exact he (Option.some.inj (hi.symm.trans hj))

variable [DecidableEq Ent]

/-- What taking a handle out does to the links: the neighbours are cells of the same list. -/
theorem delUnguarded_links (h : Exclusive H s l) {a b : List ℕ} (hab : l e = a ++ i :: b) :
    (∀ y, some y = s.links.prev (.handle i) → y ∈ ListNode.head e :: (l e).map .handle) ∧
      (∀ y, some y = s.links.next (.handle i) → y ∈ ListNode.head e :: (l e).map .handle) ∧
      (s.links.unlink (s.links.prev (.handle i)) (s.links.next (.handle i))).Whole
        (.head e :: (a ++ b).map .handle) := by
  have hsplit : ListNode.head e :: (l e).map ListNode.handle =
      (.head e :: a.map .handle) ++ .handle i :: b.map .handle := by simp [hab]
  have hwhole : s.links.Whole ((.head e :: a.map .handle) ++ .handle i :: b.map .handle) :=
    hsplit ▸ h.whole e
  have hun := hwhole.unlink
  rw [← hwhole.prev_eq, ← hwhole.next_eq] at hun
  refine ⟨fun y hy ↦ ?_, fun y hy ↦ ?_, by simpa using hun⟩
  · rw [hwhole.prev_eq] at hy
    exact hsplit ▸ List.mem_append_left _ (List.mem_of_getLast? hy.symm)
  · rw [hwhole.next_eq] at hy
    exact hsplit ▸ List.mem_append_right _ (List.mem_cons_of_mem _ (List.mem_of_head? hy.symm))

/-- A handle leaves the list of its entry. -/
theorem release_some (h : Exclusive H s l) (hi : s.holder i = some e) :
    ∃ l', Exclusive H (s.release i) l' := by
  obtain ⟨a, b, hab⟩ := List.append_of_mem ((h.mem e i).2 hi)
  obtain ⟨hprev, hnext, hun⟩ := h.delUnguarded_links hab
  have hnd : (a ++ i :: b).Nodup :=
    hab ▸ .of_map ListNode.handle (List.nodup_cons.1 (h.whole e).nodup).2
  have hiab : i ∉ a ++ b := (List.nodup_cons.1 (List.perm_middle.nodup_iff.1 hnd)).1
  have hlive {e' : Ent} {j : ℕ} (hj : (s.release i).holder j = some e') :
      j ≠ i ∧ s.holder j = some e' := by
    by_cases hji : j = i
    · subst hji
      simp [Handles.release] at hj
    · exact ⟨hji, (Function.update_of_ne hji _ _).symm.trans hj⟩
  refine ⟨Function.update l e (a ++ b), ?_, ?_, ?_, ?_, ?_, ?_⟩
  · intro e'
    by_cases he : e' = e
    · subst he
      rw [Function.update_self]
      -- the fields of the handle itself are no longer part of the list
      have hne {y : ListNode Ent} (hy : y ∈ ListNode.head e' :: (a ++ b).map .handle) :
          y ≠ .handle i := by
        rintro rfl
        exact hiab (by simpa using hy)
      exact hun.frame (fun y hy ↦ Function.update_of_ne (hne hy) _ _)
        (fun y hy ↦ Function.update_of_ne (hne hy) _ _)
    · rw [Function.update_of_ne he]
      have hmem {y : ListNode Ent} (hy : y ∈ ListNode.head e' :: (l e').map .handle) :
          y ∉ ListNode.head e :: (l e).map .handle := h.disjoint he hy
      have hyi {y : ListNode Ent} (hy : y ∈ ListNode.head e' :: (l e').map .handle) :
          y ≠ .handle i := by
        intro hyi
        exact hmem hy (by simp [hyi, hab])
      exact (h.whole e').frame
        (fun y hy ↦ (Function.update_of_ne (hyi hy) _ _).trans (if_neg fun hp ↦ hmem hy (hprev y hp)))
        (fun y hy ↦ (Function.update_of_ne (hyi hy) _ _).trans (if_neg fun hn ↦ hmem hy (hnext y hn)))
  · intro e' j
    by_cases hji : j = i
    · subst hji
      by_cases he : e' = e
      · subst he
        simpa [Handles.release] using hiab
      · rw [Function.update_of_ne he, h.mem, hi]
        simp [Handles.release, Ne.symm he]
    · have hj : (s.release i).holder j = s.holder j := Function.update_of_ne hji _ _
      rw [hj, ← h.mem]
      by_cases he : e' = e
      · subst he
        rw [Function.update_self, hab]
        simp [hji]
      · rw [Function.update_of_ne he]
  · intro e' j hj
    exact h.lt e' j (hlive hj).2
  · intro j hj
    by_cases hji : j = i
    · subst hji
      exact ⟨Function.update_self .., Function.update_self ..⟩
    · have hj : s.holder j = none := (Function.update_of_ne hji _ _).symm.trans hj
      have hjy : ListNode.handle j ∉ ListNode.head e :: (l e).map ListNode.handle := by
        intro hm
        have := (h.mem e j).1 (by simpa using hm)
        rw [hj] at this
        cases this
      have hne : ListNode.handle j ≠ (ListNode.handle i : ListNode Ent) := by simpa using hji
      obtain ⟨hfn, hfp⟩ := h.free j hj
      exact ⟨(Function.update_of_ne hne _ _).trans ((if_neg fun hp ↦ hjy (hprev _ hp)).trans hfn),
        (Function.update_of_ne hne _ _).trans ((if_neg fun hn ↦ hjy (hnext _ hn)).trans hfp)⟩
  · intro e' j hj
    exact h.current e' j (hlive hj).2
  · intro e' j k hj hk
    exact h.apart e' j k (hlive hj).2 (hlive hk).2

theorem release (h : Exclusive H s l) (i : ℕ) : ∃ l', Exclusive H (s.release i) l' := by
  cases hi : s.holder i with
  | none =>
    -- there is nothing to take out
    obtain ⟨hnext, hprev⟩ := h.free i hi
    have hlinks : delUnguarded s.links (.handle i) = s.links := by
      simp only [delUnguarded, hnext, hprev]
      have hn : Function.update s.links.next (.handle i) none = s.links.next := by
        rw [← hnext, Function.update_eq_self]
      have hp : Function.update s.links.prev (.handle i) none = s.links.prev := by
        rw [← hprev, Function.update_eq_self]
      simp [Links.unlink, hn, hp]
    have hholder : Function.update s.holder i none = s.holder := by
      rw [← hi, Function.update_eq_self]
    have hs : s.release i = s := by
      simp only [Handles.release, hlinks, hholder]
    exact ⟨l, by rwa [hs]⟩
  | some e => exact h.release_some hi

variable [DecidableEq Addr]

/-- A new handle comes first in the list of its entry. -/
theorem checkInterface (h : Exclusive H s l) (hc : Careful H s (.checkInterface ref))
    (ht : s.checkInterface H ref = .ok t) : ∃ l', Exclusive H t l' := by
  have hc : ∀ i, s.holder i = some ((s.paths ref).tailEntry H) →
      (s.granted i).originDev = (s.paths ref).originDev := hc
  unfold Handles.checkInterface Handles.getUniqueHandle at ht
  split_ifs at ht with hempty hfind
  cases ht
  generalize he : (s.paths ref).tailEntry H = e at hfind hc ⊢
  have hwhole : s.links.Whole ([.head e] ++ (l e).map .handle) := h.whole e
  have hnext : s.links.next (.head e) = ((l e).map ListNode.handle).head? :=
    (h.whole e).next_eq (u := [])
  rw [hnext, findIntersecting_eq hwhole (h.length_le e)] at hfind
  have hnew {e' : Ent} : ListNode.handle s.fresh ∉ ListNode.head e' :: (l e').map .handle := by
    intro hm
    exact lt_irrefl _ (h.lt e' s.fresh ((h.mem e' _).1 (by simpa using hm)))
  have hadd : addUnguarded s.links (.handle s.fresh) (.head e) =
      s.links.link [ListNode.head e].getLast? (.handle s.fresh)
        ((l e).map ListNode.handle).head? := by rw [addUnguarded, hnext, List.getLast?_singleton]
  refine ⟨Function.update l e (s.fresh :: l e), ?_, ?_, ?_, ?_, ?_, ?_⟩
  · intro e'
    dsimp only
    rw [hadd]
    by_cases he' : e' = e
    · subst he'
      rw [Function.update_self]
      exact hwhole.link hnew
    · rw [Function.update_of_ne he']
      have hmem {y : ListNode Ent} (hy : y ∈ ListNode.head e' :: (l e').map .handle) :
          y ∉ ListNode.head e :: (l e).map .handle := h.disjoint he' hy
      have hne {y : ListNode Ent} (hy : y ∈ ListNode.head e' :: (l e').map .handle) :
          y ≠ .handle s.fresh := ne_of_mem_of_not_mem hy hnew
      refine (h.whole e').frame (fun y hy ↦ ?_) (fun y hy ↦ ?_)
      · refine (if_neg (hne hy)).trans (if_neg fun hye ↦ hmem hy ?_)
        exact Option.some.inj hye ▸ List.mem_cons_self
      · refine (if_neg (hne hy)).trans (if_neg fun hyn ↦ hmem hy ?_)
        exact List.mem_cons_of_mem _ (List.mem_of_head? hyn.symm)
  · intro e' j
    by_cases hj : j = s.fresh
    · subst hj
      by_cases he' : e' = e
      · subst he'
        simp
      · have hnot : s.fresh ∉ l e' := fun hm ↦ @hnew e' (by simp [hm])
        simp [Function.update_of_ne he', hnot, Ne.symm he']
    · dsimp only
      rw [Function.update_of_ne hj, ← h.mem]
      by_cases he' : e' = e
      · subst he'
        simp [hj]
      · rw [Function.update_of_ne he']
  · intro e' j hj
    by_cases hjf : j = s.fresh
    · exact hjf ▸ Nat.lt_succ_self _
    · have hj : s.holder j = some e' := (Function.update_of_ne hjf _ _).symm.trans hj
      exact (h.lt e' j hj).trans (Nat.lt_succ_self _)
  · intro j hj
    have hjf : j ≠ s.fresh := by
      rintro rfl
      simp at hj
    have hj : s.holder j = none := (Function.update_of_ne hjf _ _).symm.trans hj
    have hne : ListNode.handle j ≠ (ListNode.handle s.fresh : ListNode Ent) := by simpa using hjf
    obtain ⟨hfn, hfp⟩ := h.free j hj
    dsimp only
    rw [hadd]
    refine ⟨(if_neg hne).trans ((if_neg (by simp)).trans hfn),
      (if_neg hne).trans ((if_neg fun hm ↦ ?_).trans hfp)⟩
    have := (h.mem e j).1 (by simpa using List.mem_of_head? hm.symm)
    rw [hj] at this
    cases this
  · intro e' j hj
    by_cases hjf : j = s.fresh
    · subst hjf
      simp
    · have hj : s.holder j = some e' := (Function.update_of_ne hjf _ _).symm.trans hj
      dsimp only
      rw [Function.update_of_ne hjf, Function.update_of_ne hjf]
      exact h.current e' j hj
  · have hapart : ∀ j, s.holder j = some e →
        ¬∃ c, Addresses H (s.granted j) c ∧ Addresses H (s.paths ref) c := by
      rintro j hj ⟨c, hcj, hcn⟩
      have hinter := isIntersecting_of_addresses (hc j hj) hempty hcj hcn
      rw [← h.current e j hj] at hinter
      exact hfind (List.any_eq_true.2 ⟨j, (h.mem e j).2 hj, hinter⟩)
    intro e' i j hi hj hij
    dsimp only at hi hj ⊢
    by_cases hif : i = s.fresh
    · subst hif
      rw [Function.update_self] at hi
      have hjf : j ≠ s.fresh := Ne.symm hij
      rw [Function.update_of_ne hjf] at hj ⊢
      rw [Function.update_self]
      rintro ⟨c, hcn, hcj⟩
      exact hapart j (hj.trans hi.symm) ⟨c, hcj, hcn⟩
    · rw [Function.update_of_ne hif] at hi ⊢
      by_cases hjf : j = s.fresh
      · subst hjf
        rw [Function.update_self] at hj ⊢
        exact hapart i (hi.trans hj.symm)
      · rw [Function.update_of_ne hjf] at hj ⊢
        exact h.apart e' i j hi hj hij

theorem step (h : Exclusive H s l) {ev : HandleEvent Ent Addr} (hc : Careful H s ev) :
    ∃ l', Exclusive H (s.step H ev) l' := by
  cases ev with
  | checkInterface ref =>
    cases ht : s.checkInterface H ref with
    | ok t => simpa [Handles.step, ht] using h.checkInterface hc ht
    | error err => exact ⟨l, by simpa [Handles.step, ht] using h⟩
  | release i => exact h.release i
  | modify ref p => exact ⟨l, h.modify hc⟩

end Exclusive

/-- As long as interfaces are asked for along paths from one hub, and a path that a live handle
refers to is not changed, the live handles of an entry have no element in common. -/
theorem handles_disjoint [DecidableEq Ent] [DecidableEq Addr] {paths : ℕ → PathImpl Ent Addr}
    (h : Relation.ReflTransGen (CarefulStep H) (.init paths) s) (hi : s.holder i = some e)
    (hj : s.holder j = some e) (hij : i ≠ j) :
    ¬∃ c, Addresses H (s.granted i) c ∧ Addresses H (s.granted j) c := by
  have hinv : ∃ l, Exclusive H s l := by
    refine Run.invariant (I := fun s ↦ ∃ l, Exclusive H s l) ?_ h ⟨_, Exclusive.init paths⟩
    rintro s t ⟨l, hl⟩ ⟨ev, hc, rfl⟩
    exact hl.step hc
  obtain ⟨l, hl⟩ := hinv
  exact hl.apart e i j hi hj hij

open scoped Nested in
/-- Two elements of an array of hubs, each with an interface to its leaf. -/
def oneHandle : Handles (Fin 3) (Fin 2) :=
  (Handles.init fun i ↦ ⟨0, [⟨0, i, i, 1⟩, ⟨1, 0, 0, 1⟩]⟩).step (nested 2 1) (.checkInterface 0)

def twoHandles : Handles (Fin 3) (Fin 2) := oneHandle.step (nested 2 1) (.checkInterface 1)

theorem twoHandles_disjoint :
    twoHandles.holder 0 = some 2 ∧ twoHandles.holder 1 = some 2 ∧
      ¬∃ c, Addresses (nested 2 1) (twoHandles.granted 0) c ∧
        Addresses (nested 2 1) (twoHandles.granted 1) c := by
  have h₀ : twoHandles.holder 0 = some 2 := by decide +kernel
  have h₁ : twoHandles.holder 1 = some 2 := by decide +kernel
  refine ⟨h₀, h₁, handles_disjoint (.tail (.tail .refl ⟨.checkInterface 0, ?_, rfl⟩)
    ⟨.checkInterface 1, ?_, rfl⟩) h₀ h₁ (by decide)⟩
  · intro i hi
    cases hi
  · intro i hi
    have hi0 : i = 0 := by
      by_contra h
      have hn : oneHandle.holder i = none := Function.update_of_ne h _ _
      cases hn.symm.trans hi
    subst hi0
    decide +kernel

open scoped Nested in
/-- The leaf below a hub, by a path from the root and by one from the hub. -/
def fromRoot : PathImpl (Fin 3) (Fin 2) := ⟨0, [⟨0, 0, 0, 1⟩, ⟨1, 0, 0, 1⟩]⟩

open scoped Nested in
def fromHub : PathImpl (Fin 3) (Fin 2) := ⟨1, [⟨1, 0, 0, 1⟩]⟩

theorem addresses_leaf : Addresses (nested 1 1) fromRoot [(0, 0), (1, 0)] ∧
    Addresses (nested 1 1) fromHub [(0, 0), (1, 0)] := by
  have htop : ∀ a, (nested 1 1).entry a ≠ 0 := by decide
  have hlead : Leads (nested 1 1) 0 [(0, 0), (1, 0)] :=
    ⟨by decide, by decide, by decide, by decide, by decide, by decide, trivial⟩
  refine ⟨⟨0, [], [(0, 0), (1, 0)], rfl, htop, hlead, rfl, ?_⟩,
    ⟨0, [(0, 0)], [(1, 0)], rfl, htop, hlead, rfl, ?_⟩⟩
  · exact .cons ⟨rfl, by decide, by decide⟩ (.cons ⟨rfl, by decide, by decide⟩ .nil)
  · exact .cons ⟨rfl, by decide, by decide⟩ .nil

/-- Two paths from different hubs to one leaf. -/
def aliased : Handles (Fin 3) (Fin 2) :=
  ((Handles.init fun i ↦ if i = 0 then fromRoot else fromHub).step (nested 1 1)
    (.checkInterface 0)).step (nested 1 1) (.checkInterface 1)

/-- The caller goes on with the path that it has asked for an interface with. -/
def modified : Handles (Fin 3) (Fin 2) :=
  (((Handles.init fun _ ↦ fromRoot).step (nested 1 1) (.checkInterface 0)).step (nested 1 1)
    (.modify 0 fromRoot.up)).step (nested 1 1) (.checkInterface 1)

theorem not_handles_disjoint :
    (aliased.holder 0 = some 2 ∧ aliased.holder 1 = some 2 ∧
      ∃ c, Addresses (nested 1 1) (aliased.granted 0) c ∧
        Addresses (nested 1 1) (aliased.granted 1) c) ∧
    (modified.holder 0 = some 2 ∧ modified.holder 1 = some 2 ∧
      ∃ c, Addresses (nested 1 1) (modified.granted 0) c ∧
        Addresses (nested 1 1) (modified.granted 1) c) := by
  have ha : aliased.granted 0 = fromRoot ∧ aliased.granted 1 = fromHub := by decide +kernel
  have hm : modified.granted 0 = fromRoot ∧ modified.granted 1 = fromRoot := by decide +kernel
  refine ⟨⟨by decide +kernel, by decide +kernel, [(0, 0), (1, 0)], ?_⟩, by decide +kernel,
    by decide +kernel, [(0, 0), (1, 0)], ?_⟩
  · rw [ha.1, ha.2]
    exact addresses_leaf
  · rw [hm.1, hm.2]
    exact ⟨addresses_leaf.1, addresses_leaf.1⟩

end Cpsw.Path
