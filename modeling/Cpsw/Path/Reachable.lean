import Cpsw.Lib.Run
import Cpsw.Path.FindByName

namespace Cpsw.Path

open Cpsw.Lib.Run

variable {Ent Addr : Type} (H : Hierarchy Ent Addr)

namespace PathImpl

/-- `explore_children_r`: into each element of a hub, once into a leaf. -/
def exploreChildren (visit : PathImpl Ent Addr → List (PathImpl Ent Addr)) (d : Ent)
    (here : PathImpl Ent Addr) : List (PathImpl Ent Addr) :=
  if H.isDev d then
    (H.children d).flatMap fun a ↦
      if H.isDev (H.entry a) then
        (List.range (H.nelms a).toNat).flatMap fun i ↦
          visit (here.pushBack
            (.make H a (toInt (UInt32.ofNat i)) (toInt (UInt32.ofNat i)) here.getNelms))
      else visit (here.pushBack (.make H a (-1) (-1) here.getNelms))
  else []

/-- `explore_r`, at most `n` levels deep: the paths that the visitor is called with. -/
def exploreR (visitPre : PathImpl Ent Addr → Bool) : ℕ → PathImpl Ent Addr → List (PathImpl Ent Addr)
  | 0, _ => []
  | n + 1, here =>
    here ::
      (if visitPre here then
        exploreChildren H (exploreR visitPre n) (here.tailEntry H) here
      else []) ++ [here]

def explore (visitPre : PathImpl Ent Addr → Bool) (n : ℕ) (p : PathImpl Ent Addr) :
    List (PathImpl Ent Addr) :=
  match p.entries.getLast? with
  | none => exploreChildren H (exploreR H visitPre n) p.originDev p
  | some tail =>
    if H.isDev (H.entry tail.c_p) then
      (List.range tail.width.toNat).flatMap fun k ↦
        let i := tail.idxf + k
        exploreR H visitPre n (p.up.pushBack (.make H tail.c_p i i p.up.getNelms))
    else exploreR H visitPre n p

end PathImpl

open PathImpl

/-- The paths that the operations make, starting from hubs. -/
inductive Reachable [DecidableEq Ent] [DecidableEq Addr] : PathImpl Ent Addr → Prop
  | create {h : Ent} (hh : H.isDev h = true) : Reachable (create h)
  | findByName {p q : PathImpl Ent Addr} {s : List Char} (hp : Reachable p)
      (h : p.findByName H s = .ok q) : Reachable q
  | appendAddress {p q : PathImpl Ent Addr} {a : Addr} {f t : ℤ} (hp : Reachable p)
      (h : p.appendAddress H a f t = .ok q) : Reachable q
  | append {p q r : PathImpl Ent Addr} (hp : Reachable p) (hq : Reachable q)
      (h : p.append H q = .ok r) : Reachable r
  | concat {p q r : PathImpl Ent Addr} (hp : Reachable p) (hq : Reachable q)
      (h : p.concat H q = .ok r) : Reachable r
  | intersect {p q r : PathImpl Ent Addr} (hp : Reachable p) (hq : Reachable q)
      (h : p.intersect H q = .ok (some r)) : Reachable r
  | up {p : PathImpl Ent Addr} (hp : Reachable p) : Reachable p.up
  | clone {p : PathImpl Ent Addr} (hp : Reachable p) : Reachable p
  | verifyAtTail {p q : PathImpl Ent Addr} {h : Ent} (hp : Reachable p) (hh : H.isDev h = true)
      (hq : p.verifyAtTail H h = some q) : Reachable q
  | explore {p q : PathImpl Ent Addr} {visitPre : PathImpl Ent Addr → Bool} {n : ℕ}
      (hp : Reachable p) (h : q ∈ p.explore H visitPre n) : Reachable q

/-- Each entry is a child of the hub before it. -/
def Linked : Ent → List (PathEntry Addr) → Prop
  | _, [] => True
  | d, e :: es => e.c_p ∈ H.children d ∧ Linked (H.entry e.c_p) es

/-- Each entry counts the elements up to it, in 32 bits. -/
def Scaled : UInt32 → List (PathEntry Addr) → Prop
  | _, [] => True
  | n, e :: es => e.nelmsLeft = n * UInt32.ofInt e.width ∧ Scaled e.nelmsLeft es

/-- The indices of `e` are clipped to the array; where the last index is no `int`, or there is
none, both are that negative number. -/
def Clipped (e : PathEntry Addr) : Prop :=
  let n := toInt (H.nelms e.c_p - 1)
  (0 ≤ e.idxf ∧ e.idxf ≤ e.idxt ∧ e.idxt ≤ n) ∨ (n < 0 ∧ e.idxf = n ∧ e.idxt = n)

structure Sound (p : PathImpl Ent Addr) : Prop where
  isDev : H.isDev p.originDev = true
  linked : Linked H p.originDev p.entries
  clipped : ∀ e ∈ p.entries, Clipped H e
  scaled : Scaled 1 p.entries

variable {H} {p q r : PathImpl Ent Addr} {e : PathEntry Addr} {xs ys : List (PathEntry Addr)}
variable {d : Ent} {a : Addr} {n m : UInt32} {f t : ℤ}

theorem linked_append : Linked H d (xs ++ ys) ↔
    Linked H d xs ∧ Linked H ((xs.getLast?.map fun e ↦ H.entry e.c_p).getD d) ys := by
  induction xs generalizing d with
  | nil => simp [Linked]
  | cons e xs ih =>
    rw [List.cons_append, Linked, Linked, ih, and_assoc]
    cases xs with
    | nil => simp
    | cons x xs => simp [List.getLast?_cons]

theorem scaled_append : Scaled n (xs ++ ys) ↔
    Scaled n xs ∧ Scaled ((xs.getLast?.map PathEntry.nelmsLeft).getD n) ys := by
  induction xs generalizing n with
  | nil => simp [Scaled]
  | cons e xs ih =>
    rw [List.cons_append, Scaled, Scaled, ih, and_assoc]
    cases xs with
    | nil => simp
    | cons x xs => simp [List.getLast?_cons]

theorem toInt_eq (n : UInt32) :
    toInt n = if n.toNat < 2 ^ 31 then (n.toNat : ℤ) else n.toNat - 2 ^ 32 := by
  have h : toInt n = n.toBitVec.toInt := rfl
  rw [h, BitVec.toInt_eq_toNat_cond]
  have hn : n.toBitVec.toNat = n.toNat := rfl
  rw [hn]
  split_ifs <;> first | rfl | omega

/-- The last index of an array, as the code computes it. -/
theorem toInt_pred (n : UInt32) : toInt (n - 1) =
    if 0 < n.toNat ∧ n.toNat ≤ 2 ^ 31 then (n.toNat : ℤ) - 1
    else if n.toNat = 0 then -1 else n.toNat - 1 - 2 ^ 32 := by
  have hlt := n.toNat_lt
  have hpred : (n - 1).toNat = (2 ^ 32 - 1 + n.toNat) % 2 ^ 32 := UInt32.toNat_sub n 1
  rw [toInt_eq, hpred]
  split_ifs <;> omega

theorem make_clipped : Clipped H (PathEntry.make H a f t n) := by
  simp only [Clipped, PathEntry.make]
  split_ifs <;> omega

theorem make_scaled : (PathEntry.make H a f t n).nelmsLeft =
    n * UInt32.ofInt (PathEntry.make H a f t n).width := rfl

theorem make_c_p : (PathEntry.make H a f t n).c_p = a := rfl

/-- Indices in the array are taken as they are. -/
theorem make_of_inRange (hf : 0 ≤ f) (hft : f ≤ t) (ht : t ≤ toInt (H.nelms a - 1)) :
    PathEntry.make H a f t n = ⟨a, f, t, n * UInt32.ofInt (t - f + 1)⟩ := by
  have h₁ : ¬f < 0 := by omega
  have h₂ : ¬toInt (H.nelms a - 1) < f := by omega
  have h₃ : ¬(t < 0 ∨ toInt (H.nelms a - 1) < t) := by omega
  have h₄ : ¬t < f := by omega
  simp only [PathEntry.make, if_neg h₁, if_neg h₂, if_neg h₃, if_neg h₄]

/-- What a part of a path can do: go up, or down to a child. -/
theorem findComponent_ok {s comp : List Char} (hq : p.findComponent H s comp = .ok q) :
    (comp = ['.', '.'] ∧ p.entries ≠ [] ∧ q = p.up) ∨
      ∃ a f t, a ∈ H.children (p.tailEntry H) ∧ (0 ≤ f ∧ f ≤ t ∧ t < toInt (H.nelms a)) ∧
        q = p.pushBack (.make H a f t p.getNelms) := by
  unfold findComponent at hq
  split_ifs at hq with hup hempty
  · cases hq
    exact .inl ⟨hup, hempty, rfl⟩
  · right
    dsimp only at hq
    split at hq
    case isFalse => cases hq
    obtain ⟨⟨idxf, idxt⟩, -, hq⟩ := bind_ok.1 hq
    dsimp only at hq
    split at hq
    case h_1 => cases hq
    case h_2 found hfound =>
      have h0 : 0 ≤ (orDefault (H.nelms found) idxf idxt).1 := by
        simp only [orDefault]
        split_ifs <;> omega
      generalize orDefault (H.nelms found) idxf idxt = indices at hq h0
      obtain ⟨f, t⟩ := indices
      dsimp only at hq h0
      split_ifs at hq
      cases hq
      exact ⟨found, f, t, List.mem_of_find?_eq_some hfound, by omega, rfl⟩

/-- What finding a part keeps, finding a path keeps. -/
theorem findByName_keeps {I : PathImpl Ent Addr → Prop} {s : List Char}
    (keep : ∀ {p q : PathImpl Ent Addr} {s comp : List Char}, I p →
      p.findComponent H s comp = .ok q → I q)
    (hp : I p) (hq : p.findByName H s = .ok q) : I q := by
  induction hs : s.length using Nat.strongRecOn generalizing s p with
  | ind n ih =>
    rw [findByName] at hq
    split_ifs at hq with hslash
    · cases hq
      exact hp
    · obtain ⟨p', hp', hq⟩ := bind_ok.1 hq
      dsimp only at hq
      split_ifs at hq
      · cases hq
        exact keep hp hp'
      · exact ih _ (hs ▸ afterPart_lt hslash) (keep hp hp') hq rfl

namespace Sound

theorem create (hd : H.isDev d = true) : Sound H (create d) :=
  ⟨hd, trivial, fun _ he ↦ absurd he (List.not_mem_nil), trivial⟩

/-- A path grows by a child of the entry at its tail. -/
theorem pushBack (h : Sound H p) (ha : a ∈ H.children (p.tailEntry H)) :
    Sound H (p.pushBack (.make H a f t p.getNelms)) := by
  refine ⟨h.isDev, linked_append.2 ⟨h.linked, ha, trivial⟩, ?_,
    scaled_append.2 ⟨h.scaled, make_scaled, trivial⟩⟩
  intro e he
  rcases List.mem_append.1 he with he | he
  · exact h.clipped e he
  · rw [List.mem_singleton.1 he]
    exact make_clipped

theorem left (h : Sound H p) (hp : p.entries = xs ++ ys) : Sound H { p with entries := xs } := by
  refine ⟨h.isDev, ?_, ?_, ?_⟩
  · exact (linked_append.1 (hp ▸ h.linked)).1
  · intro e he
    exact h.clipped e (hp ▸ List.mem_append_left ys he)
  · exact (scaled_append.1 (hp ▸ h.scaled)).1

theorem up (h : Sound H p) : Sound H p.up := by
  cases hp : p.entries using List.reverseRecOn with
  | nil =>
    refine ⟨h.isDev, ?_, ?_, ?_⟩ <;> simp [PathImpl.up, hp, Linked, Scaled]
  | append_singleton xs e =>
    have hup : p.up = { p with entries := xs } := by simp [PathImpl.up, hp]
    exact hup ▸ h.left hp

/-- The entries of a path from the hub at the tail follow those of the path. -/
theorem extend (h : Sound H p) (hq : Sound H q) (hd : q.originDev = p.tailEntry H) :
    Sound H { p with
      entries := p.entries ++ q.entries.map fun e ↦ { e with nelmsLeft := e.nelmsLeft * p.getNelms } } := by
  have hlinked : ∀ {d : Ent} {es : List (PathEntry Addr)}, Linked H d es →
      Linked H d (es.map fun e ↦ { e with nelmsLeft := e.nelmsLeft * p.getNelms }) := by
    intro d es
    induction es generalizing d with
    | nil => exact id
    | cons e es ih => exact fun h ↦ ⟨h.1, ih h.2⟩
  have hscaled : ∀ {n m : UInt32} {es : List (PathEntry Addr)}, Scaled n es →
      Scaled (n * m) (es.map fun e ↦ { e with nelmsLeft := e.nelmsLeft * m }) := by
    intro n m es
    induction es generalizing n with
    | nil => exact id
    | cons e es ih =>
      intro h
      refine ⟨?_, ih h.2⟩
      calc e.nelmsLeft * m = n * UInt32.ofInt e.width * m := by rw [h.1]
        _ = n * m * UInt32.ofInt e.width := by ac_rfl
  refine ⟨h.isDev, linked_append.2 ⟨h.linked, ?_⟩, ?_, scaled_append.2 ⟨h.scaled, ?_⟩⟩
  · have htail := hlinked hq.linked
    rw [hd] at htail
    exact htail
  · intro e he
    rcases List.mem_append.1 he with he | he
    · exact h.clipped e he
    · obtain ⟨e', he', rfl⟩ := List.mem_map.1 he
      exact hq.clipped e' he'
  · have htail := hscaled (m := p.getNelms) hq.scaled
    rw [UInt32.one_mul] at htail
    exact htail

/-- The entries that a visitor is called with come one level after the other. -/
theorem exploreChildren {visit : PathImpl Ent Addr → List (PathImpl Ent Addr)} (h : Sound H p)
    (hv : ∀ p, Sound H p → ∀ q ∈ visit p, Sound H q)
    (hq : q ∈ PathImpl.exploreChildren H visit (p.tailEntry H) p) : Sound H q := by
  unfold PathImpl.exploreChildren at hq
  split_ifs at hq with hd
  · obtain ⟨a, ha, hq⟩ := List.mem_flatMap.1 hq
    split_ifs at hq with he
    · obtain ⟨i, -, hq⟩ := List.mem_flatMap.1 hq
      exact hv _ (h.pushBack ha) q hq
    · exact hv _ (h.pushBack ha) q hq
  · exact absurd hq (List.not_mem_nil)

theorem exploreR {visitPre : PathImpl Ent Addr → Bool} {depth : ℕ} (h : Sound H p)
    (hq : q ∈ PathImpl.exploreR H visitPre depth p) : Sound H q := by
  induction depth generalizing p q with
  | zero => exact absurd hq (List.not_mem_nil)
  | succ depth ih =>
    simp only [PathImpl.exploreR, List.cons_append, List.mem_cons, List.mem_append] at hq
    rcases hq with rfl | hq | rfl | hq
    · exact h
    · split_ifs at hq
      · exact h.exploreChildren (fun p hp q hq ↦ ih hp hq) hq
      · exact absurd hq (List.not_mem_nil)
    · exact h
    · exact absurd hq (List.not_mem_nil)

theorem explore {visitPre : PathImpl Ent Addr → Bool} {depth : ℕ} (h : Sound H p)
    (hq : q ∈ p.explore H visitPre depth) : Sound H q := by
  unfold PathImpl.explore at hq
  cases hp : p.entries using List.reverseRecOn with
  | nil =>
    have hd : p.originDev = p.tailEntry H := by simp [tailEntry, hp]
    simp only [hp, List.getLast?_nil] at hq
    rw [hd] at hq
    exact h.exploreChildren (fun p hp q hq ↦ hp.exploreR hq) hq
  | append_singleton xs e =>
    simp only [hp, List.getLast?_concat] at hq
    split_ifs at hq
    · obtain ⟨k, -, hq⟩ := List.mem_flatMap.1 hq
      refine (h.up.pushBack ?_).exploreR hq
      have hlinked : Linked H p.originDev (xs ++ [e]) := hp ▸ h.linked
      have hlink := (linked_append.1 hlinked).2
      simpa [PathImpl.up, tailEntry, hp, Linked] using hlink
    · exact h.exploreR hq

variable [DecidableEq Ent]

/-- The entry at the tail is what a path can be continued from. -/
theorem verifyAtTail_tailEntry : p.verifyAtTail H (p.tailEntry H) = some p := by
  unfold PathImpl.verifyAtTail
  by_cases hp : p.entries = []
  · rw [if_pos hp]
    cases p
    cases hp
    rfl
  · rw [if_neg hp, if_pos rfl]

theorem verifyAtTail (h : Sound H p) (hd : H.isDev d = true)
    (hq : p.verifyAtTail H d = some q) : Sound H q ∧ d = q.tailEntry H := by
  unfold PathImpl.verifyAtTail at hq
  split_ifs at hq with h₁ h₂
  · cases hq
    exact ⟨create hd, rfl⟩
  · cases hq
    exact ⟨h, h₂⟩

theorem appendAddress (h : Sound H p) (hq : p.appendAddress H a f t = .ok q) : Sound H q := by
  unfold PathImpl.appendAddress at hq
  split at hq
  case h_1 p' hp' =>
    obtain ⟨hs, ht⟩ := h.verifyAtTail (H.isDev_owner a) hp'
    cases hq
    exact hs.pushBack ((H.mem_children a _).2 ht)
  case h_2 => cases hq

theorem append (h : Sound H p) (hq : Sound H q) (hr : p.append H q = .ok r) : Sound H r := by
  unfold PathImpl.append append2 at hr
  split_ifs at hr
  · cases hr
    exact h
  · split at hr
    case h_1 p' hp' =>
      obtain ⟨hs, ht⟩ := h.verifyAtTail hq.isDev hp'
      cases hr
      exact hs.extend hq ht
    case h_2 => cases hr

variable [DecidableEq Addr]

theorem intersectLoop (h : Sound H p) (hr : PathImpl.intersectLoop H p xs ys = .ok (some r)) :
    Sound H r := by
  induction xs generalizing p ys with
  | nil =>
    cases ys with
    | nil =>
      cases hr
      exact h
    | cons y ys => cases hr
  | cons x xs ih =>
    cases ys with
    | nil => cases hr
    | cons y ys =>
      rw [PathImpl.intersectLoop] at hr
      split_ifs at hr
      · cases hr
      · cases hr
      · obtain ⟨p', happ, hr⟩ := bind_ok.1 hr
        exact ih (h.appendAddress happ) hr

theorem intersect (h : Sound H p) (hr : p.intersect H q = .ok (some r)) : Sound H r := by
  unfold PathImpl.intersect at hr
  split_ifs at hr
  · cases hr
  · exact (create h.isDev).intersectLoop hr

omit [DecidableEq Ent] [DecidableEq Addr]

theorem findComponent {s comp : List Char} (h : Sound H p)
    (hq : p.findComponent H s comp = .ok q) : Sound H q := by
  rcases findComponent_ok hq with ⟨-, -, rfl⟩ | ⟨a, f, t, ha, -, rfl⟩
  · exact h.up
  · exact h.pushBack ha

theorem findByName {s : List Char} (h : Sound H p) (hq : p.findByName H s = .ok q) :
    Sound H q :=
  findByName_keeps (fun hp hq ↦ hp.findComponent hq) h hq

end Sound

variable [DecidableEq Ent] [DecidableEq Addr]

theorem Reachable.sound (h : Reachable H p) : Sound H p := by
  induction h with
  | create hh => exact .create hh
  | findByName _ h ih => exact ih.findByName h
  | appendAddress _ h ih => exact ih.appendAddress h
  | append _ _ h ih ih' => exact ih.append ih' h
  | concat _ _ h ih ih' => exact ih.append ih' h
  | intersect _ _ h ih _ => exact ih.intersect h
  | up _ ih => exact ih.up
  | clone _ ih => exact ih
  | verifyAtTail _ hh hq ih => exact (ih.verifyAtTail hh hq).1
  | explore _ h ih => exact ih.explore h

end Cpsw.Path
