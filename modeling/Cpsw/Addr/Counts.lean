import Cpsw.Addr.Open
import Mathlib.Data.List.Nodup

namespace Cpsw.Addr

open Cpsw.Lib Cpsw.Lib.Throw

/-- The addresses that a call comes to: those above a file are left out. -/
def reached (H : Hierarchy) : List ℕ → List ℕ
  | [] => []
  | a :: up => if H.kind a = .fs then [a] else a :: reached H up

/-- What the count of an address should mean. -/
structure Good (k : Kind) (c : CAddressImpl) : Prop where
  counted : c.openCount = c.seen.opens - c.seen.closes
  held : k ≠ .address → (c.isOpen k = true ↔ 0 < c.openCount)
  retried : c.seen.skipped = false
  proper : c.seen.stray = false

/-- What a call needs besides. -/
structure Sound (k : Kind) (c : CAddressImpl) : Prop extends Good k c where
  nonneg : k = .fs → 0 ≤ c.openCount
  settled : c.seen.failed = false

/-- Every real open of the address succeeds. -/
def World.Grants (H : Hierarchy) (W : World) (a : ℕ) : Prop :=
  match H.kind a with
  | .address => True
  | .fs => 0 ≤ W.fd a
  | .comm => W.door a = none
  | .srp => W.door a = none ∧ W.asyncDoor a = none ∧ W.thread a = none

/-- No real open that the call tries fails, and no file is closed that is not open. -/
def Call.Safe (H : Hierarchy) (s : Addresses) : Call → Prop
  | .open W path => ∀ a ∈ reached H path, (s a).openCount = 0 → W.Grants H a
  | .close path => ∀ a ∈ reached H path, H.kind a = .fs → 0 < (s a).openCount

section Exec

variable {s s₁ : Addresses} {a : ℕ} {parent : Calls PUnit} {k : Kind}

@[simp] theorem exec_update (f : CAddressImpl → CAddressImpl) :
    exec (update a f) s = (.ok ⟨⟩, Function.update s a (f (s a))) := rfl

@[simp] theorem exec_incOpen : exec (incOpen a) s =
    (.ok (s a).openCount, Function.update s a { s a with openCount := (s a).openCount + 1 }) := rfl

@[simp] theorem exec_decOpen : exec (decOpen a) s =
    (.ok (s a).openCount, Function.update s a { s a with openCount := (s a).openCount - 1 }) := rfl

@[simp] theorem exec_release (f : CAddressImpl → CAddressImpl) : exec (release k a f) s =
    (.ok ⟨⟩, Function.update s a
      (f { s a with seen := { (s a).seen with stray := (s a).seen.stray || !(s a).isOpen k } })) := rfl

theorem exec_open_address (hp : exec parent s = (.ok ⟨⟩, s₁)) :
    exec (CAddressImpl.open parent a) s = (.ok (s₁ a).openCount,
      Function.update s₁ a { s₁ a with openCount := (s₁ a).openCount + 1 }) := by
  rw [CAddressImpl.open, exec_bind, hp]
  rfl

end Exec

/-- What a real open that succeeds makes of an address. -/
def acquired (W : World) (a : ℕ) (c : CAddressImpl) : Kind → CAddressImpl
  | .address => c
  | .fs => { c with fd := W.fd a, seen := { c.seen with failed := false } }
  | .comm => { c with door := true, seen := { c.seen with failed := false } }
  | .srp =>
    { c with door := true, asyncDoor := true, started := true, seen := { c.seen with failed := false } }

/-- What its `open` makes of it then. -/
def opened (W : World) (a : ℕ) (k : Kind) (c : CAddressImpl) : CAddressImpl :=
  if c.openCount = 0 then acquired W a { c with openCount := c.openCount + 1 } k
  else { c with openCount := c.openCount + 1 }

def CAddressImpl.noteOpen (c : CAddressImpl) : CAddressImpl :=
  { c with seen := { c.seen with
    opens := c.seen.opens + 1, skipped := c.seen.skipped || c.seen.failed } }

section Open

variable {H : Hierarchy} {W : World} {s s₁ : Addresses} {a : ℕ} {parent : Calls PUnit}
  {c : CAddressImpl} {k : Kind}

/-- The address itself, once its container is open. -/
theorem exec_openOne (hp : if H.kind a = .fs then s₁ = s else exec parent s = (.ok ⟨⟩, s₁))
    (hn : H.kind a = .fs → 0 ≤ (s₁ a).openCount) (hg : (s₁ a).openCount = 0 → W.Grants H a) :
    exec (openOne H W parent a) s =
      (.ok (s₁ a).openCount, Function.update s₁ a (opened W a (H.kind a) (s₁ a))) := by
  unfold World.Grants at hg
  unfold openOne opened
  cases hk : H.kind a with
  | address =>
    rw [hk] at hp hg
    dsimp only at hp ⊢
    rw [exec_open_address hp]
    split_ifs <;> rfl
  | fs =>
    rw [hk] at hp hg hn
    dsimp only at hp hg ⊢
    obtain rfl : s₁ = s := hp
    have hn := hn rfl
    by_cases h0 : (s₁ a).openCount = 0
    · have hfd : ¬W.fd a < 0 := Int.not_lt.2 (hg h0)
      simp [CFSAddressImpl.open, exec_bind, attempt, h0, hfd, acquired, -bind_pure_comp]
    · have hneg : ¬(s₁ a).openCount < 0 := Int.not_lt.2 hn
      simp [CFSAddressImpl.open, exec_bind, h0, Ne.symm h0, hneg]
  | comm =>
    rw [hk] at hp hg
    dsimp only at hp hg ⊢
    by_cases h0 : (s₁ a).openCount = 0
    · simp [CCommAddressImpl.open, exec_bind, exec_open_address hp, attempt, h0, hg h0,
        orThrow, acquired, -bind_pure_comp]
    · simp [CCommAddressImpl.open, exec_bind, exec_open_address hp, h0, Ne.symm h0]
  | srp =>
    rw [hk] at hp hg
    dsimp only at hp hg ⊢
    by_cases h0 : (s₁ a).openCount = 0
    · obtain ⟨h₁, h₂, h₃⟩ := hg h0
      simp [CSRPAddressImpl.open, exec_bind, exec_open_address hp, attempt, h0, h₁, h₂, h₃, orThrow,
        acquired, -bind_pure_comp]
    · simp [CSRPAddressImpl.open, exec_bind, exec_open_address hp, h0, Ne.symm h0]

/-- Where the real open fails, the count has been incremented all the same. -/
theorem exec_openOne_fails (hp : if H.kind a = .fs then s₁ = s else exec parent s = (.ok ⟨⟩, s₁))
    (h0 : (s₁ a).openCount = 0) (hg : ¬W.Grants H a) : ∃ e c,
      exec (openOne H W parent a) s = (.error e, Function.update s₁ a c) ∧
      c.openCount = (s₁ a).openCount + 1 ∧ c.seen.opens = (s₁ a).seen.opens ∧
      c.seen.closes = (s₁ a).seen.closes := by
  unfold World.Grants at hg
  unfold openOne
  cases hk : H.kind a with
  | address =>
    rw [hk] at hg
    exact absurd trivial hg
  | fs =>
    rw [hk] at hp hg
    dsimp only at hp hg ⊢
    obtain rfl : s₁ = s := hp
    have hfd : W.fd a < 0 := Int.not_le.1 hg
    simp [CFSAddressImpl.open, exec_bind, attempt, h0, hfd, -bind_pure_comp]
    exact ⟨_, rfl, rfl, rfl, rfl⟩
  | comm =>
    rw [hk] at hp hg
    dsimp only at hp hg ⊢
    obtain ⟨e, he⟩ := Option.ne_none_iff_exists'.1 hg
    simp [CCommAddressImpl.open, exec_bind, exec_open_address hp, attempt, h0, he, orThrow,
      -bind_pure_comp]
    exact ⟨_, rfl, rfl, rfl, rfl⟩
  | srp =>
    rw [hk] at hp hg
    dsimp only at hp hg ⊢
    cases h₁ : W.door a with
    | some e =>
      simp [CSRPAddressImpl.open, exec_bind, exec_open_address hp, attempt, h0, h₁, orThrow,
        -bind_pure_comp]
      exact ⟨_, rfl, rfl, rfl, rfl⟩
    | none =>
      cases h₂ : W.asyncDoor a with
      | some e =>
        simp [CSRPAddressImpl.open, exec_bind, exec_open_address hp, attempt, h0, h₁, h₂, orThrow,
          -bind_pure_comp]
        exact ⟨_, rfl, rfl, rfl, rfl⟩
      | none =>
        cases h₃ : W.thread a with
        | some e =>
          simp [CSRPAddressImpl.open, exec_bind, exec_open_address hp, attempt, h0, h₁, h₂, h₃, orThrow,
            -bind_pure_comp]
          exact ⟨_, rfl, rfl, rfl, rfl⟩
        | none => exact absurd ⟨h₁, h₂, h₃⟩ hg

theorem acquired_isOpen (hk : k ≠ .address) (hg : W.Grants H a) (hH : H.kind a = k) :
    (acquired W a c k).isOpen k = true := by
  unfold World.Grants at hg
  rw [hH] at hg
  cases k with
  | address => exact absurd rfl hk
  | fs => exact decide_eq_true hg
  | comm => rfl
  | srp => rfl

theorem acquired_openCount : (acquired W a c k).openCount = c.openCount := by cases k <;> rfl

theorem acquired_seen (hc : c.seen.failed = false) : (acquired W a c k).seen = c.seen := by
  have hseen : { c.seen with failed := false } = c.seen := by rw [← hc]
  cases k with
  | address => rfl
  | fs => exact hseen
  | comm => exact hseen
  | srp => exact hseen

theorem Sound.opened (hs : Sound k c) (hH : H.kind a = k) (hg : c.openCount = 0 → W.Grants H a) :
    Sound k (Addr.opened W a k c).noteOpen := by
  have hcount := hs.counted
  have hres : (Addr.opened W a k c).openCount = c.openCount + 1 ∧
      (Addr.opened W a k c).seen = c.seen ∧
      (k ≠ .address → ((Addr.opened W a k c).isOpen k = true ↔ 0 < c.openCount + 1)) := by
    unfold Addr.opened
    by_cases h0 : c.openCount = 0
    · rw [if_pos h0]
      refine ⟨acquired_openCount, acquired_seen hs.settled, fun hk ↦ iff_of_true ?_ (by omega)⟩
      exact acquired_isOpen hk (hg h0) hH
    · rw [if_neg h0]
      refine ⟨rfl, rfl, fun hk ↦ ?_⟩
      change c.isOpen k = true ↔ _
      rw [hs.held hk]
      omega
  generalize Addr.opened W a k c = d at hres ⊢
  obtain ⟨hopen, hseen, hheld⟩ := hres
  refine ⟨⟨?_, fun hk ↦ ?_, ?_, ?_⟩, fun hk ↦ ?_, ?_⟩
  · change d.openCount = ((d.seen.opens + 1 : ℕ) : ℤ) - d.seen.closes
    rw [hopen, hseen]
    push_cast
    omega
  · change d.isOpen k = true ↔ 0 < d.openCount
    rw [hheld hk, hopen]
  · change (d.seen.skipped || d.seen.failed) = false
    rw [hseen, hs.retried, hs.settled]
    rfl
  · change d.seen.stray = false
    rw [hseen, hs.proper]
  · have hle := hs.nonneg hk
    change 0 ≤ d.openCount
    omega
  · change d.seen.failed = false
    rw [hseen, hs.settled]

theorem reached_subset (path : List ℕ) : ∀ b ∈ reached H path, b ∈ path := by
  induction path with
  | nil => exact fun b hb ↦ hb
  | cons a up ih =>
    intro b hb
    unfold reached at hb
    split_ifs at hb
    · exact List.mem_cons.2 (.inl (List.mem_singleton.1 hb))
    · rcases List.mem_cons.1 hb with rfl | hb
      · exact List.mem_cons_self
      · exact List.mem_cons_of_mem a (ih b hb)

theorem mem_reached (a : ℕ) (up : List ℕ) : a ∈ reached H (a :: up) := by
  unfold reached
  split_ifs
  · exact List.mem_singleton_self a
  · exact List.mem_cons_self

theorem mem_reached_cons {b : ℕ} {up : List ℕ} (hk : H.kind a ≠ .fs) (hb : b ∈ reached H up) :
    b ∈ reached H (a :: up) := by
  rw [reached, if_neg hk]
  exact List.mem_cons_of_mem a hb

/-- What has been done to the containers when the address itself has its turn. -/
theorem container_ok {x : Calls ℤ} {up : List ℕ} (hs : ∀ b ∈ up, Sound (H.kind b) (s b))
    (h : H.kind a ≠ .fs → ∃ r t, exec x s = (.ok r, t) ∧ (∀ b ∉ up, t b = s b) ∧
      ∀ b ∈ up, Sound (H.kind b) (t b)) :
    ∃ s₁, (if H.kind a = .fs then s₁ = s
      else exec (do let _ ← x; pure ⟨⟩ : Calls PUnit) s = (.ok ⟨⟩, s₁)) ∧
      (∀ b ∉ up, s₁ b = s b) ∧ ∀ b ∈ up, Sound (H.kind b) (s₁ b) := by
  by_cases hk : H.kind a = .fs
  · exact ⟨s, by rw [if_pos hk], fun b _ ↦ rfl, hs⟩
  · obtain ⟨r, t, ht, hframe, hst⟩ := h hk
    refine ⟨t, ?_, hframe, hst⟩
    rw [if_neg hk, exec_bind, ht]
    rfl

/-- What an open along a path does when every real open succeeds. -/
theorem openPath_sound {path : List ℕ} (hn : path.Nodup) (hs : ∀ b ∈ path, Sound (H.kind b) (s b))
    (hsafe : ∀ b ∈ reached H path, (s b).openCount = 0 → W.Grants H b) :
    ∃ r t, exec (openPath H W path) s = (.ok r, t) ∧ (∀ b ∉ path, t b = s b) ∧
      ∀ b ∈ path, Sound (H.kind b) (t b) := by
  induction path with
  | nil => exact ⟨0, s, rfl, fun b _ ↦ rfl, hs⟩
  | cons a up ih =>
    obtain ⟨ha, hup⟩ := List.nodup_cons.1 hn
    have hsup : ∀ b ∈ up, Sound (H.kind b) (s b) := fun b hb ↦ hs b (List.mem_cons_of_mem a hb)
    obtain ⟨s₁, hp, hframe, hs₁⟩ := container_ok hsup fun hk ↦
      ih hup hsup fun b hb ↦ hsafe b (mem_reached_cons hk hb)
    have hg : (s₁ a).openCount = 0 → W.Grants H a := by
      rw [hframe a ha]
      exact hsafe a (mem_reached a up)
    have hsa : Sound (H.kind a) (s₁ a) := hframe a ha ▸ hs a List.mem_cons_self
    have hone := exec_openOne hp hsa.nonneg hg
    refine ⟨(s₁ a).openCount, Function.update s₁ a (opened W a (H.kind a) (s₁ a)).noteOpen, ?_, ?_, ?_⟩
    · rw [openPath, exec_bind, hone]
      dsimp only
      rw [exec_bind, exec_update]
      dsimp only
      rw [Function.update_self, Function.update_idem]
      rfl
    · intro b hb
      have hne : b ≠ a := fun h ↦ hb (h ▸ List.mem_cons_self)
      rw [Function.update_of_ne hne]
      exact hframe b fun h ↦ hb (List.mem_cons_of_mem a h)
    · intro b hmem
      rcases List.mem_cons.1 hmem with rfl | hb
      · rw [Function.update_self]
        exact hsa.opened rfl hg
      · rw [Function.update_of_ne (ne_of_mem_of_not_mem hb ha)]
        exact hs₁ b hb

/-- An address whose container cannot be opened stays as it is. -/
theorem exec_openOne_parent {e : OpenError} (hk : H.kind a ≠ .fs)
    (hp : exec parent s = (.error e, s₁)) : exec (openOne H W parent a) s = (.error e, s₁) := by
  have hopen : exec (CAddressImpl.open parent a) s = (.error e, s₁) := by
    rw [CAddressImpl.open, exec_bind, hp]
  unfold openOne
  cases hka : H.kind a with
  | fs => exact absurd hka hk
  | address => exact hopen
  | comm =>
    dsimp only
    rw [CCommAddressImpl.open, exec_bind, hopen]
  | srp =>
    dsimp only
    rw [CSRPAddressImpl.open, exec_bind, hopen]

/-- Where a real open fails, its address is left with a count that is too high. -/
theorem openPath_fails {path : List ℕ} (hn : path.Nodup) (hs : ∀ b ∈ path, Sound (H.kind b) (s b))
    (hsafe : ¬∀ b ∈ reached H path, (s b).openCount = 0 → W.Grants H b) :
    ∃ e t, exec (openPath H W path) s = (.error e, t) ∧ ∃ b, ¬Good (H.kind b) (t b) := by
  induction path with
  | nil => exact absurd (fun b hb ↦ absurd hb List.not_mem_nil) hsafe
  | cons a up ih =>
    obtain ⟨ha, hup⟩ := List.nodup_cons.1 hn
    have hsup : ∀ b ∈ up, Sound (H.kind b) (s b) := fun b hb ↦ hs b (List.mem_cons_of_mem a hb)
    by_cases hparent : H.kind a = .fs ∨ ∀ b ∈ reached H up, (s b).openCount = 0 → W.Grants H b
    · obtain ⟨s₁, hp, hframe, hs₁⟩ := container_ok hsup fun hk ↦
        openPath_sound hup hsup (hparent.resolve_left hk)
      obtain ⟨h0, hg⟩ : (s a).openCount = 0 ∧ ¬W.Grants H a := by
        by_contra hno
        refine hsafe fun b hb h0 ↦ ?_
        have hown : (s a).openCount = 0 → W.Grants H a := fun h ↦ by
          by_contra hg
          exact hno ⟨h, hg⟩
        unfold reached at hb
        split_ifs at hb with hk
        · obtain rfl := List.mem_singleton.1 hb
          exact hown h0
        · rcases List.mem_cons.1 hb with rfl | hb
          · exact hown h0
          · exact hparent.resolve_left hk b hb h0
      obtain ⟨e, c, hone, hcount, hopens, hcloses⟩ := exec_openOne_fails (a := a) hp (hframe a ha ▸ h0) hg
      refine ⟨e, _, by rw [openPath, exec_bind, hone], a, fun hgood ↦ ?_⟩
      rw [Function.update_self] at hgood
      have h₁ := hgood.counted
      have h₂ := (hs a List.mem_cons_self).counted
      rw [hcount, hopens, hcloses, hframe a ha] at h₁
      omega
    · obtain ⟨hk, hno⟩ := not_or.1 hparent
      obtain ⟨e, t, ht, hbad⟩ := ih hup hsup hno
      refine ⟨e, t, ?_, hbad⟩
      have hp : exec (do let _ ← openPath H W up; pure ⟨⟩ : Calls PUnit) s = (.error e, t) := by
        rw [exec_bind, ht]
      rw [openPath, exec_bind, exec_openOne_parent hk hp]

end Open

/-- What a real close makes of an address. -/
def released (c : CAddressImpl) (k : Kind) : CAddressImpl :=
  match k with
  | .address => c
  | .fs => { c with fd := -1, seen := { c.seen with stray := c.seen.stray || !c.isOpen .fs } }
  | .comm => { c with door := false, seen := { c.seen with stray := c.seen.stray || !c.isOpen .comm } }
  | .srp =>
    { c with door := false, asyncDoor := false, started := false,
             seen := { c.seen with stray := c.seen.stray || !c.isOpen .srp } }

def CAddressImpl.dec (c : CAddressImpl) : CAddressImpl := { c with openCount := c.openCount - 1 }

/-- What its `close` makes of it then. -/
def closed (k : Kind) (c : CAddressImpl) : CAddressImpl :=
  if c.openCount = 1 then released c.dec k else c.dec

def CAddressImpl.noteClose (c : CAddressImpl) : CAddressImpl :=
  { c with seen := { c.seen with closes := c.seen.closes + 1 } }

section Close

variable {H : Hierarchy} {s s₁ : Addresses} {a : ℕ} {parent : Calls PUnit}
  {c : CAddressImpl} {k : Kind}

theorem exec_close_address (hp : exec parent (Function.update s a (s a).dec) = (.ok ⟨⟩, s₁)) :
    exec (CAddressImpl.close parent a) s = (.ok (s a).openCount, s₁) := by
  rw [CAddressImpl.close, exec_bind, exec_decOpen]
  dsimp only
  rw [exec_bind, show ({ s a with openCount := (s a).openCount - 1 } : CAddressImpl) = (s a).dec from rfl,
    hp]
  rfl

theorem exec_closeOne (hp : if H.kind a = .fs then s₁ = Function.update s a (s a).dec
      else exec parent (Function.update s a (s a).dec) = (.ok ⟨⟩, s₁))
    (hframe : s₁ a = (s a).dec) (hn : H.kind a = .fs → 0 < (s a).openCount) :
    exec (closeOne H parent a) s =
      (.ok (s a).openCount, Function.update s₁ a (closed (H.kind a) (s a))) := by
  unfold closeOne closed
  cases hk : H.kind a with
  | address =>
    rw [hk] at hp
    dsimp only at hp ⊢
    have hself : (if (s a).openCount = 1 then released (s a).dec .address else (s a).dec) = s₁ a := by
      rw [hframe]
      split_ifs <;> rfl
    rw [exec_close_address hp, hself, Function.update_eq_self]
  | fs =>
    rw [hk] at hp hn
    dsimp only at hp ⊢
    have hpos : ¬(s a).openCount ≤ 0 := Int.not_le.2 (hn rfl)
    obtain rfl : s₁ = Function.update s a (s a).dec := hp
    by_cases h1 : (s a).openCount = 1
    · simp [CFSAddressImpl.close, exec_bind, h1, released, CAddressImpl.dec, -bind_pure_comp]
    · simp [CFSAddressImpl.close, exec_bind, h1, Ne.symm h1, hpos, CAddressImpl.dec]
  | comm =>
    rw [hk] at hp
    dsimp only at hp ⊢
    by_cases h1 : (s a).openCount = 1
    · simp [CCommAddressImpl.close, exec_bind, exec_close_address hp, h1, released, hframe,
        -bind_pure_comp]
    · rw [if_neg h1, ← hframe, Function.update_eq_self]
      simp [CCommAddressImpl.close, exec_bind, exec_close_address hp, Ne.symm h1]
  | srp =>
    rw [hk] at hp
    dsimp only at hp ⊢
    by_cases h1 : (s a).openCount = 1
    · simp [CSRPAddressImpl.close, exec_bind, exec_close_address hp, h1, released, hframe,
        -bind_pure_comp]
    · rw [if_neg h1, ← hframe, Function.update_eq_self]
      simp [CSRPAddressImpl.close, exec_bind, exec_close_address hp, Ne.symm h1]

theorem released_openCount : (released c k).openCount = c.openCount := by cases k <;> rfl

theorem released_isOpen (hk : k ≠ .address) : (released c k).isOpen k = false := by
  cases k with
  | address => exact absurd rfl hk
  | fs => rfl
  | comm => rfl
  | srp => rfl

/-- What is released has been open. -/
theorem released_seen (hopen : k ≠ .address → c.isOpen k = true) : (released c k).seen = c.seen := by
  have hstray : ∀ k, c.isOpen k = true →
      { c.seen with stray := c.seen.stray || !c.isOpen k } = c.seen := by
    intro k h
    rw [h, Bool.not_true, Bool.or_false]
  cases k with
  | address => rfl
  | fs => exact hstray .fs (hopen nofun)
  | comm => exact hstray .comm (hopen nofun)
  | srp => exact hstray .srp (hopen nofun)

theorem Sound.closed (hs : Sound k c) (hn : k = .fs → 0 < c.openCount) :
    Sound k (Addr.closed k c).noteClose := by
  have hcount := hs.counted
  have hres : (Addr.closed k c).openCount = c.openCount - 1 ∧ (Addr.closed k c).seen = c.seen ∧
      (k ≠ .address → ((Addr.closed k c).isOpen k = true ↔ 0 < c.openCount - 1)) := by
    unfold Addr.closed
    by_cases h1 : c.openCount = 1
    · rw [if_pos h1]
      refine ⟨released_openCount, released_seen fun hk ↦ ?_, fun hk ↦ ?_⟩
      · exact (hs.held hk).2 (by omega)
      · rw [released_isOpen hk]
        exact iff_of_false Bool.false_ne_true (by omega)
    · rw [if_neg h1]
      refine ⟨rfl, rfl, fun hk ↦ ?_⟩
      change c.isOpen k = true ↔ _
      rw [hs.held hk]
      omega
  generalize Addr.closed k c = d at hres ⊢
  obtain ⟨hopen, hseen, hheld⟩ := hres
  refine ⟨⟨?_, fun hk ↦ ?_, ?_, ?_⟩, fun hk ↦ ?_, ?_⟩
  · change d.openCount = (d.seen.opens : ℤ) - ((d.seen.closes + 1 : ℕ) : ℤ)
    rw [hopen, hseen]
    push_cast
    omega
  · change d.isOpen k = true ↔ 0 < d.openCount
    rw [hheld hk, hopen]
  · change d.seen.skipped = false
    rw [hseen, hs.retried]
  · change d.seen.stray = false
    rw [hseen, hs.proper]
  · have hlt := hn hk
    change 0 ≤ d.openCount
    omega
  · change d.seen.failed = false
    rw [hseen, hs.settled]

/-- What a close along a path does when every file it comes to is open. -/
theorem closePath_sound {path : List ℕ} (hn : path.Nodup) (hs : ∀ b ∈ path, Sound (H.kind b) (s b))
    (hsafe : ∀ b ∈ reached H path, H.kind b = .fs → 0 < (s b).openCount) :
    ∃ r t, exec (closePath H path) s = (.ok r, t) ∧ (∀ b ∉ path, t b = s b) ∧
      ∀ b ∈ path, Sound (H.kind b) (t b) := by
  induction path generalizing s with
  | nil => exact ⟨0, s, rfl, fun b _ ↦ rfl, hs⟩
  | cons a up ih =>
    obtain ⟨ha, hup⟩ := List.nodup_cons.1 hn
    have hrest : ∀ b ∈ up, Function.update s a (s a).dec b = s b := fun b hb ↦
      Function.update_of_ne (ne_of_mem_of_not_mem hb ha) _ _
    have hsup : ∀ b ∈ up, Sound (H.kind b) (Function.update s a (s a).dec b) := fun b hb ↦
      (hrest b hb).symm ▸ hs b (List.mem_cons_of_mem a hb)
    obtain ⟨s₁, hp, hframe, hs₁⟩ := @container_ok H (Function.update s a (s a).dec) a (closePath H up) up
      hsup fun hk ↦ ih hup hsup fun b hb hkb ↦ by
        rw [hrest b (reached_subset up b hb)]
        exact hsafe b (mem_reached_cons hk hb) hkb
    have hself : s₁ a = (s a).dec := (hframe a ha).trans (Function.update_self _ _ _)
    have hfs := hsafe a (mem_reached a up)
    refine ⟨(s a).openCount, Function.update s₁ a (closed (H.kind a) (s a)).noteClose, ?_, ?_, ?_⟩
    · rw [closePath, exec_bind, exec_closeOne hp hself hfs]
      dsimp only
      rw [exec_bind, exec_update]
      dsimp only
      rw [Function.update_self, Function.update_idem]
      rfl
    · intro b hb
      obtain ⟨hne, hbup⟩ := not_or.1 (mt List.mem_cons.2 hb)
      rw [Function.update_of_ne hne, hframe b hbup, Function.update_of_ne hne]
    · intro b hmem
      rcases List.mem_cons.1 hmem with rfl | hb
      · rw [Function.update_self]
        exact (hs b List.mem_cons_self).closed hfs
      · rw [Function.update_of_ne (ne_of_mem_of_not_mem hb ha)]
        exact hs₁ b hb

theorem exec_closeOne_parent {e : OpenError} (hk : H.kind a ≠ .fs)
    (hp : exec parent (Function.update s a (s a).dec) = (.error e, s₁)) :
    exec (closeOne H parent a) s = (.error e, s₁) := by
  have hclose : exec (CAddressImpl.close parent a) s = (.error e, s₁) := by
    rw [CAddressImpl.close, exec_bind, exec_decOpen]
    dsimp only
    rw [exec_bind, show ({ s a with openCount := (s a).openCount - 1 } : CAddressImpl) = (s a).dec
      from rfl, hp]
  unfold closeOne
  cases hka : H.kind a with
  | fs => exact absurd hka hk
  | address => exact hclose
  | comm =>
    dsimp only
    rw [CCommAddressImpl.close, exec_bind, hclose]
  | srp =>
    dsimp only
    rw [CSRPAddressImpl.close, exec_bind, hclose]

/-- Closing a file that is not open leaves it with a count that is too low. -/
theorem closePath_fails {path : List ℕ} (hn : path.Nodup) (hs : ∀ b ∈ path, Sound (H.kind b) (s b))
    (hsafe : ¬∀ b ∈ reached H path, H.kind b = .fs → 0 < (s b).openCount) :
    ∃ e t, exec (closePath H path) s = (.error e, t) ∧ ∃ b, ¬Good (H.kind b) (t b) := by
  induction path generalizing s with
  | nil => exact absurd (fun b hb ↦ absurd hb List.not_mem_nil) hsafe
  | cons a up ih =>
    obtain ⟨ha, hup⟩ := List.nodup_cons.1 hn
    by_cases hk : H.kind a = .fs
    · have hle : (s a).openCount ≤ 0 := by
        by_contra hpos
        refine hsafe fun b hb _ ↦ ?_
        rw [reached, if_pos hk] at hb
        obtain rfl := List.mem_singleton.1 hb
        exact Int.not_le.1 hpos
      refine ⟨.internal "CFSAddressImpl::close negative open count??",
        Function.update s a (s a).dec, ?_, a, fun hgood ↦ ?_⟩
      · simp [closePath, closeOne, hk, CFSAddressImpl.close, exec_bind, hle, CAddressImpl.dec]
      · rw [Function.update_self] at hgood
        have h₁ : (s a).openCount - 1 = (s a).seen.opens - (s a).seen.closes := hgood.counted
        have h₂ := (hs a List.mem_cons_self).counted
        omega
    · have hrest : ∀ b ∈ up, Function.update s a (s a).dec b = s b := fun b hb ↦
        Function.update_of_ne (ne_of_mem_of_not_mem hb ha) _ _
      obtain ⟨e, t, ht, hbad⟩ := @ih (Function.update s a (s a).dec) hup
        (fun b hb ↦ (hrest b hb).symm ▸ hs b (List.mem_cons_of_mem a hb)) fun hup' ↦ hsafe fun b hb hkb ↦ by
          rw [reached, if_neg hk] at hb
          rcases List.mem_cons.1 hb with rfl | hb
          · exact absurd hkb hk
          · rw [← hrest b (reached_subset up b hb)]
            exact hup' b hb hkb
      refine ⟨e, t, ?_, hbad⟩
      have hp : exec (do let _ ← closePath H up; pure ⟨⟩ : Calls PUnit)
          (Function.update s a (s a).dec) = (.error e, t) := by
        rw [exec_bind, ht]
      rw [closePath, exec_bind, exec_closeOne_parent hk hp]

end Close

section Run

variable {H : Hierarchy} {s : Addresses} {call : Call} {calls : List Call}

/-- One call. -/
theorem Call.run_sound (hn : call.path.Nodup) (hs : ∀ b, Sound (H.kind b) (s b))
    (hsafe : call.Safe H s) : ∀ b, Sound (H.kind b) (call.run H s b) := by
  have hkeep : ∀ t : Addresses, (∀ b ∉ call.path, t b = s b) →
      (∀ b ∈ call.path, Sound (H.kind b) (t b)) → ∀ b, Sound (H.kind b) (t b) := by
    intro t hframe ht b
    by_cases hb : b ∈ call.path
    · exact ht b hb
    · exact hframe b hb ▸ hs b
  cases call with
  | «open» W path =>
    change path.Nodup at hn
    obtain ⟨r, t, ht, hframe, hst⟩ := openPath_sound hn (fun b _ ↦ hs b) hsafe
    rw [Call.run, ht]
    exact hkeep t hframe hst
  | close path =>
    change path.Nodup at hn
    obtain ⟨r, t, ht, hframe, hst⟩ := closePath_sound hn (fun b _ ↦ hs b) hsafe
    rw [Call.run, ht]
    exact hkeep t hframe hst

theorem Call.run_fails (hn : call.path.Nodup) (hs : ∀ b, Sound (H.kind b) (s b))
    (hsafe : ¬call.Safe H s) : ∃ b, ¬Good (H.kind b) (call.run H s b) := by
  cases call with
  | «open» W path =>
    change path.Nodup at hn
    obtain ⟨e, t, ht, hbad⟩ := openPath_fails hn (fun b _ ↦ hs b) hsafe
    rw [Call.run, ht]
    exact hbad
  | close path =>
    change path.Nodup at hn
    obtain ⟨e, t, ht, hbad⟩ := closePath_fails hn (fun b _ ↦ hs b) hsafe
    rw [Call.run, ht]
    exact hbad

theorem runs_good_iff (hn : ∀ call ∈ calls, call.path.Nodup) (hs : ∀ b, Sound (H.kind b) (s b)) :
    (∀ pre post, calls = pre ++ post → ∀ b, Good (H.kind b) (runs H s pre b)) ↔
    ∀ pre call post, calls = pre ++ call :: post → call.Safe H (runs H s pre) := by
  induction calls generalizing s with
  | nil =>
    refine iff_of_true (fun pre post he b ↦ ?_) fun pre call post he ↦ ?_
    · obtain ⟨rfl, -⟩ := List.append_eq_nil_iff.1 he.symm
      exact (hs b).toGood
    · exact absurd he.symm (List.append_ne_nil_of_right_ne_nil _ (List.cons_ne_nil _ _))
  | cons call calls ih =>
    have hcall := hn call List.mem_cons_self
    have hnext := fun hsafe ↦ @ih (call.run H s) (fun c hc ↦ hn c (List.mem_cons_of_mem call hc))
      (call.run_sound hcall hs hsafe)
    constructor
    · intro hgood
      have hsafe : call.Safe H s := by
        by_contra hno
        obtain ⟨b, hb⟩ := call.run_fails hcall hs hno
        exact hb (hgood [call] calls rfl b)
      intro pre call' post he
      cases pre with
      | nil =>
        cases he
        exact hsafe
      | cons c pre =>
        obtain ⟨rfl, htl⟩ := List.cons.inj he
        refine (hnext hsafe).1 (fun pre post he' ↦ ?_) pre call' post htl
        exact hgood (call :: pre) post (congrArg (call :: ·) he')
    · intro hall pre post he
      have hsafe : call.Safe H s := hall [] call calls rfl
      cases pre with
      | nil => exact fun b ↦ (hs b).toGood
      | cons c pre =>
        obtain ⟨rfl, htl⟩ := List.cons.inj he
        refine (hnext hsafe).2 (fun pre call' post he' ↦ ?_) pre post htl
        exact hall (call :: pre) call' post (congrArg (call :: ·) he')

/-- The counts are right all the time if and only if no real open that is tried fails and no file is
closed that is not open. -/
theorem open_counts_iff (H : Hierarchy) (calls : List Call) (hn : ∀ call ∈ calls, call.path.Nodup) :
    (∀ pre post, calls = pre ++ post → ∀ a, Good (H.kind a) (runs H (fun _ ↦ .new) pre a)) ↔
    ∀ pre call post, calls = pre ++ call :: post → call.Safe H (runs H (fun _ ↦ .new) pre) := by
  refine runs_good_iff hn fun b ↦ ⟨⟨rfl, fun hk ↦ ?_, rfl, rfl⟩, fun _ ↦ Int.le_refl 0, rfl⟩
  refine iff_of_false ?_ (by decide)
  cases hb : H.kind b with
  | address => exact absurd hb hk
  | fs => decide
  | comm => decide
  | srp => decide

/-- A system in which `::open` returns `fd` and nothing else fails. -/
def World.returning (fd : ℤ) : World where
  fd := fun _ ↦ fd
  door := fun _ ↦ none
  asyncDoor := fun _ ↦ none
  thread := fun _ ↦ none

def twoStacks : Hierarchy where
  kind := fun _ ↦ .comm
  fileName := fun _ ↦ ""

def sampleCalls : List Call :=
  [.open (.returning 3) [0, 1], .open (.returning 4) [1], .close [0, 1]]

theorem open_counts_iff_sample : Good .comm (runs twoStacks (fun _ ↦ .new) sampleCalls 1) := by
  have hn : ∀ call ∈ sampleCalls, call.path.Nodup := by
    intro call hcall
    rcases List.mem_cons.1 hcall with rfl | hcall
    · decide
    rcases List.mem_cons.1 hcall with rfl | hcall
    · decide
    · obtain rfl := List.mem_singleton.1 hcall
      decide
  refine (open_counts_iff twoStacks sampleCalls hn).2 ?_ sampleCalls [] (List.append_nil _).symm 1
  intro pre call post he
  have hmem : call ∈ sampleCalls := he ▸ List.mem_append_right _ List.mem_cons_self
  rcases List.mem_cons.1 hmem with rfl | hmem
  · exact fun _ _ _ ↦ rfl
  rcases List.mem_cons.1 hmem with rfl | hmem
  · exact fun _ _ _ ↦ rfl
  · obtain rfl := List.mem_singleton.1 hmem
    exact fun _ _ hk ↦ nomatch hk

def oneFile : Hierarchy where
  kind := fun _ ↦ .fs
  fileName := fun _ ↦ "/dev/uio0"

/-- The file cannot be opened, then it could be; the second open does not try, and the last close
closes the descriptor `-1`. -/
theorem not_open_counts : ∃ H calls, (∀ call ∈ calls, (Call.path call).Nodup) ∧
    (runs H (fun _ ↦ .new) calls 0).seen.skipped = true ∧
    (runs H (fun _ ↦ .new) calls 0).seen.stray = true ∧
    ¬∀ pre post, calls = pre ++ post → ∀ a, Good (H.kind a) (runs H (fun _ ↦ .new) pre a) := by
  refine ⟨oneFile, [.open (.returning (-1)) [0], .open (.returning 5) [0], .close [0], .close [0]],
    fun call hcall ↦ ?_, by decide +kernel, by decide +kernel, fun hall ↦ ?_⟩
  · have hpath : call.path = [0] := by
      simp only [List.mem_cons, List.not_mem_nil, or_false] at hcall
      rcases hcall with rfl | rfl | rfl | rfl <;> rfl
    rw [hpath]
    exact List.nodup_singleton 0
  · have hgood := hall [.open (.returning (-1)) [0]] _ rfl 0
    exact absurd hgood.counted (by decide +kernel)

end Run

end Cpsw.Addr
