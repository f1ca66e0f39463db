import Cpsw.Async.Manager

namespace Cpsw.Async

namespace Manager

variable {α : Type} {m : Manager α} {h : Heap α} {u v p q l : List NodePtr} {x y : NodePtr}
variable {tid : UInt32} {now fuel : ℕ}

/-- The pending list holds `l`, linked in both directions between its anchors. -/
def Lists (m : Manager α) (l : List NodePtr) : Prop := m.heap.links.Linked (.head :: (l ++ [.tail]))

theorem lists_create (timeoutUs : ℕ) : (create timeoutUs : Manager α).Lists [] := by
  constructor
  · exact List.isChain_cons_cons.2 ⟨⟨rfl, rfl⟩, .singleton _⟩
  · simp

theorem Lists.ne_tail (hl : m.Lists l) (hx : x ∈ l) : x ≠ .tail := by
  rintro rfl
  have h : (NodePtr.head :: (l ++ [.tail])).Nodup := Lib.Links.Linked.nodup hl
  exact (List.nodup_append.1 (List.nodup_cons.1 h).2).2.2 _ hx _ (by simp) rfl

theorem Lists.head_next (hl : m.Lists l) : (m.heap .head).next = (l ++ [NodePtr.tail]).head? := by
  cases l with
  | nil => exact (List.isChain_cons_cons.1 hl.chain).1.1
  | cons x l => exact (List.isChain_cons_cons.1 hl.chain).1.1

theorem Lists.getHead_eq (hl : m.Lists l) : m.getHead_unl = l.head? := by
  have hn := hl.head_next
  cases l with
  | nil =>
    have he : m.pendingListEmpty = true := by simpa [pendingListEmpty] using hn
    simp [getHead_unl, he]
  | cons x l =>
    have hx : x ≠ .tail := hl.ne_tail (by simp)
    have he : m.pendingListEmpty = false := by simpa [pendingListEmpty, hn] using hx
    simpa [getHead_unl, he] using hn

theorem Lists.empty_eq (hl : m.Lists l) : m.pendingListEmpty = l.isEmpty := by
  have hn := hl.head_next
  cases l with
  | nil => simpa [pendingListEmpty] using hn
  | cons x l =>
    have hx : x ≠ .tail := hl.ne_tail (by simp)
    simpa [pendingListEmpty, hn] using hx

theorem Lists.post (hl : m.Lists l) (hx : x ∉ l) (hh : x ≠ .head) (ht : x ≠ .tail)
    (tid : UInt32) (now : ℕ) (callback : Option α) :
    ∃ m', m.post x tid now callback = some (m', l.isEmpty) ∧ m'.Lists (l ++ [x]) ∧
      (m'.heap x).tid = tid ∧ ∀ y ≠ x, (m'.heap y).tid = (m.heap y).tid := by
  let h : Heap α := Function.update m.heap x
    { m.heap x with tid := tid, timeout := now + m.timeout, aio := callback }
  have hlinks : h.links = m.heap.links := by
    unfold Heap.links
    congr 1 <;> funext y <;> by_cases hy : y = x <;> simp [h, hy]
  have hl' : h.links.Linked (.head :: (l ++ [.tail])) := by
    rw [hlinks]
    exact hl
  obtain ⟨xs, a, hxs⟩ := (List.eq_nil_or_concat (.head :: l)).resolve_left (by simp)
  have hb : NodePtr.head :: (l ++ [.tail]) = xs ++ a :: .tail :: [] := by
    rw [← List.cons_append, hxs]
    simp
  have hm : x ∉ xs ++ a :: .tail :: [] := by
    rw [← hb]
    simp [hx, hh, ht]
  obtain ⟨h', ha, hl'', hr⟩ := Heap.addBefore_linked (hb ▸ hl') hm
  refine ⟨{ m with heap := h' }, ?_, ?_, ?_, ?_⟩
  · simp only [Manager.post, hl.empty_eq]
    rw [show Heap.addBefore _ x .tail = some h' from ha]
    rfl
  · have he : NodePtr.head :: ((l ++ [x]) ++ [.tail]) = xs ++ a :: x :: .tail :: [] := by
      rw [← List.cons_append, ← List.cons_append, hxs]
      simp
    unfold Lists
    rw [he]
    exact hl''
  · rw [hr.tid]
    simp [h]
  · intro y hy
    rw [hr.tid]
    simp [h, hy]

/-- A member of the list comes out of it. -/
theorem Lists.remove (hl : m.Lists (p ++ x :: q)) :
    ∃ h', m.heap.remove x = some h' ∧ Lists { m with heap := h' } (p ++ q) ∧
      m.heap.Relinked h' := by
  have hl' : m.heap.links.Linked ((.head :: p) ++ x :: (q ++ [.tail])) := by
    simpa [Lists] using hl
  obtain ⟨h', hr, hl'', hs⟩ := Heap.remove_linked hl' (by simp) (by simp)
  exact ⟨h', hr, by simpa [Lists] using hl'', hs⟩

/-- The loop stops at the first node with the transaction id. -/
theorem scan_first (hl : h.links.Linked (u ++ (p ++ x :: v))) (hp : ∀ y ∈ p, (h y).tid ≠ tid)
    (hx : (h x).tid = tid) (hf : p.length < fuel) (hy : (p ++ x :: v).head? = some y) :
    scan h tid fuel y = some x := by
  induction p generalizing u fuel y with
  | nil =>
    obtain ⟨fuel, rfl⟩ := Nat.exists_eq_succ_of_ne_zero (Nat.ne_of_gt hf)
    obtain rfl : x = y := by simpa using hy
    simp [scan, hx]
  | cons z p ih =>
    obtain ⟨fuel, rfl⟩ := Nat.exists_eq_succ_of_ne_zero (Nat.ne_zero_of_lt hf)
    obtain rfl : z = y := by simpa using hy
    have hz : (h z).tid ≠ tid := hp z (by simp)
    obtain ⟨w, r, hw⟩ : ∃ w r, p ++ x :: v = w :: r := by
      cases p with
      | nil => exact ⟨x, v, rfl⟩
      | cons w p => exact ⟨w, p ++ x :: v, rfl⟩
    have hl' : h.links.Linked (u ++ z :: w :: r) := by
      rw [← hw]
      exact hl
    have hn : (h z).next = some w := hl'.adj.1
    have hnext : scan h tid fuel w = some x := by
      apply ih (u := u ++ [z])
      · simpa using hl
      · intro y hy
        exact hp y (by simp [hy])
      · simpa using hf
      · rw [hw]
        rfl
    simp [scan, hz, hn, hnext]

/-- What `complete` finds: the oldest transaction with the id, or none. -/
theorem Lists.findAndRemove (hl : m.Lists l) (tid : UInt32) (hf : l.length < fuel) :
    ∃ m', m.findAndRemove tid fuel = some (m', l.find? fun x ↦ (m.heap x).tid = tid) ∧
      m'.Lists (l.eraseP fun x ↦ (m.heap x).tid = tid) ∧
      ∀ y ≠ .tail, (m'.heap y).tid = (m.heap y).tid := by
  have hl' : Lists { m with heap := m.heap.setTid .tail tid } l := by
    unfold Lists
    rw [Heap.links_setTid]
    exact hl
  have htid {y : NodePtr} (hy : y ≠ .tail) : (m.heap.setTid .tail tid y).tid = (m.heap y).tid := by
    simp [Heap.setTid, hy]
  have htail : (m.heap.setTid .tail tid .tail).tid = tid := by
    simp [Heap.setTid]
  have hhead : (m.heap.setTid .tail tid .head).next = (l ++ [NodePtr.tail]).head? := hl'.head_next
  cases hfind : l.find? fun x ↦ (m.heap x).tid = tid with
  | none =>
    have hne : ∀ y ∈ l, (m.heap y).tid ≠ tid := by simpa using hfind
    obtain ⟨z, hz⟩ : ∃ z, (l ++ [NodePtr.tail]).head? = some z := by
      cases l <;> simp
    have hscan : scan (m.heap.setTid .tail tid) tid fuel z = some .tail := by
      apply scan_first (u := [.head]) (p := l) (v := []) hl' ?_ htail hf hz
      intro y hy
      rw [htid (hl.ne_tail hy)]
      exact hne y hy
    refine ⟨{ m with heap := m.heap.setTid .tail tid }, ?_, ?_, fun y hy ↦ htid hy⟩
    · simp [Manager.findAndRemove, hhead, hz, hscan]
    · rw [List.eraseP_of_forall_not (by simpa using hne)]
      exact hl'
  | some x =>
    obtain ⟨hx, p, q, rfl, hp⟩ := List.find?_eq_some_iff_append.1 hfind
    have hx : (m.heap x).tid = tid := by simpa using hx
    have hp : ∀ y ∈ p, (m.heap y).tid ≠ tid := by simpa using hp
    have hxt : x ≠ .tail := hl.ne_tail (by simp)
    obtain ⟨z, hz⟩ : ∃ z, (p ++ x :: (q ++ [NodePtr.tail])).head? = some z := by
      cases p <;> simp
    have hscan : scan (m.heap.setTid .tail tid) tid fuel z = some x := by
      apply scan_first (u := [.head]) (p := p) (v := q ++ [.tail]) ?_ ?_ ?_ ?_ hz
      · simpa [Lists] using hl'
      · intro y hy
        rw [htid (hl.ne_tail (by simp [hy]))]
        exact hp y hy
      · rw [htid hxt]
        exact hx
      · simp at hf
        omega
    obtain ⟨h', hr, hl'', hs⟩ := hl'.remove
    refine ⟨{ m with heap := h' }, ?_, ?_, ?_⟩
    · rw [List.append_assoc, List.cons_append, hz] at hhead
      simp only [] at hr
      simp [Manager.findAndRemove, hhead, hscan, hxt, hr]
    · rw [List.eraseP_append_right _ (by simpa using hp), List.eraseP_cons_of_pos (by simpa using hx)]
      exact hl''
    · intro y hy
      rw [hs.tid]
      exact htid hy

/-- The time-out thread takes the head when it has expired, else nothing. -/
theorem Lists.removeExpired (hl : m.Lists (x :: l)) (now : ℕ) :
    (¬(m.heap x).timeout < now → m.removeExpired x now = some (m, none)) ∧
      ((m.heap x).timeout < now → ∃ m', m.removeExpired x now = some (m', some x) ∧ m'.Lists l ∧
        ∀ y, (m'.heap y).tid = (m.heap y).tid) := by
  unfold Manager.removeExpired
  constructor
  · intro hx
    simp [hx]
  · intro hx
    obtain ⟨h', hr, hl', hs⟩ := Lists.remove (p := []) hl
    exact ⟨{ m with heap := h' }, by simp [hx, hr], hl', hs.tid⟩

end Manager

end Cpsw.Async
