import Cpsw.TDest.Emit
import Cpsw.TDest.Frames

namespace Cpsw.TDest

open Cpsw.Depack Cpsw.Lib Cpsw.Lib.Assembly

/-- The count of the fragments of a chain has 32 bits. -/
def FRAG_COUNT : ℕ := 2 ^ 32

variable {mtu : ℕ} {c rest : Chain} {w w' : Work} {q queue done : List Chain}
  {fs : List (Piece UInt8)} {a : State UInt8} {t : UInt8}

/-- What a receiver reads in the fragments of a chain. -/
def fragsOf (mtu : ℕ) (c : Chain) : List (Piece UInt8) :=
  (pieces mtu [] c.bufs).mapIdx fun i g ↦
    ⟨i % FRAG_COUNT == 0, i + 1 == (pieces mtu [] c.bufs).length, i % FRAG_COUNT % M, BufChain.bytes g⟩

theorem flatten_pieces (acc bufs : BufChain) : (pieces mtu acc bufs).flatten = acc ++ bufs := by
  induction bufs generalizing acc with
  | nil => simp [pieces]
  | cons b bufs ih =>
    unfold pieces
    split_ifs
    · simp [ih]
    · simp [ih]

theorem content_fragsOf (c : Chain) : Assembly.content (fragsOf mtu c) = BufChain.bytes c.bufs := by
  have hmap : (fragsOf mtu c).map Piece.data = (pieces mtu [] c.bufs).map BufChain.bytes := by
    apply List.ext_getElem?
    intro i
    simp [fragsOf, Function.comp_def]
  have hflat := @flatten_pieces mtu [] c.bufs
  rw [List.nil_append] at hflat
  rw [Assembly.content, List.flatMap_def, hmap]
  conv_rhs => rw [← hflat]
  generalize pieces mtu [] c.bufs = gs
  induction gs with
  | nil => rfl
  | cons g gs ih => simp [BufChain.bytes_append, ih]

theorem getElem?_fragsOf {i : ℕ} {f : Piece UInt8} (h : (fragsOf mtu c)[i]? = some f) :
    Wrapped M FRAG_COUNT i f ∧ (f.last = true ↔ i + 1 = (fragsOf mtu c).length) := by
  have hlen : (fragsOf mtu c).length = (pieces mtu [] c.bufs).length := List.length_mapIdx
  unfold fragsOf at h
  rw [List.getElem?_mapIdx] at h
  obtain ⟨g, -, rfl⟩ := Option.map_eq_some_iff.1 h
  refine ⟨⟨?_, rfl⟩, ?_⟩
  · simp
  · simp [hlen]

theorem fragsOf_ne (c : Chain) : fragsOf mtu c ≠ [] := by
  simp [fragsOf, List.mapIdx_eq_nil_iff, pieces_ne]

/-- The fragments of a chain, the last one apart. -/
theorem fragsOf_init (c : Chain) : ∃ xs f, fragsOf mtu c = xs ++ [f] ∧
    (∀ (i : ℕ) (g : Piece UInt8), xs[i]? = some g → Wrapped M FRAG_COUNT i g ∧ g.last = false) ∧
    Wrapped M FRAG_COUNT xs.length f ∧ f.last = true := by
  rcases List.eq_nil_or_concat' (fragsOf mtu c) with hnil | ⟨xs, f, hxs⟩
  · exact absurd hnil (fragsOf_ne c)
  · refine ⟨xs, f, hxs, fun i g hg ↦ ?_, ?_, ?_⟩
    · have hi := (List.getElem?_eq_some_iff.1 hg).1
      obtain ⟨hw, hl⟩ := @getElem?_fragsOf mtu c i g
        (by rw [hxs, List.getElem?_append_left hi]; exact hg)
      refine ⟨hw, ?_⟩
      rw [Bool.eq_false_iff, Ne, hl, hxs, List.length_append, List.length_singleton]
      omega
    · exact (@getElem?_fragsOf mtu c xs.length f (by simp [hxs])).1
    · rw [(@getElem?_fragsOf mtu c xs.length f (by simp [hxs])).2, hxs]
      simp

/-- What a receiver makes of all the fragments of a chain. -/
theorem run_fragsOf (c : Chain) (a : State UInt8) : a.run M (fragsOf mtu c) =
    { cur := none, out := a.out ++ [Assembly.segment FRAG_COUNT (fragsOf mtu c)] } := by
  obtain ⟨xs, f, hxs, hinit, hf, hlast⟩ := @fragsOf_init mtu c
  rw [hxs]
  exact run_wrapped_last (by decide) a hinit hf hlast

/-- Nothing is passed on before the last one. -/
theorem run_fragsOf_take (c : Chain) (a : State UInt8) {k : ℕ} (hk : k < (fragsOf mtu c).length) :
    (a.run M ((fragsOf mtu c).take k)).out = a.out := by
  obtain ⟨xs, f, hxs, hinit, -, -⟩ := @fragsOf_init mtu c
  rw [hxs] at hk ⊢
  rw [List.length_append, List.length_singleton] at hk
  rw [List.take_append_of_le_length (by omega)]
  by_cases hnil : xs.take k = []
  · simp [hnil, State.run]
  · have hx : ∀ (i : ℕ) (g : Piece UInt8), (xs.take k)[i]? = some g →
        Wrapped M FRAG_COUNT i g ∧ g.last = false := by
      intro i g hg
      apply hinit i g
      have hi := (List.getElem?_eq_some_iff.1 hg).1
      rw [List.length_take] at hi
      rwa [List.getElem?_take_of_lt (by omega)] at hg
    rw [run_wrapped (by decide) a hnil hx]

theorem run_flatMap (done : List Chain) (a : State UInt8) :
    (a.run M (done.flatMap (fragsOf mtu))).out =
      a.out ++ done.map fun c ↦ Assembly.segment FRAG_COUNT (fragsOf mtu c) := by
  induction done generalizing a with
  | nil => simp [State.run]
  | cons c done ih =>
    have happ : a.run M ((c :: done).flatMap (fragsOf mtu)) =
        (a.run M (fragsOf mtu c)).run M (done.flatMap (fragsOf mtu)) := by
      simp [State.run]
    rw [happ, ih, run_fragsOf]
    simp

/-- The slot has sent the chains `done` and is about to go on with `queue`; the fragments `fs` have
left so far. -/
inductive Sending (mtu : ℕ) (q : List Chain) :
    List Chain → Work → List Chain → List (Piece UInt8) → Prop
  | idle {w : Work} (done queue : List Chain) : w.bc = none → q = done ++ queue →
      Sending mtu q done w queue (done.flatMap (fragsOf mtu))
  | busy {w : Work} (done queue : List Chain) (c rest : Chain) (k : ℕ) : w.bc = some rest →
      Sendable mtu rest → w.fragNo = k % FRAG_COUNT →
      pieces mtu [] rest.bufs = (pieces mtu [] c.bufs).drop k →
      q = done ++ c :: queue →
      Sending mtu q done w queue (done.flatMap (fragsOf mtu) ++ (fragsOf mtu c).take k)

/-- The frames that a receiver gets from what has left. -/
theorem Sending.out (h : Sending mtu q done w queue fs) :
    ((State.new : State UInt8).run M fs).out =
      done.map fun c ↦ Assembly.segment FRAG_COUNT (fragsOf mtu c) := by
  cases h with
  | idle done queue hbc hq => simp [run_flatMap, State.new]
  | busy done queue c rest k hbc hrest hk hp hq =>
    have hlt : k < (fragsOf mtu c).length := by
      have hne := @pieces_ne mtu [] rest.bufs
      rw [hp, Ne, List.drop_eq_nil_iff] at hne
      simp only [fragsOf, List.length_mapIdx]
      omega
    have happ : (State.new : State UInt8).run M
        (done.flatMap (fragsOf mtu) ++ (fragsOf mtu c).take k) =
        (State.new.run M (done.flatMap (fragsOf mtu))).run M ((fragsOf mtu c).take k) := by
      simp [State.run]
    rw [happ, run_fragsOf_take c _ hlt, run_flatMap]
    simp [State.new]

/-- How many chains have left completely. -/
theorem Sending.length (h : Sending mtu q done w queue fs) :
    q.take (q.length - (queue.length + if w.bc.isSome then 1 else 0)) = done := by
  cases h with
  | idle done queue hbc hq =>
    subst hq
    simp [hbc]
  | busy done queue c rest k hbc hrest hk hp hq =>
    subst hq
    simp only [hbc, Option.isSome_some, if_true, List.length_append, List.length_cons]
    rw [Nat.add_sub_cancel, List.take_left]

/-- A fragment, as the port for `t` can take it. -/
structure Departed (upstream : ℕ) (t : UInt8) (frag : Chain) : Prop where
  received : Received frag.bufs
  whole : ¬SplitsTail frag.bufs
  dest : extractDest frag.bufs = some t
  aligned : frag.getSize % ALIGNMENT = 0
  fits : frag.getSize ≤ upstream

/-- A slot whose port has been given the chains `q`. -/
structure SlotInv (upstream : ℕ) (t : UInt8) (q : List Chain) (w : Work) (queue : List Chain)
    (fs : List (Piece UInt8)) : Prop where
  tdest : w.tdest = t
  stripHeader : w.stripHeader = true
  sendable : ∀ c ∈ queue, Sendable (getMTU upstream) c
  sending : ∃ done, Sending (getMTU upstream) q done w queue fs

/-- The number of the fragments that have yet to leave. -/
def left (mtu : ℕ) (w : Work) (queue : List Chain) : ℕ :=
  (w.bc.toList ++ queue).foldr (fun c n ↦ (pieces mtu [] c.bufs).length + n) 0

variable {upstream : ℕ}

theorem SlotInv.reset (h : SlotInv upstream t q w (c :: queue) fs) (hbc : w.bc = none) :
    SlotInv upstream t q (w.reset c) queue fs ∧
      left (getMTU upstream) (w.reset c) queue = left (getMTU upstream) w (c :: queue) := by
  obtain ⟨done, hs⟩ := h.sending
  constructor
  · refine ⟨h.tdest, h.stripHeader, fun x hx ↦ h.sendable x (List.mem_cons_of_mem _ hx), done, ?_⟩
    cases hs with
    | idle done queue _ hq =>
      have : Sending (getMTU upstream) q done (w.reset c) queue _ := .busy done queue c c 0 rfl
        (h.sendable c List.mem_cons_self) rfl rfl hq
      simpa using this
    | busy done queue c' rest k hbc' => simp [hbc] at hbc'
  · simp [left, Work.reset, hbc]

theorem SlotInv.send (h : SlotInv upstream t q w queue fs) (storage : Storage)
    (hbc : w.bc = some rest) : ∃ frag last w' f,
      sendFrag (getMTU upstream) storage.bytes w = .ok (frag, last, w') ∧
      view frag.bufs = some f ∧ Departed upstream t frag ∧
      SlotInv upstream t q w' queue (fs ++ [f]) ∧
      left (getMTU upstream) w' queue + 1 = left (getMTU upstream) w queue := by
  obtain ⟨done, hs⟩ := h.sending
  cases hs with
  | idle done queue hbc' => simp [hbc] at hbc'
  | busy done queue c rest' k hbc' hrest hk hp hq =>
    rw [hbc] at hbc'
    obtain rfl := Option.some.inj hbc'
    obtain ⟨g, gs, frag, w', hpieces, hsend, hfrag, -, -, hno, hdest, hstrip, hcase⟩ :=
      sendFrag_ok storage h.stripHeader hbc hrest
    rw [hp] at hpieces
    -- the fragment is the next one of its chain
    have hlt : k < (pieces (getMTU upstream) [] c.bufs).length := by
      by_contra hc
      rw [List.drop_eq_nil_of_le (Nat.le_of_not_lt hc)] at hpieces
      cases hpieces
    have hlen : (pieces (getMTU upstream) [] c.bufs).length = k + 1 + gs.length := by
      have := congrArg List.length hpieces
      rw [List.length_drop, List.length_cons] at this
      omega
    have hget : (pieces (getMTU upstream) [] c.bufs)[k]? = some g := by
      rw [← List.head?_drop, hpieces]
      rfl
    have hdrop : (pieces (getMTU upstream) [] c.bufs).drop (k + 1) = gs := by
      rw [← List.tail_drop, hpieces]
      rfl
    have hlast : gs.isEmpty = (k + 1 == (pieces (getMTU upstream) [] c.bufs).length) := by
      cases gs <;> simp [hlen]
    have htake : (fragsOf (getMTU upstream) c).take k ++
        [⟨w.fragNo == 0, gs.isEmpty, w.fragNo % M, BufChain.bytes g⟩] =
        (fragsOf (getMTU upstream) c).take (k + 1) := by
      rw [List.take_add_one]
      congr 1
      simp [fragsOf, hget, hk, hlast]
    refine ⟨frag, gs.isEmpty, w', _, hsend, hfrag.view, ⟨hfrag.received, hfrag.whole, ?_,
      hfrag.aligned, hfrag.fits⟩, ⟨?_, hstrip, h.sendable, ?_⟩, ?_⟩
    · rw [hfrag.dest, h.tdest]
    · rw [hdest, h.tdest]
    · rw [List.append_assoc, htake]
      rcases hcase with ⟨hgs, hnone⟩ | ⟨rest', hsome, hsendable, hp', hne⟩
      · have hall : (fragsOf (getMTU upstream) c).take (k + 1) = fragsOf (getMTU upstream) c := by
          apply List.take_of_length_le
          simp [fragsOf, hlen, hgs]
        have : Sending (getMTU upstream) q (done ++ [c]) w' queue _ :=
          .idle (done ++ [c]) queue hnone (by simp [hq])
        refine ⟨done ++ [c], ?_⟩
        simpa [hall] using this
      · refine ⟨done, .busy done queue c rest' (k + 1) hsome hsendable ?_ ?_ hq⟩
        · rw [hno, hk]
          simp [FRAG_COUNT, Nat.add_mod]
        · rw [hp', hdrop]
    · rcases hcase with ⟨hgs, hnone⟩ | ⟨rest', hsome, hsendable, hp', hne⟩
      · simp [left, hbc, hnone, hp, hpieces, hgs]
        omega
      · simp [left, hbc, hsome, hp, hpieces, hp']
        omega

/-- The fragments for one of the ports. -/
def forDest (t : UInt8) (bcs : List BufChain) : List BufChain :=
  bcs.filter fun bc ↦ extractDest bc = some t

namespace Muxer

/-- The slots as `addPort` leaves them, each port with the chains that it is given. -/
def new (ports : List UInt8) (queues : List (List Chain)) : Muxer where
  work := ports.map fun t ↦ Work.new t true
  inputQueue := queues
  sent := []

/-- The slots in the order in which they get their turns, with the storage of new buffers. -/
def run (mtu : ℕ) (schedule : List (ℕ × Storage)) (m : Muxer) : Except SendError Muxer :=
  schedule.foldlM (fun m x ↦ m.turn mtu x.1 x.2.bytes) m

/-- How many of the chains `q` of the slot `i` have left completely. -/
def completed (i : ℕ) (q : List Chain) (m : Muxer) : ℕ :=
  q.length - ((m.inputQueue.getD i []).length + if ((m.work[i]?).bind Work.bc).isSome then 1 else 0)

/-- What holds of the slots `ports`, whose ports are given the chains `queues`. -/
structure Inv (upstream : ℕ) (ports : List UInt8) (queues : List (List Chain)) (m : Muxer) : Prop where
  work : m.work.length = ports.length
  slot : ∀ (i : ℕ) (t : UInt8) (q : List Chain), ports[i]? = some t → queues[i]? = some q → ∃ w queue, m.work[i]? = some w ∧
    m.inputQueue[i]? = some queue ∧ SlotInv upstream t q w queue
      ((forDest t (m.sent.map Chain.bufs)).filterMap view)
  sent : ∀ frag ∈ m.sent, ∃ t ∈ ports, Departed upstream t frag

variable {ports : List UInt8} {queues : List (List Chain)} {m : Muxer}

theorem inv_new (hs : ∀ q ∈ queues, ∀ c ∈ q, Sendable (getMTU upstream) c) :
    Inv upstream ports queues (new ports queues) := by
  refine ⟨by simp [new], fun i t q ht hq ↦ ?_, by simp [new]⟩
  refine ⟨Work.new t true, q, by simp [new, ht], hq, rfl, rfl, ?_, [], ?_⟩
  · exact hs q (List.mem_of_getElem? hq)
  · simpa [new, forDest] using
      @Sending.idle (getMTU upstream) q (Work.new t true) [] q rfl rfl

theorem forDest_concat (t : UInt8) (bcs : List BufChain) (bc : BufChain) :
    forDest t (bcs ++ [bc]) =
      if extractDest bc = some t then forDest t bcs ++ [bc] else forDest t bcs := by
  unfold forDest
  split_ifs with h <;> simp [h]

/-- A slot sends a fragment; the others are left as they are. -/
theorem Inv.send (hm : Inv upstream ports queues m) (hports : ports.Nodup) (storage : Storage)
    {i : ℕ} {t : UInt8} {q : List Chain} (ht : ports[i]? = some t) (hq : queues[i]? = some q)
    (hlen : i < m.inputQueue.length)
    (hslot : SlotInv upstream t q w queue ((forDest t (m.sent.map Chain.bufs)).filterMap view))
    (hbc : w.bc = some rest) :
    ∃ m' w', Muxer.send (getMTU upstream) i storage.bytes w
        { m with inputQueue := m.inputQueue.set i queue } = .ok m' ∧
      Inv upstream ports queues m' ∧ m'.work[i]? = some w' ∧ m'.inputQueue[i]? = some queue ∧
      left (getMTU upstream) w' queue + 1 = left (getMTU upstream) w queue := by
  obtain ⟨frag, last, w', f, hsend, hview, hdep, hslot', hleft⟩ := hslot.send storage hbc
  have hi : i < m.work.length := by
    rw [hm.work]
    exact (List.getElem?_eq_some_iff.1 ht).1
  refine ⟨{ work := m.work.set i w', inputQueue := m.inputQueue.set i queue,
            sent := m.sent ++ [frag] }, w', ?_, ⟨?_, ?_, ?_⟩, ?_, ?_, hleft⟩
  · simp [Muxer.send, hsend]
  · simp [hm.work]
  · intro j t' q' ht' hq'
    simp only [List.map_append, List.map_cons, List.map_nil, forDest_concat, hdep.dest,
      Option.some.injEq]
    by_cases hij : i = j
    · subst hij
      obtain rfl := Option.some.inj (ht.symm.trans ht')
      obtain rfl := Option.some.inj (hq.symm.trans hq')
      refine ⟨w', queue, by simp [hi], by simp [hlen], ?_⟩
      simpa [hview] using hslot'
    · have hne : t ≠ t' := by
        rintro rfl
        have hj := (List.getElem?_eq_some_iff.1 ht').1
        have hi' := (List.getElem?_eq_some_iff.1 ht).1
        apply hij
        exact (List.Nodup.getElem_inj_iff hports).1
          ((List.getElem?_eq_some_iff.1 ht).2.trans (List.getElem?_eq_some_iff.1 ht').2.symm)
      obtain ⟨w₁, queue₁, h₁, h₂, h₃⟩ := hm.slot j t' q' ht' hq'
      refine ⟨w₁, queue₁, ?_, ?_, ?_⟩
      · rw [List.getElem?_set_ne hij, h₁]
      · rw [List.getElem?_set_ne hij, h₂]
      · simpa [hne] using h₃
  · intro frag' hf
    rcases List.mem_append.1 hf with hf | hf
    · exact hm.sent frag' hf
    · obtain rfl := List.mem_singleton.1 hf
      exact ⟨t, List.mem_of_getElem? ht, hdep⟩
  · simp [hi]
  · simp [hlen]

theorem set_of_getElem? {α : Type} {l : List α} {i : ℕ} {x : α} (h : l[i]? = some x) :
    l.set i x = l := by
  apply List.ext_getElem?
  intro j
  by_cases hij : i = j
  · subst hij
    rw [List.getElem?_set_self (List.getElem?_eq_some_iff.1 h).1, h]
  · rw [List.getElem?_set_ne hij]

/-- A slot with nothing to do is passed over, any other one sends a fragment. -/
theorem Inv.turn (hm : Inv upstream ports queues m) (hports : ports.Nodup)
    (hlen : queues.length = ports.length) (storage : Storage) (i : ℕ) :
    ∃ m', Muxer.turn (getMTU upstream) i storage.bytes m = .ok m' ∧ Inv upstream ports queues m' ∧
      ∀ w queue, m.work[i]? = some w → m.inputQueue[i]? = some queue →
        ∃ w' queue', m'.work[i]? = some w' ∧ m'.inputQueue[i]? = some queue' ∧
          left (getMTU upstream) w' queue' = left (getMTU upstream) w queue - 1 := by
  cases ht : ports[i]? with
  | none =>
    have hw : m.work[i]? = none := by
      rw [List.getElem?_eq_none_iff, hm.work]
      exact List.getElem?_eq_none_iff.1 ht
    refine ⟨m, by simp [Muxer.turn, hw], hm, ?_⟩
    intro w queue hw'
    simp [hw] at hw'
  | some t =>
    have hi := (List.getElem?_eq_some_iff.1 ht).1
    obtain ⟨q, hq⟩ : ∃ q, queues[i]? = some q := ⟨_, List.getElem?_eq_getElem (by omega)⟩
    obtain ⟨w, queue, hw, hqu, hslot⟩ := hm.slot i t q ht hq
    have hlen' := (List.getElem?_eq_some_iff.1 hqu).1
    have hfix : ∀ {w' queue'}, m.work[i]? = some w' → m.inputQueue[i]? = some queue' →
        w' = w ∧ queue' = queue := by
      intro w' queue' h₁ h₂
      exact ⟨Option.some.inj (h₁.symm.trans hw), Option.some.inj (h₂.symm.trans hqu)⟩
    cases hbc : w.bc with
    | some rest =>
      obtain ⟨m', w', hs, hm', h₁, h₂, hleft⟩ := hm.send hports storage ht hq hlen' hslot hbc
      rw [set_of_getElem? hqu] at hs
      refine ⟨m', by simp [Muxer.turn, hw, hbc, hs], hm', ?_⟩
      intro w₀ queue₀ hw₀ hqu₀
      obtain ⟨rfl, rfl⟩ := hfix hw₀ hqu₀
      exact ⟨w', queue₀, h₁, h₂, by omega⟩
    | none =>
      cases queue with
      | nil =>
        refine ⟨m, by simp [Muxer.turn, hw, hbc, hqu], hm, ?_⟩
        intro w₀ queue₀ hw₀ hqu₀
        obtain ⟨rfl, rfl⟩ := hfix hw₀ hqu₀
        exact ⟨w₀, [], hw₀, hqu₀, by simp [left, hbc]⟩
      | cons c queue =>
        obtain ⟨hslot', hleft'⟩ := hslot.reset hbc
        obtain ⟨m', w', hs, hm', h₁, h₂, hleft⟩ := hm.send hports storage ht hq hlen' hslot' rfl
        refine ⟨m', by simp [Muxer.turn, hw, hbc, hqu, hs], hm', ?_⟩
        intro w₀ queue₀ hw₀ hqu₀
        obtain ⟨rfl, rfl⟩ := hfix hw₀ hqu₀
        exact ⟨w', queue, h₁, h₂, by omega⟩

theorem Inv.run (hm : Inv upstream ports queues m) (hports : ports.Nodup)
    (hlen : queues.length = ports.length) (schedule : List (ℕ × Storage)) :
    ∃ m', Muxer.run (getMTU upstream) schedule m = .ok m' ∧ Inv upstream ports queues m' := by
  induction schedule generalizing m with
  | nil => exact ⟨m, rfl, hm⟩
  | cons x schedule ih =>
    obtain ⟨m₁, ht, hm₁, -⟩ := hm.turn hports hlen x.2 x.1
    obtain ⟨m', hr, hm'⟩ := ih hm₁
    refine ⟨m', ?_, hm'⟩
    simp only [Muxer.run, List.foldlM_cons, ht] at hr ⊢
    exact hr

/-- A slot that gets enough turns sends all that it has. -/
theorem Inv.drain (hm : Inv upstream ports queues m) (hports : ports.Nodup)
    (hlen : queues.length = ports.length) (storage : Storage) (i n : ℕ) (hw : m.work[i]? = some w)
    (hqu : m.inputQueue[i]? = some queue) (hn : left (getMTU upstream) w queue ≤ n) :
    ∃ m' w', Muxer.run (getMTU upstream) (List.replicate n (i, storage)) m = .ok m' ∧
      Inv upstream ports queues m' ∧ m'.work[i]? = some w' ∧ m'.inputQueue[i]? = some [] ∧
      w'.bc = none := by
  induction n generalizing m w queue with
  | zero =>
    have hleft : left (getMTU upstream) w queue = 0 := by omega
    have hpos : ∀ c : Chain, 0 < (pieces (getMTU upstream) [] c.bufs).length :=
      fun c ↦ List.length_pos_of_ne_nil (pieces_ne _ _)
    have hbc : w.bc = none := by
      cases hb : w.bc with
      | none => rfl
      | some c =>
        have := hpos c
        simp only [left, hb, Option.toList_some, List.singleton_append, List.foldr_cons] at hleft
        omega
    have hnil : queue = [] := by
      cases queue with
      | nil => rfl
      | cons c queue =>
        have := hpos c
        simp only [left, hbc, Option.toList_none, List.nil_append, List.foldr_cons] at hleft
        omega
    subst hnil
    exact ⟨m, w, rfl, hm, hw, hqu, hbc⟩
  | succ n ih =>
    obtain ⟨m₁, ht, hm₁, hnext⟩ := hm.turn hports hlen storage i
    obtain ⟨w₁, queue₁, hw₁, hqu₁, hleft⟩ := hnext w queue hw hqu
    obtain ⟨m', w', hr, hm', h₁, h₂, h₃⟩ := ih hm₁ hw₁ hqu₁ (by omega)
    refine ⟨m', w', ?_, hm', h₁, h₂, h₃⟩
    simp only [Muxer.run, List.replicate_succ, List.foldlM_cons, ht] at hr ⊢
    exact hr

end Muxer

/-- The fragments arrive in any order that is the same for each of the destinations. -/
structure Interleaved (sent rx : List BufChain) : Prop where
  perm : rx.Perm sent
  order : ∀ t, forDest t rx = forDest t sent

def openPorts (ports : List UInt8) : Downstream :=
  fun t ↦ if t ∈ ports then some (CTDestPort2.new true) else none

/-- Each port gets the fragments for it. -/
theorem pushDown_run (rx : List BufChain) (ds : Downstream)
    (hdest : ∀ bc ∈ rx, ∃ t, extractDest bc = some t)
    (hrun : ∀ t p, ds t = some p → ∃ p', CTDestPort2.run (forDest t rx) p = .ok p') :
    ∃ ds', rx.foldlM pushDown ds = .ok ds' ∧ ∀ t p p', ds t = some p →
      CTDestPort2.run (forDest t rx) p = .ok p' → ds' t = some p' := by
  induction rx generalizing ds with
  | nil =>
    refine ⟨ds, rfl, fun t p p' hp hr ↦ ?_⟩
    rw [hp, Except.ok.inj hr]
  | cons bc rx ih =>
    obtain ⟨t, ht⟩ := hdest bc List.mem_cons_self
    have hself : forDest t (bc :: rx) = bc :: forDest t rx := by simp [forDest, ht]
    have hother : ∀ u, u ≠ t → forDest u (bc :: rx) = forDest u rx := by
      intro u hu
      simp [forDest, ht, hu.symm]
    have hrest : ∀ x ∈ rx, ∃ t, extractDest x = some t :=
      fun x hx ↦ hdest x (List.mem_cons_of_mem _ hx)
    have hcons : ∀ p, CTDestPort2.run (bc :: forDest t rx) p =
        p.pushDownstream bc >>= CTDestPort2.run (forDest t rx) := by
      intro p
      simp only [CTDestPort2.run, List.foldlM_cons]
      rfl
    cases hd : ds t with
    | none =>
      have hstep : pushDown ds bc = .ok ds := by simp [pushDown, ht, hd]
      have hne : ∀ u p, ds u = some p → u ≠ t := by
        rintro u p hu rfl
        simp [hd] at hu
      obtain ⟨ds', hf, hds⟩ := ih ds hrest fun u p hu ↦ by
        rw [← hother u (hne u p hu)]
        exact hrun u p hu
      refine ⟨ds', ?_, fun u p p' hu hr ↦ ?_⟩
      · simp only [List.foldlM_cons, hstep]
        exact hf
      · rw [hother u (hne u p hu)] at hr
        exact hds u p p' hu hr
    | some p₀ =>
      obtain ⟨p₂, hr⟩ := hrun t p₀ hd
      rw [hself, hcons] at hr
      obtain ⟨p₁, hp, hr⟩ := Cpsw.Lib.Run.bind_ok.1 hr
      have hstep : pushDown ds bc = .ok (Function.update ds t (some p₁)) := by
        simp [pushDown, ht, hd, hp]
      obtain ⟨ds', hf, hds⟩ := ih (Function.update ds t (some p₁)) hrest fun u p hu ↦ by
        by_cases hut : u = t
        · subst hut
          rw [Function.update_self] at hu
          exact ⟨p₂, by rw [← Option.some.inj hu]; exact hr⟩
        · rw [Function.update_of_ne hut] at hu
          rw [← hother u hut]
          exact hrun u p hu
      refine ⟨ds', ?_, fun u p p' hu hr' ↦ ?_⟩
      · simp only [List.foldlM_cons, hstep]
        exact hf
      · by_cases hut : u = t
        · subst hut
          obtain rfl := Option.some.inj (hd.symm.trans hu)
          rw [hself, hcons, hp] at hr'
          exact hds u p₁ p' (Function.update_self ..) hr'
        · rw [hother u hut] at hr'
          exact hds u p p' (by rw [Function.update_of_ne hut]; exact hu) hr'

/-- In whatever order the slots get their turns and the fragments of different destinations arrive:
all fragments are aligned and fit the MTU, and each port passes on the payloads that were sent. -/
def RoundTrip (upstream : ℕ) (ports : List UInt8) (queues : List (List Chain)) : Prop :=
  ∀ schedule : List (ℕ × Storage), ∃ m,
    Muxer.run (getMTU upstream) schedule (Muxer.new ports queues) = .ok m ∧
    (∀ frag ∈ m.sent, frag.getSize % ALIGNMENT = 0 ∧ frag.getSize ≤ upstream) ∧
    ∀ rx, Interleaved (m.sent.map Chain.bufs) rx →
      ∃ ds, rx.foldlM pushDown (openPorts ports) = .ok ds ∧
        ∀ (i : ℕ) (t : UInt8) (q : List Chain), ports[i]? = some t → queues[i]? = some q →
          ∃ p, ds t = some p ∧
            p.delivered = (q.take (m.completed i q)).map fun c ↦ BufChain.bytes c.bufs

variable {ports : List UInt8} {queues : List (List Chain)} {m : Muxer} {rx : List BufChain}

/-- What the ports pass on: of each chain what follows its last first fragment. -/
theorem Muxer.Inv.delivers (hm : Muxer.Inv upstream ports queues m)
    (hrx : Interleaved (m.sent.map Chain.bufs) rx) :
    ∃ ds, rx.foldlM pushDown (openPorts ports) = .ok ds ∧
      ∀ (i : ℕ) (t : UInt8) (q : List Chain), ports[i]? = some t → queues[i]? = some q →
        ∃ p, ds t = some p ∧ p.delivered = (q.take (m.completed i q)).map fun c ↦
          Assembly.content (Assembly.segment FRAG_COUNT (fragsOf (getMTU upstream) c)) := by
  have hmem : ∀ bc ∈ rx, ∃ t, extractDest bc = some t ∧ Received bc ∧ ¬SplitsTail bc := by
    intro bc hbc
    obtain ⟨frag, hf, rfl⟩ := List.mem_map.1 (hrx.perm.mem_iff.1 hbc)
    obtain ⟨t, -, hd⟩ := hm.sent frag hf
    exact ⟨t, hd.dest, hd.received, hd.whole⟩
  have hport : ∀ t, ∃ p, CTDestPort2.run (forDest t rx) (CTDestPort2.new true) = .ok p ∧
      p.Holds (State.new.run M ((forDest t rx).filterMap view)) := by
    intro t
    apply CTDestPort2.holds_new.run
    intro bc hbc
    obtain ⟨-, -, h⟩ := hmem bc (List.mem_of_mem_filter hbc)
    exact h
  obtain ⟨ds, hf, hds⟩ := pushDown_run rx (openPorts ports)
    (fun bc hbc ↦ (hmem bc hbc).imp fun _ h ↦ h.1) (fun t p hp ↦ by
      obtain ⟨p', hr, -⟩ := hport t
      unfold openPorts at hp
      split_ifs at hp
      obtain rfl := Option.some.inj hp
      exact ⟨p', hr⟩)
  refine ⟨ds, hf, ?_⟩
  intro i t q ht hq
  obtain ⟨p, hr, hp⟩ := hport t
  obtain ⟨w, queue, hw, hqu, hslot⟩ := hm.slot i t q ht hq
  obtain ⟨done, hs⟩ := hslot.sending
  have hopen : openPorts ports t = some (CTDestPort2.new true) :=
    if_pos (List.mem_of_getElem? ht)
  have hdone : q.take (m.completed i q) = done := by
    rw [← hs.length]
    simp [Muxer.completed, hw, hqu]
  refine ⟨p, hds t _ p hopen hr, ?_⟩
  rw [hp.out, hrx.order, hs.out, hdone, List.map_map]
  rfl

theorem segment_of_le {xs : List (Piece UInt8)} (h : xs.length ≤ FRAG_COUNT) :
    Assembly.segment FRAG_COUNT xs = xs := by
  have hdiv : (xs.length - 1) / FRAG_COUNT = 0 := by
    apply Nat.div_eq_of_lt
    unfold FRAG_COUNT at *
    omega
  rw [Assembly.segment, hdiv, Nat.mul_zero, List.drop_zero]

/-- The frame that a receiver gets is the payload exactly if the count does not start again. -/
theorem content_segment (hs : Sendable (getMTU upstream) c) :
    Assembly.content (Assembly.segment FRAG_COUNT (fragsOf (getMTU upstream) c)) =
      BufChain.bytes c.bufs ↔
      (pieces (getMTU upstream) [] c.bufs).length ≤ FRAG_COUNT := by
  have hlen : (fragsOf (getMTU upstream) c).length = (pieces (getMTU upstream) [] c.bufs).length :=
    List.length_mapIdx
  constructor
  · intro h
    by_contra hlt
    have storage : Storage := ⟨List.replicate 128 0, by simp [Buf.CAPA_ETH_HDR], by simp⟩
    obtain ⟨g, gs, -, -, hp, -, -, hpos, hok, -⟩ :=
      @sendFrag_ok c ((Work.new 0 true).reset c) storage upstream rfl rfl hs
    have hfirst : ∃ f fs, fragsOf (getMTU upstream) c = f :: fs ∧ f.data = BufChain.bytes g := by
      unfold fragsOf
      rw [hp]
      exact ⟨_, _, List.mapIdx_cons, rfl⟩
    obtain ⟨f, fs, hfs, hdata⟩ := hfirst
    -- the first fragment is missing
    have hk : 0 < FRAG_COUNT * (((fragsOf (getMTU upstream) c).length - 1) / FRAG_COUNT) := by
      apply Nat.mul_pos (by decide)
      apply Nat.div_pos _ (by decide)
      omega
    obtain ⟨k, hk⟩ := Nat.exists_eq_succ_of_ne_zero hk.ne'
    have hcut : Assembly.content (Assembly.segment FRAG_COUNT (fragsOf (getMTU upstream) c)) =
        Assembly.content (fs.drop k) := by
      rw [Assembly.segment, hk, hfs, Nat.succ_eq_add_one, List.drop_succ_cons]
    have hall : BufChain.bytes c.bufs =
        f.data ++ (Assembly.content (fs.take k) ++ Assembly.content (fs.drop k)) := by
      rw [← content_append, List.take_append_drop, ← @content_fragsOf (getMTU upstream), hfs]
      rfl
    have hl := congrArg List.length (hcut.symm.trans (h.trans hall))
    rw [List.length_append, List.length_append, hdata, bytes_length hok] at hl
    omega
  · intro h
    rw [segment_of_le (hlen.trans_le h), content_fragsOf]

theorem RoundTrip.count_le (h : RoundTrip upstream ports queues) (hports : ports.Nodup)
    (hlen : queues.length = ports.length)
    (hs : ∀ q ∈ queues, ∀ c ∈ q, Sendable (getMTU upstream) c) :
    ∀ q ∈ queues, ∀ c ∈ q, (pieces (getMTU upstream) [] c.bufs).length ≤ FRAG_COUNT := by
  have hnew : Muxer.Inv upstream ports queues (Muxer.new ports queues) := Muxer.inv_new hs
  intro q hq c hc
  obtain ⟨i, hi, hqi⟩ := List.getElem_of_mem hq
  have hqi' : queues[i]? = some q := List.getElem?_eq_some_iff.2 ⟨hi, hqi⟩
  obtain ⟨t, ht⟩ : ∃ t, ports[i]? = some t := ⟨_, List.getElem?_eq_getElem (by omega)⟩
  have storage : Storage := ⟨List.replicate 128 0, by simp [Buf.CAPA_ETH_HDR], by simp⟩
  -- the slot gets its turn until all has left
  obtain ⟨w, queue, hw, hqu, -⟩ := hnew.slot i t q ht hqi'
  obtain ⟨m, w', hrun, hm, hw', hqu', hbc⟩ := hnew.drain hports hlen storage i _ hw hqu le_rfl
  obtain ⟨m', hrun', -, hdel⟩ := h (List.replicate _ (i, storage))
  obtain rfl := Except.ok.inj (hrun.symm.trans hrun')
  have hall : m.completed i q = q.length := by
    simp [Muxer.completed, hw', hqu', hbc]
  obtain ⟨ds, hf, hds⟩ := hdel _ ⟨List.Perm.refl _, fun _ ↦ rfl⟩
  obtain ⟨ds', hf', hds'⟩ := hm.delivers ⟨List.Perm.refl _, fun _ ↦ rfl⟩
  obtain rfl := Except.ok.inj (hf.symm.trans hf')
  obtain ⟨p, hp, hd⟩ := hds i t q ht hqi'
  obtain ⟨p', hp', hd'⟩ := hds' i t q ht hqi'
  obtain rfl := Option.some.inj (hp.symm.trans hp')
  rw [hd', hall, List.take_length] at hd
  exact (content_segment (hs q hq c hc)).1 (List.map_inj_left.1 hd c hc)

theorem roundTrip_of_count_le (hports : ports.Nodup) (hlen : queues.length = ports.length)
    (hs : ∀ q ∈ queues, ∀ c ∈ q, Sendable (getMTU upstream) c)
    (h : ∀ q ∈ queues, ∀ c ∈ q, (pieces (getMTU upstream) [] c.bufs).length ≤ FRAG_COUNT) :
    RoundTrip upstream ports queues := by
  intro schedule
  have hnew : Muxer.Inv upstream ports queues (Muxer.new ports queues) := Muxer.inv_new hs
  obtain ⟨m, hrun, hm⟩ := hnew.run hports hlen schedule
  refine ⟨m, hrun, ?_, ?_⟩
  · intro frag hf
    obtain ⟨t, -, hd⟩ := hm.sent frag hf
    exact ⟨hd.aligned, hd.fits⟩
  · intro rx hrx
    obtain ⟨ds, hf, hds⟩ := hm.delivers hrx
    refine ⟨ds, hf, ?_⟩
    intro i t q ht hq
    obtain ⟨p, hp, hd⟩ := hds i t q ht hq
    refine ⟨p, hp, ?_⟩
    rw [hd]
    apply List.map_congr_left
    intro c hc
    have hmem := List.mem_of_getElem? hq
    have hc' := List.mem_of_mem_take hc
    exact (content_segment (hs q hmem c hc')).2 (h q hmem c hc')

/-- The frames make the round trip exactly if none of them has more than 2^32 fragments. -/
theorem interleaved_roundTrip_iff (hports : ports.Nodup) (hlen : queues.length = ports.length)
    (hs : ∀ q ∈ queues, ∀ c ∈ q, Sendable (getMTU upstream) c) :
    RoundTrip upstream ports queues ↔
      ∀ q ∈ queues, ∀ c ∈ q, (pieces (getMTU upstream) [] c.bufs).length ≤ FRAG_COUNT := by
  constructor
  · intro h
    exact h.count_le hports hlen hs
  · intro h
    exact roundTrip_of_count_le hports hlen hs h

def single : Buf := { data := List.replicate 64 0, beg := 32, fin := 33 }

/-- A payload in `n` buffers of one byte. -/
def singles (n : ℕ) : Chain := { bufs := List.replicate n single, size := n }

theorem total_singles (n : ℕ) : total (List.replicate n single) = n := by
  induction n with
  | zero => rfl
  | succ n ih =>
    rw [List.replicate_succ, total_cons, ih, Nat.add_comm]
    rfl

theorem sendable_singles {n : ℕ} (hn : 0 < n) {mtu : ℕ} (hmtu : 1 ≤ mtu) :
    Sendable mtu (singles n) := by
  have hmem : ∀ b ∈ (singles n).bufs, b = single := fun b hb ↦ List.eq_of_mem_replicate hb
  have hok : single.Ok := ⟨by decide, by decide, by decide⟩
  refine ⟨?_, ?_, ?_, ?_, ?_⟩
  · simp [Chain.Sized, singles, total_singles]
  · intro b hb
    rw [hmem b hb]
    exact hok
  · intro b hb
    rw [hmem b hb]
    decide
  · intro b hb
    rw [hmem b hb]
    exact hmtu
  · simpa [singles, total_singles] using hn

theorem pieces_singles (n : ℕ) : (pieces 1 [single] (List.replicate n single)).length = n + 1 := by
  induction n with
  | zero => rfl
  | succ n ih =>
    rw [List.replicate_succ, pieces, if_neg (by decide), List.length_cons, ih]

theorem pieces_singles_succ (n : ℕ) :
    (pieces (getMTU 25) [] (singles (n + 1)).bufs).length = n + 1 := by
  have hmtu : getMTU 25 = 1 := rfl
  rw [hmtu, singles, List.replicate_succ, pieces_nil (by decide), pieces_singles]

theorem interleaved_roundTrip_single : RoundTrip 1024 [5] [[singles 3]] ↔
    ∀ q ∈ [[singles 3]], ∀ c ∈ q, (pieces (getMTU 1024) [] c.bufs).length ≤ FRAG_COUNT := by
  apply interleaved_roundTrip_iff
  · decide
  · rfl
  · intro q hq c hc
    obtain rfl := List.mem_singleton.1 hq
    obtain rfl := List.mem_singleton.1 hc
    exact sendable_singles (by decide) (by decide)

/-- With one byte more than 2^32 and an MTU of one byte for the payload, the last fragment is
marked as a first one. -/
theorem not_roundTrip_wrap : ¬RoundTrip 25 [5] [[singles (FRAG_COUNT + 1)]] := by
  intro h
  have hcount := h.count_le (by decide) rfl (fun q hq c hc ↦ by
    obtain rfl := List.mem_singleton.1 hq
    obtain rfl := List.mem_singleton.1 hc
    exact sendable_singles (Nat.succ_pos _) (by decide)) _ List.mem_cons_self _ List.mem_cons_self
  rw [pieces_singles_succ] at hcount
  omega

end Cpsw.TDest
