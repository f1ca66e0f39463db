import Cpsw.BufHeap.InsertInv
import Mathlib.Logic.Relation

namespace Cpsw.BufHeap

open Cpsw.Lib Relation

/-- A call of one of the methods of a buffer or of a chain. -/
inductive Event
  | getBuf (capa : ℕ) (clip : Bool)
  | createAtHead (c capa : ℕ) (clip : Bool)
  | createAtTail (c capa : ℕ) (clip : Bool)
  | addAtHead (c b : ℕ)
  | addAtTail (c b : ℕ)
  | after (b : ℕ) (p : Option ℕ)
  | before (b : ℕ) (p : Option ℕ)
  | unlink (b : ℕ)
  | split (b : ℕ)
  | setSize (b s : ℕ)
  | setPayload (b : ℕ) (p : Option ℤ)
  | adjPayload (b : ℕ) (delta : ℤ)
  | reinit (b : ℕ)
  | insert (c : ℕ) (src : Bytes) (off capa : ℕ)
  | extract (c off size : ℕ)

/-- The buffers that a call is given. -/
def Event.bufs : Event → List ℕ
  | .addAtHead _ b | .addAtTail _ b | .unlink b | .split b | .setSize b _ | .setPayload b _
  | .adjPayload b _ | .reinit b => [b]
  | .after b p | .before b p => b :: p.toList
  | _ => []

namespace Heap

/-- What a call leaves, also where it throws; nothing where `insert` does not come to its end. -/
def step (maxcap : ℕ) (h : Heap) : Event → Option Heap
  | .getBuf capa clip => some (match h.getBuf maxcap capa clip with
    | .ok (h, _) => h
    | .error _ => h)
  | .createAtHead c capa clip => some (h.createAtHead c maxcap capa clip).1
  | .createAtTail c capa clip => some (h.createAtTail c maxcap capa clip).1
  | .addAtHead c b => some (h.addAtHead c b).1
  | .addAtTail c b => some (h.addAtTail c b).1
  | .after b p => some (h.after b p).1
  | .before b p => some (h.before b p).1
  | .unlink b => some (h.unlink b)
  | .split b => some (h.split b).1
  | .setSize b s => some (h.setSize b s).1
  | .setPayload b p => some (h.setPayload b p).1
  | .adjPayload b delta => some (h.adjPayload b delta).1
  | .reinit b => some (h.reinit b)
  | .insert c src off capa => (h.insert maxcap capa c src off).toOption
  | .extract .. => some h

/-- Before any buffer is taken from the free list. -/
def init (storage : ℕ → Bytes) : Heap where
  links := ⟨fun _ ↦ none, fun _ ↦ none⟩
  chainOf _ := none
  buf i := Buf.getBuf (storage i)
  chain _ := {}
  fresh := 0

/-- The unlinked buffer has no neighbour on one side, and no new end of a payload lies in front of
the payload. -/
def Careful (h : Heap) : Event → Prop
  | .unlink b => h.links.prev b = none ∨ h.links.next b = none
  | .setSize b s => h.EndsBehind b s
  | _ => True

def Step (maxcap : ℕ) (h h' : Heap) : Prop :=
  ∃ e : Event, (∀ b ∈ e.bufs, b < h.fresh) ∧ h.step maxcap e = some h'

def CarefulStep (maxcap : ℕ) (h h' : Heap) : Prop :=
  ∃ e : Event, (∀ b ∈ e.bufs, b < h.fresh) ∧ h.Careful e ∧ h.step maxcap e = some h'

/-- Every chain holds a list of buffers, and no buffer is on two chains. -/
def InOrder (h : Heap) : Prop :=
  ∀ c, ∃ xs, ChainIs h c xs ∧ ∀ d ys, ChainIs h d ys → d ≠ c → ∀ b ∈ xs, b ∉ ys

end Heap

variable {maxcap : ℕ} {h h' : Heap}

theorem Inv.init {storage : ℕ → Bytes} (hs : ∀ i, (storage i).length = maxcap)
    (hlo : Buf.HEADROOM ≤ maxcap) (hhi : maxcap < 2 ^ 16) : Inv maxcap (.init storage) := by
  refine ⟨fun c ↦ ⟨[], .nil, by simp [Heap.init], rfl, rfl, rfl, rfl⟩, fun i ↦ ⟨[i],
    List.mem_singleton_self i, .singleton rfl rfl, ?_⟩, fun i ↦ ⟨⟨le_rfl, ?_, ?_⟩, hs i⟩,
    fun i _ ↦ ⟨rfl, rfl, rfl⟩⟩
  · intro j _
    rfl
  · exact hlo.trans (hs i).ge
  · exact (hs i).trans_lt hhi

/-- Every call keeps the invariant. -/
theorem Inv.step (hi : Inv maxcap h) (hcap : Buf.HEADROOM + TAILROOM ≤ maxcap)
    (hs : h.CarefulStep maxcap h') : Inv maxcap h' := by
  have hcap' : Buf.HEADROOM ≤ maxcap := (Nat.le_add_right _ _).trans hcap
  obtain ⟨e, hlt, hgood, he⟩ := hs
  cases e with
  | insert c src off capa =>
    cases hins : h.insert maxcap capa c src off with
    | error e => simp [Heap.step, hins, Except.toOption] at he
    | ok h₁ =>
      simp only [Heap.step, hins, Except.toOption, Option.some.injEq] at he
      exact he ▸ hi.insert hcap hins
  | getBuf capa clip =>
    cases hget : h.getBuf maxcap capa clip with
    | error e =>
      simp only [Heap.step, hget, Option.some.injEq] at he
      exact he ▸ hi
    | ok r =>
      simp only [Heap.step, hget, Option.some.injEq] at he
      exact he ▸ (hi.getBuf hcap' (b := r.2) hget).1
  | createAtHead c capa clip => exact Option.some.inj he ▸ hi.createAtHead hcap'
  | createAtTail c capa clip => exact Option.some.inj he ▸ hi.createAtTail hcap'
  | addAtHead c b => exact Option.some.inj he ▸ hi.addAtHead (hlt b (by simp [Event.bufs]))
  | addAtTail c b => exact Option.some.inj he ▸ hi.addAtTail (hlt b (by simp [Event.bufs]))
  | after b p =>
    exact Option.some.inj he ▸ hi.after (hlt b (by simp [Event.bufs]))
      fun q hq ↦ hlt q (by simp [Event.bufs, hq])
  | before b p =>
    exact Option.some.inj he ▸ hi.before (hlt b (by simp [Event.bufs]))
      fun q hq ↦ hlt q (by simp [Event.bufs, hq])
  | unlink b => exact Option.some.inj he ▸ hi.unlink (hlt b (by simp [Event.bufs])) hgood
  | split b => exact Option.some.inj he ▸ hi.split (hlt b (by simp [Event.bufs]))
  | setSize b s => exact Option.some.inj he ▸ hi.setSize hgood
  | setPayload b p => exact Option.some.inj he ▸ hi.setPayload p
  | adjPayload b delta => exact Option.some.inj he ▸ hi.adjPayload delta
  | reinit b => exact Option.some.inj he ▸ hi.reinit hcap'
  | extract c off size => exact Option.some.inj he ▸ hi

theorem Inv.inOrder (hi : Inv maxcap h) : h.InOrder := by
  intro c
  obtain ⟨xs, hc⟩ := hi.chains c
  refine ⟨xs, hc, fun d ys hd hne b hx hy ↦ hne ?_⟩
  have hbc := (hc.mem b).2 hx
  rw [(hd.mem b).2 hy, Option.some.injEq] at hbc
  exact hbc

theorem Inv.run {storage : ℕ → Bytes} (hs : ∀ i, (storage i).length = maxcap)
    (hlo : Buf.HEADROOM + TAILROOM ≤ maxcap) (hhi : maxcap < 2 ^ 16)
    (hrun : ReflTransGen (Heap.CarefulStep maxcap) (.init storage) h) : Inv maxcap h := by
  induction hrun with
  | refl => exact .init hs ((Nat.le_add_right _ _).trans hlo) hhi
  | tail _ hstep ih => exact ih.step hlo hstep

/-- The storage of the examples. -/
def zeros : ℕ → Bytes := fun _ ↦ List.replicate 64 0

end Cpsw.BufHeap
