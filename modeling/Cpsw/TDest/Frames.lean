import Cpsw.Lib.Run
import Cpsw.TDest.Fragment

namespace Cpsw.TDest

open Cpsw.Depack Cpsw.Lib Cpsw.Lib.Assembly Cpsw.Lib.Run

namespace CTDestPort2

/-- All the fragments that are pushed to a port, one after the other. -/
def run (bcs : List BufChain) (s : CTDestPort2) : Except PortError CTDestPort2 :=
  bcs.foldlM (fun s bc ↦ s.pushDownstream bc) s

/-- The bytes of the frames that have been passed downstream. -/
def delivered (s : CTDestPort2) : List Bytes := s.pushed.map BufChain.bytes

/-- The bytes of the frame that is being assembled. -/
def assembled (s : CTDestPort2) : Option Bytes := s.assembleBuffer.map BufChain.bytes

/-- What a port does with one more fragment, after those that the pieces `xs` are from. -/
structure StepLaw (xs : List (Piece UInt8)) (bc : BufChain) (s s' : CTDestPort2) : Prop where
  /-- A malformed fragment has no effect. -/
  malformed : view bc = none → s' = s
  /-- The last fragment of a frame passes the frame on. -/
  frame : ∀ f fs, view bc = some f → IsFrame M fs → fs <:+ xs ++ [f] →
    s'.delivered = s.delivered ++ [Assembly.content fs] ∧ s'.assembled = none
  /-- Any other one that is in sequence is appended. -/
  append : ∀ f fs, view bc = some f → IsOpen M fs → fs <:+ xs ++ [f] →
    s'.delivered = s.delivered ∧ s'.assembled = some (Assembly.content fs)
  /-- A fragment out of sequence discards what there is. -/
  gap : ∀ f, view bc = some f → f.first = false →
    (∀ fs, IsOpen M fs → fs <:+ xs → f.num ≠ fs.length % M) →
    s'.delivered = s.delivered ∧ s'.assembled = none
  /-- While there is nothing, only a first fragment has an effect. -/
  idle : ∀ f, view bc = some f → f.first = false → s.assembled = none →
    s'.delivered = s.delivered ∧ s'.assembled = none

/-- Every frame that is passed on consists of the payloads of consecutive well-formed fragments,
from a first one to a last one, and every fragment has the effect that it should have. -/
def ReceiveLaw (bcs : List BufChain) : Prop :=
  (∃ s, run bcs (new true) = .ok s ∧ ∀ d ∈ s.delivered, ∃ fs, IsFrame M fs ∧
    fs <:+: bcs.filterMap view ∧ d = Assembly.content fs) ∧
  ∀ pre bc, pre ++ [bc] <+: bcs → ∃ s s', run pre (new true) = .ok s ∧
    s.pushDownstream bc = .ok s' ∧ StepLaw (pre.filterMap view) bc s s'

/-- The port holds what the assembly of the pieces holds. -/
structure Holds (s : CTDestPort2) (a : State UInt8) : Prop where
  strip : s.stripHeader = true
  out : s.delivered = a.out.map Assembly.content
  cur : s.assembled = a.cur.map Assembly.content
  fragNo : ∀ fs, a.cur = some fs → (s.fragNo + 1) % 2 ^ 32 = fs.length % 2 ^ 32

variable {s s' : CTDestPort2} {a : State UInt8} {f : Piece UInt8} {bc c : BufChain}
  {fs xs : List (Piece UInt8)} {n : ℕ}

theorem holds_new : Holds (new true) State.new := ⟨rfl, rfl, rfl, nofun⟩

theorem Holds.finish (hs : Holds s a) (hc : c.bytes = Assembly.content fs)
    (hn : (n + 1) % 2 ^ 32 = fs.length % 2 ^ 32) :
    Holds (({ s with assembleBuffer := some c, fragNo := n } : CTDestPort2).finish f.last)
      (a.close f fs) := by
  unfold CTDestPort2.finish State.close
  cases f.last
  · refine ⟨hs.strip, hs.out, ?_, ?_⟩
    · simp [assembled, hc]
    · intro gs hg
      simp only [Bool.false_eq_true, if_false, Option.some.injEq] at hg ⊢
      rw [← hg]
      exact hn
  · refine ⟨hs.strip, ?_, rfl, nofun⟩
    have hout := hs.out
    simp only [delivered] at hout
    simp [delivered, hout, hc]

theorem Holds.accept (hs : Holds s a) (hb : bc.bytes = f.data) :
    Holds (s.accept f.first f.last f.num bc) (a.step M f) := by
  unfold CTDestPort2.accept State.step
  cases hf : f.first
  · simp only [Bool.false_eq_true, if_false]
    have hcur := hs.cur
    unfold assembled at hcur
    cases hc : a.cur with
    | none =>
      rw [hc] at hcur
      have hn : s.assembleBuffer = none := by simpa using hcur
      rw [hn]
      exact hs
    | some gs =>
      rw [hc] at hcur
      obtain ⟨c, hn, hcb⟩ := Option.map_eq_some_iff.1 hcur
      have hlen := hs.fragNo gs hc
      have hmod : (s.fragNo + 1) % 2 ^ 32 % 2 ^ depack2.FRAG_NO_BIT_SIZE = gs.length % M := by
        rw [hlen]
        exact Nat.mod_mod_of_dvd _ (by decide : 2 ^ 16 ∣ 2 ^ 32)
      simp only [hn, hmod, Ne, eq_comm (a := gs.length % M)]
      by_cases hnum : f.num = gs.length % M
      · simp only [hnum, not_true_eq_false, if_false, if_true]
        apply hs.finish
        · simp [BufChain.bytes_append, hcb, hb]
        · simp only [List.length_append, List.length_singleton]
          omega
      · simp only [hnum, not_false_eq_true, if_true, if_false]
        exact ⟨hs.strip, hs.out, rfl, nofun⟩
  · simp only [if_true]
    apply hs.finish
    · simp [hb]
    · simp

/-- The step that a fragment makes. -/
theorem Holds.push (hs : Holds s a) (hr : Received bc) (hn : ¬SplitsTail bc) :
    ∃ s', s.pushDownstream bc = .ok s' ∧ (view bc = none → s' = s) ∧
      Holds s' ((view bc).toList.foldl (State.step M) a) := by
  rcases pushDownstream_ok hs.strip hr hn with ⟨hv, hp⟩ | ⟨f, bc', hv, hb, hp⟩
  · refine ⟨s, hp, fun _ ↦ rfl, ?_⟩
    simpa [hv] using hs
  · refine ⟨_, hp, ?_, ?_⟩
    · simp [hv]
    · simpa [hv] using hs.accept hb

theorem Holds.run (hs : Holds s a) (bcs : List BufChain)
    (hr : ∀ bc ∈ bcs, Received bc ∧ ¬SplitsTail bc) :
    ∃ s', CTDestPort2.run bcs s = .ok s' ∧ Holds s' (a.run M (bcs.filterMap view)) := by
  induction bcs generalizing s a with
  | nil => exact ⟨s, rfl, hs⟩
  | cons bc bcs ih =>
    obtain ⟨h₁, h₂⟩ := hr bc List.mem_cons_self
    obtain ⟨s₁, hp, -, hs₁⟩ := hs.push h₁ h₂
    obtain ⟨s', hrun, hs'⟩ := ih hs₁ fun x hx ↦ hr x (List.mem_cons_of_mem _ hx)
    refine ⟨s', ?_, ?_⟩
    · simp only [CTDestPort2.run, List.foldlM_cons] at hrun ⊢
      rw [hp]
      exact hrun
    · cases hv : view bc <;> simpa [hv, State.run] using hs'

/-- One step, in terms of the pieces before it. -/
theorem Holds.stepLaw (hs : Holds s a) (ha : Scanned M xs a)
    (hr : Received bc) (hn : ¬SplitsTail bc) :
    ∃ s', s.pushDownstream bc = .ok s' ∧ StepLaw xs bc s s' := by
  obtain ⟨s', hp, hmal, hs'⟩ := hs.push hr hn
  have hstep : ∀ f, view bc = some f → Holds s' (a.step M f) := by
    intro f hf
    simpa [hf] using hs'
  refine ⟨s', hp, hmal, fun f fs hf hfs hsuf ↦ ?_, fun f fs hf hfs hsuf ↦ ?_, fun f hf h₁ hgap ↦ ?_,
    fun f hf h₁ hidle ↦ ?_⟩
  · have h := hstep f hf
    rw [ha.step_frame hfs hsuf] at h
    exact ⟨by simp [h.out, hs.out], h.cur⟩
  · have h := hstep f hf
    rw [ha.step_open hfs hsuf] at h
    exact ⟨by simp [h.out, hs.out], h.cur⟩
  · have h := hstep f hf
    rw [ha.step_gap h₁ hgap] at h
    exact ⟨by simp [h.out, hs.out], h.cur⟩
  · have h := hstep f hf
    have hnone : a.cur = none := by
      have := hs.cur
      rw [hidle] at this
      simpa using this.symm
    have hgap : ∀ fs, IsOpen M fs → fs <:+ xs → f.num ≠ fs.length % M := by
      intro fs ho hsuf
      have := (ha.cur fs).2 ⟨ho, hsuf⟩
      simp [hnone] at this
    rw [ha.step_gap h₁ hgap] at h
    exact ⟨by simp [h.out, hs.out], h.cur⟩

/-- The law holds of every sequence of fragments none of which has its tail in two buffers. -/
theorem receiveLaw (bcs : List BufChain) (hr : ∀ bc ∈ bcs, Received bc ∧ ¬SplitsTail bc) :
    ReceiveLaw bcs := by
  constructor
  · obtain ⟨s, hrun, hs⟩ := holds_new.run bcs hr
    refine ⟨s, hrun, ?_⟩
    intro d hd
    rw [hs.out] at hd
    obtain ⟨fs, hfs, rfl⟩ := List.mem_map.1 hd
    obtain ⟨hframe, hinfix⟩ := (Scanned.run (bcs.filterMap view)).out fs hfs
    exact ⟨fs, hframe, hinfix, rfl⟩
  · intro pre bc hpre
    have hmem : ∀ x ∈ pre ++ [bc], Received x ∧ ¬SplitsTail x := fun x hx ↦ hr x (hpre.subset hx)
    obtain ⟨s, hrun, hs⟩ := holds_new.run pre fun x hx ↦ hmem x (List.mem_append_left _ hx)
    obtain ⟨h₁, h₂⟩ := hmem bc (by simp)
    obtain ⟨s', hp, hlaw⟩ := hs.stepLaw (Scanned.run _) h₁ h₂
    exact ⟨s, s', hrun, hp, hlaw⟩

/-- A fragment in one buffer. -/
def fragment (sof : UInt8) (fragNo : UInt8) (eof : UInt8) : BufChain :=
  [{ data := [0x22, 0, 5, 0, fragNo, 0, 0, sof] ++ List.replicate 8 7 ++ [0, eof, 8, 0, 0, 0, 0, 0],
     beg := 0, fin := 24 }]

theorem receiveLaw_two : ReceiveLaw [fragment 0x80 0 0, fragment 0 1 1] := by
  apply receiveLaw
  intro bc hbc
  have hone : ∀ sof fragNo eof, Received (fragment sof fragNo eof) ∧
      ¬SplitsTail (fragment sof fragNo eof) := by
    intro sof fragNo eof
    refine ⟨⟨by simp [fragment], ?_⟩, ?_⟩
    · intro b hb
      obtain rfl := List.mem_singleton.1 hb
      exact ⟨Nat.zero_le _, le_rfl, by simp [Buf.getCapacity]⟩
    · rintro ⟨-, -, -, t, ht, hlt⟩
      obtain rfl := Option.some.inj ht
      simp [Buf.getSize, TAIL_SIZE, depack2] at hlt
  simp only [List.mem_cons, List.not_mem_nil, or_false] at hbc
  rcases hbc with rfl | rfl
  · exact hone _ _ _
  · exact hone _ _ _

/-- A first fragment with eight bytes of payload and the tail `tail`, of which the last four bytes
are in a buffer of their own. What was in this buffer before is still behind them. -/
def splitTail (stale tail : Bytes) : BufChain :=
  [{ data := [0x22, 2, 5, 0, 0, 0, 0, 0x80] ++ List.replicate 8 7 ++ tail.take 4, beg := 0, fin := 20 },
   { data := tail.drop 4 ++ List.replicate 12 0 ++ stale, beg := 0, fin := 4 }]

/-- The end of an older frame is read in the place of the tail: a frame without a last fragment is
passed on. -/
theorem not_receiveLaw_splitTail :
    ¬ReceiveLaw [splitTail [0, 1, 8, 0] [0, 0, 8, 0, 0, 0, 0, 0]] := by
  rintro ⟨⟨s, hrun, hframes⟩, -⟩
  have hd : ((run [splitTail [0, 1, 8, 0] [0, 0, 8, 0, 0, 0, 0, 0]] (new true)).toOption.map
      delivered) = some [List.replicate 8 7] := by decide +kernel
  have hview : [splitTail [0, 1, 8, 0] [0, 0, 8, 0, 0, 0, 0, 0]].filterMap view =
      [⟨true, false, 0, List.replicate 8 7⟩] := by decide +kernel
  rw [hrun] at hd
  have hmem : List.replicate 8 7 ∈ s.delivered := by
    have : s.delivered = [List.replicate 8 7] := Option.some.inj hd
    simp [this]
  obtain ⟨fs, hfs, hinfix, -⟩ := hframes _ hmem
  rw [hview] at hinfix
  have hlen := hinfix.length_le
  have hpos := List.length_pos_of_ne_nil hfs.ne
  have hone : fs = [⟨true, false, 0, List.replicate 8 7⟩] :=
    hinfix.eq_of_length (by simp only [List.length_singleton] at hlen ⊢; omega)
  have := (hfs.last 0 ⟨true, false, 0, List.replicate 8 7⟩ (by simp [hone])).2 (by simp [hone])
  simp at this

end CTDestPort2

end Cpsw.TDest
