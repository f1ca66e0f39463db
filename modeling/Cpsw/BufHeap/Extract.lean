import Cpsw.BufHeap.InsertInv

namespace Cpsw.BufHeap

open Cpsw.Lib

variable {maxcap c b n off m : ℕ} {h h' : Heap} {xs u v : List ℕ}

/-- The bytes that the buffers hold, one after the other. -/
def Heap.bytes (h : Heap) (xs : List ℕ) : Bytes := xs.flatMap fun b ↦ (h.buf b).content

section Bytes

@[simp] theorem bytes_nil : h.bytes [] = [] := rfl

@[simp] theorem bytes_cons : h.bytes (b :: xs) = (h.buf b).content ++ h.bytes xs := by
  simp [Heap.bytes]

@[simp] theorem bytes_append : h.bytes (u ++ v) = h.bytes u ++ h.bytes v := by
  simp [Heap.bytes]

theorem bytes_congr (hb : ∀ i ∈ xs, (h'.buf i).content = (h.buf i).content) :
    h'.bytes xs = h.bytes xs := List.flatMap_congr hb

theorem bytes_resize {b' : Buf} {old : ℤ} (hb : b ∉ xs) : (h.resize b b' old).bytes xs = h.bytes xs := by
  apply bytes_congr
  intro i hi
  rw [resize_buf, Function.update_of_ne (ne_of_mem_of_not_mem hi hb)]

theorem bytes_eq_nil (hi : Inv maxcap h) : h.bytes xs = [] ↔ ∀ b ∈ xs, (h.buf b).getSize = 0 := by
  rw [Heap.bytes, List.flatMap_eq_nil_iff]
  refine forall₂_congr fun b _ ↦ ?_
  rw [← List.length_eq_zero_iff, (hi.ok b).1.content_length]

end Bytes

namespace Inv

theorem content_length (hi : Inv maxcap h) (b : ℕ) : (h.buf b).content.length = (h.buf b).getSize :=
  (hi.ok b).1.content_length

/-- The rest of the loop that copies, from the start of a buffer. -/
theorem copy_eq (hi : Inv maxcap h) (hw : h.links.Whole (u ++ b :: v)) (hn : v.length < n)
    (hoff : off ≤ (h.buf b).getSize) :
    h.copy n b off m = (((h.buf b).content ++ h.bytes v).drop off).take m := by
  induction v generalizing u b n off m with
  | nil =>
    cases n with
    | zero => simp at hn
    | succ n =>
      have hnext : h.links.next b = none := hw.next_eq
      have hsize := hi.getSize_eq b
      have hl : (if (h.getSize b - (off : ℤ)).toNat > m then m else (h.getSize b - (off : ℤ)).toNat) =
          min ((h.buf b).getSize - off) m := by
        split_ifs <;> omega
      simp only [Heap.copy, hnext, hl, bytes_nil, List.append_nil]
      rw [Buf.content, Buf.getPayload, List.drop_take, List.drop_drop, List.take_take, min_comm]
  | cons x v ih =>
    cases n with
    | zero => simp at hn
    | succ n =>
      have hnext : h.links.next b = some x := hw.next_eq
      have hw' : h.links.Whole ((u ++ [b]) ++ x :: v) := by simpa using hw
      have hsize := hi.getSize_eq b
      have hlen := hi.content_length b
      have hl : (if (h.getSize b - (off : ℤ)).toNat > m then m else (h.getSize b - (off : ℤ)).toNat) =
          min ((h.buf b).getSize - off) m := by
        split_ifs <;> omega
      have hcopied : ((h.buf b).data.drop ((h.buf b).beg + off)).take
          (min ((h.buf b).getSize - off) m) = ((h.buf b).content.drop off).take m := by
        rw [Buf.content, Buf.getPayload, List.drop_take, List.drop_drop, List.take_take, min_comm]
      have hrest : ∀ k, h.copy n x 0 k = (h.bytes (x :: v)).take k := by
        intro k
        rw [ih hw' (by simpa using hn) (Nat.zero_le _), List.drop_zero, bytes_cons]
      simp only [Heap.copy, hnext, hl, hcopied, hrest]
      rw [List.drop_append_of_le_length (by omega), List.take_append, List.length_drop, hlen]
      split_ifs with hm
      · have hmin : m - min ((h.buf b).getSize - off) m = m - ((h.buf b).getSize - off) := by omega
        rw [hmin]
      · have hzero : m - ((h.buf b).getSize - off) = 0 := by omega
        simp [hzero]

/-- `extract` copies the bytes from the offset on, as many as there are. -/
theorem extract_eq (hi : Inv maxcap h) (hc : ChainIs h c xs) :
    h.extract c off m = ((h.bytes xs).drop off).take m := by
  have hseek : ∀ (v u : List ℕ) (n off : ℕ), h.links.Whole (u ++ v) → v.length ≤ n →
      v.length ≤ h.fresh → ((h.seek n v.head? off).elim [] fun p ↦ h.copy h.fresh p.1 p.2 m) =
        ((h.bytes v).drop off).take m := by
    intro v
    induction v with
    | nil =>
      intro u n off _ _ _
      cases n <;> simp [Heap.seek]
    | cons b v ih =>
      intro u n off hw hn hf
      cases n with
      | zero => simp at hn
      | succ n =>
        have hw' : h.links.Whole ((u ++ [b]) ++ v) := by simpa using hw
        have hnext : h.links.next b = v.head? := hw.next_eq
        have hlen := hi.content_length b
        rw [List.head?_cons, Heap.seek, hi.toSize_getSize, hnext]
        rw [List.length_cons] at hn hf
        split_ifs with hoff
        · have hskipped : (h.buf b).content.drop off = [] := List.drop_eq_nil_of_le (by omega)
          rw [ih (u ++ [b]) n _ hw' (by omega) (by omega), bytes_cons, List.drop_append, hskipped,
            List.nil_append, hlen]
        · rw [Option.elim_some, hi.copy_eq hw (by omega) (by omega), bytes_cons]
  have hlen : xs.length ≤ h.fresh := by
    cases xs with
    | nil => exact Nat.zero_le _
    | cons b xs =>
      have hb : h.chainOf b = some c := (hc.mem b).2 (List.mem_cons_self ..)
      exact hi.length_le hc.whole (List.mem_cons_self ..) (hi.lt_of_chainOf hb)
  rw [Heap.extract, hc.head, ← hseek xs [] h.fresh off hc.whole hlen hlen]
  cases h.seek h.fresh xs.head? off <;> rfl

end Inv

end Cpsw.BufHeap
