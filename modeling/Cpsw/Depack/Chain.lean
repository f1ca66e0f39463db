import Cpsw.Buf
import Mathlib.Tactic.SplitIfs

namespace Cpsw.Depack

/-- The sum of the sizes of the buffers. -/
def total (bc : BufChain) : ℕ := (bc.map Buf.getSize).sum

@[simp] theorem total_nil : total [] = 0 := rfl

@[simp] theorem total_cons (b : Buf) (bc : BufChain) : total (b :: bc) = b.getSize + total bc := by
  simp [total]

@[simp] theorem total_append (c d : BufChain) : total (c ++ d) = total c + total d := by
  simp [total]

theorem bytes_length {bc : BufChain} (h : ∀ b ∈ bc, b.Ok) : bc.bytes.length = total bc := by
  induction bc with
  | nil => rfl
  | cons b rest ih =>
    have hb := (h b List.mem_cons_self).content_length
    have hr := ih fun x hx ↦ h x (List.mem_cons_of_mem _ hx)
    simp only [BufChain.bytes] at hr
    simp [BufChain.bytes, hb, hr]

/-- A buffer chain as `CBufChainImpl` keeps it, with `size_` beside the buffers. -/
structure Chain where
  bufs : BufChain
  size : ℤ
  deriving DecidableEq, Repr

namespace Chain

def create : Chain := { bufs := [], size := 0 }

def getSize (c : Chain) : ℕ := c.size.toNat

/-- `getHead()->unlink()` -/
def unlinkHead (c : Chain) : Chain :=
  match c.bufs with
  | [] => c
  | b :: bufs => { bufs := bufs, size := c.size - b.getSize }

def addAtHead (b : Buf) (c : Chain) : Chain :=
  if c.bufs = [] then { bufs := [b], size := b.getSize }
  else { bufs := b :: c.bufs, size := c.size + b.getSize }

def addAtTail (b : Buf) (c : Chain) : Chain :=
  if c.bufs = [] then { bufs := [b], size := b.getSize }
  else { bufs := c.bufs ++ [b], size := c.size + b.getSize }

/-- What `setSize`, `adjPayload` or a write make of the first buffer; `addSize` follows its size. -/
def setHead (b' : Buf) (c : Chain) : Chain :=
  match c.bufs with
  | [] => c
  | b :: bufs => { bufs := b' :: bufs, size := c.size + ((b'.getSize : ℤ) - b.getSize) }

/-- The same of the last buffer. -/
def setTail (b' : Buf) (c : Chain) : Chain :=
  match c.bufs.getLast? with
  | none => c
  | some b => { bufs := c.bufs.dropLast ++ [b'], size := c.size + ((b'.getSize : ℤ) - b.getSize) }

variable {c : Chain} {b b' : Buf} {bufs : BufChain}

/-- The chain's size is the sum of those of its buffers. -/
def Sized (c : Chain) : Prop := c.size = total c.bufs

theorem Sized.getSize_eq (h : c.Sized) : c.getSize = total c.bufs := by
  unfold getSize
  rw [h]
  exact Int.toNat_natCast _

theorem sized_create : create.Sized := rfl

theorem Sized.unlinkHead (h : c.Sized) : c.unlinkHead.Sized := by
  unfold Sized at *
  unfold Chain.unlinkHead
  split
  · exact h
  · rename_i b bufs hb
    simp only [h, hb, total_cons]
    omega

theorem Sized.addAtTail (h : c.Sized) (b : Buf) : (c.addAtTail b).Sized := by
  unfold Sized at *
  unfold Chain.addAtTail
  split_ifs
  · simp
  · simp [h]

theorem addAtTail_bufs (b : Buf) (c : Chain) : (c.addAtTail b).bufs = c.bufs ++ [b] := by
  unfold addAtTail
  split_ifs with h
  · simp [h]
  · rfl

theorem Sized.addAtHead (h : c.Sized) (b : Buf) : (c.addAtHead b).Sized := by
  unfold Sized at *
  unfold Chain.addAtHead
  split_ifs
  · simp
  · simp only [h, total_cons]
    omega

theorem addAtHead_bufs (b : Buf) (c : Chain) : (c.addAtHead b).bufs = b :: c.bufs := by
  unfold addAtHead
  split_ifs with h
  · simp [h]
  · rfl

theorem setHead_bufs (hc : c.bufs = b :: bufs) (b' : Buf) : (c.setHead b').bufs = b' :: bufs := by
  unfold setHead
  rw [hc]

theorem Sized.setHead (h : c.Sized) (b' : Buf) : (c.setHead b').Sized := by
  unfold Sized at *
  unfold Chain.setHead
  split
  · exact h
  · rename_i b bufs hb
    simp only [h, hb, total_cons]
    omega

theorem setTail_bufs (hc : c.bufs.getLast? = some b) (b' : Buf) :
    (c.setTail b').bufs = c.bufs.dropLast ++ [b'] := by
  unfold setTail
  rw [hc]

theorem Sized.setTail (h : c.Sized) (b' : Buf) : (c.setTail b').Sized := by
  unfold Sized at *
  unfold Chain.setTail
  split
  · exact h
  · rename_i b hb
    obtain ⟨init, hi⟩ := List.getLast?_eq_some_iff.1 hb
    simp only [h, hi, List.dropLast_concat, total_append, total_cons, total_nil]
    omega

end Chain

end Cpsw.Depack
