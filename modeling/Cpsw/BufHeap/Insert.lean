import Cpsw.BufHeap.Attach

namespace Cpsw.BufHeap

/-- How `insert` can fail: by an exception, by writing past the storage of a buffer, or by never
coming to an end. -/
inductive InsertError
  | heap (e : HeapError)
  | overrun
  | diverges
  deriving DecidableEq, Repr

def TAILROOM : ℕ := 16

/-- A `size_t` as an `int64_t`. -/
def toInt64 (z : ℤ) : ℤ := z.bmod (2 ^ 64)

/-- A `size_t`, by what it is modulo its range. -/
def toSize (z : ℤ) : ℕ := (z % 2 ^ 64).toNat

def orThrow : Heap × Option HeapError → Except InsertError Heap
  | (h, none) => .ok h
  | (_, some e) => .error (.heap e)

namespace Heap

variable (h : Heap) (maxcap capa c : ℕ)

def getAvail (b : ℕ) : ℤ := (h.buf b).getCapacity - (h.buf b).fin

/-- The first loop of `insert`: what is left of the offset, the buffer that it falls in, which is
truncated, and the one after it. -/
def skip : ℕ → Option ℕ → ℕ → Except InsertError (Heap × ℕ × Option ℕ × Option ℕ)
  | n + 1, some b, off =>
    if off ≤ toSize (h.getSize b) then do
      let h ← orThrow (h.setSize b off)
      return (h, 0, some b, h.links.next b)
    else skip n (h.links.next b) (off - toSize (h.getSize b))
  | _, _, off => .ok (h, off, none, none)

/-- The buffers that are added in front of an offset past the end. -/
def addDummies : ℕ → Heap → Option ℕ → ℕ → Except InsertError (Heap × Option ℕ)
  | n + 1, h, b, off =>
    if off = 0 then .ok (h, b)
    else do
      let b := h.fresh
      let h ← orThrow (h.createAtTail c maxcap capa true)
      let delta := toSize (h.getAvail b - TAILROOM)
      let delta := if capa < delta then capa else delta
      let delta := if off < delta then off else delta
      let h ← orThrow (h.setSize b delta)
      addDummies n h (some b) (off - delta)
  | 0, h, b, off => if off = 0 then .ok (h, b) else .error .diverges

/-- How much room a buffer has; none where that is not positive. -/
def roomIn (b : ℕ) : Option ℤ :=
  let avail := toInt64 (h.getAvail b - TAILROOM)
  let room := toInt64 (capa - h.getSize b)
  if avail ≤ 0 ∨ room ≤ 0 then none else some (if avail < room then avail else room)

/-- The buffer that takes the next bytes, and its room: the current one, or a new one at the tail. -/
def takeRoom (b : Option ℕ) : Except InsertError (Heap × ℕ × ℤ) :=
  match b.bind fun b ↦ (h.roomIn capa b).map fun room ↦ (b, room) with
  | some (b, room) => .ok (h, b, room)
  | none => do
    let b := h.fresh
    let h ← orThrow (h.createAtTail c maxcap capa true)
    let room := toInt64 (h.getAvail b - TAILROOM)
    return (h, b, if room > toInt64 capa then toInt64 capa else room)

/-- `memcpy` to the end of the payload, and the new size. -/
def appendTo (b : ℕ) (p : Bytes) : Except InsertError Heap :=
  if (h.buf b).fin + p.length > (h.buf b).getCapacity then .error .overrun
  else
    let fin := (h.buf b).fin
    let data := (h.buf b).data.take fin ++ p ++ (h.buf b).data.drop (fin + p.length)
    orThrow ((h.setBuf b { h.buf b with data := data }).setSize b (toSize (h.getSize b) + p.length))

/-- The loop that copies `src`; it ends with the first buffer that is to be dropped. -/
def fill : ℕ → Heap → Option ℕ → Option ℕ → Bytes → Except InsertError (Heap × Option ℕ)
  | _, h, _, nxtb, [] => .ok (h, nxtb)
  | 0, _, _, _, _ => .error .diverges
  | n + 1, h, b, _, src => do
    let (h, b, room) ← h.takeRoom maxcap capa c b
    let delta := if toSize room > src.length then src.length else toSize room
    let h ← h.appendTo b (src.take delta)
    let nxtb := h.links.next b
    let h := match nxtb with
      | some b => h.reinit b
      | none => h
    fill n h nxtb nxtb (src.drop delta)

/-- The loop that drops the rest of the chain. -/
def dropRest : ℕ → Heap → Option ℕ → Heap
  | n + 1, h, some b => dropRest n (h.unlink b) (h.links.next b)
  | _, h, _ => h

def insert (src : Bytes) (off : ℕ) : Except InsertError Heap := do
  let (h, off, b, nxtb) ← h.skip h.fresh (h.chain c).head off
  let (h, b) ← addDummies maxcap capa c off h b off
  let (h, nxtb) ← fill maxcap capa c src.length h b nxtb src
  return dropRest h.fresh h nxtb

/-- The loop of `extract` that looks for the offset. -/
def seek : ℕ → Option ℕ → ℕ → Option (ℕ × ℕ)
  | n + 1, some b, off =>
    if toSize (h.getSize b) ≤ off then seek n (h.links.next b) (off - toSize (h.getSize b))
    else some (b, off)
  | _, _, _ => none

/-- The loop of `extract` that copies. -/
def copy : ℕ → ℕ → ℕ → ℕ → Bytes
  | n + 1, b, off, size =>
    let l := (h.getSize b - off).toNat
    let l := if l > size then size else l
    let p := ((h.buf b).data.drop ((h.buf b).beg + off)).take l
    match h.links.next b with
    | some b => if size - l > 0 then p ++ copy n b 0 (size - l) else p
    | none => p
  | 0, _, _, _ => []

/-- What `extract` copies; it returns the number of these bytes. -/
def extract (off size : ℕ) : Bytes :=
  match h.seek h.fresh (h.chain c).head off with
  | some (b, off) => h.copy h.fresh b off size
  | none => []

end Heap

end Cpsw.BufHeap
