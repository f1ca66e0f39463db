import Cpsw.Depack.Reassembly

namespace Cpsw.Depack

/-- A fragment with the header `h`. -/
def packet (h : CAxisFrameHeader) (x : Bytes) (eof : Bool) : Bytes :=
  h.insert ++ x ++ insertTailEOF axis eof (iniTail axis)

variable {h : CAxisFrameHeader} {x : Bytes} {eof : Bool} {xs : List Bytes}

theorem insert_length (h : CAxisFrameHeader) : h.insert.length = HEADER_SIZE := by
  rw [insert_eq]
  rfl

theorem insertTailEOF_length (eof : Bool) : (insertTailEOF axis eof (iniTail axis)).length = 1 := by
  cases eof <;> rfl

theorem packet_length : (packet h x eof).length = HEADER_SIZE + x.length + 1 := by
  simp only [packet, List.length_append, insert_length, insertTailEOF_length]

theorem packet_take : (packet h x eof).take HEADER_SIZE = h.insert := by
  rw [packet, List.append_assoc, List.take_left' (insert_length h)]

theorem payload_packet : payload (packet h x eof) = x := by
  have hne : insertTailEOF axis eof (iniTail axis) ≠ [] := by
    intro hn
    have := insertTailEOF_length eof
    rw [hn] at this
    contradiction
  have h1 : (insertTailEOF axis eof (iniTail axis)).dropLast = [] := by
    apply List.eq_nil_of_length_eq_zero
    rw [List.length_dropLast, insertTailEOF_length]
  rw [payload, packet, List.append_assoc, List.drop_left' (insert_length h),
    List.dropLast_append_of_ne_nil hne, h1, List.append_nil]

theorem tail_packet : tail (packet h x eof) = insertTailEOF axis eof (iniTail axis) := by
  have hl : (packet h x eof).length - axis.TAIL_SIZE = (h.insert ++ x).length := by
    rw [packet_length, List.length_append, insert_length]
    rfl
  rw [tail, hl, packet, List.drop_left]

/-- Packets with consecutive fragment numbers are the fragments of a frame. -/
theorem fragments_packets {f : ℕ} (hf : f < 4096) (hs : ℕ → CAxisFrameHeader)
    (hh : ∀ j < xs.length, (hs j).vers = 0 ∧ (hs j).frameNo = f ∧ (hs j).fragNo = j)
    (hlen : xs.length ≤ 2 ^ 24) :
    Fragments f (xs.mapIdx fun j x ↦ packet (hs j) x (j + 1 == xs.length)) := by
  have hget : ∀ j p, (xs.mapIdx fun j x ↦ packet (hs j) x (j + 1 == xs.length))[j]? = some p →
      ∃ x, xs[j]? = some x ∧ p = packet (hs j) x (j + 1 == xs.length) := by
    intro j p hp
    rw [List.getElem?_mapIdx] at hp
    obtain ⟨x, hx, rfl⟩ := Option.map_eq_some_iff.1 hp
    exact ⟨x, hx, rfl⟩
  refine ⟨fun j p hp ↦ ?_, fun p hp ↦ ?_, fun j p hp ↦ ?_⟩
  · obtain ⟨x, hx, rfl⟩ := hget j p hp
    have hj : j < xs.length := (List.getElem?_eq_some_iff.1 hx).1
    obtain ⟨h₁, h₂, h₃⟩ := hh j hj
    refine ⟨hs j, ?_, h₂, h₃⟩
    rw [packet, List.append_assoc]
    apply parse_insert _ h₁ (by omega) (by omega)
    rw [List.length_append, insert_length]
    exact Nat.le_add_right 8 _
  · obtain ⟨j, hj⟩ := List.getElem?_of_mem hp
    obtain ⟨x, -, rfl⟩ := hget j p hj
    rw [packet_length]
    change 8 + 1 ≤ 8 + x.length + 1
    omega
  · obtain ⟨x, hx, rfl⟩ := hget j p hp
    rw [tail_packet, List.length_mapIdx]
    by_cases he : j + 1 = xs.length
    · simp only [he, beq_self_eq_true, iff_true]
      decide
    · have hb : (j + 1 == xs.length) = false := by simp [he]
      rw [hb]
      simp only [he, iff_false]
      decide

theorem content_packets (hs : ℕ → CAxisFrameHeader) (hne : xs ≠ []) :
    content (xs.mapIdx fun j x ↦ packet (hs j) x (j + 1 == xs.length)) =
      (hs 0).insert ++ xs.flatten ++ insertTailEOF axis true (iniTail axis) := by
  have hpos := List.length_pos_of_ne_nil hne
  have hhead : (xs.mapIdx fun j x ↦ packet (hs j) x (j + 1 == xs.length)).headD [] =
      packet (hs 0) (xs.headD []) (1 == xs.length) := by
    cases xs with
    | nil => contradiction
    | cons x xs =>
      rw [List.mapIdx_cons]
      rfl
  have hlast : (xs.mapIdx fun j x ↦ packet (hs j) x (j + 1 == xs.length)).getLastD [] =
      packet (hs (xs.length - 1)) (xs.getLastD []) true := by
    have hl : xs[xs.length - 1]? = some (xs.getLastD []) := by
      rw [← List.getLast?_eq_getElem?, List.getLastD_eq_getLast?]
      obtain ⟨y, hy⟩ := List.getLast?_isSome.2 hne |> Option.isSome_iff_exists.1
      rw [hy]
      rfl
    rw [List.getLastD_eq_getLast?, List.getLast?_eq_getElem?, List.length_mapIdx,
      List.getElem?_mapIdx, hl]
    have he : xs.length - 1 + 1 = xs.length := by omega
    simp [he]
  have hpay : (xs.mapIdx fun j x ↦ packet (hs j) x (j + 1 == xs.length)).flatMap payload =
      xs.flatten := by
    rw [List.flatMap_def]
    congr 1
    apply List.ext_getElem?
    intro j
    rw [List.getElem?_map, List.getElem?_mapIdx, Option.map_map]
    cases xs[j]? with
    | none => rfl
    | some x => simp [payload_packet]
  rw [content, hhead, hlast, hpay, packet_take, tail_packet]

/-- The fragments of a frame that carry `xs`. -/
def packets (f : ℕ) (xs : List Bytes) : List Bytes :=
  xs.mapIdx fun j x ↦
    packet { toPackHeader := PackHeader.new axis j 0, frameNo := f } x (j + 1 == xs.length)

theorem mem_packets {f : ℕ} {p : Bytes} (h : p ∈ packets f xs) :
    ∃ hdr, ∃ x ∈ xs, ∃ eof, p = packet hdr x eof := by
  obtain ⟨j, hj, rfl⟩ := List.mem_mapIdx.1 h
  exact ⟨_, _, List.getElem_mem hj, _, rfl⟩

theorem fragments_of_packets {f : ℕ} (hf : f < 4096) (hlen : xs.length ≤ 2 ^ 24) :
    Fragments f (packets f xs) :=
  fragments_packets hf _ (fun _ _ ↦ ⟨rfl, rfl, rfl⟩) hlen

theorem numbered_packets {xs : ℕ → List Bytes} (hlen : ∀ n, (xs n).length ≤ 2 ^ 24) :
    Numbered fun n ↦ packets (n % 4096) (xs n) :=
  fun n ↦ fragments_of_packets (Nat.mod_lt _ (by decide)) (hlen n)

/-- A fragment in a single buffer. -/
theorem carries_single {p : Bytes} (h : HEADER_SIZE + axis.TAIL_SIZE ≤ p.length)
    (hp : p.length < 2 ^ 16) : Carries [{ data := p, beg := 0, fin := p.length }] p := by
  refine ⟨fun b hb ↦ ?_, ?_, fun bh hb ↦ ?_, fun bt hb ↦ ?_⟩
  · rw [List.mem_singleton.1 hb]
    exact ⟨Nat.zero_le _, le_rfl, hp⟩
  · simp [BufChain.bytes, Buf.content, Buf.getPayload, Buf.getSize]
  · obtain rfl := Option.some.inj hb
    change 8 ≤ p.length - 0
    change 8 + 1 ≤ p.length at h
    omega
  · obtain rfl := Option.some.inj hb
    change 1 ≤ p.length - 0
    change 8 + 1 ≤ p.length at h
    omega

end Cpsw.Depack
