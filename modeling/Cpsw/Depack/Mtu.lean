import Cpsw.Depack.RoundTrip

namespace Cpsw.Depack

namespace CProtoModDepack

/-- In 32-bit integers; `upMTU` is what the upstream door says. -/
def getMTU (upMTU : ℕ) : ℕ := (upMTU + 2 ^ 32 - HEADER_SIZE - axis.TAIL_SIZE) % 2 ^ 32

/-- The MTU that sizes beyond `SAFE_MTU` are compared with: what the upstream door said last, unless
`cachedMTU_` has been reset. -/
def currentMTU (cachedMTU upMTU : ℕ) : ℕ := if cachedMTU = 0 then upMTU else cachedMTU

/-- The fragments that the loop of `push` makes of what is left of a chain. -/
inductive Pushes (mtu : ℕ) (storage : Bytes) : ℕ → Option Chain → List Chain → ℕ → Prop
  | sent {frameNo : ℕ} : Pushes mtu storage frameNo none [] frameNo
  | empty {frameNo : ℕ} {bc : Chain} :
    bc.getSize = 0 → Pushes mtu storage frameNo (some bc) [] frameNo
  | next {frameNo frameNo' nf : ℕ} {bc res : Chain} {rest : Option Chain} {cs : List Chain} :
    bc.getSize ≠ 0 → processOutput mtu storage frameNo bc = .ok (res, rest, frameNo') →
      Pushes mtu storage frameNo' rest cs nf → Pushes mtu storage frameNo (some bc) (res :: cs) nf

/-- The loop comes to its end, and all the fragments fit the MTU of the upstream door. -/
def Conforms (mtu upMTU : ℕ) (storage : Bytes) (frameNo : ℕ) (oc : Option Chain) : Prop :=
  ∃ cs nf, Pushes mtu storage frameNo oc cs nf ∧ ∀ c ∈ cs, c.getSize ≤ upMTU

variable {mtu upMTU extra frameNo nf n : ℕ} {storage : Bytes} {bc c : Chain} {cs : List Chain}
  {b h : Buf} {bs : BufChain} {hdr : CAxisFrameHeader} {oc : Option Chain}

/-- The loop with enough turns. -/
theorem Pushes.pushLoop_eq (h : Pushes mtu storage frameNo oc cs nf) (hn : cs.length < n) :
    pushLoop mtu storage n frameNo oc = .ok (cs, nf) := by
  induction h generalizing n with
  | sent =>
    cases n with
    | zero => rfl
    | succ n => rfl
  | empty h0 =>
    cases n with
    | zero => rfl
    | succ n => exact if_pos h0
  | next hne hp _ ih =>
    cases n with
    | zero => contradiction
    | succ n =>
      rw [pushLoop_succ hne, hp]
      change (pushLoop mtu storage n _ _ >>= _) = _
      rw [ih (Nat.lt_of_succ_lt_succ hn)]
      rfl

/-- A fragment with `extra` bytes before its buffers `g` and its tail, where more than one buffer
went to it: of a single one the MTU that the upper layer was told takes care. -/
def Fits (upMTU extra : ℕ) (g : BufChain) : Prop :=
  2 ≤ g.length ∨ upMTU < HEADER_SIZE + axis.TAIL_SIZE → extra + total g + axis.TAIL_SIZE ≤ upMTU

/-- The fragments fit with their tails, and a header fits before every buffer that starts one. -/
def Tight (upMTU extra : ℕ) : List BufChain → Prop
  | [] => True
  | g :: gs => (g ≠ [] ∧ Fits upMTU extra g) ∧ ∀ g' ∈ gs, g' ≠ [] ∧ Fits upMTU HEADER_SIZE g'

/-- A chain with the header that the upper layer provides. -/
structure Framed (c : Chain) : Prop where
  sized : c.Sized
  ok : ∀ x ∈ c.bufs, x.Ok
  header : ∃ b bs hdr, c.bufs = b :: bs ∧ CAxisFrameHeader.parse b.getPayload b.getSize = some hdr

theorem Framed.start (hc : Framed c) : ∃ b bs hdr, Start 0 hdr b b bs c := by
  obtain ⟨b, bs, hdr, hb, hp⟩ := hc.header
  have hok := hc.ok
  rw [hb] at hok
  exact ⟨b, bs, hdr, hb, hc.sized, hok, (Nat.zero_add _).symm, rfl, parse_size hp, hp,
    Nat.zero_le _, hok b List.mem_cons_self, rfl⟩

theorem Start.header_valid (hs : Start extra hdr b h bs c) : hdr.vers = 0 ∧ hdr.frameNo < 4096 :=
  ⟨parse_vers hs.parse, (parse_frameNo_lt hs.parse).1⟩

/-- The header, the payload and the tail. -/
theorem carries_getSize {eof : Bool} {g : BufChain} (hs : c.Sized)
    (hc : Carries c.bufs (packet hdr ((BufChain.bytes g).drop (HEADER_SIZE - extra)) eof))
    (hg : ∀ x ∈ g, x.Ok) (hle : extra ≤ HEADER_SIZE) (hx : HEADER_SIZE ≤ extra + total g) :
    c.getSize = extra + total g + axis.TAIL_SIZE := by
  obtain ⟨x, htail⟩ := tail_bytes eof
  have hl : (BufChain.bytes c.bufs).length = total c.bufs := bytes_length hc.ok
  have hgl : (BufChain.bytes g).length = total g := bytes_length hg
  rw [hc.bytes, packet, htail] at hl
  simp only [List.length_append, List.length_drop, insert_length, hgl, List.length_cons,
    List.length_nil] at hl
  rw [hs.getSize_eq, ← hl]
  change 8 + (total g - (8 - extra)) + 1 = extra + total g + 1
  change 8 ≤ _ at hx
  change extra ≤ 8 at hle
  omega

/-- A buffer that fits the MTU that the upper layer was told fits with a header and a tail. -/
theorem fits_single (hle : extra ≤ HEADER_SIZE) (hup : upMTU < 2 ^ 32)
    (hfit : b.getSize ≤ getMTU upMTU) (h : Fits upMTU extra [b]) :
    extra + total [b] + axis.TAIL_SIZE ≤ upMTU := by
  by_cases hm : upMTU < HEADER_SIZE + axis.TAIL_SIZE
  · exact h (.inr hm)
  · rw [total_cons, total_nil]
    unfold getMTU at hfit
    change ¬upMTU < 8 + 1 at hm
    change extra ≤ 8 at hle
    change b.getSize ≤ (upMTU + 2 ^ 32 - 8 - 1) % 2 ^ 32 at hfit
    change extra + (b.getSize + 0) + 1 ≤ upMTU
    omega

/-- Whether a fragment fits, with its tail. -/
theorem fits_iff {g : BufChain} (hle : extra ≤ HEADER_SIZE) (hup : upMTU < 2 ^ 32)
    (hfit : b.getSize ≤ getMTU upMTU) :
    Fits upMTU extra (b :: g) ↔ extra + total (b :: g) + axis.TAIL_SIZE ≤ upMTU := by
  refine ⟨fun h ↦ ?_, fun h _ ↦ h⟩
  cases g with
  | nil => exact fits_single hle hup hfit h
  | cons b' g => exact h (.inl (Nat.le_add_left 2 _))

theorem conforms_none : Conforms mtu upMTU storage frameNo none := ⟨[], frameNo, .sent, nofun⟩

/-- A turn of the loop. -/
theorem conforms_next {res : Chain} {rest : Option Chain} {frameNo' : ℕ} (hpos : c.getSize ≠ 0)
    (hp : processOutput mtu storage frameNo c = .ok (res, rest, frameNo')) :
    Conforms mtu upMTU storage frameNo (some c) ↔
      res.getSize ≤ upMTU ∧ Conforms mtu upMTU storage frameNo' rest := by
  constructor
  · rintro ⟨cs, nf, h, hle⟩
    cases h with
    | empty h0 => exact absurd h0 hpos
    | next _ hp' hrest =>
      obtain ⟨rfl, rfl, rfl⟩ : res = _ ∧ rest = _ ∧ frameNo' = _ := by
        simpa using hp.symm.trans hp'
      exact ⟨hle _ List.mem_cons_self, _, _, hrest, fun x hx ↦ hle x (List.mem_cons_of_mem _ hx)⟩
  · rintro ⟨hle, cs, nf, h, hles⟩
    exact ⟨res :: cs, nf, .next hpos hp h, List.forall_mem_cons.2 ⟨hle, hles⟩⟩

/-- An exception ends the loop before its time. -/
theorem not_conforms {e : SendError} (hpos : c.getSize ≠ 0)
    (he : processOutput mtu storage frameNo c = .error e) :
    ¬Conforms mtu upMTU storage frameNo (some c) := by
  rintro ⟨cs, nf, h, -⟩
  cases h with
  | empty h0 => exact hpos h0
  | next _ hp _ =>
    rw [he] at hp
    cases hp

/-- A buffer without room for a header: the header goes to a new buffer, whose size is not set, and
the next call does not find it. -/
theorem Left.not_conforms (hl : Left hdr b bs c) (hh : ¬HEADER_SIZE ≤ b.getHeadroom) :
    ¬Conforms mtu upMTU storage frameNo (some c) := by
  obtain ⟨h, hb, h0⟩ := hl.stuck hh
  apply CProtoModDepack.not_conforms hl.pos
  unfold processOutput
  rw [hb]
  dsimp only
  rw [h0]
  rfl

/-- A buffer that does not fit by itself. -/
theorem processOutput_unable (frameNo : ℕ) (hs : Start extra hdr b h bs c)
    (hf : ¬fitsInMTU mtu (extra + total (b :: bs)) = true)
    (hfit : ¬fitsInMTU mtu (extra + b.getSize) = true) :
    processOutput mtu storage frameNo c = .error .unableToFragment := by
  obtain ⟨h', hset, -, hsize, -⟩ := hs.header (sendHeader frameNo hdr)
  have hsized : ({ bufs := h' :: bs, size := c.size } : Chain).Sized := by
    rw [← hset]
    exact hs.sized.setHead _
  have htotal : ({ bufs := h' :: bs, size := c.size } : Chain).getSize = extra + total (b :: bs) := by
    rw [hsized.getSize_eq, total_cons, total_cons, hsize]
    omega
  have hnot : ¬fitsInMTU mtu (0 + h'.getSize) = true := by
    rwa [Nat.zero_add, hsize]
  have hmove : moveLoop mtu (h' :: bs).length 0 { bufs := h' :: bs, size := c.size } Chain.create =
      (0, { bufs := h' :: bs, size := c.size }, Chain.create) := if_neg hnot
  unfold processOutput
  rw [hs.bufs]
  dsimp only
  rw [hs.parse]
  dsimp only
  rw [hset, htotal, if_neg hf]
  dsimp only
  rw [hmove]
  rfl

/-- Of the first piece, and of the others as of those that start with a header of their own. -/
theorem fits_cons {g g' : BufChain} {gs : List BufChain} :
    RoomFor mtu extra (g :: g' :: gs) ∧ Tight upMTU extra (g :: g' :: gs) ↔
      (TailRoom mtu extra g ∧ HeadRoom g' ∧ g ≠ [] ∧ Fits upMTU extra g) ∧
        RoomFor mtu HEADER_SIZE (g' :: gs) ∧ Tight upMTU HEADER_SIZE (g' :: gs) := by
  simp only [RoomFor, Tight, List.forall_mem_cons]
  constructor
  · rintro ⟨⟨ht, ⟨hh, ht'⟩, hr⟩, hg, hg', hgs⟩
    exact ⟨⟨ht, hh, hg⟩, ⟨ht', hr⟩, hg', hgs⟩
  · rintro ⟨⟨ht, hh, hg⟩, ⟨ht', hr⟩, hg', hgs⟩
    exact ⟨⟨ht, ⟨hh, ht'⟩, hr⟩, hg, hg', hgs⟩

/-- The first piece starts with the first buffer, unless that one does not fit. -/
theorem pieces_head (mtu n extra : ℕ) (b : Buf) (bs : BufChain) :
    ∃ g gs, pieces mtu (n + 1) extra (b :: bs) = g :: gs ∧ ∀ x ∈ g.head?, x = b := by
  unfold pieces
  split_ifs
  · exact ⟨_, _, rfl, fun x hx ↦ (Option.some.inj hx).symm⟩
  · unfold cut
    split_ifs
    · exact ⟨_, _, rfl, fun x hx ↦ (Option.some.inj hx).symm⟩
    · refine ⟨_, _, rfl, fun x hx ↦ ?_⟩
      cases hx

theorem tight_singleton {g : BufChain} :
    Tight upMTU extra [g] ↔ g ≠ [] ∧ Fits upMTU extra g :=
  ⟨fun h ↦ h.1, fun h ↦ ⟨h, nofun⟩⟩

theorem roomFor_singleton {g : BufChain} : RoomFor mtu extra [g] ↔ TailRoom mtu extra g :=
  ⟨fun h ↦ h.1, fun h ↦ ⟨h, nofun⟩⟩

/-- The whole loop, with `n` turns at most. -/
theorem conforms_iff (hst : (Buf.getBuf storage).Ok) (hroom : Buf.HEADROOM < storage.length)
    (hup : upMTU < 2 ^ 32) (hn : bs.length < n) (hs : Start extra hdr b h bs c)
    (hfit : ∀ x ∈ b :: bs, x.getSize ≤ getMTU upMTU) :
    Conforms mtu upMTU storage frameNo (some c) ↔
      RoomFor mtu extra (pieces mtu n extra (b :: bs)) ∧
        Tight upMTU extra (pieces mtu n extra (b :: bs)) := by
  induction n generalizing frameNo extra hdr b h bs c with
  | zero => contradiction
  | succ n ih =>
    have hpos : c.getSize ≠ 0 := by
      have := hs.room
      rw [hs.sized.getSize_eq, hs.bufs, total_cons]
      change 8 ≤ h.getSize at this
      omega
    have hx := hs.room
    rw [hs.size] at hx
    have hok : ∀ x ∈ b :: bs, x.Ok := by
      intro x hx
      rcases List.mem_cons.1 hx with rfl | hx
      · exact hs.own
      · exact hs.ok x (List.mem_cons_of_mem _ hx)
    have hb := hfit b List.mem_cons_self
    by_cases hf : fitsInMTU mtu (extra + total (b :: bs)) = true
    · -- the rest leaves as one fragment
      have hpieces : pieces mtu (n + 1) extra (b :: bs) = [b :: bs] := by
        unfold pieces
        exact if_pos hf
      rw [hpieces, roomFor_singleton, tight_singleton, fits_iff hs.extra_le hup hb]
      obtain ⟨h₁, h₂⟩ := processOutput_last frameNo hst hroom hs hf
      by_cases ht : TailRoom mtu extra (b :: bs)
      · obtain ⟨c', hp, hsz, hc⟩ := h₁ ht
        have hsize : c'.getSize = extra + total (b :: bs) + axis.TAIL_SIZE := by
          apply carries_getSize hsz hc hok hs.extra_le
          rw [total_cons]
          omega
        rw [conforms_next hpos hp, hsize]
        exact ⟨fun h ↦ ⟨ht, List.cons_ne_nil _ _, h.1⟩, fun h ↦ ⟨h.2.2, conforms_none⟩⟩
      · obtain ⟨e, he⟩ := h₂ ht
        exact iff_of_false (not_conforms hpos he) fun hr ↦ ht hr.1
    · have hpieces : pieces mtu (n + 1) extra (b :: bs) =
          (cut mtu extra (b :: bs)).1 :: pieces mtu n HEADER_SIZE (cut mtu extra (b :: bs)).2 := by
        rw [pieces, if_neg hf]
      by_cases hbf : fitsInMTU mtu (extra + b.getSize) = true
      · obtain ⟨hv, hfr⟩ := hs.header_valid
        obtain ⟨g, b', bs', hcut, h₁, h₂⟩ := processOutput_more frameNo hst hroom hs hv hfr hf hbf
        have happend : b :: g ++ b' :: bs' = b :: bs := by
          have := cut_append mtu extra (b :: bs)
          rwa [hcut] at this
        have hbs : bs = g ++ b' :: bs' := (List.cons.inj happend).2.symm
        have hlen : bs'.length < n := by
          rw [hbs, List.length_append, List.length_cons] at hn
          omega
        obtain ⟨n, rfl⟩ : ∃ m, n = m + 1 := ⟨n - 1, by omega⟩
        obtain ⟨g', gs, hgs, hhead⟩ := pieces_head mtu n HEADER_SIZE b' bs'
        rw [hpieces, hcut]
        dsimp only
        rw [hgs, fits_cons, ← hgs]
        by_cases ht : TailRoom mtu extra (b :: g)
        · obtain ⟨c', rest, hp, hsz, hc, hleft⟩ := h₁ ht
          have hsize : c'.getSize = extra + total (b :: g) + axis.TAIL_SIZE := by
            apply carries_getSize hsz hc _ hs.extra_le
            · rw [total_cons]
              omega
            · intro x hx
              apply hok
              rw [← happend]
              exact List.mem_append_left _ hx
          rw [conforms_next hpos hp, hsize, fits_iff hs.extra_le hup hb]
          by_cases hh : HEADER_SIZE ≤ b'.getHeadroom
          · obtain ⟨h'', hs'⟩ := hleft.start hh
            rw [ih hlen hs' fun x hx ↦ hfit x (by rw [← happend]; exact List.mem_append_right _ hx)]
            have hroom' : HeadRoom g' := by
              intro x hx
              rw [hhead x hx]
              exact hh
            exact and_congr_left fun _ ↦ ⟨fun h ↦ ⟨ht, hroom', List.cons_ne_nil _ _, h⟩, fun h ↦ h.2.2.2⟩
          · refine iff_of_false (fun h ↦ hleft.not_conforms hh h.2) fun h ↦ ?_
            obtain ⟨⟨-, hh', -⟩, -, htight⟩ := h
            rw [hgs] at htight
            cases g' with
            | nil => exact htight.1.1 rfl
            | cons x g' =>
              obtain rfl := hhead x rfl
              exact hh (hh' x rfl)
        · obtain ⟨e, he⟩ := h₂ ht
          exact iff_of_false (not_conforms hpos he) fun hr ↦ ht hr.1.1
      · refine iff_of_false (not_conforms hpos (processOutput_unable frameNo hs hf hbf)) fun hr ↦ ?_
        rw [hpieces, cut, if_neg hbf] at hr
        exact hr.2.1.1 rfl

/-- The fragments of a chain leave within the MTU if and only if there is room for every header and
every tail, the MTU that is remembered lets every fragment take a buffer, and no fragment of two or
more buffers takes the byte that its tail needs. -/
theorem push_conforms_iff (cachedMTU frameNo : ℕ) (hst : (Buf.getBuf storage).Ok)
    (hroom : Buf.HEADROOM < storage.length) (hup : upMTU < 2 ^ 32) (hc : Framed c)
    (hfit : ∀ x ∈ c.bufs, x.getSize ≤ getMTU upMTU) :
    Conforms (currentMTU cachedMTU upMTU) upMTU storage frameNo (some c) ↔
      RoomFor (currentMTU cachedMTU upMTU) 0
          (pieces (currentMTU cachedMTU upMTU) c.bufs.length 0 c.bufs) ∧
        Tight upMTU 0 (pieces (currentMTU cachedMTU upMTU) c.bufs.length 0 c.bufs) := by
  obtain ⟨b, bs, hdr, hs⟩ := hc.start
  rw [hs.bufs] at hfit ⊢
  exact conforms_iff hst hroom hup (Nat.lt_succ_self _) hs hfit

theorem getBuf_ok (n : ℕ) (hn : n < 2 ^ 16) (hroom : Buf.HEADROOM ≤ n) :
    (Buf.getBuf (List.replicate n 0)).Ok := by
  have hl : (List.replicate n (0 : UInt8)).length = n := List.length_replicate
  refine ⟨le_rfl, ?_, ?_⟩
  · exact hroom.trans hl.ge
  · exact hl.trans_lt hn

theorem getSize_sample (beg n : ℕ) : (sample beg n).getSize = n := Nat.add_sub_cancel_left _ _

theorem push_conforms_sample :
    Conforms (currentMTU 0 1024) 1024 (List.replicate 1968 0) 7 (some (sampleChain 32)) := by
  have hsend := sendable_sampleChain (by decide : 32 < 1000)
  have hroom : Buf.HEADROOM < (List.replicate 1968 (0 : UInt8)).length := by
    rw [List.length_replicate]
    decide
  have hfit : ∀ x ∈ (sampleChain 32).bufs, x.getSize ≤ getMTU 1024 := by
    intro x hx
    simp only [sampleChain, List.mem_cons, List.not_mem_nil, or_false] at hx
    rcases hx with rfl | rfl
    · rw [getSize_sample]
      decide
    · rw [getSize_sample]
      decide
  have hc : Framed (sampleChain 32) := by
    obtain ⟨b, bs, hdr, hb, -, hp, -⟩ := hsend.header
    exact ⟨hsend.sized, hsend.ok, b, bs, hdr, hb, hp⟩
  apply (push_conforms_iff 0 7 (getBuf_ok 1968 (by decide) (by decide)) hroom (by decide) hc hfit).2
  change RoomFor 1024 0 (pieces 1024 2 0 (sampleChain 32).bufs) ∧
    Tight 1024 0 (pieces 1024 2 0 (sampleChain 32).bufs)
  rw [pieces_sampleChain]
  have havail : ∀ beg, 0 < (sample beg 600).getAvail := by
    intro beg
    have hl : (List.replicate (beg + 600 + 1) (0 : UInt8)).length = beg + 600 + 1 := List.length_replicate
    change 0 < (List.replicate (beg + 600 + 1) (0 : UInt8)).length - (beg + 600)
    omega
  have htail : ∀ beg extra, TailRoom 1024 extra [sample beg 600] := by
    intro beg extra b hb _
    obtain rfl := Option.some.inj hb
    exact havail beg
  have hfits : ∀ beg extra, Fits 1024 extra [sample beg 600] := by
    intro beg extra h
    rcases h with h | h
    · exact absurd h (Nat.not_succ_le_self 1)
    · exact absurd h (by decide)
  refine ⟨⟨htail 0 0, fun g hg ↦ ?_⟩, ⟨List.cons_ne_nil _ _, hfits 0 0⟩, fun g hg ↦ ?_⟩
  · obtain rfl := List.mem_singleton.1 hg
    refine ⟨fun b hb ↦ ?_, htail 32 HEADER_SIZE⟩
    obtain rfl := Option.some.inj hb
    change 8 ≤ 32
    decide
  · obtain rfl := List.mem_singleton.1 hg
    exact ⟨List.cons_ne_nil _ _, hfits 32 HEADER_SIZE⟩

/-- Two buffers that fill the MTU together. -/
def halves : Chain := { bufs := [sample 0 512, sample 32 512], size := 1024 }

/-- They leave as one fragment, and the tail is not counted: 1025 bytes. -/
theorem not_push_conforms : Framed halves ∧ (∀ x ∈ halves.bufs, x.getSize ≤ getMTU 1024) ∧
    ¬Conforms (currentMTU 0 1024) 1024 (List.replicate 1968 0) 7 (some halves) := by
  have hok : ∀ x ∈ halves.bufs, x.Ok ∧ x.getSize ≤ getMTU 1024 := by
    intro x hx
    simp only [halves, List.mem_cons, List.not_mem_nil, or_false] at hx
    rcases hx with rfl | rfl
    · rw [getSize_sample]
      exact ⟨sample_ok (by decide), by decide⟩
    · rw [getSize_sample]
      exact ⟨sample_ok (by decide), by decide⟩
  have htotal : total halves.bufs = 1024 := by
    simp [halves, getSize_sample]
  have hp : CAxisFrameHeader.parse (sample 0 512).getPayload (sample 0 512).getSize =
      some ⟨⟨0, 0, 0, 0, 0⟩, 0⟩ := by
    rw [parse_take _ (by rw [getSize_sample]; decide)]
    decide +kernel
  have hc : Framed halves := by
    refine ⟨?_, fun x hx ↦ (hok x hx).1, _, _, _, rfl, hp⟩
    unfold Chain.Sized
    rw [htotal]
    rfl
  have hroom : Buf.HEADROOM < (List.replicate 1968 (0 : UInt8)).length := by
    rw [List.length_replicate]
    decide
  refine ⟨hc, fun x hx ↦ (hok x hx).2, fun h ↦ ?_⟩
  obtain ⟨b, bs, hdr, hs⟩ := hc.start
  have hbufs : halves.bufs = b :: bs := hs.bufs
  have hfit : ∀ x ∈ b :: bs, x.getSize ≤ getMTU 1024 := by
    rw [← hbufs]
    exact fun x hx ↦ (hok x hx).2
  have htight := ((conforms_iff (getBuf_ok 1968 (by decide) (by decide)) hroom (by decide)
    (Nat.lt_succ_self _) hs hfit).1 h).2
  have hpieces : pieces (currentMTU 0 1024) (bs.length + 1) 0 (b :: bs) = [b :: bs] := by
    unfold pieces
    rw [← hbufs, htotal]
    rfl
  rw [hpieces, ← hbufs] at htight
  have hle := htight.1.2 (.inl le_rfl)
  rw [htotal] at hle
  exact absurd hle (by decide)

end CProtoModDepack

end Cpsw.Depack
