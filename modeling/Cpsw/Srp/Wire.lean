import Cpsw.Srp.Commit
import Cpsw.Srp.Execute
import Cpsw.Srp.Link
import Mathlib.Logic.Relation

namespace Cpsw.Srp

open ByteMux Depack Lib Address

variable {σ τ : Type} {sv : Server σ} {a : Address} {range : Range σ} {mem : σ → Mem}
variable {line : Line τ} {state : τ → σ} {ws : List SRPWord} {body data req : Bytes}
variable {st st' : σ} {rchn : BufChain} {lo hi rx tx o : ℕ}

/-- The identifier has no say in what is written. -/
theorem writeRequest_set (tid : SRPWord) :
    a.writeRequest (ws.set (tidOff a.protoVersion / 4) tid) body = a.writeRequest ws body := by
  unfold writeRequest tidOff
  cases a.protoVersion with
  | SRP_UDP_NONE => rfl
  | SRP_UDP_V1 => rcases ws with _ | ⟨_, _ | ⟨_, _ | ⟨_, _ | ⟨_, _⟩⟩⟩⟩ <;> rfl
  | SRP_UDP_V2 => rcases ws with _ | ⟨_, _ | ⟨_, _ | ⟨_, _⟩⟩⟩ <;> rfl
  | SRP_UDP_V3 => rcases ws with _ | ⟨_, _ | ⟨_, _ | ⟨_, _ | ⟨_, _ | ⟨_, _ | ⟨_, _⟩⟩⟩⟩⟩⟩ <;> rfl

namespace Server

/-- A range of plain memory between two addresses, which may be read and written. -/
structure Keeps (range : Range σ) (mem : σ → Mem) (lo hi : ℕ) : Prop where
  holds : ∀ st, Holds range st (mem st)
  write : ∀ st data off, lo ≤ range.base.toNat + off.toNat →
    range.base.toNat + off.toNat + data.length ≤ hi → (range.write st data off).2 = true ∧
      mem (range.write st data off).1 = (mem st).put (range.base.toNat + off.toNat) data

/-- The server takes a datagram and sends another one. -/
def Handles (sv : Server σ) (st : σ) (req : Bytes) (st' : σ) (rchn : BufChain) : Prop :=
  ∃ rbuf nbytes rbuf', rbuf.get 0 req.length = req ∧
    sv.handleSRP st rbuf req.length = (nbytes, rbuf', st') ∧ nbytes ≠ 0 ∧
    rchn.bytes = rbuf'.get 0 nbytes

/-- The server takes a datagram; it may answer it or not. -/
def Takes (sv : Server σ) (req : Bytes) (st st' : σ) : Prop :=
  ∃ rbuf nbytes rbuf', rbuf.get 0 req.length = req ∧
    sv.handleSRP st rbuf req.length = (nbytes, rbuf', st')

theorem Handles.takes (h : sv.Handles st req st' rchn) : sv.Takes req st st' := by
  obtain ⟨rbuf, nbytes, rbuf', hget, hhandle, -⟩ := h
  exact ⟨rbuf, nbytes, rbuf', hget, hhandle⟩

theorem Handles.replies (h : sv.Handles st req st' rchn) : sv.Replies st req rchn := by
  obtain ⟨rbuf, nbytes, rbuf', hget, hhandle, hn, hbytes⟩ := h
  exact ⟨rbuf, nbytes, rbuf', st', hget, hhandle, hn, hbytes⟩

/-- The client is linked to the server by a network that may lose, delay and repeat requests and
replies. A request to write is taken any number of times, or never, and not after it has been given up.
What comes is a reply to some request, and a reply with the identifier of the one that is under way is
its own, from an attempt that has left the memory as it is now. -/
structure Wired (sv : Server σ) (a : Address) (range : Range σ) (mem : σ → Mem) (line : Line τ)
    (state : τ → σ) (lo hi rx tx : ℕ) : Prop where
  reads : ∀ st, sv.Linked a range (mem (state st)) lo hi rx (line.peer st)
  takes : ∀ st ws body o data, a.Commands lo hi tx ws body o data →
    Relation.ReflTransGen (sv.Takes (sent a a.vc ws ++ body)) (state st) (state (line.write st ws body).1)
  replies : ∀ st ws body o data, a.Commands lo hi tx ws body o data →
    ∀ rchn ∈ (line.write st ws body).2, (∀ b ∈ rchn, b.Ok) ∧ ∃ req st₀ st₁,
      tidOff a.protoVersion + 4 ≤ req.length ∧ sv.Handles st₀ req st₁ rchn ∧ (Repeats a ws req →
        req = sent a a.vc ws ++ body ∧ mem st₁ = mem (state (line.write st ws body).1))

theorem tidOf_of_writeRequest (h : a.writeRequest ws body = some (o, data)) :
    ∃ tid, a.tidOf ws = some tid := by
  have hlen := (splits_of_writeRequest h).head
  have hlt : tidOff a.protoVersion / 4 < ws.length := by
    rw [hlen]
    unfold tidOff hdrWords
    cases a.protoVersion <;> decide
  exact ⟨_, List.getElem?_eq_getElem hlt⟩

/-- What the server does with a request to write. -/
theorem handleSRP_commands {rbuf rbuf' : Mem} {nbytes : ℕ} (hv : sv.vers = a.protoVersion)
    (hregion : sv.Region a range lo hi tx) (hkeeps : Keeps range mem lo hi)
    (hcmd : a.Commands lo hi tx ws body o data)
    (hget : rbuf.get 0 (sent a a.vc ws ++ body).length = sent a a.vc ws ++ body)
    (hhandle : sv.handleSRP st rbuf (sent a a.vc ws ++ body).length = (nbytes, rbuf', st')) :
    mem st' = (mem st).put o data ∧ (nbytes ≠ 0 → ∃ front, rbuf'.get 0 nbytes = front ++ [0, 0, 0, 0] ∧
      front.length = 4 * (a.hdrWords + (data.length + 3) / 4)) := by
  obtain ⟨hreq, hlo, hhi, hpos, hroom, halign⟩ := hcmd
  obtain ⟨tid, htid⟩ := tidOf_of_writeRequest hreq
  obtain ⟨tid', hsent⟩ := sent_eq htid a.vc
  rw [← writeRequest_set tid'] at hreq
  generalize ws.set (tidOff a.protoVersion / 4) tid' = ws' at hreq hsent
  rw [hsent, List.length_append, message_length] at hget hhandle
  have hle := hregion.le
  have htop := hregion.top
  have hbuf := hregion.fits
  have hsmall := hregion.small
  have hw := parse_write hv hget hreq (by omega)
  have hoff := hw.off
  have hfind := hregion.find (sv.parse rbuf (4 * ws'.length + body.length)).off (by omega) (by omega)
  have hbase := find_base hfind
  have hcovers : Covers sv range (sv.parse rbuf (4 * ws'.length + body.length)).off data.length :=
    ⟨hfind, by omega, htop, by omega, fun hb ↦ hoff ▸ halign (Bool.eq_false_iff.2 fun ha ↦
      Bool.false_ne_true (hb.symm.trans (hregion.bytes ha)))⟩
  have hsub : range.base.toNat +
      ((sv.parse rbuf (4 * ws'.length + body.length)).off - range.base).toNat = o := by
    rw [UInt64.toNat_sub_of_le _ _ (UInt64.le_iff_toNat_le.2 hbase), hoff,
      Nat.add_sub_cancel' (hoff ▸ hbase)]
  obtain ⟨hok, hmem⟩ := hkeeps.write st data
    ((sv.parse rbuf (4 * ws'.length + body.length)).off - range.base) (by omega) (by omega)
  obtain ⟨nbytes₁, rbuf₁, hh, hfront⟩ := handleSRP_write hv hget hreq (by omega) hcovers hok
  rw [hsub] at hmem
  rw [hh] at hhandle
  cases hhandle
  exact ⟨hmem, hfront⟩

/-- To take a request several times is as good as once. -/
theorem takes_mem (hv : sv.vers = a.protoVersion) (hregion : sv.Region a range lo hi tx)
    (hkeeps : Keeps range mem lo hi) (hcmd : a.Commands lo hi tx ws body o data)
    (h : Relation.ReflTransGen (sv.Takes (sent a a.vc ws ++ body)) st st') :
    mem st' = mem st ∨ mem st' = (mem st).put o data := by
  induction h with
  | refl => exact .inl rfl
  | tail _ hlast ih =>
    obtain ⟨rbuf, nbytes, rbuf', hget, hhandle⟩ := hlast
    have hdone := (handleSRP_commands hv hregion hkeeps hcmd hget hhandle).1
    rcases ih with ih | ih
    · exact .inr (by rw [hdone, ih])
    · exact .inr (by rw [hdone, ih, Mem.put_put le_rfl])

/-- The server and the network are a device as the client expects it. -/
theorem Wired.obeys (hv : sv.vers = a.protoVersion) (hrx : sv.Region a range lo hi rx)
    (htx : sv.Region a range lo hi tx) (hkeeps : Keeps range mem lo hi)
    (h : sv.Wired a range mem line state lo hi rx tx) :
    line.Obeys a (fun st ↦ mem (state st)) lo hi rx tx := by
  refine ⟨fun st ↦ (h.reads st).serves hv hrx, fun st ws body o data hcmd ↦
    takes_mem hv htx hkeeps hcmd (h.takes st ws body o data hcmd),
    fun st ws body o data hcmd rchn hr ↦ ?_⟩
  obtain ⟨hok, req, st₀, st₁, hlen, hhandles, hrepeats⟩ := h.replies st ws body o data hcmd rchn hr
  have hword := hhandles.replies.tidWord hv (hv ▸ hlen)
  rw [hv] at hword
  refine ⟨hok, ?_, fun hmatch ↦ ?_⟩
  · rw [hword, List.length_take, List.length_drop]
    omega
  · have hsame : Repeats a ws req := by
      unfold Repeats
      rw [← hword]
      exact hmatch
    obtain ⟨rfl, hnow⟩ := hrepeats hsame
    obtain ⟨rbuf, nbytes, rbuf', hget, hhandle, hn, hbytes⟩ := hhandles
    obtain ⟨hdone, hfront⟩ := handleSRP_commands hv htx hkeeps hcmd hget hhandle
    obtain ⟨front, hfront, hlen⟩ := hfront hn
    refine ⟨⟨front, hbytes.trans hfront, hlen⟩, ?_⟩
    have hput : (mem st₁).put o data = mem st₁ := by
      rw [hdone, Mem.put_put le_rfl]
    rcases takes_mem hv htx hkeeps hcmd (h.takes st ws body o data hcmd) with hmem | hmem
    · rw [← hmem, ← hnow, hput]
    · exact hmem

/-- The network delivers each request at once, and its reply, when it fits into a datagram. -/
def directLine (sv : Server σ) (a : Address) : Line σ where
  peer st := sv.direct a st
  write st ws body :=
    let req := sent a a.vc ws ++ body
    let r := sv.handleSRP st (Mem.put (fun _ ↦ 0) 0 req) req.length
    (r.2.2, if r.1 ≠ 0 ∧ r.1 < 2 ^ 16 then [[{ data := r.2.1.get 0 r.1, beg := 0, fin := r.1 }]] else [])

theorem wired_direct (sv : Server σ) (a : Address) (hkeeps : Keeps range mem lo hi) :
    sv.Wired a range mem (sv.directLine a) id lo hi rx tx := by
  refine ⟨fun st ↦ linked_direct sv a (hkeeps.holds st), fun st ws body o data hcmd ↦ ?_,
    fun st ws body o data hcmd rchn hr ↦ ?_⟩
  · exact .single ⟨_, _, _, Mem.get_put, rfl⟩
  · have hlen : tidOff a.protoVersion + 4 ≤ (sent a a.vc ws ++ body).length := by
      have hhead := (splits_of_writeRequest hcmd.1).head
      rw [List.length_append, sent, List.length_set, message_length, hhead]
      unfold tidOff hdrWords
      cases a.protoVersion <;> simp <;> omega
    unfold directLine at hr
    dsimp only at hr
    split_ifs at hr with hn
    · obtain rfl := List.mem_singleton.1 hr
      refine ⟨List.forall_mem_singleton.2 ⟨Nat.zero_le _, Mem.get_length.ge,
        Mem.get_length.trans_lt hn.2⟩, _, st, _, hlen, ⟨_, _, _, Mem.get_put, rfl, hn.1, bytes_get _ _⟩,
        fun _ ↦ ⟨rfl, rfl⟩⟩
    · exact absurd hr List.not_mem_nil

/-- The memory behind the registers that cannot be written, and the one that clears others. -/
theorem keeps_memhdl (hlo : REGBASE + REG_SCR_OFF ≤ lo) : Keeps memhdl id lo hi := by
  refine ⟨fun st ↦ holds_memhdl st, fun st data off hge _ ↦ ?_⟩
  have hbase : memhdl.base.toNat = 0 := rfl
  have hscr : REGBASE + REG_SCR_OFF = 0x1018 := rfl
  have hclr : REGBASE + REG_CLR_OFF = 0x1010 := rfl
  have hro : REGBASE + REG_RO_OFF + REG_RO_SZ = 0x1010 := rfl
  have hwrite : memhdl.write st data off = (st.put off.toNat data, true) := by
    change memwrite st data off = _
    unfold memwrite
    dsimp only
    rw [hro, hclr, if_neg (by omega), if_neg (by omega)]
  rw [hwrite, hbase, Nat.zero_add]
  exact ⟨rfl, rfl⟩

end Server

section Write

variable {b : Block} {z : Scratch} {s : Client} {raw : SRPWord} {cacheable : Cacheable}

/-- Six bytes in two words that are written one at a time; four bits of the first byte are kept. -/
def sixBytes : Block := ⟨[1, 2, 3, 4, 5, 6], 0x2001, 0xf0, 0⟩

theorem sixBytes_writable : sixBytes.Writable memAddress 0x2000 0x2008 1 .WB_CACHEABLE :=
  ⟨by decide, fun h ↦ absurd h (by decide), by unfold Reaches; decide, fun _ ↦ le_rfl, by decide,
    by decide⟩

def stack : Scratch := ⟨0x100, 0x200, by decide, by decide, by decide⟩

/-- The bytes that a write leaves at its address. -/
def Block.merged (b : Block) (dev : Mem) : Bytes := (b.target dev).get b.off.toNat b.dbytes

/-- The first byte keeps four bits of what was there. -/
example : sixBytes.merged (fun _ ↦ 0xab) = [0xa1, 2, 3, 4, 5, 6] := by decide +kernel

end Write

end Cpsw.Srp
