import Cpsw.Srp.Serve

namespace Cpsw.Srp

open ByteMux Depack Lib Address

variable {σ : Type} {sv : Server σ} {a : Address} {range : Range σ} {st : σ} {dev : Mem} {peer : Peer}
variable {ws : List SRPWord} {req : Bytes} {rchn : BufChain} {lo hi room : ℕ}

namespace Server

/-- The bytes of a request that are sent with the identifier of another one. -/
def Repeats (a : Address) (ws : List SRPWord) (req : Bytes) : Prop :=
  (a.tidOf ws).map toTid =
    some (toTid ((order a.protoVersion).load ((req.drop (tidOff a.protoVersion)).take 4)))

/-- The client is linked to the server by a network that may lose, delay, repeat and reorder the
requests and the replies: whatever comes is a reply to some request, to one that has been given up or
that another caller has sent perhaps. While a request is under way, no other one has its identifier,
and the range holds `dev` when the server replies to it. -/
def Linked (sv : Server σ) (a : Address) (range : Range σ) (dev : Mem) (lo hi room : ℕ) (peer : Peer) :
    Prop :=
  ∀ ws rchn, a.Asks lo hi room ws → some rchn ∈ peer ws → (∀ b ∈ rchn, b.Ok) ∧
    ∃ req st, tidOff a.protoVersion + 4 ≤ req.length ∧ sv.Replies st req rchn ∧
      (Repeats a ws req → req = sent a a.vc ws ∧ Holds range st dev)

theorem Replies.answers_sent (hv : sv.vers = a.protoVersion)
    (hregion : sv.Region a range lo hi room) (hholds : Holds range st dev)
    (hasks : a.Asks lo hi room ws) {tid : SRPWord} (htid : a.tidOf ws = some tid) {dest : UInt8}
    (h : sv.Replies st (sent a dest ws) rchn) : a.Answers dev ws rchn := by
  obtain ⟨tid', hsent⟩ := sent_eq htid dest
  have hsame := @readRequest_set a ws tid'
  have hasks' : a.Asks lo hi room (ws.set (tidOff a.protoVersion / 4) tid') := by
    unfold Asks
    rw [hsame]
    exact hasks
  rw [hsent] at h
  have hanswer := h.answers hv hregion hholds hasks'
  unfold Answers at hanswer ⊢
  rwa [hsame] at hanswer

/-- The server is a device as the client expects it. -/
theorem Linked.serves (hv : sv.vers = a.protoVersion) (hregion : sv.Region a range lo hi room)
    (h : sv.Linked a range dev lo hi room peer) : a.Serves dev lo hi room peer := by
  intro ws hasks rchn hmem
  obtain ⟨hok, req, st, hlen, hreplies, hrepeats⟩ := h ws rchn hasks hmem
  have hword := hreplies.tidWord hv (hv ▸ hlen)
  rw [hv] at hword
  refine ⟨hok, ?_, fun hmatch ↦ ?_⟩
  · rw [hword, List.length_take, List.length_drop]
    omega
  · have hsame : Repeats a ws req := by
      unfold Repeats
      rw [← hword]
      exact hmatch
    obtain ⟨tid, htid, -⟩ := Option.map_eq_some_iff.1 hsame
    obtain ⟨rfl, hholds⟩ := hrepeats hsame
    exact hreplies.answers_sent hv hregion hholds hasks htid

/-- The network delivers each request at once, and its reply, when it fits into a datagram. -/
def direct (sv : Server σ) (a : Address) (st : σ) : Peer := fun ws ↦
  let req := sent a a.vc ws
  let r := sv.handleSRP st (Mem.put (fun _ ↦ 0) 0 req) req.length
  if r.1 ≠ 0 ∧ r.1 < 2 ^ 16 then
    [some [{ data := r.2.1.get 0 r.1, beg := 0, fin := r.1 }]]
  else []

theorem bytes_get (m : Mem) (k : ℕ) :
    BufChain.bytes [{ data := m.get 0 k, beg := 0, fin := k }] = m.get 0 k :=
  (List.append_nil _).trans (List.take_of_length_le Mem.get_length.le)

theorem readRequest_length {o n : ℕ} (h : a.readRequest ws = some (o, n)) :
    tidOff a.protoVersion + 4 ≤ 4 * ws.length := by
  unfold readRequest at h
  unfold tidOff
  split at h <;> simp_all

theorem linked_direct (sv : Server σ) (a : Address) (hholds : Holds range st dev) :
    sv.Linked a range dev lo hi room (sv.direct a st) := by
  intro ws rchn hasks hmem
  obtain ⟨o, n, hreq, -⟩ := hasks
  have hlen : (sent a a.vc ws).length = 4 * ws.length := by
    rw [sent, List.length_set, message_length]
  unfold direct at hmem
  dsimp only at hmem
  split_ifs at hmem with hr
  · rw [List.mem_singleton] at hmem
    obtain rfl := Option.some.inj hmem
    refine ⟨List.forall_mem_singleton.2 ⟨Nat.zero_le _, ?_, ?_⟩, sent a a.vc ws, st, ?_, ?_, ?_⟩
    · exact Mem.get_length.ge
    · exact Mem.get_length.trans_lt hr.2
    · rw [hlen]
      exact readRequest_length hreq
    · refine ⟨_, _, _, _, Mem.get_put, rfl, hr.1, ?_⟩
      exact bytes_get _ _
    · exact fun _ ↦ ⟨rfl, hholds⟩
  · exact absurd hmem List.not_mem_nil

theorem holds_memhdl (mem : Mem) : Holds memhdl mem mem := by
  intro n off _
  have hbase : memhdl.base.toNat = 0 := rfl
  rw [hbase, Nat.zero_add]
  exact ⟨mem, rfl⟩

end Server

/-- A server with nothing but its memory. -/
def memServer : Server Mem := ⟨.SRP_UDP_V3, .LE, false, 65536, [Server.memhdl]⟩

def memAddress : Address := ⟨.SRP_UDP_V3, .LE, 5, false, false, 1⟩

theorem memServer_region : memServer.Region memAddress Server.memhdl 0x2000 0x2008 4 := by
  refine ⟨fun off hlo hhi ↦ ?_, by decide, by decide, by decide, by decide, by decide⟩
  have hin : (Server.memhdl.base ≤ off && off < Server.memhdl.base + Server.memhdl.size) = true := by
    rw [Bool.and_eq_true, decide_eq_true_iff, decide_eq_true_iff, UInt64.le_iff_toNat_le,
      UInt64.lt_iff_toNat_lt]
    have hbase : Server.memhdl.base.toNat = 0 := rfl
    have hend : (Server.memhdl.base + Server.memhdl.size).toNat = 2 ^ 20 := rfl
    omega
  exact List.find?_cons_of_pos hin

end Cpsw.Srp
