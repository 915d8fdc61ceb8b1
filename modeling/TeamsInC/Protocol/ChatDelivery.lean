import TeamsInC.Client.Receive
import TeamsInC.Server.Reassembly
import TeamsInC.Server.Registration

/-!
# A chat message from client to client

The sender's client encodes the recipient's name; the server writes the sender's name in its
place and another length; the recipient's client finds the sender's name and the message.
-/

set_option autoImplicit false

namespace TeamsInC
namespace Protocol
open Client Server

/-- An open connection in MESSAGE_STATE with an empty buffer. -/
structure Chatting (srv : ServerState) (fd : Int) (c : ClientConnData) (user : CString) : Prop where
  conn : srv.conns fd = some c
  fd_eq : c.fd = fd
  fd_nonneg : 0 ≤ fd
  state : c.clientState = .messageState
  buff : c.buff = .null
  used : c.bufferUsed = 0
  offset : c.offset = 0
  user : c.user = .live user

namespace Chatting
variable {srv : ServerState} {fd : Int} {c : ClientConnData} {s : CString}

theorem rests (h : Chatting srv fd c s) : Rests c := ⟨h.buff, h.used, h.offset, .inr h.state⟩

theorem quiet_before (h : Chatting srv fd c s) {p : Packet} {g rest : List (Chunk × Env)}
    (hp : (g ++ rest).flatMap bytesOf = p.wire) (hrest : rest ≠ []) (hg : Writable g) :
    (seen (steps srv (reads fd g))).effects = [] := by
  have hne : rest.flatMap bytesOf ≠ [] := by
    obtain ⟨r, rest, rfl⟩ := List.exists_cons_of_ne_nil hrest
    have hpos := r.1.pos
    intro hnil
    simp only [List.flatMap_cons, List.append_eq_nil_iff, bytesOf] at hnil
    simp [hnil.1] at hpos
  rw [List.flatMap_append] at hp
  have hinside := feed_inside (b := []) srv.tree h.rests (h.fd_eq ▸ h.fd_nonneg) hp hne hg
  rw [holding_nil, List.nil_append] at hinside
  rw [seen_steps_reads g h.conn, hinside]
  rfl

theorem forwards (h : Chatting srv fd c s) {p : Packet} {rs : List (Chunk × Env)}
    (hp : rs.flatMap bytesOf = p.wire) (hrs : Writable rs) {dest : Int}
    (hdest : srv.tree.hbTreeSearch (CString.ofBuffer p.first) = .ok dest) (hfound : 0 ≤ dest)
    (hfits : sizeofMessageHeader + s.strlen + p.second.length ≤ 65535) :
    seen (steps srv (reads fd rs)) =
      ⟨[.forward fd (CString.ofBuffer p.first) dest (relayed p.header p.first p.second s)
          (relayed p.header p.first p.second s)],
        .ok { srv with conns := Function.update srv.conns fd (some (cleared c)) }⟩ := by
  obtain ⟨chunk, env, _, hfeed⟩ := feed_packet srv.tree h.rests (h.fd_eq ▸ h.fd_nonneg) hp hrs
  have hserve := serve_chat env.bal p.header p.second h.state hdest h.user hfits
  have hfeed := hfeed []
  have hwrite : Write dest (relayed p.header p.first p.second s) writeAll =
      (relayed p.header p.first p.second s, 0) :=
    @Write_all quiet writeAll_ne_none dest hfound _
  rw [List.append_nil, servePacket, hserve, hwrite, h.fd_eq, Traced.bind_ok] at hfeed
  rw [seen_steps_reads rs h.conn, hfeed]
  rfl

end Chatting

/-- A message that `encodeMessage_send` encodes and that arrives alone, cut in any way, leaves
as one frame at its last byte; the recipient's client, fed that frame in any cutting, stops at
its end and finds the sender and the message. -/
theorem chat_delivered {s r : CString} {m : List UInt8} (hr : 16 + r.strlen + m.length ≤ 65535)
    (hs : 16 + s.strlen + m.length ≤ 65535) {srv : ServerState} {fd : Int} {c : ClientConnData}
    (hsender : Chatting srv fd c s) {dest : Int} (hdest : srv.tree.hbTreeSearch r = .ok dest)
    (hfound : 0 ≤ dest) (memory : List UInt8) {rs : List (Chunk × Env)} (hrs : Writable rs)
    (hcut : rs.flatMap bytesOf = chatBuffer memory (chatOf MSG_TYPE_CHAT_MSG r.bytes m)) :
    ∃ frame,
      (∀ g rest, rs = g ++ rest → rest ≠ [] → (seen (steps srv (reads fd g))).effects = []) ∧
      seen (steps srv (reads fd rs)) = ⟨[.forward fd r dest frame frame],
        .ok { srv with conns := Function.update srv.conns fd (some (cleared c)) }⟩ ∧
      ∀ cs, cs.flatMap Chunk.bytes = frame → ∀ beyond later, ∃ msg,
        receiveMessage beyond (chunks cs ++ later) = .ok (msg, later) ∧
          msg.toUser = .live s.bytes ∧ msg.message = .live m := by
  have hr' : 16 + r.bytes.length + m.length < 65536 := Nat.lt_succ_of_le hr
  have hs' : 16 + s.bytes.length + m.length < 65536 := Nat.lt_succ_of_le hs
  let p : Packet := ⟨MSG_TYPE_CHAT_MSG, r.bytes, m, hr'⟩
  have hp : rs.flatMap bytesOf = p.wire := hcut.trans (chatBuffer_eq hr' memory)
  have hframe : relayed p.header p.first p.second s = packet MSG_TYPE_CHAT_MSG s.bytes m :=
    relayed_eq rfl r.bytes (by rw [CString.strlen]; omega) (by omega : m.length < 65536)
  refine ⟨packet MSG_TYPE_CHAT_MSG s.bytes m, ?_, ?_, ?_⟩
  · rintro g rest rfl hrest
    exact hsender.quiet_before hp hrest fun x hx => hrs x (List.mem_append_left _ hx)
  · have hforwards := hsender.forwards hp hrs
      (show srv.tree.hbTreeSearch (CString.ofBuffer r.bytes) = .ok dest by rwa [CString.ofBuffer_bytes])
      hfound hs
    rw [hframe] at hforwards
    rw [hforwards]
    change (Traced.mk [Effect.forward fd (CString.ofBuffer r.bytes) dest _ _] _ : Act ServerState) = _
    rw [CString.ofBuffer_bytes]
  · intro cs hcs beyond later
    exact ⟨_, receiveMessage_packet hs' hcs beyond later, rfl, rfl⟩

def user1Session : ClientConnData :=
  { createNewClient 5 zeroed with
    clientState := .messageState, user := .live (CString.ofBuffer (userName '1')) }

def pairedServer : ServerState where
  conns fd := if fd = 5 then some user1Session else none
  tree := match HbTree.hbTreeNew.hbTreeInsert (CString.ofBuffer (userName '2')) 6 0 with
    | .ok (tree, _) => tree
    | .error _ => HbTree.hbTreeNew

def hiReads : List (Chunk × Env) :=
  [(⟨packet MSG_TYPE_CHAT_MSG (userName '2') (ascii ['h', 'i']), by decide +kernel, by decide +kernel⟩,
    quiet)]

theorem pairedServer_chat_delivered :
    ∃ frame,
      (∀ g rest, hiReads = g ++ rest → rest ≠ [] →
        (seen (steps pairedServer (reads 5 g))).effects = []) ∧
      seen (steps pairedServer (reads 5 hiReads)) =
        ⟨[.forward 5 (CString.ofBuffer (userName '2')) 6 frame frame],
          .ok { pairedServer with
            conns := Function.update pairedServer.conns 5 (some (cleared user1Session)) }⟩ ∧
      ∀ cs, cs.flatMap Chunk.bytes = frame → ∀ beyond later, ∃ msg,
        receiveMessage beyond (chunks cs ++ later) = .ok (msg, later) ∧
          msg.toUser = .live (CString.ofBuffer (userName '1')).bytes ∧
          msg.message = .live (ascii ['h', 'i']) := by
  refine @chat_delivered (CString.ofBuffer (userName '1')) (CString.ofBuffer (userName '2'))
    (ascii ['h', 'i']) (by decide) (by decide) pairedServer 5 user1Session
    ⟨rfl, rfl, by decide, rfl, rfl, rfl, rfl, rfl⟩ 6 (by decide +kernel) (by decide) [] hiReads ?_
    (by decide +kernel)
  intro r hr
  cases List.mem_singleton.mp hr
  exact writeAll_ne_none

end Protocol
end TeamsInC
