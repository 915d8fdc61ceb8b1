import TeamsInC.Client.Receive
import TeamsInC.Server.Reassembly
import TeamsInC.Server.Registration

/-!
# Frames from the server, as the client reads them

Each receive takes all of its last read. So the client gets every frame if and only if no
read lies in two frames, and no frame is too long for the length it announces.
-/

set_option autoImplicit false

namespace TeamsInC
namespace Protocol
open Client

/-- A chat frame that the server writes: a packet it got, under the name of an account. -/
structure ChatFrame where
  header : MessageHeader
  toUser : List UInt8
  message : List UInt8
  user : CString
  magic : header.magic = MAGIC
  message_lt : message.length < 65536
  account : user ∈ Server.accounts

namespace ChatFrame

def wire (f : ChatFrame) : List UInt8 := Server.relayed f.header f.toUser f.message f.user

theorem user_lt (f : ChatFrame) : f.user.strlen < 65536 := by
  have h := Server.accounts_fit f.user f.account
  simp only [HbTree.keyBytes] at h
  omega

theorem wire_eq (f : ChatFrame) : f.wire = packet f.header.messageType f.user.bytes f.message :=
  Server.relayed_eq f.magic f.toUser f.user_lt f.message_lt

def said (f : ChatFrame) : Ptr (List UInt8) × Ptr (List UInt8) :=
  (.live f.user.bytes, .live f.message)

end ChatFrame

/-- What a session with the server brings: the reply "200", then chat frames. -/
def stream (fs : List ChatFrame) : List (List UInt8) :=
  Server.replyFrame (ascii ['2', '0', '0']) :: fs.map ChatFrame.wire

def said (msg : MessageChat) : Ptr (List UInt8) × Ptr (List UInt8) := (msg.toUser, msg.message)

theorem reply_eq :
    Server.replyFrame (ascii ['2', '0', '0']) = serverBytes (ascii ['2', '0', '0']) :=
  Server.replyFrame_text (by decide)

theorem receiveMessages_succ {beyond : Nat → Nat → UInt8} {n : Nat} {reads rest : List Read}
    {msgs : List MessageChat} :
    receiveMessages beyond (n + 1) reads = .ok (msgs, rest) ↔
      ∃ msg r msgs', receiveMessage (beyond n) reads = .ok (msg, r) ∧
        receiveMessages beyond n r = .ok (msgs', rest) ∧ msgs = msg :: msgs' := by
  simp only [receiveMessages, Receive.bind_ok]
  constructor
  · rintro ⟨msg, r, hmsg, msgs', r', hmsgs, h⟩
    cases h
    exact ⟨msg, r, msgs', hmsg, hmsgs, rfl⟩
  · rintro ⟨msg, r, msgs', hmsg, hmsgs, rfl⟩
    exact ⟨msg, r, hmsg, msgs', rest, hmsgs, rfl⟩

theorem receiveMessages_respects {cs : List Chunk} {fs : List ChatFrame}
    (h : Cutting.Respects Chunk.bytes cs (fs.map ChatFrame.wire))
    (hfits : ∀ f ∈ fs, f.wire.length < 65536) (beyond : Nat → Nat → UInt8) :
    ∃ msgs, receiveMessages beyond fs.length (chunks cs) = .ok (msgs, []) ∧
      msgs.map said = fs.map ChatFrame.said := by
  induction fs generalizing cs with
  | nil =>
    cases h
    exact ⟨[], rfl, rfl⟩
  | cons f fs ih =>
    cases h with
    | @cons g cs _ _ hg h =>
      obtain ⟨hf, hfits⟩ := List.forall_mem_cons.mp hfits
      obtain ⟨msgs, hmsgs, hsaid⟩ := ih h hfits
      rw [f.wire_eq, packet_length] at hf
      have hmsg := receiveMessage_packet hf (hg.trans f.wire_eq) (beyond fs.length) (chunks cs)
      rw [chunks, chunks, ← List.map_append] at hmsg
      refine ⟨_, receiveMessages_succ.mpr ⟨_, _, msgs, hmsg, hmsgs, rfl⟩, ?_⟩
      · rw [List.map_cons, List.map_cons, hsaid]
        rfl

/-- The last of these reads is where the loop stops. -/
def StopsAtLast (g : List Chunk) : Prop :=
  ∃ g' c, g = g' ++ [c] ∧ isReadFull (g'.flatMap Chunk.bytes) = false

theorem receiveMessages_groups {cs : List Chunk} {fs : List ChatFrame}
    (h : ∀ beyond, ∃ msgs, receiveMessages beyond fs.length (chunks cs) = .ok (msgs, []) ∧
      msgs.map said = fs.map ChatFrame.said) :
    ∃ gs, cs = gs.flatten ∧ List.Forall₂ (fun g f =>
      f.wire.length ≤ (g.flatMap Chunk.bytes).length ∧ StopsAtLast g) gs fs := by
  induction fs generalizing cs with
  | nil =>
    obtain ⟨msgs, hmsgs, _⟩ := h fun _ _ => 0
    cases cs with
    | nil => exact ⟨[], rfl, .nil⟩
    | cons c cs => cases hmsgs
  | cons f fs ih =>
    obtain ⟨msgs, hmsgs, _⟩ := h fun _ _ => 0
    obtain ⟨msg, r, msgs', hmsg, _, _⟩ := receiveMessages_succ.mp hmsgs
    obtain ⟨b, hloop, _⟩ := receiveMessage_ok.mp hmsg
    obtain ⟨g, c, cs', rfl, rfl, hb, _, hbefore⟩ := readLoop_chunks (by decide) hloop
    simp only [Ptr.bytes, List.nil_append, Ptr.live.injEq] at hb hbefore
    have hall (beyond : Nat → Nat → UInt8) : ∃ msg msgs',
        decodeMessageRecv hostOrder ⟨b, beyond fs.length⟩ = some msg ∧ said msg = f.said ∧
          receiveMessages beyond fs.length (chunks cs') = .ok (msgs', []) ∧
          msgs'.map said = fs.map ChatFrame.said := by
      obtain ⟨msgs, hmsgs, hsaid⟩ := h beyond
      obtain ⟨msg, r, msgs', hmsg, hmsgs', rfl⟩ := receiveMessages_succ.mp hmsgs
      obtain ⟨b', hloop', hdecode⟩ := receiveMessage_ok.mp hmsg
      rw [hloop] at hloop'
      cases hloop'
      rw [List.map_cons, List.map_cons, List.cons.injEq] at hsaid
      exact ⟨msg, msgs', hdecode, hsaid.1, hmsgs', hsaid.2⟩
    obtain ⟨gs, rfl, hgs⟩ := ih fun beyond => by
      obtain ⟨_, msgs', _, _, hmsgs', hsaid'⟩ := hall beyond
      exact ⟨msgs', hmsgs', hsaid'⟩
    have hlen : f.wire.length ≤ b.length := by
      rw [f.wire_eq, packet_length]
      refine @length_le_of_decoded hostOrder _ _ _ ?_
      intro beyond
      obtain ⟨msg, _, hdecode, hsaid, _⟩ := hall fun _ => beyond
      exact ⟨msg, hdecode, congrArg Prod.fst hsaid, congrArg Prod.snd hsaid⟩
    refine ⟨(g ++ [c]) :: gs, by simp, .cons ⟨?_, g, c, rfl, hbefore⟩ hgs⟩
    rw [List.flatMap_append, List.flatMap_singleton, ← hb]
    exact hlen

/-- A frame too long for its length would have stopped the loop a read earlier. -/
theorem fits_of_stops {g : List Chunk} {f : ChatFrame} (hg : g.flatMap Chunk.bytes = f.wire)
    (hstops : StopsAtLast g) : f.wire.length < 65536 := by
  obtain ⟨g', c, rfl, hbefore⟩ := hstops
  by_contra hlong
  have hle := c.le
  have huser := f.user_lt
  have hmessage := f.message_lt
  have hlength : f.wire.length = 16 + f.user.strlen + f.message.length := by
    rw [f.wire_eq, packet_length]
    rfl
  rw [List.flatMap_append, List.flatMap_singleton] at hg
  have hsum := congrArg List.length hg
  rw [List.length_append] at hsum
  generalize g'.flatMap Chunk.bytes = b at *
  have hheader : headerOf b = packetHeader f.header.messageType f.user.bytes f.message := by
    rw [← headerOf_append (by omega) c.bytes, hg, f.wire_eq]
    exact headerOf_headerBytes _ _
  have hlen : (headerOf b).len.toNat = (16 + f.user.strlen + f.message.length) % 65536 := by
    rw [hheader]
    exact UInt16.toNat_ofNat'
  have hfull : isReadFull b = true := isReadFull_iff.mpr ⟨by omega, by omega⟩
  rw [hbefore] at hfull
  cases hfull

theorem fits_of_groups {gs : List (List Chunk)} {fs : List ChatFrame}
    (heq : List.Forall₂ (fun g f => g.flatMap Chunk.bytes = f.wire) gs fs)
    (hgs : List.Forall₂ (fun g f =>
      f.wire.length ≤ (g.flatMap Chunk.bytes).length ∧ StopsAtLast g) gs fs) :
    ∀ f ∈ fs, f.wire.length < 65536 := by
  induction heq with
  | nil => simp
  | cons hg _ ih =>
    cases hgs with
    | cons hstops hgs => exact List.forall_mem_cons.mpr ⟨fits_of_stops hg hstops.2, ih hgs⟩

theorem session_ok {beyond : Nat → Nat → UInt8} {n : Nat} {reads rest : List Read}
    {msgs : List MessageChat} :
    session beyond n reads = .ok ((.messageState, msgs), rest) ↔
      ∃ r, authState (beyond n) reads = .ok (.messageState, r) ∧
        receiveMessages beyond n r = .ok (msgs, rest) := by
  rw [session, Receive.bind_ok]
  constructor
  · rintro ⟨state, r, hauth, h⟩
    by_cases hstate : state = .messageState
    · subst hstate
      rw [if_pos rfl, Receive.bind_ok] at h
      obtain ⟨msgs', r', hmsgs, h⟩ := h
      cases h
      exact ⟨r, hauth, hmsgs⟩
    · rw [if_neg hstate] at h
      cases h
      exact absurd rfl hstate
  · rintro ⟨r, hauth, hmsgs⟩
    refine ⟨_, r, hauth, ?_⟩
    rw [if_pos rfl, Receive.bind_ok]
    exact ⟨msgs, rest, hmsgs, rfl⟩

theorem reply_length_le {fs : List ChatFrame} {b z : List UInt8} (h : b ++ z = (stream fs).flatten)
    (hfull : isReadFull b = true) : (Server.replyFrame (ascii ['2', '0', '0'])).length ≤ b.length := by
  have hframed : Framed (serverBytes (ascii ['2', '0', '0'])) := framed_serverBytes (by decide)
  obtain ⟨htwelve, hlen⟩ := isReadFull_iff.mp hfull
  have hheader := headerOf_append htwelve z
  rw [h, stream, List.flatten_cons, reply_eq, headerOf_append hframed.twelve] at hheader
  rw [reply_eq, ← hframed.len, hheader]
  exact hlen

theorem session_groups {fs : List ChatFrame} {cs : List Chunk}
    (hcs : cs.flatMap Chunk.bytes = (stream fs).flatten)
    (h : ∀ beyond, ∃ msgs, session beyond fs.length (chunks cs) = .ok ((.messageState, msgs), []) ∧
      msgs.map said = fs.map ChatFrame.said) :
    ∃ g gs, cs = g ++ gs.flatten ∧
      (Server.replyFrame (ascii ['2', '0', '0'])).length ≤ (g.flatMap Chunk.bytes).length ∧
      List.Forall₂ (fun g f =>
        f.wire.length ≤ (g.flatMap Chunk.bytes).length ∧ StopsAtLast g) gs fs := by
  obtain ⟨_, hsession, _⟩ := h fun _ _ => 0
  obtain ⟨r, hauth, _⟩ := session_ok.mp hsession
  obtain ⟨b, hloop⟩ := authState_loop hauth
  obtain ⟨g, c, cs', rfl, rfl, _, hfull, _⟩ := readLoop_chunks (by decide) hloop
  obtain ⟨gs, rfl, hgs⟩ := receiveMessages_groups fun beyond => by
    obtain ⟨msgs, hsession, hsaid⟩ := h beyond
    obtain ⟨r, hauth, hmsgs⟩ := session_ok.mp hsession
    obtain ⟨b', hloop'⟩ := authState_loop hauth
    rw [hloop] at hloop'
    cases hloop'
    exact ⟨msgs, hmsgs, hsaid⟩
  refine ⟨g ++ [c], gs, by simp, ?_, hgs⟩
  rw [List.flatMap_append, List.flatMap_cons, ← List.append_assoc] at hcs
  rw [List.flatMap_append, List.flatMap_singleton]
  exact reply_length_le hcs hfull

/-- A session brings the reply and every chat message, once each and in order, whatever lies
behind the buffers, if and only if no read lies in two frames and all frames fit their length. -/
theorem session_brings_all_iff (fs : List ChatFrame) {cs : List Chunk}
    (hcs : cs.flatMap Chunk.bytes = (stream fs).flatten) :
    (∀ beyond, ∃ msgs, session beyond fs.length (chunks cs) = .ok ((.messageState, msgs), []) ∧
        msgs.map said = fs.map ChatFrame.said) ↔
      Cutting.Respects Chunk.bytes cs (stream fs) ∧ ∀ f ∈ fs, f.wire.length < 65536 := by
  constructor
  · intro h
    obtain ⟨g, gs, rfl, hreply, hgs⟩ := session_groups hcs h
    have hle :
        List.Forall₂ (fun g p => p.length ≤ (g.flatMap Chunk.bytes).length) (g :: gs) (stream fs) :=
      .cons hreply (List.forall₂_map_right_iff.mpr (hgs.imp fun _ _ hg => hg.1))
    have heq := Cutting.groups_eq hle hcs
    refine ⟨Cutting.Respects.of_groups heq, ?_⟩
    cases heq with
    | cons _ heq => exact fits_of_groups (List.forall₂_map_right_iff.mp heq) hgs
  · rintro ⟨hrespects, hfits⟩ beyond
    cases hrespects with
    | @cons g cs _ _ hg hrest =>
      obtain ⟨msgs, hmsgs, hsaid⟩ := receiveMessages_respects hrest hfits beyond
      have hauth := authState_reply (by decide) (hg.trans reply_eq) (beyond fs.length) (chunks cs)
      rw [if_pos rfl, chunks, chunks, ← List.map_append] at hauth
      exact ⟨msgs, session_ok.mpr ⟨_, hauth, hmsgs⟩, hsaid⟩

def hiFrame : ChatFrame where
  header := ⟨MAGIC, 23, MSG_TYPE_CHAT_MSG⟩
  toUser := Server.userName '1'
  message := ascii ['h', 'i']
  user := CString.ofBuffer (Server.userName '1')
  magic := rfl
  message_lt := by decide
  account := by decide

def replyRead : Chunk :=
  ⟨Server.replyFrame (ascii ['2', '0', '0']), by decide +kernel, by decide +kernel⟩

def hiRead : Chunk := ⟨hiFrame.wire, by decide +kernel, by decide +kernel⟩

theorem twoReads_bring_all :
    (∀ beyond, ∃ msgs, session beyond 1 (chunks [replyRead, hiRead]) = .ok ((.messageState, msgs), []) ∧
        msgs.map said = [hiFrame].map ChatFrame.said) ↔
      Cutting.Respects Chunk.bytes [replyRead, hiRead] (stream [hiFrame]) ∧
        ∀ f ∈ [hiFrame], f.wire.length < 65536 :=
  session_brings_all_iff [hiFrame] (by decide +kernel)

def bothRead : Chunk :=
  ⟨Server.replyFrame (ascii ['2', '0', '0']) ++ hiFrame.wire, by decide +kernel, by decide +kernel⟩

theorem oneRead_loses_frame :
    [bothRead].flatMap Chunk.bytes = (stream [hiFrame]).flatten ∧
      ∃ beyond, ¬ ∃ msgs, session beyond 1 (chunks [bothRead]) = .ok ((.messageState, msgs), []) ∧
        msgs.map said = [hiFrame].map ChatFrame.said := by
  refine ⟨by decide +kernel, fun _ _ => 0, ?_⟩
  rintro ⟨msgs, hsession, _⟩
  have hstop : (match session (fun _ _ => 0) 1 (chunks [bothRead]) with
      | .error e => some e
      | .ok _ => none) = some Stop.blocked := by decide +kernel
  rw [hsession] at hstop
  cases hstop

end Protocol
end TeamsInC
