import TeamsInC.Client.Typed
import TeamsInC.Server.Registration

/-!
# From the keyboard to the server's decoder

The packet of a typed message says what was typed if and only if a newline ended the line, so
that no character of it lies where the NUL goes, and its lengths fit 16 bits.
-/

set_option autoImplicit false

namespace TeamsInC
namespace Protocol
open Client

/-- `decode_header`, then `decodeMessageChat`, on a record that has received this packet. -/
def decodePacket (packet : List UInt8) (env : Server.Env) : Server.Act MessageChat := do
  let (header, cursor) := Server.decodeHeader Server.hostOrder ⟨packet, env.beyond⟩ ⟨0, []⟩
  let client := { Server.createNewClient 0 Server.zeroed with
    ptr := .live (.chat ⟨header, 0, .null, 0, .null⟩), buff := .live packet, offset := cursor.offset }
  let (_, msgChat) ← Server.decodeMessageChat client env
  return msgChat

theorem decodePacket_packet (messageType : UInt16) {name message : List UInt8}
    (hn : name.length < 65536) (hm : message.length < 65536) (env : Server.Env) :
    (decodePacket (packet messageType name message) env).result =
      .ok (chatOf messageType name message) := by
  have hheader : Mem.header ⟨packet messageType name message, env.beyond⟩ 0 =
      packetHeader messageType name message := Mem.header_at rfl
  obtain ⟨hfirst, hsecond, hfirstLen, hsecondLen⟩ :=
    Mem.fields_at (m := ⟨packet messageType name message, env.beyond⟩)
      (x := headerBytes (packetHeader messageType name message)) (z := []) (by simp [packet])
      (show _ = (0 + 8 + 2 + 2 : UInt32).toNat from headerBytes_length _) hn hm (by simp; omega)
  simp only [decodePacket, Server.decodeHeader_eq, hheader, Server.decodeMessageChat, Server.bufferMem,
    Ptr.deref, Server.ofExcept_eq, Traced.bind_ok, Traced.pure_eq, Server.decodeChatBody_eq,
    Server.emit_eq, hfirst, hsecond, hfirstLen, hsecondLen]
  rfl

/-- The packet is as long as its header says and as its buffer is, and the server decodes these
strings from it. -/
structure Encodes (p : Created) (name message : List UInt8) : Prop where
  count : (p.buff.take p.buffUsed).length = p.buffUsed
  allocd : p.allocd = p.buffUsed
  decoded : ∀ env, ∃ msgChat, (decodePacket (p.buff.take p.buffUsed) env).result = .ok msgChat ∧
    msgChat.header.len.toNat = p.buffUsed ∧ msgChat.toUser = .live name ∧
    msgChat.message = .live message

theorem terminate_ok {block message : List UInt8} {len : UInt16} :
    terminate block len = .ok message ↔
      0 < len.toNat ∧ len.toNat ≤ block.length ∧ message = block.set (len.toNat - 1) 0 := by
  rw [terminate]
  split
  · rename_i h
    simp [h, eq_comm]
  · rename_i h
    simp only [reduceCtorEq, false_iff]
    exact fun hno => h ⟨hno.1, hno.2.1⟩

theorem toNat_ofInt (n : Nat) : (UInt16.ofInt (n : Int)).toNat = n % 65536 := by
  have hmod : ((n : Int) % 2 ^ 16).toNat = n % 65536 := by omega
  rw [UInt16.ofInt, hmod, UInt16.toNat_ofNat']
  exact Nat.mod_mod _ _

section
variable {stdin line : List UInt8} {name : CString} {after : Option (List UInt8)}

theorem fits_of_encodes (h : Typed stdin name line after) {memory : List UInt8} {p : Created}
    (hp : createMessage Client.hostOrder memory stdin 0 = .ok p)
    (henc : Encodes p name.bytes (line ++ [0])) :
    after.isSome ∧ sizeofMessageHeader + name.strlen + (line.length + 1) ≤ 65535 := by
  obtain ⟨later, heq⟩ := h.createMessage_eq (o := Client.hostOrder) memory
  rw [heq] at hp
  generalize hlen : UInt16.ofInt (gotLine line after).1 = len at hp
  cases hterm : terminate (gotLine line after).2 len with
  | error f =>
    simp only [hterm, error_bind] at hp
    cases hp
  | ok message =>
    simp only [hterm, ok_bind, pure_eq_ok, Except.ok.injEq] at hp
    subst hp
    obtain ⟨hpos, hle, hmessage⟩ := terminate_ok.mp hterm
    have hlt := len.toNat_lt
    have hmessageLen : len.toNat ≤ message.length := by rwa [hmessage, List.length_set]
    obtain ⟨hbytes, hused, halloc⟩ := @created_eq Client.hostOrder name len message _ _ memory later
      hmessageLen rfl rfl
    have hname : (name.bytes.take (UInt16.ofNat name.strlen).toNat).length < 65536 := by
      have := (UInt16.ofNat name.strlen).toNat_lt
      rw [List.length_take]
      omega
    have htext : (message.take len.toNat).length < 65536 := by
      rw [List.length_take]
      omega
    obtain ⟨msgChat, hdecoded, hheader, htoUser, htext'⟩ := henc.decoded Server.quiet
    rw [hbytes, decodePacket_packet MSG_TYPE_CHAT_MSG hname htext, Except.ok.injEq] at hdecoded
    subst hdecoded
    injection htoUser with htoUser
    injection htext' with htext'
    have hheader : (packetHeader MSG_TYPE_CHAT_MSG _ _).len.toNat = _ := hheader
    have hheaderLt := (packetHeader MSG_TYPE_CHAT_MSG name.bytes (line ++ [0])).len.toNat_lt
    rw [htoUser, htext'] at hheader hused
    rw [hused, packet_length, List.length_append, ← CString.strlen] at hheader
    simp only [List.length_singleton] at hheader
    refine ⟨?_, by simp only [sizeofMessageHeader]; omega⟩
    -- the line without a newline is one byte too short
    have hcount : line.length + 1 ≤ len.toNat := by
      have := congrArg List.length htext'
      simp only [List.length_take, List.length_append, List.length_singleton] at this
      omega
    cases after with
    | some more => rfl
    | none =>
      by_cases hline : line = []
      · rw [gotLine, if_pos hline] at hle
        simp only [List.length_nil] at hle
        omega
      · rw [gotLine, if_neg hline] at hlen
        have hmod := Nat.mod_le line.length 65536
        rw [← hlen, toNat_ofInt] at hcount
        omega

/-- The packet of a line that a newline ends and whose lengths fit. -/
theorem createMessage_packet {more : List UInt8} (h : Typed stdin name line (some more))
    (hfits : sizeofMessageHeader + name.strlen + (line.length + 1) ≤ 65535) (memory : List UInt8) :
    ∃ p, createMessage Client.hostOrder memory stdin 0 = .ok p ∧
      p.buff.take p.buffUsed = packet MSG_TYPE_CHAT_MSG name.bytes (line ++ [0]) ∧
      p.buffUsed = (packet MSG_TYPE_CHAT_MSG name.bytes (line ++ [0])).length ∧
      p.allocd = (packetHeader MSG_TYPE_CHAT_MSG name.bytes (line ++ [0])).len.toNat := by
  simp only [sizeofMessageHeader] at hfits
  obtain ⟨later, heq⟩ := h.createMessage_eq (o := Client.hostOrder) memory
  have hlen : (UInt16.ofInt (line.length + 1)).toNat = line.length + 1 := by
    rw [← Int.natCast_succ, toNat_ofInt]
    omega
  have hterm : terminate (line ++ [newline, 0]) (UInt16.ofInt (line.length + 1)) =
      .ok (line ++ [0, 0]) := by
    refine terminate_ok.mpr ⟨by omega, ?_, ?_⟩
    · rw [hlen]
      simp
    · rw [hlen]
      simp
  have hname : name.bytes = name.bytes.take (UInt16.ofNat name.strlen).toNat := by
    rw [UInt16.toNat_ofNat_of_lt' (by omega : name.strlen < 65536)]
    exact (List.take_length).symm
  have htext : line ++ [0] = (line ++ [0, 0]).take (UInt16.ofInt (line.length + 1)).toNat := by
    rw [hlen, show line ++ [0, 0] = (line ++ [0]) ++ [0] by simp]
    exact (List.take_left' (by simp)).symm
  have hmessageLen : (UInt16.ofInt (line.length + 1)).toNat ≤ (line ++ [0, 0] : List UInt8).length := by
    rw [hlen]
    simp
  refine ⟨created Client.hostOrder memory later
    (typedChat name (UInt16.ofInt (line.length + 1)) (line ++ [0, 0])), ?_, ?_⟩
  · simp only [heq, gotLine, hterm, ok_bind, pure_eq_ok]
  · exact created_eq memory later hmessageLen hname htext

theorem encodes_of_fits {more : List UInt8} (h : Typed stdin name line (some more))
    (hfits : sizeofMessageHeader + name.strlen + (line.length + 1) ≤ 65535) (memory : List UInt8) :
    ∃ p, createMessage Client.hostOrder memory stdin 0 = .ok p ∧ Encodes p name.bytes (line ++ [0]) := by
  obtain ⟨p, hp, hbytes, hused, halloc⟩ := createMessage_packet h hfits memory
  simp only [sizeofMessageHeader] at hfits
  have hfit : 16 + name.bytes.length + (line ++ [0] : List UInt8).length < 65536 := by
    rw [List.length_append, List.length_singleton, ← CString.strlen]
    omega
  have hheader := @packetHeader_len MSG_TYPE_CHAT_MSG _ _ hfit
  refine ⟨p, hp, ?_, ?_, ?_⟩
  · rw [hbytes, hused]
  · rw [halloc, hused, hheader, packet_length]
  · intro env
    have hdecoded := decodePacket_packet MSG_TYPE_CHAT_MSG (by omega : name.bytes.length < 65536)
      (by omega : (line ++ [0] : List UInt8).length < 65536) env
    rw [hbytes, hused, packet_length]
    exact ⟨_, hdecoded, hheader, rfl, rfl⟩

/-- The packet of a typed message says what was typed, if and only if the line is ended by a
newline and the lengths fit 16 bits. -/
theorem createMessage_encodes_iff (h : Typed stdin name line after) (memory : List UInt8) :
    (∃ p, createMessage Client.hostOrder memory stdin 0 = .ok p ∧
      Encodes p name.bytes (line ++ [0])) ↔
      after.isSome ∧ sizeofMessageHeader + name.strlen + (line.length + 1) ≤ 65535 := by
  constructor
  · rintro ⟨p, hp, henc⟩
    exact fits_of_encodes h hp henc
  · rintro ⟨hafter, hfits⟩
    obtain ⟨more, rfl⟩ := Option.isSome_iff_exists.mp hafter
    exact encodes_of_fits h hfits memory

end

def hiTyped : List UInt8 := ascii ['u', 's', 'e', 'r', '2', '\n', 'h', 'i', '\n']

theorem hiTyped_createMessage_encodes_iff :
    (∃ p, createMessage Client.hostOrder [] hiTyped 0 = .ok p ∧
      Encodes p (CString.ofBuffer (Server.userName '2')).bytes (ascii ['h', 'i'] ++ [0])) ↔
      (some ([] : List UInt8)).isSome ∧
        sizeofMessageHeader + (CString.ofBuffer (Server.userName '2')).strlen + (2 + 1) ≤ 65535 := by
  have h : Typed hiTyped (CString.ofBuffer (Server.userName '2')) (ascii ['h', 'i']) (some []) := by
    refine ⟨⟨[], [], rfl, ?_⟩, ?_, ?_, ?_⟩ <;> decide +kernel
  exact createMessage_encodes_iff h []

def hiUnended : List UInt8 := ascii ['u', 's', 'e', 'r', '2', '\n', 'h', 'i']

theorem hiUnended_not_encoded :
    Typed hiUnended (CString.ofBuffer (Server.userName '2')) (ascii ['h', 'i']) none ∧
      ¬ ∃ p, createMessage Client.hostOrder [] hiUnended 0 = .ok p ∧
        Encodes p (CString.ofBuffer (Server.userName '2')).bytes (ascii ['h', 'i'] ++ [0]) := by
  have h : Typed hiUnended (CString.ofBuffer (Server.userName '2')) (ascii ['h', 'i']) none := by
    refine ⟨⟨[], [], rfl, ?_⟩, ?_, ?_, ?_⟩ <;> decide +kernel
  refine ⟨h, ?_⟩
  rintro ⟨p, hp, henc⟩
  have hafter := (fits_of_encodes h hp henc).1
  cases hafter

end Protocol
end TeamsInC
