import TeamsInC.Client.Frames

/-!
# How the client receives

The read loop, fed a frame alone, stops at its last byte however it is cut. A read that also
brings the start of the next frame fills the buffer past the frame, and the decoder leaves
those bytes behind.
-/

set_option autoImplicit false

namespace TeamsInC
namespace Client
open Bytes

theorem isReadFull_iff {b : List UInt8} :
    isReadFull b = true ↔ 12 ≤ b.length ∧ (headerOf b).len.toNat ≤ b.length := by
  by_cases h : 12 ≤ b.length
  · have hlen : ntohs hostOrder (UInt16.ofNat (hostOrder.load ((b.drop 8).take 2))) = (headerOf b).len := by
      rw [ntohs_load hostOrder (by simp; omega),
        ← Mem.slice_eq (m := ⟨b, fun _ => 0⟩) (by simp; omega)]
      rfl
    simp only [isReadFull, SIZE_HEADER, hlen, decide_eq_true_eq]
  · simp only [isReadFull, SIZE_HEADER, h, false_and, decide_false, Bool.false_eq_true]

theorem isReadFull_frame {f b y : List UInt8} (hf : Framed f) (h : b ++ y = f) :
    isReadFull b = true ↔ y = [] := by
  subst h
  have hlen := hf.len
  have htwelve := hf.twelve
  rw [isReadFull_iff]
  by_cases hb : 12 ≤ b.length
  · rw [headerOf_append hb, List.length_append] at hlen
    rw [hlen, ← List.length_eq_zero_iff]
    omega
  · have hy : y ≠ [] := by
      rintro rfl
      simp at htwelve
      omega
    simp only [hb, false_and, hy]

def chunks (cs : List Chunk) : List Read := cs.map .chunk

theorem readLoop_frame {f : List UInt8} (hf : Framed f) {cs : List Chunk} (hne : cs ≠ [])
    {readBuff : Ptr (List UInt8)} (h : readBuff.bytes ++ cs.flatMap Chunk.bytes = f) (rest : List Read) :
    readLoop readBuff (chunks cs ++ rest) = .ok (.live f, rest) := by
  induction cs generalizing readBuff with
  | nil => exact absurd rfl hne
  | cons c cs ih =>
    rw [List.flatMap_cons, ← List.append_assoc] at h
    have hfull := isReadFull_frame hf h
    simp only [chunks, List.map_cons, List.cons_append, readLoop] at ih ⊢
    cases cs with
    | nil =>
      rw [List.flatMap_nil] at h hfull
      rw [if_pos (hfull.mpr rfl), ← h, List.append_nil]
      rfl
    | cons d ds =>
      have hpos := d.pos
      have hmore : (d :: ds).flatMap Chunk.bytes ≠ [] := by
        intro hnil
        simp only [List.flatMap_cons, List.append_eq_nil_iff] at hnil
        simp [hnil.1] at hpos
      rw [if_neg (fun hx => hmore (hfull.mp hx))]
      exact ih (by simp) h

theorem readLoop_blocked {f y : List UInt8} (hf : Framed f) (hy : y ≠ []) {cs : List Chunk}
    {readBuff : Ptr (List UInt8)} (h : readBuff.bytes ++ cs.flatMap Chunk.bytes ++ y = f) :
    readLoop readBuff (chunks cs) = .error .blocked := by
  induction cs generalizing readBuff with
  | nil => rfl
  | cons c cs ih =>
    rw [List.flatMap_cons, ← List.append_assoc] at h
    have hfull := isReadFull_frame (b := readBuff.bytes ++ c.bytes) hf ((List.append_assoc _ _ _).symm.trans h)
    have hmore : cs.flatMap Chunk.bytes ++ y ≠ [] := by simp [hy]
    simp only [chunks, List.map_cons, readLoop] at ih ⊢
    rw [if_neg fun hx => hmore (hfull.mp hx)]
    exact ih h

/-- Where the loop stops among reads that bring bytes: the buffer is full, and was not before
the last of them. -/
theorem readLoop_chunks {cs : List Chunk} {readBuff r : Ptr (List UInt8)} {rest : List Read}
    (hfull : isReadFull readBuff.bytes = false) (h : readLoop readBuff (chunks cs) = .ok (r, rest)) :
    ∃ g c cs', cs = g ++ c :: cs' ∧ rest = chunks cs' ∧
      r = .live (readBuff.bytes ++ g.flatMap Chunk.bytes ++ c.bytes) ∧
      isReadFull (readBuff.bytes ++ g.flatMap Chunk.bytes ++ c.bytes) = true ∧
      isReadFull (readBuff.bytes ++ g.flatMap Chunk.bytes) = false := by
  induction cs generalizing readBuff with
  | nil => cases h
  | cons c cs ih =>
    simp only [chunks, List.map_cons, readLoop] at ih h
    split at h
    · rename_i hdone
      cases h
      exact ⟨[], c, cs, rfl, rfl, by simp, by simpa using hdone, by simpa using hfull⟩
    · rename_i hmore
      obtain ⟨g, d, cs', rfl, hrest, hr, hdone, hbefore⟩ :=
        @ih (.live (readBuff.bytes ++ c.bytes)) (by simpa [Ptr.bytes] using hmore) h
      refine ⟨c :: g, d, cs', rfl, hrest, ?_, ?_, ?_⟩
      · simpa [Ptr.bytes] using hr
      · simpa [Ptr.bytes] using hdone
      · simpa [Ptr.bytes] using hbefore

theorem Receive.bind_ok {α β : Type} {m : Receive α} {f : α → Receive β} {reads : List Read}
    {r : β × List Read} :
    (m >>= f) reads = .ok r ↔ ∃ a rest, m reads = .ok (a, rest) ∧ f a rest = .ok r := by
  change (m reads >>= fun p => f p.1 p.2) = _ ↔ _
  cases m reads with
  | error e => simp
  | ok p =>
    obtain ⟨a, rest⟩ := p
    simp

theorem readWhole_ok {beyond : Nat → UInt8} {reads rest : List Read} {m : Mem} :
    readWhole beyond reads = .ok (m, rest) ↔
      ∃ b, readLoop .null reads = .ok (.live b, rest) ∧ m = ⟨b, beyond⟩ := by
  rw [readWhole, Receive.bind_ok]
  constructor
  · rintro ⟨p, rest', hloop, h⟩
    cases p with
    | null => cases h
    | freed => cases h
    | live b =>
      cases h
      exact ⟨b, hloop, rfl⟩
  · rintro ⟨b, hloop, rfl⟩
    exact ⟨_, _, hloop, rfl⟩

theorem chatAnswer_ok {m : Mem} {reads rest : List Read} {msg : MessageChat} :
    chatAnswer m reads = .ok (msg, rest) ↔ decodeMessageRecv hostOrder m = some msg ∧ rest = reads := by
  rw [chatAnswer]
  cases decodeMessageRecv hostOrder m with
  | none => exact iff_of_false (by rintro ⟨⟩) (by rintro ⟨⟨⟩, _⟩)
  | some msg' =>
    constructor
    · intro h
      cases h
      exact ⟨rfl, rfl⟩
    · rintro ⟨h, rfl⟩
      cases h
      rfl

theorem receiveMessage_ok {beyond : Nat → UInt8} {reads rest : List Read} {msg : MessageChat} :
    receiveMessage beyond reads = .ok (msg, rest) ↔
      ∃ b, readLoop .null reads = .ok (.live b, rest) ∧
        decodeMessageRecv hostOrder ⟨b, beyond⟩ = some msg := by
  rw [receiveMessage, Receive.bind_ok]
  simp only [readWhole_ok, chatAnswer_ok]
  constructor
  · rintro ⟨_, rest', ⟨b, hloop, rfl⟩, hdecode, rfl⟩
    exact ⟨b, hloop, hdecode⟩
  · rintro ⟨b, hloop, hdecode⟩
    exact ⟨_, rest, ⟨b, hloop, rfl⟩, hdecode, rfl⟩

theorem authAnswer_some {m : Mem} {sMsg : ServerMessage} (h : decodeServerMessage hostOrder m = .ok (some sMsg))
    (reads : List Read) :
    authAnswer m reads = .ok (if CString.ofBuffer sMsg.message = CString.ofBuffer (ascii ['2', '0', '0'])
      then .messageState else .initialState, reads) := by
  rw [authAnswer, h]
  change (if _ then (pure .messageState : Receive State) else pure .initialState) reads = _
  split
  · rfl
  · rfl

theorem authAnswer_ok {m : Mem} {reads rest : List Read} {state : State}
    (h : authAnswer m reads = .ok (state, rest)) : rest = reads := by
  cases hdecode : decodeServerMessage hostOrder m with
  | error f =>
    rw [authAnswer, hdecode] at h
    cases h
  | ok sMsg =>
    cases sMsg with
    | none =>
      rw [authAnswer, hdecode] at h
      cases h
    | some sMsg =>
      rw [authAnswer_some hdecode] at h
      cases h
      rfl

theorem authState_loop {beyond : Nat → UInt8} {reads rest : List Read} {state : State}
    (h : authState beyond reads = .ok (state, rest)) :
    ∃ b, readLoop .null reads = .ok (.live b, rest) := by
  rw [authState, Receive.bind_ok] at h
  obtain ⟨m, rest', hwhole, h⟩ := h
  obtain ⟨b, hloop, rfl⟩ := readWhole_ok.mp hwhole
  exact ⟨b, authAnswer_ok h ▸ hloop⟩

theorem authState_blocked {reads : List Read} (h : readLoop .null reads = .error .blocked)
    (beyond : Nat → UInt8) : authState beyond reads = .error .blocked := by
  change (do let p ← (do let p ← readLoop .null reads; _); _) = _
  rw [h]
  rfl

theorem receiveMessage_blocked {reads : List Read} (h : readLoop .null reads = .error .blocked)
    (beyond : Nat → UInt8) : receiveMessage beyond reads = .error .blocked := by
  change (do let p ← (do let p ← readLoop .null reads; _); _) = _
  rw [h]
  rfl

theorem chunks_ne_nil {cs : List Chunk} {f : List UInt8} (hf : Framed f)
    (h : cs.flatMap Chunk.bytes = f) : cs ≠ [] := by
  rintro rfl
  have htwelve := hf.twelve
  rw [← h] at htwelve
  simp at htwelve

theorem authState_reply {text : List UInt8} (htext : 12 + text.length < 65536) {cs : List Chunk}
    (h : cs.flatMap Chunk.bytes = serverBytes text) (beyond : Nat → UInt8) (rest : List Read) :
    authState beyond (chunks cs ++ rest) =
      .ok (if CString.ofBuffer text = CString.ofBuffer (ascii ['2', '0', '0']) then .messageState
        else .initialState, rest) := by
  have hframed := framed_serverBytes htext
  have hloop := @readLoop_frame _ hframed cs (chunks_ne_nil hframed h) .null (by rw [← h]; rfl) rest
  rw [authState, Receive.bind_ok]
  exact ⟨_, rest, readWhole_ok.mpr ⟨_, hloop, rfl⟩,
    authAnswer_some (decodeServerMessage_frame hostOrder htext beyond) rest⟩

theorem receiveMessage_packet {messageType : UInt16} {name message : List UInt8}
    (hfits : 16 + name.length + message.length < 65536) {cs : List Chunk}
    (h : cs.flatMap Chunk.bytes = packet messageType name message) (beyond : Nat → UInt8)
    (rest : List Read) :
    receiveMessage beyond (chunks cs ++ rest) = .ok (chatOf messageType name message, rest) := by
  have hframed : Framed (packet messageType name message) :=
    Packet.framed ⟨messageType, name, message, hfits⟩
  have hloop := @readLoop_frame _ hframed cs (chunks_ne_nil hframed h) .null (by rw [← h]; rfl) rest
  exact receiveMessage_ok.mpr
    ⟨_, hloop, decodeMessageRecv_packet hostOrder messageType (by omega) (by omega) beyond⟩

end Client
end TeamsInC
