import TeamsInC.Server.Frames

/-!
# What an event asks of the heap

Three things go beyond the blocks that the server owns: a new record has in `ptr` and `user`
what `malloc` left there, `ptr` is read by the dispatch of every event, `user` is read and
freed by a close and freed after a refused login; and a chat frame may be longer than its
block. `keepsMemory` is the condition that an event does none of this.
-/

set_option autoImplicit false

namespace TeamsInC
namespace Server

/-- A login has set `user`: the record is a session, or its decoded strings are freed, which is
how `Authenticate` leaves them. -/
def userSet (c : ClientConnData) : Bool :=
  match c.clientState, c.ptr with
  | .messageState, _ => true
  | .authState, .live (.auth t) => t.user = .freed
  | _, _ => false

def ownsUser (c : ClientConnData) : Bool := userSet c ∨ c.user = .null

/-- The bytes complete a header before the login that is none of ours, or a login that is refused:
`user` is freed with the rest. -/
def freesUser (c : ClientConnData) (m : Mem) : Bool :=
  match headed c m with
  | none => c.clientState = .initialState ∧ SIZE_HEADER ≤ c.bufferUsed.toNat
  | some d =>
    match d.ptr with
    | .live (.auth t) =>
      t.header.len.toNat ≤ d.bufferUsed.toNat ∧ authVerify (loginUser d m) (loginPassword d m) < 0
    | _ => false

/-- If the bytes complete a chat packet, its frame is not too long for a length. -/
def chatFits (c : ClientConnData) (m : Mem) : Bool :=
  match headed c m with
  | none => true
  | some d =>
    match d.ptr, d.user with
    | .live (.chat t), .live user => t.header.len.toNat ≤ d.bufferUsed.toNat →
        sizeofMessageHeader + user.strlen + (m.second d.offset).length ≤ 65535
    | _, _ => true

def framesFit (s : ServerState) : Event → Bool
  | .data fd chunk env =>
    match arrived s fd chunk with
    | none => true
    | some (c, b) => chatFits c (env.mem b)
  | _ => true

/-- `malloc` has left NULL in `ptr`, and what is found in `user` is NULL too or has been put there. -/
def readsOwn (s : ServerState) : Event → Bool
  | .accept _ junk => junk.ptr = .null
  | .again _ => true
  | .epollerr fd => drops fd
  | .eof fd => drops fd
  | .data fd chunk env =>
    match arrived s fd chunk with
    | none => true
    | some (c, b) => freesUser c (env.mem b) → ownsUser c
where
  drops (fd : Int) : Bool :=
    match s.conns fd with
    | none => true
    | some c => ownsUser c

def keepsMemory (s : ServerState) (e : Event) : Bool := readsOwn s e ∧ framesFit s e

theorem keepsMemory_iff {s : ServerState} {e : Event} :
    keepsMemory s e = true ↔ readsOwn s e = true ∧ framesFit s e = true := by
  simp [keepsMemory]

theorem Headed.frame_fits {c d : ClientConnData} {m : Mem} {pre : List Effect} {t : MessageChat}
    {user : CString} (h : Headed c m pre d) (hp : d.ptr = .live (.chat t))
    (hlen : t.header.len.toNat ≤ d.bufferUsed.toNat) (hu : d.user = .live user) (hfits : chatFits c m) :
    (chatFrame d m t.header user).length ≤ chatBlock d m t.header user := by
  simp only [chatFits, h.headed, hp, hu, decide_eq_true_eq] at hfits
  exact @updateBuff_fits _ _ (m.second d.offset) _ rfl (m.second_length _).symm (hfits hlen)

end Server
end TeamsInC
