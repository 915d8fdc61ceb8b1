import TeamsInC.Server.Main

/-!
# What one event can do

The handlers in closed form, and from them one inversion lemma for the bytes of a read:
`DataStep` lists everything that can follow, with the trace it leaves.
-/

set_option autoImplicit false

namespace TeamsInC
namespace Server
open Bytes

theorem decodeHeader_eq (o : ByteOrder) (m : Mem) (offset : UInt32) :
    decodeHeader o m ⟨offset, []⟩ = (m.header offset, ⟨offset + 8 + 2 + 2, headerReads offset⟩) :=
  m.fetchHeader_eq o offset

theorem decodeMessageAuth_eq (o : ByteOrder) (m : Mem) (t : MessageAuth) (offset : UInt32) :
    decodeMessageAuth o m t ⟨offset, []⟩ =
      (⟨t.header, m.u16 offset.toNat, .live (m.first offset), m.u16 (m.secondAt offset).toNat,
        .live (m.second offset)⟩, ⟨m.fieldsEnd offset, m.fieldReads offset⟩) := by
  change (let p := m.fetchFields o ⟨offset, []⟩
    ((⟨t.header, p.1.1, .live p.1.2.1, p.1.2.2.1, .live p.1.2.2.2⟩, p.2) : MessageAuth × Cursor)) = _
  rw [Mem.fetchFields_eq]
  rfl

theorem decodeChatBody_eq (o : ByteOrder) (m : Mem) (t : MessageChat) (offset : UInt32) :
    decodeChatBody o m t ⟨offset, []⟩ =
      (⟨t.header, m.u16 offset.toNat, .live (m.first offset), m.u16 (m.secondAt offset).toNat,
        .live (m.second offset)⟩, ⟨m.fieldsEnd offset, m.fieldReads offset⟩) := by
  change (let p := m.fetchFields o ⟨offset, []⟩
    ((⟨t.header, p.1.1, .live p.1.2.1, p.1.2.2.1, .live p.1.2.2.2⟩, p.2) : MessageChat × Cursor)) = _
  rw [Mem.fetchFields_eq]
  rfl

def misuseOf {α : Type} (fd : Int) (item : Item) : Ptr α → List Effect
  | .freed => [.misuse fd item]
  | _ => []

@[simp] theorem misuseOf_live {α : Type} (fd : Int) (item : Item) (a : α) :
    misuseOf fd item (.live a) = [] := rfl

@[simp] theorem misuseOf_null {α : Type} (fd : Int) (item : Item) :
    misuseOf fd item (.null : Ptr α) = [] := rfl

@[simp] theorem release_eq {α : Type} (fd : Int) (item : Item) (p : Ptr α) :
    release fd item p = ⟨misuseOf fd item p, .ok ()⟩ := by cases p <;> rfl

@[simp] theorem emit_eq (xs : List Effect) : (Traced.emit xs : Act Unit) = ⟨xs, .ok ()⟩ := rfl

@[simp] theorem ofExcept_eq {α : Type} (m : Except Fault α) :
    (Traced.ofExcept m : Act α) = ⟨[], m⟩ := rfl

def freeEffects (c : ClientConnData) : List Effect :=
  misuseOf c.fd .ptr c.ptr ++ (misuseOf c.fd .buff c.buff ++ misuseOf c.fd .user c.user)

theorem closeConn_eq (c : ClientConnData) :
    closeConn c = ⟨.close c.fd :: freeEffects c, .ok ()⟩ := by
  simp [closeConn, freeClient, freeEffects]

def cleared (c : ClientConnData) : ClientConnData :=
  { c with ptr := .null, buff := .null, bufferUsed := 0, offset := 0, bufferAllocd := 0 }

theorem refreshClient_eq (c : ClientConnData) : refreshClient c =
    ⟨misuseOf c.fd .ptr c.ptr ++ misuseOf c.fd .buff c.buff, .ok (cleared c)⟩ := by
  simp [refreshClient, cleared]

theorem resetClient_eq (c : ClientConnData) : resetClient c =
    ⟨freeEffects c, .ok { cleared c with clientState := .initialState, user := .null }⟩ := by
  simp [resetClient, cleared, freeEffects]

def replyFrame (text : List UInt8) : List UInt8 :=
  let (buff, used) := encodeMessage hostOrder (serverMessage text) []
  buff.take used

theorem sendMessage_eq (text : List UInt8) (fd : Int) (write : WriteOracle) :
    sendMessage text fd write = ⟨[.reply fd (replyFrame text) (Write fd (replyFrame text) write).1],
      .ok (if (Write fd (replyFrame text) write).2 < 0 then -1 else 0)⟩ := rfl

def Env.mem (env : Env) (b : List UInt8) : Mem := ⟨b, env.beyond⟩

theorem env_mem (env : Env) (b : List UInt8) : (⟨b, env.beyond⟩ : Mem) = env.mem b := rfl

theorem verifyHeader_eq {c : ClientConnData} {env : Env} {b : List UInt8} (hb : c.buff = .live b) :
    verifyHeader c env = ⟨[.decode c.fd (headerReads c.offset) c.bufferUsed.toNat], .ok
      (if ((env.mem b).header c.offset).magic ≠ MAGIC then
        ({ c with ptr := .freed, offset := c.offset + 8 + 2 + 2, clientState := .errorState }, -1)
      else ({ c with ptr := .live (.auth ⟨(env.mem b).header c.offset, 0, .null, 0, .null⟩),
                     offset := c.offset + 8 + 2 + 2 }, 0))⟩ := by
  simp only [verifyHeader, bufferMem, hb, Ptr.deref, ofExcept_eq, Traced.bind_ok, Traced.pure_eq,
    decodeHeader_eq, emit_eq, Env.mem]
  split <;> rfl

theorem header_eq {c : ClientConnData} {env : Env} {b : List UInt8} (hb : c.buff = .live b) :
    header c env = ⟨[.decode c.fd (headerReads c.offset) c.bufferUsed.toNat], .ok
      (if ((env.mem b).header c.offset).magic ≠ MAGIC then
        ({ c with ptr := .freed, offset := c.offset + 8 + 2 + 2 }, -1)
      else ({ c with ptr := .live (.chat ⟨(env.mem b).header c.offset, 0, .null, 0, .null⟩),
                     offset := c.offset + 8 + 2 + 2 }, 0))⟩ := by
  simp only [header, bufferMem, hb, Ptr.deref, ofExcept_eq, Traced.bind_ok, Traced.pure_eq,
    decodeHeader_eq, emit_eq, Env.mem]
  split <;> rfl

/-- The pair that the login decoder finds, as the C strings it is compared by. -/
def loginUser (c : ClientConnData) (m : Mem) : CString := CString.ofBuffer (m.first c.offset)

def loginPassword (c : ClientConnData) (m : Mem) : CString := CString.ofBuffer (m.second c.offset)

def fieldsDecoded (c : ClientConnData) (m : Mem) : Effect :=
  .decode c.fd (m.fieldReads c.offset) c.bufferUsed.toNat

def afterLogin (c : ClientConnData) (m : Mem) (h : MessageHeader) : ClientConnData :=
  { c with
    ptr := .live (.auth ⟨h, m.u16 c.offset.toNat, .freed, m.u16 (m.secondAt c.offset).toNat, .freed⟩)
    offset := m.fieldsEnd c.offset }

theorem authVerify_cases (u p : CString) : authVerify u p = 0 ∨ authVerify u p = -1 := by
  simp only [authVerify]
  split
  · exact .inl rfl
  · exact .inr rfl

theorem authVerify_mem {u p : CString} (h : authVerify u p = 0) : u ∈ accounts ∧ p = u := by
  simp only [authVerify] at h
  split at h
  · rename_i hany
    obtain ⟨a, ha, hup⟩ := List.any_eq_true.mp hany
    obtain ⟨rfl, rfl⟩ := of_decide_eq_true hup
    exact ⟨ha, rfl⟩
  · simp at h

theorem accounts_fit : ∀ u ∈ accounts, u.strlen < HbTree.keyBytes := by decide

theorem authenticate_eq {c : ClientConnData} {tree : HbTree} {env : Env} {b : List UInt8}
    {t : MessageAuth} (hb : c.buff = .live b) (hp : c.ptr = .live (.auth t)) :
    authenticate c tree env =
      if authVerify (loginUser c (env.mem b)) (loginPassword c (env.mem b)) < 0 then
        ⟨[fieldsDecoded c (env.mem b), .verify c.fd b c.offset.toNat (loginUser c (env.mem b))
          (loginPassword c (env.mem b)) false], .ok (afterLogin c (env.mem b) t.header, tree, -1)⟩
      else match tree.hbTreeInsert (loginUser c (env.mem b)) c.fd env.bal with
        | .error f => ⟨[fieldsDecoded c (env.mem b), .verify c.fd b c.offset.toNat
            (loginUser c (env.mem b)) (loginPassword c (env.mem b)) true], .error f⟩
        | .ok (tree', none) => ⟨[fieldsDecoded c (env.mem b), .verify c.fd b c.offset.toNat
            (loginUser c (env.mem b)) (loginPassword c (env.mem b)) true],
            .ok (afterLogin c (env.mem b) t.header, tree', -1)⟩
        | .ok (tree', some _) => ⟨[fieldsDecoded c (env.mem b), .verify c.fd b c.offset.toNat
            (loginUser c (env.mem b)) (loginPassword c (env.mem b)) true,
            .insert (loginUser c (env.mem b)) c.fd],
            .ok ({ afterLogin c (env.mem b) t.header with user := .live (loginUser c (env.mem b)) },
              tree', 0)⟩ := by
  obtain ⟨ptr, fd, buff, used, offset, allocd, state, user⟩ := c
  obtain rfl : buff = .live b := hb
  obtain rfl : ptr = .live (.auth t) := hp
  change _ = if authVerify (CString.ofBuffer ((env.mem b).first offset))
    (CString.ofBuffer ((env.mem b).second offset)) < 0 then _ else match tree.hbTreeInsert
      (CString.ofBuffer ((env.mem b).first offset)) fd env.bal with
    | .error f => _
    | .ok (tree', none) => _
    | .ok (tree', some _) => _
  by_cases hv : authVerify (CString.ofBuffer ((env.mem b).first offset))
      (CString.ofBuffer ((env.mem b).second offset)) < 0
  · have hv' : ¬ 0 ≤ authVerify (CString.ofBuffer ((env.mem b).first offset))
      (CString.ofBuffer ((env.mem b).second offset)) := by omega
    rw [if_pos hv]
    simp only [authenticate, bufferMem, Ptr.deref, ofExcept_eq, Traced.bind_ok, Traced.pure_eq,
      decodeMessageAuth_eq, emit_eq, env_mem, hv, hv', if_true, decide_false]
    rfl
  · have hv' : 0 ≤ authVerify (CString.ofBuffer ((env.mem b).first offset))
      (CString.ofBuffer ((env.mem b).second offset)) := by omega
    rw [if_neg hv]
    simp only [authenticate, bufferMem, Ptr.deref, ofExcept_eq, Traced.bind_ok, Traced.pure_eq,
      decodeMessageAuth_eq, emit_eq, env_mem, hv, hv', if_false, decide_true]
    cases tree.hbTreeInsert (CString.ofBuffer ((env.mem b).first offset)) fd env.bal with
    | error f => rfl
    | ok q =>
      obtain ⟨tree', node⟩ := q
      cases node <;> rfl

def chatMessage (c : ClientConnData) (m : Mem) (h : MessageHeader) : MessageChat :=
  ⟨h, m.u16 c.offset.toNat, .live (m.first c.offset), m.u16 (m.secondAt c.offset).toNat,
    .live (m.second c.offset)⟩

def chatFrame (c : ClientConnData) (m : Mem) (h : MessageHeader) (user : CString) : List UInt8 :=
  (updateBuff hostOrder (chatMessage c m h) user).2

/-- The block that `updateBuff` builds the frame in: `malloc(msg_chat->header.len)`. -/
def updateBuffAllocd (o : ByteOrder) (msgChat : MessageChat) (user : CString) : Nat :=
  (updateBuff o msgChat user).1.header.len.toNat

def chatBlock (c : ClientConnData) (m : Mem) (h : MessageHeader) (user : CString) : Nat :=
  updateBuffAllocd hostOrder (chatMessage c m h) user

def chatTo (c : ClientConnData) (m : Mem) : CString := CString.ofBuffer (m.first c.offset)

theorem forwardChat_eq {c : ClientConnData} {tree : HbTree} {env : Env} {b : List UInt8}
    {t : MessageChat} (hb : c.buff = .live b) (hp : c.ptr = .live (.chat t)) :
    forwardChat c tree env =
      match tree.hbTreeSearch (chatTo c (env.mem b)) with
      | .error f => ⟨[fieldsDecoded c (env.mem b)], .error f⟩
      | .ok dest =>
        match c.user.deref with
        | .error f => ⟨[fieldsDecoded c (env.mem b)], .error f⟩
        | .ok user => ⟨[fieldsDecoded c (env.mem b), .forward c.fd (chatTo c (env.mem b)) dest
            (chatFrame c (env.mem b) t.header user)
            (Write dest (chatFrame c (env.mem b) t.header user) env.write).1],
            (inBlock (chatBlock c (env.mem b) t.header user) (chatFrame c (env.mem b) t.header user)).map
              fun _ => cleared c⟩ := by
  obtain ⟨ptr, fd, buff, used, offset, allocd, state, user⟩ := c
  obtain rfl : buff = .live b := hb
  obtain rfl : ptr = .live (.chat t) := hp
  simp only [forwardChat, decodeMessageChat, bufferMem, Ptr.deref, ofExcept_eq, Traced.bind_ok,
    Traced.pure_eq, decodeChatBody_eq, emit_eq, release_eq, chatTo, env_mem]
  cases tree.hbTreeSearch (CString.ofBuffer ((env.mem b).first offset)) with
  | error f => rfl
  | ok dest =>
    cases user with
    | null => rfl
    | freed => rfl
    | live user =>
      simp only [Traced.bind_ok, refreshClient_eq, misuseOf_live, List.nil_append, chatBlock, chatFrame,
        chatMessage, updateBuffAllocd]
      cases inBlock _ _ with
      | error f => rfl
      | ok => rfl

def received (c : ClientConnData) (b : List UInt8) (allocd : UInt32) (n : Nat) : ClientConnData :=
  { c with buff := .live b, bufferAllocd := allocd, bufferUsed := c.bufferUsed + UInt32.ofNat n }

theorem receive_ok {c c' : ClientConnData} {chunk : List UInt8} (h : receive c chunk = .ok c') :
    ∃ old allocd, c' = received c (poke old c.bufferUsed.toNat chunk) allocd chunk.length ∧
      c.bufferUsed.toNat + chunk.length ≤ allocd.toNat ∧
      (c.buff = .null ∧ old = [] ∧ allocd = UInt32.ofNat chunk.length ∨
        c.buff = .live old ∧ allocd = c.bufferAllocd + UInt32.ofNat chunk.length) := by
  simp only [receive] at h
  cases hb : c.buff with
  | null =>
    simp only [hb, ok_bind, pure_eq_ok] at h
    split at h
    · cases h
      exact ⟨[], _, rfl, by assumption, .inl ⟨rfl, rfl, rfl⟩⟩
    · cases h
  | live old =>
    simp only [hb, ok_bind, pure_eq_ok] at h
    split at h
    · cases h
      exact ⟨old, _, rfl, by assumption, .inr ⟨rfl, rfl⟩⟩
    · cases h
  | freed =>
    simp only [hb, error_bind] at h
    cases h

/-- The record with the header of its packet decoded, in `AUTH_STATE` or `MESSAGE_STATE`. -/
def withHeader (c : ClientConnData) (p : Payload) (state : State) : ClientConnData :=
  { c with ptr := .live p, offset := c.offset + 8 + 2 + 2, clientState := state }

/-- The way to the test of the length: with the header decoded in this event, or before. -/
inductive Headed (c : ClientConnData) (m : Mem) : List Effect → ClientConnData → Prop
  | initial (hs : c.clientState = .initialState) (hused : SIZE_HEADER ≤ c.bufferUsed.toNat)
      (magic : (m.header c.offset).magic = MAGIC) :
      Headed c m [.decode c.fd (headerReads c.offset) c.bufferUsed.toNat]
        (withHeader c (.auth ⟨m.header c.offset, 0, .null, 0, .null⟩) .authState)
  | auth (hs : c.clientState = .authState) : Headed c m [] c
  | first (hs : c.clientState = .messageState) (hused : SIZE_HEADER ≤ c.bufferUsed.toNat)
      (hoff : c.offset = 0) (magic : (m.header c.offset).magic = MAGIC) :
      Headed c m [.decode c.fd (headerReads c.offset) c.bufferUsed.toNat]
        (withHeader c (.chat ⟨m.header c.offset, 0, .null, 0, .null⟩) .messageState)
  | chat (hs : c.clientState = .messageState) (hused : SIZE_HEADER ≤ c.bufferUsed.toNat)
      (hoff : c.offset ≠ 0) : Headed c m [] c

namespace Headed
variable {c d : ClientConnData} {m : Mem} {pre : List Effect}

theorem fd_eq (h : Headed c m pre d) : d.fd = c.fd := by cases h <;> rfl

theorem user_eq (h : Headed c m pre d) : d.user = c.user := by cases h <;> rfl

theorem buff_eq (h : Headed c m pre d) : d.buff = c.buff := by cases h <;> rfl

theorem used_eq (h : Headed c m pre d) : d.bufferUsed = c.bufferUsed := by cases h <;> rfl

theorem message_iff (h : Headed c m pre d) :
    d.clientState = .messageState ↔ c.clientState = .messageState := by
  cases h <;> simp_all [withHeader]

theorem eq_decode (h : Headed c m pre d) {x : Effect} (hx : x ∈ pre) :
    x = .decode c.fd (headerReads c.offset) c.bufferUsed.toNat := by
  cases h <;> simp_all

end Headed

/-- The record before the test of the length, if the bytes get it there. -/
def headed (c : ClientConnData) (m : Mem) : Option ClientConnData :=
  match c.clientState with
  | .authState => some c
  | .initialState =>
    if SIZE_HEADER ≤ c.bufferUsed.toNat ∧ (m.header c.offset).magic = MAGIC then
      some (withHeader c (.auth ⟨m.header c.offset, 0, .null, 0, .null⟩) .authState)
    else none
  | .messageState =>
    if SIZE_HEADER ≤ c.bufferUsed.toNat then
      if c.offset ≠ 0 then some c
      else if (m.header c.offset).magic = MAGIC then
        some (withHeader c (.chat ⟨m.header c.offset, 0, .null, 0, .null⟩) .messageState)
      else none
    else none
  | _ => none

theorem Headed.headed {c d : ClientConnData} {m : Mem} {pre : List Effect} (h : Headed c m pre d) :
    headed c m = some d := by
  cases h with
  | initial hs hused magic => simp [Server.headed, hs, hused, magic]
  | auth hs => simp [Server.headed, hs]
  | first hs hused hoff magic =>
    rw [hoff] at magic
    simp [Server.headed, hs, hused, hoff, magic]
  | chat hs hused hoff => simp [Server.headed, hs, hused, hoff]

@[simp] theorem mem_misuseOf {α : Type} {fd : Int} {item : Item} {p : Ptr α} {x : Effect} :
    x ∈ misuseOf fd item p ↔ p = .freed ∧ x = .misuse fd item := by
  cases p <;> simp [misuseOf]

def verified (c : ClientConnData) (b : List UInt8) (m : Mem) (accepted : Bool) : Effect :=
  .verify c.fd b c.offset.toNat (loginUser c m) (loginPassword c m) accepted

def rejectedRecord (c : ClientConnData) : ClientConnData :=
  { cleared c with clientState := .initialState, user := .null }

def replied (c : ClientConnData) (text : List Char) (env : Env) : Effect :=
  .reply c.fd (replyFrame (ascii text)) (Write c.fd (replyFrame (ascii text)) env.write).1

/-- Everything that can happen to a record `c` whose buffer now holds `b`: the trace, and the
record and tree afterwards, or the fault. -/
inductive DataStep (c : ClientConnData) (b : List UInt8) (tree : HbTree) (env : Env) :
    List Effect → Except Fault (Option ClientConnData × HbTree) → Prop
  | idle (hs : c.clientState = .errorState ∨ c.clientState = .connCloseState) :
      DataStep c b tree env [] (.ok (some c, tree))
  | short (hs : c.clientState = .initialState ∨ c.clientState = .messageState)
      (hused : c.bufferUsed.toNat < SIZE_HEADER) : DataStep c b tree env [] (.ok (some c, tree))
  | badHeader (hs : c.clientState = .initialState ∨ c.clientState = .messageState ∧ c.offset = 0)
      (hused : SIZE_HEADER ≤ c.bufferUsed.toNat)
      (magic : ((env.mem b).header c.offset).magic ≠ MAGIC) :
      DataStep c b tree env (.decode c.fd (headerReads c.offset) c.bufferUsed.toNat :: .close c.fd ::
        .misuse c.fd .ptr :: misuseOf c.fd .user c.user) (.ok (none, tree))
  | noPtr {pre : List Effect} {d : ClientConnData} {f : Fault} (h : Headed c (env.mem b) pre d)
      (hp : d.ptr.deref = .error f) : DataStep c b tree env pre (.error f)
  | wait {pre : List Effect} {d : ClientConnData} {p : Payload} (h : Headed c (env.mem b) pre d)
      (hp : d.ptr = .live p) (hlen : d.bufferUsed.toNat < p.header.len.toNat) :
      DataStep c b tree env pre (.ok (some d, tree))
  | badPtr {pre : List Effect} {d : ClientConnData} {p : Payload} (h : Headed c (env.mem b) pre d)
      (hp : d.ptr = .live p) (hkind : match p with
        | .auth _ => d.clientState = .messageState
        | .chat _ => d.clientState = .authState) : DataStep c b tree env pre (.error .dangling)
  | rejected {pre : List Effect} {d : ClientConnData} {t : MessageAuth}
      (h : Headed c (env.mem b) pre d) (hs : d.clientState = .authState)
      (hp : d.ptr = .live (.auth t)) (hlen : t.header.len.toNat ≤ d.bufferUsed.toNat)
      (hv : authVerify (loginUser d (env.mem b)) (loginPassword d (env.mem b)) < 0) :
      DataStep c b tree env (pre ++ [fieldsDecoded d (env.mem b), verified d b (env.mem b) false,
        replied d ['4', '0', '1'] env] ++ misuseOf d.fd .user d.user)
        (.ok (some (rejectedRecord d), tree))
  | insertFault {pre : List Effect} {d : ClientConnData} {t : MessageAuth} {f : Fault}
      (h : Headed c (env.mem b) pre d) (hs : d.clientState = .authState)
      (hp : d.ptr = .live (.auth t)) (hlen : t.header.len.toNat ≤ d.bufferUsed.toNat)
      (hv : authVerify (loginUser d (env.mem b)) (loginPassword d (env.mem b)) = 0)
      (hi : tree.hbTreeInsert (loginUser d (env.mem b)) d.fd env.bal = .error f) :
      DataStep c b tree env (pre ++ [fieldsDecoded d (env.mem b), verified d b (env.mem b) true])
        (.error f)
  | notInserted {pre : List Effect} {d : ClientConnData} {t : MessageAuth} {tree' : HbTree}
      (h : Headed c (env.mem b) pre d) (hs : d.clientState = .authState)
      (hp : d.ptr = .live (.auth t)) (hlen : t.header.len.toNat ≤ d.bufferUsed.toNat)
      (hv : authVerify (loginUser d (env.mem b)) (loginPassword d (env.mem b)) = 0)
      (hi : tree.hbTreeInsert (loginUser d (env.mem b)) d.fd env.bal = .ok (tree', none)) :
      DataStep c b tree env (pre ++ [fieldsDecoded d (env.mem b), verified d b (env.mem b) true,
        replied d ['4', '0', '1'] env] ++ misuseOf d.fd .user d.user)
        (.ok (some (rejectedRecord d), tree'))
  | accepted {pre : List Effect} {d : ClientConnData} {t : MessageAuth} {tree' : HbTree} {a : Nat}
      (h : Headed c (env.mem b) pre d) (hs : d.clientState = .authState)
      (hp : d.ptr = .live (.auth t)) (hlen : t.header.len.toNat ≤ d.bufferUsed.toNat)
      (hv : authVerify (loginUser d (env.mem b)) (loginPassword d (env.mem b)) = 0)
      (hi : tree.hbTreeInsert (loginUser d (env.mem b)) d.fd env.bal = .ok (tree', some a))
      (hw : 0 ≤ (Write d.fd (replyFrame (ascii ['2', '0', '0'])) env.write).2) :
      DataStep c b tree env (pre ++ [fieldsDecoded d (env.mem b), verified d b (env.mem b) true,
        .insert (loginUser d (env.mem b)) d.fd, replied d ['2', '0', '0'] env])
        (.ok (some { cleared d with
          clientState := .messageState, user := .live (loginUser d (env.mem b)) }, tree'))
  | unanswered {pre : List Effect} {d : ClientConnData} {t : MessageAuth} {tree' : HbTree} {a : Nat}
      (h : Headed c (env.mem b) pre d) (hs : d.clientState = .authState)
      (hp : d.ptr = .live (.auth t)) (hlen : t.header.len.toNat ≤ d.bufferUsed.toNat)
      (hv : authVerify (loginUser d (env.mem b)) (loginPassword d (env.mem b)) = 0)
      (hi : tree.hbTreeInsert (loginUser d (env.mem b)) d.fd env.bal = .ok (tree', some a))
      (hw : (Write d.fd (replyFrame (ascii ['2', '0', '0'])) env.write).2 < 0) :
      DataStep c b tree env (pre ++ [fieldsDecoded d (env.mem b), verified d b (env.mem b) true,
        .insert (loginUser d (env.mem b)) d.fd, replied d ['2', '0', '0'] env])
        (.ok (some { afterLogin d (env.mem b) t.header with
          user := .live (loginUser d (env.mem b)) }, tree'))
  | notForwarded {pre : List Effect} {d : ClientConnData} {t : MessageChat} {f : Fault}
      (h : Headed c (env.mem b) pre d) (hs : d.clientState = .messageState)
      (hp : d.ptr = .live (.chat t)) (hlen : t.header.len.toNat ≤ d.bufferUsed.toNat)
      (hf : tree.hbTreeSearch (chatTo d (env.mem b)) = .error f ∨
        ∃ dest, tree.hbTreeSearch (chatTo d (env.mem b)) = .ok dest ∧ d.user.deref = .error f) :
      DataStep c b tree env (pre ++ [fieldsDecoded d (env.mem b)]) (.error f)
  | forwarded {pre : List Effect} {d : ClientConnData} {t : MessageChat} {dest : Int}
      {user : CString} (h : Headed c (env.mem b) pre d) (hs : d.clientState = .messageState)
      (hp : d.ptr = .live (.chat t)) (hlen : t.header.len.toNat ≤ d.bufferUsed.toNat)
      (hdest : tree.hbTreeSearch (chatTo d (env.mem b)) = .ok dest) (hu : d.user = .live user)
      (hfits : (chatFrame d (env.mem b) t.header user).length ≤ chatBlock d (env.mem b) t.header user) :
      DataStep c b tree env (pre ++ [fieldsDecoded d (env.mem b),
        .forward d.fd (chatTo d (env.mem b)) dest (chatFrame d (env.mem b) t.header user)
          (Write dest (chatFrame d (env.mem b) t.header user) env.write).1])
        (.ok (some (cleared d), tree))
  | overran {pre : List Effect} {d : ClientConnData} {t : MessageChat} {dest : Int}
      {user : CString} (h : Headed c (env.mem b) pre d) (hs : d.clientState = .messageState)
      (hp : d.ptr = .live (.chat t)) (hlen : t.header.len.toNat ≤ d.bufferUsed.toNat)
      (hdest : tree.hbTreeSearch (chatTo d (env.mem b)) = .ok dest) (hu : d.user = .live user)
      (hlong : chatBlock d (env.mem b) t.header user < (chatFrame d (env.mem b) t.header user).length) :
      DataStep c b tree env (pre ++ [fieldsDecoded d (env.mem b),
        .forward d.fd (chatTo d (env.mem b)) dest (chatFrame d (env.mem b) t.header user)
          (Write dest (chatFrame d (env.mem b) t.header user) env.write).1]) (.error .overflow)

theorem DataStep.of_forward {c : ClientConnData} {b : List UInt8} {tree : HbTree} {env : Env}
    {effs : List Effect} {result : Except Fault (Option ClientConnData × HbTree)}
    {fd dest : Int} {toUser : CString} {frame accepted : List UInt8}
    (h : DataStep c b tree env effs result)
    (hx : Effect.forward fd toUser dest frame accepted ∈ effs) :
    ∃ pre d t user, Headed c (env.mem b) pre d ∧ d.clientState = .messageState ∧
      d.ptr = .live (.chat t) ∧ t.header.len.toNat ≤ d.bufferUsed.toNat ∧ d.user = .live user ∧
      tree.hbTreeSearch toUser = .ok dest ∧ fd = d.fd ∧ toUser = chatTo d (env.mem b) ∧
      frame = chatFrame d (env.mem b) t.header user := by
  have no {pre d} (hd : Headed c (env.mem b) pre d) :
      Effect.forward fd toUser dest frame accepted ∉ pre := fun hp => by
    have := hd.eq_decode hp
    cases this
  cases h with
  | idle => simp at hx
  | short => simp at hx
  | badHeader => simp at hx
  | noPtr h => exact absurd hx (no h)
  | wait h => exact absurd hx (no h)
  | badPtr h => exact absurd hx (no h)
  | rejected h => simp [no h, fieldsDecoded, verified, replied] at hx
  | insertFault h => simp [no h, fieldsDecoded, verified] at hx
  | notInserted h => simp [no h, fieldsDecoded, verified, replied] at hx
  | accepted h => simp [no h, fieldsDecoded, verified, replied] at hx
  | unanswered h => simp [no h, fieldsDecoded, verified, replied] at hx
  | notForwarded h => simp [no h, fieldsDecoded] at hx
  | @forwarded pre d t dest' user h hs hp hlen hdest hu =>
    simp only [List.mem_append, no h, false_or, List.mem_cons, fieldsDecoded, reduceCtorEq,
      List.not_mem_nil, or_false, Effect.forward.injEq] at hx
    obtain ⟨rfl, rfl, rfl, rfl, _⟩ := hx
    exact ⟨pre, d, t, user, h, hs, hp, hlen, hu, hdest, rfl, rfl, rfl⟩
  | @overran pre d t dest' user h hs hp hlen hdest hu =>
    simp only [List.mem_append, no h, false_or, List.mem_cons, fieldsDecoded, reduceCtorEq,
      List.not_mem_nil, or_false, Effect.forward.injEq] at hx
    obtain ⟨rfl, rfl, rfl, rfl, _⟩ := hx
    exact ⟨pre, d, t, user, h, hs, hp, hlen, hu, hdest, rfl, rfl, rfl⟩

theorem caseAuth_step {c d : ClientConnData} {b : List UInt8} {tree : HbTree} {env : Env}
    {pre : List Effect} (h : Headed c (env.mem b) pre d) (hs : d.clientState = .authState)
    (hb : d.buff = .live b) :
    DataStep c b tree env (pre ++ (caseAuth d tree env).effects) (caseAuth d tree env).result := by
  simp only [caseAuth, ofExcept_eq]
  cases hp : d.ptr.deref with
  | error f =>
    simp only [Traced.bind_error, List.append_nil]
    exact .noPtr h hp
  | ok p =>
    have hp : d.ptr = .live p := Ptr.deref_eq_ok.mp hp
    simp only [Traced.bind_ok, List.nil_append]
    by_cases hlen : d.bufferUsed.toNat ≥ p.header.len.toNat
    · rw [if_pos hlen]
      cases p with
      | chat t =>
        simp only [authenticate, bufferMem, hb, hp, Ptr.deref, ofExcept_eq, Traced.bind_ok,
          Traced.pure_eq, Traced.fail, Traced.bind_error, List.append_nil]
        exact .badPtr h hp hs
      | auth t =>
        rw [authenticate_eq hb hp]
        rcases authVerify_cases (loginUser d (env.mem b)) (loginPassword d (env.mem b)) with hv | hv
        · rw [if_neg (by omega)]
          cases hi : tree.hbTreeInsert (loginUser d (env.mem b)) d.fd env.bal with
          | error f =>
            simp only [Traced.bind_error]
            exact .insertFault h hs hp hlen hv hi
          | ok q =>
            obtain ⟨tree', node⟩ := q
            cases node with
            | none =>
              simp only [Traced.bind_ok, sendMessage_eq, resetClient_eq, Traced.pure_eq,
                (by decide : (-1 : Int) < 0), if_true, List.append_nil]
              have hstep := DataStep.notInserted h hs hp hlen hv hi
              simpa [afterLogin, freeEffects, hb, replied, verified, cleared, rejectedRecord] using hstep
            | some a =>
              simp only [Traced.bind_ok, sendMessage_eq, Traced.pure_eq,
                (by decide : ¬ (0 : Int) < 0), if_false]
              by_cases hw : (Write d.fd (replyFrame (ascii ['2', '0', '0'])) env.write).2 < 0
              · have hstep := DataStep.unanswered h hs hp hlen hv hi hw
                simpa [afterLogin, hw, replied, verified] using hstep
              · have hstep := DataStep.accepted h hs hp hlen hv hi (by omega)
                simpa [afterLogin, hw, replied, verified, refreshClient_eq, hb, cleared] using hstep
        · rw [if_pos (by omega)]
          simp only [Traced.bind_ok, sendMessage_eq, resetClient_eq, Traced.pure_eq,
            (by decide : (-1 : Int) < 0), if_true, List.append_nil]
          have hstep := @DataStep.rejected c b tree env _ _ _ h hs hp hlen (by omega)
          simpa [afterLogin, freeEffects, hb, replied, verified, cleared, rejectedRecord] using hstep
    · rw [if_neg hlen]
      simp only [Traced.pure_eq, List.append_nil]
      exact .wait h hp (by omega)

theorem messageBody_step {c d : ClientConnData} {b : List UInt8} {tree : HbTree} {env : Env}
    {pre : List Effect} (h : Headed c (env.mem b) pre d) (hs : d.clientState = .messageState)
    (hb : d.buff = .live b) {m : Act (Option ClientConnData × HbTree)}
    (hm : m = do
      let payload ← Traced.ofExcept d.ptr.deref
      if d.bufferUsed.toNat ≥ payload.header.len.toNat then
        return (some (← forwardChat d tree env), tree)
      else return (some d, tree)) :
    DataStep c b tree env (pre ++ m.effects) m.result := by
  subst hm
  simp only [ofExcept_eq]
  cases hp : d.ptr.deref with
  | error f =>
    simp only [Traced.bind_error, List.append_nil]
    exact .noPtr h hp
  | ok p =>
    have hp : d.ptr = .live p := Ptr.deref_eq_ok.mp hp
    simp only [Traced.bind_ok, List.nil_append]
    by_cases hlen : d.bufferUsed.toNat ≥ p.header.len.toNat
    · rw [if_pos hlen]
      cases p with
      | auth t =>
        simp only [forwardChat, decodeMessageChat, bufferMem, hb, hp, Ptr.deref, ofExcept_eq,
          Traced.bind_ok, Traced.pure_eq, Traced.fail, Traced.bind_error, List.append_nil]
        exact .badPtr h hp hs
      | chat t =>
        rw [forwardChat_eq hb hp]
        cases hdest : tree.hbTreeSearch (chatTo d (env.mem b)) with
        | error f =>
          simp only [Traced.bind_error]
          exact .notForwarded h hs hp hlen (.inl hdest)
        | ok dest =>
          cases hu : d.user with
          | null =>
            simp only [Ptr.deref, Traced.bind_error]
            exact .notForwarded h hs hp hlen (.inr ⟨dest, hdest, by simp [hu, Ptr.deref]⟩)
          | freed =>
            simp only [Ptr.deref, Traced.bind_error]
            exact .notForwarded h hs hp hlen (.inr ⟨dest, hdest, by simp [hu, Ptr.deref]⟩)
          | live user =>
            simp only [Ptr.deref]
            by_cases hfits : (chatFrame d (env.mem b) t.header user).length ≤
                chatBlock d (env.mem b) t.header user
            · rw [inBlock, if_pos hfits]
              simp only [Except.map, Traced.bind_ok, Traced.pure_eq, List.append_nil]
              exact .forwarded h hs hp hlen hdest hu hfits
            · rw [inBlock, if_neg hfits]
              simp only [Except.map, Traced.bind_error]
              exact .overran h hs hp hlen hdest hu (by omega)
    · rw [if_neg hlen]
      simp only [Traced.pure_eq, List.append_nil]
      exact .wait h hp (by omega)

/-- The inversion lemma: what is done with the bytes of a read is a `DataStep` of the record
that has received them. -/
theorem handleData_step {c d : ClientConnData} {b chunk : List UInt8} (tree : HbTree) (env : Env)
    (hd : receive c chunk = .ok d) (hb : d.buff = .live b) :
    DataStep d b tree env (handleData c tree chunk env).effects (handleData c tree chunk env).result := by
  simp only [handleData, hd, ofExcept_eq, Traced.bind_ok, List.nil_append]
  cases hs : d.clientState with
  | errorState => exact .idle (.inl hs)
  | connCloseState => exact .idle (.inr hs)
  | authState => exact caseAuth_step (.auth hs) hs hb
  | initialState =>
    simp only [caseInitial]
    by_cases hused : d.bufferUsed.toNat ≥ SIZE_HEADER
    · rw [if_pos hused, verifyHeader_eq hb]
      by_cases hmagic : ((env.mem b).header d.offset).magic ≠ MAGIC
      · rw [if_pos hmagic]
        simp only [Traced.bind_ok, (by decide : (-1 : Int) < 0), if_true, closeConn_eq,
          Traced.pure_eq, List.append_nil, freeEffects, hb, misuseOf_live, List.nil_append]
        exact .badHeader (.inl hs) hused hmagic
      · rw [if_neg hmagic]
        simp only [Traced.bind_ok, (by decide : ¬ (0 : Int) < 0), if_false]
        exact caseAuth_step (.initial hs hused (not_not.mp hmagic)) rfl hb
    · rw [if_neg hused]
      exact .short (.inl hs) (by omega)
  | messageState =>
    simp only [caseMessage]
    by_cases hused : d.bufferUsed.toNat ≥ SIZE_HEADER
    · rw [if_pos hused]
      by_cases hoff : d.offset = 0
      · rw [if_pos hoff, header_eq hb]
        by_cases hmagic : ((env.mem b).header d.offset).magic ≠ MAGIC
        · rw [if_pos hmagic]
          simp only [Traced.bind_ok, (by decide : (-1 : Int) < 0), if_true, closeConn_eq,
            Traced.pure_eq, List.append_nil, freeEffects, hb, misuseOf_live, List.nil_append]
          exact .badHeader (.inr ⟨hs, hoff⟩) hused hmagic
        · rw [if_neg hmagic]
          simp only [Traced.bind_ok, (by decide : ¬ (0 : Int) < 0), if_false]
          have hstep := Headed.first hs hused hoff (not_not.mp hmagic)
          rw [show withHeader d (.chat ⟨(env.mem b).header d.offset, 0, .null, 0, .null⟩) .messageState
            = { d with ptr := .live (.chat ⟨(env.mem b).header d.offset, 0, .null, 0, .null⟩),
                       offset := d.offset + 8 + 2 + 2 } by rw [withHeader, ← hs]] at hstep
          exact messageBody_step hstep hs hb rfl
      · rw [if_neg hoff]
        simp only [Traced.pure_eq, Traced.bind_ok, (by decide : ¬ (0 : Int) < 0), if_false,
          List.nil_append]
        exact messageBody_step (.chat hs hused hoff) hs hb rfl
    · rw [if_neg hused]
      exact .short (.inr hs) (by omega)

theorem receive_buff {c d : ClientConnData} {chunk : List UInt8} (h : receive c chunk = .ok d) :
    ∃ b, d.buff = .live b := by
  obtain ⟨old, allocd, rfl, _⟩ := receive_ok h
  exact ⟨_, rfl⟩

def arrived (s : ServerState) (fd : Int) (chunk : Chunk) : Option (ClientConnData × List UInt8) :=
  match s.conns fd with
  | none => none
  | some c =>
    match receive c chunk.bytes with
    | .error _ => none
    | .ok d =>
      match d.buff with
      | .live b => some (d, b)
      | _ => none

theorem arrived_eq {s : ServerState} {fd : Int} {chunk : Chunk} {c d : ClientConnData} {b : List UInt8}
    (hc : s.conns fd = some c) (hr : receive c chunk.bytes = .ok d) (hb : d.buff = .live b) :
    arrived s fd chunk = some (d, b) := by simp [arrived, hc, hr, hb]

/-- Everything that can happen at an event. -/
inductive EventStep (s : ServerState) : Event → List Effect → Except Fault ServerState → Prop
  | accept (fd : Int) (junk : Junk) (hpos : 0 ≤ fd) (hfree : s.conns fd = none) :
      EventStep s (.accept fd junk) [.accept fd]
        (.ok { s with conns := Function.update s.conns fd (some (createNewClient fd junk)) })
  | again (fd : Int) : EventStep s (.again fd) [] (.ok s)
  | drop {e : Event} {fd : Int} {c : ClientConnData} (he : e = .epollerr fd ∨ e = .eof fd)
      (hc : s.conns fd = some c) (hu : c.user = .null) :
      EventStep s e (.close c.fd :: freeEffects c) (.ok ⟨Function.update s.conns fd none, s.tree⟩)
  | dropUser {e : Event} {fd : Int} {c : ClientConnData} {u : CString} {tree' : HbTree}
      {found : Bool} (he : e = .epollerr fd ∨ e = .eof fd) (hc : s.conns fd = some c)
      (hu : c.user = .live u) (hr : s.tree.hbTreeRemove u = .ok (tree', found)) :
      EventStep s e (.remove u found :: .close c.fd :: freeEffects c)
        (.ok ⟨Function.update s.conns fd none, tree'⟩)
  | dropFault {e : Event} {fd : Int} {c : ClientConnData} {f : Fault}
      (he : e = .epollerr fd ∨ e = .eof fd) (hc : s.conns fd = some c)
      (hf : c.user = .freed ∧ f = .dangling ∨ ∃ u, c.user = .live u ∧ s.tree.hbTreeRemove u = .error f) :
      EventStep s e [] (.error f)
  | notReceived {fd : Int} {chunk : Chunk} {env : Env} {c : ClientConnData} {f : Fault}
      (hc : s.conns fd = some c) (hr : receive c chunk.bytes = .error f) :
      EventStep s (.data fd chunk env) [] (.error f)
  | data {fd : Int} {chunk : Chunk} {env : Env} {c d : ClientConnData} {b : List UInt8}
      {effs : List Effect} {c' : Option ClientConnData} {tree' : HbTree}
      (hc : s.conns fd = some c) (hr : receive c chunk.bytes = .ok d) (hb : d.buff = .live b)
      (h : DataStep d b s.tree env effs (.ok (c', tree'))) :
      EventStep s (.data fd chunk env) effs (.ok ⟨Function.update s.conns fd c', tree'⟩)
  | dataFault {fd : Int} {chunk : Chunk} {env : Env} {c d : ClientConnData} {b : List UInt8}
      {effs : List Effect} {f : Fault} (hc : s.conns fd = some c)
      (hr : receive c chunk.bytes = .ok d) (hb : d.buff = .live b)
      (h : DataStep d b s.tree env effs (.error f)) :
      EventStep s (.data fd chunk env) effs (.error f)

theorem forall_update {P : Int → ClientConnData → Prop} {conns : Int → Option ClientConnData}
    {fd0 : Int} {c0 : Option ClientConnData} (h0 : ∀ c, c0 = some c → P fd0 c)
    (hother : ∀ fd c, fd ≠ fd0 → conns fd = some c → P fd c) (fd : Int) (c : ClientConnData)
    (hc : Function.update conns fd0 c0 fd = some c) : P fd c := by
  by_cases he : fd = fd0
  · subst he
    rw [Function.update_self] at hc
    exact h0 c hc
  · rw [Function.update_of_ne he] at hc
    exact hother fd c he hc

/-- What a new record has, and the bytes of a read keep, every open record has. -/
theorem EventStep.forall_conns {P : ClientConnData → Prop} {s s' : ServerState} {e : Event}
    {effs : List Effect} (h : EventStep s e effs (.ok s')) (hs : ∀ fd c, s.conns fd = some c → P c)
    (hnew : ∀ fd junk, e = .accept fd junk → P (createNewClient fd junk))
    (hdata : ∀ (chunk : Chunk) (c d c' : ClientConnData) (b : List UInt8) (env : Env) (tree : HbTree),
      P c → receive c chunk.bytes = .ok d → d.buff = .live b →
      DataStep d b s.tree env effs (.ok (some c', tree)) → P c') :
    ∀ fd c, s'.conns fd = some c → P c := by
  cases h with
  | accept fd junk =>
    refine forall_update ?_ fun fd' c _ hc => hs fd' c hc
    rintro _ ⟨⟩
    exact hnew fd junk rfl
  | again => exact hs
  | drop => exact forall_update (by simp) fun fd' c _ hc => hs fd' c hc
  | dropUser => exact forall_update (by simp) fun fd' c _ hc => hs fd' c hc
  | data hc hr hb h =>
    refine forall_update ?_ fun fd' c _ hc => hs fd' c hc
    rintro _ rfl
    exact hdata _ _ _ _ _ _ _ (hs _ _ hc) hr hb h

theorem EventStep.of_forward {s : ServerState} {e : Event} {effs : List Effect}
    {result : Except Fault ServerState} {fd dest : Int} {toUser : CString}
    {frame accepted : List UInt8} (h : EventStep s e effs result)
    (hx : Effect.forward fd toUser dest frame accepted ∈ effs) :
    ∃ fd' chunk env c d b, e = .data fd' chunk env ∧ s.conns fd' = some c ∧
      receive c chunk.bytes = .ok d ∧ d.buff = .live b ∧ ∃ r, DataStep d b s.tree env effs r := by
  cases h with
  | accept => simp at hx
  | again => simp at hx
  | drop => simp [freeEffects] at hx
  | dropUser => simp [freeEffects] at hx
  | dropFault => simp at hx
  | notReceived => simp at hx
  | data hc hr hb h => exact ⟨_, _, _, _, _, _, rfl, hc, hr, hb, _, h⟩
  | dataFault hc hr hb h => exact ⟨_, _, _, _, _, _, rfl, hc, hr, hb, _, h⟩

theorem drop_step {s : ServerState} {e : Event} {fd : Int} {c : ClientConnData}
    (he : e = .epollerr fd ∨ e = .eof fd) (hc : s.conns fd = some c) {m : Act ServerState}
    (hm : m = do
      let tree ← dropClient c s.tree
      return ⟨Function.update s.conns fd none, tree⟩) : EventStep s e m.effects m.result := by
  subst hm
  simp only [dropClient, removeUser]
  cases hu : c.user with
  | null =>
    simp only [Traced.pure_eq, Traced.bind_ok, closeConn_eq, List.nil_append, List.append_nil]
    exact .drop he hc hu
  | freed => exact .dropFault he hc (.inl ⟨hu, rfl⟩)
  | live u =>
    cases hr : s.tree.hbTreeRemove u with
    | error f =>
      simp only [ofExcept_eq, hr, Traced.bind_error]
      exact .dropFault he hc (.inr ⟨u, hu, hr⟩)
    | ok q =>
      obtain ⟨tree', found⟩ := q
      simp only [ofExcept_eq, hr, Traced.bind_ok, emit_eq, Traced.pure_eq, closeConn_eq,
        List.nil_append, List.append_nil, List.singleton_append]
      exact .dropUser he hc hu hr

theorem step_event {s : ServerState} {e : Event} (he : Enabled s e) :
    EventStep s e (step s e).effects (step s e).result := by
  cases e with
  | accept fd junk => exact .accept fd junk he.1 he.2
  | again fd => exact .again fd
  | epollerr fd =>
    obtain ⟨c, hc⟩ := Option.isSome_iff_exists.mp he
    exact drop_step (.inl rfl) hc (by simp only [step, hc])
  | eof fd =>
    obtain ⟨c, hc⟩ := Option.isSome_iff_exists.mp he
    exact drop_step (.inr rfl) hc (by simp only [step, hc])
  | data fd chunk env =>
    obtain ⟨c, hc⟩ := Option.isSome_iff_exists.mp he
    simp only [step, hc]
    cases hr : receive c chunk.bytes with
    | error f =>
      simp only [handleData, hr, ofExcept_eq, Traced.bind_error]
      exact .notReceived hc hr
    | ok d =>
      obtain ⟨b, hb⟩ := receive_buff hr
      have h := handleData_step s.tree env hr hb
      cases hres : (handleData c s.tree chunk.bytes env).result with
      | error f =>
        rw [hres] at h
        rw [Traced.eq_mk hres, Traced.bind_error]
        exact .dataFault hc hr hb h
      | ok q =>
        obtain ⟨c', tree'⟩ := q
        rw [hres] at h
        rw [Traced.eq_mk hres]
        simp only [Traced.bind_ok, Traced.pure_eq, List.append_nil]
        exact .data hc hr hb h

end Server
end TeamsInC
