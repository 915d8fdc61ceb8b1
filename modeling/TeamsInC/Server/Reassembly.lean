import TeamsInC.Lib.Cutting
import TeamsInC.Server.Frames

/-!
# Packets from reads

A record between packets is at rest; the bytes that have arrived since are its buffer, and
from sixteen of them on the header is decoded. So the record is a function of the record at
rest and those bytes, and the only reads that matter are those that complete a packet.
-/

set_option autoImplicit false

namespace TeamsInC
namespace Server
open Bytes

/-- Between packets. -/
structure Rests (c : ClientConnData) : Prop where
  buff : c.buff = .null
  used : c.bufferUsed = 0
  offset : c.offset = 0
  state : c.clientState = .initialState ∨ c.clientState = .messageState

def headedPayload : State → MessageHeader → Payload
  | .initialState, h => .auth ⟨h, 0, .null, 0, .null⟩
  | _, h => .chat ⟨h, 0, .null, 0, .null⟩

def headedState : State → State
  | .initialState => .authState
  | s => s

def filled (c : ClientConnData) (b : List UInt8) : ClientConnData :=
  { c with buff := .live b, bufferUsed := .ofNat b.length, bufferAllocd := .ofNat b.length }

/-- The record at rest after it has got these bytes. -/
def holding (c : ClientConnData) (b : List UInt8) : ClientConnData :=
  if b = [] then c
  else if b.length < SIZE_HEADER then filled c b
  else { filled c b with
    ptr := .live (headedPayload c.clientState (headerOf b)), offset := 12,
    clientState := headedState c.clientState }

def Pending (b : List UInt8) : Prop :=
  b.length < SIZE_HEADER ∨ (headerOf b).magic = MAGIC ∧ b.length < (headerOf b).len.toNat

theorem holding_long {c : ClientConnData} {b : List UInt8} (hb : SIZE_HEADER ≤ b.length) :
    holding c b = { filled c b with
      ptr := .live (headedPayload c.clientState (headerOf b)), offset := 12,
      clientState := headedState c.clientState } := by
  have hne : b ≠ [] := by
    rintro rfl
    simp [SIZE_HEADER, sizeofMessageHeader] at hb
  rw [holding, if_neg hne, if_neg (by omega)]

@[simp] theorem holding_nil (c : ClientConnData) : holding c [] = c := if_pos rfl

theorem receive_holding {c : ClientConnData} {b x : List UInt8} (hc : Rests c)
    (hlen : b.length + x.length < 2 ^ 32) :
    receive (holding c b) x = .ok (filled (holding c b) (b ++ x)) := by
  have hx : (UInt32.ofNat x.length).toNat = x.length :=
    UInt32.toNat_ofNat_of_lt' (by simp [UInt32.size]; omega)
  by_cases hb : b = []
  · subst hb
    simp only [holding_nil, receive, hc.buff, ok_bind, hc.used, hx, UInt32.toNat_zero, Nat.zero_add,
      Nat.le_refl, if_true]
    simp [filled, poke]
  · have hl : (UInt32.ofNat b.length).toNat = b.length :=
      UInt32.toNat_ofNat_of_lt' (by simp [UInt32.size]; omega)
    have hsum : (UInt32.ofNat b.length + UInt32.ofNat x.length).toNat = b.length + x.length := by
      rw [UInt32.toNat_add, hl, hx]
      omega
    have hofNat : UInt32.ofNat b.length + UInt32.ofNat x.length = UInt32.ofNat (b ++ x).length := by
      simp
    have hbuff : (holding c b).buff = .live b ∧ (holding c b).bufferUsed = .ofNat b.length ∧
        (holding c b).bufferAllocd = .ofNat b.length := by
      rw [holding, if_neg hb]
      split <;> exact ⟨rfl, rfl, rfl⟩
    obtain ⟨hbuff, hused, hallocd⟩ := hbuff
    simp only [receive, hbuff, ok_bind, hused, hallocd, hl, hsum, Nat.le_refl, if_true]
    rw [poke_end rfl, hofNat]
    rfl

theorem filled_holding {c : ClientConnData} {b x : List UInt8} (hb : b.length < SIZE_HEADER) :
    filled (holding c b) x = filled c x := by
  simp only [holding, hb, if_true]
  split <;> rfl

theorem headed_holding {c : ClientConnData} {b x : List UInt8} (env : Env) (hc : Rests c)
    (hb : Pending b) (hlen : b.length + x.length < 2 ^ 32) :
    headed (filled (holding c b) (b ++ x)) (env.mem (b ++ x)) =
      if SIZE_HEADER ≤ (b ++ x).length ∧ (headerOf (b ++ x)).magic = MAGIC then
        some (holding c (b ++ x)) else none := by
  have hused : (UInt32.ofNat (b ++ x).length).toNat = (b ++ x).length :=
    UInt32.toNat_ofNat_of_lt' (by simp [UInt32.size]; omega)
  by_cases hshort : b.length < SIZE_HEADER
  · rw [filled_holding hshort]
    by_cases h16 : SIZE_HEADER ≤ (b ++ x).length
    · have h16' : 12 ≤ (b ++ x).length := by
        simp only [SIZE_HEADER, sizeofMessageHeader] at h16
        omega
      rcases hc.state with hs | hs
      · simp only [headed, filled, hs, hused, h16, hc.offset, Env.mem, header_headerOf _ h16',
          true_and]
        by_cases hm : (headerOf (b ++ x)).magic = MAGIC
        · rw [if_pos hm, if_pos hm, holding_long h16]
          simp [withHeader, filled, hc.offset, hs, headedState, headedPayload]
        · rw [if_neg hm, if_neg hm]
      · simp only [headed, filled, hs, hused, h16, hc.offset, Env.mem, header_headerOf _ h16', true_and, if_true,
          ne_eq, not_true_eq_false, if_false]
        by_cases hm : (headerOf (b ++ x)).magic = MAGIC
        · rw [if_pos hm, if_pos hm, holding_long h16]
          simp [withHeader, filled, hc.offset, hs, headedState, headedPayload]
        · rw [if_neg hm, if_neg hm]
    · rcases hc.state with hs | hs
      · simp only [headed, filled, hs, hused, h16, false_and, if_false]
      · simp only [headed, filled, hs, hused, h16, false_and, if_false]
  · have hb16 : SIZE_HEADER ≤ b.length := by omega
    have hmagic : (headerOf b).magic = MAGIC := by
      rcases hb with hb | hb
      · exact absurd hb hshort
      · exact hb.1
    have h16 : SIZE_HEADER ≤ (b ++ x).length := by
      rw [List.length_append]
      omega
    have hsame : headerOf (b ++ x) = headerOf b := by
      refine headerOf_append ?_ x
      simp only [SIZE_HEADER, sizeofMessageHeader] at hb16
      omega
    rw [if_pos ⟨h16, by rw [hsame]; exact hmagic⟩, holding_long hb16, holding_long h16, hsame]
    rcases hc.state with hs | hs
    · simp [headed, filled, hs, headedState]
    · simp only [headed, filled, hs, headedState, hused, h16, if_true]
      rfl

/-- What others can see: replies, insertions, forwarded frames. -/
def isAction : Effect → Bool
  | .insert _ _ => true
  | .reply _ _ _ => true
  | .forward _ _ _ _ _ => true
  | _ => false

def actions (effs : List Effect) : List Effect := effs.filter isAction

@[simp] theorem actions_nil : actions [] = [] := rfl

@[simp] theorem actions_append (xs ys : List Effect) :
    actions (xs ++ ys) = actions xs ++ actions ys :=
  List.filter_append xs ys

@[simp] theorem actions_cons (x : Effect) (xs : List Effect) :
    actions (x :: xs) = if isAction x then x :: actions xs else actions xs := List.filter_cons

@[simp] theorem actions_misuse {α : Type} (fd : Int) (item : Item) (p : Ptr α) :
    actions (misuseOf fd item p) = [] := by cases p <;> rfl

theorem Headed.actions {c d : ClientConnData} {m : Mem} {pre : List Effect} (h : Headed c m pre d) :
    actions pre = [] := by
  refine List.filter_eq_nil_iff.mpr ?_
  intro x hx
  rw [h.eq_decode hx]
  simp [isAction]

/-- No write fails. -/
def Env.Writes (env : Env) : Prop := ∀ call n, 0 < n → env.write call n ≠ none

theorem Write_all {env : Env} (hw : env.Writes) {fd : Int} (hfd : 0 ≤ fd) (buff : List UInt8) :
    Write fd buff env.write = (buff, 0) := by
  rw [Write, if_neg (by omega), writeLoop_all hw (by omega)]
  rfl

theorem Write_writeAll {env : Env} (hw : env.Writes) (fd : Int) (buff : List UInt8) :
    Write fd buff env.write = Write fd buff writeAll := by
  by_cases hfd : fd < 0
  · simp only [Write, if_pos hfd]
  · simp only [Write, if_neg hfd, writeLoop_all hw (by omega : buff.length - 0 < buff.length + 1),
      writeLoop_all writeAll_ne_none (by omega : buff.length - 0 < buff.length + 1)]

/-- A chat packet with this header and these strings, decoded. -/
def decodedChat (h : MessageHeader) (first second : List UInt8) : MessageChat :=
  ⟨h, .ofNat first.length, .live first, .ofNat second.length, .live second⟩

/-- The frame for it, and the size of the block that the frame is built in. -/
def relayed (h : MessageHeader) (first second : List UInt8) (user : CString) : List UInt8 :=
  (updateBuff hostOrder (decodedChat h first second) user).2

def relayedBlock (h : MessageHeader) (first second : List UInt8) (user : CString) : Nat :=
  updateBuffAllocd hostOrder (decodedChat h first second) user

theorem relayed_fits (h : MessageHeader) (first : List UInt8) {second : List UInt8} {user : CString}
    (hfits : sizeofMessageHeader + user.strlen + second.length ≤ 65535) :
    (relayed h first second user).length ≤ relayedBlock h first second user := by
  refine @updateBuff_fits _ _ second _ rfl (UInt16.toNat_ofNat_of_lt' ?_) hfits
  simp only [sizeofMessageHeader, UInt16.size] at *
  omega

theorem relayed_eq {h : MessageHeader} (hmagic : h.magic = MAGIC) (first : List UInt8)
    {second : List UInt8} {user : CString} (hu : user.strlen < 65536) (hm : second.length < 65536) :
    relayed h first second user = packet h.messageType user.bytes second := by
  rw [relayed, decodedChat, updateBuff_frame hostOrder h _ _ second hu hm, hmagic]
  rfl

/-- The replies "401" and "200", taken in full. -/
def refusal (fd : Int) : Effect :=
  .reply fd (replyFrame (ascii ['4', '0', '1'])) (replyFrame (ascii ['4', '0', '1']))

def welcome (fd : Int) : Effect :=
  .reply fd (replyFrame (ascii ['2', '0', '0'])) (replyFrame (ascii ['2', '0', '0']))

/-- What a whole packet does to a record at rest, when no write fails: login, or forwarding. -/
def serve (c : ClientConnData) (tree : HbTree) (bal : Int8) (h : MessageHeader)
    (first second : List UInt8) : Act (ClientConnData × HbTree) :=
  match c.clientState with
  | .messageState => do
    let dest ← Traced.ofExcept (tree.hbTreeSearch (CString.ofBuffer first))
    let user ← Traced.ofExcept c.user.deref
    Traced.emit [.forward c.fd (CString.ofBuffer first) dest (relayed h first second user)
      (Write dest (relayed h first second user) writeAll).1]
    Traced.ofExcept (inBlock (relayedBlock h first second user) (relayed h first second user))
    return (cleared c, tree)
  | _ =>
    let user := CString.ofBuffer first
    if authVerify user (CString.ofBuffer second) < 0 then do
      Traced.emit [refusal c.fd]
      return (rejectedRecord c, tree)
    else do
      let (tree, node) ← Traced.ofExcept (tree.hbTreeInsert user c.fd bal)
      if node = none then
        Traced.emit [refusal c.fd]
        return (rejectedRecord c, tree)
      else
        Traced.emit [.insert user c.fd, welcome c.fd]
        return ({ cleared c with clientState := .messageState, user := .live user }, tree)

section
variable {c : ClientConnData} {tree tree' : HbTree} (bal : Int8) (h : MessageHeader)
  {first : List UInt8} (second : List UInt8)

theorem serve_rejected (tree : HbTree) (hs : c.clientState = .initialState)
    (hv : authVerify (CString.ofBuffer first) (CString.ofBuffer second) < 0) :
    serve c tree bal h first second = ⟨[refusal c.fd], .ok (rejectedRecord c, tree)⟩ := by
  simp only [serve, hs, hv, if_true, emit_eq, Traced.bind_ok, Traced.pure_eq, List.append_nil]

theorem serve_accepted {second : List UInt8} (hs : c.clientState = .initialState)
    (hv : authVerify (CString.ofBuffer first) (CString.ofBuffer second) = 0) {a : Nat}
    (hi : tree.hbTreeInsert (CString.ofBuffer first) c.fd bal = .ok (tree', some a)) :
    serve c tree bal h first second = ⟨[.insert (CString.ofBuffer first) c.fd, welcome c.fd],
      .ok ({ cleared c with clientState := .messageState, user := .live (CString.ofBuffer first) },
        tree')⟩ := by
  simp only [serve, hs, hv, hi, ofExcept_eq, emit_eq, Traced.bind_ok, Traced.pure_eq]
  rfl

theorem serve_insertFault {second : List UInt8} (hs : c.clientState = .initialState)
    (hv : authVerify (CString.ofBuffer first) (CString.ofBuffer second) = 0) {f : Fault}
    (hi : tree.hbTreeInsert (CString.ofBuffer first) c.fd bal = .error f) :
    serve c tree bal h first second = ⟨[], .error f⟩ := by
  simp only [serve, hs, hv, hi, ofExcept_eq]
  rfl

theorem serve_forward (hs : c.clientState = .messageState) {dest : Int} {user : CString}
    (hdest : tree.hbTreeSearch (CString.ofBuffer first) = .ok dest) (hu : c.user = .live user) :
    serve c tree bal h first second = ⟨[.forward c.fd (CString.ofBuffer first) dest
      (relayed h first second user) (Write dest (relayed h first second user) writeAll).1],
      (inBlock (relayedBlock h first second user) (relayed h first second user)).map
        fun _ => (cleared c, tree)⟩ := by
  simp only [serve, hs, hdest, hu, Ptr.deref, ofExcept_eq, emit_eq, Traced.bind_ok, List.nil_append]
  cases inBlock (relayedBlock h first second user) (relayed h first second user) with
  | error f => rfl
  | ok => rfl

theorem serve_chat (hs : c.clientState = .messageState) {dest : Int} {user : CString}
    (hdest : tree.hbTreeSearch (CString.ofBuffer first) = .ok dest) (hu : c.user = .live user)
    (hfits : sizeofMessageHeader + user.strlen + second.length ≤ 65535) :
    serve c tree bal h first second = ⟨[.forward c.fd (CString.ofBuffer first) dest
      (relayed h first second user) (Write dest (relayed h first second user) writeAll).1],
      .ok (cleared c, tree)⟩ := by
  rw [serve_forward bal h second hs hdest hu, inBlock, if_pos (relayed_fits h first hfits)]
  rfl

theorem serve_overruns (hs : c.clientState = .messageState) {dest : Int} {user : CString}
    (hdest : tree.hbTreeSearch (CString.ofBuffer first) = .ok dest) (hu : c.user = .live user)
    (hlong : relayedBlock h first second user < (relayed h first second user).length) :
    serve c tree bal h first second = ⟨[.forward c.fd (CString.ofBuffer first) dest
      (relayed h first second user) (Write dest (relayed h first second user) writeAll).1],
      .error .overflow⟩ := by
  rw [serve_forward bal h second hs hdest hu, inBlock, if_neg (Nat.not_le.mpr hlong)]
  rfl

end

theorem chatMessage_eq (c : ClientConnData) (m : Mem) (h : MessageHeader) :
    chatMessage c m h = decodedChat h (m.first c.offset) (m.second c.offset) := by
  simp [chatMessage, decodedChat, Mem.first, Mem.second]

theorem chatFrame_relayed (c : ClientConnData) (m : Mem) (h : MessageHeader) (user : CString) :
    chatFrame c m h user = relayed h (m.first c.offset) (m.second c.offset) user := by
  rw [chatFrame, relayed, chatMessage_eq]

theorem chatBlock_relayed (c : ClientConnData) (m : Mem) (h : MessageHeader) (user : CString) :
    chatBlock c m h user = relayedBlock h (m.first c.offset) (m.second c.offset) user := by
  rw [chatBlock, relayedBlock, chatMessage_eq]

theorem used_filled {c : ClientConnData} {b : List UInt8} (hb : b.length < 2 ^ 32) :
    (filled c b).bufferUsed.toNat = b.length :=
  UInt32.toNat_ofNat_of_lt' (by simp [UInt32.size]; omega)

section
variable {c d : ClientConnData} {b : List UInt8} {tree : HbTree} {env : Env} {effs : List Effect}
  {result : Except Fault (Option ClientConnData × HbTree)} {p : Payload}

theorem DataStep.of_none (h : DataStep c b tree env effs result) (hn : headed c (env.mem b) = none)
    (hs : c.clientState ≠ .errorState ∧ c.clientState ≠ .connCloseState) :
    c.bufferUsed.toNat < SIZE_HEADER ∧ effs = [] ∧ result = .ok (some c, tree) ∨
      SIZE_HEADER ≤ c.bufferUsed.toNat ∧ actions effs = [] ∧ result = .ok (none, tree) := by
  have no {pre d} (hd : Headed c (env.mem b) pre d) : False := by
    rw [hd.headed] at hn
    cases hn
  cases h with
  | idle h => simp [hs] at h
  | short _ hused => exact .inl ⟨hused, rfl, rfl⟩
  | badHeader _ hused =>
    exact .inr ⟨hused, by simp [isAction], rfl⟩
  | noPtr h => exact (no h).elim
  | wait h => exact (no h).elim
  | badPtr h => exact (no h).elim
  | rejected h => exact (no h).elim
  | insertFault h => exact (no h).elim
  | notInserted h => exact (no h).elim
  | accepted h => exact (no h).elim
  | unanswered h => exact (no h).elim
  | notForwarded h => exact (no h).elim
  | forwarded h => exact (no h).elim
  | overran h => exact (no h).elim

def Matches (s : State) : Payload → Prop
  | .auth _ => s = .authState
  | .chat _ => s = .messageState

theorem DataStep.of_headed (h : DataStep c b tree env effs result)
    (hd : headed c (env.mem b) = some d) (hp : d.ptr = .live p) (hk : Matches d.clientState p)
    (hw : env.Writes) (hfd : 0 ≤ d.fd) :
    d.bufferUsed.toNat < p.header.len.toNat ∧ actions effs = [] ∧ result = .ok (some d, tree) ∨
      p.header.len.toNat ≤ d.bufferUsed.toNat ∧
        actions effs = (serve d tree env.bal p.header ((env.mem b).first d.offset)
          ((env.mem b).second d.offset)).effects ∧
        result = (serve d tree env.bal p.header ((env.mem b).first d.offset)
          ((env.mem b).second d.offset)).result.map fun r => (some r.1, r.2) := by
  have same {pre d'} (h : Headed c (env.mem b) pre d') : d = d' := by
    rw [h.headed] at hd
    exact (Option.some.inj hd).symm
  have both {pre d' p'} (h : Headed c (env.mem b) pre d') (hp' : d'.ptr = .live p') : d = d' ∧ p = p' := by
    obtain rfl := same h
    exact ⟨rfl, Ptr.live.inj (hp.symm.trans hp')⟩
  have h401 : replied d ['4', '0', '1'] env = refusal d.fd := by
    rw [replied, Write_all hw hfd, refusal]
  have h200 : replied d ['2', '0', '0'] env = welcome d.fd := by
    rw [replied, Write_all hw hfd, welcome]
  cases h with
  | idle hs => rcases hs with hs | hs <;> simp [headed, hs] at hd
  | short hs hused => rcases hs with hs | hs <;> simp [headed, hs, Nat.not_le.mpr hused] at hd
  | badHeader hs hused magic =>
    rcases hs with hs | ⟨hs, hoff⟩
    · simp [headed, hs, magic] at hd
    · simp [headed, hs, hoff, hoff ▸ magic] at hd
  | noPtr h hp' =>
    obtain rfl := same h
    simp [hp, Ptr.deref] at hp'
  | wait h hp' hlen =>
    obtain ⟨rfl, rfl⟩ := both h hp'
    exact .inl ⟨hlen, h.actions, rfl⟩
  | badPtr h hp' hkind =>
    obtain ⟨rfl, rfl⟩ := both h hp'
    cases p <;> simp_all [Matches]
  | rejected h hs hp' hlen hv =>
    obtain ⟨rfl, rfl⟩ := both h hp'
    refine .inr ⟨hlen, ?_⟩
    rw [loginUser, loginPassword] at hv
    simp only [serve, hs, hv, if_true, actions_append, h.actions, h401]
    exact ⟨by simp [isAction, fieldsDecoded, verified, refusal], rfl⟩
  | insertFault h hs hp' hlen hv hi =>
    obtain ⟨rfl, rfl⟩ := both h hp'
    refine .inr ⟨hlen, ?_⟩
    rw [loginUser, loginPassword] at hv
    rw [loginUser] at hi
    simp only [serve, hs, hv, hi, actions_append, h.actions, ofExcept_eq]
    exact ⟨by simp [isAction, fieldsDecoded, verified], rfl⟩
  | notInserted h hs hp' hlen hv hi =>
    obtain ⟨rfl, rfl⟩ := both h hp'
    refine .inr ⟨hlen, ?_⟩
    rw [loginUser, loginPassword] at hv
    rw [loginUser] at hi
    simp only [serve, hs, hv, hi, actions_append, h.actions, ofExcept_eq, Traced.bind_ok, if_true,
      h401]
    exact ⟨by simp [isAction, fieldsDecoded, verified, refusal], rfl⟩
  | accepted h hs hp' hlen hv hi =>
    obtain ⟨rfl, rfl⟩ := both h hp'
    refine .inr ⟨hlen, ?_⟩
    rw [loginUser, loginPassword] at hv
    rw [loginUser] at hi
    simp only [serve, hs, hv, hi, actions_append, h.actions, ofExcept_eq, Traced.bind_ok, h200]
    exact ⟨by simp [isAction, fieldsDecoded, verified, loginUser, welcome], rfl⟩
  | unanswered h hs hp' hlen hv hi hw' =>
    obtain rfl := same h
    rw [Write_all hw hfd] at hw'
    simp at hw'
  | notForwarded h hs hp' hlen hf =>
    obtain ⟨rfl, rfl⟩ := both h hp'
    refine .inr ⟨hlen, ?_⟩
    rw [chatTo] at hf
    simp only [serve, hs, actions_append, h.actions, ofExcept_eq]
    rcases hf with hf | ⟨dest, hdest, hf⟩
    · simp only [hf]
      exact ⟨by simp [isAction, fieldsDecoded], rfl⟩
    · simp only [hdest, hf, Traced.bind_ok]
      exact ⟨by simp [isAction, fieldsDecoded], rfl⟩
  | @forwarded pre d' t dest user h hs hp' hlen hdest hu hfits =>
    obtain ⟨rfl, rfl⟩ := both h hp'
    refine .inr ⟨hlen, ?_⟩
    rw [chatTo] at hdest
    rw [chatFrame_relayed, chatBlock_relayed] at hfits
    simp only [serve_forward _ _ _ hs hdest hu, actions_append, h.actions, chatFrame_relayed,
      Write_writeAll hw, Payload.header, inBlock, if_pos hfits]
    exact ⟨by simp [isAction, fieldsDecoded, chatTo], rfl⟩
  | @overran pre d' t dest user h hs hp' hlen hdest hu hlong =>
    obtain ⟨rfl, rfl⟩ := both h hp'
    refine .inr ⟨hlen, ?_⟩
    rw [chatTo] at hdest
    rw [chatFrame_relayed, chatBlock_relayed] at hlong
    simp only [serve_forward _ _ _ hs hdest hu, actions_append, h.actions, chatFrame_relayed,
      Write_writeAll hw, Payload.header, inBlock, if_neg (Nat.not_le.mpr hlong)]
    exact ⟨by simp [isAction, fieldsDecoded, chatTo], rfl⟩

end

def seen {α : Type} (m : Act α) : Act α := m.visible isAction

@[simp] theorem seen_pure {α : Type} (a : α) : seen (pure a : Act α) = pure a := rfl

@[simp] theorem seen_bind {α β : Type} (m : Act α) (f : α → Act β) :
    seen (m >>= f) = seen m >>= fun a => seen (f a) := Traced.visible_bind m f

theorem Pending.lt {b : List UInt8} (h : Pending b) : b.length < 65536 := by
  have hlen := (headerOf b).len.toNat_lt
  simp only [Pending, SIZE_HEADER, sizeofMessageHeader] at h
  omega

section
variable {c : ClientConnData} {b : List UInt8} (tree : HbTree) {env : Env}

theorem serve_holding (hc : Rests c) (hb : SIZE_HEADER ≤ b.length) (bal : Int8) (h : MessageHeader)
    (first second : List UInt8) :
    serve (holding c b) tree bal h first second = serve c tree bal h first second := by
  rw [holding_long hb]
  rcases hc.state with hs | hs <;>
    simp only [serve, hs, headedState, filled, cleared, rejectedRecord]

theorem holding_matches (hc : Rests c) (h : MessageHeader) :
    Matches (headedState c.clientState) (headedPayload c.clientState h) := by
  rcases hc.state with hs | hs <;> simp [hs, headedState, headedPayload, Matches]

theorem headedPayload_header (s : State) (h : MessageHeader) : (headedPayload s h).header = h := by
  cases s <;> rfl

/-- The three things that the bytes of a read can come to. -/
theorem read_cases (hc : Rests c) (hb : Pending b) (chunk : Chunk) (hw : env.Writes) (hfd : 0 ≤ c.fd) :
    Pending (b ++ chunk.bytes) ∧ seen (handleData (holding c b) tree chunk.bytes env) =
        pure (some (holding c (b ++ chunk.bytes)), tree) ∨
      (SIZE_HEADER ≤ (b ++ chunk.bytes).length ∧ (headerOf (b ++ chunk.bytes)).magic ≠ MAGIC) ∧
        seen (handleData (holding c b) tree chunk.bytes env) = pure (none, tree) ∨
      (SIZE_HEADER ≤ (b ++ chunk.bytes).length ∧ (headerOf (b ++ chunk.bytes)).magic = MAGIC ∧
          (headerOf (b ++ chunk.bytes)).len.toNat ≤ (b ++ chunk.bytes).length) ∧
        seen (handleData (holding c b) tree chunk.bytes env) =
          serve c tree env.bal (headerOf (b ++ chunk.bytes))
            ((env.mem (b ++ chunk.bytes)).first 12) ((env.mem (b ++ chunk.bytes)).second 12) >>=
            fun r => pure (some r.1, r.2) := by
  have hlt := hb.lt
  have hle := chunk.le
  have hpos := chunk.pos
  have hlen : b.length + chunk.bytes.length < 2 ^ 32 := by omega
  have hstep := handleData_step tree env (receive_holding hc hlen) rfl
  have hheaded := headed_holding env hc hb hlen
  have hused :
      (filled (holding c b) (b ++ chunk.bytes)).bufferUsed.toNat = (b ++ chunk.bytes).length :=
    used_filled (by rw [List.length_append]; omega)
  generalize hq : b ++ chunk.bytes = q at *
  have hne : q ≠ [] := by
    rintro rfl
    simp [List.append_eq_nil_iff] at hq
    simp [hq.2] at hpos
  generalize handleData (holding c b) tree chunk.bytes env = m at *
  by_cases hcond : SIZE_HEADER ≤ q.length ∧ (headerOf q).magic = MAGIC
  · rw [if_pos hcond] at hheaded
    obtain ⟨h16, hmagic⟩ := hcond
    have hlong := holding_long (c := c) h16
    have hqused : (holding c q).bufferUsed.toNat = q.length := by
      rw [hlong]
      exact used_filled (c := c) (by rw [← hq, List.length_append]; omega)
    have hqoff : (holding c q).offset = 12 := by rw [hlong]
    have hqfd : 0 ≤ (holding c q).fd := by rw [hlong]; exact hfd
    have hcases := hstep.of_headed hheaded (p := headedPayload c.clientState (headerOf q))
      (by rw [hlong]) (by rw [hlong]; exact holding_matches hc _) hw hqfd
    rw [hqused, hqoff, headedPayload_header, serve_holding tree hc h16] at hcases
    rcases hcases with ⟨hshort, hact, hres⟩ | ⟨hfull, hact, hres⟩
    · refine .inl ⟨.inr ⟨hmagic, hshort⟩, ?_⟩
      simp only [seen, Traced.visible, hres]
      exact congrArg (Traced.mk · _) hact
    · refine .inr (.inr ⟨⟨h16, hmagic, hfull⟩, ?_⟩)
      simp only [seen, Traced.visible, hres]
      generalize serve c tree env.bal (headerOf q) ((env.mem q).first 12) ((env.mem q).second 12) = n at *
      obtain ⟨effs, r⟩ := n
      refine (congrArg (Traced.mk · _) hact).trans ?_
      cases r <;> simp [Except.map]
  · rw [if_neg hcond] at hheaded
    have hstate : (filled (holding c b) q).clientState ≠ .errorState ∧
        (filled (holding c b) q).clientState ≠ .connCloseState := by
      simp only [holding, filled]
      rcases hc.state with hs | hs <;> split <;> try split
      all_goals simp [hs, headedState]
    rcases hstep.of_none hheaded hstate with ⟨hshort, heff, hres⟩ | ⟨hlong, hact, hres⟩
    · rw [hused] at hshort
      refine .inl ⟨.inl hshort, ?_⟩
      have hbshort : b.length < SIZE_HEADER := by
        rw [← hq, List.length_append] at hshort
        omega
      rw [Traced.eq_mk hres, heff, filled_holding hbshort, holding, if_neg hne, if_pos hshort]
      rfl
    · rw [hused] at hlong
      refine .inr (.inl ⟨⟨hlong, fun hm => hcond ⟨hlong, hm⟩⟩, ?_⟩)
      simp only [seen, Traced.visible, hres]
      exact congrArg (Traced.mk · _) hact

end

theorem headerOf_wire (p : Packet) (x : List UInt8) : headerOf (p.wire ++ x) = p.header := by
  rw [p.wire_eq, List.append_assoc]
  exact headerOf_headerBytes _ _

theorem headerOf_prefix {p : Packet} {b y : List UInt8} (h : b ++ y = p.wire)
    (hb : SIZE_HEADER ≤ b.length) : headerOf b = p.header := by
  simp only [SIZE_HEADER, sizeofMessageHeader] at hb
  rw [← headerOf_append (by omega) y, h, ← headerOf_wire p [], List.append_nil]

theorem pending_of_prefix {p : Packet} {b y : List UInt8} (h : b ++ y = p.wire) (hy : y ≠ []) :
    Pending b := by
  have hlen := congrArg List.length h
  have hpos := List.length_pos_iff.mpr hy
  rw [List.length_append] at hlen
  by_cases hb : b.length < SIZE_HEADER
  · exact .inl hb
  · rw [Pending, headerOf_prefix h (by omega), p.header_len]
    exact .inr ⟨rfl, by omega⟩

theorem strings_of_wire (env : Env) (p : Packet) (z : List UInt8) :
    (env.mem (p.wire ++ z)).first 12 = p.first ∧ (env.mem (p.wire ++ z)).second 12 = p.second := by
  have hfits := p.fits
  have h :=
    Mem.fields_at (m := env.mem (p.wire ++ z)) (x := headerBytes p.header) (z := z) (a := p.first)
    (b := p.second) (by simp [Env.mem, p.wire_eq]) (by simp : _ = (12 : UInt32).toNat) (by omega)
    (by omega) (by simp; omega)
  exact ⟨h.1, h.2.1⟩

def servePacket (c : ClientConnData) (tree : HbTree) (bal : Int8) (p : Packet) :
    Act (ClientConnData × HbTree) :=
  serve c tree bal p.header p.first p.second

theorem serve_rests {c c' : ClientConnData} {tree tree' : HbTree} {bal : Int8} {h : MessageHeader}
    {first second : List UInt8} (hc : Rests c)
    (hok : (serve c tree bal h first second).result = .ok (c', tree')) : Rests c' ∧ c'.fd = c.fd := by
  simp only [serve] at hok
  rcases hc.state with hs | hs
  · simp only [hs] at hok
    split at hok
    · cases hok
      exact ⟨⟨rfl, rfl, rfl, .inl rfl⟩, rfl⟩
    · simp only [Traced.result_bind_ok] at hok
      obtain ⟨⟨tree0, node⟩, _, hok⟩ := hok
      simp only at hok
      split at hok
      · cases hok
        exact ⟨⟨rfl, rfl, rfl, .inl rfl⟩, rfl⟩
      · cases hok
        exact ⟨⟨rfl, rfl, rfl, .inr rfl⟩, rfl⟩
  · simp only [hs, Traced.result_bind_ok] at hok
    obtain ⟨dest, _, user, _, _, _, _, _, hok⟩ := hok
    cases hok
    exact ⟨⟨rfl, rfl, rfl, .inr hs⟩, rfl⟩

/-- The reads of a connection, while it is open. -/
def feed : Option ClientConnData → HbTree → List (Chunk × Env) →
    Act (Option ClientConnData × HbTree)
  | none, tree, _ => return (none, tree)
  | some c, tree, [] => return (some c, tree)
  | some c, tree, (chunk, env) :: rest => do
    let (c, tree) ← handleData c tree chunk.bytes env
    feed c tree rest

def reads (fd : Int) (rs : List (Chunk × Env)) : List Event := rs.map fun r => .data fd r.1 r.2

theorem steps_reads (fd : Int) (rs : List (Chunk × Env)) {s : ServerState}
    {c : Option ClientConnData} (hc : s.conns fd = c) :
    steps s (reads fd rs) =
      feed c s.tree rs >>= fun r => pure ⟨Function.update s.conns fd r.1, r.2⟩ := by
  induction rs generalizing s c with
  | nil =>
    subst hc
    cases h : s.conns fd <;> simp [reads, steps, feed, ← h]
  | cons r rs ih =>
    obtain ⟨chunk, env⟩ := r
    simp only [reads, List.map_cons, steps, step] at ih ⊢
    subst hc
    cases h : s.conns fd with
    | none =>
      simp only [pure_bind, feed]
      rw [ih h]
      cases rs <;> simp [feed]
    | some c =>
      simp only [feed, bind_assoc, pure_bind]
      refine Traced.bind_congr_ok ?_
      intro q _
      obtain ⟨c', tree'⟩ := q
      rw [ih (s := ⟨Function.update s.conns fd c', tree'⟩) (c := c') (by simp)]
      simp

theorem seen_steps_reads {fd : Int} (rs : List (Chunk × Env)) {s : ServerState}
    {c : Option ClientConnData} (hc : s.conns fd = c) :
    seen (steps s (reads fd rs)) =
      seen (feed c s.tree rs) >>= fun r => pure ⟨Function.update s.conns fd r.1, r.2⟩ := by
  rw [steps_reads fd rs hc, seen_bind]
  rfl

theorem feed_append (c : Option ClientConnData) (tree : HbTree) (g rest : List (Chunk × Env)) :
    feed c tree (g ++ rest) = feed c tree g >>= fun r => feed r.1 r.2 rest := by
  induction g generalizing c tree with
  | nil => cases c <;> simp [feed]
  | cons r g ih =>
    cases c with
    | none => cases rest <;> simp [feed]
    | some c =>
      simp only [List.cons_append, feed, bind_assoc]
      exact Traced.bind_congr_ok fun q _ => ih q.1 q.2

def bytesOf (r : Chunk × Env) : List UInt8 := r.1.bytes

def Writable (rs : List (Chunk × Env)) : Prop := ∀ r ∈ rs, r.2.Writes

/-- Moreover a node made then starts with `bal`. -/
def Fine (bal : Int8) (rs : List (Chunk × Env)) : Prop := ∀ r ∈ rs, r.2.Writes ∧ r.2.bal = bal

theorem Fine.writable {bal : Int8} {rs : List (Chunk × Env)} (h : Fine bal rs) : Writable rs :=
  fun r hr => (h r hr).1

section
variable {c : ClientConnData} {b : List UInt8} (tree : HbTree) {bal : Int8}

theorem feed_inside (hc : Rests c) (hfd : 0 ≤ c.fd) {p : Packet} {g : List (Chunk × Env)} {y : List UInt8}
    (hp : b ++ g.flatMap bytesOf ++ y = p.wire) (hy : y ≠ []) (hg : Writable g) :
    seen (feed (some (holding c b)) tree g) = pure (some (holding c (b ++ g.flatMap bytesOf)), tree) := by
  induction g generalizing b with
  | nil => simp only [feed, seen_pure, List.flatMap_nil, List.append_nil]
  | cons r g ih =>
    obtain ⟨chunk, env⟩ := r
    obtain ⟨hw, hg⟩ := List.forall_mem_cons.mp hg
    have hp' : (b ++ chunk.bytes) ++ g.flatMap bytesOf ++ y = p.wire := by
      rw [← hp]
      simp [bytesOf]
    have hb : Pending b := pending_of_prefix (y := chunk.bytes ++ (g.flatMap bytesOf ++ y))
      (by rw [← hp']; simp) (by simp [hy])
    have hq : Pending (b ++ chunk.bytes) := pending_of_prefix (y := g.flatMap bytesOf ++ y)
      (by rw [← hp']; simp) (by simp [hy])
    rcases read_cases tree hc hb chunk hw hfd with ⟨_, hread⟩ | ⟨hcond, _⟩ | ⟨hcond, _⟩
    · simp only [feed, seen_bind, hread, pure_bind]
      rw [ih hp' hg]
      simp [bytesOf]
    · rcases hq with hq | hq
      · omega
      · exact absurd hq.1 hcond.2
    · rcases hq with hq | hq <;> omega

theorem feed_last (hc : Rests c) (hfd : 0 ≤ c.fd) {p : Packet} {chunk : Chunk} {env : Env}
    {x z : List UInt8} (hchunk : chunk.bytes = x ++ z) (hx : x ≠ []) (hp : b ++ x = p.wire)
    (hw : env.Writes) (rest : List (Chunk × Env)) :
    seen (feed (some (holding c b)) tree ((chunk, env) :: rest)) =
      servePacket c tree env.bal p >>= fun r => seen (feed (some r.1) r.2 rest) := by
  have hb : Pending b := pending_of_prefix hp hx
  have hq : b ++ chunk.bytes = p.wire ++ z := by rw [hchunk, ← hp, List.append_assoc]
  have hlen := p.wire_length
  have hfull : p.header.len.toNat ≤ (p.wire ++ z).length := by
    rw [p.header_len, List.length_append]
    omega
  have h16 : SIZE_HEADER ≤ (p.wire ++ z).length := by
    rw [List.length_append]
    simp only [SIZE_HEADER, sizeofMessageHeader]
    omega
  obtain ⟨hfirst, hsecond⟩ := strings_of_wire env p z
  have hread := read_cases tree hc hb chunk hw hfd
  rw [hq, headerOf_wire, hfirst, hsecond] at hread
  rcases hread with ⟨hpend, _⟩ | ⟨hcond, _⟩ | ⟨_, hread⟩
  · rw [Pending, headerOf_wire] at hpend
    rcases hpend with hpend | hpend <;> omega
  · exact absurd rfl hcond.2
  · simp only [feed, seen_bind, hread, bind_assoc, pure_bind]
    rfl

/-- Reads that together bring the packet serve it at the last of them. -/
theorem feed_ends (hc : Rests c) (hfd : 0 ≤ c.fd) {p : Packet} {g : List (Chunk × Env)} {chunk : Chunk}
    {env : Env} (hp : (g ++ [(chunk, env)]).flatMap bytesOf = p.wire) (hg : Writable (g ++ [(chunk, env)]))
    (rest : List (Chunk × Env)) :
    seen (feed (some c) tree (g ++ [(chunk, env)] ++ rest)) =
      servePacket c tree env.bal p >>= fun r => seen (feed (some r.1) r.2 rest) := by
  have hne : chunk.bytes ≠ [] := List.length_pos_iff.mp chunk.pos
  simp only [List.flatMap_append, List.flatMap_singleton] at hp
  obtain ⟨hg, hlast⟩ := List.forall_mem_append.mp hg
  have hinside := feed_inside (b := []) tree hc hfd hp hne hg
  rw [holding_nil, List.nil_append] at hinside
  rw [List.append_assoc, feed_append, seen_bind, hinside, pure_bind]
  exact feed_last (z := []) tree hc hfd (List.append_nil _).symm hne hp (hlast (chunk, env) (by simp)) rest

theorem reads_concat {p : Packet} {rs : List (Chunk × Env)} (h : rs.flatMap bytesOf = p.wire) :
    ∃ g last, rs = g ++ [last] := by
  rcases List.eq_nil_or_concat rs with rfl | ⟨g, last, rfl⟩
  · have hlen := congrArg List.length h
    rw [p.wire_length] at hlen
    simp at hlen
    omega
  · exact ⟨g, last, List.concat_eq_append⟩

theorem feed_packet (hc : Rests c) (hfd : 0 ≤ c.fd) {p : Packet} {g : List (Chunk × Env)}
    (hp : g.flatMap bytesOf = p.wire) (hg : Writable g) :
    ∃ chunk env, (chunk, env) ∈ g ∧ ∀ rest, seen (feed (some c) tree (g ++ rest)) =
      servePacket c tree env.bal p >>= fun r => seen (feed (some r.1) r.2 rest) := by
  obtain ⟨g, ⟨chunk, env⟩, rfl⟩ := reads_concat hp
  exact ⟨chunk, env, by simp, feed_ends tree hc hfd hp hg⟩

end

section
variable {s : ServerState} {fd : Int} {c : ClientConnData} {b y : List UInt8} {chunk : Chunk} {env : Env}
  {p : Packet}

theorem seen_step_data (hconn : s.conns fd = some (holding c b)) :
    seen (step s (.data fd chunk env)) =
      seen (feed (some (holding c b)) s.tree [(chunk, env)]) >>= fun r =>
        pure ⟨Function.update s.conns fd r.1, r.2⟩ := by
  have hsteps : steps s (reads fd [(chunk, env)]) = step s (.data fd chunk env) := bind_pure _
  rw [← hsteps]
  exact seen_steps_reads [(chunk, env)] hconn

theorem step_inside (hconn : s.conns fd = some (holding c b)) (hc : Rests c) (hfd : 0 ≤ c.fd)
    (hw : env.Writes) (hp : b ++ chunk.bytes ++ y = p.wire) (hy : y ≠ []) :
    seen (step s (.data fd chunk env)) =
      ⟨[], .ok ⟨Function.update s.conns fd (some (holding c (b ++ chunk.bytes))), s.tree⟩⟩ := by
  have hbytes : [(chunk, env)].flatMap bytesOf = chunk.bytes := List.append_nil _
  have hinside := feed_inside (g := [(chunk, env)]) s.tree hc hfd (by rwa [hbytes]) hy (by simpa [Writable])
  rw [seen_step_data hconn, hinside, hbytes]
  rfl

theorem step_end (hconn : s.conns fd = some (holding c b)) (hc : Rests c) (hfd : 0 ≤ c.fd)
    (hw : env.Writes) (hp : b ++ chunk.bytes = p.wire) :
    seen (step s (.data fd chunk env)) =
      servePacket c s.tree env.bal p >>= fun r =>
        pure ⟨Function.update s.conns fd (some r.1), r.2⟩ := by
  have hlast := feed_last (z := []) s.tree hc hfd (List.append_nil _).symm
    (List.length_pos_iff.mp chunk.pos) hp hw []
  rw [seen_step_data hconn, hlast, bind_assoc]
  rfl

end

end Server
end TeamsInC
