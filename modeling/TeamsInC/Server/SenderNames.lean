import TeamsInC.Server.Frames
import TeamsInC.Server.Registration

/-!
# Who a chat frame comes from

A frame goes out under the name that the connection's latest accepted login left in its
record. The history of a connection, from its `accept` on, is read off the log: the bytes
received on it, and the pair accepted last.
-/

set_option autoImplicit false

namespace TeamsInC
namespace Server
open Bytes

def noteReceived (fd : Int) (acc : List UInt8) : Event → List UInt8
  | .accept fd' _ => if fd' = fd then [] else acc
  | .data fd' chunk _ => if fd' = fd then acc ++ chunk.bytes else acc
  | _ => acc

/-- The bytes received on the connection that has the descriptor. -/
def receivedOn (fd : Int) (log : List (Event × List Effect)) : List UInt8 :=
  log.foldl (fun acc p => noteReceived fd acc p.1) []

def noteAccepted (fd : Int) (acc : Option (CString × CString)) : Effect → Option (CString × CString)
  | .accept fd' => if fd' = fd then none else acc
  | .verify fd' _ _ user password true => if fd' = fd then some (user, password) else acc
  | _ => acc

/-- The pair that `AuthVerify` accepted last on that connection. -/
def latestAccepted (fd : Int) (log : List (Event × List Effect)) : Option (CString × CString) :=
  log.foldl (fun acc p => p.2.foldl (noteAccepted fd) acc) none

@[simp] theorem receivedOn_snoc (fd : Int) (log : List (Event × List Effect)) (e : Event)
    (effs : List Effect) : receivedOn fd (log ++ [(e, effs)]) = noteReceived fd (receivedOn fd log) e := by
  simp [receivedOn]

@[simp] theorem latestAccepted_snoc (fd : Int) (log : List (Event × List Effect)) (e : Event)
    (effs : List Effect) :
    latestAccepted fd (log ++ [(e, effs)]) = effs.foldl (noteAccepted fd) (latestAccepted fd log) := by
  simp [latestAccepted]

/-- Two strings after their lengths are among the bytes; of the second one, what a C string
shows of it is enough. -/
def PairIn (bytes : List UInt8) (user password : CString) : Prop :=
  ∃ a b k, toBytes 2 a.length ++ (a ++ (toBytes 2 k ++ b)) <:+: bytes ∧
    (b.length = k ∨ b.length < k ∧ 0 ∈ b) ∧ user = CString.ofBuffer a ∧ password = CString.ofBuffer b

/-- The second length is received, and the second string, or as much of it as a C string shows. -/
def PairReceived (d : ClientConnData) (m : Mem) : Prop :=
  let start := d.offset.toNat + 4 + (m.u16 d.offset.toNat).toNat
  start ≤ d.bufferUsed.toNat ∧
    (start + (m.u16 (m.secondAt d.offset).toNat).toNat ≤ d.bufferUsed.toNat ∨ 0 ∈ m.block.drop start)

instance (d : ClientConnData) (m : Mem) : Decidable (PairReceived d m) :=
  inferInstanceAs (Decidable (_ ∧ (_ ∨ _)))

theorem ofBuffer_append {x y : List UInt8} (h : 0 ∈ x) :
    CString.ofBuffer (x ++ y) = CString.ofBuffer x := by
  apply CString.ext
  induction x with
  | nil => simp at h
  | cons c x ih =>
    by_cases hc : c = 0
    · simp [CString.ofBuffer, hc]
    · have hx : 0 ∈ x := by simpa [Ne.symm hc] using h
      simp only [CString.ofBuffer] at ih ⊢
      simpa [hc] using ih hx

theorem PairReceived.pairIn {d : ClientConnData} {m : Mem} (h : PairReceived d m)
    (hused : m.block.length = d.bufferUsed.toNat) :
    PairIn m.block (loginUser d m) (loginPassword d m) := by
  obtain ⟨hstart, hend⟩ := h
  have hlt := d.bufferUsed.toNat_lt
  obtain ⟨h2, hat, h4⟩ := m.offsets_toNat d.offset (by omega)
  generalize hn : (m.u16 d.offset.toNat).toNat = n at *
  generalize hk : (m.u16 (m.secondAt d.offset).toNat).toNat = k at *
  have hfirst : m.first d.offset = m.slice (d.offset.toNat + 2) n := by rw [Mem.first, h2, hn]
  have hsecond : m.second d.offset = m.slice (d.offset.toNat + 4 + n) k := by
    rw [Mem.second, h4, hk]
  have hblock : m.block.drop d.offset.toNat = toBytes 2 n ++ (m.slice (d.offset.toNat + 2) n ++
      (toBytes 2 k ++ m.block.drop (d.offset.toNat + 4 + n))) := by
    rw [Mem.drop_eq_slice (n := 2) (by omega), Mem.drop_eq_slice (n := n) (by omega),
      Mem.drop_eq_slice (i := d.offset.toNat + 2 + n) (n := 2) (by omega), ← hn, ← hk,
      Mem.toBytes_u16, Mem.toBytes_u16, hn, hat]
    rw [(by omega : d.offset.toNat + 2 + n + 2 = d.offset.toNat + 4 + n)]
  have hinfix {z : List UInt8} (b : List UInt8) (hb : m.block.drop (d.offset.toNat + 4 + n) = b ++ z) :
      toBytes 2 (m.slice (d.offset.toNat + 2) n).length ++ (m.slice (d.offset.toNat + 2) n ++
        (toBytes 2 k ++ b)) <:+: m.block := by
    refine ⟨m.block.take d.offset.toNat, z, ?_⟩
    conv_rhs => rw [← List.take_append_drop d.offset.toNat m.block, hblock, hb]
    simp
  rw [loginUser, loginPassword, hfirst, hsecond]
  rcases hend with hend | hnul
  · exact ⟨_, _, k, hinfix _ (Mem.drop_eq_slice (by omega)), .inl (by simp), rfl, rfl⟩
  · by_cases hlong : d.offset.toNat + 4 + n + k ≤ m.block.length
    · exact ⟨_, _, k, hinfix _ (Mem.drop_eq_slice hlong), .inl (by simp), rfl, rfl⟩
    · obtain ⟨j, hj⟩ : ∃ j, d.offset.toNat + 4 + n + j = m.block.length :=
        ⟨m.block.length - (d.offset.toNat + 4 + n), by omega⟩
      have hdrop : m.block.drop (d.offset.toNat + 4 + n) = m.slice (d.offset.toNat + 4 + n) j := by
        rw [Mem.drop_eq_slice (n := j) (by omega), hj]
        simp
      rw [hdrop] at hnul
      refine ⟨_, m.slice (d.offset.toNat + 4 + n) j, k, hinfix (z := []) _ (by simp [hdrop]),
        .inr ⟨by simp; omega, hnul⟩, rfl, ?_⟩
      rw [(by omega : k = j + (k - j)), Mem.slice_add, ofBuffer_append hnul]

theorem foldl_keep {fd : Int} {acc : Option (CString × CString)} {effs : List Effect}
    (h : ∀ x ∈ effs, noteAccepted fd acc x = acc) : effs.foldl (noteAccepted fd) acc = acc := by
  induction effs with
  | nil => rfl
  | cons x effs ih =>
    rw [List.foldl_cons, h x List.mem_cons_self]
    exact ih fun y hy => h y (List.mem_cons_of_mem _ hy)

theorem Headed.note {c d : ClientConnData} {m : Mem} {pre : List Effect} (h : Headed c m pre d)
    (fd : Int) (acc : Option (CString × CString)) : pre.foldl (noteAccepted fd) acc = acc :=
  foldl_keep fun x hx => by rw [h.eq_decode hx]; rfl

theorem note_misuse {α : Type} (fd fd' : Int) (item : Item) (p : Ptr α)
    (acc : Option (CString × CString)) : (misuseOf fd' item p).foldl (noteAccepted fd) acc = acc := by
  cases p <;> rfl

/-- An accepted login is noted on its own connection only; a session afterwards is the one there
was, or the one just accepted. -/
theorem DataStep.note {c : ClientConnData} {b : List UInt8} {tree tree' : HbTree} {env : Env}
    {effs : List Effect} {c' : Option ClientConnData}
    (h : DataStep c b tree env effs (.ok (c', tree'))) (acc : Option (CString × CString)) :
    (∀ fd, fd ≠ c.fd → effs.foldl (noteAccepted fd) acc = acc) ∧
      ∀ d', c' = some d' → d'.fd = c.fd ∧
        (d'.buff = .null ∧ d'.bufferUsed = 0 ∨ d'.buff = c.buff ∧ d'.bufferUsed = c.bufferUsed) ∧
        (d'.clientState = .messageState →
          c.clientState = .messageState ∧ d'.user = c.user ∧ effs.foldl (noteAccepted c.fd) acc = acc ∨
          ∃ d, headed c (env.mem b) = some d ∧ completesLogin c (env.mem b) ∧
            d.bufferUsed = c.bufferUsed ∧ d'.user = .live (loginUser d (env.mem b)) ∧
            effs.foldl (noteAccepted c.fd) acc =
              some (loginUser d (env.mem b), loginPassword d (env.mem b))) := by
  cases h with
  | idle => exact ⟨fun _ _ => rfl, by rintro _ ⟨⟩; exact ⟨rfl, .inr ⟨rfl, rfl⟩, fun hs => .inl ⟨hs, rfl, rfl⟩⟩⟩
  | short => exact ⟨fun _ _ => rfl, by rintro _ ⟨⟩; exact ⟨rfl, .inr ⟨rfl, rfl⟩, fun hs => .inl ⟨hs, rfl, rfl⟩⟩⟩
  | badHeader => exact ⟨fun fd _ => by simp [noteAccepted, note_misuse], by simp⟩
  | wait h =>
    refine ⟨fun fd _ => h.note fd acc, ?_⟩
    rintro _ ⟨⟩
    exact ⟨h.fd_eq, .inr ⟨h.buff_eq, h.used_eq⟩,
      fun hs => .inl ⟨h.message_iff.mp hs, h.user_eq, h.note _ acc⟩⟩
  | rejected h hs =>
    constructor
    · intro fd hfd
      simp [List.foldl_append, h.note, noteAccepted, fieldsDecoded, verified, replied, note_misuse]
    · rintro _ ⟨⟩
      exact ⟨h.fd_eq, .inl ⟨rfl, rfl⟩, by simp [rejectedRecord]⟩
  | notInserted h hs =>
    constructor
    · intro fd hfd
      simp [List.foldl_append, h.note, noteAccepted, fieldsDecoded, verified, replied, note_misuse,
        h.fd_eq, Ne.symm hfd]
    · rintro _ ⟨⟩
      exact ⟨h.fd_eq, .inl ⟨rfl, rfl⟩, by simp [rejectedRecord]⟩
  | @accepted pre d t tree' a h hs hp hlen hv hi hw =>
    constructor
    · intro fd hfd
      simp [List.foldl_append, h.note, noteAccepted, fieldsDecoded, verified, replied, h.fd_eq,
        Ne.symm hfd]
    · rintro _ ⟨⟩
      refine ⟨h.fd_eq, .inl ⟨rfl, rfl⟩, fun _ => .inr ⟨d, h.headed, h.completesLogin hs hp hlen hv,
        h.used_eq, rfl, ?_⟩⟩
      simp [List.foldl_append, h.note, noteAccepted, fieldsDecoded, verified, replied, h.fd_eq]
  | @unanswered pre d t tree' a h hs hp hlen hv hi hw =>
    constructor
    · intro fd hfd
      simp [List.foldl_append, h.note, noteAccepted, fieldsDecoded, verified, replied, h.fd_eq,
        Ne.symm hfd]
    · rintro _ ⟨⟩
      exact ⟨h.fd_eq, .inr ⟨h.buff_eq, h.used_eq⟩, by simp [afterLogin, hs]⟩
  | @forwarded pre d t dest user h hs =>
    have hkeep (fd : Int) :
      (pre ++ [fieldsDecoded d (env.mem b), .forward d.fd (chatTo d (env.mem b)) dest
        (chatFrame d (env.mem b) t.header user)
        (Write dest (chatFrame d (env.mem b) t.header user) env.write).1]).foldl (noteAccepted fd) acc =
        acc := by
      simp [List.foldl_append, h.note, noteAccepted, fieldsDecoded]
    refine ⟨fun fd _ => hkeep fd, ?_⟩
    rintro _ ⟨⟩
    exact ⟨h.fd_eq, .inl ⟨rfl, rfl⟩, fun hm => .inl ⟨h.message_iff.mp hm, h.user_eq, hkeep _⟩⟩

/-- The buffer holds the last bytes received, and a session has the name accepted last. -/
structure Gated (log : List (Event × List Effect)) (fd : Int) (c : ClientConnData) : Prop where
  fd_eq : c.fd = fd
  buffer : c.buff = .null ∧ c.bufferUsed = 0 ∨
    ∃ b, c.buff = .live b ∧ b.length = c.bufferUsed.toNat ∧ b <:+ receivedOn fd log
  session : c.clientState = .messageState → ∃ user password, c.user = .live user ∧ user ∈ accounts ∧
    latestAccepted fd log = some (user, password) ∧ PairIn (receivedOn fd log) user password

theorem PairIn.mono {bytes bytes' : List UInt8} {user password : CString}
    (h : PairIn bytes user password) (hin : bytes <:+: bytes') : PairIn bytes' user password := by
  obtain ⟨a, b, k, hab, h⟩ := h
  exact ⟨a, b, k, hab.trans hin, h⟩

theorem Gated.other {log : List (Event × List Effect)} {fd : Int} {c : ClientConnData} {e : Event}
    {effs : List Effect} (H : Gated log fd c)
    (hr : noteReceived fd (receivedOn fd log) e = receivedOn fd log)
    (ha : effs.foldl (noteAccepted fd) (latestAccepted fd log) = latestAccepted fd log) :
    Gated (log ++ [(e, effs)]) fd c :=
  ⟨H.fd_eq, by simpa [hr] using H.buffer, by simpa [hr, ha] using H.session⟩

theorem Gated.receive {log : List (Event × List Effect)} {fd : Int} {c d : ClientConnData}
    {chunk : List UInt8} (H : Gated log fd c) (hr : receive c chunk = .ok d) :
    ∃ b, d.buff = .live b ∧ b.length = d.bufferUsed.toNat ∧ b <:+ receivedOn fd log ++ chunk := by
  obtain ⟨old, allocd, rfl, hfit, hold⟩ := receive_ok hr
  have hallocd := allocd.toNat_lt
  have hlen : old.length = c.bufferUsed.toNat ∧ old <:+ receivedOn fd log := by
    rcases H.buffer with ⟨hnull, hused⟩ | ⟨b, hb, hlen, hsuf⟩
    · rcases hold with ⟨_, rfl, _⟩ | ⟨hlive, _⟩
      · exact ⟨by simp [hused], List.nil_suffix⟩
      · rw [hnull] at hlive
        cases hlive
    · rcases hold with ⟨hnull, _⟩ | ⟨hlive, _⟩
      · rw [hb] at hnull
        cases hnull
      · rw [hb] at hlive
        cases hlive
        exact ⟨hlen, hsuf⟩
  refine ⟨_, rfl, ?_, ?_⟩
  · rw [poke_end hlen.1]
    simp only [received, List.length_append, UInt32.toNat_add, UInt32.toNat_ofNat']
    omega
  · rw [poke_end hlen.1]
    obtain ⟨x, hx⟩ := hlen.2
    exact ⟨x, by rw [← List.append_assoc, hx]⟩

theorem completesLogin_verify {c d : ClientConnData} {m : Mem} (h : completesLogin c m)
    (hd : headed c m = some d) : authVerify (loginUser d m) (loginPassword d m) = 0 := by
  simp only [completesLogin, hd] at h
  split at h
  · exact (of_decide_eq_true h).2.2
  · cases h

theorem Gated.data {log : List (Event × List Effect)} {fd : Int} {chunk : Chunk} {env : Env}
    {c d d' : ClientConnData} {b : List UInt8} {tree tree' : HbTree} {effs : List Effect}
    (H : Gated log fd c) (hr : Server.receive c chunk.bytes = .ok d) (hb : d.buff = .live b)
    (h : DataStep d b tree env effs (.ok (some d', tree')))
    (hcond : ∀ x, headed d (env.mem b) = some x → completesLogin d (env.mem b) →
      PairReceived x (env.mem b)) :
    Gated (log ++ [(.data fd chunk env, effs)]) fd d' := by
  obtain ⟨b', hb', hlen, hsuf⟩ := H.receive hr
  obtain rfl : b' = b := by simpa [hb] using hb'.symm
  have hsame := receive_session hr
  have hfd : d.fd = fd := hsame.fd.trans H.fd_eq
  obtain ⟨_, hown⟩ := h.note (latestAccepted fd log)
  obtain ⟨hfd', hbuf, hsession⟩ := hown d' rfl
  have hbytes : noteReceived fd (receivedOn fd log) (.data fd chunk env) =
      receivedOn fd log ++ chunk.bytes := if_pos rfl
  rw [hfd] at hfd' hsession
  refine ⟨hfd', ?_, ?_⟩
  · rw [receivedOn_snoc, hbytes]
    rcases hbuf with hnull | ⟨hbuff, hused⟩
    · exact .inl hnull
    · exact .inr ⟨b', hbuff.trans hb, by rw [hlen, hused], hsuf⟩
  · intro hs
    rw [receivedOn_snoc, latestAccepted_snoc, hbytes]
    rcases hsession hs with ⟨hm, hu, hkeep⟩ | ⟨x, hx, hlogin, hused, hu, hnew⟩
    · rw [hkeep]
      have hm' := hsame.message.mp hm
      obtain ⟨user, password, hcu, hacc, hlatest, hpair⟩ := H.session hm'
      exact ⟨user, password, hu.trans ((hsame.user hm').trans hcu), hacc, hlatest,
        hpair.mono (List.prefix_append _ _).isInfix⟩
    · rw [hnew]
      have hpair := (hcond x hx hlogin).pairIn (by rw [hused]; exact hlen)
      exact ⟨_, _, hu, (authVerify_mem (completesLogin_verify hlogin hx)).1, rfl,
        hpair.mono hsuf.isInfix⟩

/-- The condition on an event: a login that is accepted has been received as far as it is used. -/
def loginReceived (s : ServerState) : Event → Bool
  | .data fd chunk env =>
    match arrived s fd chunk with
    | none => true
    | some (c, b) =>
      match headed c (env.mem b) with
      | none => true
      | some d => completesLogin c (env.mem b) → PairReceived d (env.mem b)
  | _ => true

theorem EventStep.gated {log : List (Event × List Effect)} {s s' : ServerState} {e : Event}
    {effs : List Effect} (h : EventStep s e effs (.ok s')) (hlogin : loginReceived s e)
    (H : ∀ fd c, s.conns fd = some c → Gated log fd c) :
    ∀ fd c, s'.conns fd = some c → Gated (log ++ [(e, effs)]) fd c := by
  have update {fd0 : Int} {c0 : Option ClientConnData}
      (h0 : ∀ c, c0 = some c → Gated (log ++ [(e, effs)]) fd0 c)
      (hr : ∀ fd, fd ≠ fd0 → noteReceived fd (receivedOn fd log) e = receivedOn fd log)
      (ha : ∀ fd, fd ≠ fd0 →
        effs.foldl (noteAccepted fd) (latestAccepted fd log) = latestAccepted fd log) :
      ∀ fd c, Function.update s.conns fd0 c0 fd = some c → Gated (log ++ [(e, effs)]) fd c :=
    forall_update h0 fun fd c he hc => (H fd c hc).other (hr fd he) (ha fd he)
  have closing (c : ClientConnData) (fd : Int) (acc : Option (CString × CString)) :
      (freeEffects c).foldl (noteAccepted fd) acc = acc := by
    simp [freeEffects, List.foldl_append, note_misuse]
  cases h with
  | accept fd junk hpos hfree =>
    refine update ?_ ?_ ?_
    · rintro _ ⟨⟩
      exact ⟨rfl, .inl ⟨rfl, rfl⟩, by simp [createNewClient]⟩
    · intro fd' he
      simp [noteReceived, Ne.symm he]
    · intro fd' he
      simp [noteAccepted, Ne.symm he]
  | again fd => exact fun fd c hc => (H fd c hc).other rfl rfl
  | drop he hc hu =>
    refine update (by simp) ?_ ?_
    · intro fd' _
      rcases he with rfl | rfl <;> rfl
    · intro fd' _
      exact closing _ _ _
  | dropUser he hc hu hr =>
    refine update (by simp) ?_ ?_
    · intro fd' _
      rcases he with rfl | rfl <;> rfl
    · intro fd' _
      exact closing _ _ _
  | @data fd chunk env c d b effs c' tree' hc hr hb h =>
    have hfd : d.fd = fd := (receive_session hr).fd.trans (H fd c hc).fd_eq
    refine update ?_ ?_ ?_
    · rintro d' rfl
      refine (H fd c hc).data hr hb h ?_
      intro x hx hcompletes
      simp only [loginReceived, arrived_eq hc hr hb, hx, decide_eq_true_eq] at hlogin
      exact hlogin hcompletes
    · intro fd' he
      simp [noteReceived, Ne.symm he]
    · intro fd' he
      exact (h.note _).1 fd' (hfd ▸ he)

theorem accounts_short : ∀ u ∈ accounts, u.strlen < 65536 := by decide

/-- As long as every accepted login has been received, and no event goes beyond the blocks of the
server, a chat frame is written only on a connection on which a pair was accepted, and its name is
the user of the latest such pair. -/
theorem forward_names_sender {log : List (Event × List Effect)} {s : ServerState} {e : Event}
    {fd dest : Int} {toUser : CString} {frame accepted : List UInt8}
    (run : Run step (fun s e => (Enabled s e ∧ keepsMemory s e) ∧ loginReceived s e) start log s)
    (he : Enabled s e ∧ keepsMemory s e)
    (hf : .forward fd toUser dest frame accepted ∈ (step s e).effects) :
    ∃ user password header message, latestAccepted fd log = some (user, password) ∧
      PairIn (receivedOn fd log) user password ∧
      frame = headerBytes header ++ fieldBytes user.bytes message ∧
      ∃ chunk env, e = .data fd chunk env := by
  have H : ∀ fd c, s.conns fd = some c → Gated log fd c :=
    run.invariant (I := fun log s => ∀ fd c, s.conns fd = some c → Gated log fd c) (by simp [start])
      fun _ s s' e H ha hok => (hok ▸ step_event ha.1.1 : EventStep s e _ (.ok s')).gated ha.2 H
  obtain ⟨fd', chunk, env, c, d, b, rfl, hc, hr, hb, r, hdata⟩ := (step_event he.1).of_forward hf
  obtain ⟨pre, x, t, user, hx, hs, hp, _, hu, _, hfd, _, hframe⟩ := hdata.of_forward hf
  have hsame := receive_session hr
  have hG := H fd' c hc
  obtain rfl : fd = fd' := by rw [hfd, hx.fd_eq, hsame.fd, hG.fd_eq]
  have hm := hsame.message.mp (hx.message_iff.mp hs)
  obtain ⟨user', password, hcu, hacc, hlatest, hpair⟩ := hG.session hm
  have huser : user' = user := by
    have h := (hx.user_eq.trans (hsame.user hm)).symm.trans hu
    rw [hcu] at h
    cases h
    rfl
  subst huser
  rw [chatFrame_eq x (env.mem b) t.header (accounts_short _ hacc)] at hframe
  exact ⟨user', password, _, _, hlatest, hpair, hframe, chunk, env, rfl⟩

def secondAttempt : List (Event × List Effect) × ServerState :=
  (Run.exec step (fun s e => (decide (Enabled s e) && keepsMemory s e) && loginReceived s e) ([], start)
    [.accept 5 zeroed, gets 5 (packet MSG_TYPE_AUTH (userName '1') (userName '2')), login 5 '3']).get
    (by decide +kernel)

theorem secondAttempt_forward_names_sender :
    ∃ user password header message, latestAccepted 5 secondAttempt.1 = some (user, password) ∧
      PairIn (receivedOn 5 secondAttempt.1) user password ∧
      packet MSG_TYPE_CHAT_MSG (userName '3') (ascii ['h', 'i']) =
        headerBytes header ++ fieldBytes user.bytes message ∧
      ∃ chunk env, chat 5 '3' = .data 5 chunk env :=
  @forward_names_sender secondAttempt.1 secondAttempt.2 (chat 5 '3') 5 5
    (CString.ofBuffer (userName '3')) (packet MSG_TYPE_CHAT_MSG (userName '3') (ascii ['h', 'i']))
    (packet MSG_TYPE_CHAT_MSG (userName '3') (ascii ['h', 'i']))
    (Run.run_exec_get (fun _ _ h => by simpa using h) _) (by decide +kernel) (by decide +kernel)

def borrowedPair : Event :=
  getsIn ⟨fun i => (ascii ['e', 'r', '1'] ++ [0, 5] ++ userName '1').getD i 0, writeAll, 0⟩ 5
    (headerBytes ⟨MAGIC, 16, MSG_TYPE_AUTH⟩ ++ [0, 5] ++ ascii ['u', 's'])

def borrowedLogin : List (Event × List Effect) × ServerState :=
  (Run.exec step (fun s e => decide (Enabled s e)) ([], start) [.accept 5 zeroed, borrowedPair]).get
    (by decide +kernel)

/-- A frame is written on a connection that has never sent an accepted pair. -/
theorem borrowedLogin_forward_unauthenticated :
    ∃ log s e fd toUser dest frame accepted, Run step Enabled start log s ∧ Enabled s e ∧
      .forward fd toUser dest frame accepted ∈ (step s e).effects ∧
      ¬ ∃ user password, latestAccepted fd log = some (user, password) ∧
        PairIn (receivedOn fd log) user password := by
  refine ⟨borrowedLogin.1, borrowedLogin.2, chat 5 '1', 5, CString.ofBuffer (userName '1'), 5,
    packet MSG_TYPE_CHAT_MSG (userName '1') (ascii ['h', 'i']),
    packet MSG_TYPE_CHAT_MSG (userName '1') (ascii ['h', 'i']),
    Run.run_exec_get (fun _ _ h => by simpa using h) _, by decide +kernel, by decide +kernel, ?_⟩
  rintro ⟨user, password, hlatest, a, b, k, hin, _, rfl, rfl⟩
  have huser : latestAccepted 5 borrowedLogin.1 =
      some (CString.ofBuffer (userName '1'), CString.ofBuffer (userName '1')) := by decide +kernel
  rw [huser] at hlatest
  have hu : CString.ofBuffer (userName '1') = CString.ofBuffer a :=
    congrArg Prod.fst (Option.some.inj hlatest)
  have hr : (114 : UInt8) ∈ (CString.ofBuffer a).bytes := by
    rw [← hu]
    decide +kernel
  have ha : (114 : UInt8) ∈ a := (List.takeWhile_sublist _).subset hr
  have hno : (114 : UInt8) ∉ receivedOn 5 borrowedLogin.1 := by decide +kernel
  exact hno (hin.subset (by simp [ha]))

end Server
end TeamsInC
