import TeamsInC.Client.Menu
import TeamsInC.Protocol.Authorship
import TeamsInC.Protocol.SendLoops
import TeamsInC.Protocol.TypedMessage

/-!
# The clients of the network run client.c

What a client of the network has done since it was connected is a run of the client's main loop,
as long as the messages written there are such as can be typed. The bytes that the loop and the
server read are those that the other has written, in order and none lost.
-/

set_option autoImplicit false

namespace TeamsInC

namespace Client

def Deed.isOwn : Deed → Bool
  | .login _ _ => true
  | .sent _ _ => true
  | .shown _ _ => true
  | _ => false

def Deed.bytes : Deed → List UInt8
  | .login _ bytes => bytes
  | .sent _ bytes => bytes
  | _ => []

def readBytes (reads : List Read) : List UInt8 :=
  reads.flatMap fun
    | .chunk c => c.bytes
    | _ => []

def Pass.bytes : Pass → List UInt8
  | .answer _ reads => readBytes reads
  | .option2 _ reads => readBytes reads
  | _ => []

theorem readBytes_chunks (cs : List Chunk) : readBytes (chunks cs) = cs.flatMap Chunk.bytes := by
  simp [readBytes, chunks, List.flatMap_map]

end Client

namespace Protocol
open Client Server

/-- Some input makes `createAuthToken` build this attempt: two words. -/
def Attempt.Typable (a : Attempt) : Prop := IsWord a.user ∧ IsWord a.password

/-- Some input makes `createMessage` build this message: a name of one word, and a line, whose newline
becomes the NUL at the end of the text. -/
def Chat.Typable (m : Chat) : Prop :=
  ∃ stdin line more, Typed stdin m.toUser line (some more) ∧ m.text = line ++ [0]

def Network.Move.Typable : Network.Move → Prop
  | .login _ a _ => a.Typable
  | .write _ m _ => m.Typable
  | _ => True

/-- A connection since it was made: what its client has done, and the bytes that the server has read
and written. -/
structure Traffic where
  deeds : List Deed
  read : List UInt8
  written : List UInt8

namespace Traffic

def new : Traffic := ⟨[], [], []⟩

def record (fd : Int) (t : Traffic) : Happening → Traffic
  | .connected fd' => if fd' = fd then new else t
  | .asked fd' a => if fd' = fd then { t with deeds := t.deeds ++ [.login fd a.packet.wire] } else t
  | .typed fd' m => if fd' = fd then { t with deeds := t.deeds ++ [.sent fd m.packet.wire] } else t
  | .shown fd' msgChat => if fd' = fd then { t with deeds := t.deeds ++ [.shown fd msgChat] } else t
  | .server x => { t with written := t.written ++ sentTo fd [x] }

def move (fd : Int) (t : Traffic) (p : Network.Move × List Happening) : Traffic :=
  let t := p.2.foldl (record fd) t
  match p.1 with
  | .serve fd' chunk _ => if fd' = fd then { t with read := t.read ++ chunk.bytes } else t
  | _ => t

theorem record_server (fd : Int) (t : Traffic) (effs : List Effect) :
    (effs.map Happening.server).foldl (record fd) t = { t with written := t.written ++ sentTo fd effs } := by
  induction effs generalizing t with
  | nil => simp [sentTo]
  | cons x effs ih =>
    rw [List.map_cons, List.foldl_cons, ih]
    simp [record, sentTo]

end Traffic

def traffic (fd : Int) (log : List (Network.Move × List Happening)) : Traffic :=
  log.foldl (Traffic.move fd) .new

theorem traffic_snoc (fd : Int) (log : List (Network.Move × List Happening))
    (p : Network.Move × List Happening) : traffic fd (log ++ [p]) = (traffic fd log).move fd p := by
  simp [traffic]

/-- A run of the main loop on one connection does what has been done there, and every byte written is
read or on its way. -/
structure Follows (fd : Int) (t : Traffic) (l : Link) (passes : List (Pass × List Deed)) : Prop where
  run : Run Program.step Program.Ready (startNewConnection .errorState (.made fd)).2 passes ⟨fd, l.state⟩
  deeds : (passes.flatMap Prod.snd).filter Deed.isOwn = t.deeds
  toServer : (passes.flatMap Prod.snd).flatMap Deed.bytes = t.read ++ l.toServer
  toClient : t.written = passes.flatMap (fun p => p.1.bytes) ++ l.got.flatMap Chunk.bytes ++ l.toClient

namespace Follows
variable {fd : Int} {t t' : Traffic} {l l' : Link} {passes : List (Pass × List Deed)}

theorem start (fd : Int) : Follows fd .new ⟨.initialState, [], true, [], []⟩ [] :=
  ⟨.nil, rfl, rfl, rfl⟩

theorem pass (h : Follows fd t l passes) (pass : Pass) (xs : List Deed) (hready : Program.stateOf pass = l.state)
    (hstep : (⟨fd, l.state⟩ : Program).step pass = ⟨xs, .ok ⟨fd, l'.state⟩⟩)
    (hdeeds : t'.deeds = t.deeds ++ xs.filter Deed.isOwn)
    (htoServer : t'.read ++ l'.toServer = t.read ++ l.toServer ++ xs.flatMap Deed.bytes)
    (hwritten : t'.written = t.written)
    (htoClient : l.got.flatMap Chunk.bytes ++ l.toClient =
      pass.bytes ++ l'.got.flatMap Chunk.bytes ++ l'.toClient) :
    Follows fd t' l' (passes ++ [(pass, xs)]) := by
  have hresult := congrArg Traced.result hstep
  have heffects : ((⟨fd, l.state⟩ : Program).step pass).effects = xs := congrArg Traced.effects hstep
  refine ⟨?_, ?_, ?_, ?_⟩
  · have run := h.run.snoc hready.symm hresult
    rwa [heffects] at run
  · rw [hdeeds, ← h.deeds]
    simp
  · rw [htoServer, ← h.toServer]
    simp
  · rw [hwritten, h.toClient]
    simpa using htoClient

end Follows

theorem sendMessage_all {fd : Int} (hfd : 0 ≤ fd) {buff : List UInt8} (hbuff : buff.length < 2 ^ 32) :
    ∃ calls r, sendMessage fd buff writeAll = some (calls, r) ∧ bytesAt buff (accepted calls) = buff := by
  have hsize := toNat_buffSize hbuff
  obtain ⟨calls, r, hrun, _⟩ := @sendLoop_sent (if fd < 0 then fun _ _ => none else writeAll)
    _ _ (buff.length + 1) 0 0 hsize (Nat.zero_le _) (by simp)
  refine ⟨calls, r, hrun, ?_⟩
  have hwrite : Write fd buff writeAll = (bytesAt buff (accepted calls), r) := sendLoop_writeLoop hsize hrun
  have hall : Write fd buff writeAll = (buff, 0) := @Write_all quiet writeAll_ne_none fd hfd buff
  rw [hall] at hwrite
  exact (congrArg Prod.fst hwrite).symm

theorem step_login_pass (fd : Int) {a : Attempt} (ha : a.Typable) (hblock : a.packet.wire.length ≤ sizeofMessageAuth)
    (memory : List UInt8) :
    ∃ stdin fuel, (⟨fd, .initialState⟩ : Program).step (.login memory stdin writeAll fuel) =
      ⟨[.login fd a.packet.wire], .ok ⟨fd, .authState⟩⟩ := by
  have hbuffer : loginBuffer memory a.user a.password = a.packet.wire :=
    loginBuffer_eq (Nat.lt_succ_of_le a.fits) memory
  have hlen : a.packet.wire.length < 2 ^ 64 := by
    have hfits := a.packet.fits
    rw [a.packet.wire_length]
    omega
  obtain ⟨out, hout⟩ := @sendLogin_ends writeAll _ writeAll_ne_none hlen (a.packet.wire.length + 1) 0 0 (by simp)
  have hall : out = a.packet.wire := by simpa using sendLogin_sends writeAll_ne_none hlen hout
  refine ⟨a.user.bytes ++ newline :: (a.password.bytes ++ [newline]), a.packet.wire.length + 1, ?_⟩
  simp only [Program.step, scanCredentials_lines ha.1 ha.2, hbuffer, if_neg (not_lt.mpr hblock), hout, hall]

theorem step_option1 {fd : Int} (hfd : 0 ≤ fd) {m : Chat} (hm : m.Typable) (memory : List UInt8) :
    ∃ stdin, (⟨fd, .messageState⟩ : Program).step (.option1 memory stdin writeAll) =
      ⟨[.sent fd m.packet.wire], .ok ⟨fd, .messageState⟩⟩ := by
  obtain ⟨stdin, line, more, htyped, htext⟩ := hm
  have hfits := m.fits
  rw [htext, List.length_append, List.length_singleton] at hfits
  obtain ⟨created, hcreated, hbytes, hused, hallocd⟩ :=
    createMessage_packet htyped (by rw [sizeofMessageHeader]; omega) memory
  have hwire : created.buff.take created.buffUsed = m.packet.wire := by
    rw [hbytes, ← htext]
    rfl
  obtain ⟨calls, r, hsend, haccepted⟩ := @sendMessage_all fd hfd m.packet.wire (by
    rw [m.packet.wire_length]
    have hpacket := m.packet.fits
    omega)
  have hblock : m.packet.wire.length ≤ created.allocd := by
    have hheader := @packetHeader_len MSG_TYPE_CHAT_MSG m.toUser.bytes m.text m.fits
    rw [hallocd, ← htext, hheader, m.packet.wire_length]
    rfl
  refine ⟨stdin, ?_⟩
  simp only [Program.step, hcreated, hwire, if_neg (not_lt.mpr hblock), hsend, haccepted]

theorem Follows.receive {fd : Int} {t : Traffic} {l l' : Link} {chunk : Chunk} {beyond : Nat → UInt8}
    {ys : List Happening} {passes : List (Pass × List Deed)} (h : Follows fd t l passes)
    (hthere : chunk.bytes <+: l.toClient) (hreceive : l.receive fd chunk beyond = ⟨ys, .ok l'⟩) :
    ∃ passes', Follows fd (ys.foldl (Traffic.record fd) t) l' passes' := by
  have hread : l.got.flatMap Chunk.bytes ++ l.toClient =
      (l.got ++ [chunk]).flatMap Chunk.bytes ++ l.toClient.drop chunk.bytes.length := by
    conv_lhs => rw [← List.prefix_iff_eq_append.mp hthere]
    simp
  have waits : Follows fd t { l with
      got := l.got ++ [chunk], toClient := l.toClient.drop chunk.bytes.length } passes := by
    refine ⟨h.run, h.deeds, h.toServer, ?_⟩
    rw [h.toClient, List.append_assoc, hread, List.append_assoc]
  simp only [Link.receive] at hreceive
  split at hreceive
  · rename_i hs
    split at hreceive
    · cases hreceive
      exact ⟨passes, waits⟩
    · cases hreceive
    · rename_i state rest hauth
      cases hreceive
      refine ⟨_, h.pass (.answer beyond (chunks (l.got ++ [chunk]))) [.answered fd (state = .messageState)]
        hs.symm (by simp only [Program.step, hauth]) ?_ ?_ rfl ?_⟩
      · simp [Deed.isOwn]
      · simp [Deed.bytes]
      · simpa [Pass.bytes, readBytes_chunks] using hread
  · rename_i hs
    split at hreceive
    · cases hreceive
      exact ⟨passes, waits⟩
    · cases hreceive
    · rename_i msgChat rest hmessage
      cases hreceive
      refine ⟨_, h.pass (.option2 beyond (chunks (l.got ++ [chunk]))) [.shown fd msgChat] hs.symm
        (by simp only [Program.step, hmessage, hs]) ?_ ?_ ?_ ?_⟩
      · simp [List.filter_cons, Deed.isOwn, Traced.emit, Traffic.record]
      · simp [Deed.bytes, Traced.emit, Traffic.record]
      · simp [Traced.emit, Traffic.record]
      · simpa [Pass.bytes, readBytes_chunks] using hread
  · cases hreceive
    exact ⟨passes, h⟩

theorem Follows.serve {fd : Int} {t : Traffic} {l : Link} {passes : List (Pass × List Deed)}
    (h : Follows fd t l passes) {bytes : List UInt8} (hthere : bytes <+: l.toServer) (sent : List UInt8) :
    Follows fd { t with read := t.read ++ bytes, written := t.written ++ sent }
      { l with toServer := l.toServer.drop bytes.length, toClient := l.toClient ++ sent } passes := by
  refine ⟨h.run, h.deeds, ?_, ?_⟩
  · rw [h.toServer, List.append_assoc, List.prefix_iff_eq_append.mp hthere]
  · rw [h.toClient, List.append_assoc _ l.toClient]

def Followed (log : List (Network.Move × List Happening)) (net : Network) : Prop :=
  ∀ fd l, net.links fd = some l → 0 ≤ fd ∧ ∃ passes, Follows fd (traffic fd log) l passes

namespace Followed
variable {log : List (Network.Move × List Happening)} {net net' : Network} {fd : Int}

theorem start : Followed [] Network.start := by
  intro fd l hl
  cases hl

theorem client (H : Followed log net) (hfd : 0 ≤ fd) {l : Link} {p : Network.Move × List Happening}
    (hother : ∀ fd' t, fd ≠ fd' → Traffic.move fd' t p = t)
    (h : ∃ passes, Follows fd ((traffic fd log).move fd p) l passes) :
    Followed (log ++ [p]) (net.setLink fd (some l)) := by
  intro fd' l' hl'
  rw [traffic_snoc]
  by_cases he : fd = fd'
  · subst he
    rw [show (net.setLink fd (some l)).links fd = some l from Function.update_self ..] at hl'
    cases hl'
    exact ⟨hfd, h⟩
  · rw [hother fd' _ he]
    exact H fd' l' ((Function.update_of_ne (Ne.symm he) _ _).symm.trans hl')

theorem server (H : Followed log net) {p : Network.Move × List Happening} (effs : List Effect)
    (bytes : Int → List UInt8)
    (hmove : ∀ fd t, Traffic.move fd t p =
      { t with read := t.read ++ bytes fd, written := t.written ++ sentTo fd effs })
    (hlinks : ∀ fd l', net'.links fd = some l' → ∃ l, net.links fd = some l ∧ bytes fd <+: l.toServer ∧
      l' = { l with
        toServer := l.toServer.drop (bytes fd).length, toClient := l.toClient ++ sentTo fd effs }) :
    Followed (log ++ [p]) net' := by
  intro fd l' hl'
  obtain ⟨l, hl, hthere, rfl⟩ := hlinks fd l' hl'
  obtain ⟨hfd, passes, h⟩ := H fd l hl
  rw [traffic_snoc, hmove]
  exact ⟨hfd, passes, h.serve hthere _⟩

theorem close (H : Followed log net) {e : Network.Move} {se : Event}
    (hstep : net.step e = do
      let net ← net.serverStep se
      return net.setLink fd none)
    (hmove : ∀ fd t xs, Traffic.move fd t (e, xs) = xs.foldl (Traffic.record fd) t)
    (hok : (net.step e).result = .ok net') : Followed (log ++ [(e, (net.step e).effects)]) net' := by
  obtain ⟨s', _, rfl, heffects⟩ := Network.step_close hstep hok
  rw [heffects]
  refine H.server (Server.step net.server se).effects (fun _ => []) ?_ ?_
  · intro fd t
    rw [hmove, Traffic.record_server, List.append_nil]
  · intro fd' l' hl'
    by_cases he : fd' = fd
    · subst he
      simp at hl'
    · simp only [Function.update_of_ne he] at hl'
      obtain ⟨l, hl, rfl⟩ := Option.map_eq_some_iff.mp hl'
      exact ⟨l, hl, List.nil_prefix, by simp⟩

theorem step (H : Followed log net) {e : Network.Move} (hp : net.permitted e) (ht : e.Typable)
    (hok : (net.step e).result = .ok net') : Followed (log ++ [(e, (net.step e).effects)]) net' := by
  cases e with
  | finish fd => exact @close _ _ _ fd H _ (.eof fd) rfl (fun _ _ _ => rfl) hok
  | lose fd => exact @close _ _ _ fd H _ (.epollerr fd) rfl (fun _ _ _ => rfl) hok
  | connect fd junk =>
    simp only [Network.permitted, decide_eq_true_eq] at hp
    obtain ⟨rfl, heffects⟩ := Network.step_connect hok
    rw [heffects]
    have hserver : Followed log ⟨{ net.server with
        conns := Function.update net.server.conns fd (some (createNewClient fd junk)) }, net.links⟩ := H
    refine hserver.client hp.1.1 ?_ ⟨[], ?_⟩
    · intro fd' t hne
      simp [Traffic.move, Traffic.record, sentTo, hne]
    · simpa [Traffic.move, Traffic.record] using Follows.start fd
  | login fd a memory =>
    simp only [Network.permitted, Option.any_eq_true, decide_eq_true_eq] at hp
    obtain ⟨l, hl, hopen, hs, hblock⟩ := hp
    obtain ⟨hfd, passes, h⟩ := H fd l hl
    obtain ⟨stdin, fuel, hpass⟩ := step_login_pass fd ht hblock memory
    have hbuffer : loginBuffer memory a.user a.password = a.packet.wire :=
      loginBuffer_eq (Nat.lt_succ_of_le a.fits) memory
    simp only [Network.step, hl] at hok ⊢
    cases hok
    refine H.client hfd ?_ ⟨_, h.pass (.login memory stdin writeAll fuel) _ hs.symm
      (hs ▸ hpass) ?_ ?_ ?_ ?_⟩
    · intro fd' t hne
      simp [Traffic.move, Traffic.record, Traced.emit, hne]
    · simp [Traffic.move, Traffic.record, Traced.emit, List.filter_cons, Deed.isOwn]
    · simp [Traffic.move, Traffic.record, Traced.emit, Deed.bytes, hbuffer]
    · simp [Traffic.move, Traffic.record, Traced.emit]
    · simp [Pass.bytes]
  | write fd m memory =>
    simp only [Network.permitted, Option.any_eq_true, decide_eq_true_eq] at hp
    obtain ⟨l, hl, hopen, hs, _⟩ := hp
    obtain ⟨hfd, passes, h⟩ := H fd l hl
    obtain ⟨stdin, hpass⟩ := step_option1 hfd ht memory
    have hbuffer : chatBuffer memory (chatOf MSG_TYPE_CHAT_MSG m.toUser.bytes m.text) = m.packet.wire :=
      chatBuffer_eq m.fits memory
    simp only [Network.step, hl] at hok ⊢
    cases hok
    refine H.client hfd ?_ ⟨_, h.pass (.option1 memory stdin writeAll) _ hs.symm
      (hs ▸ hpass) ?_ ?_ ?_ ?_⟩
    · intro fd' t hne
      simp [Traffic.move, Traffic.record, Traced.emit, hne]
    · simp [Traffic.move, Traffic.record, Traced.emit, List.filter_cons, Deed.isOwn]
    · simp [Traffic.move, Traffic.record, Traced.emit, Deed.bytes, hbuffer]
    · simp [Traffic.move, Traffic.record, Traced.emit]
    · simp [Pass.bytes]
  | receive fd chunk beyond =>
    simp only [Network.permitted, Option.any_eq_true, decide_eq_true_eq] at hp
    obtain ⟨l, hl, _, _, hthere, _⟩ := hp
    obtain ⟨hfd, passes, h⟩ := H fd l hl
    simp only [Network.step, hl] at hok ⊢
    obtain ⟨l', hreceive, hok⟩ := Traced.result_bind_ok.mp hok
    rw [Traced.eq_mk hreceive]
    cases hok
    simp only [Traced.bind_ok, Traced.pure_eq, List.append_nil]
    refine H.client hfd ?_ (h.receive hthere (Traced.eq_mk hreceive))
    intro fd' t hne
    rcases l.receive_effects fd chunk beyond with heffects | ⟨msgChat, heffects⟩
    · simp [Traffic.move, heffects]
    · simp [Traffic.move, heffects, Traffic.record, hne]
  | serve fd chunk env =>
    simp only [Network.permitted, Option.any_eq_true, decide_eq_true_eq] at hp
    obtain ⟨l, hl, _, hthere, _⟩ := hp
    obtain ⟨s', _, rfl, heffects⟩ := Network.step_serve hl hok
    rw [heffects]
    refine H.server (Server.step net.server (.data fd chunk env)).effects
      (fun fd' => if fd = fd' then chunk.bytes else []) ?_ ?_
    · intro fd' t
      simp only [Traffic.move, Traffic.record_server]
      by_cases he : fd = fd'
      · simp [he]
      · simp [he]
    · intro fd' l' hl'
      obtain ⟨l₁, hl₁, rfl⟩ := Option.map_eq_some_iff.mp hl'
      by_cases he : fd = fd'
      · subst he
        rw [Function.update_self] at hl₁
        cases hl₁
        exact ⟨l, hl, by simpa using hthere, by simp⟩
      · refine ⟨l₁, (Function.update_of_ne (Ne.symm he) _ _).symm.trans hl₁, ?_, ?_⟩
        · simp [he]
        · simp [he]
  | leave fd =>
    simp only [Network.permitted, Option.any_eq_true] at hp
    obtain ⟨l, hl, _⟩ := hp
    simp only [Network.step, hl] at hok ⊢
    cases hok
    obtain ⟨hfd, passes, h⟩ := H fd l hl
    exact H.client hfd (fun _ _ _ => rfl) ⟨passes, h.run, h.deeds, h.toServer, h.toClient⟩

end Followed

theorem run_followed {log : List (Network.Move × List Happening)} {net : Network}
    (run : Run Network.step (fun net e => net.permitted e ∧ e.Typable) Network.start log net) :
    Followed log net :=
  run.invariant (I := Followed) Followed.start fun _ _ _ _ H h hok => H.step h.1 h.2 hok

/-- Every client of the network has run the main loop on its connection and done there what is known of
it. Every byte that the loop has written is read by the server or on its way, and every byte that
the server has written is read by the loop, or by the pass it is in, or on its way. -/
theorem clients_run_program {log : List (Network.Move × List Happening)} {net : Network}
    (run : Run Network.step (fun net e => net.permitted e ∧ e.Typable) Network.start log net)
    {fd : Int} {l : Link} (hl : net.links fd = some l) :
    ∃ passes : List (Pass × List Deed),
      Run Program.step Program.Ready (startNewConnection .errorState (.made fd)).2 passes ⟨fd, l.state⟩ ∧
      (passes.flatMap Prod.snd).filter Deed.isOwn = (traffic fd log).deeds ∧
      (passes.flatMap Prod.snd).flatMap Deed.bytes = (traffic fd log).read ++ l.toServer ∧
      (traffic fd log).written =
        passes.flatMap (fun p => p.1.bytes) ++ l.got.flatMap Chunk.bytes ++ l.toClient := by
  obtain ⟨_, passes, h⟩ := run_followed run fd l hl
  exact ⟨passes, h.run, h.deeds, h.toServer, h.toClient⟩

def hiLine : Chat := ⟨CString.ofBuffer (userName '2'), ascii ['h', 'i'] ++ [0], by decide, by decide⟩

theorem hiLine_typable : hiLine.Typable := by
  refine ⟨hiTyped, ascii ['h', 'i'], [], ⟨⟨[], [], rfl, ?_⟩, ?_, ?_, ?_⟩, rfl⟩ <;> decide +kernel

def chatting : List Network.Move :=
  [.connect 5 zeroed, .connect 6 zeroed, .login 5 user1Attempt [], .login 6 user2Attempt [],
    .serve 5 (piece user1Attempt.packet.wire) quiet, .serve 6 (piece user2Attempt.packet.wire) quiet,
    .receive 6 (piece (grantedAnswer.take 9)) fun _ => 0,
    .receive 6 (piece (grantedAnswer.drop 9)) fun _ => 0, .receive 5 (piece grantedAnswer) fun _ => 0,
    .write 5 hiLine [], .write 5 hiLine [], .serve 5 (piece hiLine.packet.wire) quiet,
    .receive 6 (piece (hiLine.frame user1Attempt.user)) fun _ => 0,
    .serve 5 (piece (hiLine.packet.wire.take 7)) quiet, .serve 5 (piece (hiLine.packet.wire.drop 7)) quiet,
    .receive 6 (piece ((hiLine.frame user1Attempt.user).take 5)) fun _ => 0]

def chatted : List (Network.Move × List Happening) × Network :=
  (Run.exec Network.step Network.permitted ([], Network.start) chatting).get (by decide +kernel)

theorem attempts_typable : user1Attempt.Typable ∧ user2Attempt.Typable := by
  refine ⟨⟨⟨?_, ?_⟩, ⟨?_, ?_⟩⟩, ⟨⟨?_, ?_⟩, ⟨?_, ?_⟩⟩⟩ <;> decide +kernel

theorem chatted_run : Run Network.step (fun net e => net.permitted e ∧ e.Typable) Network.start
    chatted.1 chatted.2 := by
  have run : Run Network.step (fun net e => net.permitted e) Network.start chatted.1 chatted.2 :=
    Run.run_exec_get (fun _ _ h => h) _
  have hevents : chatted.1.map Prod.fst = chatting := Run.exec_events (Option.some_get _).symm
  have hall : ∀ e ∈ chatting, e.Typable := by
    simp [chatting, Network.Move.Typable, hiLine_typable, attempts_typable]
  refine (@Run.log_forall_iff _ _ _ _ _ _ _ _ _ (fun p => p.1.Typable) (fun _ e => e.Typable) run
    fun _ _ _ _ _ _ _ => Iff.rfl).mp ?_
  intro p hp
  exact hall _ (hevents ▸ List.mem_map_of_mem hp)

theorem chatted_client : ∃ l, chatted.2.links 6 = some l :=
  ⟨_, (Option.some_get (by decide +kernel)).symm⟩

theorem chatted_clients_run_program : ∃ l, chatted.2.links 6 = some l ∧
    ∃ passes : List (Pass × List Deed),
      Run Program.step Program.Ready (startNewConnection .errorState (.made 6)).2 passes ⟨6, l.state⟩ ∧
      (passes.flatMap Prod.snd).filter Deed.isOwn = (traffic 6 chatted.1).deeds ∧
      (passes.flatMap Prod.snd).flatMap Deed.bytes = (traffic 6 chatted.1).read ++ l.toServer ∧
      (traffic 6 chatted.1).written =
        passes.flatMap (fun p => p.1.bytes) ++ l.got.flatMap Chunk.bytes ++ l.toClient := by
  obtain ⟨l, hl⟩ := chatted_client
  exact ⟨l, hl, clients_run_program chatted_run hl⟩

end Protocol
end TeamsInC
