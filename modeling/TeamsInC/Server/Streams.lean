import TeamsInC.Server.Registration
import TeamsInC.Server.Frames

/-!
# What a connection has been sent

The bytes that the sockets have accepted make up whole frames as long as no write stops in
the middle of one: a frame that has been begun is never finished later.
-/

set_option autoImplicit false

namespace TeamsInC
namespace Server

/-- The bytes of an effect that the socket `fd` has accepted. -/
def acceptedBy (fd : Int) : Effect → List UInt8
  | .reply fd' _ accepted => if fd' = fd then accepted else []
  | .forward _ _ dest _ accepted => if dest = fd then accepted else []
  | _ => []

/-- All that `fd` has accepted since it was last given out. -/
def streamOf (fd : Int) (log : List (Event × List Effect)) : List UInt8 :=
  log.foldl (fun stream p =>
    if .accept fd ∈ p.2 then [] else stream ++ p.2.flatMap (acceptedBy fd)) []

theorem streamOf_snoc (fd : Int) (log : List (Event × List Effect)) (e : Event) (effs : List Effect) :
    streamOf fd (log ++ [(e, effs)]) =
      if .accept fd ∈ effs then [] else streamOf fd log ++ effs.flatMap (acceptedBy fd) := by
  rw [streamOf, List.foldl_append]
  rfl

/-- A complete frame, as the two encoders of the server make them: of a message that `SendMessage`
builds, or of a chat message that has all its bytes and whose frame is in its block. -/
inductive Produced : List UInt8 → Prop
  | message (text : List UInt8) (hlen : 12 + (CString.ofBuffer text).strlen < 65536) :
      Produced ((encodeMessage hostOrder (serverMessage text) []).1.take
        (encodeMessage hostOrder (serverMessage text) []).2)
  | chat (msgChat : MessageChat) (user : CString) (text : List UInt8)
      (hmessage : msgChat.message = .live text) (hlen : msgChat.messageLen.toNat = text.length)
      (hfits : (updateBuff hostOrder msgChat user).2.length ≤ updateBuffAllocd hostOrder msgChat user) :
      Produced (updateBuff hostOrder msgChat user).2

def InFrames (stream : List UInt8) : Prop :=
  ∃ frames : List (List UInt8), stream = frames.flatten ∧ ∀ f ∈ frames, Produced f

theorem InFrames.nil : InFrames [] := ⟨[], rfl, by simp⟩

theorem InFrames.append {stream f : List UInt8} (h : InFrames stream) (hf : Produced f) :
    InFrames (stream ++ f) := by
  obtain ⟨frames, rfl, hframes⟩ := h
  refine ⟨frames ++ [f], by simp, ?_⟩
  intro x hx
  rcases List.mem_append.mp hx with hx | hx
  · exact hframes x hx
  · rw [List.mem_singleton.mp hx]
    exact hf

/-- The first call takes nothing, or no call fails before all `n` bytes are taken. -/
def wholeOrNothing (write : WriteOracle) (n : Nat) : Bool :=
  write 0 n = none ∨ takesAll write n (n + 1) 0 0

theorem Write_whole (fd : Int) {buff : List UInt8} {write : WriteOracle}
    (h : wholeOrNothing write buff.length) :
    (Write fd buff write).1 = [] ∨ (Write fd buff write).1 = buff := by
  rw [Write]
  by_cases hfd : fd < 0
  · left
    rw [if_pos hfd, writeLoop]
    split <;> rfl
  · rw [if_neg hfd]
    rcases of_decide_eq_true h with hnone | hall
    · left
      rw [writeLoop]
      simp only [Nat.sub_zero, hnone]
      split <;> rfl
    · right
      rcases @writeLoop_cases write buff (buff.length + 1) 0 0 (by omega) with
        ⟨_, hloop⟩ | ⟨hno, _⟩
      · rw [hloop, List.drop_zero]
      · rw [hall] at hno
        cases hno

/-- Where the bytes of a read make the server write, and how many bytes. -/
def due (c : ClientConnData) (m : Mem) (tree : HbTree) : Option (Int × Nat) :=
  match headed c m with
  | none => none
  | some d =>
    match d.ptr, d.user with
    | .live (.auth t), _ =>
      if t.header.len.toNat ≤ d.bufferUsed.toNat then some (d.fd, 15) else none
    | .live (.chat t), .live user =>
      match tree.hbTreeSearch (chatTo d m) with
      | .ok dest =>
        if t.header.len.toNat ≤ d.bufferUsed.toNat then
          some (dest, (chatFrame d m t.header user).length)
        else none
      | .error _ => none
    | _, _ => none

/-- A frame due to an open connection is taken whole or not at all. -/
def keepsFrames (s : ServerState) : Event → Bool
  | .data fd chunk env =>
    match arrived s fd chunk with
    | none => true
    | some (c, b) =>
      match due c (env.mem b) s.tree with
      | none => true
      | some (dest, n) => (s.conns dest).isNone ∨ wholeOrNothing env.write n
  | _ => true

section
variable {c d : ClientConnData} {m : Mem} {pre : List Effect}

theorem Headed.accepts_none (h : Headed c m pre d) (fd : Int) : pre.flatMap (acceptedBy fd) = [] := by
  cases h <;> rfl

theorem misuseOf_accepts_none {α : Type} (fd0 : Int) (item : Item) (p : Ptr α) (fd : Int) :
    (misuseOf fd0 item p).flatMap (acceptedBy fd) = [] := by
  cases p <;> rfl

theorem freeEffects_accepts_none (c : ClientConnData) (fd : Int) :
    (freeEffects c).flatMap (acceptedBy fd) = [] := by
  simp only [freeEffects, List.flatMap_append, misuseOf_accepts_none, List.append_nil]

end

theorem reply200_length : (replyFrame (ascii ['2', '0', '0'])).length = 15 := by decide

theorem reply401_length : (replyFrame (ascii ['4', '0', '1'])).length = 15 := by decide

theorem produced_replyFrame {text : List UInt8} (h : (replyFrame text).length < 65536) :
    Produced (replyFrame text) := by
  refine .message text ?_
  rwa [replyFrame_eq, serverBytes, List.length_append, headerBytes_length] at h

/-- What the bytes of a read make the server write: nothing, or one frame to where it is due. -/
theorem DataStep.writes {c : ClientConnData} {b : List UInt8} {tree tree' : HbTree} {env : Env}
    {effs : List Effect} {c' : Option ClientConnData}
    (h : DataStep c b tree env effs (.ok (c', tree'))) :
    (∀ fd, effs.flatMap (acceptedBy fd) = []) ∨
      ∃ dest frame, Produced frame ∧ due c (env.mem b) tree = some (dest, frame.length) ∧
        ∀ fd, effs.flatMap (acceptedBy fd) = if dest = fd then (Write dest frame env.write).1 else [] := by
  have reply {pre d t} {text : List Char} (hd : Headed c (env.mem b) pre d)
      (hp : d.ptr = .live (.auth t)) (hlen : t.header.len.toNat ≤ d.bufferUsed.toNat)
      (htext : (replyFrame (ascii text)).length = 15)
      (heffs : ∀ fd, effs.flatMap (acceptedBy fd) = acceptedBy fd (replied d text env)) :
      ∃ dest frame, Produced frame ∧ due c (env.mem b) tree = some (dest, frame.length) ∧
        ∀ fd, effs.flatMap (acceptedBy fd) = if dest = fd then (Write dest frame env.write).1 else [] := by
    refine ⟨d.fd, replyFrame (ascii text), produced_replyFrame (by omega), ?_, heffs⟩
    rw [htext]
    simp [due, hd.headed, hp, hlen]
  cases h with
  | idle => exact .inl fun _ => rfl
  | short => exact .inl fun _ => rfl
  | badHeader =>
    left
    intro fd
    simp [acceptedBy, misuseOf_accepts_none]
  | wait h => exact .inl h.accepts_none
  | rejected h _ hp hlen =>
    right
    refine reply h hp hlen reply401_length ?_
    intro fd
    simp [h.accepts_none, fieldsDecoded, verified, acceptedBy, misuseOf_accepts_none]
  | notInserted h _ hp hlen =>
    right
    refine reply h hp hlen reply401_length ?_
    intro fd
    simp [h.accepts_none, fieldsDecoded, verified, acceptedBy, misuseOf_accepts_none]
  | accepted h _ hp hlen =>
    right
    refine reply h hp hlen reply200_length ?_
    intro fd
    simp [h.accepts_none, fieldsDecoded, verified, acceptedBy]
  | unanswered h _ hp hlen =>
    right
    refine reply h hp hlen reply200_length ?_
    intro fd
    simp [h.accepts_none, fieldsDecoded, verified, acceptedBy]
  | @forwarded pre d t dest user h _ hp hlen hdest hu hfits =>
    right
    have hmessage := (env.mem b).second_length d.offset
    refine ⟨dest, chatFrame d (env.mem b) t.header user, .chat _ _ _ rfl hmessage.symm hfits, ?_, ?_⟩
    · simp [due, h.headed, hp, hu, hdest, hlen]
    · intro fd
      simp [h.accepts_none, fieldsDecoded, acceptedBy]

theorem DataStep.accepts_no_new {c : ClientConnData} {b : List UInt8} {tree : HbTree} {env : Env}
    {effs : List Effect} {result : Except Fault (Option ClientConnData × HbTree)}
    (h : DataStep c b tree env effs result) (fd : Int) : Effect.accept fd ∉ effs := by
  have no {pre d} (hd : Headed c (env.mem b) pre d) : Effect.accept fd ∉ pre := fun hp => by
    have := hd.eq_decode hp
    cases this
  cases h with
  | idle => simp
  | short => simp
  | badHeader => simp
  | noPtr h => exact no h
  | wait h => exact no h
  | badPtr h => exact no h
  | rejected h => simp [no h, fieldsDecoded, verified, replied]
  | insertFault h => simp [no h, fieldsDecoded, verified]
  | notInserted h => simp [no h, fieldsDecoded, verified, replied]
  | accepted h => simp [no h, fieldsDecoded, verified, replied]
  | unanswered h => simp [no h, fieldsDecoded, verified, replied]
  | notForwarded h => simp [no h, fieldsDecoded]
  | forwarded h => simp [no h, fieldsDecoded]
  | overran h => simp [no h, fieldsDecoded]

def SentFrames (log : List (Event × List Effect)) (s : ServerState) : Prop :=
  ∀ fd, (s.conns fd).isSome → InFrames (streamOf fd log)

theorem SentFrames.step {log : List (Event × List Effect)} {s s' : ServerState} {e : Event}
    {effs : List Effect} (H : SentFrames log s) (h : EventStep s e effs (.ok s'))
    (hk : keepsFrames s e) : SentFrames (log ++ [(e, effs)]) s' := by
  have close {fd0 : Int} {tree : HbTree} (hs : s' = ⟨Function.update s.conns fd0 none, tree⟩)
      (hnew : ∀ fd, Effect.accept fd ∉ effs) (hnone : ∀ fd, effs.flatMap (acceptedBy fd) = []) :
      SentFrames (log ++ [(e, effs)]) s' := by
    intro fd hfd
    rw [streamOf_snoc, if_neg (hnew fd), hnone, List.append_nil]
    apply H
    subst hs
    by_cases he : fd = fd0
    · simp [he] at hfd
    · simpa [he] using hfd
  cases h with
  | accept fd0 junk =>
    intro fd hfd
    rw [streamOf_snoc]
    by_cases he : fd0 = fd
    · rw [if_pos (by simp [he])]
      exact .nil
    · rw [if_neg (by simpa using Ne.symm he)]
      simp only [List.flatMap_cons, List.flatMap_nil, acceptedBy, List.append_nil]
      apply H
      simpa [Ne.symm he] using hfd
  | again =>
    intro fd hfd
    rw [streamOf_snoc, if_neg (by simp), List.flatMap_nil, List.append_nil]
    exact H fd hfd
  | drop =>
    refine close rfl ?_ ?_
    · intro fd
      simp [freeEffects]
    · intro fd
      rw [List.flatMap_cons, freeEffects_accepts_none]
      rfl
  | dropUser =>
    refine close rfl ?_ ?_
    · intro fd
      simp [freeEffects]
    · intro fd
      rw [List.flatMap_cons, List.flatMap_cons, freeEffects_accepts_none]
      rfl
  | @data fd0 chunk env c d b effs c' tree' hc hr hb h =>
    intro fd hfd
    have hopen : (s.conns fd).isSome := by
      by_cases he : fd = fd0
      · simp [he, hc]
      · simpa [he] using hfd
    rw [streamOf_snoc, if_neg (h.accepts_no_new fd)]
    rcases h.writes with hnone | ⟨dest, frame, hframe, hdue, hwritten⟩
    · rw [hnone, List.append_nil]
      exact H fd hopen
    · rw [hwritten]
      by_cases he : dest = fd
      · rw [if_pos he]
        simp only [keepsFrames, arrived_eq hc hr hb, hdue, decide_eq_true_eq] at hk
        have hwhole : wholeOrNothing env.write frame.length := by
          rcases hk with hclosed | hwhole
          · rw [he, Option.isNone_iff_eq_none] at hclosed
            rw [hclosed] at hopen
            cases hopen
          · exact hwhole
        rcases Write_whole dest hwhole with hw | hw
        · rw [hw, List.append_nil]
          exact H fd hopen
        · rw [hw]
          exact (H fd hopen).append hframe
      · rw [if_neg he, List.append_nil]
        exact H fd hopen

/-- As long as no write stops within a frame, what each open connection has been sent is whole
frames. -/
theorem streams_stay_framed {log : List (Event × List Effect)} {s : ServerState}
    (run : Run step (fun s e => (Enabled s e ∧ keepsMemory s e) ∧ keepsFrames s e) start log s)
    {fd : Int} (hfd : (s.conns fd).isSome) : InFrames (streamOf fd log) := by
  have H : SentFrames log s := by
    refine run.invariant (I := SentFrames) ?_ ?_
    · intro fd hfd
      cases hfd
    · intro log s s' e H ha hok
      exact H.step (hok ▸ step_event ha.1.1) ha.2
  exact H fd hfd

def loginIn (env : Env) (fd : Int) (n : Char) : Event :=
  getsIn env fd (packet MSG_TYPE_AUTH (userName n) (userName n))

def refusedOnce : List (Event × List Effect) × ServerState :=
  (Run.exec step (fun s e => (decide (Enabled s e) && keepsMemory s e) && keepsFrames s e) ([], start)
    [.accept 5 zeroed, .accept 6 zeroed, login 5 '1', login 6 '2',
      getsIn { quiet with write := fun _ _ => none } 5
        (packet MSG_TYPE_CHAT_MSG (userName '2') (ascii ['h', 'i'])), chat 5 '2']).get
    (by decide +kernel)

theorem refusedOnce_streams_stay_framed : InFrames (streamOf 6 refusedOnce.1) :=
  @streams_stay_framed refusedOnce.1 refusedOnce.2
    (Run.run_exec_get (fun _ _ h => by simpa using h) _) 6 (by decide +kernel)

theorem length_le_poke (buff : List UInt8) (i : Nat) (b : List UInt8) :
    buff.length ≤ (poke buff i b).length := by
  simp [poke]
  omega

theorem Produced.twelve {f : List UInt8} (h : Produced f) : 12 ≤ f.length := by
  cases h with
  | message text =>
    simp only [encodeMessage, encodeHeader_nil]
    rw [poke_end (headerBytes_length _), List.length_take, List.length_append, headerBytes_length]
    omega
  | chat msgChat user =>
    have grows {buff : List UInt8} {i : Nat} {b : List UInt8} (hbuff : 12 ≤ buff.length) :
        12 ≤ (poke buff i b).length := Nat.le_trans hbuff (length_le_poke buff i b)
    simp only [updateBuff, encodeHeader_nil, List.length_take]
    apply Nat.le_min.mpr
    refine ⟨by omega, ?_⟩
    exact grows (grows (grows (grows (Nat.le_of_eq (headerBytes_length _).symm))))

theorem InFrames.twelve {stream : List UInt8} (h : InFrames stream) (hne : stream ≠ []) :
    12 ≤ stream.length := by
  obtain ⟨frames, rfl, hframes⟩ := h
  cases frames with
  | nil => exact absurd rfl hne
  | cons f frames =>
    have hf := (hframes f List.mem_cons_self).twelve
    rw [List.flatten_cons, List.length_append]
    omega

def fiveBytes : WriteOracle := fun call n => if h : call = 0 ∧ 5 ≤ n then some ⟨4, by omega⟩ else none

def cutReply : List (Event × List Effect) × ServerState :=
  (Run.exec step (fun s e => decide (Enabled s e)) ([], start)
    [.accept 5 zeroed, loginIn { quiet with write := fiveBytes } 5 '1']).get (by decide +kernel)

theorem cutReply_not_framed :
    ∃ log s fd, Run step Enabled start log s ∧ (s.conns fd).isSome ∧ ¬ InFrames (streamOf fd log) := by
  refine ⟨cutReply.1, cutReply.2, 5, Run.run_exec_get (fun _ _ h => by simpa using h) _,
    by decide +kernel, ?_⟩
  intro h
  have hlen : (streamOf 5 cutReply.1).length = 5 := by decide +kernel
  have hne : streamOf 5 cutReply.1 ≠ [] := fun hnil => by simp [hnil] at hlen
  have := h.twelve hne
  omega

end Server
end TeamsInC
