import Mathlib.Data.List.DropRight
import TeamsInC.Client.Login
import TeamsInC.Client.Typed
import TeamsInC.Lib.Runs

/-!
# The client's main loop

One pass of the loop is one state, in MESSAGE_STATE one option of the menu. Option 3 closes the
connection and makes another; where that fails, `startNewConnection` returns 0 and leaves
`curr_state` as it was, so that the client goes on as if it had logged in, on descriptor 0.
-/

set_option autoImplicit false

namespace TeamsInC
namespace Client
open Bytes

/-- What others see of a client. -/
inductive Deed where
  | connected (fd : Int)
  | closed (fd : Int)
  | login (fd : Int) (bytes : List UInt8)
  | answered (fd : Int) (granted : Bool)
  | sent (fd : Int) (bytes : List UInt8)
  | shown (fd : Int) (msgChat : MessageChat)
deriving DecidableEq

structure Program where
  clientSocket : Int
  currState : State

inductive Dial where
  | refused
  | made (fd : Int)

/-- `startNewConnection`: it sets `curr_state` only where it has a connection. -/
def startNewConnection (currState : State) : Dial → List Deed × Program
  | .refused => ([], ⟨0, currState⟩)
  | .made fd => ([.connected fd], ⟨fd, .initialState⟩)

/-- A pass, with what is typed, what the calls of `write` and `read` return, and what memory held. -/
inductive Pass where
  | login (memory stdin : List UInt8) (write : WriteOracle) (fuel : Nat)
  | answer (beyond : Nat → UInt8) (reads : List Read)
  | option1 (memory stdin : List UInt8) (write : WriteOracle)
  | option2 (beyond : Nat → UInt8) (reads : List Read)
  | option3 (dial : Dial)
  | otherOption

namespace Program

/-- One pass. The loop of INITIAL_STATE may not end, and one that reads may wait. A packet that is
longer than the block it is encoded into is a fault. -/
def step (p : Program) : Pass → Traced Stop Deed Program
  | .login memory stdin write fuel =>
    match scanCredentials stdin with
    | .error f => Traced.fail (.fault f)
    | .ok (user, password) =>
      let outBuffer := loginBuffer memory user password
      if sizeofMessageAuth < outBuffer.length then Traced.fail (.fault .overflow)
      else
        match sendLogin write outBuffer fuel 0 0 with
        | none => Traced.fail .blocked
        | some bytes => ⟨[.login p.clientSocket bytes], .ok { p with currState := .authState }⟩
  | .answer beyond reads =>
    match authState beyond reads with
    | .error stop => Traced.fail stop
    | .ok (state, _) =>
      ⟨[.answered p.clientSocket (state = .messageState)], .ok { p with currState := state }⟩
  | .option1 memory stdin write =>
    match createMessage hostOrder memory stdin 0 with
    | .error f => Traced.fail (.fault f)
    | .ok created =>
      let buff := created.buff.take created.buffUsed
      if created.allocd < buff.length then Traced.fail (.fault .overflow)
      else
        match sendMessage p.clientSocket buff write with
        | none => Traced.fail .blocked
        | some (calls, _) => ⟨[.sent p.clientSocket (bytesAt buff (accepted calls))], .ok p⟩
  | .option2 beyond reads =>
    match receiveMessage beyond reads with
    | .error stop => Traced.fail stop
    | .ok (msgChat, _) => ⟨[.shown p.clientSocket msgChat], .ok p⟩
  | .option3 dial =>
    let (deeds, p') := startNewConnection p.currState dial
    ⟨.closed p.clientSocket :: deeds, .ok p'⟩
  | .otherOption => return p

def stateOf : Pass → State
  | .login _ _ _ _ => .initialState
  | .answer _ _ => .authState
  | _ => .messageState

def Ready (p : Program) (pass : Pass) : Prop := p.currState = stateOf pass

instance (p : Program) (pass : Pass) : Decidable (Ready p pass) :=
  inferInstanceAs (Decidable (p.currState = stateOf pass))

end Program

def Deed.isBoundary : Deed → Bool
  | .connected _ => true
  | .closed _ => true
  | _ => false

def Deed.isChat (fd : Int) : Deed → Bool
  | .sent fd' _ => fd' = fd
  | .shown fd' _ => fd' = fd
  | _ => false

def recent (xs : List Deed) : List Deed := xs.rtakeWhile fun x => !x.isBoundary

theorem recent_snoc {x : Deed} (h : x.isBoundary = false) (xs : List Deed) :
    recent (xs ++ [x]) = recent xs ++ [x] := by
  simp [recent, h]

theorem recent_boundary {x : Deed} (h : x.isBoundary = true) (xs : List Deed) : recent (xs ++ [x]) = [] := by
  simp [recent, h]

/-- A connection on this descriptor is the last that has begun or ended. -/
def OnConnection (xs : List Deed) (fd : Int) : Prop := ∃ before, xs = before ++ .connected fd :: recent xs

/-- A connection has ended, and none has begun since. -/
def Disconnected (xs : List Deed) : Prop := ∃ before fd, xs = before ++ .closed fd :: recent xs

theorem OnConnection.snoc {xs : List Deed} {fd : Int} (h : OnConnection xs fd) {x : Deed}
    (hx : x.isBoundary = false) : OnConnection (xs ++ [x]) fd := by
  obtain ⟨before, hxs⟩ := h
  refine ⟨before, ?_⟩
  rw [recent_snoc hx]
  conv_lhs => rw [hxs]
  simp

theorem Disconnected.snoc {xs : List Deed} (h : Disconnected xs) {x : Deed} (hx : x.isBoundary = false) :
    Disconnected (xs ++ [x]) := by
  obtain ⟨before, fd, hxs⟩ := h
  refine ⟨before, fd, ?_⟩
  rw [recent_snoc hx]
  conv_lhs => rw [hxs]
  simp

/-- The client has taken an answer for "200" on this connection, or there is no connection and the
descriptor is 0. -/
def MayChat (xs : List Deed) (fd : Int) : Prop :=
  (OnConnection xs fd ∧ .answered fd true ∈ recent xs) ∨ fd = 0 ∧ Disconnected xs

theorem MayChat.snoc {xs : List Deed} {fd : Int} (h : MayChat xs fd) {x : Deed}
    (hx : x.isBoundary = false) : MayChat (xs ++ [x]) fd := by
  rcases h with ⟨hon, hgranted⟩ | ⟨hzero, hdisconnected⟩
  · refine .inl ⟨hon.snoc hx, ?_⟩
    rw [recent_snoc hx]
    exact List.mem_append_left _ hgranted
  · exact .inr ⟨hzero, hdisconnected.snoc hx⟩

/-- Whenever a chat packet has gone out or a message has been shown, it could be. -/
def Licensed (xs : List Deed) : Prop :=
  ∀ before x after fd, xs = before ++ x :: after → x.isChat fd → MayChat before fd

theorem licensed_nil : Licensed [] := by
  intro before x after fd h
  simp at h

theorem Licensed.snoc {xs : List Deed} (h : Licensed xs) {x : Deed}
    (hx : ∀ fd, x.isChat fd → MayChat xs fd) : Licensed (xs ++ [x]) := by
  intro before y after fd heq hy
  rcases List.eq_nil_or_concat after with rfl | ⟨after, z, rfl⟩
  · obtain ⟨hbefore, hlast⟩ := List.append_inj' heq rfl
    cases hlast
    exact hbefore ▸ hx fd hy
  · rw [List.concat_eq_append, ← List.cons_append, ← List.append_assoc] at heq
    exact h before y after fd (List.append_inj' heq rfl).1 hy

structure Conduct (xs : List Deed) (p : Program) : Prop where
  connected : p.currState = .initialState ∨ p.currState = .authState → OnConnection xs p.clientSocket
  mayChat : p.currState = .messageState → MayChat xs p.clientSocket
  licensed : Licensed xs

theorem onConnection_connected (xs : List Deed) (fd : Int) : OnConnection (xs ++ [.connected fd]) fd :=
  ⟨xs, by rw [recent_boundary rfl]⟩

theorem disconnected_closed (xs : List Deed) (fd : Int) : Disconnected (xs ++ [.closed fd]) :=
  ⟨xs, fd, by rw [recent_boundary rfl]⟩

theorem conduct_start (dial : Dial) :
    Conduct (startNewConnection .errorState dial).1 (startNewConnection .errorState dial).2 := by
  cases dial with
  | refused => exact ⟨by simp [startNewConnection], by simp [startNewConnection], licensed_nil⟩
  | made fd =>
    refine ⟨fun _ => onConnection_connected [] fd, by simp [startNewConnection], ?_⟩
    exact @Licensed.snoc [] licensed_nil (.connected fd) (by simp [Deed.isChat])

theorem Conduct.step {xs : List Deed} {p p' : Program} (H : Conduct xs p) {pass : Pass} (hready : p.Ready pass)
    (hok : (p.step pass).result = .ok p') : Conduct (xs ++ (p.step pass).effects) p' := by
  have chat {x : Deed} (hx : x.isBoundary = false) (hstate : p.currState = .messageState)
      (hchat : ∀ fd, x.isChat fd → fd = p.clientSocket) : Conduct (xs ++ [x]) p := by
    refine ⟨by simp [hstate], fun h => (H.mayChat h).snoc hx, H.licensed.snoc ?_⟩
    intro fd hfd
    rw [hchat fd hfd]
    exact H.mayChat hstate
  cases pass with
  | login memory stdin write fuel =>
    have hon := H.connected (.inl hready)
    simp only [Program.step] at hok ⊢
    split at hok
    · cases hok
    · split at hok
      · cases hok
      · split at hok
        · cases hok
        · rename_i hfits _ bytes _
          cases hok
          rw [if_neg hfits]
          refine ⟨fun _ => hon.snoc rfl, by simp, H.licensed.snoc (by simp [Deed.isChat])⟩
  | answer beyond reads =>
    have hon := H.connected (.inr hready)
    simp only [Program.step] at hok ⊢
    split at hok
    · cases hok
    · cases hok
      refine ⟨fun _ => hon.snoc rfl, ?_, H.licensed.snoc (by simp [Deed.isChat])⟩
      intro hstate
      refine .inl ⟨hon.snoc rfl, ?_⟩
      simp only at hstate
      rw [recent_snoc rfl, hstate]
      simp
  | option1 memory stdin write =>
    simp only [Program.step] at hok ⊢
    split at hok
    · cases hok
    · split at hok
      · cases hok
      · split at hok
        · cases hok
        · rename_i hfits _ calls _ _
          cases hok
          rw [if_neg hfits]
          exact chat rfl hready (by simp [Deed.isChat])
  | option2 beyond reads =>
    simp only [Program.step] at hok ⊢
    split at hok
    · cases hok
    · cases hok
      exact chat rfl hready (by simp [Deed.isChat])
  | option3 dial =>
    have hstate : p.currState = .messageState := hready
    have hclosed : Licensed (xs ++ [.closed p.clientSocket]) := H.licensed.snoc (by simp [Deed.isChat])
    cases dial with
    | refused =>
      cases hok
      refine ⟨by simp [hstate], ?_, hclosed⟩
      exact fun _ => .inr ⟨rfl, disconnected_closed xs p.clientSocket⟩
    | made fd =>
      cases hok
      have hsplit : xs ++ (p.step (.option3 (.made fd))).effects =
          xs ++ [.closed p.clientSocket] ++ [.connected fd] := by
        rw [List.append_assoc]
        rfl
      rw [hsplit]
      refine ⟨fun _ => onConnection_connected _ fd, by simp, ?_⟩
      exact hclosed.snoc (by simp [Deed.isChat])
  | otherOption =>
    cases hok
    simpa [Program.step] using H

def deeds (dial : Dial) (log : List (Pass × List Deed)) : List Deed :=
  (startNewConnection .errorState dial).1 ++ log.flatMap Prod.snd

theorem run_conduct {dial : Dial} {log : List (Pass × List Deed)} {p : Program}
    (run : Run Program.step Program.Ready (startNewConnection .errorState dial).2 log p) :
    Conduct (deeds dial log) p := by
  refine run.invariant (I := fun log p => Conduct (deeds dial log) p) ?_ ?_
  · simpa [deeds] using conduct_start dial
  · intro log p p' pass H hready hok
    have h := H.step hready hok
    simpa [deeds] using h

/-- A client sends chat packets and shows messages only on a connection on which it has taken an answer
for "200" since it was made, or on descriptor 0 after it has closed a connection and not got
another. -/
theorem chats_when_granted {dial : Dial} {log : List (Pass × List Deed)} {p : Program}
    (run : Run Program.step Program.Ready (startNewConnection .errorState dial).2 log p)
    {before after : List Deed} {x : Deed} {fd : Int} (h : deeds dial log = before ++ x :: after)
    (hx : x.isChat fd) :
    (∃ old, before = old ++ .connected fd :: recent before ∧ .answered fd true ∈ recent before) ∨
      fd = 0 ∧ ∃ old fd', before = old ++ .closed fd' :: recent before := by
  rcases (run_conduct run).licensed before x after fd h hx with ⟨⟨old, hon⟩, hgranted⟩ | ⟨hzero, hdisconnected⟩
  · exact .inl ⟨old, hon, hgranted⟩
  · exact .inr ⟨hzero, hdisconnected⟩

def hiTyped : List UInt8 :=
  ascii ['u', 's', 'e', 'r', '2'] ++ newline :: ascii ['h', 'i'] ++ [newline]

def granted : Chunk := ⟨serverBytes (ascii ['2', '0', '0']), by decide +kernel, by decide +kernel⟩

def orphaned : List (Pass × List Deed) × Program :=
  (Run.exec Program.step (fun p pass => decide (Program.Ready p pass))
    ([], (startNewConnection .errorState (.made 3)).2)
    [.login [] (ascii ['u', 's', 'e', 'r', '1', '\n', 'u', 's', 'e', 'r', '1', '\n']) writeAll 2,
      .answer (fun _ => 0) [.chunk granted], .option1 [] hiTyped writeAll, .option3 .refused,
      .option1 [] hiTyped writeAll]).get (by decide +kernel)

theorem orphaned_chats_when_granted :
    (∃ old, (deeds (.made 3) orphaned.1).dropLast =
        old ++ .connected 0 :: recent (deeds (.made 3) orphaned.1).dropLast ∧
        .answered 0 true ∈ recent (deeds (.made 3) orphaned.1).dropLast) ∨
      (0 : Int) = 0 ∧ ∃ old fd', (deeds (.made 3) orphaned.1).dropLast =
        old ++ .closed fd' :: recent (deeds (.made 3) orphaned.1).dropLast := by
  have hrun : Run Program.step Program.Ready (startNewConnection .errorState (.made 3)).2 orphaned.1 orphaned.2 :=
    Run.run_exec_get (fun _ _ h => by simpa using h) _
  have hlast : deeds (.made 3) orphaned.1 = (deeds (.made 3) orphaned.1).dropLast ++
      .sent 0 (packet MSG_TYPE_CHAT_MSG (ascii ['u', 's', 'e', 'r', '2']) (ascii ['h', 'i'] ++ [0])) :: [] := by
    decide +kernel
  exact chats_when_granted hrun hlast rfl

end Client
end TeamsInC
