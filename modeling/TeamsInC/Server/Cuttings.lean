import TeamsInC.HbTree.Multimap
import TeamsInC.Server.Reassembly
import TeamsInC.Server.Registration

/-!
# How the stream is cut

Reads that end where packets end are as good as whole packets. A read that also brings the
start of the next packet loses it: the buffer goes with the packet it completes, and what
comes next is no header.
-/

set_option autoImplicit false

namespace TeamsInC
namespace Server
open Bytes

def isAnswer : Effect → Bool
  | .reply _ _ _ => true
  | .forward _ _ _ _ _ => true
  | _ => false

/-- A record at rest that will get an answer to every packet. -/
structure Ready (c : ClientConnData) (tree : HbTree) (bal : Int8) : Prop where
  rests : Rests c
  fd : 0 ≤ c.fd
  wf : tree.WellFormed
  insertable : ∀ u ∈ accounts, c.clientState = .initialState →
    tree.hbTreeInsert u c.fd bal ≠ .error .nullDeref
  user : c.clientState = .messageState → ∃ u, c.user = .live u

section
variable {c : ClientConnData} {tree : HbTree} {bal : Int8}

/-- A packet gets one answer; a login packet leaves the record ready for the next packet, a chat
packet does where its frame is not too long. -/
theorem Ready.serve (H : Ready c tree bal) (h : MessageHeader) (first second : List UInt8) :
    (serve c tree bal h first second).effects.countP isAnswer = 1 ∧
      (c.clientState = .initialState → ∃ c' tree',
        (Server.serve c tree bal h first second).result = .ok (c', tree') ∧ Ready c' tree' bal) := by
  have hready {effs : List Effect} {c' : ClientConnData} {tree' : HbTree}
      (hs : Server.serve c tree bal h first second = ⟨effs, .ok (c', tree')⟩) :
      Rests c' ∧ 0 ≤ c'.fd := by
    obtain ⟨hr, hf⟩ := serve_rests H.rests (congrArg Traced.result hs)
    exact ⟨hr, hf ▸ H.fd⟩
  rcases H.rests.state with hs | hs
  · rcases authVerify_cases (CString.ofBuffer first) (CString.ofBuffer second) with hv | hv
    · have huser := (authVerify_mem hv).1
      rcases H.wf.insert c.fd bal (accounts_fit _ huser) with hn | ⟨S, l, hS, hl, hwf, _⟩
      · exact absurd hn (H.insertable _ huser hs)
      · obtain ⟨a, rfl⟩ := Option.ne_none_iff_exists'.mp hl
        have hserve := serve_accepted bal h hs hv hS
        obtain ⟨hr, hf⟩ := hready hserve
        rw [hserve]
        exact ⟨rfl, fun _ => ⟨_, _, rfl, hr, hf, hwf, by simp, fun _ => ⟨_, rfl⟩⟩⟩
    · have hserve := serve_rejected bal h second tree hs
        (by omega : authVerify (CString.ofBuffer first) (CString.ofBuffer second) < 0)
      obtain ⟨hr, hf⟩ := hready hserve
      rw [hserve]
      exact ⟨rfl, fun _ => ⟨_, _, rfl, hr, hf, H.wf, fun u hu _ => H.insertable u hu hs,
        by simp [rejectedRecord]⟩⟩
  · obtain ⟨user, huser⟩ := H.user hs
    obtain ⟨dest, hdest, _⟩ := H.wf.search (CString.ofBuffer first)
    rw [serve_forward bal h second hs hdest huser]
    exact ⟨rfl, fun hs' => by simp [hs] at hs'⟩

end

def singles (env : Env) (b : List UInt8) : List (Chunk × Env) :=
  b.map fun x => (⟨[x], by simp, by simp⟩, env)

theorem singles_bytes (env : Env) (b : List UInt8) : (singles env b).flatMap bytesOf = b := by
  induction b with
  | nil => rfl
  | cons x b ih =>
    change [x] ++ (singles env b).flatMap bytesOf = x :: b
    rw [ih]
    rfl

theorem singles_fine {env : Env} (hw : env.Writes) (b : List UInt8) :
    Fine env.bal (singles env b) := by
  intro r hr
  obtain ⟨x, _, rfl⟩ := List.mem_map.mp hr
  exact ⟨hw, rfl⟩

section
variable {c : ClientConnData} {tree : HbTree} {env : Env}

end

def oneConn : ServerState :=
  ⟨fun fd => if fd = 5 then some (createNewClient 5 zeroed) else none, HbTree.hbTreeNew⟩

end Server
end TeamsInC
