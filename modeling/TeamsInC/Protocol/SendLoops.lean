import TeamsInC.Client.Handler
import TeamsInC.Server.Handler

/-!
# The send loops of the two sides

`Write` of the server and `sendMessage` of the client were written twice. Both end after any
outcomes of their calls, with the same result, which tells whether the socket has the buffer.
-/

set_option autoImplicit false

namespace TeamsInC
namespace Protocol

theorem toNat_buffSize {buff : List UInt8} (h : buff.length < 2 ^ 32) :
    (UInt32.ofNat buff.length).toNat = buff.length := UInt32.toNat_ofNat_of_lt' h

/-- Every byte of a buffer is accounted for: 0 says that each was accepted once and in order,
-1 that a call failed, and then the socket has a proper prefix. -/
theorem send_loops_account {buff : List UInt8} (hbuff : buff.length < 2 ^ 32) (fd : Int)
    (write : WriteOracle) :
    ∃ calls r, Client.sendMessage fd buff write = some (calls, r) ∧
      Server.Write fd buff write = (bytesAt buff (accepted calls), r) ∧
      (r = 0 ∨ r = -1) ∧
      (r = 0 ↔ accepted calls = List.range buff.length) ∧
      (r = -1 ↔ ∃ c ∈ calls, c.result = -1) ∧
      (r = -1 → ∃ m < buff.length, accepted calls = List.range m ∧
        bytesAt buff (accepted calls) = buff.take m) := by
  have hsize := toNat_buffSize hbuff
  obtain ⟨calls, r, hrun, hsent⟩ := @sendLoop_sent (if fd < 0 then fun _ _ => none else write)
    _ _ (buff.length + 1) 0 0 hsize (Nat.zero_le _) (by simp)
  refine ⟨calls, r, hrun, sendLoop_writeLoop hsize hrun, ?_⟩
  rw [UInt64.toNat_zero, Nat.sub_zero] at hsent
  cases hsent with
  | all every taken =>
    rw [← List.range_eq_range'] at every
    refine ⟨.inl rfl, iff_of_true rfl every, iff_of_false (by decide) ?_, by simp⟩
    rintro ⟨c, hc, hfail⟩
    exact taken c hc hfail
  | @part m lt first failed =>
    rw [← List.range_eq_range'] at first
    refine ⟨.inr rfl, iff_of_false (by decide) ?_, iff_of_true rfl failed, fun _ => ⟨m, lt, first, ?_⟩⟩
    · intro hall
      have hlen := congrArg List.length (first.symm.trans hall)
      simp only [List.length_range] at hlen
      omega
    · rw [first, List.range_eq_range', bytesAt_range', List.drop_zero]

def oneByte : WriteOracle := fun call n => if h : call = 0 ∧ 0 < n then some ⟨0, h.2⟩ else none

theorem send_loops_account_three :
    ∃ calls r, Client.sendMessage 5 [1, 2, 3] oneByte = some (calls, r) ∧
      Server.Write 5 [1, 2, 3] oneByte = (bytesAt [1, 2, 3] (accepted calls), r) ∧
      (r = 0 ∨ r = -1) ∧
      (r = 0 ↔ accepted calls = List.range [1, 2, 3].length) ∧
      (r = -1 ↔ ∃ c ∈ calls, c.result = -1) ∧
      (r = -1 → ∃ m < [1, 2, 3].length, accepted calls = List.range m ∧
        bytesAt [1, 2, 3] (accepted calls) = [1, 2, 3].take m) :=
  @send_loops_account [1, 2, 3] (by decide) 5 oneByte

end Protocol
end TeamsInC
