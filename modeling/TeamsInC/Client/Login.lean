import TeamsInC.Client.Frames

/-!
# The login packet

INITIAL_STATE encodes the packet into a block of the size of `message_auth_t`, whatever the
length of what was typed, and its send loop adds -1 to its count when a write fails: the next
write starts a byte earlier, or the count is past every end.
-/

set_option autoImplicit false

namespace TeamsInC
namespace Client
open Bytes

/-- `sizeof(message_auth_t)`, the size of `out_buffer`: the padded header, and two lengths and
two pointers, each of the lengths padded to the alignment of a pointer. -/
def sizeofMessageAuth : Nat := sizeofMessageHeader + 4 * 8

section
variable (o : ByteOrder) (user password : CString) (memory : List UInt8)

def sentStrings : List UInt8 × List UInt8 :=
  (user.bytes.take (user.strlen % 65536), password.bytes.take (password.strlen % 65536))

theorem sentStrings_length :
    (sentStrings user password).1.length = user.strlen % 65536 ∧
      (sentStrings user password).2.length = password.strlen % 65536 := by
  refine ⟨?_, ?_⟩
  · rw [sentStrings, List.length_take]
    exact Nat.min_eq_left (Nat.mod_le _ _)
  · rw [sentStrings, List.length_take]
    exact Nat.min_eq_left (Nat.mod_le _ _)

theorem encodeAuthMsg_token :
    encodeAuthMsg o (createAuthToken user password) memory 0 =
      (messageBytes (createAuthToken user password).header (sentStrings user password).1
          (sentStrings user password).2 ++ memory.drop (16 + user.strlen % 65536 + password.strlen % 65536),
        16 + user.strlen % 65536 + password.strlen % 65536) := by
  obtain ⟨hu, hp⟩ := sentStrings_length user password
  have hlen := messageBytes_length (createAuthToken user password).header (sentStrings user password).1
    (sentStrings user password).2
  rw [hu, hp] at hlen
  have hencode := @encodeAuthMsg_eq o (createAuthToken user password).header (UInt16.ofNat user.strlen)
    (UInt16.ofNat password.strlen) (sentStrings user password).1 (sentStrings user password).2
    (UInt16.toNat_ofNat'.trans hu.symm) (UInt16.toNat_ofNat'.trans hp.symm) memory
  rw [hlen] at hencode
  exact (encodeAuthMsg_take o _ _ _ user.bytes password.bytes memory).symm.trans hencode

theorem createAuthToken_len :
    (createAuthToken user password).header.len.toNat =
      (16 + user.strlen % 65536 + password.strlen % 65536) % 65536 := by
  simp only [createAuthToken, sizeofMessageHeader, UInt16.toNat_ofNat', Nat.reducePow]

/-- The packet has the length that its header declares, and fits into the block, if and only if
the lengths kept of what was typed are 32 at most together. -/
theorem login_packet_fits_iff :
    (encodeAuthMsg o (createAuthToken user password) memory 0).2 =
          (createAuthToken user password).header.len.toNat ∧
        (encodeAuthMsg o (createAuthToken user password) memory 0).2 ≤ sizeofMessageAuth ↔
      user.strlen % 65536 + password.strlen % 65536 ≤ 32 := by
  rw [encodeAuthMsg_token, createAuthToken_len]
  simp only [sizeofMessageAuth, sizeofMessageHeader]
  omega

end

def longUser : CString := ⟨List.replicate 32 97, by decide⟩

def shortPassword : CString := CString.ofBuffer (ascii ['b'])

theorem longUser_overflows :
    ¬ ((encodeAuthMsg hostOrder (createAuthToken longUser shortPassword) [] 0).2 =
          (createAuthToken longUser shortPassword).header.len.toNat ∧
        (encodeAuthMsg hostOrder (createAuthToken longUser shortPassword) [] 0).2 ≤ sizeofMessageAuth) := by
  decide +kernel

/-- The loop of `sendLogin` with the calls that it makes. -/
def sendLoginCalls (write : WriteOracle) (outBufferUsed : Nat) :
    Nat → Nat → UInt64 → Option (List WriteCall)
  | 0, _, _ => none
  | fuel + 1, call, totalBytesSend =>
    if totalBytesSend.toNat < outBufferUsed then do
      let count := outBufferUsed - totalBytesSend.toNat
      let bytesSend := UInt64.ofInt (writeResult write call count)
      let rest ← sendLoginCalls write outBufferUsed fuel (call + 1) (totalBytesSend + bytesSend)
      return ⟨totalBytesSend.toNat, count, writeResult write call count⟩ :: rest
    else some []

section
variable {write : WriteOracle} {n fuel call : Nat} {total : UInt64} {calls : List WriteCall}

theorem sendLoginCalls_done (hlt : ¬ total.toNat < n)
    (h : sendLoginCalls write n fuel call total = some calls) : calls = [] := by
  cases fuel with
  | zero => cases h
  | succ fuel =>
    rw [sendLoginCalls, if_neg hlt] at h
    cases h
    rfl

theorem sendLoginCalls_round (hlt : total.toNat < n)
    (h : sendLoginCalls write n (fuel + 1) call total = some calls) :
    ∃ rest, calls = ⟨total.toNat, n - total.toNat, writeResult write call (n - total.toNat)⟩ :: rest ∧
      sendLoginCalls write n fuel (call + 1)
        (total + UInt64.ofInt (writeResult write call (n - total.toNat))) = some rest := by
  rw [sendLoginCalls, if_pos hlt] at h
  obtain ⟨rest, hrest, h⟩ := Option.bind_eq_some_iff.mp h
  cases h
  exact ⟨rest, rfl, hrest⟩

theorem toNat_add_failed (total : UInt64) :
    (total + UInt64.ofInt (-1)).toNat = if total.toNat = 0 then 2 ^ 64 - 1 else total.toNat - 1 := by
  have hlt := total.toNat_lt
  rw [UInt64.toNat_add, (by decide : (UInt64.ofInt (-1)).toNat = 2 ^ 64 - 1)]
  split <;> omega

theorem sendLoginCalls_head (hn : n < 2 ^ 32)
    (h : sendLoginCalls write n fuel call total = some calls) :
    ∀ i ∈ (accepted calls).head?, i ≤ total.toNat := by
  induction fuel generalizing call total calls with
  | zero => cases h
  | succ fuel ih =>
    by_cases hlt : total.toNat < n
    · obtain ⟨rest, rfl, hrest⟩ := sendLoginCalls_round hlt h
      cases hw : write call (n - total.toNat) with
      | none =>
        rw [writeResult_none hw] at hrest ⊢
        have hprev := toNat_add_failed total
        by_cases h0 : total.toNat = 0
        · rw [if_pos h0] at hprev
          rw [sendLoginCalls_done (by omega) hrest]
          simp
        · rw [if_neg h0] at hprev
          intro i hi
          have hle := ih hrest i hi
          omega
      | some k =>
        have hfirst : ((k : Int) + 1).toNat = k + 1 := by omega
        rw [writeResult_some hw, accepted_cons, hfirst, List.range'_succ]
        simp
    · rw [sendLoginCalls_done hlt h]
      simp

theorem sendLoginCalls_after_failure (hn : n < 2 ^ 32)
    (h : sendLoginCalls write n fuel call (total + UInt64.ofInt (-1)) = some calls) :
    ∀ i ∈ (accepted calls).head?, i < total.toNat := by
  have hprev := toNat_add_failed total
  by_cases h0 : total.toNat = 0
  · rw [if_pos h0] at hprev
    rw [sendLoginCalls_done (by omega) h]
    simp
  · rw [if_neg h0] at hprev
    intro i hi
    have hle := sendLoginCalls_head hn h i hi
    omega

theorem sendLogin_calls {b : List UInt8} (hb : b.length < 2 ^ 32) :
    sendLogin write b fuel call total =
      (sendLoginCalls write b.length fuel call total).map fun calls => bytesAt b (accepted calls) := by
  induction fuel generalizing call total with
  | zero => rfl
  | succ fuel ih =>
    rw [sendLogin, sendLoginCalls]
    by_cases hlt : total.toNat < b.length
    · rw [if_pos hlt, if_pos hlt]
      cases hw : write call (b.length - total.toNat) with
      | none =>
        simp only [writeResult_none hw, ih, (by decide : UInt64.ofInt (-1) = 0xFFFFFFFFFFFFFFFF)]
        cases sendLoginCalls write b.length fuel (call + 1) (total + 0xFFFFFFFFFFFFFFFF) with
        | none => rfl
        | some rest => rfl
      | some k =>
        have hk := k.isLt
        have htaken : UInt64.ofInt ((k : Int) + 1) = UInt64.ofNat (k + 1) := by
          apply UInt64.toNat_inj.mp
          rw [toNat_ofInt_taken (by omega)]
          exact (UInt64.toNat_ofNat_of_lt' (by simp [UInt64.size]; omega)).symm
        simp only [writeResult_some hw, ih, htaken]
        cases sendLoginCalls write b.length fuel (call + 1) (total + UInt64.ofNat (k + 1)) with
        | none => rfl
        | some rest =>
          have hfirst : ((k : Int) + 1).toNat = k + 1 := by omega
          simp only [Option.map_some, Option.bind_eq_bind, Option.bind_some, Option.pure_def, accepted_cons,
            bytesAt_append, bytesAt_range', hfirst]
    · rw [if_neg hlt, if_neg hlt]
      rfl

/-- From a count on, a run that ends has sent the rest, each byte once and in order, if and only
if no call failed before the rest was taken. -/
theorem sendLoginCalls_exact_iff (hn : n < 2 ^ 32) {m : Nat} (hle : total.toNat ≤ n)
    (hm : n - total.toNat < m) (h : sendLoginCalls write n fuel call total = some calls) :
    accepted calls = List.range' total.toNat (n - total.toNat) ↔
      takesAll write n m call total.toNat = true := by
  induction fuel generalizing call total calls m with
  | zero => cases h
  | succ fuel ih =>
    obtain ⟨m, rfl⟩ : ∃ j, m = j + 1 := ⟨m - 1, by omega⟩
    rw [takesAll]
    by_cases hlt : total.toNat < n
    · obtain ⟨rest, rfl, hrest⟩ := sendLoginCalls_round hlt h
      obtain ⟨left, hleft⟩ : ∃ j, n - total.toNat = j + 1 := ⟨n - total.toNat - 1, by omega⟩
      rw [if_pos hlt, accepted_cons]
      cases hw : write call (n - total.toNat) with
      | none =>
        rw [writeResult_none hw] at hrest ⊢
        refine iff_of_false ?_ (by simp)
        intro hall
        have hhead := sendLoginCalls_after_failure hn hrest total.toNat
        rw [hleft, List.range'_succ] at hall
        change accepted rest = _ at hall
        rw [hall] at hhead
        exact absurd (hhead rfl) (Nat.lt_irrefl _)
      | some k =>
        have hk := k.isLt
        have hfirst : ((k : Int) + 1).toNat = k + 1 := by omega
        have hnext := @toNat_add_taken n total k hn
        rw [writeResult_some hw] at hrest ⊢
        have hiff := ih (m := m) (by omega) (by omega) hrest
        rw [hnext] at hiff
        have hsplit : List.range' total.toNat (n - total.toNat) =
            List.range' total.toNat (k + 1) ++
              List.range' (total.toNat + (k + 1)) (n - (total.toNat + (k + 1))) := by
          rw [List.range'_append_1]
          congr 1
          omega
        simp only [hfirst, hsplit, List.append_cancel_left_eq]
        exact hiff
    · rw [if_neg hlt, sendLoginCalls_done hlt h, Nat.sub_eq_zero_of_le (by omega)]
      exact iff_of_true rfl rfl

theorem loginBuffer_length (memory : List UInt8) (user password : CString) :
    (loginBuffer memory user password).length =
      16 + user.strlen % 65536 + password.strlen % 65536 := by
  obtain ⟨hu, hp⟩ := sentStrings_length user password
  have hlen := messageBytes_length (createAuthToken user password).header (sentStrings user password).1
    (sentStrings user password).2
  rw [hu, hp] at hlen
  rw [loginBuffer, encodeAuthMsg_token]
  simp only [← hlen, List.take_left]

end

/-- The socket has the packet, each byte of it once and in order. -/
def SentExactly (b : List UInt8) (calls : List WriteCall) : Prop :=
  accepted calls = List.range b.length ∧ bytesAt b (accepted calls) = b

/-- If the loop ends, and with it INITIAL_STATE, the packet has been sent exactly if and only if
no call failed before all of it was taken. -/
theorem login_sent_exactly_iff {write : WriteOracle} {memory : List UInt8} {user password : CString}
    {fuel : Nat} {calls : List WriteCall}
    (h : sendLoginCalls write (loginBuffer memory user password).length fuel 0 0 = some calls) :
    sendLogin write (loginBuffer memory user password) fuel 0 0 =
        some (bytesAt (loginBuffer memory user password) (accepted calls)) ∧
      (SentExactly (loginBuffer memory user password) calls ↔
        takesAll write (loginBuffer memory user password).length
          ((loginBuffer memory user password).length + 1) 0 0 = true) := by
  have hb : (loginBuffer memory user password).length < 2 ^ 32 := by
    rw [loginBuffer_length]
    omega
  have hiff := sendLoginCalls_exact_iff (m := (loginBuffer memory user password).length + 1) hb
    (Nat.zero_le _) (by simp) h
  rw [UInt64.toNat_zero, Nat.sub_zero, ← List.range_eq_range'] at hiff
  refine ⟨?_, ?_⟩
  · rw [sendLogin_calls hb, h]
    rfl
  · rw [← hiff]
    refine ⟨And.left, fun hall => ⟨hall, ?_⟩⟩
    rw [hall, bytesAt_range]

theorem refusedLogin_not_sent :
    ∃ write fuel calls, sendLoginCalls write (loginBuffer [] shortPassword shortPassword).length fuel 0 0 =
        some calls ∧ ¬ SentExactly (loginBuffer [] shortPassword shortPassword) calls := by
  refine ⟨fun _ _ => none, 2, [⟨0, 18, -1⟩], by decide +kernel, ?_⟩
  rintro ⟨hall, _⟩
  exact absurd hall (by decide +kernel)

def sevenBytes : WriteOracle := fun _ n =>
  if h : 7 ≤ n then some ⟨6, by omega⟩ else if h : 0 < n then some ⟨n - 1, by omega⟩ else none

theorem login_sent_exactly_iff_short :
    sendLogin sevenBytes (loginBuffer [] shortPassword shortPassword) 4 0 0 =
        some (bytesAt (loginBuffer [] shortPassword shortPassword)
          (accepted [⟨0, 18, 7⟩, ⟨7, 11, 7⟩, ⟨14, 4, 4⟩])) ∧
      (SentExactly (loginBuffer [] shortPassword shortPassword) [⟨0, 18, 7⟩, ⟨7, 11, 7⟩, ⟨14, 4, 4⟩] ↔
        takesAll sevenBytes (loginBuffer [] shortPassword shortPassword).length
          ((loginBuffer [] shortPassword shortPassword).length + 1) 0 0 = true) :=
  login_sent_exactly_iff (by decide +kernel)

end Client
end TeamsInC
