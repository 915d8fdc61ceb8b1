import TeamsInC.Messages

/-!
# The calls of write

The send loops keep what `write` returned in a `size_t`, where -1 is the largest number. Here
they run on the numbers of the machine, with the calls they make: which bytes of the buffer
the socket has accepted, and how often, is read off the calls.
-/

set_option autoImplicit false

namespace TeamsInC

/-- One call of `write`: the index it writes from, the count requested, and its result. -/
structure WriteCall where
  start : Nat
  count : Nat
  result : Int
deriving DecidableEq, Repr

def writeResult (write : WriteOracle) (call n : Nat) : Int :=
  match write call n with
  | none => -1
  | some k => k + 1

/-- The indices of the bytes accepted, in the order in which they were accepted. -/
def accepted (calls : List WriteCall) : List Nat :=
  calls.flatMap fun c => List.range' c.start c.result.toNat

def bytesAt (b : List UInt8) (indices : List Nat) : List UInt8 := indices.filterMap fun i => b[i]?

/-- `while (total_bytes_send < buff_size)` of `Write` and of the client's `sendMessage`, whose
`buff_size` is a `uint32_t`; `none` if it has not ended after `fuel` calls. -/
def sendLoop (write : WriteOracle) (buffSize : UInt32) :
    Nat → Nat → UInt64 → Option (List WriteCall × Int)
  | 0, _, _ => none
  | fuel + 1, call, totalBytesSend =>
    if totalBytesSend < buffSize.toUInt64 then
      let count := (buffSize.toUInt64 - totalBytesSend).toNat
      let result := writeResult write call count
      let bytesSent := UInt64.ofInt result
      if bytesSent = UInt64.ofInt (-1) then some ([⟨totalBytesSend.toNat, count, result⟩], -1)
      else do
        let (calls, r) ← sendLoop write buffSize fuel (call + 1) (totalBytesSend + bytesSent)
        return (⟨totalBytesSend.toNat, count, result⟩ :: calls, r)
    else some ([], 0)

@[simp] theorem accepted_nil : accepted [] = [] := rfl

@[simp] theorem accepted_cons (c : WriteCall) (calls : List WriteCall) :
    accepted (c :: calls) = List.range' c.start c.result.toNat ++ accepted calls := rfl

@[simp] theorem bytesAt_append (b : List UInt8) (i j : List Nat) :
    bytesAt b (i ++ j) = bytesAt b i ++ bytesAt b j := List.filterMap_append

theorem bytesAt_range' (b : List UInt8) (i k : Nat) : bytesAt b (List.range' i k) = (b.drop i).take k := by
  induction k generalizing i with
  | zero => rfl
  | succ k ih =>
    rw [List.range'_succ, bytesAt, List.filterMap_cons]
    cases hi : b[i]? with
    | none =>
      have hle : b.length ≤ i := List.getElem?_eq_none_iff.mp hi
      have hnil : bytesAt b (List.range' (i + 1) k) = [] := by
        rw [ih, List.drop_eq_nil_of_le (by omega), List.take_nil]
      rw [List.drop_eq_nil_of_le hle, List.take_nil]
      exact hnil
    | some x =>
      obtain ⟨hlt, hx⟩ := List.getElem?_eq_some_iff.mp hi
      rw [List.drop_eq_getElem_cons hlt, List.take_succ_cons, hx, ← ih]
      rfl

theorem bytesAt_range (b : List UInt8) : bytesAt b (List.range b.length) = b := by
  rw [List.range_eq_range', bytesAt_range', List.drop_zero, List.take_length]

section
variable {write : WriteOracle} {call n : Nat}

theorem writeResult_none (h : write call n = none) : writeResult write call n = -1 := by
  rw [writeResult, h]

theorem writeResult_some {k : Fin n} (h : write call n = some k) : writeResult write call n = k + 1 := by
  rw [writeResult, h]

theorem toNat_ofInt_taken {k : Nat} (hk : k < 2 ^ 32) : (UInt64.ofInt ((k : Int) + 1)).toNat = k + 1 := by
  have hmod : (((k : Int) + 1) % 2 ^ 64).toNat = k + 1 := by omega
  rw [UInt64.ofInt, hmod]
  exact UInt64.toNat_ofNat_of_lt' (by simp [UInt64.size]; omega)

theorem ofInt_taken_ne {k : Nat} (hk : k < 2 ^ 32) : UInt64.ofInt ((k : Int) + 1) ≠ UInt64.ofInt (-1) := by
  intro h
  have htaken := toNat_ofInt_taken hk
  rw [h, (by decide : (UInt64.ofInt (-1)).toNat = 2 ^ 64 - 1)] at htaken
  omega

end

section
variable {write : WriteOracle} {buffSize : UInt32} {n fuel call : Nat} {total : UInt64}

theorem toNat_left (h : total.toNat ≤ buffSize.toNat) :
    (buffSize.toUInt64 - total).toNat = buffSize.toNat - total.toNat := by
  have hle : total ≤ buffSize.toUInt64 := by
    rw [UInt64.le_iff_toNat_le, UInt32.toNat_toUInt64]
    exact h
  rw [UInt64.toNat_sub_of_le _ _ hle, UInt32.toNat_toUInt64]

theorem lt_size_iff : total < buffSize.toUInt64 ↔ total.toNat < buffSize.toNat := by
  rw [UInt64.lt_iff_toNat_lt, UInt32.toNat_toUInt64]

theorem sendLoop_done (hn : buffSize.toNat = n) (h : ¬ total.toNat < n) :
    sendLoop write buffSize (fuel + 1) call total = some ([], 0) := by
  subst hn
  rw [sendLoop, if_neg (lt_size_iff.not.mpr h)]

theorem sendLoop_failed (hn : buffSize.toNat = n) (h : total.toNat < n)
    (hw : write call (n - total.toNat) = none) :
    sendLoop write buffSize (fuel + 1) call total = some ([⟨total.toNat, n - total.toNat, -1⟩], -1) := by
  subst hn
  rw [sendLoop, if_pos (lt_size_iff.mpr h)]
  simp only [toNat_left (Nat.le_of_lt h), writeResult_none hw, if_true]

theorem toNat_add_taken {k : Fin (n - total.toNat)} (hn : n < 2 ^ 32) :
    (total + UInt64.ofInt ((k : Int) + 1)).toNat = total.toNat + (k + 1) := by
  have hk := k.isLt
  rw [UInt64.toNat_add, toNat_ofInt_taken (by omega)]
  exact Nat.mod_eq_of_lt (by omega)

theorem sendLoop_taken {k : Fin (n - total.toNat)} (hn : buffSize.toNat = n) (h : total.toNat < n)
    (hw : write call (n - total.toNat) = some k) :
    ∃ total' : UInt64, total'.toNat = total.toNat + (k + 1) ∧
      sendLoop write buffSize (fuel + 1) call total =
        (sendLoop write buffSize fuel (call + 1) total').map fun p =>
          (⟨total.toNat, n - total.toNat, k + 1⟩ :: p.1, p.2) := by
  subst hn
  have hsize := buffSize.toNat_lt
  have hk := k.isLt
  refine ⟨total + UInt64.ofInt (k + 1), toNat_add_taken hsize, ?_⟩
  · rw [sendLoop, if_pos (lt_size_iff.mpr h)]
    simp only [toNat_left (Nat.le_of_lt h), writeResult_some hw,
      if_neg (ofInt_taken_ne (by omega : k.val < 2 ^ 32))]
    cases sendLoop write buffSize fuel (call + 1) (total + UInt64.ofInt (k + 1)) with
    | none => rfl
    | some p => rfl

end

/-- How a loop that had `left` bytes to send from `start` on can end. -/
inductive Sent (start left : Nat) (calls : List WriteCall) : Int → Prop
  | all (every : accepted calls = List.range' start left) (taken : ∀ c ∈ calls, c.result ≠ -1) :
      Sent start left calls 0
  | part {m : Nat} (lt : m < left) (first : accepted calls = List.range' start m)
      (failed : ∃ c ∈ calls, c.result = -1) : Sent start left calls (-1)

theorem sendLoop_sent {write : WriteOracle} {buffSize : UInt32} {n fuel call : Nat} {total : UInt64}
    (hn : buffSize.toNat = n) (hle : total.toNat ≤ n) (hfuel : n - total.toNat < fuel) :
    ∃ calls r, sendLoop write buffSize fuel call total = some (calls, r) ∧
      Sent total.toNat (n - total.toNat) calls r := by
  induction fuel generalizing call total with
  | zero => omega
  | succ fuel ih =>
    by_cases hlt : total.toNat < n
    · cases hw : write call (n - total.toNat) with
      | none =>
        exact ⟨_, _, sendLoop_failed hn hlt hw,
          .part (m := 0) (by omega) rfl ⟨_, List.mem_singleton.mpr rfl, rfl⟩⟩
      | some k =>
        have hk := k.isLt
        obtain ⟨total', htotal, hstep⟩ := @sendLoop_taken _ _ _ fuel _ _ _ hn hlt hw
        obtain ⟨calls, r, hrun, hsent⟩ := @ih (call + 1) total' (by omega) (by omega)
        rw [hrun] at hstep
        refine ⟨_, _, hstep, ?_⟩
        have htaken : ((k : Int) + 1).toNat = k + 1 := by omega
        cases hsent with
        | all every taken =>
          refine .all ?_ (List.forall_mem_cons.mpr ⟨by simp only; omega, taken⟩)
          rw [accepted_cons, every, htotal, htaken, List.range'_append_1]
          congr 1
          omega
        | @part m lt first failed =>
          obtain ⟨c, hc, hfail⟩ := failed
          refine .part (m := k + 1 + m) (by omega) ?_ ⟨c, List.mem_cons_of_mem _ hc, hfail⟩
          rw [accepted_cons, first, htotal, htaken, List.range'_append_1]
    · refine ⟨[], 0, sendLoop_done hn hlt, .all ?_ (by simp)⟩
      rw [Nat.sub_eq_zero_of_le (by omega)]
      rfl

theorem sendLoop_writeLoop {write : WriteOracle} {buff : List UInt8} {buffSize : UInt32}
    (hn : buffSize.toNat = buff.length) {fuel call : Nat} {total : UInt64} {calls : List WriteCall} {r : Int}
    (h : sendLoop write buffSize fuel call total = some (calls, r)) :
    writeLoop write buff fuel call total.toNat = (bytesAt buff (accepted calls), r) := by
  induction fuel generalizing call total calls r with
  | zero => cases h
  | succ fuel ih =>
    rw [writeLoop]
    by_cases hlt : total.toNat < buff.length
    · rw [if_pos hlt]
      cases hw : write call (buff.length - total.toNat) with
      | none =>
        rw [sendLoop_failed hn hlt hw] at h
        cases h
        rfl
      | some k =>
        obtain ⟨total', htotal, hstep⟩ := @sendLoop_taken _ _ _ fuel _ _ _ hn hlt hw
        rw [hstep] at h
        obtain ⟨⟨calls', r'⟩, hrun, hcalls⟩ := Option.map_eq_some_iff.mp h
        cases hcalls
        have hrest := ih hrun
        rw [htotal] at hrest
        simp only [hrest, accepted_cons, bytesAt_append, bytesAt_range']
        rfl
    · rw [sendLoop_done hn hlt] at h
      cases h
      rw [if_neg hlt]
      rfl

end TeamsInC
