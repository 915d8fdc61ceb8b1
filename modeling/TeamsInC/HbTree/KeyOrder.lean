import TeamsInC.Machine

/-!
# The order of keys

`str_cmp_func` is handed two pointers. In blocks that hold a NUL its loop stays inside both,
and its result is that of the two C strings, which it orders totally.
-/

set_option autoImplicit false

namespace TeamsInC

/-- The loop of `str_cmp_func` on two blocks: its result, and how many characters of each it
has read. -/
def strCmpLoop : List UInt8 → List UInt8 → Except Fault (Int × Nat)
  | p :: a, q :: b =>
    if p = 0 ∨ p ≠ q then .ok (cmpChar p.toInt8 q.toInt8, 1)
    else do
      let (r, n) ← strCmpLoop a b
      return (r, n + 1)
  | _, _ => .error .overflow

section
variable {a b : List UInt8}

theorem ofBuffer_cons {p : UInt8} (hp : p ≠ 0) (a : List UInt8) :
    (CString.ofBuffer (p :: a)).bytes = p :: (CString.ofBuffer a).bytes := by
  simp [CString.ofBuffer, hp]

theorem headD_ofBuffer (a : List UInt8) : (CString.ofBuffer a).bytes.headD 0 = a.headD 0 := by
  cases a with
  | nil => rfl
  | cons p a =>
    by_cases hp : p = 0
    · simp [CString.ofBuffer, hp]
    · rw [ofBuffer_cons hp, List.headD_cons, List.headD_cons]

theorem strCmpFunc_ofBuffer (a b : List UInt8) :
    strCmpFunc a b = strCmpFunc (CString.ofBuffer a).bytes (CString.ofBuffer b).bytes := by
  induction a generalizing b with
  | nil =>
    change cmpChar 0 (b.headD 0).toInt8 = cmpChar 0 ((CString.ofBuffer b).bytes.headD 0).toInt8
    rw [headD_ofBuffer]
  | cons p a ih =>
    by_cases hp : p = 0
    · subst p
      have hnil : (CString.ofBuffer (0 :: a)).bytes = [] := by simp [CString.ofBuffer]
      rw [hnil]
      change cmpChar 0 (b.headD 0).toInt8 = cmpChar 0 ((CString.ofBuffer b).bytes.headD 0).toInt8
      rw [headD_ofBuffer]
    · rw [ofBuffer_cons hp]
      simp only [strCmpFunc, hp, false_or, headD_ofBuffer]
      split
      · rfl
      · rename_i hpq
        obtain hpq : p = b.headD 0 := not_not.mp hpq
        cases b with
        | nil => exact absurd hpq hp
        | cons q b =>
          obtain rfl : p = q := hpq
          rw [ofBuffer_cons hp, List.tail_cons, List.tail_cons]
          exact ih b

theorem strCmpLoop_ok (ha : 0 ∈ a) (hb : 0 ∈ b) :
    ∃ n, strCmpLoop a b = .ok (strCmpFunc a b, n) ∧
      n ≤ min (CString.ofBuffer a).strlen (CString.ofBuffer b).strlen + 1 := by
  induction a generalizing b with
  | nil => cases ha
  | cons p a ih =>
    cases b with
    | nil => cases hb
    | cons q b =>
      by_cases hstop : p = 0 ∨ p ≠ q
      · refine ⟨1, ?_, by omega⟩
        have hfunc : strCmpFunc (p :: a) (q :: b) = cmpChar p.toInt8 q.toInt8 := if_pos hstop
        rw [hfunc, strCmpLoop, if_pos hstop]
      · obtain ⟨hp, hpq⟩ := not_or.mp hstop
        obtain rfl : p = q := not_not.mp hpq
        have ha : 0 ∈ a := (List.mem_cons.mp ha).resolve_left (Ne.symm hp)
        have hb : 0 ∈ b := (List.mem_cons.mp hb).resolve_left (Ne.symm hp)
        obtain ⟨n, hloop, hn⟩ := ih ha hb
        refine ⟨n + 1, ?_, ?_⟩
        · have hfunc : strCmpFunc (p :: a) (p :: b) = strCmpFunc a b := if_neg hstop
          rw [hfunc, strCmpLoop, if_neg hstop, hloop]
          rfl
        · simp only [CString.strlen, ofBuffer_cons hp, List.length_cons] at hn ⊢
          omega

/-- `str_cmp_func` orders NUL-terminated strings totally, and reads no further than it must. -/
theorem strCmpFunc_total_order (c : List UInt8) (ha : 0 ∈ a) (hb : 0 ∈ b) :
    (∃ n, strCmpLoop a b = .ok (strCmpFunc a b, n) ∧
        n ≤ min (CString.ofBuffer a).strlen (CString.ofBuffer b).strlen + 1) ∧
      (strCmpFunc a b = 0 ↔ CString.ofBuffer a = CString.ofBuffer b) ∧
      strCmpFunc a b = -strCmpFunc b a ∧
      (strCmpFunc a b ≤ 0 → strCmpFunc b c ≤ 0 → strCmpFunc a c ≤ 0) := by
  refine ⟨strCmpLoop_ok ha hb, ?_, ?_, ?_⟩
  · rw [strCmpFunc_ofBuffer a b]
    exact CString.strCmpFunc_eq_zero
  · rw [strCmpFunc_ofBuffer a b, strCmpFunc_ofBuffer b a]
    exact strCmpFunc_neg (CString.noNul _) (CString.noNul _)
  · rw [strCmpFunc_ofBuffer a b, strCmpFunc_ofBuffer b c, strCmpFunc_ofBuffer a c]
    exact strCmpFunc_trans (CString.noNul _) (CString.noNul _) (CString.noNul _)

end

/-- A prefix compares greater than its extension by a byte from 0x80 on. -/
theorem strCmpFunc_total_order_signed :
    (∃ n, strCmpLoop [97, 0, 1] [97, 200, 0] = .ok (strCmpFunc [97, 0, 1] [97, 200, 0], n) ∧
        n ≤ min (CString.ofBuffer [97, 0, 1]).strlen (CString.ofBuffer [97, 200, 0]).strlen + 1) ∧
      (strCmpFunc [97, 0, 1] [97, 200, 0] = 0 ↔
        CString.ofBuffer [97, 0, 1] = CString.ofBuffer [97, 200, 0]) ∧
      strCmpFunc [97, 0, 1] [97, 200, 0] = -strCmpFunc [97, 200, 0] [97, 0, 1] ∧
      (strCmpFunc [97, 0, 1] [97, 200, 0] ≤ 0 → strCmpFunc [97, 200, 0] [0] ≤ 0 →
        strCmpFunc [97, 0, 1] [0] ≤ 0) :=
  strCmpFunc_total_order [0] (by decide) (by decide)

end TeamsInC
