import Mathlib.Data.List.TakeWhile
import Mathlib.Order.Lattice
import Mathlib.Tactic.Common

/-!
# What the C code runs on

Faults, NUL-terminated strings of signed characters, and the comparison
`str_cmp_func` on which the order of the tree rests.
-/

set_option autoImplicit false

namespace TeamsInC

/-- The ways a call can go wrong in memory. `outOfFuel` belongs to the model alone: a
loop was cut off. -/
inductive Fault where
  | nullDeref
  | dangling
  | overflow
  | outOfFuel
deriving DecidableEq, Repr

@[simp] theorem ok_bind {ε α β : Type} (a : α) (f : α → Except ε β) :
    (Except.ok a >>= f) = f a := rfl

@[simp] theorem error_bind {ε α β : Type} (e : ε) (f : α → Except ε β) :
    ((Except.error e : Except ε α) >>= f) = .error e := rfl

@[simp] theorem pure_eq_ok {ε α : Type} (a : α) : (pure a : Except ε α) = .ok a := rfl

@[simp] theorem throw_eq_error {ε α : Type} (e : ε) :
    (throw e : Except ε α) = .error e := rfl

def faultOf {α : Type} : Except Fault α → Option Fault
  | .error e => some e
  | .ok _ => none

theorem eq_error_of_faultOf {α : Type} {m : Except Fault α} {e : Fault} (h : faultOf m = some e) :
    m = .error e := by
  cases m with
  | error e' => simpa [faultOf] using h
  | ok a => simp [faultOf] at h

/-- A C string: the bytes before its terminating NUL. -/
structure CString where
  bytes : List UInt8
  noNul : 0 ∉ bytes
deriving DecidableEq, Repr

def ascii (text : List Char) : List UInt8 := text.map fun c => c.toNat.toUInt8

namespace CString

/-- The C string held in a block: it ends at the first NUL, or where the block ends. -/
def ofBuffer (b : List UInt8) : CString where
  bytes := b.takeWhile (· ≠ 0)
  noNul := fun h => by simpa using List.mem_takeWhile_imp h

def strlen (s : CString) : Nat := s.bytes.length

theorem ext {a b : CString} (h : a.bytes = b.bytes) : a = b := by
  cases a
  cases b
  simp_all

@[simp] theorem ofBuffer_bytes (s : CString) : ofBuffer s.bytes = s := by
  apply ext
  apply List.takeWhile_eq_self_iff.mpr
  intro x hx
  have hne : x ≠ 0 := fun h => s.noNul (h ▸ hx)
  simpa using hne

end CString

/-- `(p>q) - (p<q)` on two characters, which are signed. -/
def cmpChar (p q : Int8) : Int := (if p > q then 1 else 0) - (if p < q then 1 else 0)

/-- `str_cmp_func`: both strings are read up to and including the terminating NUL, which
takes part in the comparison as the character 0. -/
def strCmpFunc : List UInt8 → List UInt8 → Int
  | [], k2 => cmpChar 0 (k2.headD 0).toInt8
  | p :: a, k2 =>
    let q := k2.headD 0
    if p = 0 ∨ p ≠ q then cmpChar p.toInt8 q.toInt8 else strCmpFunc a k2.tail

theorem cmpChar_neg (p q : Int8) : cmpChar q p = -cmpChar p q := by
  simp only [cmpChar, gt_iff_lt, Int8.lt_iff_toInt_lt]
  omega

theorem toInt8_inj {p q : UInt8} : p.toInt8 = q.toInt8 ↔ p = q := by
  constructor
  · intro h
    have := congrArg Int8.toUInt8 h
    simpa using this
  · exact congrArg _

theorem cmpChar_eq_zero_iff {p q : UInt8} : cmpChar p.toInt8 q.toInt8 = 0 ↔ p = q := by
  rw [← toInt8_inj, ← Int8.toInt_inj]
  simp only [cmpChar, gt_iff_lt, Int8.lt_iff_toInt_lt]
  omega

theorem cmpChar_nonpos_iff {p q : Int8} : cmpChar p q ≤ 0 ↔ p.toInt ≤ q.toInt := by
  simp only [cmpChar, gt_iff_lt, Int8.lt_iff_toInt_lt]
  omega

/-- The first position at which two C strings part decides; a string that ends first has
the terminator 0 there. -/
theorem strCmpFunc_cons (p q : UInt8) (a b : List UInt8) (hp : p ≠ 0) :
    strCmpFunc (p :: a) (q :: b) =
      if p = q then strCmpFunc a b else cmpChar p.toInt8 q.toInt8 := by
  by_cases h : p = q
  · simp [strCmpFunc, ← h, hp]
  · simp [strCmpFunc, h]

@[simp] theorem strCmpFunc_nil_nil : strCmpFunc [] [] = 0 := by decide

theorem strCmpFunc_nil_cons (q : UInt8) (b : List UInt8) :
    strCmpFunc [] (q :: b) = cmpChar 0 q.toInt8 := rfl

theorem strCmpFunc_cons_nil (p : UInt8) (a : List UInt8) (hp : p ≠ 0) :
    strCmpFunc (p :: a) [] = cmpChar p.toInt8 0 := by
  simp [strCmpFunc, hp]

theorem strCmpFunc_neg {a b : List UInt8} (ha : 0 ∉ a) (hb : 0 ∉ b) :
    strCmpFunc b a = -strCmpFunc a b := by
  induction a generalizing b with
  | nil =>
    cases b with
    | nil => simp
    | cons q b =>
      have hq : q ≠ 0 := fun h => hb (by simp [h])
      rw [strCmpFunc_nil_cons, strCmpFunc_cons_nil q b hq, cmpChar_neg]
  | cons p a ih =>
    have hp : p ≠ 0 := fun h => ha (by simp [h])
    cases b with
    | nil => rw [strCmpFunc_nil_cons, strCmpFunc_cons_nil p a hp, cmpChar_neg]
    | cons q b =>
      have hq : q ≠ 0 := fun h => hb (by simp [h])
      rw [strCmpFunc_cons p q a b hp, strCmpFunc_cons q p b a hq]
      by_cases hpq : p = q
      · simp only [hpq, if_true]
        exact ih (fun h => ha (by simp [h])) (fun h => hb (by simp [h]))
      · rw [if_neg hpq, if_neg (Ne.symm hpq), cmpChar_neg]

theorem strCmpFunc_eq_zero_iff {a b : List UInt8} (ha : 0 ∉ a) (hb : 0 ∉ b) :
    strCmpFunc a b = 0 ↔ a = b := by
  induction a generalizing b with
  | nil =>
    cases b with
    | nil => simp
    | cons q b =>
      have hq : q ≠ 0 := fun h => hb (by simp [h])
      have h0 := cmpChar_eq_zero_iff (p := 0) (q := q)
      rw [strCmpFunc_nil_cons]
      simpa [Ne.symm hq] using h0.not.mpr (Ne.symm hq)
  | cons p a ih =>
    have hp : p ≠ 0 := fun h => ha (by simp [h])
    cases b with
    | nil =>
      have h0 := cmpChar_eq_zero_iff (p := p) (q := 0)
      rw [strCmpFunc_cons_nil p a hp]
      simpa using h0.not.mpr hp
    | cons q b =>
      rw [strCmpFunc_cons p q a b hp]
      by_cases hpq : p = q
      · subst q
        simp only [if_true, List.cons.injEq, true_and]
        exact ih (fun h => ha (by simp [h])) (fun h => hb (by simp [h]))
      · simp [hpq, cmpChar_eq_zero_iff]

theorem head_le_of_strCmpFunc_nonpos {a b : List UInt8} (h : strCmpFunc a b ≤ 0) :
    (a.headD 0).toInt8.toInt ≤ (b.headD 0).toInt8.toInt := by
  cases a with
  | nil => exact cmpChar_nonpos_iff.mp h
  | cons p a =>
    simp only [strCmpFunc] at h
    split at h
    · exact cmpChar_nonpos_iff.mp h
    · rename_i hpq
      simp_all

theorem strCmpFunc_nonpos_of_head_lt {a b : List UInt8}
    (h : (a.headD 0).toInt8.toInt < (b.headD 0).toInt8.toInt) : strCmpFunc a b ≤ 0 := by
  cases a with
  | nil => exact cmpChar_nonpos_iff.mpr (Int.le_of_lt h)
  | cons p a =>
    simp only [strCmpFunc]
    rw [if_pos]
    · exact cmpChar_nonpos_iff.mpr (Int.le_of_lt h)
    · by_contra hpq
      simp_all

theorem strCmpFunc_trans {a b c : List UInt8} (ha : 0 ∉ a) (hb : 0 ∉ b) (hc : 0 ∉ c)
    (hab : strCmpFunc a b ≤ 0) (hbc : strCmpFunc b c ≤ 0) : strCmpFunc a c ≤ 0 := by
  induction a generalizing b c with
  | nil =>
    have h1 := head_le_of_strCmpFunc_nonpos hab
    have h2 := head_le_of_strCmpFunc_nonpos hbc
    exact cmpChar_nonpos_iff.mpr (Int.le_trans h1 h2)
  | cons p a ih =>
    have hp : p ≠ 0 := fun h => ha (by simp [h])
    have h1 := head_le_of_strCmpFunc_nonpos hab
    have h2 := head_le_of_strCmpFunc_nonpos hbc
    by_cases hlt : ((p :: a).headD 0).toInt8.toInt < (c.headD 0).toInt8.toInt
    · exact strCmpFunc_nonpos_of_head_lt hlt
    have hpb : p = b.headD 0 := by
      apply toInt8_inj.mp
      apply Int8.toInt_inj.mp
      simp only [List.headD_cons] at h1 hlt ⊢
      omega
    have hpc : p = c.headD 0 := by
      apply toInt8_inj.mp
      apply Int8.toInt_inj.mp
      simp only [List.headD_cons] at h1 hlt ⊢
      omega
    cases b with
    | nil => exact absurd hpb hp
    | cons q b =>
      cases c with
      | nil => exact absurd hpc hp
      | cons r c =>
        simp only [List.headD_cons] at hpb hpc
        subst q
        subst r
        simp only [strCmpFunc_cons p p _ _ hp, if_true] at hab hbc ⊢
        exact ih (fun h => ha (by simp [h])) (fun h => hb (by simp [h]))
          (fun h => hc (by simp [h])) hab hbc

namespace CString

/-- The order in which the tree keeps its keys. -/
instance : LinearOrder CString where
  le a b := strCmpFunc a.bytes b.bytes ≤ 0
  lt a b := strCmpFunc a.bytes b.bytes < 0
  le_refl a := Int.le_of_eq ((strCmpFunc_eq_zero_iff a.noNul a.noNul).mpr rfl)
  le_trans a b c hab hbc := strCmpFunc_trans a.noNul b.noNul c.noNul hab hbc
  le_antisymm a b hab hba := by
    apply ext
    apply (strCmpFunc_eq_zero_iff a.noNul b.noNul).mp
    have h := strCmpFunc_neg a.noNul b.noNul
    change strCmpFunc a.bytes b.bytes ≤ 0 at hab
    change strCmpFunc b.bytes a.bytes ≤ 0 at hba
    omega
  le_total a b := by
    have h := strCmpFunc_neg a.noNul b.noNul
    change strCmpFunc a.bytes b.bytes ≤ 0 ∨ strCmpFunc b.bytes a.bytes ≤ 0
    omega
  lt_iff_le_not_ge a b := by
    have h := strCmpFunc_neg a.noNul b.noNul
    change strCmpFunc a.bytes b.bytes < 0 ↔
      strCmpFunc a.bytes b.bytes ≤ 0 ∧ ¬ strCmpFunc b.bytes a.bytes ≤ 0
    omega
  toDecidableLE a b := inferInstanceAs (Decidable (strCmpFunc a.bytes b.bytes ≤ 0))
  toDecidableLT a b := inferInstanceAs (Decidable (strCmpFunc a.bytes b.bytes < 0))
  toDecidableEq := inferInstance

theorem strCmpFunc_lt_zero {a b : CString} : strCmpFunc a.bytes b.bytes < 0 ↔ a < b := Iff.rfl

theorem strCmpFunc_eq_zero {a b : CString} : strCmpFunc a.bytes b.bytes = 0 ↔ a = b := by
  rw [strCmpFunc_eq_zero_iff a.noNul b.noNul]
  exact ⟨ext, congrArg _⟩

end CString
end TeamsInC
