import Mathlib.Data.List.Induction
import Mathlib.Tactic.Common
import Mathlib.Tactic.Ring

/-!
# Numbers as bytes

`toBytes n x` are the `n` lowest bytes of `x`, most significant first, which is network
order. A host stores a number in its own byte order; the functions of the `hton` family
return the number whose bytes in that order are in network order.
-/

set_option autoImplicit false

namespace Bytes

def ofBytes (b : List UInt8) : Nat := b.foldl (fun n x => n * 256 + x.toNat) 0

def toBytes : Nat → Nat → List UInt8
  | 0, _ => []
  | n + 1, x => toBytes n (x / 256) ++ [UInt8.ofNat x]

@[simp] theorem ofBytes_nil : ofBytes [] = 0 := rfl

theorem ofBytes_snoc (b : List UInt8) (x : UInt8) :
    ofBytes (b ++ [x]) = ofBytes b * 256 + x.toNat := by
  simp [ofBytes]

@[simp] theorem toBytes_length (n x : Nat) : (toBytes n x).length = n := by
  induction n generalizing x with
  | zero => rfl
  | succ n ih => simp [toBytes, ih]

theorem ofBytes_lt (b : List UInt8) : ofBytes b < 256 ^ b.length := by
  induction b using List.reverseRecOn with
  | nil => decide
  | append_singleton b x ih =>
    have hx := x.toNat_lt
    rw [ofBytes_snoc, List.length_append, List.length_singleton, Nat.pow_succ]
    omega

theorem ofBytes_toBytes {n x : Nat} (hx : x < 256 ^ n) : ofBytes (toBytes n x) = x := by
  induction n generalizing x with
  | zero =>
    simp only [Nat.pow_zero] at hx
    simp only [toBytes, ofBytes_nil]
    omega
  | succ n ih =>
    rw [Nat.pow_succ] at hx
    rw [toBytes, ofBytes_snoc, ih (by omega)]
    simp only [UInt8.toNat_ofNat', Nat.reducePow]
    omega

theorem toBytes_ofBytes (b : List UInt8) : toBytes b.length (ofBytes b) = b := by
  induction b using List.reverseRecOn with
  | nil => rfl
  | append_singleton b x ih =>
    have hx := x.toNat_lt
    have hdiv : (ofBytes b * 256 + x.toNat) / 256 = ofBytes b := by omega
    rw [List.length_append, List.length_singleton, toBytes, ofBytes_snoc, hdiv, ih]
    congr 1
    apply List.singleton_inj.mpr
    apply UInt8.toNat_inj.mp
    simp only [UInt8.toNat_ofNat', Nat.reducePow]
    omega

theorem ofBytes_append (a b : List UInt8) :
    ofBytes (a ++ b) = ofBytes a * 256 ^ b.length + ofBytes b := by
  induction b using List.reverseRecOn with
  | nil => simp
  | append_singleton b x ih =>
    rw [← List.append_assoc, ofBytes_snoc, ofBytes_snoc, ih, List.length_append, List.length_singleton,
      Nat.pow_succ]
    ring

theorem toBytes_add (m n x : Nat) :
    toBytes (m + n) x = toBytes m (x / 256 ^ n) ++ toBytes n (x % 256 ^ n) := by
  induction n generalizing x with
  | zero => simp [toBytes]
  | succ n ih =>
    have hdiv : x % 256 ^ (n + 1) / 256 = x / 256 % 256 ^ n := by
      rw [Nat.pow_succ, Nat.mul_comm, Nat.mod_mul_right_div_self]
    have hlow : UInt8.ofNat (x % 256 ^ (n + 1)) = UInt8.ofNat x := by
      apply UInt8.toNat_inj.mp
      have hmod := Nat.mod_mod_of_dvd x (Nat.dvd_mul_left 256 (256 ^ n))
      rw [← Nat.pow_succ] at hmod
      simpa only [UInt8.toNat_ofNat', Nat.reducePow] using hmod
    rw [← Nat.add_assoc, toBytes, ih, toBytes, hdiv, hlow, List.append_assoc, Nat.div_div_eq_div_mul,
      Nat.pow_succ, Nat.mul_comm 256]

end Bytes

/-- How a host lays out the bytes of a number. -/
inductive ByteOrder where
  | little
  | big
deriving DecidableEq, Repr

namespace ByteOrder
open Bytes

def arrange : ByteOrder → List UInt8 → List UInt8
  | little, b => b.reverse
  | big, b => b

def store (o : ByteOrder) (n x : Nat) : List UInt8 := o.arrange (toBytes n x)

def load (o : ByteOrder) (b : List UInt8) : Nat := ofBytes (o.arrange b)

@[simp] theorem arrange_length (o : ByteOrder) (b : List UInt8) :
    (o.arrange b).length = b.length := by
  cases o <;> simp [arrange]

@[simp] theorem arrange_arrange (o : ByteOrder) (b : List UInt8) : o.arrange (o.arrange b) = b := by
  cases o <;> simp [arrange]

@[simp] theorem store_length (o : ByteOrder) (n x : Nat) : (o.store n x).length = n := by
  simp [store]

theorem load_lt (o : ByteOrder) (b : List UInt8) : o.load b < 256 ^ b.length := by
  simpa [load] using ofBytes_lt (o.arrange b)

theorem store_load (o : ByteOrder) {n : Nat} {b : List UInt8} (hb : b.length = n) :
    o.store n (o.load b) = b := by
  have h := toBytes_ofBytes (o.arrange b)
  rw [arrange_length, hb] at h
  rw [store, load, h, arrange_arrange]

/-- The number whose bytes in memory are those of `x` in network order. -/
def hton (o : ByteOrder) (n x : Nat) : Nat := o.load (toBytes n x)

def ntoh (o : ByteOrder) (n x : Nat) : Nat := ofBytes (o.store n x)

theorem hton_lt (o : ByteOrder) (n x : Nat) : o.hton n x < 256 ^ n := by
  simpa [hton] using o.load_lt (toBytes n x)

theorem ntoh_lt (o : ByteOrder) (n x : Nat) : o.ntoh n x < 256 ^ n := by
  simpa [ntoh] using ofBytes_lt (o.store n x)

@[simp] theorem store_hton (o : ByteOrder) (n x : Nat) : o.store n (o.hton n x) = toBytes n x :=
  o.store_load (toBytes_length n x)

@[simp] theorem ntoh_load (o : ByteOrder) {n : Nat} {b : List UInt8} (hb : b.length = n) :
    o.ntoh n (o.load b) = ofBytes b := by rw [ntoh, o.store_load hb]

end ByteOrder
