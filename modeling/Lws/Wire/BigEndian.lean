/-
  Lws.Wire.BigEndian — numbers as big-endian bytes.
-/

import Mathlib

namespace BigEndian

/-- The last `n` bytes of a number, the highest first. -/
def toBytes : Nat → Nat → List UInt8
  | 0, _ => []
  | n + 1, value => UInt8.ofNat (value / 256 ^ n) :: toBytes n value

def ofBytes (bytes : List UInt8) : Nat := bytes.foldl (fun acc b => acc * 256 + b.toNat) 0

@[simp] theorem length_toBytes (n value : Nat) : (toBytes n value).length = n := by
  induction n with
  | zero => rfl
  | succ n ih => simp [toBytes, ih]

theorem foldl_eq (bytes : List UInt8) (acc : Nat) :
    bytes.foldl (fun acc b => acc * 256 + b.toNat) acc = acc * 256 ^ bytes.length + ofBytes bytes := by
  induction bytes generalizing acc with
  | nil => simp [ofBytes]
  | cons b bytes ih =>
    have h0 := ih b.toNat
    simp only [ofBytes, List.foldl_cons, List.length_cons, Nat.zero_mul, Nat.zero_add] at ih h0 ⊢
    rw [ih, h0]
    ring

theorem ofBytes_cons (b : UInt8) (bytes : List UInt8) :
    ofBytes (b :: bytes) = b.toNat * 256 ^ bytes.length + ofBytes bytes := by
  simpa [ofBytes] using foldl_eq bytes b.toNat

theorem ofBytes_toBytes (n value : Nat) : ofBytes (toBytes n value) = value % 256 ^ n := by
  induction n with
  | zero => simp [toBytes, ofBytes, Nat.mod_one]
  | succ n ih =>
    have hpow : 256 ^ (n + 1) = 256 ^ n * 256 := pow_succ 256 n
    rw [toBytes, ofBytes_cons, length_toBytes, ih, UInt8.toNat_ofNat', hpow, Nat.mod_mul]
    ring

theorem ofBytes_toBytes_of_lt {n value : Nat} (h : value < 256 ^ n) : ofBytes (toBytes n value) = value := by
  rw [ofBytes_toBytes, Nat.mod_eq_of_lt h]

theorem ofBytes_lt (bytes : List UInt8) : ofBytes bytes < 256 ^ bytes.length := by
  induction bytes with
  | nil => simp [ofBytes]
  | cons b bytes ih =>
    rw [ofBytes_cons, List.length_cons, pow_succ, Nat.mul_comm _ 256]
    have hb : b.toNat + 1 ≤ 256 := b.toNat_lt
    calc b.toNat * 256 ^ bytes.length + ofBytes bytes
        < b.toNat * 256 ^ bytes.length + 256 ^ bytes.length := Nat.add_lt_add_left ih _
      _ = (b.toNat + 1) * 256 ^ bytes.length := by ring
      _ ≤ 256 * 256 ^ bytes.length := Nat.mul_le_mul_right _ hb

end BigEndian
