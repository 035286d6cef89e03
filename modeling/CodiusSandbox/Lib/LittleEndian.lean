import Mathlib.Algebra.Group.Nat.Defs
import Mathlib.Tactic.Common
/-!
# Numbers as bytes, the least significant first
-/
namespace LittleEndian

/-- The last `k` bytes of a number. -/
def toBytes : Nat → Nat → List UInt8
  | 0, _ => []
  | k + 1, n => UInt8.ofNat n :: toBytes k (n / 256)

def ofBytes : List UInt8 → Nat
  | [] => 0
  | b :: bytes => b.toNat + 256 * ofBytes bytes

@[simp] theorem length_toBytes (k n : Nat) : (toBytes k n).length = k := by
  induction k generalizing n with
  | zero => rfl
  | succ k ih => rw [toBytes, List.length_cons, ih]

theorem ofBytes_toBytes (k n : Nat) : ofBytes (toBytes k n) = n % 256 ^ k := by
  induction k generalizing n with
  | zero => simp [toBytes, ofBytes, Nat.mod_one]
  | succ k ih =>
    have hb : (UInt8.ofNat n).toNat = n % 256 := by simp
    rw [toBytes, ofBytes, ih, hb, Nat.pow_succ', Nat.mod_mul]

theorem ofBytes_append (low high : List UInt8) :
    ofBytes (low ++ high) = ofBytes low + 256 ^ low.length * ofBytes high := by
  induction low with
  | nil => rw [List.nil_append, List.length_nil, Nat.pow_zero, Nat.one_mul, ofBytes, Nat.zero_add]
  | cons b low ih =>
    rw [List.cons_append, ofBytes, ih, ofBytes, List.length_cons, Nat.pow_succ', Nat.mul_add, Nat.mul_assoc,
      Nat.add_assoc]

theorem ofBytes_lt (bytes : List UInt8) : ofBytes bytes < 256 ^ bytes.length := by
  induction bytes with
  | nil => exact Nat.one_pos
  | cons b bytes ih =>
    have := b.toNat_lt
    rw [ofBytes, List.length_cons, Nat.pow_succ']
    omega

end LittleEndian
