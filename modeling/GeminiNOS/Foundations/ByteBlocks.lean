import Mathlib.Data.Nat.Digits.Defs

/-! # Blocks of bytes

A list is cut from the front into blocks of one length, with a shorter rest behind
them. The bytes of a block are the digits of a number, the lowest one first. Such a
number is also what the shifted bytes give under `or` or under `xor`, since no two of
them have a bit in common.
-/

namespace Foundations

section Blocks

variable {α : Type*} {l : List α} {n k : ℕ}

def blocks (n : ℕ) : ℕ → List α → List (List α)
  | 0, _ => []
  | k + 1, l => l.take n :: blocks n k (l.drop n)

def fullBlocks (n : ℕ) (l : List α) : List (List α) := blocks n (l.length / n) l

def blockRest (n : ℕ) (l : List α) : List α := l.drop (n * (l.length / n))

theorem length_blockRest (n : ℕ) (l : List α) : (blockRest n l).length = l.length % n := by
  rw [blockRest, List.length_drop, Nat.mod_eq_sub_mul_div]

theorem blocks_append (h : n * k ≤ l.length) (r : List α) : blocks n k (l ++ r) = blocks n k l := by
  induction k generalizing l with
  | zero => rfl
  | succ k ih =>
    rw [Nat.mul_succ] at h
    rw [blocks, blocks, List.take_append_of_le_length (by omega),
      List.drop_append_of_le_length (by omega), ih (by rw [List.length_drop]; omega)]

end Blocks

section LittleEndian

variable {a b k : ℕ}

/-- The number that bytes stand for, the lowest one first. -/
def leNat (bytes : List UInt8) : ℕ := Nat.ofDigits 256 (bytes.map UInt8.toNat)

theorem leNat_lt (bytes : List UInt8) : leNat bytes < 2 ^ (8 * bytes.length) := by
  have hdigits : ∀ digit ∈ bytes.map UInt8.toNat, digit < 256 := by
    intro digit hdigit
    obtain ⟨byte, -, rfl⟩ := List.mem_map.mp hdigit
    exact byte.toNat_lt
  have hlt := Nat.ofDigits_lt_base_pow_length (by decide) hdigits
  rwa [List.length_map, show 256 = 2 ^ 8 from rfl, ← pow_mul] at hlt

theorem leNat_singleton (byte : UInt8) : leNat [byte] = byte.toNat := Nat.ofDigits_singleton

theorem leNat_concat (bytes : List UInt8) (byte : UInt8) :
    leNat (bytes ++ [byte]) = leNat bytes + byte.toNat <<< (8 * bytes.length) := by
  rw [leNat, List.map_append, List.map_singleton, Nat.ofDigits_append, Nat.ofDigits_singleton,
    List.length_map, Nat.shiftLeft_eq, pow_mul, Nat.mul_comm byte.toNat]
  rfl

theorem or_shiftLeft_of_lt (h : a < 2 ^ k) (b : ℕ) : a ||| b <<< k = a + b <<< k := by
  rw [Nat.or_comm, Nat.add_comm]
  exact (Nat.shiftLeft_add_eq_or_of_lt h b).symm

theorem xor_shiftLeft_of_lt (h : a < 2 ^ k) (b : ℕ) : a ^^^ b <<< k = a + b <<< k := by
  rw [← or_shiftLeft_of_lt h]
  apply Nat.eq_of_testBit_eq
  intro i
  rw [Nat.testBit_xor, Nat.testBit_or, Nat.testBit_shiftLeft]
  rcases Nat.lt_or_ge i k with hi | hi
  · rw [decide_eq_false (Nat.not_le.mpr hi), Bool.false_and, Bool.xor_false, Bool.or_false]
  · have hlt : a < 2 ^ i := Nat.lt_of_lt_of_le h (Nat.pow_le_pow_right (by decide) hi)
    rw [Nat.testBit_lt_two_pow hlt, Bool.false_xor, Bool.false_or]

/-- A number below the shifted ones is joined to them by `or`. -/
theorem leNat_concat_or (bytes : List UInt8) (byte : UInt8) :
    leNat (bytes ++ [byte]) = leNat bytes ||| byte.toNat <<< (8 * bytes.length) := by
  rw [leNat_concat, or_shiftLeft_of_lt (leNat_lt bytes)]

theorem leNat_concat_xor (bytes : List UInt8) (byte : UInt8) :
    leNat (bytes ++ [byte]) = leNat bytes ^^^ byte.toNat <<< (8 * bytes.length) := by
  rw [leNat_concat, xor_shiftLeft_of_lt (leNat_lt bytes)]

end LittleEndian

end Foundations
