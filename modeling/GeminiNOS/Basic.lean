import Mathlib.Algebra.Ring.Int.Defs
import Mathlib.Algebra.Ring.Nat
import Mathlib.Tactic.Common

/-! # Status codes and machine words

The status codes that every NOS interface returns, the reduction of a natural
number to the 32-bit and 64-bit unsigned words of the C sources, and the size of
the message queues that the scheduler and the message path share.
-/

namespace GeminiNOS

/-- The common status codes `nos_status_t`. -/
inductive NosStatus where
  | ok
  | err
  | errNomem
  | errNotFound
  | errBusy
  | errTimeout
  deriving DecidableEq, Repr

abbrev u32 (n : ℕ) : ℕ := n % 2 ^ 32

abbrev u64 (n : ℕ) : ℕ := n % 2 ^ 64

/-- The value of an unsigned 32-bit word that is passed as an `int`. -/
def int32 (n : ℕ) : ℤ := if n % 2 ^ 32 < 2 ^ 31 then (n % 2 ^ 32 : ℕ) else (n % 2 ^ 32 : ℕ) - 2 ^ 32

theorem int32_of_lt {n : ℕ} (h : n % 2 ^ 32 < 2 ^ 31) : int32 n = (n % 2 ^ 32 : ℕ) := if_pos h

theorem int32_neg {n : ℕ} (h : ¬ n % 2 ^ 32 < 2 ^ 31) : int32 n < 0 := by
  have hlt := Nat.mod_lt n (show 0 < 2 ^ 32 by decide)
  rw [int32, if_neg h]
  omega

theorem int32_eq_self {n : ℕ} (h : n < 2 ^ 31) : int32 n = n := by
  have hmod : n % 2 ^ 32 = n := Nat.mod_eq_of_lt (by omega)
  rw [int32_of_lt (by omega), hmod]

/-- `MAX_QUEUE_SIZE`, of the message queue of a thread. -/
def maxQueueSize : ℕ := 1024

theorem maxQueueSize_pos : 0 < maxQueueSize := by decide

abbrev Bytes := List UInt8

/-- A file descriptor number; the failing calls return `-1`. -/
abbrev Fd := ℤ

end GeminiNOS
