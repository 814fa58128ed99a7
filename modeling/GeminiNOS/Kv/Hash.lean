import GeminiNOS.Basic

/-! # The hash of the key-value tables

`MurmurHash3_x86_32` as `nos_kv.c` computes it, on a little-endian machine.
-/

namespace GeminiNOS

def rotl32 (x r : UInt32) : UInt32 := (x <<< r) ||| (x >>> (32 - r))

/-- The byte at an offset from `data`. -/
def byteAt (data : Bytes) (offset : ℤ) : UInt8 := data.getD offset.toNat 0

/-- `blocks[i]`, the little-endian word `i` places from the end of the blocks. -/
def murmurBlock (data : Bytes) (nblocks i : ℤ) : UInt32 :=
  let byte := fun j : ℤ => (byteAt data (nblocks * 4 + i * 4 + j)).toUInt32
  byte 0 ||| (byte 1 <<< 8) ||| (byte 2 <<< 16) ||| (byte 3 <<< 24)

def murmurScramble (k1 : UInt32) : UInt32 := rotl32 (k1 * 0xcc9e2d51) 15 * 0x1b873593

/-- The loop over the blocks, which ends when `i` is zero. -/
def murmurBody (data : Bytes) (nblocks : ℤ) : ℕ → ℤ → UInt32 → Option UInt32
  | 0, i, h1 => if i = 0 then some h1 else none
  | rounds + 1, i, h1 =>
    if i = 0 then some h1
    else
      let h1 := h1 ^^^ murmurScramble (murmurBlock data nblocks i)
      murmurBody data nblocks rounds (i + 1) (rotl32 h1 13 * 5 + 0xe6546b64)

/-- The switch over the bytes behind the last block. Each case falls through to the next one, and
a byte is an `int` when it is shifted. -/
def murmurTail (data : Bytes) (nblocks len : ℤ) (h1 : UInt32) : UInt32 :=
  let tail := fun i : ℤ => ((byteAt data (nblocks * 4 + i)).toNat : ℤ)
  let case1 := fun k1 : UInt32 => h1 ^^^ murmurScramble (k1 ^^^ UInt32.ofInt (tail 0))
  let case2 := fun k1 : UInt32 => case1 (k1 ^^^ UInt32.ofInt (tail 1 <<< (8 : ℕ)))
  let case3 := fun k1 : UInt32 => case2 (k1 ^^^ UInt32.ofInt (tail 2 <<< (16 : ℕ)))
  match (len % 4).toNat with
  | 3 => case3 0
  | 2 => case2 0
  | 1 => case1 0
  | _ => h1

def murmurFinal (h1 : UInt32) : UInt32 :=
  let h1 := (h1 ^^^ (h1 >>> 16)) * 0x85ebca6b
  let h1 := (h1 ^^^ (h1 >>> 13)) * 0xc2b2ae35
  h1 ^^^ (h1 >>> 16)

/-- `murmurhash3_32`. For a negative number of blocks the loop counts up from a positive `i`, runs
out of the key and never meets zero, so that there is no result. -/
def murmurhash3_32 (key : Bytes) (len : ℤ) (seed : UInt32) : Option UInt32 :=
  let nblocks := len.tdiv 4
  (murmurBody key nblocks nblocks.toNat (-nblocks) seed).map fun h1 =>
    murmurFinal (murmurTail key nblocks len h1 ^^^ UInt32.ofInt len)

/-- The published test vector for the four bytes `test` with seed 0. -/
example : murmurhash3_32 [116, 101, 115, 116] 4 0 = some 0xba6bd213 := by decide

theorem tdiv_four_nonneg_iff {len : ℤ} : 0 ≤ len.tdiv 4 ↔ -4 < len := by
  rw [Int.tdiv_eq_ediv, show Int.sign 4 = 1 from rfl]
  split <;> omega

theorem isSome_murmurBody {data : Bytes} {nblocks i : ℤ} {rounds : ℕ} {h1 : UInt32}
    (h : -i ≤ rounds) : (murmurBody data nblocks rounds i h1).isSome ↔ i ≤ 0 := by
  induction rounds generalizing i h1 with
  | zero =>
    rw [murmurBody]
    split
    · exact iff_of_true rfl (by omega)
    · exact iff_of_false Bool.false_ne_true (by omega)
  | succ rounds ih =>
    rw [murmurBody]
    split
    · exact iff_of_true rfl (by omega)
    · rw [ih (by omega)]
      omega

theorem isSome_murmurhash3_32 {key : Bytes} {len : ℤ} {seed : UInt32} :
    (murmurhash3_32 key len seed).isSome ↔ -4 < len := by
  rw [murmurhash3_32, Option.isSome_map, isSome_murmurBody (by omega), Int.neg_nonpos_iff,
    tdiv_four_nonneg_iff]

end GeminiNOS
