import GeminiNOS.Foundations.MurmurHash3
import GeminiNOS.Kv.Table
import Mathlib.Data.List.Basic

/-! # Agreement with the published hash

The code walks the blocks with a negative index from their end, and its switch falls through the
bytes of the tail. For every key this is the fold over the blocks from the front and the step for
the tail that `MurmurHash3_x86_32` is published with.
-/

namespace GeminiNOS

open Foundations MurmurHash3

variable {data key tail : Bytes} {nblocks i len : ℤ} {n : ℕ} {h1 : UInt32}

theorem murmurFinal_eq (h : UInt32) : murmurFinal h = fmix32 h := rfl

theorem byteAt_of_drop {l : Bytes} (hd : data.drop n = l) (j : ℕ) :
    byteAt data (n + j) = l.getD j 0 := by
  rw [← hd, List.getD_eq_getElem?_getD, List.getElem?_drop, ← List.getD_eq_getElem?_getD]
  rfl

theorem murmurBlock_eq (hn : nblocks * 4 + i * 4 = n) (h : n + 4 ≤ data.length) :
    murmurBlock data nblocks i = word ((data.drop n).take 4) := by
  have hlen : ((data.drop n).take 4).length = 4 := by
    apply List.length_take_of_le
    rw [List.length_drop]
    omega
  obtain ⟨a, b, c, d, hblock⟩ := List.length_eq_four.mp hlen
  have hd : data.drop n = [a, b, c, d] ++ (data.drop n).drop 4 := by
    rw [← hblock, List.take_append_drop]
  have hword : word [a, b, c, d] =
      a.toUInt32 ||| (b.toUInt32 <<< 8) ||| (c.toUInt32 <<< 16) ||| (d.toUInt32 <<< 24) := by
    rw [show [a, b, c, d] = [a] ++ [b] ++ [c] ++ [d] from rfl, word_concat_or (by simp),
      word_concat_or (by simp), word_concat_or (by simp), word_singleton]
    rfl
  have hbyte := byteAt_of_drop hd
  have ha : byteAt data (n + 0) = a := hbyte 0
  have hb : byteAt data (n + 1) = b := hbyte 1
  have hc : byteAt data (n + 2) = c := hbyte 2
  have hd : byteAt data (n + 3) = d := hbyte 3
  unfold murmurBlock
  simp only [hn, ha, hb, hc, hd, hblock, hword]

/-- The blocks from the end with a negative index are those from the front. -/
theorem murmurBody_eq {done rounds : ℕ} (h : 4 * (done + rounds) ≤ data.length) :
    murmurBody data (done + rounds : ℕ) rounds (-rounds) h1 =
      some ((blocks 4 rounds (data.drop (4 * done))).foldl blockStep h1) := by
  induction rounds generalizing done h1 with
  | zero => rfl
  | succ rounds ih =>
    have hn : ((done + (rounds + 1) : ℕ) : ℤ) * 4 + -((rounds + 1 : ℕ) : ℤ) * 4 =
        ((4 * done : ℕ) : ℤ) := by
      omega
    have hi : -((rounds + 1 : ℕ) : ℤ) + 1 = -(rounds : ℤ) := by omega
    have hdone : done + (rounds + 1) = (done + 1) + rounds := by omega
    rw [murmurBody, if_neg (by omega), murmurBlock_eq hn (by omega), hi, hdone, ih (by omega),
      blocks, List.foldl_cons, List.drop_drop]
    rfl

theorem murmurBody_blocks (h : 4 * n ≤ data.length) :
    murmurBody data n n (-n) h1 = some ((blocks 4 n data).foldl blockStep h1) := by
  simpa using @murmurBody_eq data h1 0 n (by omega)

theorem ofInt_natCast (n : ℕ) : UInt32.ofInt n = UInt32.ofNat n := UInt32.ofNat_mod_size

theorem ofInt_byte (byte : UInt8) : UInt32.ofInt byte.toNat = byte.toUInt32 := by
  rw [ofInt_natCast, UInt32.ofNat_uInt8ToNat]

theorem ofInt_byte_shiftLeft (byte : UInt8) {k : ℕ} (hk : k < 32) :
    UInt32.ofInt ((byte.toNat : ℤ) <<< k) = byte.toUInt32 <<< UInt32.ofNat k := by
  rw [← Int.natCast_shiftLeft, ofInt_natCast, UInt32.ofNat_shiftLeft _ _ hk,
    UInt32.ofNat_uInt8ToNat]

/-- The fall through the cases joins the bytes to one word. -/
theorem murmurTail_eq {rest : Bytes} (hn : nblocks * 4 = n) (hd : data.drop n = tail ++ rest)
    (hlen : len % 4 = tail.length) : murmurTail data nblocks len h1 = tailStep h1 tail := by
  have hbyte := byteAt_of_drop hd
  unfold murmurTail
  simp only [hn, hlen, Int.toNat_natCast]
  rcases tail with _ | ⟨a, _ | ⟨b, _ | ⟨c, _ | ⟨d, tail⟩⟩⟩⟩
  · rfl
  · have ha : byteAt data (n + 0) = a := hbyte 0
    have hword : word [a] = (0 : UInt32) ^^^ a.toUInt32 := by
      rw [word_singleton, UInt32.zero_xor]
    rw [tailStep_cons, hword, ha, ofInt_byte]
    rfl
  · have ha : byteAt data (n + 0) = a := hbyte 0
    have hb : byteAt data (n + 1) = b := hbyte 1
    have hword : word [a, b] = (0 : UInt32) ^^^ (b.toUInt32 <<< 8) ^^^ a.toUInt32 := by
      rw [show [a, b] = [a] ++ [b] from rfl, word_concat_xor (by simp), word_singleton,
        UInt32.zero_xor]
      rfl
    rw [tailStep_cons, hword, ha, hb, ofInt_byte, ofInt_byte_shiftLeft b (by decide)]
    rfl
  · have ha : byteAt data (n + 0) = a := hbyte 0
    have hb : byteAt data (n + 1) = b := hbyte 1
    have hc : byteAt data (n + 2) = c := hbyte 2
    have hword : word [a, b, c] =
        (0 : UInt32) ^^^ (c.toUInt32 <<< 16) ^^^ (b.toUInt32 <<< 8) ^^^ a.toUInt32 := by
      rw [show [a, b, c] = [a] ++ [b] ++ [c] from rfl, word_concat_xor (by simp),
        word_concat_xor (by simp), word_singleton, UInt32.zero_xor, UInt32.xor_assoc]
      rfl
    rw [tailStep_cons, hword, ha, hb, hc, ofInt_byte, ofInt_byte_shiftLeft b (by decide),
      ofInt_byte_shiftLeft c (by decide)]
    rfl
  · simp only [List.length_cons] at hlen
    omega

theorem murmurhash3_32_append (key rest : Bytes) (seed : UInt32) :
    murmurhash3_32 (key ++ rest) key.length seed = some (x86_32 seed key) := by
  have hle : 4 * (key.length / 4) ≤ key.length := Nat.mul_div_le _ _
  have hle' : 4 * (key.length / 4) ≤ (key ++ rest).length := by
    rw [List.length_append]
    omega
  have hnblocks : (key.length : ℤ).tdiv 4 = (key.length / 4 : ℕ) := rfl
  have hn : ((key.length / 4 : ℕ) : ℤ) * 4 = (4 * (key.length / 4) : ℕ) := by omega
  have htail : (key ++ rest).drop (4 * (key.length / 4)) = blockRest 4 key ++ rest :=
    List.drop_append_of_le_length hle
  have hrest : (key.length : ℤ) % 4 = (blockRest 4 key).length := by
    rw [length_blockRest]
    rfl
  rw [murmurhash3_32, hnblocks, Int.toNat_natCast, murmurBody_blocks hle', blocks_append hle,
    Option.map_some, murmurTail_eq hn htail hrest, ofInt_natCast, murmurFinal_eq, x86_32,
    fullBlocks]

/-- For a length that fits an `int`, the code computes the published hash, whatever stands behind
the key. -/
theorem murmurhash3_32_eq (key rest : Bytes) (seed : UInt32) (h : key.length < 2 ^ 31) :
    murmurhash3_32 (key ++ rest) (int32 key.length) seed = some (x86_32 seed key) := by
  rw [int32_eq_self h, murmurhash3_32_append]

/-- One block, a tail of three bytes and two bytes behind the key. -/
theorem murmurhash3_32_eq_seven_bytes :
    murmurhash3_32 ([103, 101, 109, 105, 110, 105, 33] ++ [1, 2]) (int32 7) 0x9747b28c =
        some (x86_32 0x9747b28c [103, 101, 109, 105, 110, 105, 33]) ∧
      x86_32 0x9747b28c [103, 101, 109, 105, 110, 105, 33] = 0x6faa513f :=
  ⟨murmurhash3_32_eq [103, 101, 109, 105, 110, 105, 33] [1, 2] 0x9747b28c (by decide), by decide⟩

/-- A table spreads its keys by the published hash of their first `key_size` bytes. -/
theorem NosKvTable.bucketOf_eq {table : NosKvTable} (hk : table.keySize < 2 ^ 31)
    (hlen : table.keySize ≤ key.length) :
    table.bucketOf key =
      some ((x86_32 0 (key.take table.keySize)).toNat % table.bucketCount) := by
  have hhash := murmurhash3_32_append (key.take table.keySize) (key.drop table.keySize) 0
  rw [List.take_append_drop, List.length_take_of_le hlen, ← int32_eq_self hk] at hhash
  rw [bucketOf, hhash, Option.map_some]

end GeminiNOS
