import GeminiNOS.Foundations.ByteBlocks

/-! # MurmurHash3

`MurmurHash3_x86_32` as it is published: a left fold over the little-endian words of the
four-byte blocks from the front, a step for the one to three bytes that may follow, and a
finaliser for the length.
-/

namespace Foundations.MurmurHash3

def rotateLeft (x : UInt32) (r : ℕ) : UInt32 := .ofBitVec (x.toBitVec.rotateLeft r)

def word (bytes : List UInt8) : UInt32 := .ofNat (leNat bytes)

theorem word_singleton (byte : UInt8) : word [byte] = byte.toUInt32 := by
  rw [word, leNat_singleton, UInt32.ofNat_uInt8ToNat]

/-- One more byte is joined to a word by `or`. -/
theorem word_concat_or {bytes : List UInt8} (h : bytes.length < 4) (byte : UInt8) :
    word (bytes ++ [byte]) =
      word bytes ||| (byte.toUInt32 <<< UInt32.ofNat (8 * bytes.length)) := by
  rw [word, leNat_concat_or, UInt32.ofNat_or, UInt32.ofNat_shiftLeft _ _ (by omega),
    UInt32.ofNat_uInt8ToNat, word]

theorem word_concat_xor {bytes : List UInt8} (h : bytes.length < 4) (byte : UInt8) :
    word (bytes ++ [byte]) =
      (byte.toUInt32 <<< UInt32.ofNat (8 * bytes.length)) ^^^ word bytes := by
  rw [word, leNat_concat_xor, UInt32.ofNat_xor, UInt32.ofNat_shiftLeft _ _ (by omega),
    UInt32.ofNat_uInt8ToNat, UInt32.xor_comm, word]

/-- The scrambling of a word before it enters the hash. -/
def scramble (k : UInt32) : UInt32 := rotateLeft (k * 0xcc9e2d51) 15 * 0x1b873593

def blockStep (h : UInt32) (block : List UInt8) : UInt32 :=
  rotateLeft (h ^^^ scramble (word block)) 13 * 5 + 0xe6546b64

def tailStep (h : UInt32) (tail : List UInt8) : UInt32 :=
  if tail = [] then h else h ^^^ scramble (word tail)

theorem tailStep_cons (h : UInt32) (byte : UInt8) (bytes : List UInt8) :
    tailStep h (byte :: bytes) = h ^^^ scramble (word (byte :: bytes)) :=
  if_neg (List.cons_ne_nil byte bytes)

def fmix32 (h : UInt32) : UInt32 :=
  let h := (h ^^^ (h >>> 16)) * 0x85ebca6b
  let h := (h ^^^ (h >>> 13)) * 0xc2b2ae35
  h ^^^ (h >>> 16)

/-- `MurmurHash3_x86_32` -/
def x86_32 (seed : UInt32) (bytes : List UInt8) : UInt32 :=
  let body := (fullBlocks 4 bytes).foldl blockStep seed
  fmix32 (tailStep body (blockRest 4 bytes) ^^^ UInt32.ofNat bytes.length)

/-- The published value for `Hello, world!`. -/
example : x86_32 0x9747b28c [72, 101, 108, 108, 111, 44, 32, 119, 111, 114, 108, 100, 33] =
    0x24884cba := by decide +kernel

end Foundations.MurmurHash3
