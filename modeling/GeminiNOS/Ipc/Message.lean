import GeminiNOS.Basic

/-! # The message envelope

The header that starts every message on a link, as little-endian words, and the
control messages of the IPC layer.
-/

namespace GeminiNOS

/-- `NOS_IPC_MAGIC` -/
def nosIpcMagic : ℕ := 0x4E4F

/-- `NOS_IPC_VERSION` -/
def nosIpcVersion : ℕ := 0x01

/-- `NOS_IPC_MSG_HELLO` -/
def nosIpcMsgHello : ℕ := 0xFFFF0001

/-- `NOS_IPC_MSG_SHM_EVENT` -/
def nosIpcMsgShmEvent : ℕ := 0xFFFF0003

/-- `sizeof(nos_service_msg_t)` -/
def sizeofNosServiceMsg : ℕ := 28

/-- The envelope `nos_service_msg_t`. -/
structure NosServiceMsg where
  magic : ℕ
  version : ℕ
  dstService : ℕ
  srcComponent : ℕ
  msgCode : ℕ
  seq : ℕ
  flags : ℕ
  payloadLen : ℕ
  deriving DecidableEq, Repr

/-- The little-endian number in `n` bytes from an offset on. -/
def wordAt (bytes : Bytes) (offset : ℕ) : ℕ → ℕ
  | 0 => 0
  | n + 1 => (bytes.getD offset 0).toNat + 256 * wordAt bytes (offset + 1) n

def parseHeader (bytes : Bytes) : NosServiceMsg where
  magic := wordAt bytes 0 2
  version := wordAt bytes 2 2
  dstService := wordAt bytes 4 4
  srcComponent := wordAt bytes 8 4
  msgCode := wordAt bytes 12 4
  seq := wordAt bytes 16 4
  flags := wordAt bytes 20 4
  payloadLen := wordAt bytes 24 4

/-- A number as `n` little-endian bytes. -/
def wordBytes : ℕ → ℕ → Bytes
  | 0, _ => []
  | n + 1, v => UInt8.ofNat v :: wordBytes n (v / 256)

def headerBytes (header : NosServiceMsg) : Bytes :=
  wordBytes 2 header.magic ++ (wordBytes 2 header.version ++ (wordBytes 4 header.dstService ++
    (wordBytes 4 header.srcComponent ++ (wordBytes 4 header.msgCode ++ (wordBytes 4 header.seq ++
      (wordBytes 4 header.flags ++ wordBytes 4 header.payloadLen))))))

def NosServiceMsg.wrap (header : NosServiceMsg) : NosServiceMsg where
  magic := header.magic % 256 ^ 2
  version := header.version % 256 ^ 2
  dstService := header.dstService % 256 ^ 4
  srcComponent := header.srcComponent % 256 ^ 4
  msgCode := header.msgCode % 256 ^ 4
  seq := header.seq % 256 ^ 4
  flags := header.flags % 256 ^ 4
  payloadLen := header.payloadLen % 256 ^ 4

theorem wordAt_lt (bytes : Bytes) (offset n : ℕ) : wordAt bytes offset n < 256 ^ n := by
  induction n generalizing offset with
  | zero => simp [wordAt]
  | succ n ih =>
    have := (bytes.getD offset 0).toNat_lt
    have := ih (offset + 1)
    rw [wordAt, Nat.pow_succ]
    omega

theorem payloadLen_parseHeader_lt (bytes : Bytes) : (parseHeader bytes).payloadLen < 2 ^ 32 :=
  wordAt_lt bytes 24 4

variable {xs ys : Bytes} {offset n : ℕ}

theorem wordAt_congr (h : ∀ i < offset + n, xs.getD i 0 = ys.getD i 0) :
    wordAt xs offset n = wordAt ys offset n := by
  induction n generalizing offset with
  | zero => rfl
  | succ n ih =>
    rw [wordAt, wordAt, h offset (by omega), ih fun i hi => h i (by omega)]

theorem wordAt_cons (b : UInt8) (xs : Bytes) (offset n : ℕ) :
    wordAt (b :: xs) (offset + 1) n = wordAt xs offset n := by
  induction n generalizing offset with
  | zero => rfl
  | succ n ih => rw [wordAt, wordAt, ih, List.getD_cons_succ]

theorem length_wordBytes (n v : ℕ) : (wordBytes n v).length = n := by
  induction n generalizing v with
  | zero => rfl
  | succ n ih => rw [wordBytes, List.length_cons, ih]

theorem wordAt_wordBytes (n v : ℕ) (ys : Bytes) :
    wordAt (wordBytes n v ++ ys) 0 n = v % 256 ^ n := by
  induction n generalizing v with
  | zero => rw [wordAt, Nat.pow_zero, Nat.mod_one]
  | succ n ih =>
    rw [wordBytes, List.cons_append, wordAt, wordAt_cons, ih, List.getD_cons_zero, Nat.pow_succ',
      Nat.mod_mul, UInt8.toNat_ofNat']

theorem wordAt_skip (k v o n : ℕ) (ys : Bytes) :
    wordAt (wordBytes k v ++ ys) (k + o) n = wordAt ys o n := by
  induction k generalizing v with
  | zero => rw [Nat.zero_add, wordBytes, List.nil_append]
  | succ k ih => rw [Nat.add_right_comm, wordBytes, List.cons_append, wordAt_cons, ih]

theorem length_headerBytes (header : NosServiceMsg) :
    (headerBytes header).length = sizeofNosServiceMsg := by
  simp [headerBytes, length_wordBytes, sizeofNosServiceMsg]

/-- A header is read back from its bytes. -/
theorem parseHeader_headerBytes (header : NosServiceMsg) (payload : Bytes) :
    parseHeader (headerBytes header ++ payload) = header.wrap := by
  simp only [parseHeader, NosServiceMsg.wrap, headerBytes, List.append_assoc]
  congr 1
  · rw [wordAt_wordBytes]
  · rw [show 2 = 2 + 0 from rfl, wordAt_skip, wordAt_wordBytes]
  · rw [show 4 = 2 + (2 + 0) from rfl, wordAt_skip, wordAt_skip, wordAt_wordBytes]
  · rw [show 8 = 2 + (2 + (4 + 0)) from rfl]
    simp only [wordAt_skip, wordAt_wordBytes]
  · rw [show 12 = 2 + (2 + (4 + (4 + 0))) from rfl]
    simp only [wordAt_skip, wordAt_wordBytes]
  · rw [show 16 = 2 + (2 + (4 + (4 + (4 + 0)))) from rfl]
    simp only [wordAt_skip, wordAt_wordBytes]
  · rw [show 20 = 2 + (2 + (4 + (4 + (4 + (4 + 0))))) from rfl]
    simp only [wordAt_skip, wordAt_wordBytes]
  · rw [show 24 = 2 + (2 + (4 + (4 + (4 + (4 + (4 + 0)))))) from rfl]
    simp only [wordAt_skip, wordAt_wordBytes]

theorem parseHeader_take (h : sizeofNosServiceMsg ≤ xs.length) :
    parseHeader (xs.take sizeofNosServiceMsg ++ ys) = parseHeader xs := by
  have hget : ∀ i < sizeofNosServiceMsg,
      (xs.take sizeofNosServiceMsg ++ ys).getD i 0 = xs.getD i 0 := by
    intro i hi
    have hlen : i < (xs.take sizeofNosServiceMsg).length := by
      rw [List.length_take, Nat.min_eq_left h]
      exact hi
    rw [List.getD_eq_getElem?_getD, List.getElem?_append_left hlen, List.getElem?_take_of_lt hi,
      List.getD_eq_getElem?_getD]
  unfold parseHeader
  congr 1 <;> exact wordAt_congr fun i hi => hget i (by unfold sizeofNosServiceMsg; omega)

end GeminiNOS
