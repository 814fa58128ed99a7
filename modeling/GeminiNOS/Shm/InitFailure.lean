import GeminiNOS.Shm.NodeRegistry

/-! # A node without shared memory

`nos_shm_init` returns an error at four points, and a node goes on after each of them. What
it leaves behind are two pointers and the index of a queue, in a combination that is
different for each point. The entry points that come later test the one or the other of
them, or none.
-/

namespace GeminiNOS

/-- `SHM_MAGIC` -/
def shmMagic : ℕ := 0xAABBCCDD

/-- The values of the pointers `g_shm_base` and `g_shm_hdr`. -/
inductive ShmBase where
  | null
  | mapFailed
  | mapped
  deriving DecidableEq, Repr

/-- The static variables of a process. -/
structure ShmStatics where
  base : ShmBase
  hdr : ShmBase
  localQueueIdx : Option ℕ
  deriving DecidableEq, Repr

/-- A slot of the registry of nodes. -/
structure ShmNodeSlot where
  inUse : Bool
  nodeName : Bytes
  deriving DecidableEq, Repr

/-- The words of the shared memory that a call reads and writes. -/
structure ShmMemory where
  magic : ℕ
  nodes : ℕ → ShmNodeSlot
  freeListHead : ℕ
  totalAllocated : ℕ
  nextFree : ℕ → ℕ
  refCount : ℕ → ℕ

/-- What a start meets: whether the object is there and can be mapped, and what it reads of the
shared memory, which others write at the same time. -/
structure ShmInitEnv where
  opened : Bool
  canMap : Bool
  magicReads : ℕ → ℕ
  slots : ℕ → ShmNodeSlot

/-- A call: the pointers to the shared memory that it dereferences, and what it returns, if it does
not stop at an invalid one. -/
structure ShmCall (α : Type*) where
  derefs : List ShmBase
  returns : Option α

/-- An address in the shared memory. -/
structure ShmPtr where
  base : ShmBase
  offset : ℕ
  deriving DecidableEq, Repr

def ShmCall.ret {α : Type*} (a : α) : ShmCall α := ⟨[], some a⟩

def ShmCall.deref {α : Type*} (p : ShmBase) (rest : ShmCall α) : ShmCall α :=
  if p = .mapped then ⟨p :: rest.derefs, rest.returns⟩ else ⟨[p], none⟩

def ShmStatics.zero : ShmStatics := ⟨.null, .null, none⟩

/-- The search for a slot in `nos_shm_init`: the first one that is free or has the name. -/
def ShmInitEnv.findSlot (env : ShmInitEnv) (nodeName : Bytes) : Option ℕ :=
  (List.range maxShmNodes).find? fun i =>
    (env.slots i).inUse = false ∨ (env.slots i).nodeName = nodeName

/-- The loop that waits for the magic number comes to it. It gives up after 51 other ones. -/
def ShmInitEnv.initialised (env : ShmInitEnv) : Bool :=
  (List.range 51).any fun k => env.magicReads k = shmMagic

/-- `nos_shm_init` as far as it sets the variables of the process. -/
def nosShmInit (env : ShmInitEnv) (nodeName : Bytes) : NosStatus × ShmStatics :=
  let s := ShmStatics.zero
  if env.opened = false then (.err, s)
  else if env.canMap = false then (.err, { s with base := .mapFailed })
  else
    let s := { s with base := .mapped, hdr := .mapped }
    if env.initialised = false then (.err, s)
    else
      match env.findSlot nodeName with
      | none => (.err, s)
      | some i => (.ok, { s with localQueueIdx := some i })

namespace ShmStatics

/-- `nos_shm_offset_to_ptr` -/
def nosShmOffsetToPtr (s : ShmStatics) (offset : ℕ) : Option ShmPtr :=
  if offset = 0 ∨ s.base = .null then none else some ⟨s.base, offset⟩

/-- `nos_shm_get_local_queue` -/
def nosShmGetLocalQueue (s : ShmStatics) : ShmCall (Option ℕ) := .ret s.localQueueIdx

/-- `nos_shm_get_remote_queue` -/
def nosShmGetRemoteQueue (s : ShmStatics) (mem : ShmMemory) (nodeName : Bytes) :
    ShmCall (Option ℕ) :=
  if s.hdr = .null then .ret none
  else .deref s.hdr <| .ret <| (List.range maxShmNodes).find? fun i =>
    (mem.nodes i).inUse ∧ (mem.nodes i).nodeName = nodeName

/-- `nos_shm_buffer_alloc`, with the shared memory after it. The buffer is named by the offset of
its block. -/
def nosShmBufferAlloc (s : ShmStatics) (mem : ShmMemory) (size : ℕ) :
    ShmCall (Option ℕ × ShmMemory) :=
  if 4096 < size then .ret (none, mem)
  else .deref s.hdr <|
    let head := mem.freeListHead
    if head = 0 then .ret (none, mem)
    else .deref ((s.nosShmOffsetToPtr head).elim .null ShmPtr.base) <| .ret
      (some head,
        { mem with
          freeListHead := mem.nextFree head
          totalAllocated := u32 (mem.totalAllocated + 1)
          refCount := Function.update mem.refCount head 1 })

end ShmStatics

/-- An entry point of the shared memory that a node calls after its start. -/
inductive ShmEntryPoint where
  | bufferAlloc (size : ℕ)
  | getLocalQueue
  | getRemoteQueue (nodeName : Bytes)
  | offsetToPtr (offset : ℕ)
  deriving DecidableEq, Repr

/-- A call dereferences nothing but a mapping that is initialised, and returns. -/
structure ShmCall.Safe {α : Type*} (call : ShmCall α) (mem : ShmMemory) (a : α) : Prop where
  derefs : ∀ p ∈ call.derefs, p = .mapped ∧ mem.magic = shmMagic
  returns : call.returns = some a

/-- What a node counts on after a failed start: it gets no buffer, no queue and no pointer into a
mapping that has failed. -/
def ShmStatics.Survives (s : ShmStatics) (mem : ShmMemory) : ShmEntryPoint → Prop
  | .bufferAlloc size => (s.nosShmBufferAlloc mem size).Safe mem (none, mem)
  | .getLocalQueue => s.nosShmGetLocalQueue.Safe mem none
  | .getRemoteQueue nodeName => (s.nosShmGetRemoteQueue mem nodeName).Safe mem none
  | .offsetToPtr offset => ∀ p, s.nosShmOffsetToPtr offset = some p → p.base = .mapped

/-- The condition on what the start has met and on the shared memory at the time of the call. -/
def ShmInitEnv.CallFails (env : ShmInitEnv) (mem : ShmMemory) : ShmEntryPoint → Prop
  | .bufferAlloc size => 4096 < size ∨
    env.opened = true ∧ env.canMap = true ∧ mem.magic = shmMagic ∧ mem.freeListHead = 0
  | .getLocalQueue => True
  | .getRemoteQueue nodeName => env.opened = false ∨ env.canMap = false ∨
    mem.magic = shmMagic ∧
      ∀ i < maxShmNodes, (mem.nodes i).inUse = true → (mem.nodes i).nodeName ≠ nodeName
  | .offsetToPtr offset => offset = 0 ∨ env.opened = false ∨ env.canMap = true

variable {env : ShmInitEnv} {nodeName : Bytes} {s : ShmStatics} {mem : ShmMemory} {size : ℕ}

theorem statics_of_err (h : nosShmInit env nodeName = (.err, s)) :
    (env.opened = false ∧ s = ⟨.null, .null, none⟩) ∨
    (env.opened = true ∧ env.canMap = false ∧ s = ⟨.mapFailed, .null, none⟩) ∨
    env.opened = true ∧ env.canMap = true ∧ s = ⟨.mapped, .mapped, none⟩ := by
  unfold nosShmInit at h
  split at h <;> rename_i hopened
  · obtain ⟨-, rfl⟩ := Prod.mk.inj h
    exact .inl ⟨hopened, rfl⟩
  · replace hopened := Bool.eq_true_of_not_eq_false hopened
    split at h <;> rename_i hmap
    · obtain ⟨-, rfl⟩ := Prod.mk.inj h
      exact .inr (.inl ⟨hopened, hmap, rfl⟩)
    · replace hmap := Bool.eq_true_of_not_eq_false hmap
      refine .inr (.inr ⟨hopened, hmap, ?_⟩)
      -- Both loops leave the mapping as it is when they give up.
      split at h
      · exact (Prod.mk.inj h).2.symm
      · split at h
        · exact (Prod.mk.inj h).2.symm
        · cases h

namespace ShmCall

variable {α : Type*} {a : α} {call : ShmCall α} {p : ShmBase}

theorem safe_ret (a' : α) : (ret a').Safe mem a ↔ a' = a :=
  ⟨fun h => Option.some.inj h.returns, fun h => ⟨fun _ hp => absurd hp List.not_mem_nil, h ▸ rfl⟩⟩

theorem safe_deref :
    (deref p call).Safe mem a ↔ p = .mapped ∧ mem.magic = shmMagic ∧ call.Safe mem a := by
  unfold deref
  split <;> rename_i hp
  · constructor
    · intro h
      exact ⟨hp, (h.derefs p List.mem_cons_self).2,
        fun q hq => h.derefs q (List.mem_cons_of_mem p hq), h.returns⟩
    · rintro ⟨-, hmagic, h⟩
      refine ⟨fun q hq => ?_, h.returns⟩
      rcases List.mem_cons.mp hq with rfl | hq
      · exact ⟨hp, hmagic⟩
      · exact h.derefs q hq
  · exact iff_of_false (fun h => by cases h.returns) fun h => hp h.1

end ShmCall

namespace ShmStatics

theorem safe_bufferAlloc : (s.nosShmBufferAlloc mem size).Safe mem (none, mem) ↔
    4096 < size ∨ s.hdr = .mapped ∧ mem.magic = shmMagic ∧ mem.freeListHead = 0 := by
  unfold nosShmBufferAlloc
  split <;> rename_i hsize
  · exact iff_of_true ((ShmCall.safe_ret _).mpr rfl) (.inl hsize)
  · rw [or_iff_right hsize, ShmCall.safe_deref]
    dsimp only
    split <;> rename_i hhead
    · simp only [ShmCall.safe_ret, hhead, and_true]
    · simp only [ShmCall.safe_deref, ShmCall.safe_ret, hhead, Prod.mk.injEq, reduceCtorEq,
        false_and, and_false]

theorem safe_getRemoteQueue : (s.nosShmGetRemoteQueue mem nodeName).Safe mem none ↔
    s.hdr = .null ∨ s.hdr = .mapped ∧ mem.magic = shmMagic ∧
      ∀ i < maxShmNodes, (mem.nodes i).inUse = true → (mem.nodes i).nodeName ≠ nodeName := by
  unfold nosShmGetRemoteQueue
  split <;> rename_i hhdr
  · exact iff_of_true ((ShmCall.safe_ret _).mpr rfl) (.inl hhdr)
  · rw [or_iff_right hhdr, ShmCall.safe_deref, ShmCall.safe_ret]
    simp only [List.find?_eq_none, List.mem_range, decide_eq_true_eq, not_and]

theorem offsetToPtr_mapped (offset : ℕ) :
    (∀ p, s.nosShmOffsetToPtr offset = some p → p.base = .mapped) ↔
      offset = 0 ∨ s.base = .null ∨ s.base = .mapped := by
  unfold nosShmOffsetToPtr
  rw [← or_assoc]
  split <;> rename_i hnull
  · exact iff_of_true (by rintro p ⟨⟩) (.inl hnull)
  · simp [hnull]

end ShmStatics

/-- After a failed start, a call does what the node counts on if and only if it meets the
condition. -/
theorem survives_iff_callFails (h : nosShmInit env nodeName = (.err, s)) (mem : ShmMemory)
    (entry : ShmEntryPoint) : s.Survives mem entry ↔ env.CallFails mem entry := by
  have hstatics := statics_of_err h
  cases entry with
  | bufferAlloc size =>
    refine ShmStatics.safe_bufferAlloc.trans ?_
    rcases hstatics with ⟨hopen, rfl⟩ | ⟨hopen, hmap, rfl⟩ | ⟨hopen, hmap, rfl⟩ <;>
      simp [ShmInitEnv.CallFails, *]
  | getLocalQueue =>
    refine iff_of_true ((ShmCall.safe_ret _).mpr ?_) trivial
    rcases hstatics with ⟨-, rfl⟩ | ⟨-, -, rfl⟩ | ⟨-, -, rfl⟩ <;> rfl
  | getRemoteQueue name =>
    refine ShmStatics.safe_getRemoteQueue.trans ?_
    rcases hstatics with ⟨hopen, rfl⟩ | ⟨hopen, hmap, rfl⟩ | ⟨hopen, hmap, rfl⟩ <;>
      simp [ShmInitEnv.CallFails, *]
  | offsetToPtr offset =>
    refine (ShmStatics.offsetToPtr_mapped offset).trans ?_
    rcases hstatics with ⟨hopen, rfl⟩ | ⟨hopen, hmap, rfl⟩ | ⟨hopen, hmap, rfl⟩ <;>
      simp [ShmInitEnv.CallFails, *]

def noShm : ShmInitEnv := ⟨false, false, fun _ => 0, fun _ => ⟨false, []⟩⟩

/-- Without shared memory the lookup of a queue fails, as it should. -/
theorem survives_getRemoteQueue_noShm : ShmStatics.zero.Survives
    ⟨0, fun _ => ⟨false, []⟩, 0, 0, fun _ => 0, fun _ => 0⟩ (.getRemoteQueue [77]) := by
  have hfails : nosShmInit noShm [78] = (.err, .zero) := rfl
  exact (survives_iff_callFails hfails _ (.getRemoteQueue [77])).mpr (.inl rfl)

/-- Without shared memory an allocation of 64 bytes dereferences a null pointer. -/
theorem not_survives_bufferAlloc_noShm : ∃ s, nosShmInit noShm [78] = (.err, s) ∧
    ∀ mem, (s.nosShmBufferAlloc mem 64).derefs = [.null] ∧ ¬ s.Survives mem (.bufferAlloc 64) := by
  refine ⟨_, rfl, fun mem => ⟨rfl, fun h => ?_⟩⟩
  exact absurd (h.derefs .null List.mem_cons_self).1 (by decide)

end GeminiNOS
