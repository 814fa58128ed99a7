import GeminiNOS.Shm.BlockPool
import GeminiNOS.Shm.InitFailure

/-! # Publication of the shared memory

The daemon creates the shared memory object, gives it its size, clears the header, links the
blocks and writes the magic number last. Nodes may open the object at any time and wait for the
number. A daemon that ends removes the name of the object, and one that starts takes an object
that still has the name.
-/

namespace GeminiNOS

open Foundations

/-- `nos_shm_block_t` -/
structure ShmBlock where
  offset : ℕ
  size : ℕ
  refCount : ℕ
  nextFree : ℕ
  deriving DecidableEq, Repr

/-- A shared memory object: whether it has got its size, the header and the blocks by their
offsets. -/
structure ShmObject where
  sized : Bool
  magic : ℕ
  slots : ℕ → ShmNodeSlot
  rxQueues : ℕ → QueueIndices
  queueOffsets : ℕ → ℕ → ℕ
  freeListHead : ℕ
  totalAllocated : ℕ
  blocks : ℕ → ShmBlock

namespace ShmObject

def fresh : ShmObject where
  sized := false
  magic := 0
  slots _ := ⟨false, []⟩
  rxQueues _ := ⟨0, 0⟩
  queueOffsets _ _ := 0
  freeListHead := 0
  totalAllocated := 0
  blocks _ := ⟨0, 0, 0, 0⟩

/-- The `memset` of the header. -/
def clearHeader (o : ShmObject) : ShmObject := { fresh with sized := o.sized, blocks := o.blocks }

/-- A turn of the loop in `init_shm_pool`. -/
def initBlock (o : ShmObject) (i offset : ℕ) : ShmObject :=
  { o with
    blocks := Function.update o.blocks offset
      ⟨offset, 4096, 0, if i = shmNumBlocks - 1 then 0 else offset + shmBlockSize⟩ }

/-- The header is zero, apart from the words of the pool. -/
structure HeaderCleared (o : ShmObject) : Prop where
  magic : o.magic = 0
  slots : ∀ i, o.slots i = ⟨false, []⟩
  rxQueues : ∀ i, o.rxQueues i = ⟨0, 0⟩
  queueOffsets : ∀ i j, o.queueOffsets i j = 0

/-- The first blocks are as the pool starts with them. -/
def BlocksLinked (o : ShmObject) (n : ℕ) : Prop :=
  ∀ i < n, o.blocks (shmBlockOffset i) = ⟨shmBlockOffset i, 4096,
    (ShmPool.initShmPool : ShmPool Unit).refCount (shmBlockOffset i),
    (ShmPool.initShmPool : ShmPool Unit).nextFree (shmBlockOffset i)⟩

/-- The memory that the registry of nodes, the receive queues and the block pool start from. -/
structure Initialised (o : ShmObject) : Prop where
  registry : ∀ i, o.slots i = ⟨(ShmNodes.init : ShmNodes Unit).inUse i,
    (ShmNodes.init : ShmNodes Unit).nodeName i⟩
  queues : ∀ i, o.rxQueues i = ⟨(NosShmMpscQueue.empty : NosShmMpscQueue Unit).head,
    (NosShmMpscQueue.empty : NosShmMpscQueue Unit).tail⟩
  queueOffsets : ∀ i j,
    o.queueOffsets i j = (NosShmMpscQueue.empty : NosShmMpscQueue Unit).offsets j
  freeListHead : o.freeListHead = (ShmPool.initShmPool : ShmPool Unit).freeListHead
  totalAllocated : o.totalAllocated = (ShmPool.initShmPool : ShmPool Unit).totalAllocated
  blocks : o.BlocksLinked shmNumBlocks

end ShmObject

/-- Where the daemon stands in `_nos_shm_create_and_init`, with its object: before the call or the
write that the name says. -/
inductive DaemonPc where
  | down
  | truncate (g : ℕ)
  | map (g : ℕ)
  | clear (g : ℕ)
  | block (g i offset : ℕ)
  | freeList (g : ℕ)
  | total (g : ℕ)
  | publish (g : ℕ)
  | serving (g : ℕ)
  deriving DecidableEq, Repr

def DaemonPc.target : DaemonPc → Option ℕ
  | .down | .serving _ => none
  | .truncate g | .map g | .clear g | .block g _ _ | .freeList g | .total g | .publish g => some g

/-- Where a node stands in `nos_shm_init`, with its object and the turns that it has waited. A node
that reads an object without a size faults. -/
inductive AttachPc where
  | down
  | map (g : ℕ)
  | poll (g waitCount : ℕ)
  | attached (g : ℕ)
  | failed
  | faulted
  deriving DecidableEq, Repr

/-- The objects, which of them has the name `NOS_SHM_NAME`, the daemon and the nodes, and the
objects that some node has attached to. -/
structure ShmHost (N : Type*) where
  name : Option ℕ
  objects : ℕ → ShmObject
  count : ℕ
  daemon : DaemonPc
  node : N → AttachPc
  visited : ℕ → Bool

/-- The start of the daemon, its next step, its end by a signal and by force, the start of a node,
its next step, its end, and whatever an attached node writes. A system call may fail. -/
inductive ShmHostAction (N : Type*) where
  | startDaemon (ok : Bool)
  | daemon (ok : Bool)
  | signal
  | kill
  | startNode (n : N) (ok : Bool)
  | node (n : N) (ok : Bool)
  | crash (n : N)
  | use (n : N) (o : ShmObject)

namespace ShmHost

variable {N : Type*} [DecidableEq N]

def init : ShmHost N where
  name := none
  objects _ := .fresh
  count := 0
  daemon := .down
  node _ := .down
  visited _ := false

def setObject (s : ShmHost N) (g : ℕ) (o : ShmObject) : ShmHost N :=
  { s with objects := Function.update s.objects g o }

def setNode (s : ShmHost N) (n : N) (pc : AttachPc) : ShmHost N :=
  { s with node := Function.update s.node n pc }

def write (s : ShmHost N) (g : ℕ) (o : ShmObject) (pc : DaemonPc) : ShmHost N :=
  { s.setObject g o with daemon := pc }

/-- The `shm_open` of the daemon: it creates an object if none has the name. -/
def openOrCreate (s : ShmHost N) : ShmHost N :=
  match s.name with
  | some g => { s with daemon := .truncate g }
  | none => { s with name := some s.count, count := s.count + 1, daemon := .truncate s.count }

/-- The next step of `_nos_shm_create_and_init`. -/
def stepDaemon (s : ShmHost N) (ok : Bool) : Option (ShmHost N) :=
  match s.daemon with
  | .down | .serving _ => none
  | .truncate g =>
    if ok then some (s.write g { s.objects g with sized := true } (.map g))
    else some { s with daemon := .down }
  | .map g => some { s with daemon := if ok then .clear g else .down }
  | .clear g => some (s.write g (s.objects g).clearHeader (.block g 0 sizeofNosShmHeader))
  | .block g i offset =>
    if i < shmNumBlocks then
      some (s.write g ((s.objects g).initBlock i offset) (.block g (i + 1) (offset + shmBlockSize)))
    else some { s with daemon := .freeList g }
  | .freeList g =>
    some (s.write g { s.objects g with freeListHead := sizeofNosShmHeader } (.total g))
  | .total g => some (s.write g { s.objects g with totalAllocated := 0 } (.publish g))
  | .publish g => some (s.write g { s.objects g with magic := shmMagic } (.serving g))

/-- The next step of `nos_shm_init` up to the end of the wait. -/
def stepNode (s : ShmHost N) (n : N) (ok : Bool) : Option (ShmHost N) :=
  match s.node n with
  | .map g => some (s.setNode n (if ok then .poll g 0 else .failed))
  | .poll g waitCount =>
    if (s.objects g).sized = false then some (s.setNode n .faulted)
    else if (s.objects g).magic = shmMagic then
      some { s.setNode n (.attached g) with visited := Function.update s.visited g true }
    else if 50 < waitCount + 1 then some (s.setNode n .failed)
    else some (s.setNode n (.poll g (waitCount + 1)))
  | _ => none

def step (s : ShmHost N) : ShmHostAction N → Option (ShmHost N)
  | .startDaemon ok =>
    if s.daemon = .down then some (if ok then s.openOrCreate else s) else none
  | .daemon ok => s.stepDaemon ok
  | .signal =>
    match s.daemon with
    | .serving _ => some { s with daemon := .down, name := none }
    | _ => none
  | .kill => some { s with daemon := .down }
  | .startNode n ok =>
    if s.node n = .down then
      some (s.setNode n (if ok then (s.name.map .map).getD .failed else .failed))
    else none
  | .node n ok => s.stepNode n ok
  | .crash n => some (s.setNode n .down)
  | .use n o =>
    match s.node n with
    | .attached g =>
      some (s.setObject g { o with sized := true, magic := (s.objects g).magic })
    | _ => none

/-- The daemon does not start on an object that has been published before. -/
def Unpublished (s : ShmHost N) : ShmHostAction N → Prop
  | .startDaemon _ => ∀ g, s.name = some g → (s.objects g).magic ≠ shmMagic
  | _ => True

/-- The first node that attaches to an object finds it initialised, and the daemon writes to no
object that a node has attached to. The loop over the blocks stays inside the object, and no node
waits for more than 50 turns. -/
structure Attaches (s : ShmHost N) : Prop where
  first : ∀ g, (s.objects g).magic = shmMagic → s.visited g = false → (s.objects g).Initialised
  alone : ∀ n g, s.node n = .attached g → s.daemon.target ≠ some g
  inside : ∀ g i offset, s.daemon = .block g i offset → i < shmNumBlocks →
    sizeofNosShmHeader ≤ offset ∧ offset + shmBlockSize ≤ nosShmSize
  waits : ∀ n g waitCount, s.node n = .poll g waitCount → waitCount ≤ 50

end ShmHost

theorem shmBlockOffset_inj {i j : ℕ} (h : shmBlockOffset i = shmBlockOffset j) : i = j := by
  simp only [shmBlockOffset, shmBlockSize] at h
  omega

theorem block_inside {header block size i : ℕ} (hfits : header ≤ size)
    (hi : i < (size - header) / block) :
    header ≤ header + i * block ∧ header + i * block + block ≤ size := by
  have hmul : (i + 1) * block ≤ size - header :=
    le_trans (Nat.mul_le_mul_right _ hi) (Nat.div_mul_le_self _ _)
  rw [Nat.succ_mul] at hmul
  omega

theorem shmBlockOffset_inside {i : ℕ} (h : i < shmNumBlocks) :
    sizeofNosShmHeader ≤ shmBlockOffset i ∧ shmBlockOffset i + shmBlockSize ≤ nosShmSize :=
  block_inside (by decide) h

namespace ShmObject

variable {o : ShmObject} {i : ℕ}

theorem headerCleared_clearHeader (o : ShmObject) : o.clearHeader.HeaderCleared :=
  ⟨rfl, fun _ => rfl, fun _ => rfl, fun _ _ => rfl⟩

theorem blocks_initBlock (o : ShmObject) (i offset j : ℕ) : (o.initBlock i offset).blocks j =
    if j = offset then
      ⟨offset, 4096, 0, if i = shmNumBlocks - 1 then 0 else offset + shmBlockSize⟩
    else o.blocks j := Function.update_apply ..

theorem BlocksLinked.initBlock (h : o.BlocksLinked i) :
    (o.initBlock i (shmBlockOffset i)).BlocksLinked (i + 1) := by
  intro k hk
  rw [blocks_initBlock]
  split <;> rename_i he
  · obtain rfl := shmBlockOffset_inj he
    have hlast : k = shmNumBlocks - 1 ↔ shmBlockOffset k = shmBlockOffset (shmNumBlocks - 1) :=
      ⟨congrArg _, shmBlockOffset_inj⟩
    simp only [hlast, ShmPool.initShmPool]
  · refine h k (Nat.lt_of_le_of_ne (Nat.le_of_lt_succ hk) fun hki => he ?_)
    rw [hki]

end ShmObject

namespace ShmHost

variable {N : Type*} {s s' : ShmHost N} {g g' : ℕ} {n : N} {o : ShmObject} {pc : DaemonPc}

def Progress (objects : ℕ → ShmObject) : DaemonPc → Prop
  | .block g i offset => (objects g).HeaderCleared ∧ (objects g).BlocksLinked i ∧
    offset = shmBlockOffset i ∧ i ≤ shmNumBlocks
  | .freeList g => (objects g).HeaderCleared ∧ (objects g).BlocksLinked shmNumBlocks
  | .total g => (objects g).HeaderCleared ∧ (objects g).BlocksLinked shmNumBlocks ∧
    (objects g).freeListHead = sizeofNosShmHeader
  | .publish g => (objects g).HeaderCleared ∧ (objects g).BlocksLinked shmNumBlocks ∧
    (objects g).freeListHead = sizeofNosShmHeader ∧ (objects g).totalAllocated = 0
  | _ => True

theorem Progress.congr {objects objects' : ℕ → ShmObject} (h : Progress objects pc)
    (hsame : ∀ g, pc.target = some g → objects' g = objects g) : Progress objects' pc := by
  cases pc <;> simp only [Progress] at h ⊢ <;> rwa [hsame _ rfl]

/-- An object that the daemon writes to is not published, nor is one that does not exist. One that
is published and that no node has attached to is initialised. -/
structure Inv (s : ShmHost N) : Prop where
  named : ∀ g, s.name = some g → g < s.count
  absent : ∀ g, s.count ≤ g → (s.objects g).magic ≠ shmMagic
  target : ∀ g, s.daemon.target = some g → g < s.count ∧ (s.objects g).magic ≠ shmMagic
  progress : Progress s.objects s.daemon
  attached : ∀ n g, s.node n = .attached g → s.visited g = true
  visited : ∀ g, s.visited g = true → (s.objects g).magic = shmMagic
  first : ∀ g, (s.objects g).magic = shmMagic → s.visited g = false → (s.objects g).Initialised
  waits : ∀ n g waitCount, s.node n = .poll g waitCount → waitCount ≤ 50

theorem Inv.attaches (h : s.Inv) : s.Attaches where
  first := h.first
  alone n g hn ht := (h.target g ht).2 (h.visited g (h.attached n g hn))
  inside g i offset hpc hi := by
    have hprogress := h.progress
    rw [hpc] at hprogress
    rw [hprogress.2.2.1]
    exact shmBlockOffset_inside hi
  waits := h.waits

theorem objects_setObject : (s.setObject g o).objects g' = if g' = g then o else s.objects g' :=
  Function.update_apply ..

theorem Inv.write (h : s.Inv) (ht : s.daemon.target = some g) (ho : o.magic ≠ shmMagic)
    (hpc : pc.target = some g) (hprogress : Progress (s.setObject g o).objects pc) :
    (s.write g o pc).Inv := by
  obtain ⟨hlt, hmagic⟩ := h.target g ht
  have hkept : ∀ g', ((s.setObject g o).objects g').magic = shmMagic →
      (s.setObject g o).objects g' = s.objects g' := by
    intro g' hg'
    rw [objects_setObject] at hg' ⊢
    split
    · rw [if_pos ‹_›] at hg'
      exact absurd hg' ho
    · rfl
  refine ⟨h.named, fun g' hg' => ?_, fun g' hg' => ?_, hprogress, h.attached, fun g' hv => ?_,
    fun g' hg' hv => ?_, h.waits⟩
  · intro hm
    have hsame := hkept g' hm
    exact h.absent g' hg' (hsame ▸ hm)
  · obtain rfl := Option.some.inj (hpc.symm.trans hg')
    refine ⟨hlt, ?_⟩
    change ((s.setObject g o).objects g).magic ≠ shmMagic
    rw [objects_setObject, if_pos rfl]
    exact ho
  · change ((s.setObject g o).objects g').magic = shmMagic
    rw [objects_setObject, if_neg]
    · exact h.visited g' hv
    · rintro rfl
      exact hmagic (h.visited _ hv)
  · change ((s.setObject g o).objects g').Initialised
    have hsame := hkept g' hg'
    rw [hsame]
    exact h.first g' (hsame ▸ hg') hv

theorem Inv.setDaemon (h : s.Inv) (ht : ∀ g, pc.target = some g → s.daemon.target = some g)
    (hprogress : Progress s.objects pc) : Inv { s with daemon := pc } :=
  ⟨h.named, h.absent, fun g hg => h.target g (ht g hg), hprogress, h.attached, h.visited, h.first,
    h.waits⟩

/-- The daemon publishes an object that it has initialised. -/
theorem Inv.publish (h : s.Inv) (hpc : s.daemon = .publish g) :
    (s.write g { s.objects g with magic := shmMagic } (.serving g)).Inv := by
  obtain ⟨hlt, hmagic⟩ := h.target g (by rw [hpc]; rfl)
  have hprogress := h.progress
  rw [hpc] at hprogress
  obtain ⟨hheader, hblocks, hfree, htotal⟩ := hprogress
  have hinit : ShmObject.Initialised { s.objects g with magic := shmMagic } :=
    ⟨hheader.slots, hheader.rxQueues, hheader.queueOffsets,
      hfree.trans (by simp [ShmPool.initShmPool, shmBlockOffset]), htotal, hblocks⟩
  refine ⟨h.named, fun g' hg' => ?_, fun g' hg' => (by cases hg'), trivial, h.attached,
    fun g' hv => ?_, fun g' hg' hv => ?_, h.waits⟩
  · change ((s.setObject g _).objects g').magic ≠ shmMagic
    rw [objects_setObject, if_neg]
    · exact h.absent g' hg'
    · rintro rfl
      exact Nat.not_le.mpr hlt hg'
  · change ((s.setObject g _).objects g').magic = shmMagic
    rw [objects_setObject]
    split
    · rfl
    · exact h.visited g' hv
  · change ((s.setObject g _).objects g').Initialised
    change ((s.setObject g _).objects g').magic = shmMagic at hg'
    rw [objects_setObject] at hg' ⊢
    split
    · exact hinit
    · rw [if_neg ‹_›] at hg'
      exact h.first g' hg' hv

theorem Inv.stepDaemon (h : s.Inv) {ok : Bool} (hs : s.stepDaemon ok = some s') : s'.Inv := by
  unfold ShmHost.stepDaemon at hs
  have htarget := h.target
  have hprogress := h.progress
  have hzero : (0 : ℕ) ≠ shmMagic := by decide
  split at hs <;> rename_i hpc <;> rw [hpc] at htarget hprogress
  · cases hs
  · cases hs
  · split at hs <;> obtain rfl := Option.some.inj hs
    · exact h.write (by rw [hpc]; rfl) (htarget _ rfl).2 rfl trivial
    · exact h.setDaemon (fun _ hg => by cases hg) trivial
  · obtain rfl := Option.some.inj hs
    split
    · exact h.setDaemon (fun _ hg => by rw [hpc]; exact hg) trivial
    · exact h.setDaemon (fun _ hg => by cases hg) trivial
  · obtain rfl := Option.some.inj hs
    refine h.write (by rw [hpc]; rfl) hzero rfl ?_
    simp only [Progress, objects_setObject, if_true]
    exact ⟨ShmObject.headerCleared_clearHeader _, fun k hk => absurd hk (Nat.not_lt_zero k),
      by simp [shmBlockOffset], Nat.zero_le _⟩
  · rename_i g i offset
    obtain ⟨hheader, hblocks, rfl, hle⟩ := hprogress
    split at hs <;> rename_i hi <;> obtain rfl := Option.some.inj hs
    · refine h.write (by rw [hpc]; rfl) (htarget _ rfl).2 rfl ?_
      simp only [Progress, objects_setObject, if_true]
      refine ⟨⟨hheader.magic, hheader.slots, hheader.rxQueues, hheader.queueOffsets⟩,
        hblocks.initBlock, ?_, hi⟩
      rw [shmBlockOffset, shmBlockOffset, Nat.succ_mul, Nat.add_assoc]
    · obtain rfl : i = shmNumBlocks := Nat.le_antisymm hle (Nat.not_lt.mp hi)
      exact h.setDaemon (fun _ hg => by rw [hpc]; exact hg) ⟨hheader, hblocks⟩
  · obtain rfl := Option.some.inj hs
    obtain ⟨hheader, hblocks⟩ := hprogress
    refine h.write (by rw [hpc]; rfl) (htarget _ rfl).2 rfl ?_
    simp only [Progress, objects_setObject, if_true]
    exact ⟨⟨hheader.magic, hheader.slots, hheader.rxQueues, hheader.queueOffsets⟩, hblocks, trivial⟩
  · obtain rfl := Option.some.inj hs
    obtain ⟨hheader, hblocks, hfree⟩ := hprogress
    refine h.write (by rw [hpc]; rfl) (htarget _ rfl).2 rfl ?_
    simp only [Progress, objects_setObject, if_true]
    exact ⟨⟨hheader.magic, hheader.slots, hheader.rxQueues, hheader.queueOffsets⟩, hblocks, hfree,
      trivial⟩
  · obtain rfl := Option.some.inj hs
    exact h.publish hpc

theorem Inv.openOrCreate (h : s.Inv)
    (hfresh : ∀ g, s.name = some g → (s.objects g).magic ≠ shmMagic) : s.openOrCreate.Inv := by
  unfold ShmHost.openOrCreate
  split
  · rename_i g hname
    exact ⟨h.named, h.absent, fun g' hg' => Option.some.inj hg' ▸ ⟨h.named g hname, hfresh g hname⟩,
      trivial, h.attached, h.visited, h.first, h.waits⟩
  · refine ⟨fun g hg => ?_, fun g hg => h.absent g (Nat.le_of_succ_le hg), fun g hg => ?_, trivial,
      h.attached, h.visited, h.first, h.waits⟩
    · rw [← Option.some.inj hg]
      exact Nat.lt_succ_self _
    · rw [← Option.some.inj hg]
      exact ⟨Nat.lt_succ_self _, h.absent _ le_rfl⟩

variable [DecidableEq N] {m : N} {apc : AttachPc}

omit s s' g g' n o pc in
theorem node_setNode (s : ShmHost N) (n m : N) (apc : AttachPc) :
    (s.setNode n apc).node m = if m = n then apc else s.node m := Function.update_apply ..

theorem Inv.setNode (h : s.Inv) (hattached : ∀ g, apc ≠ .attached g)
    (hwaits : ∀ g waitCount, apc = .poll g waitCount → waitCount ≤ 50) :
    (s.setNode n apc).Inv := by
  refine ⟨h.named, h.absent, h.target, h.progress, fun m g hm => ?_, h.visited, h.first,
    fun m g waitCount hm => ?_⟩
  · rw [node_setNode] at hm
    split at hm
    · exact absurd hm (hattached g)
    · exact h.attached m g hm
  · rw [node_setNode] at hm
    split at hm
    · exact hwaits g waitCount hm
    · exact h.waits m g waitCount hm

theorem Inv.attach (h : s.Inv) (hmagic : (s.objects g).magic = shmMagic) :
    Inv { s.setNode n (.attached g) with visited := Function.update s.visited g true } := by
  have hvisited : ∀ g', Function.update s.visited g true g' = true ↔
      g' = g ∨ s.visited g' = true := by
    intro g'
    rw [Function.update_apply]
    split <;> simp [*]
  refine ⟨h.named, h.absent, h.target, h.progress, fun m g' hm => ?_, fun g' hg' => ?_,
    fun g' hg' hv => ?_, fun m g' waitCount hm => ?_⟩
  · refine (hvisited g').mpr ?_
    change (s.setNode n (.attached g)).node m = .attached g' at hm
    rw [node_setNode] at hm
    split at hm
    · exact .inl (AttachPc.attached.inj hm).symm
    · exact .inr (h.attached m g' hm)
  · rcases (hvisited g').mp hg' with rfl | hold
    · exact hmagic
    · exact h.visited g' hold
  · refine h.first g' hg' (Bool.eq_false_iff.mpr fun hold => ?_)
    exact Bool.false_ne_true (hv.symm.trans ((hvisited g').mpr (.inr hold)))
  · change (s.setNode n (.attached g)).node m = .poll g' waitCount at hm
    rw [node_setNode] at hm
    split at hm
    · cases hm
    · exact h.waits m g' waitCount hm

theorem Inv.stepNode (h : s.Inv) {ok : Bool} (hs : s.stepNode n ok = some s') : s'.Inv := by
  unfold ShmHost.stepNode at hs
  split at hs
  · obtain rfl := Option.some.inj hs
    split
    · exact h.setNode (fun _ he => by cases he) fun _ _ he => by cases he; exact Nat.zero_le _
    · exact h.setNode (fun _ he => by cases he) fun _ _ he => by cases he
  · rename_i g waitCount hpc
    split at hs
    · obtain rfl := Option.some.inj hs
      exact h.setNode (fun _ he => by cases he) fun _ _ he => by cases he
    · split at hs <;> rename_i hmagic
      · obtain rfl := Option.some.inj hs
        exact h.attach hmagic
      · split at hs <;> rename_i hwait <;> obtain rfl := Option.some.inj hs
        · exact h.setNode (fun _ he => by cases he) fun _ _ he => by cases he
        · exact h.setNode (fun _ he => by cases he) fun _ _ he => by cases he; omega
  · cases hs

omit [DecidableEq N] in
theorem Inv.use (h : s.Inv) (hn : s.node n = .attached g) (o : ShmObject) :
    (s.setObject g { o with sized := true, magic := (s.objects g).magic }).Inv := by
  have hvisited := h.attached n g hn
  have hmagic : ∀ g', ((s.setObject g { o with
      sized := true, magic := (s.objects g).magic }).objects g').magic = (s.objects g').magic := by
    intro g'
    rw [objects_setObject]
    split
    · rw [‹g' = g›]
    · rfl
  refine ⟨h.named, fun g' hg' => (hmagic g').symm ▸ h.absent g' hg', fun g' hg' => ?_, ?_,
    h.attached, fun g' hg' => (hmagic g').trans (h.visited g' hg'), fun g' hg' hv => ?_, h.waits⟩
  · rw [hmagic]
    exact h.target g' hg'
  · refine h.progress.congr fun g' hg' => ?_
    rw [objects_setObject, if_neg]
    rintro rfl
    exact (h.target _ hg').2 (h.visited _ hvisited)
  · rw [objects_setObject, if_neg]
    · exact h.first g' ((hmagic g').symm.trans hg') hv
    · rintro rfl
      exact Bool.false_ne_true (hv.symm.trans hvisited)

omit [DecidableEq N] in
theorem Inv.init : (init : ShmHost N).Inv where
  named := fun _ h => by cases h
  absent := fun _ _ => (by decide : (0 : ℕ) ≠ shmMagic)
  target := fun _ h => by cases h
  progress := trivial
  attached := fun _ _ h => by cases h
  visited := fun _ h => by cases h
  first := fun _ h => absurd h (by decide : (0 : ℕ) ≠ shmMagic)
  waits := fun _ _ _ h => by cases h

theorem Inv.step (h : s.Inv) {action : ShmHostAction N} (hfresh : s.Unpublished action)
    (hs : s.step action = some s') : s'.Inv := by
  cases action with
  | startDaemon ok =>
    simp only [ShmHost.step] at hs
    split at hs
    · obtain rfl := Option.some.inj hs
      split
      · exact h.openOrCreate hfresh
      · exact h
    · cases hs
  | daemon ok => exact h.stepDaemon hs
  | signal =>
    simp only [ShmHost.step] at hs
    split at hs
    · obtain rfl := Option.some.inj hs
      exact ⟨fun _ hg => (by cases hg), h.absent, fun _ hg => (by cases hg), trivial, h.attached,
        h.visited, h.first, h.waits⟩
    · cases hs
  | kill =>
    obtain rfl := Option.some.inj hs
    exact h.setDaemon (fun _ hg => by cases hg) trivial
  | startNode n ok =>
    simp only [ShmHost.step] at hs
    split at hs
    · obtain rfl := Option.some.inj hs
      have hpc : ∀ pc : AttachPc, pc = (if ok then (s.name.map .map).getD .failed else .failed) →
          (∀ g, pc ≠ .attached g) ∧ ∀ g waitCount, pc ≠ .poll g waitCount := by
        rintro _ rfl
        cases ok <;> cases s.name <;> simp
      obtain ⟨hattached, hpoll⟩ := hpc _ rfl
      exact h.setNode hattached fun g waitCount he => absurd he (hpoll g waitCount)
    · cases hs
  | node n ok => exact h.stepNode hs
  | crash n =>
    obtain rfl := Option.some.inj hs
    exact h.setNode (fun _ he => by cases he) fun _ _ he => by cases he
  | use n o =>
    simp only [ShmHost.step] at hs
    split at hs
    · obtain rfl := Option.some.inj hs
      exact h.use ‹_› o
    · cases hs

/-- Unless the daemon starts on an object that has been published before, whatever nodes start,
fail and end, those that get through the wait share memory that has been initialised and that the
daemon leaves to them. -/
theorem always_attaches (actions : List (ShmHostAction N))
    (h : Run.Guarded step Unpublished init actions) : Run.Always step Attaches init actions :=
  Run.always_of_guarded (fun _ _ _ hi ha hs => Inv.step hi ha hs) (fun _ hi => hi.attaches)
    Inv.init h

theorem exec_blocks (k : ℕ) {i offset : ℕ} {s : ShmHost N}
    (hpc : s.daemon = .block g i offset) (hk : i + k = shmNumBlocks) :
    ∃ t, Run.exec step s (List.replicate k (.daemon true)) = some t ∧
      (∃ offset', t.daemon = .block g shmNumBlocks offset') ∧ t.name = s.name ∧
      t.node = s.node ∧ (t.objects g).sized = (s.objects g).sized := by
  induction k generalizing i offset s with
  | zero =>
    obtain rfl : i = shmNumBlocks := hk
    exact ⟨s, rfl, ⟨offset, hpc⟩, rfl, rfl, rfl⟩
  | succ k ih =>
    let next := s.write g ((s.objects g).initBlock i offset)
      (.block g (i + 1) (offset + shmBlockSize))
    have hstep : step s (.daemon true) = some next := by
      change s.stepDaemon true = _
      rw [ShmHost.stepDaemon, hpc]
      exact if_pos (by omega)
    obtain ⟨t, ht, hblock, hname, hnode, hsized⟩ := ih (s := next) rfl (by omega)
    refine ⟨t, ?_, hblock, hname, hnode, hsized.trans ?_⟩
    · rw [List.replicate_succ, Run.exec_cons, hstep]
      exact ht
    · change ((s.setObject g _).objects g).sized = _
      rw [objects_setObject, if_pos rfl]
      rfl

/-- A daemon that nothing stops publishes an object, and a node that starts then attaches. -/
theorem exec_attached (hdown : s.daemon = .down) (hn : s.node n = .down) :
    (Run.exec step s (.startDaemon true :: (List.replicate 3 (.daemon true) ++
      List.replicate shmNumBlocks (.daemon true) ++ List.replicate 4 (.daemon true) ++
      [.startNode n true, .node n true, .node n true]))).map (fun t => t.node n) =
      some (.attached (s.name.getD s.count)) := by
  have hcleared : ∃ t, Run.exec step s (.startDaemon true :: List.replicate 3 (.daemon true)) =
      some t ∧ t.daemon = .block (s.name.getD s.count) 0 sizeofNosShmHeader ∧
      t.name = some (s.name.getD s.count) ∧ t.node = s.node ∧
      (t.objects (s.name.getD s.count)).sized = true := by
    cases hname : s.name <;>
      simp [List.replicate, step, hdown, openOrCreate, hname, stepDaemon, write, setObject,
        ShmObject.clearHeader]
  obtain ⟨t, ht, hpc, htname, htnode, htsized⟩ := hcleared
  obtain ⟨u, hu, ⟨offset, hblock⟩, huname, hunode, husized⟩ :=
    exec_blocks shmNumBlocks hpc (Nat.zero_add _)
  have hrest : (Run.exec step u (List.replicate 4 (.daemon true) ++
      [.startNode n true, .node n true, .node n true])).map (fun t => t.node n) =
      some (.attached (s.name.getD s.count)) := by
    simp [List.replicate, step, stepDaemon, hblock, write, setObject, hunode, htnode, hn, huname,
      htname, stepNode, setNode, husized, htsized]
  rw [← List.cons_append, ← List.cons_append, ← List.cons_append, List.append_assoc,
    Run.exec_append, Run.exec_trans ht hu]
  exact hrest

/-- A daemon ends while a node waits, and starts again. -/
def restart : List (ShmHostAction (Fin 2)) :=
  [.startDaemon true, .daemon true, .daemon true, .startNode 1 true, .node 1 true, .kill] ++
    (.startDaemon true :: (List.replicate 3 (.daemon true) ++
      List.replicate shmNumBlocks (.daemon true) ++ List.replicate 4 (.daemon true) ++
      [.startNode 0 true, .node 0 true, .node 0 true]))

omit [DecidableEq N] in
theorem unpublished_of_ne {action : ShmHostAction N} (h : ∀ ok, action ≠ .startDaemon ok)
    (s : ShmHost N) : s.Unpublished action := by
  cases action with
  | startDaemon ok => exact absurd rfl (h ok)
  | _ => trivial

theorem guarded_of_ne {actions : List (ShmHostAction N)}
    (h : ∀ action ∈ actions, ∀ ok, action ≠ .startDaemon ok) :
    Run.Guarded step Unpublished s actions :=
  (Run.guarded_of_forall h).mono (I := fun _ => True) (fun _ _ _ _ _ _ => trivial)
    (fun s _ _ ha => unpublished_of_ne ha s) trivial

theorem always_attaches_restart :
    Run.Always step Attaches init restart ∧
      (Run.exec step init restart).map (fun s => s.node 0) = some (.attached 0) := by
  constructor
  · apply always_attaches
    apply Run.Guarded.cons rfl (fun _ h => by cases h)
    apply Run.Guarded.cons rfl trivial
    apply Run.Guarded.cons rfl trivial
    apply Run.Guarded.cons rfl trivial
    apply Run.Guarded.cons rfl trivial
    apply Run.Guarded.cons rfl trivial
    refine Run.Guarded.cons rfl (fun g h => ?_) (guarded_of_ne ?_)
    · cases h
      exact (by decide : (0 : ℕ) ≠ shmMagic)
    · intro action ha ok
      simp only [List.mem_append, List.mem_replicate, List.mem_cons, List.not_mem_nil] at ha
      rcases ha with ((⟨-, rfl⟩ | ⟨-, rfl⟩) | ⟨-, rfl⟩) | rfl | rfl | rfl | ha <;> simp_all
  · obtain ⟨s, hs, hdown, hn, hname⟩ : ∃ s : ShmHost (Fin 2), Run.exec step init
        [.startDaemon true, .daemon true, .daemon true, .startNode 1 true, .node 1 true, .kill] =
        some s ∧ s.daemon = .down ∧ s.node 0 = .down ∧ s.name = some 0 :=
      ⟨_, rfl, rfl, rfl, rfl⟩
    have hattached := exec_attached hdown hn
    rw [restart, Run.exec_append, hs, Option.bind_some, hattached, hname, Option.getD_some]

end ShmHost

end GeminiNOS
