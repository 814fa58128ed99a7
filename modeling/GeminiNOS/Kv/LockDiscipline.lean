import GeminiNOS.Kv.BucketLocks

/-! # Every lock is given back

What a thread holds follows from where its operations stand: the innermost one holds
the lock of its bucket, from the lookup until it gives it back, and the others, whose
callbacks are running, hold nothing. All other holds go with the live handles.
-/

namespace GeminiNOS

open Foundations

/-- What is left of a lock when an operation has returned: nothing, except that a successful
`nos_kv_get_ptr` keeps its lock for reading. -/
def KvLockCall.keeps (call : KvLockCall) (result : KvOutcome) : Bool :=
  match call, result.st with
  | .getPtr _ _ _ _ _, .ok => true
  | _, _ => false

/-- The operation has given back what it does not keep. -/
def KvReturn.Lawful (r : KvReturn) : Prop :=
  if r.call.keeps r.result then ∃ b, r.held = [.read b] else r.held = []

def KvLockPc.result : KvLockPc → Option KvOutcome
  | unlock _ result _ | outside result _ | callback result _ => some result
  | _ => none

/-- What an operation has noted follows from where it stands. -/
structure KvFrame.Noted (f : KvFrame) : Prop where
  held_eq : f.held = (f.pc.bucket.map f.call.hold).toList
  writes : ∀ pc, f.pc = .work pc → f.call.writes
  result : ∀ result, f.pc.result = some result → f.call.keeps result = false

namespace KvLocking

variable {P : Type*}

def holds (s : KvLocking P) (p : P) : List KvHold := (s.frames p).flatMap KvFrame.held

/-- The number of read holds on a bucket that operations in progress have. -/
def reads (b : ℕ) (frames : List KvFrame) : ℕ := (frames.flatMap KvFrame.held).count (.read b)

/-- Operations have returned without their locks, except for what went with the handles. No
callback runs in an operation that holds a lock. The locks are held by operations in progress and
live handles, and every handle is live or given up once. -/
structure Disciplined [Fintype P] (s : KvLocking P) : Prop where
  returned : ∀ r ∈ s.returned, r.Lawful
  callbacks : ∀ p, ∀ f ∈ s.frames p, f.pc.inCallback → f.held = []
  writers : ∀ b p, s.writer b = some p ↔ .write b ∈ s.holds p
  readers : ∀ b, (s.table.buckets b).readers =
    total (fun _ => reads b) s.frames + s.handles.countP fun h => h.lock = b
  kept : s.returned.flatMap KvReturn.held = s.granted.map fun h => .read h.lock
  granted : s.granted.Perm (s.handles ++ s.released)

/-- The discipline, with what it rests on. -/
structure Accounted [Fintype P] (s : KvLocking P) : Prop where
  disciplined : s.Disciplined
  noted : ∀ p, ∀ f ∈ s.frames p, f.Noted
  nested : ∀ p, ∀ f ∈ (s.frames p).tail, f.pc.inCallback
  exclusive : ∀ b, (s.writer b).isSome → (s.table.buckets b).readers = 0

end KvLocking

namespace KvFrame

variable {f : KvFrame} {pc : KvLockPc} {b : ℕ}

theorem Noted.held_nil (h : f.Noted) (hb : f.pc.bucket = none) : f.held = [] := by
  rw [h.held_eq, hb]
  rfl

theorem Noted.held_some (h : f.Noted) (hb : f.pc.bucket = some b) : f.held = [f.call.hold b] := by
  rw [h.held_eq, hb]
  rfl

theorem Noted.callback (h : f.Noted) (hc : f.pc.inCallback) : f.held = [] := by
  cases f with
  | mk call pc held =>
    cases pc <;> cases hc
    exact h.held_nil rfl

theorem Noted.go (h : f.Noted) (hb : pc.bucket = f.pc.bucket)
    (hw : ∀ pc', pc = .work pc' → f.call.writes)
    (hr : ∀ result, pc.result = some result → f.call.keeps result = false) :
    Noted { f with pc := pc } := by
  constructor
  · exact h.held_eq.trans (by rw [hb])
  · exact hw
  · exact hr

end KvFrame

theorem KvLockCall.keeps_of_writes {call : KvLockCall} (h : call.writes) (result : KvOutcome) :
    call.keeps result = false := by
  cases call <;> first | rfl | cases h

theorem KvLockCall.keeps_of_err (call : KvLockCall) (out : Option (Bytes × ℕ)) :
    call.keeps ⟨.err, out⟩ = false := by
  cases call <;> rfl

namespace NosKvTable

variable {table : NosKvTable} {b b' n i j : ℕ}

@[simp] theorem readers_setReaders : ((table.setReaders b n).buckets b').readers =
    if b' = b then n else (table.buckets b').readers := by
  simp only [setReaders, Function.update_apply]
  split <;> rfl

theorem readers_detach :
    ((table.detach b i j).buckets b').readers = (table.buckets b').readers := by
  unfold detach unlink
  split
  · simp only [setSubList, setEntry, Function.update_apply]
    split
    · rename_i he
      rw [he]
    · rfl
  · rfl

theorem readers_linkNew {args : KvInsert} :
    ((table.linkNew args i).buckets b').readers = (table.buckets b').readers := by
  simp only [linkNew, setEntry, Function.update_apply]
  split
  · rename_i he
    rw [he]
  · rfl

end NosKvTable

theorem KvShared.next_readers {P : Type*} [DecidableEq P] {s s' : KvShared P} {p : P} {pc : KvPc}
    (h : s.next p pc = some s') (b : ℕ) :
    (s'.table.buckets b).readers = (s.table.buckets b).readers := by
  cases pc <;> simp only [KvShared.next] at h
  case idle => cases h
  case fill args newIdx =>
    cases h
    exact NosKvTable.readers_linkNew
  case popSlot | pushSlot =>
    split at h <;> cases h
    rfl
  all_goals
    cases h
    rfl

theorem KvShared.next_bucket {P : Type*} [DecidableEq P] {s s' : KvShared P} {p : P} {pc : KvPc}
    (h : s.next p pc = some s') (hpc : ∀ b, pc ≠ .unlock b) : (s'.pc p).bucket = pc.bucket := by
  cases pc <;> simp only [KvShared.next] at h
  case unlock b => exact absurd rfl (hpc b)
  case idle => cases h
  case checkTop args =>
    cases h
    simp only [setPc, Function.update_self]
    split <;> rfl
  case popSlot | pushSlot =>
    split at h <;> cases h
    simp only [setPc, setTable, Function.update_self, KvPc.bucket]
  all_goals
    cases h
    simp only [setPc, setTable, Function.update_self, KvPc.bucket]

theorem KvLockPc.bucket_afterWork (pc pc' : KvPc) :
    (KvLockPc.afterWork pc pc').bucket = pc'.bucket := by
  cases pc' <;> first | rfl | (cases pc <;> rfl)

namespace KvLocking

variable {P : Type*} [Fintype P] {s s' : KvLocking P} {p : P} {f f' : KvFrame}
  {rest : List KvFrame} {table : NosKvTable} {writer : ℕ → Option P} {pc : KvLockPc} {b : ℕ}

theorem Accounted.top_noted (h : s.Accounted) (hp : s.frames p = f :: rest) : f.Noted :=
  h.noted p f (by simp [hp])

theorem Accounted.nested_rest (h : s.Accounted) (hp : s.frames p = f :: rest) :
    ∀ g ∈ rest, g.pc.inCallback := by
  have hnested := h.nested p
  rw [hp] at hnested
  exact hnested

theorem Accounted.held_rest (h : s.Accounted) (hp : s.frames p = f :: rest) :
    rest.flatMap KvFrame.held = [] := by
  refine List.flatMap_eq_nil_iff.mpr fun g hg => ?_
  exact (h.noted p g (by simp [hp, hg])).callback (h.nested_rest hp g hg)

theorem Accounted.holds_eq (h : s.Accounted) (hp : s.frames p = f :: rest) :
    s.holds p = f.held := by
  rw [holds, hp, List.flatMap_cons, h.held_rest hp, List.append_nil]

theorem Accounted.reads_eq (h : s.Accounted) (hp : s.frames p = f :: rest) :
    reads b (s.frames p) = f.held.count (.read b) := by
  change (s.holds p).count _ = _
  rw [h.holds_eq hp]

/-- A write lock excludes read holds. -/
theorem Accounted.writer_eq_none (h : s.Accounted) (hpos : 0 < (s.table.buckets b).readers) :
    s.writer b = none := by
  by_contra hne
  have hzero := h.exclusive b (Option.isSome_iff_ne_none.mpr hne)
  omega

variable [DecidableEq P]

/-- A step of one thread keeps the discipline when it pays for what it changes. -/
theorem Accounted.update (h : s.Accounted) (fs : List KvFrame) (hnoted : ∀ f ∈ fs, f.Noted)
    (hnested : ∀ f ∈ fs.tail, f.pc.inCallback)
    (hframes : s'.frames = Function.update s.frames p fs)
    (hself : ∀ b, s'.writer b = some p ↔ .write b ∈ fs.flatMap KvFrame.held)
    (hothers : ∀ b, ∀ q ≠ p, (s'.writer b = some q ↔ s.writer b = some q))
    (hreaders : ∀ b, (s'.table.buckets b).readers + reads b (s.frames p) +
        (s.handles.countP fun h => h.lock = b) =
      (s.table.buckets b).readers + reads b fs + s'.handles.countP fun h => h.lock = b)
    (hexclusive : ∀ b, (s'.writer b).isSome → (s'.table.buckets b).readers = 0)
    (hreturned : ∀ r ∈ s'.returned, r.Lawful)
    (hkept : s'.returned.flatMap KvReturn.held = s'.granted.map fun h => .read h.lock)
    (hgranted : s'.granted.Perm (s'.handles ++ s'.released)) : s'.Accounted := by
  have hnoted' : ∀ q, ∀ f ∈ s'.frames q, f.Noted := by
    intro q
    rw [hframes, Function.update_apply]
    split
    · exact hnoted
    · exact h.noted q
  have hdisciplined : s'.Disciplined := by
    constructor
    · exact hreturned
    · exact fun q f hf hc => (hnoted' q f hf).callback hc
    · intro b q
      rw [holds, hframes, Function.update_apply]
      split
      · rename_i hq
        rw [hq]
        exact hself b
      · rename_i hq
        rw [hothers b q hq]
        exact h.disciplined.writers b q
    · intro b
      have htotal := total_update (fun _ => reads b) s.frames p fs
      have hold := h.disciplined.readers b
      have hnew := hreaders b
      rw [hframes]
      omega
    · exact hkept
    · exact hgranted
  constructor
  · exact hdisciplined
  · exact hnoted'
  · intro q
    rw [hframes, Function.update_apply]
    split
    · exact hnested
    · exact h.nested q
  · exact hexclusive

theorem Accounted.top (h : s.Accounted) (hp : s.frames p = f :: rest) (hf' : f'.Noted)
    (hself : ∀ b, writer b = some p ↔ .write b ∈ f'.held)
    (hothers : ∀ b, ∀ q ≠ p, (writer b = some q ↔ s.writer b = some q))
    (hreaders : ∀ b, (table.buckets b).readers + f.held.count (.read b) =
      (s.table.buckets b).readers + f'.held.count (.read b))
    (hexclusive : ∀ b, (writer b).isSome → (table.buckets b).readers = 0) :
    Accounted { s with
      table := table
      writer := writer
      frames := Function.update s.frames p (f' :: rest) } := by
  have hrest := h.held_rest hp
  refine h.update (f' :: rest) ?_ (h.nested_rest hp) rfl ?_ hothers ?_ hexclusive
    h.disciplined.returned h.disciplined.kept h.disciplined.granted
  · intro g hg
    rcases List.mem_cons.mp hg with rfl | hg
    · exact hf'
    · exact h.noted p g (by simp [hp, hg])
  · intro b
    rw [List.flatMap_cons, hrest, List.append_nil]
    exact hself b
  · intro b
    have hnew := hreaders b
    rw [h.reads_eq hp, reads, List.flatMap_cons, hrest, List.append_nil]
    dsimp only
    omega

theorem Accounted.go (h : s.Accounted) (hp : s.frames p = f :: rest)
    (hreaders : ∀ b, (table.buckets b).readers = (s.table.buckets b).readers)
    (hb : pc.bucket = f.pc.bucket) (hw : ∀ pc', pc = .work pc' → f.call.writes)
    (hr : ∀ result, pc.result = some result → f.call.keeps result = false) :
    (s.go p f rest table pc).Accounted := by
  refine h.top hp ((h.top_noted hp).go hb hw hr) ?_ (fun _ _ _ => Iff.rfl) ?_ ?_
  · intro b
    rw [h.disciplined.writers b p, h.holds_eq hp]
  · intro b
    rw [hreaders]
  · intro b hb
    rw [hreaders]
    exact h.exclusive b hb

theorem Accounted.goOutside (h : s.Accounted) (hp : s.frames p = f :: rest)
    (hf : f.pc.bucket = none) {result : KvOutcome} {pending : List KvNotification}
    (hpc : pc = .outside result pending ∨ pc = .callback result pending)
    (hr : f.call.keeps result = false) : (s.go p f rest s.table pc).Accounted := by
  refine h.go hp (fun _ => rfl) ?_ ?_ ?_
  · rw [hf]
    rcases hpc with rfl | rfl <;> rfl
  · rcases hpc with rfl | rfl <;> rintro _ ⟨⟩
  · rcases hpc with rfl | rfl <;> rintro _ ⟨⟩ <;> exact hr

theorem Accounted.check (h : s.Accounted) (hp : s.frames p = f :: rest) (hpc : f.pc = .start)
    (hs : s.check p f rest = some s') : s'.Accounted := by
  have hb : f.pc.bucket = none := by
    rw [hpc]
    rfl
  have hheld := (h.top_noted hp).held_nil hb
  unfold KvLocking.check at hs
  split at hs
  · rename_i hcall
    cases hs
    refine h.goOutside hp hb (Or.inl rfl) ?_
    rw [hcall]
    rfl
  · rename_i addr hcall
    obtain ⟨x, hx, rfl⟩ := Option.map_eq_some_iff.mp hs
    have hmem := List.mem_of_find?_eq_some hx
    have hcount (b : ℕ) := List.countP_erase (fun y : KvHandle => decide (y.lock = b)) s.handles x
    have hpos : (0 : ℕ) < s.handles.countP fun y => y.lock = x.lock :=
      List.countP_pos_iff.mpr ⟨x, hmem, by simp⟩
    have hlocked := h.disciplined.readers x.lock
    refine h.update ({ f with pc := .outside ⟨.ok, none⟩ [] } :: rest) ?_
      (h.nested_rest hp) rfl ?_ (fun _ _ _ => Iff.rfl) ?_ ?_ h.disciplined.returned
      h.disciplined.kept ?_
    · intro g hg
      rcases List.mem_cons.mp hg with rfl | hg
      · refine (h.top_noted hp).go (by rw [hb]; rfl) (by rintro _ ⟨⟩) ?_
        rintro _ ⟨⟩
        rw [hcall]
        rfl
      · exact h.noted p g (by simp [hp, hg])
    · intro b
      rw [h.disciplined.writers b p, h.holds_eq hp, List.flatMap_cons, h.held_rest hp,
        List.append_nil]
    · intro b
      rw [h.reads_eq hp, reads, List.flatMap_cons, h.held_rest hp, List.append_nil]
      have hb := hcount b
      simp only [NosKvTable.readers_setReaders]
      split
      · rename_i he
        subst he
        simp only [hmem, decide_true, and_self, if_true] at hb
        omega
      · rename_i he
        have hne : ¬ x.lock = b := fun hx => he hx.symm
        simp only [hne, decide_false, and_false, Bool.false_eq_true, if_false] at hb
        omega
    · intro b hw
      have hzero := h.exclusive b hw
      simp only [NosKvTable.readers_setReaders]
      split
      · rename_i he
        rw [← he, hzero]
      · exact hzero
    · have hperm : (s.handles ++ s.released).Perm (s.handles.erase x ++ x :: s.released) :=
        ((List.perm_cons_erase hmem).append_right _).trans List.perm_middle.symm
      exact h.disciplined.granted.trans hperm
  · split at hs
    · cases hs
      exact h.goOutside hp hb (Or.inl rfl) (KvLockCall.keeps_of_err _ _)
    · split at hs
      · cases hs
      · obtain ⟨b, -, rfl⟩ := Option.map_eq_some_iff.mp hs
        refine h.go hp (fun _ => rfl) (by rw [hb]; rfl) ?_ ?_ <;> rintro _ ⟨⟩

theorem Accounted.lock (h : s.Accounted) (hp : s.frames p = f :: rest) {key : Bytes}
    (hpc : f.pc = .lock b key) (hs : s.lock p f rest b key = some s') : s'.Accounted := by
  have hheld : f.held = [] := (h.top_noted hp).held_nil (by rw [hpc]; rfl)
  have hnoted (i j : ℕ) : KvFrame.Noted ⟨f.call, .walk b key i j, f.call.hold b :: f.held⟩ := by
    constructor
    · rw [hheld]
      rfl
    · rintro _ ⟨⟩
    · rintro _ ⟨⟩
  have hnone (b' : ℕ) : s.writer b' ≠ some p := by
    rw [Ne, h.disciplined.writers b' p, h.holds_eq hp, hheld]
    exact List.not_mem_nil
  unfold KvLocking.lock at hs
  dsimp only at hs
  split at hs <;> rename_i hw
  · split at hs <;> cases hs
    rename_i hfree
    have hhold : f.call.hold b = .write b := by simp [KvLockCall.hold, hw]
    refine h.top hp (hnoted _ _) ?_ ?_ ?_ ?_
    · intro b'
      rw [hhold, hheld, Function.update_apply]
      split
      · simp [*]
      · simp [hnone b', *]
    · intro b' q hq
      rw [Function.update_apply]
      split
      · rename_i he
        rw [he, hfree.1]
        simp [Ne.symm hq]
      · rfl
    · intro b'
      rw [hhold, hheld]
      rfl
    · intro b' hb'
      rw [Function.update_apply] at hb'
      split at hb'
      · rename_i he
        rw [he]
        exact hfree.2
      · exact h.exclusive b' hb'
  · split at hs <;> cases hs
    rename_i hfree
    have hhold : f.call.hold b = .read b := by simp [KvLockCall.hold, hw]
    refine h.top hp (hnoted _ _) ?_ (fun _ _ _ => Iff.rfl) ?_ ?_
    · intro b'
      rw [hhold, hheld]
      simp [hnone b']
    · intro b'
      rw [hhold, hheld, NosKvTable.readers_setReaders]
      split
      · rename_i he
        simp [he]
      · rename_i he
        simp [Ne.symm he]
    · intro b' hb'
      rw [NosKvTable.readers_setReaders]
      split
      · rename_i he
        rw [he, hfree] at hb'
        cases hb'
      · exact h.exclusive b' hb'

theorem Accounted.goUnlock (h : s.Accounted) (hp : s.frames p = f :: rest)
    (hb : f.pc.bucket = some b) {result : KvOutcome} {notified : List KvNotification}
    (hreaders : ∀ b, (table.buckets b).readers = (s.table.buckets b).readers)
    (hr : f.call.keeps result = false) :
    (s.go p f rest table (.unlock b result notified)).Accounted := by
  refine h.go hp hreaders ?_ ?_ ?_
  · rw [hb]
    rfl
  · rintro _ ⟨⟩
  · rintro _ ⟨⟩
    exact hr

theorem Accounted.absent (h : s.Accounted) (hp : s.frames p = f :: rest)
    (hb : f.pc.bucket = some b) {key : Bytes} (hs : s.absent p f rest b key = some s') :
    s'.Accounted := by
  unfold KvLocking.absent at hs
  split at hs <;> cases hs
  · rename_i hcall
    refine h.go hp (fun _ => rfl) ?_ ?_ ?_
    · rw [hb]
      rfl
    · intro _ _
      rw [hcall]
      rfl
    · rintro _ ⟨⟩
  · exact h.goUnlock hp hb (fun _ => rfl) (KvLockCall.keeps_of_err _ _)

/-- The lock of a successful `nos_kv_get_ptr` goes with the handle. -/
theorem Accounted.grant (h : s.Accounted) (hp : s.frames p = f :: rest)
    (hheld : f.held = [.read b]) {handle : KvHandle} (hlock : handle.lock = b)
    {result : KvOutcome} (hkeeps : f.call.keeps result) :
    Accounted { s with
      frames := Function.update s.frames p rest
      handles := handle :: s.handles
      granted := handle :: s.granted
      returned := ⟨f.call, result, f.held⟩ :: s.returned } := by
  have hrest := h.held_rest hp
  refine h.update rest ?_ ?_ rfl ?_ (fun _ _ _ => Iff.rfl) ?_ h.exclusive ?_ ?_ ?_
  · exact fun g hg => h.noted p g (by simp [hp, hg])
  · exact fun g hg => h.nested_rest hp g (List.mem_of_mem_tail hg)
  · intro b'
    rw [h.disciplined.writers b' p, h.holds_eq hp, hheld, hrest]
    simp
  · intro b'
    rw [h.reads_eq hp, reads, hrest, hheld, List.countP_cons, hlock]
    by_cases he : b = b'
    · simp [he, Nat.add_assoc, Nat.add_comm 1]
    · simp [he]
  · intro r hr
    rcases List.mem_cons.mp hr with rfl | hr
    · unfold KvReturn.Lawful
      rw [if_pos hkeeps]
      exact ⟨b, hheld⟩
    · exact h.disciplined.returned r hr
  · rw [List.flatMap_cons, List.map_cons, h.disciplined.kept, hheld, hlock]
    rfl
  · exact h.disciplined.granted.cons handle

theorem Accounted.found (h : s.Accounted) (hp : s.frames p = f :: rest)
    (hb : f.pc.bucket = some b) {i j : ℕ} (hs : s.found p f rest b i j = some s') :
    s'.Accounted := by
  unfold KvLocking.found at hs
  dsimp only at hs
  split at hs <;> rename_i hcall
  · cases hs
    exact h.goUnlock hp hb (fun _ => rfl) (by rw [hcall]; rfl)
  · cases hs
    exact h.goUnlock hp hb (fun _ => rfl) (by rw [hcall]; rfl)
  · split at hs <;> cases hs
    refine h.grant hp ?_ rfl ?_
    · rw [(h.top_noted hp).held_some hb, hcall]
      rfl
    · rw [hcall]
      rfl
  · cases hs
  · split at hs <;> cases hs
    · exact h.goUnlock hp hb (fun _ => rfl) (by rw [hcall]; rfl)
    · exact h.goUnlock hp hb (fun _ => rfl) (by rw [hcall]; rfl)
  · split at hs <;> cases hs
    · exact h.goUnlock hp hb (fun _ => rfl) (by rw [hcall]; rfl)
    · exact h.goUnlock hp hb (fun _ => rfl) (by rw [hcall]; rfl)
  · cases hs
    refine h.go hp (fun b => NosKvTable.readers_detach) ?_ ?_ ?_
    · rw [hb]
      rfl
    · intro _ _
      rw [hcall]
      rfl
    · rintro _ ⟨⟩

theorem Accounted.work (h : s.Accounted) (hp : s.frames p = f :: rest) {pc : KvPc}
    (hpc : f.pc = .work pc) (hunlock : ∀ b, pc ≠ .unlock b) {t : KvShared P}
    (hs : s.shared.next p pc = some t) :
    (s.go p f rest t.table (.afterWork pc (t.pc p))).Accounted := by
  have hw := (h.top_noted hp).writes pc hpc
  refine h.go hp (KvShared.next_readers hs) ?_ (fun _ _ => hw) ?_
  · rw [KvLockPc.bucket_afterWork, KvShared.next_bucket hs hunlock, hpc]
    rfl
  · exact fun result _ => KvLockCall.keeps_of_writes hw result

theorem Accounted.unlock (h : s.Accounted) (hp : s.frames p = f :: rest) {result : KvOutcome}
    {notified : List KvNotification} (hpc : f.pc = .unlock b result notified) :
    (s.unlock p f rest b result notified).Accounted := by
  have hf := h.top_noted hp
  have hheld : f.held = [f.call.hold b] := hf.held_some (by rw [hpc]; rfl)
  have hnoted : KvFrame.Noted ⟨f.call, .outside result notified, f.held.erase (f.call.hold b)⟩ := by
    constructor
    · rw [hheld]
      simp [KvLockPc.bucket]
    · rintro _ ⟨⟩
    · rintro _ ⟨⟩
      exact hf.result result (by rw [hpc]; rfl)
  have herase : f.held.erase (f.call.hold b) = [] := by simp [hheld]
  unfold KvLocking.unlock
  dsimp only
  split <;> rename_i hw
  · have hhold : f.call.hold b = .write b := by simp [KvLockCall.hold, hw]
    have hmine : s.writer b = some p := by
      rw [h.disciplined.writers b p, h.holds_eq hp, hheld, hhold]
      exact List.mem_cons_self
    refine h.top hp hnoted ?_ ?_ ?_ ?_
    · intro b'
      rw [herase, Function.update_apply]
      split
      · simp
      · rw [h.disciplined.writers b' p, h.holds_eq hp, hheld, hhold]
        simp [*]
    · intro b' q hq
      rw [Function.update_apply]
      split
      · rename_i he
        rw [he, hmine]
        simp [Ne.symm hq]
      · rfl
    · intro b'
      rw [herase, hheld, hhold]
      rfl
    · intro b' hb'
      rw [Function.update_apply] at hb'
      split at hb'
      · cases hb'
      · exact h.exclusive b' hb'
  · have hhold : f.call.hold b = .read b := by simp [KvLockCall.hold, hw]
    have hreads := le_total (fun _ => reads b) s.frames p
    rw [h.reads_eq hp, hheld, hhold, List.count_singleton_self] at hreads
    have hlocked := h.disciplined.readers b
    refine h.top hp hnoted ?_ (fun _ _ _ => Iff.rfl) ?_ ?_
    · intro b'
      rw [herase, h.disciplined.writers b' p, h.holds_eq hp, hheld, hhold]
      simp
    · intro b'
      rw [herase, hheld, hhold, NosKvTable.readers_setReaders]
      split
      · rename_i he
        subst he
        rw [List.count_singleton_self, List.count_nil]
        omega
      · rename_i he
        simp [Ne.symm he]
    · intro b' hb'
      have hzero := h.exclusive b' hb'
      rw [NosKvTable.readers_setReaders]
      split
      · rename_i he
        rw [← he, hzero]
      · exact hzero

theorem Accounted.ret (h : s.Accounted) (hp : s.frames p = f :: rest) {result : KvOutcome}
    (hpc : f.pc = .outside result []) :
    Accounted { s with
      frames := Function.update s.frames p rest
      returned := ⟨f.call, result, f.held⟩ :: s.returned } := by
  have hf := h.top_noted hp
  have hheld : f.held = [] := hf.held_nil (by rw [hpc]; rfl)
  have hrest := h.held_rest hp
  refine h.update rest ?_ ?_ rfl ?_ (fun _ _ _ => Iff.rfl) ?_ h.exclusive ?_ ?_
    h.disciplined.granted
  · exact fun g hg => h.noted p g (by simp [hp, hg])
  · exact fun g hg => h.nested_rest hp g (List.mem_of_mem_tail hg)
  · intro b
    rw [h.disciplined.writers b p, h.holds_eq hp, hheld, hrest]
  · intro b
    rw [h.reads_eq hp, reads, hrest, hheld]
  · intro r hr
    rcases List.mem_cons.mp hr with rfl | hr
    · unfold KvReturn.Lawful
      rw [if_neg]
      · exact hheld
      · rw [hf.result result (by rw [hpc]; rfl)]
        exact Bool.false_ne_true
    · exact h.disciplined.returned r hr
  · rw [List.flatMap_cons, h.disciplined.kept, hheld]
    rfl

theorem Accounted.call (h : s.Accounted) (call : KvLockCall)
    (hready : ∀ f ∈ (s.frames p).head?, f.pc.inCallback) :
    Accounted { s with
      frames := Function.update s.frames p (⟨call, .start, []⟩ :: s.frames p) } := by
  refine h.update (⟨call, .start, []⟩ :: s.frames p) ?_ ?_ rfl ?_ (fun _ _ _ => Iff.rfl) ?_
    h.exclusive h.disciplined.returned h.disciplined.kept h.disciplined.granted
  · intro g hg
    rcases List.mem_cons.mp hg with rfl | hg
    · constructor
      · rfl
      · rintro _ ⟨⟩
      · rintro _ ⟨⟩
    · exact h.noted p g hg
  · intro g hg
    cases hframes : s.frames p with
    | nil => simp [hframes] at hg
    | cons f rest =>
      rw [hframes] at hready hg
      rcases List.mem_cons.mp hg with rfl | hg
      · exact hready _ rfl
      · exact h.nested_rest hframes g hg
  · exact fun b => h.disciplined.writers b p
  · exact fun b => rfl

theorem Accounted.next (h : s.Accounted) (hp : s.frames p = f :: rest)
    (hs : s.next p f rest = some s') : s'.Accounted := by
  unfold KvLocking.next at hs
  split at hs <;> rename_i hpc
  · exact h.check hp hpc hs
  · exact h.lock hp hpc hs
  · rename_i b _ _ _
    have hb : f.pc.bucket = some b := by
      rw [hpc]
      rfl
    split at hs
    · exact h.absent hp hb hs
    · split at hs
      · exact h.found hp hb hs
      · cases hs
        refine h.go hp (fun _ => rfl) ?_ ?_ ?_
        · rw [hpc]
          rfl
        · rintro _ ⟨⟩
        · rintro _ ⟨⟩
  · cases hs
  · rename_i hunlock
    obtain ⟨t, ht, rfl⟩ := Option.map_eq_some_iff.mp hs
    exact h.work hp hpc (fun b hb => hunlock b hb) ht
  · cases hs
    exact h.unlock hp hpc
  · cases hs
    exact h.ret hp hpc
  · cases hs
    have hr := (h.top_noted hp).result _ (by rw [hpc]; rfl)
    exact h.goOutside hp (by rw [hpc]; rfl) (Or.inr rfl) hr
  · cases hs
    have hr := (h.top_noted hp).result _ (by rw [hpc]; rfl)
    exact h.goOutside hp (by rw [hpc]; rfl) (Or.inl rfl) hr

theorem Accounted.step (h : s.Accounted) {a : KvLockAction P} (hs : s.step a = some s') :
    s'.Accounted := by
  cases a with
  | call p c =>
    simp only [KvLocking.step] at hs
    split at hs <;> cases hs
    exact h.call c ‹_›
  | next p =>
    simp only [KvLocking.step] at hs
    split at hs
    · cases hs
    · exact h.next ‹_› hs

omit [DecidableEq P] in
theorem accounted_start (hfree : ∀ b, (table.buckets b).readers = 0) :
    (start table : KvLocking P).Accounted := by
  constructor
  · constructor
    · rintro _ ⟨⟩
    · rintro _ _ ⟨⟩
    · intro b p
      simp [start, holds]
    · intro b
      simp [start, total, reads, hfree]
    · rfl
    · exact List.Perm.refl _
  · rintro _ _ ⟨⟩
  · rintro _ _ ⟨⟩
  · rintro _ ⟨⟩

end KvLocking

end GeminiNOS
