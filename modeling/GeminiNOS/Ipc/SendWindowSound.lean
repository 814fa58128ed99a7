import GeminiNOS.Ipc.SendWindow

/-! # What is sent stays in its window

What a ring has is held, so that no allocation and no release moves its window. A
message that fits when it is accepted, and that nobody spoils while it is queued, still
fits when its connection sends it.
-/

namespace GeminiNOS

open Foundations References

namespace NosBufferPool

variable {pool pool' : NosBufferPool} {r r' : BufferRef} {size headroom k : ℕ}
  {f : NosBufferBin → NosBufferBin} {buf buf' : NosBuffer}

theorem window?_modify (hf : ∀ bin, pool[k]? = some bin → r.binIdx = k →
    ((f bin).buffers r.poolIdx).window = (bin.buffers r.poolIdx).window) :
    window? (pool.modify k f) r = pool.window? r := by
  by_cases hk : k = r.binIdx
  · subst hk
    cases hbin : pool[r.binIdx]? with
    | none => simp [window?, buffer?, hbin]
    | some bin => simp [window?, buffer?, hbin, hf bin hbin rfl]
  · simp [window?, buffer?, getElem?_modify_of_ne (Ne.symm hk)]

theorem poolIdx_ne (h : r' ≠ r) (hbin : r'.binIdx = r.binIdx) : r'.poolIdx ≠ r.poolIdx := by
  intro he
  exact h (by cases r; cases r'; simp_all)

theorem window?_setBuffer_of_ne (h : r' ≠ r) :
    (pool.setBuffer r buf).window? r' = pool.window? r' := by
  refine window?_modify fun bin _ hk => ?_
  simp only [NosBufferBin.setBuffer, Function.update_of_ne (poolIdx_ne h hk)]

theorem window?_alloc (ha : pool.nosBufferAlloc size headroom = some (pool', r)) (h : r' ≠ r) :
    pool'.window? r' = pool.window? r' := by
  obtain ⟨bin, hbin, -, hidx, rfl⟩ := alloc_eq_modify ha
  refine window?_modify fun bin' hbin' hk => ?_
  obtain rfl := Option.some.inj (hbin.symm.trans hbin')
  rw [NosBufferBin.buffers_take, Function.update_of_ne (hidx ▸ poolIdx_ne h hk)]

theorem window?_fetchAdd (d : ℤ) :
    window? (pool.modify r.binIdx fun bin => bin.fetchAdd r.poolIdx d) r' = pool.window? r' := by
  refine window?_modify fun bin _ _ => ?_
  simp only [NosBufferBin.fetchAdd, NosBufferBin.setBuffer, Function.update_apply]
  split
  · rw [‹r'.poolIdx = _›]
    rfl
  · rfl

theorem window?_putBack (h : r' ≠ r) : (pool.putBack r).window? r' = pool.window? r' := by
  refine window?_modify fun bin _ hk => ?_
  simp only [NosBufferBin.reset, NosBufferBin.setBuffer, NosBufferBin.giveBack,
    Function.update_of_ne (poolIdx_ne h hk)]

end NosBufferPool

namespace BufferUse

variable {P : Type*} {u u' : BufferUse P} {q : P} {r : BufferRef} {buf buf' : NosBuffer}

theorem Inv.setBuffer (h : u.Inv) (hbuf : u.pool.buffer? r = some buf)
    (haddr : buf'.binIdx = buf.binIdx ∧ buf'.poolIdx = buf.poolIdx)
    (hcnt : buf'.refCnt = buf.refCnt) : Inv { u with pool := u.pool.setBuffer r buf' } := by
  obtain ⟨bin, hbin, rfl⟩ := Option.map_eq_some_iff.mp hbuf
  have huse : ∀ r', u.pool.InUse r' → (u.pool.setBuffer r buf').InUse r' :=
    fun r' hr' => hr'.modify fun _ _ => ⟨rfl, fun hmem _ => hmem⟩
  have hcount : ∀ r', (u.pool.setBuffer r buf').refCnt? r' = u.pool.refCnt? r' := by
    intro r'
    refine NosBufferPool.refCnt?_modify_of_ne fun bin' hbin' _ => ?_
    obtain rfl := Option.some.inj (hbin.symm.trans hbin')
    simp only [NosBufferBin.setBuffer, Function.update_apply]
    split
    · rw [‹r'.poolIdx = _›, hcnt]
    · rfl
  constructor
  · intro i bin' hbin'
    rcases NosBufferPool.getElem?_modify_cases hbin' with ⟨bin₀, rfl, hbin₀, rfl⟩ | ⟨-, hbin'⟩
    · obtain rfl := Option.some.inj (hbin.symm.trans hbin₀)
      have hok := h.ok _ bin hbin
      obtain ⟨hbinIdx, hpoolIdx⟩ := hok.addr r.poolIdx
      exact hok.setBuffer ⟨haddr.1.trans hbinIdx, haddr.2.trans hpoolIdx⟩
    · exact h.ok i bin' hbin'
  · constructor
    · exact fun p r' hp => huse r' (h.traced.held p r' hp)
    · exact fun p r' hp => (hcount r').trans (h.traced.counted p r' hp)
    · exact h.traced.le
    · exact fun p r' hp => huse r' (h.traced.inUse p r' hp)
    · exact h.traced.unheld
    · exact h.traced.unique

variable [DecidableEq P] {action : BufferAction P}

/-- What somebody holds stays where it is. -/
theorem Inv.window_step (h : u.Inv) (hs : u.step action = some u') (hheld : (q, r) ∈ u.holders) :
    u'.pool.window? r = u.pool.window? r := by
  obtain ⟨t, ht, rfl⟩ := Option.map_eq_some_iff.mp hs
  show t.pool.window? r = u.pool.window? r
  cases action <;> simp only [BufferUse.move] at ht
  case alloc p size headroom =>
    split at ht
    · obtain rfl := Option.some.inj ht
      unfold nosBufferAlloc
      cases ha : u.pool.nosBufferAlloc size headroom with
      | none => rfl
      | some x =>
        refine NosBufferPool.window?_alloc ha ?_
        rintro rfl
        exact (h.sound.2 _ _ _ _ ha).1 q hheld
    · cases ht
  case retain p r' =>
    split at ht
    · obtain rfl := Option.some.inj ht
      exact NosBufferPool.window?_fetchAdd 1
    · cases ht
  case release p r' =>
    split at ht
    · obtain rfl := Option.some.inj ht
      exact NosBufferPool.window?_fetchAdd (-1)
    · cases ht
  case giveBack p =>
    obtain ⟨r', hr', ht⟩ := Option.bind_eq_some_iff.mp ht
    obtain ⟨buf, hbuf, rfl⟩ := Option.map_eq_some_iff.mp ht
    rw [h.pool_giveBack hbuf]
    refine NosBufferPool.window?_putBack ?_
    rintro rfl
    have hzero := h.traced.unheld p r hr'
    exact absurd (refs_pos hheld) (by omega)
  case give p p' r' =>
    split at ht
    · obtain rfl := Option.some.inj ht
      rfl
    · cases ht

end BufferUse

namespace SendNode

variable {A C T : Type*} [DecidableEq A] {u u' : BufferUse (TxHolder A)} {a : A} {c k : ℕ}
  {r : BufferRef} {q : TxHolder A} {bufs : List TxBuffer}

/-- What a thread does has no part in the references of the rings. -/
theorem count_byThread {action : BufferAction A} (hs : u.step action.byThread = some u') :
    u'.holders.count (.ring k, r) = u.holders.count (.ring k, r) := by
  obtain ⟨t, ht, rfl⟩ := Option.map_eq_some_iff.mp hs
  show t.holders.count (.ring k, r) = _
  cases action <;> simp only [BufferUse.move, BufferAction.byThread] at ht
  case alloc b size headroom =>
    split at ht
    · obtain rfl := Option.some.inj ht
      unfold BufferUse.nosBufferAlloc
      cases u.pool.nosBufferAlloc size headroom <;> simp
    · cases ht
  case retain b r' =>
    split at ht
    · obtain rfl := Option.some.inj ht
      simp
    · cases ht
  case release b r' =>
    split at ht
    · obtain rfl := Option.some.inj ht
      simp [BufferUse.nosBufferRelease]
    · cases ht
  case giveBack b =>
    obtain ⟨r', hr', ht⟩ := Option.bind_eq_some_iff.mp ht
    obtain ⟨buf, hbuf, rfl⟩ := Option.map_eq_some_iff.mp ht
    rfl
  case give b b' r' =>
    split at ht
    · obtain rfl := Option.some.inj ht
      simp
    · cases ht

theorem holders_giveBack {p : TxHolder A} (hs : u.step (.giveBack p) = some u') :
    u'.holders = u.holders := by
  obtain ⟨t, ht, rfl⟩ := Option.map_eq_some_iff.mp hs
  obtain ⟨r', hr', ht⟩ := Option.bind_eq_some_iff.mp ht
  obtain ⟨buf, hbuf, rfl⟩ := Option.map_eq_some_iff.mp ht
  rfl

theorem holders_retain {p : TxHolder A} (hs : u.step (.retain p r) = some u') :
    u'.holders = (p, r) :: u.holders := by
  obtain ⟨t, ht, rfl⟩ := Option.map_eq_some_iff.mp hs
  simp only [BufferUse.move] at ht
  split at ht
  · obtain rfl := Option.some.inj ht
    rfl
  · cases ht

theorem holders_give {p : TxHolder A} (hs : u.step (.give p q r) = some u') :
    u'.holders = (q, r) :: u.holders.erase (p, r) := by
  obtain ⟨t, ht, rfl⟩ := Option.map_eq_some_iff.mp hs
  simp only [BufferUse.move] at ht
  split at ht
  · obtain rfl := Option.some.inj ht
    rfl
  · cases ht

theorem holders_release {p : TxHolder A} (hs : u.step (.release p r) = some u') :
    u'.holders = u.holders.erase (p, r) := by
  obtain ⟨t, ht, rfl⟩ := Option.map_eq_some_iff.mp hs
  simp only [BufferUse.move] at ht
  split at ht
  · obtain rfl := Option.some.inj ht
    rfl
  · cases ht

/-- What handing buffers over to a ring does: the ring has a reference more to each of them, and
what is held stays where it is. -/
structure HandedOver (u u' : BufferUse (TxHolder A)) (c : ℕ) (bufs : List TxBuffer) : Prop where
  inv : u'.Inv
  holders : u'.holders = (bufs.map fun b => (TxHolder.ring c, b.ref)).reverse ++ u.holders
  window : ∀ q r, (q, r) ∈ u.holders → u'.pool.window? r = u.pool.window? r

theorem handedOver (h : u.Inv)
    (hfits : Run.Guarded BufferUse.step BufferUse.CountFits u (handOver a c bufs))
    (he : Run.exec BufferUse.step u (handOver a c bufs) = some u') : HandedOver u u' c bufs := by
  induction bufs generalizing u with
  | nil =>
    obtain rfl := Option.some.inj he
    exact ⟨h, rfl, fun _ _ _ => rfl⟩
  | cons b bufs ih =>
    obtain ⟨t, ht, he⟩ := Option.bind_eq_some_iff.mp he
    obtain ⟨t', ht', he⟩ := Option.bind_eq_some_iff.mp he
    obtain ⟨hretain, hfits⟩ := hfits t ht
    obtain ⟨hgive, hfits⟩ := hfits t' ht'
    have hinv := h.step hretain ht
    have hholders : t'.holders = (.ring c, b.ref) :: u.holders := by
      rw [holders_give ht', holders_retain ht, List.erase_cons_head]
    obtain ⟨hinv', hholders', hwindow⟩ := ih (hinv.step hgive ht') hfits he
    refine ⟨hinv', ?_, fun q r hq => ?_⟩
    · rw [hholders', hholders, List.map_cons, List.reverse_cons, List.append_assoc]
      rfl
    · rw [hwindow q r (hholders ▸ List.mem_cons_of_mem _ hq),
        hinv.window_step ht' (holders_retain ht ▸ List.mem_cons_of_mem _ hq),
        h.window_step ht hq]

theorem HandedOver.count (h : HandedOver u u' c bufs) (k : ℕ) (r : BufferRef) :
    u'.holders.count (.ring k, r) =
      (if k = c then (bufs.map TxBuffer.ref).count r else 0) + u.holders.count (.ring k, r) := by
  rw [h.holders, List.count_append, List.count_reverse]
  congr 1
  have hmap : (bufs.map fun b => (TxHolder.ring c, b.ref)) =
      (bufs.map TxBuffer.ref).map (Prod.mk (TxHolder.ring (A := A) c)) := by
    rw [List.map_map]
    rfl
  split
  · subst k
    rw [hmap, List.count_map_of_injective _ _ (Prod.mk_right_injective _)]
  · refine List.count_eq_zero.mpr fun hmem => ?_
    obtain ⟨b, -, he⟩ := List.mem_map.mp hmem
    exact absurd (TxHolder.ring.inj (Prod.mk.inj he).1).symm ‹_›

variable {s s' : SendNode A C T} {buf : TxBuffer} {env : EnqueueEnv BufferRef}
  {action : SendAction A C T} {outcome : SendOutcome}

/-- Every buffer in a ring is one of its references, and what has been and will be sent fits. -/
structure Inv (s : SendNode A C T) : Prop where
  use : s.use.Inv
  held : ∀ c r, ((s.conns c).tx.contents.map TxBuffer.ref).count r ≤
    s.use.holders.count (.ring c, r)
  window : s.InWindow

theorem mem_holders_of_count (hcount : ∀ c r, ((s.conns c).tx.contents.map TxBuffer.ref).count r ≤
    u.holders.count (.ring c, r)) (hbuf : buf ∈ (s.conns c).tx.contents) :
    (.ring c, buf.ref) ∈ u.holders :=
  List.count_pos_iff.mp ((List.count_pos_iff.mpr (List.mem_map_of_mem hbuf)).trans_le
    (hcount c buf.ref))

theorem Inv.held_of_queued (h : s.Inv) (hr : s.Queued r) : ∃ c, (.ring c, r) ∈ s.use.holders := by
  obtain ⟨c, hc⟩ := hr
  exact ⟨c, mem_holders_of_count h.held hc⟩

omit [DecidableEq A] in
theorem fits_congr (hmem : s'.mem r = s.mem r)
    (hwindow : s'.use.pool.window? r = s.use.pool.window? r) : s'.Fits r ↔ s.Fits r := by
  unfold Fits header len
  rw [hmem, hwindow]

theorem Inv.setUse (h : s.Inv) {use : BufferUse (TxHolder A)} (hinv : use.Inv)
    (hcount : ∀ c r, use.holders.count (.ring c, r) = s.use.holders.count (.ring c, r))
    (hwindow : ∀ q r, (q, r) ∈ s.use.holders → use.pool.window? r = s.use.pool.window? r) :
    Inv { s with use := use } where
  use := hinv
  held := fun c r => (h.held c r).trans_eq (hcount c r).symm
  window := by
    refine ⟨h.window.calls, fun r hr => ?_⟩
    obtain ⟨c, hc⟩ := h.held_of_queued hr
    have hiff : Fits { s with use := use } r ↔ s.Fits r := fits_congr rfl (hwindow _ r hc)
    exact hiff.mpr (h.window.queued r hr)

theorem Inv.setPool (h : s.Inv) {b b' : NosBuffer} (hbuf : s.use.pool.buffer? r = some b)
    (haddr : b'.binIdx = b.binIdx ∧ b'.poolIdx = b.poolIdx) (hcnt : b'.refCnt = b.refCnt)
    (hfits : s.Queued r → (s.setPool (s.use.pool.setBuffer r b')).Fits r) :
    (s.setPool (s.use.pool.setBuffer r b')).Inv where
  use := h.use.setBuffer hbuf haddr hcnt
  held := h.held
  window := by
    refine ⟨h.window.calls, fun r' hr' => ?_⟩
    by_cases he : r' = r
    · subst he
      exact hfits hr'
    · have hiff : (s.setPool (s.use.pool.setBuffer r b')).Fits r' ↔ s.Fits r' :=
        fits_congr rfl (NosBufferPool.window?_setBuffer_of_ne he)
      exact hiff.mpr (h.window.queued r' hr')

theorem Inv.push {size : ℕ} {pool : NosBufferPool} (h : s.Inv)
    (hfits : s.Queued r → (s.setPool pool).Fits r)
    (hs : s.use.pool.nosBufferPush r size = some pool) : (s.setPool pool).Inv := by
  obtain ⟨b, hbuf, rfl⟩ := Option.map_eq_some_iff.mp hs
  split at hfits
  · rw [if_pos ‹_›]
    exact ⟨h.use, h.held, h.window⟩
  · rw [if_neg ‹_›]
    exact h.setPool hbuf ⟨rfl, rfl⟩ rfl hfits

theorem Inv.pull {size : ℕ} {pool : NosBufferPool} (h : s.Inv)
    (hfits : s.Queued r → (s.setPool pool).Fits r)
    (hs : s.use.pool.nosBufferPull r size = some pool) : (s.setPool pool).Inv := by
  obtain ⟨b, hbuf, rfl⟩ := Option.map_eq_some_iff.mp hs
  split at hfits
  · rw [if_pos ‹_›]
    exact ⟨h.use, h.held, h.window⟩
  · rw [if_neg ‹_›]
    exact h.setPool hbuf ⟨rfl, rfl⟩ rfl hfits

theorem Inv.write {pos : ℕ} {bytes : Bytes} (h : s.Inv)
    (hfits : s.Queued r → (s.write r pos bytes).Fits r) : (s.write r pos bytes).Inv where
  use := h.use
  held := h.held
  window := by
    refine ⟨h.window.calls, fun r' hr' => ?_⟩
    by_cases he : r' = r
    · subst he
      exact hfits hr'
    · have hmem : (s.write r pos bytes).mem r' = s.mem r' := Function.update_of_ne he _ _
      exact (fits_congr hmem rfl).mpr (h.window.queued r' hr')

theorem Inv.setConn (h : s.Inv) {conn : NosIpcConn TxBuffer} (htx : conn.tx = (s.conns c).tx) :
    (s.setConn c conn).Inv := by
  have hcontents : ∀ k, ((s.setConn c conn).conns k).tx = (s.conns k).tx := by
    intro k
    simp only [SendNode.setConn, Function.update_apply]
    split
    · rw [htx, ‹k = c›]
    · rfl
  refine ⟨h.use, fun k r => (hcontents k).symm ▸ h.held k r, h.window.calls, ?_⟩
  rintro r ⟨k, hk⟩
  exact h.window.queued r ⟨k, hcontents k ▸ hk⟩

theorem mem_puts {conn : NosIpcConn TxBuffer} (h : ⟨r, true⟩ ∈ conn.puts env buf) :
    buf = ⟨r, true⟩ ∧ conn.Accepts env.forRing := by
  rcases List.mem_append.mp h with hhello | hbuf
  · unfold NosIpcConn.helloOf NosIpcConn.helloPut EnqueueEnv.forRing at hhello
    simp only at hhello
    split at hhello
    · split at hhello
      · cases hhello
      · obtain ⟨b, -, he⟩ := Option.map_eq_some_iff.mp (Option.mem_toList.mp hhello)
        cases he
    · cases hhello
  · split at hbuf
    · exact ⟨(List.mem_singleton.mp hbuf).symm,
        (NosIpcConn.nosIpcSendEnqueueEx_ok_iff ..).mp ‹_›⟩
    · cases hbuf

theorem Inv.enqueue (h : s.Inv) (hheld : (.thread a, buf.ref) ∈ s.use.holders)
    (hcounts : Run.Guarded BufferUse.step BufferUse.CountFits s.use
      (handOver a c ((s.conns c).puts env buf)))
    (hfits : buf.isMessage = true → (s.conns c).Accepts env.forRing → s.Fits buf.ref)
    (hs : s.nosIpcSendEnqueueEx a c env buf = some s') : s'.Inv := by
  obtain ⟨use, he, rfl⟩ := Option.map_eq_some_iff.mp hs
  have hover := handedOver h.use hcounts he
  have hcontents : ((s.conns c).nosIpcSendEnqueueEx env.forRing buf).2.tx.contents =
      (s.conns c).tx.contents ++ (s.conns c).puts env buf :=
    (s.conns c).contents_enqueue env.forRing buf
  refine ⟨hover.inv, fun k r => ?_, h.window.calls, ?_⟩
  · have hold := h.held k r
    simp only [SendNode.setConn, Function.update_apply, hover.count k r]
    split
    · subst k
      rw [hcontents, List.map_append, List.count_append]
      omega
    · omega
  · rintro r ⟨k, hk⟩
    have hkeep : ∀ q, (q, r) ∈ s.use.holders → s.Fits r → (SendNode.setConn { s with use := use } c
        ((s.conns c).nosIpcSendEnqueueEx env.forRing buf).2).Fits r := by
      intro q hq hr
      have hiff : (SendNode.setConn { s with use := use } c
          ((s.conns c).nosIpcSendEnqueueEx env.forRing buf).2).Fits r ↔ s.Fits r :=
        fits_congr rfl (hover.window q r hq)
      exact hiff.mpr hr
    have hnew : s.Queued r ∨ buf = ⟨r, true⟩ ∧ (s.conns c).Accepts env.forRing := by
      simp only [SendNode.setConn, Function.update_apply] at hk
      split at hk
      · rw [hcontents] at hk
        exact (List.mem_append.mp hk).imp (fun hold => ⟨c, hold⟩) mem_puts
      · exact .inl ⟨k, hk⟩
    rcases hnew with hold | ⟨rfl, haccepts⟩
    · obtain ⟨c, hc⟩ := h.held_of_queued hold
      exact hkeep _ hc (h.window.queued r hold)
    · exact hkeep _ hheld (hfits rfl haccepts)

theorem Inv.msgSend (h : s.Inv) (hheld : (.thread a, r) ∈ s.use.holders)
    (hcounts : Run.Guarded BufferUse.step BufferUse.CountFits s.use
      (handOver a c ((s.conns c).puts env ⟨r, true⟩)))
    (hfits : s.Accepts r c env → s.Fits r)
    (hs : s.nosServiceMsgSend a r c env = some s') : s'.Inv := by
  unfold nosServiceMsgSend at hs
  cases hslot : s.reg.findServiceEntry (s.header r).dstService with
  | none =>
    rw [hslot] at hs
    obtain rfl := Option.some.inj hs
    exact h
  | some slot =>
    rw [hslot] at hs
    simp only at hs
    split at hs
    · exact h.enqueue hheld hcounts (fun _ hacc => hfits ⟨⟨slot, hslot, ‹_›⟩, hacc⟩) hs
    · obtain rfl := Option.some.inj hs
      exact h

/-- The call of `send` for a message. -/
theorem Inv.sendCall (h : s.Inv) (hne : ¬ (s.conns c).tx.IsEmpty)
    (hmsg : (s.sendCall c).isMessage = true) : (s.sendCall c).fullLen ≤ (s.sendCall c).len := by
  have hhead : (s.conns c).tx.first ∈ (s.conns c).tx.contents := by
    rw [RingBuffer.contents_advance _ hne]
    exact List.mem_cons_self
  have hbuf : (s.conns c).tx.first = ⟨(s.conns c).tx.first.ref, true⟩ :=
    congrArg (TxBuffer.mk _) hmsg
  have hfits := h.window.queued (s.conns c).tx.first.ref ⟨c, hbuf ▸ hhead⟩
  have hlen : (s.header (s.conns c).tx.first.ref).payloadLen < 2 ^ 32 :=
    payloadLen_parseHeader_lt _
  show fullMsgLen (s.header (s.conns c).tx.first.ref) ≤ s.len (s.conns c).tx.first.ref
  rw [fullMsgLen_eq hlen]
  exact hfits

theorem Inv.releases (h : s.Inv) (he : Run.exec BufferUse.step s.use
    (((s.conns c).processTxTurn outcome).sent.toList.map fun buf =>
      BufferAction.release (.ring c) buf.ref) = some u) :
    u.Inv ∧ (∀ k r, u.holders.count (.ring k, r) + (if k = c then
      ((((s.conns c).processTxTurn outcome).sent.toList).map TxBuffer.ref).count r else 0) =
        s.use.holders.count (.ring k, r)) ∧
      ∀ q r, (q, r) ∈ s.use.holders → u.pool.window? r = s.use.pool.window? r := by
  have hcontents := (s.conns c).contents_processTxTurn outcome
  cases hsent : ((s.conns c).processTxTurn outcome).sent with
  | none =>
    rw [hsent] at he
    obtain rfl := Option.some.inj he
    exact ⟨h.use, fun k r => by simp, fun _ _ _ => rfl⟩
  | some b =>
    rw [hsent] at he hcontents
    obtain ⟨t, ht, he⟩ := Option.bind_eq_some_iff.mp he
    obtain rfl := Option.some.inj he
    have hb : (TxHolder.ring c, b.ref) ∈ s.use.holders :=
      mem_holders_of_count h.held (hcontents ▸ List.mem_cons_self)
    have hfits : s.use.CountFits (.release (.ring c) b.ref) := trivial
    refine ⟨h.use.step hfits ht, fun k r => ?_, fun q r hq => h.use.window_step ht hq⟩
    rw [holders_release ht, (List.perm_cons_erase hb).count_eq (.ring k, r), List.count_cons]
    congr 1
    simp only [Option.toList_some, List.map_cons, List.map_nil, List.count_singleton, beq_iff_eq,
      Prod.mk.injEq, TxHolder.ring.injEq]
    by_cases hk : k = c
    · rw [if_pos hk, hk]
      simp only [true_and]
    · rw [if_neg hk, if_neg fun he => hk he.1.symm]

theorem Inv.processTx (h : s.Inv) (hs : s.processTxTurn c outcome = some s') : s'.Inv := by
  obtain ⟨use, he, rfl⟩ := Option.map_eq_some_iff.mp hs
  have hcontents := (s.conns c).contents_processTxTurn outcome
  obtain ⟨hinv, hcount, hwindow⟩ := h.releases he
  refine ⟨hinv, fun k r => ?_, fun call hcall => ?_, ?_⟩
  · have hold := h.held k r
    have hrefs := hcount k r
    simp only [SendNode.setConn, Function.update_apply]
    split
    · subst k
      rw [hcontents, List.map_append, List.count_append] at hold
      rw [if_pos rfl] at hrefs
      omega
    · rw [if_neg ‹_›] at hrefs
      omega
  · rcases List.mem_append.mp hcall with hcall | hcall
    · exact h.window.calls call hcall
    · split at hcall
      · cases hcall
      · obtain rfl := List.mem_singleton.mp hcall
        exact h.sendCall ‹_›
  · rintro r ⟨k, hk⟩
    have hold : s.Queued r := by
      simp only [SendNode.setConn, Function.update_apply] at hk
      split at hk
      · exact ⟨c, hcontents ▸ List.mem_append_right _ hk⟩
      · exact ⟨k, hk⟩
    obtain ⟨q, hq⟩ := h.held_of_queued hold
    have hiff : (SendNode.setConn { s with
        use := use
        calls := s.calls ++ if (s.conns c).tx.IsEmpty then [] else [s.sendCall c] } c
        ((s.conns c).processTxTurn outcome).conn).Fits r ↔ s.Fits r :=
      fits_congr rfl (hwindow _ r hq)
    exact hiff.mpr (h.window.queued r hold)

theorem Inv.step (h : s.Inv) (hfits : s.SendFits action) (hs : s.step action = some s') :
    s'.Inv := by
  cases action <;> simp only [SendNode.step] at hs
  case use action =>
    obtain ⟨use, hu, rfl⟩ := Option.map_eq_some_iff.mp hs
    exact h.setUse (h.use.step hfits hu) (fun _ _ => count_byThread hu)
      fun _ _ hq => h.use.window_step hu hq
  case giveBack c =>
    obtain ⟨use, hu, rfl⟩ := Option.map_eq_some_iff.mp hs
    have hcount : s.use.CountFits (.giveBack (.ring c)) := trivial
    exact h.setUse (h.use.step hcount hu) (fun _ _ => by rw [holders_giveBack hu])
      fun _ _ hq => h.use.window_step hu hq
  case push a r size =>
    split at hs
    · obtain ⟨pool, hp, rfl⟩ := Option.map_eq_some_iff.mp hs
      exact h.push (fun hr => hfits hr pool hp) hp
    · cases hs
  case pull a r size =>
    split at hs
    · obtain ⟨pool, hp, rfl⟩ := Option.map_eq_some_iff.mp hs
      exact h.pull (fun hr => hfits hr pool hp) hp
    · cases hs
  case write r pos bytes =>
    obtain rfl := Option.some.inj hs
    exact h.write hfits
  case register reg =>
    obtain rfl := Option.some.inj hs
    exact ⟨h.use, h.held, h.window.calls, h.window.queued⟩
  case msgSend a r c env =>
    split at hs
    · exact h.msgSend ‹s.use.Holds (.thread a) r›.2 hfits.1 hfits.2 hs
    · cases hs
  case event a r c env =>
    split at hs
    · exact h.enqueue ‹s.use.Holds (.thread a) r›.2 hfits (fun he => nomatch he) hs
    · cases hs
  case processTx c outcome => exact h.processTx hs
  case linkGone c =>
    obtain rfl := Option.some.inj hs
    exact h.setConn rfl
  case promote c fd =>
    obtain rfl := Option.some.inj hs
    exact h.setConn rfl

theorem Inv.init {config : List (ℕ × ℕ)} (mem : BufferRef → ℕ → UInt8)
    (hconfig : ∀ entry ∈ BufferUse.configBins config, entry.2 < 2 ^ 32) :
    (init config mem : SendNode A C T).Inv where
  use := .init_of_count_lt hconfig
  held := by
    intro c r
    show (((NosIpcConn.create _).tx.contents).map TxBuffer.ref).count r ≤ _
    rw [NosIpcConn.create, RingBuffer.contents_init]
    exact Nat.zero_le _
  window := by
    refine ⟨fun call hcall => absurd hcall List.not_mem_nil, ?_⟩
    rintro r ⟨c, hc⟩
    rw [show ((SendNode.init config mem : SendNode A C T).conns c).tx.contents = [] from
      RingBuffer.contents_init _ _] at hc
    cases hc

/-- A run whose accepted messages fit, and are left so, sends nothing from outside a window. -/
theorem always_inWindow (config : List (ℕ × ℕ)) (mem : BufferRef → ℕ → UInt8)
    (hconfig : ∀ entry ∈ BufferUse.configBins config, entry.2 < 2 ^ 32)
    (actions : List (SendAction A C T))
    (hfits : Run.Guarded step SendFits (init config mem) actions) :
    Run.Always step InWindow (init config mem) actions :=
  Run.always_of_guarded (I := Inv) (fun _ _ _ h hfits hs => h.step hfits hs)
    (fun _ h => h.window) (Inv.init mem hconfig) hfits

def connectProcA : EnqueueEnv BufferRef := ⟨some "/tmp/nos_proc_A.sock", .connects 5, none⟩

def remoteRegistry (serviceId : ℕ) : ServiceRegistry Unit Unit :=
  (ServiceRegistry.zero.nosServiceRegisterRemoteEx serviceId (some "ProcA")
    (some "/tmp/nos_proc_A.sock")).2

/-- A message without a payload, over a new connection. -/
theorem inWindow_empty_message : Run.Always (step (A := ℕ)) InWindow (init [(64, 1)] fun _ _ => 0)
    [.use (.alloc 0 28 0), .register (remoteRegistry 0),
      .msgSend 0 ⟨0, 0⟩ 0 connectProcA, .processTx 0 .sent] := by
  refine always_inWindow _ _ (by decide) _ ?_
  refine .cons rfl trivial (.cons rfl trivial (.cons rfl ⟨?_, fun _ => ?_⟩
    (.cons rfl trivial trivial)))
  · refine .cons rfl ?_ (.cons rfl trivial trivial)
    show refs _ _ < 2 ^ 32
    decide
  · decide

/-- The answer of `comp_on_msg` in the first model component, in a chunk whose last message had 36
bytes of payload. -/
def staleAnswer : List (SendAction ℕ Unit Unit) :=
  [.use (.alloc 0 64 0), .write ⟨0, 0⟩ 24 (wordBytes 4 36), .use (.release 0 ⟨0, 0⟩),
    .use (.giveBack 0), .register (remoteRegistry 101), .use (.alloc 1 60 0),
    .write ⟨0, 0⟩ 0 (wordBytes 2 nosIpcMagic), .write ⟨0, 0⟩ 4 (wordBytes 4 101),
    .write ⟨0, 0⟩ 8 (wordBytes 4 7), .write ⟨0, 0⟩ 12 (wordBytes 4 1002),
    .msgSend 1 ⟨0, 0⟩ 0 connectProcA, .processTx 0 .sent]

/-- It does not set `payload_len`, and more is sent than its 60 bytes. -/
theorem not_inWindow_stale_length :
    ∃ t, Run.exec step (init [(64, 1)] fun _ _ => 0) staleAnswer = some t ∧ ¬ t.InWindow := by
  have hcalls : (Run.exec step (init [(64, 1)] fun _ _ => 0) staleAnswer).map SendNode.calls =
      some [⟨true, 64, 60⟩] := by decide +kernel
  obtain ⟨t, ht, he⟩ := Option.map_eq_some_iff.mp hcalls
  refine ⟨t, ht, fun h => ?_⟩
  exact absurd (h.calls ⟨true, 64, 60⟩ (he ▸ List.mem_singleton_self _) rfl) (by decide)

end SendNode

end GeminiNOS
