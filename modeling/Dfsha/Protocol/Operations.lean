import Dfsha.Protocol.Leases

/-!
# Operations keep the invariant

An operation in preparation is written again and again: it gets blocks, pages, a policy, a
new expiry.  `Kept` says what none of these may change; what ends an operation may change
anything, because the invariant promises nothing to an operation that is over.
-/

namespace Dfsha

variable {app : App} {a : Access}

/-- What every later version of an operation in preparation has in common with it. -/
structure Kept (o op : Operation) : Prop where
  id : o.id = op.id
  kind : o.kind = op.kind
  state : o.state = op.state
  file : o.file = op.file
  base : o.base = op.base
  handle : o.handle = op.handle
  handleRevision : o.handleRevision = op.handleRevision
  epoch : o.epoch = op.epoch
  baseSize : o.baseSize = op.baseSize
  blockSize : o.blockSize = op.blockSize
  total : o.total = op.total
  offset : o.offset = op.offset
  length : o.length = op.length
  growing : o.growing = op.growing
  parts : o.parts = op.parts
  locks : o.locks = op.locks
  fences : o.fences = op.fences
  fullFence : o.fullFence = op.fullFence

theorem Kept.writing {o op : Operation} (k : Kept o op) : o.writing ↔ op.writing := by
  simp only [Operation.writing, k.kind, k.state]

theorem Kept.uploading {o op : Operation} (k : Kept o op) : o.uploading ↔ op.uploading := by
  simp only [Operation.uploading, k.kind, k.state]

theorem Kept.held {o op : Operation} (k : Kept o op) : Held a o ↔ Held a op := by
  simp only [Held, k.handle, k.locks]

theorem Kept.writeShape {o op : Operation} (k : Kept o op) (h : WriteShape op)
    (ha : o.allocations = op.allocations) : WriteShape o where
  length_pos := k.length ▸ h.length_pos
  offset_le := by rw [k.offset, k.baseSize]; exact h.offset_le
  total_eq := by rw [k.total, k.baseSize, k.offset, k.length]; exact h.total_eq
  growing_iff := by rw [k.growing, k.baseSize, k.offset, k.length]; exact h.growing_iff
  block_mem := k.blockSize ▸ h.block_mem
  partition := by
    rw [k.offset, k.length, k.blockSize, k.parts]
    exact h.partition
  base_index := k.parts ▸ h.base_index
  replacement := by rw [k.parts, k.file]; exact h.replacement
  nodup := k.parts ▸ h.nodup
  allocations := by rw [ha, k.parts]; exact h.allocations
  locks_eq := by rw [k.locks, k.fences]; exact h.locks_eq
  covered := by rw [k.parts, k.fences]; exact h.covered
  sized := by rw [k.growing, k.fences]; exact h.sized

/-- The block versions an operation allocated were drawn. -/
theorem Drawn.allocated (hd : Drawn app a) {op : Operation} (ho : op ∈ a.uploads.all)
    {x : Nat × BlockRef} (hx : x ∈ op.allocations) : Issued app a x.2.blockVersionId := by
  refine hd.uploads op ho _ ?_
  simp only [Operation.ids, List.mem_cons, List.mem_append, List.mem_map]
  exact .inr (.inr (.inr ⟨x, hx, rfl⟩))

/-- A fresh block version is in no allocation. -/
theorem Fresh.not_allocated {id : Id} (hf : Fresh app a id) {op : Operation}
    (ho : op ∈ a.uploads.all) {x : Nat × BlockRef} (hx : x ∈ op.allocations) :
    x.2.blockVersionId ≠ id := by
  intro he
  refine Mentions.not_upload hf.2 ho ?_
  simp only [Operation.ids, List.mem_cons, List.mem_append, List.mem_map]
  exact .inr (.inr (.inr ⟨x, hx, he⟩))

/-- The blocks of a page are blocks that the operation has. -/
theorem PageOk.allocated {op : Operation} {i : Nat} {blocks : List BlockRef}
    (h : PageOk op i blocks) {b : BlockRef} (hb : b ∈ blocks) : ∃ j, (j, b) ∈ op.allocations := by
  obtain ⟨j, hj⟩ := List.mem_iff_getElem?.mp hb
  have hmem : (b, i * 64 + j) ∈ blocks.zipIdx (i * 64) :=
    List.mk_add_mem_zipIdx_iff_getElem?.mpr hj
  obtain ⟨l₁, l₂, hl, -⟩ := List.lookup_eq_some_iff.mp (h.placed _ hmem).2
  exact ⟨i * 64 + j, by rw [hl]; simp⟩

namespace Sound

/-- What the invariant says about operations alone, for one more of them. -/
structure OpSound (app : App) (a : Access) (op : Operation) : Prop where
  ids : ∀ id ∈ op.ids, Issued app a id
  handle : a.handles.get op.id = none
  plain : app.rf3 = false → op.kind = .upload ∧ op.fullFence = none
  writeShape : op.writing → WriteShape op
  writeHandle : op.writing → ∃ h, a.handles.get op.handle = some h ∧
    h.file = op.file ∧ (h.closed = false → h.busy = some op.id ∧
      h.revision = op.handleRevision ∧ op.base = some h.snapshot)
  writeFence : op.writing → ∀ f ∈ op.fences, Issued app a f.lockId ∧
    ∀ l, a.locks.get f.lockId = some l → f.matchesLock l ∧ l.handle = op.handle ∧ l.file = op.file
  writeBase : op.writing → ∀ b ∈ op.base, ∀ s, a.snapshots.get b = some s →
    s.ref.contentEpoch = op.epoch ∧ s.ref.sizeBytes = op.baseSize ∧
      s.ref.blockSizeBytes = op.blockSize
  writeOrder : op.writing → ∀ n c, a.nodes.get op.file = some n → n.snapshot = some c.id →
    a.snapshots.get c.id = some c → NotNewer op.epoch op.baseSize c
  writeCurrent : op.writing → Held a op → ∃ n c, Current a op.file n c ∧
    c.ref.contentEpoch = op.epoch ∧
      (∀ p ∈ op.parts, baseOf c.blocks op.file p.base.blockIndex = p.base) ∧
      (op.growing = true → c.ref.sizeBytes = op.baseSize)
  uploadShape : op.uploading → UploadShape app op
  uploadFence : op.uploading → ∀ f ∈ op.fullFence, Issued app a f.lockId ∧
    ∀ l, a.locks.get f.lockId = some l →
      f.matchesLock l ∧ l.whole = true ∧ l.file = op.file ∧ l.handle = op.id
  uploadBase : op.uploading → ∀ b ∈ op.base, ∀ s, a.snapshots.get b = some s →
    s.file = op.file ∧ op.epoch = s.ref.contentEpoch + 1 ∧ s.ref.blockSizeBytes = op.blockSize

/-- What the invariant says about an operation that is stored. -/
theorem opSound (hs : Sound app a) {op : Operation} (ho : op ∈ a.uploads.all) :
    OpSound app a op where
  ids := hs.ids.uploads op ho
  handle := hs.owners op ho
  plain h := hs.plain h op ho
  writeShape := hs.writeShape op ho
  writeHandle := hs.writeHandle op ho
  writeFence := hs.writeFence op ho
  writeBase := hs.writeBase op ho
  writeOrder := hs.writeOrder op ho
  writeCurrent := hs.writeCurrent op ho
  uploadShape := hs.uploadShape op ho
  uploadFence := hs.uploadFence op ho
  uploadBase := hs.uploadBase op ho

/-- A request stays admitted for an operation that loses no allocation. -/
theorem admitted_put {t : Table Operation} {hs : List PutBlockHeader} {op : Operation}
    (h : ∀ x ∈ hs, ∃ o, t.get x.operation.operationId = some o ∧
      (x.block.blockIndex, x.block) ∈ o.allocations)
    (hkeep : ∀ o, t.get op.id = some o → ∀ x ∈ o.allocations, x ∈ op.allocations) :
    ∀ x ∈ hs, ∃ o, (t.put op).get x.operation.operationId = some o ∧
      (x.block.blockIndex, x.block) ∈ o.allocations := by
  intro x hx
  obtain ⟨o, hget, hmem⟩ := h x hx
  by_cases hid : x.operation.operationId = op.id
  · rw [hid] at hget ⊢
    exact ⟨op, Table.get_put_self t op, hkeep o hget _ hmem⟩
  · exact ⟨o, (Table.get_put_of_ne t hid).trans hget, hmem⟩

/-- **Writing an operation.**  Besides what it says alone, nobody else may use its blocks or
its new file. -/
theorem putOp (hs : Sound app a) {op : Operation} (h : OpSound app a op)
    (hread : ∀ r ∈ a.reads.all, r.id ≠ op.id)
    (hnew : op.uploading → op.base = none → a.nodes.get op.file = none ∧
      (∀ s ∈ a.snapshots.all, s.file ≠ op.file) ∧
        ∀ o ∈ a.uploads.all, o.file = op.file → o.id = op.id)
    (hother : ∀ o ∈ a.uploads.all, o.uploading → o.base = none → op.file = o.file →
      op.id = o.id)
    (htomb : ∀ r ∈ a.retired.all, op.state = .preparing →
      ∀ x ∈ op.allocations, x.2.blockVersionId ≠ r.id)
    (halloc : ∀ o ∈ a.uploads.all, ∀ x ∈ op.allocations, ∀ y ∈ o.allocations,
      x.2.blockVersionId = y.2.blockVersionId → op.id = o.id)
    (hconf : ∀ b ∈ a.blocks.all, op.state = .preparing → ∀ x ∈ op.allocations,
      x.2.blockVersionId = b.id → b.operation = op.id ∧
        (op.kind = .upload → ∃ y ∈ op.allocations, y.2 = b.ref))
    (hkeep : ∀ o, a.uploads.get op.id = some o → ∀ x ∈ o.allocations, x ∈ op.allocations)
    (hdone : ∀ o, a.uploads.get op.id = some o → o.state = .committed →
      op.state = .committed ∧ op.file = o.file) :
    Sound app { a with uploads := a.uploads.put op } :=
  { hs with
    ids := { hs.ids with uploads := Table.forall_put hs.ids.uploads h.ids }
    reads := fun r hr => (Table.get_put_of_ne _ (hread r hr)).trans (hs.reads r hr)
    owners := Table.forall_put hs.owners h.handle
    plain := fun hr => Table.forall_put (hs.plain hr) (h.plain hr)
    writeShape := Table.forall_put hs.writeShape h.writeShape
    writeHandle := Table.forall_put hs.writeHandle h.writeHandle
    writeFence := Table.forall_put hs.writeFence h.writeFence
    writeBase := Table.forall_put hs.writeBase h.writeBase
    writeOrder := Table.forall_put hs.writeOrder h.writeOrder
    writeCurrent := Table.forall_put hs.writeCurrent h.writeCurrent
    uploadShape := Table.forall_put hs.uploadShape h.uploadShape
    uploadFence := Table.forall_put hs.uploadFence h.uploadFence
    uploadBase := Table.forall_put hs.uploadBase h.uploadBase
    uploadNew := by
      refine Table.forall_put (fun o ho hu hb => ?_) fun hu hb => ?_
      · obtain ⟨h1, h2, h3⟩ := hs.uploadNew o ho hu hb
        exact ⟨h1, h2, Table.forall_put h3 (hother o ho hu hb)⟩
      · obtain ⟨h1, h2, h3⟩ := hnew hu hb
        exact ⟨h1, h2, Table.forall_put h3 fun _ => rfl⟩
    origins := fun s hsn b hb => by
      obtain ⟨o, ho, hst, hf, x, hx, he⟩ := hs.origins s hsn b hb
      by_cases hid : o.id = op.id
      · have hget : a.uploads.get op.id = some o := hid ▸ Table.get_of_mem ho
        obtain ⟨h1, h2⟩ := hdone o hget hst
        exact ⟨op, Table.mem_put.mpr (.inl rfl), h1, h2.trans hf, x, hkeep o hget x hx, he⟩
      · exact ⟨o, Table.mem_put.mpr (.inr ⟨ho, hid⟩), hst, hf, x, hx, he⟩
    tombstones := fun r hr =>
      ⟨(hs.tombstones r hr).1, Table.forall_put (hs.tombstones r hr).2 (htomb r hr)⟩
    allocated := by
      refine Table.forall_put (fun o ho => ?_) ?_
      · refine Table.forall_put (hs.allocated o ho) fun x hx y hy he => ?_
        exact (halloc o ho y hy x hx he.symm).symm
      · exact Table.forall_put halloc fun _ _ _ _ _ => rfl
    confirmed := fun b hb =>
      ⟨(hs.confirmed b hb).1, Table.forall_put (hs.confirmed b hb).2 (hconf b hb)⟩
    admitted := admitted_put hs.admitted hkeep }

/-- A stored operation is not a read. -/
theorem read_ne (hs : Sound app a) {op : Operation} (ho : op ∈ a.uploads.all) :
    ∀ r ∈ a.reads.all, r.id ≠ op.id := fun r hr he => by
  have hnone := hs.reads r hr
  rw [he, show a.uploads.get op.id = some op from Table.get_of_mem ho] at hnone
  cases hnone

/-- The file of a new upload belongs to nobody else. -/
theorem newFile_unique (hs : Sound app a) {o op : Operation} (ho : o ∈ a.uploads.all)
    (hp : op ∈ a.uploads.all) (hu : o.uploading) (hb : o.base = none) (hf : op.file = o.file) :
    op.id = o.id :=
  (hs.uploadNew o ho hu hb).2.2 op hp hf

/-- An operation that goes on: it may only have gained fresh blocks. -/
theorem reop (hs : Sound app a) {o op : Operation} (hg : a.uploads.get op.id = some op)
    (k : Kept o op) (hw : op.writing → o.allocations = op.allocations)
    (hu : o.uploading → UploadShape app o)
    (ha : ∀ x ∈ o.allocations, x ∈ op.allocations ∨ Fresh app a x.2.blockVersionId)
    (hkeep : ∀ x ∈ op.allocations, x ∈ o.allocations) :
    Sound app { a with uploads := a.uploads.put o } := by
  have ho := Table.mem_of_get hg
  have hop := hs.opSound ho
  refine hs.putOp ⟨?_, ?_, ?_, ?_, ?_, ?_, ?_, ?_, ?_, hu, ?_, ?_⟩ ?_ ?_ ?_ ?_ ?_ ?_ ?_ ?_
  · intro id hi
    simp only [Operation.ids, k.id, k.file, k.base, List.mem_cons, List.mem_append,
      List.mem_map] at hi
    rcases hi with rfl | rfl | hi | ⟨x, hx, rfl⟩
    · exact hop.ids _ (by simp [Operation.ids])
    · exact hop.ids _ (by simp [Operation.ids])
    · exact hop.ids _ (by simp [Operation.ids, List.mem_append, hi])
    · rcases ha x hx with hx | hf
      · exact hs.ids.allocated ho hx
      · exact hf.1
  · exact k.id ▸ hop.handle
  · exact fun h => ⟨k.kind.trans (hop.plain h).1, k.fullFence.trans (hop.plain h).2⟩
  · exact fun h => k.writeShape (hop.writeShape (k.writing.mp h)) (hw (k.writing.mp h))
  · intro h
    rw [k.handle, k.file, k.id, k.handleRevision, k.base]
    exact hop.writeHandle (k.writing.mp h)
  · intro h
    rw [k.fences, k.handle, k.file]
    exact hop.writeFence (k.writing.mp h)
  · intro h
    rw [k.base, k.epoch, k.baseSize, k.blockSize]
    exact hop.writeBase (k.writing.mp h)
  · intro h
    rw [k.file, k.epoch, k.baseSize]
    exact hop.writeOrder (k.writing.mp h)
  · intro h hh
    rw [k.file, k.epoch, k.parts, k.growing, k.baseSize]
    exact hop.writeCurrent (k.writing.mp h) (k.held.mp hh)
  · intro h
    rw [k.fullFence, k.file, k.id]
    exact hop.uploadFence (k.uploading.mp h)
  · intro h
    rw [k.base, k.file, k.epoch, k.blockSize]
    exact hop.uploadBase (k.uploading.mp h)
  · exact k.id ▸ hs.read_ne ho
  · intro h hb
    rw [k.file, k.id]
    exact hs.uploadNew op ho (k.uploading.mp h) (k.base ▸ hb)
  · intro p hp h hb hf
    rw [k.id]
    exact hs.newFile_unique hp ho h hb (k.file ▸ hf)
  · intro r hr hst x hx
    rcases ha x hx with hx | hf
    · exact (hs.tombstones r hr).2 op ho (k.state ▸ hst) x hx
    · exact fun he => Mentions.not_retired hf.2 hr he
  · intro p hp x hx y hy he
    rw [k.id]
    rcases ha x hx with hx | hf
    · exact hs.allocated op ho p hp x hx y hy he
    · exact absurd he.symm (hf.not_allocated hp hy)
  · intro b hb hst x hx he
    rw [k.id, k.kind]
    rcases ha x hx with hx | hf
    · obtain ⟨h1, h2⟩ := (hs.confirmed b hb).2 op ho (k.state ▸ hst) x hx he
      refine ⟨h1, fun hk => ?_⟩
      obtain ⟨y, hy, hr⟩ := h2 hk
      exact ⟨y, hkeep y hy, hr⟩
    · exact absurd he (Mentions.not_block hf.2 hb)
  · intro p hp
    obtain rfl : op = p := Option.some.inj (hg.symm.trans (k.id ▸ hp))
    exact hkeep
  · intro p hp hst
    obtain rfl : op = p := Option.some.inj (hg.symm.trans (k.id ▸ hp))
    exact ⟨k.state.trans hst, k.file⟩

theorem touchOp (hs : Sound app a) {op : Operation} (expires reserved : Nat)
    (result : Option CommitResult) (hg : a.uploads.get op.id = some op) :
    Sound app
      { a with
        uploads := a.uploads.put
          { op with expires := expires, reserved := reserved, result := result } } :=
  hs.reop hg ⟨rfl, rfl, rfl, rfl, rfl, rfl, rfl, rfl, rfl, rfl, rfl, rfl, rfl, rfl, rfl,
    rfl, rfl, rfl⟩ (fun _ => rfl) (fun hu => { hs.uploadShape op (Table.mem_of_get hg) hu with })
    (fun _ hx => .inl hx) fun _ hx => hx

/-- A seal is of the pages as they are. -/
theorem sealOp (hs : Sound app a) {op : Operation} {r : PageReceipt}
    (hg : a.uploads.get op.id = some op) (hr : r.sha256 = app.manifestHash op.assembled) :
    Sound app { a with uploads := a.uploads.put { op with sealed := some r } } :=
  hs.reop hg ⟨rfl, rfl, rfl, rfl, rfl, rfl, rfl, rfl, rfl, rfl, rfl, rfl, rfl, rfl, rfl,
    rfl, rfl, rfl⟩ (fun _ => rfl)
    (fun hu =>
      { hs.uploadShape op (Table.mem_of_get hg) hu with
        hash := fun _ hr' => Option.some.inj hr' ▸ hr })
    (fun _ hx => .inl hx) fun _ hx => hx

theorem capture (hs : Sound app a) {op : Operation} (p : Policy)
    (hg : a.uploads.get op.id = some op) :
    Sound app { a with uploads := a.uploads.put { op with policy := some p } } :=
  hs.reop hg ⟨rfl, rfl, rfl, rfl, rfl, rfl, rfl, rfl, rfl, rfl, rfl, rfl, rfl, rfl, rfl,
    rfl, rfl, rfl⟩ (fun _ => rfl) (fun hu => { hs.uploadShape op (Table.mem_of_get hg) hu with })
    (fun _ hx => .inl hx) fun _ hx => hx

theorem stage (hs : Sound app a) {op : Operation} {i : Nat} {blocks : List BlockRef}
    (hg : a.uploads.get op.id = some op) (hseal : op.sealed = none) (hp : PageOk op i blocks) :
    Sound app { a with uploads := a.uploads.put (op.staged i blocks) } :=
  hs.reop hg ⟨rfl, rfl, rfl, rfl, rfl, rfl, rfl, rfl, rfl, rfl, rfl, rfl, rfl, rfl, rfl,
    rfl, rfl, rfl⟩ (fun _ => rfl)
    (fun hu =>
      { hs.uploadShape op (Table.mem_of_get hg) hu with
        paged := fun page hpage b hb => by
          rcases List.mem_cons.mp hpage with rfl | hpage
          · exact hp.allocated hb
          · exact (hs.uploadShape op (Table.mem_of_get hg) hu).paged page
              (List.mem_filter.mp hpage).1 b hb
        hash := fun r hr => absurd (hseal.symm.trans hr) (by simp) })
    (fun _ hx => .inl hx) fun _ hx => hx

theorem allocate (hs : Sound app a) {op : Operation} {b : BlockRef} (h : AllocateOk app a op b) :
    Sound app
      { a with
        uploads := a.uploads.put
          { op with allocations := op.allocations ++ [(b.blockIndex, b)] } } := by
  have shape := hs.uploadShape op (Table.mem_of_get h.stored) ⟨h.kind, h.state⟩
  refine hs.reop h.stored ⟨rfl, rfl, rfl, rfl, rfl, rfl, rfl, rfl, rfl, rfl, rfl, rfl,
    rfl, rfl, rfl, rfl, rfl, rfl⟩ ?_ (fun _ => ?_) ?_ fun x hx => List.mem_append_left _ hx
  · intro hw
    exact absurd (hw.1.symm.trans h.kind) (by decide)
  · refine { shape with paged := fun page hp c hc => ?_, allocated := fun x hx => ?_ }
    · obtain ⟨i, hi⟩ := shape.paged page hp c hc
      exact ⟨i, List.mem_append_left _ hi⟩
    · rcases List.mem_append.mp hx with hx | hx
      · exact shape.allocated x hx
      · rw [List.mem_singleton] at hx
        subst hx
        exact ⟨h.file_eq, h.pos, h.size_eq, h.fresh.1.ne_zero⟩
  · intro x hx
    rcases List.mem_append.mp hx with hx | hx
    · exact .inl hx
    · rw [List.mem_singleton] at hx
      subst hx
      exact .inr h.fresh

/-- An operation that is over. -/
theorem settle (hs : Sound app a) {o op : Operation} (hg : a.uploads.get op.id = some op)
    (hdone : op.state ≠ .committed) (hid : o.id = op.id)
    (hkind : o.kind = op.kind) (hfull : o.fullFence = op.fullFence) (hst : o.state ≠ .preparing) (hfile : o.file = op.file)
    (hbase : o.base = op.base) (ha : o.allocations = op.allocations) :
    Sound app { a with uploads := a.uploads.put o } := by
  have ho := Table.mem_of_get hg
  have now : ¬ o.writing := fun h => hst h.2
  have nou : ¬ o.uploading := fun h => hst h.2
  refine hs.putOp ⟨?_, ?_, fun h =>
    ⟨hkind.trans (hs.plain h op ho).1, hfull.trans (hs.plain h op ho).2⟩, fun h => absurd h now,
    fun h => absurd h now, fun h => absurd h now, fun h => absurd h now, fun h => absurd h now,
    fun h => absurd h now, fun h => absurd h nou, fun h => absurd h nou, fun h => absurd h nou⟩
    ?_ (fun h => absurd h nou) ?_ (fun _ _ h => absurd h hst) ?_ (fun _ _ h => absurd h hst) ?_ ?_
  · simp only [Operation.ids, hid, hfile, hbase, ha]
    exact hs.ids.uploads op ho
  · exact hid ▸ hs.owners op ho
  · exact hid ▸ hs.read_ne ho
  · intro p hp h hb hf
    rw [hid]
    exact hs.newFile_unique hp ho h hb (hfile ▸ hf)
  · intro p hp x hx y hy he
    rw [hid]
    exact hs.allocated op ho p hp x (ha ▸ hx) y hy he
  · intro p hp x hx
    obtain rfl : op = p := Option.some.inj (hg.symm.trans (hid ▸ hp))
    exact ha ▸ hx
  · intro p hp hc
    obtain rfl : op = p := Option.some.inj (hg.symm.trans (hid ▸ hp))
    exact absurd hc hdone

/-- A fresh operation is no read and no handle. -/
theorem fresh_read_ne {id : Id} (hf : Fresh app a id) : ∀ r ∈ a.reads.all, r.id ≠ id :=
  fun _ hr he => Mentions.not_read hf.2 hr he.symm

/-- An operation that is over from the start, on a file that exists. -/
theorem recordOp (hs : Sound app a) {op : Operation} (hr : app.rf3 = true)
    (hf : Fresh app a op.id) (hst : op.state ≠ .preparing) (hfile : (a.nodes.get op.file).isSome = true)
    (hbase : ∀ b ∈ op.base, Issued app a b) (ha : op.allocations = []) :
    Sound app { a with uploads := a.uploads.put op } := by
  have now : ¬ op.writing := fun h => hst h.2
  have nou : ¬ op.uploading := fun h => hst h.2
  obtain ⟨n, hn⟩ := Option.isSome_iff_exists.mp hfile
  refine hs.putOp ⟨?_, get_none_of_unused_handle hf.2, fun h => absurd (hr.symm.trans h) (by simp),
    fun h => absurd h now, fun h => absurd h now, fun h => absurd h now, fun h => absurd h now,
    fun h => absurd h now, fun h => absurd h now, fun h => absurd h nou, fun h => absurd h nou,
    fun h => absurd h nou⟩
    (fresh_read_ne hf) (fun h => absurd h nou) ?_ (fun _ _ h => absurd h hst) ?_
    (fun _ _ h => absurd h hst) (fun o ho => ?_) fun o ho _ => ?_
  · intro id hi
    simp only [Operation.ids, ha, List.map_nil, List.append_nil, List.mem_cons,
      Option.mem_toList] at hi
    rcases hi with rfl | rfl | hi
    · exact hf.1
    · exact hs.ids.nodes n (Table.mem_of_get hn) _ (by simp [Node.ids, node_id_of_get hn])
    · exact hbase id hi
  · intro o ho hu hb he
    rw [he, (hs.uploadNew o ho hu hb).1] at hn
    cases hn
  · intro o _ x hx
    rw [ha] at hx
    exact absurd hx List.not_mem_nil
  · rw [get_none_of_unused_upload hf.2] at ho
    cases ho
  · rw [get_none_of_unused_upload hf.2] at ho
    cases ho

end Sound

end Dfsha
