import Dfsha.Protocol.Act
import Dfsha.Lib.Segments

/-!
# The invariant of the lease protocol

`Sound` collects what holds of the records between any two actions.  Its fields fall into
five groups: identifiers, locks and their owners, writes in preparation, uploads in
preparation, and the published snapshots with the blocks they are made of.

The central field is `writeCurrent`: a write that still holds its handle and all its locks
finds the file as it was when it began, wherever the write touches it.
-/

namespace Dfsha

variable (app : App)

/-! ## Operations -/

/-- A write still holds its handle and every lock it recorded. -/
def Held (a : Access) (op : Operation) : Prop :=
  (∃ h, a.handles.get op.handle = some h ∧ h.closed = false ∧ a.liveHandle h) ∧
    ∀ k ∈ op.locks, ∃ l, a.locks.get k = some l ∧ a.liveLock l

instance (a : Access) (op : Operation) : Decidable (Held a op) :=
  decidable_of_iff
    (((a.handles.get op.handle).any fun h => !h.closed && decide (a.liveHandle h)) = true ∧
      ∀ k ∈ op.locks, ((a.locks.get k).any fun l => decide (a.liveLock l)) = true)
    (by simp [Held, Option.any_eq_true])

/-- A write in preparation. -/
def Operation.writing (op : Operation) : Prop := op.kind = .write ∧ op.state = .preparing

/-- An upload in preparation. -/
def Operation.uploading (op : Operation) : Prop := op.kind = .upload ∧ op.state = .preparing

/-- What a write says about itself, whatever happens around it. -/
structure WriteShape (op : Operation) : Prop where
  length_pos : 0 < op.length
  offset_le : op.offset ≤ op.baseSize
  total_eq : op.total = max op.baseSize (op.offset + op.length)
  growing_iff : op.growing = true ↔ op.baseSize < op.offset + op.length
  block_mem : op.blockSize ∈ profiles
  partition : Partitioned op.offset op.length op.blockSize 0 (op.parts.map Part.part)
  base_index : ∀ p ∈ op.parts, p.base.blockIndex = p.part.blockIndex
  replacement : ∀ p ∈ op.parts, p.replacement.fileId = op.file ∧
    p.replacement.sizeBytes = max p.base.sizeBytes (p.part.blockOffset + p.part.length) ∧
    p.replacement.blockVersionId ≠ 0
  nodup : (op.parts.map fun p => p.replacement.blockVersionId).Nodup
  allocations : op.allocations = op.parts.map fun p => (p.part.blockIndex, p.replacement)
  locks_eq : op.locks = op.fences.map Fence.lockId
  covered : ∀ p ∈ op.parts, ∃ f ∈ op.fences,
    f.wholeFile = true ∨ p.part.blockIndex ∈ f.blockIndices
  sized : op.growing = true → ∃ f ∈ op.fences, f.includesSize = true

/-- What an upload says about itself. -/
structure UploadShape (op : Operation) : Prop where
  fence : app.rf3 = true → op.fullFence.isSome = true
  parent_ne : op.parent ≠ some op.file
  block_mem : op.blockSize ∈ profiles
  paged : ∀ page ∈ op.pages, ∀ b ∈ page.2, ∃ i, (i, b) ∈ op.allocations
  hash : ∀ r ∈ op.sealed, r.sha256 = app.manifestHash op.assembled
  allocated : ∀ x ∈ op.allocations, x.2.fileId = op.file ∧ 0 < x.2.sizeBytes ∧
    x.2.sizeBytes = min op.blockSize (op.total - x.2.blockIndex * op.blockSize) ∧
    x.2.blockVersionId ≠ 0

/-! ## Snapshots -/

/-- The blocks of a file of this size: as many as it takes, each at its own place and full
unless it is the last. -/
structure Manifest (file : Id) (size blockSize : Nat) (blocks : List BlockRef) : Prop where
  cut : Cut blockSize size (blocks.map BlockRef.sizeBytes)
  index : ∀ (i : Nat) (b : BlockRef), blocks[i]? = some b →
    b.blockIndex = i ∧ b.fileId = file ∧ b.blockVersionId ≠ 0

/-- A snapshot as it is published. -/
structure SnapshotShape (s : Snapshot) : Prop where
  root : s.ref.manifestRoot = s.id
  file : s.ref.fileId = s.file
  hash : s.ref.manifestSha256 = app.manifestHash s.blocks
  block_mem : s.ref.blockSizeBytes ∈ profiles
  manifest : Manifest s.file s.ref.sizeBytes s.ref.blockSizeBytes s.blocks

/-- One snapshot of a file is not newer than another. -/
def NotNewer (epoch size : Nat) (c : Snapshot) : Prop :=
  epoch < c.ref.contentEpoch ∨ (epoch = c.ref.contentEpoch ∧ size ≤ c.ref.sizeBytes)

/-! ## The invariant -/

/-- Every identifier in the records was drawn. -/
structure Drawn (a : Access) : Prop where
  locks : ∀ l ∈ a.locks.all, ∀ id ∈ l.ids, Issued app a id
  handles : ∀ h ∈ a.handles.all, ∀ id ∈ h.ids, Issued app a id
  reads : ∀ r ∈ a.reads.all, Issued app a r.id
  uploads : ∀ o ∈ a.uploads.all, ∀ id ∈ o.ids, Issued app a id
  nodes : ∀ n ∈ a.nodes.all, ∀ id ∈ n.ids, Issued app a id
  snapshots : ∀ s ∈ a.snapshots.all, ∀ id ∈ s.ids, Issued app a id
  blocks : ∀ b ∈ a.blocks.all, Issued app a b.id
  retired : ∀ r ∈ a.retired.all, Issued app a r.id
  epoch : ∀ e ∈ a.epoch, Issued app a e

/-- **The invariant of the lease protocol.** -/
structure Sound (a : Access) : Prop where
  ids : Drawn app a
  /-- Live locks of different owners do not exclude each other. -/
  exclusive : ∀ l ∈ a.locks.all, ∀ m ∈ a.locks.all, a.liveLock l → a.liveLock m →
    l.file = m.file → l.owner ≠ m.owner → Compatible l m
  /-- A handle's locks are on its file. -/
  lockFile : ∀ l ∈ a.locks.all, ∀ h, a.handles.get l.handle = some h → l.file = h.file
  /-- A read is not an operation. -/
  reads : ∀ r ∈ a.reads.all, a.uploads.get r.id = none
  /-- A handle is not an operation. -/
  owners : ∀ op ∈ a.uploads.all, a.handles.get op.id = none
  writeShape : ∀ op ∈ a.uploads.all, op.writing → WriteShape op
  /-- A write keeps its handle busy, at the revision and the snapshot it began with. -/
  writeHandle : ∀ op ∈ a.uploads.all, op.writing → ∃ h, a.handles.get op.handle = some h ∧
    h.file = op.file ∧ (h.closed = false → h.busy = some op.id ∧
      h.revision = op.handleRevision ∧ op.base = some h.snapshot)
  /-- A lock that a write names is still the lock it named. -/
  writeFence : ∀ op ∈ a.uploads.all, op.writing → ∀ f ∈ op.fences, Issued app a f.lockId ∧
    ∀ l, a.locks.get f.lockId = some l →
      f.matchesLock l ∧ l.handle = op.handle ∧ l.file = op.file
  writeBase : ∀ op ∈ a.uploads.all, op.writing → ∀ b ∈ op.base, ∀ s,
    a.snapshots.get b = some s → s.ref.contentEpoch = op.epoch ∧
      s.ref.sizeBytes = op.baseSize ∧ s.ref.blockSizeBytes = op.blockSize
  writeOrder : ∀ op ∈ a.uploads.all, op.writing → ∀ n c, a.nodes.get op.file = some n →
    n.snapshot = some c.id → a.snapshots.get c.id = some c → NotNewer op.epoch op.baseSize c
  /-- A write that holds its leases finds the file as it was when it began. -/
  writeCurrent : ∀ op ∈ a.uploads.all, op.writing → Held a op → ∃ n c,
    Current a op.file n c ∧ c.ref.contentEpoch = op.epoch ∧
      (∀ p ∈ op.parts, baseOf c.blocks op.file p.base.blockIndex = p.base) ∧
      (op.growing = true → c.ref.sizeBytes = op.baseSize)
  /-- Without leases nothing is written in place, and nothing is locked. -/
  plain : app.rf3 = false → ∀ op ∈ a.uploads.all, op.kind = .upload ∧ op.fullFence = none
  uploadShape : ∀ op ∈ a.uploads.all, op.uploading → UploadShape app op
  /-- The lock of an upload is on the whole of its file. -/
  uploadFence : ∀ op ∈ a.uploads.all, op.uploading → ∀ f ∈ op.fullFence,
    Issued app a f.lockId ∧ ∀ l, a.locks.get f.lockId = some l →
      f.matchesLock l ∧ l.whole = true ∧ l.file = op.file ∧ l.handle = op.id
  uploadBase : ∀ op ∈ a.uploads.all, op.uploading → ∀ b ∈ op.base, ∀ s,
    a.snapshots.get b = some s → s.file = op.file ∧ op.epoch = s.ref.contentEpoch + 1 ∧
      s.ref.blockSizeBytes = op.blockSize
  /-- The file of an upload that replaces nothing exists nowhere else. -/
  uploadNew : ∀ op ∈ a.uploads.all, op.uploading → op.base = none →
    a.nodes.get op.file = none ∧ (∀ s ∈ a.snapshots.all, s.file ≠ op.file) ∧
      ∀ o ∈ a.uploads.all, o.file = op.file → o.id = op.id
  /-- The current snapshot of a file is the newest. -/
  order : ∀ s ∈ a.snapshots.all, ∀ n c, a.nodes.get s.file = some n →
    n.snapshot = some c.id → a.snapshots.get c.id = some c →
      NotNewer s.ref.contentEpoch s.ref.sizeBytes c
  /-- A file keeps its block size. -/
  blockSizes : ∀ s ∈ a.snapshots.all, ∀ n, a.nodes.get s.file = some n →
    s.ref.blockSizeBytes = n.blockSize
  /-- A live file has its current snapshot. -/
  files : ∀ n ∈ a.nodes.all, n.alive = true → n.kind = .file → n.blockSize ∈ profiles ∧
    ∃ s, n.snapshot = some s.id ∧ a.snapshots.get s.id = some s ∧ s.file = n.id
  directories : ∀ n ∈ a.nodes.all, n.kind = .directory → n.snapshot = none
  /-- An open handle has its snapshot. -/
  handleSnap : ∀ h ∈ a.handles.all, h.closed = false → a.liveHandle h →
    (a.snapshots.get h.snapshot).isSome = true
  handleFile : ∀ h ∈ a.handles.all, ∀ s, a.snapshots.get h.snapshot = some s → s.file = h.file
  snapshotShape : ∀ s ∈ a.snapshots.all, SnapshotShape app s
  /-- Every block of a snapshot is recorded. -/
  recorded : ∀ s ∈ a.snapshots.all, ∀ b ∈ s.blocks,
    (a.blocks.get b.blockVersionId).isSome = true
  /-- The file of a snapshot has its node. -/
  housed : ∀ s ∈ a.snapshots.all, (a.nodes.get s.file).isSome = true
  /-- Every block of a snapshot was allocated by an operation on the file that is committed. -/
  origins : ∀ s ∈ a.snapshots.all, ∀ b ∈ s.blocks, ∃ op ∈ a.uploads.all,
    op.state = .committed ∧ op.file = s.file ∧
      ∃ x ∈ op.allocations, x.2.blockVersionId = b.blockVersionId
  /-- A retired block is gone, and nothing in preparation uses it. -/
  tombstones : ∀ r ∈ a.retired.all, a.blocks.get r.id = none ∧
    ∀ op ∈ a.uploads.all, op.state = .preparing →
      ∀ x ∈ op.allocations, x.2.blockVersionId ≠ r.id
  /-- No two operations allocate the same block version. -/
  allocated : ∀ o ∈ a.uploads.all, ∀ p ∈ a.uploads.all, ∀ x ∈ o.allocations,
    ∀ y ∈ p.allocations, x.2.blockVersionId = y.2.blockVersionId → o.id = p.id
  /-- A recorded block is the one its operation allocated. -/
  confirmed : ∀ b ∈ a.blocks.all, b.ref.blockVersionId = b.id ∧
    ∀ op ∈ a.uploads.all, op.state = .preparing → ∀ x ∈ op.allocations,
      x.2.blockVersionId = b.id → b.operation = op.id ∧
        (op.kind = .upload → ∃ y ∈ op.allocations, y.2 = b.ref)
  /-- A block that a request was admitted for is an allocation of its operation. -/
  admitted : ∀ h ∈ a.admitted, ∃ op, a.uploads.get h.operation.operationId = some op ∧
    (h.block.blockIndex, h.block) ∈ op.allocations
  root : ∃ r, a.nodes.get app.root = some r ∧ r.kind = .directory ∧ r.parent = none

variable {app} {a : Access}

/-! ## Fresh identifiers -/

namespace Mentions

variable {id : Id}

theorem not_lock (h : ¬ Mentions a id) {l : Lock} (hl : l ∈ a.locks.all) : id ∉ l.ids :=
  fun hi => h (.inl ⟨l, hl, hi⟩)

theorem not_handle (h : ¬ Mentions a id) {x : Handle} (hx : x ∈ a.handles.all) : id ∉ x.ids :=
  fun hi => h (.inr (.inl ⟨x, hx, hi⟩))

theorem not_read (h : ¬ Mentions a id) {x : Read} (hx : x ∈ a.reads.all) : id ≠ x.id :=
  fun hi => h (.inr (.inr (.inl ⟨x, hx, hi⟩)))

theorem not_upload (h : ¬ Mentions a id) {x : Operation} (hx : x ∈ a.uploads.all) :
    id ∉ x.ids :=
  fun hi => h (.inr (.inr (.inr (.inl ⟨x, hx, hi⟩))))

theorem not_node (h : ¬ Mentions a id) {x : Node} (hx : x ∈ a.nodes.all) : id ∉ x.ids :=
  fun hi => h (.inr (.inr (.inr (.inr (.inl ⟨x, hx, hi⟩)))))

theorem not_snapshot (h : ¬ Mentions a id) {x : Snapshot} (hx : x ∈ a.snapshots.all) :
    id ∉ x.ids :=
  fun hi => h (.inr (.inr (.inr (.inr (.inr (.inl ⟨x, hx, hi⟩))))))

theorem not_block (h : ¬ Mentions a id) {x : Block} (hx : x ∈ a.blocks.all) : id ≠ x.id :=
  fun hi => h (.inr (.inr (.inr (.inr (.inr (.inr (.inl ⟨x, hx, hi⟩)))))))

theorem not_retired (h : ¬ Mentions a id) {x : Retired} (hx : x ∈ a.retired.all) : id ≠ x.id :=
  fun hi => h (.inr (.inr (.inr (.inr (.inr (.inr (.inr (.inl ⟨x, hx, hi⟩))))))))

theorem not_epoch (h : ¬ Mentions a id) : a.epoch ≠ some id :=
  fun hi => h (.inr (.inr (.inr (.inr (.inr (.inr (.inr (.inr hi))))))))

end Mentions

theorem Issued.ne_zero {id : Id} (h : Issued app a id) : id ≠ 0 := by
  obtain ⟨n, -, rfl⟩ := h
  exact app.uuid_ne_zero n

/-- The next identifier is not drawn yet. -/
theorem not_issued_next : ¬ Issued app a (app.uuid a.issued) := by
  rintro ⟨n, hn, he⟩
  exact absurd (app.uuid_injective he) (by omega)

/-- What the records mention was drawn. -/
theorem Drawn.issued {id : Id} (hd : Drawn app a) (h : Mentions a id) : Issued app a id := by
  rcases h with ⟨x, hx, hi⟩ | ⟨x, hx, hi⟩ | ⟨x, hx, rfl⟩ | ⟨x, hx, hi⟩ | ⟨x, hx, hi⟩ |
    ⟨x, hx, hi⟩ | ⟨x, hx, rfl⟩ | ⟨x, hx, rfl⟩ | hi
  · exact hd.locks x hx id hi
  · exact hd.handles x hx id hi
  · exact hd.reads x hx
  · exact hd.uploads x hx id hi
  · exact hd.nodes x hx id hi
  · exact hd.snapshots x hx id hi
  · exact hd.blocks x hx
  · exact hd.retired x hx
  · exact hd.epoch id hi

/-- The next identifier occurs nowhere. -/
theorem Sound.next_unused (hs : Sound app a) : ¬ Mentions a (app.uuid a.issued) :=
  fun h => not_issued_next (hs.ids.issued h)

theorem Issued.more {id : Id} (h : Issued app a id) :
    Issued app { a with issued := a.issued + 1 } id := by
  obtain ⟨n, hn, rfl⟩ := h
  exact ⟨n, Nat.lt_succ_of_lt hn, rfl⟩

/-- The identifier just drawn. -/
theorem issued_next : Issued app { a with issued := a.issued + 1 } (app.uuid a.issued) :=
  ⟨a.issued, Nat.lt_succ_self _, rfl⟩

theorem Drawn.more (hd : Drawn app a) : Drawn app { a with issued := a.issued + 1 } where
  locks l hl id hi := (hd.locks l hl id hi).more
  handles h hh id hi := (hd.handles h hh id hi).more
  reads r hr := (hd.reads r hr).more
  uploads o ho id hi := (hd.uploads o ho id hi).more
  nodes n hn id hi := (hd.nodes n hn id hi).more
  snapshots s hs id hi := (hd.snapshots s hs id hi).more
  blocks b hb := (hd.blocks b hb).more
  retired r hr := (hd.retired r hr).more
  epoch e he := (hd.epoch e he).more

theorem get_none_of_unused_snapshot {id : Id} (h : ¬ Mentions a id) : a.snapshots.get id = none := by
  cases hg : a.snapshots.get id with
  | none => rfl
  | some s =>
      have hk : s.id = id := Table.key_of_get hg
      exact absurd (by simp [Snapshot.ids, hk]) (Mentions.not_snapshot h (Table.mem_of_get hg))

theorem get_none_of_unused_node {id : Id} (h : ¬ Mentions a id) : a.nodes.get id = none := by
  cases hg : a.nodes.get id with
  | none => rfl
  | some s =>
      have hk : s.id = id := Table.key_of_get hg
      exact absurd (by simp [Node.ids, hk]) (Mentions.not_node h (Table.mem_of_get hg))

theorem get_none_of_unused_upload {id : Id} (h : ¬ Mentions a id) : a.uploads.get id = none := by
  cases hg : a.uploads.get id with
  | none => rfl
  | some s =>
      have hk : s.id = id := Table.key_of_get hg
      exact absurd (by simp [Operation.ids, hk]) (Mentions.not_upload h (Table.mem_of_get hg))

theorem get_none_of_unused_handle {id : Id} (h : ¬ Mentions a id) : a.handles.get id = none := by
  cases hg : a.handles.get id with
  | none => rfl
  | some s =>
      have hk : s.id = id := Table.key_of_get hg
      exact absurd (by simp [Handle.ids, hk]) (Mentions.not_handle h (Table.mem_of_get hg))

/-! ## First consequences -/

/-- The lock under a key has that key. -/
theorem lock_id_of_get {k : Id} {l : Lock} (h : a.locks.get k = some l) : l.id = k :=
  Table.key_of_get h

theorem handle_id_of_get {k : Id} {h : Handle} (hg : a.handles.get k = some h) : h.id = k :=
  Table.key_of_get hg

theorem upload_id_of_get {k : Id} {o : Operation} (h : a.uploads.get k = some o) : o.id = k :=
  Table.key_of_get h

theorem node_id_of_get {k : Id} {n : Node} (h : a.nodes.get k = some n) : n.id = k :=
  Table.key_of_get h

theorem snapshot_id_of_get {k : Id} {s : Snapshot} (h : a.snapshots.get k = some s) : s.id = k :=
  Table.key_of_get h

/-- Two records of one key are one record. -/
theorem get_unique {ρ κ : Type} [Keyed ρ κ] [LinearOrder κ] {t : Table ρ} {r : ρ} {x : ρ} {k : κ}
    (hr : t.get k = some r) (hx : x ∈ t.all) (hk : Keyed.key x = k) : x = r := by
  have := Table.get_of_mem hx
  rw [hk, hr] at this
  exact (Option.some.inj this).symm

/-- A write has at least one part, and so at least one lock. -/
theorem WriteShape.parts_ne {op : Operation} (h : WriteShape op) : op.parts ≠ [] := by
  intro he
  have hp := h.partition
  rw [he] at hp
  exact absurd hp (ne_of_lt h.length_pos)

theorem WriteShape.fences_ne {op : Operation} (h : WriteShape op) : op.fences ≠ [] := by
  intro he
  obtain ⟨p, hp⟩ := List.exists_mem_of_ne_nil _ h.parts_ne
  obtain ⟨f, hf, -⟩ := h.covered p hp
  rw [he] at hf
  exact absurd hf List.not_mem_nil

end Dfsha
