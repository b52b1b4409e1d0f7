import Dfsha.Control.Access
import Mathlib.Logic.Relation

/-!
# The lease protocol

What a transaction can do to the records of the lease protocol, one action at a time.
An action has a guard, evaluated at one reading of the clock, and an effect that leaves
the records consistent; a transaction is a sequence of actions, during which time passes.
Invariants are proved once for each action, and every command is shown to be such a
sequence, so neither side knows about the other.

`Trust` is what a sequence of actions may be assumed to keep to: which blocks the data nodes
report, which operations begin and which commit, which files are published empty, and whether
the control crashes.

## Main definitions

* `Compatible` — two locks of one file may be held at the same time.
* `Mentions`, `Fresh` — an identifier occurs in the records; it was drawn and occurs
  nowhere yet.
* `mergeParts` — the manifest merge of a committed write, as a function.
* `Act`, `Acts` — the actions, and sequences of them.
-/

namespace Dfsha

/-! ## Locks -/

/-- Neither lock is of the whole file, not both include the size, and no block is in both. -/
def Compatible (l m : Lock) : Prop :=
  l.whole = false ∧ m.whole = false ∧ ¬ (l.size = true ∧ m.size = true) ∧
    ∀ i ∈ l.indices, i ∉ m.indices

theorem Compatible.symm {l m : Lock} (h : Compatible l m) : Compatible m l :=
  ⟨h.2.1, h.1, fun hs => h.2.2.1 ⟨hs.2, hs.1⟩, fun i hi hl => h.2.2.2 i hl hi⟩

/-- What `acquire` refuses is what `Compatible` excludes. -/
theorem compatible_of_not_conflicts {l m : Lock}
    (h : ¬ conflicts l.indices l.whole l.size m) : Compatible l m := by
  simp only [conflicts, not_or, not_exists, not_and, Bool.not_eq_true] at h
  exact ⟨h.1, h.2.1, fun hs => absurd hs.2 (by simp [h.2.2.1 hs.1]), h.2.2.2⟩

namespace Access

variable {a : Access}

/-- A lease that is live later is live now. -/
theorem live_of_later {k : Nat} {c : Option Id} {d : Nat} (h : (a.later k).live c d) :
    a.live c d :=
  ⟨h.1, h.2.1, lt_of_le_of_lt (a.clk.mono (Nat.le_add_right _ _)) h.2.2⟩

@[simp] theorem later_later (k j : Nat) : (a.later k).later j = a.later (k + j) := by
  simp [later, Nat.add_assoc]

@[simp] theorem later_zero : a.later 0 = a := rfl

end Access

/-! ## Identifiers -/

/-- The identifiers a record of each kind speaks of. -/
def Lock.ids (l : Lock) : List Id := [l.id, l.handle, l.controlEpoch]
def Handle.ids (h : Handle) : List Id := h.id :: h.snapshot :: h.controlEpoch.toList
def Operation.ids (o : Operation) : List Id :=
  o.id :: o.file :: (o.base.toList ++ o.allocations.map fun x => x.2.blockVersionId)
def Node.ids (n : Node) : List Id := n.id :: n.snapshot.toList
def Snapshot.ids (s : Snapshot) : List Id := s.id :: s.file :: s.blocks.map BlockRef.blockVersionId

/-- An identifier occurs in the records. -/
def Mentions (a : Access) (id : Id) : Prop :=
  (∃ l ∈ a.locks.all, id ∈ l.ids) ∨ (∃ h ∈ a.handles.all, id ∈ h.ids) ∨
  (∃ r ∈ a.reads.all, id = r.id) ∨ (∃ o ∈ a.uploads.all, id ∈ o.ids) ∨
  (∃ n ∈ a.nodes.all, id ∈ n.ids) ∨ (∃ s ∈ a.snapshots.all, id ∈ s.ids) ∨
  (∃ b ∈ a.blocks.all, id = b.id) ∨ (∃ r ∈ a.retired.all, id = r.id) ∨ a.epoch = some id

variable (app : App)

/-- An identifier was drawn. -/
def Issued (a : Access) (id : Id) : Prop := ∃ n, n < a.issued ∧ id = app.uuid n

/-- An identifier was drawn and is not used yet. -/
def Fresh (a : Access) (id : Id) : Prop := Issued app a id ∧ ¬ Mentions a id

/-! ## Manifests -/

/-- The manifest of a committed write: each part finds its base at its place and is
replaced by its new block, or appended at the end. -/
def mergeParts (file : Id) : List (Part × BlockRef) → List BlockRef → Option (List BlockRef)
  | [], blocks => some blocks
  | (p, r) :: rest, blocks =>
      if baseOf blocks file p.base.blockIndex = p.base then
        (setBlock blocks p.base.blockIndex r).bind (mergeParts file rest)
      else none

/-- The partition `BeginWrite` insists on: from `cursor` on, each part is what is left of
the delta, cut at the next block boundary. -/
def Partitioned (offset length size : Nat) : Nat → List WritePart → Prop
  | cursor, [] => cursor = length
  | cursor, p :: rest =>
      0 < p.length ∧ p.length = min (length - cursor) (size - (offset + cursor) % size) ∧
      p.blockIndex = (offset + cursor) / size ∧ p.blockOffset = (offset + cursor) % size ∧
      p.deltaOffset = cursor ∧ Partitioned offset length size (cursor + p.length) rest

/-- The blocks of the staged pages, in order. -/
def Operation.assembled (op : Operation) : List BlockRef :=
  (List.range op.pages.length).flatMap fun i => (op.pages.lookup i).getD []

/-- A node that differs from another in nothing the protocol depends on. -/
def SameNode (n m : Node) : Prop :=
  n.id = m.id ∧ n.kind = m.kind ∧ n.parent = m.parent ∧ n.blockSize = m.blockSize

/-- A handle that what kept it busy lets go of. -/
def Handle.freed (h : Handle) (k : Id) : Handle :=
  { h with busy := if h.busy = some k then none else h.busy }

/-- The current snapshot of a live file. -/
def Current (a : Access) (file : Id) (n : Node) (c : Snapshot) : Prop :=
  a.nodes.get file = some n ∧ n.alive = true ∧ n.snapshot = some c.id ∧
    a.snapshots.get c.id = some c

/-! ## The guards of the larger actions -/

/-- A part of a write that begins: its base is what the handle's snapshot and the file's
current one both have there, and its new block is fresh. -/
structure PartOk (a : Access) (file : Id) (s c : Snapshot) (p : Part) : Prop where
  base : p.base = baseOf s.blocks file p.part.blockIndex
  current : s.blocks[p.part.blockIndex]? = c.blocks[p.part.blockIndex]?
  file_eq : p.replacement.fileId = file
  index_eq : p.replacement.blockIndex = p.part.blockIndex
  size_eq : p.replacement.sizeBytes = max p.base.sizeBytes (p.part.blockOffset + p.part.length)
  fresh : Fresh app a p.replacement.blockVersionId

/-- What a write of some bytes looks like when it begins. -/
structure BeginOk (a : Access) (op : Operation) (h : Handle) (n : Node) (s c : Snapshot) :
    Prop where
  leased : app.rf3 = true
  fresh : Fresh app a op.id
  kind : op.kind = .write
  state : op.state = .preparing
  handle : a.handles.get h.id = some h
  idle : h.busy = none
  isOpen : h.closed = false
  current : Current a h.file n c
  snap : a.snapshots.get h.snapshot = some s
  handle_eq : op.handle = h.id
  file_eq : op.file = h.file
  revision_eq : op.handleRevision = h.revision
  base_eq : op.base = some h.snapshot
  epoch_eq : op.epoch = s.ref.contentEpoch
  epoch_current : c.ref.contentEpoch = s.ref.contentEpoch
  size_eq : op.baseSize = s.ref.sizeBytes
  block_eq : op.blockSize = s.ref.blockSizeBytes
  offset_le : op.offset ≤ op.baseSize
  length_pos : 0 < op.length
  total_eq : op.total = max op.baseSize (op.offset + op.length)
  growing_iff : op.growing = true ↔ op.baseSize < op.offset + op.length
  growing_current : op.growing = true → c.ref.sizeBytes = op.baseSize
  partition : Partitioned op.offset op.length op.blockSize 0 (op.parts.map Part.part)
  parts : ∀ p ∈ op.parts, PartOk app a op.file s c p
  nodup : (op.parts.map fun p => p.replacement.blockVersionId).Nodup
  op_not_block : ∀ p ∈ op.parts, p.replacement.blockVersionId ≠ op.id
  allocations : op.allocations = op.parts.map fun p => (p.part.blockIndex, p.replacement)
  pages : op.pages = []
  locks_eq : op.locks = op.fences.map Fence.lockId
  fences : ∀ f ∈ op.fences, ∃ l, a.locks.get f.lockId = some l ∧ f.matchesLock l ∧
    l.handle = h.id
  covered : ∀ p ∈ op.parts, ∃ f ∈ op.fences,
    f.wholeFile = true ∨ p.part.blockIndex ∈ f.blockIndices
  sized : op.growing = true → ∃ f ∈ op.fences, f.includesSize = true

/-- What a write looks like when it commits, and what it publishes. -/
structure CommitWriteOk (a : Access) (op : Operation) (h : Handle) (n : Node) (s c : Snapshot)
    (replacements blocks : List BlockRef) : Prop where
  stored : a.uploads.get op.id = some op
  kind : op.kind = .write
  state : op.state = .preparing
  handle : a.handles.get op.handle = some h
  isOpen : h.closed = false
  live : a.liveHandle h
  busy : h.busy = some op.id
  fences : ∀ f ∈ op.fences, ∃ l, a.locks.get f.lockId = some l ∧ a.liveLock l
  current : Current a h.file n c
  snap : a.snapshots.get h.snapshot = some s
  epoch_current : c.ref.contentEpoch = s.ref.contentEpoch
  length_eq : replacements.length = op.parts.length
  replaces : ∀ x ∈ op.parts.zip replacements,
    x.2.blockVersionId = x.1.replacement.blockVersionId ∧
      x.2.fileId = x.1.replacement.fileId ∧ x.2.blockIndex = x.1.base.blockIndex ∧
      x.2.sizeBytes = x.1.replacement.sizeBytes ∧
      ∃ r, a.blocks.get x.2.blockVersionId = some r ∧ r.ref = x.2
  merged : mergeParts h.file (op.parts.zip replacements) c.blocks = some blocks
  growing : op.growing = true → c.ref.sizeBytes = op.baseSize

/-- The snapshot a write publishes. -/
def writtenRef (op : Operation) (c : Snapshot) (root file : Id) (blocks : List BlockRef) :
    SnapshotRef where
  fileId := file
  contentEpoch := op.epoch
  fileVersion := c.ref.fileVersion + 1
  manifestRoot := root
  sizeBytes := max c.ref.sizeBytes op.total
  manifestSha256 := app.manifestHash blocks
  fileSha256 := none
  blockSizeBytes := op.blockSize

/-- A new lock: its identifier is the next one drawn, its owner is a handle of the same file
or nothing yet, and it does not exclude any live lock of another owner. -/
structure AcquireOk (a : Access) (l : Lock) : Prop where
  id_eq : l.id = app.uuid a.issued
  epoch_eq : a.epoch = some l.controlEpoch
  owner : Issued app a l.handle
  file_eq : ∀ h, a.handles.get l.handle = some h → l.file = h.file
  compatible : ∀ m ∈ a.locks.all, a.liveLock m → m.file = l.file → m.owner ≠ l.owner →
    Compatible l m

/-- An upload as it is planned: it either replaces the current snapshot of a file or has a new
file. -/
structure Planned (a : Access) (op : Operation) : Prop where
  fresh : Fresh app a op.id
  kind : op.kind = .upload
  state : op.state = .preparing
  parts : op.parts = []
  allocations : op.allocations = []
  pages : op.pages = []
  sealed : op.sealed = none
  policy : op.policy = none
  parent_ne : op.parent ≠ some op.file
  replaces : ∀ b ∈ op.base, ∃ n s, Current a op.file n s ∧ s.id = b ∧
    op.epoch = s.ref.contentEpoch + 1 ∧ op.blockSize = n.blockSize
  creates : op.base = none → Fresh app a op.file ∧ op.file ≠ op.id ∧ op.blockSize ∈ profiles
  first : op.base = none → op.epoch = 1

/-- Where there are leases, an upload takes a lock on the whole file when it begins. -/
structure BeginUploadOk (a : Access) (op : Operation) (f : Fence) (l : Lock) : Prop
    extends Planned app a op where
  leased : app.rf3 = true
  acquire : AcquireOk app a l
  fence : op.fullFence = some f
  matches_ : f.matchesLock l
  whole : l.whole = true
  file_eq : l.file = op.file
  owner_eq : l.handle = op.id

/-- What an upload looks like when it commits. -/
structure CommitUploadOk (a : Access) (op : Operation) (n : Node) (blocks : List BlockRef) :
    Prop where
  stored : a.uploads.get op.id = some op
  kind : op.kind = .upload
  state : op.state = .preparing
  lock : ∀ f ∈ op.fullFence, ∃ l, a.locks.get f.lockId = some l ∧ a.liveLock l
  assembled : blocks = op.assembled
  count : blocks.length = blockCount op.total op.blockSize
  indexed : blocks.map BlockRef.blockIndex = List.range blocks.length
  paged : ∀ b ∈ blocks, ∃ page ∈ op.pages, b ∈ page.2
  recorded : ∀ b ∈ blocks, (a.blocks.get b.blockVersionId).isSome = true
  alive : n.alive = true
  node_id : n.id = op.file
  replaces : ∀ b ∈ op.base, ∃ m, a.nodes.get op.file = some m ∧ m.alive = true ∧
    m.snapshot = some b ∧ SameNode n m
  creates : op.base = none → n.kind = .file ∧ n.blockSize = op.blockSize

/-- The snapshot an upload publishes. -/
structure UploadedRef (a : Access) (op : Operation) (n : Node) (s : Snapshot) : Prop where
  id_eq : s.id = app.uuid a.issued
  file_eq : s.file = op.file
  ref_file : s.ref.fileId = s.file
  root_eq : s.ref.manifestRoot = s.id
  epoch_eq : s.ref.contentEpoch = op.epoch
  size_eq : s.ref.sizeBytes = op.total
  block_eq : s.ref.blockSizeBytes = op.blockSize
  node_eq : n.snapshot = some s.id
  hash_eq : op.sealed.map PageReceipt.sha256 = some s.ref.manifestSha256

/-- Where there are leases, its version is the one after the version it replaces. -/
structure VersionedRef (a : Access) (op : Operation) (n : Node) (s : Snapshot) : Prop
    extends UploadedRef app a op n s where
  version : app.rf3 = true → s.ref.fileVersion =
    ((op.base.bind a.snapshots.get).map fun c => c.ref.fileVersion + 1).getD 1

/-- The empty snapshot that opening in a creating mode publishes. -/
structure EmptyOk (a : Access) (s : Snapshot) (n : Node) : Prop where
  id_eq : s.id = app.uuid a.issued
  root_eq : s.ref.manifestRoot = s.id
  ref_file : s.ref.fileId = s.file
  file_eq : s.file = n.id
  blocks : s.blocks = []
  hash : s.ref.manifestSha256 = app.manifestHash s.blocks
  size : s.ref.sizeBytes = 0
  block_eq : s.ref.blockSizeBytes = n.blockSize
  node : n.snapshot = some s.id
  alive : n.alive = true
  first : a.nodes.get n.id = none → s.ref.contentEpoch = 1 ∧ s.ref.fileVersion = 1
  next : ∀ m c, Current a n.id m c → s.ref.contentEpoch = c.ref.contentEpoch + 1 ∧
    s.ref.fileVersion = c.ref.fileVersion + 1

/-- What is assumed of the actions of a sequence, besides their guards. -/
structure Trust where
  /-- The blocks that data nodes report for an operation. -/
  block : Operation → Block → Prop
  /-- The operations that begin. -/
  begins : Id → Prop
  /-- The operations that commit. -/
  commits : Operation → Prop
  /-- The files that are published empty. -/
  empties : Id → Prop
  /-- Whether there are seals among the actions. -/
  seals : Prop
  /-- Whether there are crashes among the actions. -/
  crashes : Prop

/-- Everything may be published. -/
def Trust.publishes (trust : Trust) : Prop := (∀ op, trust.commits op) ∧ ∀ f, trust.empties f

/-- Nothing is assumed of data nodes, of the operations that begin and commit, of seals or of
crashes. -/
def Trust.all : Trust where
  block _ _ := True
  begins _ := True
  commits _ := True
  empties _ := True
  seals := True
  crashes := True

theorem Trust.all_publishes : Trust.all.publishes := ⟨fun _ => trivial, fun _ => trivial⟩

/-- A block that a data node confirmed for an operation in preparation. -/
structure ConfirmOk (trust : Trust) (a : Access) (op : Operation) (b : Block) :
    Prop where
  stored : a.uploads.get b.operation = some op
  state : op.state = .preparing
  id_eq : b.id = b.ref.blockVersionId
  allocated : ∃ x ∈ op.allocations, x.2.blockVersionId = b.id ∧
    (op.kind = .upload → b.ref = x.2)
  trusted : trust.block op b

/-- A new block of an upload. -/
structure AllocateOk (a : Access) (op : Operation) (b : BlockRef) : Prop where
  stored : a.uploads.get op.id = some op
  kind : op.kind = .upload
  state : op.state = .preparing
  fresh : Fresh app a b.blockVersionId
  unallocated : op.allocation b.blockIndex = none
  file_eq : b.fileId = op.file
  pos : 0 < b.sizeBytes
  size_eq : b.sizeBytes = min op.blockSize (op.total - b.blockIndex * op.blockSize)

/-- A page of a manifest: it is whole, and its blocks are those allocated at their places. -/
structure PageOk (op : Operation) (i : Nat) (blocks : List BlockRef) : Prop where
  pos : 0 < blocks.length
  length_eq : blocks.length = min 64 (blockCount op.total op.blockSize - i * 64)
  placed : ∀ x ∈ blocks.zipIdx (i * 64), x.1.blockIndex = x.2 ∧ op.allocation x.2 = some x.1

/-- A page takes the place of what was staged there. -/
def Operation.staged (op : Operation) (i : Nat) (blocks : List BlockRef) : Operation :=
  { op with pages := (i, blocks) :: op.pages.filter fun p => p.1 ≠ i }

/-! ## The actions -/

/-- What one action of a transaction does to the records of the lease protocol. -/
inductive Act (trust : Trust) : Access → Access → Prop
  | advance (a : Access) (k : Nat) : Act trust a (a.later k)
  | draw (a : Access) : Act trust a { a with issued := a.issued + 1 }
  | sequence (a : Access) (n : Nat) : Act trust a { a with lockSequence := n }
  | touchNode {a : Access} {n m : Node} :
      a.nodes.get n.id = some m → SameNode n m → n.alive = m.alive → n.snapshot = m.snapshot →
      Act trust a { a with nodes := a.nodes.put n }
  | newDirectory {a : Access} {n : Node} :
      Fresh app a n.id → n.kind = .directory → n.snapshot = none →
      Act trust a { a with nodes := a.nodes.put n }
  | removeNode {a : Access} {n m : Node} :
      a.nodes.get n.id = some m → SameNode n m → n.alive = false → n.snapshot = m.snapshot →
      (∀ op ∈ a.uploads.all, op.file = n.id → op.state ≠ .preparing) →
      Act trust a { a with nodes := a.nodes.put n }
  | acquire {a : Access} {l : Lock} :
      AcquireOk app a l →
      Act trust a { a with issued := a.issued + 1, locks := a.locks.put l }
  | renewLock {a : Access} {l : Lock} (d : Nat) :
      a.locks.get l.id = some l → a.liveLock l →
      Act trust a { a with locks := a.locks.put { l with deadline := d } }
  | setActive {a : Access} {l : Lock} (x : List Id) :
      a.locks.get l.id = some l →
      Act trust a { a with locks := a.locks.put { l with active := x } }
  | dropLock (a : Access) (k : Id) : Act trust a { a with locks := a.locks.delete k }
  | openHandle {a : Access} {h : Handle} {n : Node} :
      Fresh app a h.id → h.busy = none → a.nodes.get h.file = some n → n.alive = true →
      n.snapshot = some h.snapshot → (∀ e ∈ h.controlEpoch, Issued app a e) →
      Act trust a { a with handles := a.handles.put h }
  | renewHandle {a : Access} {h : Handle} (d e : Nat) :
      a.handles.get h.id = some h → h.closed = false → a.liveHandle h →
      Act trust a { a with handles := a.handles.put { h with deadline := d, expires := e } }
  | renewPlain {a : Access} {h : Handle} (e r : Nat) :
      app.rf3 = false → a.handles.get h.id = some h →
      Act trust a { a with handles := a.handles.put { h with expires := e, revision := r } }
  | closeHandle {a : Access} {h : Handle} (r : Nat) :
      a.handles.get h.id = some h →
      Act trust a { a with handles := a.handles.put { h with closed := true, revision := r } }
  | beginRead {a : Access} {h : Handle} {r : Read} :
      Fresh app a r.id → a.handles.get h.id = some h → h.busy = none → r.handle = h.id →
      Act trust a
        { a with reads := a.reads.put r, handles := a.handles.put { h with busy := some r.id } }
  | endRead {a : Access} {h : Handle} {r : Read} :
      a.reads.get r.id = some r → a.handles.get h.id = some h → r.handle = h.id →
      Act trust a
        { a with
          reads := a.reads.put { r with closed := true }, handles := a.handles.put (h.freed r.id) }
  | freeHandle {a : Access} {h : Handle} {op : Operation} :
      a.handles.get h.id = some h → h.busy = some op.id → a.uploads.get op.id = some op →
      op.state ≠ .preparing →
      Act trust a { a with handles := a.handles.put { h with busy := none } }
  | recordOp {a : Access} {op : Operation} :
      app.rf3 = true → trust.begins op.id → Fresh app a op.id → op.state ≠ .preparing →
      (a.nodes.get op.file).isSome = true → (∀ b ∈ op.base, Issued app a b) →
      op.allocations = [] → op.length = 0 → op.pages = [] →
      Act trust a { a with uploads := a.uploads.put op }
  | beginWrite {a : Access} {op : Operation} {h : Handle} {n : Node} {s c : Snapshot} :
      trust.begins op.id → BeginOk app a op h n s c →
      Act trust a
        { a with uploads := a.uploads.put op, handles := a.handles.put { h with busy := some op.id } }
  | touchOp {a : Access} {op : Operation} (expires : Nat) (result : Option CommitResult) :
      a.uploads.get op.id = some op →
      (op.state = .committed → result.map CommitResult.snapshot =
        op.result.map CommitResult.snapshot) →
      (op.kind = .upload → expires = op.expires ∨ a.now < op.expires) →
      Act trust a
        { a with
          uploads := a.uploads.put { op with expires := expires, result := result } }
  | spendOp {a : Access} {op : Operation} {b : Block} (reserved : Nat) :
      a.uploads.get op.id = some op → trust.block op b →
      Act trust a { a with uploads := a.uploads.put { op with reserved := reserved } }
  | sealOp {a : Access} {op : Operation} {r : PageReceipt} :
      a.uploads.get op.id = some op → r.sha256 = app.manifestHash op.assembled → trust.seals →
      Act trust a { a with uploads := a.uploads.put { op with sealed := some r } }
  | capture {a : Access} {op : Operation} (p : Policy) :
      a.uploads.get op.id = some op → op.policy = none →
      Act trust a { a with uploads := a.uploads.put { op with policy := some p } }
  | endOp {a : Access} {op : Operation} {state : OperationState} :
      a.uploads.get op.id = some op → op.state ≠ .committed →
      state = .aborted ∨ state = .expired →
      Act trust a { a with uploads := a.uploads.put (op.ended state) }
  | stage {a : Access} {op : Operation} {i : Nat} {blocks : List BlockRef} :
      a.uploads.get op.id = some op → op.sealed = none → PageOk op i blocks →
      Act trust a { a with uploads := a.uploads.put (op.staged i blocks) }
  | allocate {a : Access} {op : Operation} {b : BlockRef} :
      AllocateOk app a op b →
      Act trust a
        { a with
          uploads := a.uploads.put
            { op with allocations := op.allocations ++ [(b.blockIndex, b)] } }
  | beginPlain {a : Access} {op : Operation} :
      app.rf3 = false → trust.begins op.id → Planned app a op → op.fullFence = none →
      Act trust a { a with uploads := a.uploads.put op }
  | beginUpload {a : Access} {op : Operation} {f : Fence} {l : Lock} :
      trust.begins op.id → BeginUploadOk app a op f l →
      Act trust a
        { a with
          issued := a.issued + 1, locks := a.locks.put l, uploads := a.uploads.put op }
  | confirmBlock {a : Access} {op : Operation} {b : Block} :
      ConfirmOk trust a op b → Act trust a { a with blocks := a.blocks.put b }
  | commitWrite {a : Access} {op : Operation} {h : Handle} {n n' : Node} {s c : Snapshot}
      {replacements blocks : List BlockRef} (result : Option CommitResult) :
      CommitWriteOk a op h n s c replacements blocks →
      SameNode n' n → n'.alive = true → n'.snapshot = some (app.uuid a.issued) →
      trust.commits op →
      Act trust a
        { a with
          issued := a.issued + 1,
          snapshots := a.snapshots.put ⟨app.uuid a.issued, h.file,
            writtenRef app op c (app.uuid a.issued) h.file blocks, blocks⟩,
          nodes := a.nodes.put n',
          handles := a.handles.put
            { h with snapshot := app.uuid a.issued, revision := h.revision + 1 },
          uploads := a.uploads.put
            { op with state := .committed, result := result, reserved := 0 } }
  | commitUpload {a : Access} {op : Operation} {n : Node} {s : Snapshot}
      (result : Option CommitResult) :
      CommitUploadOk a op n s.blocks → VersionedRef app a op n s → trust.commits op →
      Act trust a
        { a with
          issued := a.issued + 1, snapshots := a.snapshots.put s, nodes := a.nodes.put n,
          uploads := a.uploads.put
            { op with state := .committed, result := result, reserved := 0 } }
  | createFile {a : Access} {n : Node} {s : Snapshot} :
      Fresh app a n.id → EmptyOk app a s n → n.kind = .file → n.blockSize ∈ profiles →
      trust.empties n.id →
      Act trust a
        { a with
          issued := a.issued + 1, snapshots := a.snapshots.put s, nodes := a.nodes.put n }
  | truncate {a : Access} {n m : Node} {s c : Snapshot} :
      Current a n.id m c → SameNode n m → m.kind = .file → EmptyOk app a s n →
      s.ref.contentEpoch = c.ref.contentEpoch + 1 →
      (∀ l ∈ a.locks.all, l.file = n.id → ¬ a.liveLock l) → trust.empties n.id →
      Act trust a
        { a with
          issued := a.issued + 1, snapshots := a.snapshots.put s, nodes := a.nodes.put n }
  | dropSnapshot {a : Access} {k : Id} :
      (∀ n ∈ a.nodes.all, n.alive = true → n.snapshot ≠ some k) →
      (∀ h ∈ a.handles.all, h.closed = false → a.liveHandle h → h.snapshot ≠ k) →
      Act trust a { a with snapshots := a.snapshots.delete k }
  | retireBlock {a : Access} {k : Id} {tombstones : Table Retired} :
      (∀ s ∈ a.snapshots.all, ∀ b ∈ s.blocks, b.blockVersionId ≠ k) →
      (∀ op ∈ a.uploads.all, op.state = .preparing →
        ∀ x ∈ op.allocations, x.2.blockVersionId ≠ k) →
      (∃ b ∈ a.blocks.all, b.id = k) →
      tombstones = a.retired ∨ (∃ r : Retired, r.id = k ∧ tombstones = a.retired.put r) →
      Act trust a { a with blocks := a.blocks.delete k, retired := tombstones }
  | crash (a : Access) (clk : Clock) :
      trust.crashes → Act trust a { a with epoch := none, clk := clk, phase := 0, admitted := [] }
  | admitPut {a : Access} {op : Operation} {h : PutBlockHeader} :
      a.uploads.get h.operation.operationId = some op →
      (h.block.blockIndex, h.block) ∈ op.allocations →
      Act trust a { a with admitted := h :: a.admitted }
  | discharge {a : Access} {rest : List PutBlockHeader} :
      rest ⊆ a.admitted → Act trust a { a with admitted := rest }
  | newEpoch {a : Access} {e : Id} :
      Fresh app a e → Act trust a { a with epoch := some e }

/-- A sequence of actions. -/
abbrev Acts (trust : Trust) : Access → Access → Prop :=
  Relation.ReflTransGen (Act app trust)

/-- One action that may publish, among actions that do not depend on what may be published; what
it publishes is still there at the end. -/
def Publishes (may : Trust → Prop) (a b : Access) : Prop :=
  ∃ u v, (∀ trust, Acts app trust a u) ∧ (∀ trust, may trust → Act app trust u v) ∧
    (∀ trust, Acts app trust v b) ∧ b.snapshots = v.snapshots

namespace Publishes

variable {app} {may : Trust → Prop} {a b c : Access}

theorem acts {trust : Trust} (h : Publishes app may a b) (ht : may trust) :
    Acts app trust a b := by
  obtain ⟨u, v, hu, huv, hv, -⟩ := h
  exact ((hu trust).tail (huv trust ht)).trans (hv trust)

theorem before (h : ∀ trust, Acts app trust a b) (h' : Publishes app may b c) :
    Publishes app may a c := by
  obtain ⟨u, v, hu, huv, hv⟩ := h'
  exact ⟨u, v, fun trust => (h trust).trans (hu trust), huv, hv⟩

theorem after (h : Publishes app may a b) (h' : ∀ trust, Acts app trust b c)
    (hc : c.snapshots = b.snapshots) : Publishes app may a c := by
  obtain ⟨u, v, hu, huv, hv, hb⟩ := h
  exact ⟨u, v, hu, huv, fun trust => (hv trust).trans (h' trust), hc.trans hb⟩

end Publishes

end Dfsha
