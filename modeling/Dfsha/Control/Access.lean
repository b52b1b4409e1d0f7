import Dfsha.Control.Commands

/-!
# Handles, locks and writes in place

The commands of a control with leases.  A handle pins a snapshot; a write through it
begins by locking the blocks it touches (and the size, if the file grows), lets the
data nodes build new blocks from the old ones and the delta, and commits by merging
the new blocks into whatever the file's manifest has become in the meantime.

`beginWrite` is cut into the stages of the source's function: the partition of the
delta, the locks the request brings, the locks the handle already has, and the plan
of each part.
-/

namespace Dfsha

variable (app : App)

/-! ## Handles -/

/-- `AccessQueries.handle`. -/
def accessHandle (user : User) (session : Session) (identity : Id) : Q (Handle × Snapshot) := do
  let a ← access
  let h ← needSome (a.handles.get identity) .staleHandle
  need (h.user = user.id ∧ h.session = session.id ∧ h.closed = false ∧ a.liveHandle h)
    .staleHandle
  require app user (a.nodes.get h.file) (if h.mode ∈ readModes then 4 else 2)
  Query.each h.ancestors fun ancestor => require app user (a.nodes.get ancestor) 1
  let snap ← needSome (a.snapshots.get h.snapshot) .staleHandle
  pure (h, snap)

/-- What `writable` finds: the handle and its snapshot, the file and its current one. -/
structure Writable where
  handle : Handle
  snap : Snapshot
  node : Node
  current : Snapshot

/-- `AccessQueries.writable`. -/
def writable (user : User) (session : Session) (identity : Id) : Q Writable := do
  let (h, snap) ← accessHandle app user session identity
  need (h.mode ∈ writeModes) .permissionDenied
  let a ← access
  let node := a.nodes.get h.file
  require app user node 2
  let node ← deref node
  let root ← deref node.snapshot
  let current ← deref (a.snapshots.get root)
  need (node.alive = true ∧ current.ref.contentEpoch = snap.ref.contentEpoch) .versionConflict
  pure ⟨h, snap, node, current⟩

/-- `BeginRead`. -/
def beginRead (user : User) (session : Session) (req : BeginReadRequest) : T Response := do
  let (h, snap) ← accessHandle app user session req.handleId
  need (h.mode ∈ readModes) .permissionDenied
  need (h.busy = none) .handleBusy
  need (req.snapshot = snap.ref) .versionConflict
  let _ ← checkedRange req.offset req.length none
  let id ← draw app
  putRead ⟨id, h.id, session.id, req.offset, req.length, false⟩
  putHandle { h with busy := some id }
  pure (.readLease id req.snapshot h.expires)

/-- `EndRead`. -/
def endRead (user : User) (session : Session) (ctx : RequestContext) (handleId readId : Id) :
    T Response := do
  let a ← access
  let h ← needSome (a.handles.get handleId) .permissionDenied
  let record ← needSome (a.reads.get readId) .permissionDenied
  need (record.handle = h.id ∧ record.session = session.id ∧ h.user = user.id) .permissionDenied
  putRead { record with closed := true }
  (if h.busy = some record.id then putHandle { h with busy := none } else pure ())
  pure (result ctx 1)

/-- The quota on open handles, which counts a lease until its declared deadline. -/
def handleQuota (user : User) (a : Access) : Prop :=
  let active := a.handles.all.filter fun h => h.closed = false ∧ a.liveHandle h
  active.length < 512 ∧ (active.filter fun h => h.user = user.id).length < 32

instance (user : User) (a : Access) : Decidable (handleQuota user a) :=
  inferInstanceAs (Decidable (_ ∧ _))

/-- The file a creating mode truncates, with the next epoch and version: nobody may hold
a lock on it.  The lock taken here is gone when the transaction ends. -/
def openTruncating (user : User) (session : Session) (node : Node) (mode : OpenMode) :
    T (Node × Nat × Nat) := do
  need (node.kind = .file) .isDirectory
  require app user (some node) (if mode ∈ readModes then 6 else 2)
  let a ← access
  let root ← deref node.snapshot
  let old ← deref (a.snapshots.get root)
  let owner ← draw app
  let lock ← acquire app ⟨owner, node.id, session.id⟩ [] true true true
  deleteLock lock.id
  pure (node, old.ref.contentEpoch + 1, old.ref.fileVersion + 1)

/-- The file a creating mode adds. -/
def openNew (user : User) (parent : Node) (name : Text) : T (Node × Nat × Nat) := do
  let id ← draw app
  pure ({ newNode id name parent.id user.id false 384 with blockSize := app.blockSizeBytes }, 1, 1)

/-- What a creating mode finds at its path; only a missing name is not an error. -/
def openResolve (user : User) (path : PathRef) : Q (Option Node) := do
  let found ← Query.attempt (resolve app user path)
  match found with
  | .ok node => pure (some node)
  | .error (.fault .notFound) => pure none
  | .error e => Query.fail e

/-- The directory and the name a creating mode works on. -/
def openParent (user : User) (path : PathRef) (mode : OpenMode) : Option Node → Q (Node × Text)
  | some node => do
      need (mode ≠ .x ∧ mode ≠ .xPlus) .alreadyExists
      let a ← access
      let parent ← deref (node.parent.bind a.nodes.get)
      pure (parent, node.name)
  | none => parentOf app user path

/-- `Open` in a creating mode: the file is published empty. -/
def openCreating (user : User) (session : Session) (path : PathRef) (mode : OpenMode) :
    T Node := do
  let found ← openResolve app user path
  let (parent, name) ← openParent app user path mode found
  let a ← access
  need (¬ reserved a parent.id name) .lockBusy
  let (node, epoch, version) ←
    (found.elim (openNew app user parent name) fun node =>
      openTruncating app user session node mode)
  let root ← draw app
  let ref : SnapshotRef :=
    { fileId := node.id, contentEpoch := epoch, fileVersion := version, manifestRoot := root,
      sizeBytes := 0, manifestSha256 := app.manifestHash [], fileSha256 := some (app.sha256 []),
      blockSizeBytes := node.blockSize }
  putSnapshot ⟨root, node.id, ref, []⟩
  let node ← bump app { node with snapshot := some root }
  let _ ← bump app parent
  pure node

/-- `Open` in a mode that only opens. -/
def openExisting (user : User) (path : PathRef) (mode : OpenMode) : T Node := do
  let node ← resolve app user path
  need (node.kind = .file) .isDirectory
  require app user (some node) (if mode = .rPlus then 6 else 4)
  pure node

/-- `AccessCommands.Open`. -/
def accessOpen (user : User) (session : Session) (path : PathRef) (mode : OpenMode) :
    T HandleMessage := do
  need (mode ∈ readModes ++ writeModes) .unsupportedMode
  let a ← access
  need (app.metadataKey = true → handleQuota user a) .limitExceeded
  let node ← (if mode ∈ creatingModes then openCreating app user session path mode
    else openExisting app user path mode)
  let above ← ancestors node
  let id ← draw app
  let root ← deref node.snapshot
  let h ← refreshHandle app
    { id := id, file := node.id, snapshot := root, user := user.id, session := session.id,
      revision := 1, closed := false, ancestors := above, mode := mode, busy := none,
      controlEpoch := none, maximum := 0, deadline := 0, expires := 0 } true
  putHandle h
  let m ← handleMessage h
  pure m

/-- A write in preparation lives as long as the handle it keeps busy. -/
def renewBusy (h : Handle) : T Unit := do
  let a ← access
  match h.busy.bind a.uploads.get with
  | none => pure ()
  | some op =>
      if op.kind = .write ∧ op.state = .preparing then putUpload { op with expires := h.expires }
      else pure ()

/-- `AccessCommands.RenewHandle`. -/
def accessRenewHandle (user : User) (session : Session) (handleId : Id) : T Response := do
  let (h, _) ← accessHandle app user session handleId
  let h ← refreshHandle app h false
  putHandle h
  renewBusy h
  let m ← handleMessage h
  pure (.handle m)

/-- Closing a handle drops its locks. -/
def closeHandle (session : Session) (h : Handle) : T Unit := do
  need (h.busy = none) .handleBusy
  putHandle { h with closed := true, revision := h.revision + 1 }
  let a ← access
  Tx.each a.locks.all fun lock =>
    if lock.handle = h.id ∧ lock.session = session.id then deleteLock lock.id else pure ()

/-- `AccessCommands.Close`. -/
def accessClose (user : User) (session : Session) (ctx : RequestContext) (handleId : Id) :
    T Response := do
  let a ← access
  let h ← needSome (a.handles.get handleId) .staleHandle
  need (h.user = user.id ∧ h.session = session.id) .staleHandle
  if h.closed = true then
    pure (result ctx h.revision)
  else do
    closeHandle session h
    pure (result ctx (h.revision + 1))

/-! ## Locks -/

/-- The blocks a lock request names. -/
def lockIndices (req : LockRequest) (size : Nat) : Q (List Nat) :=
  if req.wholeFile = true then do
    need (req.offset = none ∧ req.length = none) .invalidArgument
    pure []
  else
    match req.offset, req.length with
    | some offset, some length => do
        need (0 < length) .invalidArgument
        let stop ← checkedRange offset length (some maxDelta)
        pure (List.range' (offset / size) ((stop - 1) / size + 1 - offset / size))
    | _, _ => Query.fail (.fault .invalidArgument)

/-- `Lock`. -/
def lockBlocks (user : User) (session : Session) (req : LockRequest) : T Response := do
  let t ← writable app user session req.handleId
  need (t.handle.busy = none) .handleBusy
  need (req.waitTimeoutMs ≤ 5000) .invalidArgument
  let indices ← lockIndices req t.snap.ref.blockSizeBytes
  let lock ← acquire app t.handle.owner indices req.wholeFile req.wholeFile false
  let fence ← message lock
  pure (.fence fence)

/-- `RenewLock`. -/
def renewLock (user : User) (session : Session) (fence : Fence) : T Response := do
  let _ ← writable app user session fence.handleId
  let lock ← validate session fence
  let t ← clock
  let lock := { lock with deadline := t + app.lockLease }
  putLock lock
  let fence ← message lock
  pure (.fence fence)

/-- `Unlock`. -/
def unlock (session : Session) (ctx : RequestContext) (fence : Fence) : T Response := do
  let lock ← validate session fence
  need (lock.active = []) .lockBusy
  deleteLock lock.id
  pure (result ctx 1)

/-! ## Beginning a write -/

/-- The partition check of `BeginWrite`: each part is what is left of the delta, cut at
the next block boundary.  Returns how much of the delta the parts cover. -/
def checkParts (offset length size : Nat) : List WritePart → Nat → Q Nat
  | [], cursor => pure cursor
  | part :: rest, cursor => do
      let absolute := offset + cursor
      let expected := min (length - cursor) (size - absolute % size)
      need (0 < expected ∧ part.blockIndex = absolute / size ∧
        part.blockOffset = absolute % size ∧ part.deltaOffset = cursor ∧
        part.length = expected ∧ part.deltaSha256.length = 32) .invalidArgument
      checkParts offset length size rest (cursor + part.length)

/-- The locks gathered for a write, the blocks they cover, and whether they cover the size. -/
structure Gathered where
  locks : List Lock
  covered : List Nat
  hasSize : Bool

/-- One more lock for a write. -/
def Gathered.add (g : Gathered) (indices : List Nat) (l : Lock) : Gathered where
  locks := g.locks ++ [l]
  covered := g.covered ++ if l.whole = true then indices else l.indices
  hasSize := g.hasSize || l.size

/-- The locks whose fences the request brings. -/
def gatherFences (session : Session) (h : Handle) (indices : List Nat) (fences : List Fence) :
    T Gathered :=
  Tx.fold fences (fun g fence => do
    let lock ← validate session fence
    need (lock.handle = h.id) .permissionDenied
    pure (g.add indices lock)) ⟨[], [], false⟩

/-- The locks the handle already has, even when the request does not name them. -/
def gatherOwn (session : Session) (h : Handle) (indices : List Nat) (g : Gathered) :
    T Gathered := do
  let a ← access
  Tx.fold a.locks.all (fun g lock => do
    let a ← access
    if a.liveLock lock ∧ lock.handle = h.id ∧ lock.session = session.id ∧
        lock.automatic = false ∧ lock.id ∉ g.locks.map Lock.id then
      pure (g.add indices lock)
    else pure g) g

/-- What no lock covers yet is locked for this write only. -/
def gatherMissing (h : Handle) (indices : List Nat) (growing : Bool) (g : Gathered) :
    T Gathered := do
  let missing := indices.filter fun i => i ∉ g.covered
  let size := growing && !g.hasSize
  if missing ≠ [] ∨ size = true then do
    let lock ← acquire app h.owner missing false size true
    pure { g with locks := g.locks ++ [lock] }
  else pure g

/-- The node a part is patched at: one that has the base and room for the result. -/
def patchNode (w : World) (holders : List DataNode) (cost : Nat) : Option DataNode :=
  holders.find? fun node => roomFor app w node cost spare

/-- Or a ready node without the base, with room for both. -/
def copyNode (w : World) (holders : List DataNode) (cost : Nat) : Option DataNode :=
  w.cluster.datanodes.all.find? fun node =>
    nodeState app w.access.now (some node) = .ready ∧ node ∉ holders ∧
      roomFor app w node cost spare

/-- Order the copy of a base to the node its patch is assigned to. -/
def orderBase (opId : Id) (base : BlockRef) (holders : List DataNode) (cost : Nat) :
    T DataNode := do
  let w ← world
  let baseCost := storageCost base.sizeBytes
  let chosen ← needSome (copyNode app w holders (cost + baseCost)) .noSpace
  let source ← deref holders.head?
  let location ← deref (locationAt w.cluster base.blockVersionId source.id)
  let task ← newTask app .copy base source.id chosen.id
  putTask
    { task with
      source := some source.location, destination := some chosen.location,
      receipt := some location.receipt, reserved := baseCost, writeOperation := some opId }
  pure chosen

/-- Where the new version of an existing block is built. -/
def assignPatch (opId : Id) (base replacement : BlockRef) : T Unit := do
  let w ← world
  let holders := ((w.cluster.locations.all.filter fun l => l.block = base.blockVersionId).filterMap
    fun l => w.cluster.datanodes.get l.node).filter
    fun node => nodeState app w.access.now (some node) = .ready
  need (holders ≠ []) .dataUnavailable
  let cost := storageCost replacement.sizeBytes
  let chosen ← ((patchNode app w holders cost).elim (orderBase app opId base holders cost) pure)
  putAssignment
    ⟨replacement.blockVersionId, chosen.id, opId, chosen.location.bootGeneration, cost⟩

/-- The base of a part in a manifest. -/
def baseOf (blocks : List BlockRef) (file : Id) (index : Nat) : BlockRef :=
  (blocks[index]?).getD (.absent file index)

/-- One part of `BeginWrite`: a new version of one block is assigned and planned. -/
def planPart (user : User) (snap : Snapshot) (file : Id) (acc : Operation × List PlannedBlock)
    (part : WritePart) : T (Operation × List PlannedBlock) := do
  let (op, planned) := acc
  let index := part.blockIndex
  let base := baseOf snap.blocks file index
  let id ← draw app
  let replacement : BlockRef :=
    ⟨file, id, index, max base.sizeBytes (part.blockOffset + part.length), .unset⟩
  (if base.blockVersionId ≠ 0 then assignPatch app op.id base replacement else pure ())
  let p ← plan app replacement user op.binding
  let w ← world
  let first ← deref p.locations.head?
  let target ← deref (w.cluster.datanodes.get first.nodeId)
  let grants := match p.grants with
    | [] => []
    | grant :: rest =>
        { grant with
          action := .patchData,
          capability := capability app user op.binding replacement target .patch } :: rest
  let op :=
    { op with
      allocations := op.allocations ++ [(index, replacement)],
      parts := op.parts ++ [⟨part, base, replacement⟩] }
  putUpload op
  pure (op, planned ++
    [{ p with
       block := base, patch := true, replacementBlockVersionId := id,
       blockOffset := part.blockOffset, deltaOffset := part.deltaOffset,
       deltaLength := part.length, grants := grants }])

/-- The end of `BeginWrite`: a write of some bytes keeps its handle busy, an empty one is
committed at once. -/
def beginFinish (h : Handle) (base : SnapshotRef) (op : Operation) : T Unit :=
  if op.length ≠ 0 then do
    putHandle { h with busy := some op.id }
    putUpload op
  else do
    let op :=
      { op with
        state := .committed,
        result := some
          { operation := op.operation, state := .committed, snapshot := base,
            acceptedBytes := 0, degraded := false, targetReplicas := 1, minimumDurable := 1 } }
    releaseOperation op
    putUpload op

/-- The checks of `BeginWrite` before it takes any lock: the base is what the handle has,
and the parts are the delta cut at block boundaries, unchanged since the base. -/
def beginCheck (t : Writable) (req : BeginWriteRequest) (offset length : Nat) : Q Bool := do
  need (t.handle.busy = none) .handleBusy
  need (req.base = t.snap.ref) .versionConflict
  need (req.deltaSha256.length = 32) .invalidArgument
  let stop ← checkedRange offset length (some maxDelta)
  need (offset ≤ req.base.sizeBytes) .sparseWriteUnsupported
  need (stop ≤ app.maxFileBytes) .limitExceeded
  let growing := decide (req.base.sizeBytes < stop)
  need (growing = true → t.current.ref.sizeBytes = req.base.sizeBytes) .versionConflict
  need (req.parts.length ≤ 5) .invalidArgument
  let cursor ← checkParts offset length req.base.blockSizeBytes req.parts 0
  need (cursor = length ∧ (0 < length ∨ req.deltaSha256 = app.sha256 [])) .invalidArgument
  Query.each req.parts fun part =>
    need (t.snap.blocks[part.blockIndex]? = t.current.blocks[part.blockIndex]?) .versionConflict
  pure growing

/-- The operation of a write, before its parts are planned. -/
def newWrite (user : User) (session : Session) (ctx : RequestContext) (req : BeginWriteRequest)
    (t : Writable) (opId : Id) (offset length : Nat) (growing : Bool) (locks : List Lock)
    (fences : List Fence) (epoch : Id) : Operation :=
  { Operation.blank with
    id := opId, kind := .write, operation := ⟨opId, ctx.requestId, ctx.intentSha256⟩,
    requestId := ctx.requestId, user := user.id, session := session.id, parent := t.node.parent,
    name := t.node.name, file := t.node.id, base := some t.handle.snapshot,
    version := t.node.revision, blockSize := req.base.blockSizeBytes,
    total := max req.base.sizeBytes (offset + length), epoch := req.base.contentEpoch,
    state := .preparing, expires := t.handle.expires, maxExpires := t.handle.expires,
    handle := t.handle.id, handleRevision := t.handle.revision, controlEpoch := some epoch,
    offset := offset, length := length, growing := growing, baseSize := req.base.sizeBytes,
    locks := locks.map Lock.id, fences := fences }

/-- `AccessCommands.BeginWrite`. -/
def accessBeginWrite (user : User) (session : Session) (ctx : RequestContext)
    (req : BeginWriteRequest) : T WritePlan := do
  let t ← writable app user session req.handleId
  let offset ← needSome req.offset .invalidArgument
  let length ← needSome req.length .invalidArgument
  let growing ← beginCheck app t req offset length
  let opId ← draw app
  let reference : OperationRef := ⟨opId, ctx.requestId, ctx.intentSha256⟩
  need (req.fences.length ≤ 6) .invalidArgument
  let indices := req.parts.map WritePart.blockIndex
  let g ← gatherFences session t.handle indices req.fences
  let g ← gatherOwn session t.handle indices g
  let g ← gatherMissing app t.handle indices growing g
  let fences ← Query.map g.locks message
  let epoch ← leaseEpoch
  let op := newWrite user session ctx req t opId offset length growing g.locks fences epoch
  putUpload op
  let (op, planned) ← Tx.fold req.parts (planPart app user t.snap t.node.id) (op, [])
  Tx.each g.locks fun lock => putLock { lock with active := lock.active ++ [opId] }
  beginFinish t.handle req.base op
  pure ⟨reference, planned, fences, req.base, 0⟩

/-! ## Committing a write -/

/-- What `write_operation` finds. -/
structure WriteTarget where
  op : Operation
  handle : Handle
  node : Node
  current : Snapshot

/-- `write_operation`: a write may go on while its handle and all its locks are held. -/
def writeOperation (user : User) (session : Session) (reference : OperationRef) :
    T WriteTarget := do
  let a ← access
  let op ← needSome (a.uploads.get reference.operationId) .permissionDenied
  need (op.kind = .write ∧ op.user = user.id ∧ op.session = session.id) .permissionDenied
  need (op.operation = reference) .idempotencyMismatch
  let epoch ← leaseEpoch
  need (op.state = .preparing ∧ op.controlEpoch = some epoch) .operationExpired
  let t ← writable app user session op.handle
  need (t.handle.busy = some op.id ∧ t.handle.revision = op.handleRevision) .handleBusy
  Tx.each op.fences fun fence => do
    let _ ← validate session fence
    pure ()
  pure ⟨op, t.handle, t.node, t.current⟩

/-- A new block counts once it is stored where it was assigned. -/
def requireStored (op : Operation) (replacement : BlockRef) : Q Block := do
  let w ← world
  let record := w.access.blocks.get replacement.blockVersionId
  let assignment ← deref (w.cluster.assignments.get replacement.blockVersionId)
  let dn := w.cluster.datanodes.get assignment.node
  let record ← needSome (record.filter fun r => decide (r.ref = replacement)) .dataUnavailable
  if app.replicated = true then do
    requireDurable app op replacement
    pure record
  else do
    let dn ← deref dn
    need ((locationAt w.cluster replacement.blockVersionId dn.id).isSome = true ∧
      usable app w.access.now (some dn) ∧
      assignment.generation = dn.location.bootGeneration) .dataUnavailable
    pure record

/-- `blocks[index] = x`, or append at the end. -/
def setBlock (blocks : List BlockRef) (index : Nat) (x : BlockRef) : Option (List BlockRef) :=
  if index = blocks.length then some (blocks ++ [x])
  else if index < blocks.length then some (blocks.set index x)
  else none

/-- One part of `CommitWrite`: the file still has the part's base at its place, and the
new block is the one that was planned and stored. -/
def commitPart (op : Operation) (file : Id) (blocks : List BlockRef)
    (x : Part × BlockChange) : T (List BlockRef) := do
  let (part, change) := x
  let index := part.base.blockIndex
  need (baseOf blocks file index = part.base ∧ change.base = part.base) .versionConflict
  need (change.replacement.blockVersionId = part.replacement.blockVersionId ∧
    change.replacement.fileId = part.replacement.fileId ∧
    change.replacement.blockIndex = index ∧
    change.replacement.sizeBytes = part.replacement.sizeBytes) .versionConflict
  let record ← requireStored app op change.replacement
  need (change.receipts = [record.receipt]) .checksumMismatch
  let blocks ← deref (setBlock blocks index change.replacement)
  pure blocks

/-- The intents of a list of fences, which do not cover the advisory expiry. -/
def fenceIntents (fences : List Fence) : List Digest :=
  fences.map fun f => app.intent (.fence f.bare)

/-- `AccessCommands.CommitWrite`. -/
def accessCommitWrite (user : User) (session : Session) (req : CommitWriteRequest) :
    T CommitResult := do
  let t ← writeOperation app user session req.operation
  need (req.handleId = t.handle.id ∧ req.expectedHandleRevision = t.handle.revision)
    .versionConflict
  need (fenceIntents app req.fences = fenceIntents app t.op.fences) .lockExpired
  need (req.changes.length = t.op.parts.length) .versionConflict
  let blocks ← Tx.fold (t.op.parts.zip req.changes) (commitPart app t.op t.node.id)
    t.current.blocks
  let currentSize := t.current.ref.sizeBytes
  need (t.op.growing = true → currentSize = t.op.baseSize) .versionConflict
  let root ← draw app
  let ref : SnapshotRef :=
    { fileId := t.node.id, contentEpoch := t.op.epoch,
      fileVersion := t.current.ref.fileVersion + 1, manifestRoot := root,
      sizeBytes := max currentSize t.op.total, manifestSha256 := app.manifestHash blocks,
      fileSha256 := none, blockSizeBytes := t.op.blockSize }
  putSnapshot ⟨root, t.node.id, ref, blocks⟩
  let _ ← bump app { t.node with snapshot := some root }
  putHandle { t.handle with snapshot := root, revision := t.handle.revision + 1 }
  let result : CommitResult :=
    { operation := req.operation, state := .committed, snapshot := ref,
      acceptedBytes := t.op.length, degraded := false, targetReplicas := 1,
      minimumDurable := 1 }
  let op := { t.op with state := .committed, result := some result, reserved := 0 }
  putUpload op
  releaseOperation op
  pure result

/-- `AbortWrite`. -/
def abortWrite (user : User) (session : Session) (ctx : RequestContext)
    (reference : OperationRef) : T Response := do
  let a ← access
  let op ← needSome (a.uploads.get reference.operationId) .permissionDenied
  need (op.kind = .write ∧ op.user = user.id ∧ op.session = session.id) .permissionDenied
  need (op.operation = reference) .idempotencyMismatch
  need (op.state ≠ .committed) .versionConflict
  let op := op.ended .aborted
  putUpload op
  releaseOperation op
  pure (result ctx 1)

/-! ## Uploads under a whole-file lock -/

/-- `AccessCommands.BeginUpload`. -/
def accessBeginUpload (user : User) (session : Session) (ctx : RequestContext)
    (req : BeginUploadRequest) : T Operation := do
  let op ← commandsBeginUpload app user session ctx req
  let lock ← acquire app ⟨op.id, op.file, session.id⟩ [] true true true
  -- A whole transfer renews with the upload; its lease lasts five minutes.
  let t ← clock
  let lock := { lock with deadline := t + 300000000000, active := [op.id] }
  putLock lock
  let fence ← message lock
  let op := { op with locks := [lock.id], fullFence := some fence }
  putUpload op
  pure op

/-- `AccessCommands.RenewUpload`. -/
def accessRenewUpload (user : User) (session : Session) (reference : OperationRef) :
    T Operation := do
  let _ ← commandsRenewUpload app user session reference
  let a ← access
  let op ← deref (a.uploads.get reference.operationId)
  let full ← deref op.fullFence
  let lock ← validate session full
  let t ← clock
  let now ← now
  putLock { lock with deadline := t + (op.expires - now) * 1000000 }
  pure op

/-- `AccessCommands.CommitUpload`. -/
def accessCommitUpload (user : User) (session : Session) (req : CommitUploadRequest) :
    T CommitResult := do
  let a ← access
  let op ← deref (a.uploads.get req.operation.operationId)
  let previous := op.base.bind a.snapshots.get
  let result ← clusterCommitUpload app user session req
  let ref :=
    { result.snapshot with
      fileVersion := (previous.map fun s => s.ref.fileVersion + 1).getD 1 }
  let result := { result with snapshot := ref }
  let a ← access
  let snapshot ← deref (a.snapshots.get ref.manifestRoot)
  putSnapshot { snapshot with ref := ref }
  let op ← deref (a.uploads.get req.operation.operationId)
  let op := { op with result := some result }
  putUpload op
  releaseOperation op
  pure result

/-- `AccessCommands.AbortUpload`. -/
def accessAbortUpload (user : User) (session : Session) (ctx : RequestContext)
    (reference : OperationRef) : T Response := do
  let op ← commandsAbortUpload user session reference
  releaseOperation op
  pure (result ctx 1)

/-- `AccessCommands.remove`: every operation that is over lets go of its locks. -/
def accessRemove (user : User) (ctx : RequestContext) (path : PathRef) (directory : Bool) :
    T Response := do
  let r ← removeNode app user ctx path directory
  let a ← access
  Tx.each a.uploads.all fun op =>
    if op.state ≠ .preparing then releaseOperation op else pure ()
  pure r

end Dfsha
