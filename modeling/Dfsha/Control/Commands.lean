import Dfsha.Control.Namespace
import Dfsha.Control.Leases
import Dfsha.Control.Cluster

/-!
# Commands of the domain

The namespace, the accounts, and the upload of a whole file: begin, allocate blocks,
stage the manifest page by page, seal it, commit.  `operation` is the check every step
of an upload starts with; a control with leases makes it stricter, so it is dispatched
on the profile before the steps that use it.

The steps a control with leases replaces altogether (`openFile`, `renewHandle`, `close`)
are here as the monolith has them.
-/

namespace Dfsha

variable (app : App)

/-- `result`. -/
def result (ctx : RequestContext) (revision : Nat) : Response := .mutation ctx.requestId revision

/-- `bump`: write a node back with its next revision. -/
def bump (node : Node) : T Node := do
  let node := { node with revision := node.revision + 1 }
  putNode app node
  pure node

/-- `reserved`: an upload in preparation holds this name. -/
def reserved (a : Access) (parent : Id) (name : Text) : Prop :=
  ∃ o ∈ a.uploads.all, o.parent = some parent ∧ o.name = name ∧ o.state = .preparing ∧
    a.now < o.expires

instance (a : Access) (parent : Id) (name : Text) : Decidable (reserved a parent name) :=
  inferInstanceAs (Decidable (∃ o ∈ a.uploads.all, _))

/-- A child of this name exists. -/
def named (a : Access) (parent : Id) (name : Text) : Prop :=
  ∃ n ∈ children a parent, n.name = name

instance (a : Access) (parent : Id) (name : Text) : Decidable (named a parent name) :=
  inferInstanceAs (Decidable (∃ n ∈ children a parent, _))

/-! ## The namespace -/

/-- `Mkdir`. -/
def mkdir (user : User) (path : PathRef) : T Response := do
  let (parent, name) ← parentOf app user path
  let a ← access
  need (¬ named a parent.id name) .alreadyExists
  need (¬ reserved a parent.id name) .lockBusy
  let id ← draw app
  let node := newNode id name parent.id user.id true 448
  putNode app node
  let _ ← bump app parent
  let e ← entry node
  pure (.entry e)

/-- End an operation in preparation: `op.update(state=…, reserved=0)`. -/
def Operation.ended (op : Operation) (state : OperationState) : Operation :=
  { op with state := state, reserved := 0 }

/-- `Commands.remove`: the uploads and writes in preparation on a removed file end with it. -/
def removeNode (user : User) (ctx : RequestContext) (path : PathRef) (directory : Bool) :
    T Response := do
  let node ← resolve app user path
  let parentId ← needSome node.parent .rootProtected
  need (node.kind = if directory = true then .directory else .file)
    (if directory = true then .notDirectory else .isDirectory)
  let a ← access
  let parent ← deref (a.nodes.get parentId)
  require app user (some parent) 3
  let a ← access
  need (directory = true → children a node.id = [] ∧
    ¬ ∃ o ∈ a.uploads.all, o.parent = some node.id ∧ o.state = .preparing ∧ a.now < o.expires)
    .directoryNotEmpty
  Tx.each a.uploads.all fun op =>
    if op.file = node.id ∧ op.state = .preparing then putUpload (op.ended .aborted) else pure ()
  let node ← bump app { node with alive := false }
  let _ ← bump app parent
  pure (result ctx node.revision)

/-! ## Accounts -/

/-- The regular expression of user and group names. -/
def validName (t : Text) : Prop :=
  1 ≤ t.length ∧ t.length ≤ 64 ∧ ∀ c ∈ t, c.isAlphanum = true ∨ c = '_' ∨ c = '-'

instance (t : Text) : Decidable (validName t) :=
  letI : Decidable (∀ c ∈ t, c.isAlphanum = true ∨ c = '_' ∨ c = '-') := List.decidableBAll _ t
  inferInstanceAs (Decidable (_ ∧ _ ∧ _))

/-- `password_hash`, with a drawn salt. -/
def hashPassword (password : Text) : T Digest := do
  need (12 ≤ utf8Length password ∧ utf8Length password ≤ 1024) .invalidArgument
  let salt ← draw app
  pure (app.passwordHash salt password)

/-- `CreateUser`. -/
def createUser (user : User) (username password : Text) : T Response := do
  need (user.admin = true) .permissionDenied
  need (validName username) .invalidArgument
  let i ← identity
  need (¬ ∃ u ∈ i.users.all, u.username = username) .alreadyExists
  let id ← draw app
  let encoded ← hashPassword app password
  putUser ⟨id, username, encoded, false, false, 1⟩
  putGroup ⟨id, username, [id], 1⟩
  let home ← walk app user ['/', 'h', 'o', 'm', 'e']
  let a ← access
  need (¬ named a home.id username) .alreadyExists
  let nodeId ← draw app
  putNode app (newNode nodeId username home.id id true 448)
  let _ ← bump app home
  pure (.user id username false 1)

/-- `revoke_sessions`. -/
def revokeSessions (user : Id) : T Unit := do
  let i ← identity
  Tx.each i.sessions.all fun session =>
    if session.user = user ∧ session.revoked = false then
      putSession { session with revoked := true }
    else pure ()

/-- `SetUser`. -/
def setUser (user : User) (userId : Id) (disabled : Bool) (expectedRevision : Nat) :
    T Response := do
  need (user.admin = true) .permissionDenied
  let i ← identity
  let target ← needSome (i.users.get userId) .notFound
  need (target.admin = false) .permissionDenied
  need (target.revision = expectedRevision) .versionConflict
  let target := { target with disabled := disabled, revision := target.revision + 1 }
  (if disabled = true then revokeSessions target.id else pure ())
  putUser target
  pure (.user target.id target.username target.disabled target.revision)

/-- `ChangePassword`. -/
def changePassword (user : User) (userId : Id) (password : Text) (expectedRevision : Nat) :
    T Response := do
  need (user.admin = true ∨ user.id = userId) .permissionDenied
  let i ← identity
  let target ← needSome (i.users.get userId) .notFound
  need (target.revision = expectedRevision) .versionConflict
  let encoded ← hashPassword app password
  let target := { target with password := encoded, revision := target.revision + 1 }
  putUser target
  revokeSessions target.id
  pure (.user target.id target.username target.disabled target.revision)

/-- `CreateGroup`. -/
def createGroup (user : User) (name : Text) : T Response := do
  need (user.admin = true) .permissionDenied
  need (validName name) .invalidArgument
  let i ← identity
  need (¬ ∃ g ∈ i.groups.all, g.name = name) .alreadyExists
  let id ← draw app
  putGroup ⟨id, name, [], 1⟩
  pure (.group id name [] 1)

/-- `SetGroupMembers`. -/
def setGroupMembers (user : User) (groupId : Id) (userIds : List Id) (expectedRevision : Nat) :
    T Response := do
  need (user.admin = true) .permissionDenied
  let i ← identity
  let group ← needSome (i.groups.get groupId) .notFound
  need (group.revision = expectedRevision) .versionConflict
  need (userIds.length ≤ 100 ∧ userIds.Nodup) .invalidArgument
  need (∀ u ∈ userIds, (i.users.get u).isSome = true) .notFound
  let group := { group with members := userIds, revision := group.revision + 1 }
  putGroup group
  pure (.group group.id group.name group.members group.revision)

/-- `SetAcl`. -/
def setAcl (user : User) (ctx : RequestContext) (path : PathRef) (acl : Acl)
    (expectedRevision : Nat) : T Response := do
  let node ← resolve app user path
  need (user.admin = true ∨ node.owner = user.id) .permissionDenied
  need (expectedRevision = node.revision) .versionConflict
  need (acl.ownerPermissions ≤ 7 ∧ acl.groupPermissions ≤ 7 ∧ acl.otherPermissions ≤ 7 ∧
    acl.entries.length ≤ 64 ∧ ∀ e ∈ acl.entries, e.permissions ≤ 7) .invalidArgument
  let i ← identity
  need ((i.users.get acl.ownerId).isSome = true ∧ (i.groups.get acl.groupId).isSome = true)
    .notFound
  need (user.admin = true ∨ (acl.ownerId = node.owner ∧ acl.groupId = node.group))
    .permissionDenied
  need (∀ e ∈ acl.entries,
    if e.isGroup = true then (i.groups.get e.principalId).isSome = true
    else (i.users.get e.principalId).isSome = true) .notFound
  let node ← bump app
    { node with
      owner := acl.ownerId, group := acl.groupId, acl := acl.entries,
      mode := (acl.ownerPermissions <<< 6) ||| (acl.groupPermissions <<< 3) |||
        acl.otherPermissions }
  pure (result ctx node.revision)

/-- `Logout`. -/
def logout (session : Session) (ctx : RequestContext) (sessionId : Id) : T Response := do
  need (sessionId = session.sessionId) .permissionDenied
  putSession { session with revoked := true }
  pure (result ctx 1)

/-! ## Uploads -/

/-- `Monolith.reserve_upload`. -/
def monolithReserveUpload (total blockSize : Nat) : Q Nat := do
  let w ← world
  let cost := total + ((total + blockSize - 1) / blockSize) * 4096 +
    ((total + chunkBytes - 1) / chunkBytes) * 20
  let pending := ((w.access.uploads.all.filter fun o => o.state = .preparing).map
    Operation.reserved).sum
  let used := (w.access.blocks.all.map Block.storedSize).sum
  need (cost + pending + used ≤ app.capacityBytes ∧ cost + pending + spare ≤ w.diskFree) .noSpace
  pure cost

/-- `reserve_upload`, by class: with data nodes, space is reserved block by block. -/
def reserveUpload (total blockSize : Nat) : Q Nat :=
  if app.distributed = true then pure 0 else monolithReserveUpload app total blockSize

/-- `upload_plan`, by class. -/
def uploadPlan (op : Operation) : UploadPlan where
  operation := op.operation
  fileId := op.file
  contentEpoch := op.epoch
  fence :=
    { lockId := op.id, handleId := 0, serviceEpoch := app.epoch, generation := op.epoch,
      leaseId := 1, blockIndices := [], wholeFile := true, includesSize := true,
      expiresAtUnixMs := op.expires }
  blockBytes := op.blockSize
  expiresAtUnixMs := op.expires
  minimumDurable := if app.replicated = true then (op.policy.map Policy.w).getD 1 else 0

/-- The quota on uploads in preparation. -/
def uploadQuota (user : User) (a : Access) : Prop :=
  let active := a.uploads.all.filter fun o => o.state = .preparing ∧ a.now < o.expires
  active.length < 64 ∧ (active.filter fun o => o.user = user.id).length < 16

instance (user : User) (a : Access) : Decidable (uploadQuota user a) :=
  inferInstanceAs (Decidable (_ ∧ _))

/-- The file an upload replaces, which must be the version its client expects. -/
def uploadTarget (user : User) (req : BeginUploadRequest) (a : Access) :
    Option Node → Q (Option (Node × Snapshot))
  | some node => do
      need (node.kind = .file) .isDirectory
      need (req.overwrite = true) .alreadyExists
      require app user (some node) 2
      let root ← deref node.snapshot
      let snap ← deref (a.snapshots.get root)
      need (req.expectedSnapshot = some snap.ref) .versionConflict
      pure (some (node, snap))
  | none => do
      need (∀ s ∈ req.expectedSnapshot, s.fileId = 0) .versionConflict
      pure none

/-- `Commands.BeginUpload`. -/
def commandsBeginUpload (user : User) (session : Session) (ctx : RequestContext)
    (req : BeginUploadRequest) : T Operation := do
  let a ← access
  need (app.metadataKey = true → uploadQuota user a) .limitExceeded
  need (req.fileSha256.length = 32 ∧ req.totalBytes ≤ app.maxFileBytes) .invalidArgument
  let (parent, name) ← parentOf app user req.path
  let a ← access
  let existing := (children a parent.id).find? fun n => n.name = name
  need (¬ reserved a parent.id name) .lockBusy
  let old ← uploadTarget app user req a existing
  let blockSize := (old.map fun x => x.1.blockSize).getD app.blockSizeBytes
  let cost ← reserveUpload app req.totalBytes blockSize
  let id ← draw app
  let file ← (old.elim (draw app) fun x => pure x.1.id)
  let start ← now
  let limit ← now
  let op : Operation :=
    { Operation.blank with
      id := id, operation := ⟨id, ctx.requestId, ctx.intentSha256⟩, requestId := ctx.requestId,
      user := user.id, session := session.id, parent := some parent.id, name := name,
      file := file, base := old.bind fun x => x.1.snapshot,
      version := (old.map fun x => x.1.revision).getD 0, blockSize := blockSize,
      total := req.totalBytes, sha := req.fileSha256, state := .preparing,
      expires := start + 300000, maxExpires := limit + 3600000,
      epoch := (old.map fun x => x.2.ref.contentEpoch + 1).getD 1, reserved := cost }
  putUpload op
  pure op

/-- An upload over a file goes on only while the file is what it was. -/
def uploadBase (user : User) (a : Access) (op : Operation) : Q Unit :=
  match op.base with
  | none => pure ()
  | some base => do
      let node := a.nodes.get op.file
      need (node.map Node.alive = some true ∧ node.bind Node.snapshot = some base)
        .versionConflict
      require app user node 2

/-- `Commands.operation`. -/
def commandsOperation (user : User) (session : Session) (reference : OperationRef)
    (fence : Option Fence) : Q Operation := do
  let a ← access
  let op ← needSome (a.uploads.get reference.operationId) .permissionDenied
  need (op.user = user.id ∧ op.session = session.id) .permissionDenied
  need (reference = op.operation) .versionConflict
  need (op.state = .preparing ∧ a.now < op.expires) .operationExpired
  let parent := op.parent.bind a.nodes.get
  need (parent.map Node.alive = some true) .versionConflict
  require app user parent 3
  uploadBase app user a op
  need (∀ f ∈ fence, f.lockId = op.id ∧ f.generation = op.epoch ∧ f.serviceEpoch = app.epoch)
    .lockExpired
  pure op

/-- `AccessCommands.operation`: only uploads, and only while the whole-file lock is held. -/
def accessOperation (user : User) (session : Session) (reference : OperationRef)
    (fence : Option Fence) : Q Operation := do
  let op ← commandsOperation app user session reference fence
  need (op.kind ≠ .write) .permissionDenied
  match op.fullFence with
  | none => pure op
  | some full => do
      let _ ← validate session full
      pure op

/-- `operation`, by class. -/
def operation (user : User) (session : Session) (reference : OperationRef)
    (fence : Option Fence) : Q Operation :=
  if app.rf3 = true then accessOperation app user session reference fence
  else commandsOperation app user session reference fence

/-- `Commands.RenewUpload`. -/
def commandsRenewUpload (user : User) (session : Session) (reference : OperationRef) :
    T Operation := do
  let op ← operation app user session reference none
  let now ← now
  let op := { op with expires := min (now + 300000) op.maxExpires }
  putUpload op
  pure op

/-- One requested block of `AllocateBlocks`. -/
def allocateBlock (user : User) (acc : Operation × List PlannedBlock) (requested : BlockRef) :
    T (Operation × List PlannedBlock) := do
  let (op, planned) := acc
  let index := requested.blockIndex
  let size := min op.blockSize (op.total - index * op.blockSize)
  need (0 < size ∧ requested.fileId = op.file ∧ requested.sizeBytes = size ∧
    requested.plaintextSha256.length = 32 ∧ requested.blockVersionId = 0) .invalidArgument
  match op.allocation index with
  | some block => do
      need (block.sizeBytes = size ∧ block.plaintextSha256 = requested.plaintextSha256)
        .versionConflict
      let p ← plan app block user op.binding
      pure (op, planned ++ [p])
  | none => do
      let id ← draw app
      let block : BlockRef := ⟨op.file, id, index, size, requested.plaintextSha256⟩
      let op := { op with allocations := op.allocations ++ [(index, block)] }
      let p ← plan app block user op.binding
      pure (op, planned ++ [p])

/-- `AllocateBlocks`. -/
def allocateBlocks (user : User) (session : Session) (req : AllocateBlocksRequest) :
    T Response := do
  let op ← operation app user session req.operation (some req.fence)
  need (op.sealed = none) .versionConflict
  need (1 ≤ req.blocks.length ∧ req.blocks.length ≤ 64) .invalidArgument
  let (op, planned) ← Tx.fold req.blocks (allocateBlock app user) (op, [])
  putUpload op
  pure (.blockPlan planned)

/-- How many blocks a file of this size has. -/
def blockCount (total blockSize : Nat) : Nat := (total + blockSize - 1) / blockSize

/-- One block of a page, with its place in the file: it is the block allocated there, and it
is stored. -/
def stageBlock (op : Operation) (x : BlockRef × Nat) : T Unit := do
  let (block, index) := x
  need (block.blockIndex = index ∧ op.allocation index = some block) .versionConflict
  let a ← access
  need ((a.blocks.get block.blockVersionId).isSome = true) .dataUnavailable

/-- `StageManifestPage`. -/
def stageManifestPage (user : User) (session : Session) (req : StageManifestPageRequest) :
    T Response := do
  let op ← operation app user session req.operation (some req.fence)
  need (op.sealed = none) .versionConflict
  let start := req.pageIndex * 64
  need (0 < req.blocks.length ∧ req.blocks.length ≤ 64 ∧ req.byteSize ≤ 65536 ∧
    req.blocks.length = min 64 (blockCount op.total op.blockSize - start)) .invalidArgument
  Tx.each (req.blocks.zipIdx start) (stageBlock op)
  need (app.manifestHash req.blocks = req.pageSha256) .checksumMismatch
  putUpload
    { op with
      pages := (req.pageIndex, req.blocks) :: op.pages.filter fun p => p.1 ≠ req.pageIndex }
  pure (.pageReceipt ⟨op.id, some req.pageIndex, req.pageSha256, 1⟩)

/-- `Monolith.manifest`: the blocks of the staged pages, if they are the whole file. -/
def manifest (op : Operation) : Q (List BlockRef) := do
  let count := blockCount op.total op.blockSize
  need (op.pages.length = (count + 63) / 64) .checksumMismatch
  let blocks := (List.range op.pages.length).flatMap fun i => (op.pages.lookup i).getD []
  need (blocks.length = count ∧ (blocks.map BlockRef.sizeBytes).sum = op.total ∧
    blocks.map BlockRef.blockIndex = List.range blocks.length) .checksumMismatch
  pure blocks

/-- `SealManifest`. -/
def sealManifest (user : User) (session : Session) (req : SealManifestRequest) :
    T Response := do
  let op ← operation app user session req.operation (some req.fence)
  let blocks ← manifest op
  need (req.blockCount = blocks.length ∧ req.totalBytes = op.total ∧
    req.pageCount = op.pages.length ∧ req.manifestSha256 = app.manifestHash blocks)
    .checksumMismatch
  let w ← world
  need (w.verifiedSeals.lookup op.id = some req.manifestSha256) .checksumMismatch
  let receipt : PageReceipt := ⟨op.id, none, req.manifestSha256, 1⟩
  putUpload { op with sealed := some receipt }
  pure (.pageReceipt receipt)

/-- The node an upload publishes to: the file it replaces, or a new one. -/
def uploadNode (user : User) (a : Access) (op : Operation) (parent : Node) : T Node :=
  match if op.base.isSome = true then a.nodes.get op.file else none with
  | some node => pure node
  | none => do
      need (¬ named a parent.id op.name) .versionConflict
      -- The identifier `new_node` draws is thrown away: the file's is already chosen.
      let _ ← draw app
      pure { newNode op.file op.name parent.id user.id false 384 with blockSize := op.blockSize }

/-- `Commands.CommitUpload`. -/
def commandsCommitUpload (user : User) (session : Session) (req : CommitUploadRequest) :
    T CommitResult := do
  let op ← operation app user session req.operation (some req.fence)
  need (op.sealed = some req.sealReceipt) .versionConflict
  let blocks ← manifest op
  let a ← access
  need (∀ b ∈ blocks, (a.blocks.get b.blockVersionId).isSome = true) .dataUnavailable
  let parent ← deref (op.parent.bind a.nodes.get)
  let node ← uploadNode app user a op parent
  let root ← draw app
  let ref : SnapshotRef :=
    { fileId := op.file, contentEpoch := op.epoch, fileVersion := op.epoch,
      manifestRoot := root, sizeBytes := op.total, manifestSha256 := req.sealReceipt.sha256,
      fileSha256 := some op.sha, blockSizeBytes := op.blockSize }
  putSnapshot ⟨root, op.file, ref, blocks⟩
  let _ ← bump app { node with snapshot := some root }
  let _ ← bump app parent
  let result : CommitResult :=
    { operation := req.operation, state := .committed, snapshot := ref,
      acceptedBytes := op.total, degraded := false, targetReplicas := 1, minimumDurable := 1 }
  putUpload { op with state := .committed, result := some result, reserved := 0 }
  pure result

/-- An allocated block must be safe where it was put. -/
def requireAllocated (op : Operation) (block : BlockRef) : T Unit :=
  if app.replicated = true then
    requireDurable app op block
  else do
    let w ← world
    let assignment := w.cluster.assignments.get block.blockVersionId
    let node := assignment.bind fun r => w.cluster.datanodes.get r.node
    need (usable app w.access.now node ∧
      node.map (fun n => n.location.bootGeneration) = assignment.map Assignment.generation)
      .dataUnavailable

/-- `ClusterCommands.CommitUpload`. -/
def clusterCommitUpload (user : User) (session : Session) (req : CommitUploadRequest) :
    T CommitResult := do
  let op ← operation app user session req.operation (some req.fence)
  Tx.each (op.allocations.map Prod.snd) (requireAllocated app op)
  commandsCommitUpload app user session req

/-- `Commands.AbortUpload`. -/
def commandsAbortUpload (user : User) (session : Session) (reference : OperationRef) :
    T Operation := do
  let a ← access
  let op ← needSome (a.uploads.get reference.operationId) .permissionDenied
  need (op.user = user.id ∧ op.session = session.id) .permissionDenied
  need (reference = op.operation) .versionConflict
  need (op.state ≠ .committed) .versionConflict
  let op := op.ended .aborted
  putUpload op
  pure op

/-! ## Handles of the monolith -/

/-- The directories above a node.  The source's loop has no bound; a chain longer than
the number of nodes would be a cycle, on which it never ends. -/
def ancestorsFrom (a : Access) : Nat → Option Id → Q (List Id)
  | _, none => pure []
  | 0, some _ => Query.fail .crash
  | fuel + 1, some parent => do
      let node ← deref (a.nodes.get parent)
      let rest ← ancestorsFrom a fuel node.parent
      pure (parent :: rest)

/-- The directories above a node. -/
def ancestors (node : Node) : Q (List Id) := do
  let a ← access
  ancestorsFrom a (a.nodes.all.length + 1) node.parent

/-- `handle_message`. -/
def handleMessage (h : Handle) : Q HandleMessage := do
  let a ← access
  let expires ← (if a.epoch.isSome = true then expiryHint h.deadline else pure h.expires)
  let snap ← deref (a.snapshots.get h.snapshot)
  pure ⟨h.id, snap.ref, h.mode, expires, h.revision⟩

/-- `Commands.Open`. -/
def commandsOpen (user : User) (session : Session) (path : PathRef) (mode : OpenMode) :
    T Response := do
  need (mode = .r) .unsupportedMode
  let node ← resolve app user path
  need (node.kind = .file) .isDirectory
  require app user (some node) 4
  let above ← ancestors node
  let id ← draw app
  let root ← deref node.snapshot
  let now ← now
  let h : Handle :=
    { id := id, file := node.id, snapshot := root, user := user.id, session := session.id,
      revision := 1, closed := false, ancestors := above, mode := .r, busy := none,
      controlEpoch := none, maximum := 0, deadline := 0, expires := now + 300000 }
  putHandle h
  let m ← handleMessage h
  pure (.handle m)

/-- `Queries.handle`. -/
def queriesHandle (user : User) (session : Session) (identity : Id) : Q (Handle × Snapshot) := do
  let a ← access
  let h ← needSome (a.handles.get identity) .staleHandle
  need (h.user = user.id ∧ h.session = session.id ∧ h.closed = false ∧ a.now < h.expires)
    .staleHandle
  require app user (a.nodes.get h.file) 4
  Query.each h.ancestors fun ancestor => require app user (a.nodes.get ancestor) 1
  let snap ← deref (a.snapshots.get h.snapshot)
  pure (h, snap)

/-- `Commands.RenewHandle`. -/
def commandsRenewHandle (user : User) (session : Session) (handleId : Id)
    (expectedRevision : Nat) : T Response := do
  let (h, _) ← queriesHandle app user session handleId
  need (h.revision = expectedRevision) .versionConflict
  let now ← now
  let h := { h with expires := now + 300000, revision := h.revision + 1 }
  putHandle h
  let m ← handleMessage h
  pure (.handle m)

/-- `Commands.Close`. -/
def commandsClose (user : User) (session : Session) (ctx : RequestContext) (handleId : Id)
    (expectedRevision : Nat) : T Response := do
  let a ← access
  let h ← needSome (a.handles.get handleId) .staleHandle
  need (h.user = user.id ∧ h.session = session.id) .staleHandle
  need (h.revision = expectedRevision) .versionConflict
  putHandle { h with closed := true, revision := h.revision + 1 }
  pure (result ctx (h.revision + 1))

end Dfsha
