import Dfsha.Control.Access

/-!
# Commands under a protection policy

The replicated control captures a file's policy when an operation begins and checks,
when it commits, that the policy is still the one captured and that every new block has
enough copies.  The dispatch of every command on the class of the control is here.
-/

namespace Dfsha

variable (app : App)

/-- `capture_policy`. -/
def capturePolicy (op : Operation) : T Operation := do
  let p ← policy app op.file op.base.isNone
  need (p.state ≠ .promoting) .lockBusy
  let op := { op with policy := some p }
  putUpload op
  pure op

/-- `ProtectionCommands.BeginUpload`. -/
def protectionBeginUpload (user : User) (session : Session) (ctx : RequestContext)
    (req : BeginUploadRequest) : T UploadPlan := do
  let op ← accessBeginUpload app user session ctx req
  let _ ← capturePolicy app op
  let c ← cluster
  pure { uploadPlan app op with minimumDurable := (policyOf c op.file).w }

/-- An empty write is committed when it begins, and reports its protection at once. -/
def reportEmpty (op : Operation) : T Unit :=
  if op.state = .committed then do
    let r ← deref op.result
    let _ ← policyResult app op r
    pure ()
  else pure ()

/-- `ProtectionCommands.BeginWrite`. -/
def protectionBeginWrite (user : User) (session : Session) (ctx : RequestContext)
    (req : BeginWriteRequest) : T WritePlan := do
  let (h, _) ← accessHandle app user session req.handleId
  let c ← cluster
  need ((policyOf c h.file).state ≠ .promoting) .lockBusy
  let r ← accessBeginWrite app user session ctx req
  let a ← access
  let op ← deref (a.uploads.get r.operation.operationId)
  let op ← capturePolicy app op
  let c ← cluster
  reportEmpty app op
  pure { r with minimumDurable := (policyOf c op.file).w }

/-- A file under promotion is not opened for writing. -/
def refusePromoting (user : User) (path : PathRef) : Q Unit := do
  let found ← openResolve app user path
  let c ← cluster
  need (∀ node ∈ found, (policyOf c node.id).state ≠ .promoting) .lockBusy

/-- `ProtectionCommands.Open`. -/
def protectionOpen (user : User) (session : Session) (path : PathRef) (mode : OpenMode) :
    T HandleMessage := do
  (if mode ∈ writeModes then liftM (refusePromoting app user path) else pure ())
  let r ← accessOpen app user session path mode
  let _ ← policy app r.snapshot.fileId true
  pure r

/-- `ProtectionCommands.CommitUpload`. -/
def protectionCommitUpload (user : User) (session : Session) (req : CommitUploadRequest) :
    T CommitResult := do
  let a ← access
  validatePolicy (a.uploads.get req.operation.operationId)
  let r ← accessCommitUpload app user session req
  let a ← access
  let op ← deref (a.uploads.get req.operation.operationId)
  policyResult app op r

/-- `ProtectionCommands.CommitWrite`. -/
def protectionCommitWrite (user : User) (session : Session) (req : CommitWriteRequest) :
    T CommitResult := do
  let a ← access
  validatePolicy (a.uploads.get req.operation.operationId)
  let r ← accessCommitWrite app user session req
  let a ← access
  let op ← deref (a.uploads.get req.operation.operationId)
  policyResult app op r

/-- The operations of a file end when its protection is promoted. -/
def abortOperations (file : Id) : T Unit := do
  let a ← access
  Tx.each a.uploads.all fun op =>
    if op.file = file ∧ op.state = .preparing then do
      putUpload (op.ended .aborted)
      releaseOperation (op.ended .aborted)
    else pure ()

/-- `PromoteProtection`. -/
def promoteProtection (user : User) (ctx : RequestContext) (path : PathRef)
    (expectedPolicyRevision : Nat) : T Response := do
  need (user.admin = true) .permissionDenied
  let node ← resolve app user path
  need (node.kind = .file) .isDirectory
  let c ← cluster
  let p := policyOf c node.id
  need (expectedPolicyRevision = p.revision) .versionConflict
  if p.r = 3 ∧ p.state ≠ .promotionBlocked then
    pure (result ctx p.revision)
  else do
    let now ← now
    putPolicy ⟨p.id, 3, 2, p.revision + 1, .promoting, now + 300000⟩
    abortOperations node.id
    pure (result ctx (p.revision + 1))

/-! ## Administration of data nodes -/

/-- Tasks of a node that is no longer authorized fail. -/
def failTasks (node : Id) : T Unit := do
  let c ← cluster
  Tx.each c.tasks.all fun task =>
    if (task.src = node ∨ task.dest = node) ∧ task.status.state.active = true then
      putTask { task with expires := 0, reserved := 0, status := { task.status with state := .failed } }
    else pure ()

/-- `SetNodeAuthorization`. -/
def setNodeAuthorization (user : User) (ctx : RequestContext) (nodeId : Id) (enabled : Bool)
    (expectedRevision : Nat) : T Response := do
  need (user.admin = true) .permissionDenied
  need ((app.allowed nodeId).isSome = true) .notFound
  let c ← cluster
  let previous := (c.nodePolicies.get nodeId).getD ⟨nodeId, 0, true⟩
  need (previous.revision = expectedRevision) .versionConflict
  putNodePolicy ⟨previous.id, previous.revision + 1, enabled⟩
  ((c.datanodes.get nodeId).elim (pure ()) fun node =>
    putDatanode
      { node with
        authorizationDisabled := !enabled, reconciled := if enabled = true then false else node.reconciled })
  (if enabled = true then pure () else failTasks nodeId)
  pure (result ctx (previous.revision + 1))

/-- `CopyBlock`. -/
def copyBlock (user : User) (req : CopyBlockRequest) : T Response := do
  need (user.admin = true) .permissionDenied
  need (app.isUuid req.block.blockVersionId = true) .invalidArgument
  let w ← world
  let block ← needSome (w.access.blocks.get req.block.blockVersionId) .notFound
  need (block.ref = req.block) .notFound
  let source ← needSome (locationAt w.cluster req.block.blockVersionId req.sourceNodeId)
    .dataUnavailable
  let dest ← needSome (w.cluster.datanodes.get req.destinationNodeId) .dataUnavailable
  need (nodeState app w.access.now (some dest) = .ready ∧
    req.sourceNodeId ≠ req.destinationNodeId) .dataUnavailable
  need ((locationAt w.cluster req.block.blockVersionId dest.id).isNone = true) .alreadyExists
  let sourceNode := w.cluster.datanodes.get req.sourceNodeId
  need (nodeState app w.access.now sourceNode = .ready) .dataUnavailable
  let sourceNode ← deref sourceNode
  let cost := storageCost req.block.sizeBytes
  need (roomFor app w dest cost 0) .noSpace
  let task ← newTask app .copy block.ref source.node dest.id
  putTask
    { task with
      source := some sourceNode.location, destination := some dest.location,
      receipt := some source.receipt, reserved := cost }
  pure (.task task.status)

/-! ## Dispatch on the class -/

/-- `BeginUpload`, by class. -/
def beginUpload (user : User) (session : Session) (ctx : RequestContext)
    (req : BeginUploadRequest) : T Response :=
  match app.profile with
  | .monolith | .distributed => do
      let op ← commandsBeginUpload app user session ctx req
      pure (.uploadPlan (uploadPlan app op))
  | .rf3 => do
      let op ← accessBeginUpload app user session ctx req
      pure (.uploadPlan (uploadPlan app op))
  | .replicated => do
      let plan ← protectionBeginUpload app user session ctx req
      pure (.uploadPlan plan)

/-- `RenewUpload`, by class. -/
def renewUpload (user : User) (session : Session) (reference : OperationRef) : T Response := do
  let op ← (if app.rf3 = true then accessRenewUpload app user session reference
    else commandsRenewUpload app user session reference)
  pure (.uploadPlan (uploadPlan app op))

/-- `CommitUpload`, by class. -/
def commitUpload (user : User) (session : Session) (req : CommitUploadRequest) :
    T CommitResult :=
  match app.profile with
  | .monolith => commandsCommitUpload app user session req
  | .distributed => clusterCommitUpload app user session req
  | .rf3 => accessCommitUpload app user session req
  | .replicated => protectionCommitUpload app user session req

/-- `AbortUpload`, by class. -/
def abortUpload (user : User) (session : Session) (ctx : RequestContext)
    (reference : OperationRef) : T Response :=
  if app.rf3 = true then accessAbortUpload user session ctx reference
  else do
    let _ ← commandsAbortUpload user session reference
    pure (result ctx 1)

/-- `Open`, by class. -/
def openFile (user : User) (session : Session) (path : PathRef) (mode : OpenMode) :
    T Response :=
  match app.profile with
  | .monolith | .distributed => commandsOpen app user session path mode
  | .rf3 => do
      let m ← accessOpen app user session path mode
      pure (.handle m)
  | .replicated => do
      let m ← protectionOpen app user session path mode
      pure (.handle m)

/-- `BeginWrite`, by class. -/
def beginWrite (user : User) (session : Session) (ctx : RequestContext)
    (req : BeginWriteRequest) : T Response := do
  let plan ← (if app.replicated = true then protectionBeginWrite app user session ctx req
    else accessBeginWrite app user session ctx req)
  pure (.writePlan plan)

/-- `CommitWrite`, by class. -/
def commitWrite (user : User) (session : Session) (req : CommitWriteRequest) : T CommitResult :=
  if app.replicated = true then protectionCommitWrite app user session req
  else accessCommitWrite app user session req

/-- `remove`, by class. -/
def remove (user : User) (ctx : RequestContext) (path : PathRef) (directory : Bool) :
    T Response :=
  if app.rf3 = true then accessRemove app user ctx path directory
  else removeNode app user ctx path directory

/-- A method that this class of control does not have. -/
def unimplemented {α : Type} : T α := ⟨fun _ => .error .crash⟩

/-- Run what a command asks for: `getattr(self.commands, method)(tx, user, session, req)`. -/
def execute (user : User) (session : Session) (ctx : RequestContext) : Command → T Response
  | .mkdir path => mkdir app user path
  | .rmdir path => remove app user ctx path true
  | .remove path => remove app user ctx path false
  | .createUser username password => createUser app user username password
  | .setUser userId disabled revision => setUser user userId disabled revision
  | .changePassword userId password revision => changePassword app user userId password revision
  | .createGroup name => createGroup app user name
  | .setGroupMembers groupId userIds revision => setGroupMembers user groupId userIds revision
  | .setAcl path acl revision => setAcl app user ctx path acl revision
  | .logout sessionId => logout session ctx sessionId
  | .beginUpload req => beginUpload app user session ctx req
  | .renewUpload reference => renewUpload app user session reference
  | .allocateBlocks req => allocateBlocks app user session req
  | .stageManifestPage req => stageManifestPage app user session req
  | .sealManifest req => sealManifest app user session req
  | .commitUpload req => do
      let r ← commitUpload app user session req
      pure (.commit r)
  | .abortUpload reference => abortUpload app user session ctx reference
  | .openFile path mode => openFile app user session path mode
  | .renewHandle handleId revision =>
      if app.rf3 = true then accessRenewHandle app user session handleId
      else commandsRenewHandle app user session handleId revision
  | .close handleId revision =>
      if app.rf3 = true then accessClose user session ctx handleId
      else commandsClose user session ctx handleId revision
  | .beginRead req => if app.rf3 = true then beginRead app user session req else unimplemented
  | .endRead handleId readId =>
      if app.rf3 = true then endRead user session ctx handleId readId else unimplemented
  | .lock req => if app.rf3 = true then lockBlocks app user session req else unimplemented
  | .renewLock fence => if app.rf3 = true then renewLock app user session fence else unimplemented
  | .unlock fence => if app.rf3 = true then unlock session ctx fence else unimplemented
  | .beginWrite req =>
      if app.rf3 = true then beginWrite app user session ctx req else unimplemented
  | .commitWrite req =>
      if app.rf3 = true then do
        let r ← commitWrite app user session req
        pure (.commit r)
      else unimplemented
  | .abortWrite reference =>
      if app.rf3 = true then abortWrite user session ctx reference else unimplemented
  | .setNodeAuthorization nodeId enabled revision =>
      if app.distributed = true then setNodeAuthorization app user ctx nodeId enabled revision
      else unimplemented
  | .copyBlock req => if app.distributed = true then copyBlock app user req else unimplemented
  | .promoteProtection path revision =>
      if app.replicated = true then promoteProtection app user ctx path revision
      else unimplemented

end Dfsha
