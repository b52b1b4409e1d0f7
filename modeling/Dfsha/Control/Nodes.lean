import Dfsha.Control.Protection
import Dfsha.Control.Ledger

/-!
# What data nodes tell the control

Registration, heartbeats, inventory reports, receipts of stored blocks, outcomes of
tasks, and the authorization a data node asks for before it stores what a client sends.

Every call arrives over an authenticated channel: `peer` is the identity of the
certificate, which must be the one configured for the node the request speaks for.
-/

namespace Dfsha

variable (app : App)

/-- Who calls: the certificate's identity, and the context of the request. -/
structure NodeCall where
  peer : Id
  context : RequestContext

/-- `require_node`. -/
def requireNode (node : Id) : Q Unit := do
  let c ← cluster
  need ((app.allowed node).isSome = true ∧ ∀ p ∈ c.nodePolicies.get node, p.enabled = true)
    .permissionDenied

/-- `node_peer`. -/
def nodePeer (call : NodeCall) (node : Id) : Q Unit := do
  need ((app.allowed node).map AllowedNode.identity = some call.peer ∧
    call.context.userId = node ∧ call.context.serviceEpoch = app.epoch) .permissionDenied
  need (app.isUuid call.context.requestId = true) .invalidArgument
  requireNode app node

/-- The operations with a block at an earlier incarnation of a node cannot go on. -/
def abortAssigned (node : Id) : T Unit := do
  let c ← cluster
  Tx.each c.assignments.all fun assignment => do
    let a ← access
    match a.uploads.get assignment.operation with
    | none => pure ()
    | some op =>
        if assignment.node = node ∧ op.state = .preparing then putUpload (op.ended .aborted)
        else pure ()

/-- A node that registers again: the same incarnation, or a later one. -/
def reregister (req : RegisterNodeRequest) (old : DataNode) : T Unit := do
  need (old.location.bootGeneration ≤ req.node.bootGeneration) .versionConflict
  if req.node.bootGeneration = old.location.bootGeneration then do
    need (old.location = req.node) .versionConflict
    need (old.inventoryId = req.inventoryId) .versionConflict
  else abortAssigned req.node.nodeId

/-- `RegisterNode`. -/
def registerNode (call : NodeCall) (req : RegisterNodeRequest) : T Unit := do
  nodePeer app call req.node.nodeId
  need (app.isUuid req.inventoryId = true) .invalidArgument
  let allow ← deref (app.allowed req.node.nodeId)
  need (req.node.clientEndpoint = allow.clientEndpoint ∧
    req.node.privateEndpoint = allow.privateEndpoint ∧
    req.node.failureDomain = allow.failureDomain ∧ req.capacityBytes = allow.capacityBytes ∧
    0 < req.node.bootGeneration) .permissionDenied
  let c ← cluster
  requireNode app req.node.nodeId
  ((c.datanodes.get req.node.nodeId).elim (pure ()) (reregister req))
  let now ← now
  putDatanode
    { id := req.node.nodeId, location := req.node, capacity := req.capacityBytes,
      free := req.freeBytes, used := 0, seen := now, sequence := 0, reconciled := false,
      inventoryId := req.inventoryId, page := 0, reportPages := [], heartbeatDigest := .unset,
      active := 0, authorizationDisabled := false }

/-- `Heartbeat`. -/
def heartbeat (call : NodeCall) (req : HeartbeatRequest) : T Unit := do
  nodePeer app call req.nodeId
  let c ← cluster
  let node ← needSome (c.datanodes.get req.nodeId) .versionConflict
  need (node.reconciled = true ∧ node.location.bootGeneration = req.bootGeneration ∧
    node.sequence ≤ req.sequence) .versionConflict
  let digest := app.intent (.heartbeat req)
  if req.sequence = node.sequence then
    need (node.heartbeatDigest = digest) .versionConflict
  else do
    let now ← now
    putDatanode
      { node with
        seen := now, sequence := req.sequence, free := req.freeBytes, used := req.usedBytes,
        active := req.activeStreams, heartbeatDigest := digest }

/-! ## Inventories -/

/-- One receipt of `DistributedControl.BlockReport`. -/
def clusterReported (req : BlockReportRequest) (receipt : DurableReceipt) : T Unit := do
  need (receipt.nodeId = req.nodeId ∧ receipt.ciphertextSha256.length = 32) .invalidArgument
  let c ← cluster
  match locationAt c receipt.block.blockVersionId req.nodeId with
  | some old => do
      need (old.receipt = receipt) .checksumMismatch
      putLocation { old with inventory := req.reportId }
  | none => retireCopy app receipt.block req.nodeId

/-- The receipt is of a copy the control ordered and still wants. -/
def recovered (w : World) (req : BlockReportRequest) (receipt : DurableReceipt) : Bool :=
  match w.access.blocks.get receipt.block.blockVersionId,
    w.cluster.tasks.get receipt.operationId with
  | some record, some task =>
      decide (task.kind = .copy) && decide (task.dest = req.nodeId) &&
        decide (task.block = receipt.block) && isUseful w.access receipt.block.blockVersionId &&
        decide (record.receipt.ciphertextSha256 = receipt.ciphertextSha256)
  | _, _ => false

/-- An object nobody asked for is deleted, if it is still the one reported. -/
def retireReported (req : BlockReportRequest) (receipt : DurableReceipt) : T Unit := do
  retireCopy app receipt.block req.nodeId
  let c ← cluster
  let retirement ← deref (c.retirements.get (toLex (receipt.block.blockVersionId, req.nodeId)))
  let deletion ← deref (c.tasks.get retirement.task)
  putTask { deletion with expectedReceiptId := receipt.receiptId }

/-- One receipt of `ReplicatedControl.BlockReport`. -/
def replicatedReported (req : BlockReportRequest) (receipt : DurableReceipt) : T Unit := do
  need (receipt.nodeId = req.nodeId ∧ receipt.ciphertextSha256.length = 32) .invalidArgument
  let w ← world
  let unretired := (w.access.retired.get receipt.block.blockVersionId).isNone
  if recovered w req receipt = true ∧ unretired = true then
    confirmLocation app receipt req.reportId
  else
    match locationAt w.cluster receipt.block.blockVersionId req.nodeId with
    | some old =>
        if old.receipt = receipt ∧ unretired = true then do
          let now ← now
          putLocation { old with inventory := req.reportId, health := .verified, checkedAt := now }
        else pure ()
    | none => retireReported app req receipt

/-- The last page of an inventory: a copy that was not reported is gone. -/
def closeInventory (req : BlockReportRequest) : T Unit := do
  let c ← cluster
  Tx.each c.locations.all fun loc =>
    if loc.node = req.nodeId ∧ loc.inventory ≠ req.reportId then
      if app.replicated = true then putLocation { loc with health := .missing }
      else deleteLocation (toLex (loc.block, loc.node))
    else pure ()

/-- A new page of an inventory. -/
def reportPage (req : BlockReportRequest) (node : DataNode) : T Unit := do
  need (req.pageIndex = node.page) .versionConflict
  Tx.each req.receipts fun receipt =>
    if app.replicated = true then replicatedReported app req receipt
    else clusterReported app req receipt
  let now ← now
  (if req.lastPage = true then closeInventory app req else pure ())
  putDatanode
    { node with
      page := node.page + 1, seen := now, reconciled := req.lastPage,
      reportPages :=
        if app.replicated = true then
          (req.pageIndex, app.intent (.blockReport req)) :: node.reportPages
        else node.reportPages }

/-- `BlockReport`, by class: only the replicated control answers a page sent again. -/
def blockReport (call : NodeCall) (req : BlockReportRequest) : T Unit := do
  nodePeer app call req.nodeId
  need (req.receipts.length ≤ 64 ∧ req.byteSize ≤ 65536) .invalidArgument
  let c ← cluster
  let node ← needSome (c.datanodes.get req.nodeId) .versionConflict
  need (node.location.bootGeneration = req.bootGeneration ∧ req.reportId = node.inventoryId)
    .versionConflict
  if app.replicated = true ∧ req.pageIndex < node.page then
    need (node.reportPages.lookup req.pageIndex = some (app.intent (.blockReport req)))
      .versionConflict
  else reportPage app req node

/-! ## Receipts of stored blocks -/

/-- The receipt a remembered report was answered with. -/
def replayedReceipt (r : Response) (receipt : DurableReceipt) : Q Unit :=
  match r with
  | .receipt previous => need (previous = receipt) .idempotencyMismatch
  | _ => Query.fail .crash

/-- The user and the session an operation belongs to, which must still be good. -/
def reportingSession (operation : Id) : Q Session := do
  let w ← world
  let session ← needSome
    ((w.access.uploads.get operation).bind fun op => w.identity.sessions.get op.session)
    .unauthenticated
  need (session.revoked = false ∧ w.access.now < session.expires) .unauthenticated
  pure session

/-- The node a receipt speaks for, in the incarnation it speaks for. -/
def reportingNode (receipt : DurableReceipt) : Q DataNode := do
  let c ← cluster
  requireNode app receipt.nodeId
  let node ← needSome (c.datanodes.get receipt.nodeId) .versionConflict
  need (receipt.bootGeneration = node.location.bootGeneration) .versionConflict
  pure node

/-- The user a report names. -/
def reportingUser (ctx : RequestContext) : Q User := do
  let i ← identity
  let user ← needSome (i.users.get ctx.userId) .unauthenticated
  need (user.disabled = false ∧ ctx.serviceEpoch = app.epoch) .unauthenticated
  pure user

/-- The record of a block that a receipt confirms. -/
def confirmedBlock (receipt : DurableReceipt) (operation : Id) : Block :=
  ⟨receipt.block.blockVersionId, receipt.block.fileId, operation, receipt.block,
    receipt.storedSizeBytes, receipt⟩

/-- A received block not yet confirmed: the receipt must be of the block that was
allocated, from the node it was assigned to. -/
def confirmStored (user : User) (node : DataNode) (req : ReportDurableRequest) : T Unit := do
  let receipt := req.receipt
  let session ← reportingSession receipt.operationId
  let op ← operation app user session req.operation (some req.fence)
  let c ← cluster
  let assignment ← needSome (c.assignments.get receipt.block.blockVersionId) .versionConflict
  need (assignment.node = node.id ∧ assignment.generation = receipt.bootGeneration ∧
    assignment.operation = op.id ∧ op.allocation receipt.block.blockIndex = some receipt.block)
    .versionConflict
  need (receipt.failureDomain = node.location.failureDomain ∧
    receipt.ciphertextSha256.length = 32 ∧ receipt.block.sizeBytes < receipt.storedSizeBytes ∧
    receipt.storedSizeBytes ≤ assignment.reserved) .checksumMismatch
  putBlock (confirmedBlock receipt op.id)
  confirmLocation app receipt node.inventoryId
  remember app user.id req.clientContext (.putBlock req.operation receipt.block req.fence)
    .putBlock none (.receipt receipt)

/-- `DistributedControl.ReportDurable`. -/
def reportDurable (call : NodeCall) (req : ReportDurableRequest) : T Unit := do
  nodePeer app call req.receipt.nodeId
  let node ← reportingNode app req.receipt
  let user ← reportingUser app req.clientContext
  need (app.isUuid req.clientContext.requestId = true) .invalidArgument
  let previous ← replay app user.id req.clientContext
    (.putBlock req.operation req.receipt.block req.fence) .putBlock none
  match previous with
  | some r => replayedReceipt r req.receipt
  | none => confirmStored app user node req

/-- The intent of a patch. -/
def PatchBlockHeader.intended (h : PatchBlockHeader) : Intended :=
  .patchBlock h.operation h.base h.newBlockVersionId h.blockOffset h.deltaLength h.deltaSha256
    h.fence

/-- What `validate_header` finds. -/
structure PatchTarget where
  op : Operation
  handle : Handle
  part : Part
  assignment : Assignment

/-- `validate_header`: the patch is one of the parts of a write that may go on. -/
def validateHeader (user : User) (session : Session) (header : PatchBlockHeader)
    (node : DataNode) : T PatchTarget := do
  let t ← writeOperation app user session header.operation
  let part ← needSome
    (t.op.parts.find? fun p => p.replacement.blockVersionId = header.newBlockVersionId)
    .permissionDenied
  need (header.base = part.base ∧ header.blockOffset = part.part.blockOffset ∧
    header.deltaLength = part.part.length ∧ header.deltaSha256 = part.part.deltaSha256)
    .idempotencyMismatch
  need (app.intent (.fence header.fence.bare) ∈ fenceIntents app t.op.fences) .lockExpired
  let c ← cluster
  let assignment ← needSome (c.assignments.get header.newBlockVersionId) .permissionDenied
  need (assignment.node = node.id ∧ assignment.operation = t.op.id ∧
    assignment.generation = node.location.bootGeneration) .permissionDenied
  pure ⟨t.op, t.handle, part, assignment⟩

/-- A patched block not yet confirmed. -/
def confirmPatched (user : User) (node : DataNode) (req : ReportPatchRequest) : T Unit := do
  let receipt := req.receipt
  let block := receipt.block
  let session ← reportingSession receipt.operationId
  let t ← validateHeader app user session req.patch node
  let expected := t.part.replacement
  need (receipt.operationId = t.op.id ∧ block.fileId = expected.fileId ∧
    block.blockVersionId = expected.blockVersionId ∧ block.blockIndex = expected.blockIndex ∧
    block.sizeBytes = expected.sizeBytes ∧ block.plaintextSha256.length = 32 ∧
    receipt.ciphertextSha256.length = 32 ∧
    receipt.failureDomain = node.location.failureDomain ∧
    block.sizeBytes < receipt.storedSizeBytes ∧
    receipt.storedSizeBytes ≤ t.assignment.reserved) .checksumMismatch
  putBlock (confirmedBlock receipt t.op.id)
  confirmLocation app receipt node.inventoryId
  remember app user.id req.patch.context req.patch.intended .patchBlock none (.receipt receipt)

/-- `report_patch`. -/
def reportPatch (call : NodeCall) (req : ReportPatchRequest) : T Unit := do
  nodePeer app call req.receipt.nodeId
  let node ← reportingNode app req.receipt
  let user ← reportingUser app req.patch.context
  let previous ← replay app user.id req.patch.context req.patch.intended .patchBlock none
  match previous with
  | some r => replayedReceipt r req.receipt
  | none => confirmPatched app user node req

/-! ## Tasks -/

/-- `validate_task_report`, of the replicated control. -/
def validateTaskReport (req : ReportTaskRequest) (task : Task) (node : DataNode) : Q Unit := do
  let w ← world
  need (task.owner = some (w.access.epoch.getD 0) ∧ req.fence.generation = task.generation ∧
    req.fence.lockId = task.id) .lockExpired
  need (task.kind = .delete ∨ isUseful w.access task.block.blockVersionId = true) .versionConflict
  need (task.status.state.active = true ∨ task.status = req.task) .operationExpired
  if task.kind = .copy then do
    need (some node.location = task.destination) .versionConflict
    let source ← needSome (w.cluster.datanodes.get task.src) .versionConflict
    let planned ← deref task.source
    need (source.location.bootGeneration = planned.bootGeneration) .versionConflict
  else pure ()

/-- The receipt of a finished copy is that of its source, at its destination. -/
def confirmCopy (req : ReportTaskRequest) (task : Task) (node : DataNode) : T Unit := do
  let a ← access
  let receipt ← deref req.task.receipt
  let expected ← deref task.receipt
  need (receipt.operationId = task.id ∧ receipt.nodeId = node.id ∧
    receipt.bootGeneration = req.bootGeneration ∧ receipt.block = task.block ∧
    receipt.storedSizeBytes = expected.storedSizeBytes ∧
    receipt.ciphertextSha256 = expected.ciphertextSha256 ∧
    (a.blocks.get receipt.block.blockVersionId).isSome = true) .checksumMismatch
  confirmLocation app receipt node.inventoryId

/-- `ReportTask`. -/
def reportTask (call : NodeCall) (req : ReportTaskRequest) : T Unit := do
  nodePeer app call req.nodeId
  let c ← cluster
  requireNode app req.nodeId
  let task ← needSome (c.tasks.get req.task.taskId) .permissionDenied
  let node ← needSome (c.datanodes.get req.nodeId) .permissionDenied
  need (task.dest = req.nodeId ∧ node.location.bootGeneration = req.bootGeneration)
    .permissionDenied
  (if app.replicated = true then liftM (validateTaskReport req task node) else pure ())
  if task.status.state = .finished then
    need (task.status = req.task) .idempotencyMismatch
  else do
    let now ← now
    need (now < task.expires ∧ (req.task.state = .finished ∨ req.task.state = .failed))
      .operationExpired
    (if req.task.state = .finished ∧ task.kind = .copy then confirmCopy app req task node
      else pure ())
    putTask { task with status := req.task, reserved := 0 }

/-! ## Authorization -/

/-- What a data node is told before it stores: the receipt of the same request carried out
before, or how large the block may be and until when. -/
inductive Decision
  | replay (receipt : DurableReceipt)
  | allow (blockSizeBytes replacementSizeBytes validUntilUnixMs : Nat)

/-- The receipt of an earlier report, of the node that asks. -/
def replayDecision (node : DataNode) (r : Response) : Q Decision :=
  match r with
  | .receipt receipt => do
      need (receipt.nodeId = node.id) .permissionDenied
      pure (.replay receipt)
  | _ => Query.fail .crash

/-- The node that asks must be the certificate's own. -/
def askingPeer (peer nodeId : Id) : Q Unit :=
  need ((app.allowed nodeId).map AllowedNode.identity = some peer) .permissionDenied

/-- The node that asks, which must be usable. -/
def askingNode (nodeId : Id) : Q DataNode := do
  let w ← world
  let node := w.cluster.datanodes.get nodeId
  need (usable app w.access.now node) .dataUnavailable
  deref node

/-- `AuthorizeBlock` for a received block. -/
def authorizeWrite (peer : Id) (req : AuthorizeBlockRequest) : T Decision := do
  askingPeer app peer req.nodeId
  let (user, session) ← authenticated app req.token req.context
  let node ← askingNode app req.nodeId
  let previous ← replay app user.id req.context (.putBlock req.operation req.block req.fence)
    .putBlock none
  match previous with
  | some r => replayDecision node r
  | none => do
      let op ← operation app user session req.operation (some req.fence)
      let c ← cluster
      let assignment ← needSome (c.assignments.get req.block.blockVersionId) .permissionDenied
      need (assignment.node = node.id ∧
        assignment.generation = node.location.bootGeneration ∧
        op.allocation req.block.blockIndex = some req.block) .permissionDenied
      need (req.offset = 0 ∧ req.length = req.block.sizeBytes) .unsupportedMode
      need (req.capability = capability app user op.binding req.block node .write)
        .permissionDenied
      pure (.allow op.blockSize req.block.sizeBytes (min session.expires op.expires))

/-- The header of the patch a request asks about. -/
def AuthorizeBlockRequest.header (req : AuthorizeBlockRequest) : PatchBlockHeader :=
  ⟨req.context, req.operation, req.block, req.replacementBlockVersionId, req.offset, req.length,
    req.deltaSha256, req.fence, req.capability⟩

/-- `authorize_patch`. -/
def authorizePatch (peer : Id) (req : AuthorizeBlockRequest) : T Decision := do
  need (app.rf3 = true) .unsupportedMode
  askingPeer app peer req.nodeId
  let (user, session) ← authenticated app req.token req.context
  let node ← askingNode app req.nodeId
  let previous ← replay app user.id req.context req.header.intended .patchBlock none
  match previous with
  | some r => replayDecision node r
  | none => do
      let t ← validateHeader app user session req.header node
      need (req.capability = capability app user t.op.binding t.part.replacement node .patch)
        .permissionDenied
      let hint ← expiryHint t.handle.deadline
      pure (.allow t.op.blockSize t.part.replacement.sizeBytes (min session.expires hint))

end Dfsha
