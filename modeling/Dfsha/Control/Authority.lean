import Dfsha.Control.Nodes
import Dfsha.Control.Resolve

/-!
# What a capability admits to

A data node that is shown a capability asks the control before it acts.  `AuthorizeBlock` is about
what a client asks of a node; `AuthorizeInternal` is about a task, for which the control hands the
capability to the destination, which shows it to the source.

## Main definitions

* `authorizeBlock` — `AuthorizeBlock`, by action.
* `dispatch` — the request a pending task is handed to its node with.
* `ownedTask`, `authorizeInternal` — the two transactions of `AuthorizeInternal`.
-/

namespace Dfsha

variable (app : App)

/-! ## Clients -/

/-- `handle` of the queries, by class. -/
def readHandle (user : User) (session : Session) (identity : Id) : Q (Handle × Snapshot) :=
  if app.rf3 = true then accessHandle app user session identity
  else queriesHandle app user session identity

/-- `AuthorizeBlock` for a block to be read; a control with leases grants parts of blocks. -/
def authorizeRead (peer : Id) (req : AuthorizeBlockRequest) : T Decision := do
  askingPeer app peer req.nodeId
  let (user, session) ← authenticated app req.token req.context
  let node ← askingNode app req.nodeId
  let (h, snap) ← readHandle app user session req.handleId
  (if app.rf3 = true then do
    need (h.mode ∈ readModes ∧ (h.busy = none ∨ h.busy = some req.readId)) .permissionDenied
    (if req.readId ≠ 0 then
      liftM (validateRead h req.readId
        (req.block.blockIndex * snap.ref.blockSizeBytes + req.offset) req.length)
    else pure ())
  else pure ())
  let c ← cluster
  need (snap.ref = req.snapshot ∧ req.block ∈ snap.blocks ∧
    (locationAt c req.block.blockVersionId node.id).isSome = true) .permissionDenied
  let action : Action ←
    (if app.rf3 = true then do
      need (req.offset ≤ req.block.sizeBytes ∧ 0 < req.length ∧
        req.length ≤ req.block.sizeBytes - req.offset) .invalidArgument
      pure (.readRange req.offset req.length req.readId)
    else do
      need (req.offset = 0 ∧ req.length = req.block.sizeBytes) .unsupportedMode
      pure .read)
  need (req.capability = app.hmac (.data user.id h.id req.block.blockVersionId action node.id
    node.location.bootGeneration h.session)) .permissionDenied
  let expiry ← (if app.rf3 = true then liftM (expiryHint h.deadline) else pure h.expires)
  pure (.allow snap.ref.blockSizeBytes 0 (min session.expires expiry))

/-- `AuthorizeBlock`. -/
def authorizeBlock (peer : Id) (req : AuthorizeBlockRequest) : T Decision := do
  requireNode app req.nodeId
  match req.action with
  | .patchData => authorizePatch app peer req
  | .writeData => authorizeWrite app peer req
  | .readData => authorizeRead app peer req
  | .readReplica | .storeReplica | .deleteRetired => do
      askingPeer app peer req.nodeId
      let _ ← authenticated app req.token req.context
      let _ ← askingNode app req.nodeId
      liftM (Query.fail (.fault .permissionDenied) : Q Decision)

/-! ## Tasks -/

/-- What a task is a capability for: the replicated control also names its own epoch and
generation. -/
def Task.grant (task : Task) : CapabilityText :=
  if app.replicated = true then
    .ownedTask task.src task.id task.block.blockVersionId task.dest task.kind
      (task.owner.getD 0) task.generation
  else .task task.src task.id task.block.blockVersionId task.dest task.kind

/-- `task_capability`, by class. -/
def taskCapability (task : Task) : Digest := app.hmac (task.grant app)

/-- The request a task is handed to its node with. -/
inductive TaskOrder
  /-- `ReplicateBlockRequest`. -/
  | replicate (taskId : Id) (block : BlockRef) (source destination : BlockLocation)
      (taskCapability : Digest) (ciphertextLength : Nat) (ciphertextSha256 : Digest)
      (replaceReceiptId : Id)
  /-- `DeleteRetiredBlockRequest`. -/
  | deleteRetired (taskId : Id) (block : BlockRef) (taskCapability : Digest)
      (expectedReceiptId : Id)
  deriving DecidableEq, Repr

def TaskOrder.capability : TaskOrder → Digest
  | .replicate _ _ _ _ c _ _ _ => c
  | .deleteRetired _ _ c _ => c

/-- What `tick` sends to the destination of an active task. -/
def dispatch (taskId : Id) : Q TaskOrder := do
  let w ← world
  let task ← deref (w.cluster.tasks.get taskId)
  need (task.status.state.active = true ∧
    nodeState app w.access.now (w.cluster.datanodes.get task.dest) = .ready) .dataUnavailable
  match task.kind with
  | .copy => do
      let receipt ← deref task.receipt
      let source ← deref task.source
      let destination ← deref task.destination
      pure (.replicate task.id receipt.block source destination (taskCapability app task)
        receipt.storedSizeBytes receipt.ciphertextSha256 task.replaceReceipt)
  | .delete =>
      pure (.deleteRetired task.id task.block (taskCapability app task) task.expectedReceiptId)

/-- `AuthorizeInternalRequest`. -/
structure AuthorizeInternalRequest where
  context : RequestContext
  taskId : Id
  taskCapability : Digest
  block : BlockRef
  action : AccessAction
  /-- `0` when the field is unset. -/
  sourceNodeId : Id
  destinationNodeId : Id
  fence : Fence
  deriving DecidableEq, Repr

/-- `retired_at_node`. -/
def retiredAtNode (w : World) (block node : Id) : Bool :=
  (locationAt w.cluster block node).isNone &&
    (match w.cluster.assignments.get block with
     | some assignment =>
         !(decide (assignment.node = node) &&
           operationLive w.access (w.access.uploads.get assignment.operation))
     | none => true) &&
    !w.cluster.tasks.all.any fun t =>
      decide (t.kind = .copy ∧ t.dest = node ∧ t.block.blockVersionId = block) &&
        t.pending w.access.now

/-- The planned end of a task is the incarnation it was planned for. -/
def sameIncarnation (c : Cluster) (planned : Option BlockLocation) : Prop :=
  ∀ l ∈ planned, (c.datanodes.get l.nodeId).map (fun n => n.location.bootGeneration) =
    some l.bootGeneration

instance (c : Cluster) (planned : Option BlockLocation) : Decidable (sameIncarnation c planned) :=
  inferInstanceAs (Decidable (∀ l ∈ planned, _))

/-- The transaction of `ReplicatedControl.AuthorizeInternal` before that of its base class. -/
def ownedTask (req : AuthorizeInternalRequest) : Q Task := do
  let w ← world
  let epoch ← leaseEpoch
  let task ← needSome (w.cluster.tasks.get req.taskId) .lockExpired
  need (task.owner = some epoch ∧ task.generation = req.fence.generation) .lockExpired
  need (task.kind = .delete ∨ isUseful w.access req.block.blockVersionId = true) .versionConflict
  need (sameIncarnation w.cluster task.source) .versionConflict
  need (sameIncarnation w.cluster task.destination) .versionConflict
  pure task

/-- `DistributedControl.AuthorizeInternal`: until when the task may be worked on. -/
def authorizeInternal (peer : Id) (req : AuthorizeInternalRequest) : Q Nat := do
  requireNode app req.destinationNodeId
  (if req.sourceNodeId ≠ 0 then requireNode app req.sourceNodeId else pure ())
  let w ← world
  let task ← needSome (w.cluster.tasks.get req.taskId) .permissionDenied
  need (task.pending w.access.now = true ∧ req.block = task.block ∧
    req.taskCapability = taskCapability app task ∧ req.sourceNodeId = task.src ∧
    req.destinationNodeId = task.dest ∧ req.fence.lockId = task.id ∧
    req.fence.serviceEpoch = app.epoch) .permissionDenied
  let expected := if req.action = .readReplica then task.src else task.dest
  need ((app.allowed expected).map AllowedNode.identity = some peer ∧
    req.context.userId = expected) .permissionDenied
  need ((task.kind = .copy ∧ (req.action = .readReplica ∨ req.action = .storeReplica)) ∨
    (task.kind = .delete ∧ req.action = .deleteRetired ∧
      retiredAtNode w req.block.blockVersionId task.dest = true)) .permissionDenied
  pure task.expires

end Dfsha
