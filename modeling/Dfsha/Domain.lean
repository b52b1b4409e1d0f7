import Dfsha.Lib.Table

/-!
# Values, messages and records

The messages of the wire protocol and the records of the metadata store, with the
source's own field names.  Two conventions hold throughout.

An identifier is an opaque number.  The source draws its identifiers at random, so
nothing may depend on more than equality and the order in which `Table.all` lists
records; `0` is the empty string of an unset protobuf field.  A field the source
leaves `None` is an `Option`.

A digest keeps the byte length a sender declared and a value.  The value is a
number without bound, so a digest function that is injective and always 32 bytes
long can exist, which is what "collision free" asks for.

Wall-clock times are milliseconds and monotonic times are nanoseconds.
-/

namespace Dfsha

/-- An opaque identifier; `0` is the empty string. -/
abbrev Id := Nat

/-- A byte string. -/
abbrev Bytes := List UInt8

/-- Text, as a list of characters. -/
abbrev Text := List Char

/-- `CHUNK`: the largest piece of content in one message or record. -/
def chunkBytes : Nat := 262144

/-- `PROFILES`: the admitted block sizes. -/
def profiles : List Nat := [4194304, 67108864, 134217728]

/-- `MAX_DELTA`: the longest single write. -/
def maxDelta : Nat := 16 * 1024 * 1024

/-- `MAX_OFFSET`: the largest admitted offset. -/
def maxOffset : Nat := 2 ^ 63 - 1

/-- A digest as received: its length in bytes, and its value. -/
structure Digest where
  length : Nat
  value : Nat
  deriving DecidableEq, Repr

/-- The digest of an unset bytes field. -/
def Digest.unset : Digest := ⟨0, 0⟩

/-- `ErrorReason`, the reasons a `Fault` carries. -/
inductive Reason
  | invalidArgument | limitExceeded | unauthenticated | permissionDenied | notFound
  | alreadyExists | notDirectory | isDirectory | directoryNotEmpty | rootProtected
  | cwdGone | listChanged | versionConflict | lockConflict | lockExpired | lockBusy
  | staleHandle | handleBusy | sparseWriteUnsupported | unsupportedMode
  | idempotencyMismatch | outcomeUnknown | noSpace | insufficientReplicas
  | dataUnavailable | dataLoss | checksumMismatch | serviceUnavailable
  | deadlineExceeded | operationExpired
  deriving DecidableEq, Repr

/-- How a request ends without an answer: a `Fault` the code raises on purpose, or
a dereference of something missing (`TypeError`, `KeyError`, `IndexError`). -/
inductive Failure
  | fault (reason : Reason)
  | crash
  deriving DecidableEq, Repr

/-! ## Messages -/

/-- `RequestContext`. -/
structure RequestContext where
  requestId : Id
  userId : Id
  serviceEpoch : Id
  intentSha256 : Digest
  deriving DecidableEq, Repr

/-- `PathRef`: a path, and the working directory a relative one starts from. -/
structure PathRef where
  path : Text
  cwdPath : Text
  cwdId : Id
  deriving DecidableEq, Repr

/-- `BlockRef`.  A block not yet stored has an unset version and digest. -/
structure BlockRef where
  fileId : Id
  blockVersionId : Id
  blockIndex : Nat
  sizeBytes : Nat
  plaintextSha256 : Digest
  deriving DecidableEq, Repr

/-- `BlockRef(file_id=…, block_index=…)`: the base of a block that does not exist yet. -/
def BlockRef.absent (file : Id) (index : Nat) : BlockRef := ⟨file, 0, index, 0, .unset⟩

/-- `SnapshotRef`. -/
structure SnapshotRef where
  fileId : Id
  contentEpoch : Nat
  fileVersion : Nat
  manifestRoot : Id
  sizeBytes : Nat
  manifestSha256 : Digest
  fileSha256 : Option Digest
  blockSizeBytes : Nat
  deriving DecidableEq, Repr

/-- `Fence`: proof that a lock was granted. -/
structure Fence where
  lockId : Id
  handleId : Id
  serviceEpoch : Id
  generation : Nat
  leaseId : Nat
  blockIndices : List Nat
  wholeFile : Bool
  includesSize : Bool
  expiresAtUnixMs : Nat
  deriving DecidableEq, Repr

/-- A fence without its advisory expiry, as `validate` compares it. -/
def Fence.bare (f : Fence) : Fence := { f with expiresAtUnixMs := 0 }

/-- `OperationRef`. -/
structure OperationRef where
  operationId : Id
  requestId : Id
  intentSha256 : Digest
  deriving DecidableEq, Repr

/-- `BlockLocation`: one incarnation of a data node. -/
structure BlockLocation where
  nodeId : Id
  bootGeneration : Nat
  clientEndpoint : Id
  privateEndpoint : Id
  failureDomain : Id
  deriving DecidableEq, Repr

/-- `DurableReceipt`: a data node's statement that it stored a block. -/
structure DurableReceipt where
  receiptId : Id
  operationId : Id
  block : BlockRef
  nodeId : Id
  bootGeneration : Nat
  failureDomain : Id
  storedSizeBytes : Nat
  ciphertextSha256 : Digest
  durableAtUnixMs : Nat
  deriving DecidableEq, Repr

/-- `PageReceipt`.  Its `page_id` names the operation, and the page unless it is a seal. -/
structure PageReceipt where
  operationId : Id
  page : Option Nat
  sha256 : Digest
  revision : Nat
  deriving DecidableEq, Repr

/-- `OperationState`. -/
inductive OperationState
  | preparing | committed | aborted | expired
  deriving DecidableEq, Repr

/-- `CommitResult`. -/
structure CommitResult where
  operation : OperationRef
  state : OperationState
  snapshot : SnapshotRef
  acceptedBytes : Nat
  degraded : Bool
  targetReplicas : Nat
  minimumDurable : Nat
  deriving DecidableEq, Repr

/-- `WritePart`: the piece of a write that falls in one block. -/
structure WritePart where
  blockIndex : Nat
  blockOffset : Nat
  deltaOffset : Nat
  length : Nat
  deltaSha256 : Digest
  deriving DecidableEq, Repr

/-- `OpenMode`. -/
inductive OpenMode
  | unspecified | r | rPlus | w | wPlus | x | xPlus
  deriving DecidableEq, Repr

/-- `READ_MODES`. -/
def readModes : List OpenMode := [.r, .rPlus, .wPlus, .xPlus]

/-- `WRITE_MODES`. -/
def writeModes : List OpenMode := [.rPlus, .w, .wPlus, .x, .xPlus]

/-- The modes in which `Open` may create or truncate. -/
def creatingModes : List OpenMode := [.w, .wPlus, .x, .xPlus]

/-! ## Records of the namespace -/

structure User where
  id : Id
  username : Text
  password : Digest
  disabled : Bool
  admin : Bool
  revision : Nat
  deriving DecidableEq, Repr

structure Group where
  id : Id
  name : Text
  members : List Id
  revision : Nat
  deriving DecidableEq, Repr

/-- A login session, stored under the hash of its token. -/
structure Session where
  id : Id
  sessionId : Id
  user : Id
  expires : Nat
  revoked : Bool
  deriving DecidableEq, Repr

/-- `AclEntry`. -/
structure AclEntry where
  principalId : Id
  isGroup : Bool
  permissions : Nat
  deriving DecidableEq, Repr

inductive NodeKind
  | directory | file
  deriving DecidableEq, Repr

/-- A directory or a file of the namespace. -/
structure Node where
  id : Id
  name : Text
  parent : Option Id
  owner : Id
  group : Id
  mode : Nat
  acl : List AclEntry
  alive : Bool
  kind : NodeKind
  revision : Nat
  snapshot : Option Id
  blockSize : Nat
  deriving DecidableEq, Repr

/-- A published version of a file. -/
structure Snapshot where
  id : Id
  file : Id
  ref : SnapshotRef
  blocks : List BlockRef
  deriving DecidableEq, Repr

/-! ## Records of access -/

/-- An open handle.  `deadline` and `maximum` are monotonic, `expires` is a wall-clock hint. -/
structure Handle where
  id : Id
  file : Id
  snapshot : Id
  user : Id
  session : Id
  revision : Nat
  closed : Bool
  ancestors : List Id
  mode : OpenMode
  busy : Option Id
  controlEpoch : Option Id
  maximum : Nat
  deadline : Nat
  expires : Nat
  deriving DecidableEq, Repr

/-- An iteration over a handle's content that reserves the handle. -/
structure Read where
  id : Id
  handle : Id
  session : Id
  offset : Nat
  length : Nat
  closed : Bool
  deriving DecidableEq, Repr

/-- A lock on blocks of a file, its size, or the whole file. -/
structure Lock where
  id : Id
  handle : Id
  file : Id
  session : Id
  generation : Nat
  controlEpoch : Id
  indices : List Nat
  whole : Bool
  size : Bool
  automatic : Bool
  lease : Nat
  active : List Id
  deadline : Nat
  deriving DecidableEq, Repr

/-- One entry of `op['parts']`: what a write changes in one block. -/
structure Part where
  part : WritePart
  base : BlockRef
  replacement : BlockRef
  deriving DecidableEq, Repr

inductive PolicyState
  | active | promoting | promotionBlocked
  deriving DecidableEq, Repr

/-- The protection policy of a file. -/
structure Policy where
  id : Id
  r : Nat
  w : Nat
  revision : Nat
  state : PolicyState
  until_ : Nat
  deriving DecidableEq, Repr

inductive OperationKind
  | upload | write
  deriving DecidableEq, Repr

/-- An upload or a write in preparation, and its outcome.  The source keeps both in
one kind of record; the fields of the other kind stay at their defaults. -/
structure Operation where
  id : Id
  kind : OperationKind
  operation : OperationRef
  requestId : Id
  user : Id
  session : Id
  parent : Option Id
  name : Text
  file : Id
  base : Option Id
  version : Nat
  blockSize : Nat
  total : Nat
  sha : Digest
  state : OperationState
  expires : Nat
  maxExpires : Nat
  epoch : Nat
  reserved : Nat
  allocations : List (Nat × BlockRef)
  pages : List (Nat × List BlockRef)
  sealed : Option PageReceipt
  result : Option CommitResult
  handle : Id
  handleRevision : Nat
  controlEpoch : Option Id
  offset : Nat
  length : Nat
  growing : Bool
  baseSize : Nat
  locks : List Id
  fences : List Fence
  fullFence : Option Fence
  parts : List Part
  policy : Option Policy
  deriving DecidableEq, Repr

/-- The fields every new operation starts with. -/
def Operation.blank : Operation where
  id := 0
  kind := .upload
  operation := ⟨0, 0, .unset⟩
  requestId := 0
  user := 0
  session := 0
  parent := none
  name := []
  file := 0
  base := none
  version := 0
  blockSize := 0
  total := 0
  sha := .unset
  state := .preparing
  expires := 0
  maxExpires := 0
  epoch := 0
  reserved := 0
  allocations := []
  pages := []
  sealed := none
  result := none
  handle := 0
  handleRevision := 0
  controlEpoch := none
  offset := 0
  length := 0
  growing := false
  baseSize := 0
  locks := []
  fences := []
  fullFence := none
  parts := []
  policy := none

/-- The block allocated for an index, `op['allocations'].get(str(index))`. -/
def Operation.allocation (op : Operation) (index : Nat) : Option BlockRef :=
  op.allocations.lookup index

/-- A stored block, confirmed by a receipt. -/
structure Block where
  id : Id
  file : Id
  operation : Id
  ref : BlockRef
  storedSize : Nat
  receipt : DurableReceipt
  deriving DecidableEq, Repr

/-- The tombstone of a block version. -/
structure Retired where
  id : Id
  ref : BlockRef
  retiredAt : Nat
  deriving DecidableEq, Repr

/-! ## Records of the cluster -/

inductive Health
  | verified | corrupt | missing
  deriving DecidableEq, Repr

/-- A copy of a block at a data node. -/
structure Location where
  block : Id
  node : Id
  receipt : DurableReceipt
  inventory : Id
  health : Health
  checkedAt : Nat
  deriving DecidableEq, Repr

/-- The data node chosen for a new block, and the space reserved there. -/
structure Assignment where
  id : Id
  node : Id
  operation : Id
  generation : Nat
  reserved : Nat
  deriving DecidableEq, Repr

/-- A registered data node. -/
structure DataNode where
  id : Id
  location : BlockLocation
  capacity : Nat
  free : Nat
  used : Nat
  seen : Nat
  sequence : Nat
  reconciled : Bool
  inventoryId : Id
  page : Nat
  reportPages : List (Nat × Digest)
  heartbeatDigest : Digest
  active : Nat
  authorizationDisabled : Bool
  deriving DecidableEq, Repr

/-- The administrative switch of a data node. -/
structure NodePolicy where
  id : Id
  revision : Nat
  enabled : Bool
  deriving DecidableEq, Repr

inductive TaskKind
  | copy | delete
  deriving DecidableEq, Repr

inductive TaskState
  | accepted | running | finished | failed
  deriving DecidableEq, Repr

/-- `ACTIVE`: the states in which a task may still act. -/
def TaskState.active : TaskState → Bool
  | .accepted | .running => true
  | .finished | .failed => false

/-- `TaskStatus`. -/
structure TaskStatus where
  taskId : Id
  state : TaskState
  receipt : Option DurableReceipt
  errorReason : Option Reason
  deriving DecidableEq, Repr

/-- A copy or deletion ordered by the control. -/
structure Task where
  id : Id
  kind : TaskKind
  block : BlockRef
  src : Id
  dest : Id
  expires : Nat
  status : TaskStatus
  source : Option BlockLocation
  destination : Option BlockLocation
  receipt : Option DurableReceipt
  reserved : Nat
  writeOperation : Option Id
  owner : Option Id
  generation : Nat
  attempts : Nat
  nextRun : Nat
  replaceReceipt : Id
  expectedReceiptId : Id
  dispatched : Bool
  cleanupChecked : Bool
  deriving DecidableEq, Repr

/-- The deletion ordered for a copy the control does not want. -/
structure Retirement where
  block : Id
  node : Id
  task : Id
  deriving DecidableEq, Repr

/-- Every receipt ever confirmed for a block, by node. -/
structure Durability where
  id : Id
  receipts : List (Id × DurableReceipt)
  deriving DecidableEq, Repr

/-- The extra copies planned for a new block. -/
structure ReplicaPlan where
  id : Id
  operation : Id
  destinations : List Id
  reserved : Nat
  deriving DecidableEq, Repr

/-- The back-off of a repair. -/
structure RepairRetry where
  block : Id
  node : Id
  attempts : Nat
  nextRun : Nat
  deriving DecidableEq, Repr

/-! ## Keys -/

instance : Keyed User Id := ⟨User.id⟩
instance : Keyed Group Id := ⟨Group.id⟩
instance : Keyed Session Id := ⟨Session.id⟩
instance : Keyed Node Id := ⟨Node.id⟩
instance : Keyed Snapshot Id := ⟨Snapshot.id⟩
instance : Keyed Handle Id := ⟨Handle.id⟩
instance : Keyed Read Id := ⟨Read.id⟩
instance : Keyed Lock Id := ⟨Lock.id⟩
instance : Keyed Policy Id := ⟨Policy.id⟩
instance : Keyed Operation Id := ⟨Operation.id⟩
instance : Keyed Block Id := ⟨Block.id⟩
instance : Keyed Retired Id := ⟨Retired.id⟩
instance : Keyed Location (Id ×ₗ Id) := ⟨fun l => toLex (l.block, l.node)⟩
instance : Keyed Assignment Id := ⟨Assignment.id⟩
instance : Keyed DataNode Id := ⟨DataNode.id⟩
instance : Keyed NodePolicy Id := ⟨NodePolicy.id⟩
instance : Keyed Task Id := ⟨Task.id⟩
instance : Keyed Retirement (Id ×ₗ Id) := ⟨fun r => toLex (r.block, r.node)⟩
instance : Keyed Durability Id := ⟨Durability.id⟩
instance : Keyed ReplicaPlan Id := ⟨ReplicaPlan.id⟩
instance : Keyed RepairRetry (Id ×ₗ Id) := ⟨fun r => toLex (r.block, r.node)⟩

@[simp] theorem key_node (r : Node) : Keyed.key r = r.id := rfl
@[simp] theorem key_snapshot (r : Snapshot) : Keyed.key r = r.id := rfl
@[simp] theorem key_handle (r : Handle) : Keyed.key r = r.id := rfl
@[simp] theorem key_read (r : Read) : Keyed.key r = r.id := rfl
@[simp] theorem key_lock (r : Lock) : Keyed.key r = r.id := rfl
@[simp] theorem key_operation (r : Operation) : Keyed.key r = r.id := rfl
@[simp] theorem key_block (r : Block) : Keyed.key r = r.id := rfl
@[simp] theorem key_retired (r : Retired) : Keyed.key r = r.id := rfl

end Dfsha
