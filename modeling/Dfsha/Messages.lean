import Dfsha.Domain

/-!
# Requests and replies

The requests of the commands a client may send, the reports of the data nodes, and
the replies.  Every request travels with a `RequestContext`, which is kept apart
from the request itself: it is not part of what the client asks for, and the intent
digest does not cover it.

An `optional` field of the protocol is an `Option`; every other field is always
there, at its default if the sender left it out.
-/

namespace Dfsha

/-! ## What a capability is issued for -/

/-- The action named in a capability. -/
inductive Action
  | read
  | readRange (low length : Nat) (readId : Id)
  | write
  | patch
  deriving DecidableEq, Repr

/-- The text under a capability: the subject, what it is bound to, the block, and
either a data action at one incarnation of a node or a task between two nodes. -/
inductive CapabilityText
  | monolith (user binding block : Id) (action : Action)
  | data (user binding block : Id) (action : Action) (node : Id) (generation : Nat)
      (session : Id)
  | task (src task block dest : Id) (kind : TaskKind)
  | ownedTask (src task block dest : Id) (kind : TaskKind) (owner : Id) (generation : Nat)
  deriving DecidableEq, Repr

/-- `AccessAction`. -/
inductive AccessAction
  | readData | writeData | readReplica | storeReplica | deleteRetired | patchData
  deriving DecidableEq, Repr

/-- `BlockGrant`. -/
structure BlockGrant where
  capability : Digest
  action : AccessAction
  block : BlockRef
  nodeId : Id
  offset : Nat
  length : Nat
  expiresAtUnixMs : Nat
  deriving DecidableEq, Repr

/-- `StorageReservation`. -/
structure StorageReservation where
  reservationId : Id
  nodeId : Id
  operationId : Id
  bytes : Nat
  expiresAtUnixMs : Nat
  deriving DecidableEq, Repr

/-- `PlannedBlock`. -/
structure PlannedBlock where
  block : BlockRef
  locations : List BlockLocation
  grants : List BlockGrant
  replacementBlockVersionId : Id
  patch : Bool
  deltaOffset : Nat
  blockOffset : Nat
  deltaLength : Nat
  reservation : Option StorageReservation
  deriving DecidableEq, Repr

/-! ## Requests of clients -/

structure Acl where
  ownerId : Id
  groupId : Id
  ownerPermissions : Nat
  groupPermissions : Nat
  otherPermissions : Nat
  entries : List AclEntry
  deriving DecidableEq, Repr

structure BeginUploadRequest where
  path : PathRef
  overwrite : Bool
  totalBytes : Nat
  fileSha256 : Digest
  /-- `none` when the field is unset, which the code reads as an empty `file_id`. -/
  expectedSnapshot : Option SnapshotRef
  deriving DecidableEq, Repr

structure AllocateBlocksRequest where
  operation : OperationRef
  blocks : List BlockRef
  fence : Fence
  deriving DecidableEq, Repr

structure StageManifestPageRequest where
  operation : OperationRef
  pageIndex : Nat
  blocks : List BlockRef
  pageSha256 : Digest
  fence : Fence
  /-- `req.ByteSize()`, the encoded size of the request. -/
  byteSize : Nat
  deriving DecidableEq, Repr

structure SealManifestRequest where
  operation : OperationRef
  pageCount : Nat
  blockCount : Nat
  totalBytes : Nat
  manifestSha256 : Digest
  fence : Fence
  deriving DecidableEq, Repr

structure CommitUploadRequest where
  operation : OperationRef
  sealReceipt : PageReceipt
  fence : Fence
  deriving DecidableEq, Repr

structure BeginReadRequest where
  handleId : Id
  snapshot : SnapshotRef
  offset : Nat
  length : Nat
  deriving DecidableEq, Repr

structure LockRequest where
  handleId : Id
  wholeFile : Bool
  offset : Option Nat
  length : Option Nat
  waitTimeoutMs : Nat
  deriving DecidableEq, Repr

structure BeginWriteRequest where
  handleId : Id
  base : SnapshotRef
  offset : Option Nat
  length : Option Nat
  deltaSha256 : Digest
  fences : List Fence
  parts : List WritePart
  deriving DecidableEq, Repr

structure BlockChange where
  base : BlockRef
  replacement : BlockRef
  receipts : List DurableReceipt
  deriving DecidableEq, Repr

structure CommitWriteRequest where
  operation : OperationRef
  handleId : Id
  changes : List BlockChange
  fences : List Fence
  expectedHandleRevision : Nat
  deriving DecidableEq, Repr

structure CopyBlockRequest where
  block : BlockRef
  sourceNodeId : Id
  destinationNodeId : Id
  deriving DecidableEq, Repr

/-- The commands: one for each method of the command classes a client can call. -/
inductive Command
  | mkdir (path : PathRef)
  | rmdir (path : PathRef)
  | remove (path : PathRef)
  | createUser (username password : Text)
  | setUser (userId : Id) (disabled : Bool) (expectedRevision : Nat)
  | changePassword (userId : Id) (password : Text) (expectedRevision : Nat)
  | createGroup (name : Text)
  | setGroupMembers (groupId : Id) (userIds : List Id) (expectedRevision : Nat)
  | setAcl (path : PathRef) (acl : Acl) (expectedRevision : Nat)
  | logout (sessionId : Id)
  | beginUpload (req : BeginUploadRequest)
  | renewUpload (operation : OperationRef)
  | allocateBlocks (req : AllocateBlocksRequest)
  | stageManifestPage (req : StageManifestPageRequest)
  | sealManifest (req : SealManifestRequest)
  | commitUpload (req : CommitUploadRequest)
  | abortUpload (operation : OperationRef)
  | openFile (path : PathRef) (mode : OpenMode)
  | renewHandle (handleId : Id) (expectedHandleRevision : Nat)
  | close (handleId : Id) (expectedHandleRevision : Nat)
  | beginRead (req : BeginReadRequest)
  | endRead (handleId readId : Id)
  | lock (req : LockRequest)
  | renewLock (fence : Fence)
  | unlock (fence : Fence)
  | beginWrite (req : BeginWriteRequest)
  | commitWrite (req : CommitWriteRequest)
  | abortWrite (operation : OperationRef)
  | setNodeAuthorization (nodeId : Id) (enabled : Bool) (expectedRevision : Nat)
  | copyBlock (req : CopyBlockRequest)
  | promoteProtection (path : PathRef) (expectedPolicyRevision : Nat)

/-- The names under which requests are remembered. -/
inductive Method
  | mkdir | rmdir | remove | createUser | setUser | changePassword | createGroup
  | setGroupMembers | setAcl | logout | beginUpload | renewUpload | allocateBlocks
  | stageManifestPage | sealManifest | commitUpload | abortUpload | openFile | renewHandle
  | close | beginRead | endRead | lock | renewLock | unlock | beginWrite | commitWrite
  | abortWrite | setNodeAuthorization | copyBlock | promoteProtection | putBlock | patchBlock
  deriving DecidableEq, Repr

def Command.method : Command → Method
  | mkdir .. => .mkdir
  | rmdir .. => .rmdir
  | remove .. => .remove
  | createUser .. => .createUser
  | setUser .. => .setUser
  | changePassword .. => .changePassword
  | createGroup .. => .createGroup
  | setGroupMembers .. => .setGroupMembers
  | setAcl .. => .setAcl
  | logout .. => .logout
  | beginUpload .. => .beginUpload
  | renewUpload .. => .renewUpload
  | allocateBlocks .. => .allocateBlocks
  | stageManifestPage .. => .stageManifestPage
  | sealManifest .. => .sealManifest
  | commitUpload .. => .commitUpload
  | abortUpload .. => .abortUpload
  | openFile .. => .openFile
  | renewHandle .. => .renewHandle
  | close .. => .close
  | beginRead .. => .beginRead
  | endRead .. => .endRead
  | lock .. => .lock
  | renewLock .. => .renewLock
  | unlock .. => .unlock
  | beginWrite .. => .beginWrite
  | commitWrite .. => .commitWrite
  | abortWrite .. => .abortWrite
  | setNodeAuthorization .. => .setNodeAuthorization
  | copyBlock .. => .copyBlock
  | promoteProtection .. => .promoteProtection

/-- The password of a request, `hasattr(request, 'password')`. -/
def Command.password : Command → Option Text
  | createUser _ password => some password
  | changePassword _ password _ => some password
  | _ => none

/-! ## Requests of data nodes -/

/-- `PutBlockHeader`. -/
structure PutBlockHeader where
  context : RequestContext
  operation : OperationRef
  block : BlockRef
  fence : Fence
  capability : Digest
  deriving DecidableEq, Repr

/-- `PatchBlockHeader`. -/
structure PatchBlockHeader where
  context : RequestContext
  operation : OperationRef
  base : BlockRef
  newBlockVersionId : Id
  blockOffset : Nat
  deltaLength : Nat
  deltaSha256 : Digest
  fence : Fence
  capability : Digest
  deriving DecidableEq, Repr

structure RegisterNodeRequest where
  node : BlockLocation
  capacityBytes : Nat
  freeBytes : Nat
  inventoryId : Id
  deriving DecidableEq, Repr

structure HeartbeatRequest where
  nodeId : Id
  bootGeneration : Nat
  sequence : Nat
  freeBytes : Nat
  usedBytes : Nat
  activeStreams : Nat
  deriving DecidableEq, Repr

structure BlockReportRequest where
  nodeId : Id
  bootGeneration : Nat
  reportId : Id
  pageIndex : Nat
  receipts : List DurableReceipt
  lastPage : Bool
  /-- `req.ByteSize()`. -/
  byteSize : Nat
  deriving DecidableEq, Repr

/-- `ReportDurableRequest` without a `patch`: a block received from a client. -/
structure ReportDurableRequest where
  receipt : DurableReceipt
  clientContext : RequestContext
  operation : OperationRef
  fence : Fence
  deriving DecidableEq, Repr

/-- `ReportDurableRequest` with a `patch`: a block built from a base and a delta. -/
structure ReportPatchRequest where
  receipt : DurableReceipt
  patch : PatchBlockHeader
  deriving DecidableEq, Repr

structure ReportTaskRequest where
  nodeId : Id
  bootGeneration : Nat
  task : TaskStatus
  fence : Fence
  deriving DecidableEq, Repr

/-- `AuthorizeBlockRequest`, for the actions of clients. -/
structure AuthorizeBlockRequest where
  context : RequestContext
  token : Id
  action : AccessAction
  nodeId : Id
  block : BlockRef
  offset : Nat
  length : Nat
  capability : Digest
  operation : OperationRef
  handleId : Id
  readId : Id
  snapshot : SnapshotRef
  replacementBlockVersionId : Id
  deltaSha256 : Digest
  fence : Fence
  deriving DecidableEq, Repr

/-- What the intent digest of a request is computed from. -/
inductive Intended
  | command (cmd : Command)
  | putBlock (operation : OperationRef) (block : BlockRef) (fence : Fence)
  | patchBlock (operation : OperationRef) (base : BlockRef) (newBlockVersionId : Id)
      (blockOffset deltaLength : Nat) (deltaSha256 : Digest) (fence : Fence)
  | heartbeat (req : HeartbeatRequest)
  | blockReport (req : BlockReportRequest)
  | fence (fence : Fence)

/-! ## Replies -/

/-- `Entry`. -/
structure Entry where
  objectId : Id
  name : Text
  kind : NodeKind
  revision : Nat
  snapshot : Option SnapshotRef
  sizeBytes : Nat
  deriving DecidableEq, Repr

/-- `UploadPlan`. -/
structure UploadPlan where
  operation : OperationRef
  fileId : Id
  contentEpoch : Nat
  fence : Fence
  blockBytes : Nat
  expiresAtUnixMs : Nat
  minimumDurable : Nat
  deriving DecidableEq, Repr

/-- The `Handle` message. -/
structure HandleMessage where
  handleId : Id
  snapshot : SnapshotRef
  mode : OpenMode
  expiresAtUnixMs : Nat
  revision : Nat
  deriving DecidableEq, Repr

/-- `WritePlan`. -/
structure WritePlan where
  operation : OperationRef
  blocks : List PlannedBlock
  fences : List Fence
  base : SnapshotRef
  minimumDurable : Nat
  deriving DecidableEq, Repr

inductive Response
  | mutation (requestId : Id) (revision : Nat)
  | entry (entry : Entry)
  | user (userId : Id) (username : Text) (disabled : Bool) (revision : Nat)
  | group (groupId : Id) (name : Text) (userIds : List Id) (revision : Nat)
  | uploadPlan (plan : UploadPlan)
  | blockPlan (blocks : List PlannedBlock)
  | pageReceipt (receipt : PageReceipt)
  | commit (result : CommitResult)
  | handle (handle : HandleMessage)
  | readLease (readId : Id) (snapshot : SnapshotRef) (expiresAtUnixMs : Nat)
  | fence (fence : Fence)
  | writePlan (plan : WritePlan)
  | task (status : TaskStatus)
  | receipt (receipt : DurableReceipt)

/-- The key of the ledger, `epoch:user:request_id`. -/
abbrev LedgerKey := Id ×ₗ Id ×ₗ Id

/-- A remembered request and its reply. -/
structure LedgerEntry where
  key : LedgerKey
  method : Method
  digest : Digest
  response : Response
  passwordVerifier : Option Digest

instance : Keyed LedgerEntry LedgerKey := ⟨LedgerEntry.key⟩

@[simp] theorem key_ledgerEntry (r : LedgerEntry) : Keyed.key r = r.key := rfl

end Dfsha
