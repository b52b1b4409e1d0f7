import Dfsha.Control.Commands
import Dfsha.Control.Ledger

/-!
# The blocks of a control without data nodes

`Monolith.PutBlock` receives a block in two transactions.  The first checks the request
against the operation; then the block is written to the control's own volume, outside any
transaction; the second checks the operation again and records the block.  A request between
the two is among those that are admitted.
-/

namespace Dfsha

variable (app : App)

/-- What the digest of a `PutBlock` request is computed from. -/
def PutBlockHeader.intended (h : PutBlockHeader) : Intended :=
  .putBlock h.operation h.block h.fence

/-- The checks of the first transaction of `PutBlock` on a request that is not answered from
the ledger. -/
def admissible (user : User) (session : Session) (header : PutBlockHeader) : Q Unit := do
  let op ← operation app user session header.operation (some header.fence)
  need (op.allocation header.block.blockIndex = some header.block) .versionConflict
  need (app.hmac (.monolith user.id op.id header.block.blockVersionId .write) = header.capability)
    .permissionDenied
  let a ← access
  need ((a.blocks.get header.block.blockVersionId).isNone = true) .alreadyExists

/-- The first transaction of `Monolith.PutBlock`. -/
def admitBlock (token : Id) (header : PutBlockHeader) : T Unit := do
  let (user, session) ← authenticated app token header.context
  let previous ← replay app user.id header.context header.intended .putBlock none
  match previous with
  | some _ => pure ()
  | none => do
      let _ ← admissible app user session header
      onAccess fun a => { a with admitted := header :: a.admitted }

/-- The receipt of a block in the control's own volume. -/
def localReceipt (id : Id) (op : Operation) (header : PutBlockHeader) (stored : Nat)
    (digest : Digest) (now : Nat) : DurableReceipt where
  receiptId := id
  operationId := op.id
  block := header.block
  nodeId := app.node
  bootGeneration := 1
  failureDomain := localHost
  storedSizeBytes := stored
  ciphertextSha256 := digest
  durableAtUnixMs := now

/-- The second transaction of `Monolith.PutBlock`, for a request that was admitted and whose
block is on the volume. -/
def recordBlock (token : Id) (header : PutBlockHeader) (stored : Nat) (digest : Digest) :
    T Unit := do
  let a ← access
  let header ← deref (a.admitted.find? fun h => h = header)
  let receiptId ← draw app
  let durableAt ← now
  let (user, session) ← authenticated app token header.context
  let op ← operation app user session header.operation (some header.fence)
  let receipt := localReceipt app receiptId op header stored digest durableAt
  putBlock ⟨header.block.blockVersionId, header.block.fileId, op.id, header.block, stored, receipt⟩
  putUpload { op with reserved := op.reserved - stored }
  remember app user.id header.context header.intended .putBlock none (.receipt receipt)
  onAccess fun a => { a with admitted := a.admitted.erase header }

end Dfsha
