import Dfsha.Control.Access

/-!
# Where the blocks of a range are

A reader asks for the blocks of a range of its snapshot, page by page.  Each block comes with the
nodes that have it, and with a grant for the part of the block that lies in the range.  The cursor
of a page is the number of blocks of the range that came before it.

## Main definitions

* `readPlan` — `plan` for a reading, by class.
* `resolveBlocks` — `AccessQueries.ResolveBlocks`.
-/

namespace Dfsha

variable (app : App)

/-- A cursor of `ResolveBlocks`: unset, what `int` makes of it, or text that is no number. -/
inductive BlockCursor
  | unset
  | number (n : Int)
  | malformed
  deriving DecidableEq, Repr

structure ResolveBlocksRequest where
  handleId : Id
  snapshot : SnapshotRef
  offset : Option Nat
  length : Option Nat
  limit : Nat
  cursor : BlockCursor
  /-- `0` when the field is unset. -/
  readId : Id
  deriving DecidableEq, Repr

structure BlockPlan where
  blocks : List PlannedBlock
  snapshot : SnapshotRef
  nextCursor : BlockCursor
  deriving DecidableEq, Repr

/-! ## Plans -/

/-- `DistributedControl.plan` for a reading: every usable node that has the block. -/
def clusterReadPlan (block : BlockRef) (user : User) (h : Handle) : Q PlannedBlock := do
  let w ← world
  let nodes := ((w.cluster.locations.all.filter fun l => l.block = block.blockVersionId).filterMap
    fun l => w.cluster.datanodes.get l.node).filter fun node => usable app w.access.now (some node)
  need (nodes ≠ []) .dataUnavailable
  pure (plainPlan block (nodes.map DataNode.location)
    (nodes.map fun node =>
      { capability := app.hmac (.data user.id h.id block.blockVersionId .read node.id
          node.location.bootGeneration h.session),
        action := .readData, block := block, nodeId := node.id, offset := 0,
        length := block.sizeBytes, expiresAtUnixMs := h.expires }) none)

/-- Every copy that was ever reported is known to be bad. -/
def lost (c : Cluster) (block : Id) : Prop :=
  let known := c.locations.all.filter fun l => l.block = block
  known ≠ [] ∧
    known.length = (((c.durability.get block).map Durability.receipts).getD []).length ∧
    ∀ l ∈ known, l.health ≠ .verified

instance (c : Cluster) (block : Id) : Decidable (lost c block) :=
  inferInstanceAs (Decidable (_ ∧ _ ∧ ∀ l ∈ _, _))

/-- `plan` for a reading, by class: only eligible copies count where files are protected. -/
def readPlan (block : BlockRef) (user : User) (h : Handle) : Q PlannedBlock := do
  let result ← clusterReadPlan app block user h
  if app.replicated = true then do
    let w ← world
    let nodes := (eligible app w block.blockVersionId).map Location.node
    let pairs := (result.locations.zip result.grants).filter fun x => x.1.nodeId ∈ nodes
    need (pairs ≠ [])
      (if lost w.cluster block.blockVersionId then .dataLoss else .dataUnavailable)
    let pairs := pairs.rotate (block.blockIndex % pairs.length)
    pure { result with locations := pairs.map Prod.fst, grants := pairs.map Prod.snd }
  else pure result

/-! ## Ranges -/

/-- `validate_read`. -/
def validateRead (h : Handle) (identity : Id) (offset length : Nat) : Q Unit := do
  let a ← access
  let stop ← checkedRange offset length none
  let record ← needSome (a.reads.get identity) .handleBusy
  need (record.handle = h.id ∧ record.session = h.session ∧ h.busy = some identity ∧
    record.closed = false) .handleBusy
  need (record.offset ≤ offset ∧ stop ≤ record.offset + record.length) .permissionDenied

/-- A grant for a part of a block. -/
def rangeGrant (user : User) (h : Handle) (readId : Id) (block : BlockRef) (low length : Nat)
    (grant : BlockGrant) : Q BlockGrant := do
  let w ← world
  let node ← deref (w.cluster.datanodes.get grant.nodeId)
  pure { grant with
    offset := low, length := length,
    capability := app.hmac (.data user.id h.id block.blockVersionId (.readRange low length readId)
      node.id node.location.bootGeneration h.session) }

/-- A block of a range, with grants for the part that lies in the range. -/
def planRange (user : User) (h : Handle) (readId : Id) (offset stop size : Nat)
    (block : BlockRef) : Q PlannedBlock := do
  let plan ← readPlan app block user h
  let low := offset - block.blockIndex * size
  let high : Int := min (block.sizeBytes : Int) ((stop : Int) - (block.blockIndex * size : Nat))
  -- a negative length does not fit the field
  let length ← deref (if (low : Int) ≤ high then some (high - low).toNat else none)
  let grants ← Query.map plan.grants (rangeGrant app user h readId block low length)
  pure { plan with grants := grants }

/-- The number of blocks before a page. -/
def skipped : BlockCursor → Q Int
  | .unset => pure 0
  | .number n => pure n
  | .malformed => Query.fail (.fault .invalidArgument)

/-- The first block of a range, and the one after its last. -/
def blockSpan (size offset length stop : Nat) : Nat × Nat :=
  (offset / size,
    if length ≠ 0 ∧ offset < stop then (stop + size - 1) / size else offset / size)

/-- `AccessQueries.ResolveBlocks`. -/
def resolveBlocks (user : User) (session : Session) (req : ResolveBlocksRequest) :
    Q BlockPlan := do
  let (h, snap) ← accessHandle app user session req.handleId
  need (h.mode ∈ readModes) .permissionDenied
  need (h.busy = none ∨ h.busy = some req.readId) .handleBusy
  (if req.readId ≠ 0 then
    validateRead h req.readId (req.offset.getD 0) (req.length.getD 0)
  else pure ())
  need (req.snapshot = snap.ref) .versionConflict
  let offset := req.offset.getD 0
  let length := req.length.getD (req.snapshot.sizeBytes - offset)
  let stop ← checkedRange offset length none
  let stop := min stop req.snapshot.sizeBytes
  need (1 ≤ req.limit ∧ req.limit ≤ 64) .invalidArgument
  let cursor ← skipped req.cursor
  let size := req.snapshot.blockSizeBytes
  let span := blockSpan size offset length stop
  need (0 ≤ cursor ∧ cursor ≤ (span.2 - span.1 : Nat)) .invalidArgument
  let first := span.1 + cursor.toNat
  let selected := (snap.blocks.take (min span.2 (first + req.limit))).drop first
  let planned ← Query.map selected (planRange app user h req.readId offset stop size)
  let next := cursor.toNat + planned.length
  pure ⟨planned, req.snapshot, if span.1 + next < span.2 then .number next else .unset⟩

end Dfsha
