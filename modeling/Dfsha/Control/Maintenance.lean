import Dfsha.Control.Nodes

/-!
# Maintenance and start

`collect` ends the operations whose leases are gone, closes expired handles, drops the
snapshots nobody can reach and retires the blocks of none of the others.  Each liveness
it asks about is a statement of its own: the clock moves while it works.

`reconcile`, `scrub`, `cleanOrphan` and `dispatched` are the other transactions of a
maintenance pass; the calls to data nodes between them are not, so what they answer is
an argument here.

A control starts with one collection without leases, a new lease epoch, a reset of what
it knows of its nodes and, if replicated, of its tasks.
-/

namespace Dfsha

variable (app : App)

/-! ## Collection -/

/-- A write whose handle or one of whose locks is not live any more. -/
def writeExpired (a : Access) (op : Operation) : Bool :=
  match a.handles.get op.handle with
  | none => true
  | some h =>
      !decide (a.liveHandle h) || op.locks.any fun k =>
        match a.locks.get k with
        | none => true
        | some l => !decide (a.liveLock l)

/-- Expire a write in preparation that lost its leases. -/
def expireWrite (op : Operation) : T Operation := do
  let a ← access
  if op.kind = .write ∧ op.state = .preparing ∧ writeExpired a op = true then do
    putUpload (op.ended .expired)
    pure (op.ended .expired)
  else pure op

/-- The first pass of `collect`: writes without their leases end, and every operation that
is over lets go. -/
def expireWrites : T Unit := do
  let a ← access
  Tx.each a.uploads.all fun op => do
    let op ← expireWrite op
    if op.state ≠ .preparing then releaseOperation op else pure ()

/-- The second pass: handles whose lease is over are closed. -/
def closeExpired : T Unit := do
  let a ← access
  Tx.each a.handles.all fun h => do
    let a ← access
    if a.liveHandle h then pure () else putHandle { h with closed := true }

/-- The third pass: operations that can no longer commit end; a restart ends them all. -/
def endOperations (restart : Bool) : T Unit := do
  let a ← access
  Tx.each a.uploads.all fun op => do
    let a ← access
    if op.state = .preparing ∧ (restart = true ∨ operationLive a (some op) = false) then
      putUpload (op.ended (if restart = true then .aborted else .expired))
    else pure ()

/-- A handle keeps its snapshot. -/
def pinning (h : Handle) : Q Bool := do
  let a ← access
  pure (decide (h.closed = false ∧
    if a.epoch.isSome = true then a.liveHandle h else a.now < h.expires))

/-- The snapshots that must stay: those of open handles and of live files. -/
def pinned : T (List Id) := do
  let a ← access
  let handles ← Tx.select a.handles.all pinning
  let a ← access
  pure (handles.map Handle.snapshot ++
    a.nodes.all.filterMap fun n => if n.alive = true then n.snapshot else none)

/-- Drop the snapshots that are not pinned; the blocks of the others are retained. -/
def dropSnapshots (pins : List Id) : T (List Id) := do
  let a ← access
  Tx.each a.snapshots.all fun snap =>
    if snap.id ∈ pins then pure () else deleteSnapshot snap.id
  pure ((a.snapshots.all.filter fun s => s.id ∈ pins).flatMap
    fun s => s.blocks.map BlockRef.blockVersionId)

/-- The metadata transaction of `Monolith.collect`.  Returns the block versions that the
sweep of the local store must leave. -/
def collectMetadata (restart : Bool) : T (List Id) := do
  let a ← access
  (if a.epoch.isSome = true then do
    expireWrites
    closeExpired
  else pure ())
  endOperations restart
  let pins ← pinned
  let w ← world
  -- A copy between nodes pins its source even if the name is gone meanwhile.
  let copying := (w.cluster.tasks.all.filter fun t =>
    t.kind = .copy ∧ t.pending w.access.now = true).map fun t => t.block.blockVersionId
  let kept ← dropSnapshots pins
  let a ← access
  let allocated := (a.uploads.all.filter fun op => op.state = .preparing).flatMap
    fun op => op.allocations.map fun x => x.2.blockVersionId
  let retained := copying ++ kept ++ allocated
  Tx.each a.blocks.all fun block =>
    if block.id ∈ retained then pure () else retireBlock app block
  pure retained

/-- The copy of a base for a write that is over fails. -/
def failWriteCopies : T Unit := do
  let c ← cluster
  Tx.each c.tasks.all fun task => do
    let a ← access
    match task.writeOperation with
    | none => pure ()
    | some opId =>
        if task.status.state.active = true ∧
            (a.uploads.get opId).map Operation.state ≠ some .preparing then
          putTask { task with
            reserved := 0, status := ⟨task.id, .failed, none, some .operationExpired⟩ }
        else pure ()

/-- Blocks of operations that ended without them are deleted where they were assigned. -/
def retireAssigned : T Unit := do
  let c ← cluster
  Tx.each c.assignments.all fun r => do
    let w ← world
    match w.access.uploads.get r.operation with
    | none => pure ()
    | some op =>
        match op.allocations.find? fun x => x.2.blockVersionId = r.id with
        | none => pure ()
        | some x =>
            if (op.state = .aborted ∨ op.state = .expired) ∧
                (locationAt w.cluster r.id r.node).isNone = true then
              retireCopy app x.2 r.node
            else pure ()

/-- The second transaction of `DistributedControl.collect`. -/
def collectTasks : T Unit := do
  failWriteCopies
  retireAssigned app
  let c ← cluster
  Tx.each c.tasks.all fun task =>
    if task.kind = .copy ∧ task.status.state = .failed then retireCopy app task.block task.dest
    else pure ()

/-- One end of a task is gone, or another incarnation. -/
def endUnavailable (w : World) (planned : Option BlockLocation) : Bool :=
  match planned with
  | none => false
  | some loc =>
      match w.cluster.datanodes.get loc.nodeId with
      | none => true
      | some node =>
          decide (nodeState app w.access.now (some node) = .unavailable) ||
            decide (node.location.bootGeneration ≠ loc.bootGeneration)

/-- The first transaction of `ReplicatedControl.collect`: copies that cannot be finished,
or that nobody needs any more, fail. -/
def failCopies : T Unit := do
  let w ← world
  let wanted := (useful w.access).map BlockRef.blockVersionId
  Tx.each w.cluster.tasks.all fun task => do
    let w ← world
    if task.kind = .copy ∧ task.status.state.active = true ∧
        (task.block.blockVersionId ∉ wanted ∨ task.owner ≠ some (w.access.epoch.getD 0) ∨
          task.expires ≤ w.access.now ∨ endUnavailable app w task.source = true ∨
          endUnavailable app w task.destination = true) then
      putTask { task with
        expires := 0, reserved := 0, status := { task.status with state := .failed } }
    else pure ()

/-! ## Repair -/

/-- The useful blocks, one entry for each version. -/
def usefulEntries (a : Access) : List BlockRef :=
  (useful a).foldl (fun acc b =>
    if acc.any fun x => x.blockVersionId = b.blockVersionId then
      acc.map fun x => if x.blockVersionId = b.blockVersionId then b else x
    else acc ++ [b]) []

/-- The ready nodes a block could be copied to. -/
def repairNodes (w : World) (record : Block) (domains : List Id) : Q (List DataNode) := do
  let plan := w.cluster.replicaPlans.get record.id
  let cost := storageCost record.ref.sizeBytes
  let ready := w.cluster.datanodes.all.filter fun node =>
    nodeState app w.access.now (some node) = .ready
  let tagged ← Query.map ready fun node => do
    let domain ← domainOf app node.id
    pure (node, domain)
  let free := (tagged.filter fun x => x.2 ∉ domains).map Prod.fst
  pure ((free.filter fun node =>
    let reservation := plan.any fun p => decide (node.id ∈ p.destinations) &&
      operationLive w.access (w.access.uploads.get p.operation)
    decide ((usage app w node).1 + (usage app w node).2 + (if reservation then 0 else cost) ≤
      node.capacity ∧ (usage app w node).2 + cost ≤ node.free)).insertionSort
    fun x y => band app w x < band app w y ∨ (band app w x = band app w y ∧
      (x.active < y.active ∨ x.active = y.active ∧ x.id ≤ y.id)))

/-- Order one copy, unless its domain is covered or its turn has not come. -/
def repairAt (record : Block) (source : Location) (r : Nat) (domains : List Id)
    (node : DataNode) : T (List Id) := do
  let domain ← domainOf app node.id
  let w ← world
  let retry := (w.cluster.repairRetries.get (toLex (record.id, node.id))).getD
    ⟨record.id, node.id, 0, 0⟩
  if r ≤ domains.length ∨ domain ∈ domains ∨ w.access.now < retry.nextRun then
    pure domains
  else do
    let sourceNode ← deref (w.cluster.datanodes.get source.node)
    let task ← newTask app .copy record.ref source.node node.id
    let replaced := ((locationAt w.cluster record.id node.id).map fun old =>
      if old.health = .corrupt ∨ old.health = .missing then old.receipt.receiptId else 0).getD 0
    putTask
      { task with
        source := some sourceNode.location, destination := some node.location,
        receipt := some source.receipt, reserved := storageCost record.ref.sizeBytes,
        replaceReceipt := replaced }
    let now ← now
    putRepairRetry ⟨record.id, node.id, retry.attempts + 1,
      now + min 30000 (1000 * 2 ^ min retry.attempts 5)⟩
    pure (domains ++ [domain])

/-- Repair one block, if it has a source and too few domains. -/
def repairBlock (ref : BlockRef) (record : Block) : T Unit := do
  let w ← world
  let p := policyOf w.cluster ref.fileId
  let sources := eligible app w record.id
  let held ← Query.map sources fun l => domainOf app l.node
  let coming ← Query.map (w.cluster.tasks.all.filter fun t =>
    t.kind = .copy ∧ t.block.blockVersionId = record.id ∧ t.pending w.access.now = true)
    fun t => domainOf app t.dest
  let domains := (held ++ coming).dedup
  match sources with
  | [] => pure ()
  | source :: _ =>
      if p.r ≤ domains.length then pure ()
      else do
        let nodes ← repairNodes app w record domains
        let _ ← Tx.fold nodes (repairAt app record source p.r) domains
        pure ()

/-- A promotion ends when every useful block of the file has its copies, or in time. -/
def settlePromotion (wanted : List BlockRef) (p : Policy) : T Unit := do
  let w ← world
  if p.state = .promoting then
    if (wanted.filter fun b => b.fileId = p.id).all fun b =>
        decide (p.r ≤ (eligible app w b.blockVersionId).length) then
      putPolicy { p with state := .active }
    else if p.until_ ≤ w.access.now then putPolicy { p with state := .promotionBlocked }
    else putPolicy p
  else pure ()

/-- `reconcile`. -/
def reconcile : T Unit := do
  let a ← access
  let wanted := usefulEntries a
  Tx.each wanted fun ref => do
    let a ← access
    match a.blocks.get ref.blockVersionId with
    | none => pure ()
    | some record =>
        if (a.retired.get ref.blockVersionId).isSome = true then pure ()
        else repairBlock app ref record
  let c ← cluster
  Tx.each c.policies.all (settlePromotion app wanted)

/-- The second transaction of `scrub`: what was found out about a copy. -/
def scrubbed (loc : Location) (health : Health) : T Unit := do
  let w ← world
  match locationAt w.cluster loc.block loc.node with
  | none => pure ()
  | some current =>
      if current.receipt = loc.receipt then
        putLocation { current with health := health, checkedAt := w.access.now }
      else pure ()

/-- Delete the object of a failed copy that was made after all. -/
def retireOrphan (task : Task) (receipt : DurableReceipt) : T Unit := do
  retireCopy app task.block task.dest
  let c ← cluster
  let retirement ← deref (c.retirements.get (toLex (task.block.blockVersionId, task.dest)))
  let deletion ← deref (c.tasks.get retirement.task)
  putTask { deletion with expectedReceiptId := receipt.receiptId }

/-- The second transaction of `clean_orphan_copy`: what the destination said of the task. -/
def cleanOrphan (task : Task) (status : TaskStatus) : T Unit := do
  let a ← access
  (match status.receipt with
    | some receipt =>
        if status.state = .finished ∧ receipt.block = task.block ∧
            isUseful a task.block.blockVersionId = false then
          retireOrphan app task receipt
        else pure ()
    | none => pure ())
  if status.state = .finished ∨ status.state = .failed then do
    let c ← cluster
    let current ← deref (c.tasks.get task.id)
    putTask { current with cleanupChecked := true }
  else pure ()

/-- The bookkeeping after a task was dispatched, in `ReplicatedControl.tick`. -/
def dispatched (taskId : Id) : T Unit := do
  let w ← world
  let current ← deref (w.cluster.tasks.get taskId)
  let attempts := current.attempts + 1
  putTask
    { current with
      attempts := attempts, dispatched := true,
      nextRun := w.access.now + min 10000 (500 * 2 ^ min attempts 4) }

/-- An overdue task, in `DistributedControl.tick`: a deletion is given more time. -/
def overdue (taskId : Id) : T Unit := do
  let w ← world
  let current ← deref (w.cluster.tasks.get taskId)
  if current.status.state.active = true then
    if current.kind = .delete then putTask { current with expires := w.access.now + 300000 }
    else
      putTask { current with status := ⟨current.id, .failed, none, some .operationExpired⟩ }
  else pure ()

/-! ## Start -/

/-- Start a lease authority: a new epoch, no open handle, no lock. -/
def startLeases : T Unit := do
  let id ← draw app
  Tx.modify fun w => { w with generation := w.generation + 1 }
  let a ← access
  Tx.each a.handles.all fun h => putHandle { h with closed := true }
  Tx.each a.locks.all fun l => deleteLock l.id
  onAccess fun a => { a with epoch := some id }

/-- Forget what was known of the nodes until they report again. -/
def startNodes : T Unit := do
  let c ← cluster
  Tx.each c.datanodes.all fun node => putDatanode { node with seen := 0, reconciled := false }

/-- Every file has a policy, every known copy is remembered, no task survives a restart. -/
def startReplicated : T Unit := do
  Tx.modify fun w => { w with maintenanceGeneration := w.generation }
  let a ← access
  Tx.each a.nodes.all fun node => do
    let c ← cluster
    if node.kind = .file then putPolicy (policyOf c node.id) else pure ()
  let c ← cluster
  Tx.each c.locations.all fun loc => do
    let c ← cluster
    let receipts := ((c.durability.get loc.block).map Durability.receipts).getD []
    putDurability ⟨loc.block,
      if (receipts.lookup loc.node).isSome = true then receipts
      else receipts ++ [(loc.node, loc.receipt)]⟩
  Tx.each c.tasks.all fun task =>
    if task.status.state.active = true then
      putTask { task with
        expires := 0, reserved := 0, status := { task.status with state := .failed } }
    else pure ()

end Dfsha
