import Dfsha.World
import Mathlib.Data.List.Sort

/-!
# Data nodes, copies and protection

What the control knows of its data nodes: which of them it may use, how much space is
taken or promised there, where the copies of a block are, and how many of them count
towards a file's protection.  The functions that choose a node for a new block, order
a copy or a deletion, and confirm a copy are here too.

The classes of controls override one another's methods; where they do, each class has
its own definition here and the dispatch on the profile comes last.
-/

namespace Dfsha

variable (app : App)

/-- `storage_cost`: the space a block of this length may take as a stored object. -/
def storageCost (length : Nat) : Nat :=
  length + 4096 + ((length + chunkBytes - 1) / chunkBytes) * 20

/-- The slack kept free on every volume. -/
def spare : Nat := 1048576

inductive NodeState
  | unavailable | starting | suspect | ready
  deriving DecidableEq, Repr

/-- `DistributedControl.state`. -/
def nodeState (now : Nat) : Option DataNode → NodeState
  | none => .unavailable
  | some n =>
      if n.authorizationDisabled = true ∨ app.unavailableMs < now - n.seen then .unavailable
      else if n.reconciled = false then .starting
      else if app.suspectMs < now - n.seen then .suspect
      else .ready

/-- `state(node) in ('READY', 'SUSPECT')`. -/
def usable (now : Nat) (n : Option DataNode) : Prop :=
  nodeState app now n = .ready ∨ nodeState app now n = .suspect

instance (now : Nat) (n : Option DataNode) : Decidable (usable app now n) :=
  inferInstanceAs (Decidable (_ ∨ _))

/-- `DistributedControl.location`. -/
def locationAt (c : Cluster) (block node : Id) : Option Location :=
  c.locations.get (toLex (block, node))

/-- `Monolith.operation_live`. -/
def operationLive (a : Access) : Option Operation → Bool
  | none => false
  | some op =>
      decide (op.state = .preparing) &&
        if a.epoch.isSome = true ∧ op.kind = .write then
          match a.handles.get op.handle with
          | none => false
          | some h =>
              !h.closed && decide (a.liveHandle h) &&
                op.locks.all fun k =>
                  match a.locks.get k with
                  | none => false
                  | some l => decide (a.liveLock l)
        else decide (a.now < op.expires)

/-- A task that may still act, and is not overdue. -/
def Task.pending (now : Nat) (t : Task) : Bool := t.status.state.active && decide (now < t.expires)

/-! ## Space -/

/-- `DistributedControl.usage`: the space used at a node, and the space promised there. -/
def clusterUsage (w : World) (node : DataNode) : Nat × Nat :=
  let copies := ((w.cluster.locations.all.filter fun x => x.node = node.id).map
    fun x => x.receipt.storedSizeBytes).sum
  let assigned := ((w.cluster.assignments.all.filter fun r =>
    r.node = node.id ∧ (locationAt w.cluster r.id r.node).isNone ∧
      operationLive w.access (w.access.uploads.get r.operation) = true).map
    Assignment.reserved).sum
  let copying := ((w.cluster.tasks.all.filter fun t =>
    t.dest = node.id ∧ t.pending w.access.now = true).map Task.reserved).sum
  (max node.used copies, assigned + copying)

/-- `ReplicatedControl.usage`: planned copies count until a task takes them over. -/
def replicatedUsage (w : World) (node : DataNode) : Nat × Nat :=
  let (used, reserved) := clusterUsage w node
  let planned := ((w.cluster.replicaPlans.all.filter fun p =>
    node.id ∈ p.destinations ∧
      operationLive w.access (w.access.uploads.get p.operation) = true ∧
      (locationAt w.cluster p.id node.id).isNone ∧
      ¬ ∃ t ∈ w.cluster.tasks.all, t.dest = node.id ∧ t.block.blockVersionId = p.id ∧
        t.pending w.access.now = true).map ReplicaPlan.reserved).sum
  (used, reserved + planned)

/-- `usage`, by class. -/
def usage (w : World) (node : DataNode) : Nat × Nat :=
  if app.replicated = true then replicatedUsage w node else clusterUsage w node

/-- A node has room for `cost` more bytes, keeping `slack` of its volume free. -/
def roomFor (w : World) (node : DataNode) (cost slack : Nat) : Prop :=
  (usage app w node).1 + (usage app w node).2 + cost ≤ node.capacity ∧
    (usage app w node).2 + cost + slack ≤ node.free

instance (w : World) (node : DataNode) (cost slack : Nat) :
    Decidable (roomFor app w node cost slack) :=
  inferInstanceAs (Decidable (_ ∧ _))

/-! ## Protection -/

/-- `ReplicatedControl.policy` without `create`. -/
def policyOf (c : Cluster) (file : Id) : Policy :=
  (c.policies.get file).getD ⟨file, 1, 1, 1, .active, 0⟩

/-- `ReplicatedControl.policy(create=True)`. -/
def createPolicy (file : Id) : T Policy := do
  let c ← cluster
  match c.policies.get file with
  | some p => pure p
  | none => do
      need (app.defaultReplicas = 1 ∨ app.defaultReplicas = 3) .invalidArgument
      let p : Policy :=
        ⟨file, app.defaultReplicas, if app.defaultReplicas = 3 then 2 else 1, 1, .active, 0⟩
      putPolicy p
      pure p

/-- `ReplicatedControl.policy`. -/
def policy (file : Id) (create : Bool) : T Policy :=
  if create = true then createPolicy app file
  else do
    let c ← cluster
    pure (policyOf c file)

/-- A copy that counts: verified, of the node's current inventory, at a usable node. -/
def eligibleCopy (c : Cluster) (now : Nat) (block : Id) (l : Location) : Prop :=
  l.block = block ∧ l.health = .verified ∧
    usable app now (c.datanodes.get l.node) ∧
    (c.datanodes.get l.node).map DataNode.inventoryId = some l.inventory

instance (c : Cluster) (now : Nat) (block : Id) (l : Location) :
    Decidable (eligibleCopy app c now block l) :=
  inferInstanceAs (Decidable (_ ∧ _ ∧ _ ∧ _))

/-- `ReplicatedControl.eligible`. -/
def eligible (w : World) (block : Id) : List Location :=
  w.cluster.locations.all.filter fun l => eligibleCopy app w.cluster w.access.now block l

/-- `self.allowed[node]['failure_domain']`. -/
def domainOf (node : Id) : Q Id := do
  let entry ← deref (app.allowed node)
  pure entry.failureDomain

/-- The distinct failure domains of the eligible copies of a block. -/
def eligibleDomains (block : Id) : Q (List Id) := do
  let w ← world
  let domains ← Query.map (eligible app w block) fun l => domainOf app l.node
  pure domains.dedup

/-- `CopyProtection`. -/
structure CopyProtection where
  node : BlockLocation
  receipt : DurableReceipt
  health : Health
  eligible : Bool

/-- `BlockProtection`. -/
structure BlockProtection where
  block : BlockRef
  target : Nat
  confirmed : Nat
  eligible : Nat
  copies : List CopyProtection
  pendingTasks : Nat

/-- `ReplicatedControl.protection`. -/
def protection (ref : BlockRef) (policy : Policy) : Q BlockProtection := do
  let w ← world
  let identity := ref.blockVersionId
  let nodes := (eligible app w identity).map Location.node
  let receipts := ((w.cluster.durability.get identity).map Durability.receipts).getD []
  let domains := receipts.filterMap fun r => (app.allowed r.1).map AllowedNode.failureDomain
  let copies ← Query.map (w.cluster.locations.all.filter fun x => x.block = identity) fun x => do
    let node ← deref (w.cluster.datanodes.get x.node)
    pure (⟨node.location, x.receipt, x.health, x.node ∈ nodes⟩ : CopyProtection)
  let pending := (w.cluster.tasks.all.filter fun t =>
    t.block.blockVersionId = identity ∧ t.pending w.access.now = true).length
  pure ⟨((w.access.blocks.get identity).map Block.ref).getD ref, policy.r,
    domains.dedup.length, nodes.dedup.length, copies, pending⟩

/-- `ReplicatedControl.validate_policy`. -/
def validatePolicy (op : Option Operation) : Q Unit := do
  let c ← cluster
  let op ← needSome op .notFound
  let policy := policyOf c op.file
  need ((op.policy.getD policy).revision = policy.revision ∧ policy.state ≠ .promoting)
    .versionConflict

/-- `ReplicatedControl.require_durable`. -/
def requireDurable (op : Operation) (block : BlockRef) : Q Unit := do
  validatePolicy (some op)
  let c ← cluster
  let p := policyOf c op.file
  let status ← protection app block p
  let active ← eligibleDomains app block.blockVersionId
  need (p.w ≤ status.confirmed ∧ p.w ≤ active.length) .insufficientReplicas

/-- `ReplicatedControl.policy_result`. -/
def policyResult (op : Operation) (result : CommitResult) : T CommitResult := do
  let c ← cluster
  let p := policyOf c op.file
  let a ← access
  let snap ← deref (a.snapshots.get result.snapshot.manifestRoot)
  Tx.each snap.blocks fun ref => do
    let w ← world
    need (eligible app w ref.blockVersionId ≠ []) .dataUnavailable
  let w ← world
  let degraded := snap.blocks.any fun b => decide ((eligible app w b.blockVersionId).length < p.r)
  let result :=
    { result with targetReplicas := p.r, minimumDurable := p.w, degraded := degraded }
  putUpload { op with result := some result }
  pure result

/-- `ReplicatedControl.useful`: every block a reader or a pending publication needs. -/
def useful (a : Access) : List BlockRef :=
  let pins := (a.nodes.all.filterMap fun n => if n.alive = true then n.snapshot else none) ++
    (a.handles.all.filter fun h => h.closed = false ∧ a.liveHandle h).map Handle.snapshot
  ((a.snapshots.all.filter fun s => s.id ∈ pins).flatMap Snapshot.blocks) ++
    (a.uploads.all.filter fun op => operationLive a (some op)).flatMap
      fun op => op.allocations.map Prod.snd

/-- A block version is among the useful ones. -/
def isUseful (a : Access) (block : Id) : Bool :=
  (useful a).any fun b => b.blockVersionId = block

/-! ## Tasks and retirements -/

/-- `new_task`; the replicated control also names its epoch and generation. -/
def newTask (kind : TaskKind) (block : BlockRef) (src dest : Id) : T Task := do
  let id ← draw app
  let now ← now
  let w ← world
  let task : Task :=
    { id := id, kind := kind, block := block, src := src, dest := dest,
      expires := now + 300000, status := ⟨id, .accepted, none, none⟩, source := none,
      destination := none, receipt := none, reserved := 0, writeOperation := none,
      owner := none, generation := 0, attempts := 0, nextRun := 0, replaceReceipt := 0,
      expectedReceiptId := 0, dispatched := false, cleanupChecked := false }
  if app.replicated = true then
    pure
      { task with
        owner := some (w.access.epoch.getD 0), generation := w.maintenanceGeneration,
        nextRun := now }
  else pure task

/-- `DistributedControl.retire_copy`. -/
def clusterRetireCopy (ref : BlockRef) (node : Id) : T Unit := do
  let c ← cluster
  if (c.retirements.get (toLex (ref.blockVersionId, node))).isSome = true then
    pure ()
  else do
    let task ← newTask app .delete ref 0 node
    putTask task
    putRetirement ⟨ref.blockVersionId, node, task.id⟩

/-- `ReplicatedControl.retire_copy`: a failed order, or one of an earlier epoch, is
given again. -/
def replicatedRetireCopy (ref : BlockRef) (node : Id) : T Unit := do
  let c ← cluster
  let a ← access
  let previous := (c.retirements.get (toLex (ref.blockVersionId, node))).bind
    fun r => c.tasks.get r.task
  let stands : Bool := match previous with
    | none => false
    | some t => t.status.state ≠ .failed ∧ t.owner = some (a.epoch.getD 0)
  if stands = true then
    pure ()
  else do
    let task ← newTask app .delete ref 0 node
    let expected := ((locationAt c ref.blockVersionId node).map
      fun l => l.receipt.receiptId).getD 0
    putTask { task with expectedReceiptId := expected }
    putRetirement ⟨ref.blockVersionId, node, task.id⟩

/-- `retire_copy`, by class. -/
def retireCopy (ref : BlockRef) (node : Id) : T Unit :=
  if app.replicated = true then replicatedRetireCopy app ref node
  else clusterRetireCopy app ref node

/-- `DistributedControl.retire_block`, over `Monolith.retire_block`. -/
def clusterRetireBlock (block : Block) : T Unit := do
  let c ← cluster
  Tx.each c.locations.all fun loc => do
    if loc.block = block.id then do
      retireCopy app block.ref loc.node
      deleteLocation (toLex (loc.block, loc.node))
    else pure ()
  deleteBlock block.id

/-- `retire_block`, by class. -/
def retireBlock (block : Block) : T Unit :=
  match app.profile with
  | .monolith => deleteBlock block.id
  | .distributed | .rf3 => clusterRetireBlock app block
  | .replicated => do
      let now ← now
      putRetired ⟨block.id, block.ref, now⟩
      clusterRetireBlock app block

/-- `confirm_location`; the replicated control refuses a retired block and remembers
every receipt. -/
def confirmLocation (receipt : DurableReceipt) (inventory : Id) : T Unit := do
  let block := receipt.block.blockVersionId
  let a ← access
  need (app.replicated = true → (a.retired.get block).isNone) .versionConflict
  putLocation ⟨block, receipt.nodeId, receipt, inventory, .verified, 0⟩
  if app.replicated = true then do
    let c ← cluster
    let receipts := ((c.durability.get block).map Durability.receipts).getD []
    putDurability ⟨block, (receipt.nodeId, receipt) ::
      receipts.filter fun r => r.1 ≠ receipt.nodeId⟩
  else pure ()

/-! ## Placement -/

/-- What a plan is bound to: an operation, or a handle. -/
structure Binding where
  id : Id
  session : Id
  expires : Nat
  reserved : Nat
  file : Id
  /-- There is no base: the file's first policy is created on the way. -/
  fresh : Bool

def Operation.binding (op : Operation) : Binding :=
  ⟨op.id, op.session, op.expires, op.reserved, op.file, op.base.isNone⟩

/-- `DistributedControl.capability`. -/
def capability (user : User) (binding : Binding) (block : BlockRef) (node : DataNode)
    (action : Action) : Digest :=
  app.hmac (.data user.id binding.id block.blockVersionId action node.id
    node.location.bootGeneration binding.session)

/-- A plan without a patch. -/
def plainPlan (block : BlockRef) (locations : List BlockLocation) (grants : List BlockGrant)
    (reservation : Option StorageReservation) : PlannedBlock :=
  ⟨block, locations, grants, 0, false, 0, 0, 0, reservation⟩

/-- The failure domain of the monolith's own volume, `'local-host'`. -/
def localHost : Id := 1

/-- `Monolith.plan` for a write. -/
def monolithPlan (block : BlockRef) (user : User) (binding : Binding) : PlannedBlock :=
  plainPlan block [⟨app.node, 1, 0, 0, localHost⟩]
    [{ capability := app.hmac (.monolith user.id binding.id block.blockVersionId .write),
       action := .writeData, block := block, nodeId := app.node, offset := 0,
       length := block.sizeBytes, expiresAtUnixMs := binding.expires }]
    (some ⟨binding.id, app.node, binding.id, binding.reserved, binding.expires⟩)

/-- The occupancy band of a node, in twentieths. -/
def band (w : World) (node : DataNode) : Nat :=
  20 * ((usage app w node).1 + (usage app w node).2) / node.capacity

/-- The ready nodes with room for a block, with the keys they are chosen by. -/
def candidates (w : World) (cost : Nat) : List (Nat × Nat × DataNode) :=
  (w.cluster.datanodes.all.filter fun node =>
    nodeState app w.access.now (some node) = .ready ∧ roomFor app w node cost spare).map
    fun node => (band app w node, node.active, node)

/-- The node a new block goes to: of the least occupied and least busy ones, the next in turn. -/
def choose (last : Id) (l : List (Nat × Nat × DataNode)) : Option DataNode :=
  let best := l.foldl (fun (m : Option (Nat × Nat)) x =>
    match m with
    | none => some (x.1, x.2.1)
    | some b => if x.1 < b.1 ∨ (x.1 = b.1 ∧ x.2.1 < b.2) then some (x.1, x.2.1) else some b) none
  let pool := (l.filter fun x => best = some (x.1, x.2.1)).map fun x => x.2.2
  match pool.find? fun x => last < x.id with
  | some node => some node
  | none => pool.head?

/-- The assignment of a new block, made if there is none. -/
def assign (block : BlockRef) (operation : Id) : T Assignment := do
  let w ← world
  match w.cluster.assignments.get block.blockVersionId with
  | some assignment => pure assignment
  | none => do
      let cost := storageCost block.sizeBytes
      let chosen ← needSome (choose w.cluster.placementLast (candidates app w cost)) .noSpace
      onCluster fun c => { c with placementLast := chosen.id }
      let assignment : Assignment :=
        ⟨block.blockVersionId, chosen.id, operation, chosen.location.bootGeneration, cost⟩
      putAssignment assignment
      pure assignment

/-- `DistributedControl.plan` for a write. -/
def clusterPlan (block : BlockRef) (user : User) (binding : Binding) : T PlannedBlock := do
  let assignment ← assign app block binding.id
  let w ← world
  let target := w.cluster.datanodes.get assignment.node
  need (usable app w.access.now target ∧
    target.map (fun n => n.location.bootGeneration) = some assignment.generation)
    .dataUnavailable
  let target ← deref target
  pure (plainPlan block [target.location]
    [{ capability := capability app user binding block target .write, action := .writeData,
       block := block, nodeId := target.id, offset := 0, length := block.sizeBytes,
       expiresAtUnixMs := binding.expires }]
    (some ⟨block.blockVersionId, target.id, binding.id, assignment.reserved, binding.expires⟩))

/-- Nodes by how full they are, then by load, then by identifier. -/
def emptier (w : World) (x y : DataNode) : Prop :=
  let ux := (usage app w x).1 + (usage app w x).2
  let uy := (usage app w y).1 + (usage app w y).2
  ux * y.capacity < uy * x.capacity ∨
    (ux * y.capacity = uy * x.capacity ∧ (x.active < y.active ∨ x.active = y.active ∧ x.id ≤ y.id))

instance (w : World) : DecidableRel (emptier app w) := fun _ _ =>
  inferInstanceAs (Decidable (_ ∨ (_ ∧ (_ ∨ _ ∧ _))))

/-- The destinations of the extra copies: one node in each failure domain not yet used,
until there are enough. -/
def destinations (r : Nat) : List DataNode → List Id → List Id → Q (List Id × List Id)
  | [], domains, chosen => pure (domains, chosen)
  | node :: rest, domains, chosen => do
      let domain ← domainOf app node.id
      if domain ∉ domains ∧ domains.length < r then
        destinations r rest (domains ++ [domain]) (chosen ++ [node.id])
      else destinations r rest domains chosen

/-- `ReplicatedControl.reserve_replicas`. -/
def reserveReplicas (block : BlockRef) (operation : Id) (policy : Policy) : T Unit := do
  let w ← world
  if (w.cluster.replicaPlans.get block.blockVersionId).isSome = true then
    pure ()
  else do
    let primary ← deref (w.cluster.assignments.get block.blockVersionId)
    let first ← domainOf app primary.node
    let cost := storageCost block.sizeBytes
    let nodes := (w.cluster.datanodes.all.filter fun node =>
      nodeState app w.access.now (some node) = .ready ∧ roomFor app w node cost spare).insertionSort
      (emptier app w)
    let (domains, chosen) ← destinations app policy.r nodes [first] []
    need (policy.w ≤ domains.length) .insufficientReplicas
    putReplicaPlan ⟨block.blockVersionId, operation, chosen, cost⟩

/-- `plan` for a write, by class. -/
def plan (block : BlockRef) (user : User) (binding : Binding) : T PlannedBlock :=
  match app.profile with
  | .monolith => pure (monolithPlan app block user binding)
  | .distributed | .rf3 => clusterPlan app block user binding
  | .replicated => do
      let result ← clusterPlan app block user binding
      let p ← policy app binding.file binding.fresh
      reserveReplicas app block binding.id p
      pure result

end Dfsha
