import Dfsha.Messages
import Dfsha.Lib.Transaction
import Mathlib.Order.Monotone.Defs

/-!
# The state of a control

`Access` holds what the lease protocol is about: the clock, the lease epoch, and the
records of locks, handles, operations, nodes, snapshots and blocks.  `Cluster` holds
what the control knows of its data nodes, `Identity` who may ask for what.  A
`World` is the whole metadata of one control together with the little it keeps in
memory.

Time is a schedule: `Clock` gives the monotonic and the wall-clock reading at every
phase, and each statement of a transaction moves on to the next phase.  Monotonic
readings never decrease; nothing is assumed of the wall clock.

## Main definitions

* `App` — the configuration of a control, with what its constructor refuses as fields.
* `World`, `Q`, `T` — the state, and queries and transactions over it.
* `need`, `deref`, `draw` — the three ways the source's code can fail or draw an id.
-/

namespace Dfsha

/-- The readings of both clocks, by phase. -/
structure Clock where
  /-- `time.monotonic`, in nanoseconds. -/
  monotonic : Nat → Nat
  /-- `now()`, in milliseconds. -/
  wall : Nat → Nat
  /-- The monotonic clock never goes back. -/
  mono : Monotone monotonic

/-! ## Configuration -/

/-- Which class of control runs: each one extends the one before it. -/
inductive Profile
  | monolith | distributed | rf3 | replicated
  deriving DecidableEq, Repr

/-- An entry of `authorized_nodes`. -/
structure AllowedNode where
  identity : Id
  clientEndpoint : Id
  privateEndpoint : Id
  failureDomain : Id
  capacityBytes : Nat
  deriving DecidableEq, Repr

/-- A control's configuration, the settings fixed when its store was initialized, and
the functions it takes from libraries. -/
structure App where
  profile : Profile
  blockSizeBytes : Nat
  maxFileBytes : Nat
  capacityBytes : Nat
  /-- `lock_lease_seconds`, in nanoseconds. -/
  lockLease : Nat
  /-- `handle_lease_seconds`, in nanoseconds. -/
  handleLease : Nat
  /-- Whether `metadata_key_path` is set. -/
  metadataKey : Bool
  /-- Whether the metadata store keeps the unique index on names. -/
  uniqueNames : Bool
  defaultReplicas : Nat
  unavailableMs : Nat
  suspectMs : Nat
  scrubIntervalMs : Nat
  strictContentPermissions : Bool
  allowed : Id → Option AllowedNode
  /-- The n-th identifier drawn by `uid()`. -/
  uuid : Nat → Id
  /-- Whether a received text is an identifier in canonical form. -/
  isUuid : Id → Bool
  sha256 : Bytes → Digest
  manifestHash : List BlockRef → Digest
  intent : Intended → Digest
  hmac : CapabilityText → Digest
  /-- The hash under which a session token is stored. -/
  tokenHash : Id → Id
  passwordHash : Id → Text → Digest
  matches_ : Digest → Text → Bool
  /-- Unicode normalisation form C. -/
  nfc : Text → Text
  blockSize_mem : blockSizeBytes ∈ profiles
  lockLease_pos : 0 < lockLease
  lockLease_le : lockLease ≤ 300000000000
  handleLease_pos : 0 < handleLease
  handleLease_le : handleLease ≤ 3600000000000
  domain_ne : ∀ n a, allowed n = some a → a.failureDomain ≠ 0
  uuid_injective : Function.Injective uuid
  uuid_ne_zero : ∀ n, uuid n ≠ 0
  isUuid_uuid : ∀ n, isUuid (uuid n) = true

/-- The root directory, the second identifier drawn when the store was initialized. -/
def App.root (app : App) : Id := app.uuid 1

/-- `system['epoch']`. -/
def App.epoch (app : App) : Id := app.uuid 2

/-- `system['node']`. -/
def App.node (app : App) : Id := app.uuid 3

/-- Whether this control keeps leases once it has started: `rf3_enabled`. -/
def App.rf3 (app : App) : Bool :=
  match app.profile with
  | .monolith | .distributed => false
  | .rf3 | .replicated => true

/-- Whether this control knows of data nodes. -/
def App.distributed (app : App) : Bool :=
  match app.profile with
  | .monolith => false
  | .distributed | .rf3 | .replicated => true

/-- Whether this control protects files by several copies. -/
def App.replicated (app : App) : Bool :=
  match app.profile with
  | .replicated => true
  | .monolith | .distributed | .rf3 => false

theorem App.replicated_iff {app : App} : app.replicated = true ↔ app.profile = .replicated := by
  unfold App.replicated
  split <;> simp_all

/-! ## State -/

/-- The records of the lease protocol. -/
structure Access where
  clk : Clock
  phase : Nat
  /-- `leases.epoch`; `none` while there is no lease authority. -/
  epoch : Option Id
  /-- How many identifiers were drawn. -/
  issued : Nat
  lockSequence : Nat
  locks : Table Lock
  handles : Table Handle
  reads : Table Read
  uploads : Table Operation
  nodes : Table Node
  snapshots : Table Snapshot
  blocks : Table Block
  retired : Table Retired
  /-- Where a control keeps the blocks itself: the requests of `PutBlock` that passed its first
  transaction, in memory. -/
  admitted : List PutBlockHeader

/-- The records about data nodes, their copies and their tasks. -/
structure Cluster where
  locations : Table Location
  assignments : Table Assignment
  datanodes : Table DataNode
  nodePolicies : Table NodePolicy
  tasks : Table Task
  retirements : Table Retirement
  policies : Table Policy
  durability : Table Durability
  replicaPlans : Table ReplicaPlan
  repairRetries : Table RepairRetry
  /-- `settings['placement']['last']`. -/
  placementLast : Id

/-- A counter of logins in one minute. -/
structure Rate where
  id : Nat
  window : Nat
  count : Nat
  deriving DecidableEq, Repr

/-- A remembered login. -/
structure LoginResult where
  username : Text
  requestId : Id
  session : Id
  deriving DecidableEq, Repr

instance : Keyed Rate Nat := ⟨Rate.id⟩

structure Identity where
  users : Table User
  groups : Table Group
  sessions : Table Session
  rates : Table Rate
  loginResults : List LoginResult

/-- How far a control has started: one stage for each transaction of its constructor. -/
inductive Stage
  | down | collected | swept | leased | registered | serving
  deriving DecidableEq, Repr

/-- The metadata of a control, and what it keeps in memory. -/
structure World where
  access : Access
  cluster : Cluster
  identity : Identity
  ledger : Table LedgerEntry
  /-- `settings['control-epoch']['generation']`. -/
  generation : Nat
  /-- `maintenance_generation`, in memory. -/
  maintenanceGeneration : Nat
  /-- `verified_seals`, in memory. -/
  verifiedSeals : List (Id × Digest)
  /-- Free bytes of the block volume. -/
  diskFree : Nat
  stage : Stage

namespace Access

/-- The monotonic clock. -/
def time (a : Access) : Nat := a.clk.monotonic a.phase

/-- The wall clock. -/
def now (a : Access) : Nat := a.clk.wall a.phase

/-- `live`: the lease was given in this epoch and its deadline is still to come. -/
def live (a : Access) (controlEpoch : Option Id) (deadline : Nat) : Prop :=
  controlEpoch.isSome ∧ controlEpoch = a.epoch ∧ a.time < deadline

instance (a : Access) (c : Option Id) (d : Nat) : Decidable (a.live c d) :=
  inferInstanceAs (Decidable (_ ∧ _ ∧ _))

/-- `live(lock)`. -/
def liveLock (a : Access) (l : Lock) : Prop := a.live (some l.controlEpoch) l.deadline

/-- `live(handle)`. -/
def liveHandle (a : Access) (h : Handle) : Prop := a.live h.controlEpoch h.deadline

instance (a : Access) (l : Lock) : Decidable (a.liveLock l) :=
  inferInstanceAs (Decidable (a.live _ _))

instance (a : Access) (h : Handle) : Decidable (a.liveHandle h) :=
  inferInstanceAs (Decidable (a.live _ _))

/-- The same records, a number of phases later. -/
def later (a : Access) (k : Nat) : Access := { a with phase := a.phase + k }

end Access

/-- Queries over a control. -/
abbrev Q := Query World Failure

/-- Transactions over a control. -/
abbrev T := Tx World Failure

instance : Ticking World := ⟨fun w => { w with access := w.access.later 1 }⟩

theorem tick_eq (w : World) : Ticking.tick w = { w with access := w.access.later 1 } := rfl

/-! ## Failing -/

/-- `need`. -/
def need (c : Prop) [Decidable c] (reason : Reason) : Q Unit :=
  if c then pure () else Query.fail (.fault reason)

@[simp] theorem need_ok {c : Prop} [Decidable c] {r : Reason} {w : World} {u : Unit} :
    (need c r) w = .ok u ↔ c := by
  unfold need
  split
  · rename_i h
    exact ⟨fun _ => h, fun _ => rfl⟩
  · rename_i h
    exact ⟨fun hf => absurd hf (by simp), fun hc => absurd hc h⟩

theorem need_error {c : Prop} [Decidable c] {r : Reason} {w : World} {e : Failure} :
    (need c r) w = .error e ↔ ¬ c ∧ e = .fault r := by
  unfold need
  split
  · rename_i h
    exact ⟨fun hf => absurd hf (by simp [pure]), fun hc => absurd h hc.1⟩
  · rename_i h
    constructor
    · intro hf
      exact ⟨h, (Except.error.inj hf).symm⟩
    · rintro ⟨-, rfl⟩
      rfl

/-- Use a record that the code does not expect to be missing. -/
def deref {α : Type} : Option α → Q α
  | some a => pure a
  | none => Query.fail .crash

@[simp] theorem deref_ok {α : Type} {o : Option α} {w : World} {a : α} :
    (deref o) w = .ok a ↔ o = some a := by
  cases o <;> simp [deref]

theorem deref_error {α : Type} {o : Option α} {w : World} {e : Failure}
    (h : (deref o) w = .error e) : e = .crash := by
  cases o with
  | none => exact (Except.error.inj h).symm
  | some a => cases h

/-- Use a record, or end with a reason. -/
def needSome {α : Type} (o : Option α) (reason : Reason) : Q α :=
  match o with
  | some a => pure a
  | none => Query.fail (.fault reason)

@[simp] theorem needSome_ok {α : Type} {o : Option α} {r : Reason} {w : World} {a : α} :
    (needSome o r) w = .ok a ↔ o = some a := by
  cases o <;> simp [needSome]

/-! ## Reading -/

/-- `leases.clock()`. -/
def clock : Q Nat := Query.read fun w => w.access.time

/-- `now()`. -/
def now : Q Nat := Query.read fun w => w.access.now

/-- The state, for the reads that need no error path. -/
def world : Q World := Query.read fun w => w

def access : Q Access := Query.read World.access

def cluster : Q Cluster := Query.read World.cluster

def identity : Q Identity := Query.read World.identity

/-! ## Writing -/

/-- Change the records of the lease protocol. -/
def onAccess (f : Access → Access) : T Unit := Tx.modify fun w => { w with access := f w.access }

/-- Change the records about data nodes. -/
def onCluster (f : Cluster → Cluster) : T Unit :=
  Tx.modify fun w => { w with cluster := f w.cluster }

/-- Change who may ask for what. -/
def onIdentity (f : Identity → Identity) : T Unit :=
  Tx.modify fun w => { w with identity := f w.identity }

/-- `uid()`. -/
def draw (app : App) : T Id := do
  let a ← access
  onAccess fun a => { a with issued := a.issued + 1 }
  pure (app.uuid a.issued)

def putLock (l : Lock) : T Unit := onAccess fun a => { a with locks := a.locks.put l }
def deleteLock (k : Id) : T Unit := onAccess fun a => { a with locks := a.locks.delete k }
def putHandle (h : Handle) : T Unit := onAccess fun a => { a with handles := a.handles.put h }
def putRead (r : Read) : T Unit := onAccess fun a => { a with reads := a.reads.put r }
def putUpload (o : Operation) : T Unit := onAccess fun a => { a with uploads := a.uploads.put o }
def putSnapshot (s : Snapshot) : T Unit :=
  onAccess fun a => { a with snapshots := a.snapshots.put s }
def deleteSnapshot (k : Id) : T Unit :=
  onAccess fun a => { a with snapshots := a.snapshots.delete k }
def putBlock (b : Block) : T Unit := onAccess fun a => { a with blocks := a.blocks.put b }
def deleteBlock (k : Id) : T Unit := onAccess fun a => { a with blocks := a.blocks.delete k }
def putRetired (r : Retired) : T Unit := onAccess fun a => { a with retired := a.retired.put r }

/-- Another live node has this node's name in this node's parent: what the unique
index refuses. -/
def nameTaken (a : Access) (n : Node) : Prop :=
  n.alive = true ∧ n.parent.isSome = true ∧
    ∃ m ∈ a.nodes.all, m.alive = true ∧ m.id ≠ n.id ∧ m.parent = n.parent ∧ m.name = n.name

instance (a : Access) (n : Node) : Decidable (nameTaken a n) :=
  inferInstanceAs (Decidable (_ ∧ _ ∧ ∃ m ∈ a.nodes.all, _))

/-- `tx.put('node', …)`, which fails on the unique index. -/
def putNode (app : App) (n : Node) : T Unit := do
  let a ← access
  need (app.uniqueNames = true → ¬ nameTaken a n) .serviceUnavailable
  onAccess fun a => { a with nodes := a.nodes.put n }

def putLocation (l : Location) : T Unit :=
  onCluster fun c => { c with locations := c.locations.put l }
def deleteLocation (k : Id ×ₗ Id) : T Unit :=
  onCluster fun c => { c with locations := c.locations.delete k }
def putAssignment (r : Assignment) : T Unit :=
  onCluster fun c => { c with assignments := c.assignments.put r }
def putDatanode (r : DataNode) : T Unit :=
  onCluster fun c => { c with datanodes := c.datanodes.put r }
def putNodePolicy (r : NodePolicy) : T Unit :=
  onCluster fun c => { c with nodePolicies := c.nodePolicies.put r }
def putTask (r : Task) : T Unit := onCluster fun c => { c with tasks := c.tasks.put r }
def putRetirement (r : Retirement) : T Unit :=
  onCluster fun c => { c with retirements := c.retirements.put r }
def putPolicy (r : Policy) : T Unit := onCluster fun c => { c with policies := c.policies.put r }
def putDurability (r : Durability) : T Unit :=
  onCluster fun c => { c with durability := c.durability.put r }
def putReplicaPlan (r : ReplicaPlan) : T Unit :=
  onCluster fun c => { c with replicaPlans := c.replicaPlans.put r }
def putRepairRetry (r : RepairRetry) : T Unit :=
  onCluster fun c => { c with repairRetries := c.repairRetries.put r }

def putUser (r : User) : T Unit := onIdentity fun i => { i with users := i.users.put r }
def putGroup (r : Group) : T Unit := onIdentity fun i => { i with groups := i.groups.put r }
def putSession (r : Session) : T Unit :=
  onIdentity fun i => { i with sessions := i.sessions.put r }

@[simp] theorem onAccess_ok {f : Access → Access} {w : World} {r : Unit × World} :
    (onAccess f) w = .ok r ↔ r = ((), { w with access := f w.access }) := Tx.modify_ok

@[simp] theorem onCluster_ok {f : Cluster → Cluster} {w : World} {r : Unit × World} :
    (onCluster f) w = .ok r ↔ r = ((), { w with cluster := f w.cluster }) := Tx.modify_ok

@[simp] theorem onIdentity_ok {f : Identity → Identity} {w : World} {r : Unit × World} :
    (onIdentity f) w = .ok r ↔ r = ((), { w with identity := f w.identity }) := Tx.modify_ok

end Dfsha
