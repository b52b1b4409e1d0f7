import Dfsha.Refine.Run

/-!
# What a transaction leaves alone

Most transactions write a few tables and leave the others as they were.  `Respects R x` says that
the states before and after the transaction `x` are always related by `R`, and is found by
instance resolution from the statements of `x`: it is enough to know which tables `R` allows to
change.  `Leaves π x` is the case where a part `π` of the control stays as it is.

## Main definitions

* `Respects R x` — the transaction `x` respects the relation `R`.
* `AllowsRest`, `AllowsNodes`, … — a relation that allows any change of the records of one kind.
* `Leaves π x` — the transaction `x` leaves the part `π` as it is.
* `AsideAccess`, `AsideCluster`, `AsideIdentity`, `AsideMemory`, `AsideLedger` — a part that does
  not depend on the records of one kind, tombstones and copies left out.
* `Keeps P x` — the transaction `x` keeps the property `P` of a control.
-/

namespace Dfsha

variable {app : App} {α β γ : Type} {R : World → World → Prop} {π : World → γ}

/-! ## Relations -/

/-- A transaction that respects a relation between states. -/
class Respects (R : World → World → Prop) (x : T α) : Prop where
  respects : ∀ w r, x w = .ok r → R w r.2

/-- A relation that the statements of a transaction can be checked for one by one. -/
class Steady (R : World → World → Prop) : Prop where
  refl : ∀ w, R w w
  trans : ∀ {u v w}, R u v → R v w → R u w

/-- The records of the lease protocol that are looked at table by table. -/
def Access.tables (a : Access) :
    Table Node × Table Snapshot × Table Handle × Table Read × Table Retired :=
  (a.nodes, a.snapshots, a.handles, a.reads, a.retired)

/-- The same clock, not earlier. -/
def Access.Onward (a b : Access) : Prop := b.clk = a.clk ∧ a.phase ≤ b.phase

/-- Any change of the other records of the lease protocol is allowed, and time may pass. -/
class AllowsRest (R : World → World → Prop) : Prop where
  rest : ∀ (w : World) (a : Access), a.tables = w.access.tables → w.access.Onward a →
    R w { w with access := a }

class AllowsNodes (R : World → World → Prop) : Prop where
  nodes : ∀ (w : World) (t : Table Node), R w { w with access := { w.access with nodes := t } }

class AllowsSnapshots (R : World → World → Prop) : Prop where
  snapshots : ∀ (w : World) (t : Table Snapshot),
    R w { w with access := { w.access with snapshots := t } }

/-- Any change of handles, and of what is read through them, is allowed. -/
class AllowsHandles (R : World → World → Prop) : Prop where
  handles : ∀ (w : World) (t : Table Handle) (s : Table Read),
    R w { w with access := { w.access with handles := t, reads := s } }

class AllowsRetired (R : World → World → Prop) : Prop where
  retired : ∀ (w : World) (t : Table Retired),
    R w { w with access := { w.access with retired := t } }

/-- Any change of the records about data nodes is allowed, but for copies and policies. -/
class AllowsWork (R : World → World → Prop) : Prop where
  work : ∀ (w : World) (c : Cluster), c.locations = w.cluster.locations →
    c.policies = w.cluster.policies → R w { w with cluster := c }

class AllowsCopies (R : World → World → Prop) : Prop where
  copies : ∀ (w : World) (t : Table Location),
    R w { w with cluster := { w.cluster with locations := t } }

class AllowsPolicies (R : World → World → Prop) : Prop where
  policies : ∀ (w : World) (t : Table Policy),
    R w { w with cluster := { w.cluster with policies := t } }

/-- A file may be given its first policy. -/
class AllowsCreation (R : World → World → Prop) : Prop where
  creation : ∀ (app : App) (file : Id), Respects R (createPolicy app file)

/-- The policies may be settled: those of files that have none, and promotions that end. -/
class AllowsSettling (R : World → World → Prop) : Prop where
  reconcile : ∀ app : App, Respects R (reconcile app)
  start : Respects R startReplicated

class AllowsIdentity (R : World → World → Prop) : Prop where
  identity : ∀ (w : World) (i : Identity), R w { w with identity := i }

class AllowsMemory (R : World → World → Prop) : Prop where
  memory : ∀ (w : World) (g m : Nat) (s : List (Id × Digest)),
    R w { w with generation := g, maintenanceGeneration := m, verifiedSeals := s }

class AllowsLedger (R : World → World → Prop) : Prop where
  ledger : ∀ (w : World) (t : Table LedgerEntry), R w { w with ledger := t }

-- An instance here is as large as the function it is about.
set_option synthInstance.maxSize 16384

variable [Steady R]

namespace Respects

instance pure (a : α) : Respects R (Pure.pure a : T α) := ⟨fun w r h => by
  rw [Tx.pure_ok] at h
  rw [h]
  exact Steady.refl w⟩

instance bind (x : T α) (f : α → T β) [hx : Respects R x] [hf : ∀ a, Respects R (f a)] :
    Respects R (x >>= f) := ⟨fun w r h => by
  obtain ⟨a, s, h1, h2⟩ := Tx.bind_ok.mp h
  exact Steady.trans (hx.respects w _ h1) ((hf a).respects s r h2)⟩

theorem seq {x : T α} {f : α → T β} (hx : Respects R x) (hf : ∀ a, Respects R (f a)) :
    Respects R (x >>= f) := inferInstance

omit [Steady R] in
instance ite {c : Prop} [Decidable c] (x y : T α) [Respects R x] [Respects R y] :
    Respects R (if c then x else y) := by
  split <;> infer_instance

omit [Steady R] in
instance option {o : Option α} (x : T β) (f : α → T β) [Respects R x] [∀ a, Respects R (f a)] :
    Respects R (o.elim x f) := by
  cases o <;> simp only [Option.elim] <;> infer_instance

instance each (l : List α) (f : α → T Unit) [hf : ∀ a, Respects R (f a)] :
    Respects R (Tx.each l f) := ⟨fun _ _ h =>
  Tx.each_rel Steady.refl Steady.trans (fun a _ s _ h => (hf a).respects s _ h) h⟩

instance fold (l : List α) (f : β → α → T β) (b : β) [hf : ∀ b a, Respects R (f b a)] :
    Respects R (Tx.fold l f b) := ⟨fun w _ h =>
  Tx.fold_induction (fun _ _ t => R w t)
    (fun a _ b _ s _ hs h => Steady.trans hs ((hf b a).respects s _ h)) (Steady.refl w) h⟩

omit [Steady R] in
theorem modify {g : World → World} (hg : ∀ w, R w (g w)) : Respects R (Tx.modify g : T Unit) :=
  ⟨fun w r h => by
    rw [Tx.modify_ok] at h
    rw [h]
    exact hg w⟩

omit [Steady R] in
instance : Respects R (unimplemented : T α) := ⟨fun _ _ h => by cases h⟩

end Respects

/-! ## The lease protocol -/

section Access

variable [AllowsRest R]

instance (q : Q α) : Respects R (liftM q : T α) := ⟨fun w r h => by
  rw [(Tx.monadLift_ok.mp h).2]
  exact AllowsRest.rest w (w.access.later 1) rfl ⟨rfl, Nat.le_succ _⟩⟩

instance (l : List α) (p : α → Q Bool) : Respects R (Tx.select l p) := by
  induction l with
  | nil => exact Respects.pure []
  | cons a l ih =>
      unfold Tx.select
      infer_instance

omit [Steady R] in
/-- A change of the other records. -/
theorem Respects.onAccess {f : Access → Access}
    (hf : ∀ a : Access, ((f a).tables, (f a).clk, (f a).phase) = (a.tables, a.clk, a.phase)) :
    Respects R (onAccess f) := .modify fun w => by
  have h := hf w.access
  simp only [Prod.mk.injEq] at h
  exact AllowsRest.rest w _ h.1 ⟨h.2.1, h.2.2.ge⟩

instance (l : Lock) : Respects R (putLock l) := .onAccess fun _ => rfl
instance (k : Id) : Respects R (deleteLock k) := .onAccess fun _ => rfl
instance [AllowsHandles R] (h : Handle) : Respects R (putHandle h) :=
  .modify fun w => AllowsHandles.handles w _ w.access.reads
instance [AllowsHandles R] (r : Read) : Respects R (putRead r) :=
  .modify fun w => AllowsHandles.handles w w.access.handles _
instance (o : Operation) : Respects R (putUpload o) := .onAccess fun _ => rfl
instance [AllowsSnapshots R] (s : Snapshot) : Respects R (putSnapshot s) :=
  .modify fun w => AllowsSnapshots.snapshots w _
instance [AllowsSnapshots R] (k : Id) : Respects R (deleteSnapshot k) :=
  .modify fun w => AllowsSnapshots.snapshots w _
instance (b : Block) : Respects R (putBlock b) := .onAccess fun _ => rfl
instance (k : Id) : Respects R (deleteBlock k) := .onAccess fun _ => rfl
instance [AllowsRetired R] (r : Retired) : Respects R (putRetired r) :=
  .modify fun w => AllowsRetired.retired w _
instance (e : Option Id) : Respects R (onAccess fun a => { a with epoch := e }) :=
  .onAccess fun _ => rfl
instance (f : Access → Nat) : Respects R (onAccess fun a => { a with lockSequence := f a }) :=
  .onAccess fun _ => rfl
instance (f : Access → List PutBlockHeader) :
    Respects R (onAccess fun a => { a with admitted := f a }) := .onAccess fun _ => rfl
instance [AllowsNodes R] (f : Access → Table Node) :
    Respects R (onAccess fun a => { a with nodes := f a }) :=
  .modify fun w => AllowsNodes.nodes w (f w.access)

instance : Respects R (draw app) := by
  have : Respects R (onAccess fun a => { a with issued := a.issued + 1 }) := .onAccess fun _ => rfl
  unfold draw
  infer_instance

instance [AllowsNodes R] (n : Node) : Respects R (putNode app n) := by
  unfold putNode
  infer_instance

instance [AllowsNodes R] (n : Node) : Respects R (bump app n) := by
  unfold bump
  infer_instance

/-! ### Leases -/

instance (h : Handle) : Respects R (startHandle h) := by
  unfold startHandle
  infer_instance

instance (h : Handle) (i : Bool) : Respects R (refreshHandle app h i) := by
  unfold refreshHandle
  infer_instance

instance (o : Owner) (i : List Nat) (w s a : Bool) : Respects R (acquire app o i w s a) := by
  unfold acquire
  infer_instance

instance [AllowsHandles R] (o : Operation) : Respects R (releaseOperation o) := by
  have hlock : ∀ k : Id, Respects R (do
      let a ← (liftM access : T Access)
      match a.locks.get k with
      | none => pure ()
      | some lock =>
          if o.id ∈ lock.active then
            if lock.automatic = true then deleteLock k
            else putLock { lock with active := lock.active.erase o.id }
          else pure () : T Unit) := fun k => by
    refine .seq inferInstance fun a => ?_
    split <;> infer_instance
  unfold releaseOperation
  refine .seq inferInstance fun _ => .seq inferInstance fun a => ?_
  split <;> infer_instance

/-! ### The namespace and uploads -/

instance [AllowsNodes R] (u : User) (p : PathRef) : Respects R (mkdir app u p) := by
  unfold mkdir
  infer_instance

instance [AllowsNodes R] (u : User) (ctx : RequestContext) (p : PathRef) (d : Bool) :
    Respects R (removeNode app u ctx p d) := by
  unfold removeNode
  infer_instance

instance [AllowsNodes R] (u : User) (ctx : RequestContext) (p : PathRef) (l : Acl) (n : Nat) :
    Respects R (setAcl app u ctx p l n) := by
  unfold setAcl
  infer_instance

instance (p : Text) : Respects R (hashPassword app p) := by
  unfold hashPassword
  infer_instance

instance (u : User) (s : Session) (ctx : RequestContext) (r : BeginUploadRequest) :
    Respects R (commandsBeginUpload app u s ctx r) := by
  unfold commandsBeginUpload
  infer_instance

instance (u : User) (s : Session) (r : OperationRef) :
    Respects R (commandsRenewUpload app u s r) := by
  unfold commandsRenewUpload
  infer_instance

instance (o : Operation) (x : BlockRef × Nat) : Respects R (stageBlock o x) := by
  unfold stageBlock
  infer_instance

instance (u : User) (s : Session) (r : StageManifestPageRequest) :
    Respects R (stageManifestPage app u s r) := by
  unfold stageManifestPage
  infer_instance

instance (u : User) (s : Session) (r : SealManifestRequest) :
    Respects R (sealManifest app u s r) := by
  unfold sealManifest
  infer_instance

instance (u : User) (a : Access) (o : Operation) (n : Node) :
    Respects R (uploadNode app u a o n) := by
  unfold uploadNode
  split <;> infer_instance

instance [AllowsNodes R] [AllowsSnapshots R] (u : User) (s : Session) (r : CommitUploadRequest) :
    Respects R (commandsCommitUpload app u s r) := by
  unfold commandsCommitUpload
  infer_instance

instance (o : Operation) (b : BlockRef) : Respects R (requireAllocated app o b) := by
  unfold requireAllocated
  infer_instance

instance [AllowsNodes R] [AllowsSnapshots R] (u : User) (s : Session) (r : CommitUploadRequest) :
    Respects R (clusterCommitUpload app u s r) := by
  unfold clusterCommitUpload
  infer_instance

instance (u : User) (s : Session) (r : OperationRef) : Respects R (commandsAbortUpload u s r) := by
  unfold commandsAbortUpload
  infer_instance

instance [AllowsHandles R] (u : User) (s : Session) (p : PathRef) (m : OpenMode) :
    Respects R (commandsOpen app u s p m) := by
  unfold commandsOpen
  infer_instance

instance [AllowsHandles R] (u : User) (s : Session) (h : Id) (n : Nat) :
    Respects R (commandsRenewHandle app u s h n) := by
  unfold commandsRenewHandle
  infer_instance

instance [AllowsHandles R] (u : User) (s : Session) (ctx : RequestContext) (h : Id) (n : Nat) :
    Respects R (commandsClose u s ctx h n) := by
  unfold commandsClose
  infer_instance

/-! ### Handles, locks and writes -/

instance [AllowsHandles R] (u : User) (s : Session) (r : BeginReadRequest) :
    Respects R (beginRead app u s r) := by
  unfold beginRead
  infer_instance

instance [AllowsHandles R] (u : User) (s : Session) (ctx : RequestContext) (h r : Id) :
    Respects R (endRead u s ctx h r) := by
  unfold endRead
  infer_instance

instance (u : User) (s : Session) (n : Node) (m : OpenMode) :
    Respects R (openTruncating app u s n m) := by
  unfold openTruncating
  infer_instance

instance (u : User) (n : Node) (t : Text) : Respects R (openNew app u n t) := by
  unfold openNew
  infer_instance

instance [AllowsNodes R] [AllowsSnapshots R] (u : User) (s : Session) (p : PathRef) (m : OpenMode) :
    Respects R (openCreating app u s p m) := by
  unfold openCreating
  infer_instance

instance (u : User) (p : PathRef) (m : OpenMode) : Respects R (openExisting app u p m) := by
  unfold openExisting
  infer_instance

instance [AllowsNodes R] [AllowsSnapshots R] [AllowsHandles R] (u : User) (s : Session)
    (p : PathRef) (m : OpenMode) : Respects R (accessOpen app u s p m) := by
  unfold accessOpen
  infer_instance

instance (h : Handle) : Respects R (renewBusy h) := by
  unfold renewBusy
  refine .seq inferInstance fun a => ?_
  split <;> infer_instance

instance [AllowsHandles R] (u : User) (s : Session) (h : Id) :
    Respects R (accessRenewHandle app u s h) := by
  unfold accessRenewHandle
  infer_instance

instance [AllowsHandles R] (s : Session) (h : Handle) : Respects R (closeHandle s h) := by
  unfold closeHandle
  infer_instance

instance [AllowsHandles R] (u : User) (s : Session) (ctx : RequestContext) (h : Id) :
    Respects R (accessClose u s ctx h) := by
  unfold accessClose
  infer_instance

instance (u : User) (s : Session) (r : LockRequest) : Respects R (lockBlocks app u s r) := by
  unfold lockBlocks
  infer_instance

instance (u : User) (s : Session) (f : Fence) : Respects R (renewLock app u s f) := by
  unfold renewLock
  infer_instance

instance (s : Session) (ctx : RequestContext) (f : Fence) : Respects R (unlock s ctx f) := by
  unfold unlock
  infer_instance

instance (s : Session) (h : Handle) (i : List Nat) (f : List Fence) :
    Respects R (gatherFences s h i f) := by
  unfold gatherFences
  infer_instance

instance (s : Session) (h : Handle) (i : List Nat) (g : Gathered) :
    Respects R (gatherOwn s h i g) := by
  unfold gatherOwn
  infer_instance

instance (h : Handle) (i : List Nat) (b : Bool) (g : Gathered) :
    Respects R (gatherMissing app h i b g) := by
  unfold gatherMissing
  infer_instance

instance [AllowsHandles R] (h : Handle) (b : SnapshotRef) (o : Operation) :
    Respects R (beginFinish h b o) := by
  unfold beginFinish
  infer_instance

instance (u : User) (s : Session) (r : OperationRef) : Respects R (writeOperation app u s r) := by
  unfold writeOperation
  infer_instance

instance (o : Operation) (f : Id) (l : List BlockRef) (x : Part × BlockChange) :
    Respects R (commitPart app o f l x) := by
  unfold commitPart
  infer_instance

instance [AllowsNodes R] [AllowsSnapshots R] [AllowsHandles R] (u : User) (s : Session)
    (r : CommitWriteRequest) : Respects R (accessCommitWrite app u s r) := by
  unfold accessCommitWrite
  infer_instance

instance [AllowsHandles R] (u : User) (s : Session) (ctx : RequestContext) (r : OperationRef) :
    Respects R (abortWrite u s ctx r) := by
  unfold abortWrite
  infer_instance

instance (u : User) (s : Session) (ctx : RequestContext) (r : BeginUploadRequest) :
    Respects R (accessBeginUpload app u s ctx r) := by
  unfold accessBeginUpload
  infer_instance

instance (u : User) (s : Session) (r : OperationRef) :
    Respects R (accessRenewUpload app u s r) := by
  unfold accessRenewUpload
  infer_instance

instance [AllowsNodes R] [AllowsSnapshots R] [AllowsHandles R] (u : User) (s : Session)
    (r : CommitUploadRequest) : Respects R (accessCommitUpload app u s r) := by
  unfold accessCommitUpload
  infer_instance

instance [AllowsHandles R] (u : User) (s : Session) (ctx : RequestContext) (r : OperationRef) :
    Respects R (accessAbortUpload u s ctx r) := by
  unfold accessAbortUpload
  infer_instance

instance [AllowsNodes R] [AllowsHandles R] (u : User) (ctx : RequestContext) (p : PathRef)
    (d : Bool) : Respects R (accessRemove app u ctx p d) := by
  unfold accessRemove
  infer_instance

instance (o : Operation) (r : CommitResult) : Respects R (policyResult app o r) := by
  unfold policyResult
  infer_instance

instance (o : Operation) : Respects R (reportEmpty app o) := by
  unfold reportEmpty
  infer_instance

instance [AllowsNodes R] [AllowsSnapshots R] [AllowsHandles R] (u : User) (s : Session)
    (r : CommitUploadRequest) : Respects R (protectionCommitUpload app u s r) := by
  unfold protectionCommitUpload
  infer_instance

instance [AllowsNodes R] [AllowsSnapshots R] [AllowsHandles R] (u : User) (s : Session)
    (r : CommitWriteRequest) : Respects R (protectionCommitWrite app u s r) := by
  unfold protectionCommitWrite
  infer_instance

instance [AllowsHandles R] (f : Id) : Respects R (abortOperations f) := by
  unfold abortOperations
  infer_instance

instance (u : User) (s : Session) (r : OperationRef) : Respects R (renewUpload app u s r) := by
  unfold renewUpload
  infer_instance

instance [AllowsNodes R] [AllowsSnapshots R] [AllowsHandles R] (u : User) (s : Session)
    (r : CommitUploadRequest) : Respects R (commitUpload app u s r) := by
  unfold commitUpload
  split <;> infer_instance

instance [AllowsHandles R] (u : User) (s : Session) (ctx : RequestContext) (r : OperationRef) :
    Respects R (abortUpload app u s ctx r) := by
  unfold abortUpload
  infer_instance

instance [AllowsNodes R] [AllowsSnapshots R] [AllowsHandles R] (u : User) (s : Session)
    (r : CommitWriteRequest) : Respects R (commitWrite app u s r) := by
  unfold commitWrite
  infer_instance

instance [AllowsNodes R] [AllowsHandles R] (u : User) (ctx : RequestContext) (p : PathRef)
    (d : Bool) : Respects R (remove app u ctx p d) := by
  unfold remove
  infer_instance

end Access

/-! ## Accounts -/

section Identity

variable [AllowsRest R] [AllowsIdentity R]

instance (f : Identity → Identity) : Respects R (onIdentity f) :=
  .modify fun w => AllowsIdentity.identity w _

instance (r : User) : Respects R (putUser r) := by
  unfold putUser
  infer_instance

instance (r : Group) : Respects R (putGroup r) := by
  unfold putGroup
  infer_instance

instance (r : Session) : Respects R (putSession r) := by
  unfold putSession
  infer_instance

instance [AllowsNodes R] (u : User) (n p : Text) : Respects R (createUser app u n p) := by
  unfold createUser
  infer_instance

instance (u : Id) : Respects R (revokeSessions u) := by
  unfold revokeSessions
  infer_instance

instance (u : User) (i : Id) (d : Bool) (n : Nat) : Respects R (setUser u i d n) := by
  unfold setUser
  infer_instance

instance (u : User) (i : Id) (p : Text) (n : Nat) : Respects R (changePassword app u i p n) := by
  unfold changePassword
  infer_instance

instance (u : User) (n : Text) : Respects R (createGroup app u n) := by
  unfold createGroup
  infer_instance

instance (u : User) (g : Id) (l : List Id) (n : Nat) : Respects R (setGroupMembers u g l n) := by
  unfold setGroupMembers
  infer_instance

instance (s : Session) (ctx : RequestContext) (i : Id) : Respects R (logout s ctx i) := by
  unfold logout
  infer_instance

instance (w i l : Nat) : Respects R (countLogin w i l) := by
  unfold countLogin
  infer_instance

instance (b : Nat) : Respects R (limitLogin b) := by
  unfold limitLogin
  infer_instance

instance (u : Text) (i : Id) (s : Session) : Respects R (rememberLogin u i s) := by
  unfold rememberLogin
  refine .seq inferInstance fun w => ?_
  split <;> infer_instance

instance (u : User) (i : Id) : Respects R (login app u i) := by
  unfold login
  infer_instance

end Identity

/-! ## Memory -/

section Memory

variable [AllowsRest R] [AllowsMemory R]

instance (t : Id) (ctx : RequestContext) (r : SealManifestRequest) :
    Respects R (verifySeal app t ctx r) := by
  have hseal : ∀ f : World → List (Id × Digest),
      Respects R (Tx.modify fun w => { w with verifiedSeals := f w } : T Unit) := fun f =>
    .modify fun w => AllowsMemory.memory w w.generation w.maintenanceGeneration (f w)
  unfold verifySeal
  infer_instance

instance [AllowsHandles R] : Respects R (startLeases app) := by
  have hgen : Respects R (Tx.modify fun w => { w with generation := w.generation + 1 } : T Unit) :=
    .modify fun w =>
      AllowsMemory.memory w (w.generation + 1) w.maintenanceGeneration w.verifiedSeals
  unfold startLeases
  infer_instance

end Memory

/-! ## Data nodes -/

section Cluster

variable [AllowsRest R] [AllowsWork R]

omit [Steady R] [AllowsRest R] in
/-- A change of the records that leaves the copies and the policies alone. -/
theorem Respects.onCluster {f : Cluster → Cluster} (hf : ∀ c, (f c).locations = c.locations)
    (hp : ∀ c, (f c).policies = c.policies) : Respects R (onCluster f) :=
  .modify fun w => AllowsWork.work w _ (hf w.cluster) (hp w.cluster)

instance (r : Assignment) : Respects R (putAssignment r) := .onCluster (fun _ => rfl) fun _ => rfl
instance (r : DataNode) : Respects R (putDatanode r) := .onCluster (fun _ => rfl) fun _ => rfl
instance (r : NodePolicy) : Respects R (putNodePolicy r) := .onCluster (fun _ => rfl) fun _ => rfl
instance (r : Task) : Respects R (putTask r) := .onCluster (fun _ => rfl) fun _ => rfl
instance (r : Retirement) : Respects R (putRetirement r) := .onCluster (fun _ => rfl) fun _ => rfl
instance [AllowsCopies R] (l : Location) : Respects R (putLocation l) :=
  .modify fun w => AllowsCopies.copies w _
instance [AllowsCopies R] (k : Id ×ₗ Id) : Respects R (deleteLocation k) :=
  .modify fun w => AllowsCopies.copies w _
instance [AllowsPolicies R] (r : Policy) : Respects R (putPolicy r) :=
  .modify fun w => AllowsPolicies.policies w _
instance (r : Durability) : Respects R (putDurability r) := .onCluster (fun _ => rfl) fun _ => rfl
instance (r : ReplicaPlan) : Respects R (putReplicaPlan r) := .onCluster (fun _ => rfl) fun _ => rfl
instance (r : RepairRetry) : Respects R (putRepairRetry r) := .onCluster (fun _ => rfl) fun _ => rfl
instance (k : Id) : Respects R (onCluster fun c => { c with placementLast := k }) :=
  .onCluster (fun _ => rfl) fun _ => rfl

/-! ### Policies and placement -/

instance [AllowsCreation R] (f : Id) : Respects R (createPolicy app f) :=
  AllowsCreation.creation app f

instance [AllowsPolicies R] : AllowsCreation R := ⟨fun app f => by
  unfold createPolicy
  refine .seq inferInstance fun c => ?_
  split <;> infer_instance⟩

instance [AllowsCreation R] (f : Id) (c : Bool) : Respects R (policy app f c) := by
  unfold policy
  infer_instance

instance (k : TaskKind) (b : BlockRef) (s d : Id) : Respects R (newTask app k b s d) := by
  unfold newTask
  infer_instance

instance (b : BlockRef) (n : Id) : Respects R (clusterRetireCopy app b n) := by
  unfold clusterRetireCopy
  infer_instance

instance (b : BlockRef) (n : Id) : Respects R (replicatedRetireCopy app b n) := by
  unfold replicatedRetireCopy
  infer_instance

instance (b : BlockRef) (n : Id) : Respects R (retireCopy app b n) := by
  unfold retireCopy
  infer_instance

instance (b : BlockRef) (o : Id) : Respects R (assign app b o) := by
  unfold assign
  refine .seq inferInstance fun w => ?_
  split <;> infer_instance

instance (b : BlockRef) (u : User) (g : Binding) : Respects R (clusterPlan app b u g) := by
  unfold clusterPlan
  infer_instance

instance (b : BlockRef) (o : Id) (p : Policy) : Respects R (reserveReplicas app b o p) := by
  unfold reserveReplicas
  infer_instance

instance [AllowsCreation R] (b : BlockRef) (u : User) (g : Binding) :
    Respects R (plan app b u g) := by
  unfold plan
  split <;> infer_instance

instance (o : Id) (b : BlockRef) (l : List DataNode) (n : Nat) :
    Respects R (orderBase app o b l n) := by
  unfold orderBase
  infer_instance

instance (o : Id) (b r : BlockRef) : Respects R (assignPatch app o b r) := by
  unfold assignPatch
  infer_instance

instance [AllowsCreation R] (u : User) (s : Snapshot) (f : Id) (x : Operation × List PlannedBlock)
    (p : WritePart) : Respects R (planPart app u s f x p) := by
  unfold planPart
  infer_instance

instance [AllowsHandles R] [AllowsCreation R] (u : User) (s : Session) (ctx : RequestContext)
    (r : BeginWriteRequest) : Respects R (accessBeginWrite app u s ctx r) := by
  unfold accessBeginWrite
  infer_instance

instance [AllowsCreation R] (u : User) (x : Operation × List PlannedBlock) (b : BlockRef) :
    Respects R (allocateBlock app u x b) := by
  unfold allocateBlock
  refine .seq inferInstance fun _ => ?_
  split <;> infer_instance

instance [AllowsCreation R] (u : User) (s : Session) (r : AllocateBlocksRequest) :
    Respects R (allocateBlocks app u s r) := by
  unfold allocateBlocks
  infer_instance

/-! ### Protection -/

instance [AllowsCreation R] (o : Operation) : Respects R (capturePolicy app o) := by
  unfold capturePolicy
  infer_instance

instance [AllowsCreation R] (u : User) (s : Session) (ctx : RequestContext)
    (r : BeginUploadRequest) : Respects R (protectionBeginUpload app u s ctx r) := by
  unfold protectionBeginUpload
  infer_instance

instance [AllowsHandles R] [AllowsCreation R] (u : User) (s : Session) (ctx : RequestContext)
    (r : BeginWriteRequest) : Respects R (protectionBeginWrite app u s ctx r) := by
  unfold protectionBeginWrite
  infer_instance

instance [AllowsNodes R] [AllowsSnapshots R] [AllowsHandles R] [AllowsCreation R] (u : User)
    (s : Session) (p : PathRef) (m : OpenMode) : Respects R (protectionOpen app u s p m) := by
  unfold protectionOpen
  infer_instance

instance [AllowsHandles R] [AllowsPolicies R] (u : User) (ctx : RequestContext) (p : PathRef)
    (n : Nat) : Respects R (promoteProtection app u ctx p n) := by
  unfold promoteProtection
  infer_instance

instance (n : Id) : Respects R (failTasks n) := by
  unfold failTasks
  infer_instance

instance (u : User) (ctx : RequestContext) (i : Id) (e : Bool) (n : Nat) :
    Respects R (setNodeAuthorization app u ctx i e n) := by
  unfold setNodeAuthorization
  infer_instance

instance (u : User) (r : CopyBlockRequest) : Respects R (copyBlock app u r) := by
  unfold copyBlock
  infer_instance

instance [AllowsCreation R] (u : User) (s : Session) (ctx : RequestContext)
    (r : BeginUploadRequest) : Respects R (beginUpload app u s ctx r) := by
  unfold beginUpload
  split <;> infer_instance

instance [AllowsNodes R] [AllowsSnapshots R] [AllowsHandles R] [AllowsCreation R] (u : User)
    (s : Session) (p : PathRef) (m : OpenMode) : Respects R (openFile app u s p m) := by
  unfold openFile
  split <;> infer_instance

instance [AllowsHandles R] [AllowsCreation R] (u : User) (s : Session) (ctx : RequestContext)
    (r : BeginWriteRequest) : Respects R (beginWrite app u s ctx r) := by
  unfold beginWrite
  infer_instance

/-- **No command writes a copy or a tombstone.** -/
instance [AllowsNodes R] [AllowsSnapshots R] [AllowsHandles R] [AllowsPolicies R] [AllowsIdentity R]
    (u : User) (s : Session) (ctx : RequestContext) (cmd : Command) :
    Respects R (execute app u s ctx cmd) := by
  unfold execute
  cases cmd <;> infer_instance

/-! ### What data nodes say -/

instance (n : Id) : Respects R (abortAssigned n) := by
  unfold abortAssigned
  refine .seq inferInstance fun c => @Respects.each _ _ _ _ _ fun r => ?_
  refine .seq inferInstance fun a => ?_
  split <;> infer_instance

instance (r : RegisterNodeRequest) (d : DataNode) : Respects R (reregister r d) := by
  unfold reregister
  infer_instance

instance (c : NodeCall) (r : RegisterNodeRequest) : Respects R (registerNode app c r) := by
  unfold registerNode
  infer_instance

instance (c : NodeCall) (r : HeartbeatRequest) : Respects R (heartbeat app c r) := by
  unfold heartbeat
  infer_instance

instance (r : BlockReportRequest) (x : DurableReceipt) : Respects R (retireReported app r x) := by
  unfold retireReported
  infer_instance

instance (u : User) (s : Session) (h : PatchBlockHeader) (n : DataNode) :
    Respects R (validateHeader app u s h n) := by
  unfold validateHeader
  infer_instance

/-! ### Maintenance -/

instance (o : Operation) : Respects R (expireWrite o) := by
  unfold expireWrite
  infer_instance

instance [AllowsHandles R] : Respects R expireWrites := by
  unfold expireWrites
  infer_instance

instance [AllowsHandles R] : Respects R closeExpired := by
  unfold closeExpired
  infer_instance

instance (r : Bool) : Respects R (endOperations r) := by
  unfold endOperations
  infer_instance

instance : Respects R pinned := by
  unfold pinned
  infer_instance

instance [AllowsSnapshots R] (l : List Id) : Respects R (dropSnapshots l) := by
  unfold dropSnapshots
  infer_instance

instance : Respects R failWriteCopies := by
  unfold failWriteCopies
  refine .seq inferInstance fun c => @Respects.each _ _ _ _ _ fun task => ?_
  refine .seq inferInstance fun a => ?_
  split <;> infer_instance

instance : Respects R (retireAssigned app) := by
  unfold retireAssigned
  refine .seq inferInstance fun c => @Respects.each _ _ _ _ _ fun r => ?_
  refine .seq inferInstance fun w => ?_
  split
  · infer_instance
  · split <;> infer_instance

instance : Respects R (collectTasks app) := by
  unfold collectTasks
  infer_instance

instance : Respects R (failCopies app) := by
  unfold failCopies
  infer_instance

instance (b : Block) (s : Location) (r : Nat) (d : List Id) (n : DataNode) :
    Respects R (repairAt app b s r d n) := by
  unfold repairAt
  infer_instance

instance (b : BlockRef) (r : Block) : Respects R (repairBlock app b r) := by
  unfold repairBlock
  refine .seq inferInstance fun w => .seq inferInstance fun held => ?_
  refine .seq inferInstance fun coming => ?_
  dsimp only
  split <;> infer_instance

instance [AllowsPolicies R] (l : List BlockRef) (p : Policy) :
    Respects R (settlePromotion app l p) := by
  unfold settlePromotion
  infer_instance

theorem reconcile_respects [AllowsPolicies R] : Respects R (reconcile app) := by
  unfold reconcile
  refine .seq inferInstance fun a => .seq (@Respects.each _ _ _ _ _ fun ref => ?_) inferInstance
  refine .seq inferInstance fun b => ?_
  split <;> infer_instance

instance (t : Task) (r : DurableReceipt) : Respects R (retireOrphan app t r) := by
  unfold retireOrphan
  infer_instance

instance (t : Task) (s : TaskStatus) : Respects R (cleanOrphan app t s) := by
  unfold cleanOrphan
  refine .seq inferInstance fun a => .seq ?_ inferInstance
  split <;> infer_instance

instance (t : Id) : Respects R (dispatched t) := by
  unfold dispatched
  infer_instance

instance (t : Id) : Respects R (overdue t) := by
  unfold overdue
  infer_instance

instance : Respects R startNodes := by
  unfold startNodes
  infer_instance

theorem startReplicated_respects [AllowsPolicies R] [AllowsMemory R] :
    Respects R startReplicated := by
  have hgen : Respects R
      (Tx.modify fun w => { w with maintenanceGeneration := w.generation } : T Unit) :=
    .modify fun w => AllowsMemory.memory w w.generation w.generation w.verifiedSeals
  unfold startReplicated
  infer_instance

instance [AllowsPolicies R] [AllowsMemory R] : AllowsSettling R where
  reconcile _ := reconcile_respects
  start := startReplicated_respects

instance [h : AllowsSettling R] : Respects R (reconcile app) := h.reconcile app
instance [h : AllowsSettling R] : Respects R startReplicated := h.start

/-! ### Copies and tombstones -/

instance [AllowsCopies R] (b : Block) : Respects R (clusterRetireBlock app b) := by
  unfold clusterRetireBlock
  infer_instance

instance [AllowsCopies R] [AllowsRetired R] (b : Block) : Respects R (retireBlock app b) := by
  unfold retireBlock
  split <;> infer_instance

instance [AllowsSnapshots R] [AllowsHandles R] [AllowsCopies R] [AllowsRetired R] (r : Bool) :
    Respects R (collectMetadata app r) := by
  unfold collectMetadata
  infer_instance

instance [AllowsCopies R] (r : DurableReceipt) (i : Id) : Respects R (confirmLocation app r i) := by
  unfold confirmLocation
  infer_instance

instance [AllowsCopies R] (q : BlockReportRequest) (r : DurableReceipt) :
    Respects R (clusterReported app q r) := by
  unfold clusterReported
  refine .seq inferInstance fun _ => .seq inferInstance fun c => ?_
  split <;> infer_instance

instance [AllowsCopies R] (q : BlockReportRequest) (r : DurableReceipt) :
    Respects R (replicatedReported app q r) := by
  unfold replicatedReported
  refine .seq inferInstance fun _ => .seq inferInstance fun w => ?_
  dsimp only
  split
  · infer_instance
  · split <;> infer_instance

instance [AllowsCopies R] (q : BlockReportRequest) : Respects R (closeInventory app q) := by
  unfold closeInventory
  infer_instance

instance [AllowsCopies R] (q : BlockReportRequest) (n : DataNode) :
    Respects R (reportPage app q n) := by
  unfold reportPage
  infer_instance

instance [AllowsCopies R] (c : NodeCall) (q : BlockReportRequest) :
    Respects R (blockReport app c q) := by
  unfold blockReport
  infer_instance

instance [AllowsCopies R] (q : ReportTaskRequest) (t : Task) (n : DataNode) :
    Respects R (confirmCopy app q t n) := by
  unfold confirmCopy
  infer_instance

instance [AllowsCopies R] (c : NodeCall) (q : ReportTaskRequest) :
    Respects R (reportTask app c q) := by
  unfold reportTask
  infer_instance

instance [AllowsCopies R] (l : Location) (h : Health) : Respects R (scrubbed l h) := by
  unfold scrubbed
  refine .seq inferInstance fun w => ?_
  split <;> infer_instance

end Cluster

/-! ## The ledger -/

section Ledger

variable [AllowsRest R] [AllowsLedger R]

instance (e : LedgerEntry) : Respects R (putLedger e) := .modify fun w => AllowsLedger.ledger w _

instance (u : Id) (ctx : RequestContext) (x : Intended) (m : Method) (v : Option Digest)
    (r : Response) : Respects R (remember app u ctx x m v r) := by
  unfold remember
  infer_instance

instance [AllowsNodes R] [AllowsSnapshots R] [AllowsHandles R] [AllowsPolicies R] [AllowsWork R]
    [AllowsIdentity R] (t : Id) (ctx : RequestContext) (cmd : Command) :
    Respects R (serve app t ctx cmd) := by
  unfold serve
  refine .seq inferInstance fun x => .seq inferInstance fun previous => ?_
  cases previous <;> infer_instance

instance (t : Id) (h : PutBlockHeader) : Respects R (admitBlock app t h) := by
  unfold admitBlock
  refine .seq inferInstance fun x => .seq inferInstance fun previous => ?_
  cases previous <;> infer_instance

instance (t : Id) (h : PutBlockHeader) (n : Nat) (d : Digest) :
    Respects R (recordBlock app t h n d) := by
  unfold recordBlock
  infer_instance

instance [AllowsWork R] [AllowsCopies R] (u : User) (n : DataNode) (q : ReportDurableRequest) :
    Respects R (confirmStored app u n q) := by
  unfold confirmStored
  infer_instance

instance [AllowsWork R] [AllowsCopies R] (c : NodeCall) (q : ReportDurableRequest) :
    Respects R (reportDurable app c q) := by
  unfold reportDurable
  refine .seq inferInstance fun _ => .seq inferInstance fun n => .seq inferInstance fun u => ?_
  refine .seq inferInstance fun _ => .seq inferInstance fun previous => ?_
  cases previous <;> infer_instance

instance [AllowsWork R] [AllowsCopies R] (u : User) (n : DataNode) (q : ReportPatchRequest) :
    Respects R (confirmPatched app u n q) := by
  unfold confirmPatched
  infer_instance

instance [AllowsWork R] [AllowsCopies R] (c : NodeCall) (q : ReportPatchRequest) :
    Respects R (reportPatch app c q) := by
  unfold reportPatch
  refine .seq inferInstance fun _ => .seq inferInstance fun n => .seq inferInstance fun u => ?_
  refine .seq inferInstance fun previous => ?_
  cases previous <;> infer_instance

end Ledger

/-! ## Calls and starts -/

section Calls

variable [AllowsRest R] [AllowsSnapshots R] [AllowsHandles R] [AllowsRetired R] [AllowsWork R]
  [AllowsCopies R] [AllowsSettling R] [AllowsMemory R]

/-- **No call writes a node.** -/
instance [AllowsIdentity R] [AllowsLedger R] (c : Call) : Respects R (c.run app) := by
  unfold Call.run
  cases c <;> infer_instance

/-- No part of a start writes a node. -/
theorem Respects.start {stage next : Stage} {t : T Unit} (h : stage.next app = some (t, next)) :
    Respects R t := by
  cases stage with
  | down =>
      simp only [Stage.next, Option.some.injEq, Prod.mk.injEq] at h
      exact h.1 ▸ inferInstance
  | collected =>
      simp only [Stage.next] at h
      split at h
      · simp only [Option.some.injEq, Prod.mk.injEq] at h
        exact h.1 ▸ inferInstance
      · simp only [Option.some.injEq, Prod.mk.injEq] at h
        exact h.1 ▸ inferInstance
  | swept =>
      simp only [Stage.next] at h
      split at h
      · simp only [Option.some.injEq, Prod.mk.injEq] at h
        exact h.1 ▸ inferInstance
      · simp only [Option.some.injEq, Prod.mk.injEq] at h
        exact h.1 ▸ inferInstance
  | leased =>
      simp only [Stage.next, Option.some.injEq, Prod.mk.injEq] at h
      exact h.1 ▸ inferInstance
  | registered =>
      simp only [Stage.next] at h
      split at h
      · simp only [Option.some.injEq, Prod.mk.injEq] at h
        exact h.1 ▸ inferInstance
      · simp only [Option.some.injEq, Prod.mk.injEq] at h
        exact h.1 ▸ inferInstance
  | serving => cases h

end Calls

/-! ## Parts -/

/-- A part of the control is as it was. -/
def Same (π : World → γ) : World → World → Prop := fun w v => π v = π w

instance : Steady (Same π) := ⟨fun _ => rfl, fun h h' => h'.trans h⟩

/-- A transaction that leaves a part of the control as it is. -/
abbrev Leaves (π : World → γ) (x : T α) : Prop := Respects (Same π) x

theorem Leaves.leaves {x : T α} (h : Leaves π x) (w : World) (r : α × World) (hx : x w = .ok r) :
    π r.2 = π w := h.respects w r hx

/-- A part that of the records of the lease protocol depends on the tombstones at most. -/
class AsideAccess (π : World → γ) : Prop where
  access : ∀ (w : World) (a : Access), a.retired = w.access.retired →
    π { w with access := a } = π w

/-- A part that of the records about data nodes depends on the copies at most. -/
class AsideCluster (π : World → γ) : Prop where
  cluster : ∀ (w : World) (c : Cluster), c.locations = w.cluster.locations →
    π { w with cluster := c } = π w

class AsideIdentity (π : World → γ) : Prop where
  identity : ∀ (w : World) (i : Identity), π { w with identity := i } = π w

class AsideMemory (π : World → γ) : Prop where
  memory : ∀ (w : World) (g m : Nat) (s : List (Id × Digest)),
    π { w with generation := g, maintenanceGeneration := m, verifiedSeals := s } = π w

class AsideLedger (π : World → γ) : Prop where
  ledger : ∀ (w : World) (t : Table LedgerEntry), π { w with ledger := t } = π w

instance [AsideAccess π] : AllowsRest (Same π) := ⟨fun w a h _ =>
  AsideAccess.access w a (congrArg (fun x => x.2.2.2.2) h)⟩

instance [AsideAccess π] : AllowsNodes (Same π) := ⟨fun w _ => AsideAccess.access w _ rfl⟩
instance [AsideAccess π] : AllowsSnapshots (Same π) := ⟨fun w _ => AsideAccess.access w _ rfl⟩
instance [AsideAccess π] : AllowsHandles (Same π) := ⟨fun w _ _ => AsideAccess.access w _ rfl⟩
instance [AsideCluster π] : AllowsWork (Same π) := ⟨fun w c h _ => AsideCluster.cluster w c h⟩
instance [AsideCluster π] : AllowsPolicies (Same π) := ⟨fun w _ => AsideCluster.cluster w _ rfl⟩
instance [AsideIdentity π] : AllowsIdentity (Same π) := ⟨AsideIdentity.identity⟩
instance [AsideMemory π] : AllowsMemory (Same π) := ⟨AsideMemory.memory⟩
instance [AsideLedger π] : AllowsLedger (Same π) := ⟨AsideLedger.ledger⟩

instance : AsideAccess World.cluster := ⟨fun _ _ _ => rfl⟩

/-! ## Properties -/

/-- A transaction keeps a property of the control. -/
def Keeps (P : World → Prop) (x : T α) : Prop := ∀ w r, P w → x w = .ok r → P r.2

namespace Keeps

variable {P : World → Prop}

theorem bind {x : T α} {f : α → T β} (hx : Keeps P x) (hf : ∀ a, Keeps P (f a)) :
    Keeps P (x >>= f) := by
  intro w r hw h
  obtain ⟨a, s, h1, h2⟩ := Tx.bind_ok.mp h
  exact hf a s r (hx w _ hw h1) h2

theorem ite {c : Prop} [Decidable c] {x y : T α} (hx : Keeps P x) (hy : Keeps P y) :
    Keeps P (if c then x else y) := by
  split
  · exact hx
  · exact hy

theorem each {l : List α} {f : α → T Unit} (hf : ∀ a, Keeps P (f a)) : Keeps P (Tx.each l f) :=
  fun _ _ hw h => Tx.each_induction (fun _ s => P s) (fun a _ s _ hs hr => hf a s _ hs hr) hw h

/-- A query first: the rest may use what it found. -/
theorem query {q : Q α} {f : α → T β}
    (hf : ∀ w x, P w → q w = .ok x → ∀ r, f x (w.setAccess (w.access.later 1)) = .ok r → P r.2) :
    Keeps P ((liftM q : T α) >>= f) := by
  intro w r hw h
  obtain ⟨x, hx, hr⟩ := run_query.mp h
  exact hf w x hw hx r hr

end Keeps

/-- What depends on a part that is left alone is kept. -/
theorem Leaves.keeps (Q : γ → Prop) (x : T α) [hx : Leaves π x] : Keeps (fun w => Q (π w)) x := by
  intro w r hw h
  have he := Leaves.leaves hx w r h
  simp only [he]
  exact hw

end Dfsha
