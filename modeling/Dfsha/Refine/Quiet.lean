import Dfsha.Refine.Run

/-!
# What leaves the lease protocol alone

Accounts, sessions, the ledger, data nodes, copies, tasks and policies: none of it writes the
records of the lease protocol.
-/

namespace Dfsha

variable {app : App}

-- An instance here is as large as the function it is about.
set_option synthInstance.maxSize 4096

/-! ## Records -/

instance (r : Location) : Quiet (putLocation r) := Quiet.onCluster _
instance (k : Id ×ₗ Id) : Quiet (deleteLocation k) := Quiet.onCluster _
instance (r : Assignment) : Quiet (putAssignment r) := Quiet.onCluster _
instance (r : DataNode) : Quiet (putDatanode r) := Quiet.onCluster _
instance (r : NodePolicy) : Quiet (putNodePolicy r) := Quiet.onCluster _
instance (r : Task) : Quiet (putTask r) := Quiet.onCluster _
instance (r : Retirement) : Quiet (putRetirement r) := Quiet.onCluster _
instance (r : Policy) : Quiet (putPolicy r) := Quiet.onCluster _
instance (r : Durability) : Quiet (putDurability r) := Quiet.onCluster _
instance (r : ReplicaPlan) : Quiet (putReplicaPlan r) := Quiet.onCluster _
instance (r : RepairRetry) : Quiet (putRepairRetry r) := Quiet.onCluster _
instance (r : User) : Quiet (putUser r) := Quiet.onIdentity _
instance (r : Group) : Quiet (putGroup r) := Quiet.onIdentity _
instance (r : Session) : Quiet (putSession r) := Quiet.onIdentity _
instance (r : LedgerEntry) : Quiet (putLedger r) := Quiet.modify fun _ => rfl

instance (user : Id) (ctx : RequestContext) (x : Intended) (m : Method) (v : Option Digest)
    (r : Response) : Quiet (remember app user ctx x m v r) := by
  unfold remember
  infer_instance

/-! ## Accounts and logins -/

instance (p : Text) : Quiet (hashPassword app p) := by
  unfold hashPassword
  infer_instance

instance (u : Id) : Quiet (revokeSessions u) := by
  unfold revokeSessions
  infer_instance

instance (u : User) (i : Id) (d : Bool) (n : Nat) : Quiet (setUser u i d n) := by
  unfold setUser
  infer_instance

instance (u : User) (i : Id) (p : Text) (n : Nat) : Quiet (changePassword app u i p n) := by
  unfold changePassword
  infer_instance

instance (u : User) (n : Text) : Quiet (createGroup app u n) := by
  unfold createGroup
  infer_instance

instance (u : User) (g : Id) (l : List Id) (n : Nat) : Quiet (setGroupMembers u g l n) := by
  unfold setGroupMembers
  infer_instance

instance (s : Session) (ctx : RequestContext) (i : Id) : Quiet (logout s ctx i) := by
  unfold logout
  infer_instance

instance (w i l : Nat) : Quiet (countLogin w i l) := by
  unfold countLogin
  infer_instance

instance (b : Nat) : Quiet (limitLogin b) := by
  unfold limitLogin
  infer_instance

instance (u : Text) (i : Id) (s : Session) : Quiet (rememberLogin u i s) := by
  unfold rememberLogin
  refine @Quiet.bind _ _ _ _ inferInstance fun w => ?_
  split <;> infer_instance

instance (u : User) (i : Id) : Quiet (login app u i) := by
  unfold login
  infer_instance

instance (t : Id) (ctx : RequestContext) (r : SealManifestRequest) :
    Quiet (verifySeal app t ctx r) := by
  have : ∀ g : World → World, (∀ w, (g w).access = w.access) → Quiet (Tx.modify g : T Unit) :=
    fun _ hg => Quiet.modify hg
  unfold verifySeal
  refine @Quiet.bind _ _ _ _ inferInstance fun x => ?_
  refine @Quiet.bind _ _ _ _ inferInstance fun op => ?_
  refine @Quiet.bind _ _ _ _ inferInstance fun blocks => ?_
  refine @Quiet.bind _ _ _ _ inferInstance fun _ => this _ fun _ => rfl

/-! ## Policies and placement -/

instance (f : Id) : Quiet (createPolicy app f) := by
  unfold createPolicy
  refine @Quiet.bind _ _ _ _ inferInstance fun c => ?_
  split <;> infer_instance

instance (f : Id) (c : Bool) : Quiet (policy app f c) := by
  unfold policy
  infer_instance

instance (k : TaskKind) (b : BlockRef) (s d : Id) : Quiet (newTask app k b s d) := by
  unfold newTask
  infer_instance

instance (b : BlockRef) (n : Id) : Quiet (clusterRetireCopy app b n) := by
  unfold clusterRetireCopy
  infer_instance

instance (b : BlockRef) (n : Id) : Quiet (replicatedRetireCopy app b n) := by
  unfold replicatedRetireCopy
  infer_instance

instance (b : BlockRef) (n : Id) : Quiet (retireCopy app b n) := by
  unfold retireCopy
  infer_instance

instance (r : DurableReceipt) (i : Id) : Quiet (confirmLocation app r i) := by
  unfold confirmLocation
  infer_instance

instance (b : BlockRef) (o : Id) : Quiet (assign app b o) := by
  unfold assign
  refine @Quiet.bind _ _ _ _ inferInstance fun w => ?_
  split <;> infer_instance

instance (b : BlockRef) (u : User) (g : Binding) : Quiet (clusterPlan app b u g) := by
  unfold clusterPlan
  infer_instance

instance (b : BlockRef) (o : Id) (p : Policy) : Quiet (reserveReplicas app b o p) := by
  unfold reserveReplicas
  infer_instance

instance (b : BlockRef) (u : User) (g : Binding) : Quiet (plan app b u g) := by
  unfold plan
  split <;> infer_instance

instance (o : Id) (b : BlockRef) (l : List DataNode) (n : Nat) : Quiet (orderBase app o b l n) := by
  unfold orderBase
  infer_instance

instance (o : Id) (b r : BlockRef) : Quiet (assignPatch app o b r) := by
  unfold assignPatch
  infer_instance

/-! ## Data nodes -/

instance (n : Id) : Quiet (failTasks n) := by
  unfold failTasks
  infer_instance

instance (u : User) (ctx : RequestContext) (i : Id) (e : Bool) (n : Nat) :
    Quiet (setNodeAuthorization app u ctx i e n) := by
  unfold setNodeAuthorization
  infer_instance

instance (u : User) (r : CopyBlockRequest) : Quiet (copyBlock app u r) := by
  unfold copyBlock
  infer_instance

instance (c : NodeCall) (r : HeartbeatRequest) : Quiet (heartbeat app c r) := by
  unfold heartbeat
  infer_instance

instance (r : BlockReportRequest) (x : DurableReceipt) : Quiet (clusterReported app r x) := by
  unfold clusterReported
  refine @Quiet.bind _ _ _ _ inferInstance fun _ => ?_
  refine @Quiet.bind _ _ _ _ inferInstance fun c => ?_
  split <;> infer_instance

instance (r : BlockReportRequest) (x : DurableReceipt) : Quiet (retireReported app r x) := by
  unfold retireReported
  infer_instance

instance (r : BlockReportRequest) (x : DurableReceipt) : Quiet (replicatedReported app r x) := by
  unfold replicatedReported
  refine @Quiet.bind _ _ _ _ inferInstance fun _ => ?_
  refine @Quiet.bind _ _ _ _ inferInstance fun w => ?_
  refine @Quiet.ite _ _ _ _ _ inferInstance ?_
  split <;> infer_instance

instance (r : BlockReportRequest) : Quiet (closeInventory app r) := by
  unfold closeInventory
  infer_instance

instance (r : BlockReportRequest) (n : DataNode) : Quiet (reportPage app r n) := by
  unfold reportPage
  infer_instance

instance (c : NodeCall) (r : BlockReportRequest) : Quiet (blockReport app c r) := by
  unfold blockReport
  infer_instance

instance (r : ReportTaskRequest) (t : Task) (n : DataNode) : Quiet (confirmCopy app r t n) := by
  unfold confirmCopy
  infer_instance

instance (c : NodeCall) (r : ReportTaskRequest) : Quiet (reportTask app c r) := by
  unfold reportTask
  infer_instance

/-! ## Maintenance -/

instance : Quiet failWriteCopies := by
  unfold failWriteCopies
  refine @Quiet.bind _ _ _ _ inferInstance fun c => ?_
  refine @Quiet.each _ _ _ fun task => ?_
  refine @Quiet.bind _ _ _ _ inferInstance fun a => ?_
  split <;> infer_instance

instance : Quiet (retireAssigned app) := by
  unfold retireAssigned
  refine @Quiet.bind _ _ _ _ inferInstance fun c => ?_
  refine @Quiet.each _ _ _ fun r => ?_
  refine @Quiet.bind _ _ _ _ inferInstance fun w => ?_
  split
  · infer_instance
  · split <;> infer_instance

instance : Quiet (collectTasks app) := by
  unfold collectTasks
  infer_instance

instance : Quiet (failCopies app) := by
  unfold failCopies
  infer_instance

instance (b : Block) (s : Location) (r : Nat) (d : List Id) (n : DataNode) :
    Quiet (repairAt app b s r d n) := by
  unfold repairAt
  infer_instance

instance (b : BlockRef) (r : Block) : Quiet (repairBlock app b r) := by
  unfold repairBlock
  refine @Quiet.bind _ _ _ _ inferInstance fun w => ?_
  refine @Quiet.bind _ _ _ _ inferInstance fun held => ?_
  refine @Quiet.bind _ _ _ _ inferInstance fun coming => ?_
  dsimp only
  split <;> infer_instance

instance (l : List BlockRef) (p : Policy) : Quiet (settlePromotion app l p) := by
  unfold settlePromotion
  infer_instance

instance : Quiet (reconcile app) := by
  have turn : ∀ ref : BlockRef, Quiet (do
      let a ← (liftM access : T Access)
      match a.blocks.get ref.blockVersionId with
      | none => pure ()
      | some record =>
          if (a.retired.get ref.blockVersionId).isSome = true then pure ()
          else repairBlock app ref record : T Unit) := fun ref => by
    refine @Quiet.bind _ _ _ _ inferInstance fun a => ?_
    split <;> infer_instance
  unfold reconcile
  infer_instance

instance (l : Location) (h : Health) : Quiet (scrubbed l h) := by
  unfold scrubbed
  refine @Quiet.bind _ _ _ _ inferInstance fun w => ?_
  split <;> infer_instance

instance (t : Task) (r : DurableReceipt) : Quiet (retireOrphan app t r) := by
  unfold retireOrphan
  infer_instance

instance (t : Task) (s : TaskStatus) : Quiet (cleanOrphan app t s) := by
  unfold cleanOrphan
  refine @Quiet.bind _ _ _ _ inferInstance fun a => ?_
  refine @Quiet.bind _ _ _ _ ?_ inferInstance
  split <;> infer_instance

instance (t : Id) : Quiet (dispatched t) := by
  unfold dispatched
  infer_instance

instance (t : Id) : Quiet (overdue t) := by
  unfold overdue
  infer_instance

instance : Quiet startNodes := by
  unfold startNodes
  infer_instance

instance : Quiet startReplicated := by
  have : Quiet (Tx.modify fun w => { w with maintenanceGeneration := w.generation } : T Unit) :=
    Quiet.modify fun _ => rfl
  unfold startReplicated
  infer_instance

end Dfsha
