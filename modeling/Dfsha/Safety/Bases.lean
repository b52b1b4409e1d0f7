import Dfsha.Control.Script
import Dfsha.Refine.Writes

/-!
# The bases of a write

A write of an existing block is built at a node that has the block.  `BeginWrite` looks for one in
the locations of the block, and was written when a location was all that was known of a copy; what
is known of its health and of the inventory it was reported in came later.  A part of a write starts
from a good copy exactly when the node that the search comes to, by readiness and room alone, has
one.

## Main definitions

* `EligibleAt`, `readyHolders` — the nodes with a good copy of a block, and those that are looked at.
* `Choice`, `choices` — how the parts of a write are planned, with the control before and behind.
* `StartsGood`, `BaseSound` — a part starts from a good copy; the search comes to one.

## Main results

* `bases_good` — the parts start from good copies exactly where the search comes to them.
-/

namespace Dfsha

variable (app : App)

/-- A node holds an eligible copy of a block. -/
def EligibleAt (w : World) (block node : Id) : Prop := ∃ l ∈ eligible app w block, l.node = node

/-- The ready nodes at which a copy of a block is recorded, whatever is known of the copy. -/
def readyHolders (w : World) (block : Id) : List DataNode :=
  ((w.cluster.locations.all.filter fun l => l.block = block).filterMap
    fun l => w.cluster.datanodes.get l.node).filter
    fun node => nodeState app w.access.now (some node) = .ready

/-- How a part of a write was planned: the block it changes, the version it makes of it, and the
control before a node was chosen for it and when it was planned. -/
structure Choice where
  base : BlockRef
  replacement : BlockRef
  before : World
  planned : World

/-- How the parts of a write are planned, one after the other. -/
def choices (user : User) (snap : Snapshot) (file : Id) :
    Operation × List PlannedBlock → List WritePart → World → List Choice
  | _, [], _ => []
  | acc, part :: parts, w =>
      match (draw app) w, (planPart app user snap file acc part) w with
      | .ok (id, before), .ok (acc', planned) =>
          let base := baseOf snap.blocks file part.blockIndex
          let size := max base.sizeBytes (part.blockOffset + part.length)
          ⟨base, ⟨file, id, part.blockIndex, size, .unset⟩, before, planned⟩ ::
            choices user snap file acc' parts planned
      | _, _ => []

/-- `BeginWrite` up to where it plans the parts: what is written to, and the operation. -/
def writeStart (user : User) (session : Session) (ctx : RequestContext) (req : BeginWriteRequest) :
    T (Writable × Operation) := do
  let (h, _) ← accessHandle app user session req.handleId
  let c ← cluster
  need ((policyOf c h.file).state ≠ .promoting) .lockBusy
  let t ← writable app user session req.handleId
  let offset ← needSome req.offset .invalidArgument
  let length ← needSome req.length .invalidArgument
  let growing ← beginCheck app t req offset length
  let opId ← draw app
  need (req.fences.length ≤ 6) .invalidArgument
  let indices := req.parts.map WritePart.blockIndex
  let g ← gatherFences session t.handle indices req.fences
  let g ← gatherOwn session t.handle indices g
  let g ← gatherMissing app t.handle indices growing g
  let fences ← Query.map g.locks message
  let epoch ← leaseEpoch
  let op := newWrite user session ctx req t opId offset length growing g.locks fences epoch
  putUpload op
  pure (t, op)

/-- How the parts of a request are planned. -/
def planned (user : User) (session : Session) (ctx : RequestContext) (req : BeginWriteRequest)
    (w : World) : List Choice :=
  match (writeStart app user session ctx req) w with
  | .ok ((t, op), v) => choices app user t.snap t.node.id (op, []) req.parts v
  | .error _ => []

/-- A part starts from a good copy: it is assigned to a node with an eligible copy of its base, or a
copy task to that node was created, from a node with an eligible copy and with its receipt. -/
def StartsGood (w : World) (c : Choice) : Prop :=
  ∃ a, w.cluster.assignments.get c.replacement.blockVersionId = some a ∧
    (EligibleAt app c.before c.base.blockVersionId a.node ∨
      ∃ t, w.cluster.tasks.get t.id = some t ∧ c.planned.cluster.tasks.get t.id = some t ∧
        (∃ k, c.before.access.issued ≤ k ∧ k < c.planned.access.issued ∧ t.id = app.uuid k) ∧
        t.kind = .copy ∧ t.status.state.active = true ∧ t.block = c.base ∧ t.dest = a.node ∧
        ∃ l ∈ eligible app c.before c.base.blockVersionId, l.node = t.src ∧
          t.receipt = some l.receipt)

/-- The search for a node comes to a good copy: the first ready node with a copy and with room has an
eligible one; or there is no room at any, and the first of them has, or the node that is found
instead, which may have become ready only then. -/
structure BaseSound (c : Choice) : Prop where
  patch : ∀ passed node rest,
    readyHolders app c.before c.base.blockVersionId = passed ++ node :: rest →
    (∀ n ∈ passed, ¬ roomFor app c.before n (storageCost c.replacement.sizeBytes) spare) →
    roomFor app c.before node (storageCost c.replacement.sizeBytes) spare →
    EligibleAt app c.before c.base.blockVersionId node.id
  copy : ∀ node rest, readyHolders app c.before c.base.blockVersionId = node :: rest →
    (∀ n ∈ node :: rest, ¬ roomFor app c.before n (storageCost c.replacement.sizeBytes) spare) →
    EligibleAt app c.before c.base.blockVersionId node.id ∨
      ∃ other, copyNode app (c.before.setAccess (c.before.access.later 2))
          (readyHolders app c.before c.base.blockVersionId)
          (storageCost c.replacement.sizeBytes + storageCost c.base.sizeBytes) = some other ∧
        EligibleAt app c.before c.base.blockVersionId other.id

variable {app} {w w' : World}

/-! ## Planning a block leaves tasks alone -/

/-- Planning a block assigns it, unless it is, and writes no task. -/
structure PlansBlock (block : Id) (u v : World) : Prop where
  issued : v.access.issued = u.access.issued
  tasks : v.cluster.tasks = u.cluster.tasks
  datanodes : v.cluster.datanodes = u.cluster.datanodes
  others : ∀ k, k ≠ block → v.cluster.assignments.get k = u.cluster.assignments.get k
  kept : ∀ a, u.cluster.assignments.get block = some a → v.cluster.assignments.get block = some a

namespace PlansBlock

variable {block : Id} {u v : World}

theorem refl (w : World) : PlansBlock block w w := ⟨rfl, rfl, rfl, fun _ _ => rfl, fun _ h => h⟩

theorem trans (h : PlansBlock block u v) (h' : PlansBlock block v w) : PlansBlock block u w where
  issued := h'.issued.trans h.issued
  tasks := h'.tasks.trans h.tasks
  datanodes := h'.datanodes.trans h.datanodes
  others k hk := (h'.others k hk).trans (h.others k hk)
  kept a ha := h'.kept a (h.kept a ha)

/-- Time passes, and records that are neither assignments nor tasks change. -/
theorem of_eq (hissued : v.access.issued = u.access.issued)
    (htasks : v.cluster.tasks = u.cluster.tasks)
    (hnodes : v.cluster.datanodes = u.cluster.datanodes)
    (hassigned : v.cluster.assignments = u.cluster.assignments) : PlansBlock block u v :=
  ⟨hissued, htasks, hnodes, fun _ _ => by rw [hassigned], fun _ h => by rwa [hassigned]⟩

end PlansBlock

theorem assign_plans {block : BlockRef} {op : Id} {r : Assignment × World}
    (h : (assign app block op) w = .ok r) : PlansBlock block.blockVersionId w r.2 := by
  unfold assign at h
  rw [run_world] at h
  cases hget : w.cluster.assignments.get block.blockVersionId with
  | some a =>
      simp only [hget, Tx.pure_ok] at h
      subst h
      exact .of_eq rfl rfl rfl rfl
  | none =>
      simp only [hget, run_needSome, run_onCluster, putAssignment, Tx.pure_ok] at h
      obtain ⟨chosen, -, rfl⟩ := h
      exact {
        issued := rfl
        tasks := rfl
        datanodes := rfl
        others := fun k hk => Table.get_put_of_ne _ (by exact hk)
        kept := fun a ha => by rw [hget] at ha; cases ha }

theorem clusterPlan_plans {block : BlockRef} {user : User} {binding : Binding}
    {r : PlannedBlock × World} (h : (clusterPlan app block user binding) w = .ok r) :
    PlansBlock block.blockVersionId w r.2 := by
  unfold clusterPlan at h
  obtain ⟨a, s, ha, h⟩ := Tx.bind_ok.mp h
  simp only [run_world, run_need, run_deref, Tx.pure_ok] at h
  obtain ⟨-, target, -, rfl⟩ := h
  exact (assign_plans ha).trans (.of_eq rfl rfl rfl rfl)

theorem policy_plans {block file : Id} {create : Bool} {r : Policy × World}
    (h : (policy app file create) w = .ok r) : PlansBlock block w r.2 := by
  unfold policy at h
  by_cases hc : create = true
  · rw [if_pos hc] at h
    unfold createPolicy at h
    rw [run_cluster] at h
    cases hget : w.cluster.policies.get file with
    | some p =>
        simp only [hget, Tx.pure_ok] at h
        subst h
        exact .of_eq rfl rfl rfl rfl
    | none =>
        simp only [hget, run_need, putPolicy, run_onCluster, Tx.pure_ok] at h
        obtain ⟨-, rfl⟩ := h
        exact .of_eq rfl rfl rfl rfl
  · rw [if_neg hc, run_cluster, Tx.pure_ok] at h
    subst h
    exact .of_eq rfl rfl rfl rfl

theorem reserveReplicas_plans {block : BlockRef} {op : Id} {p : Policy} {r : Unit × World}
    (h : (reserveReplicas app block op p) w = .ok r) : PlansBlock block.blockVersionId w r.2 := by
  unfold reserveReplicas at h
  rw [run_world] at h
  by_cases hsome : (w.cluster.replicaPlans.get block.blockVersionId).isSome = true
  · rw [if_pos hsome, Tx.pure_ok] at h
    subst h
    exact .of_eq rfl rfl rfl rfl
  · rw [if_neg hsome] at h
    simp only [run_query, putReplicaPlan, onCluster_ok] at h
    obtain ⟨primary, -, first, -, x, -, -, -, rfl⟩ := h
    exact .of_eq rfl rfl rfl rfl

theorem plan_plans {block : BlockRef} {user : User} {binding : Binding} {r : PlannedBlock × World}
    (h : (plan app block user binding) w = .ok r) : PlansBlock block.blockVersionId w r.2 := by
  unfold plan at h
  cases hp : app.profile with
  | monolith =>
      simp only [hp, Tx.pure_ok] at h
      subst h
      exact .refl w
  | distributed => exact clusterPlan_plans (by simpa only [hp] using h)
  | rf3 => exact clusterPlan_plans (by simpa only [hp] using h)
  | replicated =>
      simp only [hp] at h
      obtain ⟨result, s, hresult, h⟩ := Tx.bind_ok.mp h
      obtain ⟨p, s₁, hpolicy, h⟩ := Tx.bind_ok.mp h
      obtain ⟨u, s₂, hreserve, h⟩ := Tx.bind_ok.mp h
      rw [Tx.pure_ok] at h
      subst h
      exact ((clusterPlan_plans hresult).trans (policy_plans hpolicy)).trans
        (reserveReplicas_plans hreserve)

/-! ## Assigning a patch -/

/-- The node of a patch was found: one that has the base, or one that it is copied to. -/
inductive PatchAssigned (app : App) (base replacement : BlockRef) (u v : World) : Prop
  | held (node : DataNode)
      (hnode : patchNode app u (readyHolders app u base.blockVersionId)
        (storageCost replacement.sizeBytes) = some node)
      (hissued : v.access.issued = u.access.issued)
      (hcluster : ∃ a : Assignment, a.id = replacement.blockVersionId ∧ a.node = node.id ∧
        v.cluster = { u.cluster with assignments := u.cluster.assignments.put a })
  | copied (node source : DataNode) (l : Location) (t : Task)
      (hnone : patchNode app u (readyHolders app u base.blockVersionId)
        (storageCost replacement.sizeBytes) = none)
      (hnode : copyNode app (u.setAccess (u.access.later 2))
        (readyHolders app u base.blockVersionId)
        (storageCost replacement.sizeBytes + storageCost base.sizeBytes) = some node)
      (hsource : (readyHolders app u base.blockVersionId).head? = some source)
      (hlocation : locationAt u.cluster base.blockVersionId source.id = some l)
      (hissued : v.access.issued = u.access.issued + 1)
      (htask : t.id = app.uuid u.access.issued ∧ t.kind = .copy ∧ t.status.state.active = true ∧
        t.block = base ∧ t.src = source.id ∧ t.dest = node.id ∧ t.receipt = some l.receipt)
      (hcluster : ∃ a : Assignment, a.id = replacement.blockVersionId ∧ a.node = node.id ∧
        v.cluster = { u.cluster with
          tasks := u.cluster.tasks.put t, assignments := u.cluster.assignments.put a })

theorem newTask_ok {kind : TaskKind} {block : BlockRef} {src dest : Id} {r : Task × World}
    (h : (newTask app kind block src dest) w = .ok r) :
    (r.1.id = app.uuid w.access.issued ∧ r.1.kind = kind ∧ r.1.status.state.active = true ∧
      r.1.block = block ∧ r.1.src = src ∧ r.1.dest = dest) ∧
    r.2.access.issued = w.access.issued + 1 ∧ r.2.cluster = w.cluster := by
  unfold newTask at h
  simp only [run_draw, run_now, run_world] at h
  by_cases hr : app.replicated = true
  · rw [if_pos hr, Tx.pure_ok] at h
    subst h
    exact ⟨⟨rfl, rfl, rfl, rfl, rfl, rfl⟩, rfl, rfl⟩
  · rw [if_neg hr, Tx.pure_ok] at h
    subst h
    exact ⟨⟨rfl, rfl, rfl, rfl, rfl, rfl⟩, rfl, rfl⟩

theorem assignPatch_ok {opId : Id} {base replacement : BlockRef} {r : Unit × World}
    (h : (assignPatch app opId base replacement) w = .ok r) :
    readyHolders app w base.blockVersionId ≠ [] ∧
      PatchAssigned app base replacement w r.2 := by
  unfold assignPatch at h
  rw [run_world, run_need] at h
  obtain ⟨hne, h⟩ := h
  refine ⟨hne, ?_⟩
  cases hpatch : patchNode app w (readyHolders app w base.blockVersionId)
      (storageCost replacement.sizeBytes) with
  | some node =>
      rw [readyHolders] at hpatch
      simp only [hpatch, Option.elim, run_pure, putAssignment, onCluster_ok] at h
      subst h
      exact .held node hpatch rfl ⟨_, rfl, rfl, rfl⟩
  | none =>
      rw [readyHolders] at hpatch
      simp only [hpatch, Option.elim] at h
      obtain ⟨node, s, horder, h⟩ := Tx.bind_ok.mp h
      unfold orderBase at horder
      simp only [run_world, run_needSome, run_deref] at horder
      obtain ⟨chosen, hchosen, source, hsource, l, hl, horder⟩ := horder
      obtain ⟨t, s₁, htask, horder⟩ := Tx.bind_ok.mp horder
      obtain ⟨⟨h1, h2, h3, h4, h5, h6⟩, hissued, hcluster⟩ := newTask_ok htask
      simp only [putTask, run_onCluster, Tx.pure_ok, Prod.mk.injEq] at horder
      obtain ⟨rfl, rfl⟩ := horder
      simp only [putAssignment, onCluster_ok] at h
      subst h
      rw [setAccess_setAccess, setAccess_access, Access.later_later] at hchosen
      refine .copied node source l { t with
          source := some source.location, destination := some node.location,
          receipt := some l.receipt, reserved := storageCost base.sizeBytes,
          writeOperation := some opId } hpatch hchosen hsource hl (by exact hissued)
        ⟨h1, h2, h3, h4, h5, h6, rfl⟩ ⟨⟨replacement.blockVersionId, node.id, opId,
          node.location.bootGeneration, storageCost replacement.sizeBytes⟩, rfl, rfl, ?_⟩
      rw [hcluster]
      rfl

/-! ## Planning a part -/

/-- Assignments and tasks of identifiers that were drawn before stay as they are. -/
structure Firm (app : App) (u v : World) : Prop where
  issued : u.access.issued ≤ v.access.issued
  assignments : ∀ k < u.access.issued,
    v.cluster.assignments.get (app.uuid k) = u.cluster.assignments.get (app.uuid k)
  tasks : ∀ k < u.access.issued, v.cluster.tasks.get (app.uuid k) = u.cluster.tasks.get (app.uuid k)

namespace Firm

variable {u v : World}

theorem refl (w : World) : Firm app w w := ⟨le_refl _, fun _ _ => rfl, fun _ _ => rfl⟩

theorem trans (h : Firm app u v) (h' : Firm app v w) : Firm app u w where
  issued := h.issued.trans h'.issued
  assignments k hk := (h'.assignments k (hk.trans_le h.issued)).trans (h.assignments k hk)
  tasks k hk := (h'.tasks k (hk.trans_le h.issued)).trans (h.tasks k hk)

end Firm

/-- How a choice was made. -/
structure Choice.Made (app : App) (c : Choice) : Prop where
  drawn : ∃ k, c.before.access.issued = k + 1 ∧ c.replacement.blockVersionId = app.uuid k
  patched : c.base.blockVersionId ≠ 0 →
    readyHolders app c.before c.base.blockVersionId ≠ [] ∧
    ∃ s, PatchAssigned app c.base c.replacement c.before s ∧
      PlansBlock c.replacement.blockVersionId s c.planned
  fresh : c.base.blockVersionId = 0 →
    PlansBlock c.replacement.blockVersionId c.before c.planned

theorem PatchAssigned.firm {base replacement : BlockRef} {u v : World} {k : Nat}
    (h : PatchAssigned app base replacement u v)
    (hid : replacement.blockVersionId = app.uuid k) (hk : u.access.issued = k + 1) :
    u.access.issued ≤ v.access.issued ∧
      (∀ j < k, v.cluster.assignments.get (app.uuid j) = u.cluster.assignments.get (app.uuid j)) ∧
      ∀ j < k, v.cluster.tasks.get (app.uuid j) = u.cluster.tasks.get (app.uuid j) := by
  have hassigned : ∀ (a : Assignment) (j : Nat), a.id = replacement.blockVersionId → j < k →
      (u.cluster.assignments.put a).get (app.uuid j) = u.cluster.assignments.get (app.uuid j) := by
    intro a j ha hj
    apply Table.get_put_of_ne
    intro he
    have := app.uuid_injective (he.trans (ha.trans hid))
    omega
  cases h with
  | held node hnode hissued hcluster =>
      obtain ⟨a, ha, -, hcluster⟩ := hcluster
      rw [hcluster]
      exact ⟨hissued.ge, fun j hj => hassigned a j ha hj, fun _ _ => rfl⟩
  | copied node source l t hnone hnode hsource hlocation hissued htask hcluster =>
      obtain ⟨a, ha, -, hcluster⟩ := hcluster
      rw [hcluster]
      refine ⟨by omega, fun j hj => hassigned a j ha hj, fun j hj => ?_⟩
      apply Table.get_put_of_ne
      intro he
      have := app.uuid_injective (he.trans htask.1)
      omega

theorem planPart_made {user : User} {snap : Snapshot} {file : Id}
    {acc : Operation × List PlannedBlock} {part : WritePart}
    {r : (Operation × List PlannedBlock) × World}
    (h : (planPart app user snap file acc part) w = .ok r) :
    ∃ c : Choice, Choice.Made app c ∧ Firm app w r.2 ∧ c.planned = r.2 ∧
      (draw app) w = .ok (c.replacement.blockVersionId, c.before) ∧
      c.base = baseOf snap.blocks file part.blockIndex ∧
      c.replacement = ⟨file, c.replacement.blockVersionId, part.blockIndex,
        max c.base.sizeBytes (part.blockOffset + part.length), .unset⟩ ∧
      r.1.2.map (fun p => (p.block, p.replacementBlockVersionId)) =
        acc.2.map (fun p => (p.block, p.replacementBlockVersionId)) ++
          [(c.base, c.replacement.blockVersionId)] := by
  unfold planPart at h
  simp only [run_draw] at h
  obtain ⟨u, s, hassign, h⟩ := Tx.bind_ok.mp h
  obtain ⟨p, s₁, hplan, h⟩ := Tx.bind_ok.mp h
  simp only [↓run_world, ↓run_deref, putUpload, run_onAccess, Tx.pure_ok] at h
  obtain ⟨first, -, target, -, rfl⟩ := h
  have hplans := plan_plans hplan
  set base := baseOf snap.blocks file part.blockIndex with hbase
  refine ⟨⟨base, ⟨file, app.uuid w.access.issued, part.blockIndex,
      max base.sizeBytes (part.blockOffset + part.length), .unset⟩,
      w.setAccess (w.access.shift 1 1), _⟩, ⟨⟨_, rfl, rfl⟩, fun hne => ?_, fun h0 => ?_⟩, ?_, rfl,
    ?_, rfl, rfl, ?_⟩
  · rw [if_pos hne] at hassign
    obtain ⟨hholders, hassigned⟩ := assignPatch_ok hassign
    exact ⟨hholders, s, hassigned, hplans.trans (.of_eq rfl rfl rfl rfl)⟩
  · rw [if_neg (not_not.mpr h0), Tx.pure_ok] at hassign
    obtain rfl := (Prod.mk.inj hassign).2
    exact hplans.trans (.of_eq rfl rfl rfl rfl)
  · have hother : ∀ j < w.access.issued, app.uuid j ≠ app.uuid w.access.issued := fun j hj he => by
      have := app.uuid_injective he
      omega
    by_cases hne : base.blockVersionId ≠ 0
    · rw [if_pos hne] at hassign
      obtain ⟨hissued, hassignments, htasks⟩ := (assignPatch_ok hassign).2.firm rfl rfl
      have hle : w.access.issued + 1 ≤ s₁.access.issued := hissued.trans hplans.issued.ge
      exact ⟨by exact Nat.le_of_succ_le hle,
        fun j hj => (hplans.others _ (hother j hj)).trans (hassignments j hj),
        fun j hj => (congrArg (Table.get · (app.uuid j)) hplans.tasks).trans (htasks j hj)⟩
    · rw [if_neg hne, Tx.pure_ok] at hassign
      obtain rfl := (Prod.mk.inj hassign).2
      have hissued : s₁.access.issued = w.access.issued + 1 := hplans.issued
      exact ⟨by exact hissued ▸ Nat.le_succ _, fun j hj => hplans.others _ (hother j hj),
        fun j _ => congrArg (Table.get · (app.uuid j)) hplans.tasks⟩
  · simp only [draw, run_access, run_onAccess, Tx.pure_ok]
    rfl
  · simp

/-! ## Which choices start from a good copy -/

/-- **A part starts from a good copy** exactly when the search comes to one. -/
theorem Choice.good_iff {c : Choice} (hm : Choice.Made app c) (hbase : c.base.blockVersionId ≠ 0)
    (hf : Firm app c.planned w) : StartsGood app w c ↔ BaseSound app c := by
  obtain ⟨hne, s, hassigned, hplans⟩ := hm.patched hbase
  obtain ⟨k, hk, hid⟩ := hm.drawn
  have hplanned : c.planned.access.issued = s.access.issued := hplans.issued
  have hstays : ∀ a : Assignment, c.before.access.issued ≤ s.access.issued →
      s.cluster.assignments.get c.replacement.blockVersionId = some a →
      w.cluster.assignments.get c.replacement.blockVersionId = some a := fun a hle ha => by
    rw [hid, hf.assignments k (by omega), ← hid]
    exact hplans.kept a ha
  cases hassigned with
  | held node hnode hissued hcluster =>
      obtain ⟨a, ha, hat, hcluster⟩ := hcluster
      have hget := hstays a hissued.ge (by rw [hcluster, ← ha]; exact Table.get_put_self _ a)
      obtain ⟨hroom, passed, rest, hsplit, hpassed⟩ := List.find?_eq_some_iff_append.mp hnode
      rw [decide_eq_true_eq] at hroom
      have hfull : ∀ n ∈ passed, ¬ roomFor app c.before n
          (storageCost c.replacement.sizeBytes) spare := fun n hn => by simpa using hpassed n hn
      constructor
      · rintro ⟨a', ha', hgood⟩
        obtain rfl := Option.some.inj (hget.symm.trans ha')
        have heligible : EligibleAt app c.before c.base.blockVersionId node.id := by
          rcases hgood with hgood | ⟨t, -, -, ⟨j, hj, hlt, -⟩, -⟩
          · exact hat ▸ hgood
          · omega
        constructor
        · intro passed' node' rest' hsplit' hfull' hroom'
          have hfound : patchNode app c.before (readyHolders app c.before c.base.blockVersionId)
              (storageCost c.replacement.sizeBytes) = some node' :=
            List.find?_eq_some_iff_append.mpr ⟨decide_eq_true hroom', passed', rest', hsplit',
              fun n hn => by simpa using hfull' n hn⟩
          obtain rfl := Option.some.inj (hnode.symm.trans hfound)
          exact heligible
        · intro node' rest' hsplit' hfull'
          have hmem : node ∈ node' :: rest' := by
            rw [← hsplit', hsplit]
            simp
          exact absurd hroom (hfull' node hmem)
      · intro h
        refine ⟨a, hget, .inl ?_⟩
        rw [hat]
        exact h.patch passed node rest hsplit hfull hroom
  | copied node source l t hnone hnode hsource hlocation hissued htask hcluster =>
      obtain ⟨a, ha, hat, hcluster⟩ := hcluster
      obtain ⟨htid, hkind, hactive, hblock, hsrc, hdest, hreceipt⟩ := htask
      have hget := hstays a (by omega) (by rw [hcluster, ← ha]; exact Table.get_put_self _ a)
      have htasks : c.planned.cluster.tasks.get t.id = some t := by
        rw [hplans.tasks, hcluster]
        exact Table.get_put_self _ t
      have hfull : ∀ n ∈ readyHolders app c.before c.base.blockVersionId, ¬ roomFor app c.before n
          (storageCost c.replacement.sizeBytes) spare := fun n hn => by
        simpa using List.find?_eq_none.mp hnone n hn
      constructor
      · rintro ⟨a', ha', hgood⟩
        obtain rfl := Option.some.inj (hget.symm.trans ha')
        constructor
        · intro passed' node' rest' hsplit' _ hroom'
          exact absurd hroom' (hfull node' (by rw [hsplit']; simp))
        · intro node' rest' hsplit' _
          rcases hgood with hgood | ⟨t', -, ht', ⟨j, hj, hlt, hj'⟩, -, -, -, -, l', hl', hat', -⟩
          · exact .inr ⟨node, hnode, hat ▸ hgood⟩
          · obtain rfl : j = c.before.access.issued := by omega
            obtain rfl := Option.some.inj (htasks.symm.trans (htid.trans hj'.symm ▸ ht'))
            rw [hsplit'] at hsource
            obtain rfl := Option.some.inj hsource
            exact .inl ⟨l', hl', hat'.trans hsrc⟩
      · intro h
        obtain ⟨first, rest, hsplit⟩ := List.exists_cons_of_ne_nil hne
        rw [hsplit] at hsource
        obtain rfl := Option.some.inj hsource
        refine ⟨a, hget, ?_⟩
        rcases h.copy first rest hsplit (hsplit ▸ hfull) with ⟨l', hl', hat'⟩ | ⟨other, hother, hgood⟩
        · have hl'' : l' = l := by
            have hmem := List.mem_filter.mp hl'
            have heligible := of_decide_eq_true hmem.2
            have hkey := Table.get_of_mem hmem.1
            rw [locationAt, ← hat', ← heligible.1] at hlocation
            exact Option.some.inj (hkey.symm.trans hlocation)
          refine .inr ⟨t, ?_, htasks, ⟨_, le_refl _, by omega, htid⟩, hkind, hactive, hblock,
            hdest.trans hat.symm, l', hl', hat'.trans hsrc.symm, hl'' ▸ hreceipt⟩
          rw [htid, hf.tasks _ (by omega), ← htid]
          exact htasks
        · obtain rfl := Option.some.inj (hnode.symm.trans hother)
          exact .inl (hat ▸ hgood)

/-! ## Which writes do -/

theorem choices_made {user : User} {snap : Snapshot} {file : Id} {parts : List WritePart} :
    ∀ {acc : Operation × List PlannedBlock} {w : World}
      {r : (Operation × List PlannedBlock) × World},
      (Tx.fold parts (planPart app user snap file) acc) w = .ok r →
      Firm app w r.2 ∧
      (∀ c ∈ choices app user snap file acc parts w, Choice.Made app c ∧ Firm app c.planned r.2) ∧
      r.1.2.map (fun p => (p.block, p.replacementBlockVersionId)) =
        acc.2.map (fun p => (p.block, p.replacementBlockVersionId)) ++
          (choices app user snap file acc parts w).map fun c =>
            (c.base, c.replacement.blockVersionId) := by
  induction parts with
  | nil =>
      intro acc w r h
      rw [Tx.fold, Tx.pure_ok] at h
      subst h
      simp [choices, Firm.refl]
  | cons part parts ih =>
      intro acc w r h
      rw [Tx.fold] at h
      obtain ⟨acc', s, hpart, hrest⟩ := Tx.bind_ok.mp h
      obtain ⟨c, hmade, hfirm, hplanned, hdraw, hbase, hreplacement, hmap⟩ := planPart_made hpart
      obtain ⟨hfirm', hall, hmap'⟩ := ih hrest
      have hchoices : choices app user snap file acc (part :: parts) w =
          c :: choices app user snap file acc' parts s := by
        rw [choices, hdraw, hpart]
        simp only
        rw [← hbase, ← hreplacement]
        obtain ⟨base, replacement, before, planned⟩ := c
        simp only at hplanned
        rw [hplanned]
      rw [hchoices]
      refine ⟨hfirm.trans hfirm', ?_, ?_⟩
      · rw [List.forall_mem_cons]
        exact ⟨⟨hmade, hplanned ▸ hfirm'⟩, hall⟩
      · rw [hmap', hmap, List.map_cons, List.append_assoc]
        rfl

/-- Assignments and tasks. -/
def World.work (w : World) : Table Assignment × Table Task :=
  (w.cluster.assignments, w.cluster.tasks)

instance : AsideAccess World.work := ⟨fun _ _ _ => rfl⟩

instance : AllowsCreation (Same World.work) := ⟨fun app file => ⟨fun w r h => by
  unfold createPolicy at h
  rw [run_cluster] at h
  cases hget : w.cluster.policies.get file with
  | some p =>
      simp only [hget, Tx.pure_ok] at h
      subst h
      rfl
  | none =>
      simp only [hget, run_need, putPolicy, run_onCluster, Tx.pure_ok] at h
      obtain ⟨-, rfl⟩ := h
      rfl⟩⟩

theorem work_of_leaves {α : Type} {x : T α} [hx : Leaves World.work x] {r : α × World}
    (h : x w = .ok r) : r.2.work = w.work := Leaves.leaves hx w r h

/-- A report of a second data node. -/
def secondCall (requestId : Id) : NodeCall := ⟨2, ⟨requestId, 2, 3, ⟨32, 0⟩⟩⟩

/-- What the second data node says when it has copied the block. -/
def secondReceipt : DurableReceipt := ⟨84, 17, smallBlock, 2, 1, 3, 100, ⟨32, 8⟩, 0⟩

/-- The block is copied to a second data node, and the first one comes back without it. -/
def smallMoved : List Input := smallCommit ++
  [.call (.registerNode (secondCall 80) ⟨⟨2, 1, 2, 2, 3⟩, 1073741824, 1073741824, 81⟩),
   .call (.blockReport (secondCall 82) ⟨2, 1, 81, 0, [], true, 0⟩),
   .call (.heartbeat (secondCall 83) ⟨2, 1, 1, 1073741824, 0, 0⟩),
   smallInput 54 (.copyBlock ⟨smallBlock, 1, 2⟩),
   .call (.reportTask (secondCall 85) ⟨2, 1, ⟨17, .finished, some secondReceipt, none⟩,
     ⟨17, 0, 7, 1, 0, [], false, false, 0⟩⟩),
   .call (.registerNode (smallCall 86) ⟨⟨1, 2, 1, 1, 2⟩, 1073741824, 1073741824, 87⟩),
   .call (.blockReport (smallCall 88) ⟨1, 2, 87, 0, [], true, 0⟩),
   .call (.heartbeat (smallCall 89) ⟨1, 2, 1, 1073741824, 0, 0⟩)]

/-- Three more bytes in the place of the first ones. -/
def smallRewrite : BeginWriteRequest :=
  ⟨12, ⟨10, 1, 2, 16, 3, ⟨32, 16⟩, none, 4194304⟩, some 0, some 3, ⟨32, 0⟩, [],
    [⟨0, 0, 0, 3, ⟨32, 0⟩⟩]⟩

/-- The session of the administrator. -/
def smallSession : Session := ⟨8, 9, 1, 4600000, false⟩

instance (w : World) (block node : Id) : Decidable (EligibleAt app w block node) :=
  inferInstanceAs (Decidable (∃ l ∈ eligible app w block, _))

/-- The rewrite is planned at the first data node. -/
def Rewritten (w : World) : Prop :=
  ((w.after (protectionBeginWrite (App.small .replicated) smallUser smallSession (smallContext 55)
    smallRewrite)).any fun w' =>
      (∀ t ∈ w'.cluster.tasks.all, t.dest = 2) ∧
      ((planned (App.small .replicated) smallUser smallSession (smallContext 55) smallRewrite
        w).any fun c => c.base.blockVersionId = 15 ∧
          (w'.cluster.assignments.get c.replacement.blockVersionId).map Assignment.node = some 1 ∧
          ¬ EligibleAt (App.small .replicated) c.before 15 1 ∧
          EligibleAt (App.small .replicated) c.before 15 2)) = true

instance (w : World) : Decidable (Rewritten w) := inferInstanceAs (Decidable (_ = true))

theorem smallMoved_rewritten : ∃ w, Reachable (App.small .replicated) (fun _ => True) w ∧
    Rewritten w := by
  obtain ⟨w, hw, h⟩ := exists_of_perform (App.small .replicated) smallMoved
    (World.small .replicated) Rewritten (by decide +kernel)
  exact ⟨w, perform_reachable hw, h⟩

end Dfsha
