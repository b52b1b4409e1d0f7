import Dfsha.Refine.Frame
import Dfsha.Refine.Open

/-!
# Uploading a file

Every step of an upload starts with `operation`, which finds the operation in preparation and
its whole-file lock live.  Beginning one is a single action, since the lock and the operation
are written together; the commit publishes the snapshot twice, and only the second time with
its version, so that the action is the one that publishes the final record.
-/

namespace Dfsha

variable {app : App} {trust : Trust} {w : World}

/-! ## The check that every step begins with -/

/-- What `operation` guarantees in a control with leases. -/
structure Uploading (a : Access) (op : Operation) : Prop where
  stored : a.uploads.get op.id = some op
  kind : op.kind = .upload
  state : op.state = .preparing
  base : ∀ b ∈ op.base, ∃ m, a.nodes.get op.file = some m ∧ m.alive = true ∧ m.snapshot = some b
  lock : ∀ f ∈ op.fullFence, ∃ l, a.locks.get f.lockId = some l ∧ a.liveLock l

theorem uploadBase_ok {user : User} {a : Access} {op : Operation} {u : Unit}
    (h : (uploadBase app user a op) w = .ok u) :
    ∀ b ∈ op.base, ∃ m, a.nodes.get op.file = some m ∧ m.alive = true ∧ m.snapshot = some b := by
  intro b hb
  rw [Option.mem_def] at hb
  simp only [uploadBase, hb, Query.bind_ok, need_ok] at h
  obtain ⟨_, ⟨ha, hsn⟩, -⟩ := h
  cases hn : a.nodes.get op.file with
  | none => simp [hn] at ha
  | some m => exact ⟨m, rfl, by simpa [hn] using ha, by simpa [hn] using hsn⟩

theorem commandsOperation_ok {user : User} {session : Session} {reference : OperationRef}
    {fence : Option Fence} {op : Operation}
    (h : (commandsOperation app user session reference fence) w = .ok op) :
    w.access.uploads.get reference.operationId = some op ∧ op.state = .preparing ∧
      ∀ b ∈ op.base, ∃ m, w.access.nodes.get op.file = some m ∧ m.alive = true ∧
        m.snapshot = some b := by
  simp only [commandsOperation, Query.bind_ok, access, Query.read_ok, needSome_ok, need_ok,
    Query.pure_ok] at h
  obtain ⟨a, rfl, o, ho, _, -, _, -, _, hst, _, -, _, -, _, hbase, _, -, rfl⟩ := h
  exact ⟨ho, hst.1, uploadBase_ok hbase⟩

theorem accessOperation_ok {user : User} {session : Session} {reference : OperationRef}
    {fence : Option Fence} {op : Operation}
    (h : (accessOperation app user session reference fence) w = .ok op) :
    op.id = reference.operationId ∧ Uploading w.access op := by
  simp only [accessOperation, Query.bind_ok, need_ok] at h
  obtain ⟨o, ho, _, hk, h⟩ := h
  obtain ⟨hget, hst, hbase⟩ := commandsOperation_ok ho
  have hlock : o = op ∧ ∀ f ∈ o.fullFence, ∃ l, w.access.locks.get f.lockId = some l ∧
      w.access.liveLock l := by
    split at h
    · rename_i hf
      simp only [Query.pure_ok] at h
      exact ⟨h, by simp [hf]⟩
    · rename_i full hf
      simp only [Query.bind_ok, Query.pure_ok] at h
      obtain ⟨l, hl, rfl⟩ := h
      obtain ⟨hlget, -, hlive, -⟩ := validate_ok hl
      refine ⟨rfl, fun f hmem => ?_⟩
      rw [hf, Option.mem_def, Option.some.injEq] at hmem
      subst hmem
      exact ⟨l, hlget, hlive⟩
  obtain ⟨rfl, hlock⟩ := hlock
  have hid : o.id = reference.operationId := upload_id_of_get hget
  refine ⟨hid, ⟨hid ▸ hget, ?_, hst, hbase, hlock⟩⟩
  cases hkind : o.kind with
  | upload => rfl
  | write => exact absurd hkind hk

/-- **What `operation` guarantees**, in every class of control. -/
theorem operation_ok {user : User} {session : Session} {reference : OperationRef}
    {fence : Option Fence} {op : Operation} (hs : Sound app w.access)
    (h : (operation app user session reference fence) w = .ok op) :
    op.id = reference.operationId ∧ Uploading w.access op := by
  rw [operation] at h
  split at h
  · exact accessOperation_ok h
  · rename_i hr
    obtain ⟨hget, hst, hbase⟩ := commandsOperation_ok h
    have hid : op.id = reference.operationId := upload_id_of_get hget
    obtain ⟨hkind, hfull⟩ := hs.plain (by simpa using hr) op (Table.mem_of_get hget)
    exact ⟨hid, hid ▸ hget, hkind, hst, hbase, fun f hf => absurd (hfull.symm.trans hf) (by simp)⟩

/-- An operation that is given out has not expired. -/
theorem operation_unexpired {user : User} {session : Session} {reference : OperationRef}
    {fence : Option Fence} {op : Operation}
    (h : (operation app user session reference fence) w = .ok op) :
    w.access.now < op.expires := by
  have hcommands : ∀ {o : Operation}, (commandsOperation app user session reference fence) w =
      .ok o → w.access.now < o.expires := by
    intro o h
    simp only [commandsOperation, Query.bind_ok, access, Query.read_ok, needSome_ok, need_ok,
      Query.pure_ok] at h
    obtain ⟨a, rfl, o, -, _, -, _, -, _, hst, _, -, _, -, _, -, _, -, rfl⟩ := h
    exact hst.2
  rw [operation] at h
  split at h
  · simp only [accessOperation, Query.bind_ok, need_ok] at h
    obtain ⟨o, ho, _, -, h⟩ := h
    have hoo : o = op := by
      split at h
      · exact Query.pure_ok.mp h
      · rw [Query.bind_ok] at h
        obtain ⟨_, -, h⟩ := h
        exact Query.pure_ok.mp h
    exact hoo ▸ hcommands ho
  · exact hcommands h

/-! ## Beginning -/

theorem children_later (a : Access) (k : Nat) (p : Id) : children (a.later k) p = children a p := rfl

theorem uploadTarget_ok {user : User} {req : BeginUploadRequest} {a : Access} {n m : Node}
    {s : Snapshot} (h : (uploadTarget app user req a (some n)) w = .ok (some (m, s))) :
    m = n ∧ n.snapshot = some s.id ∧ a.snapshots.get s.id = some s := by
  simp only [uploadTarget, Query.bind_ok, deref_ok, need_ok, Query.pure_ok, Option.some.injEq,
    Prod.mk.injEq] at h
  obtain ⟨_, -, _, -, _, -, root, hroot, snap, hsnap, _, -, rfl, rfl⟩ := h
  have hid : snap.id = root := snapshot_id_of_get hsnap
  exact ⟨rfl, hid ▸ hroot, hid ▸ hsnap⟩

theorem commandsBeginUpload_ok {user : User} {session : Session} {ctx : RequestContext}
    {req : BeginUploadRequest} {op : Operation} {w' : World} (hs : Sound app w.access)
    (h : (commandsBeginUpload app user session ctx req) w = .ok (op, w')) :
    ∃ k n, w' = w.setAccess { w.access.shift k n with uploads := w.access.uploads.put op } ∧
      Planned app (w.access.shift k n) op ∧ op.fullFence = none := by
  unfold commandsBeginUpload at h
  simp only [↓run_access, ↓run_need, run_query, run_draw, setAccess_access, setAccess_setAccess,
    Access.later_later, Access.later_shift, Nat.reduceAdd] at h
  obtain ⟨-, -, ⟨parent, name⟩, hparent, -, old, hold, cost, -, h⟩ := h
  have hloc := parentOf_ok (w := w.setAccess (w.access.later 3)) (hs.advance 3) hparent
  obtain ⟨file, s, hfile, h⟩ := Tx.bind_ok.mp h
  simp only [↓run_now, putUpload, run_onAccess, setAccess_access, setAccess_setAccess,
    Tx.pure_ok, Prod.mk.injEq] at h
  obtain ⟨rfl, rfl⟩ := h
  cases old with
  | none =>
      simp only [Option.elim, draw, run_access, run_onAccess, Tx.pure_ok, Prod.mk.injEq] at hfile
      obtain ⟨rfl, rfl⟩ := hfile
      have hfresh := fresh_shift hs 12 (i := 1) (n := 2) (by omega)
      refine ⟨12, 2, rfl, ⟨fresh_shift hs 12 (i := 0) (n := 2) (by omega), rfl, rfl, rfl, rfl, rfl,
        rfl, rfl, fun he => ?_, fun b hb => absurd hb (by simp), fun _ => ⟨hfresh, fun he => ?_,
        app.blockSize_mem⟩, fun _ => rfl⟩, rfl⟩
      · exact Mentions.not_node hfresh.2 hloc.mem
          (by simp only [Node.ids, List.mem_cons]; exact .inl (Option.some.inj he).symm)
      · exact absurd (app.uuid_injective he) (by simp [Access.shift])
  | some x =>
      obtain ⟨node, snap⟩ := x
      simp only [Option.elim, Tx.pure_ok, Prod.mk.injEq] at hfile
      obtain ⟨rfl, rfl⟩ := hfile
      obtain ⟨n, hfound⟩ : ∃ n, (children w.access parent.id).find? (fun n => n.name = name) =
          some n := by
        cases hf : (children w.access parent.id).find? (fun n => n.name = name) with
        | none =>
            rw [children_later, hf] at hold
            simp [uploadTarget] at hold
        | some n => exact ⟨n, rfl⟩
      rw [children_later, hfound] at hold
      obtain ⟨rfl, hsnap, hstored⟩ := uploadTarget_ok hold
      obtain ⟨hmem, ha, hp⟩ := mem_children.mp (List.mem_of_find?_eq_some hfound)
      have hget : w.access.nodes.get node.id = some node := Table.get_of_mem hmem
      have hbase : (some (node, snap)).bind (fun x => x.1.snapshot) = some snap.id := hsnap
      refine ⟨11, 1, rfl, ⟨fresh_shift hs 11 (i := 0) (n := 1) (by omega), rfl, rfl, rfl, rfl, rfl,
        rfl, rfl, fun he => ?_, fun b hb => ?_, fun hb => absurd (hb.symm.trans hbase) (by simp),
        fun hb => absurd (hb.symm.trans hbase) (by simp)⟩, rfl⟩
      · have hid : parent.id = node.id := Option.some.inj he
        have : node = parent := get_unique hloc.get hmem hid.symm
        exact hloc.parent_ne (this ▸ hp)
      · have hb' : snap.id = b := Option.some.inj (hbase.symm.trans hb)
        exact ⟨node, snap, ⟨hget, ha, hsnap, hstored⟩, hb', rfl, rfl⟩

/-- Beginning an upload is one action, though its lock and its operation are written twice. -/
theorem acts_beginUpload {a : Access} {o : Operation} {session : Id} {l : Lock} {f : Fence}
    {j : Nat} (d : Nat) (hr : app.rf3 = true) (hb : trust.begins o.id) (hplan : Planned app a o)
    (hg : Granted app a ⟨o.id, o.file, session⟩ [] true true true l)
    (hc : ∀ m ∈ a.locks.all, (a.later j).liveLock m → m.file = o.file →
      m.owner ≠ ⟨o.id, o.file, session⟩ → Compatible l m)
    (hf : f.matchesLock l) :
    Acts app trust a
      { a.later (j + 2) with
        issued := a.issued + 1, lockSequence := a.lockSequence + 1,
        locks := (a.locks.put l).put { l with deadline := d, active := [o.id] },
        uploads := (a.uploads.put o).put { o with locks := [l.id], fullFence := some f } } := by
  have hlocks : (a.locks.put l).put { l with deadline := d, active := [o.id] } =
      a.locks.put { l with deadline := d, active := [o.id] } := Table.put_put _ rfl
  have huploads : (a.uploads.put o).put { o with locks := [l.id], fullFence := some f } =
      a.uploads.put { o with locks := [l.id], fullFence := some f } := Table.put_put _ rfl
  rw [hlocks, huploads]
  have howner : l.handle = o.id ∧ l.file = o.file := by
    have := hg.owner_eq
    simp only [Lock.owner, Owner.mk.injEq] at this
    exact ⟨this.1, this.2.1⟩
  have hacquire : AcquireOk app { a.later j with lockSequence := a.lockSequence + 1 }
      { l with deadline := d, active := [o.id] } :=
    { id_eq := hg.id_eq
      epoch_eq := hg.epoch_eq
      owner := by
        rw [show ({ l with deadline := d, active := [o.id] } : Lock).handle = o.id from howner.1]
        exact hplan.fresh.1
      file_eq := fun h hh => by
        have hnone : a.handles.get o.id = none := get_none_of_unused_handle hplan.fresh.2
        exact absurd (hnone.symm.trans (howner.1 ▸ hh)) (by simp)
      compatible := fun m hm hlive hmf hmo =>
        hc m hm hlive (howner.2 ▸ hmf) fun he => hmo (he.trans hg.owner_eq.symm) }
  have hbegin : BeginUploadOk app { a.later j with lockSequence := a.lockSequence + 1 }
      { o with locks := [l.id], fullFence := some f } f
      { l with deadline := d, active := [o.id] } :=
    { acquire := hacquire
      fresh := hplan.fresh
      kind := hplan.kind
      state := hplan.state
      parts := hplan.parts
      allocations := hplan.allocations
      pages := hplan.pages
      sealed := hplan.sealed
      policy := hplan.policy
      leased := hr
      fence := rfl
      matches_ := hf
      whole := hg.whole_eq
      file_eq := howner.2
      owner_eq := howner.1
      parent_ne := hplan.parent_ne
      replaces := hplan.replaces
      creates := hplan.creates
      first := hplan.first }
  have hact : Act app trust { a.later j with lockSequence := a.lockSequence + 1 } _ :=
    .beginUpload (show trust.begins
      ({ o with locks := [l.id], fullFence := some f } : Operation).id from hb) hbegin
  have hnumber : Acts app trust a { a.later j with lockSequence := a.lockSequence + 1 } :=
    (acts_later a j).tail (.sequence _ (a.lockSequence + 1))
  exact (hnumber.tail hact).trans (acts_later _ 2)

variable (trust) in
theorem accessBeginUpload_ok {user : User} {session : Session} {ctx : RequestContext}
    {req : BeginUploadRequest} {op : Operation} {w' : World} (hr : app.rf3 = true)
    (hs : Sound app w.access) (h : (accessBeginUpload app user session ctx req) w = .ok (op, w')) :
    (trust.begins op.id → Acts app trust w.access w'.access) ∧
      w'.access.uploads.get op.id = some op ∧ op.policy = none := by
  unfold accessBeginUpload at h
  obtain ⟨o, s, ho, h⟩ := Tx.bind_ok.mp h
  obtain ⟨k, n, rfl, hplan, -⟩ := commandsBeginUpload_ok hs ho
  obtain ⟨l, s, hl, h⟩ := Tx.bind_ok.mp h
  obtain ⟨j, rfl, hg, hc⟩ := acquire_ok hl
  simp only [↓run_clock, run_query, putLock, putUpload, run_onAccess, setAccess_access,
    setAccess_setAccess, Tx.pure_ok, Prod.mk.injEq] at h
  obtain ⟨f, hf, rfl, rfl⟩ := h
  obtain ⟨hf1, hf2, hf3, hf4, hf5, hf6, hf7, hf8⟩ := message_ok hf
  have hepoch : f.serviceEpoch = l.controlEpoch :=
    Option.some.inj (hf3.symm.trans hg.epoch_eq)
  refine ⟨fun hb => (acts_shift _ k n).trans (acts_beginUpload (j := j) _ hr hb
    hplan
    ⟨hg.id_eq, hg.epoch_eq, hg.owner_eq, hg.indices_eq, hg.whole_eq, hg.size_eq, hg.automatic_eq,
      hg.active_eq⟩ hc ⟨hf1, hf2, hepoch, hf4, hf5, hf6, hf7, hf8⟩),
    Table.get_put_self (w.access.uploads.put o) _, hplan.policy⟩

theorem policyOf_put (c : Cluster) (p : Policy) :
    policyOf { c with policies := c.policies.put p } p.id = p := by
  unfold policyOf
  rw [show (c.policies.put p).get p.id = some p from Table.get_put_self c.policies p]
  rfl

/-- What `policy` answers is the policy of the file from then on. -/
theorem policy_ok {file : Id} {create : Bool} {p : Policy} {w' : World}
    (h : (policy app file create) w = .ok (p, w')) : p = policyOf w'.cluster file := by
  unfold policy at h
  split at h
  · unfold createPolicy at h
    simp only [↓run_cluster] at h
    split at h
    · rename_i q hq
      simp only [Tx.pure_ok, Prod.mk.injEq] at h
      obtain ⟨rfl, rfl⟩ := h
      simp [policyOf, hq]
    · simp only [↓run_need] at h
      obtain ⟨_, s, hput, h⟩ := Tx.bind_ok.mp h.2
      simp only [Tx.pure_ok, Prod.mk.injEq] at h
      obtain ⟨rfl, rfl⟩ := h
      rw [putPolicy, onCluster_ok, Prod.mk.injEq] at hput
      rw [hput.2]
      exact (policyOf_put w.cluster
        ⟨file, app.defaultReplicas, if app.defaultReplicas = 3 then 2 else 1, 1, .active, 0⟩).symm
  · simp only [↓run_cluster, Tx.pure_ok, Prod.mk.injEq] at h
    obtain ⟨rfl, rfl⟩ := h
    rfl

variable (trust) in
/-- The policy is captured for an operation that has none. -/
theorem capturePolicy_ok {op op' : Operation} {w' : World}
    (hget : w.access.uploads.get op.id = some op) (hp : op.policy = none)
    (h : (capturePolicy app op) w = .ok (op', w')) :
    Acts app trust w.access w'.access ∧ w'.access.uploads.get op.id = some op' ∧
      op' = { op with policy := some (policyOf w'.cluster op.file) } := by
  unfold capturePolicy at h
  obtain ⟨p, s, k, n, hpolicy, hacc, h⟩ := run_quiet h
  simp only [↓run_need, putUpload, run_onAccess, setAccess_access, setAccess_setAccess,
    Tx.pure_ok, Prod.mk.injEq] at h
  obtain ⟨-, rfl, rfl⟩ := h
  refine ⟨?_, Table.get_put_self s.access.uploads { op with policy := some p }, ?_⟩
  · rw [setAccess_access, hacc]
    exact ((acts_shift _ k n).trans (acts_later _ 1)).tail (.capture p hget hp)
  · rw [policy_ok hpolicy]
    rfl

variable (trust) in
/-- A result is written back to its operation. -/
theorem policyResult_ok {op : Operation} {result r : CommitResult} {w' : World}
    (hget : w.access.uploads.get op.id = some op)
    (hresult : op.state = .committed →
      op.result.map CommitResult.snapshot = some result.snapshot)
    (h : (policyResult app op result) w = .ok (r, w')) :
    Acts app trust w.access w'.access ∧ r.snapshot = result.snapshot ∧
      w'.access.uploads.get op.id = some { op with result := some r } ∧
      w'.access.snapshots = w.access.snapshots ∧ w.access.phase ≤ w'.access.phase := by
  unfold policyResult at h
  simp only [↓run_cluster, ↓run_access, ↓run_deref, setAccess_access, setAccess_setAccess,
    Access.later_later, Nat.reduceAdd] at h
  obtain ⟨snap, -, h⟩ := h
  obtain ⟨_, s, k, n, -, hacc, h⟩ := run_quiet h
  simp only [↓run_world, putUpload, run_onAccess, setAccess_access, setAccess_setAccess,
    Tx.pure_ok, Prod.mk.injEq] at h
  obtain ⟨rfl, rfl⟩ := h
  refine ⟨?_, rfl, Table.get_put_self s.access.uploads { op with result := _ }, ?_, ?_⟩
  · rw [setAccess_access, hacc]
    exact ((acts_later _ 3).trans ((acts_shift _ k n).trans (acts_later _ 1))).tail
      (.touchOp op.expires _ hget (fun hst => (hresult hst).symm) fun _ => .inl rfl)
  · rw [setAccess_access, hacc]
    rfl
  · rw [setAccess_access, hacc]
    simp only [setAccess_access, Access.later, Access.shift]
    omega

variable (trust) in
theorem protectionBeginUpload_ok {user : User} {session : Session} {ctx : RequestContext}
    {req : BeginUploadRequest} {r : UploadPlan × World} (hr : app.rf3 = true)
    (hs : Sound app w.access)
    (h : (protectionBeginUpload app user session ctx req) w = .ok r) :
    ∃ op, (trust.begins op.id → Acts app trust w.access r.2.access) ∧
      r.2.access.uploads.get op.id = some op ∧
      op.policy = some (policyOf r.2.cluster op.file) := by
  unfold protectionBeginUpload at h
  obtain ⟨op, s, hop, h⟩ := Tx.bind_ok.mp h
  obtain ⟨hacts, hget, hp⟩ := accessBeginUpload_ok trust hr hs hop
  obtain ⟨op', s', hcap, h⟩ := Tx.bind_ok.mp h
  obtain ⟨hacts', hget', rfl⟩ := capturePolicy_ok trust hget hp hcap
  simp only [run_cluster, Tx.pure_ok] at h
  subst h
  exact ⟨{ op with policy := some (policyOf s'.cluster op.file) },
    fun hb => (hacts hb).trans (hacts'.trans (acts_later _ 1)), hget', rfl⟩

theorem commandsBeginUpload_acts {user : User} {session : Session} {ctx : RequestContext}
    {req : BeginUploadRequest} {op : Operation} {w' : World} (hr : app.rf3 = false)
    (hb : ∀ k, trust.begins k) (hs : Sound app w.access)
    (h : (commandsBeginUpload app user session ctx req) w = .ok (op, w')) :
    Acts app trust w.access w'.access := by
  obtain ⟨k, n, rfl, hplan, hfull⟩ := commandsBeginUpload_ok hs h
  exact (acts_shift _ k n).tail (.beginPlain hr (hb _) hplan hfull)

theorem beginUpload_refines (hb : ∀ k, trust.begins k) (user : User) (session : Session)
    (ctx : RequestContext) (req : BeginUploadRequest) :
    Refines app trust (beginUpload app user session ctx req) := by
  intro w r hs h
  unfold beginUpload at h
  split at h
  · rename_i hp
    obtain ⟨op, s, hop, h⟩ := Tx.bind_ok.mp h
    rw [Tx.pure_ok] at h
    subst h
    exact commandsBeginUpload_acts (by simp [App.rf3, hp]) hb hs hop
  · rename_i hp
    obtain ⟨op, s, hop, h⟩ := Tx.bind_ok.mp h
    rw [Tx.pure_ok] at h
    subst h
    exact commandsBeginUpload_acts (by simp [App.rf3, hp]) hb hs hop
  · rename_i hp
    have hr : app.rf3 = true := by simp [App.rf3, hp]
    obtain ⟨op, s, hop, h⟩ := Tx.bind_ok.mp h
    rw [Tx.pure_ok] at h
    subst h
    exact (accessBeginUpload_ok trust hr hs hop).1 (hb _)
  · rename_i hp
    have hr : app.rf3 = true := by simp [App.rf3, hp]
    obtain ⟨op, s, hop, h⟩ := Tx.bind_ok.mp h
    rw [Tx.pure_ok] at h
    subst h
    obtain ⟨o, hacts, -⟩ := protectionBeginUpload_ok trust hr hs hop
    exact hacts (hb _)

/-! ## Preparing -/

theorem commandsRenewUpload_ok {user : User} {session : Session} {reference : OperationRef}
    {op : Operation} {w' : World} (hs : Sound app w.access)
    (h : (commandsRenewUpload app user session reference) w = .ok (op, w')) :
    ∃ o e, Uploading w.access o ∧ w.access.now < o.expires ∧ op = { o with expires := e } ∧
      w' = w.setAccess { w.access.later 2 with uploads := w.access.uploads.put op } := by
  unfold commandsRenewUpload at h
  simp only [↓run_now, run_query, putUpload, run_onAccess, setAccess_access, setAccess_setAccess,
    Access.later_later, Nat.reduceAdd, Tx.pure_ok, Prod.mk.injEq] at h
  obtain ⟨o, hop, rfl, rfl⟩ := h
  exact ⟨o, _, (operation_ok hs hop).2, operation_unexpired hop, rfl, rfl⟩

theorem accessRenewUpload_refines (user : User) (session : Session) (reference : OperationRef) :
    Refines app trust (accessRenewUpload app user session reference) := by
  intro w r hs h
  unfold accessRenewUpload at h
  obtain ⟨op, s, hop, h⟩ := Tx.bind_ok.mp h
  obtain ⟨o, e, hup, hnow, rfl, rfl⟩ := commandsRenewUpload_ok hs hop
  simp only [↓run_access, ↓run_deref, ↓run_clock, ↓run_now, run_query, putLock, run_onAccess,
    setAccess_access, setAccess_setAccess, Access.later_later, Nat.reduceAdd, Tx.pure_ok] at h
  obtain ⟨x, -, full, -, lock, hv, rfl⟩ := h
  obtain ⟨hlget, -, hlive, -⟩ := validate_ok hv
  have hid : lock.id = full.lockId := lock_id_of_get hlget
  have hrenew : Act app trust w.access _ :=
    .touchOp e o.result hup.stored (fun _ => rfl) fun _ => .inr hnow
  exact (((Relation.ReflTransGen.single hrenew).trans (acts_later _ 2)).trans
    ((acts_later _ 3).tail (.renewLock _ (hid ▸ hlget) hlive))).trans (acts_later _ 3)

theorem renewUpload_refines (user : User) (session : Session) (reference : OperationRef) :
    Refines app trust (renewUpload app user session reference) := by
  unfold renewUpload
  refine Refines.bind (Refines.ite (fun _ => accessRenewUpload_refines user session reference)
    fun _ w r hs h => ?_) fun _ => Quiet.refines app trust _
  obtain ⟨o, e, hup, hnow, hop, hw'⟩ := commandsRenewUpload_ok hs h
  rw [hw', hop]
  have hrenew : Act app trust w.access _ :=
    .touchOp e o.result hup.stored (fun _ => rfl) fun _ => .inr hnow
  exact (Relation.ReflTransGen.single hrenew).trans (acts_later _ 2)

/-- An upload that gets blocks: it is prepared in memory, and written at the end. -/
structure Filling (app : App) (trust : Trust) (a : Access) (op : Operation) (b : Access) :
    Prop where
  kind : op.kind = .upload
  state : op.state = .preparing
  acts : ∃ k n, b = a.shift k n ∧ Acts app trust a (a.resettle k n (a.uploads.put op))

theorem Filling.shift {a b : Access} {op : Operation} (h : Filling app trust a op b) (j m : Nat) :
    Filling app trust a op (b.shift j m) := by
  obtain ⟨k, n, rfl, hacts⟩ := h.acts
  refine ⟨h.kind, h.state, k + j, n + m, a.shift_shift k n j m, hacts.trans ?_⟩
  rw [← Access.resettle_shift]
  exact acts_shift _ j m

theorem Filling.allocate {a b : Access} {op : Operation} (hs : Sound app a)
    (h : Filling app trust a op b) {x : BlockRef} (hid : x.blockVersionId = app.uuid b.issued)
    (hnew : op.allocation x.blockIndex = none) (hfile : x.fileId = op.file)
    (hpos : 0 < x.sizeBytes)
    (hsize : x.sizeBytes = min op.blockSize (op.total - x.blockIndex * op.blockSize)) (j : Nat) :
    Filling app trust a { op with allocations := op.allocations ++ [(x.blockIndex, x)] }
      (b.shift j 1) := by
  obtain ⟨k, n, rfl, hacts⟩ := h.acts
  refine ⟨h.kind, h.state, k + j, n + 1, a.shift_shift k n j 1, ?_⟩
  have hcollapse : (a.uploads.put op).put
      { op with allocations := op.allocations ++ [(x.blockIndex, x)] } =
        a.uploads.put { op with allocations := op.allocations ++ [(x.blockIndex, x)] } :=
    Table.put_put _ rfl
  have hfresh : Fresh app ((a.resettle k n (a.uploads.put op)).shift j 1) x.blockVersionId := by
    rw [hid]
    exact fresh_draw (hs.acts hacts) j
  rw [Access.resettle_shift] at hfresh
  have hshift : Acts app trust a (a.resettle (k + j) (n + 1) (a.uploads.put op)) := by
    rw [← Access.resettle_shift]
    exact hacts.trans (acts_shift _ j 1)
  have hput := hshift.tail (.allocate (b := x)
    ⟨Table.get_put_self _ op, h.kind, h.state, hfresh, hnew, hfile, hpos, hsize⟩)
  rw [← hcollapse]
  exact hput

/-- One requested block: it has been allocated before, or it is allocated now. -/
theorem allocateBlock_ok {user : User} {op op' : Operation} {planned planned' : List PlannedBlock}
    {requested : BlockRef} {w' : World} {a : Access} (hs : Sound app a)
    (hfill : Filling app trust a op w.access)
    (h : (allocateBlock app user (op, planned) requested) w = .ok ((op', planned'), w')) :
    Filling app trust a op' w'.access := by
  unfold allocateBlock at h
  simp only [↓run_need] at h
  obtain ⟨⟨hpos, hfile, hsize, -, -⟩, h⟩ := h
  split at h
  · simp only [↓run_need, setAccess_access, setAccess_setAccess, Access.later_later,
      Nat.reduceAdd] at h
    obtain ⟨p, s, j, m, -, hacc, h⟩ := run_quiet h.2
    simp only [Tx.pure_ok, Prod.mk.injEq] at h
    obtain ⟨⟨rfl, -⟩, rfl⟩ := h
    rw [hacc]
    exact (hfill.shift 2 0).shift j m
  · rename_i hnew
    simp only [run_draw, setAccess_access, setAccess_setAccess, Access.later_shift,
      Nat.reduceAdd] at h
    obtain ⟨p, s, j, m, -, hacc, h⟩ := run_quiet h
    simp only [Tx.pure_ok, Prod.mk.injEq] at h
    obtain ⟨⟨rfl, -⟩, rfl⟩ := h
    rw [hacc]
    exact (hfill.allocate hs (x := ⟨op.file, app.uuid w.access.issued, requested.blockIndex, _, _⟩)
      rfl hnew rfl hpos rfl 2).shift j m

theorem allocateBlocks_refines (user : User) (session : Session)
    (req : AllocateBlocksRequest) : Refines app trust (allocateBlocks app user session req) := by
  intro w r hs h
  unfold allocateBlocks at h
  simp only [↓run_need, run_query, setAccess_access, setAccess_setAccess, Access.later_later,
    Nat.reduceAdd] at h
  obtain ⟨op, hop, -, -, h⟩ := h
  obtain ⟨-, hup⟩ := operation_ok hs hop
  obtain ⟨⟨op', planned⟩, s, hfold, h⟩ := Tx.bind_ok.mp h
  have hs' := hs.advance 3
  have hstart : Filling app trust (w.access.later 3) op (w.access.later 3) := by
    refine ⟨hup.kind, hup.state, 0, 0, rfl, ?_⟩
    have hsame : w.access.uploads.put op = w.access.uploads := Table.put_get_self hup.stored
    rw [Access.later_uploads, hsame]
    exact .refl
  have hfill := Tx.fold_induction
    (fun _ x v => Filling app trust (w.access.later 3) x.1 v.access)
    (fun _ _ _ _ _ _ hf hturn => allocateBlock_ok hs' hf hturn) hstart hfold
  simp only [putUpload, run_onAccess, Tx.pure_ok] at h
  subst h
  obtain ⟨k, n, he, hacts⟩ := hfill.acts
  refine (acts_later _ 3).trans ?_
  simp only at he
  rw [setAccess_access, he]
  exact hacts

theorem stageBlock_ok {op : Operation} {x : BlockRef × Nat} {r : Unit × World}
    (h : (stageBlock op x) w = .ok r) :
    (x.1.blockIndex = x.2 ∧ op.allocation x.2 = some x.1) ∧
      r.2 = w.setAccess (w.access.later 3) := by
  unfold stageBlock at h
  simp only [↓run_need, ↓run_access, last_query, setAccess_access, setAccess_setAccess,
    Access.later_later, Nat.reduceAdd] at h
  exact ⟨h.1, h.2.2⟩

/-- The blocks of a page are allocated at their places. -/
theorem stageBlocks_ok {op : Operation} {blocks : List BlockRef} {start : Nat} {r : Unit × World}
    (h : (Tx.each (blocks.zipIdx start) (stageBlock op)) w = .ok r) :
    w.Later r.2 ∧ ∀ x ∈ blocks.zipIdx start, x.1.blockIndex = x.2 ∧ op.allocation x.2 = some x.1 := by
  have hturn : ∀ x ∈ blocks.zipIdx start, ∀ v v', (stageBlock op x) v = .ok ((), v') →
      v.Later v' := fun _ _ _ _ hv => ⟨3, (stageBlock_ok hv).2⟩
  refine ⟨Tx.each_rel World.Later.refl World.Later.trans hturn h, fun x hx => ?_⟩
  obtain ⟨v, v', -, hv, -⟩ := Tx.each_mem World.Later.refl World.Later.trans hturn h _ hx
  exact (stageBlock_ok hv).1

/-- A page is staged of blocks that the operation has. -/
theorem stageManifestPage_refines (user : User) (session : Session)
    (req : StageManifestPageRequest) :
    Refines app trust (stageManifestPage app user session req) := by
  intro w r hs h
  unfold stageManifestPage at h
  simp only [↓run_need, run_query, setAccess_access, setAccess_setAccess, Access.later_later,
    Nat.reduceAdd] at h
  obtain ⟨op, hop, hseal, ⟨hpos, -, -, hlength⟩, h⟩ := h
  obtain ⟨-, hup⟩ := operation_ok hs hop
  obtain ⟨_, s, hloop, h⟩ := Tx.bind_ok.mp h
  obtain ⟨⟨k, rfl⟩, hplaced⟩ := stageBlocks_ok hloop
  simp only [↓run_need, putUpload, run_onAccess, setAccess_access, setAccess_setAccess,
    Access.later_later, Tx.pure_ok] at h
  obtain ⟨-, rfl⟩ := h
  exact (acts_later _ (3 + k + 1)).tail (.stage hup.stored hseal ⟨hpos, hlength, hplaced⟩)

theorem manifest_ok {op : Operation} {blocks : List BlockRef} (h : (manifest op) w = .ok blocks) :
    op.assembled = blocks ∧ blocks.length = blockCount op.total op.blockSize ∧
      blocks.map BlockRef.blockIndex = List.range blocks.length ∧
      ∀ b ∈ blocks, ∃ page ∈ op.pages, b ∈ page.2 := by
  simp only [manifest, Query.bind_ok, need_ok, Query.pure_ok] at h
  obtain ⟨_, -, _, ⟨hcount, -, hindex⟩, rfl⟩ := h
  refine ⟨rfl, hcount, hindex, fun b hb => ?_⟩
  obtain ⟨i, -, hb⟩ := List.mem_flatMap.mp hb
  cases hl : op.pages.lookup i with
  | none => simp [hl] at hb
  | some page =>
      obtain ⟨l₁, l₂, he, -⟩ := List.lookup_eq_some_iff.mp hl
      refine ⟨(i, page), by rw [he]; simp, by simpa [hl] using hb⟩

theorem sealManifest_refines (ht : trust.seals) (user : User) (session : Session)
    (req : SealManifestRequest) : Refines app trust (sealManifest app user session req) := by
  intro w r hs h
  unfold sealManifest at h
  simp only [↓run_need, ↓run_world, run_query, putUpload, run_onAccess, setAccess_access,
    setAccess_setAccess, Access.later_later, Nat.reduceAdd, Tx.pure_ok] at h
  obtain ⟨op, hop, blocks, hman, ⟨-, -, -, hhash⟩, -, rfl⟩ := h
  obtain ⟨-, hup⟩ := operation_ok hs hop
  obtain ⟨rfl, -⟩ := manifest_ok hman
  exact (acts_later _ 5).tail (.sealOp hup.stored hhash ht)

theorem commandsAbortUpload_ok {user : User} {session : Session} {reference : OperationRef}
    {op : Operation} {w' : World}
    (h : (commandsAbortUpload user session reference) w = .ok (op, w')) :
    Acts app trust w.access w'.access ∧ w'.access.uploads.get op.id = some op ∧
      op.state ≠ .preparing := by
  unfold commandsAbortUpload at h
  simp only [↓run_access, ↓run_need, ↓run_needSome, putUpload, run_onAccess, setAccess_access,
    setAccess_setAccess, Access.later_later, Nat.reduceAdd, Tx.pure_ok, Prod.mk.injEq] at h
  obtain ⟨o, ho, -, -, hst, rfl, rfl⟩ := h
  have hid : o.id = reference.operationId := upload_id_of_get ho
  have hend : Act app trust (w.access.later 5) _ := .endOp (hid ▸ ho) hst (.inl rfl)
  exact ⟨(acts_later _ 5).tail hend, Table.get_put_self _ (o.ended .aborted),
    by simp [Operation.ended]⟩

theorem abortUpload_refines (user : User) (session : Session) (ctx : RequestContext)
    (reference : OperationRef) :
    Refines app trust (abortUpload app user session ctx reference) := by
  unfold abortUpload
  refine Refines.ite (fun _ w r hs h => ?_) fun _ => Refines.bind (fun w r hs h => ?_)
    fun _ => Quiet.refines app trust _
  · unfold accessAbortUpload at h
    obtain ⟨op, s, hop, h⟩ := Tx.bind_ok.mp h
    obtain ⟨hacts, hget, hst⟩ := commandsAbortUpload_ok hop
    obtain ⟨_, s', hrel, h⟩ := Tx.bind_ok.mp h
    rw [Tx.pure_ok] at h
    subst h
    exact hacts.trans (releaseOperation_acts app trust hget hst hrel).1
  · exact (commandsAbortUpload_ok h).1


/-- The node that an upload publishes to is the file it replaces, or a new one. -/
theorem uploadNode_ok {user : User} {a : Access} {op : Operation} {parent node : Node} {v v' : World}
    (hbase : ∀ b ∈ op.base, ∃ m, a.nodes.get op.file = some m ∧ m.alive = true ∧
      m.snapshot = some b)
    (h : (uploadNode app user a op parent) v = .ok (node, v')) :
    (∃ k d, v' = v.setAccess (v.access.shift k d)) ∧ node.alive = true ∧ node.id = op.file ∧
      (∀ b ∈ op.base, a.nodes.get op.file = some node ∧ node.snapshot = some b) ∧
      (op.base = none → node.kind = .file ∧ node.blockSize = op.blockSize) := by
  unfold uploadNode at h
  cases hb : op.base with
  | none =>
      simp only [hb, Option.isSome_none, Bool.false_eq_true, if_false, ↓run_need, run_draw,
        setAccess_access, setAccess_setAccess, Access.later_shift, Nat.reduceAdd, Tx.pure_ok,
        Prod.mk.injEq] at h
      obtain ⟨-, rfl, rfl⟩ := h
      exact ⟨⟨_, _, rfl⟩, rfl, rfl, by simp, fun _ => ⟨rfl, rfl⟩⟩
  | some b =>
      obtain ⟨m, hm, ha, hsn⟩ := hbase b hb
      simp only [hb, Option.isSome_some, if_true, hm, Tx.pure_ok, Prod.mk.injEq] at h
      obtain ⟨rfl, rfl⟩ := h
      refine ⟨⟨0, 0, rfl⟩, ha, node_id_of_get hm, fun c hc => ?_, by simp⟩
      rw [Option.mem_def, Option.some.injEq] at hc
      exact hc ▸ ⟨hm, hsn⟩

/-- The records after an upload was committed, and its directory written back. -/
def Access.uploaded (a : Access) (k d : Nat) (op : Operation) (n p : Node) (s : Snapshot)
    (result : CommitResult) : Access :=
  { a with
    phase := a.phase + k, issued := a.issued + (d + 1), snapshots := a.snapshots.put s,
    nodes := (a.nodes.put n).put { p with revision := p.revision + 1 },
    uploads := a.uploads.put { op with state := .committed, result := some result, reserved := 0 } }

theorem Access.uploaded_op (a : Access) (k d : Nat) (op : Operation) (n p : Node) (s : Snapshot)
    (r : CommitResult) : (a.uploaded k d op n p s r).uploads.get op.id =
      some { op with state := .committed, result := some r, reserved := 0 } :=
  Table.get_put_self a.uploads { op with state := .committed, result := some r, reserved := 0 }

theorem Access.uploaded_snap (a : Access) (k d : Nat) (op : Operation) (n p : Node) (s : Snapshot)
    (r : CommitResult) : (a.uploaded k d op n p s r).snapshots.get s.id = some s :=
  Table.get_put_self a.snapshots s

/-- What was true when an upload was committed. -/
structure Uploaded (app : App) (a : Access) (d : Nat) (op : Operation) (n p : Node)
    (s : Snapshot) : Prop where
  ok : CommitUploadOk a op n s.blocks
  snap : UploadedRef app (a.shift 0 d) op n s
  parent : a.nodes.get p.id = some p
  parent_ne : p.id ≠ n.id

theorem Uploaded.publishes {a : Access} {d : Nat} {op : Operation} {n p : Node} {s : Snapshot}
    (h : Uploaded app a d op n p s)
    (hversion : app.rf3 = true → s.ref.fileVersion =
      ((op.base.bind a.snapshots.get).map fun c => c.ref.fileVersion + 1).getD 1)
    (k : Nat) (result : CommitResult) :
    Publishes app (fun trust => trust.commits op) a (a.uploaded k d op n p s result) := by
  have hok : CommitUploadOk (a.shift 0 d) op n s.blocks :=
    { h.ok with }
  have hsnap : VersionedRef app (a.shift 0 d) op n s :=
    { h.snap with version := hversion }
  refine ⟨_, _, fun _ => acts_shift a 0 d,
    fun _ hp => .commitUpload (some result) hok hsnap hp, fun _ => ?_, rfl⟩
  exact acts_touch (n := { p with revision := p.revision + 1 }) (m := p) k
    ((Table.get_put_of_ne _ h.parent_ne).trans h.parent) ⟨rfl, rfl, rfl, rfl⟩ rfl rfl

theorem commandsCommitUpload_ok {user : User} {session : Session} {req : CommitUploadRequest}
    {res : CommitResult} {w' : World} (hs : Sound app w.access)
    (h : (commandsCommitUpload app user session req) w = .ok (res, w')) :
    ∃ op n p s k d, op.id = req.operation.operationId ∧ Uploaded app w.access d op n p s ∧
      res.snapshot = s.ref ∧ w' = w.setAccess (w.access.uploaded k d op n p s res) := by
  unfold commandsCommitUpload at h
  simp only [↓run_need, ↓run_access, ↓run_deref, run_query, setAccess_access, setAccess_setAccess,
    Access.later_later, Nat.reduceAdd] at h
  obtain ⟨op, hop, hseal, blocks, hman, hrec, p, hp, h⟩ := h
  obtain ⟨hid, hup⟩ := operation_ok hs hop
  obtain ⟨hassembled, hcount, hindex, hpaged⟩ := manifest_ok hman
  obtain ⟨node, v, hnode, h⟩ := Tx.bind_ok.mp h
  obtain ⟨⟨k, d, rfl⟩, ha, hnid, hold, hnew⟩ := uploadNode_ok hup.base hnode
  simp only [run_draw, putSnapshot, putUpload, run_onAccess, run_bump, setAccess_access,
    setAccess_setAccess, Access.later_shift, Access.shift_shift, Tx.pure_ok, Prod.mk.injEq] at h
  obtain ⟨-, -, rfl, rfl⟩ := h
  obtain ⟨parentId, hpar, hpget⟩ := Option.bind_eq_some_iff.mp hp
  have hpid : p.id = parentId := node_id_of_get hpget
  have hshape := hs.uploadShape op (Table.mem_of_get hup.stored) ⟨hup.kind, hup.state⟩
  refine ⟨op, _, p, ⟨app.uuid (w.access.issued + d), op.file, _, blocks⟩, 6 + k + 1 + 2 + 2, d, hid,
    ?_, rfl, rfl⟩
  exact
    { ok :=
        { stored := hup.stored
          kind := hup.kind
          state := hup.state
          lock := hup.lock
          assembled := hassembled.symm
          count := hcount
          indexed := hindex
          paged := hpaged
          recorded := hrec
          alive := ha
          node_id := hnid
          replaces := fun b hb => ⟨node, (hold b hb).1, ha, (hold b hb).2, rfl, rfl, rfl, rfl⟩
          creates := hnew }
      snap := ⟨rfl, rfl, rfl, rfl, rfl, rfl, rfl, rfl, by rw [hseal]; rfl⟩
      parent := hpid ▸ hpget
      parent_ne := fun he => hshape.parent_ne (by rw [hpar, ← hpid, he]; exact congrArg some hnid) }

theorem requireAllocated_later {op : Operation} {b : BlockRef} {r : Unit × World}
    (h : (requireAllocated app op b) w = .ok r) : w.Later r.2 := by
  unfold requireAllocated at h
  split at h
  · exact ⟨1, (last_query.mp h).2⟩
  · simp only [↓run_world, last_query, setAccess_access, setAccess_setAccess, Access.later_later,
      Nat.reduceAdd] at h
    exact ⟨2, h.2⟩

/-- What `CommitUpload` of a cluster adds: every block the operation has passed its check, at
some moment of the transaction. -/
theorem clusterCommitUpload_ok {user : User} {session : Session} {req : CommitUploadRequest}
    {res : CommitResult} {w' : World} (hs : Sound app w.access)
    (h : (clusterCommitUpload app user session req) w = .ok (res, w')) :
    ∃ op n p s v k d, op.id = req.operation.operationId ∧ w.Later v ∧
      Uploaded app v.access d op n p s ∧ res.snapshot = s.ref ∧
      w' = v.setAccess (v.access.uploaded k d op n p s res) ∧
      ∀ x ∈ op.allocations, ∃ u u', w.Later u ∧ u.Later v ∧
        (requireAllocated app op x.2) u = .ok ((), u') := by
  unfold clusterCommitUpload at h
  simp only [run_query] at h
  obtain ⟨o, ho, h⟩ := h
  obtain ⟨hoid, hup⟩ := operation_ok hs ho
  obtain ⟨_, v, hloop, h⟩ := Tx.bind_ok.mp h
  have hturn : ∀ b ∈ o.allocations.map Prod.snd, ∀ u u', (requireAllocated app o b) u =
      .ok ((), u') → u.Later u' := fun _ _ _ _ hu => requireAllocated_later hu
  have hstep : w.Later (w.setAccess (w.access.later 1)) := ⟨1, rfl⟩
  have hchecked := fun b hb => Tx.each_mem World.Later.refl World.Later.trans hturn hloop b hb
  have hv : w.Later v :=
    hstep.trans (Tx.each_rel World.Later.refl World.Later.trans hturn hloop)
  obtain ⟨j, rfl⟩ := hv
  obtain ⟨op, n, p, s, k, d, hid, hdone, href, hw'⟩ := commandsCommitUpload_ok (hs.advance j) h
  have hop : op = o := by
    have h1 := hdone.ok.stored
    rw [hid, ← hoid] at h1
    exact Option.some.inj (h1.symm.trans hup.stored)
  subst hop
  refine ⟨op, n, p, s, _, k, d, hid, ⟨j, rfl⟩, hdone, href, hw', fun x hx => ?_⟩
  obtain ⟨u, u', hu, hf, hu'⟩ := hchecked x.2 (List.mem_map_of_mem hx)
  exact ⟨u, u', hstep.trans hu, (requireAllocated_later hf).trans hu', hf⟩

/-- The snapshot and the result are written a second time. -/
theorem Access.uploaded_again (a : Access) (k d : Nat) (op : Operation) (n p : Node)
    (s s' : Snapshot) (r r' : CommitResult) (hs : s.id = s'.id) :
    { a.uploaded (k + 3) d op n p s r with
      snapshots := (a.snapshots.put s).put s',
      uploads := (a.uploads.put
        { op with state := .committed, result := some r, reserved := 0 }).put
          { op with state := .committed, result := some r', reserved := 0 } } =
      a.uploaded (k + 3) d op n p s' r' := by
  have h1 : (a.snapshots.put s).put s' = a.snapshots.put s' := Table.put_put _ hs
  have h2 : (a.uploads.put { op with state := .committed, result := some r, reserved := 0 }).put
      { op with state := .committed, result := some r', reserved := 0 } =
        a.uploads.put { op with state := .committed, result := some r', reserved := 0 } :=
    Table.put_put _ rfl
  rw [h1, h2]
  rfl

/-- What a committed upload leaves: the operation with its result, and the snapshot. -/
structure Finished (a : Access) (op : Operation) (s : Snapshot) (res : CommitResult) : Prop where
  op : a.uploads.get op.id =
    some { op with state := .committed, result := some res, reserved := 0 }
  snap : a.snapshots.get s.id = some s

theorem Access.uploaded_finished (a : Access) (k d : Nat) (op : Operation) (n p : Node)
    (s : Snapshot) (r : CommitResult) : Finished (a.uploaded k d op n p s r) op s r :=
  ⟨a.uploaded_op k d op n p s r, a.uploaded_snap k d op n p s r⟩

theorem Finished.release {a : Access} {op : Operation} {s : Snapshot} {r : CommitResult}
    (h : Finished a op s r) (k : Nat) (l : Table Lock) (t : Table Handle) :
    Finished (a.release k l t) op s r := ⟨h.op, h.snap⟩

theorem accessCommitUpload_ok {user : User} {session : Session} {req : CommitUploadRequest}
    {res : CommitResult} {w' : World} (hs : Sound app w.access)
    (h : (accessCommitUpload app user session req) w = .ok (res, w')) :
    ∃ op n p s v d,
      Publishes app (fun trust => trust.commits op) w.access w'.access ∧
      op.id = req.operation.operationId ∧ w.Later v ∧ Uploaded app v.access d op n p s ∧ res.snapshot = s.ref ∧
      Finished w'.access op s res ∧ v.access.phase ≤ w'.access.phase ∧
      ∀ x ∈ op.allocations, ∃ u u', w.Later u ∧ u.Later v ∧
        (requireAllocated app op x.2) u = .ok ((), u') := by
  unfold accessCommitUpload at h
  simp only [↓run_access, ↓run_deref, setAccess_access, setAccess_setAccess, Access.later_later,
    Nat.reduceAdd] at h
  obtain ⟨o, ho, h⟩ := h
  obtain ⟨res₀, s₁, hcommit, h⟩ := Tx.bind_ok.mp h
  obtain ⟨op, n, p, s, v, k, d, hid, ⟨j, rfl⟩, hdone, href, rfl, hsafe⟩ :=
    clusterCommitUpload_ok (hs.advance 2) hcommit
  simp only [↓run_access, ↓run_deref, putSnapshot, putUpload, run_onAccess, setAccess_access,
    setAccess_setAccess, Access.later_later] at h
  obtain ⟨s', hs', o', ho', h⟩ := h
  have hroot : res₀.snapshot.manifestRoot = s.id := by rw [href, hdone.snap.root_eq]
  rw [hroot, Access.uploaded_snap, Option.some.injEq] at hs'
  rw [← hid, Access.uploaded_op, Option.some.injEq] at ho'
  subst hs' ho'
  obtain ⟨_, s₂, hrel, h⟩ := Tx.bind_ok.mp h
  simp only [Tx.pure_ok, Prod.mk.injEq] at h
  obtain ⟨rfl, rfl⟩ := h
  simp only [href] at hrel ⊢
  -- The version of the snapshot is the only thing the second writing changes.
  have hoo : op = o := by
    rw [← hid] at ho
    exact Option.some.inj (hdone.ok.stored.symm.trans ho)
  subst hoo
  generalize hversion : (Option.map (fun s : Snapshot => s.ref.fileVersion + 1)
    (op.base.bind w.access.snapshots.get)).getD 1 = version at hrel ⊢
  generalize hres : (
      { operation := res₀.operation, state := _, snapshot := _, acceptedBytes := _,
        degraded := _, targetReplicas := _, minimumDurable := _ } : CommitResult) = res at hrel ⊢
  simp only [setAccess_access, setAccess_setAccess, Access.later_later] at hdone
  have hfinal : Uploaded app (w.access.later (2 + j)) d op n p
      { s with ref := { s.ref with fileVersion := version } } :=
    { hdone with snap := { hdone.snap with } }
  have hpublishes := fun k => hfinal.publishes (fun _ => hversion.symm) k res
  have hstate := Access.uploaded_again (w.access.later (2 + j)) k d op n p s
    { s with ref := { s.ref with fileVersion := version } } res₀ res rfl
  have hrel' : (releaseOperation { op with state := .committed, result := some res, reserved := 0 })
      (w.setAccess ((w.access.later (2 + j)).uploaded (k + 3) d op n p
        { s with ref := { s.ref with fileVersion := version } } res)) = .ok ((), w') := by
    rw [← hstate]
    exact hrel
  have hreleased := fun trust => releaseOperation_acts app trust
    (Access.uploaded_op _ _ _ _ _ _ _ _) (by simp) hrel'
  obtain ⟨-, k', locks, handles, he⟩ := hreleased Trust.all
  have hsafe' : ∀ x ∈ op.allocations, ∃ u u', w.Later u ∧
      u.Later (w.setAccess (w.access.later (2 + j))) ∧
      (requireAllocated app op x.2) u = .ok ((), u') := fun x hx => by
    obtain ⟨u, u', hu, hu', hf⟩ := hsafe x hx
    simp only [setAccess_access, setAccess_setAccess, Access.later_later] at hu'
    exact ⟨u, u', World.Later.trans ⟨2, rfl⟩ hu, hu', hf⟩
  refine ⟨op, n, p, _, w.setAccess (w.access.later (2 + j)), d,
    .before (fun _ => acts_later _ (2 + j)) ((hpublishes (k + 3)).after
      (fun trust => (hreleased trust).1) (by rw [he]; rfl)), hid, ⟨2 + j, rfl⟩, hfinal, rfl, ?_, ?_, hsafe'⟩
  · rw [he]
    exact (Access.uploaded_finished _ _ _ _ _ _ _ _).release _ _ _
  · rw [he]
    simp only [setAccess_access, Access.release, Access.uploaded, Access.later]
    omega

variable (trust) in
/-- After a commit its result is completed and written back. -/
theorem completed_acts {op : Operation} {s : Snapshot} {res : CommitResult} {k : Id}
    {r : CommitResult × World} (hfin : Finished w.access op s res) (hk : op.id = k)
    (h : (do
      let a ← access
      let op ← deref (a.uploads.get k)
      policyResult app op res : T CommitResult) w = .ok r) :
    Acts app trust w.access r.2.access ∧ r.2.access.snapshots = w.access.snapshots := by
  simp only [↓run_access, ↓run_deref, setAccess_access, setAccess_setAccess, Access.later_later,
    Nat.reduceAdd] at h
  obtain ⟨o, ho, h⟩ := h
  have hid : o.id = k := upload_id_of_get ho
  have hsame := ho.symm.trans (hk ▸ hfin.op)
  rw [Option.some.injEq] at hsame
  obtain ⟨hresult, -, -, hsnaps, -⟩ := policyResult_ok trust (w := w.setAccess (w.access.later 2))
    (hid ▸ ho) (fun _ => by rw [hsame]; rfl) h
  exact ⟨(acts_later _ 2).trans hresult, hsnaps⟩

theorem protectionCommitUpload_publishes {user : User} {session : Session} {req : CommitUploadRequest}
    {r : CommitResult × World} (hs : Sound app w.access)
    (h : (protectionCommitUpload app user session req) w = .ok r) :
    ∃ op, op.id = req.operation.operationId ∧ op.kind = .upload ∧
      w.access.uploads.get op.id = some op ∧
      (validatePolicy (some op)) (w.setAccess (w.access.later 1)) = .ok () ∧
      Publishes app (fun trust => trust.commits op) w.access r.2.access := by
  unfold protectionCommitUpload at h
  simp only [↓run_access, run_query, setAccess_access, setAccess_setAccess, Access.later_later,
    Nat.reduceAdd] at h
  obtain ⟨_, hvalid, h⟩ := h
  obtain ⟨res, s, hres, h⟩ := Tx.bind_ok.mp h
  obtain ⟨op, n, p, t, v, d, hacts, hid, ⟨j, rfl⟩, hdone, -, hfin, -⟩ :=
    accessCommitUpload_ok (hs.advance 2) hres
  have hget : w.access.uploads.get op.id = some op := hdone.ok.stored
  rw [← hid, hget] at hvalid
  exact ⟨op, hid, hdone.ok.kind, hget, hvalid, .before (fun _ => acts_later _ 2)
    (hacts.after (fun trust => (completed_acts trust hfin hid h).1)
      (completed_acts Trust.all hfin hid h).2)⟩

theorem protectionCommitUpload_refines (hp : ∀ op, trust.commits op) (user : User)
    (session : Session) (req : CommitUploadRequest) :
    Refines app trust (protectionCommitUpload app user session req) := by
  intro w r hs h
  obtain ⟨op, -, -, -, -, hpub⟩ := protectionCommitUpload_publishes hs h
  exact hpub.acts (hp op)

theorem commitUpload_refines (hp : ∀ op, trust.commits op) (user : User) (session : Session)
    (req : CommitUploadRequest) :
    Refines app trust (commitUpload app user session req) := by
  intro w r hs h
  unfold commitUpload at h
  have hplain : ∀ {P : Prop}, app.profile = .monolith ∨ app.profile = .distributed →
      app.rf3 = true → P := by
    intro P hp hr
    rcases hp with hp | hp <;> simp [App.rf3, hp] at hr
  split at h
  · obtain ⟨op, n, p, s, k, d, -, hdone, -, hw'⟩ := commandsCommitUpload_ok hs h
    rw [hw']
    exact (hdone.publishes (hplain (.inl ‹_›)) k r.1).acts (hp _)
  · obtain ⟨op, n, p, s, v, k, d, -, ⟨j, rfl⟩, hdone, -, hw', -⟩ := clusterCommitUpload_ok hs h
    rw [hw']
    exact (acts_later _ j).trans ((hdone.publishes (hplain (.inr ‹_›)) k r.1).acts (hp _))
  · obtain ⟨op, n, p, s, v, d, hpub, -⟩ := accessCommitUpload_ok hs h
    exact hpub.acts (hp _)
  · exact protectionCommitUpload_refines hp user session req w r hs h

end Dfsha
