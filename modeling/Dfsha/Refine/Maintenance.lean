import Dfsha.Refine.Writes

/-!
# Reports, collection and start

What data nodes report becomes a record of a block of an operation in preparation.  A
collection asks about one liveness after another while the clock moves; what it found dead
stays dead, so each of its passes may be judged when it ends.

A start closes every handle and drops every lock before there is a new epoch.
-/

namespace Dfsha

variable {app : App} {trust : Trust} {w : World}

/-! ## Reports of data nodes -/

theorem abortAssigned_refines (node : Id) : Refines app trust (abortAssigned node) := by
  intro w r hs h
  unfold abortAssigned at h
  simp only [↓run_cluster] at h
  refine (acts_later _ 1).trans ?_
  refine Tx.each_rel (R := fun u v : World => Acts app trust u.access v.access)
    (fun _ => .refl) (fun h1 h2 => h1.trans h2) ?_ h
  intro assignment _ u v hturn
  simp only [↓run_access] at hturn
  split at hturn
  · rw [Tx.pure_ok] at hturn
    cases hturn
    exact acts_later _ 1
  · rename_i op hop
    have hid : op.id = assignment.operation := upload_id_of_get hop
    split at hturn
    · rename_i hc
      simp only [putUpload, last_onAccess] at hturn
      cases hturn
      exact (acts_later _ 1).tail (act_end (hid ▸ hop) hc.2 (.inl rfl))
    · rw [Tx.pure_ok] at hturn
      cases hturn
      exact acts_later _ 1

theorem reregister_refines (req : RegisterNodeRequest) (old : DataNode) :
    Refines app trust (reregister req old) := by
  unfold reregister
  refine .query fun w x hs _ r h => ?_
  split at h
  · exact Quiet.refines app trust _ _ r (hs.advance 1) h
  · exact abortAssigned_refines _ _ r (hs.advance 1) h

theorem registerNode_refines (call : NodeCall) (req : RegisterNodeRequest) :
    Refines app trust (registerNode app call req) := by
  intro w r hs h
  unfold registerNode at h
  simp only [↓run_need, ↓run_deref, ↓run_cluster, run_query, setAccess_access, setAccess_setAccess,
    Access.later_later, Nat.reduceAdd] at h
  obtain ⟨_, -, -, allow, -, -, _, -, h⟩ := h
  obtain ⟨_, s, hold, h⟩ := Tx.bind_ok.mp h
  have hacts : Acts app trust (w.access.later 6) s.access := by
    cases hget : w.cluster.datanodes.get req.node.nodeId with
    | none =>
        simp only [setAccess_cluster, hget, Option.elim, Tx.pure_ok, Prod.mk.injEq] at hold
        rw [hold.2]
        exact .refl
    | some old =>
        simp only [setAccess_cluster, hget, Option.elim] at hold
        exact reregister_refines req old _ _ (hs.advance 6) hold
  have hrest : Refines app trust (do
      let now ← (liftM now : T Nat)
      putDatanode
        { id := req.node.nodeId, location := req.node, capacity := req.capacityBytes,
          free := req.freeBytes, used := 0, seen := now, sequence := 0, reconciled := false,
          inventoryId := req.inventoryId, page := 0, reportPages := [], heartbeatDigest := .unset,
          active := 0, authorizationDisabled := false }) := Quiet.refines app trust _
  have hs' := (hs.advance 6).acts hacts
  exact (acts_later _ 6).trans (hacts.trans (hrest s r hs' h))

/-- The patch that a report is about is this part of a write. -/
structure Patches (header : PatchBlockHeader) (part : Part) : Prop where
  version : part.replacement.blockVersionId = header.newBlockVersionId
  base : header.base = part.base
  offset : header.blockOffset = part.part.blockOffset
  length : header.deltaLength = part.part.length
  sha : header.deltaSha256 = part.part.deltaSha256

/-- What is assumed of the blocks in the reports that a control gets. -/
def Trust.admits (trust : Trust) : Call → Prop
  | .reportDurable _ req => ∀ op, op.kind = .upload →
      trust.block op (confirmedBlock req.receipt op.id)
  | .reportPatch _ req => ∀ op, op.kind = .write → ∀ part ∈ op.parts, Patches req.patch part →
      req.receipt.block.blockVersionId = part.replacement.blockVersionId →
      req.receipt.block.sizeBytes = part.replacement.sizeBytes →
      trust.block op (confirmedBlock req.receipt op.id)
  | .recordBlock _ header _ _ => ∀ op b, op.kind = .upload → b.ref = header.block →
      trust.block op b
  | _ => True

theorem mem_of_allocation {op : Operation} {i : Nat} {b : BlockRef}
    (h : op.allocation i = some b) : (i, b) ∈ op.allocations := by
  obtain ⟨l₁, l₂, hl, -⟩ := List.lookup_eq_some_iff.mp h
  rw [hl]
  simp

theorem confirmStored_refines (user : User) (node : DataNode)
    (req : ReportDurableRequest)
    (ht : ∀ op, op.kind = .upload → trust.block op (confirmedBlock req.receipt op.id)) :
    Refines app trust (confirmStored app user node req) := by
  intro w r hs h
  unfold confirmStored at h
  simp only [↓run_need, ↓run_cluster, ↓run_needSome, run_query, putBlock, run_onAccess,
    setAccess_access, setAccess_setAccess, Access.later_later, Nat.reduceAdd] at h
  obtain ⟨session, -, op, hop, assignment, -, ⟨-, -, -, halloc⟩, -, h⟩ := h
  obtain ⟨-, hup⟩ := operation_ok (hs.advance 1) hop
  have hconfirm : Act app trust (w.access.later 6) _ :=
    .confirmBlock (b := confirmedBlock req.receipt op.id)
      { stored := hup.stored
        state := hup.state
        id_eq := rfl
        allocated := ⟨_, mem_of_allocation halloc, rfl, fun _ => rfl⟩
        trusted := ht op hup.kind }
  have hacts := (acts_later w.access 6).tail hconfirm
  exact hacts.trans (Quiet.refines app trust _ _ r (hs.acts hacts) h)

theorem reportDurable_refines (call : NodeCall) (req : ReportDurableRequest)
    (ht : trust.admits (.reportDurable call req)) :
    Refines app trust (reportDurable app call req) := by
  unfold reportDurable
  refine .query fun w _ hs _ r h => ?_
  refine (Refines.query fun w node hs _ r h => ?_ : Refines app trust _) _ r (hs.advance 1) h
  refine (Refines.query fun w user hs _ r h => ?_ : Refines app trust _) _ r (hs.advance 1) h
  refine (Refines.query fun w _ hs _ r h => ?_ : Refines app trust _) _ r (hs.advance 1) h
  refine (Refines.query fun w previous hs _ r h => ?_ : Refines app trust _) _ r (hs.advance 1) h
  cases previous with
  | none => exact confirmStored_refines user node req ht _ r (hs.advance 1) h
  | some x => exact Quiet.refines app trust _ _ r (hs.advance 1) h

/-- What `validateHeader` guarantees: the write may go on, and the patch is one of its parts. -/
theorem validateHeader_ok {user : User} {session : Session} {header : PatchBlockHeader}
    {node : DataNode} {t : PatchTarget} {w' : World}
    (h : (validateHeader app user session header node) w = .ok (t, w')) :
    w.Later w' ∧ (∃ x s, Committable w.access x s ∧ x.op = t.op ∧ x.handle = t.handle) ∧
      t.part ∈ t.op.parts ∧ Patches header t.part := by
  unfold validateHeader at h
  obtain ⟨x, s, hx, h⟩ := Tx.bind_ok.mp h
  obtain ⟨⟨k, rfl⟩, -, b, hc⟩ := writeOperation_ok hx
  simp only [↓run_need, ↓run_needSome, ↓run_cluster, setAccess_access, setAccess_setAccess,
    Access.later_later, Tx.pure_ok, Prod.mk.injEq] at h
  obtain ⟨part, hpart, ⟨h1, h2, h3, h4⟩, -, assignment, -, -, rfl, rfl⟩ := h
  have hversion : part.replacement.blockVersionId = header.newBlockVersionId := by
    simpa using List.find?_some hpart
  exact ⟨⟨_, rfl⟩, ⟨x, b, hc, rfl, rfl⟩, List.mem_of_find?_eq_some hpart, hversion, h1, h2, h3, h4⟩

theorem confirmPatched_refines (user : User) (node : DataNode) (req : ReportPatchRequest)
    (ht : ∀ op, op.kind = .write → ∀ part ∈ op.parts, Patches req.patch part →
      req.receipt.block.blockVersionId = part.replacement.blockVersionId →
      req.receipt.block.sizeBytes = part.replacement.sizeBytes →
      trust.block op (confirmedBlock req.receipt op.id)) :
    Refines app trust (confirmPatched app user node req) := by
  intro w r hs h
  unfold confirmPatched at h
  simp only [run_query] at h
  obtain ⟨session, -, h⟩ := h
  obtain ⟨t, v, ht', h⟩ := Tx.bind_ok.mp h
  obtain ⟨⟨k, rfl⟩, ⟨x, b, hc, hxop, -⟩, hpart, hpatches⟩ := validateHeader_ok ht'
  simp only [↓run_need, putBlock, run_onAccess, setAccess_access, setAccess_setAccess,
    Access.later_later] at h
  obtain ⟨⟨-, -, hid, -, hsize, -⟩, h⟩ := h
  have hstored := hc.stored
  have hkind := hc.kind
  have hstate := hc.state
  rw [hxop] at hstored hkind hstate
  have shape := hs.writeShape t.op (Table.mem_of_get hstored) ⟨hkind, hstate⟩
  have hconfirm : Act app trust (w.access.later (1 + k + 1)) _ :=
    .confirmBlock (b := confirmedBlock req.receipt t.op.id)
      { stored := hstored
        state := hstate
        id_eq := rfl
        allocated := by
          refine ⟨(t.part.part.blockIndex, t.part.replacement), ?_, hid.symm, fun hu => ?_⟩
          · rw [shape.allocations]
            exact List.mem_map_of_mem (f := fun p : Part => (p.part.blockIndex, p.replacement)) hpart
          · rw [hkind] at hu
            cases hu
        trusted := ht t.op hkind t.part hpart hpatches hid hsize }
  have hacts := (acts_later w.access (1 + k + 1)).tail hconfirm
  exact hacts.trans (Quiet.refines app trust _ _ r (hs.acts hacts) h)

theorem reportPatch_refines (call : NodeCall) (req : ReportPatchRequest)
    (ht : trust.admits (.reportPatch call req)) :
    Refines app trust (reportPatch app call req) := by
  unfold reportPatch
  refine .query fun w _ hs _ r h => ?_
  refine (Refines.query fun w node hs _ r h => ?_ : Refines app trust _) _ r (hs.advance 1) h
  refine (Refines.query fun w user hs _ r h => ?_ : Refines app trust _) _ r (hs.advance 1) h
  refine (Refines.query fun w previous hs _ r h => ?_ : Refines app trust _) _ r (hs.advance 1) h
  cases previous with
  | none => exact confirmPatched_refines user node req ht _ r (hs.advance 1) h
  | some x => exact Quiet.refines app trust _ _ r (hs.advance 1) h

/-! ## Blocks on the control's own volume -/

theorem admitBlock_refines (token : Id) (header : PutBlockHeader) :
    Refines app trust (admitBlock app token header) := by
  unfold admitBlock
  refine .query fun w x hs _ r h => ?_
  refine (Refines.query fun w previous hs _ r h => ?_ : Refines app trust _) _ r (hs.advance 1) h
  cases previous with
  | some _ => exact Quiet.refines app trust (pure ()) _ r (hs.advance 1) h
  | none =>
      simp only [run_query, last_onAccess, setAccess_access, setAccess_setAccess,
        Access.later_later, Nat.reduceAdd] at h
      obtain ⟨_, hadm, rfl⟩ := h
      simp only [admissible, Query.bind_ok, need_ok] at hadm
      obtain ⟨op, hop, _, halloc, -⟩ := hadm
      obtain ⟨hid, hup⟩ := operation_ok (hs.advance 1) hop
      have hadmit : Act app trust (w.access.later 2) _ :=
        .admitPut (h := header) (hid ▸ hup.stored) (mem_of_allocation halloc)
      exact (acts_later (w.access.later 1) 1).tail hadmit

/-- What is recorded of a block that was written, and for which operation. -/
structure Recorded (a : Access) (header : PutBlockHeader) (stored : Nat) (op : Operation)
    (b : Access) : Prop where
  upload : a.uploads.get op.id = some op
  kind : op.kind = .upload
  state : op.state = .preparing
  allocated : (header.block.blockIndex, header.block) ∈ op.allocations
  after : ∃ k n receipt, b =
    { a.shift k n with
      blocks := a.blocks.put
        ⟨header.block.blockVersionId, header.block.fileId, op.id, header.block, stored, receipt⟩,
      uploads := a.uploads.put { op with reserved := op.reserved - stored },
      admitted := a.admitted.erase header }

theorem recordBlock_ok {token : Id} {header : PutBlockHeader} {stored : Nat} {digest : Digest}
    {r : Unit × World} (hs : Sound app w.access)
    (h : (recordBlock app token header stored digest) w = .ok r) :
    ∃ op, Recorded w.access header stored op r.2.access := by
  unfold recordBlock at h
  simp only [↓run_access, ↓run_deref, ↓run_now, run_query, run_draw, putBlock, putUpload,
    run_onAccess, setAccess_access, setAccess_setAccess, Access.later_later, Access.later_shift,
    Access.shift_later, Nat.reduceAdd] at h
  obtain ⟨found, hfound, x, -, op, hop, h⟩ := h
  have hheader : found = header := by simpa using List.find?_some hfound
  subst hheader
  have hmem := List.mem_of_find?_eq_some hfound
  have hshift : Acts app Trust.all w.access (w.access.shift 5 1) := acts_shift _ 5 1
  obtain ⟨hid, hup⟩ := operation_ok (hs.acts hshift) hop
  obtain ⟨o, ho, halloc⟩ := hs.admitted found hmem
  obtain rfl : o = op := Option.some.inj (ho.symm.trans (hid ▸ hup.stored))
  obtain ⟨_, s, k, n, -, hacc, h⟩ := run_quiet h
  simp only [last_onAccess] at h
  subst h
  generalize localReceipt app _ o found stored digest _ = receipt at hacc
  refine ⟨o, hup.stored, hup.kind, hup.state, halloc, 6 + k, 1 + n, receipt, ?_⟩
  dsimp only
  rw [hacc, ← Access.shift_shift]
  rfl

theorem recordBlock_refines (token : Id) (header : PutBlockHeader) (stored : Nat)
    (digest : Digest) (ht : trust.admits (.recordBlock token header stored digest)) :
    Refines app trust (recordBlock app token header stored digest) := by
  intro w r hs h
  obtain ⟨op, hrec⟩ := recordBlock_ok hs h
  obtain ⟨k, n, receipt, hafter⟩ := hrec.after
  have hok : ConfirmOk trust (w.access.shift k n) op ⟨header.block.blockVersionId,
      header.block.fileId, op.id, header.block, stored, receipt⟩ :=
    { stored := hrec.upload
      state := hrec.state
      id_eq := rfl
      allocated := ⟨_, hrec.allocated, rfl, fun _ => rfl⟩
      trusted := ht op _ hrec.kind rfl }
  have hconfirm : Act app trust (w.access.shift k n) _ := .confirmBlock hok
  have htouch := ((acts_shift w.access k n).tail hconfirm).tail
    (.spendOp (op.reserved - stored) hrec.upload hok.trusted)
  rw [hafter]
  exact htouch.tail (.discharge List.erase_subset)

/-! ## Collection -/

/-- The first pass: writes without their leases end. -/
theorem expireWrites_refines : Refines app trust expireWrites := by
  intro w r hs h
  unfold expireWrites at h
  simp only [↓run_access] at h
  refine (acts_later _ 1).trans ?_
  refine (Tx.each_rows (fun v : World => v.access.uploads) (P := fun _ _ => True)
    (I := fun v => Acts app trust (w.access.later 1) v.access)
    (s := w.setAccess (w.access.later 1)) w.access.uploads.sorted ?_ .refl
    (fun x hx => Table.get_of_mem hx) h).1
  intro op hop v v' hacts hget hturn
  obtain ⟨o, u, hexpire, hturn⟩ := Tx.bind_ok.mp hturn
  -- The turn of an operation writes its own record, and lets go of what it holds if it is over.
  have hone : Acts app trust v.access u.access ∧ u.access.uploads.get op.id = some o ∧
      o.id = op.id ∧ ∀ k, k ≠ op.id → u.access.uploads.get k = v.access.uploads.get k := by
    unfold expireWrite at hexpire
    simp only [↓run_access] at hexpire
    split at hexpire
    · rename_i hc
      simp only [putUpload, run_onAccess, setAccess_access, setAccess_setAccess, Tx.pure_ok,
        Prod.mk.injEq] at hexpire
      obtain ⟨rfl, rfl⟩ := hexpire
      exact ⟨(acts_later _ 1).tail (act_end hget hc.2.1 (.inr rfl)),
        Table.get_put_self _ (op.ended .expired), rfl, fun k hk => Table.get_put_of_ne _ hk⟩
    · simp only [Tx.pure_ok, Prod.mk.injEq] at hexpire
      obtain ⟨rfl, rfl⟩ := hexpire
      exact ⟨acts_later _ 1, hget, rfl, fun _ _ => rfl⟩
  obtain ⟨h1, hstored, hid, hframe⟩ := hone
  split at hturn
  · rename_i hst
    obtain ⟨hrel, k, l, hd, he⟩ := releaseOperation_acts app trust
      (hid ▸ hstored) hst hturn
    refine ⟨(hacts.trans h1).trans hrel, trivial, fun j hj => ?_⟩
    rw [show v'.access = _ from he]
    exact hframe j hj
  · rw [Tx.pure_ok] at hturn
    cases hturn
    exact ⟨hacts.trans h1, trivial, hframe⟩

/-- The second pass: handles whose lease is over are closed. -/
theorem closeExpired_refines : Refines app trust closeExpired := by
  intro w r hs h
  unfold closeExpired at h
  simp only [↓run_access] at h
  refine (acts_later _ 1).trans ?_
  refine (Tx.each_rows (fun v : World => v.access.handles) (P := fun _ _ => True)
    (I := fun v => Acts app trust (w.access.later 1) v.access)
    (s := w.setAccess (w.access.later 1)) w.access.handles.sorted ?_ .refl
    (fun x hx => Table.get_of_mem hx) h).1
  intro handle hhandle v v' hacts hget hturn
  simp only [↓run_access] at hturn
  split at hturn
  · rw [Tx.pure_ok] at hturn
    cases hturn
    exact ⟨hacts.trans (acts_later _ 1), trivial, fun _ _ => rfl⟩
  · simp only [putHandle, last_onAccess] at hturn
    cases hturn
    exact ⟨(hacts.trans (acts_later _ 1)).tail (.closeHandle handle.revision hget), trivial,
      fun k hk => Table.get_put_of_ne _ hk⟩

/-- The third pass: operations that can no longer commit end. -/
theorem endOperations_refines (restart : Bool) : Refines app trust (endOperations restart) := by
  intro w r hs h
  unfold endOperations at h
  simp only [↓run_access] at h
  refine (acts_later _ 1).trans ?_
  refine (Tx.each_rows (fun v : World => v.access.uploads) (P := fun _ _ => True)
    (I := fun v => Acts app trust (w.access.later 1) v.access)
    (s := w.setAccess (w.access.later 1)) w.access.uploads.sorted ?_ .refl
    (fun x hx => Table.get_of_mem hx) h).1
  intro op hop v v' hacts hget hturn
  simp only [↓run_access] at hturn
  split at hturn
  · rename_i hc
    simp only [putUpload, last_onAccess] at hturn
    cases hturn
    refine ⟨(hacts.trans (acts_later _ 1)).tail (act_end hget hc.1 ?_), trivial,
      fun k hk => Table.get_put_of_ne _ hk⟩
    cases restart
    · exact .inr rfl
    · exact .inl rfl
  · rw [Tx.pure_ok] at hturn
    cases hturn
    exact ⟨hacts.trans (acts_later _ 1), trivial, fun _ _ => rfl⟩

/-- What the pins contain: the snapshots of live files and of open handles. -/
theorem pinned_ok {pins : List Id} {w' : World} (h : pinned w = .ok (pins, w')) :
    w.Later w' ∧ (∀ n ∈ w.access.nodes.all, n.alive = true → ∀ k ∈ n.snapshot, k ∈ pins) ∧
      ∀ x ∈ w.access.handles.all, x.closed = false → w'.access.liveHandle x →
        x.snapshot ∈ pins := by
  unfold pinned at h
  simp only [↓run_access] at h
  obtain ⟨handles, s, hsel, h⟩ := Tx.bind_ok.mp h
  obtain ⟨hlater, hmem⟩ := Tx.select_ok World.Later.refl World.Later.trans (fun v => ⟨1, rfl⟩) hsel
  simp only [↓run_access, Tx.pure_ok, Prod.mk.injEq] at h
  obtain ⟨rfl, rfl⟩ := h
  obtain ⟨k, rfl⟩ := World.Later.trans ⟨1, rfl⟩ hlater
  refine ⟨⟨k + 1, rfl⟩, fun n hn ha j hj => ?_, fun x hx hc hlive => ?_⟩
  · refine List.mem_append_right _ (List.mem_filterMap.mpr ⟨n, hn, ?_⟩)
    rw [if_pos ha]
    exact hj
  · refine List.mem_append_left _ (List.mem_map_of_mem ?_)
    refine (hmem x hx).resolve_right ?_
    rintro ⟨t, -, ht, hf⟩
    have hlive' : t.access.liveHandle x := (ht.trans ⟨1, rfl⟩).live hlive
    have hepoch : t.access.epoch.isSome = true := hlive'.2.1 ▸ hlive'.1
    simp only [pinning, Query.bind_ok, access, Query.read_ok, Query.pure_ok,
      decide_eq_false_iff_not, not_and] at hf
    obtain ⟨a, rfl, hf⟩ := hf
    have := hf hc
    rw [if_pos hepoch] at this
    exact this hlive'

variable (trust) in
/-- The snapshots that are dropped are those that are not pinned; the blocks of the others are
retained. -/
theorem dropSnapshots_ok {pins kept : List Id} {w' : World}
    (hnodes : ∀ n ∈ w.access.nodes.all, n.alive = true → ∀ k ∈ n.snapshot, k ∈ pins)
    (hhandles : ∀ x ∈ w.access.handles.all, x.closed = false → w.access.liveHandle x →
      x.snapshot ∈ pins)
    (h : (dropSnapshots pins) w = .ok (kept, w')) :
    Acts app trust w.access w'.access ∧
      (∃ t, w'.access = { w.access.later 1 with snapshots := t }) ∧
      ∀ s ∈ w'.access.snapshots.all, ∀ b ∈ s.blocks, b.blockVersionId ∈ kept := by
  unfold dropSnapshots at h
  simp only [↓run_access] at h
  obtain ⟨_, s, hloop, h⟩ := Tx.bind_ok.mp h
  simp only [Tx.pure_ok, Prod.mk.injEq] at h
  obtain ⟨rfl, rfl⟩ := h
  have hrows := Tx.each_rows (fun v : World => v.access.snapshots)
    (P := fun x o => x.id ∉ pins → o = none)
    (I := fun v => Acts app trust (w.access.later 1) v.access ∧
      ∃ t, v.access = { w.access.later 1 with snapshots := t } ∧
        ∀ y ∈ t.all, y ∈ w.access.snapshots.all)
    (s := w.setAccess (w.access.later 1)) w.access.snapshots.sorted ?_
    ⟨.refl, _, rfl, fun _ hy => hy⟩ (fun x hx => Table.get_of_mem hx) hloop
  · obtain ⟨⟨hacts, t, ht, hsub⟩, hP⟩ := hrows
    refine ⟨(acts_later _ 1).trans hacts, ⟨t, ht⟩, fun x hx b hb => ?_⟩
    have hx' : x ∈ t.all := by rwa [ht] at hx
    have hpin : x.id ∈ pins := by
      by_contra hn
      have hnone := hP x (hsub x hx') hn
      exact absurd (hnone.symm.trans (Table.get_of_mem hx)) (by simp)
    exact List.mem_flatMap.mpr ⟨x, List.mem_filter.mpr ⟨hsub x hx', by simpa using hpin⟩,
      List.mem_map_of_mem hb⟩
  · rintro x hx v v' ⟨hacts, t, ht, hsub⟩ hget hturn
    split at hturn
    · rename_i hpin
      rw [Tx.pure_ok] at hturn
      cases hturn
      exact ⟨⟨hacts, t, ht, hsub⟩, fun hn => absurd hpin hn, fun _ _ => rfl⟩
    · rename_i hpin
      simp only [deleteSnapshot, last_onAccess] at hturn
      cases hturn
      refine ⟨⟨hacts.tail (.dropSnapshot ?_ ?_), t.delete x.id, ?_, Table.forall_delete hsub⟩,
        ?_, ?_⟩
      · rw [ht]
        exact fun n hn ha he => hpin (hnodes n hn ha _ he)
      · rw [ht]
        intro y hy hc hlive he
        exact hpin (he ▸ hhandles y hy hc (Access.live_of_later (k := 1) hlive))
      · rw [setAccess_access, ht]
      · exact fun _ => Table.get_delete_self _ _
      · exact fun k hk => Table.get_delete_of_ne _ hk

/-- Deleting the copies of a block is quiet, up to the record of the block. -/
theorem clusterRetireBlock_ok {block : Block} {r : Unit × World}
    (h : (clusterRetireBlock app block) w = .ok r) :
    ∃ k n, r.2.access = { w.access.shift k n with blocks := w.access.blocks.delete block.id } := by
  unfold clusterRetireBlock at h
  simp only [↓run_cluster] at h
  obtain ⟨_, s, k, n, -, hacc, h⟩ := run_quiet h
  simp only [deleteBlock, last_onAccess] at h
  subst h
  refine ⟨1 + k, n, ?_⟩
  rw [setAccess_access, hacc, setAccess_access, Access.later_shift]
  rfl

variable (trust) in
/-- A block that nothing uses is retired. -/
theorem retireBlock_acts {block : Block} {r : Unit × World}
    (hget : w.access.blocks.get block.id = some block)
    (hsnap : ∀ s ∈ w.access.snapshots.all, ∀ b ∈ s.blocks, b.blockVersionId ≠ block.id)
    (hops : ∀ op ∈ w.access.uploads.all, op.state = .preparing → ∀ x ∈ op.allocations,
      x.2.blockVersionId ≠ block.id)
    (h : (retireBlock app block) w = .ok r) :
    Acts app trust w.access r.2.access ∧ ∃ k n t, r.2.access =
      { w.access.shift k n with blocks := w.access.blocks.delete block.id, retired := t } := by
  have hrecord : ∃ b ∈ w.access.blocks.all, b.id = block.id :=
    ⟨block, Table.mem_of_get hget, rfl⟩
  have hcluster : (clusterRetireBlock app block) w = .ok r →
      Acts app trust w.access r.2.access ∧ ∃ k n t, r.2.access =
        { w.access.shift k n with blocks := w.access.blocks.delete block.id, retired := t } := by
    intro h
    obtain ⟨k, n, he⟩ := clusterRetireBlock_ok h
    refine ⟨?_, k, n, w.access.retired, by rw [he]; rfl⟩
    rw [he]
    exact (acts_shift _ k n).tail
      (.retireBlock (k := block.id) hsnap hops hrecord (.inl rfl))
  unfold retireBlock at h
  split at h
  · simp only [deleteBlock, last_onAccess] at h
    subst h
    exact ⟨.single (.retireBlock (k := block.id) hsnap hops hrecord (.inl rfl)), 0, 0,
      w.access.retired, rfl⟩
  · exact hcluster h
  · exact hcluster h
  · simp only [↓run_now, putRetired, run_onAccess, setAccess_access, setAccess_setAccess] at h
    obtain ⟨k, n, he⟩ := clusterRetireBlock_ok h
    refine ⟨?_, 1 + k, n, w.access.retired.put ⟨block.id, block.ref, w.access.now⟩, ?_⟩
    · rw [he]
      exact ((acts_later _ 1).trans (acts_shift _ k n)).tail
        (.retireBlock (k := block.id) hsnap hops hrecord (.inr ⟨_, rfl, rfl⟩))
    · rw [he, ← Access.later_shift]
      rfl

/-- The blocks that are not retained are retired, one after the other. -/
theorem retireLoop_acts {retained : List Id} {a : Access} {r : Unit × World}
    (ha : w.access = a)
    (hsnap : ∀ s ∈ a.snapshots.all, ∀ b ∈ s.blocks, b.blockVersionId ∈ retained)
    (hops : ∀ op ∈ a.uploads.all, op.state = .preparing → ∀ x ∈ op.allocations,
      x.2.blockVersionId ∈ retained)
    (h : (Tx.each a.blocks.all fun block =>
      if block.id ∈ retained then pure () else retireBlock app block) w = .ok r) :
    Acts app trust a r.2.access := by
  refine (Tx.each_rows (fun v : World => v.access.blocks) (P := fun _ _ => True)
    (I := fun v => Acts app trust a v.access ∧ v.access.snapshots = a.snapshots ∧
      v.access.uploads = a.uploads) a.blocks.sorted ?_ ⟨ha ▸ .refl, by rw [ha], by rw [ha]⟩
    (fun x hx => by rw [ha]; exact Table.get_of_mem hx) h).1.1
  rintro block - v v' ⟨hacts, hvs, hvu⟩ hget hturn
  split at hturn
  · rw [Tx.pure_ok] at hturn
    cases hturn
    exact ⟨⟨hacts, hvs, hvu⟩, trivial, fun _ _ => rfl⟩
  · rename_i hkeep
    obtain ⟨hstep, k, n, t, he⟩ := retireBlock_acts trust hget
      (fun s hs b hb heq => hkeep (heq ▸ hsnap s (hvs ▸ hs) b hb))
      (fun op hop hst x hx heq => hkeep (heq ▸ hops op (hvu ▸ hop) hst x hx)) hturn
    refine ⟨⟨hacts.trans hstep, ?_, ?_⟩, trivial, fun j hj => ?_⟩
    · rw [show v'.access = _ from he]
      exact hvs
    · rw [show v'.access = _ from he]
      exact hvu
    · rw [show v'.access = _ from he]
      exact Table.get_delete_of_ne _ hj

theorem collectMetadata_refines (restart : Bool) :
    Refines app trust (collectMetadata app restart) := by
  intro w r hs h
  unfold collectMetadata at h
  simp only [↓run_access] at h
  obtain ⟨_, s₁, hleases, h⟩ := Tx.bind_ok.mp h
  have h₁ : Acts app trust w.access s₁.access := by
    refine (acts_later _ 1).trans ?_
    split at hleases
    · exact (expireWrites_refines.bind fun _ => closeExpired_refines) _ _ (hs.advance 1) hleases
    · rw [Tx.pure_ok] at hleases
      cases hleases
      exact .refl
  obtain ⟨_, s₂, hend, h⟩ := Tx.bind_ok.mp h
  have h₂ := h₁.trans (endOperations_refines restart _ _ (hs.acts h₁) hend)
  obtain ⟨pins, s₃, hpins, h⟩ := Tx.bind_ok.mp h
  obtain ⟨hlater, hnodes, hhandles⟩ := pinned_ok hpins
  obtain ⟨k, rfl⟩ := hlater
  simp only [↓run_world, setAccess_access, setAccess_setAccess, Access.later_later] at h
  obtain ⟨kept, s₄, hdrop, h⟩ := Tx.bind_ok.mp h
  obtain ⟨hacts₄, -, hkept⟩ := dropSnapshots_ok trust
    (w := s₂.setAccess (s₂.access.later (k + 1))) hnodes
    (fun x hx hc hlive => hhandles x hx hc (Access.live_of_later (k := 1) hlive)) hdrop
  have h₄ : Acts app trust w.access s₄.access := h₂.trans ((acts_later _ (k + 1)).trans hacts₄)
  simp only [↓run_access] at h
  obtain ⟨_, s₅, hretire, h⟩ := Tx.bind_ok.mp h
  rw [Tx.pure_ok] at h
  subst h
  refine h₄.trans ((acts_later _ 1).trans (retireLoop_acts (a := s₄.access.later 1) rfl ?_ ?_ hretire))
  · intro s hs b hb
    exact List.mem_append_left _ (List.mem_append_right _ (hkept s hs b hb))
  · intro op hop hst x hx
    refine List.mem_append_right _ (List.mem_flatMap.mpr ⟨op, List.mem_filter.mpr ⟨hop, by simpa using hst⟩, ?_⟩)
    exact List.mem_map_of_mem (f := fun x : Nat × BlockRef => x.2.blockVersionId) hx

/-! ## Start -/

/-- The new epoch is as good as begun when its identifier is drawn: what is closed and dropped
until it is written belongs to no epoch any more. -/
theorem startLeases_refines : Refines app trust (startLeases app) := by
  intro w r hs h
  unfold startLeases at h
  simp only [run_draw] at h
  obtain ⟨_, s₀, hgen, h⟩ := Tx.bind_ok.mp h
  rw [Tx.modify_ok] at hgen
  cases hgen
  simp only [↓run_access] at h
  obtain ⟨_, s₁, hhandles, h⟩ := Tx.bind_ok.mp h
  obtain ⟨_, s₂, hlocks, h⟩ := Tx.bind_ok.mp h
  simp only [last_onAccess] at h
  subst h
  have hepoch : Acts app trust w.access
      { w.access.shift 2 1 with epoch := some (app.uuid w.access.issued) } :=
    ((acts_shift _ 2 1).tail (.newEpoch (fresh_draw hs 2)))
  have h₁ : Acts app trust w.access
      { s₁.access with epoch := some (app.uuid w.access.issued) } := by
    refine (Tx.each_rows (fun v : World => v.access.handles) (P := fun _ _ => True)
      (I := fun v => Acts app trust w.access
        { v.access with epoch := some (app.uuid w.access.issued) })
      (s := { w.setAccess (w.access.shift 2 1) with generation := w.generation + 1 })
      w.access.handles.sorted ?_ hepoch (fun x hx => Table.get_of_mem hx) hhandles).1
    intro handle _ v v' hacts hget hturn
    simp only [putHandle, last_onAccess] at hturn
    cases hturn
    exact ⟨hacts.tail (.closeHandle handle.revision hget), trivial,
      fun k hk => Table.get_put_of_ne _ hk⟩
  refine Tx.each_induction (fun _ v => Acts app trust w.access
    { v.access with epoch := some (app.uuid w.access.issued) }) ?_ h₁ hlocks
  intro lock _ v v' hacts hturn
  simp only [deleteLock, last_onAccess] at hturn
  cases hturn
  exact hacts.tail (.dropLock _ _)

end Dfsha
