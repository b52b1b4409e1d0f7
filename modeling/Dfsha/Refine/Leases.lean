import Dfsha.Refine.Namespace

/-!
# Locks and handles

`acquire` judges every lock of the table at a reading of the clock of its own.  All of them
come before the new lock is written, and a lock that is live when it is written was live when
it was judged, so the new lock excludes nobody at the moment it is written.

A renewal is guarded the other way round: the lease is live when it is validated, and the new
deadline is written a little later.  The renewal counts as happening when it is validated.
-/

namespace Dfsha

variable {app : App} {trust : Trust} {w : World}

/-! ## Acquiring -/

/-- The records after a lock was granted. -/
def Access.granted (a : Access) (k : Nat) (l : Lock) : Access :=
  { a with
    phase := a.phase + k, issued := a.issued + 1, lockSequence := a.lockSequence + 1,
    locks := a.locks.put l }

/-- What a lock says that was granted to an owner. -/
structure Granted (app : App) (a : Access) (o : Owner) (indices : List Nat)
    (whole size automatic : Bool) (l : Lock) : Prop where
  id_eq : l.id = app.uuid a.issued
  epoch_eq : a.epoch = some l.controlEpoch
  owner_eq : l.owner = o
  indices_eq : l.indices = indices.dedup.insertionSort (· ≤ ·)
  whole_eq : l.whole = whole
  size_eq : l.size = size
  automatic_eq : l.automatic = automatic
  active_eq : l.active = []

/-- The loop that judges every lock. -/
theorem judge_ok {o : Owner} {indices : List Nat} {whole size : Bool} :
    ∀ {l : List Lock} {w : World} {r : Unit × World},
      (Tx.each l fun lock => do
        let a ← (liftM access : T Access)
        need (a.liveLock lock → lock.file = o.file →
          (lock.session, lock.handle) ≠ (o.session, o.id) →
            ¬ conflicts indices whole size lock) .lockConflict) w = .ok r →
      ∃ k, r.2 = w.setAccess (w.access.later k) ∧
        ∀ m ∈ l, (w.access.later k).liveLock m → m.file = o.file → m.owner ≠ o →
          ¬ conflicts indices whole size m := by
  intro l
  induction l with
  | nil =>
      intro w r h
      rw [Tx.each, Tx.pure_ok] at h
      exact ⟨0, by rw [h]; rfl, fun m hm => absurd hm List.not_mem_nil⟩
  | cons lock l ih =>
      intro w r h
      rw [Tx.each] at h
      obtain ⟨⟨⟩, s, h1, h2⟩ := Tx.bind_ok.mp h
      simp only [↓run_access] at h1
      obtain ⟨hc, hs⟩ := Tx.monadLift_ok.mp h1
      rw [need_ok] at hc
      obtain ⟨k, hk, hrest⟩ := ih h2
      have hsw : s = w.setAccess (w.access.later 2) := hs
      subst hsw
      simp only [setAccess_access, setAccess_setAccess, Access.later_later] at hk hrest
      refine ⟨2 + k, hk, fun m hm hlive hf ho => ?_⟩
      rcases List.mem_cons.mp hm with rfl | hm
      · refine hc (Access.live_of_later (k := 2 + k) hlive) hf fun he => ho ?_
        simp only [Prod.mk.injEq] at he
        simp only [Lock.owner, hf, he.1, he.2]
      · exact hrest m hm hlive hf ho

/-- **What `acquire` grants.** -/
theorem acquire_ok {o : Owner} {indices : List Nat} {whole size automatic : Bool} {l : Lock}
    {w' : World} (h : (acquire app o indices whole size automatic) w = .ok (l, w')) :
    ∃ k, w' = w.setAccess (w.access.granted k l) ∧
      Granted app w.access o indices whole size automatic l ∧
      ∀ m ∈ w.access.locks.all, (w.access.later k).liveLock m → m.file = o.file → m.owner ≠ o →
        Compatible l m := by
  unfold acquire at h
  simp only [↓run_access] at h
  obtain ⟨_, s, hloop, h⟩ := Tx.bind_ok.mp h
  obtain ⟨k, hk, hjudge⟩ := judge_ok hloop
  subst hk
  simp only [↓run_access, ↓run_clock, run_query, run_onAccess, run_draw, putLock, leaseEpoch_ok,
    setAccess_access, setAccess_setAccess, Access.later_later, Tx.pure_ok, Prod.mk.injEq] at h
  obtain ⟨e, he, rfl, rfl⟩ := h
  refine ⟨1 + k + 4, rfl, ⟨rfl, he, rfl, rfl, rfl, rfl, rfl, rfl⟩, fun m hm hlive hf ho => ?_⟩
  refine compatible_of_not_conflicts (hjudge m hm ?_ hf ho)
  rw [setAccess_access, Access.later_later]
  exact Access.live_of_later (k := 4) hlive

/-- Granting a lock is the action `acquire`, for an owner whose file is the lock's. -/
theorem acts_granted {a : Access} {o : Owner} {indices : List Nat} {whole size automatic : Bool}
    {l : Lock} {k : Nat} (h : Granted app a o indices whole size automatic l)
    (hc : ∀ m ∈ a.locks.all, (a.later k).liveLock m → m.file = o.file → m.owner ≠ o →
      Compatible l m)
    (hi : Issued app a o.id) (hf : ∀ x, a.handles.get o.id = some x → o.file = x.file) :
    Acts app trust a (a.granted k l) := by
  have hl : l.handle = o.id ∧ l.file = o.file := by
    rw [← h.owner_eq]
    exact ⟨rfl, rfl⟩
  refine ((acts_later a k).tail (.sequence _ (a.lockSequence + 1))).tail (.acquire (l := l) ?_)
  exact
    { id_eq := h.id_eq
      epoch_eq := h.epoch_eq
      owner := hl.1 ▸ hi
      file_eq := fun x hx => hl.2 ▸ hf x (hl.1 ▸ hx)
      compatible := fun m hm hlive hmf hmo =>
        hc m hm hlive (hl.2 ▸ hmf) (h.owner_eq ▸ hmo) }

/-! ## What a handle leads to -/

/-- What `handle` guarantees: the handle is stored, open and live, and so is its snapshot. -/
theorem accessHandle_ok {user : User} {session : Session} {id : Id} {h : Handle} {s : Snapshot}
    (hq : (accessHandle app user session id) w = .ok (h, s)) :
    w.access.handles.get id = some h ∧ h.session = session.id ∧ h.closed = false ∧
      w.access.liveHandle h ∧ w.access.snapshots.get h.snapshot = some s := by
  simp only [accessHandle, Query.bind_ok, access, Query.read_ok, needSome_ok, need_ok,
    Query.pure_ok, Prod.mk.injEq] at hq
  obtain ⟨a, rfl, g, hg, _, ⟨-, hs, hc, hl⟩, _, -, _, -, t, ht, rfl, rfl⟩ := hq
  exact ⟨hg, hs, hc, hl, ht⟩

/-- What `writable` guarantees: besides, the file is alive, and its current snapshot is of the
epoch of the handle's. -/
theorem writable_ok {user : User} {session : Session} {id : Id} {t : Writable}
    (hq : (writable app user session id) w = .ok t) :
    w.access.handles.get id = some t.handle ∧ t.handle.session = session.id ∧
      t.handle.closed = false ∧ w.access.liveHandle t.handle ∧
      w.access.snapshots.get t.handle.snapshot = some t.snap ∧
      Current w.access t.handle.file t.node t.current ∧
      t.current.ref.contentEpoch = t.snap.ref.contentEpoch := by
  simp only [writable, Query.bind_ok, access, Query.read_ok, deref_ok, need_ok, Query.pure_ok] at hq
  obtain ⟨⟨h, s⟩, hh, _, -, a, rfl, _, -, node, hn, root, hr, current, hc, _, ⟨ha, he⟩, rfl⟩ := hq
  obtain ⟨h1, h2, h3, h4, h5⟩ := accessHandle_ok hh
  have hid : current.id = root := snapshot_id_of_get hc
  exact ⟨h1, h2, h3, h4, h5, ⟨hn, ha, hid ▸ hr, hid ▸ hc⟩, he⟩

/-! ## Commands about locks -/

/-- A handle is a proper owner of locks. -/
theorem owner_ok {a : Access} (hs : Sound app a) {h : Handle} (hg : a.handles.get h.id = some h) :
    Issued app a h.owner.id ∧ ∀ x, a.handles.get h.owner.id = some x → h.owner.file = x.file := by
  refine ⟨hs.ids.handles h (Table.mem_of_get hg) _ (by simp [Handle.ids, Handle.owner]), ?_⟩
  intro x hx
  have : x = h := Option.some.inj (hx.symm.trans hg)
  rw [this]
  rfl

theorem lockBlocks_refines (user : User) (session : Session) (req : LockRequest) :
    Refines app trust (lockBlocks app user session req) := by
  intro w r hs h
  unfold lockBlocks at h
  simp only [↓run_need, run_query, setAccess_access, setAccess_setAccess, Access.later_later,
    Nat.reduceAdd] at h
  obtain ⟨t, ht, -, -, indices, -, h⟩ := h
  obtain ⟨l, w', hl, h⟩ := Tx.bind_ok.mp h
  obtain ⟨k, rfl, hg, hc⟩ := acquire_ok hl
  obtain ⟨hget, -⟩ := writable_ok ht
  have hid : t.handle.id = req.handleId := handle_id_of_get hget
  obtain ⟨hi, hf⟩ := owner_ok (hs.advance 4) (hid ▸ hget)
  simp only [run_query, Tx.pure_ok] at h
  obtain ⟨f, -, rfl⟩ := h
  exact (acts_later _ 4).trans ((acts_granted hg hc hi hf).trans (acts_later _ 1))

theorem renewLock_refines (user : User) (session : Session) (fence : Fence) :
    Refines app trust (renewLock app user session fence) := by
  intro w r hs h
  unfold renewLock at h
  simp only [↓run_clock, run_query, putLock, run_onAccess, setAccess_access, setAccess_setAccess,
    Access.later_later, Nat.reduceAdd, Tx.pure_ok] at h
  obtain ⟨t, -, lock, hv, f, -, rfl⟩ := h
  obtain ⟨hget, -, hlive, -⟩ := validate_ok hv
  have hid : lock.id = fence.lockId := lock_id_of_get hget
  exact ((acts_later _ 1).tail (.renewLock _ (hid ▸ hget) hlive)).trans (acts_later _ 3)

theorem unlock_refines (session : Session) (ctx : RequestContext) (fence : Fence) :
    Refines app trust (unlock session ctx fence) := by
  intro w r hs h
  unfold unlock at h
  simp only [↓run_need, run_query, deleteLock, run_onAccess, setAccess_access, setAccess_setAccess,
    Access.later_later, Nat.reduceAdd, Tx.pure_ok] at h
  obtain ⟨lock, -, -, rfl⟩ := h
  exact (acts_later _ 2).tail (.dropLock _ _)

/-! ## Commands about handles -/

/-- A refreshed handle differs in its lease only. -/
theorem refreshHandle_ok {h g : Handle} {w' : World}
    (hr : (refreshHandle app h false) w = .ok (g, w')) :
    w' = w.setAccess (w.access.later 2) ∧
      g = { h with deadline := g.deadline, expires := g.expires } := by
  unfold refreshHandle at hr
  simp only [Bool.false_eq_true, if_false, run_pure, ↓run_clock, run_query, setAccess_access,
    setAccess_setAccess, Access.later_later, Nat.reduceAdd, Tx.pure_ok, Prod.mk.injEq] at hr
  obtain ⟨hint, -, rfl, rfl⟩ := hr
  exact ⟨rfl, rfl⟩

/-- A new handle gets a lease of the current epoch. -/
theorem refreshHandle_initial {h g : Handle} {w' : World}
    (hr : (refreshHandle app h true) w = .ok (g, w')) :
    ∃ e, w.access.epoch = some e ∧ w' = w.setAccess (w.access.later 4) ∧
      g = { h with
            controlEpoch := some e, maximum := g.maximum, deadline := g.deadline,
            expires := g.expires } := by
  unfold refreshHandle startHandle at hr
  rw [if_pos rfl] at hr
  obtain ⟨x, s, hx, hr⟩ := Tx.bind_ok.mp hr
  simp only [↓run_clock, run_query, leaseEpoch_ok, setAccess_access, setAccess_setAccess,
    Access.later_later, Nat.reduceAdd, Tx.pure_ok, Prod.mk.injEq] at hx
  obtain ⟨e, he, rfl, rfl⟩ := hx
  simp only [↓run_clock, run_query, setAccess_access, setAccess_setAccess, Access.later_later,
    Nat.reduceAdd, Tx.pure_ok, Prod.mk.injEq] at hr
  obtain ⟨hint, -, rfl, rfl⟩ := hr
  exact ⟨e, he, rfl, rfl⟩

variable (app trust) in
theorem renewBusy_refines (h : Handle) : Refines app trust (renewBusy h) := by
  intro w r hs hr
  unfold renewBusy at hr
  simp only [↓run_access] at hr
  split at hr
  · rw [Tx.pure_ok] at hr
    subst hr
    exact acts_later _ 1
  · rename_i op hop
    obtain ⟨k, -, hget⟩ := Option.bind_eq_some_iff.mp hop
    split at hr
    · rename_i hwrite
      simp only [putUpload, last_onAccess, setAccess_access] at hr
      subst hr
      refine (acts_later _ 1).tail (.touchOp h.expires op.result
        (upload_id_of_get hget ▸ hget) (fun _ => rfl) fun hkind => ?_)
      rw [hkind] at hwrite
      cases hwrite.1
    · rw [Tx.pure_ok] at hr
      subst hr
      exact acts_later _ 1

theorem accessRenewHandle_refines (user : User) (session : Session) (id : Id) :
    Refines app trust (accessRenewHandle app user session id) := by
  intro w r hs h
  unfold accessRenewHandle at h
  simp only [run_query] at h
  obtain ⟨⟨handle, s⟩, hh, h⟩ := h
  obtain ⟨g, w', hg, h⟩ := Tx.bind_ok.mp h
  obtain ⟨rfl, hge⟩ := refreshHandle_ok hg
  obtain ⟨hget, -, hc, hl, -⟩ := accessHandle_ok hh
  have hid : handle.id = id := handle_id_of_get hget
  have hput : Acts app trust w.access
      { w.access.later 3 with handles := w.access.handles.put g } := by
    rw [hge]
    exact (Relation.ReflTransGen.single
      (.renewHandle g.deadline g.expires (hid ▸ hget) hc hl)).trans (acts_later _ 3)
  simp only [putHandle, run_onAccess, setAccess_access, setAccess_setAccess, Access.later_later,
    Nat.reduceAdd] at h
  obtain ⟨_, s₁, hb, h⟩ := Tx.bind_ok.mp h
  have hbusy := renewBusy_refines app trust g _ _ (hs.acts hput) hb
  simp only [run_query, Tx.pure_ok] at h
  obtain ⟨m, -, rfl⟩ := h
  exact hput.trans (hbusy.trans (acts_later _ 1))

theorem accessClose_refines (user : User) (session : Session) (ctx : RequestContext) (id : Id) :
    Refines app trust (accessClose user session ctx id) := by
  intro w r hs h
  unfold accessClose at h
  simp only [↓run_access, ↓run_need, ↓run_needSome, setAccess_access, setAccess_setAccess,
    Access.later_later, Nat.reduceAdd] at h
  obtain ⟨handle, hget, -, h⟩ := h
  split at h
  · rw [Tx.pure_ok] at h
    subst h
    exact acts_later _ 3
  · obtain ⟨_, s, hclose, h⟩ := Tx.bind_ok.mp h
    rw [Tx.pure_ok] at h
    subst h
    unfold closeHandle at hclose
    simp only [↓run_access, ↓run_need, putHandle, run_onAccess, setAccess_access,
      setAccess_setAccess, Access.later_later, Nat.reduceAdd] at hclose
    have hid : handle.id = id := handle_id_of_get hget
    refine ((acts_later _ 4).tail (.closeHandle (handle.revision + 1) (hid ▸ hget))).trans
      ((acts_later _ 1).trans ?_)
    refine Tx.each_rel (R := fun u v : World => Acts app trust u.access v.access)
      (fun _ => .refl) (fun h1 h2 => h1.trans h2) ?_ hclose.2
    intro lock _ u v hv
    split at hv
    · simp only [deleteLock, last_onAccess] at hv
      cases hv
      exact .single (.dropLock _ _)
    · rw [Tx.pure_ok] at hv
      cases hv
      exact .refl

theorem beginRead_refines (user : User) (session : Session) (req : BeginReadRequest) :
    Refines app trust (beginRead app user session req) := by
  intro w r hs h
  unfold beginRead at h
  simp only [↓run_need, run_query, run_draw, putRead, putHandle, run_onAccess, setAccess_access,
    setAccess_setAccess, Access.later_later, Access.later_shift, Nat.reduceAdd, Tx.pure_ok] at h
  obtain ⟨⟨handle, s⟩, hh, -, hb, -, _, -, rfl⟩ := h
  obtain ⟨hget, -⟩ := accessHandle_ok hh
  have hid : handle.id = req.handleId := handle_id_of_get hget
  have hbegin : Act app trust (w.access.shift 6 1) _ :=
    .beginRead (h := handle)
      (r := ⟨app.uuid w.access.issued, handle.id, session.id, req.offset, req.length, false⟩)
      (fresh_draw hs 6) (hid ▸ hget) hb rfl
  exact (acts_shift _ 6 1).tail hbegin

theorem endRead_refines (user : User) (session : Session) (ctx : RequestContext)
    (handleId readId : Id) : Refines app trust (endRead user session ctx handleId readId) := by
  intro w r hs h
  unfold endRead at h
  simp only [↓run_access, ↓run_need, ↓run_needSome, putRead, run_onAccess, setAccess_access,
    setAccess_setAccess, Access.later_later, Nat.reduceAdd] at h
  obtain ⟨handle, hget, record, hrec, hown, h⟩ := h
  obtain ⟨_, s, hfree, h⟩ := Tx.bind_ok.mp h
  rw [Tx.pure_ok] at h
  subst h
  have hrid : record.id = readId := Table.key_of_get hrec
  have hid : handle.id = handleId := handle_id_of_get hget
  have hend : Act app trust (w.access.later 4) _ :=
    .endRead (h := handle) (r := record) (by rw [hrid]; exact hrec) (hid ▸ hget) hown.1
  refine (acts_later _ 4).trans (.single ?_)
  unfold Handle.freed at hend
  split at hfree
  · rename_i hbusy
    simp only [putHandle, last_onAccess, setAccess_access] at hfree
    cases hfree
    rw [if_pos hbusy] at hend
    exact hend
  · rename_i hbusy
    rw [Tx.pure_ok] at hfree
    cases hfree
    have hsame : (w.access.later 4).handles.put handle = w.access.handles :=
      Table.put_get_self (hid ▸ hget)
    rw [if_neg hbusy, hsame] at hend
    exact hend

end Dfsha
