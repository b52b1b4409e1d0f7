import Dfsha.Refine.Leases

/-!
# Opening a file

`Open` in a creating mode publishes an empty snapshot.  For a new file that is the action
`createFile`; for an existing one it is `truncate`, which asks that no live lock is held on
the file.  The source makes sure of it by acquiring a lock on the whole file for an owner that
exists nowhere, and dropping it again.
-/

namespace Dfsha

variable {app : App} {trust : Trust} {w : World}

/-- What a step of `Open` leaves: the file it opened, as it is stored. -/
structure Opened (app : App) (w : World) (mode : OpenMode) (node : Node) (w' : World) : Prop where
  quiet : mode ∉ creatingModes → ∀ trust, Acts app trust w.access w'.access
  publishes : mode ∈ creatingModes →
    Publishes app (fun trust => trust.empties node.id) w.access w'.access
  stored : w'.access.nodes.get node.id = some node
  alive : node.alive = true

/-- An `Open` is a sequence of actions, if its file may be published empty where it is. -/
theorem Opened.acts {mode : OpenMode} {node : Node} {w' : World} (h : Opened app w mode node w')
    (ht : mode ∈ creatingModes → trust.empties node.id) : Acts app trust w.access w'.access := by
  by_cases hmode : mode ∈ creatingModes
  · exact (h.publishes hmode).acts (ht hmode)
  · exact h.quiet hmode trust

theorem openExisting_ok {user : User} {path : PathRef} {mode : OpenMode} {node : Node} {w' : World}
    (hs : Sound app w.access) (hmode : mode ∉ creatingModes)
    (h : (openExisting app user path mode) w = .ok (node, w')) : Opened app w mode node w' := by
  unfold openExisting at h
  simp only [↓run_need, run_query, setAccess_access, setAccess_setAccess, Access.later_later,
    Nat.reduceAdd, Tx.pure_ok, Prod.mk.injEq] at h
  obtain ⟨n, hn, hk, _, -, rfl, rfl⟩ := h
  have hloc := resolve_ok hs hn
  exact ⟨fun _ _ => acts_later _ 3, fun h => absurd h hmode, hloc.get, hloc.alive hk⟩

theorem openResolve_some {user : User} {path : PathRef} {node : Node}
    (h : (openResolve app user path) w = .ok (some node)) :
    (resolve app user path) w = .ok node := by
  unfold openResolve at h
  simp only [Query.bind_ok, Query.attempt_ok] at h
  obtain ⟨found, hf, h⟩ := h
  split at h
  · rename_i n
    simp only [Query.pure_ok, Option.some.injEq] at h
    exact h ▸ hf
  · simp at h
  · simp at h

/-- What is found at a path is stored there. -/
theorem openResolve_ok {user : User} {path : PathRef} {node : Node} (hs : Sound app w.access)
    (h : (openResolve app user path) w = .ok (some node)) : Located app w.access.nodes node :=
  resolve_ok hs (openResolve_some h)

/-- The directory of a file that is about to be written is stored, and is not the file. -/
theorem openParent_ok {user : User} {path : PathRef} {mode : OpenMode} {found : Option Node}
    {parent : Node} {name : Text} (hs : Sound app w.access)
    (hf : ∀ node ∈ found, Located app w.access.nodes node)
    (h : (openParent app user path mode found) w = .ok (parent, name)) :
    w.access.nodes.get parent.id = some parent ∧ ∀ node ∈ found, parent.id ≠ node.id := by
  cases found with
  | none => exact ⟨(parentOf_ok hs h).get, fun node hn => absurd hn (by simp)⟩
  | some node =>
      simp only [openParent, Query.bind_ok, need_ok, access, Query.read_ok, deref_ok,
        Query.pure_ok, Prod.mk.injEq] at h
      obtain ⟨_, -, a, rfl, p, hp, rfl, -⟩ := h
      obtain ⟨k, hk, hget⟩ := Option.bind_eq_some_iff.mp hp
      have hid : p.id = k := node_id_of_get hget
      refine ⟨hid ▸ hget, fun n hn he => ?_⟩
      simp only [Option.mem_def, Option.some.injEq] at hn
      subst hn
      exact (hf node (by simp)).parent_ne (by rw [hk, ← hid, he])

/-- The records after a snapshot was published for a file, and its directory written back. -/
def Access.published (a : Access) (k : Nat) (s : Snapshot) (n p : Node) : Access :=
  { a with
    phase := a.phase + k, issued := a.issued + 1, snapshots := a.snapshots.put s,
    nodes := (a.nodes.put n).put { p with revision := p.revision + 1 } }

/-- After an action that publishes, the directory is written back and time passes. -/
theorem publishes_published {a : Access} {s : Snapshot} {n p : Node} {may : Trust → Prop} (k : Nat)
    (h : ∀ trust, may trust → Act app trust a
      { a with
        issued := a.issued + 1, snapshots := a.snapshots.put s, nodes := a.nodes.put n })
    (hp : a.nodes.get p.id = some p) (hne : p.id ≠ n.id) :
    Publishes app may a (a.published k s n p) := by
  refine ⟨_, _, fun _ => .refl, h, fun _ => ?_, rfl⟩
  exact acts_touch (n := { p with revision := p.revision + 1 }) (m := p) k
    ((Table.get_put_of_ne _ hne).trans hp) ⟨rfl, rfl, rfl, rfl⟩ rfl rfl

/-- Writing the directory back leaves the file. -/
theorem get_put_put {t : Table Node} {n p : Node} (hne : p.id ≠ n.id) :
    ((t.put n).put { p with revision := p.revision + 1 }).get n.id = some n :=
  (Table.get_put_of_ne _ fun he => hne he.symm).trans (Table.get_put_self t n)

/-- A whole-file lock for an owner that exists nowhere is granted only on a file that nobody
has locked, and nothing of it is left. -/
theorem lockDrop_acts {session file : Id} {l : Lock} {w' : World} (hs : Sound app w.access)
    (h : (acquire app ⟨app.uuid w.access.issued, file, session⟩ [] true true true)
      (w.setAccess (w.access.shift 1 1)) = .ok (l, w')) :
    ∃ k locks, w' = w.setAccess ((w.access.shift 1 1).granted k l) ∧
      locks = (w.access.locks.put l).delete l.id ∧
      (∀ trust, Acts app trust w.access
        { (w.access.shift 1 1).granted k l with locks := locks }) ∧
      ∀ m ∈ locks.all, m.file = file →
        ¬ ({ (w.access.shift 1 1).granted k l with locks := locks } : Access).liveLock m := by
  obtain ⟨k, rfl, hg, hc⟩ := acquire_ok h
  have hfresh := fresh_draw hs 1
  refine ⟨k, _, rfl, rfl, fun trust => ?_, fun m hm hf hlive => ?_⟩
  · refine (acts_shift _ 1 1).trans ((acts_granted hg hc hfresh.1 fun x hx => ?_).tail
      (.dropLock _ l.id))
    exact absurd (hx.symm.trans (get_none_of_unused_handle hfresh.2)) (by simp)
  · obtain ⟨hm, hne⟩ := Table.mem_delete.mp hm
    rcases Table.mem_put.mp hm with rfl | ⟨hm, -⟩
    · exact hne rfl
    · have howner : m.owner ≠ ⟨app.uuid w.access.issued, file, session⟩ := fun he => by
        have : m.handle = app.uuid w.access.issued := congrArg Owner.id he
        exact Mentions.not_lock hs.next_unused hm (by simp [Lock.ids, this])
      have := (hc m hm hlive hf howner).1
      rw [hg.whole_eq] at this
      cases this

theorem openCreating_ok {user : User} {session : Session} {path : PathRef} {mode : OpenMode}
    {node : Node} {w' : World} (hmode : mode ∈ creatingModes) (hs : Sound app w.access)
    (h : (openCreating app user session path mode) w = .ok (node, w')) :
    Opened app w mode node w' ∧ (w.access.nodes.get node.id = none ∨
      ∃ old, (resolve app user path) w = .ok old ∧ old.id = node.id) := by
  unfold openCreating at h
  simp only [↓run_access, ↓run_need, run_query, setAccess_access, setAccess_setAccess,
    Access.later_later, Nat.reduceAdd] at h
  obtain ⟨found, hfound, ⟨parent, name⟩, hparent, -, h⟩ := h
  have hloc : ∀ n ∈ found, Located app w.access.nodes n := fun n hn => by
    simp only [Option.mem_def] at hn
    exact openResolve_ok hs (hn ▸ hfound)
  obtain ⟨hpget, hpne⟩ := openParent_ok (w := w.setAccess (w.access.later 1)) (hs.advance 1) hloc
    hparent
  obtain ⟨⟨n, epoch, version⟩, s, hn, h⟩ := Tx.bind_ok.mp h
  simp only [run_draw, putSnapshot, run_onAccess, run_bump, setAccess_access, setAccess_setAccess,
    Tx.pure_ok, Prod.mk.injEq] at h
  obtain ⟨-, -, rfl, rfl⟩ := h
  -- Either the file is new, or nobody has a lock on it; the rest is the same.
  cases found with
  | none =>
      simp only [Option.elim, openNew, run_draw, setAccess_access, setAccess_setAccess,
        Access.later_shift, Nat.reduceAdd, Tx.pure_ok, Prod.mk.injEq] at hn
      obtain ⟨⟨rfl, rfl, rfl⟩, rfl⟩ := hn
      have hfresh := fresh_draw hs 5
      have hne : parent.id ≠ app.uuid w.access.issued := fun he =>
        Mentions.not_node hs.next_unused (Table.mem_of_get hpget) (by simp [Node.ids, he])
      have hnone : w.access.nodes.get (app.uuid w.access.issued) = none :=
        get_none_of_unused_node hs.next_unused
      refine ⟨⟨fun h => absurd hmode h, fun _ => .before (fun _ => acts_shift _ 5 1)
        (publishes_published 5 (fun _ hp => .createFile hfresh ?_ rfl app.blockSize_mem hp)
          hpget hne), get_put_put hne, rfl⟩, .inl hnone⟩
      exact ⟨rfl, rfl, rfl, rfl, rfl, rfl, rfl, rfl, rfl, rfl, fun _ => ⟨rfl, rfl⟩,
        fun m c hc => absurd (hc.1.symm.trans hnone) (by simp)⟩
  | some old =>
      simp only [Option.elim, openTruncating] at hn
      simp only [↓run_access, ↓run_need, ↓run_deref, run_query, run_draw, setAccess_access,
        setAccess_setAccess, Access.later_later, Nat.reduceAdd] at hn
      obtain ⟨hk, _, -, root, hroot, c, hc, hn⟩ := hn
      obtain ⟨l, v, hl, hn⟩ := Tx.bind_ok.mp hn
      have hs' := hs.advance 9
      obtain ⟨k, locks, rfl, hlocks, hacts, hfree⟩ := lockDrop_acts
        (w := w.setAccess (w.access.later 9)) hs' hl
      simp only [deleteLock, run_onAccess, setAccess_access, setAccess_setAccess, Tx.pure_ok,
        Prod.mk.injEq] at hn
      obtain ⟨⟨rfl, rfl, rfl⟩, rfl⟩ := hn
      have hold := hloc n (by simp)
      have hne : parent.id ≠ n.id := hpne n (by simp)
      have hcid : c.id = root := snapshot_id_of_get hc
      subst hlocks
      have hcur : Current w.access n.id n c :=
        ⟨hold.get, hold.alive hk, hcid ▸ hroot, hcid ▸ hc⟩
      refine ⟨⟨fun h => absurd hmode h, fun _ =>
        .before (fun trust => (acts_later _ 9).trans (hacts trust))
          (publishes_published 5 (fun _ hp => .truncate (m := n) (c := c) hcur ?_ hk ?_ rfl hfree hp)
            hpget hne), get_put_put hne, hold.alive hk⟩, .inr ⟨n, openResolve_some hfound, rfl⟩⟩
      · exact ⟨rfl, rfl, rfl, rfl⟩
      · refine ⟨rfl, rfl, rfl, rfl, rfl, rfl, rfl, rfl, rfl, hold.alive hk, fun hnone => ?_,
          fun m d hd => ?_⟩
        · exact absurd (hcur.1.symm.trans hnone) (by simp)
        · obtain ⟨-, rfl⟩ := hcur.unique hd
          exact ⟨rfl, rfl⟩

/-- **What `Open` does**: in a creating mode the file that it opens is new, or it is found at the
path and truncated; otherwise nothing is published. -/
theorem accessOpen_ok {user : User} {session : Session} {path : PathRef} {mode : OpenMode}
    {r : HandleMessage × World} (hs : Sound app w.access)
    (h : (accessOpen app user session path mode) w = .ok r) :
    ∃ node, Opened app w mode node r.2 ∧
      (∃ s, node.snapshot = some s ∧
        (r.2.access.snapshots.get s).map (fun s => s.ref.fileId) = some r.1.snapshot.fileId) ∧
      (mode ∈ creatingModes → w.access.nodes.get node.id = none ∨
        ∃ old, (resolve app user path) (w.setAccess (w.access.later 3)) = .ok old ∧
          old.id = node.id) := by
  unfold accessOpen at h
  simp only [↓run_access, ↓run_need, setAccess_access, setAccess_setAccess, Access.later_later,
    Nat.reduceAdd] at h
  obtain ⟨-, -, h⟩ := h
  obtain ⟨node, s, hnode, h⟩ := Tx.bind_ok.mp h
  have hs₃ : Sound app (w.setAccess (w.access.later 3)).access := hs.advance 3
  obtain ⟨hopened, hfound⟩ : Opened app (w.setAccess (w.access.later 3)) mode node s ∧
      (mode ∈ creatingModes → w.access.nodes.get node.id = none ∨
        ∃ old, (resolve app user path) (w.setAccess (w.access.later 3)) = .ok old ∧
          old.id = node.id) := by
    split at hnode
    · rename_i hmode
      obtain ⟨hopened, hfound⟩ := openCreating_ok hmode hs₃ hnode
      exact ⟨hopened, fun _ => hfound⟩
    · exact ⟨openExisting_ok hs₃ ‹_› hnode, fun hmode => absurd hmode ‹_›⟩
  have hget := hopened.stored
  have hs' : Sound app s.access :=
    hs₃.acts (show Acts app Trust.all _ _ from hopened.acts fun _ => trivial)
  simp only [↓run_deref, run_query, run_draw, setAccess_access, setAccess_setAccess,
    Access.later_shift, Access.shift_later, Nat.reduceAdd] at h
  obtain ⟨above, -, root, hroot, h⟩ := h
  obtain ⟨g, v, hg, h⟩ := Tx.bind_ok.mp h
  obtain ⟨e, he, rfl, hge⟩ := refreshHandle_initial hg
  simp only [putHandle, run_onAccess, last_query, setAccess_access, setAccess_setAccess,
    Access.shift_later, Nat.reduceAdd] at h
  have hput : ∀ trust, Act app trust (s.access.shift 7 1)
      { s.access.shift 7 1 with handles := s.access.handles.put g } := by
    intro trust
    rw [hge]
    refine .openHandle (n := node) (fresh_draw hs' 7) rfl hget hopened.alive hroot fun x hx => ?_
    simp only [Option.mem_def, Option.some.injEq] at hx
    exact hx ▸ (hs'.ids.epoch e he).more
  have hafter : r.2 = s.setAccess ({ s.access.shift 7 1 with handles := s.access.handles.put g }.later
      1) := h.2
  have hsnap : g.snapshot = root := by rw [hge]
  have hlast : ∀ trust, Acts app trust s.access r.2.access := by
    intro trust
    rw [hafter]
    exact ((acts_shift _ 7 1).tail (hput trust)).trans (acts_later _ 1)
  refine ⟨node, ?_, ⟨root, hroot, ?_⟩, hfound⟩
  · refine ⟨fun hmode trust => ?_, fun hmode => ?_, ?_, hopened.alive⟩
    · exact (acts_later _ 3).trans ((hopened.quiet hmode trust).trans (hlast trust))
    · exact .before (fun _ => acts_later _ 3)
        ((hopened.publishes hmode).after hlast (by rw [hafter]; rfl))
    · rw [hafter]
      exact hget
  · have hmessage := h.1
    simp only [handleMessage, Query.bind_ok, access, Query.read_ok, deref_ok, Query.pure_ok]
      at hmessage
    obtain ⟨a, rfl, e, -, snap, hstored, hm⟩ := hmessage
    rw [hsnap] at hstored
    rw [hafter, ← hm]
    exact congrArg (Option.map fun s : Snapshot => s.ref.fileId) hstored

theorem accessOpen_refines (hp : ∀ f, trust.empties f) (user : User) (session : Session)
    (path : PathRef) (mode : OpenMode) :
    Refines app trust (accessOpen app user session path mode) := by
  intro w r hs h
  obtain ⟨node, hopened, -⟩ := accessOpen_ok hs h
  exact hopened.acts fun _ => hp _

/-! ## Handles without leases -/

theorem commandsOpen_refines (user : User) (session : Session) (path : PathRef) (mode : OpenMode) :
    Refines app trust (commandsOpen app user session path mode) := by
  intro w r hs h
  unfold commandsOpen at h
  simp only [↓run_need, ↓run_deref, ↓run_now, run_query, run_draw, putHandle, run_onAccess,
    setAccess_access, setAccess_setAccess, Access.later_later, Access.later_shift,
    Access.shift_later, Nat.reduceAdd, Tx.pure_ok] at h
  obtain ⟨-, node, hn, hk, _, -, above, -, root, hroot, m, -, rfl⟩ := h
  have hloc := resolve_ok (w := w.setAccess (w.access.later 1)) (hs.advance 1) hn
  have hget : (w.access.shift 8 1).nodes.get node.id = some node := hloc.get
  refine ((acts_shift _ 8 1).tail (.openHandle (h := ⟨app.uuid w.access.issued, node.id, root,
    user.id, session.id, 1, false, above, .r, none, none, 0, 0, _⟩) (fresh_draw hs 8) rfl hget
    (hloc.alive hk) hroot fun e he => absurd he (by simp))).trans (acts_later _ 1)

theorem queriesHandle_ok {user : User} {session : Session} {k : Id} {x : Handle × Snapshot}
    (h : (queriesHandle app user session k) w = .ok x) :
    w.access.handles.get x.1.id = some x.1 := by
  simp only [queriesHandle, Query.bind_ok, access, Query.read_ok, needSome_ok, deref_ok,
    Query.pure_ok] at h
  obtain ⟨a, rfl, g, hg, _, -, _, -, _, -, s, -, rfl⟩ := h
  exact handle_id_of_get hg ▸ hg

theorem commandsRenewHandle_refines (hr : app.rf3 = false) (user : User) (session : Session)
    (k : Id) (revision : Nat) :
    Refines app trust (commandsRenewHandle app user session k revision) := by
  intro w r hs h
  unfold commandsRenewHandle at h
  simp only [↓run_need, ↓run_now, run_query, putHandle, run_onAccess, setAccess_access,
    setAccess_setAccess, Access.later_later, Nat.reduceAdd, Tx.pure_ok] at h
  obtain ⟨x, hx, -, m, -, rfl⟩ := h
  exact ((acts_later _ 3).tail (.renewPlain _ _ hr (queriesHandle_ok hx))).trans (acts_later _ 1)

theorem commandsClose_refines (user : User) (session : Session) (ctx : RequestContext) (k : Id)
    (revision : Nat) : Refines app trust (commandsClose user session ctx k revision) := by
  intro w r hs h
  unfold commandsClose at h
  simp only [↓run_access, ↓run_needSome, ↓run_need, putHandle, run_onAccess, setAccess_access,
    setAccess_setAccess, Access.later_later, Nat.reduceAdd, Tx.pure_ok] at h
  obtain ⟨g, hg, -, -, rfl⟩ := h
  exact (acts_later _ 4).tail (.closeHandle _ (handle_id_of_get hg ▸ hg))

end Dfsha
