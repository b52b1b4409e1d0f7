import Dfsha.Refine.Quiet

/-!
# The namespace

What a path leads to, and the commands that change directories: `Mkdir`, `Rmdir`, `Rm`,
`CreateUser` and `SetAcl`.  Removing a file ends every operation in preparation on it first,
which is what the removal of a node asks for.
-/

namespace Dfsha

variable {app : App} {trust : Trust} {w : World}

/-! ## Paths -/

/-- A node that a path leads to from the root: everything above it is a directory, and a file
is never a removed one. -/
inductive Located (app : App) (t : Table Node) : Node → Prop
  | root {r : Node} : t.get app.root = some r → r.kind = .directory → r.parent = none →
      Located app t r
  | child {m n : Node} : Located app t m → m.kind = .directory → n ∈ t.all →
      n.alive = true → n.parent = some m.id → Located app t n

namespace Located

variable {t : Table Node} {n : Node}

theorem mem (h : Located app t n) : n ∈ t.all := by
  cases h with
  | root hr _ _ => exact Table.mem_of_get hr
  | child _ _ hn _ _ => exact hn

theorem get (h : Located app t n) : t.get n.id = some n := Table.get_of_mem h.mem

theorem alive (h : Located app t n) (hk : n.kind = .file) : n.alive = true := by
  cases h with
  | root _ hd _ =>
      rw [hk] at hd
      cases hd
  | child _ _ _ ha _ => exact ha

/-- What is above a located node is a located directory. -/
theorem parent {p : Id} {m : Node} (h : Located app t n) (hp : n.parent = some p)
    (hm : t.get p = some m) : Located app t m := by
  cases h with
  | root _ _ hnone =>
      rw [hnone] at hp
      cases hp
  | @child x _ hx _ _ _ hpar =>
      have : p = x.id := Option.some.inj (hp.symm.trans hpar)
      rw [this, hx.get] at hm
      cases hm
      exact hx

end Located

/-- Nothing that a path leads to is its own parent. -/
theorem Located.parent_ne {t : Table Node} {n : Node} (h : Located app t n) : n.parent ≠ some n.id := by
  induction h with
  | root _ _ hp => simp [hp]
  | @child m n hm _ hn _ hp ih =>
      intro he
      have hid : m.id = n.id := Option.some.inj (hp.symm.trans he)
      have hmn : n = m := get_unique hm.get hn hid.symm
      exact ih (hmn ▸ hp)

theorem mem_children {a : Access} {p : Id} {n : Node} :
    n ∈ children a p ↔ n ∈ a.nodes.all ∧ n.alive = true ∧ n.parent = some p := by
  simp [children, List.mem_insertionSort]

theorem walkFrom_ok {user : User} {pieces : List Text} :
    ∀ {node n : Node}, Located app w.access.nodes node → (walkFrom app user pieces node) w = .ok n →
      Located app w.access.nodes n := by
  induction pieces with
  | nil =>
      intro node n hn h
      rw [walkFrom, Query.pure_ok] at h
      exact h ▸ hn
  | cons piece rest ih =>
      intro node n hn h
      simp only [walkFrom, Query.bind_ok, access, Query.read_ok, need_ok] at h
      obtain ⟨_, hdir, _, -, a, rfl, h⟩ := h
      split at h
      · exact ih hn h
      · split at h
        · split at h
          · exact ih hn h
          · rename_i parent hp
            rw [Query.bind_ok] at h
            obtain ⟨m, hm, h⟩ := h
            exact ih (hn.parent hp (deref_ok.mp hm)) h
        · rw [Query.bind_ok] at h
          obtain ⟨m, hm, h⟩ := h
          rw [needSome_ok] at hm
          obtain ⟨hmem, ha, hp⟩ := mem_children.mp (List.mem_of_find?_eq_some hm)
          exact ih (.child hn hdir hmem ha hp) h

theorem walk_ok {user : User} {path : Text} {n : Node} (hs : Sound app w.access)
    (h : (walk app user path) w = .ok n) : Located app w.access.nodes n := by
  simp only [walk, Query.bind_ok, access, Query.read_ok, deref_ok] at h
  obtain ⟨_, -, _, -, a, rfl, root, hroot, h⟩ := h
  obtain ⟨r, hr, hk, hp⟩ := hs.root
  have he : root = r := Option.some.inj (hroot.symm.trans hr)
  exact walkFrom_ok (.root hroot (he ▸ hk) (he ▸ hp)) h

theorem resolve_ok {user : User} {path : PathRef} {n : Node} (hs : Sound app w.access)
    (h : (resolve app user path) w = .ok n) : Located app w.access.nodes n := by
  rw [resolve, Query.bind_ok] at h
  obtain ⟨p, -, h⟩ := h
  exact walk_ok hs h

theorem parentOf_ok {user : User} {path : PathRef} {p : Node} {name : Text}
    (hs : Sound app w.access) (h : (parentOf app user path) w = .ok (p, name)) :
    Located app w.access.nodes p := by
  simp only [parentOf, Query.bind_ok, need_ok, Query.pure_ok, Prod.mk.injEq] at h
  obtain ⟨path, -, _, -, _, -, parent, hw, _, -, _, -, _, -, rfl, -⟩ := h
  exact walk_ok hs hw

/-! ## Writing nodes -/

section Statements

variable {β : Type} {r : β × World}

theorem run_putNode {n : Node} {f : Unit → T β} :
    (putNode app n >>= f) w = .ok r ↔
      (app.uniqueNames = true → ¬ nameTaken w.access n) ∧
        f () (w.setAccess { w.access.later 2 with nodes := w.access.nodes.put n }) = .ok r := by
  rw [Tx.bind_ok]
  simp only [putNode, run_access, run_need, last_onAccess, setAccess_access, setAccess_setAccess,
    Access.later_later, Access.later_nodes, Nat.reduceAdd, Prod.mk.injEq]
  constructor
  · rintro ⟨x, s, ⟨hc, -, rfl⟩, h⟩
    exact ⟨hc, h⟩
  · rintro ⟨hc, h⟩
    exact ⟨(), _, ⟨hc, trivial, rfl⟩, h⟩

theorem run_bump {n : Node} {f : Node → T β} :
    (bump app n >>= f) w = .ok r ↔
      (app.uniqueNames = true → ¬ nameTaken w.access { n with revision := n.revision + 1 }) ∧
        f { n with revision := n.revision + 1 }
          (w.setAccess
            { w.access.later 2 with
              nodes := w.access.nodes.put { n with revision := n.revision + 1 } }) = .ok r := by
  rw [Tx.bind_ok]
  simp only [bump, run_putNode, Tx.pure_ok, Prod.mk.injEq]
  constructor
  · rintro ⟨x, s, ⟨hc, rfl, rfl⟩, h⟩
    exact ⟨hc, h⟩
  · rintro ⟨hc, h⟩
    exact ⟨_, _, ⟨hc, rfl, rfl⟩, h⟩

/-- A quiet transaction, then the rest. -/
theorem run_quiet {α : Type} {x : T α} [hx : Quiet x] {f : α → T β} (h : (x >>= f) w = .ok r) :
    ∃ y s k n, x w = .ok (y, s) ∧ s.access = w.access.shift k n ∧ f y s = .ok r := by
  obtain ⟨y, s, h1, h2⟩ := Tx.bind_ok.mp h
  obtain ⟨k, n, e⟩ := hx.quiet w _ h1
  exact ⟨y, s, k, n, h1, e, h2⟩

end Statements

/-- A node is written back with nothing changed that matters. -/
theorem acts_touch {a : Access} {n m : Node} (k : Nat) (h : a.nodes.get n.id = some m)
    (same : SameNode n m) (ha : n.alive = m.alive) (hsn : n.snapshot = m.snapshot) :
    Acts app trust a { a.later k with nodes := a.nodes.put n } :=
  (Relation.ReflTransGen.single (Act.touchNode h same ha hsn)).tail (.advance _ k)

/-- A fresh directory, written into its parent, which is written back. -/
theorem acts_newDirectory {a : Access} {n p : Node} (k : Nat) (hf : Fresh app a n.id)
    (hk : n.kind = .directory) (hsn : n.snapshot = none) (hp : a.nodes.get p.id = some p) :
    Acts app trust a
      { a.later k with
        nodes := (a.nodes.put n).put { p with revision := p.revision + 1 } } := by
  have hne : p.id ≠ n.id := fun he =>
    Mentions.not_node hf.2 (Table.mem_of_get hp) (by simp [Node.ids, he])
  have hget : (a.nodes.put n).get p.id = some p := (Table.get_put_of_ne _ hne).trans hp
  refine Relation.ReflTransGen.trans (.single (Act.newDirectory hf hk hsn)) ?_
  exact acts_touch (n := { p with revision := p.revision + 1 }) k hget
    ⟨rfl, rfl, rfl, rfl⟩ rfl rfl

/-- The identifiers just drawn are fresh. -/
theorem fresh_shift {a : Access} (hs : Sound app a) (k : Nat) {i n : Nat} (hi : i < n) :
    Fresh app (a.shift k n) (app.uuid (a.issued + i)) := by
  refine ⟨⟨a.issued + i, Nat.add_lt_add_left hi _, rfl⟩, fun hm => ?_⟩
  obtain ⟨j, hj, he⟩ := hs.ids.issued hm
  exact absurd (app.uuid_injective he) (by omega)

/-- The identifier just drawn is fresh. -/
theorem fresh_draw {a : Access} (hs : Sound app a) (k : Nat) :
    Fresh app (a.shift k 1) (app.uuid a.issued) := fresh_shift hs k Nat.one_pos

/-! ## Commands -/

theorem mkdir_refines (user : User) (path : PathRef) : Refines app trust (mkdir app user path) := by
  intro w r hs h
  simp only [mkdir, ↓run_access, ↓run_need, run_query, run_draw, run_putNode, run_bump,
    setAccess_access, setAccess_setAccess, Access.later_later, Access.later_shift, Nat.reduceAdd,
    Tx.pure_ok] at h
  obtain ⟨⟨p, name⟩, hp, -, -, -, -, e, -, rfl⟩ := h
  exact (acts_shift _ 5 1).trans
    (acts_newDirectory 5 (fresh_draw hs 5) rfl rfl (parentOf_ok hs hp).get)

theorem setAcl_refines (user : User) (ctx : RequestContext) (path : PathRef) (acl : Acl)
    (revision : Nat) : Refines app trust (setAcl app user ctx path acl revision) := by
  intro w r hs h
  simp only [setAcl, ↓run_need, run_query, run_bump, setAccess_access, setAccess_setAccess,
    Access.later_later, Nat.reduceAdd, Tx.pure_ok] at h
  obtain ⟨node, hn, -, -, -, i, -, -, -, -, -, rfl⟩ := h
  exact (acts_later _ 8).trans
    (acts_touch 2 (resolve_ok hs hn).get ⟨rfl, rfl, rfl, rfl⟩ rfl rfl)

theorem createUser_refines (user : User) (username password : Text) :
    Refines app trust (createUser app user username password) := by
  intro w r hs h
  unfold createUser at h
  simp only [↓run_need, run_query, run_draw, setAccess_access, setAccess_setAccess,
    Access.later_later, Access.later_shift, Nat.reduceAdd] at h
  obtain ⟨-, -, i, -, -, h⟩ := h
  obtain ⟨digest, s, k, n, -, hacc, h⟩ := run_quiet h
  obtain ⟨_, s₁, k₁, n₁, -, hacc₁, h⟩ := run_quiet h
  obtain ⟨_, s₂, k₂, n₂, -, hacc₂, h⟩ := run_quiet h
  have hshift : s₂.access = w.access.shift (5 + k + k₁ + k₂) (1 + n + n₁ + n₂) := by
    rw [hacc₂, hacc₁, hacc]
    simp only [setAccess_access, Access.shift_shift]
  simp only [↓run_access, ↓run_need, run_query, run_draw, run_putNode, run_bump, setAccess_access,
    setAccess_setAccess, Access.later_later, Access.later_shift, Nat.reduceAdd, Tx.pure_ok] at h
  obtain ⟨home, hhome, -, -, -, rfl⟩ := h
  have hacts : Acts app trust w.access s₂.access := hshift ▸ acts_shift _ _ _
  have hs₂ := hs.acts hacts
  exact hacts.trans ((acts_shift _ 4 1).trans
    (acts_newDirectory 4 (fresh_draw hs₂ 4) rfl rfl (walk_ok hs₂ hhome).get))

/-! ## Operations that end -/

/-- Later, with other locks and other handles. -/
def Access.release (a : Access) (k : Nat) (locks : Table Lock) (handles : Table Handle) : Access :=
  { a with phase := a.phase + k, locks := locks, handles := handles }

theorem Access.release_release (a : Access) (k j : Nat) (l l' : Table Lock) (h h' : Table Handle) :
    (a.release k l h).release j l' h' = a.release (k + j) l' h' := by
  simp [Access.release, Nat.add_assoc]

/-- The same records with other operations. -/
def Access.withUploads (a : Access) (t : Table Operation) : Access := { a with uploads := t }

variable (app trust) in
/-- `releaseOperation` does not look at the operations, so it may as well run where the
operation is recorded as over. -/
theorem releaseOperation_frame {w : World} {op o : Operation} {r : Unit × World}
    {t : Table Operation} (ho : t.get op.id = some o) (hst : o.state ≠ .preparing)
    (h : (releaseOperation op) w = .ok r) :
    Acts app trust (w.access.withUploads t) (r.2.access.withUploads t) ∧
      ∃ k locks handles, r.2.access = w.access.release k locks handles := by
  obtain ⟨_, s, hloop, h⟩ := Tx.bind_ok.mp h
  have hlocks : Acts app trust (w.access.withUploads t) (s.access.withUploads t) ∧
      ∃ k locks, s.access = w.access.release k locks w.access.handles := by
    refine Tx.each_rel
      (R := fun u v => Acts app trust (u.access.withUploads t) (v.access.withUploads t) ∧
        ∃ k locks, v.access = u.access.release k locks u.access.handles)
      (fun u => ⟨.refl, 0, _, rfl⟩) ?_ ?_ hloop
    · rintro u v x ⟨h1, k, l, e⟩ ⟨h2, j, m, e'⟩
      refine ⟨h1.trans h2, k + j, m, ?_⟩
      rw [e', e, Access.release_release]
      rfl
    · intro id _ u v hturn
      simp only [↓run_access] at hturn
      split at hturn
      · rw [Tx.pure_ok] at hturn
        cases hturn
        exact ⟨acts_later _ 1, 1, _, rfl⟩
      · rename_i lock hlock
        split at hturn
        · split at hturn
          · simp only [deleteLock, last_onAccess] at hturn
            cases hturn
            exact ⟨(acts_later _ 1).tail (.dropLock _ id), 1, _, rfl⟩
          · simp only [putLock, last_onAccess] at hturn
            cases hturn
            refine ⟨(acts_later _ 1).tail (.setActive _ ?_), 1, _, rfl⟩
            exact lock_id_of_get hlock ▸ hlock
        · rw [Tx.pure_ok] at hturn
          cases hturn
          exact ⟨acts_later _ 1, 1, _, rfl⟩
  obtain ⟨hacts, k, locks, e⟩ := hlocks
  simp only [↓run_access] at h
  split at h
  · rw [Tx.pure_ok] at h
    subst h
    exact ⟨hacts.trans (acts_later _ 1), k + 1, locks, w.access.handles,
      by rw [setAccess_access, e]; rfl⟩
  · rename_i handle hh
    split at h
    · rename_i hbusy
      have hid : o.id = op.id := Table.key_of_get ho
      simp only [putHandle, last_onAccess, setAccess_access] at h
      subst h
      refine ⟨hacts.trans ((acts_later _ 1).tail
        (.freeHandle ?_ (hid ▸ hbusy) (hid.symm ▸ ho) hst)),
        k + 1, locks, w.access.handles.put { handle with busy := none }, ?_⟩
      · exact handle_id_of_get hh ▸ hh
      · simp only [setAccess_access, e]
        rfl
    · rw [Tx.pure_ok] at h
      subst h
      exact ⟨hacts.trans (acts_later _ 1), k + 1, locks, w.access.handles,
        by rw [setAccess_access, e]; rfl⟩

variable (app trust) in
/-- An operation that is over lets go of its locks and of its handle. -/
theorem releaseOperation_acts {w : World} {op o : Operation} {r : Unit × World}
    (ho : w.access.uploads.get op.id = some o) (hst : o.state ≠ .preparing)
    (h : (releaseOperation op) w = .ok r) :
    Acts app trust w.access r.2.access ∧
      ∃ k locks handles, r.2.access = w.access.release k locks handles := by
  obtain ⟨hacts, k, locks, handles, e⟩ := releaseOperation_frame app trust ho hst h
  have hsame : r.2.access.withUploads w.access.uploads = r.2.access := by
    rw [e]
    rfl
  exact ⟨hsame ▸ hacts, k, locks, handles, e⟩

/-- Later, with more identifiers drawn and with other operations. -/
def Access.resettle (a : Access) (k n : Nat) (uploads : Table Operation) : Access :=
  { a with phase := a.phase + k, issued := a.issued + n, uploads := uploads }

theorem Access.resettle_shift (a : Access) (k n j m : Nat) (t : Table Operation) :
    (a.resettle k n t).shift j m = a.resettle (k + j) (n + m) t := by
  simp [Access.resettle, Access.shift, Nat.add_assoc]

/-- The action that ends an operation in preparation. -/
theorem act_end {a : Access} {op : Operation} {st : OperationState}
    (h : a.uploads.get op.id = some op) (hp : op.state = .preparing)
    (hst : st = .aborted ∨ st = .expired) :
    Act app trust a { a with uploads := a.uploads.put (op.ended st) } :=
  .endOp h (by rw [hp]; decide) hst

variable (app trust) in
/-- A loop over all operations that ends some of them: nothing else changes, and the ones it
ends are over. -/
theorem endLoop_acts {turn : Operation → T Unit} {cond : Operation → Prop} {st : OperationState}
    (hst : st = .aborted ∨ st = .expired) {w : World} {r : Unit × World} {a : Access}
    (h : (Tx.each a.uploads.all turn) w = .ok r) (ha : w.access.uploads = a.uploads)
    (hturn : ∀ op v v', turn op v = .ok ((), v') → ∃ k,
      (op.state = .preparing ∧
        v'.access = v.access.resettle k 0 (v.access.uploads.put (op.ended st))) ∨
      ((cond op → op.state ≠ .preparing) ∧ v'.access = v.access.later k)) :
    Acts app trust w.access r.2.access ∧ ∃ k t, r.2.access = w.access.resettle k 0 t ∧
      ∀ op ∈ t.all, cond op → op.state ≠ .preparing := by
  have hrows := Tx.each_rows (fun v : World => v.access.uploads)
    (P := fun x o => ∀ op, o = some op → cond op → op.state ≠ .preparing)
    (I := fun v => Acts app trust w.access v.access ∧ ∃ k t, v.access = w.access.resettle k 0 t ∧
      ∀ op ∈ t.all, ∃ o ∈ a.uploads.all, o.id = op.id) a.uploads.sorted ?_
    ⟨.refl, 0, w.access.uploads, rfl, fun op ho => ⟨op, ha ▸ ho, rfl⟩⟩
    (fun x hx => by rw [ha]; exact Table.get_of_mem hx) h
  · obtain ⟨⟨hacts, k, t, e, hids⟩, hP⟩ := hrows
    refine ⟨hacts, k, t, e, fun op hop hc => ?_⟩
    obtain ⟨o, ho, hid⟩ := hids op hop
    refine hP o ho op ?_ hc
    rw [e, key_operation, hid]
    exact Table.get_of_mem hop
  · rintro x hx v v' ⟨hacts, k, t, e, hids⟩ hget hv
    obtain ⟨j, ⟨hp, hv'⟩ | ⟨hc, hv'⟩⟩ := hturn x v v' hv
    · refine ⟨⟨?_, k + j, t.put (x.ended st), ?_, ?_⟩, ?_, ?_⟩
      · rw [hv']
        exact (hacts.tail (act_end hget hp hst)).tail (.advance _ j)
      · rw [hv', e]
        simp [Access.resettle, Nat.add_assoc]
      · exact Table.forall_put hids ⟨x, hx, rfl⟩
      · intro op hop _
        rw [hv'] at hop
        have : op = x.ended st :=
          Option.some.inj (hop.symm.trans (Table.get_put_self _ (x.ended st)))
        rw [this]
        rcases hst with rfl | rfl <;> simp [Operation.ended]
      · intro k hk
        rw [hv']
        exact Table.get_put_of_ne _ hk
    · refine ⟨⟨?_, k + j, t, ?_, hids⟩, ?_, ?_⟩
      · rw [hv']
        exact hacts.tail (.advance _ j)
      · rw [hv', e]
        simp [Access.resettle, Access.later, Nat.add_assoc]
      · intro op hop hcop
        rw [hv'] at hop
        have : op = x := Option.some.inj (hop.symm.trans hget)
        subst this
        exact hc hcop
      · intro k _
        rw [hv']
        rfl

theorem removeNode_refines (user : User) (ctx : RequestContext) (path : PathRef)
    (directory : Bool) : Refines app trust (removeNode app user ctx path directory) := by
  intro w r hs h
  unfold removeNode at h
  simp only [↓run_access, ↓run_need, ↓run_needSome, ↓run_deref, run_query, setAccess_access,
    setAccess_setAccess, Access.later_later, Nat.reduceAdd, Access.later_nodes,
    Access.later_uploads] at h
  obtain ⟨node, hn, parentId, hp, -, parent, hparent, _, -, -, h⟩ := h
  obtain ⟨⟨⟩, s, hloop, h⟩ := Tx.bind_ok.mp h
  have hloc := resolve_ok hs hn
  have hpid : parent.id = parentId := node_id_of_get hparent
  have hne : parent.id ≠ node.id := fun he =>
    hloc.parent_ne (by rw [hp, ← hpid, he])
  obtain ⟨hacts, k, t, e, hover⟩ := endLoop_acts app trust
    (.inl rfl) (a := w.access) hloop rfl
    fun op v v' hv => by
      split at hv
      · rename_i hc
        simp only [putUpload, last_onAccess] at hv
        cases hv
        exact ⟨0, .inl ⟨hc.2, rfl⟩⟩
      · rename_i hc
        rw [Tx.pure_ok] at hv
        cases hv
        exact ⟨0, .inr ⟨fun h1 h2 => hc ⟨h1, h2⟩, rfl⟩⟩
  simp only [run_bump, setAccess_access, setAccess_setAccess, Tx.pure_ok] at h
  obtain ⟨-, -, rfl⟩ := h
  have hremove : Act app trust s.access
      { s.access with
        nodes := s.access.nodes.put { node with alive := false, revision := node.revision + 1 } } :=
    .removeNode (n := { node with alive := false, revision := node.revision + 1 }) (m := node)
      (e ▸ hloc.get) ⟨rfl, rfl, rfl, rfl⟩ rfl rfl (e ▸ hover)
  refine (((acts_later _ 8).trans hacts).tail hremove).trans ?_
  refine (acts_later _ 2).trans (acts_touch (m := parent) 2 ?_ ⟨rfl, rfl, rfl, rfl⟩ rfl rfl)
  refine (Table.get_put_of_ne _ hne).trans ?_
  rw [e, hpid]
  exact hparent

/-- Every operation that is over lets go of what it holds. -/
theorem releaseAll_acts {w : World} {r : Unit × World} {a : Access}
    (h : (Tx.each a.uploads.all fun op =>
      if op.state ≠ .preparing then releaseOperation op else pure ()) w = .ok r)
    (ha : w.access.uploads = a.uploads) :
    Acts app trust w.access r.2.access := by
  refine (Tx.each_induction (fun rest v => Acts app trust w.access v.access ∧
    v.access.uploads = a.uploads ∧ ∀ op ∈ rest, op ∈ a.uploads.all) ?_
    ⟨.refl, ha, fun _ => id⟩ h).1
  rintro op rest v v' ⟨hacts, hv, hmem⟩ hturn
  have hrest : ∀ o ∈ rest, o ∈ a.uploads.all := fun o ho => hmem o (List.mem_cons_of_mem _ ho)
  split at hturn
  · rename_i hst
    have hget : v.access.uploads.get op.id = some op := by
      rw [hv]
      exact Table.get_of_mem (hmem op List.mem_cons_self)
    obtain ⟨hrel, k, l, hd, e⟩ := releaseOperation_acts app trust hget hst hturn
    refine ⟨hacts.trans hrel, ?_, hrest⟩
    rw [e]
    exact hv
  · rw [Tx.pure_ok] at hturn
    cases hturn
    exact ⟨hacts, hv, hrest⟩

theorem accessRemove_refines (user : User) (ctx : RequestContext) (path : PathRef)
    (directory : Bool) : Refines app trust (accessRemove app user ctx path directory) := by
  unfold accessRemove
  refine (removeNode_refines user ctx path directory).bind fun _ => ?_
  intro w r hs h
  simp only [↓run_access] at h
  obtain ⟨_, s, hloop, h⟩ := Tx.bind_ok.mp h
  rw [Tx.pure_ok] at h
  subst h
  exact (acts_later _ 1).trans (releaseAll_acts (a := w.access) hloop rfl)

end Dfsha
