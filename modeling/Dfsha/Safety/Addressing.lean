import Dfsha.Safety.Listing

/-!
# What was created is found

A command that creates something takes its path apart: the directory is looked up and checked like
every path, the last name is checked by itself.  To find what was created the path is checked as a
whole again, so the two agree where the whole path is one that may be walked.

A walk looks at the place, the kind and the permissions of nodes, and a command that creates
something changes none of these in what was there.

## Main definitions

* `Node.seen` — what a walk sees of a node.
* `PathRef.joined`, `Walkable` — the path of a request as a whole, and what `walk` wants of it.
* `Hung` — a node was hung into the directory that its path named.

## Main results

* `walk_seen` — a walk that succeeded succeeds where nodes look the same.
* `created_addressable` — when the path of what was created leads to it.
-/

namespace Dfsha

variable {app : App} {reports : Call → Prop} {w v : World} {user : User}

/-! ## What a walk sees -/

/-- What a walk sees of a node. -/
def Node.seen (n : Node) : Node := { n with revision := 0, snapshot := none, blockSize := 0 }

/-- A node that looks the same to a walk. -/
structure Alike (n m : Node) : Prop where
  same : m.seen = n.seen

namespace Alike

variable {n m : Node}

theorem refl (n : Node) : Alike n n := ⟨rfl⟩

theorem trans {k : Node} (h : Alike n m) (h' : Alike m k) : Alike n k := ⟨h'.same.trans h.same⟩

theorem id (h : Alike n m) : m.id = n.id := congrArg (fun x => x.id) h.same
theorem kind (h : Alike n m) : m.kind = n.kind := congrArg (fun x => x.kind) h.same
theorem name (h : Alike n m) : m.name = n.name := congrArg (fun x => x.name) h.same
theorem parent (h : Alike n m) : m.parent = n.parent := congrArg (fun x => x.parent) h.same
theorem alive (h : Alike n m) : m.alive = n.alive := congrArg (fun x => x.alive) h.same

theorem permissions (h : Alike n m) (groups : List Id) :
    Dfsha.permissions groups user m = Dfsha.permissions groups user n := by
  have hfields := h.same
  simp only [Node.seen, Node.mk.injEq] at hfields
  obtain ⟨-, -, -, howner, hgroup, hmode, hacl, -⟩ := hfields
  simp only [Dfsha.permissions, howner, hgroup, hmode, hacl]

/-- What looks the same asks for the same permissions. -/
theorem require (h : Alike n m) (hi : v.identity = w.identity) {bits : Nat}
    (hr : (Dfsha.require app user (some n) bits) w = .ok ()) :
    (Dfsha.require app user (some m) bits) v = .ok () := by
  unfold Dfsha.require at hr ⊢
  by_cases hadmin : user.admin = true ∧ app.strictContentPermissions = false
  · rw [if_pos hadmin]
    rfl
  · rw [if_neg hadmin] at hr ⊢
    simp only [Query.bind_ok, deref_ok, Option.some.injEq] at hr ⊢
    obtain ⟨x, rfl, hr⟩ := hr
    refine ⟨m, rfl, ?_⟩
    rw [h.kind]
    by_cases hdir : user.admin = true ∧ n.kind = .directory ∧ bits = 1
    · rw [if_pos hdir]
      rfl
    · rw [if_neg hdir] at hr ⊢
      simp only [Query.bind_ok, identity, Query.read_ok, need_ok] at hr ⊢
      obtain ⟨i, rfl, hr⟩ := hr
      refine ⟨_, rfl, ?_⟩
      rw [hi, h.permissions]
      exact hr

end Alike

/-- The child of a name is found. -/
theorem Siblings.find {a : Access} (h : Siblings a.nodes) {p : Id} {m : Node}
    (hm : m ∈ children a p) : (children a p).find? (fun n => n.name = m.name) = some m := by
  obtain ⟨hall, halive, hparent⟩ := mem_children.mp hm
  cases hfind : (children a p).find? fun n => n.name = m.name with
  | none =>
      have hno := List.find?_eq_none.mp hfind m hm
      simp at hno
  | some x =>
      obtain ⟨hxall, hxalive, hxparent⟩ := mem_children.mp (List.mem_of_find?_eq_some hfind)
      have hname : x.name = m.name := by simpa using List.find?_some hfind
      have heq := h.distinct x hxall m hall hxalive halive (by rw [hxparent]; rfl)
        (by rw [hxparent, hparent]) hname
      rw [heq]

section Seen

variable (hi : v.identity = w.identity) (hg : w.access.nodes.Grows Alike v.access.nodes)
  (hv : Siblings v.access.nodes)
include hi hg hv

/-- **A walk that succeeded** succeeds where all nodes look the same. -/
theorem walkFrom_seen {pieces : List Text} : ∀ {node node' n : Node},
    w.access.nodes.get node.id = some node → v.access.nodes.get node.id = some node' →
    (walkFrom app user pieces node) w = .ok n →
    ∃ n', (walkFrom app user pieces node') v = .ok n' ∧ v.access.nodes.get n.id = some n' ∧
      Alike n n' := by
  have halike : ∀ {x x' : Node}, w.access.nodes.get x.id = some x →
      v.access.nodes.get x.id = some x' → Alike x x' := by
    intro x x' hx hx'
    obtain ⟨y, hy, hxy⟩ := hg _ _ hx
    rw [hx', Option.some.injEq] at hy
    exact hy ▸ hxy
  induction pieces with
  | nil =>
      intro node node' n hnode hnode' h
      rw [walkFrom, Query.pure_ok] at h
      subst h
      exact ⟨node', rfl, hnode', halike hnode hnode'⟩
  | cons piece rest ih =>
      intro node node' n hnode hnode' h
      have hsame := halike hnode hnode'
      simp only [walkFrom, Query.bind_ok, access, Query.read_ok, need_ok] at h ⊢
      obtain ⟨_, hdir, _, hreq, a, rfl, h⟩ := h
      have hstart : node'.kind = .directory ∧
          (Dfsha.require app user (some node') 1) v = .ok () :=
        ⟨hsame.kind.trans hdir, hsame.require hi hreq⟩
      by_cases hdot : piece = ['.']
      · rw [if_pos hdot] at h
        obtain ⟨n', hwalk, hn', hlast⟩ := ih hnode hnode' h
        refine ⟨n', ⟨(), hstart.1, (), hstart.2, _, rfl, ?_⟩, hn', hlast⟩
        rw [if_pos hdot]
        exact hwalk
      · rw [if_neg hdot] at h
        by_cases hdots : piece = ['.', '.']
        · rw [if_pos hdots] at h
          cases hparent : node.parent with
          | none =>
              simp only [hparent] at h
              obtain ⟨n', hwalk, hn', hlast⟩ := ih hnode hnode' h
              refine ⟨n', ⟨(), hstart.1, (), hstart.2, _, rfl, ?_⟩, hn', hlast⟩
              rw [if_neg hdot, if_pos hdots, hsame.parent, hparent]
              exact hwalk
          | some p =>
              simp only [hparent, Query.bind_ok, deref_ok] at h
              obtain ⟨x, hx, h⟩ := h
              have hid : x.id = p := node_id_of_get hx
              obtain ⟨x', hx', -⟩ := hg _ _ hx
              obtain ⟨n', hwalk, hn', hlast⟩ := ih (hid ▸ hx) (hid ▸ hx') h
              refine ⟨n', ⟨(), hstart.1, (), hstart.2, _, rfl, ?_⟩, hn', hlast⟩
              rw [if_neg hdot, if_pos hdots, hsame.parent, hparent]
              simp only [Query.bind_ok, deref_ok]
              exact ⟨x', hx', hwalk⟩
        · rw [if_neg hdots] at h
          simp only [Query.bind_ok, needSome_ok] at h
          obtain ⟨x, hx, h⟩ := h
          obtain ⟨hall, halive, hparent⟩ := mem_children.mp (List.mem_of_find?_eq_some hx)
          have hname : x.name = piece := by simpa using List.find?_some hx
          have hget : w.access.nodes.get x.id = some x := Table.get_of_mem hall
          obtain ⟨x', hx', hxx⟩ := hg _ _ hget
          obtain ⟨n', hwalk, hn', hlast⟩ := ih hget hx' h
          refine ⟨n', ⟨(), hstart.1, (), hstart.2, _, rfl, ?_⟩, hn', hlast⟩
          rw [if_neg hdot, if_neg hdots]
          simp only [Query.bind_ok, needSome_ok]
          refine ⟨x', ?_, hwalk⟩
          have hchild : x' ∈ children v.access node'.id := mem_children.mpr
            ⟨Table.mem_of_get hx', hxx.alive.trans halive, by rw [hxx.parent, hparent, hsame.id]⟩
          have hfound := hv.find hchild
          rwa [hxx.name, hname] at hfound

theorem walk_seen {path : Text} {n : Node} (h : (walk app user path) w = .ok n) :
    ∃ n', (walk app user path) v = .ok n' ∧ v.access.nodes.get n.id = some n' ∧ Alike n n' := by
  simp only [walk, Query.bind_ok, access, Query.read_ok, deref_ok, need_ok] at h ⊢
  obtain ⟨_, htext, _, hpieces, a, rfl, root, hroot, h⟩ := h
  have hid : root.id = app.root := node_id_of_get hroot
  obtain ⟨root', hroot', -⟩ := hg _ _ hroot
  obtain ⟨n', hwalk, hn', hsame⟩ := walkFrom_seen hi hg hv (hid ▸ hroot) (hid ▸ hroot') h
  exact ⟨n', ⟨(), htext, (), hpieces, _, rfl, root', hroot', hwalk⟩, hn', hsame⟩

theorem pathOf_seen {ref : PathRef} {path : Text} (h : (pathOf app user ref) w = .ok path) :
    (pathOf app user ref) v = .ok path := by
  simp only [pathOf, Query.bind_ok, need_ok] at h ⊢
  obtain ⟨_, htext, h⟩ := h
  refine ⟨(), htext, ?_⟩
  by_cases habs : ref.path.head? = some '/'
  · rw [if_pos habs] at h ⊢
    exact h
  · rw [if_neg habs] at h ⊢
    simp only [Query.bind_ok, need_ok, Query.attempt_ok] at h ⊢
    obtain ⟨_, hcwd, walked, hwalked, h⟩ := h
    split at h
    · rename_i cwd
      obtain ⟨cwd', hwalk, -, hsame⟩ := walk_seen hi hg hv hwalked
      refine ⟨(), hcwd, .ok cwd', hwalk, ?_⟩
      simp only [Query.bind_ok, need_ok, Query.pure_ok] at h ⊢
      rw [hsame.id, hsame.kind]
      exact h
    · simp at h
    · simp at h
    · simp at h

end Seen

/-! ## The path as a whole -/

/-- The path of a request as a whole. -/
def PathRef.joined (ref : PathRef) : Text :=
  if ref.path.head? = some '/' then ref.path else rstrip ref.cwdPath ++ ['/'] ++ ref.path

/-- What `walk` wants of the text of a path. -/
def Walkable (path : Text) : Prop :=
  path.head? = some '/' ∧ utf8Length path ≤ 4096 ∧ '\\' ∉ path ∧ '\x00' ∉ path

theorem pathOf_joined {ref : PathRef} {path : Text} (h : (pathOf app user ref) w = .ok path) :
    path = ref.joined := by
  simp only [pathOf, Query.bind_ok] at h
  obtain ⟨_, -, h⟩ := h
  unfold PathRef.joined
  by_cases habs : ref.path.head? = some '/'
  · rw [if_pos habs] at h ⊢
    exact (Query.pure_ok.mp h).symm
  · rw [if_neg habs] at h ⊢
    simp only [Query.bind_ok, Query.attempt_ok] at h
    obtain ⟨_, -, walked, -, h⟩ := h
    split at h
    · simp only [Query.bind_ok, Query.pure_ok] at h
      obtain ⟨_, -, rfl⟩ := h
      rfl
    · simp at h
    · simp at h
    · simp at h

/-- A path that led nowhere was walked. -/
theorem walkable_of_missing {path : PathRef} {p : Node × Text}
    (hp : (parentOf app user path) w = .ok p)
    (h : (resolve app user path) w = .error (.fault .notFound)) : Walkable path.joined := by
  rw [parentOf, Query.bind_ok] at hp
  obtain ⟨whole, hwhole, -⟩ := hp
  rw [← pathOf_joined hwhole]
  rw [resolve, Query.bind_error, hwhole] at h
  rcases h with h | ⟨other, hother, h⟩
  · cases h
  · obtain rfl := Except.ok.inj hother
    simp only [walk, Query.bind_error, need_error, need_ok] at h
    rcases h with ⟨-, h⟩ | ⟨_, hwalkable, -⟩
    · cases h
    · exact hwalkable

/-! ## Creation -/

/-- A node is there that was not there before. -/
def Appears (w v : World) (n : Node) : Prop :=
  v.access.nodes.get n.id = some n ∧ w.access.nodes.get n.id = none

/-- A node was hung into the directory that its path named. -/
structure Hung (app : App) (user : User) (path : PathRef) (w v : World) (n p : Node) : Prop where
  place : (parentOf app user path) w = .ok (p, n.name)
  stored : w.access.nodes.get p.id = some p
  new : w.access.nodes.get n.id = none
  parent : n.parent = some p.id
  alive : n.alive = true
  nodes : v.access.nodes = (w.access.nodes.put n).put { p with revision := p.revision + 1 }
  identity : v.identity = w.identity

namespace Hung

variable {path : PathRef} {n p : Node}

theorem ne (h : Hung app user path w v n p) : n.id ≠ p.id := by
  intro he
  have := h.new
  rw [he, h.stored] at this
  cases this

theorem appears (h : Hung app user path w v n p) : Appears w v n := by
  refine ⟨?_, h.new⟩
  rw [h.nodes, Table.get_put_of_ne _ h.ne]
  exact Table.get_put_self _ _

/-- Nothing else was created. -/
theorem eq_of_appears (h : Hung app user path w v n p) {m : Node} (hm : Appears w v m) : m = n := by
  have hget := hm.1
  rw [h.nodes] at hget
  by_cases hp : m.id = p.id
  · have hnone := hm.2
    rw [hp, h.stored] at hnone
    cases hnone
  · rw [Table.get_put_of_ne _ hp] at hget
    by_cases hn : m.id = n.id
    · rw [hn] at hget
      exact (Option.some.inj ((Table.get_put_self _ n).symm.trans hget)).symm
    · rw [Table.get_put_of_ne _ hn, hm.2] at hget
      cases hget

theorem grows (h : Hung app user path w v n p) :
    w.access.nodes.Grows Alike v.access.nodes := by
  rw [h.nodes]
  refine (Table.Grows.put_new Alike.refl h.new).trans Alike.trans ?_
  exact .put_old Alike.refl ((Table.get_put_of_ne _ h.ne.symm).trans h.stored) ⟨rfl⟩

/-- **The path leads to the node**, if it may be walked as a whole. -/
theorem resolve (hnorm : Normalizes app) (h : Hung app user path w v n p)
    (hv : Siblings v.access.nodes) :
    (Dfsha.resolve app user path) v = .ok n ↔ Walkable path.joined := by
  have hplace := h.place
  simp only [parentOf, Query.bind_ok, need_ok, Query.pure_ok, Prod.mk.injEq] at hplace
  obtain ⟨whole, hwhole, _, ⟨hne, -⟩, _, hname, parent, hwalk, _, hdir, _, hreq, _, hlen, rfl, hn⟩ :=
    hplace
  have hjoined := pathOf_joined hwhole
  generalize hparts : rpartition (rstrip whole) = parts at *
  obtain ⟨above, raw⟩ := parts
  obtain ⟨hslash, hraw, hpieces⟩ := piecesOf_rpartition hne hparts
  simp only at hname hwalk hlen hn
  obtain ⟨hempty, hdot, hdots, hshort, -, -⟩ := hname
  have hpath := pathOf_seen h.identity h.grows hv hwhole
  have hresolve : (Dfsha.resolve app user path) v = .ok n ↔ (walk app user whole) v = .ok n := by
    rw [Dfsha.resolve, Query.bind_ok]
    constructor
    · rintro ⟨other, hother, h⟩
      rw [hpath, Except.ok.injEq] at hother
      rwa [hother]
    · exact fun h => ⟨whole, hpath, h⟩
  rw [hresolve, ← hjoined]
  obtain ⟨parent', hwalk', hparent', hsame⟩ := walk_seen h.identity h.grows hv hwalk
  have habove : piecesOf (if above = [] then ['/'] else above) = piecesOf above := by
    split
    · rename_i he
      rw [he]
      rfl
    · rfl
  simp only [walk, habove, Query.bind_ok, access, Query.read_ok, deref_ok, need_ok] at hwalk'
  obtain ⟨_, -, _, hlimits, a, rfl, root, hroot, hfrom⟩ := hwalk'
  have hchild : n ∈ children v.access parent'.id := mem_children.mpr
    ⟨Table.mem_of_get h.appears.1, h.alive, by rw [h.parent, hsame.id]⟩
  have hlast : (walkFrom app user [app.nfc raw] parent') v = .ok n := by
    simp only [walkFrom, Query.bind_ok, access, Query.read_ok, need_ok]
    refine ⟨(), hsame.kind.trans hdir, (), hsame.require h.identity (require_search hreq), _, rfl, ?_⟩
    rw [if_neg hdot, if_neg hdots]
    simp only [Query.bind_ok, needSome_ok, Query.pure_ok]
    have hfound := hv.find hchild
    rw [← hn] at hfound
    exact ⟨n, hfound, rfl⟩
  have hall := walkFrom_trans hlast hfrom
  have hsplit : (piecesOf whole).map app.nfc =
      (piecesOf above).map app.nfc ++ [app.nfc raw] := by
    rw [hpieces, List.map_append, List.map_singleton]
  rw [← hsplit] at hall
  constructor
  · intro hok
    simp only [walk, Query.bind_ok, need_ok] at hok
    obtain ⟨_, hwalkable, -⟩ := hok
    exact hwalkable
  · intro hwalkable
    simp only [walk, Query.bind_ok, access, Query.read_ok, deref_ok, need_ok]
    refine ⟨(), hwalkable, (), ?_, _, rfl, root, hroot, hall⟩
    -- the last name is one piece more, and was checked by itself
    rw [List.append_assoc, List.singleton_append, piecesOf_append,
      piecesOf_name (hnorm.slash raw hslash) hempty, List.length_append, List.length_singleton] at hlen
    rw [hsplit, List.length_append, List.length_map, List.length_singleton]
    refine ⟨hlen, fun piece hpiece => ?_⟩
    rcases List.mem_append.mp hpiece with hmem | hmem
    · exact hlimits.2 piece hmem
    · rw [List.mem_singleton] at hmem
      rw [hmem]
      exact hshort

end Hung

/-! ## What is created -/

instance : AsideAccess World.identity := ⟨fun _ _ _ => rfl⟩
instance : AsideCluster World.identity := ⟨fun _ _ _ => rfl⟩
instance : AsideMemory World.identity := ⟨fun _ _ _ _ => rfl⟩
instance : AsideLedger World.identity := ⟨fun _ _ => rfl⟩

section Commands

variable {path : PathRef}

theorem mkdir_hung {r : Response × World} (hs : Sound app w.access)
    (h : (mkdir app user path) w = .ok r) :
    ∃ n p, Hung app user path w r.2 n p := by
  have hi : r.2.identity = w.identity := Leaves.leaves (π := World.identity) inferInstance w r h
  simp only [mkdir, ↓run_access, ↓run_need, run_query, run_draw, run_putNode, run_bump,
    setAccess_access, setAccess_setAccess, Access.later_later, Access.later_shift, Nat.reduceAdd,
    Tx.pure_ok] at h
  obtain ⟨⟨p, name⟩, hp, -, -, -, -, e, -, rfl⟩ := h
  exact ⟨newNode (app.uuid w.access.issued) name p.id user.id true 448, p, hp, (parentOf_ok hs hp).get,
    get_none_of_unused_node hs.next_unused, rfl, rfl, rfl, hi⟩

theorem openCreating_hung {session : Session} {mode : OpenMode} {r : Node × World} {n : Node}
    (hs : Sound app w.access) (h : (openCreating app user session path mode) w = .ok r)
    (hn : Appears w r.2 n) : Walkable path.joined ∧ ∃ p, Hung app user path w r.2 n p := by
  have hi : r.2.identity = w.identity := Leaves.leaves (π := World.identity) inferInstance w r h
  unfold openCreating at h
  simp only [↓run_access, ↓run_need, run_query, setAccess_access, setAccess_setAccess,
    Access.later_later, Nat.reduceAdd] at h
  obtain ⟨found, hfound, ⟨parent, name⟩, hparent, hres, h⟩ := h
  have hloc : ∀ n ∈ found, Located app w.access.nodes n := fun n hmem => by
    rw [Option.mem_def] at hmem
    exact openResolve_ok hs (hmem ▸ hfound)
  obtain ⟨hpget, -⟩ := openParent_ok (w := w.setAccess (w.access.later 1)) (hs.advance 1) hloc
    hparent
  have hpget' : w.access.nodes.get parent.id = some parent := hpget
  obtain ⟨⟨m, epoch, version⟩, s, hnew, h⟩ := Tx.bind_ok.mp h
  simp only [run_draw, putSnapshot, run_onAccess, run_bump, setAccess_access, setAccess_setAccess,
    Tx.pure_ok] at h
  obtain ⟨-, -, rfl⟩ := h
  cases found with
  | none =>
      simp only [Option.elim, openNew, run_draw, setAccess_access, setAccess_setAccess,
        Access.later_shift, Nat.reduceAdd, Tx.pure_ok, Prod.mk.injEq] at hnew
      obtain ⟨⟨rfl, rfl, rfl⟩, rfl⟩ := hnew
      have hplace := parentOf_later hparent
      have hung := Hung.mk (v := _) hplace hpget'
        (get_none_of_unused_node hs.next_unused) rfl rfl rfl hi
      obtain rfl := hung.eq_of_appears hn
      exact ⟨walkable_of_missing hplace (openResolve_none hfound), _, hung⟩
  | some old =>
      -- the file was there before
      obtain ⟨hnodes, -⟩ := stays hnew
      obtain rfl : m = old := openTruncating_node hnew
      have hnodes' : s.access.nodes = w.access.nodes := hnodes
      have hget : w.access.nodes.get m.id = some m := (hloc m rfl).get
      obtain ⟨hstored, hnone⟩ := hn
      simp only [setAccess_access, Access.shift_nodes, hnodes'] at hstored
      have hparent' : n.id ≠ parent.id := fun he => by
        rw [he, hpget'] at hnone
        cases hnone
      have hfile : n.id ≠ m.id := fun he => by
        rw [he, hget] at hnone
        cases hnone
      rw [Table.get_put_of_ne _ hparent', Table.get_put_of_ne _ hfile, hnone] at hstored
      cases hstored

theorem openFile_hung {session : Session} {mode : OpenMode} {r : Response × World} {n : Node}
    (hs : Sound app w.access) (h : (openFile app user session path mode) w = .ok r)
    (hn : Appears w r.2 n) : Walkable path.joined ∧ ∃ p, Hung app user path w r.2 n p := by
  have hi : r.2.identity = w.identity := Leaves.leaves (π := World.identity) inferInstance w r h
  -- what comes before the file is created and after leaves the nodes alone
  have haccess : ∀ {k : Nat} {u : World} {m : HandleMessage},
      (accessOpen app user session path mode) (w.setAccess (w.access.later k)) = .ok (m, u) →
      u.access.nodes = r.2.access.nodes →
      Walkable path.joined ∧ ∃ p, Hung app user path w r.2 n p := by
    intro k u m hm hnodes
    unfold accessOpen at hm
    simp only [↓run_access, ↓run_need, setAccess_access, setAccess_setAccess,
      Access.later_later] at hm
    obtain ⟨-, -, hm⟩ := hm
    obtain ⟨node, s, hnode, hm⟩ := Tx.bind_ok.mp hm
    have hrest : u.access.nodes = s.access.nodes := (stays hm).1
    split at hnode
    · have happears : Appears (w.setAccess (w.access.later (k + 3))) s n :=
        ⟨by rw [← hrest, hnodes]; exact hn.1, hn.2⟩
      obtain ⟨hwalkable, p, hung⟩ := openCreating_hung
        (w := w.setAccess (w.access.later (k + 3))) (hs.advance _) hnode happears
      exact ⟨hwalkable, p, parentOf_later hung.place, hung.stored, hung.new, hung.parent, hung.alive,
        by rw [← hnodes, hrest]; exact hung.nodes, hi⟩
    · have hnothing : s.access.nodes = w.access.nodes := (stays hnode).1
      have hget := hn.1
      rw [← hnodes, hrest, hnothing, hn.2] at hget
      cases hget
  have hnot : r.2.access.nodes ≠ w.access.nodes := fun he => by
    have hget := hn.1
    rw [he, hn.2] at hget
    cases hget
  unfold openFile at h
  split at h
  · exact absurd (stays h).1 hnot
  · exact absurd (stays h).1 hnot
  · obtain ⟨m, s, hm, h⟩ := Tx.bind_ok.mp h
    rw [Tx.pure_ok] at h
    subst h
    exact haccess (k := 0) hm rfl
  · obtain ⟨m, s, hm, h⟩ := Tx.bind_ok.mp h
    rw [Tx.pure_ok] at h
    subst h
    unfold protectionOpen at hm
    obtain ⟨_, u, hrefuse, hm⟩ := Tx.bind_ok.mp hm
    obtain ⟨m', u', hopen, hrest⟩ := Tx.bind_ok.mp hm
    have hlater : w.Later u := by
      split at hrefuse
      · exact ⟨1, (last_query.mp hrefuse).2⟩
      · rw [Tx.pure_ok] at hrefuse
        cases hrefuse
        exact .refl w
    obtain ⟨k, rfl⟩ := hlater
    exact haccess hopen (stays hrest).1.symm

end Commands

/-! ## Commands that create -/

/-- The path at which a command may create something. -/
def Command.creates : Command → Option PathRef
  | .mkdir path => some path
  | .openFile path _ => some path
  | _ => none

theorem execute_mkdir {path : PathRef} (session : Session) (ctx : RequestContext) :
    execute app user session ctx (.mkdir path) = mkdir app user path := rfl

/-- **What was created is found** by its path, exactly when the path may be walked as a whole; and
that is so whenever a file was created. -/
theorem created_addressable (hn : Normalizes app) {clk : Clock} {username : Text}
    {password : Digest} (hname : validName username) {es : List Event}
    (hrun : Run app reports (World.initial app clk username password) es w) {session : Session}
    {ctx : RequestContext} {cmd : Command} {path : PathRef} (hcmd : cmd.creates = some path)
    {r : Response} (h : (execute app user session ctx cmd) w = .ok (r, v)) :
    (∀ n, Appears w v n → ((resolve app user path) v = .ok n ↔ Walkable path.joined)) ∧
      (cmd = .mkdir path → ∃ n, Appears w v n) ∧
      (∀ n mode, cmd = .openFile path mode → Appears w v n → Walkable path.joined) := by
  have hw : Orderly app w := hrun.orderly hn (orderly_initial hn clk password hname)
  have hv : Siblings v.access.nodes :=
    hw.siblings.acts (execute_grafts hn hw.sound hw.planted h).acts
  cases cmd with
  | mkdir path' =>
      obtain rfl : path' = path := Option.some.inj hcmd
      obtain ⟨n, p, hung⟩ := mkdir_hung hw.sound h
      refine ⟨fun m hm => ?_, fun _ => ⟨n, hung.appears⟩, fun _ _ hc => by cases hc⟩
      obtain rfl := hung.eq_of_appears hm
      exact hung.resolve hn hv
  | openFile path' mode =>
      obtain rfl : path' = path := Option.some.inj hcmd
      refine ⟨fun m hm => ?_, fun hc => (by cases hc), fun m _ _ hm => (openFile_hung hw.sound h hm).1⟩
      obtain ⟨-, p, hung⟩ := openFile_hung hw.sound h hm
      exact hung.resolve hn hv
  | _ => cases hcmd

/-- A directory is made, and its path leads to it. -/
theorem small_addressable : ∃ n v, Appears (World.small .monolith) v n ∧
    (resolve (App.small .monolith) smallUser smallPath) v = .ok n := by
  have hmade : ((mkdir (App.small .monolith) smallUser smallPath)
      (World.small .monolith)).toOption.isSome = true := by decide +kernel
  cases h : (mkdir (App.small .monolith) smallUser smallPath) (World.small .monolith) with
  | error e => simp [h, Except.toOption] at hmade
  | ok x =>
      obtain ⟨r, v⟩ := x
      have hcreated := @created_addressable _ (fun _ => True) _ _ _ (small_normalizes .monolith) _ ['a']
        _ (by decide) _ (.nil (World.small .monolith)) ⟨0, 0, 0, 0, false⟩ (smallContext 1)
        (.mkdir smallPath) _ rfl _ h
      obtain ⟨n, hn⟩ := hcreated.2.1 rfl
      exact ⟨n, v, hn, (hcreated.1 n hn).mpr (by unfold Walkable; decide)⟩

/-- A directory, written with as many slashes as a path may have, and a name in it. -/
def longPath : PathRef := ⟨['n'], List.replicate 4092 '/' ++ homeName, 5⟩

/-- **A directory that its path does not lead to.**  The path of its directory may be walked, and
its name is short, but the two together are longer than a path may be. -/
theorem long_path : ∃ session r w v n, Reachable (App.small .monolith) (fun _ => True) w ∧
    (execute (App.small .monolith) smallUser session (smallContext 1) (.mkdir longPath)) w =
      .ok (r, v) ∧ Appears w v n ∧
    (resolve (App.small .monolith) smallUser longPath) v = .error (.fault .invalidArgument) := by
  have hmade : ((mkdir (App.small .monolith) smallUser longPath)
      (World.small .monolith)).toOption.any (fun x => decide
        ((resolve (App.small .monolith) smallUser longPath) x.2 =
          .error (.fault .invalidArgument))) = true := by decide +kernel
  have hstart : Reachable (App.small .monolith) (fun _ => True) (World.small .monolith) :=
    ⟨_, _, _, [], .nil _⟩
  cases h : (mkdir (App.small .monolith) smallUser longPath) (World.small .monolith) with
  | error e => simp [h, Except.toOption] at hmade
  | ok x =>
      obtain ⟨r, v⟩ := x
      simp only [h, Except.toOption, Option.any_some, decide_eq_true_eq] at hmade
      obtain ⟨n, p, hung⟩ := mkdir_hung hstart.sound h
      rw [← execute_mkdir ⟨0, 0, 0, 0, false⟩ (smallContext 1)] at h
      exact ⟨⟨0, 0, 0, 0, false⟩, r, _, v, n, hstart, h, hung.appears, hmade⟩

end Dfsha
