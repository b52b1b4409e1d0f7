import Dfsha.Lib.Forest
import Dfsha.Protocol.Sound

/-!
# The tree of names

The nodes of a control form a tree.  A transaction changes it one node at a time: a node is
written back in its place, a new one is hung under a node that has room below it, or one is
removed, which for a directory asks that it has no children.  Nodes are never taken out of the
table and never change their parent, so the depth of a node is fixed when it appears.

What a new node must come with beside its place is the parameter `adds`, and what allows a
removal is `removes`.  That the place of a new node is a directory is left to `adds`: it is the
one thing that not every command looks at.

## Main definitions

* `Under t k p` — in the table `t`, the parent of `k` is `p`.
* `NameOk` — a name in normal form, of the length and without the characters that are refused.
* `Roomy`, `Folder` — a node that is not too deep to put another below it; a directory.
* `Tree` — the invariant.
* `TreeAct`, `TreeActs` — the changes of one node, and sequences of them.

## Main results

* `Tree.acts` — a sequence of changes leaves a tree.
* `Tree.acyclic` — no node is above itself.
-/

namespace Dfsha

variable {app : App} {t t' : Table Node} {adds removes : Node → Prop}

/-- The parent of the node `k` is `p`. -/
def Under (t : Table Node) (k p : Id) : Prop := ∃ n, t.get k = some n ∧ n.parent = some p

/-- The node is there, and was not removed. -/
def Living (t : Table Node) (k : Id) : Prop := ∃ n, t.get k = some n ∧ n.alive = true

/-- What a name other than the root's is like. -/
structure NameOk (app : App) (name : Text) : Prop where
  normal : app.nfc name = name
  nonempty : name ≠ []
  dot : name ≠ ['.']
  dots : name ≠ ['.', '.']
  short : utf8Length name ≤ 255
  slash : '/' ∉ name
  backslash : '\\' ∉ name
  nul : '\x00' ∉ name

/-- A node that is not so deep that nothing may be put below it. -/
def Roomy (app : App) (t : Table Node) (k : Id) : Prop := ∃ d, d ≤ 31 ∧ Below (Under t) app.root d k

/-- The node is there, and is a directory. -/
def Folder (t : Table Node) (k : Id) : Prop := ∃ n, t.get k = some n ∧ n.kind = .directory

/-- **The nodes form a tree.** -/
structure Tree (app : App) (t : Table Node) : Prop where
  root : ∃ r, t.get app.root = some r ∧ r.alive = true ∧ r.kind = .directory ∧ r.parent = none
  /-- What is alive, except the root, is in a directory that is alive. -/
  parents : ∀ n ∈ t.all, n.alive = true → n.id ≠ app.root → ∃ p m, n.parent = some p ∧
    t.get p = some m ∧ m.alive = true ∧ m.kind = .directory
  /-- Living siblings have different names. -/
  siblings : ∀ n ∈ t.all, ∀ m ∈ t.all, n.alive = true → m.alive = true → n.parent = m.parent →
    n.name = m.name → n = m
  depth : ∀ n ∈ t.all, ∃ d, d ≤ 32 ∧ Below (Under t) app.root d n.id
  names : ∀ n ∈ t.all, n.id ≠ app.root → NameOk app n.name

/-- The same place in the tree. -/
structure SamePlace (n m : Node) : Prop where
  name : n.name = m.name
  parent : n.parent = m.parent
  kind : n.kind = m.kind

/-- What one change does to the nodes. -/
inductive TreeAct (app : App) (adds removes : Node → Prop) : Table Node → Table Node → Prop
  | touch {t : Table Node} {n m : Node} :
      t.get n.id = some m → SamePlace n m → n.alive = m.alive →
      TreeAct app adds removes t (t.put n)
  | add {t : Table Node} {n : Node} {p : Id} :
      t.get n.id = none → n.alive = true → n.parent = some p → Roomy app t p → Living t p →
      (∀ m ∈ t.all, m.alive = true → m.parent = some p → m.name ≠ n.name) →
      NameOk app n.name → adds n → TreeAct app adds removes t (t.put n)
  | remove {t : Table Node} {n m : Node} :
      t.get n.id = some m → SamePlace n m → n.parent.isSome = true → n.alive = false →
      (n.kind = .directory → ∀ c ∈ t.all, c.alive = true → c.parent ≠ some n.id) → removes n →
      TreeAct app adds removes t (t.put n)

/-- A sequence of changes. -/
def TreeActs (app : App) (adds removes : Node → Prop) : Table Node → Table Node → Prop :=
  Relation.ReflTransGen (TreeAct app adds removes)

theorem TreeAct.mono {adds' removes' : Node → Prop} (ha : ∀ n, adds n → adds' n)
    (hr : ∀ n, removes n → removes' n) (h : TreeAct app adds removes t t') :
    TreeAct app adds' removes' t t' := by
  cases h with
  | touch hm same alive => exact .touch hm same alive
  | add hnew alive hp hroom hlive hfree hname hadd =>
      exact .add hnew alive hp hroom hlive hfree hname (ha _ hadd)
  | remove hm same hp dead hempty hrem => exact .remove hm same hp dead hempty (hr _ hrem)

theorem TreeActs.mono {adds' removes' : Node → Prop} (ha : ∀ n, adds n → adds' n)
    (hr : ∀ n, removes n → removes' n) (h : TreeActs app adds removes t t') :
    TreeActs app adds' removes' t t' :=
  Relation.ReflTransGen.mono (fun _ _ => TreeAct.mono ha hr) _ _ h

/-! ## What never changes -/

/-- Every node keeps its name, its parent and its kind. -/
theorem TreeAct.grows (h : TreeAct app adds removes t t') : t.Grows SamePlace t' := by
  have hrefl : ∀ n : Node, SamePlace n n := fun n => ⟨rfl, rfl, rfl⟩
  have hsymm : ∀ {n m : Node}, SamePlace n m → SamePlace m n := fun h =>
    ⟨h.name.symm, h.parent.symm, h.kind.symm⟩
  cases h with
  | touch hm same _ => exact .put_old hrefl hm (hsymm same)
  | add hnew => exact .put_new hrefl hnew
  | remove hm same => exact .put_old hrefl hm (hsymm same)

theorem TreeActs.grows (h : TreeActs app adds removes t t') : t.Grows SamePlace t' := by
  induction h with
  | refl => exact .refl (fun n => ⟨rfl, rfl, rfl⟩) _
  | tail _ hact ih =>
      exact ih.trans (fun h h' => ⟨h.name.trans h'.name, h.parent.trans h'.parent,
        h.kind.trans h'.kind⟩) hact.grows

theorem under_of_grows (hg : t.Grows SamePlace t') (k p : Id) (h : Under t k p) :
    Under t' k p := by
  obtain ⟨n, hn, hp⟩ := h
  obtain ⟨m, hm, same⟩ := hg k n hn
  exact ⟨m, hm, same.parent ▸ hp⟩

theorem below_of_grows (hg : t.Grows SamePlace t') {d : Nat} {k : Id}
    (h : Below (Under t) app.root d k) : Below (Under t') app.root d k :=
  h.mono (under_of_grows hg)

/-- A node with room below it keeps it. -/
theorem Roomy.grows (hg : t.Grows SamePlace t') {k : Id} (h : Roomy app t k) :
    Roomy app t' k := by
  obtain ⟨d, hd, hb⟩ := h
  exact ⟨d, hd, below_of_grows hg hb⟩

/-- A directory stays one. -/
theorem Folder.grows (hg : t.Grows SamePlace t') {k : Id} (h : Folder t k) : Folder t' k := by
  obtain ⟨n, hn, hk⟩ := h
  obtain ⟨m, hm, same⟩ := hg k n hn
  exact ⟨m, hm, same.kind ▸ hk⟩

/-- A node stays alive unless it is the one that is written. -/
theorem Living.put {k : Id} (hk : Living t k) {n : Node} (hn : n.id = k → n.alive = true) :
    Living (t.put n) k := by
  obtain ⟨x, hx, ha⟩ := hk
  by_cases hid : k = n.id
  · exact ⟨n, hid ▸ Table.get_put_self t n, hn hid.symm⟩
  · exact ⟨x, (Table.get_put_of_ne t hid).trans hx, ha⟩

/-- A node stays alive unless it is removed. -/
theorem Living.act (h : TreeAct app adds removes t t') {k : Id} (hk : Living t k)
    (hremoves : ∀ n m, t.get n.id = some m → SamePlace n m → n.parent.isSome = true →
      removes n → n.id ≠ k) : Living t' k := by
  cases h with
  | @touch n m hm _ halive =>
      refine hk.put fun hid => ?_
      obtain ⟨x, hx, ha⟩ := hk
      rw [hid, hx, Option.some.injEq] at hm
      rw [halive, ← hm, ha]
  | add _ halive => exact hk.put fun _ => halive
  | remove hm same hpar _ _ hrem => exact hk.put fun hid => absurd hid (hremoves _ _ hm same hpar hrem)

/-- A node without a parent stays alive. -/
theorem Living.acts (h : TreeActs app adds removes t t') {k : Id} (hk : Living t k)
    (hp : ∀ p, ¬ Under t k p) : Living t' k := by
  have hkeep : Living t' k ∧ ∀ p, ¬ Under t' k p := by
    induction h with
    | refl => exact ⟨hk, hp⟩
    | tail _ hact ih =>
        refine ⟨ih.1.act hact fun n m hm same hpar _ hid => ?_, fun p hup => ?_⟩
        · obtain ⟨q, hq⟩ := Option.isSome_iff_exists.mp hpar
          exact ih.2 q ⟨m, hid ▸ hm, same.parent ▸ hq⟩
        · obtain ⟨n, hn, hpar⟩ := hup
          obtain ⟨x, hx, -⟩ := ih.1
          obtain ⟨y, hy, same⟩ := hact.grows k x hx
          rw [hn, Option.some.injEq] at hy
          exact ih.2 p ⟨x, hx, by rw [same.parent, ← hy, hpar]⟩
  exact hkeep.1

/-! ## Revisions -/

/-- The node `c` is a living child of `p`. -/
def Child (t : Table Node) (p c : Id) : Prop :=
  ∃ n, t.get c = some n ∧ n.alive = true ∧ n.parent = some p

/-- No node is lost, its revision does not go back, and while it is the same the node keeps its
children. -/
def Counts (t t' : Table Node) : Prop :=
  t.Grows (fun m m' => m.revision ≤ m'.revision ∧
    (m.revision = m'.revision → ∀ c, Child t m.id c ↔ Child t' m.id c)) t'

namespace Counts

variable {n m p : Node}

theorem refl (t : Table Node) : Counts t t := fun _ m hm => ⟨m, hm, le_rfl, fun _ _ => Iff.rfl⟩

theorem trans {t'' : Table Node} (h : Counts t t') (h' : Counts t' t'') : Counts t t'' := by
  intro k m hm
  obtain ⟨m', hm', hle, hkids⟩ := h k m hm
  obtain ⟨m'', hm'', hle', hkids'⟩ := h' k m' hm'
  have hid : m.id = k := Table.key_of_get hm
  have hid' : m'.id = k := Table.key_of_get hm'
  refine ⟨m'', hm'', hle.trans hle', fun he c => ?_⟩
  have h1 := hkids (by omega) c
  have h2 := hkids' (by omega) c
  rw [hid] at h1 ⊢
  rw [hid'] at h2
  exact h1.trans h2

/-- A node is written back in its place. -/
theorem touch (hm : t.get n.id = some m) (same : SamePlace n m) (halive : n.alive = m.alive)
    (hrev : m.revision ≤ n.revision) : Counts t (t.put n) := by
  have hchild : ∀ q c, Child t q c ↔ Child (t.put n) q c := by
    intro q c
    by_cases hc : c = n.id
    · subst hc
      have hput : (t.put n).get n.id = some n := Table.get_put_self t n
      simp only [Child, hm, hput, Option.some.injEq, exists_eq_left', halive, same.parent]
    · rw [Child, Child, Table.get_put_of_ne t hc]
  intro k x hx
  by_cases hk : k = n.id
  · subst hk
    obtain rfl : x = m := Option.some.inj (hx.symm.trans hm)
    exact ⟨n, Table.get_put_self t n, hrev, fun _ c => hchild _ c⟩
  · exact ⟨x, (Table.get_put_of_ne t hk).trans hx, le_rfl, fun _ c => hchild _ c⟩

/-- A node comes to a directory or leaves it, and the directory is counted up. -/
theorem hang (hp : t.get p.id = some p) (hne : p.id ≠ n.id) (hpar : n.parent = some p.id)
    (hold : ∀ m, t.get n.id = some m → m.parent = some p.id ∧ m.revision ≤ n.revision) :
    Counts t ((t.put n).put { p with revision := p.revision + 1 }) := by
  have hput : ∀ k, k ≠ p.id → k ≠ n.id →
      ((t.put n).put { p with revision := p.revision + 1 }).get k = t.get k := fun k h1 h2 =>
    (Table.get_put_of_ne _ h1).trans (Table.get_put_of_ne t h2)
  have hputp : ((t.put n).put { p with revision := p.revision + 1 }).get p.id =
      some { p with revision := p.revision + 1 } := Table.get_put_self _ _
  have hputn : ((t.put n).put { p with revision := p.revision + 1 }).get n.id = some n :=
    (Table.get_put_of_ne _ fun he => hne he.symm).trans (Table.get_put_self t n)
  have hchild : ∀ q c, q ≠ p.id → (Child t q c ↔
      Child ((t.put n).put { p with revision := p.revision + 1 }) q c) := by
    intro q c hq
    by_cases hcn : c = n.id
    · subst hcn
      have hno : ¬ Child t q n.id := by
        rintro ⟨m, hm, -, hmq⟩
        exact hq (Option.some.inj (hmq.symm.trans (hold m hm).1))
      have hno' : ¬ Child ((t.put n).put { p with revision := p.revision + 1 }) q n.id := by
        rintro ⟨m, hm, -, hmq⟩
        rw [hputn, Option.some.injEq] at hm
        subst hm
        exact hq (Option.some.inj (hmq.symm.trans hpar))
      exact iff_of_false hno hno'
    · by_cases hcp : c = p.id
      · subst hcp
        simp only [Child, hp, hputp, Option.some.injEq, exists_eq_left']
      · rw [Child, Child, hput c hcp hcn]
  intro k x hx
  have hid : x.id = k := Table.key_of_get hx
  by_cases hkp : k = p.id
  · subst hkp
    obtain rfl : x = p := Option.some.inj (hx.symm.trans hp)
    exact ⟨_, hputp, Nat.le_succ _, fun he => absurd he (Nat.ne_of_lt (Nat.lt_succ_self _))⟩
  · by_cases hkn : k = n.id
    · subst hkn
      exact ⟨n, hputn, (hold x hx).2, fun _ c => hchild _ c (hid ▸ hkp)⟩
    · exact ⟨x, (hput k hkp hkn).trans hx, le_rfl, fun _ c => hchild _ c (hid ▸ hkp)⟩

end Counts

/-- A free name under a living directory: no child that is alive has it. -/
structure Vacant (t : Table Node) (p : Id) (name : Text) : Prop where
  folder : Folder t p
  living : Living t p
  free : ∀ m ∈ t.all, m.alive = true → m.parent = some p → m.name ≠ name

/-- **A name stays free** when nothing is added under it and its directory is not removed. -/
theorem Vacant.acts {p : Id} {name : Text} (hadds : ∀ n, adds n → n.parent = some p → n.name ≠ name)
    (hremoves : ∀ n, removes n → n.kind = .directory → n.id ≠ p) (hk : Vacant t p name)
    (h : TreeActs app adds removes t t') : Vacant t' p name := by
  induction h with
  | refl => exact hk
  | @tail u v _ hact ih =>
      have hfree : ∀ n : Node, (n.alive = true → n.parent = some p → n.name ≠ name) →
          ∀ m ∈ (u.put n).all, m.alive = true → m.parent = some p → m.name ≠ name := by
        intro n hn m hm
        rcases Table.mem_put.mp hm with rfl | ⟨hm, -⟩
        · exact hn
        · exact ih.free m hm
      refine ⟨ih.folder.grows hact.grows, ih.living.act hact fun n m hm same _ hrem hid => ?_, ?_⟩
      · obtain ⟨y, hy, hyk⟩ := ih.folder
        rw [hid, hy, Option.some.injEq] at hm
        exact hremoves n hrem (by rw [same.kind, ← hm, hyk]) hid
      · cases hact with
        | @touch n m hm same halive =>
            refine hfree n fun ha hp => ?_
            rw [same.name]
            exact ih.free m (Table.mem_of_get hm) (halive ▸ ha) (same.parent ▸ hp)
        | @add n _ _ _ _ _ _ _ _ hadd => exact hfree n fun _ => hadds n hadd
        | @remove n m _ _ _ hdead _ _ =>
            exact hfree n fun ha => absurd ha (by simp [hdead])

/-! ## The invariant -/

namespace Tree

variable (ht : Tree app t)
include ht

theorem rooted : Rooted (Under t) app.root where
  single := by
    rintro k p q ⟨n, hn, hp⟩ ⟨m, hm, hq⟩
    rw [hn, Option.some.injEq] at hm
    rw [hm, hq] at hp
    exact (Option.some.inj hp).symm
  top := by
    rintro p ⟨n, hn, hp⟩
    obtain ⟨r, hr, -, -, hnone⟩ := ht.root
    rw [hr, Option.some.injEq] at hn
    rw [← hn, hnone] at hp
    cases hp

/-- **No node is above itself.** -/
theorem acyclic (k : Id) : ¬ Relation.TransGen (Under t) k k := by
  refine ht.rooted.acyclic (fun k p hup => ?_) k
  obtain ⟨n, hn, -⟩ := hup
  obtain ⟨d, -, hd⟩ := ht.depth n (Table.mem_of_get hn)
  have hid : n.id = k := Table.key_of_get hn
  exact ⟨d, hid ▸ hd⟩

/-- A node without a parent is the root. -/
theorem root_of_parent {n : Node} (hn : n ∈ t.all) (ha : n.alive = true) (hp : n.parent = none) :
    n.id = app.root := by
  by_contra hne
  obtain ⟨p, m, hpar, -⟩ := ht.parents n hn ha hne
  rw [hp] at hpar
  cases hpar

/-- What a living node is in is a living directory. -/
theorem above_alive {n m : Node} {p : Id} (hn : n ∈ t.all) (ha : n.alive = true)
    (hp : n.parent = some p) (hm : t.get p = some m) : m.alive = true ∧ m.kind = .directory := by
  have hne : n.id ≠ app.root := fun he => by
    obtain ⟨r, hr, -, -, hnone⟩ := ht.root
    have hget : t.get n.id = some n := Table.get_of_mem hn
    rw [he, hr, Option.some.injEq] at hget
    rw [← hget, hnone] at hp
    cases hp
  obtain ⟨q, x, hq, hx, hxa, hxk⟩ := ht.parents n hn ha hne
  rw [hp, Option.some.injEq] at hq
  rw [← hq, hm, Option.some.injEq] at hx
  exact hx ▸ ⟨hxa, hxk⟩

/-- A node is written back where it was, alive or not: what has to be seen is that nothing is
left without a directory. -/
theorem put_old {n m : Node} (hm : t.get n.id = some m) (same : SamePlace n m)
    (hdies : n.alive = true → m.alive = true) (hroot : n.parent = none → n.alive = m.alive)
    (hempty : n.alive = false → ∀ c ∈ t.all, c.alive = true → c.parent ≠ some n.id) :
    Tree app (t.put n) := by
  have hgrow : t.Grows SamePlace (t.put n) :=
    .put_old (fun n => ⟨rfl, rfl, rfl⟩) hm ⟨same.name.symm, same.parent.symm, same.kind.symm⟩
  have hmem : m ∈ t.all := Table.mem_of_get hm
  have hmid : m.id = n.id := Table.key_of_get hm
  -- Every record of the new table stands for one of the old, at least as much alive.
  have hold : ∀ x ∈ (t.put n).all, ∃ y ∈ t.all, y.id = x.id ∧ SamePlace x y ∧
      (x.alive = true → y.alive = true) := by
    intro x hx
    rcases Table.mem_put.mp hx with rfl | ⟨hx, -⟩
    · exact ⟨m, hmem, hmid, same, hdies⟩
    · exact ⟨x, hx, rfl, ⟨rfl, rfl, rfl⟩, id⟩
  constructor
  · obtain ⟨r, hr, ha, hk, hp⟩ := ht.root
    by_cases hid : n.id = app.root
    · have hmr : m = r := by
        rw [hid, hr] at hm
        exact (Option.some.inj hm).symm
      refine ⟨n, hid ▸ Table.get_put_self t n, ?_, ?_, ?_⟩
      · rw [hroot (by rw [same.parent, hmr, hp]), hmr, ha]
      · rw [same.kind, hmr, hk]
      · rw [same.parent, hmr, hp]
    · exact ⟨r, (Table.get_put_of_ne t fun he => hid he.symm).trans hr, ha, hk, hp⟩
  · intro x hx hxa hxr
    obtain ⟨y, hy, hid, hxy, hya⟩ := hold x hx
    obtain ⟨p, q, hp, hq, hqa, hqk⟩ := ht.parents y hy (hya hxa) (hid ▸ hxr)
    refine ⟨p, ?_⟩
    by_cases hpn : p = n.id
    · have hqm : q = m := by
        rw [hpn, hm] at hq
        exact (Option.some.inj hq).symm
      refine ⟨n, hxy.parent ▸ hp, hpn ▸ Table.get_put_self t n, ?_, ?_⟩
      · by_contra hdead
        rw [Bool.not_eq_true] at hdead
        exact hempty hdead y hy (hya hxa) (hpn ▸ hp)
      · rw [same.kind, ← hqm, hqk]
    · exact ⟨q, hxy.parent ▸ hp, (Table.get_put_of_ne t hpn).trans hq, hqa, hqk⟩
  · intro x hx y hy hxa hya hpar hname
    obtain ⟨x', hx', hxid, hxx, hxa'⟩ := hold x hx
    obtain ⟨y', hy', hyid, hyy, hya'⟩ := hold y hy
    have he : x' = y' := ht.siblings x' hx' y' hy' (hxa' hxa) (hya' hya)
      (by rw [← hxx.parent, ← hyy.parent, hpar]) (by rw [← hxx.name, ← hyy.name, hname])
    have hid : x.id = y.id := by rw [← hxid, ← hyid, he]
    exact get_unique (Table.get_of_mem hy) hx hid
  · intro x hx
    obtain ⟨y, hy, hid, -, -⟩ := hold x hx
    obtain ⟨d, hd, hb⟩ := ht.depth y hy
    exact ⟨d, hd, hid ▸ below_of_grows hgrow hb⟩
  · intro x hx hxr
    obtain ⟨y, hy, hid, hxy, -⟩ := hold x hx
    rw [hxy.name]
    exact ht.names y hy (hid ▸ hxr)

/-- A new node is put in a living directory with room, where its name is free. -/
theorem put_new {n : Node} {p : Id} (hnew : t.get n.id = none) (hp : n.parent = some p)
    (hroom : Roomy app t p) (hlive : Living t p) (hfolder : Folder t p)
    (hfree : ∀ m ∈ t.all, m.alive = true → m.parent = some p → m.name ≠ n.name)
    (hname : NameOk app n.name) : Tree app (t.put n) := by
  have hgrow : t.Grows SamePlace (t.put n) := .put_new (fun n => ⟨rfl, rfl, rfl⟩) hnew
  have hne : ∀ {k : Id} {m : Node}, t.get k = some m → k ≠ n.id := fun hk he => by
    rw [he, hnew] at hk
    cases hk
  have hkeep : ∀ {k : Id} {m : Node}, t.get k = some m → (t.put n).get k = some m :=
    fun hk => (Table.get_put_of_ne t (hne hk)).trans hk
  obtain ⟨d, hd, hb⟩ := hroom
  obtain ⟨q, hq, hqk⟩ := hfolder
  obtain ⟨q', hq', hqa⟩ := hlive
  have hqq : q' = q := by
    rw [hq, Option.some.injEq] at hq'
    exact hq'.symm
  constructor
  · obtain ⟨r, hr, hrest⟩ := ht.root
    exact ⟨r, hkeep hr, hrest⟩
  · intro x hx hxa hxr
    rcases Table.mem_put.mp hx with rfl | ⟨hx, -⟩
    · exact ⟨p, q, hp, hkeep hq, hqq ▸ hqa, hqk⟩
    · obtain ⟨k, m, hk, hm, hma, hmk⟩ := ht.parents x hx hxa hxr
      exact ⟨k, m, hk, hkeep hm, hma, hmk⟩
  · intro x hx y hy hxa hya hpar hsame
    rcases Table.mem_put.mp hx with rfl | ⟨hx', -⟩
    · rcases Table.mem_put.mp hy with rfl | ⟨hy', -⟩
      · rfl
      · exact absurd hsame.symm (hfree y hy' hya (hpar ▸ hp))
    · rcases Table.mem_put.mp hy with rfl | ⟨hy', -⟩
      · exact absurd hsame (hfree x hx' hxa (hpar ▸ hp))
      · exact ht.siblings x hx' y hy' hxa hya hpar hsame
  · intro x hx
    rcases Table.mem_put.mp hx with rfl | ⟨hx, -⟩
    · exact ⟨d + 1, by omega, .step (below_of_grows hgrow hb) ⟨x, Table.get_put_self t x, hp⟩⟩
    · obtain ⟨e, he, hbe⟩ := ht.depth x hx
      exact ⟨e, he, below_of_grows hgrow hbe⟩
  · intro x hx hxr
    rcases Table.mem_put.mp hx with rfl | ⟨hx, -⟩
    · exact hname
    · exact ht.names x hx hxr

/-- **One change leaves a tree**, when new nodes are put in directories. -/
theorem act (hadds : ∀ n, adds n → ∀ p, n.parent = some p → Folder t p)
    (h : TreeAct app adds removes t t') : Tree app t' := by
  cases h with
  | touch hm same halive =>
      refine ht.put_old hm same (fun ha => halive ▸ ha) (fun _ => halive) fun hdead c hc hca hcp => ?_
      -- A node that is not alive has no children to lose.
      have := ht.above_alive hc hca hcp hm
      rw [← halive, hdead] at this
      exact absurd this.1 (by simp)
  | add hnew _ hp hroom hlive hfree hname hadd =>
      exact ht.put_new hnew hp hroom hlive (hadds _ hadd _ hp) hfree hname
  | @remove n m hm same hp hdead hempty _ =>
      refine ht.put_old hm same (fun ha => absurd ha (by simp [hdead])) (fun hnone => ?_)
        fun _ c hc hca hcp => ?_
      · rw [hnone] at hp
        cases hp
      · -- A file has no children at all.
        have := ht.above_alive hc hca hcp hm
        exact hempty (same.kind ▸ this.2) c hc hca hcp

/-- **A sequence of changes leaves a tree**, when new nodes are put in directories. -/
theorem acts (hadds : ∀ n, adds n → ∀ p, n.parent = some p → Folder t p)
    (h : TreeActs app adds removes t t') : Tree app t' := by
  induction h with
  | refl => exact ht
  | tail hacts hact ih =>
      exact ih.act (fun n hn p hp => (hadds n hn p hp).grows (TreeActs.grows hacts)) hact

end Tree

end Dfsha
