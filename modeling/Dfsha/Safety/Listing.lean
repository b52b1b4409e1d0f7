import Dfsha.Control.Queries
import Dfsha.Lib.Pages
import Dfsha.Safety.Tree

/-!
# Listing a directory

A directory is listed page by page, while others change the tree.  The only thing that a cursor
says about the pages before it is the child that was listed last, and the revision of the
directory; so all depends on the revision, which must not stay the same when a child comes or
goes.

## Main definitions

* `Siblings` — the living children of a node have different names, and none is empty.
* `listed` — what a listing shows of the children of a directory.
* `Listing` — the calls that list a directory from its beginning to its end.

## Main results

* `listing_complete` — the pages of a listing are the children that the directory had all along.
-/

namespace Dfsha

variable {app : App} {reports : Call → Prop} {w v : World} {t t' : Table Node}
  {adds removes : Node → Prop}

/-! ## Siblings -/

/-- The living children of a node have different names, and no name is empty. -/
structure Siblings (t : Table Node) : Prop where
  distinct : ∀ n ∈ t.all, ∀ m ∈ t.all, n.alive = true → m.alive = true → n.parent.isSome = true →
    n.parent = m.parent → n.name = m.name → n = m
  named : ∀ n ∈ t.all, n.parent.isSome = true → n.name ≠ []

namespace Siblings

/-- A node is written back in its place, and was alive if it is. -/
theorem put_old (h : Siblings t) {n m : Node} (hm : t.get n.id = some m) (same : SamePlace n m)
    (hdies : n.alive = true → m.alive = true) : Siblings (t.put n) := by
  have hold : ∀ x ∈ (t.put n).all, ∃ y ∈ t.all, y.id = x.id ∧ SamePlace x y ∧
      (x.alive = true → y.alive = true) := by
    intro x hx
    rcases Table.mem_put.mp hx with rfl | ⟨hx, -⟩
    · exact ⟨m, Table.mem_of_get hm, Table.key_of_get hm, same, hdies⟩
    · exact ⟨x, hx, rfl, ⟨rfl, rfl, rfl⟩, id⟩
  constructor
  · intro x hx y hy hxa hya hsome hpar hname
    obtain ⟨x', hx', hxid, hxx, hxa'⟩ := hold x hx
    obtain ⟨y', hy', hyid, hyy, hya'⟩ := hold y hy
    have he : x' = y' := h.distinct x' hx' y' hy' (hxa' hxa) (hya' hya) (hxx.parent ▸ hsome)
      (by rw [← hxx.parent, ← hyy.parent, hpar]) (by rw [← hxx.name, ← hyy.name, hname])
    have hid : x.id = y.id := by rw [← hxid, ← hyid, he]
    exact get_unique (Table.get_of_mem hy) hx hid
  · intro x hx hsome
    obtain ⟨y, hy, -, hxy, -⟩ := hold x hx
    rw [hxy.name]
    exact h.named y hy (hxy.parent ▸ hsome)

/-- A new node comes with a name that is free among its siblings. -/
theorem put_new (h : Siblings t) {n : Node} {p : Id} (hp : n.parent = some p)
    (hfree : ∀ m ∈ t.all, m.alive = true → m.parent = some p → m.name ≠ n.name)
    (hname : NameOk app n.name) : Siblings (t.put n) := by
  constructor
  · intro x hx y hy hxa hya hsome hpar hsame
    rcases Table.mem_put.mp hx with rfl | ⟨hx', -⟩
    · rcases Table.mem_put.mp hy with rfl | ⟨hy', -⟩
      · rfl
      · exact absurd hsame.symm (hfree y hy' hya (hpar ▸ hp))
    · rcases Table.mem_put.mp hy with rfl | ⟨hy', -⟩
      · exact absurd hsame (hfree x hx' hxa (hpar ▸ hp))
      · exact h.distinct x hx' y hy' hxa hya hsome hpar hsame
  · intro x hx hsome
    rcases Table.mem_put.mp hx with rfl | ⟨hx, -⟩
    · exact hname.nonempty
    · exact h.named x hx hsome

/-- **One change keeps siblings apart.** -/
theorem act (h : Siblings t) (hact : TreeAct app adds removes t t') : Siblings t' := by
  cases hact with
  | touch hm same halive => exact h.put_old hm same fun ha => halive ▸ ha
  | add _ _ hp _ _ hfree hname _ => exact h.put_new hp hfree hname
  | remove hm same _ hdead _ _ => exact h.put_old hm same fun ha => absurd ha (by simp [hdead])

theorem acts (h : Siblings t) (hacts : TreeActs app adds removes t t') : Siblings t' := by
  induction hacts with
  | refl => exact h
  | tail _ hact ih => exact ih.act hact

end Siblings

theorem Tree.apart (ht : Tree app t) : Siblings t := by
  constructor
  · intro n hn m hm hna hma _
    exact ht.siblings n hn m hm hna hma
  · intro n hn hsome
    refine (ht.names n hn fun hid => ?_).nonempty
    obtain ⟨r, hr, -, -, hnone⟩ := ht.root
    have hget : t.get n.id = some n := Table.get_of_mem hn
    rw [hid, hr, Option.some.injEq] at hget
    rw [← hget, hnone] at hsome
    cases hsome

/-! ## The children of a directory -/

/-- What a listing shows of a node. -/
def shown (n : Node) : Id × Text × NodeKind := (n.id, n.name, n.kind)

/-- What a listing shows of the children of a directory. -/
def listed (a : Access) (d : Id) : List (Id × Text × NodeKind) := (children a d).map shown

theorem mem_listed {a : Access} {d c : Id} {name : Text} {kind : NodeKind} :
    (c, name, kind) ∈ listed a d ↔ ∃ n, a.nodes.get c = some n ∧ n.alive = true ∧
      n.parent = some d ∧ n.name = name ∧ n.kind = kind := by
  simp only [listed, List.mem_map, mem_children, shown, Prod.mk.injEq]
  constructor
  · rintro ⟨n, ⟨hn, ha, hp⟩, hid, hname, hkind⟩
    exact ⟨n, hid ▸ Table.get_of_mem hn, ha, hp, hname, hkind⟩
  · rintro ⟨n, hn, ha, hp, hname, hkind⟩
    exact ⟨n, ⟨Table.mem_of_get hn, ha, hp⟩, Table.key_of_get hn, hname, hkind⟩

/-- The names of the children ascend. -/
theorem Siblings.children_sorted {a : Access} (h : Siblings a.nodes) (d : Id) :
    (children a d).Pairwise fun n m => n.name < m.name := by
  have hle : (children a d).Pairwise fun n m => n.name ≤ m.name :=
    List.pairwise_insertionSort (fun n m : Node => n.name ≤ m.name) _
  have hne : (children a d).Pairwise fun n m => n ≠ m := by
    refine (List.perm_insertionSort _ _).nodup_iff.mpr (List.Nodup.filter _ ?_)
    refine List.Pairwise.imp ?_ a.nodes.sorted
    intro n m hlt he
    exact lt_irrefl _ (he ▸ hlt)
  refine List.Pairwise.imp_of_mem ?_ (hle.and hne)
  intro n m hn hm hnm
  obtain ⟨hn, hna, hnp⟩ := mem_children.mp hn
  obtain ⟨hm, hma, hmp⟩ := mem_children.mp hm
  refine lt_of_le_of_ne hnm.1 fun he => hnm.2 ?_
  exact h.distinct n hn m hm hna hma (by simp [hnp]) (hnp.trans hmp.symm) he

theorem Siblings.listed_sorted {a : Access} (h : Siblings a.nodes) (d : Id) :
    (listed a d).Pairwise fun x y => x.2.1 < y.2.1 :=
  List.pairwise_map.mpr (h.children_sorted d)

/-- No name comes before the empty one. -/
theorem Siblings.listed_named {a : Access} (h : Siblings a.nodes) {d : Id}
    {x : Id × Text × NodeKind} (hx : x ∈ listed a d) : [] < x.2.1 := by
  obtain ⟨n, hn, rfl⟩ := List.mem_map.mp hx
  obtain ⟨hmem, -, hp⟩ := mem_children.mp hn
  have hname : n.name ≠ [] := h.named n hmem (by simp [hp])
  change [] < n.name
  cases hcons : n.name with
  | nil => exact absurd hcons hname
  | cons c cs => exact List.nil_lt_cons c cs

/-- **While the revision of a directory is the same, a listing shows the same children.** -/
theorem listed_eq {a b : Access} {d : Id} {n m : Node} (ha : Siblings a.nodes)
    (hb : Siblings b.nodes) (hg : a.nodes.Grows SamePlace b.nodes) (hc : Counts a.nodes b.nodes)
    (hn : a.nodes.get d = some n) (hm : b.nodes.get d = some m) (he : n.revision = m.revision) :
    listed a d = listed b d := by
  obtain ⟨m', hm', -, hkids⟩ := hc d n hn
  obtain rfl : m' = m := Option.some.inj (hm'.symm.trans hm)
  have hid : n.id = d := Table.key_of_get hn
  have hchild := hid ▸ hkids he
  have : Std.Irrefl fun x y : Id × Text × NodeKind => x.2.1 < y.2.1 := ⟨fun x => lt_irrefl x.2.1⟩
  refine List.Pairwise.eq_of_mem_iff (ha.listed_sorted d) (hb.listed_sorted d) fun x => ?_
  obtain ⟨c, name, kind⟩ := x
  rw [mem_listed, mem_listed]
  constructor
  · rintro ⟨x, hx, hxa, hxp, hname, hkind⟩
    obtain ⟨y, hy, hya, hyp⟩ := (hchild c).mp ⟨x, hx, hxa, hxp⟩
    obtain ⟨y', hy', same⟩ := hg c x hx
    obtain rfl : y' = y := Option.some.inj (hy'.symm.trans hy)
    exact ⟨y', hy, hya, hyp, same.name.symm.trans hname, same.kind.symm.trans hkind⟩
  · rintro ⟨y, hy, hya, hyp, hname, hkind⟩
    obtain ⟨x, hx, hxa, hxp⟩ := (hchild c).mpr ⟨y, hy, hya, hyp⟩
    obtain ⟨y', hy', same⟩ := hg c x hx
    obtain rfl : y' = y := Option.some.inj (hy'.symm.trans hy)
    exact ⟨x, hx, hxa, hxp, same.name.trans hname, same.kind.trans hkind⟩

/-! ## Runs -/

/-- **The revision of a directory counts the changes of its children.** -/
theorem Step.counts (hn : Normalizes app) {e : Event} (hs : Sound app w.access)
    (hpl : Planted app w.access) (h : Step app reports w e v) :
    Counts w.access.nodes v.access.nodes := by
  rcases h.grafts hn hs hpl with he | ⟨_, -, hg⟩
  · exact he ▸ Counts.refl _
  · exact hg.counts

/-- What a listing relies on. -/
structure Orderly (app : App) (w : World) : Prop where
  sound : Sound app w.access
  planted : Planted app w.access
  siblings : Siblings w.access.nodes

theorem Step.orderly (hn : Normalizes app) {e : Event} (hw : Orderly app w)
    (h : Step app reports w e v) : Orderly app v where
  sound := h.sound hw.sound
  planted := h.planted hn hw.sound hw.planted
  siblings := by
    rcases h.grafts hn hw.sound hw.planted with he | ⟨_, -, hg⟩
    · exact he ▸ hw.siblings
    · exact hw.siblings.acts hg.acts

theorem Run.orderly (hn : Normalizes app) {es : List Event} (hw : Orderly app w)
    (h : Run app reports w es v) : Orderly app v :=
  Run.induct (fun _ _ _ hstep hx => hstep.orderly hn hx) h hw

theorem orderly_initial (hn : Normalizes app) (clk : Clock) {username : Text} (password : Digest)
    (hname : validName username) : Orderly app (World.initial app clk username password) where
  sound := sound_initial clk username password
  planted := planted_initial clk username password
  siblings := (tree_initial hn clk password hname).apart

theorem Run.counts (hn : Normalizes app) {es : List Event} (hw : Orderly app w)
    (h : Run app reports w es v) : w.access.nodes.Grows SamePlace v.access.nodes ∧
      Counts w.access.nodes v.access.nodes := by
  induction h with
  | nil w => exact ⟨.refl (fun n => ⟨rfl, rfl, rfl⟩) _, .refl _⟩
  | cons hstep _ ih =>
      obtain ⟨hg, hc⟩ := ih (hstep.orderly hn hw)
      refine ⟨(hstep.grows hn hw.sound hw.planted).trans (fun h h' => ?_) hg,
        (hstep.counts hn hw.sound hw.planted).trans hc⟩
      exact ⟨h.name.trans h'.name, h.parent.trans h'.parent, h.kind.trans h'.kind⟩

/-- Between two states in which a directory has one revision, it had the same children. -/
theorem Run.listed_eq (hn : Normalizes app) {es : List Event} {d : Id} {n m : Node}
    (hw : Orderly app w) (h : Run app reports w es v) (hd : w.access.nodes.get d = some n)
    (hd' : v.access.nodes.get d = some m) (he : n.revision = m.revision) :
    listed w.access d = listed v.access d := by
  obtain ⟨hg, hc⟩ := h.counts hn hw
  exact Dfsha.listed_eq hw.siblings (h.orderly hn hw).siblings hg hc hd hd' he

/-! ## Pages -/

/-- What an entry says of a node. -/
def Entry.shown (e : Entry) : Id × Text × NodeKind := (e.objectId, e.name, e.kind)

theorem entry_shown {n : Node} {e : Entry} (h : (entry n) w = .ok e) : shown n = e.shown := by
  unfold entry at h
  simp only [Query.bind_ok, access, Query.read_ok] at h
  obtain ⟨a, rfl, h⟩ := h
  split at h
  · rw [Query.pure_ok] at h
    exact h ▸ rfl
  · simp only [Query.bind_ok, deref_ok, Query.pure_ok] at h
    obtain ⟨s, -, rfl⟩ := h
    rfl

/-- Where the page of a cursor begins: after the child that the cursor names. -/
inductive StartsAt (a : Access) (n : Node) : Cursor → Text → Prop
  | first : StartsAt a n .unset []
  | after {c : ListCursor} {name : Text} {kind : NodeKind} :
      c.id = n.id → c.revision = n.revision → (c.last, name, kind) ∈ listed a n.id →
      StartsAt a n (.decoded c) name

theorem listFrom_ok {user : User} {n : Node} {cursor : Cursor} {k : Text}
    (h : (listFrom user w.access n cursor) w = .ok k) : StartsAt w.access n cursor k := by
  cases cursor with
  | unset =>
      rw [listFrom, Query.pure_ok] at h
      exact h ▸ .first
  | malformed => cases h
  | oversized => cases h
  | decoded c =>
      simp only [listFrom, Query.bind_ok, need_ok, needSome_ok, Query.pure_ok] at h
      obtain ⟨_, ⟨hid, hrev, -⟩, p, hfind, rfl⟩ := h
      have hp : p.id = c.last := by simpa using List.find?_some hfind
      have hmem : (c.last, p.name, p.kind) ∈ listed w.access n.id :=
        List.mem_map.mpr ⟨p, List.mem_of_find?_eq_some hfind, by rw [shown, hp]⟩
      exact .after hid hrev hmem

/-- What a call of `List` answers: a page, and the last child of it if something is left. -/
theorem list_ok {user : User} {path : PathRef} {limit : Nat} {cursor : Cursor} {r : ListResponse}
    {n : Node} (hn : (resolve app user path) w = .ok n)
    (h : (list app user path limit cursor) w = .ok r) :
    ∃ k, StartsAt w.access n cursor k ∧ n.kind = .directory ∧ 0 < limit ∧
      r.entries.map Entry.shown =
        (pageFrom (fun x => x.2.1) k (listed w.access n.id)).take limit ∧
      ((pageFrom (fun x => x.2.1) k (listed w.access n.id)).length ≤ limit ∧
          r.nextCursor = .unset ∨
        limit < (pageFrom (fun x => x.2.1) k (listed w.access n.id)).length ∧
          ∃ x, ((pageFrom (fun x => x.2.1) k (listed w.access n.id)).take limit).getLast? =
              some x ∧ r.nextCursor = .decoded ⟨n.id, n.revision, user.id, x.1⟩) := by
  unfold list at h
  simp only [Query.bind_ok, need_ok, access, Query.read_ok, Query.pure_ok] at h
  obtain ⟨n', hn', _, hkind, _, -, _, hlimit, a, rfl, k, hk, next, hnext, entries, hentries, rfl⟩ := h
  obtain rfl : n' = n := Except.ok.inj (hn'.symm.trans hn)
  have hrest : pageFrom (fun x => x.2.1) k (listed w.access n'.id) =
      ((children w.access n'.id).filter fun m => k < m.name).map shown := by
    rw [listed, ← map_pageFrom, pageFrom]
    congr 1
    refine List.filter_congr fun m _ => ?_
    exact decide_eq_decide.mpr Iff.rfl
  refine ⟨k, listFrom_ok hk, hkind, hlimit.1, ?_, ?_⟩
  · rw [hrest, ← List.map_take]
    exact (Query.map_eq_map (fun _ _ he => entry_shown he) hentries).symm
  · rw [hrest, List.length_map]
    unfold listNext at hnext
    split at hnext
    · rename_i hle
      rw [Query.pure_ok] at hnext
      exact .inl ⟨hle, hnext.symm⟩
    · rename_i hlt
      simp only [Query.bind_ok, deref_ok, Query.pure_ok] at hnext
      obtain ⟨m, hlast, hm⟩ := hnext
      refine .inr ⟨Nat.lt_of_not_le hlt, shown m, ?_, hm.symm⟩
      rw [← List.map_take, List.getLast?_map, hlast]
      rfl

/-- The calls of one user that list a directory, each with the cursor that the call before
returned: from a first cursor to a last page. -/
inductive Listing (app : App) (reports : Call → Prop) (me d : Id) :
    World → Cursor → List ListResponse → World → Prop
  | last {w : World} {user : User} {path : PathRef} {limit : Nat} {cursor : Cursor} {n : Node}
      {r : ListResponse} :
      user.id = me → (resolve app user path) w = .ok n → n.id = d →
      (list app user path limit cursor) w = .ok r → r.nextCursor = .unset →
      Listing app reports me d w cursor [r] w
  | next {w v z : World} {user : User} {path : PathRef} {limit : Nat} {cursor : Cursor} {n : Node}
      {r : ListResponse} {rs : List ListResponse} {es : List Event} :
      user.id = me → (resolve app user path) w = .ok n → n.id = d →
      (list app user path limit cursor) w = .ok r → r.nextCursor ≠ .unset →
      Run app reports w es v → Listing app reports me d v r.nextCursor rs z →
      Listing app reports me d w cursor (r :: rs) z

/-- **What the pages from a cursor on are**: the children after it, and the directory did not
change. -/
theorem Listing.pages (hn : Normalizes app) {me d : Id} {cursor : Cursor} {rs : List ListResponse}
    {z : World} (hw : Orderly app w) (h : Listing app reports me d w cursor rs z) :
    ∃ n k, w.access.nodes.get d = some n ∧ n.kind = .directory ∧ StartsAt w.access n cursor k ∧
      (rs.flatMap ListResponse.entries).map Entry.shown =
        pageFrom (fun x => x.2.1) k (listed w.access d) ∧
      ∃ m es, z.access.nodes.get d = some m ∧ m.revision = n.revision ∧
        Run app reports w es z := by
  induction h with
  | @last w user path limit cursor n r _ hres hd h hnone =>
      subst hd
      obtain ⟨k, hk, hkind, -, hentries, hnext⟩ := list_ok hres h
      have hget : w.access.nodes.get n.id = some n := (resolve_ok hw.sound hres).get
      refine ⟨n, k, hget, hkind, hk, ?_, n, [], hget, rfl, .nil w⟩
      rcases hnext with ⟨hle, -⟩ | ⟨-, x, -, hx⟩
      · rw [List.flatMap_singleton, hentries, List.take_of_length_le hle]
      · rw [hnone] at hx
        cases hx
  | @next w v z user path limit cursor n r rs es _ hres hd h hsome hrun hrest ih =>
      subst hd
      obtain ⟨k, hk, hkind, hlimit, hentries, hnext⟩ := list_ok hres h
      have hget : w.access.nodes.get n.id = some n := (resolve_ok hw.sound hres).get
      rcases hnext with ⟨-, hx⟩ | ⟨hlt, x, hlast, hx⟩
      · exact absurd hx hsome
      obtain ⟨m, k', hm, -, hk', hpages, o, es', ho, hrev, hrun'⟩ := ih (hrun.orderly hn hw)
      rw [hx] at hk'
      cases hk' with
      | @after _ _ kind _ hcrev hmem =>
          have hsame : listed w.access n.id = listed v.access n.id :=
            hrun.listed_eq hn hw hget hm hcrev
          have hsorted := hw.siblings.listed_sorted n.id
          obtain ⟨y, hy, hylast, hdrop⟩ := pageFrom_next hsorted hlimit hlt
          obtain rfl : y = x := Option.some.inj (hylast.symm.trans hlast)
          -- The child that the cursor names is the one with which the page ended.
          have hname : k' = y.2.1 := by
            have hid : m.id = n.id := Table.key_of_get hm
            rw [hid, ← hsame] at hmem
            obtain ⟨c, hc, -, -, hcn, -⟩ := mem_listed.mp hmem
            obtain ⟨c', hc', -, -, hcn', -⟩ := mem_listed.mp (show (y.1, y.2.1, y.2.2) ∈ _ from hy)
            obtain rfl : c = c' := Option.some.inj (hc.symm.trans hc')
            exact hcn.symm.trans hcn'
          refine ⟨n, k, hget, hkind, hk, ?_, o, es ++ es', ho, hrev.trans hcrev.symm,
            hrun.trans hrun'⟩
          rw [List.flatMap_cons, List.map_append, hentries, hpages, ← hsame, hname, hdrop,
            List.take_append_drop]

/-- **Directory listing**: in every run from a fresh store, the pages that a user reads of a
directory, from an unset cursor to an unset cursor, are the children that the directory had in
every state from the first page to the last, each once and in the order of their names.  Every
step that adds or removes a child increases the revision of the directory. -/
theorem listing_complete (hn : Normalizes app) {clk : Clock} {username : Text} {password : Digest}
    (hname : validName username) {es : List Event}
    (h : Run app reports (World.initial app clk username password) es w) :
    (∀ e v, Step app reports w e v → Counts w.access.nodes v.access.nodes) ∧
      ∀ me d rs z, Listing app reports me d w .unset rs z →
        ((rs.flatMap ListResponse.entries).map Entry.name).Pairwise (fun x y => x < y) ∧
        ∀ fs u gs, Run app reports w fs u → Run app reports u gs z →
          (rs.flatMap ListResponse.entries).map Entry.shown = listed u.access d := by
  have hw : Orderly app w := h.orderly hn (orderly_initial hn clk password hname)
  refine ⟨fun e v hstep => hstep.counts hn hw.sound hw.planted, fun me d rs z hlist => ?_⟩
  obtain ⟨n, k, hget, -, hk, hpages, m, es', hm, hrev, hrun⟩ := hlist.pages hn hw
  cases hk
  rw [pageFrom_eq_self fun x hx => hw.siblings.listed_named hx] at hpages
  constructor
  · have hsorted := hw.siblings.listed_sorted d
    rw [← hpages] at hsorted
    have hnames := List.pairwise_map.mp hsorted
    exact List.pairwise_map.mpr hnames
  · intro fs u gs hfs hgs
    -- The revision is the same at the end, so it was the same in between.
    have hu := hfs.orderly hn hw
    obtain ⟨x, hx, hle, -⟩ := (hfs.counts hn hw).2 d n hget
    obtain ⟨y, hy, hle', -⟩ := (hgs.counts hn hu).2 d x hx
    obtain rfl : y = m := Option.some.inj (hy.symm.trans hm)
    rw [hpages]
    exact hfs.listed_eq hn hw hget hx (by omega)

/-- The pages of the root with one entry each. -/
def smallPages : ListResponse × ListResponse :=
  (⟨[⟨10, ['f'], .directory, 1, none, 0⟩], .decoded ⟨2, 2, 1, 10⟩, 2⟩,
    ⟨[⟨5, homeName, .directory, 1, none, 0⟩], .unset, 2⟩)

/-- The administrator reads a page of the root with one entry. -/
def smallRead (w : World) (cursor : Cursor) (r : ListResponse) : Prop :=
  ((resolve (App.small .rf3) smallUser ⟨['/'], [], 0⟩) w).toOption.map Node.id = some 2 ∧
    ((list (App.small .rf3) smallUser ⟨['/'], [], 0⟩ 1 cursor) w).toOption = some r

instance (w : World) (cursor : Cursor) (r : ListResponse) : Decidable (smallRead w cursor r) :=
  inferInstanceAs (Decidable (_ ∧ _))

theorem smallRead_ok {cursor : Cursor} {r : ListResponse} (h : smallRead w cursor r) :
    ∃ n, (resolve (App.small .rf3) smallUser ⟨['/'], [], 0⟩) w = .ok n ∧ n.id = 2 ∧
      (list (App.small .rf3) smallUser ⟨['/'], [], 0⟩ 1 cursor) w = .ok r := by
  have hok : ∀ {α : Type} {x : Except Failure α} {a : α}, x.toOption = some a → x = .ok a := by
    intro α x a hx
    cases x with
    | ok b => exact congrArg Except.ok (Option.some.inj hx)
    | error e => cases hx
  obtain ⟨n, hn, hid⟩ := Option.map_eq_some_iff.mp h.1
  exact ⟨n, hok hn, hid, hok h.2⟩

/-- The root is listed with one entry a page, and below the first entry a directory is made
before the second page is read. -/
theorem small_listing : ∃ w z, Listing (App.small .rf3) (fun _ => True) 1 2 w .unset
      [smallPages.1, smallPages.2] z ∧
    smallPages.1.entries.map Entry.shown ++ smallPages.2.entries.map Entry.shown =
      listed w.access 2 := by
  obtain ⟨w, hw, hfirst, hv⟩ := exists_of_perform (App.small .rf3)
    (smallStart ++ [smallInput 51 (.mkdir smallPath)]) (World.small .rf3)
    (fun w => smallRead w .unset smallPages.1 ∧
      (perform (App.small .rf3) [smallInput 52 (.mkdir ⟨['/', 'f', '/', 'x'], [], 0⟩)] w).any
        (fun v => decide (smallRead v smallPages.1.nextCursor smallPages.2)) = true)
    (by decide +kernel)
  obtain ⟨v, hv, hsecond⟩ := (Option.any_eq_true _ _).mp hv
  obtain ⟨n, hn, hid, hlist⟩ := smallRead_ok hfirst
  obtain ⟨m, hm, hid', hlist'⟩ := smallRead_ok (of_decide_eq_true hsecond)
  obtain ⟨es, hrun⟩ := perform_run hw
  obtain ⟨fs, hrun'⟩ := perform_run hv
  have hpages : Listing (App.small .rf3) (fun _ => True) 1 2 w .unset
      [smallPages.1, smallPages.2] v :=
    .next rfl hn hid hlist (by decide) hrun' (.last rfl hm hid' hlist' rfl)
  refine ⟨w, v, hpages, ?_⟩
  exact ((listing_complete (small_normalizes .rf3) (by decide) hrun).2 1 2 _ v hpages).2
    [] w fs (.nil w) hrun'

end Dfsha
