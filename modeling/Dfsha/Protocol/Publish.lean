import Dfsha.Protocol.Operations
import Dfsha.Protocol.Merge

/-!
# Publishing keeps the invariant

Four actions publish a snapshot: a committed write, a committed upload, opening a new file and
opening one to truncate it.  `PublishOk` is what they have in common.  The condition that
carries the argument is `writes`: every write that still holds its leases must find, in the
new snapshot, what it found when it began.  A publisher meets it because it holds a lock that
excludes the locks of such a write, or because there is no such write.
-/

namespace Dfsha

variable {app : App} {a : Access}

theorem NotNewer.refl (s : Snapshot) : NotNewer s.ref.contentEpoch s.ref.sizeBytes s :=
  .inr ⟨rfl, le_refl _⟩

/-- The order goes through a snapshot that is not newer itself. -/
theorem NotNewer.trans {e z : Nat} {c d : Snapshot} (h : NotNewer e z c)
    (h' : NotNewer c.ref.contentEpoch c.ref.sizeBytes d) : NotNewer e z d := by
  unfold NotNewer at *
  omega

theorem SameNode.refl (n : Node) : SameNode n n := ⟨rfl, rfl, rfl, rfl⟩

/-- The current snapshot of a file is one snapshot. -/
theorem Current.unique {file : Id} {n m : Node} {c d : Snapshot} (h : Current a file n c)
    (h' : Current a file m d) : m = n ∧ d = c := by
  have hn : m = n := Option.some.inj (h'.1.symm.trans h.1)
  subst hn
  have hid : d.id = c.id := Option.some.inj (h'.2.2.1.symm.trans h.2.2.1)
  exact ⟨rfl, Option.some.inj (h'.2.2.2.symm.trans (hid ▸ h.2.2.2))⟩

/-- What a write that holds its leases needs of a snapshot of its file. -/
def Serves (op : Operation) (s : Snapshot) : Prop :=
  s.ref.contentEpoch = op.epoch ∧
    (∀ p ∈ op.parts, baseOf s.blocks op.file p.base.blockIndex = p.base) ∧
    (op.growing = true → s.ref.sizeBytes = op.baseSize)

/-- A snapshot that may be published, and the node of its file. -/
structure PublishOk (app : App) (a : Access) (s : Snapshot) (n : Node) : Prop where
  id_eq : s.id = app.uuid a.issued
  shape : SnapshotShape app s
  node_id : n.id = s.file
  snapshot : n.snapshot = some s.id
  alive : n.alive = true
  kind : n.kind = .file
  block_eq : s.ref.blockSizeBytes = n.blockSize
  old : (∃ m, a.nodes.get n.id = some m ∧ SameNode n m) ∨
    (a.nodes.get n.id = none ∧ Issued app a n.id ∧ ∀ t ∈ a.snapshots.all, t.file ≠ n.id)
  recorded : ∀ b ∈ s.blocks, (a.blocks.get b.blockVersionId).isSome = true
  origins : ∀ b ∈ s.blocks, ∃ op ∈ a.uploads.all, op.state = .committed ∧ op.file = s.file ∧
    ∃ x ∈ op.allocations, x.2.blockVersionId = b.blockVersionId
  newest : ∀ t ∈ a.snapshots.all, t.file = s.file →
    NotNewer t.ref.contentEpoch t.ref.sizeBytes s
  writes : ∀ op ∈ a.uploads.all, op.writing → op.file = s.file →
    NotNewer op.epoch op.baseSize s ∧ (Held a op → Serves op s)
  uploads : ∀ op ∈ a.uploads.all, op.uploading → op.base = none → op.file ≠ s.file

/-! ## Nodes -/

/-- The root stays what it is when no node is written that was another. -/
theorem root_put {m : Node}
    (h : ∃ r, a.nodes.get app.root = some r ∧ r.kind = .directory ∧ r.parent = none)
    (hm : ∀ x, a.nodes.get m.id = some x → SameNode m x) :
    ∃ r, (a.nodes.put m).get app.root = some r ∧ r.kind = .directory ∧ r.parent = none := by
  obtain ⟨r, hr, hk, hp⟩ := h
  by_cases he : app.root = m.id
  · have same := hm r (he ▸ hr)
    exact ⟨m, he ▸ Table.get_put_self _ _, same.2.1.trans hk, same.2.2.1.trans hp⟩
  · exact ⟨r, (Table.get_put_of_ne _ he).trans hr, hk, hp⟩

namespace Sound

/-- A node that changes nothing the protocol depends on, unless the file is removed and
nothing is in preparation on it. -/
theorem renode (hs : Sound app a) {n m : Node} (hm : a.nodes.get n.id = some m)
    (same : SameNode n m) (hsnap : n.snapshot = m.snapshot) (ha : n.alive = true → m.alive = true)
    (hw : ∀ op ∈ a.uploads.all, op.file = n.id → op.state = .preparing → m.alive = true →
      n.alive = true) :
    Sound app { a with nodes := a.nodes.put n } := by
  have hmem := Table.mem_of_get hm
  have hsame : ∀ x, a.nodes.get n.id = some x → SameNode n x := by
    intro x hx
    rw [hm] at hx
    cases hx
    exact same
  -- Every node read after the change was there before, with the same snapshot.
  have before : ∀ {k : Id} {x : Node}, (a.nodes.put n).get k = some x →
      ∃ y, a.nodes.get k = some y ∧ x.snapshot = y.snapshot ∧ x.blockSize = y.blockSize := by
    intro k x hx
    rw [Table.get_put] at hx
    split at hx
    · rename_i hk
      cases hx
      exact ⟨m, hk ▸ hm, hsnap, same.2.2.2⟩
    · exact ⟨x, hx, rfl, rfl⟩
  exact
    { hs with
      ids :=
        { hs.ids with
          nodes := Table.forall_put hs.ids.nodes (by
            simp only [Node.ids, same.1, hsnap]
            exact hs.ids.nodes m hmem) }
      writeOrder := fun op ho h x c hx hc hget => by
        obtain ⟨y, hy, hxs, -⟩ := before hx
        exact hs.writeOrder op ho h y c hy (hxs ▸ hc) hget
      writeCurrent := fun op ho h hh => by
        obtain ⟨x, c, hc, hr⟩ := hs.writeCurrent op ho h hh
        by_cases he : op.file = n.id
        · have hx : x = m := Option.some.inj (hc.1.symm.trans (he ▸ hm))
          subst hx
          refine ⟨n, c, ⟨he ▸ Table.get_put_self _ _, ?_, hsnap.trans hc.2.2.1, hc.2.2.2⟩, hr⟩
          exact hw op ho he h.2 hc.2.1
        · exact ⟨x, c, ⟨(Table.get_put_of_ne _ he).trans hc.1, hc.2⟩, hr⟩
      uploadNew := fun op ho h hb => by
        obtain ⟨h1, h2, h3⟩ := hs.uploadNew op ho h hb
        refine ⟨?_, h2, h3⟩
        rw [Table.get_put_of_ne _ fun he => ?_]
        · exact h1
        · rw [show op.file = n.id from he, hm] at h1
          cases h1
      order := fun s hs' x c hx hc hget => by
        obtain ⟨y, hy, hxs, -⟩ := before hx
        exact hs.order s hs' y c hy (hxs ▸ hc) hget
      blockSizes := fun s hs' x hx => by
        obtain ⟨y, hy, -, hxb⟩ := before hx
        exact (hs.blockSizes s hs' y hy).trans hxb.symm
      files := Table.forall_put hs.files fun hal hk => by
        rw [hsnap, same.1, same.2.2.2]
        exact hs.files m hmem (ha hal) (same.2.1 ▸ hk)
      housed := fun s hs' => Table.isSome_get_put (hs.housed s hs')
      directories := Table.forall_put hs.directories fun hk =>
        hsnap.trans (hs.directories m hmem (same.2.1 ▸ hk))
      root := root_put hs.root hsame }

theorem touchNode (hs : Sound app a) {n m : Node} (hm : a.nodes.get n.id = some m)
    (same : SameNode n m) (ha : n.alive = m.alive) (hsnap : n.snapshot = m.snapshot) :
    Sound app { a with nodes := a.nodes.put n } :=
  hs.renode hm same hsnap (fun h => ha ▸ h) fun _ _ _ _ h => ha.trans h

theorem removeNode (hs : Sound app a) {n m : Node} (hm : a.nodes.get n.id = some m)
    (same : SameNode n m) (ha : n.alive = false) (hsnap : n.snapshot = m.snapshot)
    (hop : ∀ op ∈ a.uploads.all, op.file = n.id → op.state ≠ .preparing) :
    Sound app { a with nodes := a.nodes.put n } :=
  hs.renode hm same hsnap (fun h => absurd h (by simp [ha])) fun op ho hf hst =>
    absurd hst (hop op ho hf)

theorem newDirectory (hs : Sound app a) {n : Node} (hf : Fresh app a n.id)
    (hk : n.kind = .directory) (hsnap : n.snapshot = none) :
    Sound app { a with nodes := a.nodes.put n } := by
  have hsame : ∀ x, a.nodes.get n.id = some x → SameNode n x := fun x hx => by
    rw [get_none_of_unused_node hf.2] at hx
    cases hx
  -- A node with a snapshot is not the new directory.
  have before : ∀ {k : Id} {x : Node} {c : Id}, (a.nodes.put n).get k = some x →
      x.snapshot = some c → a.nodes.get k = some x := by
    intro k x c hx hc
    rw [Table.get_put] at hx
    split at hx
    · cases hx
      rw [hsnap] at hc
      cases hc
    · exact hx
  have opFile : ∀ op ∈ a.uploads.all, op.file ≠ n.id := fun op ho he =>
    Mentions.not_upload hf.2 ho (by simp [Operation.ids, he])
  exact
    { hs with
      ids :=
        { hs.ids with
          nodes := Table.forall_put hs.ids.nodes fun id hi => by
            simp only [Node.ids, hsnap, Option.toList_none, List.mem_singleton] at hi
            exact hi ▸ hf.1 }
      writeOrder := fun op ho h x c hx hc hget =>
        hs.writeOrder op ho h x c (before hx hc) hc hget
      writeCurrent := fun op ho h hh => by
        obtain ⟨x, c, hc, hr⟩ := hs.writeCurrent op ho h hh
        exact ⟨x, c, ⟨(Table.get_put_of_ne _ (opFile op ho)).trans hc.1, hc.2⟩, hr⟩
      uploadNew := fun op ho h hb => by
        obtain ⟨h1, h2, h3⟩ := hs.uploadNew op ho h hb
        exact ⟨(Table.get_put_of_ne _ (opFile op ho)).trans h1, h2, h3⟩
      order := fun s hs' x c hx hc hget => hs.order s hs' x c (before hx hc) hc hget
      blockSizes := fun s hs' x hx => by
        refine hs.blockSizes s hs' x ?_
        rwa [Table.get_put_of_ne _ fun he => ?_] at hx
        exact Mentions.not_snapshot hf.2 hs' (by simp [Snapshot.ids, show s.file = n.id from he])
      files := Table.forall_put hs.files fun _ hk' => by
        rw [hk] at hk'
        cases hk'
      housed := fun s hs' => Table.isSome_get_put (hs.housed s hs')
      directories := Table.forall_put hs.directories fun _ => hsnap
      root := root_put hs.root hsame }

/-! ## Snapshots -/

/-- What is stored does not have the next identifier. -/
theorem snapshot_ne_next (hs : Sound app a) {s : Snapshot} (h : s ∈ a.snapshots.all) :
    s.id ≠ app.uuid a.issued := fun he =>
  Mentions.not_snapshot hs.next_unused h (by simp [Snapshot.ids, he])

theorem node_snapshot_ne_next (hs : Sound app a) {n : Node} (h : n ∈ a.nodes.all) {k : Id}
    (hk : n.snapshot = some k) : k ≠ app.uuid a.issued := fun he =>
  Mentions.not_node hs.next_unused h (by simp [Node.ids, hk, he])

theorem handle_snapshot_ne_next (hs : Sound app a) {h : Handle} (hh : h ∈ a.handles.all) :
    h.snapshot ≠ app.uuid a.issued := fun he =>
  Mentions.not_handle hs.next_unused hh (by simp [Handle.ids, he])

theorem base_ne_next (hs : Sound app a) {op : Operation} (h : op ∈ a.uploads.all) {k : Id}
    (hk : k ∈ op.base) : k ≠ app.uuid a.issued := fun he =>
  Mentions.not_upload hs.next_unused h (by simp_all [Operation.ids])

/-- A node that has a snapshot is a file. -/
theorem kind_of_snapshot (hs : Sound app a) {n : Node} (hn : n ∈ a.nodes.all) {k : Id}
    (hk : n.snapshot = some k) : n.kind = .file := by
  cases h : n.kind with
  | file => rfl
  | directory => exact absurd (hs.directories n hn h) (by simp [hk])

/-- The current snapshot of a file is a snapshot of that file. -/
theorem current_file (hs : Sound app a) {file : Id} {n : Node} {c : Snapshot}
    (h : Current a file n c) : c.file = file := by
  have hmem := Table.mem_of_get h.1
  obtain ⟨-, s, hsid, hget, hfile⟩ := hs.files n hmem h.2.1 (hs.kind_of_snapshot hmem h.2.2.1)
  have hid : c.id = s.id := Option.some.inj (h.2.2.1.symm.trans hsid)
  have hcs : c = s := Option.some.inj (h.2.2.2.symm.trans (hid ▸ hget))
  rw [hcs, hfile, node_id_of_get h.1]

/-- **Publishing a snapshot.** -/
theorem publish (hs : Sound app a) {s : Snapshot} {n : Node} (h : PublishOk app a s n) :
    Sound app
      { a with
        issued := a.issued + 1, snapshots := a.snapshots.put s, nodes := a.nodes.put n } := by
  have hd := hs.draw
  have keep : ∀ {k : Id}, k ≠ app.uuid a.issued → (a.snapshots.put s).get k = a.snapshots.get k :=
    fun hk => Table.get_put_of_ne _ fun he => hk (he.trans h.id_eq)
  have stay : ∀ {k : Id} {t : Snapshot}, a.snapshots.get k = some t →
      (a.snapshots.put s).get k = some t := fun ht =>
    (keep (snapshot_id_of_get ht ▸ hs.snapshot_ne_next (Table.mem_of_get ht))).trans ht
  have other : ∀ {k : Id}, k ≠ s.file → (a.nodes.put n).get k = a.nodes.get k := fun hk =>
    Table.get_put_of_ne _ fun he => hk (he.trans h.node_id)
  have self : (a.nodes.put n).get s.file = some n := h.node_id ▸ Table.get_put_self _ _
  -- The current snapshot of another file is the one it was.
  have current : ∀ {k : Id} {x : Node} {c : Snapshot}, k ≠ s.file →
      (a.nodes.put n).get k = some x → x.snapshot = some c.id →
      (a.snapshots.put s).get c.id = some c → a.nodes.get k = some x ∧ a.snapshots.get c.id = some c := by
    intro k x c hk hx hc hget
    rw [other hk] at hx
    exact ⟨hx, (keep (hs.node_snapshot_ne_next (Table.mem_of_get hx) hc)) ▸ hget⟩
  -- The current snapshot of this file is the new one.
  have mine : ∀ {x : Node} {c : Snapshot}, (a.nodes.put n).get s.file = some x →
      x.snapshot = some c.id → (a.snapshots.put s).get c.id = some c → c = s := by
    intro x c hx hc hget
    rw [self] at hx
    cases hx
    have hid : s.id = c.id := Option.some.inj (h.snapshot.symm.trans hc)
    rw [← hid] at hget
    exact Option.some.inj (hget.symm.trans (Table.get_put_self _ _))
  have hsame : ∀ x, a.nodes.get n.id = some x → SameNode n x := by
    intro x hx
    rcases h.old with ⟨m, hm, same⟩ | ⟨hnone, -⟩
    · rw [hm] at hx
      cases hx
      exact same
    · rw [hnone] at hx
      cases hx
  exact
    { hd with
      ids :=
        { hd.ids with
          nodes := Table.forall_put hd.ids.nodes fun id hi => by
            simp only [Node.ids, h.snapshot, Option.toList_some, List.mem_cons, List.not_mem_nil,
              or_false] at hi
            rcases hi with rfl | rfl
            · rcases h.old with ⟨m, hm, same⟩ | ⟨-, hi, -⟩
              · exact (hs.ids.nodes m (Table.mem_of_get hm) _ (by simp [Node.ids, same.1])).more
              · exact hi.more
            · exact h.id_eq ▸ issued_next
          snapshots := Table.forall_put hd.ids.snapshots fun id hi => by
            simp only [Snapshot.ids, List.mem_cons, List.mem_map] at hi
            rcases hi with rfl | rfl | ⟨b, hb, rfl⟩
            · exact h.id_eq ▸ issued_next
            · rw [← h.node_id]
              rcases h.old with ⟨m, hm, same⟩ | ⟨-, hi, -⟩
              · exact (hs.ids.nodes m (Table.mem_of_get hm) _ (by simp [Node.ids, same.1])).more
              · exact hi.more
            · obtain ⟨r, hr⟩ := Option.isSome_iff_exists.mp (h.recorded b hb)
              have hk : r.id = b.blockVersionId := Table.key_of_get hr
              exact hk ▸ (hs.ids.blocks r (Table.mem_of_get hr)).more }
      writeBase := fun op ho hw b hb t ht =>
        hs.writeBase op ho hw b hb t (keep (hs.base_ne_next ho hb) ▸ ht)
      writeOrder := fun op ho hw x c hx hc hget => by
        by_cases hf : op.file = s.file
        · rw [hf] at hx
          rw [mine hx hc hget]
          exact (h.writes op ho hw hf).1
        · obtain ⟨hx', hget'⟩ := current hf hx hc hget
          exact hs.writeOrder op ho hw x c hx' hc hget'
      writeCurrent := fun op ho hw hh => by
        by_cases hf : op.file = s.file
        · exact ⟨n, s, ⟨hf ▸ self, h.alive, h.snapshot, Table.get_put_self _ _⟩,
            (h.writes op ho hw hf).2 hh⟩
        · obtain ⟨x, c, hc, hr⟩ := hs.writeCurrent op ho hw hh
          exact ⟨x, c, ⟨(other hf).trans hc.1, hc.2.1, hc.2.2.1, stay hc.2.2.2⟩, hr⟩
      uploadBase := fun op ho hu b hb t ht =>
        hs.uploadBase op ho hu b hb t (keep (hs.base_ne_next ho hb) ▸ ht)
      uploadNew := fun op ho hu hb => by
        obtain ⟨h1, h2, h3⟩ := hs.uploadNew op ho hu hb
        have hne := h.uploads op ho hu hb
        exact ⟨(other hne).trans h1, Table.forall_put h2 hne.symm, h3⟩
      order := Table.forall_put
        (fun t ht x c hx hc hget => by
          by_cases hf : t.file = s.file
          · rw [hf] at hx
            rw [mine hx hc hget]
            exact h.newest t ht hf
          · obtain ⟨hx', hget'⟩ := current hf hx hc hget
            exact hs.order t ht x c hx' hc hget')
        fun x c hx hc hget => by
          rw [mine hx hc hget]
          exact NotNewer.refl s
      blockSizes := Table.forall_put
        (fun t ht x hx => by
          by_cases hf : t.file = s.file
          · rw [hf, self] at hx
            cases hx
            rcases h.old with ⟨m, hm, same⟩ | ⟨-, -, hnone⟩
            · rw [same.2.2.2]
              exact hs.blockSizes t ht m (by rw [hf, ← h.node_id]; exact hm)
            · exact absurd (hf.trans h.node_id.symm) (hnone t ht)
          · exact hs.blockSizes t ht x (other hf ▸ hx))
        fun x hx => by
          rw [self] at hx
          cases hx
          exact h.block_eq
      files := Table.forall_put
        (fun x hx ha hk => by
          obtain ⟨hb, t, ht, hget, hf⟩ := hs.files x hx ha hk
          exact ⟨hb, t, ht, stay hget, hf⟩)
        fun _ _ => ⟨h.block_eq ▸ h.shape.block_mem, s, h.snapshot, Table.get_put_self _ _,
          h.node_id.symm⟩
      directories := Table.forall_put hs.directories fun hk => by
        rw [h.kind] at hk
        cases hk
      handleSnap := fun x hx hc hl => by
        obtain ⟨t, ht⟩ := Option.isSome_iff_exists.mp (hs.handleSnap x hx hc hl)
        exact Option.isSome_iff_exists.mpr ⟨t, stay ht⟩
      handleFile := fun x hx t ht =>
        hs.handleFile x hx t (keep (hs.handle_snapshot_ne_next hx) ▸ ht)
      snapshotShape := Table.forall_put hs.snapshotShape h.shape
      recorded := Table.forall_put hs.recorded h.recorded
      housed := Table.forall_put (fun t ht => Table.isSome_get_put (hs.housed t ht))
        (by rw [self]; rfl)
      origins := Table.forall_put hs.origins h.origins
      root := root_put hs.root hsame }

theorem dropSnapshot (hs : Sound app a) {k : Id}
    (hn : ∀ n ∈ a.nodes.all, n.alive = true → n.snapshot ≠ some k)
    (hh : ∀ h ∈ a.handles.all, h.closed = false → a.liveHandle h → h.snapshot ≠ k) :
    Sound app { a with snapshots := a.snapshots.delete k } :=
  { hs with
    ids := { hs.ids with snapshots := Table.forall_delete hs.ids.snapshots }
    writeBase := fun op ho hw b hb t ht =>
      hs.writeBase op ho hw b hb t (Table.get_of_get_delete ht)
    writeOrder := fun op ho hw x c hx hc ht =>
      hs.writeOrder op ho hw x c hx hc (Table.get_of_get_delete ht)
    writeCurrent := fun op ho hw hh' => by
      obtain ⟨x, c, hc, hr⟩ := hs.writeCurrent op ho hw hh'
      refine ⟨x, c, ⟨hc.1, hc.2.1, hc.2.2.1, ?_⟩, hr⟩
      rw [Table.get_delete_of_ne _ fun he => ?_]
      · exact hc.2.2.2
      · exact hn x (Table.mem_of_get hc.1) hc.2.1 (he ▸ hc.2.2.1)
    uploadBase := fun op ho hu b hb t ht =>
      hs.uploadBase op ho hu b hb t (Table.get_of_get_delete ht)
    uploadNew := fun op ho hu hb =>
      ⟨(hs.uploadNew op ho hu hb).1, Table.forall_delete (hs.uploadNew op ho hu hb).2.1,
        (hs.uploadNew op ho hu hb).2.2⟩
    order := Table.forall_delete fun t ht x c hx hc hget =>
      hs.order t ht x c hx hc (Table.get_of_get_delete hget)
    blockSizes := Table.forall_delete hs.blockSizes
    files := fun x hx ha hk => by
      obtain ⟨hb, t, ht, hget, hf⟩ := hs.files x hx ha hk
      have hne : t.id ≠ k := fun he => hn x hx ha (he ▸ ht)
      exact ⟨hb, t, ht, (Table.get_delete_of_ne _ hne).trans hget, hf⟩
    handleSnap := fun x hx hc hl => by
      rw [Table.get_delete_of_ne _ (hh x hx hc hl)]
      exact hs.handleSnap x hx hc hl
    handleFile := fun x hx t ht => hs.handleFile x hx t (Table.get_of_get_delete ht)
    snapshotShape := Table.forall_delete hs.snapshotShape
    recorded := Table.forall_delete hs.recorded
    housed := Table.forall_delete hs.housed
    origins := Table.forall_delete hs.origins }

end Sound

end Dfsha
