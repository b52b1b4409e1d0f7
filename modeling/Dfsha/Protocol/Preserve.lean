import Dfsha.Protocol.Publish

/-!
# Every action keeps the invariant

The actions that begin or commit an operation, and the invariant over whole sequences.  The
argument for a committing write is the exclusion of locks: another write that still holds its
leases holds them through another handle, so none of its blocks is among the blocks the
committing write replaces, and not both of them grow the file.
-/

namespace Dfsha

variable {app : App} {a : Access}

theorem block_pos {B : Nat} (h : B ∈ profiles) : 0 < B := by
  simp only [profiles, List.mem_cons, List.not_mem_nil, or_false] at h
  omega

namespace Sound

/-! ## Beginning -/

/-- The base of a part is at the part's place. -/
theorem baseOf_index {file : Id} {size B : Nat} {blocks : List BlockRef}
    (h : Manifest file size B blocks) (f : Id) (i : Nat) : (baseOf blocks f i).blockIndex = i := by
  unfold baseOf
  cases hb : blocks[i]? with
  | none => rfl
  | some b => exact (h.index i b hb).1

theorem writeShape_of_begin (hs : Sound app a) {op : Operation} {h : Handle} {n : Node}
    {s c : Snapshot} (hb : BeginOk app a op h n s c) : WriteShape op := by
  have shape := hs.snapshotShape s (Table.mem_of_get hb.snap)
  exact
    { length_pos := hb.length_pos
      offset_le := hb.offset_le
      total_eq := hb.total_eq
      growing_iff := hb.growing_iff
      block_mem := hb.block_eq ▸ shape.block_mem
      partition := hb.partition
      base_index := fun p hp => by
        rw [(hb.parts p hp).base]
        exact baseOf_index shape.manifest _ _
      replacement := fun p hp =>
        ⟨(hb.parts p hp).file_eq, (hb.parts p hp).size_eq, (hb.parts p hp).fresh.1.ne_zero⟩
      nodup := hb.nodup
      allocations := hb.allocations
      locks_eq := hb.locks_eq
      covered := hb.covered
      sized := hb.sized }

/-- What the current snapshot of the file has for a write that begins. -/
theorem serves_of_begin (hs : Sound app a) {op : Operation} {h : Handle} {n : Node}
    {s c : Snapshot} (hb : BeginOk app a op h n s c) : Serves op c := by
  have shape := hs.snapshotShape s (Table.mem_of_get hb.snap)
  refine ⟨hb.epoch_current.trans hb.epoch_eq.symm, fun p hp => ?_, hb.growing_current⟩
  have part := hb.parts p hp
  rw [part.base, baseOf_index shape.manifest, baseOf, baseOf, ← part.current]

theorem beginWrite (hs : Sound app a) {op : Operation} {h : Handle} {n : Node} {s c : Snapshot}
    (hb : BeginOk app a op h n s c) :
    Sound app
      { a with
        uploads := a.uploads.put op, handles := a.handles.put { h with busy := some op.id } } := by
  -- The handle is reserved first, while no write knows of it.
  have hres : Sound app { a with handles := a.handles.put { h with busy := some op.id } } :=
    hs.occupy hb.handle hb.idle
  have kind : ¬ op.uploading := fun hu => absurd (hu.1.symm.trans hb.kind) (by decide)
  have hcur := hb.current
  have hnid : n.id = op.file := (node_id_of_get hcur.1).trans hb.file_eq.symm
  have hne : op.id ≠ h.id := fun he =>
    Mentions.not_handle hb.fresh.2 (Table.mem_of_get hb.handle) (by simp [Handle.ids, he])
  have halloc : ∀ x ∈ op.allocations, Fresh app a x.2.blockVersionId := by
    intro x hx
    rw [hb.allocations] at hx
    obtain ⟨p, hp, rfl⟩ := List.mem_map.mp hx
    exact (hb.parts p hp).fresh
  have hlockget : ∀ f ∈ op.fences, ∀ l, a.locks.get f.lockId = some l →
      f.matchesLock l ∧ l.handle = op.handle ∧ l.file = op.file := by
    intro f hf l hl
    obtain ⟨m, hm, hmatch, hmh⟩ := hb.fences f hf
    have hlm : l = m := Option.some.inj (hl.symm.trans hm)
    subst hlm
    refine ⟨hmatch, hmh.trans hb.handle_eq.symm, ?_⟩
    rw [hb.file_eq]
    exact hs.lockFile l (Table.mem_of_get hm) h (hmh ▸ hb.handle)
  refine hres.putOp ⟨?_, ?_, fun h => absurd (hb.leased.symm.trans h) (by decide),
    fun _ => hs.writeShape_of_begin hb, fun _ => ?_, fun _ => ?_,
    fun _ => ?_, fun _ => ?_, fun _ _ => ?_, fun h => absurd h kind, fun h => absurd h kind,
    fun h => absurd h kind⟩ (fresh_read_ne (a := a) hb.fresh) (fun h => absurd h kind) ?_ ?_ ?_ ?_
    (fun o ho => absurd (ho.symm.trans (get_none_of_unused_upload (a := a) hb.fresh.2)) (by simp))
    fun o ho _ => absurd (ho.symm.trans (get_none_of_unused_upload (a := a) hb.fresh.2)) (by simp)
  · intro id hi
    simp only [Operation.ids, List.mem_cons, List.mem_append, List.mem_map, hb.base_eq,
      Option.toList_some, List.not_mem_nil, or_false] at hi
    rcases hi with rfl | rfl | rfl | ⟨x, hx, rfl⟩
    · exact hb.fresh.1
    · exact hs.ids.nodes n (Table.mem_of_get hcur.1) _ (by simp [Node.ids, hnid])
    · exact hs.ids.handles h (Table.mem_of_get hb.handle) _ (by simp [Handle.ids])
    · exact (halloc x hx).1
  · exact (Table.get_put_of_ne _ hne).trans (get_none_of_unused_handle hb.fresh.2)
  · refine ⟨{ h with busy := some op.id }, ?_, hb.file_eq.symm, fun _ =>
      ⟨rfl, hb.revision_eq.symm, hb.base_eq⟩⟩
    rw [hb.handle_eq]
    exact Table.get_put_self a.handles { h with busy := some op.id }
  · intro f hf
    obtain ⟨l, hl, -⟩ := hb.fences f hf
    have hid := lock_id_of_get hl
    exact ⟨hs.ids.locks l (Table.mem_of_get hl) _ (by simp [Lock.ids, hid]), hlockget f hf⟩
  · intro b hbm t ht
    rw [hb.base_eq] at hbm
    cases hbm
    have hts : t = s := Option.some.inj (ht.symm.trans hb.snap)
    rw [hts, hb.epoch_eq, hb.size_eq, hb.block_eq]
    exact ⟨rfl, rfl, rfl⟩
  · intro x d hx hd hget
    -- The current snapshot is not older than the handle's, which is of the same file.
    rw [hb.file_eq] at hx
    have hxn : x = n := Option.some.inj (hx.symm.trans hcur.1)
    subst hxn
    have hdid : d.id = c.id := Option.some.inj (hd.symm.trans hcur.2.2.1)
    have hdc : d = c := Option.some.inj (hget.symm.trans (hdid ▸ hcur.2.2.2))
    have hsf : s.file = h.file := hs.handleFile h (Table.mem_of_get hb.handle) s hb.snap
    rw [hdc, hb.epoch_eq, hb.size_eq]
    exact hs.order s (Table.mem_of_get hb.snap) x c (hsf ▸ hcur.1) hcur.2.2.1 hcur.2.2.2
  · obtain ⟨h1, h2, h3⟩ := hs.serves_of_begin hb
    exact ⟨n, c, hb.file_eq ▸ hcur, h1, h2, h3⟩
  · intro o ho hu hbase hf
    have := (hs.uploadNew o ho hu hbase).1
    rw [← hf, hb.file_eq, hcur.1] at this
    cases this
  · intro r hr _ x hx he
    exact Mentions.not_retired (halloc x hx).2 hr he
  · intro o ho x hx y hy he
    exact absurd he.symm ((halloc x hx).not_allocated ho hy)
  · intro b hbm _ x hx he
    exact absurd he (Mentions.not_block (halloc x hx).2 hbm)

/-- An upload is recorded, after the lock it may have taken. -/
theorem putPlanned (hs : Sound app a) {op : Operation} {i : Nat} {t : Table Lock}
    (hb : Planned app a op) (hi : a.issued ≤ i)
    (hlock : Sound app { a with issued := i, locks := t })
    (hfence : app.rf3 = true → op.fullFence.isSome = true)
    (hplain : app.rf3 = false → op.fullFence = none)
    (hlocks : ∀ f ∈ op.fullFence, Issued app { a with issued := i } f.lockId ∧
      ∀ l, t.get f.lockId = some l →
        f.matchesLock l ∧ l.whole = true ∧ l.file = op.file ∧ l.handle = op.id) :
    Sound app { a with issued := i, locks := t, uploads := a.uploads.put op } := by
  have more : ∀ {k : Id}, Issued app a k → Issued app { a with issued := i } k :=
    fun ⟨n, hn, he⟩ => ⟨n, lt_of_lt_of_le hn hi, he⟩
  have kind : ¬ op.writing := fun hu => absurd (hu.1.symm.trans hb.kind) (by decide)
  refine hlock.putOp ⟨?_, get_none_of_unused_handle (a := a) hb.fresh.2, fun h => ⟨hb.kind, hplain h⟩,
    fun h => absurd h kind, fun h => absurd h kind, fun h => absurd h kind, fun h => absurd h kind,
    fun h => absurd h kind, fun h => absurd h kind, fun _ => ?_, fun _ => hlocks, fun _ => ?_⟩
    (fresh_read_ne (a := a) hb.fresh) (fun _ hbase => ?_) ?_ ?_ ?_ ?_
    (fun o ho => absurd (ho.symm.trans (get_none_of_unused_upload (a := a) hb.fresh.2)) (by simp))
    fun o ho _ => absurd (ho.symm.trans (get_none_of_unused_upload (a := a) hb.fresh.2)) (by simp)
  · intro id hid
    simp only [Operation.ids, List.mem_cons, List.mem_append, hb.allocations, List.map_nil,
      List.not_mem_nil, or_false, Option.mem_toList] at hid
    rcases hid with rfl | rfl | hid
    · exact more hb.fresh.1
    · cases hbase : op.base with
      | none => exact more (hb.creates hbase).1.1
      | some b =>
          obtain ⟨n, s, hcur, -⟩ := hb.replaces b (by simp [hbase])
          exact more (hs.ids.nodes n (Table.mem_of_get hcur.1) _
            (by simp [Node.ids, node_id_of_get hcur.1]))
    · obtain ⟨n, s, hcur, hsid, -⟩ := hb.replaces id hid
      exact more (hs.ids.nodes n (Table.mem_of_get hcur.1) _
        (by simp [Node.ids, hcur.2.2.1, hsid]))
  · refine ⟨hfence, hb.parent_ne, ?_, ?_, fun r hr => ?_, ?_⟩
    · cases hbase : op.base with
      | none => exact (hb.creates hbase).2.2
      | some b =>
          obtain ⟨n, s, hcur, -, -, hsize⟩ := hb.replaces b (by simp [hbase])
          have hmem := Table.mem_of_get hcur.1
          rw [hsize]
          exact (hs.files n hmem hcur.2.1 (hs.kind_of_snapshot hmem hcur.2.2.1)).1
    · intro page hp
      rw [hb.pages] at hp
      exact absurd hp List.not_mem_nil
    · exact absurd (hb.sealed.symm.trans hr) (by simp)
    · intro x hx
      rw [hb.allocations] at hx
      exact absurd hx List.not_mem_nil
  · intro b hbm s hsget
    obtain ⟨n, t, hcur, htid, hep, hsize⟩ := hb.replaces b hbm
    have hst : s = t := Option.some.inj (hsget.symm.trans (htid ▸ hcur.2.2.2))
    subst hst
    have hfile : s.file = op.file := hs.current_file hcur
    refine ⟨hfile, hep, ?_⟩
    rw [hsize]
    exact hs.blockSizes s (Table.mem_of_get hsget) n (hfile ▸ hcur.1)
  · obtain ⟨hf, -⟩ := hb.creates hbase
    refine ⟨get_none_of_unused_node (a := a) hf.2, fun s hs' he => ?_, fun o ho he => ?_⟩
    · exact Mentions.not_snapshot hf.2 hs' (by simp [Snapshot.ids, he])
    · exact absurd (by simp [Operation.ids, he]) (Mentions.not_upload hf.2 ho)
  · intro o ho hu hbase hfile
    cases hob : op.base with
    | none =>
        refine absurd ?_ (Mentions.not_upload (hb.creates hob).1.2 ho)
        simp [Operation.ids, hfile]
    | some b =>
        obtain ⟨n, s, hcur, -⟩ := hb.replaces b (by simp [hob])
        have := (hs.uploadNew o ho hu hbase).1
        rw [← hfile, hcur.1] at this
        cases this
  all_goals
    intros
    simp_all [hb.allocations]

theorem beginUpload (hs : Sound app a) {op : Operation} {f : Fence} {l : Lock}
    (hb : BeginUploadOk app a op f l) :
    Sound app
      { a with
        issued := a.issued + 1, locks := a.locks.put l, uploads := a.uploads.put op } := by
  refine hs.putPlanned hb.toPlanned (Nat.le_succ _) (hs.acquire hb.acquire)
    (fun _ => by rw [hb.fence]; rfl) (fun h => absurd (hb.leased.symm.trans h) (by decide))
    fun g hg => ?_
  rw [hb.fence] at hg
  cases hg
  have hid : f.lockId = l.id := hb.matches_.1
  refine ⟨hid ▸ hb.acquire.id_eq ▸ issued_next, fun m hm => ?_⟩
  have hml : m = l := Option.some.inj (hm.symm.trans (hid ▸ Table.get_put_self a.locks l))
  rw [hml]
  exact ⟨hb.matches_, hb.whole, hb.file_eq, hb.owner_eq⟩

theorem beginPlain (hs : Sound app a) {op : Operation} (hr : app.rf3 = false)
    (hb : Planned app a op) (hf : op.fullFence = none) :
    Sound app { a with uploads := a.uploads.put op } :=
  hs.putPlanned hb le_rfl hs (fun h => absurd (hr.symm.trans h) (by decide)) (fun _ => hf)
    fun f h => absurd (hf.symm.trans h) (by simp)

/-! ## Exclusion -/

/-- Two writes that hold their leases on one file hold locks that do not exclude each other. -/
theorem fences_compatible (hs : Sound app a) {o op : Operation} (ho : o ∈ a.uploads.all)
    (hop : op ∈ a.uploads.all) (hw : o.writing) (hwp : op.writing) (hh : Held a o)
    (hhp : Held a op) (hf : o.file = op.file) (hne : o.id ≠ op.id) {f g : Fence}
    (hfm : f ∈ o.fences) (hgm : g ∈ op.fences) :
    (f.wholeFile = false ∧ g.wholeFile = false) ∧
      ¬ (f.includesSize = true ∧ g.includesSize = true) ∧
        ∀ i ∈ f.blockIndices, i ∉ g.blockIndices := by
  have lock : ∀ {x : Operation}, x ∈ a.uploads.all → x.writing → Held a x → ∀ {e : Fence},
      e ∈ x.fences → ∃ l ∈ a.locks.all, a.liveLock l ∧ e.matchesLock l ∧ l.handle = x.handle ∧
        l.file = x.file := by
    intro x hx hxw hxh e he
    have hk : e.lockId ∈ x.locks := by
      rw [(hs.writeShape x hx hxw).locks_eq]
      exact List.mem_map_of_mem he
    obtain ⟨l, hl, hlive⟩ := hxh.2 _ hk
    obtain ⟨-, hmatch⟩ := hs.writeFence x hx hxw e he
    obtain ⟨h1, h2, h3⟩ := hmatch l hl
    exact ⟨l, Table.mem_of_get hl, hlive, h1, h2, h3⟩
  obtain ⟨l, hl, hlive, hlm, hlh, hlf⟩ := lock ho hw hh hfm
  obtain ⟨m, hm, hmlive, hmm, hmh, hmf⟩ := lock hop hwp hhp hgm
  -- One handle is busy with one write, so the two handles differ.
  have hhandle : o.handle ≠ op.handle := by
    intro he
    obtain ⟨⟨x, hx, hxc, -⟩, -⟩ := hh
    have hxid := handle_id_of_get hx
    have h1 := hs.busy_of_open (hxid ▸ hx) ho hw hxid.symm hxc
    have h2 := hs.busy_of_open (hxid ▸ hx) hop hwp (he.symm.trans hxid.symm) hxc
    exact hne (Option.some.inj (h1.1.symm.trans h2.1))
  have howner : l.owner ≠ m.owner := by
    intro he
    have : l.handle = m.handle := congrArg Owner.id he
    exact hhandle (hlh.symm.trans (this.trans hmh))
  obtain ⟨c1, c2, c3, c4⟩ := hs.exclusive l hl m hm hlive hmlive
    (hlf.trans (hf.trans hmf.symm)) howner
  obtain ⟨-, -, -, -, -, e1, e2, e3⟩ := hlm
  obtain ⟨-, -, -, -, -, g1, g2, g3⟩ := hmm
  rw [e1, e2, e3, g1, g2, g3]
  exact ⟨⟨c1, c2⟩, c3, c4⟩

/-- Two writes that hold their leases on one file touch different blocks. -/
theorem parts_disjoint (hs : Sound app a) {o op : Operation} (ho : o ∈ a.uploads.all)
    (hop : op ∈ a.uploads.all) (hw : o.writing) (hwp : op.writing) (hh : Held a o)
    (hhp : Held a op) (hf : o.file = op.file) (hne : o.id ≠ op.id) {p q : Part}
    (hp : p ∈ o.parts) (hq : q ∈ op.parts) : p.part.blockIndex ≠ q.part.blockIndex := by
  obtain ⟨f, hfm, hfc⟩ := (hs.writeShape o ho hw).covered p hp
  obtain ⟨g, hgm, hgc⟩ := (hs.writeShape op hop hwp).covered q hq
  obtain ⟨⟨h1, h2⟩, -, h4⟩ := hs.fences_compatible ho hop hw hwp hh hhp hf hne hfm hgm
  intro he
  rcases hfc with hfc | hfc
  · rw [h1] at hfc
    cases hfc
  · rcases hgc with hgc | hgc
    · rw [h2] at hgc
      cases hgc
    · exact h4 _ hfc (he ▸ hgc)

/-- Not both of them grow the file. -/
theorem not_both_growing (hs : Sound app a) {o op : Operation} (ho : o ∈ a.uploads.all)
    (hop : op ∈ a.uploads.all) (hw : o.writing) (hwp : op.writing) (hh : Held a o)
    (hhp : Held a op) (hf : o.file = op.file) (hne : o.id ≠ op.id) (hg : o.growing = true) :
    op.growing = false := by
  cases hgp : op.growing with
  | false => rfl
  | true =>
      obtain ⟨f, hfm, hfs⟩ := (hs.writeShape o ho hw).sized hg
      obtain ⟨g, hgm, hgs⟩ := (hs.writeShape op hop hwp).sized hgp
      exact absurd ⟨hfs, hgs⟩ (hs.fences_compatible ho hop hw hwp hh hhp hf hne hfm hgm).2.1

/-- A live lock on the whole file, or none live at all, leaves no write holding its leases. -/
theorem not_held_of_whole (hs : Sound app a) {op : Operation} (ho : op ∈ a.uploads.all)
    (hw : op.writing) {l : Lock} (hl : l ∈ a.locks.all) (hlive : a.liveLock l)
    (hwhole : l.whole = true) (hf : l.file = op.file) (hne : l.handle ≠ op.handle) :
    ¬ Held a op := by
  intro hh
  obtain ⟨f, hfm⟩ := List.exists_mem_of_ne_nil _ (hs.writeShape op ho hw).fences_ne
  have hk : f.lockId ∈ op.locks := by
    rw [(hs.writeShape op ho hw).locks_eq]
    exact List.mem_map_of_mem hfm
  obtain ⟨m, hm, hmlive⟩ := hh.2 _ hk
  obtain ⟨-, hmatch⟩ := hs.writeFence op ho hw f hfm
  obtain ⟨-, hmh, hmf⟩ := hmatch m hm
  have hc := hs.exclusive l hl m (Table.mem_of_get hm) hlive hmlive (hf.trans hmf.symm) fun he =>
    hne ((congrArg Owner.id he : l.handle = m.handle).trans hmh)
  exact absurd (hwhole.symm.trans hc.1) (by decide)

theorem not_held_of_unlocked (hs : Sound app a) {op : Operation} (ho : op ∈ a.uploads.all)
    (hw : op.writing) (hl : ∀ l ∈ a.locks.all, l.file = op.file → ¬ a.liveLock l) :
    ¬ Held a op := by
  intro hh
  obtain ⟨f, hfm⟩ := List.exists_mem_of_ne_nil _ (hs.writeShape op ho hw).fences_ne
  have hk : f.lockId ∈ op.locks := by
    rw [(hs.writeShape op ho hw).locks_eq]
    exact List.mem_map_of_mem hfm
  obtain ⟨m, hm, hmlive⟩ := hh.2 _ hk
  obtain ⟨-, -, hmf⟩ := (hs.writeFence op ho hw f hfm).2 m hm
  exact hl m (Table.mem_of_get hm) hmf hmlive

/-! ## Committing a write -/

section CommitWrite

variable {op : Operation} {h : Handle} {n : Node} {s c : Snapshot}
  {replacements blocks : List BlockRef}

/-- A write that commits holds its leases. -/
theorem held_of_commit (hs : Sound app a) (hc : CommitWriteOk a op h n s c replacements blocks) :
    Held a op := by
  refine ⟨⟨h, hc.handle, hc.isOpen, hc.live⟩, fun k hk => ?_⟩
  rw [(hs.writeShape op (Table.mem_of_get hc.stored) ⟨hc.kind, hc.state⟩).locks_eq] at hk
  obtain ⟨f, hf, rfl⟩ := List.mem_map.mp hk
  exact hc.fences f hf

/-- What a committing write knows of its file. -/
theorem commit_facts (hs : Sound app a)
    (hc : CommitWriteOk a op h n s c replacements blocks) :
    h.file = op.file ∧ c.file = h.file ∧ op.epoch = c.ref.contentEpoch ∧
      op.baseSize ≤ c.ref.sizeBytes ∧ c.ref.blockSizeBytes = op.blockSize ∧
      n.blockSize = op.blockSize ∧ op.base = some h.snapshot := by
  have ho := Table.mem_of_get hc.stored
  have hw : op.writing := ⟨hc.kind, hc.state⟩
  have hcf : c.file = h.file := hs.current_file hc.current
  obtain ⟨g, hg, hgf, hgb⟩ := hs.writeHandle op ho hw
  have hgh : g = h := Option.some.inj (hg.symm.trans hc.handle)
  subst hgh
  obtain ⟨-, -, hbase⟩ := hgb hc.isOpen
  obtain ⟨he, -, hb⟩ := hs.writeBase op ho hw g.snapshot (by simp [hbase]) s hc.snap
  have hep : op.epoch = c.ref.contentEpoch := he.symm.trans hc.epoch_current.symm
  have hsf : s.file = g.file := hs.handleFile g (Table.mem_of_get hg) s hc.snap
  have hsn := hs.blockSizes s (Table.mem_of_get hc.snap) n (hsf ▸ hc.current.1)
  have hcn := hs.blockSizes c (Table.mem_of_get hc.current.2.2.2) n (hcf ▸ hc.current.1)
  refine ⟨hgf, hcf, hep, ?_, hcn.trans (hsn.symm.trans hb), hsn.symm.trans hb, hbase⟩
  rcases hs.writeOrder op ho hw n c (hgf ▸ hc.current.1) hc.current.2.2.1 hc.current.2.2.2 with
    hlt | ⟨-, hle⟩
  · omega
  · exact hle

/-- The new blocks of a write take the places of its parts. -/
theorem replaces_of_commit (hs : Sound app a)
    (hc : CommitWriteOk a op h n s c replacements blocks) :
    ∀ x ∈ op.parts.zip replacements, Replaces h.file x := by
  have shape := hs.writeShape op (Table.mem_of_get hc.stored) ⟨hc.kind, hc.state⟩
  obtain ⟨hfile, -⟩ := hs.commit_facts hc
  rintro ⟨p, r⟩ hx
  obtain ⟨h1, h2, h3, h4, -⟩ := hc.replaces _ hx
  obtain ⟨r1, r2, r3⟩ := shape.replacement p (List.of_mem_zip hx).1
  exact ⟨h3, h2.trans (r1.trans hfile.symm), fun he => r3 (h1.symm.trans he), h4.trans r2⟩

/-- The manifest a write publishes. -/
theorem manifest_of_commit (hs : Sound app a)
    (hc : CommitWriteOk a op h n s c replacements blocks) :
    Manifest h.file (max c.ref.sizeBytes op.total) op.blockSize blocks := by
  have shape := hs.writeShape op (Table.mem_of_get hc.stored) ⟨hc.kind, hc.state⟩
  obtain ⟨-, hcf, -, hle, hcb, -⟩ := hs.commit_facts hc
  have hm := (hs.snapshotShape c (Table.mem_of_get hc.current.2.2.2)).manifest
  rw [hcf, hcb] at hm
  have hoff := shape.offset_le
  have := Manifest.merge (block_pos shape.block_mem) hm shape.partition (by omega)
    shape.base_index hc.length_eq (hs.replaces_of_commit hc) hc.merged
  rwa [show max c.ref.sizeBytes op.total = max c.ref.sizeBytes (op.offset + op.length) by
    rw [shape.total_eq]; omega]

/-- Another write that holds its leases finds in the new snapshot what it needs. -/
theorem serves_of_commit (hs : Sound app a)
    (hc : CommitWriteOk a op h n s c replacements blocks) {o : Operation}
    (ho : o ∈ a.uploads.all) (hw : o.writing) (hf : o.file = op.file) (hne : o.id ≠ op.id)
    (hh : Held a o) {root : Id} :
    Serves o ⟨root, h.file, writtenRef app op c root h.file blocks, blocks⟩ := by
  have hop := Table.mem_of_get hc.stored
  have hwp : op.writing := ⟨hc.kind, hc.state⟩
  have shape := hs.writeShape op hop hwp
  have hhp := hs.held_of_commit hc
  obtain ⟨hfile, -, hep, hle, -⟩ := hs.commit_facts hc
  obtain ⟨m, d, hcur, h1, h2, h3⟩ := hs.writeCurrent o ho hw hh
  obtain ⟨-, rfl⟩ := Current.unique (hf ▸ hfile ▸ hc.current) hcur
  refine ⟨hep.trans h1, fun p hp => ?_, fun hg => ?_⟩
  · have hkeep : blocks[p.base.blockIndex]? = d.blocks[p.base.blockIndex]? := by
      refine getElem?_mergeParts hc.merged ?_
      rintro ⟨q, r⟩ hx
      have hq := (List.of_mem_zip hx).1
      rw [shape.base_index q hq, (hs.writeShape o ho hw).base_index p hp]
      exact (hs.parts_disjoint ho hop hw hwp hh hhp hf hne hp hq).symm
    have hbase := h2 p hp
    unfold baseOf at hbase ⊢
    rw [hkeep]
    exact hbase
  · -- The other write grows the file, so this one does not.
    have hng := hs.not_both_growing ho hop hw hwp hh hhp hf hne hg
    have hend : ¬ op.baseSize < op.offset + op.length := fun hlt => by
      rw [shape.growing_iff.mpr hlt] at hng
      cases hng
    change max d.ref.sizeBytes op.total = o.baseSize
    rw [shape.total_eq, ← h3 hg]
    omega

theorem commitWrite (hs : Sound app a) {n' : Node} (result : Option CommitResult)
    (hc : CommitWriteOk a op h n s c replacements blocks) (same : SameNode n' n)
    (halive : n'.alive = true) (hsnap : n'.snapshot = some (app.uuid a.issued)) :
    Sound app
      { a with
        issued := a.issued + 1,
        snapshots := a.snapshots.put ⟨app.uuid a.issued, h.file,
          writtenRef app op c (app.uuid a.issued) h.file blocks, blocks⟩,
        nodes := a.nodes.put n',
        handles := a.handles.put
          { h with snapshot := app.uuid a.issued, revision := h.revision + 1 },
        uploads := a.uploads.put
          { op with state := .committed, result := result, reserved := 0 } } := by
  have hop := Table.mem_of_get hc.stored
  have hwp : op.writing := ⟨hc.kind, hc.state⟩
  have shape := hs.writeShape op hop hwp
  obtain ⟨hfile, hcf, hep, hle, hcb, hnb, -⟩ := hs.commit_facts hc
  have hnid : n'.id = h.file := same.1.trans (node_id_of_get hc.current.1)
  have hnkind : n'.kind = .file :=
    same.2.1.trans (hs.kind_of_snapshot (Table.mem_of_get hc.current.1) hc.current.2.2.1)
  -- The operation ends before its snapshot is published, so it no longer counts as a write.
  have h1 : Sound app
      { a with
        uploads := a.uploads.put
          { op with state := .committed, result := result, reserved := 0 } } :=
    hs.settle hc.stored (by rw [hc.state]; decide) rfl rfl rfl (by simp) rfl rfl rfl
  have others : ∀ o ∈ (a.uploads.put
      { op with state := .committed, result := result, reserved := 0 }).all,
      o.state = .preparing → o ∈ a.uploads.all ∧ o.id ≠ op.id := by
    intro o ho hst
    rcases Table.mem_put.mp ho with rfl | ⟨ho, hne⟩
    · cases hst
    · exact ⟨ho, hne⟩
  have hnewer : NotNewer c.ref.contentEpoch c.ref.sizeBytes
      ⟨app.uuid a.issued, h.file, writtenRef app op c (app.uuid a.issued) h.file blocks, blocks⟩ :=
    .inr ⟨hep.symm, Nat.le_max_left _ _⟩
  have h2 := h1.publish (s := ⟨app.uuid a.issued, h.file,
      writtenRef app op c (app.uuid a.issued) h.file blocks, blocks⟩) (n := n')
    { id_eq := rfl
      shape := ⟨rfl, rfl, rfl, shape.block_mem, hs.manifest_of_commit hc⟩
      node_id := hnid
      snapshot := hsnap
      alive := halive
      kind := hnkind
      block_eq := (same.2.2.2.trans hnb).symm
      old := .inl ⟨n, hnid ▸ hc.current.1, same⟩
      recorded := fun b hb => by
        rcases mem_mergeParts hc.merged hb with hb | ⟨x, hx, rfl⟩
        · exact hs.recorded c (Table.mem_of_get hc.current.2.2.2) b hb
        · obtain ⟨-, -, -, -, r, hr, -⟩ := hc.replaces x hx
          exact Option.isSome_iff_exists.mpr ⟨r, hr⟩
      origins := fun b hb => by
        rcases mem_mergeParts hc.merged hb with hb | ⟨⟨p, r⟩, hx, rfl⟩
        · have := h1.origins c (Table.mem_of_get hc.current.2.2.2) b hb
          rwa [hcf] at this
        · refine ⟨_, Table.mem_put.mpr (.inl rfl), rfl, hfile.symm,
            (p.part.blockIndex, p.replacement), ?_, (hc.replaces _ hx).1.symm⟩
          rw [shape.allocations]
          exact List.mem_map_of_mem (List.of_mem_zip hx).1
      newest := fun t ht htf =>
        (hs.order t ht n c ((show t.file = h.file from htf) ▸ hc.current.1) hc.current.2.2.1
          hc.current.2.2.2).trans hnewer
      writes := fun o ho hw hof => by
        obtain ⟨ho', hne⟩ := others o ho hw.2
        have hof' : o.file = h.file := hof
        refine ⟨(hs.writeOrder o ho' hw n c (hof' ▸ hc.current.1) hc.current.2.2.1
          hc.current.2.2.2).trans hnewer, fun hh => ?_⟩
        exact hs.serves_of_commit hc ho' hw (hof'.trans hfile) hne hh
      uploads := fun o ho hu hb hof => by
        obtain ⟨ho', -⟩ := others o ho hu.2
        have := (hs.uploadNew o ho' hu hb).1
        rw [show o.file = h.file from hof, hc.current.1] at this
        cases this }
  -- Last, the handle moves to the new snapshot.
  have hid : h.id = op.handle := handle_id_of_get hc.handle
  refine h2.rehandle (h := { h with snapshot := app.uuid a.issued, revision := h.revision + 1 })
    (g := h) ((congrArg _ hid).trans hc.handle) rfl ?_ (fun hcl hl => ⟨hcl, hl⟩) ?_ (fun _ _ => ?_) ?_
  · intro id hi
    simp only [Handle.ids, List.mem_cons, Option.mem_toList] at hi
    have hdrawn := hs.ids.handles h (Table.mem_of_get hc.handle)
    rcases hi with rfl | rfl | hi
    · exact (hdrawn _ (by simp [Handle.ids])).more
    · exact issued_next
    · exact (hdrawn id (by simp_all [Handle.ids])).more
  · intro o ho hw hoh hcl
    obtain ⟨ho', hne⟩ := others o ho hw.2
    have hb := (hs.busy_of_open (h := h) (hid ▸ hc.handle) ho' hw hoh hcl).1
    exact absurd (Option.some.inj (hb.symm.trans hc.busy)) hne
  · exact Option.isSome_iff_exists.mpr ⟨_, Table.get_put_self _ _⟩
  · intro t ht
    have : t = ⟨app.uuid a.issued, h.file, writtenRef app op c (app.uuid a.issued) h.file blocks, blocks⟩ :=
      Option.some.inj (ht.symm.trans (Table.get_put_self a.snapshots _))
    rw [this]

end CommitWrite

/-! ## Committing an upload -/

/-- The blocks of an upload, each of them allocated for its place, make a manifest. -/
theorem manifest_of_upload {op : Operation} (shape : UploadShape app op) {blocks : List BlockRef}
    (hcount : blocks.length = blockCount op.total op.blockSize)
    (hindex : blocks.map BlockRef.blockIndex = List.range blocks.length)
    (hpaged : ∀ b ∈ blocks, ∃ page ∈ op.pages, b ∈ page.2) :
    Manifest op.file op.total op.blockSize blocks := by
  have alloc : ∀ b ∈ blocks, b.fileId = op.file ∧
      b.sizeBytes = min op.blockSize (op.total - b.blockIndex * op.blockSize) ∧
        b.blockVersionId ≠ 0 := by
    intro b hb
    obtain ⟨page, hp, hbp⟩ := hpaged b hb
    obtain ⟨i, hi⟩ := shape.paged page hp b hbp
    obtain ⟨h1, -, h3, h4⟩ := shape.allocated _ hi
    exact ⟨h1, h3, h4⟩
  have place : ∀ (i : Nat) (b : BlockRef), blocks[i]? = some b → b.blockIndex = i := by
    intro i b hb
    have hi : i < blocks.length := (List.getElem?_eq_some_iff.mp hb).1
    have := congrArg (fun l => l[i]?) hindex
    simp only [List.getElem?_map, hb, Option.map_some, List.getElem?_range hi,
      Option.some.injEq] at this
    exact this
  refine ⟨⟨by rw [List.length_map]; exact hcount, fun i size hsz => ?_⟩, fun i b hb => ?_⟩
  · rw [List.getElem?_map] at hsz
    obtain ⟨b, hb, rfl⟩ := Option.map_eq_some_iff.mp hsz
    rw [(alloc b (List.mem_of_getElem? hb)).2.1, place i b hb]
  · obtain ⟨h1, -, h3⟩ := alloc b (List.mem_of_getElem? hb)
    exact ⟨place i b hb, h1, h3⟩

theorem commitUpload (hs : Sound app a) {op : Operation} {n : Node} {s : Snapshot}
    (result : Option CommitResult) (hc : CommitUploadOk a op n s.blocks)
    (hu : UploadedRef app a op n s) :
    Sound app
      { a with
        issued := a.issued + 1, snapshots := a.snapshots.put s, nodes := a.nodes.put n,
        uploads := a.uploads.put
          { op with state := .committed, result := result, reserved := 0 } } := by
  obtain ⟨hid, hfile, href, hroot, hepoch, hsize, hblock, hsnap, hhash⟩ := hu
  have hop := Table.mem_of_get hc.stored
  have hup : op.uploading := ⟨hc.kind, hc.state⟩
  have shape := hs.uploadShape op hop hup
  have h1 : Sound app
      { a with
        uploads := a.uploads.put
          { op with state := .committed, result := result, reserved := 0 } } :=
    hs.settle hc.stored (by rw [hc.state]; decide) rfl rfl rfl (by simp) rfl rfl rfl
  have others : ∀ o ∈ (a.uploads.put
      { op with state := .committed, result := result, reserved := 0 }).all,
      o.state = .preparing → o ∈ a.uploads.all ∧ o.id ≠ op.id := by
    intro o ho hst
    rcases Table.mem_put.mp ho with rfl | ⟨ho, hne⟩
    · cases hst
    · exact ⟨ho, hne⟩
  -- The upload's lock is live and on the whole file, so no write there holds its leases.
  have nobody : ∀ o ∈ a.uploads.all, o.writing → o.file = op.file → ¬ Held a o := by
    intro o ho hw hf
    have hr : app.rf3 = true := Bool.not_eq_false _ |>.mp fun hr =>
      absurd (hw.1.symm.trans (hs.plain hr o ho).1) (by decide)
    obtain ⟨f, hff⟩ := Option.isSome_iff_exists.mp (shape.fence hr)
    obtain ⟨l, hl, hlive⟩ := hc.lock f hff
    obtain ⟨-, hmatch⟩ := hs.uploadFence op hop hup f hff
    obtain ⟨-, hwhole, hlf, hlh⟩ := hmatch l hl
    refine hs.not_held_of_whole ho hw (Table.mem_of_get hl) hlive hwhole (hlf.trans hf.symm) ?_
    intro he
    obtain ⟨g, hg, -⟩ := hs.writeHandle o ho hw
    rw [← he, hlh, hs.owners op hop] at hg
    cases hg
  -- Whatever was current for the file is older.
  have newer : ∀ (x : Node) (c : Snapshot), a.nodes.get op.file = some x →
      x.snapshot = some c.id → a.snapshots.get c.id = some c → ∀ {e z : Nat},
        NotNewer e z c → NotNewer e z s := by
    intro x c hx hxs hget e z hle
    cases hb : op.base with
    | none =>
        rw [(hs.uploadNew op hop hup hb).1] at hx
        cases hx
    | some b =>
        obtain ⟨m, hm, -, hms, -⟩ := hc.replaces b (by simp [hb])
        have hxm : x = m := Option.some.inj (hx.symm.trans hm)
        subst hxm
        have hcid : c.id = b := Option.some.inj (hxs.symm.trans hms)
        obtain ⟨-, hep, -⟩ := hs.uploadBase op hop hup b (by simp [hb]) c (hcid ▸ hget)
        refine hle.trans (.inl ?_)
        rw [hepoch, hep]
        exact Nat.lt_succ_self _
  -- A snapshot or a write of the file means that the file exists and has a current snapshot.
  have current : ∀ b, op.base = some b → ∃ x c, a.nodes.get op.file = some x ∧ x.alive = true ∧
      x.snapshot = some c.id ∧ a.snapshots.get c.id = some c ∧ SameNode n x ∧
        x.blockSize = op.blockSize := by
    intro b hb
    obtain ⟨m, hm, hma, hms, same⟩ := hc.replaces b (by simp [hb])
    have hmem := Table.mem_of_get hm
    obtain ⟨-, c, hcs, hget, hcf⟩ := hs.files m hmem hma (hs.kind_of_snapshot hmem hms)
    have hcid : c.id = b := Option.some.inj (hcs.symm.trans hms)
    have hbs := hs.blockSizes c (Table.mem_of_get hget) m (by
      rw [hcf, node_id_of_get hm]; exact hm)
    obtain ⟨-, -, hsz⟩ := hs.uploadBase op hop hup b (by simp [hb]) c (hcid ▸ hget)
    exact ⟨m, c, hm, hma, hcs, hget, same, hbs.symm.trans hsz⟩
  refine h1.publish (s := s) (n := n)
    { id_eq := hid
      shape := ⟨hroot, href, ?_, hblock ▸ shape.block_mem, ?_⟩
      node_id := hc.node_id.trans hfile.symm
      snapshot := hsnap
      alive := hc.alive
      kind := ?_
      block_eq := ?_
      old := ?_
      recorded := hc.recorded
      origins := fun b hb => ?_
      newest := fun t ht htf => ?_
      writes := fun o ho hw hof => ?_
      uploads := fun o ho hu hb hof => ?_ }
  · obtain ⟨r, hr, he⟩ := Option.map_eq_some_iff.mp hhash
    rw [← he, shape.hash r hr, hc.assembled]
  · rw [hfile, hsize, hblock]
    exact manifest_of_upload shape hc.count hc.indexed hc.paged
  · cases hb : op.base with
    | none => exact (hc.creates hb).1
    | some b =>
        obtain ⟨x, c, hx, -, hxs, -, same, -⟩ := current b hb
        exact same.2.1.trans (hs.kind_of_snapshot (Table.mem_of_get hx) hxs)
  · cases hb : op.base with
    | none => exact hblock.trans (hc.creates hb).2.symm
    | some b =>
        obtain ⟨x, c, -, -, -, -, same, hxb⟩ := current b hb
        rw [hblock, same.2.2.2, hxb]
  · cases hb : op.base with
    | none =>
        obtain ⟨hn1, hn2, -⟩ := hs.uploadNew op hop hup hb
        refine .inr ⟨hc.node_id ▸ hn1, ?_, hc.node_id ▸ hn2⟩
        exact hs.ids.uploads op hop _ (by simp [Operation.ids, hc.node_id])
    | some b =>
        obtain ⟨x, c, hx, -, -, -, same, -⟩ := current b hb
        exact .inl ⟨x, hc.node_id ▸ hx, same⟩
  · obtain ⟨page, hp, hbp⟩ := hc.paged b hb
    obtain ⟨i, hi⟩ := shape.paged page hp b hbp
    exact ⟨_, Table.mem_put.mpr (.inl rfl), rfl, hfile.symm, (i, b), hi, rfl⟩
  · have htf' : t.file = op.file := htf.trans hfile
    cases hb : op.base with
    | none => exact absurd htf' ((hs.uploadNew op hop hup hb).2.1 t ht)
    | some b =>
        obtain ⟨x, c, hx, -, hxs, hget, -⟩ := current b hb
        exact newer x c hx hxs hget (hs.order t ht x c (htf' ▸ hx) hxs hget)
  · obtain ⟨ho', hne⟩ := others o ho hw.2
    have hof' : o.file = op.file := hof.trans hfile
    refine ⟨?_, fun hh => absurd hh (nobody o ho' hw hof')⟩
    cases hb : op.base with
    | none => exact absurd ((hs.uploadNew op hop hup hb).2.2 o ho' hof') hne
    | some b =>
        obtain ⟨x, c, hx, -, hxs, hget, -⟩ := current b hb
        exact newer x c hx hxs hget (hs.writeOrder o ho' hw x c (hof' ▸ hx) hxs hget)
  · obtain ⟨ho', hne⟩ := others o ho hu.2
    exact hne ((hs.uploadNew o ho' hu hb).2.2 op hop (hfile.symm.trans hof.symm)).symm

/-! ## Opening in a creating mode -/

/-- A manifest without blocks is the one of an empty file. -/
theorem manifest_nil (file : Id) {B : Nat} (hB : 0 < B) : Manifest file 0 B [] where
  cut :=
    { count := by
        rw [List.map_nil, List.length_nil, Nat.zero_add]
        exact (Nat.div_eq_of_lt (by omega)).symm
      each := fun i s h => by simp at h }
  index := fun i b h => by simp at h

theorem shape_of_empty {s : Snapshot} {n : Node} (he : EmptyOk app a s n)
    (hb : n.blockSize ∈ profiles) : SnapshotShape app s := by
  refine ⟨he.root_eq, he.ref_file, he.hash, he.block_eq ▸ hb, ?_⟩
  rw [he.size, he.blocks]
  exact manifest_nil _ (block_pos (he.block_eq ▸ hb))

theorem createFile (hs : Sound app a) {n : Node} {s : Snapshot} (hf : Fresh app a n.id)
    (he : EmptyOk app a s n) (hk : n.kind = .file) (hb : n.blockSize ∈ profiles) :
    Sound app
      { a with
        issued := a.issued + 1, snapshots := a.snapshots.put s, nodes := a.nodes.put n } := by
  have noSnap : ∀ t ∈ a.snapshots.all, t.file ≠ n.id := fun t ht htf =>
    Mentions.not_snapshot hf.2 ht (by simp [Snapshot.ids, htf])
  have noOp : ∀ o ∈ a.uploads.all, o.file ≠ n.id := fun o ho hof =>
    Mentions.not_upload hf.2 ho (by simp [Operation.ids, hof])
  exact hs.publish (s := s) (n := n)
    { id_eq := he.id_eq
      shape := shape_of_empty he hb
      node_id := he.file_eq.symm
      snapshot := he.node
      alive := he.alive
      kind := hk
      block_eq := he.block_eq
      old := .inr ⟨get_none_of_unused_node hf.2, hf.1, noSnap⟩
      recorded := fun b hbm => by
        rw [he.blocks] at hbm
        exact absurd hbm List.not_mem_nil
      origins := fun b hbm => by
        rw [he.blocks] at hbm
        exact absurd hbm List.not_mem_nil
      newest := fun t ht htf => absurd (htf.trans he.file_eq) (noSnap t ht)
      writes := fun o ho _ hof => absurd (hof.trans he.file_eq) (noOp o ho)
      uploads := fun o ho _ _ hof => absurd (hof.trans he.file_eq) (noOp o ho) }

theorem truncate (hs : Sound app a) {n m : Node} {s c : Snapshot} (hc : Current a n.id m c)
    (same : SameNode n m) (hk : m.kind = .file) (he : EmptyOk app a s n)
    (hep : s.ref.contentEpoch = c.ref.contentEpoch + 1)
    (hl : ∀ l ∈ a.locks.all, l.file = n.id → ¬ a.liveLock l) :
    Sound app
      { a with
        issued := a.issued + 1, snapshots := a.snapshots.put s, nodes := a.nodes.put n } := by
  have hmem := Table.mem_of_get hc.1
  have hb : n.blockSize ∈ profiles := by
    rw [same.2.2.2]
    exact (hs.files m hmem hc.2.1 hk).1
  have hnewer : NotNewer c.ref.contentEpoch c.ref.sizeBytes s := .inl (by omega)
  exact hs.publish (s := s) (n := n)
    { id_eq := he.id_eq
      shape := shape_of_empty he hb
      node_id := he.file_eq.symm
      snapshot := he.node
      alive := he.alive
      kind := same.2.1.trans hk
      block_eq := he.block_eq
      old := .inl ⟨m, hc.1, same⟩
      recorded := fun b hbm => by
        rw [he.blocks] at hbm
        exact absurd hbm List.not_mem_nil
      origins := fun b hbm => by
        rw [he.blocks] at hbm
        exact absurd hbm List.not_mem_nil
      newest := fun t ht htf =>
        (hs.order t ht m c (htf.trans he.file_eq ▸ hc.1) hc.2.2.1 hc.2.2.2).trans hnewer
      writes := fun o ho hw hof => by
        have hof' : o.file = n.id := hof.trans he.file_eq
        refine ⟨(hs.writeOrder o ho hw m c (hof' ▸ hc.1) hc.2.2.1 hc.2.2.2).trans hnewer, ?_⟩
        exact fun hh => absurd hh (hs.not_held_of_unlocked ho hw (hof' ▸ hl))
      uploads := fun o ho hu hbase hof => by
        have := (hs.uploadNew o ho hu hbase).1
        rw [hof.trans he.file_eq, hc.1] at this
        cases this }

/-! ## All actions -/

/-- **Every action keeps the invariant.** -/
theorem act {trust : Trust} {a' : Access} (hs : Sound app a)
    (h : Act app trust a a') : Sound app a' := by
  cases h with
  | advance k => exact hs.advance k
  | draw => exact hs.draw
  | sequence n => exact { hs with ids := { hs.ids with } }
  | touchNode hm same ha hsn => exact hs.touchNode hm same ha hsn
  | newDirectory hf hk hsn => exact hs.newDirectory hf hk hsn
  | removeNode hm same ha hsn hop => exact hs.removeNode hm same ha hsn hop
  | acquire hl => exact hs.acquire hl
  | renewLock d hl hlive => exact hs.renewLock hl hlive d
  | setActive x hl => exact hs.setActive hl x
  | dropLock k => exact hs.dropLock k
  | openHandle hf hb hn ha hsn he => exact hs.openHandle hf hn ha hsn he
  | renewHandle d e hg hc hl => exact hs.renewHandle d e hg hc hl
  | renewPlain e r hr hg => exact hs.renewPlain e r hr hg
  | closeHandle r hg => exact hs.closeHandle r hg
  | beginRead hf hg hb _ => exact hs.beginRead hf hg hb
  | endRead hr hg _ => exact hs.endRead hr hg
  | freeHandle hg hb ho hst => exact hs.freeHandle hg hb ho hst
  | recordOp hr _ hf hst hfile hbase ha _ _ => exact hs.recordOp hr hf hst hfile hbase ha
  | beginWrite _ hb => exact hs.beginWrite hb
  | @touchOp op e res hg _ _ => exact hs.touchOp e op.reserved res hg
  | @spendOp op _ r hg _ => exact hs.touchOp op.expires r op.result hg
  | sealOp hg hr _ => exact hs.sealOp hg hr
  | capture p hg hp => exact hs.capture p hg
  | endOp hg hst hend =>
      refine hs.settle hg hst rfl rfl rfl ?_ rfl rfl rfl
      rcases hend with rfl | rfl <;> simp [Operation.ended]
  | stage hg hsl hp => exact hs.stage hg hsl hp
  | allocate h => exact hs.allocate h
  | beginPlain hr _ h hf => exact hs.beginPlain hr h hf
  | beginUpload _ h => exact hs.beginUpload h
  | confirmBlock h => exact hs.confirmBlock h
  | commitWrite result hc same ha hsn => exact hs.commitWrite result hc same ha hsn
  | commitUpload result hc hu => exact hs.commitUpload result hc hu.toUploadedRef
  | createFile hf he hk hb => exact hs.createFile hf he hk hb
  | truncate hc same hk he hep hl => exact hs.truncate hc same hk he hep hl
  | dropSnapshot hn hh => exact hs.dropSnapshot hn hh
  | retireBlock h1 h2 h3 h4 => exact hs.retireBlock h1 h2 h3 h4
  | crash clk _ => exact (hs.crash clk).discharge (List.nil_subset _)
  | admitPut hg ha => exact hs.admitPut hg ha
  | discharge h => exact hs.discharge h
  | newEpoch he => exact hs.newEpoch he

/-- And so does every sequence of actions. -/
theorem acts {trust : Trust} {a' : Access} (hs : Sound app a)
    (h : Acts app trust a a') : Sound app a' := by
  induction h with
  | refl => exact hs
  | tail _ hstep ih => exact ih.act hstep

end Sound

end Dfsha
