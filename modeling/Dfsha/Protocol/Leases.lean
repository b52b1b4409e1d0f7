import Dfsha.Protocol.Sound

/-!
# Time, locks and handles keep the invariant

The actions that only move the clock, change the epoch, or write locks, handles, reads and
block records.  None of them publishes anything, so all that matters is that no lease comes
to life that was dead before: every lock or handle that is live after the action was live
before it, or is new and excludes nobody.
-/

namespace Dfsha

variable {app : App} {a : Access}

/-! ## Leases that were live before -/

/-- A write that holds its leases after an action held them before, if the action brings no
lease to life. -/
theorem Held.mono {a a' : Access} {op : Operation} (h : Held a' op)
    (handles : ∀ h, a'.handles.get op.handle = some h → h.closed = false → a'.liveHandle h →
      ∃ g, a.handles.get op.handle = some g ∧ g.closed = false ∧ a.liveHandle g)
    (locks : ∀ k ∈ op.locks, ∀ l, a'.locks.get k = some l → a'.liveLock l →
      ∃ m, a.locks.get k = some m ∧ a.liveLock m) : Held a op := by
  obtain ⟨⟨g, hg, hc, hl⟩, hlocks⟩ := h
  refine ⟨handles g hg hc hl, fun k hk => ?_⟩
  obtain ⟨l, hget, hlive⟩ := hlocks k hk
  exact locks k hk l hget hlive

/-- The same when the action does not touch the handles. -/
theorem Held.mono_locks {a a' : Access} {op : Operation} (h : Held a' op) (hh : a'.handles = a.handles)
    (alive : ∀ h, a'.liveHandle h → a.liveHandle h)
    (locks : ∀ k ∈ op.locks, ∀ l, a'.locks.get k = some l → a'.liveLock l →
      ∃ m, a.locks.get k = some m ∧ a.liveLock m) : Held a op :=
  h.mono (fun g hg hc hl => ⟨g, hh ▸ hg, hc, alive g hl⟩) locks

namespace Sound

/-- Records that stay while leases only die are still sound. -/
theorem calmer (hs : Sound app a) {clk : Clock} {phase : Nat} {epoch : Option Id}
    (hd : ∀ e ∈ epoch, Issued app a e)
    (live : ∀ c d, (∀ e ∈ c, Mentions a e) →
      ({ a with clk := clk, phase := phase, epoch := epoch } : Access).live c d → a.live c d) :
    Sound app { a with clk := clk, phase := phase, epoch := epoch } := by
  have liveLock : ∀ l ∈ a.locks.all,
      ({ a with clk := clk, phase := phase, epoch := epoch } : Access).liveLock l →
        a.liveLock l := fun l hl h =>
    live _ _ (fun e he => .inl ⟨l, hl, by simp_all [Lock.ids]⟩) h
  have liveHandle : ∀ h ∈ a.handles.all,
      ({ a with clk := clk, phase := phase, epoch := epoch } : Access).liveHandle h →
        a.liveHandle h := fun h hh hl =>
    live _ _ (fun e he => .inr (.inl ⟨h, hh, by simp_all [Handle.ids]⟩)) hl
  exact
    { hs with
      ids := { hs.ids with epoch := hd }
      exclusive := fun l hl m hm h1 h2 =>
        hs.exclusive l hl m hm (liveLock l hl h1) (liveLock m hm h2)
      writeCurrent := fun op ho hw hh => by
        refine hs.writeCurrent op ho hw (hh.mono (fun h hg hc hl => ?_) (fun k _ l hg hl => ?_))
        · exact ⟨h, hg, hc, liveHandle h (Table.mem_of_get hg) hl⟩
        · exact ⟨l, hg, liveLock l (Table.mem_of_get hg) hl⟩
      handleSnap := fun h hh hc hl => hs.handleSnap h hh hc (liveHandle h hh hl) }

theorem advance (hs : Sound app a) (k : Nat) : Sound app (a.later k) :=
  hs.calmer hs.ids.epoch fun _ _ _ h => Access.live_of_later h

theorem crash (hs : Sound app a) (clk : Clock) :
    Sound app { a with epoch := none, clk := clk, phase := 0 } := by
  refine hs.calmer (fun e he => absurd he (by simp)) fun c d _ h => ?_
  have he : c = none := h.2.1
  exact absurd h.1 (by simp [he])

/-- A request is admitted for an allocation that its operation has. -/
theorem admitPut (hs : Sound app a) {op : Operation} {h : PutBlockHeader}
    (hg : a.uploads.get h.operation.operationId = some op)
    (ha : (h.block.blockIndex, h.block) ∈ op.allocations) :
    Sound app { a with admitted := h :: a.admitted } :=
  { hs with
    ids := { hs.ids with }
    admitted := fun x hx => by
      rcases List.mem_cons.mp hx with rfl | hx
      · exact ⟨op, hg, ha⟩
      · exact hs.admitted x hx }

theorem discharge (hs : Sound app a) {rest : List PutBlockHeader} (h : rest ⊆ a.admitted) :
    Sound app { a with admitted := rest } :=
  { hs with
    ids := { hs.ids with }
    admitted := fun x hx => hs.admitted x (h hx) }

/-- A new epoch ends every lease of the one before. -/
theorem newEpoch (hs : Sound app a) {e : Id} (he : Fresh app a e) :
    Sound app { a with epoch := some e } := by
  refine hs.calmer (fun x hx => ?_) fun c d hc h => ?_
  · simp only [Option.mem_def, Option.some.injEq] at hx
    exact hx ▸ he.1
  · exact absurd (hc e h.2.1) he.2

theorem draw (hs : Sound app a) : Sound app { a with issued := a.issued + 1 } :=
  { hs with
    ids := hs.ids.more
    writeFence := fun op ho hw f hf =>
      ⟨(hs.writeFence op ho hw f hf).1.more, (hs.writeFence op ho hw f hf).2⟩
    uploadFence := fun op ho hw f hf =>
      ⟨(hs.uploadFence op ho hw f hf).1.more, (hs.uploadFence op ho hw f hf).2⟩ }

/-! ## Locks -/

/-- The lock of a write is never the next one. -/
theorem lock_ne_next (hs : Sound app a) {op : Operation} (ho : op ∈ a.uploads.all)
    (hw : op.writing) {k : Id} (hk : k ∈ op.locks) : k ≠ app.uuid a.issued := by
  rw [(hs.writeShape op ho hw).locks_eq] at hk
  obtain ⟨f, hf, rfl⟩ := List.mem_map.mp hk
  intro he
  exact not_issued_next (he ▸ (hs.writeFence op ho hw f hf).1)

/-- A new lock that excludes no live lock of another owner. -/
theorem acquire (hs : Sound app a) {l : Lock} (h : AcquireOk app a l) :
    Sound app { a with issued := a.issued + 1, locks := a.locks.put l } := by
  have other : ∀ {k : Id}, Issued app a k → (a.locks.put l).get k = a.locks.get k := fun hk =>
    Table.get_put_of_ne _ fun he => not_issued_next (he.trans h.id_eq ▸ hk)
  have hd := hs.draw
  exact
    { hd with
      ids :=
        { hd.ids with
          locks := Table.forall_put hd.ids.locks fun id hi => by
            simp only [Lock.ids, List.mem_cons, List.not_mem_nil, or_false] at hi
            rcases hi with rfl | rfl | rfl
            · exact h.id_eq ▸ issued_next
            · exact h.owner.more
            · exact (hs.ids.epoch _ h.epoch_eq).more }
      exclusive := by
        intro x hx y hy h1 h2 hf hne
        rcases Table.mem_put.mp hx with rfl | ⟨hx', -⟩ <;>
          rcases Table.mem_put.mp hy with rfl | ⟨hy', -⟩
        · exact absurd rfl hne
        · exact h.compatible y hy' h2 hf.symm hne.symm
        · exact (h.compatible x hx' h1 hf hne).symm
        · exact hs.exclusive x hx' y hy' h1 h2 hf hne
      lockFile := Table.forall_put hs.lockFile h.file_eq
      writeFence := fun op ho hw f hf =>
        ⟨(hd.writeFence op ho hw f hf).1, fun m hm =>
          (hs.writeFence op ho hw f hf).2 m (other (hs.writeFence op ho hw f hf).1 ▸ hm)⟩
      writeCurrent := fun op ho hw hh => by
        refine hs.writeCurrent op ho hw (hh.mono_locks rfl (fun _ h => h) ?_)
        intro k hk m hm hl
        refine ⟨m, ?_, hl⟩
        rwa [Table.get_put_of_ne _ fun he => hs.lock_ne_next ho hw hk (he.trans h.id_eq)] at hm
      uploadFence := fun op ho hw f hf =>
        ⟨(hd.uploadFence op ho hw f hf).1, fun m hm =>
          (hs.uploadFence op ho hw f hf).2 m (other (hs.uploadFence op ho hw f hf).1 ▸ hm)⟩ }

/-- A lock that is written again with another deadline or another list of writes, and is not
brought back to life. -/
theorem relock (hs : Sound app a) {l : Lock} (hl : a.locks.get l.id = some l) (d : Nat)
    (x : List Id) (live : a.liveLock { l with deadline := d, active := x } → a.liveLock l) :
    Sound app { a with locks := a.locks.put { l with deadline := d, active := x } } := by
  -- Whatever the lock table has now, it had before with the same owner and the same blocks.
  have before : ∀ {k : Id} {m : Lock},
      (a.locks.put { l with deadline := d, active := x }).get k = some m →
        ∃ g, a.locks.get k = some g ∧ m = { g with deadline := m.deadline, active := m.active } ∧
          (a.liveLock m → a.liveLock g) := by
    intro k m hm
    rw [Table.get_put] at hm
    split at hm
    · rename_i hk
      cases hm
      exact ⟨l, hk ▸ hl, rfl, live⟩
    · exact ⟨m, hm, rfl, id⟩
  have hmem : ∀ {m : Lock}, m ∈ (a.locks.put { l with deadline := d, active := x }).all →
      ∃ g ∈ a.locks.all, m = { g with deadline := m.deadline, active := m.active } ∧
        (a.liveLock m → a.liveLock g) := by
    intro m hm
    obtain ⟨g, hg, hr⟩ := before (Table.get_of_mem hm)
    exact ⟨g, Table.mem_of_get hg, hr⟩
  exact
    { hs with
      ids :=
        { hs.ids with locks := Table.forall_put hs.ids.locks (hs.ids.locks l (Table.mem_of_get hl)) }
      exclusive := by
        intro m hm n hn h1 h2 hf hne
        obtain ⟨g, hg, he, hlive⟩ := hmem hm
        obtain ⟨g', hg', he', hlive'⟩ := hmem hn
        rw [he, he'] at hf hne ⊢
        exact hs.exclusive g hg g' hg' (hlive h1) (hlive' h2) hf hne
      lockFile := Table.forall_put hs.lockFile (hs.lockFile l (Table.mem_of_get hl))
      writeFence := fun op ho hw f hf => ⟨(hs.writeFence op ho hw f hf).1, fun m hm => by
        obtain ⟨g, hg, he, -⟩ := before hm
        rw [he]
        exact (hs.writeFence op ho hw f hf).2 g hg⟩
      writeCurrent := fun op ho hw hh => by
        refine hs.writeCurrent op ho hw (hh.mono_locks rfl (fun _ h => h) ?_)
        intro k _ m hm hlive
        obtain ⟨g, hg, -, hback⟩ := before hm
        exact ⟨g, hg, hback hlive⟩
      uploadFence := fun op ho hw f hf => ⟨(hs.uploadFence op ho hw f hf).1, fun m hm => by
        obtain ⟨g, hg, he, -⟩ := before hm
        rw [he]
        exact (hs.uploadFence op ho hw f hf).2 g hg⟩ }

theorem renewLock (hs : Sound app a) {l : Lock} (hl : a.locks.get l.id = some l)
    (live : a.liveLock l) (d : Nat) :
    Sound app { a with locks := a.locks.put { l with deadline := d } } :=
  hs.relock hl d l.active fun _ => live

theorem setActive (hs : Sound app a) {l : Lock} (hl : a.locks.get l.id = some l) (x : List Id) :
    Sound app { a with locks := a.locks.put { l with active := x } } :=
  hs.relock hl l.deadline x fun h => h

theorem dropLock (hs : Sound app a) (k : Id) :
    Sound app { a with locks := a.locks.delete k } :=
  { hs with
    ids := { hs.ids with locks := Table.forall_delete hs.ids.locks }
    exclusive := fun l hl m hm =>
      hs.exclusive l (Table.mem_delete.mp hl).1 m (Table.mem_delete.mp hm).1
    lockFile := Table.forall_delete hs.lockFile
    writeFence := fun op ho hw f hf => ⟨(hs.writeFence op ho hw f hf).1, fun l hl =>
      (hs.writeFence op ho hw f hf).2 l (Table.get_of_get_delete hl)⟩
    writeCurrent := fun op ho hw hh =>
      hs.writeCurrent op ho hw <| hh.mono_locks rfl (fun _ h => h)
        fun _ _ l hl hlive => ⟨l, Table.get_of_get_delete hl, hlive⟩
    uploadFence := fun op ho hw f hf => ⟨(hs.uploadFence op ho hw f hf).1, fun l hl =>
      (hs.uploadFence op ho hw f hf).2 l (Table.get_of_get_delete hl)⟩ }

/-! ## Handles and reads -/

theorem openHandle (hs : Sound app a) {h : Handle} {n : Node} (hf : Fresh app a h.id)
    (hn : a.nodes.get h.file = some n) (ha : n.alive = true) (hsn : n.snapshot = some h.snapshot)
    (he : ∀ e ∈ h.controlEpoch, Issued app a e) :
    Sound app { a with handles := a.handles.put h } := by
  have hmem := Table.mem_of_get hn
  have hid : n.id = h.file := node_id_of_get hn
  -- A node with a snapshot is a file, and a live file has its snapshot.
  have hfile : n.kind = .file := by
    cases hk : n.kind with
    | file => rfl
    | directory => exact absurd (hs.directories n hmem hk) (by simp [hsn])
  obtain ⟨-, s, hsid, hsget, hsfile⟩ := hs.files n hmem ha hfile
  have hsnap : s.id = h.snapshot := Option.some.inj (hsid.symm.trans hsn)
  have other : ∀ {k : Id}, k ≠ h.id → (a.handles.put h).get k = a.handles.get k :=
    fun hk => Table.get_put_of_ne _ hk
  exact
    { hs with
      ids :=
        { hs.ids with
          handles := Table.forall_put hs.ids.handles fun id hi => by
            simp only [Handle.ids, List.mem_cons, Option.mem_toList] at hi
            rcases hi with rfl | rfl | hi
            · exact hf.1
            · exact hs.ids.nodes n hmem _ (by simp [Node.ids, hsn])
            · exact he _ hi }
      lockFile := fun l hl g hg => by
        refine hs.lockFile l hl g ?_
        rwa [other fun hk => Mentions.not_lock hf.2 hl (by simp [Lock.ids, hk])] at hg
      owners := fun op ho => by
        rw [other fun hk => Mentions.not_upload hf.2 ho (by simp [Operation.ids, hk])]
        exact hs.owners op ho
      writeHandle := fun op ho hw => by
        obtain ⟨g, hg, hr⟩ := hs.writeHandle op ho hw
        refine ⟨g, ?_, hr⟩
        rw [other fun hk => ?_]
        · exact hg
        · rw [hk, get_none_of_unused_handle hf.2] at hg
          cases hg
      writeCurrent := fun op ho hw hh => by
        obtain ⟨g, hg, -⟩ := hs.writeHandle op ho hw
        have hne : op.handle ≠ h.id := fun hk => by
          rw [hk, get_none_of_unused_handle hf.2] at hg
          cases hg
        refine hs.writeCurrent op ho hw (hh.mono ?_ fun _ _ l hl hlive => ⟨l, hl, hlive⟩)
        intro x hx hc hlive
        exact ⟨x, other hne ▸ hx, hc, hlive⟩
      handleSnap := Table.forall_put hs.handleSnap fun _ _ => by rw [← hsnap, hsget]; rfl
      handleFile := Table.forall_put hs.handleFile fun t ht => by
        rw [← hsnap, hsget] at ht
        cases ht
        exact hsfile.trans hid }

/-- A handle that is written again: it is not brought back to life, no write is left without
it, and it still has a snapshot of its file. -/
theorem rehandle (hs : Sound app a) {h g : Handle} (hg : a.handles.get h.id = some g)
    (hfile : h.file = g.file) (hids : ∀ id ∈ h.ids, Issued app a id)
    (live : h.closed = false → a.liveHandle h → g.closed = false ∧ a.liveHandle g)
    (busy : ∀ op ∈ a.uploads.all, op.writing → op.handle = h.id → h.closed = false →
      h.busy = some op.id ∧ h.revision = op.handleRevision ∧ op.base = some h.snapshot)
    (snap : h.closed = false → a.liveHandle h → (a.snapshots.get h.snapshot).isSome = true)
    (snapFile : ∀ s, a.snapshots.get h.snapshot = some s → s.file = h.file) :
    Sound app { a with handles := a.handles.put h } := by
  have before : ∀ {k : Id} {x : Handle}, (a.handles.put h).get k = some x →
      ∃ y, a.handles.get k = some y ∧ x.file = y.file ∧
        (x.closed = false → a.liveHandle x → y.closed = false ∧ a.liveHandle y) := by
    intro k x hx
    rw [Table.get_put] at hx
    split at hx
    · rename_i hk
      cases hx
      exact ⟨g, hk ▸ hg, hfile, live⟩
    · exact ⟨x, hx, rfl, fun h1 h2 => ⟨h1, h2⟩⟩
  exact
    { hs with
      ids := { hs.ids with handles := Table.forall_put hs.ids.handles hids }
      lockFile := fun l hl x hx => by
        obtain ⟨y, hy, he, -⟩ := before hx
        rw [he]
        exact hs.lockFile l hl y hy
      owners := fun op ho => by
        cases hx : (a.handles.put h).get op.id with
        | none => rfl
        | some x =>
            obtain ⟨y, hy, -⟩ := before hx
            rw [hs.owners op ho] at hy
            cases hy
      writeHandle := fun op ho hw => by
        obtain ⟨x, hx, hxf, hxb⟩ := hs.writeHandle op ho hw
        by_cases hk : op.handle = h.id
        · have hxg : x = g := by
            rw [hk, hg] at hx
            exact (Option.some.inj hx).symm
          refine ⟨h, ?_, hfile.trans (hxg ▸ hxf), busy op ho hw hk⟩
          rw [hk]
          exact Table.get_put_self _ _
        · exact ⟨x, (Table.get_put_of_ne _ hk).trans hx, hxf, hxb⟩
      writeCurrent := fun op ho hw hh => by
        refine hs.writeCurrent op ho hw (hh.mono ?_ fun _ _ l hl hlive => ⟨l, hl, hlive⟩)
        intro x hx hc hlive
        obtain ⟨y, hy, -, hback⟩ := before hx
        exact ⟨y, hy, hback hc hlive⟩
      handleSnap := Table.forall_put hs.handleSnap snap
      handleFile := Table.forall_put hs.handleFile snapFile }

/-- What an unclosed handle says about the writes that keep it busy. -/
theorem busy_of_open (hs : Sound app a) {h : Handle} (hg : a.handles.get h.id = some h)
    {op : Operation} (ho : op ∈ a.uploads.all) (hw : op.writing) (hh : op.handle = h.id)
    (hc : h.closed = false) :
    h.busy = some op.id ∧ h.revision = op.handleRevision ∧ op.base = some h.snapshot := by
  obtain ⟨g, hget, -, hb⟩ := hs.writeHandle op ho hw
  rw [hh, hg] at hget
  cases hget
  exact hb hc

theorem renewHandle (hs : Sound app a) {h : Handle} (d e : Nat)
    (hg : a.handles.get h.id = some h) (hc : h.closed = false) (hl : a.liveHandle h) :
    Sound app { a with handles := a.handles.put { h with deadline := d, expires := e } } :=
  hs.rehandle (h := { h with deadline := d, expires := e }) hg rfl
    (hs.ids.handles h (Table.mem_of_get hg)) (fun _ _ => ⟨hc, hl⟩)
    (fun _ ho hw hh => hs.busy_of_open hg ho hw hh)
    (fun _ _ => hs.handleSnap h (Table.mem_of_get hg) hc hl)
    (hs.handleFile h (Table.mem_of_get hg))

theorem renewPlain (hs : Sound app a) {h : Handle} (e r : Nat) (hr : app.rf3 = false)
    (hg : a.handles.get h.id = some h) :
    Sound app { a with handles := a.handles.put { h with expires := e, revision := r } } :=
  hs.rehandle (h := { h with expires := e, revision := r }) hg rfl
    (hs.ids.handles h (Table.mem_of_get hg)) (fun hc hl => ⟨hc, hl⟩)
    (fun op ho hw _ => absurd (hs.plain hr op ho).1 (by rw [hw.1]; exact OperationKind.noConfusion))
    (hs.handleSnap h (Table.mem_of_get hg)) (hs.handleFile h (Table.mem_of_get hg))

theorem closeHandle (hs : Sound app a) {h : Handle} (r : Nat)
    (hg : a.handles.get h.id = some h) :
    Sound app { a with handles := a.handles.put { h with closed := true, revision := r } } :=
  hs.rehandle (h := { h with closed := true, revision := r }) hg rfl
    (hs.ids.handles h (Table.mem_of_get hg)) (fun hc => absurd hc (by simp))
    (fun _ _ _ _ hc => absurd hc (by simp)) (fun hc => absurd hc (by simp))
    (hs.handleFile h (Table.mem_of_get hg))

/-- A handle that no write in preparation keeps busy may be reserved or freed. -/
theorem rebusy (hs : Sound app a) {h : Handle} (b : Option Id)
    (hg : a.handles.get h.id = some h)
    (free : ∀ op ∈ a.uploads.all, op.writing → h.busy ≠ some op.id) :
    Sound app { a with handles := a.handles.put { h with busy := b } } :=
  hs.rehandle (h := { h with busy := b }) hg rfl (hs.ids.handles h (Table.mem_of_get hg))
    (fun hc hl => ⟨hc, hl⟩)
    (fun op ho hw hh hc => absurd (hs.busy_of_open hg ho hw hh hc).1 (free op ho hw))
    (hs.handleSnap h (Table.mem_of_get hg)) (hs.handleFile h (Table.mem_of_get hg))

theorem occupy (hs : Sound app a) {h : Handle} {k : Id} (hg : a.handles.get h.id = some h)
    (hb : h.busy = none) :
    Sound app { a with handles := a.handles.put { h with busy := some k } } :=
  hs.rebusy (some k) hg fun _ _ _ => by simp [hb]

theorem freeHandle (hs : Sound app a) {h : Handle} {o : Operation}
    (hg : a.handles.get h.id = some h) (hb : h.busy = some o.id)
    (ho : a.uploads.get o.id = some o) (hst : o.state ≠ .preparing) :
    Sound app { a with handles := a.handles.put { h with busy := none } } := by
  refine hs.rebusy none hg fun op hop hw he => ?_
  have hid : op.id = o.id := Option.some.inj (he.symm.trans hb)
  have hget : a.uploads.get o.id = some op := hid ▸ Table.get_of_mem hop
  obtain rfl : op = o := Option.some.inj (hget.symm.trans ho)
  exact hst hw.2

theorem putRead (hs : Sound app a) {r : Read} (hi : Issued app a r.id)
    (hu : a.uploads.get r.id = none) : Sound app { a with reads := a.reads.put r } :=
  { hs with
    ids := { hs.ids with reads := Table.forall_put hs.ids.reads hi }
    reads := Table.forall_put hs.reads hu }

theorem beginRead (hs : Sound app a) {h : Handle} {r : Read} (hf : Fresh app a r.id)
    (hg : a.handles.get h.id = some h) (hb : h.busy = none) :
    Sound app
      { a with reads := a.reads.put r, handles := a.handles.put { h with busy := some r.id } } :=
  (hs.occupy hg hb).putRead hf.1 (get_none_of_unused_upload (a := a) hf.2)

theorem endRead (hs : Sound app a) {h : Handle} {r : Read} (hr : a.reads.get r.id = some r)
    (hg : a.handles.get h.id = some h) :
    Sound app
      { a with
        reads := a.reads.put { r with closed := true }, handles := a.handles.put (h.freed r.id) } := by
  have hmem := Table.mem_of_get hr
  have hfree : Sound app { a with handles := a.handles.put (h.freed r.id) } := by
    unfold Handle.freed
    split
    · rename_i hb
      refine hs.rebusy none hg fun op ho _ he => ?_
      have hid : op.id = r.id := Option.some.inj (he.symm.trans hb)
      have hnone := hs.reads r hmem
      rw [← hid, show a.uploads.get op.id = some op from Table.get_of_mem ho] at hnone
      cases hnone
    · rw [Table.put_get_self hg]
      exact hs
  exact hfree.putRead (r := { r with closed := true }) (hs.ids.reads r hmem) (hs.reads r hmem)

/-! ## Blocks -/

/-- A block that was allocated by an operation in preparation is recorded. -/
theorem confirmBlock (hs : Sound app a) {trust : Trust} {op : Operation}
    {b : Block} (h : ConfirmOk trust a op b) : Sound app { a with blocks := a.blocks.put b } := by
  obtain ⟨x, hx, hxid, hxref⟩ := h.allocated
  have ho := Table.mem_of_get h.stored
  have hid : op.id = b.operation := upload_id_of_get h.stored
  refine
    { hs with
      ids := { hs.ids with blocks := Table.forall_put hs.ids.blocks ?_ }
      recorded := ?_
      tombstones := ?_
      confirmed := Table.forall_put hs.confirmed ⟨h.id_eq.symm, ?_⟩ }
  · refine hs.ids.uploads op ho _ ?_
    simp only [Operation.ids, List.mem_cons, List.mem_append, List.mem_map]
    exact .inr (.inr (.inr ⟨x, hx, hxid⟩))
  · intro s hs' c hc
    rw [Table.get_put]
    split
    · rfl
    · exact hs.recorded s hs' c hc
  · intro r hr
    refine ⟨?_, (hs.tombstones r hr).2⟩
    rw [Table.get_put_of_ne _ fun he => ?_]
    · exact (hs.tombstones r hr).1
    · exact (hs.tombstones r hr).2 op ho h.state x hx (hxid.trans he.symm)
  · intro o ho' hst y hy hyid
    have hsame : op.id = o.id := hs.allocated op ho o ho' x hx y hy (hxid.trans hyid.symm)
    have : o = op := get_unique h.stored ho' (hsame.symm.trans hid)
    subst this
    exact ⟨hid.symm, fun hk => ⟨x, hx, (hxref hk).symm⟩⟩

/-- A block that nothing needs is retired. -/
theorem retireBlock (hs : Sound app a) {k : Id} {tombstones : Table Retired}
    (hsnap : ∀ s ∈ a.snapshots.all, ∀ b ∈ s.blocks, b.blockVersionId ≠ k)
    (hop : ∀ op ∈ a.uploads.all, op.state = .preparing →
      ∀ x ∈ op.allocations, x.2.blockVersionId ≠ k)
    (hblock : ∃ b ∈ a.blocks.all, b.id = k)
    (ht : tombstones = a.retired ∨ ∃ r : Retired, r.id = k ∧ tombstones = a.retired.put r) :
    Sound app { a with blocks := a.blocks.delete k, retired := tombstones } := by
  have old : ∀ r ∈ a.retired.all, (a.blocks.delete k).get r.id = none ∧
      ∀ op ∈ a.uploads.all, op.state = .preparing →
        ∀ x ∈ op.allocations, x.2.blockVersionId ≠ r.id := fun r hr => by
    refine ⟨?_, (hs.tombstones r hr).2⟩
    rw [Table.get_delete, (hs.tombstones r hr).1, ite_self]
  have hids : Issued app a k := by
    obtain ⟨b, hb, rfl⟩ := hblock
    exact hs.ids.blocks b hb
  refine
    { hs with
      ids := { hs.ids with blocks := Table.forall_delete hs.ids.blocks, retired := ?_ }
      recorded := ?_
      tombstones := ?_
      confirmed := Table.forall_delete hs.confirmed }
  · rcases ht with rfl | ⟨r, rfl, rfl⟩
    · exact hs.ids.retired
    · exact Table.forall_put hs.ids.retired hids
  · intro s hs' b hb
    rw [Table.get_delete_of_ne _ (hsnap s hs' b hb)]
    exact hs.recorded s hs' b hb
  · rcases ht with rfl | ⟨r, rfl, rfl⟩
    · exact old
    · exact Table.forall_put old ⟨Table.get_delete_self _ _, hop⟩

end Sound

end Dfsha
