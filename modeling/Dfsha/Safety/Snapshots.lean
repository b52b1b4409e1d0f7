import Dfsha.Protocol.History
import Dfsha.Safety.Leases

/-!
# Snapshots

A snapshot is a manifest: a list of blocks that is exactly as long as its size says, each block
at its own place.  It is published by an operation that commits, is never changed, and keeps
its blocks for as long as a file or a reader refers to it.

## Main results

* `snapshots_well_formed` — every published snapshot is a manifest, and commits never index
  past its end.
* `snapshots_retained` — collection takes nothing from a file, a reader or a pending commit.
* `committed_only` — what can be seen was committed, and what is committed stays so.
-/

namespace Dfsha

variable {app : App} {reports : Call → Prop} {w : World}

/-! ## Manifests -/

/-- A snapshot as it should be published. -/
structure WellFormed (app : App) (s : Snapshot) : Prop where
  file : s.ref.fileId = s.file
  count : s.blocks.length = (s.ref.sizeBytes + s.ref.blockSizeBytes - 1) / s.ref.blockSizeBytes
  block : ∀ i b, s.blocks[i]? = some b → b.blockIndex = i ∧ b.fileId = s.file ∧
    b.sizeBytes = min s.ref.blockSizeBytes (s.ref.sizeBytes - i * s.ref.blockSizeBytes)
  hash : s.ref.manifestSha256 = app.manifestHash s.blocks

theorem SnapshotShape.wellFormed {s : Snapshot} (h : SnapshotShape app s) : WellFormed app s where
  file := h.file
  count := by
    rw [← h.manifest.cut.count, List.length_map]
  block i b hb := by
    obtain ⟨hi, hf, -⟩ := h.manifest.index i b hb
    refine ⟨hi, hf, h.manifest.cut.each i b.sizeBytes ?_⟩
    rw [List.getElem?_map, hb, Option.map_some]
  hash := h.hash

/-- A file keeps its block size. -/
theorem blockSize_constant {a b : Access} (hs : Sound app a) (h : Acts app Trust.all a b)
    {s t : Snapshot} (hsa : s ∈ a.snapshots.all) (htb : t ∈ b.snapshots.all)
    (hf : t.file = s.file) : t.ref.blockSizeBytes = s.ref.blockSizeBytes := by
  obtain ⟨n, hn⟩ := Option.isSome_iff_exists.mp (hs.housed s hsa)
  obtain ⟨m, hm, -, hsize⟩ := h.nodes hs s.file n hn
  rw [hs.blockSizes s hsa n hn, (hs.acts h).blockSizes t htb m (hf ▸ hm), hsize]

/-- **The merge of `CommitWrite` stays in the manifest**: the place of its next part is at most
the length of the list that it is put into. -/
theorem commitWrite_index_le (hs : Sound app w.access) {user : User} {session : Session}
    {reference : OperationRef} {t : WriteTarget} {v u u' : World} {changes : List BlockChange}
    {j : Nat} {x : Part × BlockChange} {blocks : List BlockRef}
    (ht : (writeOperation app user session reference) w = .ok (t, v))
    (hx : (t.op.parts.zip changes)[j]? = some x)
    (hfold : (Tx.fold ((t.op.parts.zip changes).take j) (commitPart app t.op t.node.id)
      t.current.blocks) u = .ok (blocks, u')) :
    x.1.base.blockIndex ≤ blocks.length := by
  obtain ⟨-, -, b, hc⟩ := writeOperation_ok ht
  have hop := Table.mem_of_get hc.stored
  have hw : t.op.writing := ⟨hc.kind, hc.state⟩
  have shape := hs.writeShape t.op hop hw
  have hB := block_pos shape.block_mem
  -- The current snapshot has the epoch of the base, so the file did not shrink.
  obtain ⟨g, hg, hfile, hbusy⟩ := hs.writeHandle t.op hop hw
  obtain rfl : t.handle = g := Option.some.inj (hc.handle.symm.trans hg)
  obtain ⟨hepoch, -, hsize⟩ := hs.writeBase t.op hop hw _ (hbusy hc.isOpen).2.2 b hc.snap
  have hcur := hc.current
  have hle : t.op.baseSize ≤ t.current.ref.sizeBytes := by
    have he := hc.epoch_current
    rcases hs.writeOrder t.op hop hw t.node t.current (hfile ▸ hcur.1) hcur.2.2.1 hcur.2.2.2 with
      hlt | ⟨-, hle⟩
    · omega
    · exact hle
  have hblock : t.current.ref.blockSizeBytes = t.op.blockSize := by
    have hbf := hs.handleFile t.handle (Table.mem_of_get hc.handle) b hc.snap
    rw [← hsize, hs.blockSizes t.current (Table.mem_of_get hcur.2.2.2) t.node
      (hs.current_file hcur ▸ hcur.1), hs.blockSizes b (Table.mem_of_get hc.snap) t.node
      (hbf ▸ hcur.1)]
  have hcut := (hs.snapshotShape t.current (Table.mem_of_get hcur.2.2.2)).manifest.cut
  rw [hblock] at hcut
  have hindex := hcut.index_le hB (shape.offset_le.trans hle)
  rw [List.length_map] at hindex
  -- What the loop has done so far is a merge.
  obtain ⟨-, hmerge, -⟩ := commitParts_ok hfold
  have hzip : ((t.op.parts.zip changes).take j).map (fun x => (x.1, x.2.replacement)) =
      (t.op.parts.zip (changes.map BlockChange.replacement)).take j := by
    rw [List.map_take, List.zip_map_right]
    rfl
  rw [hzip] at hmerge
  have hx' : (t.op.parts.zip (changes.map BlockChange.replacement))[j]? =
      some (x.1, x.2.replacement) := by
    rw [List.zip_map_right, List.getElem?_map, hx]
    rfl
  exact mergeParts_take_le hB shape.partition hindex shape.base_index hx' hmerge

/-- **Every published snapshot is well formed**, the block size of a file never changes, and the
list that `CommitWrite` puts its blocks into is never too short. -/
theorem snapshots_well_formed (h : Reachable app reports w) :
    (∀ s ∈ w.access.snapshots.all, WellFormed app s) ∧
    (∀ s ∈ w.access.snapshots.all, ∀ es v, Run app reports w es v → ∀ t ∈ v.access.snapshots.all,
      t.file = s.file → t.ref.blockSizeBytes = s.ref.blockSizeBytes) ∧
    ∀ user session reference t v changes j x u blocks u',
      (writeOperation app user session reference) w = .ok (t, v) →
      (t.op.parts.zip changes)[j]? = some x →
      (Tx.fold ((t.op.parts.zip changes).take j) (commitPart app t.op t.node.id)
        t.current.blocks) u = .ok (blocks, u') → x.1.base.blockIndex ≤ blocks.length := by
  have hs := h.sound
  refine ⟨fun s hmem => (hs.snapshotShape s hmem).wellFormed, fun s hmem es v hrun t ht hf => ?_,
    fun user session reference t v changes j x u blocks u' ht hx hfold => ?_⟩
  · exact blockSize_constant hs (hrun.acts hs) hmem ht hf
  · exact commitWrite_index_le hs ht hx hfold

theorem small_well_formed : ∃ w s, Reachable (App.small .replicated) (fun _ => True) w ∧
    s ∈ w.access.snapshots.all ∧ s.blocks ≠ [] ∧ WellFormed (App.small .replicated) s := by
  obtain ⟨w, hw, s, hs, hne⟩ := exists_of_perform (App.small .replicated) smallCommit
    (World.small .replicated) (fun w => ∃ s ∈ w.access.snapshots.all, s.blocks ≠ [])
    (by decide +kernel)
  have hreach := perform_reachable hw
  exact ⟨w, s, hreach, hs, hne, (snapshots_well_formed hreach).1 s hs⟩

/-! ## Retention -/

/-- A snapshot is there, with every block it lists. -/
structure Retained (a : Access) (s : Snapshot) : Prop where
  stored : a.snapshots.get s.id = some s
  blocks : ∀ b ∈ s.blocks, (a.blocks.get b.blockVersionId).isSome = true ∧
    a.retired.get b.blockVersionId = none

/-- A recorded block is not retired. -/
theorem Sound.not_retired {a : Access} (hs : Sound app a) {k : Id}
    (hk : (a.blocks.get k).isSome = true) : a.retired.get k = none := by
  cases hr : a.retired.get k with
  | none => rfl
  | some r =>
      have hid : r.id = k := Table.key_of_get hr
      rw [← hid, (hs.tombstones r (Table.mem_of_get hr)).1] at hk
      cases hk

theorem Sound.retained {a : Access} (hs : Sound app a) {k : Id} {s : Snapshot}
    (h : a.snapshots.get k = some s) : Retained a s where
  stored := snapshot_id_of_get h ▸ h
  blocks b hb := by
    have hrec := hs.recorded s (Table.mem_of_get h) b hb
    exact ⟨hrec, hs.not_retired hrec⟩

/-- Every recorded block is an allocation of some operation. -/
theorem Act.records {trust : Trust} {a b : Access} (h : Act app trust a b)
    (ha : ∀ r ∈ a.blocks.all, Allotted a r.id) : ∀ r ∈ b.blocks.all, Allotted b r.id := by
  have hmem : ∀ r ∈ b.blocks.all, r ∈ a.blocks.all ∨ Allotted a r.id := by
    intro r hr
    cases h with
    | confirmBlock hok =>
        rcases Table.mem_put.mp hr with rfl | ⟨hr, -⟩
        · obtain ⟨x, hx, he, -⟩ := hok.allocated
          exact .inr ⟨_, Table.mem_of_get hok.stored, x, hx, he⟩
        · exact .inl hr
    | retireBlock _ _ _ _ => exact .inl (Table.mem_delete.mp hr).1
    | _ => exact .inl hr
  intro r hr
  rcases hmem r hr with hr | hall
  · exact h.allotted (ha r hr)
  · exact h.allotted hall

theorem Reachable.records (h : Reachable app reports w) :
    ∀ r ∈ w.access.blocks.all, Allotted w.access r.id := by
  obtain ⟨clk, username, password, es, hrun⟩ := h
  refine Acts.keep (P := fun a => ∀ r ∈ a.blocks.all, Allotted a r.id)
    (fun hact ha => hact.records ha) (hrun.acts (sound_initial clk username password)) ?_
  exact fun _ hr => absurd hr List.not_mem_nil

/-- **Collection takes nothing that is still needed**: the snapshot of a live file, or of an open
handle that is live, is there with its blocks, and is the record that was published; and a
block that was confirmed stays while an operation in preparation has allocated it. -/
theorem snapshots_retained (h : Reachable app reports w) :
    (∀ n ∈ w.access.nodes.all, n.alive = true → n.kind = .file →
      ∃ s, n.snapshot = some s.id ∧ Retained w.access s) ∧
    (∀ x ∈ w.access.handles.all, x.closed = false → w.access.liveHandle x →
      ∃ s, x.snapshot = s.id ∧ Retained w.access s) ∧
    (∀ s ∈ w.access.snapshots.all, ∀ es v, Run app reports w es v → ∀ t,
      v.access.snapshots.get s.id = some t → t = s) ∧
    ∀ k, (w.access.blocks.get k).isSome = true → ∀ es v, Run app reports w es v →
      ∀ op ∈ v.access.uploads.all, op.state = .preparing → ∀ x ∈ op.allocations,
        x.2.blockVersionId = k →
          (v.access.blocks.get k).isSome = true ∧ v.access.retired.get k = none := by
  have hs := h.sound
  refine ⟨fun n hn ha hk => ?_, fun x hx hc hl => ?_, fun s hmem es v hrun t ht => ?_,
    fun k hk es v hrun op hop hst x hx hxk => ?_⟩
  · obtain ⟨-, s, hns, hget, -⟩ := hs.files n hn ha hk
    exact ⟨s, hns, hs.retained hget⟩
  · obtain ⟨s, hget⟩ := Option.isSome_iff_exists.mp (hs.handleSnap x hx hc hl)
    exact ⟨s, (snapshot_id_of_get hget).symm, hs.retained hget⟩
  · have hissued := hs.ids.snapshots s hmem s.id (by simp [Snapshot.ids])
    have hget := (hrun.acts hs).snapshot hissued ht
    exact Option.some.inj (hget.symm.trans (Table.get_of_mem hmem))
  · obtain ⟨r, hr⟩ := Option.isSome_iff_exists.mp hk
    have hid : r.id = k := Table.key_of_get hr
    have hconf : Confirmed w.access k :=
      ⟨hid ▸ h.records r (Table.mem_of_get hr), fun _ _ _ _ _ _ => hk⟩
    have hacts := hrun.acts hs
    have hrec := (Acts.keep (P := fun a => Confirmed a k) (fun hact ha => hact.confirmed ha) hacts
      hconf).recorded op hop hst x hx hxk
    exact ⟨hrec, (hs.acts hacts).not_retired hrec⟩

theorem small_retained : ∃ w n s, Reachable (App.small .replicated) (fun _ => True) w ∧
    n ∈ w.access.nodes.all ∧ n.snapshot = some s.id ∧ Retained w.access s := by
  obtain ⟨w, hw, n, hn, ha, hk⟩ := exists_of_perform (App.small .replicated) smallCommit
    (World.small .replicated)
    (fun w => ∃ n ∈ w.access.nodes.all, n.alive = true ∧ n.kind = .file) (by decide +kernel)
  have hreach := perform_reachable hw
  obtain ⟨s, hsnap, hs⟩ := (snapshots_retained hreach).1 n hn ha hk
  exact ⟨w, n, s, hreach, hn, hsnap, hs⟩

/-! ## What can be seen -/

/-- A block was allocated by an operation on a file that is committed. -/
def ByCommitted (a : Access) (file : Id) (b : BlockRef) : Prop :=
  ∃ op ∈ a.uploads.all, op.state = .committed ∧ op.file = file ∧
    ∃ x ∈ op.allocations, x.2.blockVersionId = b.blockVersionId

/-- **Only what was committed can be seen**: every block of the snapshot of a live file or of an
open handle was allocated by an operation on that file that is committed; what is committed
stays as it is, and what was given up is never committed. -/
theorem committed_only (h : Reachable app reports w) :
    (∀ n ∈ w.access.nodes.all, n.alive = true → ∀ s, n.snapshot = some s.id →
      w.access.snapshots.get s.id = some s → ∀ b ∈ s.blocks, ByCommitted w.access n.id b) ∧
    (∀ x ∈ w.access.handles.all, x.closed = false → ∀ s,
      w.access.snapshots.get x.snapshot = some s →
        ∀ b ∈ s.blocks, ByCommitted w.access x.file b) ∧
    (∀ op ∈ w.access.uploads.all, op.state = .committed → ∀ es v, Run app reports w es v →
      ∃ p, v.access.uploads.get op.id = some p ∧ p.state = .committed ∧
        p.result.map CommitResult.snapshot = op.result.map CommitResult.snapshot) ∧
    ∀ op ∈ w.access.uploads.all, op.state = .aborted ∨ op.state = .expired →
      ∀ es v, Run app reports w es v →
        ∃ p, v.access.uploads.get op.id = some p ∧ (p.state = .aborted ∨ p.state = .expired) := by
  have hs := h.sound
  refine ⟨fun n hn ha s hns hget b hb => ?_, fun x hx hc s hget b hb => ?_,
    fun op hop hst es v hrun => ?_, fun op hop hst es v hrun => ?_⟩
  · have hkind := hs.kind_of_snapshot hn hns
    obtain ⟨-, t, htn, htget, htf⟩ := hs.files n hn ha hkind
    have hid : t.id = s.id := Option.some.inj (htn.symm.trans hns)
    obtain rfl : t = s := Option.some.inj (htget.symm.trans (hid ▸ hget))
    obtain ⟨op, hop, hst, hf, hx⟩ := hs.origins t (Table.mem_of_get hget) b hb
    exact ⟨op, hop, hst, hf.trans htf, hx⟩
  · obtain ⟨op, hop, hst, hf, hy⟩ := hs.origins s (Table.mem_of_get hget) b hb
    exact ⟨op, hop, hst, hf.trans (hs.handleFile x hx s hget), hy⟩
  · obtain ⟨p, hp, he⟩ := (hrun.acts hs).uploads op.id op (Table.get_of_mem hop)
    exact ⟨p, hp, he.committed hst⟩
  · obtain ⟨p, hp, he⟩ := (hrun.acts hs).uploads op.id op (Table.get_of_mem hop)
    exact ⟨p, hp, he.ended hst⟩

theorem small_committed_only : ∃ w op, Reachable (App.small .replicated) (fun _ => True) w ∧
    op ∈ w.access.uploads.all ∧ ∀ es v, Run (App.small .replicated) (fun _ => True) w es v →
      ∃ p, v.access.uploads.get op.id = some p ∧ p.state = .committed := by
  obtain ⟨w, hw, op, hop, hst⟩ := exists_of_perform (App.small .replicated) smallCommit
    (World.small .replicated)
    (fun w => ∃ op ∈ w.access.uploads.all, op.state = .committed) (by decide +kernel)
  have hreach := perform_reachable hw
  refine ⟨w, op, hreach, hop, fun es v hrun => ?_⟩
  obtain ⟨p, hp, hc, -⟩ := (committed_only hreach).2.2.1 op hop hst es v hrun
  exact ⟨p, hp, hc⟩

end Dfsha
