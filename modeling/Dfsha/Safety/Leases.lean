import Dfsha.Control.Script
import Dfsha.Refine.Steps

/-!
# What holds in every state of a control

The invariant of the lease protocol holds of a store that was just initialized, and every step
keeps it, so it holds in every state a run reaches.  The results of this module are its first
consequences: locks exclude each other, and a write that still holds its leases finds the file
as it was when it began.

Nothing is assumed of data nodes here: `Trust.all` admits every report.

## Main results

* `Reachable.sound` — the invariant, in every reachable state.
* `live_locks_compatible` — two live locks of different owners may be held together.
* `held_write_current` — a write with its leases finds its base in the current manifest.
-/

namespace Dfsha

variable {app : App} {reports : Call → Prop} {w : World}

/-! ## Reachable states -/

theorem Trust.all_admits (c : Call) : Trust.all.admits c := by
  cases c <;> simp [Trust.admits, Trust.all]

/-- The nodes of a store that was just initialized. -/
theorem initial_node {clk : Clock} {username : Text} {password : Digest} {n : Node}
    (h : n ∈ (World.initial app clk username password).access.nodes.all) :
    n.kind = .directory ∧ n.snapshot = none ∧ ∃ i < 6, n.id = app.uuid i := by
  simp only [World.initial, Table.mem_put, Table.all_empty, List.not_mem_nil, false_and,
    or_false] at h
  rcases h with rfl | ⟨rfl | ⟨rfl, -⟩, -⟩
  · exact ⟨rfl, rfl, 5, by omega, rfl⟩
  · exact ⟨rfl, rfl, 4, by omega, rfl⟩
  · exact ⟨rfl, rfl, 1, by omega, rfl⟩

/-- **A store that was just initialized is sound.** -/
theorem sound_initial (clk : Clock) (username : Text) (password : Digest) :
    Sound app (World.initial app clk username password).access where
  ids :=
    { locks := fun _ h => absurd h List.not_mem_nil
      handles := fun _ h => absurd h List.not_mem_nil
      reads := fun _ h => absurd h List.not_mem_nil
      uploads := fun _ h => absurd h List.not_mem_nil
      nodes := fun n h id hid => by
        obtain ⟨-, hsnap, i, hi, he⟩ := initial_node h
        simp only [Node.ids, hsnap, Option.toList_none, List.mem_singleton] at hid
        exact ⟨i, hi, hid.trans he⟩
      snapshots := fun _ h => absurd h List.not_mem_nil
      blocks := fun _ h => absurd h List.not_mem_nil
      retired := fun _ h => absurd h List.not_mem_nil
      epoch := fun _ h => absurd h (by simp [World.initial]) }
  exclusive _ h := absurd h List.not_mem_nil
  lockFile _ h := absurd h List.not_mem_nil
  reads _ h := absurd h List.not_mem_nil
  owners _ h := absurd h List.not_mem_nil
  writeShape _ h := absurd h List.not_mem_nil
  writeHandle _ h := absurd h List.not_mem_nil
  writeFence _ h := absurd h List.not_mem_nil
  writeBase _ h := absurd h List.not_mem_nil
  writeOrder _ h := absurd h List.not_mem_nil
  writeCurrent _ h := absurd h List.not_mem_nil
  plain _ _ h := absurd h List.not_mem_nil
  uploadShape _ h := absurd h List.not_mem_nil
  uploadFence _ h := absurd h List.not_mem_nil
  uploadBase _ h := absurd h List.not_mem_nil
  uploadNew _ h := absurd h List.not_mem_nil
  order _ h := absurd h List.not_mem_nil
  blockSizes _ h := absurd h List.not_mem_nil
  files n h _ hk := absurd hk (by rw [(initial_node h).1]; exact NodeKind.noConfusion)
  directories n h _ := (initial_node h).2.1
  handleSnap _ h := absurd h List.not_mem_nil
  handleFile _ h := absurd h List.not_mem_nil
  snapshotShape _ h := absurd h List.not_mem_nil
  recorded _ h := absurd h List.not_mem_nil
  housed _ h := absurd h List.not_mem_nil
  origins _ h := absurd h List.not_mem_nil
  tombstones _ h := absurd h List.not_mem_nil
  allocated _ h := absurd h List.not_mem_nil
  confirmed _ h := absurd h List.not_mem_nil
  admitted _ h := absurd h List.not_mem_nil
  root := by
    have h4 : app.root ≠ app.uuid 4 := fun h => absurd (app.uuid_injective h) (by omega)
    have h5 : app.root ≠ app.uuid 5 := fun h => absurd (app.uuid_injective h) (by omega)
    have h1 : app.root = app.uuid 1 := rfl
    refine ⟨{ newNode (app.uuid 1) [] 0 (app.uuid 0) true 493 with parent := none }, ?_, rfl, rfl⟩
    simp only [World.initial, Table.get_put, key_node, newNode, h4, h5, if_false]
    rw [if_pos h1]

/-- **A step is a sequence of actions**, of which nothing need be assumed. -/
theorem Step.all {v : World} {e : Event} (hs : Sound app w.access)
    (h : Step app reports w e v) : Acts app Trust.all w.access v.access :=
  h.acts Trust.all (fun _ => trivial) Trust.all_publishes trivial trivial
    (fun c _ => Trust.all_admits c) hs

theorem Step.sound {v : World} {e : Event} (hs : Sound app w.access)
    (h : Step app reports w e v) : Sound app v.access := hs.acts (h.all hs)

/-- **In every state a control reaches, its records are sound.** -/
theorem Reachable.sound (h : Reachable app reports w) : Sound app w.access := by
  obtain ⟨clk, username, password, es, hrun⟩ := h
  refine Run.induct (P := fun w => Sound app w.access) ?_ hrun (sound_initial clk username password)
  intro w e v hstep hs
  exact hstep.sound hs

/-- **A run is a sequence of actions.** -/
theorem Run.acts {v : World} {es : List Event} (hs : Sound app w.access)
    (h : Run app reports w es v) : Acts app Trust.all w.access v.access := by
  have hrun := Run.induct (P := fun u => Acts app Trust.all w.access u.access) ?_ h .refl
  · exact hrun
  · intro u e v hstep hacts
    exact hacts.trans (hstep.all (hs.acts hacts))

theorem Reachable.run {v : World} {es : List Event} (h : Reachable app reports w)
    (hrun : Run app reports w es v) : Reachable app reports v := by
  obtain ⟨clk, username, password, fs, h⟩ := h
  exact ⟨clk, username, password, _, h.trans hrun⟩

/-! ## Locks -/

/-- **Two live locks of one file with different owners are compatible.** -/
theorem live_locks_compatible (h : Reachable app reports w) {l m : Lock}
    (hl : l ∈ w.access.locks.all) (hm : m ∈ w.access.locks.all) (hlive : w.access.liveLock l)
    (hmlive : w.access.liveLock m) (hfile : l.file = m.file)
    (howner : (l.session, l.handle) ≠ (m.session, m.handle)) : Compatible l m :=
  (h.sound).exclusive l hl m hm hlive hmlive hfile fun he =>
    howner (by rw [show l.session = m.session from congrArg Owner.session he,
      show l.handle = m.handle from congrArg Owner.id he])

/-- Two handles lock different blocks of one file. -/
def smallLocks : List Input := smallStart ++
  [smallInput 51 (.openFile smallPath .xPlus), smallInput 52 (.openFile smallPath .rPlus),
   smallInput 53 (.lock ⟨12, false, some 0, some 4194304, 0⟩),
   smallInput 54 (.lock ⟨13, false, some 4194304, some 1, 0⟩)]

theorem small_locks_compatible : ∃ w, Reachable (App.small .rf3) (fun _ => True) w ∧
    ∃ l ∈ w.access.locks.all, ∃ m ∈ w.access.locks.all, l.id ≠ m.id ∧ Compatible l m := by
  obtain ⟨w, hw, l, hl, m, hm, hid, hlive, hmlive, hfile, howner⟩ := exists_of_perform
    (App.small .rf3) smallLocks (World.small .rf3)
    (fun w => ∃ l ∈ w.access.locks.all, ∃ m ∈ w.access.locks.all, l.id ≠ m.id ∧
      w.access.liveLock l ∧ w.access.liveLock m ∧ l.file = m.file ∧
        (l.session, l.handle) ≠ (m.session, m.handle)) (by decide +kernel)
  have hreach := perform_reachable hw
  exact ⟨w, hreach, l, hl, m, hm, hid,
    live_locks_compatible hreach hl hm hlive hmlive hfile howner⟩

/-! ## Writes in preparation -/

/-- What a write that still holds its leases finds: the file with its content epoch, at the
place of each part the base that was recorded, and, if the write grows the file, the size it
began with. -/
structure FindsBase (a : Access) (op : Operation) (n : Node) (c : Snapshot) : Prop where
  current : Current a op.file n c
  epoch : c.ref.contentEpoch = op.epoch
  base : ∀ p ∈ op.parts, c.blocks[p.part.blockIndex]? = some p.base ∨
    c.blocks.length ≤ p.part.blockIndex ∧ p.base = .absent op.file p.part.blockIndex
  size : op.growing = true → c.ref.sizeBytes = op.baseSize
  /-- No comparison of a base fails when the new blocks are put in. -/
  merges : ∀ rs : List BlockRef, rs.length = op.parts.length →
    (mergeParts op.file (op.parts.zip rs) c.blocks).isSome = true

/-- **A write that still holds its handle and all its locks finds its base in the current
manifest of its file**, so no comparison of base, size or epoch can reject it. -/
theorem held_write_current (h : Reachable app reports w) {op : Operation}
    (hop : op ∈ w.access.uploads.all) (hkind : op.kind = .write) (hstate : op.state = .preparing)
    (hheld : Held w.access op) : ∃ n c, FindsBase w.access op n c := by
  have hs := h.sound
  obtain ⟨n, c, hc, he, hb, hz⟩ := hs.writeCurrent op hop ⟨hkind, hstate⟩ hheld
  have hshape := hs.writeShape op hop ⟨hkind, hstate⟩
  have hB := block_pos hshape.block_mem
  -- The base is still there, so the file has the block size that the write recorded.
  obtain ⟨⟨g, hg, hopen, hlive⟩, -⟩ := hheld
  obtain ⟨g', hg', hfile, hbusy⟩ := hs.writeHandle op hop ⟨hkind, hstate⟩
  obtain rfl : g' = g := Option.some.inj (hg'.symm.trans hg)
  obtain ⟨s, hsnap⟩ := Option.isSome_iff_exists.mp
    (hs.handleSnap g' (Table.mem_of_get hg) hopen hlive)
  obtain ⟨-, -, hBs⟩ := hs.writeBase op hop ⟨hkind, hstate⟩ _ (hbusy hopen).2.2 s hsnap
  have hsfile := (hs.handleFile g' (Table.mem_of_get hg) s hsnap).trans hfile
  have hsize : c.ref.blockSizeBytes = op.blockSize := by
    rw [hs.blockSizes c (Table.mem_of_get hc.2.2.2) n (by rw [hs.current_file hc]; exact hc.1),
      ← hBs, hs.blockSizes s (Table.mem_of_get hsnap) n (by rw [hsfile]; exact hc.1)]
  refine ⟨n, c, hc, he, fun p hp => ?_, hz, fun rs hlen => ?_⟩
  · have hp' := hb p hp
    rw [hshape.base_index p hp, baseOf] at hp'
    cases hget : c.blocks[p.part.blockIndex]? with
    | some b =>
        rw [hget, Option.getD_some] at hp'
        exact .inl (by rw [hp'])
    | none =>
        rw [hget, Option.getD_none] at hp'
        exact .inr ⟨List.getElem?_eq_none_iff.mp hget, hp'.symm⟩
  · refine mergeParts_isSome hB hshape.partition ?_ hshape.base_index hlen hb
    rcases hs.writeOrder op hop ⟨hkind, hstate⟩ n c hc.1 hc.2.2.1 hc.2.2.2 with hlt | ⟨-, hle⟩
    · omega
    · have hcut := (hs.snapshotShape c (Table.mem_of_get hc.2.2.2)).manifest.cut
      rw [hsize] at hcut
      simpa using hcut.index_le hB (hshape.offset_le.trans hle)

theorem small_write_current : ∃ w op n c, Reachable (App.small .rf3) (fun _ => True) w ∧
    op ∈ w.access.uploads.all ∧ op.parts ≠ [] ∧ FindsBase w.access op n c := by
  obtain ⟨w, hw, op, hop, hparts, hkind, hstate, hheld⟩ := exists_of_perform
    (App.small .rf3) smallBegin (World.small .rf3)
    (fun w => ∃ op ∈ w.access.uploads.all, op.parts ≠ [] ∧ op.kind = .write ∧
      op.state = .preparing ∧ Held w.access op) (by decide +kernel)
  have hreach := perform_reachable hw
  obtain ⟨n, c, hfinds⟩ := held_write_current hreach hop hkind hstate hheld
  exact ⟨w, op, n, c, hreach, hop, hparts, hfinds⟩

end Dfsha
