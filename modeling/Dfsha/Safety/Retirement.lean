import Dfsha.Refine.Frame
import Dfsha.Safety.Snapshots

/-!
# Retired blocks

A block that nothing needs is retired for good.  The records of the lease protocol say so for
block records and operations; this module adds the copies.  A copy is recorded in few places, and
each of them either finds the copy recorded before or has asked for a tombstone first; and when a
tombstone is written, every copy of the block is forgotten in the same transaction.

## Main definitions

* `NoneRetired` — no copy of a retired block is recorded.

## Main results

* `retired_forever` — once a block is retired nothing speaks of it again.
-/

namespace Dfsha

variable {app : App} {reports : Call → Prop} {α β : Type} {w : World}

/-! ## Copies -/

/-- The recorded copies, and the tombstones. -/
def World.copies (w : World) : Table Location × Table Retired :=
  (w.cluster.locations, w.access.retired)

instance : AsideAccess World.copies := ⟨fun _ _ h => by rw [World.copies, h]; rfl⟩
instance : AsideCluster World.copies := ⟨fun _ _ h => by rw [World.copies, h]; rfl⟩
instance : AsideIdentity World.copies := ⟨fun _ _ => rfl⟩
instance : AsideMemory World.copies := ⟨fun _ _ _ _ => rfl⟩
instance : AsideLedger World.copies := ⟨fun _ _ => rfl⟩

/-- No copy of a retired block is recorded. -/
def NoneRetired (w : World) : Prop :=
  ∀ l ∈ w.cluster.locations.all, w.access.retired.get l.block = none

/-- The property, of the part of the control that it is about. -/
def noneRetired (c : Table Location × Table Retired) : Prop :=
  ∀ l ∈ c.1.all, c.2.get l.block = none

theorem Leaves.noneRetired (x : T α) [Leaves World.copies x] : Keeps NoneRetired x :=
  Leaves.keeps (π := World.copies) Dfsha.noneRetired x

/-- A copy of a block that is not retired may be recorded. -/
theorem NoneRetired.put {l : Location} (h : NoneRetired w)
    (hl : w.access.retired.get l.block = none) :
    NoneRetired { w with cluster := { w.cluster with locations := w.cluster.locations.put l } } :=
  Table.forall_put h hl

theorem locationAt_mem {c : Cluster} {block node : Id} {l : Location}
    (h : locationAt c block node = some l) : l ∈ c.locations.all ∧ l.block = block := by
  have hk : (toLex (l.block, l.node) : Id ×ₗ Id) = toLex (block, node) := Table.key_of_get h
  exact ⟨Table.mem_of_get h, congrArg (fun x => (ofLex x).1) hk⟩

/-- Writing back a recorded copy. -/
theorem putLocation_keeps {l l' : Location} {r : Unit × World}
    (hr : (putLocation l') w = .ok r) (h : NoneRetired w) (hl : l ∈ w.cluster.locations.all)
    (hb : l'.block = l.block) : NoneRetired r.2 := by
  rw [putLocation, onCluster_ok] at hr
  subst hr
  exact h.put (hb ▸ h l hl)

theorem confirmLocation_keeps (hr : app.replicated = true) (receipt : DurableReceipt)
    (inventory : Id) : Keeps NoneRetired (confirmLocation app receipt inventory) := by
  unfold confirmLocation
  refine .query fun w a hw ha r h => ?_
  simp only [run_need, setAccess_access, setAccess_setAccess] at h
  obtain ⟨hnone, h⟩ := h
  obtain rfl : w.access = a := by simpa [access] using ha
  obtain ⟨_, s, hput, h⟩ := Tx.bind_ok.mp h
  have hs : NoneRetired s := by
    rw [putLocation, onCluster_ok, Prod.mk.injEq] at hput
    rw [hput.2]
    exact NoneRetired.put (w := w.setAccess _) hw (Option.isNone_iff_eq_none.mp (hnone hr))
  exact Leaves.noneRetired _ s r hs h

theorem replicatedReported_keeps (hr : app.replicated = true) (req : BlockReportRequest)
    (receipt : DurableReceipt) : Keeps NoneRetired (replicatedReported app req receipt) := by
  unfold replicatedReported
  refine .bind (Leaves.noneRetired _) fun _ => .query fun w v hw hv r h => ?_
  obtain rfl : w = v := by simpa [world] using hv
  dsimp only at h
  have hw' : NoneRetired (w.setAccess (w.access.later 1)) := hw
  split at h
  · exact confirmLocation_keeps hr receipt req.reportId _ _ hw' h
  · split at h
    · rename_i old hold
      split at h
      · simp only [run_now] at h
        exact putLocation_keeps h hw (locationAt_mem hold).1 rfl
      · exact Leaves.noneRetired _ _ _ hw' h
    · exact Leaves.noneRetired _ _ _ hw' h

/-- The copies that were not reported are marked one by one. -/
theorem closeInventory_keeps (req : BlockReportRequest) :
    Keeps NoneRetired (closeInventory app req) := by
  unfold closeInventory
  refine .query fun w c hw hc r h => ?_
  obtain rfl : w.cluster = c := by simpa [cluster] using hc
  have hw' : NoneRetired (w.setAccess (w.access.later 1)) := hw
  -- Every record of the loop was there when it began, and the tombstones do not change.
  have hfold := Tx.each_induction (fun (rest : List Location) (v : World) => NoneRetired v ∧
    ∀ l ∈ rest, v.access.retired.get l.block = none) ?_ ⟨hw', hw'⟩ h
  · exact hfold.1
  · rintro l rest v v' ⟨hv, hrest⟩ hturn
    have hl := hrest l List.mem_cons_self
    have hrest' := fun x hx => hrest x (List.mem_cons_of_mem _ hx)
    split at hturn
    · split at hturn
      · rw [putLocation, onCluster_ok, Prod.mk.injEq] at hturn
        rw [hturn.2]
        exact ⟨hv.put hl, hrest'⟩
      · rw [deleteLocation, onCluster_ok, Prod.mk.injEq] at hturn
        rw [hturn.2]
        exact ⟨Table.forall_delete hv, hrest'⟩
    · rw [Tx.pure_ok, Prod.mk.injEq] at hturn
      rw [hturn.2]
      exact ⟨hv, hrest'⟩

theorem reportPage_keeps (hr : app.replicated = true) (req : BlockReportRequest)
    (node : DataNode) : Keeps NoneRetired (reportPage app req node) := by
  unfold reportPage
  simp only [hr, if_true]
  refine .bind (Leaves.noneRetired _) fun _ => .bind ?_ fun _ => .bind (Leaves.noneRetired _)
    fun _ => .bind ?_ fun _ => Leaves.noneRetired _
  · exact .each fun receipt => replicatedReported_keeps hr req receipt
  · exact .ite (closeInventory_keeps req) (Leaves.noneRetired _)

theorem blockReport_keeps (hr : app.replicated = true) (call : NodeCall)
    (req : BlockReportRequest) : Keeps NoneRetired (blockReport app call req) := by
  unfold blockReport
  refine .bind (Leaves.noneRetired _) fun _ => .bind (Leaves.noneRetired _) fun _ =>
    .bind (Leaves.noneRetired _) fun _ => .bind (Leaves.noneRetired _) fun node =>
      .bind (Leaves.noneRetired _) fun _ => ?_
  exact .ite (Leaves.noneRetired _) (reportPage_keeps hr req node)

theorem reportDurable_keeps (hr : app.replicated = true) (call : NodeCall)
    (req : ReportDurableRequest) : Keeps NoneRetired (reportDurable app call req) := by
  unfold reportDurable
  refine .bind (Leaves.noneRetired _) fun _ => .bind (Leaves.noneRetired _) fun node =>
    .bind (Leaves.noneRetired _) fun user => .bind (Leaves.noneRetired _) fun _ =>
      .bind (Leaves.noneRetired _) fun previous => ?_
  cases previous with
  | some response => exact Leaves.noneRetired _
  | none =>
      unfold confirmStored
      refine .bind (Leaves.noneRetired _) fun session => .bind (Leaves.noneRetired _) fun op =>
        .bind (Leaves.noneRetired _) fun c => .bind (Leaves.noneRetired _) fun assignment =>
          .bind (Leaves.noneRetired _) fun _ => .bind (Leaves.noneRetired _) fun _ =>
            .bind (Leaves.noneRetired _) fun _ => ?_
      exact .bind (confirmLocation_keeps hr req.receipt _) fun _ => Leaves.noneRetired _

theorem reportPatch_keeps (hr : app.replicated = true) (call : NodeCall)
    (req : ReportPatchRequest) : Keeps NoneRetired (reportPatch app call req) := by
  unfold reportPatch
  refine .bind (Leaves.noneRetired _) fun _ => .bind (Leaves.noneRetired _) fun node =>
    .bind (Leaves.noneRetired _) fun user => .bind (Leaves.noneRetired _) fun previous => ?_
  cases previous with
  | some response => exact Leaves.noneRetired _
  | none =>
      unfold confirmPatched
      refine .bind (Leaves.noneRetired _) fun session => .bind (Leaves.noneRetired _) fun t =>
        .bind (Leaves.noneRetired _) fun _ => .bind (Leaves.noneRetired _) fun _ => ?_
      exact .bind (confirmLocation_keeps hr req.receipt _) fun _ => Leaves.noneRetired _

theorem reportTask_keeps (hr : app.replicated = true) (call : NodeCall)
    (req : ReportTaskRequest) : Keeps NoneRetired (reportTask app call req) := by
  have hcopy : ∀ task node, Keeps NoneRetired (confirmCopy app req task node) := fun task node => by
    unfold confirmCopy
    exact .bind (Leaves.noneRetired _) fun _ => .bind (Leaves.noneRetired _) fun receipt =>
      .bind (Leaves.noneRetired _) fun _ => .bind (Leaves.noneRetired _) fun _ =>
        confirmLocation_keeps hr receipt _
  unfold reportTask
  refine .bind (Leaves.noneRetired _) fun _ => .bind (Leaves.noneRetired _) fun c =>
    .bind (Leaves.noneRetired _) fun _ => .bind (Leaves.noneRetired _) fun task =>
      .bind (Leaves.noneRetired _) fun node => .bind (Leaves.noneRetired _) fun _ =>
        .bind (Leaves.noneRetired _) fun _ => .ite (Leaves.noneRetired _) ?_
  refine .bind (Leaves.noneRetired _) fun now => .bind (Leaves.noneRetired _) fun _ => ?_
  exact .bind (.ite (hcopy task node) (Leaves.noneRetired _)) fun _ => Leaves.noneRetired _

theorem scrubbed_keeps (loc : Location) (health : Health) :
    Keeps NoneRetired (scrubbed loc health) := by
  unfold scrubbed
  refine .query fun w v hw hv r h => ?_
  obtain rfl : w = v := by simpa [world] using hv
  split at h
  · exact Leaves.noneRetired _ (w.setAccess (w.access.later 1)) _ hw h
  · rename_i current hcur
    split at h
    · exact putLocation_keeps h hw (locationAt_mem hcur).1 rfl
    · exact Leaves.noneRetired _ (w.setAccess (w.access.later 1)) _ hw h

/-- No tombstone changed, and no copy is new. -/
structure Shrinks (w v : World) : Prop where
  retired : v.access.retired = w.access.retired
  locations : ∀ l ∈ v.cluster.locations.all, l ∈ w.cluster.locations.all

theorem Shrinks.refl (w : World) : Shrinks w w := ⟨rfl, fun _ h => h⟩

theorem Shrinks.trans {u v w : World} (h : Shrinks u v) (h' : Shrinks v w) : Shrinks u w :=
  ⟨h'.retired.trans h.retired, fun l hl => h.locations l (h'.locations l hl)⟩

theorem Leaves.shrinks {x : T α} [hx : Leaves World.copies x] {r : α × World}
    (h : x w = .ok r) : Shrinks w r.2 := by
  have hcopies := Leaves.leaves hx w r h
  simp only [World.copies, Prod.mk.injEq] at hcopies
  exact ⟨hcopies.2, fun l hl => hcopies.1 ▸ hl⟩

/-- Every copy of a block is forgotten, and none is new. -/
theorem clusterRetireBlock_copies {block : Block} {r : Unit × World}
    (h : (clusterRetireBlock app block) w = .ok r) :
    Shrinks w r.2 ∧ ∀ l ∈ r.2.cluster.locations.all, l.block ≠ block.id := by
  unfold clusterRetireBlock at h
  simp only [↓run_cluster] at h
  obtain ⟨_, s, hloop, h⟩ := Tx.bind_ok.mp h
  have hlast : Shrinks s r.2 := Leaves.shrinks h
  -- A turn forgets its own copy, if it is of the block.
  have hforget : ∀ l ∈ w.cluster.locations.all, ∀ v v' : World,
      (if l.block = block.id then do
        retireCopy app block.ref l.node
        deleteLocation (toLex (l.block, l.node))
      else pure () : T Unit) v = .ok ((), v') →
        Shrinks v v' ∧ (l.block = block.id → l ∉ v'.cluster.locations.all) := by
    intro l _ v v' hv
    split at hv
    · obtain ⟨_, u, hu, hv⟩ := Tx.bind_ok.mp hv
      rw [deleteLocation, onCluster_ok, Prod.mk.injEq] at hv
      have hdelete : Shrinks u v' := by
        rw [hv.2]
        exact ⟨rfl, fun x hx => (Table.mem_delete.mp hx).1⟩
      refine ⟨(Leaves.shrinks hu).trans hdelete, fun _ hmem => ?_⟩
      rw [hv.2] at hmem
      exact (Table.mem_delete.mp hmem).2 rfl
    · rename_i hne
      rw [Tx.pure_ok, Prod.mk.injEq] at hv
      rw [hv.2]
      exact ⟨.refl v, fun he => absurd he hne⟩
  have hturn := fun l hl v v' hv => (hforget l hl v v' hv).1
  have hbegin : Shrinks w (w.setAccess (w.access.later 1)) := ⟨rfl, fun _ hl => hl⟩
  have hshrinks : Shrinks w s :=
    hbegin.trans (Tx.each_rel Shrinks.refl Shrinks.trans hturn hloop)
  refine ⟨hshrinks.trans hlast, fun l hl he => ?_⟩
  have hmem := (hshrinks.trans hlast).locations l hl
  obtain ⟨v, v', -, hv, hrest⟩ := Tx.each_mem Shrinks.refl Shrinks.trans hturn hloop l hmem
  exact (hforget l hmem v v' hv).2 he ((hrest.trans hlast).locations l hl)

theorem retireBlock_keeps (hr : app.profile = .replicated) (block : Block) :
    Keeps NoneRetired (retireBlock app block) := by
  intro w r hw h
  unfold retireBlock at h
  simp only [hr, ↓run_now, putRetired, run_onAccess, setAccess_access, setAccess_setAccess] at h
  obtain ⟨hshrinks, hnone⟩ := clusterRetireBlock_copies h
  intro l hl
  have hmem := hshrinks.locations l hl
  have hne := hnone l hl
  have hother : (w.access.retired.put ⟨block.id, block.ref, w.access.now⟩).get l.block =
      w.access.retired.get l.block := Table.get_put_of_ne _ hne
  rw [hshrinks.retired]
  exact hother.trans (hw l hmem)

theorem collectMetadata_keeps (hr : app.profile = .replicated) (restart : Bool) :
    Keeps NoneRetired (collectMetadata app restart) := by
  unfold collectMetadata
  refine .bind (Leaves.noneRetired _) fun a => .bind (Leaves.noneRetired _) fun _ =>
    .bind (Leaves.noneRetired _) fun _ => .bind (Leaves.noneRetired _) fun pins =>
      .bind (Leaves.noneRetired _) fun w => .bind (Leaves.noneRetired _) fun kept =>
        .bind (Leaves.noneRetired _) fun a => .bind (.each fun block => ?_) fun _ =>
          Leaves.noneRetired _
  exact .ite (Leaves.noneRetired _) (retireBlock_keeps hr block)

/-! ## Runs -/

theorem call_keeps (hr : app.profile = .replicated) (c : Call) (hc : c.serves app = true) :
    Keeps NoneRetired (c.run app) := by
  have hrep : app.replicated = true := App.replicated_iff.mpr hr
  cases c with
  | blockReport call req => exact blockReport_keeps hrep call req
  | reportDurable call req => exact reportDurable_keeps hrep call req
  | reportPatch call req => exact reportPatch_keeps hrep call req
  | reportTask call req => exact reportTask_keeps hrep call req
  | collectMetadata => exact .bind (collectMetadata_keeps hr false) fun _ => Leaves.noneRetired _
  | scrubbed loc health => exact scrubbed_keeps loc health
  | _ =>
      unfold Call.run
      exact Leaves.noneRetired _

theorem start_keeps (hr : app.profile = .replicated) {stage next : Stage} {t : T Unit}
    (h : stage.next app = some (t, next)) : Keeps NoneRetired t := by
  cases stage with
  | down =>
      simp only [Stage.next, Option.some.injEq, Prod.mk.injEq] at h
      exact h.1 ▸ .bind (collectMetadata_keeps hr true) fun _ => Leaves.noneRetired _
  | collected =>
      simp only [Stage.next] at h
      split at h
      · simp only [Option.some.injEq, Prod.mk.injEq] at h
        exact h.1 ▸ Leaves.noneRetired _
      · simp only [Option.some.injEq, Prod.mk.injEq] at h
        exact h.1 ▸ Leaves.noneRetired _
  | swept =>
      simp only [Stage.next] at h
      split at h
      · simp only [Option.some.injEq, Prod.mk.injEq] at h
        exact h.1 ▸ Leaves.noneRetired _
      · simp only [Option.some.injEq, Prod.mk.injEq] at h
        exact h.1 ▸ Leaves.noneRetired _
  | leased =>
      simp only [Stage.next, Option.some.injEq, Prod.mk.injEq] at h
      exact h.1 ▸ Leaves.noneRetired _
  | registered =>
      simp only [Stage.next] at h
      split at h
      · simp only [Option.some.injEq, Prod.mk.injEq] at h
        exact h.1 ▸ Leaves.noneRetired _
      · simp only [Option.some.injEq, Prod.mk.injEq] at h
        exact h.1 ▸ Leaves.noneRetired _
  | serving => cases h

theorem Step.noneRetired (hr : app.profile = .replicated) {v : World} {e : Event}
    (h : Step app reports w e v) (hw : NoneRetired w) : NoneRetired v := by
  cases h with
  | advance k free => exact hw
  | serve _ h => exact Leaves.noneRetired _ w _ hw h
  | lookup _ _ => exact hw
  | refuse _ _ => exact hw
  | call _ _ hc h => exact call_keeps hr _ hc w _ hw h
  | start hnext h => exact start_keeps hr hnext w _ hw h
  | crash clk => exact hw

/-- **No copy of a retired block is recorded**, in any reachable state. -/
theorem Reachable.noneRetired (hr : app.profile = .replicated) (h : Reachable app reports w) :
    NoneRetired w := by
  obtain ⟨clk, username, password, es, hrun⟩ := h
  refine hrun.induct (fun _ _ _ hstep hw => hstep.noneRetired hr hw) ?_
  exact fun l hl => absurd hl List.not_mem_nil

/-- An operation has a block among those that it allocated, staged or plans to put in. -/
def Operation.Lists (op : Operation) (k : Id) : Prop :=
  (∃ x ∈ op.allocations, x.2.blockVersionId = k) ∨
  (op.kind = .upload ∧ ∃ page ∈ op.pages, ∃ b ∈ page.2, b.blockVersionId = k) ∨
  (op.kind = .write ∧ ∃ p ∈ op.parts, p.replacement.blockVersionId = k)

/-- What an operation in preparation lists it has allocated. -/
theorem Sound.lists {a : Access} (hs : Sound app a) {op : Operation} (hop : op ∈ a.uploads.all)
    (hst : op.state = .preparing) {k : Id} (h : op.Lists k) :
    ∃ x ∈ op.allocations, x.2.blockVersionId = k := by
  rcases h with h | ⟨hkind, page, hpage, b, hb, rfl⟩ | ⟨hkind, p, hp, rfl⟩
  · exact h
  · obtain ⟨i, hi⟩ := (hs.uploadShape op hop ⟨hkind, hst⟩).paged page hpage b hb
    exact ⟨_, hi, rfl⟩
  · refine ⟨(p.part.blockIndex, p.replacement), ?_, rfl⟩
    rw [(hs.writeShape op hop ⟨hkind, hst⟩).allocations]
    exact List.mem_map_of_mem (f := fun p : Part => (p.part.blockIndex, p.replacement)) hp

/-- **Once a block is retired nothing speaks of it again**: in every later state it is still
retired, it has no record and no copy, no snapshot lists it, and no operation that could still
commit does. -/
theorem retired_forever (hr : app.profile = .replicated) (h : Reachable app reports w) {k : Id}
    (hk : (w.access.retired.get k).isSome = true) {es : List Event} {v : World}
    (hrun : Run app reports w es v) :
    (v.access.retired.get k).isSome = true ∧ v.access.blocks.get k = none ∧
    (∀ l ∈ v.cluster.locations.all, l.block ≠ k) ∧
    (∀ s ∈ v.access.snapshots.all, ∀ b ∈ s.blocks, b.blockVersionId ≠ k) ∧
    ∀ op ∈ v.access.uploads.all, op.state = .preparing → ¬ op.Lists k := by
  have hsv := (h.run hrun).sound
  have hstill : (v.access.retired.get k).isSome = true :=
    Acts.keep (P := fun a => (a.retired.get k).isSome = true) (fun hact ha => hact.retired ha)
      (hrun.acts h.sound) hk
  obtain ⟨t, ht⟩ := Option.isSome_iff_exists.mp hstill
  have hid : t.id = k := Table.key_of_get ht
  obtain ⟨hblocks, hops⟩ := hsv.tombstones t (Table.mem_of_get ht)
  rw [hid] at hblocks hops
  refine ⟨hstill, hblocks, fun l hl he => ?_, fun s hs b hb he => ?_, fun op hop hst hlists => ?_⟩
  · have hnone := (h.run hrun).noneRetired hr l hl
    rw [he, ht] at hnone
    cases hnone
  · have hrec := hsv.recorded s hs b hb
    rw [he, hblocks] at hrec
    cases hrec
  · obtain ⟨x, hx, he⟩ := hsv.lists hop hst hlists
    exact hops op hop hst x hx he

/-- A committed file is removed, nobody reads it any more, and the control collects. -/
def smallRetire : List Input := smallCommit ++
  [smallInput 54 (.remove smallPath), smallInput 55 (.close 12 2), .call .collectMetadata]

theorem small_retired : ∃ w k, Reachable (App.small .replicated) (fun _ => True) w ∧
    (w.access.retired.get k).isSome = true ∧ w.access.blocks.get k = none ∧
      ∀ l ∈ w.cluster.locations.all, l.block ≠ k := by
  obtain ⟨w, hw, hne⟩ := exists_of_perform (App.small .replicated) smallRetire
    (World.small .replicated) (fun w => w.access.retired.all ≠ []) (by decide +kernel)
  obtain ⟨r, hr⟩ := List.exists_mem_of_ne_nil _ hne
  have hreach := perform_reachable hw
  have hget : (w.access.retired.get r.id).isSome = true := by
    rw [show w.access.retired.get r.id = some r from Table.get_of_mem hr]
    rfl
  have hreplicated : (App.small .replicated).profile = .replicated := rfl
  obtain ⟨hk, hb, hl, -⟩ := retired_forever hreplicated hreach hget (Run.nil w)
  exact ⟨w, r.id, hreach, hk, hb, hl⟩

end Dfsha
