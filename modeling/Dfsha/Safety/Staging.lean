import Dfsha.Protocol.Staging
import Dfsha.Safety.Contents

/-!
# One manifest for an upload

In every state that is reached, what is staged of an upload are parts of one manifest: the blocks
that are allocated at the places of the file, in their order.  `manifest` accepts the pages when all
of them are there, and never anything else.

## Main results

* `Reachable.staged` — the pages of uploads are those of their places.
* `stageManifestPage_accepts`, `sealManifest_accepts` — what is accepted.
* `manifest_agreement` — the one manifest.
-/

namespace Dfsha

variable {app : App} {reports : Call → Prop} {w : World} {op : Operation}

/-! ## The manifest -/

/-- **In every state that is reached, the pages of uploads are those of their places.** -/
theorem Reachable.staged (h : Reachable app reports w) : w.access.Staged := by
  obtain ⟨clk, username, password, es, hrun⟩ := h
  have hall := Run.induct (P := fun u => Sound app u.access ∧ u.access.Staged) ?_ hrun
    ⟨sound_initial clk username password, fun _ h => absurd h List.not_mem_nil⟩
  · exact hall.2
  · rintro u e x hstep ⟨hs, hst⟩
    exact ⟨hstep.sound hs, Acts.staged (hstep.all hs) hst⟩

/-- In every state that is reached, the allocations of uploads are at different places, each at that
of its block. -/
theorem Reachable.indexed (h : Reachable app reports w) : w.access.Indexed := by
  obtain ⟨clk, username, password, es, hrun⟩ := h
  have hall := Run.induct (P := fun u => Sound app u.access ∧ u.access.Indexed) ?_ hrun
    ⟨sound_initial clk username password, fun _ h => absurd h List.not_mem_nil⟩
  · exact hall.2
  · rintro u e x hstep ⟨hs, hi⟩
    exact ⟨hstep.sound hs, Acts.indexed (hstep.all hs) hi⟩

/-- What is allocated at a place is for that place. -/
theorem Operation.Staged.index_eq (h : op.Staged) (hall : op.Complete) :
    op.assembled.map BlockRef.blockIndex = List.range op.assembled.length := by
  have hplaces := h.assembled hall
  have hlength : op.assembled.length = blockCount op.total op.blockSize := by
    have := congrArg List.length hplaces
    simpa using this
  ext1 i
  by_cases hi : i < op.assembled.length
  · have hplace : (op.places)[i]? = some (some op.assembled[i]) := by
      rw [← hplaces]
      simp [hi]
    have halloc : op.allocation i = some op.assembled[i] := by
      simpa [Operation.places, hlength ▸ hi] using hplace
    have hpage : i / 64 < pageCount (blockCount op.total op.blockSize) := by
      rw [lt_pageCount_iff]
      omega
    obtain ⟨page, hmem⟩ := hall _ hpage
    have hok := h.page _ hmem
    have hsize := hok.length_eq
    have hin : i % 64 < page.length := by
      simp only at hsize
      omega
    have hplaced := hok.placed (page[i % 64], i / 64 * 64 + i % 64) (by
      rw [List.mk_mem_zipIdx_iff_le_and_getElem?_sub]
      simp [hin])
    have hi' : i / 64 * 64 + i % 64 = i := Nat.div_add_mod' i 64
    rw [hi'] at hplaced
    have hblock : page[i % 64] = op.assembled[i] :=
      Option.some.inj (hplaced.2.symm.trans halloc)
    have hplace : page[i % 64].blockIndex = i := hplaced.1
    simp [hi, ← hblock, hplace]
  · simp [hi]

/-- **`manifest` accepts the pages of an upload when all of them are there**, and then it is what is
allocated. -/
theorem manifest_iff (hs : Sound app w.access) (hst : w.access.Staged)
    (hop : w.access.uploads.get op.id = some op) (hkind : op.kind = .upload)
    (hstate : op.state = .preparing) {blocks : List BlockRef} :
    (manifest op) w = .ok blocks ↔ op.Complete ∧ blocks.map some = op.places := by
  have hmem := Table.mem_of_get hop
  have h := hst op hmem hkind
  have shape := hs.uploadShape op hmem ⟨hkind, hstate⟩
  have hB := block_pos shape.block_mem
  simp only [manifest, Query.bind_ok, need_ok, Query.pure_ok]
  constructor
  · rintro ⟨_, hlength, _, -, rfl⟩
    have hall := h.complete_iff.mp hlength
    exact ⟨hall, h.assembled hall⟩
  · rintro ⟨hall, hblocks⟩
    have hassembled := h.assembled hall
    have heq : op.assembled = blocks :=
      (List.map_injective_iff.mpr (Option.some_injective _)) (hassembled.trans hblocks.symm)
    have hcount : op.assembled.length = blockCount op.total op.blockSize := by
      have := congrArg List.length hassembled
      simpa using this
    have hindex := h.index_eq hall
    have hpaged : ∀ b ∈ op.assembled, ∃ page ∈ op.pages, b ∈ page.2 := by
      intro b hb
      obtain ⟨i, -, hb⟩ := List.mem_flatMap.mp hb
      cases hl : op.pages.lookup i with
      | none => simp [hl] at hb
      | some page =>
          obtain ⟨l₁, l₂, he, -⟩ := List.lookup_eq_some_iff.mp hl
          exact ⟨(i, page), by rw [he]; simp, by simpa [hl] using hb⟩
    have hsum := (Sound.manifest_of_upload shape hcount hindex hpaged).cut.sum hB
    exact ⟨(), h.complete_iff.mpr hall, (), ⟨hcount, hsum, hindex⟩, heq⟩

/-! ## What is accepted -/

/-- The loop over a page goes through. -/
theorem stageBlocks_accepts {blocks : List BlockRef} :
    ∀ {start : Nat} {w : World},
      (∀ x ∈ blocks.zipIdx start, x.1.blockIndex = x.2 ∧ op.allocation x.2 = some x.1) →
      (∀ b ∈ blocks, (w.access.blocks.get b.blockVersionId).isSome = true) →
      ∃ k, (Tx.each (blocks.zipIdx start) (stageBlock op)) w =
        .ok ((), w.setAccess (w.access.later k)) := by
  induction blocks with
  | nil =>
      intro start w _ _
      exact ⟨0, rfl⟩
  | cons b blocks ih =>
      intro start w hplaced hrec
      have hfirst : (stageBlock op (b, start)) w = .ok ((), w.setAccess (w.access.later 3)) := by
        unfold stageBlock
        simp only [↓run_need, ↓run_access, last_query, setAccess_access, setAccess_setAccess,
          Access.later_later, Nat.reduceAdd]
        exact ⟨hplaced (b, start) (by simp), need_ok.mpr (hrec b List.mem_cons_self), trivial⟩
      have hrest : ∀ x ∈ blocks.zipIdx (start + 1),
          x.1.blockIndex = x.2 ∧ op.allocation x.2 = some x.1 := fun x hx =>
        hplaced x (by simp [hx])
      obtain ⟨k, hk⟩ := ih (w := w.setAccess (w.access.later 3)) hrest
        fun c hc => hrec c (List.mem_cons_of_mem _ hc)
      refine ⟨3 + k, ?_⟩
      rw [List.zipIdx_cons, Tx.each, Tx.bind_ok]
      refine ⟨(), _, hfirst, ?_⟩
      rw [hk]
      simp only [setAccess_access, setAccess_setAccess, Access.later_later]

/-- **A page of stored blocks is accepted** that is that of its place. -/
theorem stageManifestPage_accepts {user : User} {session : Session}
    {req : StageManifestPageRequest}
    (hop : (operation app user session req.operation (some req.fence)) w = .ok op)
    (hseal : op.sealed = none) (hpage : PageOk op req.pageIndex req.blocks)
    (hrec : ∀ b ∈ req.blocks, (w.access.blocks.get b.blockVersionId).isSome = true)
    (hbytes : req.byteSize ≤ 65536) (hhash : app.manifestHash req.blocks = req.pageSha256) :
    ∃ r v, (stageManifestPage app user session req) w = .ok (r, v) ∧
      v.access.uploads.get op.id = some (op.staged req.pageIndex req.blocks) := by
  obtain ⟨k, hk⟩ := stageBlocks_accepts (w := w.setAccess (w.access.later 3)) hpage.placed hrec
  refine ⟨.pageReceipt ⟨op.id, some req.pageIndex, req.pageSha256, 1⟩, w.setAccess
    { (w.access.later (3 + k + 1)) with
      uploads := w.access.uploads.put (op.staged req.pageIndex req.blocks) }, ?_, ?_⟩
  · have hlength := hpage.length_eq
    unfold stageManifestPage
    simp only [↓run_need, run_query, setAccess_access, setAccess_setAccess, Access.later_later,
      Nat.reduceAdd]
    refine ⟨op, hop, hseal, ⟨hpage.pos, by omega, hbytes, hlength⟩, ?_⟩
    rw [Tx.bind_ok]
    refine ⟨(), _, hk, ?_⟩
    simp only [↓run_need, putUpload, run_onAccess, setAccess_access, setAccess_setAccess,
      Access.later_later, Tx.pure_ok]
    exact ⟨hhash, rfl⟩
  · exact Table.get_put_self _ (op.staged req.pageIndex req.blocks)

/-- The manifest of an operation depends on nothing else. -/
theorem manifest_elsewhere {v : World} {blocks : List BlockRef}
    (h : (manifest op) v = .ok blocks) : (manifest op) w = .ok blocks := by
  simp only [manifest, Query.bind_ok, need_ok, Query.pure_ok] at h ⊢
  exact h

/-- **The seal of a verified manifest is accepted.** -/
theorem sealManifest_accepts {user : User} {session : Session} {req : SealManifestRequest}
    {blocks : List BlockRef}
    (hop : (operation app user session req.operation (some req.fence)) w = .ok op)
    (hman : (manifest op) w = .ok blocks)
    (hcount : req.blockCount = blocks.length) (htotal : req.totalBytes = op.total)
    (hpages : req.pageCount = op.pages.length)
    (hhash : req.manifestSha256 = app.manifestHash blocks)
    (hverified : w.verifiedSeals.lookup op.id = some req.manifestSha256) :
    ∃ r v, (sealManifest app user session req) w = .ok (r, v) ∧
      ∃ q, v.access.uploads.get op.id = some q ∧
        q.sealed = some ⟨op.id, none, req.manifestSha256, 1⟩ := by
  refine ⟨.pageReceipt ⟨op.id, none, req.manifestSha256, 1⟩, w.setAccess
    { (w.access.later 5) with
      uploads := w.access.uploads.put
        { op with sealed := some ⟨op.id, none, req.manifestSha256, 1⟩ } }, ?_, _,
    Table.get_put_self _ _, rfl⟩
  unfold sealManifest
  simp only [↓run_need, ↓run_world, run_query, putUpload, run_onAccess, setAccess_access,
    setAccess_setAccess, Access.later_later, Nat.reduceAdd, Tx.pure_ok]
  exact ⟨op, hop, blocks, manifest_elsewhere hman,
    ⟨hcount, htotal, hpages, hhash⟩, hverified, rfl⟩

/-! ## Runs -/

/-- A run keeps what is allocated and staged. -/
theorem Run.remains {es : List Event} {v : World} (hrun : Run app reports w es v) :
    Sound app w.access → w.access.Staged →
      w.access.uploads.Grows (fun o p => o.kind = .upload → Remains o p) v.access.uploads := by
  induction hrun with
  | nil => exact fun _ _ => .refl (fun _ _ => .refl _) _
  | @cons u x z e es hstep hrest ih =>
      intro hs hst k o ho
      have hacts := hstep.all hs
      obtain ⟨p, hp, hfirst⟩ := Acts.remains hacts hst k o ho
      obtain ⟨q, hq, hmore⟩ := ih (hstep.sound hs) (Acts.staged hacts hst) k p hp
      obtain ⟨p', hp', hev⟩ := Acts.uploads hacts k o ho
      obtain rfl := Option.some.inj (hp.symm.trans hp')
      exact ⟨q, hq, fun hkind => (hfirst hkind).trans (hmore (hev.kind_eq.trans hkind))⟩

/-- **One manifest for an upload.**  In every state that is reached, each page that is staged is that
of its place: the blocks that are allocated there.  `manifest` accepts the pages exactly when all
places have theirs, and what it makes of them are the blocks that are allocated, in their order.
What is staged, and what is allocated, is the same in every later state. -/
theorem manifest_agreement (h : Reachable app reports w)
    (hop : w.access.uploads.get op.id = some op) (hkind : op.kind = .upload) :
    (∀ x ∈ op.pages, x.1 < pageCount (blockCount op.total op.blockSize) ∧
        x.2.map some = slice op.places (x.1 * 64) 64) ∧
      (op.state = .preparing → ∀ blocks, (manifest op) w = .ok blocks ↔
        (∀ i < pageCount (blockCount op.total op.blockSize), ∃ page, (i, page) ∈ op.pages) ∧
          blocks.map some = op.places) ∧
      ∀ es v, Run app reports w es v → ∃ q, v.access.uploads.get op.id = some q ∧
        (∀ i b, op.allocation i = some b → q.allocation i = some b) ∧
          ∀ x ∈ op.pages, x ∈ q.pages := by
  have hs := h.sound
  have hst := h.staged
  refine ⟨fun x hx => ?_, fun hstate blocks => manifest_iff hs hst hop hkind hstate,
    fun es v hrun => ?_⟩
  · have hpage := (hst op (Table.mem_of_get hop) hkind).page x hx
    exact ⟨hpage.lt, hpage.slice_eq⟩
  · obtain ⟨q, hq, hremains⟩ := hrun.remains hs hst op.id op hop
    exact ⟨q, hq, (hremains hkind).allocation, (hremains hkind).pages⟩

/-- One page is staged of a file of three bytes. -/
theorem small_agreement : ∃ w op, op.pages = [(0, [smallSentBlock])] ∧
    (manifest op) w = .ok [smallSentBlock] := by
  obtain ⟨w, hw, hops⟩ := exists_of_perform (App.small .rf3) smallSent (World.small .rf3)
    (fun w => (w.access.uploads.get 10).any (fun o => decide (o.id = 10 ∧ o.kind = .upload ∧
      o.state = .preparing ∧ o.pages = [(0, [smallSentBlock])] ∧
        pageCount (blockCount o.total o.blockSize) = 1 ∧
          o.places = [some smallSentBlock])) = true)
    (by decide +kernel)
  obtain ⟨o, ho, hops⟩ := (Option.any_eq_true _ _).mp hops
  obtain ⟨hid, hkind, hstate, hpages, hcount, hplaces⟩ := of_decide_eq_true hops
  rw [← hid] at ho
  have hreach : Reachable (App.small .rf3) (fun _ => True) w := perform_reachable hw
  obtain ⟨-, hman, -⟩ := manifest_agreement hreach ho hkind
  refine ⟨w, o, hpages, (hman hstate _).mpr ⟨fun i hi => ?_, hplaces.symm⟩⟩
  have hzero : i = 0 := by omega
  exact ⟨[smallSentBlock], by rw [hpages, hzero]; exact List.mem_singleton.mpr rfl⟩

end Dfsha
