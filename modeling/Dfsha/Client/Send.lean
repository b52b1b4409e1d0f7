import Dfsha.Safety.Staging

/-!
# How a client sends a file

`send` goes through the blocks of a file.  It has each one allocated, sends it, and collects it on a
page; a page is staged when it holds 64 blocks, or with the last block.  In the end it asks for a
seal, with the numbers and the hash of what it has collected.

## Main definitions

* `requested` — what `send` asks to be allocated.
* `sendBlocks` — its loop.
* `sealRequest` — its last request.

## Main results

* `sendBlocks_eq` — the pages are the blocks, cut into pieces of 64.
* `send_accepted` — the control accepts what is sent, and publishes what the client has collected.
-/

namespace Dfsha.Client

variable {app : App} {reports : Call → Prop} {w : World} {op : Operation}

/-- What `send` asks to be allocated at a place. -/
def requested (file : Id) (total blockSize index : Nat) (digest : Digest) : BlockRef where
  fileId := file
  blockVersionId := 0
  blockIndex := index
  sizeBytes := min blockSize (total - index * blockSize)
  plaintextSha256 := digest

/-- What `send` has collected between two blocks, and the pages that it has staged. -/
structure Sending where
  blocks : List BlockRef
  page : List BlockRef
  pageIndex : Nat
  staged : List (Nat × List BlockRef)
  deriving DecidableEq, Repr

def Sending.new : Sending := ⟨[], [], 0, []⟩

/-- One turn of the loop of `send`: the block that was allocated, and its place. -/
def sendBlock (count : Nat) (s : Sending) (x : BlockRef × Nat) : Sending :=
  let blocks := s.blocks ++ [x.1]
  let page := s.page ++ [x.1]
  if page.length = 64 ∨ x.2 + 1 = count then
    ⟨blocks, [], s.pageIndex + 1, s.staged ++ [(s.pageIndex, page)]⟩
  else ⟨blocks, page, s.pageIndex, s.staged⟩

/-- The loop of `send`, over the blocks that the control allocates. -/
def sendBlocks (blocks : List BlockRef) : Sending :=
  blocks.zipIdx.foldl (sendBlock blocks.length) Sending.new

/-- The request for a seal. -/
def sealRequest (app : App) (reference : OperationRef) (fence : Fence) (total : Nat)
    (s : Sending) : SealManifestRequest where
  operation := reference
  pageCount := s.pageIndex
  blockCount := s.blocks.length
  totalBytes := total
  manifestSha256 := app.manifestHash s.blocks
  fence := fence

/-! ## Pages -/

/-- Pieces with their numbers. -/
def numbered (start : Nat) (pages : List (List BlockRef)) : List (Nat × List BlockRef) :=
  (pages.zipIdx start).map Prod.swap

/-- The loop from some place on. -/
theorem foldl_sendBlock {rest : List BlockRef} :
    ∀ {start : Nat} {s : Sending}, s.page.length < 64 → (rest = [] → s.page = []) →
      (rest.zipIdx start).foldl (sendBlock (start + rest.length)) s =
        ⟨s.blocks ++ rest, [], s.pageIndex + (slices 64 (s.page ++ rest)).length,
          s.staged ++ numbered s.pageIndex (slices 64 (s.page ++ rest))⟩ := by
  induction rest with
  | nil =>
      intro start s _ hnil
      have hpage := hnil rfl
      have hnone : slices 64 ([] : List BlockRef) = [] := rfl
      cases s
      subst hpage
      simp [hnone, numbered]
  | cons b rest ih =>
      intro start s hfew _
      have hcount : start + (b :: rest).length = start + 1 + rest.length := by
        rw [List.length_cons]
        omega
      have hlength : (s.page ++ [b]).length = s.page.length + 1 := by simp
      have happend : s.page ++ b :: rest = (s.page ++ [b]) ++ rest := by simp
      rw [List.zipIdx_cons, List.foldl_cons, hcount]
      by_cases hfull : (s.page ++ [b]).length = 64 ∨ rest = []
      · -- the page is staged
        have hcond : (s.page ++ [b]).length = 64 ∨ start + 1 = start + 1 + rest.length := by
          rcases hfull with hfull | rfl
          · exact .inl hfull
          · exact .inr rfl
        have hstep : sendBlock (start + 1 + rest.length) s (b, start) =
            ⟨s.blocks ++ [b], [], s.pageIndex + 1, s.staged ++ [(s.pageIndex, s.page ++ [b])]⟩ :=
          if_pos hcond
        have hcut : slices 64 (s.page ++ b :: rest) = (s.page ++ [b]) :: slices 64 rest := by
          rw [slices_eq (by decide) (by simp), happend]
          rcases hfull with hfull | rfl
          · rw [← hfull, List.take_left, List.drop_left]
          · rw [List.append_nil, List.take_of_length_le (by omega),
              List.drop_of_length_le (by omega)]
        rw [hstep, ih (by simp) (fun _ => rfl), hcut]
        simp [numbered, Nat.add_assoc, Nat.add_comm 1]
      · -- the page is not full
        have hmore : rest ≠ [] := fun he => hfull (.inr he)
        have hpos : 0 < rest.length := List.length_pos_iff.mpr hmore
        have hcond : ¬ ((s.page ++ [b]).length = 64 ∨ start + 1 = start + 1 + rest.length) := by
          intro hcond
          rcases hcond with hcond | hcond
          · exact hfull (.inl hcond)
          · omega
        have hstep : sendBlock (start + 1 + rest.length) s (b, start) =
            ⟨s.blocks ++ [b], s.page ++ [b], s.pageIndex, s.staged⟩ := if_neg hcond
        have hpage : (s.page ++ [b]).length < 64 := by
          have hne : (s.page ++ [b]).length ≠ 64 := fun he => hfull (.inl he)
          omega
        rw [hstep, ih hpage (fun he => absurd he hmore), happend]
        simp

/-- **The pages of a file are its blocks**, cut into pieces of 64. -/
theorem sendBlocks_eq (blocks : List BlockRef) :
    sendBlocks blocks =
      ⟨blocks, [], pageCount blocks.length, numbered 0 (slices 64 blocks)⟩ := by
  have hloop := @foldl_sendBlock blocks 0 Sending.new (by decide) fun _ => rfl
  rw [Nat.zero_add] at hloop
  rw [sendBlocks, hloop]
  have hcount : (slices 64 blocks).length = pageCount blocks.length :=
    length_slices (by decide) blocks
  simp [Sending.new, hcount]

/-- A piece with its number is a part of the whole. -/
theorem mem_numbered {pages : List (List BlockRef)} {start : Nat} {x : Nat × List BlockRef} :
    x ∈ numbered start pages ↔ start ≤ x.1 ∧ pages[x.1 - start]? = some x.2 := by
  unfold numbered
  constructor
  · intro hx
    obtain ⟨y, hy, rfl⟩ := List.mem_map.mp hx
    exact List.mk_mem_zipIdx_iff_le_and_getElem?_sub.mp hy
  · intro hx
    exact List.mem_map.mpr ⟨(x.2, x.1), List.mk_mem_zipIdx_iff_le_and_getElem?_sub.mpr hx, rfl⟩

/-- The pages that are staged of the blocks of a file. -/
theorem mem_staged {blocks : List BlockRef} {x : Nat × List BlockRef} :
    x ∈ (sendBlocks blocks).staged ↔
      x.1 < pageCount blocks.length ∧ x.2 = slice blocks (x.1 * 64) 64 := by
  have hcount : (slices 64 blocks).length = pageCount blocks.length :=
    length_slices (by decide) blocks
  rw [sendBlocks_eq, mem_numbered, Nat.sub_zero, ← hcount]
  constructor
  · rintro ⟨-, hx⟩
    obtain ⟨hlt, hpage⟩ := List.getElem?_eq_some_iff.mp hx
    exact ⟨hlt, hpage.symm.trans (getElem_slices (by decide) hlt)⟩
  · rintro ⟨hlt, hx⟩
    refine ⟨Nat.zero_le _, ?_⟩
    rw [List.getElem?_eq_getElem hlt, getElem_slices (by decide) hlt, hx, slice]

/-! ## What the control says -/

/-- **A page of what was allocated** is that of its place. -/
theorem pageOk_of_staged {blocks : List BlockRef} (hblocks : blocks.map some = op.places)
    (hindex : ∀ i b, op.allocation i = some b → b.blockIndex = i) {x : Nat × List BlockRef}
    (hx : x ∈ (sendBlocks blocks).staged) : PageOk op x.1 x.2 := by
  obtain ⟨hlt, hpage⟩ := mem_staged.mp hx
  have hcount : blocks.length = blockCount op.total op.blockSize := by
    have hlength := congrArg List.length hblocks
    simpa using hlength
  rw [lt_pageCount_iff] at hlt
  have hlength : x.2.length = min 64 (blocks.length - x.1 * 64) := by rw [hpage, length_slice]
  refine ⟨by omega, by rw [hlength, hcount], ?_⟩
  intro y hy
  obtain ⟨hle, hget⟩ := List.mk_mem_zipIdx_iff_le_and_getElem?_sub.mp hy
  rw [hpage, slice, List.getElem?_take, List.getElem?_drop] at hget
  split at hget
  · have hplace : x.1 * 64 + (y.2 - x.1 * 64) = y.2 := by omega
    rw [hplace] at hget
    have hin : y.2 < blocks.length := (List.getElem?_eq_some_iff.mp hget).1
    have hplaces : op.places[y.2]? = some (some y.1) := by
      rw [← hblocks, List.getElem?_map, hget]
      rfl
    have halloc : op.allocation y.2 = some y.1 := by
      simpa [Operation.places, hcount ▸ hin] using hplaces
    exact ⟨hindex _ _ halloc, halloc⟩
  · exact absurd hget (by simp)

/-- What `AllocateBlocks` checks of a block. -/
def Allocatable (op : Operation) (b : BlockRef) : Prop :=
  0 < min op.blockSize (op.total - b.blockIndex * op.blockSize) ∧ b.fileId = op.file ∧
    b.sizeBytes = min op.blockSize (op.total - b.blockIndex * op.blockSize) ∧
      b.plaintextSha256.length = 32 ∧ b.blockVersionId = 0

/-- What does not pass that check is refused. -/
theorem allocateBlock_refuses {user : User} {planned : List PlannedBlock} {b : BlockRef}
    (hb : ¬ Allocatable op b) {r : (Operation × List PlannedBlock) × World} :
    (allocateBlock app user (op, planned) b) w ≠ .ok r := by
  intro h
  unfold allocateBlock at h
  simp only [↓run_need] at h
  exact hb h.1

/-- What `send` asks for passes the check of `AllocateBlocks` at the places of the file, and at no
others. -/
theorem requested_iff (hsize : 0 < op.blockSize) {index : Nat} {digest : Digest}
    (hdigest : digest.length = 32) :
    index < blockCount op.total op.blockSize ↔
      Allocatable op (requested op.file op.total op.blockSize index digest) := by
  have hlt : index < blockCount op.total op.blockSize ↔ index * op.blockSize < op.total := by
    unfold blockCount
    rw [Nat.lt_div_iff_mul_lt hsize]
    omega
  rw [hlt]
  constructor
  · intro h
    have hpos : 0 < min op.blockSize (op.total - index * op.blockSize) := by omega
    exact ⟨hpos, rfl, rfl, hdigest, rfl⟩
  · rintro ⟨h, -⟩
    have hpos : 0 < min op.blockSize (op.total - index * op.blockSize) := h
    omega

/-- **The control accepts what `send` sends.**  The client goes through the places of the file, each
of which it may ask to be allocated.  If it has collected what was allocated there, and the blocks
are stored, then each of its pages is accepted; when all of them are staged, in whatever order and
however often, the manifest is what it has collected, and its request for a seal is accepted when
the manifest has been verified. -/
theorem send_accepted (h : Reachable app reports w) {user : User} {session : Session}
    {reference : OperationRef} {fence : Fence}
    (hauth : (operation app user session reference (some fence)) w = .ok op)
    (hseal : op.sealed = none) {blocks : List BlockRef} (hblocks : blocks.map some = op.places)
    (hrec : ∀ b ∈ blocks, (w.access.blocks.get b.blockVersionId).isSome = true) :
    (∀ (index : Nat) (digest : Digest), digest.length = 32 →
        (index < blocks.length ↔
          Allocatable op (requested op.file op.total op.blockSize index digest))) ∧
      (∀ x ∈ (sendBlocks blocks).staged, ∀ byteSize ≤ 65536, ∃ r v,
        (stageManifestPage app user session
          ⟨reference, x.1, x.2, app.manifestHash x.2, fence, byteSize⟩) w = .ok (r, v) ∧
        v.access.uploads.get op.id = some (op.staged x.1 x.2)) ∧
      ((manifest op) w = .ok blocks ↔ ∀ x ∈ (sendBlocks blocks).staged, x ∈ op.pages) ∧
      ((∀ x ∈ (sendBlocks blocks).staged, x ∈ op.pages) →
        w.verifiedSeals.lookup op.id = some (app.manifestHash blocks) →
        ∃ r v, (sealManifest app user session
            (sealRequest app reference fence op.total (sendBlocks blocks))) w = .ok (r, v) ∧
          ∃ q, v.access.uploads.get op.id = some q ∧
            q.sealed = some ⟨op.id, none, app.manifestHash blocks, 1⟩) := by
  have hs := h.sound
  have hst := h.staged
  obtain ⟨-, hup⟩ := operation_ok hs hauth
  have hmem := Table.mem_of_get hup.stored
  have hstaged := hst op hmem hup.kind
  have hindexed := h.indexed op hmem hup.kind
  have hcount : blocks.length = blockCount op.total op.blockSize := by
    have hlength := congrArg List.length hblocks
    simpa using hlength
  have hindex : ∀ i b, op.allocation i = some b → b.blockIndex = i := fun i b hb =>
    (hindexed.index _ (mem_of_allocation hb)).symm
  have hpage : ∀ x ∈ (sendBlocks blocks).staged, PageOk op x.1 x.2 := fun x hx =>
    pageOk_of_staged hblocks hindex hx
  have hman : (manifest op) w = .ok blocks ↔ ∀ x ∈ (sendBlocks blocks).staged, x ∈ op.pages := by
    rw [manifest_iff hs hst hup.stored hup.kind hup.state]
    constructor
    · rintro ⟨hall, -⟩ x hx
      obtain ⟨page, hmem'⟩ := hall x.1 (hcount ▸ (mem_staged.mp hx).1)
      have hsame : page = x.2 := (hstaged.page _ hmem').unique (hpage x hx)
      rwa [hsame] at hmem'
    · intro hall
      refine ⟨fun i hi => ?_, hblocks⟩
      exact ⟨slice blocks (i * 64) 64,
        hall (i, slice blocks (i * 64) 64) (mem_staged.mpr ⟨hcount.symm ▸ hi, rfl⟩)⟩
  have shape := hs.uploadShape op hmem ⟨hup.kind, hup.state⟩
  refine ⟨fun index digest hdigest => ?_, fun x hx n hn => ?_, hman, fun hall hverified => ?_⟩
  · rw [hcount]
    exact requested_iff (block_pos shape.block_mem) hdigest
  · refine stageManifestPage_accepts hauth hseal (hpage x hx) (fun b hb => hrec b ?_) hn rfl
    have hslice : b ∈ slice blocks (x.1 * 64) 64 := (mem_staged.mp hx).2 ▸ hb
    exact List.mem_of_mem_drop (List.mem_of_mem_take hslice)
  · have hok := hman.mpr hall
    obtain ⟨hcomplete, -⟩ := (manifest_iff hs hst hup.stored hup.kind hup.state).mp hok
    have hpages : (sendBlocks blocks).pageIndex = op.pages.length := by
      rw [hstaged.complete_iff.mpr hcomplete, sendBlocks_eq, hcount]
    have hcollected : (sendBlocks blocks).blocks = blocks := by rw [sendBlocks_eq]
    have hhash : (sealRequest app reference fence op.total (sendBlocks blocks)).manifestSha256 =
        app.manifestHash blocks := by rw [sealRequest, hcollected]
    have hnumber : (sealRequest app reference fence op.total (sendBlocks blocks)).blockCount =
        blocks.length := congrArg List.length hcollected
    obtain ⟨r, v, hrun, q, hq, hsealed⟩ :=
      sealManifest_accepts hauth hok hnumber rfl hpages hhash (hhash ▸ hverified)
    exact ⟨r, v, hrun, q, hq, hhash ▸ hsealed⟩

/-- A page of the one block of a file of three bytes. -/
theorem small_accepted : ∃ w user session, ∃ op : Operation, ∃ r v,
    (stageManifestPage (App.small .rf3) user session
      ⟨smallUploaded, 0, [smallSentBlock], (App.small .rf3).manifestHash [smallSentBlock],
        smallUploadFence, 100⟩) w = .ok (r, v) ∧
      v.access.uploads.get op.id = some (op.staged 0 [smallSentBlock]) := by
  obtain ⟨w, hw, hauth⟩ := exists_of_perform (App.small .rf3) (smallSent.take 12) (World.small .rf3)
    (fun w => ((authenticated (App.small .rf3) 8 (smallContext 53)) w).toOption.any (fun p =>
      ((operation (App.small .rf3) p.1 p.2 smallUploaded (some smallUploadFence)) w).toOption.any
        fun o => decide (o.sealed = none ∧ o.places = [some smallSentBlock] ∧
          (w.access.blocks.get smallSentBlock.blockVersionId).isSome = true)) = true)
    (by decide +kernel)
  obtain ⟨p, -, hop⟩ := exists_ok hauth
  obtain ⟨o, hrun, hops⟩ := exists_ok hop
  obtain ⟨hseal, hplaces, hrec⟩ := of_decide_eq_true hops
  have hreach : Reachable (App.small .rf3) (fun _ => True) w := perform_reachable hw
  have hblocks : [smallSentBlock].map some = o.places := hplaces.symm
  obtain ⟨-, hpages, -⟩ := send_accepted hreach hrun hseal hblocks (by simpa using hrec)
  have hstaged : (0, [smallSentBlock]) ∈ (sendBlocks [smallSentBlock]).staged :=
    mem_staged.mpr ⟨by decide, by decide⟩
  obtain ⟨r, v, hr⟩ := hpages _ hstaged 100 (by decide)
  exact ⟨w, p.1, p.2, o, r, v, hr⟩

end Dfsha.Client
