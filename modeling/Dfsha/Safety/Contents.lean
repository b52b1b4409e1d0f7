import Dfsha.Datanode.Patch
import Dfsha.Protocol.Contents
import Dfsha.Safety.Versions

/-!
# Contents of files

In a control with leases whose data nodes store what they report, every commit publishes one
snapshot, and its content is determined by that of the snapshot which its file has in that
transaction: a write overwrites it, an upload replaces it by the bytes that were sent.  Other
writes that were committed since the operation began are not lost.

## Main definitions

* `Contents.Honest` — data nodes report what they store, and build replacements as asked.

## Main results

* `write_contents` — the content of the snapshot that a committed write publishes.
* `upload_contents` — the content of the snapshot that a committed upload publishes.
-/

namespace Dfsha

variable {app : App} {w v : World} {c : Contents} {trust : Trust}

/-! ## Honest data nodes -/

/-- Data nodes report the sizes of the blocks that they store, and a replacement that they built
from the base and the piece of the delta that the request names. -/
def Contents.Honest (c : Contents) : Call → Prop
  | .reportDurable _ req =>
      (c.block req.receipt.block.blockVersionId).length = req.receipt.block.sizeBytes
  | .reportPatch _ req =>
      (c.block req.receipt.block.blockVersionId).length = req.receipt.block.sizeBytes ∧
        (c.preimage req.patch.deltaSha256).length = req.patch.deltaLength ∧
        c.block req.patch.newBlockVersionId =
          overwrite (c.base req.patch.base) req.patch.blockOffset
            (c.preimage req.patch.deltaSha256)
  | .recordBlock _ header _ _ =>
      (c.block header.block.blockVersionId).length = header.block.sizeBytes
  | _ => True

/-- **A data node that stores what `patch_block` computes is honest**: it read the base that the
request names, in whatever pieces, and came to the end of the replacement. -/
theorem Contents.honest_patch {call : NodeCall} {req : ReportPatchRequest} {p : Patch}
    {alive : Nat → Bool} {source chunks : List Bytes}
    (hoffset : p.blockOffset = req.patch.blockOffset)
    (hdelta : p.delta = c.preimage req.patch.deltaSha256)
    (hlength : p.delta.length = req.patch.deltaLength)
    (hle : p.blockOffset ≤ (c.base req.patch.base).length)
    (hsize : p.replacementSize =
      max (c.base req.patch.base).length (p.blockOffset + p.delta.length))
    (hsource : source.flatten = c.base req.patch.base)
    (hrun : p.resultChunks alive source = (chunks, none))
    (hstored : c.block req.patch.newBlockVersionId = chunks.flatten)
    (hversion : req.receipt.block.blockVersionId = req.patch.newBlockVersionId)
    (hbytes : req.receipt.block.sizeBytes = p.replacementSize) :
    c.Honest (.reportPatch call req) := by
  have hcontent := Patch.flatten_resultChunks hle hsize hsource hrun
  refine ⟨?_, by rw [← hdelta, hlength], ?_⟩
  · rw [hversion, hstored, hcontent, hbytes, hsize, length_overwrite hle]
  · rw [hstored, hcontent, hoffset, hdelta]

theorem Contents.honest_admits {call : Call} (h : c.Honest call) : c.trust.admits call := by
  cases call with
  | reportDurable call req =>
      intro op hup
      refine ⟨h, fun hw => ?_⟩
      rw [hup] at hw
      cases hw
  | reportPatch call req =>
      intro op _ part hpart hp hversion _
      obtain ⟨hsize, hdelta, hcontent⟩ := h
      refine ⟨hsize, fun _ => ⟨part, hpart, ?_, ⟨?_, ?_⟩⟩⟩
      · exact hversion.symm
      · rw [← hp.sha, ← hp.length]
        exact hdelta
      · rw [hp.version, ← hp.base, ← hp.offset, ← hp.sha]
        exact hcontent
  | recordBlock token header stored digest =>
      intro op b hup hb
      refine ⟨by rw [hb]; exact h, fun hw => ?_⟩
      rw [hup] at hw
      cases hw
  | _ => trivial

/-- **In every state that is reached, the records agree with the contents.** -/
theorem Reachable.contents (h : Reachable app c.Honest w) :
    c.Holds w.access ∧ w.access.Versioned := by
  obtain ⟨clk, username, password, es, hrun⟩ := h
  have hall := Run.induct (P := fun u => Sound app u.access ∧ c.Holds u.access ∧ u.access.Versioned)
    ?_ hrun ⟨sound_initial clk username password, ⟨fun _ h => absurd h List.not_mem_nil,
      fun _ h => absurd h List.not_mem_nil, fun _ h => absurd h List.not_mem_nil⟩,
      fun _ h => absurd h List.not_mem_nil⟩
  · exact hall.2
  · rintro u e x hstep ⟨hs, hh, hv⟩
    have hacts := hstep.acts c.trust (fun _ => trivial) ⟨fun _ => trivial, fun _ => trivial⟩ trivial
      trivial (fun _ => Contents.honest_admits) hs
    exact ⟨hs.acts hacts, Acts.holds hs hv hacts hh, Acts.versioned hacts hv⟩

/-! ## What a commit publishes -/

/-- An operation `o` commits as `p`: the records `u` in which its guards hold, the operation `q`
as it is there, and the snapshot that is published. -/
structure Commit (app : App) (w v : World) (o p : Operation) (u : Access) (q : Operation)
    (s : Snapshot) : Prop where
  acts : ∀ trust, Acts app trust w.access u
  before : Evolves o q
  after : Evolves q p
  publication : ∃ d, Publication w.access v.access s d
  file : s.file = o.file
  ok : (∃ g n t d rs, CommitWriteOk u q g n t d rs s.blocks ∧ tip w.access o.file = some d) ∨
    ∃ n, CommitUploadOk u q n s.blocks

/-- **A commit publishes one snapshot.** -/
theorem Step.commit {reports : Call → Prop} (hr : app.rf3 = true) (h : Reachable app reports w)
    {e : Event} (hstep : Step app reports w e v) {o p : Operation}
    (ho : w.access.uploads.get o.id = some o) (hp : v.access.uploads.get o.id = some p)
    (hst : o.state ≠ .committed) (hc : p.state = .committed) :
    ∃ u q s, Commit app w v o p u q s := by
  have hs := h.sound
  have hfirst := h.firstEpochs
  rcases hstep.promulgates hr hs with hun | ⟨trust, hpro⟩
  · exact absurd hc (Acts.uncommitted (hun (fun _ => False) fun _ => False)
      (fun _ hno => hno.elim) ho hst hp)
  obtain ⟨may, ht, -, hpub⟩ := hpro.publishes
  obtain ⟨u, x, hu, hux, hx, hsnaps⟩ := hpub
  have hsilent : ∀ op, Trust.silent.commits op → op.id ≠ o.id := fun _ hno => hno.elim
  obtain ⟨q, hq, hev⟩ := Acts.uploads (hu .silent) o.id o ho
  have hqst := Acts.uncommitted (hu .silent) hsilent ho hst hq
  obtain ⟨z, hz, hqz⟩ := (hux trust ht).uploads o.id q hq
  have hzc : z.state = .committed := by
    by_contra hne
    exact Acts.uncommitted (hx .silent) hsilent hz hne hp hc
  have hafter : Evolves q p := by
    obtain ⟨p', hp', hzp⟩ := Acts.uploads (hx .silent) o.id z hz
    obtain rfl : p' = p := Option.some.inj (hp'.symm.trans hp)
    exact hqz.trans hzp
  have hsu := hs.acts (hu .silent)
  have htips := Acts.tips hr hs hfirst (hu .silent)
  -- What is put is new, so it is what the step publishes.
  have hpublished : ∀ {s : Snapshot}, s.id = app.uuid u.issued →
      x.snapshots = u.snapshots.put s → ∃ d, Publication w.access v.access s d := by
    intro s hid hput
    have hstored : s ∈ v.access.snapshots.all := by
      rw [hsnaps, hput]
      exact Table.mem_put.mpr (.inl rfl)
    have hnew : s ∉ w.access.snapshots.all := by
      intro hmem
      obtain ⟨i, hi, he⟩ := hs.ids.snapshots s hmem s.id (by simp [Snapshot.ids])
      have hle := Acts.issued_le (hu .silent)
      have hii := app.uuid_injective (hid.symm.trans he)
      omega
    rcases hstep.publication hr hs hfirst with htips | ⟨-, t, hpub⟩
    · exact absurd (htips.snapshots s hstored) hnew
    · rcases hpub.only s hstored with rfl | hold
      · exact ⟨_, hpub⟩
      · exact absurd hold hnew
  rcases (hux trust ht).published hq hz hqst hzc with
    ⟨g, n, t, d, rs, bs, hok, hput⟩ | ⟨n, s, hok, hid, hfile, hput⟩
  · obtain ⟨hfile, -⟩ := hok.epoch_eq hsu
    have hof : g.file = o.file := hfile.symm.trans hev.file_eq
    have htip := htips.tip _ _ hok.current.tip
    rw [hof] at htip
    exact ⟨u, q, _, hu, hev, hafter, hpublished rfl hput, hof,
      .inl ⟨g, n, t, d, rs, hok, htip⟩⟩
  · exact ⟨u, q, s, hu, hev, hafter, hpublished hid hput, hfile.trans hev.file_eq, .inr ⟨n, hok⟩⟩

/-! ## Contents -/

/-- **What a write publishes** is the current content of its file, overwritten by its delta. -/
theorem Commit.written (h : Reachable app c.Honest w) {o p q : Operation} {u : Access}
    {s : Snapshot} (hc : Commit app w v o p u q s) (hkind : o.kind = .write) :
    ∃ d, tip w.access o.file = some d ∧
      (∃ n, w.access.nodes.get o.file = some n ∧ n.alive = true) ∧ (∃ delta, c.Delta o delta) ∧
      ∀ delta, c.Delta o delta → o.offset ≤ (c.manifest d.blocks).length ∧
        c.manifest s.blocks = overwrite (c.manifest d.blocks) o.offset delta := by
  have hs := h.sound
  obtain ⟨hh, hv⟩ := h.contents
  have hacts := hc.acts c.trust
  rcases hc.ok with ⟨g, n, t, d, rs, hok, htip⟩ | ⟨n, hok⟩
  · have hsu := hs.acts hacts
    have hhu := Acts.holds hs hv hacts hh
    have hdelta : ∀ delta, c.Delta o delta ↔ c.Delta q delta := fun delta => by
      rw [hc.before.same]
      exact ⟨fun hd => ⟨hd.length, hd.piece⟩, fun hd => ⟨hd.length, hd.piece⟩⟩
    have hoffset : q.offset = o.offset := by rw [hc.before.same]
    have hfile : o.file = g.file := hc.before.file_eq.symm.trans (hok.epoch_eq hsu).1
    obtain ⟨m, hm, -⟩ := tip_some.mp htip
    obtain ⟨delta, hd⟩ := hok.delta hsu hhu
    refine ⟨d, htip, ⟨m, hm, Acts.undead hs hacts hm (hfile ▸ hok.current.1) hok.current.2.1⟩,
      ⟨delta, (hdelta delta).mpr hd⟩, fun delta hd => ?_⟩
    rw [← hoffset]
    exact hok.content hsu hhu ((hdelta delta).mp hd)
  · have hup := hok.kind
    rw [hc.before.kind_eq, hkind] at hup
    cases hup

/-- **What an upload publishes** is what was sent. -/
theorem Commit.uploaded (h : Reachable app c.Honest w) {o p q : Operation} {u : Access}
    {s : Snapshot} {bytes : Bytes} (hc : Commit app w v o p u q s) (hkind : o.kind = .upload)
    (hb : c.Sends p bytes) : c.manifest s.blocks = bytes := by
  rcases hc.ok with ⟨g, n, t, d, rs, hok, -⟩ | ⟨n, hok⟩
  · have hw := hok.kind
    rw [hc.before.kind_eq, hkind] at hw
    cases hw
  · have htotal : p.total = q.total := by rw [hc.after.same]
    have hblock : p.blockSize = q.blockSize := by rw [hc.after.same]
    have hsends : c.Sends q bytes :=
      ⟨htotal ▸ hb.length, fun x hx => hblock ▸ hb.block x (hc.after.allocations.subset hx)⟩
    exact hok.content (h.sound.acts (hc.acts .silent)) hsends

/-- **A committed write overwrites the current content of its file**: the step in which a write
commits publishes one snapshot, of that file, and its content is that of the snapshot which the
file has in the same transaction, with the delta written at its offset; all other files keep
what they have. -/
theorem write_contents (hr : app.rf3 = true) (h : Reachable app c.Honest w) {e : Event}
    (hstep : Step app c.Honest w e v) {o p : Operation} {delta : Bytes}
    (ho : w.access.uploads.get o.id = some o) (hp : v.access.uploads.get o.id = some p)
    (hkind : o.kind = .write) (hst : o.state ≠ .committed) (hc : p.state = .committed)
    (hd : c.Delta o delta) :
    ∃ s d, tip w.access o.file = some d ∧ s.file = o.file ∧
      (∃ k, Publication w.access v.access s k) ∧ o.offset ≤ (c.manifest d.blocks).length ∧
      c.manifest s.blocks = overwrite (c.manifest d.blocks) o.offset delta := by
  obtain ⟨u, q, s, hcommit⟩ := hstep.commit hr h ho hp hst hc
  obtain ⟨d, htip, -, -, hwritten⟩ := hcommit.written h hkind
  obtain ⟨hle, hcontent⟩ := hwritten delta hd
  exact ⟨s, d, htip, hcommit.file, hcommit.publication, hle, hcontent⟩

/-- The bytes that the scripts write, and nothing else. -/
def Contents.small : Contents where
  block k := if k = 15 ∨ k = 13 then [1, 2, 3] else []
  preimage digest := if digest = ⟨32, 0⟩ then [1, 2, 3] else []

/-- A write of three bytes to an empty file, and the step that commits it. -/
theorem small_committed : ∃ w v e o p, Reachable (App.small .rf3) Contents.small.Honest w ∧
    Step (App.small .rf3) Contents.small.Honest w e v ∧ w.access.uploads.get o.id = some o ∧
    v.access.uploads.get o.id = some p ∧ o.state ≠ .committed ∧ p.state = .committed ∧
    o.file = 10 ∧ o.kind = .write ∧ o.offset = 0 ∧ Contents.small.Delta o [1, 2, 3] := by
  obtain ⟨w, hw, hstage, hv⟩ := exists_of_perform (App.small .rf3) smallStored (World.small .rf3)
    (fun w => w.stage = .serving ∧
      ((smallInput 53 smallCommand).perform (App.small .rf3) w).any (fun v =>
        (w.access.uploads.get 13).any fun o => (v.access.uploads.get 13).any fun p =>
          decide (o.id = 13 ∧ o.file = 10 ∧ o.kind = .write ∧ o.state ≠ .committed ∧
            p.state = .committed ∧ o.length = 3 ∧ o.offset = 0 ∧
            o.parts.map Part.part = [⟨0, 0, 0, 3, ⟨32, 0⟩⟩])) = true)
    (by decide +kernel)
  have hreach : Reachable (App.small .rf3) Contents.small.Honest w := by
    refine perform_reports (fun i hi c hc => ?_) hw
    subst hc
    simp only [smallStored, smallBegin, smallStart, List.mem_append, List.mem_cons,
      List.not_mem_nil, or_false, reduceCtorEq, false_or, smallInput, Input.call.injEq] at hi
    rcases hi with ((rfl | rfl | rfl | rfl)) | rfl
    all_goals trivial
  obtain ⟨v, hv, hops⟩ := (Option.any_eq_true _ _).mp hv
  obtain ⟨o, ho, hops⟩ := (Option.any_eq_true _ _).mp hops
  obtain ⟨p, hp, hops⟩ := (Option.any_eq_true _ _).mp hops
  obtain ⟨hid, hfile, hkind, hst, hc, hlen, hoff, hparts⟩ := of_decide_eq_true hops
  have hinput : ∀ {i : Input} {u x : World}, (∀ c, i ≠ .call c) →
      i.perform (App.small .rf3) u = some x →
      ∃ e, Step (App.small .rf3) Contents.small.Honest u e x := fun hi hx => by
    obtain ⟨e, -, hstep⟩ := Input.perform_reports (fun c hc => absurd hc (hi c)) hx
    exact ⟨e, hstep⟩
  obtain ⟨e, hstep⟩ := hinput (fun c hc => by cases hc) hv
  refine ⟨w, v, e, o, p, hreach, hstep, hid ▸ ho, hid ▸ hp, hst, hc, hfile, hkind, hoff,
    hlen.symm, fun q hq => ?_⟩
  have hmem := List.mem_map_of_mem (f := Part.part) hq
  rw [hparts, List.mem_singleton] at hmem
  rw [hmem]
  rfl

/-- Three bytes are written to an empty file. -/
theorem small_write_contents : ∃ w v e s d,
    Step (App.small .rf3) Contents.small.Honest w e v ∧ tip w.access 10 = some d ∧
      (∃ k, Publication w.access v.access s k) ∧
      Contents.small.manifest s.blocks = overwrite (Contents.small.manifest d.blocks) 0 [1, 2, 3] := by
  obtain ⟨w, v, e, o, p, hreach, hstep, ho, hp, hst, hc, hfile, hkind, hoff, hd⟩ := small_committed
  obtain ⟨s, d, htip, -, hpub, -, hcontent⟩ :=
    write_contents rfl hreach hstep ho hp hkind hst hc hd
  rw [hfile] at htip
  rw [hoff] at hcontent
  exact ⟨w, v, e, s, d, hstep, htip, hpub, hcontent⟩

/-- **A committed upload replaces the content of its file by the bytes that were sent**: the step
in which an upload commits publishes one snapshot, of that file, and its content is what the
blocks were cut from. -/
theorem upload_contents (hr : app.rf3 = true) (h : Reachable app c.Honest w) {e : Event}
    (hstep : Step app c.Honest w e v) {o p : Operation} {bytes : Bytes}
    (ho : w.access.uploads.get o.id = some o) (hp : v.access.uploads.get o.id = some p)
    (hkind : o.kind = .upload) (hst : o.state ≠ .committed) (hc : p.state = .committed)
    (hb : c.Sends p bytes) :
    ∃ s, s.file = o.file ∧ (∃ k, Publication w.access v.access s k) ∧
      c.manifest s.blocks = bytes := by
  obtain ⟨u, q, s, hcommit⟩ := hstep.commit hr h ho hp hst hc
  exact ⟨s, hcommit.file, hcommit.publication, hcommit.uploaded h hkind hb⟩

/-- What an upload of one block names itself. -/
def smallUploaded : OperationRef := ⟨10, 51, ⟨32, 0⟩⟩

/-- The fence of that upload. -/
def smallUploadFence : Fence := ⟨10, 10, 3, 1, 1, [], true, true, 0⟩

/-- Its only block. -/
def smallSentBlock : BlockRef := ⟨11, 13, 0, 3, ⟨32, 7⟩⟩

/-- The hash of its manifest. -/
def smallSentHash : Digest := (App.small .rf3).manifestHash [smallSentBlock]

/-- The request that seals it. -/
def smallSeal : SealManifestRequest := ⟨smallUploaded, 1, 1, 3, smallSentHash, smallUploadFence⟩

/-- Three bytes are uploaded as a new file, up to the seal. -/
def smallSent : List Input := smallStart ++
  [smallInput 51 (.beginUpload ⟨smallPath, false, 3, ⟨32, 0⟩, none⟩),
   smallInput 52 (.allocateBlocks ⟨smallUploaded, [⟨11, 0, 0, 3, ⟨32, 7⟩⟩], smallUploadFence⟩),
   .call (.reportDurable (smallCall 64) ⟨⟨70, 10, smallSentBlock, 1, 1, 2, 100, ⟨32, 8⟩, 0⟩,
     ⟨71, 1, 3, ⟨32, 0⟩⟩, smallUploaded, smallUploadFence⟩),
   smallInput 53 (.stageManifestPage
     ⟨smallUploaded, 0, [smallSentBlock], smallSentHash, smallUploadFence, 100⟩),
   .call (.verifySeal 8 (smallContext 54) smallSeal), smallInput 54 (.sealManifest smallSeal)]

theorem small_upload_contents : ∃ w v e s,
    Step (App.small .rf3) Contents.small.Honest w e v ∧ s.file = 11 ∧
      (∃ k, Publication w.access v.access s k) ∧ Contents.small.manifest s.blocks = [1, 2, 3] := by
  obtain ⟨w, hw, hstage, hv⟩ := exists_of_perform (App.small .rf3) smallSent (World.small .rf3)
    (fun w => w.stage = .serving ∧
      ((smallInput 55 (.commitUpload ⟨smallUploaded, ⟨10, none, smallSentHash, 1⟩,
          smallUploadFence⟩)).perform (App.small .rf3) w).any (fun v =>
        (w.access.uploads.get 10).any fun o => (v.access.uploads.get 10).any fun p =>
          decide (o.id = 10 ∧ o.file = 11 ∧ o.kind = .upload ∧ o.state ≠ .committed ∧
            p.state = .committed ∧ p.total = 3 ∧ p.blockSize = 4194304 ∧
            p.allocations = [(0, smallSentBlock)])) = true)
    (by decide +kernel)
  have hreach : Reachable (App.small .rf3) Contents.small.Honest w := by
    refine perform_reports (fun i hi c hc => ?_) hw
    subst hc
    simp only [smallSent, smallStart, List.mem_append, List.mem_cons, List.not_mem_nil, or_false,
      reduceCtorEq, false_or, smallInput, Input.call.injEq] at hi
    rcases hi with (rfl | rfl | rfl | rfl) | rfl | rfl
    all_goals trivial
  obtain ⟨v, hv, hops⟩ := (Option.any_eq_true _ _).mp hv
  obtain ⟨o, ho, hops⟩ := (Option.any_eq_true _ _).mp hops
  obtain ⟨p, hp, hops⟩ := (Option.any_eq_true _ _).mp hops
  obtain ⟨hid, hfile, hkind, hst, hc, htotal, hblock, halloc⟩ := of_decide_eq_true hops
  have hinput : ∀ {i : Input} {u x : World}, (∀ c, i ≠ .call c) →
      i.perform (App.small .rf3) u = some x →
      ∃ e, Step (App.small .rf3) Contents.small.Honest u e x := fun hi hx => by
    obtain ⟨e, -, hstep⟩ := Input.perform_reports (fun c hc => absurd hc (hi c)) hx
    exact ⟨e, hstep⟩
  obtain ⟨e, hstep⟩ := hinput (fun c hc => by cases hc) hv
  have hb : Contents.small.Sends p [1, 2, 3] := by
    refine ⟨htotal.symm, fun x hx => ?_⟩
    rw [halloc, List.mem_singleton] at hx
    rw [hx, hblock]
    rfl
  rw [← hid] at ho hp
  obtain ⟨s, hs, hpub, hcontent⟩ := upload_contents rfl hreach hstep ho hp hkind hst hc hb
  exact ⟨w, v, e, s, hstep, hs.trans hfile, hpub, hcontent⟩

end Dfsha
