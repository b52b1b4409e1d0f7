import Dfsha.Safety.Snapshots

/-!
# Handles

A handle does one thing at a time.  What it is busy with is a read or a write, so a write in
preparation excludes every other write and every open read through the same handle, and the
handle is not closed under it.  A commit finds the handle at the revision the write began with
and moves it on, so the commits through one handle are counted by its revision.

## Main definitions

* `OpenReads` — an open handle is busy with its open read.
* `Ordered` — a committed write is of an earlier revision of its handle.

## Main results

* `handles_serialized` — the work through one handle is done one piece after the other.
-/

namespace Dfsha

variable {app : App} {trust : Trust} {reports : Call → Prop} {a b : Access} {w : World}

/-! ## Reads -/

/-- Every read is of a handle, and an open handle is busy with its open read. -/
def OpenReads (handles : Table Handle) (reads : Table Read) : Prop :=
  ∀ r ∈ reads.all, ∃ h, handles.get r.handle = some h ∧
    (r.closed = false → h.closed = false → h.busy = some r.id)

/-- A handle may be written back if its open read still keeps it busy. -/
theorem OpenReads.putHandle {handles : Table Handle} {reads : Table Read} {g h : Handle}
    (ho : OpenReads handles reads) (hg : handles.get h.id = some g)
    (hb : ∀ r ∈ reads.all, r.closed = false → h.closed = false → g.closed = false ∧
      (g.busy = some r.id → h.busy = some r.id)) : OpenReads (handles.put h) reads := by
  intro r hr
  obtain ⟨x, hx, hbusy⟩ := ho r hr
  by_cases hk : r.handle = h.id
  · rw [hk] at hx
    obtain rfl : g = x := Option.some.inj (hg.symm.trans hx)
    refine ⟨h, hk ▸ Table.get_put_self handles h, fun hrc hhc => ?_⟩
    obtain ⟨hgc, hkeep⟩ := hb r hr hrc hhc
    exact hkeep (hbusy hrc hgc)
  · exact ⟨x, (Table.get_put_of_ne handles hk).trans hx, hbusy⟩

/-- A read may be recorded if its handle is busy with it, or it is closed. -/
theorem OpenReads.putRead {handles : Table Handle} {reads : Table Read} {r : Read} {h : Handle}
    (ho : OpenReads handles reads) (hh : handles.get r.handle = some h)
    (hr : r.closed = false → h.closed = false → h.busy = some r.id) :
    OpenReads handles (reads.put r) :=
  Table.forall_put ho ⟨h, hh, hr⟩

/-- **An open handle stays busy with its open read.** -/
theorem Act.openReads (hs : Sound app a) (h : Act app trust a b)
    (ho : OpenReads a.handles a.reads) : OpenReads b.handles b.reads := by
  cases h with
  | openHandle hf _ _ _ _ _ =>
      intro r hr
      obtain ⟨x, hx, hbusy⟩ := ho r hr
      refine ⟨x, ?_, hbusy⟩
      rw [Table.get_put_of_ne]
      · exact hx
      · intro he
        rw [he] at hx
        exact absurd (hx.symm.trans (get_none_of_unused_handle hf.2)) (by simp)
  | renewHandle d e hg _ _ => exact ho.putHandle hg fun _ _ _ hc => ⟨hc, fun hb => hb⟩
  | renewPlain e r _ hg => exact ho.putHandle hg fun _ _ _ hc => ⟨hc, fun hb => hb⟩
  | closeHandle r hg => exact ho.putHandle hg fun _ _ _ hc => absurd hc (by simp)
  | @beginRead h r hf hg hb hrh =>
      have hidle : OpenReads (a.handles.put { h with busy := some r.id }) a.reads :=
        ho.putHandle hg fun _ _ _ hc => ⟨hc, fun hbusy => by
          rw [hb] at hbusy
          cases hbusy⟩
      refine hidle.putRead (h := { h with busy := some r.id }) ?_ fun _ _ => rfl
      rw [hrh]
      exact Table.get_put_self a.handles { h with busy := some r.id }
  | @endRead h r hr hg hrh =>
      -- Of the reads of the handle only this one is open, if it keeps the handle busy.
      have hkeep : ∀ x ∈ (a.reads.put { r with closed := true }).all, x.closed = false →
          (h.freed r.id).closed = false → h.closed = false ∧
            (h.busy = some x.id → (h.freed r.id).busy = some x.id) := by
        intro x hx hxc hhc
        refine ⟨hhc, fun hbusy => ?_⟩
        rcases Table.mem_put.mp hx with rfl | ⟨-, hne⟩
        · cases hxc
        · have hother : h.busy ≠ some r.id := fun he =>
            hne (Option.some.inj (hbusy.symm.trans he))
          simpa [Handle.freed, hother] using hbusy
      have hclosed : OpenReads a.handles (a.reads.put { r with closed := true }) :=
        ho.putRead (r := { r with closed := true }) (hrh.symm ▸ hg) fun hc => absurd hc (by simp)
      exact hclosed.putHandle (h := h.freed r.id) hg hkeep
  | @freeHandle h op hg hb hop hst =>
      refine ho.putHandle hg fun r hr _ hc => ⟨hc, fun hbusy => ?_⟩
      have hid : op.id = r.id := Option.some.inj (hb.symm.trans hbusy)
      rw [hid, hs.reads r hr] at hop
      cases hop
  | beginWrite _ hok =>
      refine ho.putHandle hok.handle fun _ _ _ hc => ⟨hc, fun hbusy => ?_⟩
      rw [hok.idle] at hbusy
      cases hbusy
  | commitWrite result hok _ _ _ =>
      have hget := hok.handle
      rw [← handle_id_of_get hget] at hget
      exact ho.putHandle hget fun _ _ _ hc => ⟨hc, fun hbusy => hbusy⟩
  | _ => exact ho

/-! ## Revisions -/

/-- A write of some bytes that is committed. -/
def Operation.written (op : Operation) : Prop :=
  op.kind = .write ∧ op.state = .committed ∧ 0 < op.length

/-- What appears is in preparation, or an empty write. -/
theorem Act.begun (h : Act app trust a b) {k : Id} {p : Operation} (ha : a.uploads.get k = none)
    (hp : b.uploads.get k = some p) : p.state = .preparing ∨ p.length = 0 := by
  rcases h.beginning ha hp with ⟨g, n, s, c, hok⟩ | hplan | ⟨-, hz⟩
  · exact .inl hok.state
  · exact .inl hplan.state
  · exact .inr hz

/-- **A committed write was committed before, or is committed now.** -/
theorem Act.written (h : Act app trust a b) {p : Operation} (hp : p ∈ b.uploads.all)
    (hw : p.written) : ∃ o, a.uploads.get p.id = some o ∧ Evolves o p ∧
      (o.written ∨ o.state ≠ .committed ∧ ∃ g, Commits a b o g) := by
  have hget : b.uploads.get p.id = some p := Table.get_of_mem hp
  obtain ⟨hkind, hst, hlen⟩ := hw
  cases ho : a.uploads.get p.id with
  | none =>
      rcases h.begun ho hget with hpre | hzero
      · rw [hst] at hpre
        cases hpre
      · omega
  | some o =>
      obtain ⟨q, hq, he⟩ := h.uploads p.id o ho
      obtain rfl : p = q := Option.some.inj (hget.symm.trans hq)
      have hk : o.kind = .write := he.kind_eq ▸ hkind
      have hl : o.length = p.length := by rw [he.same]
      refine ⟨o, rfl, he, ?_⟩
      by_cases hc : o.state = .committed
      · exact .inl ⟨hk, hc, hl ▸ hlen⟩
      · exact .inr ⟨hc, h.commits ho hget hk hc hst⟩

/-- **The revision of an open handle never goes back**, and a closed one is not opened again. -/
theorem Act.handles (hr : app.rf3 = true) (h : Act app trust a b) :
    a.handles.Grows (fun x y => y.closed = false → x.closed = false ∧ x.revision ≤ y.revision)
      b.handles := by
  have hrefl : ∀ x : Handle, x.closed = false → x.closed = false ∧ x.revision ≤ x.revision :=
    fun _ hc => ⟨hc, le_rfl⟩
  cases h with
  | openHandle hf _ _ _ _ _ => exact .put_new hrefl (get_none_of_unused_handle hf.2)
  | renewHandle d e hg _ _ => exact .put_old hrefl hg fun hc => ⟨hc, le_rfl⟩
  | renewPlain e r hplain _ =>
      rw [hr] at hplain
      cases hplain
  | closeHandle r hg => exact .put_old hrefl hg fun hc => absurd hc (by simp)
  | beginRead _ hg _ _ => exact .put_old hrefl hg fun hc => ⟨hc, le_rfl⟩
  | endRead _ hg _ => exact .put_old hrefl hg fun hc => ⟨hc, le_rfl⟩
  | freeHandle hg _ _ _ => exact .put_old hrefl hg fun hc => ⟨hc, le_rfl⟩
  | beginWrite _ hok => exact .put_old hrefl hok.handle fun hc => ⟨hc, le_rfl⟩
  | commitWrite result hok _ _ _ =>
      have hget := hok.handle
      rw [← handle_id_of_get hget] at hget
      exact .put_old hrefl hget fun hc => ⟨hc, Nat.le_succ _⟩
  | _ => exact .refl hrefl _

/-- A commit finds the handle at the revision the write began with. -/
theorem Commits.revision {o : Operation} {g : Handle} (hs : Sound app a) (h : Commits a b o g) :
    a.handles.get o.handle = some g ∧ g.closed = false ∧ g.revision = o.handleRevision ∧
      ∃ x, b.handles.get o.handle = some x ∧ x.revision = o.handleRevision + 1 := by
  obtain ⟨n, s, c, rs, bs, hok⟩ := h.ok
  obtain ⟨root, hput⟩ := h.handles
  obtain ⟨x, hx, -, hbusy⟩ :=
    hs.writeHandle o (Table.mem_of_get hok.stored) ⟨hok.kind, hok.state⟩
  obtain rfl : g = x := Option.some.inj (hok.handle.symm.trans hx)
  obtain ⟨-, hrev, -⟩ := hbusy hok.isOpen
  refine ⟨hx, hok.isOpen, hrev, { g with snapshot := root, revision := g.revision + 1 }, ?_, ?_⟩
  · rw [hput, ← handle_id_of_get hx]
    exact Table.get_put_self a.handles { g with snapshot := root, revision := g.revision + 1 }
  · exact congrArg (· + 1) hrev

/-- **Commits through a handle are counted by its revision.** -/
structure Ordered (a : Access) : Prop where
  /-- A committed write is of an earlier revision of its handle. -/
  below : ∀ p ∈ a.uploads.all, p.written → ∃ x, a.handles.get p.handle = some x ∧
    (x.closed = false → p.handleRevision < x.revision)
  /-- No two are of the same revision. -/
  apart : ∀ o ∈ a.uploads.all, ∀ p ∈ a.uploads.all, o.written → p.written →
    o.handle = p.handle → o.id ≠ p.id → o.handleRevision ≠ p.handleRevision

/-- A write that commits is of a later revision than those committed before. -/
theorem Ordered.commit {o p : Operation} {g : Handle} (hs : Sound app a) (ha : Ordered a)
    (ho : o ∈ a.uploads.all) (hw : o.written) (hc : Commits a b p g) (hh : o.handle = p.handle) :
    o.handleRevision < p.handleRevision := by
  obtain ⟨hg, hopen, hrev, -⟩ := hc.revision hs
  obtain ⟨x, hx, hlt⟩ := ha.below o ho hw
  rw [hh] at hx
  obtain rfl : g = x := Option.some.inj (hg.symm.trans hx)
  have := hlt hopen
  omega

theorem Act.ordered (hr : app.rf3 = true) (hs : Sound app a) (h : Act app trust a b)
    (ha : Ordered a) : Ordered b where
  below p hp hw := by
    obtain ⟨o, ho, he, hold | ⟨-, g, hc⟩⟩ := h.written hp hw
    · have hrev : p.handleRevision = o.handleRevision := by rw [he.same]
      obtain ⟨x, hx, hlt⟩ := ha.below o (Table.mem_of_get ho) hold
      obtain ⟨y, hy, hxy⟩ := h.handles hr o.handle x hx
      refine ⟨y, he.handle_eq ▸ hy, fun hopen => ?_⟩
      obtain ⟨hxo, hle⟩ := hxy hopen
      have := hlt hxo
      omega
    · have hrev : p.handleRevision = o.handleRevision := by rw [he.same]
      obtain ⟨-, -, -, x, hx, hnext⟩ := hc.revision hs
      exact ⟨x, he.handle_eq ▸ hx, fun _ => by omega⟩
  apart p hp q hq hpw hqw hh hne := by
    obtain ⟨o, ho, he, hold | ⟨-, g, hc⟩⟩ := h.written hp hpw
    all_goals obtain ⟨o', ho', he', hold' | ⟨hst', g', hc'⟩⟩ := h.written hq hqw
    all_goals have hrev : p.handleRevision = o.handleRevision := by rw [he.same]
    all_goals have hrev' : q.handleRevision = o'.handleRevision := by rw [he'.same]
    all_goals have hoo : o.handle = o'.handle := (he.handle_eq.symm.trans hh).trans he'.handle_eq
    · rw [hrev, hrev']
      refine ha.apart o (Table.mem_of_get ho) o' (Table.mem_of_get ho') hold hold' hoo ?_
      rw [← he.id_eq, ← he'.id_eq]
      exact hne
    · have := ha.commit hs (Table.mem_of_get ho) hold hc' hoo
      omega
    · have := ha.commit hs (Table.mem_of_get ho') hold' hc hoo.symm
      omega
    · -- One action commits one write.
      obtain ⟨result, hput⟩ := hc.uploads
      have hmem := hput ▸ hq
      rcases Table.mem_put.mp hmem with hqe | ⟨hqa, -⟩
      · exact absurd (he.id_eq.trans (congrArg Operation.id hqe).symm) hne
      · have hget : a.uploads.get q.id = some q := Table.get_of_mem hqa
        obtain rfl : o' = q := Option.some.inj (ho'.symm.trans hget)
        exact absurd hqw.2.1 hst'

/-! ## Runs -/

/-- An open handle that is busy is not closed by request. -/
theorem close_refused (hr : app.rf3 = true) {x : Handle} {k : Id}
    (hx : w.access.handles.get x.id = some x) (hc : x.closed = false) (hb : x.busy = some k)
    (user : User) (session : Session) (ctx : RequestContext) (revision : Nat)
    (r : Response × World) : (execute app user session ctx (.close x.id revision)) w ≠ .ok r := by
  intro h
  simp only [execute, hr, if_true, accessClose, ↓run_access, ↓run_needSome, ↓run_need] at h
  obtain ⟨y, hy, -, h⟩ := h
  obtain rfl : x = y := Option.some.inj (hx.symm.trans hy)
  simp only [hc, Bool.false_eq_true, if_false] at h
  obtain ⟨_, s, hclose, -⟩ := Tx.bind_ok.mp h
  simp only [closeHandle, ↓run_need] at hclose
  rw [hb] at hclose
  exact absurd hclose.1 (by simp)

theorem Acts.openReads (hs : Sound app a) (h : Acts app trust a b)
    (ho : OpenReads a.handles a.reads) : OpenReads b.handles b.reads := by
  induction h with
  | refl => exact ho
  | tail hacts hact ih => exact hact.openReads (hs.acts hacts) ih

theorem Reachable.openReads (h : Reachable app reports w) :
    OpenReads w.access.handles w.access.reads := by
  obtain ⟨clk, username, password, es, hrun⟩ := h
  have hs : Sound app (World.initial app clk username password).access :=
    sound_initial clk username password
  exact Acts.openReads hs (hrun.acts hs) fun _ hr => absurd hr List.not_mem_nil

theorem Acts.ordered (hr : app.rf3 = true) (hs : Sound app a) (h : Acts app trust a b)
    (ha : Ordered a) : Ordered b := by
  induction h with
  | refl => exact ha
  | tail hacts hact ih => exact hact.ordered hr (hs.acts hacts) ih

theorem Reachable.ordered (hr : app.rf3 = true) (h : Reachable app reports w) :
    Ordered w.access := by
  obtain ⟨clk, username, password, es, hrun⟩ := h
  have hs : Sound app (World.initial app clk username password).access :=
    sound_initial clk username password
  exact Acts.ordered hr hs (hrun.acts hs)
    ⟨fun _ hp => absurd hp List.not_mem_nil, fun _ hp => absurd hp List.not_mem_nil⟩

/-- What commits later is of a later revision. -/
theorem Acts.commit_later (hr : app.rf3 = true) (hs : Sound app a) (h : Acts app trust a b)
    (ha : Ordered a) {o p : Operation} (ho : o ∈ a.uploads.all) (how : o.written)
    (hp : p ∈ b.uploads.all) (hpw : p.written) (hh : o.handle = p.handle)
    (hnew : ∀ q, a.uploads.get p.id = some q → q.state ≠ .committed) :
    o.handleRevision < p.handleRevision := by
  induction h generalizing p with
  | refl => exact absurd hpw.2.1 (hnew p (Table.get_of_mem hp))
  | @tail b c hacts hact ih =>
      obtain ⟨q, hq, he, hold | ⟨-, g, hc⟩⟩ := hact.written hp hpw
      all_goals have hrev : p.handleRevision = q.handleRevision := by rw [he.same]
      all_goals have hhq : o.handle = q.handle := hh.trans he.handle_eq
      · rw [hrev]
        exact ih (Table.mem_of_get hq) hold hhq fun x hx => hnew x (he.id_eq ▸ hx)
      · -- The earlier commit is still there, and below the revision of its handle.
        obtain ⟨o', ho', he'⟩ := Acts.uploads hacts o.id o (Table.get_of_mem ho)
        have how' : o'.written :=
          ⟨he'.kind_eq.trans how.1, (he'.committed how.2.1).1, by rw [he'.same]; exact how.2.2⟩
        have hlt := (Acts.ordered hr hs hacts ha).commit (hs.acts hacts) (Table.mem_of_get ho') how' hc
          (he'.handle_eq.trans hhq)
        have hrev' : o'.handleRevision = o.handleRevision := by rw [he'.same]
        omega

/-- **The work through one handle is done one piece after the other**: an open handle is busy with
its write in preparation, at the revision that the write began with; so it has no other, no open
read, and is not closed; and its commits are ordered by its revision. -/
theorem handles_serialized (hr : app.rf3 = true) (h : Reachable app reports w) :
    (∀ op ∈ w.access.uploads.all, op.kind = .write → op.state = .preparing → 0 < op.length →
      ∃ x, w.access.handles.get op.handle = some x ∧
        (x.closed = false → x.busy = some op.id ∧ x.revision = op.handleRevision)) ∧
    (∀ x ∈ w.access.handles.all, x.closed = false → ∀ op ∈ w.access.uploads.all, op.writing →
      op.handle = x.id →
        (∀ p ∈ w.access.uploads.all, p.writing → p.handle = x.id → p = op) ∧
        (∀ r ∈ w.access.reads.all, r.handle = x.id → r.closed = true) ∧
        ∀ user session ctx revision r,
          (execute app user session ctx (.close x.id revision)) w ≠ .ok r) ∧
    (∀ o ∈ w.access.uploads.all, ∀ p ∈ w.access.uploads.all, o.written → p.written →
      o.handle = p.handle → o.id ≠ p.id → o.handleRevision ≠ p.handleRevision) ∧
    ∀ o ∈ w.access.uploads.all, o.written → ∀ es v, Run app reports w es v →
      ∀ p ∈ v.access.uploads.all, p.written → o.handle = p.handle →
        (∀ q, w.access.uploads.get p.id = some q → q.state ≠ .committed) →
          o.handleRevision < p.handleRevision := by
  have hs := h.sound
  have hbusy : ∀ x ∈ w.access.handles.all, x.closed = false → ∀ op ∈ w.access.uploads.all,
      op.writing → op.handle = x.id → x.busy = some op.id := by
    intro x hx hc op hop hw hh
    obtain ⟨y, hy, -, hy'⟩ := hs.writeHandle op hop hw
    obtain rfl := get_unique hy hx hh.symm
    exact (hy' hc).1
  refine ⟨fun op hop hk hst _ => ?_, fun x hx hc op hop hw hh => ⟨fun p hp hpw hph => ?_,
    fun r hrd hrh => ?_, ?_⟩, (h.ordered hr).apart, fun o ho how es v hrun p hp hpw hoh hnew => ?_⟩
  · obtain ⟨x, hx, -, hb⟩ := hs.writeHandle op hop ⟨hk, hst⟩
    exact ⟨x, hx, fun hc => ⟨(hb hc).1, (hb hc).2.1⟩⟩
  · have hid : p.id = op.id :=
      Option.some.inj ((hbusy x hx hc p hp hpw hph).symm.trans (hbusy x hx hc op hop hw hh))
    have hget : w.access.uploads.get op.id = some op := Table.get_of_mem hop
    exact get_unique hget hp hid
  · by_contra hopen
    obtain ⟨y, hy, hread⟩ := h.openReads r hrd
    obtain rfl := get_unique hy hx hrh.symm
    have hid : op.id = r.id := Option.some.inj
      ((hbusy x hx hc op hop hw hh).symm.trans (hread (by simpa using hopen) hc))
    have hnone := hs.reads r hrd
    rw [← hid, show w.access.uploads.get op.id = some op from Table.get_of_mem hop] at hnone
    cases hnone
  · exact close_refused hr (Table.get_of_mem hx) hc (hbusy x hx hc op hop hw hh)
  · exact Acts.commit_later hr hs (hrun.acts hs) (h.ordered hr) ho how hp hpw hoh hnew

theorem small_serialized : ∃ w op x, Reachable (App.small .rf3) (fun _ => True) w ∧
    op ∈ w.access.uploads.all ∧ op.writing ∧ 0 < op.length ∧
    w.access.handles.get op.handle = some x ∧ x.closed = false ∧ x.busy = some op.id := by
  obtain ⟨w, hw, op, hop, hkind, hst, hlen, hopen⟩ := exists_of_perform
    (App.small .rf3) smallBegin (World.small .rf3)
    (fun w => ∃ op ∈ w.access.uploads.all, op.kind = .write ∧ op.state = .preparing ∧
      0 < op.length ∧ (w.access.handles.get op.handle).all fun x => !x.closed)
    (by decide +kernel)
  have hreach := perform_reachable hw
  obtain ⟨x, hx, hb⟩ := (handles_serialized rfl hreach).1 op hop hkind hst hlen
  have hc : x.closed = false := by simpa [hx] using hopen
  exact ⟨w, op, x, hreach, hop, ⟨hkind, hst⟩, hlen, hx, hc, (hb hc).1⟩

end Dfsha
