import Dfsha.Safety.Promotion
import Mathlib.Data.List.Chain

/-!
# Version counters

The snapshots that are published of a file are numbered: their versions count up from 1 without a
gap, and their content epoch moves on by one when the file is replaced or emptied and stays when
it is written in place.  The number of a snapshot is computed from the one that the file has when
it is published, so what is to be shown is that nothing comes between: a step publishes once at
most, and an operation commits under the epoch under which it began.

## Main definitions

* `tip` — the snapshot that a file has.
* `Follows`, `Publication` — what one publication leaves.
* `History` — the snapshots that were published of a file in a run.

## Main results

* `version_counters` — the numbers of the published snapshots, and the epoch of an operation.
-/

namespace Dfsha

variable {app : App} {reports : Call → Prop} {trust : Trust} {w v : World} {a b : Access}

/-! ## The snapshot of a file -/

/-- The snapshot that a file refers to. -/
def tip (a : Access) (f : Id) : Option Snapshot :=
  ((a.nodes.get f).bind Node.snapshot).bind a.snapshots.get

/-- The content epoch of a file. -/
def epochOf (a : Access) (f : Id) : Option Nat := (tip a f).map fun s => s.ref.contentEpoch

theorem tip_some {f : Id} {c : Snapshot} :
    tip a f = some c ↔ ∃ n, a.nodes.get f = some n ∧ n.snapshot = some c.id ∧
      a.snapshots.get c.id = some c := by
  rw [tip, Option.bind_eq_some_iff]
  constructor
  · rintro ⟨k, hk, hc⟩
    obtain ⟨n, hn, hsnap⟩ := Option.bind_eq_some_iff.mp hk
    have hid : c.id = k := snapshot_id_of_get hc
    exact ⟨n, hn, hid ▸ hsnap, hid ▸ hc⟩
  · rintro ⟨n, hn, hsnap, hc⟩
    exact ⟨c.id, Option.bind_eq_some_iff.mpr ⟨n, hn, hsnap⟩, hc⟩

theorem tip_of_none {f : Id} (h : a.nodes.get f = none) : tip a f = none := by
  simp [tip, h]

theorem Current.tip {f : Id} {n : Node} {c : Snapshot} (h : Current a f n c) :
    tip a f = some c :=
  tip_some.mpr ⟨n, h.1, h.2.2.1, h.2.2.2⟩

/-- Nothing is published: no snapshot is new, and what a file refers to it referred to before. -/
structure Tips (a b : Access) : Prop where
  snapshots : ∀ s ∈ b.snapshots.all, s ∈ a.snapshots.all
  tip : ∀ f c, tip b f = some c → tip a f = some c
  nodes : ∀ f, b.nodes.get f = none → a.nodes.get f = none

namespace Tips

theorem refl (a : Access) : Tips a a := ⟨fun _ h => h, fun _ _ h => h, fun _ h => h⟩

theorem trans {c : Access} (h : Tips a b) (h' : Tips b c) : Tips a c where
  snapshots s hs := h.snapshots s (h'.snapshots s hs)
  tip f c hc := h.tip f c (h'.tip f c hc)
  nodes f hf := h.nodes f (h'.nodes f hf)

/-- A node is written with the snapshot that it had, or without one. -/
theorem put {n : Node} (h : n.snapshot = none ∨ ∃ m, a.nodes.get n.id = some m ∧
    n.snapshot = m.snapshot) : Tips a { a with nodes := a.nodes.put n } where
  snapshots _ hs := hs
  tip f c hc := by
    obtain ⟨m, hm, hsnap, hget⟩ := tip_some.mp hc
    have hm' : (a.nodes.put n).get f = some m := hm
    rw [Table.get_put] at hm'
    split at hm'
    · rename_i he
      have hf : f = n.id := he
      obtain rfl : n = m := Option.some.inj hm'
      rcases h with hnone | ⟨x, hx, hsame⟩
      · rw [hnone] at hsnap
        cases hsnap
      · exact tip_some.mpr ⟨x, hf ▸ hx, hsame ▸ hsnap, hget⟩
    · exact tip_some.mpr ⟨m, hm', hsnap, hget⟩
  nodes f hf := by
    have hf' : (a.nodes.put n).get f = none := hf
    rw [Table.get_put] at hf'
    split at hf'
    · cases hf'
    · exact hf'

/-- A snapshot is dropped. -/
theorem delete (k : Id) : Tips a { a with snapshots := a.snapshots.delete k } where
  snapshots _ hs := (Table.mem_delete.mp hs).1
  tip f c hc := by
    obtain ⟨n, hn, hsnap, hget⟩ := tip_some.mp hc
    exact tip_some.mpr ⟨n, hn, hsnap, Table.get_of_get_delete hget⟩
  nodes _ hf := hf

end Tips

/-! ## One publication -/

/-- A snapshot follows the one that its file has: it is the next version, and the epoch moves on
by `d`.  The first snapshot of a file starts both counters. -/
def Follows (a : Access) (s : Snapshot) (d : Nat) : Prop :=
  (a.nodes.get s.file = none ∧ s.ref.fileVersion = 1 ∧ s.ref.contentEpoch = 1) ∨
    ∃ c, tip a s.file = some c ∧ s.ref.fileVersion = c.ref.fileVersion + 1 ∧
      s.ref.contentEpoch = c.ref.contentEpoch + d

/-- What a publication leaves: one new snapshot, which its file refers to. -/
structure Publication (a b : Access) (s : Snapshot) (d : Nat) : Prop where
  new : s ∉ a.snapshots.all
  stored : s ∈ b.snapshots.all
  only : ∀ t ∈ b.snapshots.all, t = s ∨ t ∈ a.snapshots.all
  own : ∀ c, tip b s.file = some c → c = s
  tip : ∀ f c, f ≠ s.file → tip b f = some c → tip a f = some c
  nodes : ∀ f, b.nodes.get f = none → a.nodes.get f = none
  follows : Follows a s d

/-- A publication stores a snapshot under a new identifier and makes its file refer to it. -/
theorem Publication.of_put (hs : Sound app a) {s : Snapshot} {n : Node} {d : Nat}
    (hid : s.id = app.uuid a.issued) (hn : n.id = s.file) (hsnap : n.snapshot = some s.id)
    (hfollows : Follows a s d) (hsnaps : b.snapshots = a.snapshots.put s)
    (hnodes : b.nodes = a.nodes.put n) : Publication a b s d where
  new hmem := not_issued_next (hid ▸ hs.ids.snapshots s hmem s.id (by simp [Snapshot.ids]))
  stored := by
    rw [hsnaps]
    exact Table.mem_put.mpr (.inl rfl)
  only t ht := by
    rw [hsnaps] at ht
    rcases Table.mem_put.mp ht with he | ⟨hmem, -⟩
    · exact .inl he
    · exact .inr hmem
  own c hc := by
    obtain ⟨m, hm, hmsnap, hget⟩ := tip_some.mp hc
    rw [hnodes, ← hn] at hm
    obtain rfl : n = m := Option.some.inj ((Table.get_put_self a.nodes n).symm.trans hm)
    have hc' : s.id = c.id := Option.some.inj (hsnap.symm.trans hmsnap)
    rw [hsnaps, ← hc'] at hget
    exact (Option.some.inj ((Table.get_put_self a.snapshots s).symm.trans hget)).symm
  tip f c hf hc := by
    obtain ⟨m, hm, hmsnap, hget⟩ := tip_some.mp hc
    rw [hnodes, Table.get_put_of_ne _ (fun he => hf (he.trans hn))] at hm
    have hissued : Issued app a c.id :=
      hs.ids.nodes m (Table.mem_of_get hm) c.id (by simp [Node.ids, hmsnap])
    rw [hsnaps, Table.get_put_of_ne] at hget
    · exact tip_some.mpr ⟨m, hm, hmsnap, hget⟩
    · intro he
      have he' : c.id = s.id := he
      exact not_issued_next (hid ▸ he' ▸ hissued)
  nodes f hf := by
    rw [hnodes, Table.get_put] at hf
    split at hf
    · cases hf
    · exact hf
  follows := hfollows

/-- A publication among actions that publish nothing. -/
theorem Publication.within {u x : Access} {s : Snapshot} {d : Nat} (hu : Tips a u)
    (h : Publication u x s d) (hx : Tips x b) (hnew : s ∉ a.snapshots.all)
    (hb : b.snapshots = x.snapshots) : Publication a b s d where
  new := hnew
  stored := hb ▸ h.stored
  only t ht := (h.only t (hx.snapshots t ht)).imp_right (hu.snapshots t)
  own c hc := h.own c (hx.tip _ c hc)
  tip f c hf hc := hu.tip f c (h.tip f c hf (hx.tip f c hc))
  nodes f hf := hu.nodes f (h.nodes f (hx.nodes f hf))
  follows := by
    rcases h.follows with ⟨hnone, hnumbers⟩ | ⟨c, hc, hnumbers⟩
    · exact .inl ⟨hu.nodes _ hnone, hnumbers⟩
    · exact .inr ⟨c, hu.tip _ c hc, hnumbers⟩

/-! ## The epoch of an operation -/

/-- An upload of a new file begins its first epoch. -/
def FirstEpochs (a : Access) : Prop :=
  ∀ op ∈ a.uploads.all, op.uploading → op.base = none → op.epoch = 1

theorem Act.firstEpochs (h : Act app trust a b) (ha : FirstEpochs a) : FirstEpochs b := by
  intro p hp hup hb
  have hget : b.uploads.get p.id = some p := Table.get_of_mem hp
  cases ho : a.uploads.get p.id with
  | none =>
      rcases h.beginning ho hget with ⟨g, n, s, c, hok⟩ | hplan | ⟨hne, -⟩
      · exact absurd (hok.kind.symm.trans hup.1) (by simp)
      · exact hplan.first hb
      · exact absurd hup.2 hne
  | some o =>
      obtain ⟨q, hq, hev⟩ := h.uploads _ o ho
      obtain rfl : q = p := Option.some.inj (hq.symm.trans hget)
      have hepoch : q.epoch = o.epoch := by rw [hev.same]
      rw [hepoch]
      exact ha o (Table.mem_of_get ho) ⟨hev.kind_eq ▸ hup.1, hev.preparing hup.2⟩
        (hev.base_eq ▸ hb)

theorem Acts.firstEpochs (h : Acts app trust a b) (ha : FirstEpochs a) : FirstEpochs b :=
  Acts.keep (P := FirstEpochs) (fun hact hv => hact.firstEpochs hv) h ha

/-- The epoch that a file has to have for an operation on it: that of the content it writes to,
or of the content it replaces. -/
def Operation.under (op : Operation) : Option Nat :=
  match op.kind with
  | .write => some op.epoch
  | .upload => op.base.map fun _ => op.epoch - 1

/-- A file has the epoch of an operation; where that is none, it does not exist. -/
structure Fits (a : Access) (op : Operation) : Prop where
  epoch : epochOf a op.file = op.under
  absent : op.under = none → a.nodes.get op.file = none

/-- What publishes nothing takes no file away from an operation that fits. -/
theorem Fits.before {op : Operation} (h : Tips a b) (hb : Fits b op) : Fits a op := by
  cases hu : op.under with
  | none =>
      have hnone := h.nodes _ (hb.absent hu)
      exact ⟨by rw [epochOf, tip_of_none hnone, hu]; rfl, fun _ => hnone⟩
  | some e =>
      refine ⟨?_, fun hnone => by rw [hu] at hnone; cases hnone⟩
      have he := hb.epoch
      rw [hu] at he
      obtain ⟨c, hc, hce⟩ := Option.map_eq_some_iff.mp he
      rw [epochOf, h.tip _ c hc, hu]
      exact congrArg some hce

/-- What an operation fits does not depend on how far it is. -/
theorem Evolves.fits {o p : Operation} (h : Evolves o p) : Fits a o ↔ Fits a p := by
  have hunder : p.under = o.under := by
    rw [h.same]
    rfl
  constructor
  · intro ho
    exact ⟨by rw [h.file_eq, hunder, ho.epoch], fun hnone => by
      rw [h.file_eq]
      exact ho.absent (hunder ▸ hnone)⟩
  · intro hp
    exact ⟨by rw [← h.file_eq, ← hunder, hp.epoch], fun hnone => by
      rw [← h.file_eq]
      exact hp.absent (hunder.trans hnone)⟩

theorem BeginOk.fits {op : Operation} {g : Handle} {n : Node} {s c : Snapshot}
    (h : BeginOk app a op g n s c) : Fits a op := by
  have hunder : op.under = some op.epoch := by
    rw [Operation.under, h.kind]
  refine ⟨?_, fun hnone => by rw [hunder] at hnone; cases hnone⟩
  rw [hunder, epochOf, h.file_eq, h.current.tip, Option.map_some, h.epoch_current, h.epoch_eq]

theorem Planned.fits {op : Operation} (h : Planned app a op) : Fits a op := by
  have hunder : op.under = op.base.map fun _ => op.epoch - 1 := by
    rw [Operation.under, h.kind]
  cases hb : op.base with
  | none =>
      have hnone := get_none_of_unused_node (h.creates hb).1.2
      rw [hb, Option.map_none] at hunder
      exact ⟨by rw [hunder, epochOf, tip_of_none hnone]; rfl, fun _ => hnone⟩
  | some k =>
      obtain ⟨n, c, hc, -, hepoch, -⟩ := h.replaces k hb
      rw [hb, Option.map_some] at hunder
      refine ⟨?_, fun hnone => by rw [hunder] at hnone; cases hnone⟩
      rw [hunder, epochOf, hc.tip, Option.map_some, hepoch, Nat.add_sub_cancel]

/-- A write commits in the epoch that it has. -/
theorem CommitWriteOk.epoch_eq (hs : Sound app a) {op : Operation} {g : Handle} {n : Node}
    {s c : Snapshot} {rs bs : List BlockRef} (h : CommitWriteOk a op g n s c rs bs) :
    op.file = g.file ∧ c.ref.contentEpoch = op.epoch := by
  have hop := Table.mem_of_get h.stored
  have hw : op.writing := ⟨h.kind, h.state⟩
  obtain ⟨g', hg', hfile, hbusy⟩ := hs.writeHandle op hop hw
  obtain rfl : g = g' := Option.some.inj (h.handle.symm.trans hg')
  have hbase := hs.writeBase op hop hw _ (hbusy h.isOpen).2.2 s h.snap
  exact ⟨hfile.symm, h.epoch_current.trans hbase.1⟩

/-- An upload that replaces a snapshot finds it in the file, one epoch earlier. -/
theorem CommitUploadOk.replaced (hs : Sound app a) {op : Operation} {n : Node}
    {bs : List BlockRef} (h : CommitUploadOk a op n bs) {k : Id} (hk : op.base = some k) :
    ∃ c, tip a op.file = some c ∧ a.snapshots.get k = some c ∧
      op.epoch = c.ref.contentEpoch + 1 := by
  obtain ⟨m, hm, halive, hsnap, -⟩ := h.replaces k hk
  have hmem := Table.mem_of_get hm
  obtain ⟨-, c, hc, hget, -⟩ :=
    hs.files m hmem halive (hs.kind_of_snapshot hmem hsnap)
  have hid : k = c.id := Option.some.inj (hsnap.symm.trans hc)
  have hbase := hs.uploadBase op (Table.mem_of_get h.stored) ⟨h.kind, h.state⟩ k hk c (hid ▸ hget)
  exact ⟨c, tip_some.mpr ⟨m, hm, hc, hget⟩, hid ▸ hget, hbase.2.1⟩

/-- The file of an upload that replaces nothing does not exist. -/
theorem CommitUploadOk.absent (hs : Sound app a) {op : Operation} {n : Node}
    {bs : List BlockRef} (h : CommitUploadOk a op n bs) (hb : op.base = none) :
    a.nodes.get op.file = none :=
  (hs.uploadNew op (Table.mem_of_get h.stored) ⟨h.kind, h.state⟩ hb).1

theorem CommitWriteOk.fits (hs : Sound app a) {op : Operation} {g : Handle} {n : Node}
    {s c : Snapshot} {rs bs : List BlockRef} (h : CommitWriteOk a op g n s c rs bs) :
    Fits a op := by
  obtain ⟨hfile, hepoch⟩ := h.epoch_eq hs
  have hunder : op.under = some op.epoch := by
    rw [Operation.under, h.kind]
  refine ⟨?_, fun hnone => by rw [hunder] at hnone; cases hnone⟩
  rw [hunder, epochOf, hfile, h.current.tip, Option.map_some, hepoch]

theorem CommitUploadOk.fits (hs : Sound app a) {op : Operation} {n : Node} {bs : List BlockRef}
    (h : CommitUploadOk a op n bs) : Fits a op := by
  have hunder : op.under = op.base.map fun _ => op.epoch - 1 := by
    rw [Operation.under, h.kind]
  cases hb : op.base with
  | none =>
      have hnone := h.absent hs hb
      rw [hb, Option.map_none] at hunder
      exact ⟨by rw [hunder, epochOf, tip_of_none hnone]; rfl, fun _ => hnone⟩
  | some k =>
      obtain ⟨c, hc, -, hepoch⟩ := h.replaced hs hb
      rw [hb, Option.map_some] at hunder
      refine ⟨?_, fun hnone => by rw [hunder] at hnone; cases hnone⟩
      rw [hunder, epochOf, hc, Option.map_some, hepoch, Nat.add_sub_cancel]

/-- **An operation is committed under the epoch that it has.** -/
theorem Act.fits (hs : Sound app a) (h : Act app trust a b) {k : Id} {o p : Operation}
    (ho : a.uploads.get k = some o) (hp : b.uploads.get k = some p) (hst : o.state ≠ .committed)
    (hc : p.state = .committed) : Fits a o ∧ o.state = .preparing := by
  rcases h.committing ho hp hst hc with ⟨g, hcommits⟩ | ⟨n, bs, hok⟩
  · obtain ⟨n, s, c, rs, bs, hok⟩ := hcommits.ok
    exact ⟨hok.fits hs, hok.state⟩
  · exact ⟨hok.fits hs, hok.state⟩

/-! ## Publishing actions -/

/-- **An action publishes nothing, or one snapshot that follows the one of its file**: in the same
epoch if it commits a write, and in the next one otherwise. -/
theorem Act.publication (hr : app.rf3 = true) (hs : Sound app a) (hfirst : FirstEpochs a)
    (h : Act app trust a b) :
    Tips a b ∨ ∃ s d, Publication a b s d ∧
      ((d = 0 ∧ ∃ op, trust.commits op ∧ op.kind = .write) ∨
        d = 1 ∧ ((∃ op, trust.commits op ∧ op.kind = .upload) ∨ trust.empties s.file)) := by
  cases h with
  | touchNode hg _ _ hsnap => exact .inl (.put (.inr ⟨_, hg, hsnap⟩))
  | newDirectory _ _ hnone => exact .inl (.put (.inl hnone))
  | removeNode hg _ _ hsnap _ => exact .inl (.put (.inr ⟨_, hg, hsnap⟩))
  | dropSnapshot _ _ => exact .inl (.delete _)
  | @commitWrite op g n n' s c rs bs _ hok same _ hsnap hcommits =>
      obtain ⟨hfile, hepoch⟩ := hok.epoch_eq hs
      have hn : n'.id = g.file := same.1.trans (node_id_of_get hok.current.1)
      have hfollows : Follows a ⟨app.uuid a.issued, g.file,
          writtenRef app op c (app.uuid a.issued) g.file bs, bs⟩ 0 :=
        .inr ⟨c, hok.current.tip, rfl, hepoch.symm⟩
      exact .inr ⟨_, 0, .of_put hs rfl hn hsnap hfollows rfl rfl, .inl ⟨rfl, op, hcommits, hok.kind⟩⟩
  | @commitUpload op n s _ hok hu hcommits =>
      have hn : n.id = s.file := hok.node_id.trans hu.file_eq.symm
      have hfollows : Follows a s 1 := by
        have hversion := hu.version hr
        rw [Follows, hu.file_eq, hu.epoch_eq]
        cases hb : op.base with
        | none =>
            rw [hb] at hversion
            exact .inl ⟨hok.absent hs hb, hversion,
              hfirst op (Table.mem_of_get hok.stored) ⟨hok.kind, hok.state⟩ hb⟩
        | some k =>
            obtain ⟨c, hc, hget, hepoch⟩ := hok.replaced hs hb
            rw [hb, Option.bind_some, hget] at hversion
            exact .inr ⟨c, hc, hversion, hepoch⟩
      exact .inr ⟨s, 1, .of_put hs hu.id_eq hn hu.node_eq hfollows rfl rfl,
        .inr ⟨rfl, .inl ⟨op, hcommits, hok.kind⟩⟩⟩
  | @createFile n s hf he _ _ hempties =>
      have hnone := get_none_of_unused_node hf.2
      obtain ⟨hepoch, hversion⟩ := he.first hnone
      have hfollows : Follows a s 1 := .inl ⟨he.file_eq ▸ hnone, hversion, hepoch⟩
      exact .inr ⟨s, 1, .of_put hs he.id_eq he.file_eq.symm he.node hfollows rfl rfl,
        .inr ⟨rfl, .inr (he.file_eq ▸ hempties)⟩⟩
  | @truncate n m s c hcur _ _ he _ _ hempties =>
      obtain ⟨hepoch, hversion⟩ := he.next m c hcur
      have hfollows : Follows a s 1 := .inr ⟨c, he.file_eq ▸ hcur.tip, hversion, hepoch⟩
      exact .inr ⟨s, 1, .of_put hs he.id_eq he.file_eq.symm he.node hfollows rfl rfl,
        .inr ⟨rfl, .inr (he.file_eq ▸ hempties)⟩⟩
  | _ => exact .inl ⟨fun _ h => h, fun _ _ h => h, fun _ h => h⟩

/-! ## Steps -/

/-- Nothing is published. -/
def Trust.silent : Trust := .publishing (fun _ => False) fun _ => False

theorem Acts.tips (hr : app.rf3 = true) (hs : Sound app a) (hfirst : FirstEpochs a)
    (h : Acts app .silent a b) : Tips a b := by
  induction h with
  | refl => exact .refl a
  | tail hacts hact ih =>
      rcases hact.publication hr (hs.acts hacts) (Acts.firstEpochs hacts hfirst) with
        htips | ⟨s, d, -, ⟨-, op, hno, -⟩ | ⟨-, ⟨op, hno, -⟩ | hno⟩⟩
      · exact ih.trans htips
      · exact hno.elim
      · exact hno.elim
      · exact hno.elim

/-- An operation that begins where nothing is published fits its file. -/
theorem Acts.begins_fit (hr : app.rf3 = true) (hs : Sound app a) (hfirst : FirstEpochs a)
    (h : Acts app .silent a b) {k : Id} {o : Operation} (hk : a.uploads.get k = none)
    (ho : b.uploads.get k = some o) (hst : o.state = .preparing) : Fits a o := by
  induction h generalizing o with
  | refl => exact absurd (hk.symm.trans ho) (by simp)
  | @tail x y hacts hact ih =>
      cases hx : x.uploads.get k with
      | none =>
          have hfits : Fits x o := by
            rcases hact.beginning hx ho with ⟨g, n, s, c, hok⟩ | hplan | ⟨hne, -⟩
            · exact hok.fits
            · exact hplan.fits
            · exact absurd hst hne
          exact hfits.before (Acts.tips hr hs hfirst hacts)
      | some p =>
          obtain ⟨q, hq, hev⟩ := hact.uploads k p hx
          obtain rfl : q = o := Option.some.inj (hq.symm.trans ho)
          exact hev.fits.mp (ih hx (hev.preparing hst))

namespace Publishes

variable {may : Trust → Prop}

theorem publication (hr : app.rf3 = true) (hs : Sound app a) (hfirst : FirstEpochs a)
    (h : Publishes app may a b) (ht : may trust) :
    Tips a b ∨ ∃ s d, Publication a b s d ∧
      ((d = 0 ∧ ∃ op, trust.commits op ∧ op.kind = .write) ∨
        d = 1 ∧ ((∃ op, trust.commits op ∧ op.kind = .upload) ∨ trust.empties s.file)) := by
  obtain ⟨u, x, hu, hux, hx, hb⟩ := h
  have hsu := hs.acts (hu .silent)
  have hfu := Acts.firstEpochs (hu .silent) hfirst
  have hact := hux trust ht
  have hfx := hact.firstEpochs hfu
  have hau := Acts.tips hr hs hfirst (hu .silent)
  have hxb := Acts.tips hr (hsu.act hact) hfx (hx .silent)
  rcases hact.publication hr hsu hfu with htips | ⟨s, d, hpub, hkind⟩
  · exact .inl ((hau.trans htips).trans hxb)
  · refine .inr ⟨s, d, .within hau hpub hxb (fun hmem => ?_) hb, hkind⟩
    -- A snapshot that was there is not published again.
    have hissued : Issued app u s.id := by
      obtain ⟨i, hi, he⟩ := hs.ids.snapshots s hmem s.id (by simp [Snapshot.ids])
      exact ⟨i, lt_of_lt_of_le hi (Acts.issued_le (hu .silent)), he⟩
    exact hpub.new (Table.mem_of_get (hact.snapshot hissued (Table.get_of_mem hpub.stored)))

/-- **What commits under a publication fits its file.** -/
theorem fits (hr : app.rf3 = true) (hs : Sound app a) (hfirst : FirstEpochs a)
    (h : Publishes app may a b) (ht : may trust) {k : Id} {o p : Operation}
    (ho : a.uploads.get k = some o) (hp : b.uploads.get k = some p) (hst : o.state ≠ .committed)
    (hc : p.state = .committed) : Fits a o ∧ o.state = .preparing := by
  obtain ⟨u, x, hu, hux, hx, -⟩ := h
  have hsilent : ∀ op, Trust.silent.commits op → op.id ≠ k := fun _ hno => hno.elim
  obtain ⟨o', ho', hev⟩ := Acts.uploads (hu .silent) k o ho
  have hst' := Acts.uncommitted (hu .silent) hsilent ho hst ho'
  obtain ⟨p', hp', -⟩ := (hux trust ht).uploads k o' ho'
  have hc' : p'.state = .committed := by
    by_contra hne
    exact Acts.uncommitted (hx .silent) hsilent hp' hne hp hc
  obtain ⟨hfits, hpreparing⟩ := (hux trust ht).fits (hs.acts (hu .silent)) ho' hp' hst' hc'
  exact ⟨hev.fits.mpr (hfits.before (Acts.tips hr hs hfirst (hu .silent))),
    hev.preparing hpreparing⟩

end Publishes

/-- An event that commits a write. -/
def Event.writes : Event → Bool
  | .served _ _ (.commitWrite _) _ => true
  | _ => false

/-- An event that carries out a command that publishes. -/
def Event.publishes : Event → Bool
  | .served _ _ cmd _ => cmd.publishes
  | _ => false

/-- The same may be published, and no operation begins. -/
def Trust.beginless (trust : Trust) : Trust := { trust with begins := fun _ => False }

/-- What carrying out one command publishes. -/
structure Promulgates (app : App) (w v : World) (e : Event) (trust : Trust) : Prop where
  event : e.publishes = true
  publishes : ∃ may : Trust → Prop, may trust ∧ may trust.beginless ∧
    Publishes app may w.access v.access
  write : ∀ op, trust.commits op → op.kind = .write → e.writes = true
  upload : ∀ op, trust.commits op → op.kind = .upload → e.writes = false
  empty : ∀ f, trust.empties f → e.writes = false

theorem Executes.promulgates (hr : app.rf3 = true) (hs : Sound app w.access) {e : Event}
    {cmd : Command} (hcmd : cmd.publishes = true) (h : Executes app w e cmd v) :
    Unpublished app w v ∨ ∃ trust, Promulgates app w v e trust := by
  obtain ⟨token, ctx', r', rfl⟩ := h.event
  obtain ⟨user, session, ctx, r, u, hexec, hacc, -, -⟩ := h.run
  have hs₂ : Sound app (w.setAccess (w.access.later 2)).access := hs.advance 2
  have hprofile : app.profile = .rf3 ∨ app.profile = .replicated := by
    revert hr
    cases hp : app.profile <;> simp [App.rf3, hp]
  cases cmd with
  | commitUpload req =>
      obtain ⟨op, hkind, hpub⟩ : ∃ op, op.kind = .upload ∧
          Publishes app (fun trust => trust.commits op) w.access v.access := by
        simp only [execute] at hexec
        obtain ⟨x, s, hx, hexec⟩ := Tx.bind_ok.mp hexec
        rw [Tx.pure_ok, Prod.mk.injEq] at hexec
        obtain ⟨-, rfl⟩ := hexec
        rcases hprofile with hp | hp
        · simp only [commitUpload, hp] at hx
          obtain ⟨op, _, _, _, _, _, hpub, -, -, hdone, -⟩ := accessCommitUpload_ok hs₂ hx
          exact ⟨op, hdone.ok.kind, publishes_around (j := 2) hpub hacc⟩
        · simp only [commitUpload, hp] at hx
          obtain ⟨op, -, hkind, -, -, hpub⟩ := protectionCommitUpload_publishes hs₂ hx
          exact ⟨op, hkind, publishes_around (j := 2) hpub hacc⟩
      refine .inr ⟨.publishing (fun o => o = op) fun _ => False, rfl,
        ⟨fun trust => trust.commits op, rfl, rfl, hpub⟩, ?_, ?_, ?_⟩
      · rintro o rfl hwrite
        rw [hkind] at hwrite
        cases hwrite
      · exact fun _ _ _ => rfl
      · exact fun _ hno => hno.elim
  | commitWrite req =>
      obtain ⟨op, hkind, hpub⟩ : ∃ op, op.kind = .write ∧
          Publishes app (fun trust => trust.commits op) w.access v.access := by
        simp only [execute, hr, if_true] at hexec
        obtain ⟨x, s, hx, hexec⟩ := Tx.bind_ok.mp hexec
        rw [Tx.pure_ok, Prod.mk.injEq] at hexec
        obtain ⟨-, rfl⟩ := hexec
        unfold commitWrite at hx
        split at hx
        · obtain ⟨op, -, hkind, -, -, hpub⟩ := protectionCommitWrite_publishes hx
          exact ⟨op, hkind, publishes_around (j := 2) hpub hacc⟩
        · obtain ⟨op, _, _, _, _, hpub, -, hwritten, -⟩ := accessCommitWrite_ok hx
          obtain ⟨b, hok⟩ := hwritten.ok
          exact ⟨op, hok.kind, publishes_around (j := 2) hpub hacc⟩
      refine .inr ⟨.publishing (fun o => o = op) fun _ => False, rfl,
        ⟨fun trust => trust.commits op, rfl, rfl, hpub⟩, ?_, ?_, ?_⟩
      · exact fun _ _ _ => rfl
      · rintro o rfl hupload
        rw [hkind] at hupload
        cases hupload
      · exact fun _ hno => hno.elim
  | openFile path mode =>
      have hopens : Unpublished app w v ∨ ∃ f : Id,
          Publishes app (fun trust => trust.empties f) w.access v.access := by
        simp only [execute] at hexec
        rcases hprofile with hp | hp
        · simp only [openFile, hp] at hexec
          obtain ⟨m, s, hopen, hexec⟩ := Tx.bind_ok.mp hexec
          rw [Tx.pure_ok, Prod.mk.injEq] at hexec
          obtain ⟨-, rfl⟩ := hexec
          obtain ⟨node, hopened, -⟩ := accessOpen_ok hs₂ hopen
          by_cases hmode : mode ∈ creatingModes
          · exact .inr ⟨node.id, publishes_around (j := 2) (hopened.publishes hmode) hacc⟩
          · exact .inl fun _ _ => acts_around (j := 2) (hopened.quiet hmode _) hacc
        · simp only [openFile, hp] at hexec
          obtain ⟨m, s, hopen, hexec⟩ := Tx.bind_ok.mp hexec
          rw [Tx.pure_ok, Prod.mk.injEq] at hexec
          obtain ⟨-, rfl⟩ := hexec
          obtain ⟨f, hopens⟩ := protectionOpen_opens hs₂ hopen
          rcases hopens.acts with hun | ⟨-, hpub⟩
          · exact .inl fun commits empties => acts_around (j := 2) (hun commits empties) hacc
          · exact .inr ⟨f, publishes_around (j := 2) hpub hacc⟩
      rcases hopens with hun | ⟨f, hpub⟩
      · exact .inl hun
      refine .inr ⟨.publishing (fun _ => False) fun k => k = f, rfl,
        ⟨fun trust => trust.empties f, rfl, rfl, hpub⟩, ?_, ?_, ?_⟩
      · exact fun _ hno => hno.elim
      · exact fun _ hno => hno.elim
      · exact fun _ _ => rfl
  | _ => cases hcmd

/-- **What a step publishes.** -/
theorem Step.promulgates (hr : app.rf3 = true) (hs : Sound app w.access) {e : Event}
    (h : Step app reports w e v) :
    Unpublished app w v ∨ ∃ trust, Promulgates app w v e trust := by
  rcases h.publisher hs with hun | ⟨cmd, hcmd, hexec⟩
  · exact .inl hun
  · exact hexec.promulgates hr hs hcmd

/-- How far the epoch moves on with a publication. -/
def Event.epochs (e : Event) : Nat := if e.writes = true then 0 else 1

theorem Step.publication (hr : app.rf3 = true) (hs : Sound app w.access)
    (hfirst : FirstEpochs w.access) {e : Event} (h : Step app reports w e v) :
    Tips w.access v.access ∨
      e.publishes = true ∧ ∃ s, Publication w.access v.access s e.epochs := by
  rcases h.promulgates hr hs with hun | ⟨trust, hpro⟩
  · exact .inl (Acts.tips hr hs hfirst (hun _ _))
  · obtain ⟨may, ht, -, hpub⟩ := hpro.publishes
    refine (hpub.publication hr hs hfirst ht).imp_right fun ⟨s, d, hs, hkind⟩ => ?_
    refine ⟨hpro.event, s, ?_⟩
    rcases hkind with ⟨rfl, op, hop, hkind⟩ | ⟨rfl, ⟨op, hop, hkind⟩ | hempty⟩
    · rw [Event.epochs, hpro.write op hop hkind]
      exact hs
    · rw [Event.epochs, hpro.upload op hop hkind]
      exact hs
    · rw [Event.epochs, hpro.empty _ hempty]
      exact hs

/-- **An operation begins under the epoch of its file.** -/
theorem Step.begins_fit (hr : app.rf3 = true) (hs : Sound app w.access)
    (hfirst : FirstEpochs w.access) {e : Event} (h : Step app reports w e v) {k : Id}
    {o : Operation} (hk : w.access.uploads.get k = none) (ho : v.access.uploads.get k = some o)
    (hst : o.state = .preparing) : Fits w.access o := by
  rcases h.promulgates hr hs with hun | ⟨trust, hpro⟩
  · exact Acts.begins_fit hr hs hfirst (hun _ _) hk ho hst
  · -- What publishes does not begin anything.
    obtain ⟨may, -, ht, hpub⟩ := hpro.publishes
    have hnone := Acts.unbegun (hpub.acts ht) (k := k) (fun h => h) hk
    rw [ho] at hnone
    cases hnone

/-- **An operation commits under the epoch of its file.** -/
theorem Step.commits_fit (hr : app.rf3 = true) (hs : Sound app w.access)
    (hfirst : FirstEpochs w.access) {e : Event} (h : Step app reports w e v) {k : Id}
    {o p : Operation} (ho : w.access.uploads.get k = some o)
    (hp : v.access.uploads.get k = some p) (hst : o.state ≠ .committed)
    (hc : p.state = .committed) : Fits w.access o ∧ o.state = .preparing := by
  rcases h.promulgates hr hs with hun | ⟨trust, hpro⟩
  · exact absurd hc (Acts.uncommitted (hun (fun _ => False) fun _ => False)
      (fun _ hno => hno.elim) ho hst hp)
  · obtain ⟨may, ht, -, hpub⟩ := hpro.publishes
    exact hpub.fits hr hs hfirst ht ho hp hst hc

/-! ## Runs -/

theorem Reachable.firstEpochs (h : Reachable app reports w) : FirstEpochs w.access := by
  obtain ⟨clk, username, password, es, hrun⟩ := h
  exact Acts.firstEpochs (hrun.acts (sound_initial clk username password))
    fun _ h => absurd h List.not_mem_nil

/-- The snapshots of a file that are new after a step. -/
def published (f : Id) (w v : World) : List Snapshot :=
  v.access.snapshots.all.filter fun s => s.file = f ∧ s ∉ w.access.snapshots.all

/-- The snapshots that were published of a file in a run, each with the event that did. -/
inductive History (app : App) (reports : Call → Prop) (f : Id) (w : World) :
    List (Event × SnapshotRef) → World → Prop
  | nil : History app reports f w [] w
  | step {u v : World} {h : List (Event × SnapshotRef)} {e : Event} :
      History app reports f w h u → Step app reports u e v →
      History app reports f w (h ++ (published f u v).map fun s => (e, s.ref)) v

/-- Every run has a history. -/
theorem Run.history {es : List Event} (h : Run app reports w es v) (f : Id) :
    ∃ l, History app reports f w l v := by
  refine h.induct (P := fun u => ∃ l, History app reports f w l u) ?_ ⟨[], .nil⟩
  rintro u e x hstep ⟨l, hl⟩
  exact ⟨_, hl.step hstep⟩

/-- The published snapshots are numbered: the versions count up from 1, the epoch begins with 1
and moves on with every event but the commit of a write. -/
structure Numbered (h : List (Event × SnapshotRef)) : Prop where
  events : ∀ x ∈ h, x.1.publishes = true
  versions : h.map (fun x => x.2.fileVersion) = List.range' 1 h.length
  first : ∀ x ∈ h.head?, x.2.contentEpoch = 1
  epochs : h.IsChain fun x y => y.2.contentEpoch = x.2.contentEpoch + y.1.epochs

/-- The last snapshot that was published of a file is the one that it has, if it has one. -/
structure Latest (a : Access) (f : Id) (h : List (Event × SnapshotRef)) : Prop where
  tip : ∀ c, tip a f = some c → ∃ e, h.getLast? = some (e, c.ref)
  node : a.nodes.get f = none → h = []

theorem Tips.latest {f : Id} {h : List (Event × SnapshotRef)} (ht : Tips a b)
    (hl : Latest a f h) : Latest b f h where
  tip c hc := hl.tip c (ht.tip f c hc)
  node hf := hl.node (ht.nodes f hf)

theorem published_eq {f : Id} {s : Snapshot} (hs : ∀ t, t ∈ published f w v ↔ t = s) :
    published f w v = [s] := by
  have hsorted := v.access.snapshots.sorted.filter
    fun t : Snapshot => decide (t.file = f ∧ t ∉ w.access.snapshots.all)
  have hnodup : (published f w v).Nodup :=
    hsorted.imp fun hlt he => absurd (congrArg Keyed.key he) (ne_of_lt hlt)
  have hperm := (List.perm_ext_iff_of_nodup hnodup (List.nodup_singleton s)).mpr fun t => by
    rw [hs t, List.mem_singleton]
  exact List.perm_singleton.mp hperm

theorem mem_published {f : Id} {t : Snapshot} : t ∈ published f w v ↔
    t ∈ v.access.snapshots.all ∧ t.file = f ∧ t ∉ w.access.snapshots.all := by
  simp [published]

/-- The number of the last snapshot is how many there are. -/
theorem Numbered.last {h : List (Event × SnapshotRef)} (hn : Numbered h)
    {x : Event × SnapshotRef} (hx : h.getLast? = some x) : x.2.fileVersion = h.length := by
  obtain ⟨h', rfl⟩ := List.getLast?_eq_some_iff.mp hx
  have hv := hn.versions
  rw [List.length_append, List.length_singleton, List.range'_concat, List.map_append,
    List.map_singleton] at hv
  have hlast := (List.append_inj' hv rfl).2
  rw [List.singleton_inj] at hlast
  rw [hlast, List.length_append, List.length_singleton]
  omega

/-- The next snapshot is numbered from the last one. -/
theorem Numbered.snoc {h : List (Event × SnapshotRef)} (hn : Numbered h) {e : Event}
    {r : SnapshotRef} (he : e.publishes = true) (hversion : r.fileVersion = h.length + 1)
    (hfirst : h = [] → r.contentEpoch = 1)
    (hnext : ∀ x, h.getLast? = some x → r.contentEpoch = x.2.contentEpoch + e.epochs) :
    Numbered (h ++ [(e, r)]) where
  events x hx := by
    rcases List.mem_append.mp hx with hx | hx
    · exact hn.events x hx
    · rw [List.mem_singleton.mp hx]
      exact he
  versions := by
    rw [List.map_append, List.length_append, List.length_singleton, List.range'_concat,
      hn.versions, List.map_singleton, hversion]
    simp [Nat.add_comm]
  first x hx := by
    cases h with
    | nil =>
        obtain rfl : (e, r) = x := Option.some.inj hx
        exact hfirst rfl
    | cons y h => exact hn.first x hx
  epochs := by
    refine List.isChain_append.mpr ⟨hn.epochs, List.isChain_singleton _, fun x hx y hy => ?_⟩
    obtain rfl : (e, r) = y := Option.some.inj hy
    exact hnext x hx

/-- **A publication is the next in the history of its file.** -/
theorem Numbered.publication {f : Id} {h : List (Event × SnapshotRef)} (hn : Numbered h)
    (hl : Latest w.access f h) {e : Event} (he : e.publishes = true) {s : Snapshot}
    (hp : Publication w.access v.access s e.epochs)
    (hhoused : (v.access.nodes.get s.file).isSome = true) :
    Numbered (h ++ (published f w v).map fun s => (e, s.ref)) ∧
      Latest v.access f (h ++ (published f w v).map fun s => (e, s.ref)) := by
  by_cases hf : s.file = f
  · subst hf
    have heq : published s.file w v = [s] := by
      refine published_eq fun t => ?_
      rw [mem_published]
      constructor
      · rintro ⟨ht, -, hnew⟩
        exact (hp.only t ht).resolve_right hnew
      · rintro rfl
        exact ⟨hp.stored, rfl, hp.new⟩
    rw [heq, List.map_singleton]
    constructor
    · rcases hp.follows with ⟨hnone, hversion, hepoch⟩ | ⟨c, hc, hversion, hepoch⟩
      · have hnil := hl.node hnone
        subst hnil
        exact hn.snoc he hversion (fun _ => hepoch) fun x hx => by cases hx
      · obtain ⟨e', hlast⟩ := hl.tip c hc
        refine hn.snoc he ?_ (fun hnil => by rw [hnil] at hlast; cases hlast) fun x hx => ?_
        · rw [hversion, ← hn.last hlast]
        · rw [hlast] at hx
          obtain rfl := Option.some.inj hx
          exact hepoch
    · refine ⟨fun c hc => ⟨e, ?_⟩, fun hnone => ?_⟩
      · rw [hp.own c hc, List.getLast?_append]
        rfl
      · rw [hnone] at hhoused
        cases hhoused
  · have heq : published f w v = [] := by
      refine List.eq_nil_iff_forall_not_mem.mpr fun t ht => ?_
      obtain ⟨ht, hfile, hnew⟩ := mem_published.mp ht
      rcases hp.only t ht with rfl | hold
      · exact hf hfile
      · exact hnew hold
    rw [heq, List.map_nil, List.append_nil]
    exact ⟨hn, fun c hc => hl.tip c (hp.tip f c (fun he => hf he.symm) hc),
      fun hnone => hl.node (hp.nodes f hnone)⟩

theorem History.run {f : Id} {h : List (Event × SnapshotRef)}
    (hh : History app reports f w h v) : ∃ es, Run app reports w es v := by
  induction hh with
  | nil => exact ⟨[], .nil w⟩
  | step _ hstep ih =>
      obtain ⟨es, hes⟩ := ih
      exact ⟨_, hes.trans (.single hstep)⟩

/-- **The history of a file is numbered.** -/
theorem History.numbered (hr : app.rf3 = true) {clk : Clock} {username : Text}
    {password : Digest} {f : Id} {h : List (Event × SnapshotRef)}
    (hh : History app reports f (World.initial app clk username password) h v) :
    Numbered h ∧ Latest v.access f h := by
  induction hh with
  | nil =>
      refine ⟨⟨fun _ hx => absurd hx List.not_mem_nil, rfl, fun _ hx => (by cases hx),
        List.isChain_nil⟩, fun c hc => ?_, fun _ => rfl⟩
      obtain ⟨n, hn, hsnap, -⟩ := tip_some.mp hc
      rw [(initial_node (Table.mem_of_get hn)).2.1] at hsnap
      cases hsnap
  | @step u v h e hh hstep ih =>
      obtain ⟨hn, hl⟩ := ih
      obtain ⟨es, hrun⟩ := hh.run
      have hreach : Reachable app reports u := ⟨clk, username, password, es, hrun⟩
      have hs := hreach.sound
      rcases hstep.publication hr hs hreach.firstEpochs with htips | ⟨he, s, hp⟩
      · have heq : published f u v = [] := by
          refine List.eq_nil_iff_forall_not_mem.mpr fun t ht => ?_
          obtain ⟨ht, -, hnew⟩ := mem_published.mp ht
          exact hnew (htips.snapshots t ht)
        rw [heq, List.map_nil, List.append_nil]
        exact ⟨hn, htips.latest hl⟩
      · exact hn.publication hl he hp ((hstep.sound hs).housed s hp.stored)

/-- **Version counters**: the snapshots that are published of a file have the versions 1, 2, 3 and
so on; its content epoch begins with 1, is moved on by one when the file is replaced or emptied,
and stays when a write is committed.  An operation commits under the content epoch that its file
had when it began. -/
theorem version_counters (hr : app.rf3 = true) :
    (∀ clk username password f h v,
      History app reports f (World.initial app clk username password) h v → Numbered h) ∧
    ∀ w, Reachable app reports w → ∀ e u k o, Step app reports w e u →
      w.access.uploads.get k = none → u.access.uploads.get k = some o →
        ∀ es v, Run app reports u es v → ∀ e' z p q, Step app reports v e' z →
          v.access.uploads.get k = some p → p.state ≠ .committed →
            z.access.uploads.get k = some q → q.state = .committed →
              epochOf v.access o.file = epochOf w.access o.file := by
  constructor
  · intro clk username password f h v hh
    exact (hh.numbered hr).1
  · intro w hw e u k o hstep hnone ho es v hes e' z p q hstep' hp hst hq hc
    have hu := hw.run (Run.single hstep)
    have hv := hu.run hes
    obtain ⟨p', hp', hev⟩ := (hes.acts hu.sound).uploads k o ho
    obtain rfl : p' = p := Option.some.inj (hp'.symm.trans hp)
    obtain ⟨hcommit, hpreparing⟩ :=
      hstep'.commits_fit hr hv.sound hv.firstEpochs hp hq hst hc
    have hbegin := hstep.begins_fit hr hw.sound hw.firstEpochs hnone ho (hev.preparing hpreparing)
    rw [hbegin.epoch, (hev.fits.mpr hcommit).epoch]

/-- A file that is created empty and written once has two versions. -/
theorem small_versions : ∃ h v, History (App.small .replicated) (fun _ => True) 10
    (World.small .replicated) h v ∧ h.length = 2 ∧ Numbered h := by
  obtain ⟨v, hv, htip⟩ := exists_of_perform (App.small .replicated) smallCommit
    (World.small .replicated)
    (fun v => (tip v.access 10).map (fun s => s.ref.fileVersion) = some 2) (by decide +kernel)
  obtain ⟨c, hc, hversion⟩ := Option.map_eq_some_iff.mp htip
  obtain ⟨es, hrun⟩ := perform_run hv
  obtain ⟨h, hh⟩ := hrun.history 10
  have hn := (version_counters (show (App.small .replicated).rf3 = true from rfl)).1 _ _ _ _ h v hh
  obtain ⟨e, hlast⟩ := (hh.numbered rfl).2.tip c hc
  exact ⟨h, v, hh, (hn.last hlast).symm.trans hversion, hn⟩

end Dfsha
