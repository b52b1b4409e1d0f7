import Dfsha.Lib.Edits
import Dfsha.Safety.Contents

/-!
# A store of files

What a control with leases and its data nodes do amounts to a store of files that change at once: a
file is created or emptied, replaced by an upload, overwritten by a write, or removed.  The step in
which an operation commits is the one in which its file changes, and no other step changes what a
file that is alive contains.

## Main definitions

* `Contents.file` — the content of a file.
* `Completes` — an operation is committed in a step.
* `Explains` — the edits of one file that a step stands for.
* `Edited` — a run, and the edits of one file that its steps stand for.

## Main results

* `Step.explains` — a step changes a file by the edits that it stands for.
* `store_of_files` — the content of a file is what the edits of all steps make of nothing.
* `written_stays` — what was written is there as long as later edits spare it.
-/

namespace Dfsha

variable {app : App} {reports : Call → Prop} {w v u : World} {c : Contents} {f : Id}

/-! ## Contents of files -/

/-- The file is there, and was not removed. -/
def alive (a : Access) (f : Id) : Bool := (a.nodes.get f).any Node.alive

/-- The content of a file that is alive. -/
def Contents.file (c : Contents) (a : Access) (f : Id) : Option Bytes :=
  if alive a f = true then (tip a f).map fun s => c.manifest s.blocks else none

theorem alive_iff {a : Access} : alive a f = true ↔ ∃ n, a.nodes.get f = some n ∧ n.alive = true :=
  Option.any_eq_true _ _

theorem Contents.file_of_tip {a : Access} {s : Snapshot} (ha : alive a f = true)
    (hs : tip a f = some s) : c.file a f = some (c.manifest s.blocks) := by
  rw [Contents.file, if_pos ha, hs, Option.map_some]

/-- A file that is there and is alive later was alive before. -/
theorem Step.undead (hs : Sound app w.access) {e : Event} (h : Step app reports w e v) {n : Node}
    (hn : w.access.nodes.get f = some n) (hv : alive v.access f = true) :
    alive w.access f = true := by
  obtain ⟨m, hm, halive⟩ := alive_iff.mp hv
  exact alive_iff.mpr ⟨n, hn, Acts.undead hs (h.all hs) hn hm halive⟩

/-- **A file that nothing is published of keeps its content**, while it is alive. -/
theorem Step.file_kept (hs : Sound app w.access) {e : Event} (h : Step app reports w e v)
    (htip : ∀ s, tip v.access f = some s → tip w.access f = some s)
    (hv : alive v.access f = true) : c.file v.access f = c.file w.access f := by
  have hsv := h.sound hs
  obtain ⟨m, hm, halive⟩ := alive_iff.mp hv
  cases ht : tip v.access f with
  | some s =>
      have hold := htip s ht
      obtain ⟨n, hn, -⟩ := tip_some.mp hold
      rw [Contents.file_of_tip hv ht, Contents.file_of_tip (h.undead hs hn hv) hold]
  | none =>
      -- The node is a directory, so it had no snapshot before either.
      have hkind : m.kind ≠ .file := by
        intro hfile
        obtain ⟨-, s, hsnap, hget, -⟩ := hsv.files m (Table.mem_of_get hm) halive hfile
        rw [tip_some.mpr ⟨m, hm, hsnap, hget⟩] at ht
        cases ht
      have hold : tip w.access f = none := by
        cases hw : tip w.access f with
        | none => rfl
        | some s =>
            obtain ⟨n, hn, hsnap, -⟩ := tip_some.mp hw
            obtain ⟨m', hm', hsame, -⟩ := Acts.nodes hs (h.all hs) f n hn
            obtain rfl : m = m' := Option.some.inj (hm.symm.trans hm')
            exact absurd (hsame.trans (hs.kind_of_snapshot (Table.mem_of_get hn) hsnap)) hkind
      rw [Contents.file, Contents.file, ht, hold]
      simp

/-! ## Steps -/

/-- The operation `o` is committed in a step, and is `p` afterwards. -/
structure Completes (w v : World) (o p : Operation) : Prop where
  before : w.access.uploads.get o.id = some o
  after : v.access.uploads.get o.id = some p
  pending : o.state ≠ .committed
  committed : p.state = .committed

/-- **The edits of the file `f` that a step stands for.** -/
inductive Explains (c : Contents) (f : Id) (w : World) (e : Event) (v : World) :
    List (Edit UInt8) → Prop
  /-- No operation on the file is committed. -/
  | kept : (∀ o p, Completes w v o p → o.file ≠ f) → Explains c f w e v []
  /-- The file is created, or emptied. -/
  | emptied : e.publishes = true → (∀ o p, Completes w v o p → o.file ≠ f) →
      Explains c f w e v [.emptied]
  /-- One operation is committed, an upload of these bytes. -/
  | replaced {o p : Operation} {bytes : Bytes} : Completes w v o p →
      (∀ o' p', Completes w v o' p' → o'.id = o.id) → o.file = f → o.kind = .upload →
      (∀ sent, c.Sends p sent → bytes = sent) → Explains c f w e v [.replaced bytes]
  /-- One operation is committed, a write of this delta. -/
  | overwritten {o p : Operation} {delta old : Bytes} : Completes w v o p →
      (∀ o' p', Completes w v o' p' → o'.id = o.id) → o.file = f → o.kind = .write →
      c.Delta o delta → c.file w.access f = some old → o.offset ≤ old.length →
      Explains c f w e v [.overwritten o.offset delta]
  /-- And the file is removed. -/
  | removed {edits : List (Edit UInt8)} : Explains c f w e v edits → alive v.access f = false →
      Explains c f w e v (edits ++ [.removed])

/-- **A snapshot that a step stores** is that of the operation which it commits, or empty. -/
theorem Step.stores (hr : app.rf3 = true) (hs : Sound app w.access)
    (hfirst : FirstEpochs w.access) {e : Event} (h : Step app reports w e v) {s : Snapshot}
    (hstored : s ∈ v.access.snapshots.all) (hnew : s ∉ w.access.snapshots.all) :
    e.publishes = true ∧ (∃ n, v.access.nodes.get s.file = some n ∧ n.kind = .file) ∧
      (s.blocks = [] ∨ ∃ o p, Completes w v o p) := by
  rcases h.promulgates hr hs with hun | ⟨trust, hpro⟩
  · exact absurd ((Acts.tips hr hs hfirst (hun _ _)).snapshots s hstored) hnew
  · obtain ⟨may, ht, hbegins, hpub⟩ := hpro.publishes
    obtain ⟨a, b, ha, hab, hb, hsnaps⟩ := id hpub
    have hold : s ∉ a.snapshots.all := fun hmem =>
      hnew ((Acts.tips hr hs hfirst (ha .silent)).snapshots s hmem)
    have hsb := (hs.acts (ha .silent)).act (hab trust ht)
    obtain ⟨⟨n, hn, hsnap⟩, hblocks⟩ := (hab trust ht).stores (hsnaps ▸ hstored) hold
    obtain ⟨m, hm, hkind, -⟩ := Acts.nodes hsb (hb .silent) _ n hn
    refine ⟨hpro.event, ⟨m, hm, hkind.trans (hsb.kind_of_snapshot (Table.mem_of_get hn) hsnap)⟩, ?_⟩
    rcases hblocks with hnil | ⟨op, p, hop, hst, hp, hc⟩
    · exact .inl hnil
    · -- What publishes does not begin anything, so the operation was there before.
      have hv := Acts.uploads (hb .silent) op.id p hp
      obtain ⟨p', hp', hpp⟩ := hv
      cases hw : w.access.uploads.get op.id with
      | none =>
          have hnone := Acts.unbegun (hpub.acts hbegins) (k := op.id) (fun h => h) hw
          rw [hp'] at hnone
          cases hnone
      | some o =>
          obtain ⟨q, hq, hoq⟩ := Acts.uploads (ha .silent) op.id o hw
          obtain rfl : q = op := Option.some.inj (hq.symm.trans hop)
          have hid : o.id = q.id := upload_id_of_get hw
          refine .inr ⟨o, p', hid ▸ hw, hid ▸ hp', ?_, (hpp.committed hc).1⟩
          rw [hoq.preparing hst]
          simp

/-- A step commits one operation at most. -/
theorem Step.completes_one (hr : app.rf3 = true) (hs : Sound app w.access) {e : Event}
    (h : Step app reports w e v) {o p o' p' : Operation} (hop : Completes w v o p)
    (hop' : Completes w v o' p') : o'.id = o.id := by
  rcases h.promulgates hr hs with hun | ⟨trust, hpro⟩
  · exact absurd hop.committed (Acts.uncommitted (hun (fun _ => False) fun _ => False)
      (fun _ hno => hno.elim) hop.before hop.pending hop.after)
  · obtain ⟨may, ht, -, hpub⟩ := hpro.publishes
    obtain ⟨a, b, ha, hab, hb, -⟩ := hpub
    have hsilent : ∀ k op, Trust.silent.commits op → op.id ≠ k := fun _ _ hno => hno.elim
    obtain ⟨k, hk⟩ := (hab trust ht).writes_one
    -- An operation that the one action does not write is not committed.
    have hone : ∀ {x y : Operation}, Completes w v x y → x.id = k := by
      intro x y hxy
      by_contra hne
      obtain ⟨q, hq, -⟩ := Acts.uploads (ha .silent) x.id x hxy.before
      have hqst := Acts.uncommitted (ha .silent) (hsilent x.id) hxy.before hxy.pending hq
      exact Acts.uncommitted (hb .silent) (hsilent x.id) ((hk _ hne).trans hq) hqst hxy.after
        hxy.committed
    rw [hone hop', hone hop]

/-- **A step changes a file by the edits that it stands for.** -/
theorem Step.explains (hr : app.rf3 = true) (h : Reachable app c.Honest w) {e : Event}
    (hstep : Step app c.Honest w e v) (f : Id) :
    ∃ edits, Explains c f w e v edits ∧ c.file v.access f = amend edits (c.file w.access f) := by
  have hs := h.sound
  have hfirst := h.firstEpochs
  have hsv := hstep.sound hs
  -- A file that is removed has no content, so what is left is about one that is alive.
  suffices hlive : ∃ edits, Explains c f w e v edits ∧
      (alive v.access f = true → c.file v.access f = amend edits (c.file w.access f)) by
    obtain ⟨edits, hexplains, hedits⟩ := hlive
    by_cases hv : alive v.access f = true
    · exact ⟨edits, hexplains, hedits hv⟩
    · refine ⟨_, hexplains.removed (Bool.eq_false_iff.mpr hv), ?_⟩
      rw [Contents.file, if_neg hv, amend_append]
      rfl
  -- What is published of a file is what it has afterwards.
  have htip : ∀ {s : Snapshot} {d : Nat}, Publication w.access v.access s d → s.file = f →
      alive v.access f = true → tip v.access f = some s := by
    intro s d hpub hf hv
    obtain ⟨-, ⟨n, hn, hkind⟩, -⟩ := hstep.stores hr hs hfirst hpub.stored hpub.new
    obtain ⟨m, hm, halive⟩ := alive_iff.mp hv
    obtain rfl : m = n := Option.some.inj (hm.symm.trans (hf ▸ hn))
    obtain ⟨-, t, hsnap, hget, -⟩ := hsv.files m (Table.mem_of_get hm) halive hkind
    have ht : tip v.access f = some t := tip_some.mpr ⟨m, hm, hsnap, hget⟩
    rw [ht, hpub.own t (hf ▸ ht)]
  by_cases hdone : ∃ o p, Completes w v o p ∧ o.file = f
  · obtain ⟨o, p, hop, hfile⟩ := hdone
    have hone : ∀ o' p', Completes w v o' p' → o'.id = o.id := fun _ _ =>
      hstep.completes_one hr hs hop
    obtain ⟨a, q, s, hcommit⟩ := hstep.commit hr h hop.before hop.after hop.pending hop.committed
    obtain ⟨k, hpub⟩ := hcommit.publication
    have hf := hcommit.file.trans hfile
    cases hkind : o.kind with
    | upload =>
        refine ⟨_, .replaced hop hone hfile hkind fun sent => hcommit.uploaded h hkind, fun hv => ?_⟩
        rw [Contents.file_of_tip hv (htip hpub hf hv)]
        rfl
    | write =>
        obtain ⟨d, hd, hold, ⟨delta, hdelta⟩, hwritten⟩ := hcommit.written h hkind
        obtain ⟨hle, hcontent⟩ := hwritten delta hdelta
        have hfirst := Contents.file_of_tip (c := c) (alive_iff.mpr (hfile ▸ hold)) (hfile ▸ hd)
        refine ⟨_, .overwritten hop hone hfile hkind hdelta hfirst hle, fun hv => ?_⟩
        rw [Contents.file_of_tip hv (htip hpub hf hv), hcontent, hfirst]
        rfl
  · have hnone : ∀ o p, Completes w v o p → o.file ≠ f := fun o p hop hf => hdone ⟨o, p, hop, hf⟩
    rcases hstep.publication hr hs hfirst with htips | ⟨hevent, s, hpub⟩
    · exact ⟨[], .kept hnone, fun hv => hstep.file_kept hs (htips.tip f) hv⟩
    · by_cases hf : s.file = f
      · refine ⟨_, .emptied hevent hnone, fun hv => ?_⟩
        obtain ⟨-, -, hnil | ⟨o, p, hop⟩⟩ := hstep.stores hr hs hfirst hpub.stored hpub.new
        · rw [Contents.file_of_tip hv (htip hpub hf hv), hnil]
          rfl
        · -- The operation would have published this very snapshot.
          obtain ⟨a, q, t, hcommit⟩ :=
            hstep.commit hr h hop.before hop.after hop.pending hop.committed
          obtain ⟨k, ht⟩ := hcommit.publication
          obtain rfl : t = s := (hpub.only t ht.stored).resolve_right ht.new
          exact absurd (hcommit.file.symm.trans hf) (hnone o p hop)
      · exact ⟨[], .kept hnone, fun hv =>
          hstep.file_kept hs (fun t => hpub.tip f t fun he => hf he.symm) hv⟩

/-! ## Runs -/

/-- A run with its events, and the edits of one file that its steps stand for. -/
inductive Edited (app : App) (c : Contents) (f : Id) :
    World → List Event → List (Edit UInt8) → World → Prop
  | nil (w : World) : Edited app c f w [] [] w
  | cons {w v u : World} {e : Event} {es : List Event} {l edits : List (Edit UInt8)} :
      Step app c.Honest w e v → Explains c f w e v l → Edited app c f v es edits u →
      Edited app c f w (e :: es) (l ++ edits) u

/-- **The content of a file is what the edits of a run make of it.** -/
theorem Run.edited (hr : app.rf3 = true) (h : Reachable app c.Honest w) {es : List Event}
    (hrun : Run app c.Honest w es v) (f : Id) : ∃ edits, Edited app c f w es edits v ∧
      c.file v.access f = amend edits (c.file w.access f) := by
  induction hrun with
  | nil w => exact ⟨[], .nil w, rfl⟩
  | cons hstep _ ih =>
      obtain ⟨l, hexplains, hl⟩ := hstep.explains hr h f
      obtain ⟨edits, hedited, hedits⟩ := ih (h.run (.single hstep))
      exact ⟨l ++ edits, .cons hstep hexplains hedited, by rw [hedits, hl, amend_append]⟩

/-- The edits of a step in which a write is committed begin with it. -/
theorem Explains.writes {e : Event} {o p : Operation} {l : List (Edit UInt8)}
    (h : Explains c f w e v l) (hop : Completes w v o p) (hf : o.file = f)
    (hkind : o.kind = .write) : ∃ delta old rest, l = .overwritten o.offset delta :: rest ∧
      c.Delta o delta ∧ c.file w.access f = some old ∧ o.offset ≤ old.length := by
  -- It is the one operation that is committed.
  have hsame : ∀ {x y : Operation}, Completes w v x y →
      (∀ o' p', Completes w v o' p' → o'.id = x.id) → o = x := fun {x y} hx hone =>
    Option.some.inj (hop.before.symm.trans (hone o p hop ▸ hx.before))
  induction h with
  | kept hnone => exact absurd hf (hnone o p hop)
  | emptied _ hnone => exact absurd hf (hnone o p hop)
  | replaced hx hone _ hup _ =>
      rw [← hsame hx hone, hkind] at hup
      cases hup
  | @overwritten x y delta old hx hone _ _ hd hold hle =>
      obtain rfl := hsame hx hone
      exact ⟨delta, old, [], rfl, hd, hold, hle⟩
  | removed _ _ ih =>
      obtain ⟨delta, old, rest, rfl, hd, hold, hle⟩ := ih
      exact ⟨delta, old, rest ++ [.removed], rfl, hd, hold, hle⟩

end Dfsha
