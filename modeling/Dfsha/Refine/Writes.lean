import Dfsha.Refine.Uploads
import Mathlib.Data.List.Dedup

/-!
# Writing in place

`BeginWrite` gathers locks until they cover every block it touches, plans a new version of
each block, and writes its operation several times on the way.  For the protocol it is one
action, at the end: the locks are there, every identifier in the plan is fresh, and the
operation appears complete.

`CommitWrite` is judged when it finds its handle and its locks live; what it writes after that
is written in the same transaction.
-/

namespace Dfsha

variable {app : App} {trust : Trust} {w : World}

/-! ## Checking the request -/

theorem checkParts_ok {offset length size : Nat} {parts : List WritePart} :
    ∀ {cursor stop : Nat}, (checkParts offset length size parts cursor) w = .ok stop →
      stop = length → Partitioned offset length size cursor parts := by
  induction parts with
  | nil =>
      intro cursor stop h hstop
      rw [checkParts, Query.pure_ok] at h
      exact h.trans hstop
  | cons p rest ih =>
      intro cursor stop h hstop
      simp only [checkParts, Query.bind_ok, need_ok] at h
      obtain ⟨_, ⟨hpos, hi, ho, hd, hl, -⟩, h⟩ := h
      exact ⟨hl ▸ hpos, hl, hi, ho, hd, ih h hstop⟩

/-- What `BeginWrite` has checked before it takes any lock. -/
structure Checked (t : Writable) (req : BeginWriteRequest) (offset length : Nat)
    (growing : Bool) : Prop where
  idle : t.handle.busy = none
  base : req.base = t.snap.ref
  offset_le : offset ≤ req.base.sizeBytes
  growing_iff : growing = true ↔ req.base.sizeBytes < offset + length
  current : growing = true → t.current.ref.sizeBytes = req.base.sizeBytes
  partition : Partitioned offset length req.base.blockSizeBytes 0 req.parts
  same : ∀ p ∈ req.parts, t.snap.blocks[p.blockIndex]? = t.current.blocks[p.blockIndex]?

theorem beginCheck_ok {t : Writable} {req : BeginWriteRequest} {offset length : Nat}
    {growing : Bool} (h : (beginCheck app t req offset length) w = .ok growing) :
    Checked t req offset length growing := by
  simp only [beginCheck, Query.bind_ok, need_ok, checkedRange_ok, Query.pure_ok,
    Query.each_ok] at h
  obtain ⟨_, hidle, _, hbase, _, -, stop, ⟨-, -, rfl⟩, _, hle, _, -, _, hcur, _, -, cursor, hparts,
    _, ⟨hstop, -⟩, _, hsame, rfl⟩ := h
  exact ⟨hidle, hbase, hle, by simp, hcur, checkParts_ok hparts hstop, hsame⟩

/-- An empty write has no parts. -/
theorem Partitioned.nil {offset size : Nat} {parts : List WritePart}
    (h : Partitioned offset 0 size 0 parts) : parts = [] := by
  cases parts with
  | nil => rfl
  | cons p rest =>
      obtain ⟨hpos, hl, -⟩ := h
      simp only [Nat.zero_le, Nat.sub_eq_zero_of_le, Nat.zero_min] at hl
      omega

/-! ## Gathering locks -/

/-- The locks gathered so far are the handle's own, and cover what they are counted for. -/
structure Gathers (a : Access) (h : Handle) (indices : List Nat) (g : Gathered) : Prop where
  own : ∀ l ∈ g.locks, a.locks.get l.id = some l ∧ l.handle = h.id ∧ some l.controlEpoch = a.epoch
  covered : ∀ i ∈ indices, i ∈ g.covered → ∃ l ∈ g.locks, l.whole = true ∨ i ∈ l.indices
  sized : g.hasSize = true → ∃ l ∈ g.locks, l.size = true

theorem Gathers.add {a : Access} {h : Handle} {indices : List Nat} {g : Gathered}
    (hg : Gathers a h indices g) {l : Lock} (hl : a.locks.get l.id = some l)
    (hh : l.handle = h.id) (he : some l.controlEpoch = a.epoch) :
    Gathers a h indices (g.add indices l) where
  own m hm := by
    rcases List.mem_append.mp hm with hm | hm
    · exact hg.own m hm
    · rw [List.mem_singleton] at hm
      exact hm ▸ ⟨hl, hh, he⟩
  covered i hi hc := by
    rcases List.mem_append.mp hc with hc | hc
    · obtain ⟨m, hm, hcov⟩ := hg.covered i hi hc
      exact ⟨m, List.mem_append_left _ hm, hcov⟩
    · refine ⟨l, List.mem_append_right _ List.mem_cons_self, ?_⟩
      split at hc
      · exact .inl ‹_›
      · exact .inr hc
  sized hs := by
    rcases Bool.or_eq_true_iff.mp hs with hs | hs
    · obtain ⟨m, hm, hsize⟩ := hg.sized hs
      exact ⟨m, List.mem_append_left _ hm, hsize⟩
    · exact ⟨l, List.mem_append_right _ List.mem_cons_self, hs⟩

theorem gatherFences_ok {session : Session} {h : Handle} {indices : List Nat}
    {fences : List Fence} {g : Gathered} {w' : World}
    (hr : (gatherFences session h indices fences) w = .ok (g, w')) :
    w.Later w' ∧ Gathers w.access h indices g := by
  refine Tx.fold_induction (fun _ x v => w.Later v ∧ Gathers w.access h indices x) ?_
    ⟨.refl w, ⟨by simp, by simp, by simp⟩⟩ hr
  rintro fence rest x x' v v' ⟨⟨k, rfl⟩, hg⟩ hturn
  simp only [↓run_need, run_query, setAccess_access, setAccess_setAccess, Access.later_later,
    Tx.pure_ok, Prod.mk.injEq] at hturn
  obtain ⟨l, hv, hh, rfl, rfl⟩ := hturn
  obtain ⟨hget, -, hlive, -⟩ := validate_ok hv
  have hid : l.id = fence.lockId := lock_id_of_get hget
  exact ⟨⟨k + 1 + 1, rfl⟩, hg.add (hid ▸ hget) hh hlive.2.1⟩

theorem gatherOwn_ok {session : Session} {h : Handle} {indices : List Nat} {g g' : Gathered}
    {w' : World} (hr : (gatherOwn session h indices g) w = .ok (g', w'))
    (hg : Gathers w.access h indices g) :
    w.Later w' ∧ Gathers w.access h indices g' := by
  unfold gatherOwn at hr
  simp only [↓run_access] at hr
  have hmem : ∀ l ∈ w.access.locks.all, w.access.locks.get l.id = some l :=
    fun l hl => Table.get_of_mem hl
  refine (Tx.fold_induction (fun rest x v => (w.Later v ∧ Gathers w.access h indices x) ∧
    ∀ l ∈ rest, w.access.locks.get l.id = some l) ?_ ⟨⟨⟨1, rfl⟩, hg⟩, hmem⟩ hr).1
  rintro lock rest x x' v v' ⟨⟨⟨k, rfl⟩, hx⟩, hrest⟩ hturn
  refine ⟨?_, fun l hl => hrest l (List.mem_cons_of_mem _ hl)⟩
  simp only [↓run_access] at hturn
  split at hturn
  · rename_i hc
    simp only [Tx.pure_ok, Prod.mk.injEq] at hturn
    obtain ⟨rfl, rfl⟩ := hturn
    exact ⟨⟨k + 1, rfl⟩, hx.add (hrest lock List.mem_cons_self) hc.2.1 hc.1.2.1⟩
  · simp only [Tx.pure_ok, Prod.mk.injEq] at hturn
    obtain ⟨rfl, rfl⟩ := hturn
    exact ⟨⟨k + 1, rfl⟩, hx⟩

/-- Later, with more identifiers drawn and with other locks. -/
def Access.relocked (a : Access) (k n sequence : Nat) (locks : Table Lock) : Access :=
  { a with
    phase := a.phase + k, issued := a.issued + n, lockSequence := sequence, locks := locks }

/-- The locks of a write: the handle's own, on every block it touches, and on the size if the
file grows. -/
structure Covers (a : Access) (h : Handle) (indices : List Nat) (growing : Bool)
    (locks : List Lock) : Prop where
  own : ∀ l ∈ locks, a.locks.get l.id = some l ∧ l.handle = h.id ∧ some l.controlEpoch = a.epoch
  covered : ∀ i ∈ indices, ∃ l ∈ locks, l.whole = true ∨ i ∈ l.indices
  sized : growing = true → ∃ l ∈ locks, l.size = true

/-- A new lock speaks of its owner and of nothing else that is not new. -/
theorem Fresh.granted {a : Access} {o : Owner} {indices : List Nat} {whole size automatic : Bool}
    {l : Lock} {x : Id} (k : Nat) (hx : Fresh app a x)
    (hg : Granted app a o indices whole size automatic l) (ho : x ≠ o.id) :
    Fresh app (a.granted k l) x := by
  refine ⟨hx.1.more, ?_⟩
  rintro (⟨m, hm, hi⟩ | hrest)
  · rcases Table.mem_put.mp hm with rfl | ⟨hm, -⟩
    · simp only [Lock.ids, List.mem_cons, List.not_mem_nil, or_false] at hi
      rcases hi with rfl | rfl | rfl
      · exact not_issued_next (hg.id_eq ▸ hx.1)
      · exact ho (congrArg Owner.id hg.owner_eq)
      · exact Mentions.not_epoch hx.2 hg.epoch_eq
    · exact Mentions.not_lock hx.2 hm hi
  · exact hx.2 (.inr hrest)

variable (trust) in
theorem gatherMissing_ok {h : Handle} {indices : List Nat} {growing : Bool} {g g' : Gathered}
    {w' : World} (hs : Sound app w.access) (hget : w.access.handles.get h.id = some h)
    (hg : Gathers w.access h indices g)
    (hr : (gatherMissing app h indices growing g) w = .ok (g', w')) :
    Acts app trust w.access w'.access ∧
      (∃ k n seq locks, w' = w.setAccess (w.access.relocked k n seq locks)) ∧
      Covers w'.access h indices growing g'.locks ∧
      ∀ x, Fresh app w.access x → Fresh app w'.access x := by
  unfold gatherMissing at hr
  dsimp only at hr
  split at hr
  · obtain ⟨l, s, hl, hr⟩ := Tx.bind_ok.mp hr
    simp only [Tx.pure_ok, Prod.mk.injEq] at hr
    obtain ⟨rfl, rfl⟩ := hr
    obtain ⟨k, rfl, hgr, hc⟩ := acquire_ok hl
    obtain ⟨hi, hf⟩ := owner_ok hs hget
    have hown : l.handle = h.id := congrArg Owner.id hgr.owner_eq
    have hne : ∀ m ∈ g.locks, m.id ≠ l.id := fun m hm he => by
      refine Mentions.not_lock hs.next_unused (Table.mem_of_get (hg.own m hm).1) ?_
      rw [← hgr.id_eq, ← he]
      simp [Lock.ids]
    refine ⟨acts_granted hgr hc hi hf, ⟨k, 1, _, _, rfl⟩, ⟨?_, ?_, ?_⟩, fun x hx => ?_⟩
    · intro m hm
      rcases List.mem_append.mp hm with hm | hm
      · exact ⟨(Table.get_put_of_ne _ (hne m hm)).trans (hg.own m hm).1, (hg.own m hm).2⟩
      · rw [List.mem_singleton] at hm
        subst hm
        exact ⟨Table.get_put_self _ m, hown, hgr.epoch_eq.symm⟩
    · intro i hi
      by_cases hcov : i ∈ g.covered
      · obtain ⟨m, hm, hm'⟩ := hg.covered i hi hcov
        exact ⟨m, List.mem_append_left _ hm, hm'⟩
      · refine ⟨l, List.mem_append_right _ List.mem_cons_self, .inr ?_⟩
        rw [hgr.indices_eq, List.mem_insertionSort, List.mem_dedup, List.mem_filter]
        exact ⟨hi, by simpa using hcov⟩
    · intro hgrow
      by_cases hsize : g.hasSize = true
      · obtain ⟨m, hm, hm'⟩ := hg.sized hsize
        exact ⟨m, List.mem_append_left _ hm, hm'⟩
      · refine ⟨l, List.mem_append_right _ List.mem_cons_self, ?_⟩
        rw [hgr.size_eq]
        simp [hgrow, hsize]
    · refine hx.granted k hgr fun he => Mentions.not_handle hx.2 (Table.mem_of_get hget) ?_
      rw [he]
      simp [Handle.ids, Handle.owner]
  · rename_i hnone
    simp only [ne_eq, List.filter_eq_nil_iff, not_or, not_not, Bool.and_eq_true, Bool.not_eq_true',
      not_and, decide_eq_true_eq] at hnone
    simp only [Tx.pure_ok, Prod.mk.injEq] at hr
    obtain ⟨rfl, rfl⟩ := hr
    refine ⟨.refl, ⟨0, 0, _, _, rfl⟩, ⟨hg.own, fun i hi => hg.covered i hi (hnone.1 i hi), ?_⟩,
      fun _ => id⟩
    intro hgrow
    exact hg.sized (by simpa using hnone.2 hgrow)

/-! ## Planning -/

/-- A part as it is planned, with an identifier drawn since `first`. -/
structure PartPlanned (app : App) (first last : Nat) (snap : Snapshot) (file : Id) (p : Part) :
    Prop where
  base : p.base = baseOf snap.blocks file p.part.blockIndex
  file_eq : p.replacement.fileId = file
  index_eq : p.replacement.blockIndex = p.part.blockIndex
  size_eq : p.replacement.sizeBytes = max p.base.sizeBytes (p.part.blockOffset + p.part.length)
  drawn : ∃ i, first ≤ i ∧ i < last ∧ p.replacement.blockVersionId = app.uuid i

/-- A write whose parts are planned one by one: only its own record and the counter of
identifiers change. -/
structure Planning (app : App) (a : Access) (op₀ : Operation) (snap : Snapshot) (op : Operation)
    (b : Access) : Prop where
  state : ∃ k n, b = a.resettle k n (a.uploads.put op)
  op_eq : op = { op₀ with parts := op.parts, allocations := op.allocations }
  allocations : op.allocations = op.parts.map fun p => (p.part.blockIndex, p.replacement)
  parts : ∀ p ∈ op.parts, PartPlanned app a.issued b.issued snap op.file p
  nodup : (op.parts.map fun p => p.replacement.blockVersionId).Nodup

theorem PartPlanned.more {first last last' : Nat} {snap : Snapshot} {file : Id} {p : Part}
    (h : PartPlanned app first last snap file p) (hle : last ≤ last') :
    PartPlanned app first last' snap file p := by
  obtain ⟨i, h1, h2, h3⟩ := h.drawn
  exact ⟨h.base, h.file_eq, h.index_eq, h.size_eq, i, h1, by omega, h3⟩

/-- A write that was just recorded has no parts yet. -/
theorem Planning.start (app : App) (a : Access) (op : Operation) (snap : Snapshot)
    (hparts : op.parts = []) (hallocations : op.allocations = []) :
    Planning app a op snap op { a with uploads := a.uploads.put op } where
  state := ⟨0, 0, rfl⟩
  op_eq := rfl
  allocations := by rw [hparts, hallocations, List.map_nil]
  parts p hp := absurd hp (by rw [hparts]; exact List.not_mem_nil)
  nodup := by rw [hparts]; exact List.nodup_nil

/-- One more part, with a new identifier, after any quiet work. -/
theorem Planning.part {a b : Access} {op₀ op : Operation} {snap : Snapshot} (k n : Nat)
    (h : Planning app a op₀ snap op b) {p : Part}
    (hp : PartPlanned app b.issued (b.issued + n + 1) snap op.file p)
    (hid : p.replacement.blockVersionId = app.uuid b.issued) :
    Planning app a op₀ snap
      { op with
        allocations := op.allocations ++ [(p.part.blockIndex, p.replacement)],
        parts := op.parts ++ [p] }
      { b.shift k (n + 1) with
        uploads := b.uploads.put
          { op with
            allocations := op.allocations ++ [(p.part.blockIndex, p.replacement)],
            parts := op.parts ++ [p] } } := by
  obtain ⟨j, m, rfl⟩ := h.state
  refine ⟨⟨j + k, m + (n + 1), ?_⟩, ?_, ?_, fun q hq => ?_, ?_⟩
  · have hput : (a.uploads.put op).put
        { op with
          allocations := op.allocations ++ [(p.part.blockIndex, p.replacement)],
          parts := op.parts ++ [p] } = a.uploads.put
        { op with
          allocations := op.allocations ++ [(p.part.blockIndex, p.replacement)],
          parts := op.parts ++ [p] } := Table.put_put _ rfl
    simp only [Access.resettle, Access.shift, hput, Nat.add_assoc]
  · rw [h.op_eq]
  · simp [h.allocations]
  · rcases List.mem_append.mp hq with hq | hq
    · exact (h.parts q hq).more (by simp [Access.shift])
    · rw [List.mem_singleton] at hq
      subst hq
      obtain ⟨i, h1, h2, h3⟩ := hp.drawn
      exact ⟨hp.base, hp.file_eq, hp.index_eq, hp.size_eq, i,
        le_trans (Nat.le_add_right _ _) h1, h2, h3⟩
  · rw [List.map_append, List.nodup_append]
    refine ⟨h.nodup, List.nodup_singleton _, ?_⟩
    intro x hx y hy he
    rw [List.mem_map] at hx
    obtain ⟨q, hq, rfl⟩ := hx
    obtain ⟨i, -, hlt, hqid⟩ := (h.parts q hq).drawn
    simp only [List.map_cons, List.map_nil, List.mem_singleton] at hy
    rw [hqid, hy, hid] at he
    exact absurd (app.uuid_injective he) (by omega)

theorem planPart_ok {user : User} {snap : Snapshot} {a : Access} {op₀ op op' : Operation}
    {planned planned' : List PlannedBlock} {part : WritePart} {w' : World}
    (hp : Planning app a op₀ snap op w.access)
    (h : (planPart app user snap op.file (op, planned) part) w = .ok ((op', planned'), w')) :
    Planning app a op₀ snap op' w'.access ∧ op'.file = op.file ∧
      op'.parts.map Part.part = op.parts.map Part.part ++ [part] := by
  unfold planPart at h
  simp only [run_draw] at h
  obtain ⟨_, s, k, n, -, hacc, h⟩ := run_quiet h
  obtain ⟨p, s₁, k₁, n₁, -, hacc₁, h⟩ := run_quiet h
  simp only [↓run_world, ↓run_deref, putUpload, run_onAccess, setAccess_access,
    setAccess_setAccess, Access.later_later, Nat.reduceAdd, Tx.pure_ok, Prod.mk.injEq] at h
  obtain ⟨first, -, target, -, ⟨rfl, -⟩, rfl⟩ := h
  have hshift : s₁.access = w.access.shift (1 + k + k₁) (n + n₁ + 1) := by
    rw [hacc₁, hacc]
    simp only [setAccess_access, Access.shift_shift]
    congr 1
    omega
  refine ⟨?_, rfl, by simp⟩
  have hfinal := hp.part (1 + k + k₁ + 3) (n + n₁)
    (p := ⟨part, baseOf snap.blocks op.file part.blockIndex,
      ⟨op.file, app.uuid w.access.issued, part.blockIndex,
        max (baseOf snap.blocks op.file part.blockIndex).sizeBytes
          (part.blockOffset + part.length), .unset⟩⟩)
    ⟨rfl, rfl, rfl, rfl, w.access.issued, le_refl _, by omega, rfl⟩ rfl
  rw [setAccess_access, hshift]
  exact hfinal

theorem planParts_ok {user : User} {snap : Snapshot} {a : Access} (op₀ : Operation) {op : Operation}
    {planned : List PlannedBlock} {parts : List WritePart} {w' : World}
    (hp : Planning app a op₀ snap op₀ w.access) (hnil : op₀.parts = [])
    (h : (Tx.fold parts (planPart app user snap op₀.file) (op₀, [])) w = .ok ((op, planned), w')) :
    Planning app a op₀ snap op w'.access ∧ op.parts.map Part.part = parts := by
  have hfold := Tx.fold_induction (fun rest x v => Planning app a op₀ snap x.1 v.access ∧
    x.1.file = op₀.file ∧ x.1.parts.map Part.part ++ rest = parts) ?_
    ⟨hp, rfl, by simp [hnil]⟩ h
  · exact ⟨hfold.1, by simpa using hfold.2.2⟩
  · rintro part rest ⟨o, planned⟩ ⟨o', planned'⟩ v v' ⟨hplan, hfile, hparts⟩ hturn
    simp only at hplan hfile hparts ⊢
    rw [← hfile] at hturn
    obtain ⟨h1, h2, h3⟩ := planPart_ok hplan hturn
    exact ⟨h1, h2.trans hfile, by rw [h3, ← hparts]; simp⟩

/-! ## Beginning -/

variable (app trust) in
/-- The locks of a write are marked with its operation; nothing else about them changes. -/
theorem activate_ok {opId : Id} {locks : List Lock} {r : Unit × World} :
    ∀ {w : World}, (∀ l ∈ locks, ∃ x, w.access.locks.get l.id = some { l with active := x }) →
      (Tx.each locks fun lock => putLock { lock with active := lock.active ++ [opId] }) w = .ok r →
      ∃ t, r.2 = w.setAccess { w.access with locks := t } ∧
        ∀ b : Access, b.locks = w.access.locks → Acts app trust b { b with locks := t } := by
  induction locks with
  | nil =>
      intro w _ h
      rw [Tx.each, Tx.pure_ok] at h
      refine ⟨w.access.locks, by rw [h]; rfl, fun b hb => ?_⟩
      exact hb ▸ .refl
  | cons lock rest ih =>
      intro w hstored h
      rw [Tx.each] at h
      simp only [putLock, run_onAccess] at h
      obtain ⟨x, hx⟩ := hstored lock List.mem_cons_self
      have hrest : ∀ l ∈ rest, ∃ y, (w.access.locks.put
          { lock with active := lock.active ++ [opId] }).get l.id =
            some { l with active := y } := fun l hl => by
        obtain ⟨y, hy⟩ := hstored l (List.mem_cons_of_mem _ hl)
        by_cases he : l.id = lock.id
        · have hsame : ({ l with active := y } : Lock) = { lock with active := x } :=
            Option.some.inj (hy.symm.trans ((congrArg w.access.locks.get he).trans hx))
          have hput : ({ l with active := lock.active ++ [opId] } : Lock) =
              { lock with active := lock.active ++ [opId] } :=
            congrArg (fun m : Lock => { m with active := lock.active ++ [opId] }) hsame
          refine ⟨lock.active ++ [opId], ?_⟩
          rw [hput]
          exact (congrArg _ he).trans
            (Table.get_put_self _ { lock with active := lock.active ++ [opId] })
        · exact ⟨y, (Table.get_put_of_ne _ he).trans hy⟩
      obtain ⟨t, ht, hacts⟩ := ih hrest h
      refine ⟨t, ht, fun b hb => ?_⟩
      have hput : Act app trust b
          { b with locks := b.locks.put { lock with active := lock.active ++ [opId] } } :=
        .setActive (l := { lock with active := x }) (lock.active ++ [opId]) (hb ▸ hx)
      exact (Relation.ReflTransGen.single hput).trans (hacts _ (by rw [hb]; rfl))

/-- The fences of a write are those of its locks, in the same order. -/
theorem fences_ok {h : Handle} {indices : List Nat} {growing : Bool} {locks : List Lock}
    {fences : List Fence} (hc : Covers w.access h indices growing locks)
    (hf : (Query.map locks message) w = .ok fences) :
    locks.map Lock.id = fences.map Fence.lockId ∧
      (∀ f ∈ fences, ∃ l, w.access.locks.get f.lockId = some l ∧ f.matchesLock l ∧
        l.handle = h.id) ∧
      (∀ i ∈ indices, ∃ f ∈ fences, f.wholeFile = true ∨ i ∈ f.blockIndices) ∧
      (growing = true → ∃ f ∈ fences, f.includesSize = true) := by
  have hmatch : ∀ l ∈ locks, ∀ f, (message l) w = .ok f → f.matchesLock l := fun l hl f hm => by
    obtain ⟨h1, h2, h3, h4⟩ := message_ok hm
    refine ⟨h1, h2, Option.some.inj ?_, h4⟩
    rw [← h3, (hc.own l hl).2.2]
  obtain ⟨hforth, hback⟩ := Query.map_mem hf
  refine ⟨Query.map_eq_map (fun l f hm => (message_ok hm).1.symm) hf, fun f hmem => ?_,
    fun i hi => ?_, fun hgrow => ?_⟩
  · obtain ⟨l, hl, hm⟩ := hback f hmem
    obtain ⟨hget, hh, -⟩ := hc.own l hl
    exact ⟨l, (message_ok hm).1 ▸ hget, hmatch l hl f hm, hh⟩
  · obtain ⟨l, hl, hcov⟩ := hc.covered i hi
    obtain ⟨f, hmem, hm⟩ := hforth l hl
    obtain ⟨-, -, -, -, -, hi', hw', -⟩ := message_ok hm
    exact ⟨f, hmem, by rw [hi', hw']; exact hcov⟩
  · obtain ⟨l, hl, hsize⟩ := hc.sized hgrow
    obtain ⟨f, hmem, hm⟩ := hforth l hl
    obtain ⟨-, -, -, -, -, -, -, hs'⟩ := message_ok hm
    exact ⟨f, hmem, hs'.trans hsize⟩

/-- **A planned write may begin.**  `a` is where its locks have been gathered. -/
theorem beginOk {user : User} {session : Session} {ctx : RequestContext} {req : BeginWriteRequest}
    {t : Writable} {opId epoch : Id} {offset length : Nat} {growing : Bool} {locks : List Lock}
    {fences : List Fence} {a b : Access} {op : Operation} (k n : Nat) (hr : app.rf3 = true)
    (hs : Sound app a) (hfresh : Fresh app a opId) (hget : a.handles.get t.handle.id = some t.handle)
    (hopen : t.handle.closed = false) (hsnap : a.snapshots.get t.handle.snapshot = some t.snap)
    (hcur : Current a t.handle.file t.node t.current)
    (hepoch : t.current.ref.contentEpoch = t.snap.ref.contentEpoch)
    (hchk : Checked t req offset length growing) (hlen : 0 < length)
    (hlocks : locks.map Lock.id = fences.map Fence.lockId)
    (hfences : ∀ f ∈ fences, ∃ l, a.locks.get f.lockId = some l ∧ f.matchesLock l ∧
      l.handle = t.handle.id)
    (hcov : ∀ i ∈ req.parts.map WritePart.blockIndex, ∃ f ∈ fences,
      f.wholeFile = true ∨ i ∈ f.blockIndices)
    (hsize : growing = true → ∃ f ∈ fences, f.includesSize = true)
    (hplan : Planning app a
      (newWrite user session ctx req t opId offset length growing locks fences epoch) t.snap op b)
    (hb : b.issued ≤ a.issued + n)
    (hparts : op.parts.map Part.part = req.parts) :
    BeginOk app (a.shift k n) op t.handle t.node t.snap t.current := by
  have hfile : t.node.id = t.handle.file := node_id_of_get hcur.1
  have hdrawn : ∀ p ∈ op.parts, Fresh app (a.shift k n) p.replacement.blockVersionId ∧
      p.replacement.blockVersionId ≠ opId := fun p hp => by
    obtain ⟨i, h1, h2, h3⟩ := (hplan.parts p hp).drawn
    have hunused : ¬ Issued app a p.replacement.blockVersionId := by
      rintro ⟨j, hj, he⟩
      rw [h3] at he
      exact absurd (app.uuid_injective he) (by omega)
    refine ⟨⟨⟨i, lt_of_lt_of_le h2 hb, h3⟩, fun hm => hunused (hs.ids.issued hm)⟩, fun he => ?_⟩
    exact hunused (he ▸ hfresh.1)
  have hopfile : op.file = t.node.id := by rw [hplan.op_eq]; rfl
  have hopparts : op.parts.map (fun p => p.part.blockIndex) = req.parts.map WritePart.blockIndex := by
    rw [← hparts, List.map_map]
    rfl
  exact
    { leased := hr
      fresh := by
        rw [hplan.op_eq]
        obtain ⟨⟨i, hi, he⟩, hm⟩ := hfresh
        exact ⟨⟨i, Nat.lt_of_lt_of_le hi (Nat.le_add_right _ _), he⟩, hm⟩
      kind := by rw [hplan.op_eq]; rfl
      state := by rw [hplan.op_eq]; rfl
      handle := hget
      idle := hchk.idle
      isOpen := hopen
      current := hcur
      snap := hsnap
      handle_eq := by rw [hplan.op_eq]; rfl
      file_eq := hopfile.trans hfile
      revision_eq := by rw [hplan.op_eq]; rfl
      base_eq := by rw [hplan.op_eq]; rfl
      epoch_eq := by rw [hplan.op_eq]; exact congrArg SnapshotRef.contentEpoch hchk.base
      epoch_current := hepoch
      size_eq := by rw [hplan.op_eq]; exact congrArg SnapshotRef.sizeBytes hchk.base
      block_eq := by rw [hplan.op_eq]; exact congrArg SnapshotRef.blockSizeBytes hchk.base
      offset_le := by rw [hplan.op_eq]; exact hchk.offset_le
      length_pos := by rw [hplan.op_eq]; exact hlen
      total_eq := by rw [hplan.op_eq]; rfl
      growing_iff := by rw [hplan.op_eq]; exact hchk.growing_iff
      growing_current := by rw [hplan.op_eq]; exact hchk.current
      partition := by
        rw [hparts]
        rw [hplan.op_eq]
        exact hchk.partition
      parts := fun p hp => by
        have hpp := hplan.parts p hp
        have hmem : p.part ∈ req.parts := hparts ▸ List.mem_map_of_mem hp
        exact ⟨hpp.base, hchk.same _ hmem, hpp.file_eq, hpp.index_eq, hpp.size_eq,
          (hdrawn p hp).1⟩
      nodup := hplan.nodup
      op_not_block := fun p hp => by
        rw [hplan.op_eq]
        exact (hdrawn p hp).2
      allocations := hplan.allocations
      pages := by rw [hplan.op_eq]; rfl
      locks_eq := by rw [hplan.op_eq]; exact hlocks
      fences := by rw [hplan.op_eq]; exact hfences
      covered := fun p hp => by
        have hmem : p.part.blockIndex ∈ req.parts.map WritePart.blockIndex :=
          hopparts ▸ List.mem_map_of_mem (f := fun p : Part => p.part.blockIndex) hp
        rw [hplan.op_eq]
        exact hcov _ hmem
      sized := by rw [hplan.op_eq]; exact hsize }

variable (trust) in
theorem accessBeginWrite_ok {user : User} {session : Session} {ctx : RequestContext}
    {req : BeginWriteRequest} {plan : WritePlan} {w' : World} (hr : app.rf3 = true)
    (hs : Sound app w.access)
    (h : (accessBeginWrite app user session ctx req) w = .ok (plan, w')) :
    (trust.begins plan.operation.operationId → Acts app trust w.access w'.access) ∧
      ∃ op, w'.access.uploads.get plan.operation.operationId = some op ∧ op.policy = none ∧
        op.kind = .write := by
  unfold accessBeginWrite at h
  simp only [↓run_needSome, ↓run_need, run_query, run_draw, setAccess_access, setAccess_setAccess,
    Access.later_later, Access.later_shift, Access.shift_later, Nat.reduceAdd] at h
  obtain ⟨t, ht, offset, -, length, -, growing, hchk, -, h⟩ := h
  have hchk := beginCheck_ok hchk
  obtain ⟨hget, -, hopen, -, hsnap, hcur, hepoch⟩ := writable_ok ht
  have hid : t.handle.id = req.handleId := handle_id_of_get hget
  rw [← hid] at hget
  -- The locks, in three steps.
  obtain ⟨g₁, s₁, hfences, h⟩ := Tx.bind_ok.mp h
  obtain ⟨⟨k₁, rfl⟩, hg₁⟩ := gatherFences_ok hfences
  obtain ⟨g₂, s₂, hown, h⟩ := Tx.bind_ok.mp h
  obtain ⟨⟨k₂, rfl⟩, hg₂⟩ := gatherOwn_ok hown ⟨hg₁.own, hg₁.covered, hg₁.sized⟩
  obtain ⟨g, s, hmissing, h⟩ := Tx.bind_ok.mp h
  simp only [setAccess_access, setAccess_setAccess, Access.shift_later] at hmissing hg₂
  have hacts₁ : Acts app trust w.access (w.access.shift (6 + k₁ + k₂) 1) := acts_shift _ _ _
  have hs₁ := hs.acts hacts₁
  obtain ⟨hacts₂, ⟨k, n, seq, locks, rfl⟩, hcovers, hunused⟩ := gatherMissing_ok trust
    (w := w.setAccess (w.access.shift (6 + k₁ + k₂) 1)) hs₁ hget
    ⟨hg₂.own, hg₂.covered, hg₂.sized⟩ hmissing
  simp only [setAccess_access, setAccess_setAccess] at hacts₂ hcovers h
  have hfresh := hunused _ (fresh_draw hs (6 + k₁ + k₂))
  simp only [setAccess_access, setAccess_setAccess] at hfresh
  generalize ha : (w.access.shift (6 + k₁ + k₂) 1).relocked k n seq locks = a
    at hacts₂ hcovers hfresh h
  have hacts := hacts₁.trans hacts₂
  have hsa := hs.acts hacts
  -- The fences and the plan.
  simp only [run_query, leaseEpoch_ok, putUpload, run_onAccess, setAccess_access,
    setAccess_setAccess, Access.later_later, Nat.reduceAdd] at h
  obtain ⟨fences, hmap, epoch, -, h⟩ := h
  obtain ⟨hlocks, hmatch, hcov, hsize⟩ := fences_ok (w := w.setAccess a) hcovers hmap
  obtain ⟨⟨op, planned⟩, s₂, hfold, h⟩ := Tx.bind_ok.mp h
  have hstart := Planning.start app (a.later 2) (newWrite user session ctx req t
    (app.uuid w.access.issued) offset length growing g.locks fences epoch) t.snap rfl rfl
  obtain ⟨hplan, hparts⟩ := planParts_ok (newWrite user session ctx req t
    (app.uuid w.access.issued) offset length growing g.locks fences epoch)
    (w := w.setAccess { a.later 2 with uploads := _ }) hstart rfl hfold
  obtain ⟨k', n', hstate⟩ := hplan.state
  -- The locks are marked, and the operation is recorded: as busy, or as over.
  obtain ⟨_, s₃, hactivate, h⟩ := Tx.bind_ok.mp h
  obtain ⟨marked, rfl, hmarked⟩ := activate_ok app trust
    (fun l hl => ⟨l.active, by rw [hstate]; exact (hcovers.own l hl).1⟩) hactivate
  obtain ⟨_, s₄, hfinish, h⟩ := Tx.bind_ok.mp h
  simp only [Tx.pure_ok, Prod.mk.injEq] at h
  obtain ⟨rfl, rfl⟩ := h
  have hopid : op.id = app.uuid w.access.issued := by rw [hplan.op_eq]; rfl
  have hoplen : op.length = length := by rw [hplan.op_eq]; rfl
  unfold beginFinish at hfinish
  split at hfinish
  · rename_i hlen
    simp only [putHandle, putUpload, run_onAccess, last_onAccess, setAccess_access,
      setAccess_setAccess, Prod.mk.injEq, true_and] at hfinish
    subst hfinish
    have hb := beginOk k' n' hr (hsa.advance 2) hfresh (ha ▸ hget) hopen (ha ▸ hsnap) (ha ▸ hcur)
      hepoch hchk (by simp only at hlen; omega) hlocks hmatch hcov hsize hplan
      (by rw [hstate]; exact le_refl _) hparts
    have hput : ((a.later 2).uploads.put op).put op = (a.later 2).uploads.put op :=
      Table.put_put _ rfl
    refine ⟨fun hbegin => ?_, op, ?_, by rw [hplan.op_eq]; rfl, by rw [hplan.op_eq]; rfl⟩
    · have hstep := (hacts.trans ((acts_later a 2).trans (acts_shift _ k' n'))).tail
        (.beginWrite (hopid ▸ hbegin) hb)
      have hmark := hstep.trans (hmarked _ (by rw [hstate]; rfl))
      simp only [setAccess_access, hstate]
      simp only [Access.resettle, hput]
      exact hmark
    · have hstored := Table.get_put_self s₂.access.uploads op
      rw [key_operation, hopid] at hstored
      exact hstored
  · rename_i hlen
    have hzero : op.parts = [] := by
      have hlength : length = 0 := by simp only [ne_eq, not_not] at hlen; omega
      have hnil := (hlength ▸ hchk.partition).nil
      rw [hnil, List.map_eq_nil_iff] at hparts
      exact hparts
    dsimp only at hfinish
    obtain ⟨_, s₅, hrel, hfinish⟩ := Tx.bind_ok.mp hfinish
    simp only [putUpload, last_onAccess, Prod.mk.injEq, true_and] at hfinish
    subst hfinish
    generalize hop' : ({ op with state := .committed, result := _ } : Operation) = op' at hrel ⊢
    have hid' : op'.id = op.id := by rw [← hop']
    have hput : ((a.later 2).uploads.put op).put op' = (a.later 2).uploads.put op' :=
      Table.put_put _ hid'.symm
    have hstored := Table.get_put_self (a.later 2).uploads op'
    obtain ⟨hrelease, j, l, hd, he⟩ := releaseOperation_frame app trust
      (t := (a.later 2).uploads.put op') hstored (by rw [← hop']; simp) hrel
    refine ⟨fun hbegin => ?_, op', ?_, by rw [← hop', hplan.op_eq]; rfl,
      by rw [← hop', hplan.op_eq]; rfl⟩
    · have hrecord : Act app trust ((a.later 2).shift k' n')
          { (a.later 2).shift k' n' with uploads := (a.later 2).uploads.put op' } := by
        refine .recordOp hr ?_ ?_ ?_ ?_ ?_ ?_ ?_ ?_
        · rw [hid', hopid]
          exact hbegin
        · rw [hid', hopid]
          obtain ⟨⟨i, hi, he⟩, hm⟩ := hfresh
          exact ⟨⟨i, Nat.lt_of_lt_of_le hi (Nat.le_add_right _ _), he⟩, hm⟩
        · rw [← hop']
          simp
        · have hfile : op'.file = t.handle.file := by
            rw [← hop', hplan.op_eq]
            exact node_id_of_get hcur.1
          rw [hfile, ← ha]
          exact Option.isSome_iff_exists.mpr ⟨_, hcur.1⟩
        · have hbase : op'.base = some t.handle.snapshot := by
            rw [← hop', hplan.op_eq]
            rfl
          intro b hb
          rw [hbase, Option.mem_def, Option.some.injEq] at hb
          subst hb
          have hmem : t.handle ∈ a.handles.all := by
            rw [← ha]
            exact Table.mem_of_get hget
          obtain ⟨i, hi, he⟩ := hsa.ids.handles t.handle hmem
            t.handle.snapshot (by simp [Handle.ids])
          exact ⟨i, Nat.lt_of_lt_of_le hi (Nat.le_add_right _ _), he⟩
        · rw [← hop']
          simp [hplan.allocations, hzero]
        · rw [← hop']
          exact not_ne_iff.mp hlen
        · rw [← hop', hplan.op_eq]
          rfl
      have hstep := (hacts.trans ((acts_later a 2).trans (acts_shift _ k' n'))).tail hrecord
      have hmark := hstep.trans (hmarked _ (by rw [hstate]; rfl))
      refine hmark.trans ?_
      have hfinal := hrelease
      rw [he] at hfinal ⊢
      simp only [setAccess_access, hstate] at hfinal ⊢
      simp only [Access.release, Access.resettle, hput] at hfinal ⊢
      exact hfinal
    · have hkey : app.uuid w.access.issued = op'.id := by rw [hid', hopid]
      have hlast := Table.get_put_self s₅.access.uploads op'
      rw [key_operation, ← hkey] at hlast
      exact hlast

variable (trust) in
/-- An empty write gets its result a second time. -/
theorem reportEmpty_ok {op : Operation} {r : Unit × World}
    (hget : w.access.uploads.get op.id = some op) (h : (reportEmpty app op) w = .ok r) :
    Acts app trust w.access r.2.access ∧
      ∃ result, r.2.access.uploads.get op.id = some { op with result := result } := by
  unfold reportEmpty at h
  split at h
  · simp only [↓run_deref] at h
    obtain ⟨result, hresult, h⟩ := h
    obtain ⟨res, s, hres, h⟩ := Tx.bind_ok.mp h
    rw [Tx.pure_ok] at h
    subst h
    obtain ⟨hacts, -, hstored, -⟩ := policyResult_ok trust
      (w := w.setAccess (w.access.later 1)) hget (fun _ => by rw [hresult]; rfl) hres
    exact ⟨(acts_later _ 1).trans hacts, some res, hstored⟩
  · rw [Tx.pure_ok] at h
    subst h
    exact ⟨.refl, op.result, hget⟩

variable (trust) in
theorem protectionBeginWrite_ok {user : User} {session : Session} {ctx : RequestContext}
    {req : BeginWriteRequest} {r : WritePlan × World} (hr : app.rf3 = true)
    (hs : Sound app w.access) (h : (protectionBeginWrite app user session ctx req) w = .ok r) :
    ∃ op : Operation, (trust.begins op.id → Acts app trust w.access r.2.access) ∧
      r.2.access.uploads.get op.id = some op ∧
      op.policy = some (policyOf r.2.cluster op.file) ∧ op.kind = .write ∧
      r.1.operation.operationId = op.id := by
  unfold protectionBeginWrite at h
  simp only [↓run_cluster, ↓run_need, run_query, setAccess_access, setAccess_setAccess,
    Access.later_later, Nat.reduceAdd] at h
  obtain ⟨⟨_, _⟩, -, -, h⟩ := h
  obtain ⟨plan, s, hplan, h⟩ := Tx.bind_ok.mp h
  obtain ⟨hacts, o, hget, hp, hkind⟩ := accessBeginWrite_ok trust hr (hs.advance 3) hplan
  simp only [↓run_access, ↓run_deref, setAccess_access, setAccess_setAccess, Access.later_later,
    Nat.reduceAdd] at h
  obtain ⟨op, hop, h⟩ := h
  have hid : op.id = plan.operation.operationId := upload_id_of_get hop
  obtain rfl : o = op := Option.some.inj (hget.symm.trans hop)
  obtain ⟨op', s', hcap, h⟩ := Tx.bind_ok.mp h
  obtain ⟨hacts', hget', rfl⟩ := capturePolicy_ok trust
    (w := s.setAccess (s.access.later 2)) (hid ▸ hop) hp hcap
  simp only [↓run_cluster] at h
  obtain ⟨_, s₂, hempty, h⟩ := Tx.bind_ok.mp h
  rw [Tx.pure_ok] at h
  subst h
  have hstored : (s'.setAccess (s'.access.later 1)).access.uploads.get
      ({ o with policy := some (policyOf s'.cluster o.file) } : Operation).id =
        some { o with policy := some (policyOf s'.cluster o.file) } := hget'
  obtain ⟨hacts'', result, hlast⟩ := reportEmpty_ok trust hstored hempty
  have hcluster : s₂.cluster = s'.cluster :=
    Leaves.leaves (inferInstance : Leaves World.cluster (reportEmpty app _)) _ _ hempty
  refine ⟨{ o with policy := some (policyOf s'.cluster o.file), result := result },
    fun hb => ?_, hlast, by rw [hcluster], hkind, hid.symm⟩
  exact (acts_later _ 3).trans ((hacts (hid ▸ hb)).trans ((acts_later _ 2).trans
    (hacts'.trans ((acts_later _ 1).trans hacts''))))

theorem beginWrite_refines (hr : app.rf3 = true) (hb : ∀ k, trust.begins k) (user : User) (session : Session)
    (ctx : RequestContext) (req : BeginWriteRequest) :
    Refines app trust (beginWrite app user session ctx req) := by
  intro w r hs h
  unfold beginWrite at h
  obtain ⟨plan, s, hplan, h⟩ := Tx.bind_ok.mp h
  rw [Tx.pure_ok] at h
  subst h
  split at hplan
  · obtain ⟨op, hacts, -⟩ := protectionBeginWrite_ok trust hr hs hplan
    exact hacts (hb _)
  · exact (accessBeginWrite_ok trust hr hs hplan).1 (hb _)

/-! ## Committing -/

/-- What a write that may still commit finds. -/
structure Committable (a : Access) (t : WriteTarget) (s : Snapshot) : Prop where
  stored : a.uploads.get t.op.id = some t.op
  kind : t.op.kind = .write
  state : t.op.state = .preparing
  handle : a.handles.get t.op.handle = some t.handle
  isOpen : t.handle.closed = false
  live : a.liveHandle t.handle
  busy : t.handle.busy = some t.op.id
  revision : t.handle.revision = t.op.handleRevision
  fences : ∀ f ∈ t.op.fences, ∃ l, a.locks.get f.lockId = some l ∧ a.liveLock l
  current : Current a t.handle.file t.node t.current
  snap : a.snapshots.get t.handle.snapshot = some s
  epoch_current : t.current.ref.contentEpoch = s.ref.contentEpoch

/-- What is live when it is checked was live when the transaction began. -/
theorem writeOperation_ok {user : User} {session : Session} {reference : OperationRef}
    {t : WriteTarget} {w' : World}
    (h : (writeOperation app user session reference) w = .ok (t, w')) :
    w.Later w' ∧ t.op.id = reference.operationId ∧ ∃ s, Committable w.access t s := by
  unfold writeOperation at h
  simp only [↓run_access, ↓run_needSome, ↓run_need, run_query, setAccess_access,
    setAccess_setAccess, Access.later_later, Nat.reduceAdd] at h
  obtain ⟨op, hop, ⟨hk, -⟩, -, epoch, -, ⟨hst, -⟩, x, hx, ⟨hbusy, hrev⟩, h⟩ := h
  obtain ⟨_, v, hloop, h⟩ := Tx.bind_ok.mp h
  simp only [Tx.pure_ok, Prod.mk.injEq] at h
  obtain ⟨rfl, rfl⟩ := h
  obtain ⟨hget, -, hopen, hlive, hsnap, hcur, hep⟩ := writable_ok hx
  have hid : op.id = reference.operationId := upload_id_of_get hop
  have hturn : ∀ fence ∈ op.fences, ∀ u u' : World,
      (do let _ ← (liftM (validate session fence) : T Lock); pure () : T Unit) u = .ok ((), u') →
      u.Later u' := by
    intro fence _ u u' hu
    simp only [run_query, Tx.pure_ok, Prod.mk.injEq, true_and] at hu
    obtain ⟨_, -, rfl⟩ := hu
    exact ⟨1, rfl⟩
  have hstart : w.Later (w.setAccess (w.access.later 8)) := ⟨8, rfl⟩
  refine ⟨hstart.trans (Tx.each_rel World.Later.refl World.Later.trans hturn hloop), hid, x.snap, ?_⟩
  exact
    { stored := hid ▸ hop
      kind := hk
      state := hst
      handle := hget
      isOpen := hopen
      live := Access.live_of_later (k := 6) hlive
      busy := hbusy
      revision := hrev
      fences := fun f hf => by
        obtain ⟨u, u', hu, hv, -⟩ := Tx.each_mem World.Later.refl World.Later.trans hturn hloop f hf
        obtain ⟨k, rfl⟩ := hstart.trans hu
        simp only [run_query] at hv
        obtain ⟨l, hl, -⟩ := hv
        obtain ⟨hlget, -, hllive, -⟩ := validate_ok hl
        exact ⟨l, hlget, Access.live_of_later (k := k) hllive⟩
      current := hcur
      snap := hsnap
      epoch_current := hep }

/-- A new block counts, and it is the record that counts. -/
theorem requireStored_ok {op : Operation} {b : BlockRef} {r : Block}
    (h : (requireStored app op b) w = .ok r) :
    w.access.blocks.get b.blockVersionId = some r ∧ r.ref = b ∧
      (app.replicated = true → (requireDurable app op b) w = .ok ()) := by
  simp only [requireStored, Query.bind_ok, world, Query.read_ok, deref_ok, needSome_ok] at h
  obtain ⟨v, rfl, assignment, -, record, hrec, h⟩ := h
  obtain ⟨hget, href⟩ := Option.filter_eq_some_iff.mp hrec
  split at h
  · simp only [Query.bind_ok, Query.pure_ok] at h
    obtain ⟨⟨⟩, hd, rfl⟩ := h
    exact ⟨hget, of_decide_eq_true href, fun _ => hd⟩
  · rename_i hr
    simp only [Query.bind_ok, Query.pure_ok] at h
    obtain ⟨_, -, _, -, rfl⟩ := h
    exact ⟨hget, of_decide_eq_true href, fun hrep => absurd hrep hr⟩

/-- What one turn of `CommitWrite`, between two moments, has checked of a part and its change. -/
structure Replaced (app : App) (w w' : World) (op : Operation) (x : Part × BlockChange) :
    Prop where
  id_eq : x.2.replacement.blockVersionId = x.1.replacement.blockVersionId
  file_eq : x.2.replacement.fileId = x.1.replacement.fileId
  index_eq : x.2.replacement.blockIndex = x.1.base.blockIndex
  size_eq : x.2.replacement.sizeBytes = x.1.replacement.sizeBytes
  recorded : ∃ r, w.access.blocks.get x.2.replacement.blockVersionId = some r ∧
    r.ref = x.2.replacement
  durable : app.replicated = true → ∃ u, w.Later u ∧ u.Later w' ∧
    (requireDurable app op x.2.replacement) u = .ok ()

theorem commitPart_ok {op : Operation} {file : Id} {blocks blocks' : List BlockRef}
    {x : Part × BlockChange} {w' : World}
    (h : (commitPart app op file blocks x) w = .ok (blocks', w')) :
    w.Later w' ∧ baseOf blocks file x.1.base.blockIndex = x.1.base ∧
      setBlock blocks x.1.base.blockIndex x.2.replacement = some blocks' ∧
        Replaced app w w' op x := by
  unfold commitPart at h
  simp only [↓run_need, run_query, last_query, deref_ok, setAccess_access, setAccess_setAccess,
    Access.later_later, Nat.reduceAdd] at h
  obtain ⟨⟨hbase, -⟩, ⟨h1, h2, h3, h4⟩, r, hr, -, hset, rfl⟩ := h
  obtain ⟨hget, href, hd⟩ := requireStored_ok hr
  refine ⟨⟨_, rfl⟩, hbase, hset, h1, h2, h3, h4, ⟨r, hget, href⟩, fun hrep => ?_⟩
  exact ⟨_, ⟨2, rfl⟩, World.later_mono (by omega), hd hrep⟩

/-- A turn inside a longer span of time. -/
theorem Replaced.within {op : Operation} {x : Part × BlockChange} {v v' w' : World}
    (hv : w.Later v) (hv' : v'.Later w') (h : Replaced app v v' op x) : Replaced app w w' op x := by
  obtain ⟨k, rfl⟩ := hv
  refine ⟨h.id_eq, h.file_eq, h.index_eq, h.size_eq, h.recorded, fun hrep => ?_⟩
  obtain ⟨u, hu, hu', hd⟩ := h.durable hrep
  exact ⟨u, World.Later.trans ⟨k, rfl⟩ hu, hu'.trans hv', hd⟩

/-- **The loop of `CommitWrite` is the merge.** -/
theorem commitParts_ok {op : Operation} {file : Id} {xs : List (Part × BlockChange)} :
    ∀ {w w' : World} {blocks blocks' : List BlockRef},
      (Tx.fold xs (commitPart app op file) blocks) w = .ok (blocks', w') →
      w.Later w' ∧ mergeParts file (xs.map fun x => (x.1, x.2.replacement)) blocks = some blocks' ∧
        ∀ x ∈ xs, Replaced app w w' op x := by
  induction xs with
  | nil =>
      intro w w' blocks blocks' h
      simp only [Tx.fold, Tx.pure_ok, Prod.mk.injEq] at h
      obtain ⟨rfl, rfl⟩ := h
      exact ⟨.refl _, rfl, fun x hx => absurd hx List.not_mem_nil⟩
  | cons x xs ih =>
      intro w w' blocks blocks' h
      rw [Tx.fold] at h
      obtain ⟨bs, v, h1, h2⟩ := Tx.bind_ok.mp h
      obtain ⟨hv, hbase, hset, hx⟩ := commitPart_ok h1
      obtain ⟨hw', hmerge, hxs⟩ := ih h2
      refine ⟨hv.trans hw', ?_, fun y hy => ?_⟩
      · rw [List.map_cons, mergeParts, if_pos hbase, hset]
        exact hmerge
      · rcases List.mem_cons.mp hy with rfl | hy
        · exact hx.within (.refl w) hw'
        · exact (hxs y hy).within hv (.refl w')

/-- The records after a write was committed. -/
def Access.written (a : Access) (k : Nat) (op : Operation) (h : Handle) (n : Node) (s : Snapshot)
    (result : CommitResult) : Access :=
  { a with
    phase := a.phase + k, issued := a.issued + 1, snapshots := a.snapshots.put s,
    nodes := a.nodes.put { n with snapshot := some s.id, revision := n.revision + 1 },
    handles := a.handles.put { h with snapshot := s.id, revision := h.revision + 1 },
    uploads := a.uploads.put { op with state := .committed, result := some result, reserved := 0 } }

theorem Access.written_finished (a : Access) (k : Nat) (op : Operation) (h : Handle) (n : Node)
    (s : Snapshot) (r : CommitResult) : Finished (a.written k op h n s r) op s r :=
  ⟨Table.get_put_self a.uploads { op with state := .committed, result := some r, reserved := 0 },
    Table.get_put_self a.snapshots s⟩

/-- What was true when a write was committed, and the snapshot it published. -/
structure Written (app : App) (a : Access) (op : Operation) (h : Handle) (n : Node)
    (c s : Snapshot) (replacements : List BlockRef) : Prop where
  ok : ∃ b, CommitWriteOk a op h n b c replacements s.blocks
  busy : h.revision = op.handleRevision
  id_eq : s.id = app.uuid a.issued
  file_eq : s.file = h.file
  ref_eq : s.ref = writtenRef app op c s.id h.file s.blocks

theorem Written.publishes {a : Access} {op : Operation} {h : Handle} {n : Node} {c s : Snapshot}
    {replacements : List BlockRef} (hw : Written app a op h n c s replacements) (k : Nat)
    (result : CommitResult) :
    Publishes app (fun trust => trust.commits op) a (a.written k op h n s result) := by
  obtain ⟨b, hok⟩ := hw.ok
  have hs : s = ⟨app.uuid a.issued, h.file,
      writtenRef app op c (app.uuid a.issued) h.file s.blocks, s.blocks⟩ := by
    obtain ⟨id, file, ref, blocks⟩ := s
    have h1 := hw.id_eq
    have h2 := hw.file_eq
    have h3 := hw.ref_eq
    simp only at h1 h2 h3
    subst h1 h2
    rw [h3]
  have hnode : SameNode
      { n with snapshot := some (app.uuid a.issued), revision := n.revision + 1 } n :=
    ⟨rfl, rfl, rfl, rfl⟩
  have hact := fun (trust : Trust) (hp : trust.commits op) =>
    Act.commitWrite (some result) hok hnode hok.current.2.1 rfl hp
  rw [← hs] at hact
  have hfinal : Publishes app (fun trust => trust.commits op) a _ :=
    ⟨_, _, fun _ => .refl, hact, fun _ => acts_later _ k, rfl⟩
  rw [← hw.id_eq] at hfinal
  exact hfinal

theorem accessCommitWrite_ok {user : User} {session : Session} {req : CommitWriteRequest}
    {res : CommitResult} {w' : World}
    (h : (accessCommitWrite app user session req) w = .ok (res, w')) :
    ∃ op handle n c s,
      Publishes app (fun trust => trust.commits op) w.access w'.access ∧
      op.id = req.operation.operationId ∧
      Written app w.access op handle n c s (req.changes.map BlockChange.replacement) ∧
      res.snapshot = s.ref ∧ Finished w'.access op s res ∧
      req.changes.length = op.parts.length ∧ ∃ v, w.Later v ∧
        v.access.phase ≤ w'.access.phase ∧
        ∀ x ∈ op.parts.zip req.changes, Replaced app w v op x := by
  unfold accessCommitWrite at h
  obtain ⟨t, v, ht, h⟩ := Tx.bind_ok.mp h
  obtain ⟨⟨j, rfl⟩, hid, b, hc⟩ := writeOperation_ok ht
  simp only [↓run_need, setAccess_access, setAccess_setAccess, Access.later_later] at h
  obtain ⟨-, -, hlen, h⟩ := h
  obtain ⟨blocks, v, hfold, h⟩ := Tx.bind_ok.mp h
  obtain ⟨⟨j', rfl⟩, hmerge, hreplaced⟩ := commitParts_ok hfold
  simp only [↓run_need, run_draw, putSnapshot, putHandle, putUpload, run_onAccess, run_bump,
    setAccess_access, setAccess_setAccess, Access.later_later, Access.later_shift] at h
  obtain ⟨hgrow, -, h⟩ := h
  obtain ⟨_, v, hrel, h⟩ := Tx.bind_ok.mp h
  simp only [Tx.pure_ok, Prod.mk.injEq] at h
  obtain ⟨hres, rfl⟩ := h
  rw [← hres] at hrel
  have hfile : t.node.id = t.handle.file := node_id_of_get hc.current.1
  have hwritten : Written app w.access t.op t.handle t.node t.current
      ⟨app.uuid w.access.issued, t.node.id,
        writtenRef app t.op t.current (app.uuid w.access.issued) t.node.id blocks, blocks⟩ (req.changes.map BlockChange.replacement) := by
    refine ⟨⟨b, ?_⟩, hc.revision, rfl, hfile, by rw [hfile]⟩
    have hzip : t.op.parts.zip (req.changes.map BlockChange.replacement) =
        (t.op.parts.zip req.changes).map fun x => (x.1, x.2.replacement) := by
      rw [List.zip_map_right]
      rfl
    exact
      { stored := hc.stored
        kind := hc.kind
        state := hc.state
        handle := hc.handle
        isOpen := hc.isOpen
        live := hc.live
        busy := hc.busy
        fences := hc.fences
        current := hc.current
        snap := hc.snap
        epoch_current := hc.epoch_current
        length_eq := by rw [List.length_map, hlen]
        replaces := fun x hx => by
          rw [hzip] at hx
          obtain ⟨y, hy, rfl⟩ := List.mem_map.mp hx
          have hr := hreplaced y hy
          exact ⟨hr.id_eq, hr.file_eq, hr.index_eq, hr.size_eq, hr.recorded⟩
        merged := by
          rw [hzip, ← hfile]
          exact hmerge
        growing := hgrow }
  have hreplaced' : ∀ x ∈ t.op.parts.zip req.changes,
      Replaced app w (w.setAccess (w.access.later (j + 1 + 1 + 1 + j'))) t.op x := fun x hx =>
    (hreplaced x hx).within ⟨j + 1 + 1 + 1, rfl⟩ ⟨0, by simp⟩
  have hrel' : (releaseOperation
      { t.op with state := .committed, result := some res, reserved := 0 })
      (w.setAccess (w.access.written (j + 1 + 1 + 1 + j' + 1 + 1 + 2) t.op t.handle t.node
        ⟨app.uuid w.access.issued, t.node.id,
          writtenRef app t.op t.current (app.uuid w.access.issued) t.node.id blocks, blocks⟩ res)) = .ok ((), w') := hrel
  have hreleased := fun trust => releaseOperation_acts app trust
    (Access.written_finished _ _ _ _ _ _ _).op (by simp) hrel'
  obtain ⟨-, k', l, hd, he⟩ := hreleased Trust.all
  refine ⟨t.op, t.handle, t.node, t.current, _,
    (hwritten.publishes _ _).after (fun trust => (hreleased trust).1) (by rw [he]; rfl), hid,
    hwritten, by rw [hres]; rfl, ?_, hlen, _, ⟨_, rfl⟩, ?_, hreplaced'⟩
  · rw [he]
    exact (Access.written_finished _ _ _ _ _ _ _).release _ _ _
  · rw [he]
    simp only [setAccess_access, Access.release, Access.written, Access.later]
    omega

theorem protectionCommitWrite_publishes {user : User} {session : Session} {req : CommitWriteRequest}
    {r : CommitResult × World} (h : (protectionCommitWrite app user session req) w = .ok r) :
    ∃ op, op.id = req.operation.operationId ∧ op.kind = .write ∧
      w.access.uploads.get op.id = some op ∧
      (validatePolicy (some op)) (w.setAccess (w.access.later 1)) = .ok () ∧
      Publishes app (fun trust => trust.commits op) w.access r.2.access := by
  unfold protectionCommitWrite at h
  simp only [↓run_access, run_query, setAccess_access, setAccess_setAccess, Access.later_later,
    Nat.reduceAdd] at h
  obtain ⟨_, hvalid, h⟩ := h
  obtain ⟨res, s, hres, h⟩ := Tx.bind_ok.mp h
  obtain ⟨op, handle, n, c, t, hpub, hid, hwritten, -, hfin, -⟩ := accessCommitWrite_ok hres
  obtain ⟨b, hok⟩ := hwritten.ok
  have hget : w.access.uploads.get op.id = some op := hok.stored
  rw [← hid, hget] at hvalid
  exact ⟨op, hid, hok.kind, hget, hvalid, .before (fun _ => acts_later _ 2)
    (hpub.after (fun trust => (completed_acts trust hfin hid h).1)
      (completed_acts Trust.all hfin hid h).2)⟩

theorem protectionCommitWrite_refines (hp : ∀ op, trust.commits op) (user : User)
    (session : Session) (req : CommitWriteRequest) :
    Refines app trust (protectionCommitWrite app user session req) := by
  intro w r hs h
  obtain ⟨op, -, -, -, -, hpub⟩ := protectionCommitWrite_publishes h
  exact hpub.acts (hp op)

theorem commitWrite_refines (hp : ∀ op, trust.commits op) (user : User) (session : Session)
    (req : CommitWriteRequest) :
    Refines app trust (commitWrite app user session req) := by
  intro w r hs h
  unfold commitWrite at h
  split at h
  · exact protectionCommitWrite_refines hp user session req w r hs h
  · obtain ⟨op, handle, n, c, s, hpub, -⟩ := accessCommitWrite_ok h
    exact hpub.acts (hp _)

/-! ## Giving up -/

theorem abortWrite_refines (user : User) (session : Session) (ctx : RequestContext)
    (reference : OperationRef) : Refines app trust (abortWrite user session ctx reference) := by
  intro w r hs h
  unfold abortWrite at h
  simp only [↓run_access, ↓run_need, ↓run_needSome, putUpload, run_onAccess, setAccess_access,
    setAccess_setAccess, Access.later_later, Nat.reduceAdd] at h
  obtain ⟨op, hop, -, -, hst, h⟩ := h
  obtain ⟨_, s, hrel, h⟩ := Tx.bind_ok.mp h
  rw [Tx.pure_ok] at h
  subst h
  have hid : op.id = reference.operationId := upload_id_of_get hop
  have hend : Act app trust (w.access.later 5) _ :=
    .endOp (hid ▸ hop) hst (.inl rfl)
  refine ((acts_later _ 5).tail hend).trans
    (releaseOperation_acts app trust (o := op.ended .aborted) ?_ ?_ hrel).1
  · exact Table.get_put_self _ (op.ended .aborted)
  · simp [Operation.ended]

/-- The operations of a file end one by one, and let go of what they hold. -/
theorem abortOperations_refines (file : Id) : Refines app trust (abortOperations file) := by
  intro w r hs h
  unfold abortOperations at h
  simp only [↓run_access] at h
  refine (acts_later _ 1).trans ?_
  refine (Tx.each_rows (fun v : World => v.access.uploads) (P := fun _ _ => True)
    (I := fun v => Acts app trust (w.access.later 1) v.access)
    (s := w.setAccess (w.access.later 1)) w.access.uploads.sorted ?_ .refl
    (fun x hx => Table.get_of_mem hx) h).1
  intro op hop v v' hacts hget hturn
  split at hturn
  · rename_i hc
    simp only [putUpload, run_onAccess] at hturn
    obtain ⟨hrel, k, l, hd, he⟩ := releaseOperation_acts app trust
      (o := op.ended .aborted) (Table.get_put_self v.access.uploads (op.ended .aborted))
      (by simp [Operation.ended]) hturn
    refine ⟨(hacts.tail (act_end hget hc.2 (.inl rfl))).trans hrel, trivial, fun j hj => ?_⟩
    rw [show v'.access = _ from he]
    exact Table.get_put_of_ne _ hj
  · rw [Tx.pure_ok] at hturn
    cases hturn
    exact ⟨hacts, trivial, fun _ _ => rfl⟩

theorem promoteProtection_refines (user : User) (ctx : RequestContext) (path : PathRef)
    (revision : Nat) : Refines app trust (promoteProtection app user ctx path revision) := by
  intro w r hs h
  unfold promoteProtection at h
  simp only [↓run_need, ↓run_cluster, run_query, setAccess_access, setAccess_setAccess,
    Access.later_later, Nat.reduceAdd] at h
  obtain ⟨-, node, -, -, -, h⟩ := h
  split at h
  · rw [Tx.pure_ok] at h
    subst h
    exact acts_later _ 5
  · simp only [↓run_now, setAccess_access, setAccess_setAccess, Access.later_later,
      Nat.reduceAdd] at h
    obtain ⟨_, s, k, n, -, hacc, h⟩ := run_quiet h
    obtain ⟨_, s', habort, h⟩ := Tx.bind_ok.mp h
    rw [Tx.pure_ok] at h
    subst h
    have hacts : Acts app trust w.access s.access := by
      rw [hacc]
      exact (acts_later _ 6).trans (acts_shift _ k n)
    exact hacts.trans (abortOperations_refines _ _ _ (hs.acts hacts) habort)

end Dfsha
