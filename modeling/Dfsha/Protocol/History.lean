import Dfsha.Protocol.Preserve

/-!
# Histories

What a record can become.  An operation keeps everything that says what it is for; its state
moves from preparation to one of three ends and stays there.  A snapshot is never changed and
never comes back, a lease that is over is not renewed, a block that was confirmed for an
operation in preparation stays.  Each is proved of one action; sequences and runs follow.

## Main results

* `Acts.uploads` — how operations evolve.
* `Acts.snapshot` — a snapshot is the record that was published.
* `Acts.dead_lock`, `Acts.dead_handle` — what is not live stays so.
* `Act.lost` — a write that lost a lease never commits.
* `Acts.withheld` — what publishes nothing of a file leaves its snapshots.
-/

namespace Dfsha

variable {app : App} {trust : Trust} {a b : Access}

/-! ## Operations -/

/-- What an operation can become. -/
structure Evolves (o p : Operation) : Prop where
  same : p = { o with
    state := p.state, expires := p.expires, reserved := p.reserved, allocations := p.allocations,
    pages := p.pages, sealed := p.sealed, result := p.result, policy := p.policy }
  allocations : o.allocations <+: p.allocations
  policy : ∀ q ∈ o.policy, p.policy = some q
  committed : o.state = .committed → p.state = .committed ∧
    p.result.map CommitResult.snapshot = o.result.map CommitResult.snapshot
  ended : o.state = .aborted ∨ o.state = .expired → p.state = .aborted ∨ p.state = .expired

namespace Evolves

variable {o p q : Operation}

theorem refl (o : Operation) : Evolves o o where
  same := rfl
  allocations := List.prefix_rfl
  policy _ h := h
  committed h := ⟨h, rfl⟩
  ended h := h

theorem trans (h : Evolves o p) (h' : Evolves p q) : Evolves o q where
  same := by
    rw [h'.same]
    conv_lhs => rw [h.same]
  allocations := h.allocations.trans h'.allocations
  policy x hx := h'.policy x (h.policy x hx)
  committed hc := by
    obtain ⟨h1, h2⟩ := h.committed hc
    obtain ⟨h3, h4⟩ := h'.committed h1
    exact ⟨h3, h4.trans h2⟩
  ended ho := h'.ended (h.ended ho)

/-- An operation in preparation may be committed. -/
theorem commit (h : o.state = .preparing) (result : Option CommitResult) :
    Evolves o { o with state := .committed, result := result, reserved := 0 } where
  same := rfl
  allocations := List.prefix_rfl
  policy _ hq := hq
  committed hc := by
    rw [h] at hc
    cases hc
  ended ho := by
    rw [h] at ho
    rcases ho with ho | ho <;> cases ho

theorem id_eq (h : Evolves o p) : p.id = o.id := by rw [h.same]
theorem kind_eq (h : Evolves o p) : p.kind = o.kind := by rw [h.same]
theorem file_eq (h : Evolves o p) : p.file = o.file := by rw [h.same]
theorem handle_eq (h : Evolves o p) : p.handle = o.handle := by rw [h.same]
theorem base_eq (h : Evolves o p) : p.base = o.base := by rw [h.same]
theorem parent_eq (h : Evolves o p) : p.parent = o.parent := by rw [h.same]
theorem name_eq (h : Evolves o p) : p.name = o.name := by rw [h.same]
theorem fences_eq (h : Evolves o p) : p.fences = o.fences := by rw [h.same]

/-- What is in preparation now was in preparation before. -/
theorem preparing (h : Evolves o p) (hp : p.state = .preparing) : o.state = .preparing := by
  cases hst : o.state with
  | preparing => rfl
  | committed =>
      have := (h.committed hst).1
      rw [hp] at this
      cases this
  | aborted =>
      have := h.ended (.inl hst)
      rw [hp] at this
      rcases this with this | this <;> cases this
  | expired =>
      have := h.ended (.inr hst)
      rw [hp] at this
      rcases this with this | this <;> cases this

end Evolves

/-- **How one action changes the operations.** -/
theorem Act.uploads (h : Act app trust a b) :
    a.uploads.Grows Evolves b.uploads := by
  have hold : ∀ {o p : Operation}, a.uploads.get p.id = some o → Evolves o p →
      a.uploads.Grows Evolves (a.uploads.put p) := fun hg he => .put_old .refl hg he
  have hnew : ∀ {p : Operation}, Fresh app a p.id →
      a.uploads.Grows Evolves (a.uploads.put p) := fun hf =>
    .put_new .refl (get_none_of_unused_upload hf.2)
  cases h with
  | recordOp _ _ hf _ _ _ _ _ => exact hnew hf
  | beginWrite _ hb => exact hnew hb.fresh
  | beginPlain _ _ hp _ => exact hnew hp.fresh
  | beginUpload _ hb => exact hnew hb.fresh
  | touchOp e res hg hres _ =>
      exact hold hg
        { same := rfl, allocations := List.prefix_rfl, policy := fun _ hq => hq,
          committed := fun hc => ⟨hc, hres hc⟩, ended := fun ho => ho }
  | spendOp r hg _ =>
      exact hold hg
        { same := rfl, allocations := List.prefix_rfl, policy := fun _ hq => hq,
          committed := fun hc => ⟨hc, rfl⟩, ended := fun ho => ho }
  | sealOp hg _ =>
      exact hold hg
        { same := rfl, allocations := List.prefix_rfl, policy := fun _ hq => hq,
          committed := fun hc => ⟨hc, rfl⟩, ended := fun ho => ho }
  | capture p hg hp =>
      exact hold hg
        { same := rfl, allocations := List.prefix_rfl
          policy := fun q hq => by
            rw [hp] at hq
            cases hq
          committed := fun hc => ⟨hc, rfl⟩, ended := fun ho => ho }
  | endOp hg hst hend =>
      exact hold hg
        { same := rfl, allocations := List.prefix_rfl, policy := fun _ hq => hq,
          committed := fun hc => absurd hc hst, ended := fun _ => hend }
  | stage hg _ _ =>
      exact hold hg
        { same := rfl, allocations := List.prefix_rfl, policy := fun _ hq => hq,
          committed := fun hc => ⟨hc, rfl⟩, ended := fun ho => ho }
  | allocate hok =>
      exact hold hok.stored
        { same := rfl, allocations := List.prefix_append _ _, policy := fun _ hq => hq,
          committed := fun hc => ⟨hc, rfl⟩, ended := fun ho => ho }
  | commitWrite result hc _ _ _ => exact hold hc.stored (.commit hc.state result)
  | commitUpload result hc _ => exact hold hc.stored (.commit hc.state result)
  | _ => exact .refl .refl _

/-- The expiry of an upload moves only while it is ahead of the time. -/
def Lapses (t : Nat) (o p : Operation) : Prop :=
  o.kind = .upload → p.expires = o.expires ∨ t < o.expires

/-- **An upload that has expired is not revived.** -/
theorem Act.lapses (h : Act app trust a b) : a.uploads.Grows (Lapses a.now) b.uploads := by
  have hrefl : ∀ o : Operation, Lapses a.now o o := fun _ _ => .inl rfl
  have hold : ∀ {o p : Operation}, a.uploads.get p.id = some o → p.expires = o.expires →
      a.uploads.Grows (Lapses a.now) (a.uploads.put p) := fun hg he =>
    .put_old hrefl hg fun _ => .inl he
  have hnew : ∀ {p : Operation}, Fresh app a p.id →
      a.uploads.Grows (Lapses a.now) (a.uploads.put p) := fun hf =>
    .put_new hrefl (get_none_of_unused_upload hf.2)
  cases h with
  | recordOp _ _ hf _ _ _ _ _ => exact hnew hf
  | beginWrite _ hb => exact hnew hb.fresh
  | beginPlain _ _ hp _ => exact hnew hp.fresh
  | beginUpload _ hb => exact hnew hb.fresh
  | touchOp _ _ hg _ hlive => exact .put_old hrefl hg hlive
  | spendOp _ hg _ => exact hold hg rfl
  | sealOp hg _ => exact hold hg rfl
  | capture _ hg _ => exact hold hg rfl
  | endOp hg _ _ => exact hold hg rfl
  | stage hg _ _ => exact hold hg rfl
  | allocate hok => exact hold hok.stored rfl
  | commitWrite _ hc _ _ _ => exact hold hc.stored rfl
  | commitUpload _ hc _ => exact hold hc.stored rfl
  | _ => exact .refl hrefl _

/-- An operation that does not begin does not appear. -/
theorem Act.unbegun (h : Act app trust a b) {k : Id} (hk : ¬ trust.begins k)
    (ha : a.uploads.get k = none) : b.uploads.get k = none := by
  have hput : ∀ {p : Operation}, k ≠ p.id → (a.uploads.put p).get k = none := fun hne =>
    (Table.get_put_of_ne _ hne).trans ha
  have hnew : ∀ {p : Operation}, trust.begins p.id → (a.uploads.put p).get k = none := fun hb =>
    hput fun he => hk (he ▸ hb)
  have hold : ∀ {o p : Operation}, a.uploads.get p.id = some o →
      (a.uploads.put p).get k = none := fun hg =>
    hput fun he => by
      rw [← he, ha] at hg
      cases hg
  cases h with
  | recordOp _ hb _ _ _ _ _ _ => exact hnew hb
  | beginWrite hb _ => exact hnew hb
  | beginPlain _ hb _ _ => exact hnew hb
  | beginUpload hb _ => exact hnew hb
  | touchOp _ _ hg _ _ => exact hold hg
  | spendOp _ hg _ => exact hold hg
  | sealOp hg _ => exact hold hg
  | capture _ hg _ => exact hold hg
  | endOp hg _ _ => exact hold hg
  | stage hg _ _ => exact hold hg
  | allocate hok => exact hold hok.stored
  | commitWrite _ hc _ _ _ => exact hold hc.stored
  | commitUpload _ hc _ => exact hold hc.stored
  | _ => exact ha

/-! ## Records that only grow -/

/-- No node is lost, and a node keeps its kind and its block size. -/
theorem Act.nodes (hs : Sound app a) (h : Act app trust a b) :
    a.nodes.Grows (fun n m => m.kind = n.kind ∧ m.blockSize = n.blockSize) b.nodes := by
  have hrefl : ∀ n : Node, n.kind = n.kind ∧ n.blockSize = n.blockSize := fun _ => ⟨rfl, rfl⟩
  have hold : ∀ {n m : Node}, a.nodes.get n.id = some m → SameNode n m →
      a.nodes.Grows (fun n m => m.kind = n.kind ∧ m.blockSize = n.blockSize) (a.nodes.put n) :=
    fun hg same => .put_old hrefl hg ⟨same.2.1, same.2.2.2⟩
  have hnew : ∀ {n : Node}, a.nodes.get n.id = none →
      a.nodes.Grows (fun n m => m.kind = n.kind ∧ m.blockSize = n.blockSize) (a.nodes.put n) :=
    fun hg => .put_new hrefl hg
  cases h with
  | touchNode hg same _ _ => exact hold hg same
  | newDirectory hf _ _ => exact hnew (get_none_of_unused_node hf.2)
  | removeNode hg same _ _ _ => exact hold hg same
  | commitWrite result hc same _ _ =>
      have hid := node_id_of_get hc.current.1
      exact hold (by rw [same.1, hid]; exact hc.current.1) same
  | @commitUpload op n s result hc _ =>
      cases hb : op.base with
      | none =>
          refine hnew ?_
          rw [hc.node_id]
          exact (hs.uploadNew op (Table.mem_of_get hc.stored) ⟨hc.kind, hc.state⟩ hb).1
      | some k =>
          obtain ⟨m, hm, -, -, same⟩ := hc.replaces k hb
          exact hold (hc.node_id ▸ hm) same
  | createFile hf _ _ _ => exact hnew (get_none_of_unused_node hf.2)
  | truncate hc same _ _ _ _ => exact hold hc.1 same
  | _ => exact .refl hrefl _

/-- A retired block stays retired. -/
theorem Act.retired (h : Act app trust a b) {k : Id} (hk : (a.retired.get k).isSome = true) :
    (b.retired.get k).isSome = true := by
  cases h with
  | retireBlock _ _ _ ht =>
      rcases ht with rfl | ⟨r, -, rfl⟩
      · exact hk
      · exact Table.isSome_get_put hk
  | _ => exact hk

/-- Identifiers are drawn, never given back. -/
theorem Act.issued_le (h : Act app trust a b) : a.issued ≤ b.issued := by
  cases h <;> simp [Access.later]

theorem Issued.act {id : Id} (hi : Issued app a id) (h : Act app trust a b) : Issued app b id := by
  obtain ⟨n, hn, rfl⟩ := hi
  exact ⟨n, lt_of_lt_of_le hn h.issued_le, rfl⟩

/-! ## Snapshots -/

/-- A snapshot that is there now was there before, as it is, unless its identifier is new. -/
theorem Act.snapshot (h : Act app trust a b) {k : Id} {s : Snapshot} (hk : Issued app a k)
    (hs : b.snapshots.get k = some s) : a.snapshots.get k = some s := by
  have hnew : ∀ {t : Snapshot}, t.id = app.uuid a.issued →
      (a.snapshots.put t).get k = some s → a.snapshots.get k = some s := by
    intro t ht hget
    rw [Table.get_put_of_ne] at hget
    · exact hget
    · intro he
      have hk' : k = t.id := he
      exact not_issued_next (ht ▸ hk' ▸ hk)
  cases h with
  | commitWrite result _ _ _ _ => exact hnew rfl hs
  | commitUpload result _ hu => exact hnew hu.id_eq hs
  | createFile _ he _ _ => exact hnew he.id_eq hs
  | truncate _ _ _ he _ _ => exact hnew he.id_eq hs
  | dropSnapshot _ _ => exact Table.get_of_get_delete hs
  | _ => exact hs

/-! ## Leases -/

/-- No lock under this key is live. -/
def DeadLock (a : Access) (k : Id) : Prop := ∀ l, a.locks.get k = some l → ¬ a.liveLock l

/-- No open handle under this key is live. -/
def DeadHandle (a : Access) (k : Id) : Prop :=
  ∀ h, a.handles.get k = some h → h.closed = false → ¬ a.liveHandle h

instance (a : Access) (k : Id) : Decidable (DeadLock a k) :=
  decidable_of_iff ((a.locks.get k).all (fun l => !decide (a.liveLock l)) = true)
    (by cases h : a.locks.get k <;> simp [DeadLock, h])

instance (a : Access) (k : Id) : Decidable (DeadHandle a k) :=
  decidable_of_iff ((a.handles.get k).all (fun h => h.closed || !decide (a.liveHandle h)) = true)
    (by cases h : a.handles.get k <;> simp [DeadHandle, h, or_iff_not_imp_left])

/-- **A lock that is over stays over**: it is not renewed, and its key is not used again. -/
theorem Act.dead_lock (h : Act app trust a b) {k : Id} (hk : Issued app a k)
    (hd : DeadLock a k) : DeadLock b k := by
  -- A lock under another key, or the same lock with another record of what it is used for.
  have hput : ∀ {m : Lock}, (k = m.id → ¬ a.liveLock m) → ∀ l, (a.locks.put m).get k = some l →
      ¬ a.liveLock l := by
    intro m hm l hl
    rw [Table.get_put] at hl
    split at hl
    · cases hl
      exact hm ‹_›
    · exact hd l hl
  have hnext : ∀ {m : Lock}, m.id = app.uuid a.issued → k ≠ m.id := fun hm he =>
    not_issued_next (hm ▸ he ▸ hk)
  cases h with
  | advance j => exact fun l hl hlive => hd l hl (Access.live_of_later hlive)
  | acquire hl => exact hput fun he => absurd he (hnext hl.id_eq)
  | renewLock d hg hlive => exact hput fun he => absurd hlive (hd _ (he ▸ hg))
  | setActive x hg => exact hput fun he hlive => hd _ ((congrArg _ he).trans hg) hlive
  | dropLock j => exact fun l hl => hd l (Table.get_of_get_delete hl)
  | beginUpload _ hb => exact hput fun he => absurd he (hnext hb.acquire.id_eq)
  | crash clk _ => exact fun l _ hlive => absurd hlive.2.1 (by simp)
  | newEpoch he =>
      intro l hl hlive
      have hmem := Mentions.not_lock he.2 (Table.mem_of_get hl)
      exact hmem (by simp [Lock.ids, Option.some.inj hlive.2.1])
  | _ => exact hd

/-- **A handle that is over stays over.** -/
theorem Act.dead_handle (h : Act app trust a b) {k : Id} (hk : (a.handles.get k).isSome = true)
    (hd : DeadHandle a k) : DeadHandle b k ∧ (b.handles.get k).isSome = true := by
  have hput : ∀ {g : Handle}, (k = g.id → g.closed = false → ¬ a.liveHandle g) →
      ∀ x, (a.handles.put g).get k = some x → x.closed = false → ¬ a.liveHandle x := by
    intro g hg x hx
    rw [Table.get_put] at hx
    split at hx
    · cases hx
      exact hg ‹_›
    · exact hd x hx
  have hkept : ∀ {g : Handle}, ((a.handles.put g).get k).isSome = true :=
    Table.isSome_get_put hk
  -- A handle that is written back with the same lease.
  have hsame : ∀ {x g : Handle}, a.handles.get g.id = some x → g.closed = x.closed →
      g.controlEpoch = x.controlEpoch → g.deadline = x.deadline → k = g.id → g.closed = false →
      ¬ a.liveHandle g := by
    intro x g hg hc he hdl hk hgc hlive
    refine hd x (hk ▸ hg) (hc ▸ hgc) ?_
    rwa [Access.liveHandle, he, hdl] at hlive
  cases h with
  | advance j => exact ⟨fun x hx hc hlive => hd x hx hc (Access.live_of_later hlive), hk⟩
  | openHandle hf _ _ _ _ _ =>
      refine ⟨hput fun he => ?_, hkept⟩
      rw [he, get_none_of_unused_handle hf.2] at hk
      cases hk
  | renewHandle d e hg hc hlive => exact ⟨hput fun he => absurd hlive (hd _ (he ▸ hg) hc), hkept⟩
  | renewPlain e r hr hg => exact ⟨hput (hsame hg rfl rfl rfl), hkept⟩
  | closeHandle r hg => exact ⟨hput fun _ hc => absurd hc (by simp), hkept⟩
  | beginRead _ hg _ _ => exact ⟨hput (hsame hg rfl rfl rfl), hkept⟩
  | endRead _ hg _ => exact ⟨hput (hsame hg rfl rfl rfl), hkept⟩
  | freeHandle hg _ _ _ => exact ⟨hput (hsame hg rfl rfl rfl), hkept⟩
  | beginWrite _ hb => exact ⟨hput (hsame hb.handle rfl rfl rfl), hkept⟩
  | commitWrite result hc _ _ _ =>
      have hget := hc.handle
      rw [← handle_id_of_get hget] at hget
      exact ⟨hput (hsame hget rfl rfl rfl), hkept⟩
  | crash clk _ =>
      refine ⟨fun x _ _ hlive => ?_, hk⟩
      have hepoch : x.controlEpoch = none := hlive.2.1
      have hsome : x.controlEpoch.isSome = true := hlive.1
      rw [hepoch] at hsome
      cases hsome
  | newEpoch he =>
      refine ⟨fun x hx _ hlive => ?_, hk⟩
      have hmem := Mentions.not_handle he.2 (Table.mem_of_get hx)
      have hepoch : x.controlEpoch = some _ := hlive.2.1
      exact hmem (by simp [Handle.ids, hepoch])
  | _ => exact ⟨hd, hk⟩

/-! ## Blocks -/

/-- Some operation allocated a block of this version. -/
def Allotted (a : Access) (k : Id) : Prop :=
  ∃ op ∈ a.uploads.all, ∃ x ∈ op.allocations, x.2.blockVersionId = k

/-- An allocation is never taken back. -/
theorem Act.allotted (h : Act app trust a b) {k : Id} (hk : Allotted a k) : Allotted b k := by
  obtain ⟨op, hop, x, hx, rfl⟩ := hk
  obtain ⟨p, hp, he⟩ := h.uploads op.id op (Table.get_of_mem hop)
  exact ⟨p, Table.mem_of_get hp, x, he.allocations.subset hx, rfl⟩

/-- What an operation in preparation has allocated it had before, or it is new. -/
theorem Act.allocations (h : Act app trust a b) {p : Operation} (hp : p ∈ b.uploads.all)
    (hst : p.state = .preparing) {x : Nat × BlockRef} (hx : x ∈ p.allocations) :
    (∃ o ∈ a.uploads.all, o.id = p.id ∧ o.state = .preparing ∧ x ∈ o.allocations) ∨
      Fresh app a x.2.blockVersionId := by
  have hput : ∀ {q : Operation}, p ∈ (a.uploads.put q).all →
      (p = q → (∃ o ∈ a.uploads.all, o.id = p.id ∧ o.state = .preparing ∧ x ∈ o.allocations) ∨
        Fresh app a x.2.blockVersionId) →
      (∃ o ∈ a.uploads.all, o.id = p.id ∧ o.state = .preparing ∧ x ∈ o.allocations) ∨
        Fresh app a x.2.blockVersionId := by
    intro q hq hself
    rcases Table.mem_put.mp hq with he | ⟨hmem, -⟩
    · exact hself he
    · exact .inl ⟨p, hmem, rfl, hst, hx⟩
  have hold : ∀ {o q : Operation}, p ∈ (a.uploads.put q).all → a.uploads.get q.id = some o →
      o.state = q.state → o.allocations = q.allocations →
      (∃ o ∈ a.uploads.all, o.id = p.id ∧ o.state = .preparing ∧ x ∈ o.allocations) ∨
        Fresh app a x.2.blockVersionId := by
    intro o q hq hg hs ha
    refine hput hq fun he => ?_
    subst he
    exact .inl ⟨o, Table.mem_of_get hg, upload_id_of_get hg, hs.trans hst, ha ▸ hx⟩
  cases h with
  | recordOp _ _ _ hne _ _ _ _ => exact hput hp fun he => absurd (he ▸ hst) hne
  | beginWrite _ hb =>
      refine hput hp fun he => ?_
      rw [he, hb.allocations, List.mem_map] at hx
      obtain ⟨q, hq, rfl⟩ := hx
      exact .inr (hb.parts q hq).fresh
  | beginPlain _ _ hplan _ =>
      refine hput hp fun he => ?_
      rw [he, hplan.allocations] at hx
      cases hx
  | beginUpload _ hb =>
      refine hput hp fun he => ?_
      rw [he, hb.allocations] at hx
      cases hx
  | touchOp e res hg _ _ => exact hold hp hg rfl rfl
  | spendOp r hg _ => exact hold hp hg rfl rfl
  | sealOp hg _ => exact hold hp hg rfl rfl
  | capture q hg _ => exact hold hp hg rfl rfl
  | stage hg _ _ => exact hold hp hg rfl rfl
  | endOp hg _ hend =>
      refine hput hp fun he => ?_
      rw [he, Operation.ended] at hst
      simp only at hst
      rw [hst] at hend
      rcases hend with h | h <;> cases h
  | @allocate op r hok =>
      refine hput hp fun he => ?_
      rw [he] at hx ⊢
      rcases List.mem_append.mp hx with hx | hx
      · exact .inl ⟨op, Table.mem_of_get hok.stored, rfl, hok.state, hx⟩
      · rw [List.mem_singleton] at hx
        exact .inr (hx ▸ hok.fresh)
  | commitWrite result _ _ _ _ => exact hput hp fun he => absurd (he ▸ hst) (by simp)
  | commitUpload result _ _ => exact hput hp fun he => absurd (he ▸ hst) (by simp)
  | _ => exact .inl ⟨p, hp, rfl, hst, hx⟩

/-- A block that was confirmed: as long as an operation in preparation has allocated it, its
record is there. -/
structure Confirmed (a : Access) (k : Id) : Prop where
  allotted : Allotted a k
  recorded : ∀ op ∈ a.uploads.all, op.state = .preparing → ∀ x ∈ op.allocations,
    x.2.blockVersionId = k → (a.blocks.get k).isSome = true

/-- The record of a block is lost only when nothing in preparation has allocated it. -/
theorem Act.blocks (h : Act app trust a b) {k : Id} (hk : (a.blocks.get k).isSome = true) :
    (b.blocks.get k).isSome = true ∨ b.uploads = a.uploads ∧
      ∀ op ∈ a.uploads.all, op.state = .preparing → ∀ x ∈ op.allocations,
        x.2.blockVersionId ≠ k := by
  cases h with
  | confirmBlock _ => exact .inl (Table.isSome_get_put hk)
  | @retireBlock j t _ hops _ _ =>
      by_cases hj : k = j
      · exact .inr ⟨rfl, hj ▸ hops⟩
      · exact .inl (by rw [Table.get_delete_of_ne _ hj]; exact hk)
  | _ => exact .inl hk

/-- **A confirmed block stays for as long as it may be needed.** -/
theorem Act.confirmed (h : Act app trust a b) {k : Id} (hk : Confirmed a k) : Confirmed b k where
  allotted := h.allotted hk.allotted
  recorded p hp hst x hx hxk := by
    obtain ⟨o, ho, -, host, hxo⟩ : ∃ o ∈ a.uploads.all, o.id = p.id ∧ o.state = .preparing ∧
        x ∈ o.allocations := by
      refine (h.allocations hp hst hx).resolve_right fun hf => ?_
      obtain ⟨o, ho, y, hy, he⟩ := hk.allotted
      refine Mentions.not_upload hf.2 ho ?_
      rw [hxk, ← he]
      exact List.mem_cons_of_mem _ (List.mem_cons_of_mem _ (List.mem_append_right _
        (List.mem_map_of_mem (f := fun x : Nat × BlockRef => x.2.blockVersionId) hy)))
    rcases h.blocks (hk.recorded o ho host x hxo hxk) with hb | ⟨-, hnone⟩
    · exact hb
    · exact absurd hxk (hnone o ho host x hxo)

/-! ## Publication -/

/-- The actions of a sequence that publish nothing of a file. -/
def Trust.withholds (trust : Trust) (f : Id) : Prop :=
  (∀ op, trust.commits op → op.file ≠ f) ∧ ¬ trust.empties f

/-- Nothing is published of a file: its snapshots were there before, and its node keeps the one it
refers to. -/
structure Withheld (f : Id) (a b : Access) : Prop where
  snapshots : ∀ s ∈ b.snapshots.all, s.file = f → s ∈ a.snapshots.all
  node : ∀ n, a.nodes.get f = some n → ∃ m, b.nodes.get f = some m ∧ m.snapshot = n.snapshot

namespace Withheld

variable {f : Id}

theorem refl (f : Id) (a : Access) : Withheld f a a := ⟨fun _ h _ => h, fun n h => ⟨n, h, rfl⟩⟩

theorem trans {c : Access} (h : Withheld f a b) (h' : Withheld f b c) : Withheld f a c where
  snapshots s hs hf := h.snapshots s (h'.snapshots s hs hf) hf
  node n hn := by
    obtain ⟨m, hm, he⟩ := h.node n hn
    obtain ⟨m', hm', he'⟩ := h'.node m hm
    exact ⟨m', hm', he'.trans he⟩

/-- Nothing of the file changes. -/
theorem of_eq (hsnap : ∀ s ∈ b.snapshots.all, s.file = f → s ∈ a.snapshots.all)
    (hget : b.nodes.get f = a.nodes.get f) : Withheld f a b :=
  ⟨hsnap, fun n h => ⟨n, hget.trans h, rfl⟩⟩

/-- A node is written back. -/
theorem put_old {n m : Node} (hm : a.nodes.get n.id = some m)
    (hsnap : n.snapshot = m.snapshot) : Withheld f a { a with nodes := a.nodes.put n } := by
  by_cases hf : f = n.id
  · subst hf
    refine ⟨fun _ h _ => h, fun x hx => ⟨n, Table.get_put_self _ n, ?_⟩⟩
    rw [hsnap, Option.some.inj (hm.symm.trans hx)]
  · exact of_eq (fun _ h _ => h) (Table.get_put_of_ne _ hf)

/-- Something is published of another file. -/
theorem put_other {n : Node} {s : Snapshot} (hn : f ≠ n.id) (hs : s.file ≠ f)
    (hsnap : b.snapshots = a.snapshots.put s) (hnodes : b.nodes = a.nodes.put n) :
    Withheld f a b := by
  refine of_eq (fun t ht hf => ?_) (by rw [hnodes]; exact Table.get_put_of_ne _ hn)
  rw [hsnap] at ht
  rcases Table.mem_put.mp ht with rfl | ⟨ht, -⟩
  · exact absurd hf hs
  · exact ht

end Withheld

/-- **What publishes nothing of a file withholds it.** -/
theorem Act.withheld (hs : Sound app a) (h : Act app trust a b) {f : Id}
    (hf : trust.withholds f) : Withheld f a b := by
  cases h with
  | touchNode hg _ _ hsnap => exact .put_old hg hsnap
  | @newDirectory n hfresh _ _ =>
      by_cases he : f = n.id
      · subst he
        have hnone := get_none_of_unused_node hfresh.2
        refine ⟨fun _ h _ => h, fun x hx => ?_⟩
        rw [hnone] at hx
        cases hx
      · exact .of_eq (fun _ h _ => h) (Table.get_put_of_ne _ he)
  | removeNode hg _ _ hsnap _ => exact .put_old hg hsnap
  | @commitWrite op g n n' _ _ _ _ _ hok same _ _ hcommits =>
      obtain ⟨g', hg', hfile, -⟩ :=
        hs.writeHandle op (Table.mem_of_get hok.stored) ⟨hok.kind, hok.state⟩
      obtain rfl : g' = g := Option.some.inj (hg'.symm.trans hok.handle)
      have hne : g'.file ≠ f := hfile ▸ hf.1 op hcommits
      have hid : n'.id = g'.file := same.1.trans (node_id_of_get hok.current.1)
      exact .put_other (fun he => hne (hid ▸ he.symm)) hne rfl rfl
  | @commitUpload op n s _ hok hu hcommits =>
      have hne : op.file ≠ f := hf.1 op hcommits
      exact .put_other (fun he => hne (hok.node_id ▸ he.symm)) (hu.file_eq ▸ hne) rfl rfl
  | @createFile n s _ he _ _ hempties =>
      have hne : n.id ≠ f := fun he => hf.2 (he ▸ hempties)
      exact .put_other hne.symm (he.file_eq ▸ hne) rfl rfl
  | @truncate n _ s _ _ _ _ he _ _ hempties =>
      have hne : n.id ≠ f := fun he => hf.2 (he ▸ hempties)
      exact .put_other hne.symm (he.file_eq ▸ hne) rfl rfl
  | dropSnapshot _ _ => exact .of_eq (fun _ h _ => (Table.mem_delete.mp h).1) rfl
  | _ => exact .of_eq (fun _ h _ => h) rfl

/-- The actions of a sequence that create no file under this identifier. -/
def Trust.makesNo (trust : Trust) (f : Id) : Prop :=
  (∀ op, trust.commits op → op.kind = .upload → op.base = none → op.file ≠ f) ∧ ¬ trust.empties f

/-- **What does not create a file does not make it.** -/
theorem Act.unmade (h : Act app trust a b) {f : Id} (hf : trust.makesNo f)
    (ha : ∀ n, a.nodes.get f = some n → n.kind = .directory) :
    ∀ n, b.nodes.get f = some n → n.kind = .directory := by
  have hput : ∀ {m : Node}, (f = m.id → m.kind = .directory) →
      ∀ n, (a.nodes.put m).get f = some n → n.kind = .directory := by
    intro m hm n hn
    rw [Table.get_put] at hn
    split at hn
    · cases hn
      exact hm ‹_›
    · exact ha n hn
  have hold : ∀ {m x : Node}, a.nodes.get m.id = some x → m.kind = x.kind →
      ∀ n, (a.nodes.put m).get f = some n → n.kind = .directory := fun hg hkind =>
    hput fun he => hkind.trans (ha _ (he ▸ hg))
  cases h with
  | touchNode hg same _ _ => exact hold hg same.2.1
  | newDirectory _ hkind _ => exact hput fun _ => hkind
  | removeNode hg same _ _ _ => exact hold hg same.2.1
  | commitWrite _ hok same _ _ _ =>
      have hid := node_id_of_get hok.current.1
      exact hold (by rw [same.1, hid]; exact hok.current.1) same.2.1
  | @commitUpload op n s _ hok _ hcommits =>
      cases hb : op.base with
      | none =>
          exact hput fun he => absurd (he ▸ hok.node_id.symm) (hf.1 op hcommits hok.kind hb)
      | some k =>
          obtain ⟨m, hm, -, -, same⟩ := hok.replaces k hb
          exact hold (hok.node_id ▸ hm) same.2.1
  | createFile _ _ _ _ hempties => exact hput fun he => absurd (he ▸ hempties) hf.2
  | truncate _ _ _ _ _ _ hempties => exact hput fun he => absurd (he ▸ hempties) hf.2
  | _ => exact ha

/-- **An operation that does not commit is not committed.** -/
theorem Act.uncommitted (h : Act app trust a b) {k : Id} (hk : ∀ op, trust.commits op → op.id ≠ k)
    {o p : Operation} (ho : a.uploads.get k = some o) (hst : o.state ≠ .committed)
    (hp : b.uploads.get k = some p) : p.state ≠ .committed := by
  have hput : ∀ {x q : Operation}, (a.uploads.put q).get k = some p →
      a.uploads.get q.id = some x → (x.state ≠ .committed → q.state ≠ .committed) →
      p.state ≠ .committed := by
    intro x q hq hg hs
    rw [Table.get_put] at hq
    split at hq
    · rename_i he
      have he' : k = q.id := he
      rw [← he', ho] at hg
      cases hg
      cases hq
      exact hs hst
    · exact Option.some.inj (ho.symm.trans hq) ▸ hst
  have hnew : ∀ {q : Operation}, Fresh app a q.id → (a.uploads.put q).get k = some p →
      p.state ≠ .committed := by
    intro q hf hq
    rw [Table.get_put] at hq
    split at hq
    · rename_i he
      have he' : k = q.id := he
      rw [he', get_none_of_unused_upload hf.2] at ho
      cases ho
    · exact Option.some.inj (ho.symm.trans hq) ▸ hst
  have hother : ∀ {q : Operation}, (a.uploads.put q).get k = some p → q.id ≠ k →
      p.state ≠ .committed := by
    intro q hq hne
    rw [Table.get_put_of_ne _ (Ne.symm hne)] at hq
    exact Option.some.inj (ho.symm.trans hq) ▸ hst
  cases h with
  | recordOp _ _ hf _ _ _ _ _ => exact hnew hf hp
  | beginWrite _ hb => exact hnew hb.fresh hp
  | beginPlain _ _ hplan _ => exact hnew hplan.fresh hp
  | beginUpload _ hb => exact hnew hb.fresh hp
  | touchOp e res hg _ _ => exact hput hp hg id
  | spendOp r hg _ => exact hput hp hg id
  | sealOp hg _ => exact hput hp hg id
  | capture q hg _ => exact hput hp hg id
  | stage hg _ _ => exact hput hp hg id
  | allocate hok => exact hput hp hok.stored id
  | endOp hg _ hend =>
      refine hput hp hg fun _ hc => ?_
      rw [Operation.ended] at hc
      simp only at hc
      rw [hc] at hend
      rcases hend with h | h <;> cases h
  | @commitWrite op _ _ _ _ _ _ _ _ _ _ _ _ hcommits => exact hother hp (hk op hcommits)
  | @commitUpload op _ _ _ _ _ hcommits => exact hother hp (hk op hcommits)
  | _ => exact Option.some.inj (ho.symm.trans hp) ▸ hst

/-! ## Writes that lost a lease -/

/-- An action commits a write through a handle. -/
structure Commits (a b : Access) (op : Operation) (h : Handle) : Prop where
  ok : ∃ n s c rs bs, CommitWriteOk a op h n s c rs bs
  uploads : ∃ result, b.uploads = a.uploads.put
    { op with state := .committed, result := result, reserved := 0 }
  handles : ∃ root, b.handles = a.handles.put
    { h with snapshot := root, revision := h.revision + 1 }

/-- An operation is committed by the one action that checks it. -/
theorem Act.committing (h : Act app trust a b) {k : Id} {o p : Operation}
    (ho : a.uploads.get k = some o) (hp : b.uploads.get k = some p)
    (hst : o.state ≠ .committed) (hc : p.state = .committed) :
    (∃ h, Commits a b o h) ∨ ∃ n blocks, CommitUploadOk a o n blocks := by
  -- Every other action that writes an operation leaves it uncommitted, or is about another one.
  have hput : ∀ {q : Operation}, (a.uploads.put q).get k = some p → k = q.id ∧ p = q := by
    intro q hq
    rw [Table.get_put] at hq
    split at hq
    · cases hq
      exact ⟨‹_›, rfl⟩
    · rw [ho, Option.some.injEq] at hq
      exact absurd (hq ▸ hc) hst
  have hnew : ∀ {q : Operation}, Fresh app a q.id → (a.uploads.put q).get k = some p → False := by
    intro q hf hq
    rw [(hput hq).1, get_none_of_unused_upload hf.2] at ho
    cases ho
  have hold : ∀ {x q : Operation}, (a.uploads.put q).get k = some p →
      a.uploads.get q.id = some x → q.state = x.state → False := by
    intro x q hq hg hs
    obtain ⟨hk, hpq⟩ := hput hq
    rw [hk, hg, Option.some.injEq] at ho
    rw [← ho, ← hs, ← hpq] at hst
    exact hst hc
  cases h with
  | recordOp _ _ hf _ _ _ _ _ => exact (hnew hf hp).elim
  | beginWrite _ hb => exact (hnew hb.fresh hp).elim
  | beginPlain _ _ hplan _ => exact (hnew hplan.fresh hp).elim
  | beginUpload _ hb => exact (hnew hb.fresh hp).elim
  | touchOp e res hg _ _ => exact (hold hp hg rfl).elim
  | spendOp r hg _ => exact (hold hp hg rfl).elim
  | sealOp hg _ => exact (hold hp hg rfl).elim
  | capture q hg _ => exact (hold hp hg rfl).elim
  | stage hg _ _ => exact (hold hp hg rfl).elim
  | allocate hok => exact (hold hp hok.stored rfl).elim
  | endOp hg _ hend =>
      have hpq := (hput hp).2
      rw [hpq, Operation.ended] at hc
      simp only at hc
      rw [hc] at hend
      rcases hend with h | h <;> cases h
  | @commitWrite op g n n' s c rs bs result hok _ _ _ =>
      obtain ⟨hk, -⟩ := hput hp
      have hget := hok.stored
      rw [hk] at ho
      obtain rfl : op = o := Option.some.inj (hget.symm.trans ho)
      exact .inl ⟨g, ⟨n, s, c, rs, bs, hok⟩, ⟨result, rfl⟩, ⟨_, rfl⟩⟩
  | @commitUpload op n s result hok _ =>
      obtain ⟨hk, -⟩ := hput hp
      have hget := hok.stored
      rw [hk] at ho
      obtain rfl : op = o := Option.some.inj (hget.symm.trans ho)
      exact .inr ⟨n, s.blocks, hok⟩
  | _ =>
      have hop : o = p := Option.some.inj (ho.symm.trans hp)
      exact absurd (hop ▸ hc) hst

/-- **A write is committed by the action that finds its leases live.** -/
theorem Act.commits (h : Act app trust a b) {k : Id} {o p : Operation}
    (ho : a.uploads.get k = some o) (hp : b.uploads.get k = some p) (hkind : o.kind = .write)
    (hst : o.state ≠ .committed) (hc : p.state = .committed) : ∃ h, Commits a b o h := by
  rcases h.committing ho hp hst hc with hcommits | ⟨n, blocks, hok⟩
  · exact hcommits
  · rw [hok.kind] at hkind
    cases hkind

/-- An operation that appears begins as a write of some bytes or as an upload, or it is an empty
write that is over. -/
theorem Act.beginning (h : Act app trust a b) {k : Id} {p : Operation}
    (hk : a.uploads.get k = none) (hp : b.uploads.get k = some p) :
    (∃ g n s c, BeginOk app a p g n s c) ∨ Planned app a p ∨
      p.state ≠ .preparing ∧ p.length = 0 := by
  have hput : ∀ {q : Operation}, (a.uploads.put q).get k = some p → p = q := by
    intro q hq
    rw [Table.get_put] at hq
    split at hq
    · exact (Option.some.inj hq).symm
    · rw [hk] at hq
      cases hq
  have hold : ∀ {x q : Operation}, (a.uploads.put q).get k = some p →
      a.uploads.get q.id = some x → False := by
    intro x q hq hg
    have hid : p.id = k := Table.key_of_get hq
    rw [← hput hq, hid, hk] at hg
    cases hg
  cases h with
  | recordOp _ _ _ hne _ _ _ hz => exact .inr (.inr ⟨hput hp ▸ hne, hput hp ▸ hz⟩)
  | beginWrite _ hb => exact .inl ⟨_, _, _, _, hput hp ▸ hb⟩
  | beginPlain _ _ hplan _ => exact .inr (.inl (hput hp ▸ hplan))
  | beginUpload _ hb => exact .inr (.inl (hput hp ▸ hb.toPlanned))
  | touchOp _ _ hg _ _ => exact (hold hp hg).elim
  | spendOp _ hg _ => exact (hold hp hg).elim
  | sealOp hg _ => exact (hold hp hg).elim
  | capture _ hg _ => exact (hold hp hg).elim
  | endOp hg _ _ => exact (hold hp hg).elim
  | stage hg _ _ => exact (hold hp hg).elim
  | allocate hok => exact (hold hp hok.stored).elim
  | commitWrite _ hc _ _ _ => exact (hold hp hc.stored).elim
  | commitUpload _ hc _ => exact (hold hp hc.stored).elim
  | _ => exact absurd (hk.symm.trans hp) (by simp)

/-- A write is not committed, and its handle or one of its locks is over. -/
structure Lost (app : App) (a : Access) (op : Operation) : Prop where
  kind : op.kind = .write
  stored : ∃ p, a.uploads.get op.id = some p ∧ Evolves op p ∧ p.state ≠ .committed
  ended : (a.handles.get op.handle).isSome = true ∧ DeadHandle a op.handle ∨
    ∃ f ∈ op.fences, Issued app a f.lockId ∧ DeadLock a f.lockId

/-- **A write that lost a lease does not commit**, and has lost it for good. -/
theorem Act.lost (h : Act app trust a b) {op : Operation} (hl : Lost app a op) :
    Lost app b op where
  kind := hl.kind
  stored := by
    obtain ⟨p, hp, he, hst⟩ := hl.stored
    obtain ⟨q, hq, he'⟩ := h.uploads op.id p hp
    refine ⟨q, hq, he.trans he', fun hc => ?_⟩
    obtain ⟨g, hcommit⟩ := h.commits hp hq (he.kind_eq.trans hl.kind) hst hc
    obtain ⟨n, s, c, rs, bs, hok⟩ := hcommit.ok
    rcases hl.ended with ⟨-, hdead⟩ | ⟨f, hf, -, hdead⟩
    · exact hdead g (he.handle_eq ▸ hok.handle) hok.isOpen hok.live
    · obtain ⟨l, hget, hlive⟩ := hok.fences f (he.fences_eq ▸ hf)
      exact hdead l hget hlive
  ended := by
    rcases hl.ended with ⟨hsome, hdead⟩ | ⟨f, hf, hi, hdead⟩
    · exact .inl ((h.dead_handle hsome hdead).symm)
    · exact .inr ⟨f, hf, hi.act h, h.dead_lock hi hdead⟩

/-! ## Sequences of actions -/

/-- What every action keeps, a sequence keeps. -/
theorem Acts.keep {P : Access → Prop} (step : ∀ {a b}, Act app trust a b → P a → P b)
    (h : Acts app trust a b) (ha : P a) : P b := by
  induction h with
  | refl => exact ha
  | tail _ hstep ih => exact step hstep ih

theorem Acts.uploads (h : Acts app trust a b) : a.uploads.Grows Evolves b.uploads :=
  Acts.keep (P := fun v => a.uploads.Grows Evolves v.uploads)
    (fun hact hv => hv.trans Evolves.trans hact.uploads) h (.refl .refl _)

theorem Acts.unbegun (h : Acts app trust a b) {k : Id} (hk : ¬ trust.begins k)
    (ha : a.uploads.get k = none) : b.uploads.get k = none :=
  Acts.keep (P := fun v => v.uploads.get k = none) (fun hact hv => hact.unbegun hk hv) h ha

theorem Acts.issued_le (h : Acts app trust a b) : a.issued ≤ b.issued :=
  Acts.keep (P := fun v => a.issued ≤ v.issued) (fun hact hv => hv.trans hact.issued_le) h le_rfl

/-- **A snapshot is the record that was published**: it is gone, or it is as it was. -/
theorem Acts.snapshot (h : Acts app trust a b) {k : Id} (hk : Issued app a k) {s : Snapshot}
    (hs : b.snapshots.get k = some s) : a.snapshots.get k = some s := by
  induction h with
  | refl => exact hs
  | tail hacts hact ih =>
      refine ih (hact.snapshot ?_ hs)
      obtain ⟨n, hn, rfl⟩ := hk
      exact ⟨n, lt_of_lt_of_le hn (Acts.issued_le hacts), rfl⟩

theorem Acts.nodes (hs : Sound app a) (h : Acts app trust a b) :
    a.nodes.Grows (fun n m => m.kind = n.kind ∧ m.blockSize = n.blockSize) b.nodes := by
  induction h with
  | refl => exact .refl (fun _ => ⟨rfl, rfl⟩) _
  | tail hacts hact ih =>
      exact ih.trans (fun h1 h2 => ⟨h2.1.trans h1.1, h2.2.trans h1.2⟩) (hact.nodes (hs.acts hacts))

theorem Acts.withheld (hs : Sound app a) (h : Acts app trust a b) {f : Id}
    (hf : trust.withholds f) : Withheld f a b := by
  induction h with
  | refl => exact .refl f a
  | tail hacts hact ih => exact ih.trans (hact.withheld (hs.acts hacts) hf)

theorem Acts.unmade (h : Acts app trust a b) {f : Id} (hf : trust.makesNo f)
    (ha : ∀ n, a.nodes.get f = some n → n.kind = .directory) :
    ∀ n, b.nodes.get f = some n → n.kind = .directory :=
  Acts.keep (P := fun v => ∀ n, v.nodes.get f = some n → n.kind = .directory)
    (fun hact hv => hact.unmade hf hv) h ha

theorem Acts.uncommitted (h : Acts app trust a b) {k : Id} (hk : ∀ op, trust.commits op → op.id ≠ k)
    {o p : Operation} (ho : a.uploads.get k = some o) (hst : o.state ≠ .committed)
    (hp : b.uploads.get k = some p) : p.state ≠ .committed := by
  induction h generalizing p with
  | refl => exact Option.some.inj (ho.symm.trans hp) ▸ hst
  | tail hacts hact ih =>
      obtain ⟨q, hq, -⟩ := Acts.uploads hacts k o ho
      exact hact.uncommitted hk hq (ih hq) hp

end Dfsha
