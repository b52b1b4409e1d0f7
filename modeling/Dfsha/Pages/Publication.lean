import Dfsha.Pages.Flush

/-!
# From the gate to the publication

`persist_pages` adds pages to etcd, each under its own address, and so changes nothing of what etcd
had.  When it returns, etcd has every page of the unit, and the root that is published can be read.

## Main definitions

* `Grown` — etcd with more pages.
* `RootIs`, `Represents` — the root under a key, and its contents.
* `InUnit` — a transaction on its way.

## Main results

* `persistPages_ends` — all pages are in etcd.
* `transaction_ends` — what a transaction leaves, from what its body does.
-/

namespace Dfsha.Pages

open Prog

variable {c : Codec} {m : Contents} {s t : Store} {u : EtcdUnit}

/-! ## Pages in etcd -/

/-- Etcd with more pages. -/
structure Grown (c : Codec) (e e' : Etcd) : Prop where
  fetch : ∀ d p, e.fetch c d = some p → e'.fetch c d = some p
  active : e'.active = e.active
  imported : e'.imported = e.imported
  gate : e'.gate = e.gate
  revision : e'.revision = e.revision

namespace Grown

theorem refl (e : Etcd) : Grown c e e := ⟨fun _ _ h => h, rfl, rfl, rfl, rfl⟩

theorem trans {e e' e'' : Etcd} (h : Grown c e e') (h' : Grown c e' e'') : Grown c e e'' :=
  ⟨fun d p hp => h'.fetch d p (h.fetch d p hp), h'.active.trans h.active,
    h'.imported.trans h.imported, h'.gate.trans h.gate, h'.revision.trans h.revision⟩

theorem root {e e' : Etcd} (h : Grown c e e') (k : RootKey) : e'.root k = e.root k := by
  cases k
  · exact h.active
  · exact h.imported

theorem view {e e' : Etcd} (h : Grown c e e') (d : String) (n : Addressed.Node String UInt8)
    (hn : e.view c d = some n) : e'.view c d = some n := viewOf_mono h.fetch d n hn

end Grown

/-- A page under its own address is read back, and hides no other. -/
theorem grown_putPage (hc : c.Sound) (s : Store) {d : String} {p : Bytes}
    (h : c.address p = d) : Grown c s.etcd (s.putPage c d p).etcd ∧
      (s.putPage c d p).etcd.fetch c d = some p := by
  have hnew : (s.putPage c d p).etcd.fetch c d = some p := by
    unfold Etcd.fetch Store.putPage
    simp only [Table.get_put]
    rw [if_pos (show d = Keyed.key (PageRow.mk d (c.wire s.nonce d p)) from rfl)]
    simp [hc.payload_wire, h]
  refine ⟨⟨fun j q hq => ?_, rfl, rfl, rfl, rfl⟩, hnew⟩
  by_cases heq : j = d
  · subst heq
    rw [hnew, hc.injective (h.trans (Etcd.fetch_address hq).symm)]
  · rw [← hq]
    unfold Etcd.fetch Store.putPage
    simp only [Table.get_put]
    rw [if_neg (show ¬ j = Keyed.key (PageRow.mk d (c.wire s.nonce d p)) from heq)]

/-- What persisting pages leaves alone. -/
structure Persists (c : Codec) (s t : Store) : Prop where
  etcd : Grown c s.etcd t.etcd
  unit : t.unit = s.unit
  heap : t.heap = s.heap
  cached : s.Cached c → t.Cached c
  faults : t.faults ⊆ s.faults

namespace Persists

theorem refl (s : Store) : Persists c s s := ⟨.refl _, rfl, rfl, id, fun _ h => h⟩

theorem trans {r : Store} (h : Persists c r s) (h' : Persists c s t) : Persists c r t :=
  ⟨h.etcd.trans h'.etcd, h'.unit.trans h.unit, h'.heap.trans h.heap,
    fun hs => h'.cached (h.cached hs), fun _ hb => h.faults (h'.faults hb)⟩

theorem of_reads (h : Reads c s t) : Persists c s t :=
  ⟨h.etcd ▸ .refl _, h.unit, h.heap, h.cached, h.faults⟩

end Persists

theorem persists_putPage (hc : c.Sound) (s : Store) {d : String} {p : Bytes}
    (h : c.address p = d) : Persists c s (s.putPage c d p) :=
  ⟨(grown_putPage hc s h).1, rfl, rfl,
    fun hs x hx => (grown_putPage hc s h).1.fetch _ _ (hs x hx), fun _ hb => hb⟩

/-- A batch that was written is in etcd. -/
theorem putBatch_spec (hc : c.Sound) {batch : List (String × Bytes)}
    (h : OwnAddresses c batch) (s : Store) : Persists c s (s.putBatch c batch) ∧
      ∀ x ∈ batch, (s.putBatch c batch).etcd.fetch c x.1 = some x.2 := by
  induction batch generalizing s with
  | nil => exact ⟨.refl s, fun _ hx => (List.not_mem_nil hx).elim⟩
  | cons y batch ih =>
      have hy := h y List.mem_cons_self
      obtain ⟨hpersists, hall⟩ :=
        ih (fun x hx => h x (List.mem_cons_of_mem _ hx)) (s.putPage c y.1 y.2)
      refine ⟨(persists_putPage hc s hy).trans hpersists, fun x hx => ?_⟩
      rcases List.mem_cons.mp hx with rfl | hx
      · exact hpersists.etcd.fetch _ _ (grown_putPage hc s hy).2
      · exact hall x hx

/-- **A batch is written and cached**, or the call failed. -/
theorem persistBatch_ends (hc : c.Sound) {batch : List (String × Bytes)}
    (h : OwnAddresses c batch) :
    (persistBatch c batch).Ends s
      (fun _ t => Persists c s t ∧ ∀ x ∈ batch, t.etcd.fetch c x.1 = some x.2)
      fun e t => Faulted s e ∧ Persists c s t := by
  unfold persistBatch
  refine ((rpc_ends c s).mono (fun _ _ ht => ht) fun e t he => ⟨he.1, .of_reads he.2⟩).bind
    fun _ t ht => ?_
  obtain ⟨hpersists, hall⟩ := putBatch_spec hc h t
  rw [ends_bind, ends_modify]
  refine (Ends.each (I := fun rest r => Reads c (t.putBatch c batch) r ∧ ∀ x ∈ rest, x ∈ batch)
    (fun x rest r hr => ?_) ⟨.refl c _, fun _ hx => hx⟩).mono (fun _ r hr => ?_) fun _ _ he => he
  · have hx := hall x (hr.2 x List.mem_cons_self)
    refine (cachePut_ends (c := c) (hr.1.etcd.symm ▸ hx)).mono (fun _ r' hr' => ?_)
      fun _ _ he => he
    exact ⟨hr.1.trans hr', fun y hy => hr.2 y (List.mem_cons_of_mem _ hy)⟩
  · refine ⟨((Persists.of_reads ht).trans hpersists).trans (.of_reads hr.1), fun x hx => ?_⟩
    rw [hr.1.etcd]
    exact hall x hx

theorem flatten_batchesFrom (batch pages : List (String × Bytes)) :
    (batchesFrom batch pages).flatten = batch ++ pages := by
  induction pages generalizing batch with
  | nil => simp [batchesFrom]
  | cons x pages ih =>
      unfold batchesFrom
      split
      · rw [List.flatten_cons, ih]
        rfl
      · rw [ih, List.append_assoc]
        rfl

/-- The batches hold all pages. -/
theorem mem_batches {pages : List (String × Bytes)} {x : String × Bytes} :
    x ∈ pages ↔ ∃ batch ∈ batches pages, x ∈ batch := by
  have hflat := flatten_batchesFrom [] pages
  rw [List.nil_append] at hflat
  rw [← hflat, List.mem_flatten, hflat]
  constructor
  · rintro ⟨batch, hbatch, hx⟩
    refine ⟨batch, List.mem_filter.mpr ⟨hbatch, ?_⟩, hx⟩
    exact decide_eq_true (List.ne_nil_of_mem hx)
  · rintro ⟨batch, hbatch, hx⟩
    exact ⟨batch, (List.mem_filter.mp hbatch).1, hx⟩

/-- **All pages are in etcd when `persist_pages` returns.** -/
theorem persistPages_ends (hc : c.Sound) {pages : List (String × Bytes)}
    (h : OwnAddresses c pages) :
    (persistPages c pages).Ends s
      (fun _ t => Persists c s t ∧ ∀ x ∈ pages, t.etcd.fetch c x.1 = some x.2)
      fun e t => Faulted s e ∧ Persists c s t := by
  have hown : ∀ batch ∈ batches pages, OwnAddresses c batch := fun batch hbatch x hx =>
    h x (mem_batches.mpr ⟨batch, hbatch, hx⟩)
  refine (Ends.each (I := fun rest t => Persists c s t ∧ ∃ before, batches pages = before ++ rest ∧
      ∀ batch ∈ before, ∀ x ∈ batch, t.etcd.fetch c x.1 = some x.2)
    (fun batch rest t ht => ?_) ⟨.refl s, [], rfl, fun _ hb => (List.not_mem_nil hb).elim⟩).mono
    (fun _ t ht => ?_) fun _ _ he => he
  · obtain ⟨ht, before, hbatches, hall⟩ := ht
    refine (persistBatch_ends hc (hown batch (by simp [hbatches]))).mono (fun _ r hr => ?_)
      fun e r he => ⟨⟨he.1.1, ht.faults he.1.2⟩, ht.trans he.2⟩
    refine ⟨ht.trans hr.1, before ++ [batch], by simp [hbatches], fun b hb x hx => ?_⟩
    rcases List.mem_append.mp hb with hold | hlast
    · exact hr.1.etcd.fetch _ _ (hall b hold x hx)
    · exact hr.2 x (List.mem_singleton.mp hlast ▸ hx)
  · obtain ⟨ht, before, hbatches, hall⟩ := ht
    rw [List.append_nil] at hbatches
    refine ⟨ht, fun x hx => ?_⟩
    obtain ⟨batch, hbatch, hx⟩ := mem_batches.mp hx
    exact hall batch (hbatches ▸ hbatch) x hx

/-! ## Roots -/

/-- The root under a key. -/
def RootIs (c : Codec) (e : Etcd) (k : RootKey) (root : Root) : Prop :=
  match e.root k with
  | none => root = .empty
  | some cell => HoldsJson (e.view c) cell.digest (rootJson root)

/-- **The contents under a key.** -/
def Represents (c : Codec) (e : Etcd) (k : RootKey) (m : Contents) : Prop :=
  ∃ root, RootIs c e k root ∧ Content c (e.view c) root m

/-- More pages, and the same root. -/
theorem Represents.mono {e e' : Etcd} {k : RootKey} (h : Represents c e k m)
    (hfetch : ∀ d p, e.fetch c d = some p → e'.fetch c d = some p)
    (hroot : (e'.root k).map Cell.digest = (e.root k).map Cell.digest) :
    Represents c e' k m := by
  obtain ⟨root, his, hm⟩ := h
  have hview : ∀ d n, e.view c d = some n → e'.view c d = some n := viewOf_mono hfetch
  refine ⟨root, ?_, hm.mono hview⟩
  unfold RootIs at his ⊢
  cases hcell : e.root k with
  | none =>
      rw [hcell, Option.map_none, Option.map_eq_none_iff] at hroot
      rw [hcell] at his
      rw [hroot]
      exact his
  | some cell =>
      rw [hcell, Option.map_some, Option.map_eq_some_iff] at hroot
      obtain ⟨cell', hcell', hdigest⟩ := hroot
      rw [hcell] at his
      rw [hcell']
      change HoldsJson (e'.view c) cell'.digest (rootJson root)
      rw [hdigest]
      exact Addressed.Holds.mono hview his

/-- Where there is no root there is nothing. -/
theorem represents_none (c : Codec) {e : Etcd} {k : RootKey} (h : e.root k = none) :
    Represents c e k fun _ _ => none := by
  have hbucket : ∀ kind shard (b : Bucket),
      BucketAt (e.view c) (.empty : Root) kind shard b ↔ b = .empty := fun _ _ _ => Iff.rfl
  refine ⟨.empty, by unfold RootIs; rw [h], fun kind shard => ⟨.empty, rfl, fun i d hd => ?_⟩,
    fun kind identity b hb => ?_⟩
  · cases hd
  · rw [hbucket] at hb
    subst hb
    rfl

/-! ## A transaction on its way -/

/-- A transaction that began in `s` over the contents `m`, and has come to `t`. -/
structure InUnit (c : Codec) (m : Contents) (s t : Store) (u : EtcdUnit) (write : Bool) :
    Prop where
  sees : Sees c m t u
  etcd : t.etcd = s.etcd
  faults : t.faults ⊆ s.faults
  write : u.write = write
  keys : (u.pending.map Prod.fst).Nodup
  pages : u.pages = []

/-- The root is read, and the transaction begins. -/
theorem start_ends (hc : c.Sound) {k : RootKey} {write : Bool} {root : Root}
    (hs : s.Cached c) (hroot : RootIs c s.etcd k root) (hm : Content c (s.etcd.view c) root m) :
    (start c write (s.etcd.root k)).Ends s
      (fun _ t => ∃ u, u.pending = [] ∧ t.heap = s.heap ∧ InUnit c m s t u write)
      fun e t => Faulted s e ∧ Reads c s t := by
  have hobject : (object c ((s.etcd.root k).map Cell.digest)).Ends s
      (fun w t => w = rootJson root ∧ Reads c s t) fun e t => Faulted s e ∧ Reads c s t := by
    unfold RootIs at hroot
    cases hcell : s.etcd.root k with
    | none =>
        rw [hcell] at hroot
        exact ends_pure.mpr ⟨hroot ▸ rfl, .refl c s⟩
    | some cell =>
        rw [hcell] at hroot
        exact object_ends hc hs hroot
  unfold start
  refine hobject.bind fun w t ht => ?_
  obtain ⟨rfl, ht⟩ := ht
  rw [rootOf_json]
  refine ends_modify.mpr ⟨⟨write, root, [], [], [], []⟩, rfl, ht.heap, ⟨ht.cached hs, rfl, ?_, ?_, ?_⟩,
    ht.etcd, ht.faults, rfl, .nil, rfl⟩
  · intro key b hb
    cases hb
  · rw [show ({ t with unit := some ⟨write, root, [], [], [], []⟩ } : Store).etcd = s.etcd from
      ht.etcd]
    exact hm
  · intro key r hr
    cases hr

/-- The pages of etcd and of a unit are in etcd once they are persisted. -/
theorem view_of_persisted {e e' : Etcd} {pages : List (String × Bytes)} (h : Grown c e e')
    (hall : ∀ x ∈ pages, e'.fetch c x.1 = some x.2) (d : String)
    (n : Addressed.Node String UInt8) (hn : viewWith c e pages d = some n) :
    e'.view c d = some n := by
  refine viewOf_mono (fun d p hp => ?_) d n hn
  rcases Option.or_eq_some_iff.mp hp with hfetch | ⟨-, hfind⟩
  · exact h.fetch d p hfetch
  · exact hall _ (Pairs.mem_of_find hfind)

theorem fetch_published (e : Etcd) (k : RootKey) (digest : String) :
    (e.published k digest).fetch c = e.fetch c := by
  unfold Etcd.published Etcd.fetch
  funext d
  split
  · rfl
  · cases k <;> rfl

theorem root_published (e : Etcd) (k : RootKey) (digest : String) :
    ((e.published k digest).root k).map Cell.digest = some digest ∧
      (e.published k digest).gate = none ∧
      ∀ k', k' ≠ k → (e.published k digest).root k' = e.root k' := by
  unfold Etcd.published
  split
  · rename_i hsame
    refine ⟨?_, rfl, fun k' _ => by cases k' <;> rfl⟩
    rw [← hsame]
    cases k <;> rfl
  · cases k with
    | active =>
        refine ⟨rfl, rfl, fun k' hne => ?_⟩
        cases k' with
        | active => exact absurd rfl hne
        | imported => rfl
    | imported =>
        refine ⟨rfl, rfl, fun k' hne => ?_⟩
        cases k' with
        | active => rfl
        | imported => exact absurd rfl hne

/-- A call failed, or somebody has the gate. -/
def Stopped (s : Store) (e : Halt) : Prop :=
  e = .fault .serviceUnavailable ∧ (true ∈ s.faults ∨ s.etcd.gate ≠ none)

theorem Stopped.of_faulted {e : Halt} (h : Faulted s e) : Stopped s e := ⟨h.1, .inl h.2⟩

/-- How a transaction fails that its body did not fail: it wrote too much, if nothing else. -/
def Failed (s : Store) (e : Halt) : Prop := Stopped s e ∨ e = .fault .limitExceeded

/-- **The publication** of a transaction that has the gate. -/
theorem commit_ends (hc : c.Sound) {k : RootKey} {owner : Nat} (h : InUnit c m s t u true)
    (hgate : t.etcd.gate = some owner) :
    (commit c k owner (t.etcd.root k)).Ends t
      (fun _ r => Represents c r.etcd k (current m u t.heap) ∧ r.Cached c ∧ r.heap = t.heap ∧
        r.faults ⊆ t.faults ∧ r.etcd.gate = none ∧
        (∀ d p, t.etcd.fetch c d = some p → r.etcd.fetch c d = some p) ∧
        ∀ k', k' ≠ k → r.etcd.root k' = t.etcd.root k')
      fun e r => Grown c t.etcd r.etcd ∧ r.heap = t.heap ∧ r.Cached c ∧ r.faults ⊆ t.faults ∧
        (Faulted t e ∨ e = .fault .limitExceeded) := by
  unfold commit
  have hown : OwnAddresses c u.pages := by
    rw [h.pages]
    exact fun _ hx => (List.not_mem_nil hx).elim
  have hnodup : (u.pages.map Prod.fst).Nodup := by
    rw [h.pages]
    exact .nil
  refine ((flush_ends hc h.sees h.write h.keys hown hnodup).mono (fun _ _ hd => hd)
    fun e r he => ?_).bind fun digest r hr => ?_
  · exact ⟨he.etcd ▸ .refl _, he.heap, he.cached, he.faults,
      he.reason.imp_right fun htoo => htoo.1⟩
  obtain ⟨x, root, hf, hdigest, hcontent⟩ := hr
  rw [ends_bind, theUnit_ends hf.unit]
  refine ((persistPages_ends hc hf.own).mono (fun _ _ hp => hp) fun e r' he => ?_).bind
    fun _ r' hr' => ?_
  · exact ⟨hf.etcd ▸ he.2.etcd, he.2.heap.trans hf.heap, he.2.cached hf.cached,
      fun _ hb => hf.faults (he.2.faults hb), .inl ⟨he.1.1, hf.faults he.1.2⟩⟩
  obtain ⟨hp, hall⟩ := hr'
  have hgrown : Grown c t.etcd r'.etcd := hf.etcd ▸ hp.etcd
  have hview := view_of_persisted hgrown hall
  unfold publish
  rw [ends_bind, theUnit_ends (hp.unit.trans hf.unit), ends_bind, require_ends]
  refine ⟨fun _ => ?_, fun _ => ⟨hgrown, hp.heap.trans hf.heap, hp.cached hf.cached,
    fun _ hb => hf.faults (hp.faults hb), .inr rfl⟩⟩
  refine ((rpc_ends c r').mono (fun _ _ hq => hq) fun e q he => ?_).bind fun _ q hq => ?_
  · exact ⟨he.2.etcd.symm ▸ hgrown, he.2.heap.trans (hp.heap.trans hf.heap),
      he.2.cached (hp.cached hf.cached),
      fun _ hb => hf.faults (hp.faults (he.2.faults hb)),
      .inl ⟨he.1.1, hf.faults (hp.faults he.1.2)⟩⟩
  rw [ends_bind, ends_reads, ends_bind, require_ends]
  have hroot : r'.etcd.root k = t.etcd.root k := hgrown.root k
  refine ⟨fun _ => ?_, fun hno => absurd ⟨?_, ?_⟩ hno⟩
  · obtain ⟨hnew, hfree, hother⟩ := root_published q.etcd k digest
    have hfetch : ∀ d p, t.etcd.fetch c d = some p →
        (q.etcd.published k digest).fetch c d = some p := by
      intro d p hd
      rw [fetch_published, hq.etcd]
      exact hgrown.fetch d p hd
    have hview' : ∀ d n, viewWith c t.etcd x.pages d = some n →
        (q.etcd.published k digest).view c d = some n := by
      intro d n hn
      unfold Etcd.view
      rw [fetch_published, hq.etcd]
      exact hview d n hn
    refine ends_modify.mpr ⟨⟨root, ?_, hcontent.mono hview'⟩, ?_, ?_, ?_, hfree, hfetch, ?_⟩
    · unfold RootIs
      obtain ⟨cell, hcell, hcelldigest⟩ := Option.map_eq_some_iff.mp hnew
      rw [hcell]
      change HoldsJson ((q.etcd.published k digest).view c) cell.digest (rootJson root)
      rw [hcelldigest]
      exact Addressed.Holds.mono hview' hdigest
    · intro y hy
      rw [show ({ q with etcd := q.etcd.published k digest } : Store).etcd.fetch c =
        q.etcd.fetch c from fetch_published q.etcd k digest]
      exact hq.cached (hp.cached hf.cached) y hy
    · exact hq.heap.trans (hp.heap.trans hf.heap)
    · exact fun _ hb => hf.faults (hp.faults (hq.faults hb))
    · intro k' hne
      rw [← hgrown.root k', ← hq.etcd]
      exact hother k' hne
  · rw [id, hq.etcd, hgrown.gate, hgate]
  · rw [id, hq.etcd, hroot]

/-! ## Transactions -/

/-- What a transaction leaves in any case. -/
structure Ended (c : Codec) (k : RootKey) (s t : Store) : Prop where
  cached : t.Cached c
  unit : t.unit = none
  fetch : ∀ d p, s.etcd.fetch c d = some p → t.etcd.fetch c d = some p
  other : ∀ k', k' ≠ k → t.etcd.root k' = s.etcd.root k'
  faults : t.faults ⊆ s.faults
  gate : s.etcd.gate = none → t.etcd.gate = none ∨ true ∈ s.faults

/-- The gate changes, and the pages and roots do not. -/
structure Gated (s t : Store) : Prop where
  pages : t.etcd.pages = s.etcd.pages
  active : t.etcd.active = s.etcd.active
  imported : t.etcd.imported = s.etcd.imported
  cache : t.cache = s.cache
  heap : t.heap = s.heap
  unit : t.unit = s.unit
  faults : t.faults ⊆ s.faults

namespace Gated

theorem fetch (h : Gated s t) : t.etcd.fetch c = s.etcd.fetch c := by
  unfold Etcd.fetch
  rw [h.pages]

theorem root (h : Gated s t) (k : RootKey) : t.etcd.root k = s.etcd.root k := by
  cases k
  · exact h.active
  · exact h.imported

theorem cached (h : Gated s t) (hs : s.Cached c) : t.Cached c := by
  intro x hx
  rw [h.fetch]
  exact hs x (h.cache ▸ hx)

end Gated

/-- The gate is taken, or somebody has it, or the call failed. -/
theorem acquire_ends (owner : Nat) :
    (acquire owner).Ends s (fun _ t => Gated s t ∧ t.etcd.gate = some owner)
      fun e t => Gated s t ∧ t.etcd.gate = s.etcd.gate ∧ Stopped s e := by
  unfold acquire
  refine ((rpc_spec s).mono (fun _ _ ht => ht) fun e t he => ?_).bind fun _ t ht => ?_
  · obtain ⟨hfault, fs, hfs, rfl⟩ := he
    exact ⟨⟨rfl, rfl, rfl, rfl, rfl, rfl, hfs⟩, rfl, .of_faulted hfault⟩
  · obtain ⟨fs, hfs, rfl⟩ := ht
    rw [ends_bind, ends_reads, ends_bind, require_ends]
    refine ⟨fun _ => ends_modify.mpr ⟨⟨rfl, rfl, rfl, rfl, rfl, rfl, hfs⟩, rfl⟩, fun htaken => ?_⟩
    exact ⟨⟨rfl, rfl, rfl, rfl, rfl, rfl, hfs⟩, rfl, rfl, .inr htaken⟩

/-- The gate is given back, or the call failed. -/
theorem release_ends (owner : Nat) :
    (release owner).Ends s
      (fun _ t => Gated s t ∧ (s.etcd.gate = some owner ∨ s.etcd.gate = none →
        t.etcd.gate = none))
      fun e t => Gated s t ∧ Faulted s e := by
  unfold release
  refine ((rpc_spec s).mono (fun _ _ ht => ht) fun e t he => ?_).bind fun _ t ht => ?_
  · obtain ⟨hfault, fs, hfs, rfl⟩ := he
    exact ⟨⟨rfl, rfl, rfl, rfl, rfl, rfl, hfs⟩, hfault⟩
  · obtain ⟨fs, hfs, rfl⟩ := ht
    rw [ends_modify]
    by_cases howner : s.etcd.gate = some owner
    · simp only [howner, if_true]
      exact ⟨⟨rfl, rfl, rfl, rfl, rfl, rfl, hfs⟩, fun _ => trivial⟩
    · simp only [howner, if_false]
      exact ⟨⟨rfl, rfl, rfl, rfl, rfl, rfl, hfs⟩, fun h => h.resolve_left id⟩

/-- What holds on the way of a transaction. -/
structure Midway (c : Codec) (k : RootKey) (s t : Store) : Prop where
  cached : t.Cached c
  fetch : ∀ d p, s.etcd.fetch c d = some p → t.etcd.fetch c d = some p
  other : ∀ k', k' ≠ k → t.etcd.root k' = s.etcd.root k'
  faults : t.faults ⊆ s.faults

/-- The inside of a transaction, from the moment when it has the gate. -/
theorem within_ends {τ α : Type} (hc : c.Sound) {k : RootKey} {owner : Nat} {write : Bool}
    {body : Client τ α} {s : Store × τ} (hs : s.1.Cached c) (hm : Represents c s.1.etcd k m)
    (hgate : write = true → s.1.etcd.gate = some owner)
    {Q : α → Contents → List Json → τ → Prop} {E : Halt → List Json → τ → Prop}
    (hbody : ∀ t u, InUnit c m t t u write → u.pending = [] → t.heap = s.1.heap →
      t.faults ⊆ s.1.faults → body.Ends (t, s.2)
        (fun a r => ∃ u', InUnit c m t r.1 u' write ∧ Q a (current m u' r.1.heap) r.1.heap r.2)
        fun e r => r.1.etcd = t.etcd ∧ r.1.Cached c ∧ r.1.faults ⊆ t.faults ∧
          E e r.1.heap r.2) :
    (within c k owner write body).Ends s
      (fun a r => Midway c k s.1 r.1 ∧ r.1.etcd.gate = (if write = true then none else s.1.etcd.gate) ∧
        ∃ m', Q a m' r.1.heap r.2 ∧ Represents c r.1.etcd k (if write = true then m' else m))
      fun e r => Midway c k s.1 r.1 ∧ r.1.etcd.gate = s.1.etcd.gate ∧
        Represents c r.1.etcd k m ∧
        (E e r.1.heap r.2 ∨ (Faulted s.1 e ∧ r.1.heap = s.1.heap ∧ r.2 = s.2) ∨
          (Faulted s.1 e ∨ e = .fault .limitExceeded) ∧ ∃ a m', Q a m' r.1.heap r.2) := by
  have hmid : ∀ {t : Store}, t.etcd = s.1.etcd → t.Cached c → t.faults ⊆ s.1.faults →
      Midway c k s.1 t := fun he hcached hfaults =>
    ⟨hcached, fun d p hd => he.symm ▸ hd, fun k' _ => by rw [he], hfaults⟩
  unfold within
  rw [ends_bind, ends_first]
  refine (rpc_ends c s.1).mono (fun _ t ht => ?_) fun e t he => ?_
  swap
  · exact ⟨hmid he.2.etcd (he.2.cached hs) he.2.faults, by rw [he.2.etcd], he.2.etcd.symm ▸ hm,
      .inr (.inl ⟨he.1, he.2.heap, rfl⟩)⟩
  rw [ends_bind, ends_first, ends_reads, ends_bind, ends_first]
  obtain ⟨root, hroot, hcontent⟩ := ht.etcd.symm ▸ hm
  refine (start_ends hc (ht.cached hs) hroot hcontent).mono (fun _ r hr => ?_) fun e r he => ?_
  swap
  · have hr := ht.trans he.2
    exact ⟨hmid hr.etcd (hr.cached hs) hr.faults, by rw [hr.etcd], hr.etcd.symm ▸ hm,
      .inr (.inl ⟨ht.faulted he.1, hr.heap, rfl⟩)⟩
  obtain ⟨u, hpending, hheap, hunit⟩ := hr
  have hetcd : r.etcd = s.1.etcd := hunit.etcd.trans ht.etcd
  have hfaults : r.faults ⊆ s.1.faults := fun _ hb => ht.faults (hunit.faults hb)
  have hself : InUnit c m r r u write :=
    ⟨hunit.sees, rfl, fun _ hb => hb, hunit.write, hunit.keys, hunit.pages⟩
  rw [ends_bind]
  refine (hbody r u hself hpending (hheap.trans ht.heap) hfaults).mono (fun a q hq => ?_) fun e q he => ?_
  swap
  · obtain ⟨heq, hcached, hfs, hE⟩ := he
    have heq' := heq.trans hetcd
    exact ⟨hmid heq' hcached fun _ hb => hfaults (hfs hb), by rw [heq'], heq'.symm ▸ hm, .inl hE⟩
  obtain ⟨u', hq, hQ⟩ := hq
  have hetcd' : q.1.etcd = s.1.etcd := hq.etcd.trans hetcd
  have hfaults' : q.1.faults ⊆ s.1.faults := fun _ hb => hfaults (hq.faults hb)
  cases write with
  | false =>
      exact ends_pure.mpr ⟨hmid hetcd' hq.sees.cached hfaults', by rw [hetcd']; rfl, _, hQ,
        hetcd'.symm ▸ hm⟩
  | true =>
      rw [if_pos rfl, ends_bind, ends_first]
      have hrootcell : t.etcd.root k = q.1.etcd.root k := by rw [hetcd', ht.etcd]
      rw [hrootcell]
      refine (commit_ends hc hq (by rw [hetcd']; exact hgate rfl)).mono (fun _ v hv => ?_)
        fun e v he => ?_
      · obtain ⟨hnew, hcached, hheap', hfs, hfree, hfetch, hother⟩ := hv
        refine ends_pure.mpr ⟨⟨hcached, fun d p hd => hfetch d p (hetcd'.symm ▸ hd),
          fun k' hne => (hother k' hne).trans (by rw [hetcd']), fun _ hb => hfaults' (hfs hb)⟩,
          hfree, _, ?_, hnew⟩
        rw [hheap']
        exact hQ
      · obtain ⟨hgrown, hheap', hcached, hfs, hreason⟩ := he
        refine ⟨⟨hcached, fun d p hd => hgrown.fetch d p (hetcd'.symm ▸ hd),
          fun k' _ => (hgrown.root k').trans (by rw [hetcd']), fun _ hb => hfaults' (hfs hb)⟩,
          hgrown.gate.trans (by rw [hetcd']), ?_, .inr (.inr ⟨?_, a, _, hheap'.symm ▸ hQ⟩)⟩
        · exact (hetcd'.symm ▸ hm : Represents c q.1.etcd k m).mono hgrown.fetch
            (by rw [hgrown.root k])
        · exact hreason.imp_left fun hfault => ⟨hfault.1, hfaults' hfault.2⟩

namespace Midway

variable {k : RootKey} {r : Store}

theorem gated (h : Midway c k s t) (hg : Gated t r) : Midway c k s r :=
  ⟨hg.cached h.cached, fun d p hd => hg.fetch.symm ▸ h.fetch d p hd,
    fun k' hne => (hg.root k').trans (h.other k' hne), fun _ hb => h.faults (hg.faults hb)⟩

/-- The unit is dropped at the end. -/
theorem drop (h : Midway c k s t) : Midway c k s { t with unit := none } :=
  ⟨h.cached, h.fetch, h.other, h.faults⟩

theorem ended (h : Midway c k s t) (hunit : t.unit = none)
    (hgate : s.etcd.gate = none → t.etcd.gate = none ∨ true ∈ s.faults) : Ended c k s t :=
  ⟨h.cached, hunit, h.fetch, h.other, h.faults, hgate⟩

end Midway

theorem Represents.gated {k : RootKey} (h : Represents c s.etcd k m) (hg : Gated s t) :
    Represents c t.etcd k m :=
  h.mono (fun d p hd => hg.fetch.symm ▸ hd) (by rw [hg.root k])

/-- **What a transaction leaves**, from what its body does. -/
theorem transaction_ends {τ α : Type} (hc : c.Sound) {k : RootKey} {owner : Nat} {write : Bool}
    {body : Client τ α} {s : Store × τ} (hs : s.1.Cached c) (hm : Represents c s.1.etcd k m)
    {Q : α → Contents → List Json → τ → Prop} {E : Halt → List Json → τ → Prop}
    (hbody : ∀ t u, InUnit c m t t u write → u.pending = [] → t.heap = s.1.heap →
      t.faults ⊆ s.1.faults → body.Ends (t, s.2)
        (fun a r => ∃ u', InUnit c m t r.1 u' write ∧ Q a (current m u' r.1.heap) r.1.heap r.2)
        fun e r => r.1.etcd = t.etcd ∧ r.1.Cached c ∧ r.1.faults ⊆ t.faults ∧
          E e r.1.heap r.2) :
    (transaction c k owner write body).Ends s
      (fun a r => Ended c k s.1 r.1 ∧ ∃ m', Q a m' r.1.heap r.2 ∧
        Represents c r.1.etcd k (if write = true then m' else m))
      fun e r => Ended c k s.1 r.1 ∧ Represents c r.1.etcd k m ∧
        (E e r.1.heap r.2 ∨ (Stopped s.1 e ∧ r.1.heap = s.1.heap ∧ r.2 = s.2) ∨
          Failed s.1 e ∧ ∃ a m', Q a m' r.1.heap r.2) := by
  -- inside, with or without the gate
  have hinner : (do
      if write = true then Prog.first (acquire owner) else pure ()
      within c k owner write body : Client τ α).Ends s
      (fun a r => Midway c k s.1 r.1 ∧ (s.1.etcd.gate = none → r.1.etcd.gate = none) ∧
        ∃ m', Q a m' r.1.heap r.2 ∧ Represents c r.1.etcd k (if write = true then m' else m))
      fun e r => Midway c k s.1 r.1 ∧
        (s.1.etcd.gate = none → r.1.etcd.gate = none ∨
          write = true ∧ r.1.etcd.gate = some owner) ∧
        Represents c r.1.etcd k m ∧
        (E e r.1.heap r.2 ∨ (Stopped s.1 e ∧ r.1.heap = s.1.heap ∧ r.2 = s.2) ∨
          Failed s.1 e ∧ ∃ a m', Q a m' r.1.heap r.2) := by
    cases write with
    | false =>
        rw [if_neg (by decide)]
        refine (@within_ends _ _ _ _ hc _ owner _ _ _ hs hm (fun hno => by cases hno) _ _ hbody).mono (fun a r hr => ?_)
          fun e r he => ?_
        · exact ⟨hr.1, fun hnone => hr.2.1.trans hnone, hr.2.2⟩
        · exact ⟨he.1, fun hnone => .inl (he.2.1.trans hnone), he.2.2.1,
            he.2.2.2.imp_right (.imp (.imp_left .of_faulted)
              (.imp_left (.imp_left .of_faulted)))⟩
    | true =>
        rw [if_pos rfl, ends_bind, ends_first]
        refine (acquire_ends owner).mono (fun _ t ht => ?_) fun e t he => ?_
        · obtain ⟨hg, howner⟩ := ht
          have hthrough : ∀ {r : Store}, Midway c k t r → Midway c k s.1 r := fun h =>
            ⟨h.cached, fun d p hd => h.fetch d p (hg.fetch.symm ▸ hd),
              fun k' hne => (h.other k' hne).trans (hg.root k'),
              fun _ hb => hg.faults (h.faults hb)⟩
          refine (within_ends (s := (t, s.2)) hc (hg.cached hs) (hm.gated hg) (fun _ => howner)
            fun v u hv hpending hheap hfaults => hbody v u hv hpending (hheap.trans hg.heap)
              fun _ hb => hg.faults (hfaults hb)).mono
            (fun a r hr => ?_) fun e r he => ?_
          · exact ⟨hthrough hr.1, fun _ => hr.2.1, hr.2.2⟩
          · obtain ⟨hmidway, hgate, hrep, hreason⟩ := he
            refine ⟨hthrough hmidway, fun _ => .inr ⟨rfl, hgate.trans howner⟩, hrep, ?_⟩
            have hstopped : ∀ {e}, Faulted t e → Stopped s.1 e := fun hfault =>
              .of_faulted ⟨hfault.1, hg.faults hfault.2⟩
            exact hreason.imp_right (.imp
              (fun hf => ⟨hstopped hf.1, hf.2.1.trans hg.heap, hf.2.2⟩)
              (.imp_left (.imp_left hstopped)))
        · obtain ⟨hg, hsame, hfailed⟩ := he
          exact ⟨⟨hg.cached hs, fun d p hd => hg.fetch.symm ▸ hd, fun k' _ => hg.root k', hg.faults⟩,
            fun hnone => .inl (hsame.trans hnone), hm.gated hg, .inr (.inl ⟨hfailed, hg.heap, rfl⟩)⟩
  unfold transaction
  rw [ends_bind, ends_attempt]
  refine hinner.mono (fun a r hr => ?_) fun e r he => ?_
  · obtain ⟨hmidway, hgate, hrest⟩ := hr
    rw [ends_bind, ends_first, ends_modify]
    exact ends_pure.mpr ⟨hmidway.drop.ended rfl fun hnone => .inl (hgate hnone), hrest⟩
  · obtain ⟨hmidway, hgate, hrep, hreason⟩ := he
    rw [ends_bind, ends_first, ends_modify]
    cases write with
    | false =>
        refine ends_raise.mpr ⟨hmidway.drop.ended rfl fun hnone => .inl ?_, hrep, hreason⟩
        exact (hgate hnone).resolve_right fun h => by cases h.1
    | true =>
        simp only [if_true]
        rw [ends_bind, ends_attempt, ends_first]
        refine (release_ends owner).mono (fun _ t ht => ?_) fun x t ht => ?_
        · have hheap : t.heap = r.1.heap := ht.1.heap
          refine ends_raise.mpr ⟨(hmidway.drop.gated ht.1).ended ht.1.unit fun hnone => .inl ?_,
            Represents.gated (s := { r.1 with unit := none }) hrep ht.1, by rwa [hheap]⟩
          exact ht.2 ((hgate hnone).elim .inr fun h => .inl h.2)
        · have hheap : t.heap = r.1.heap := ht.1.heap
          refine ends_raise.mpr ⟨(hmidway.drop.gated ht.1).ended ht.1.unit fun hnone => .inr ?_,
            Represents.gated (s := { r.1 with unit := none }) hrep ht.1, by rwa [hheap]⟩
          exact hmidway.faults ht.2.2

end Dfsha.Pages
