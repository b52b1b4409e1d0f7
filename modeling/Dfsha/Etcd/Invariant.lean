import Dfsha.Etcd.Shape

/-!
# The invariant of the system

The root that a transaction read is the one in etcd, or an older one; every reply in flight tells
of something that happened; and a transaction that was applied has either changed the root since,
or changes nothing.  Each part is kept by every input: by what a thread does between two calls, by
a call that is carried out, and by a lease that ends.

## Main definitions

* `System.Seen` — a root that was read.
* `Inv` — the invariant.

## Main results

* `publish_root` — a final `Txn` succeeds on the root that its transaction read.
* `Reachable.inv` — the invariant holds in every reachable state.
-/

namespace Dfsha.Etcd

open KeyValue (Ordered)
open Shape (Keeping)

/-! ## Where threads are -/

/-- The unit of a transaction that has one. -/
def Pc.unit : Pc → Option UnitOfWork
  | .judging u _ _ _ | .leasing u _ _ _ | .extending u _ _ _ | .persisting u | .publishing u
  | .checking u => some u
  | _ => none

/-- Whose identifiers a thread draws. -/
def Pc.origin : Pc → Option Nat
  | .keeping origin _ _ | .granting origin _ | .surveying origin | .empowering origin => some origin
  | .polling owner _ _ | .acquiring owner _ _ | .reading owner _ _ | .cleaning owner _
  | .electing owner _ => some owner.origin
  | .judging u _ _ _ | .leasing u _ _ _ | .extending u _ _ _ | .persisting u | .publishing u
  | .checking u => some u.owner.origin
  | .idle | .holding _ => none

/-- The transaction of a thread, before its final `Txn` is sent. -/
def Pc.unpublished : Pc → Option Nat
  | .keeping origin _ _ | .granting origin _ => some origin
  | .polling owner _ _ | .acquiring owner _ _ | .reading owner _ _ => some owner.origin
  | .judging u _ _ _ | .leasing u _ _ _ | .extending u _ _ _ | .persisting u =>
      some u.owner.origin
  | _ => none

/-- The transaction of a thread, until its final `Txn` is sent. -/
def Pc.pending : Pc → Option Nat
  | .publishing u => some u.owner.origin
  | pc => pc.unpublished

theorem Pc.pending_of_unpublished {pc : Pc} {o : Nat} (h : pc.unpublished = some o) :
    pc.pending = some o := by
  cases pc <;> simp_all [Pc.unpublished, Pc.pending]

theorem Pc.origin_of_pending {pc : Pc} {o : Nat} (h : pc.pending = some o) :
    pc.origin = some o := by
  cases pc <;> simp_all [Pc.unpublished, Pc.origin, Pc.pending]

theorem Pc.origin_of_unpublished {pc : Pc} {o : Nat} (h : pc.unpublished = some o) :
    pc.origin = some o := Pc.origin_of_pending (Pc.pending_of_unpublished h)

namespace System

variable (s : System)

/-- The root key. -/
def root : Option Cell := s.store.held .root

/-- A root that was read is still there, or was replaced. -/
def Seen (x : Option Cell) : Prop :=
  x = s.root ∨ x.elim 0 Stored.modified < s.store.modifiedAt .root

/-- The final `Txn` of a transaction was sent. -/
def Published (o : Nat) : Prop := ∃ u p, Call.publish u p ∈ s.sent ∧ u.owner.origin = o

/-- The owners of leases in some metadata come from transactions that were published. -/
def OwnersPublished (m : Metadata) : Prop :=
  ∀ r ∈ m.all, r.kind.leased = true → ∀ l ∈ r.lease, s.Published l.owner.origin

end System

variable {s s' : System}

/-- What a reply says is true. -/
def ReplyOk (s : System) : Call → Reply → Prop
  | .range .root, .range x => s.Seen x ∧ s.OwnersPublished (content x)
  | .range (.marker o), .range (some _) => ∃ u ∈ s.applied, u.owner = o
  | .publish u _, .txn true => u ∈ s.applied
  | _, _ => True

/-- What is known of the transaction of a thread. -/
def PcOk (s : System) : Pc → Prop
  | .judging v key _ after =>
      s.Seen v.root ∧ Shape v ∧ v.leaseReads.lookup key = none ∧ after.Ok v
  | .leasing v r _ _ => s.Seen v.root ∧ Shape v ∧ r.kind.leased = true
  | .extending v r _ _ => s.Seen v.root ∧ Shape v ∧ Keeping v r
  | .persisting v | .publishing v | .checking v => s.Seen v.root ∧ Shape v
  | .cleaning _ outcome => outcome ≠ .committed
  | _ => True

/-- The invariant. -/
structure Inv (s : System) : Prop where
  ordered : Ordered s.store
  /-- The root holds metadata, and is bound to no lease. -/
  rootCell : ∀ c, s.root = some c → c.value = .root (content s.root) ∧ c.lease = none
  rootOwners : s.OwnersPublished (content s.root)
  /-- The lease of a record is held only while the record says so. -/
  recorded : ∀ kind id, (s.store.held (.lease (.record kind id))).isSome = true →
    kind.leased = true ∧
      ∃ r, (content s.root).get (rowKey kind id) = some r ∧ r.lease.isSome = true
  markers : ∀ o, (s.store.held (.marker o)).isSome = true → ∃ u ∈ s.applied, u.owner = o
  calls : ∀ t c, (s.threads t).pc.call (s.threads t).previousMarker = some c →
    s.sent[(s.threads t).call]? = some c
  replies : ∀ x ∈ s.replies, ∃ c, s.sent[x.1]? = some c ∧ ReplyOk s c x.2
  started : ∀ t o, (s.threads t).pc.origin = some o → o < s.started
  distinct : ∀ t t' o, (s.threads t).pc.origin = some o → (s.threads t').pc.origin = some o → t = t'
  unpublished : ∀ t o, (s.threads t).pc.unpublished = some o → ¬ s.Published o
  publishedStarted : ∀ o, s.Published o → o < s.started
  threads : ∀ t, PcOk s (s.threads t).pc
  published : ∀ u p, Call.publish u p ∈ s.sent → s.Seen u.root ∧ Shape u
  /-- A transaction sends one final `Txn`. -/
  unique : ∀ u p v q, Call.publish u p ∈ s.sent → Call.publish v q ∈ s.sent →
    u.owner.origin = v.owner.origin → u = v
  appliedSent : ∀ u ∈ s.applied, ∃ p, Call.publish u p ∈ s.sent
  /-- A transaction that was applied has changed the root since, or changes nothing. -/
  applied : ∀ u ∈ s.applied, u.root.elim 0 Stored.modified < s.store.modifiedAt .root ∨
    u.root.map Stored.value = some (.root u.view)
  outcomes : ∀ x ∈ s.outcomes, x.2 = .committed → ∃ u ∈ s.applied, u.owner = x.1

/-! ## What only grows -/

/-- One state is later than another. -/
structure Later (s s' : System) : Prop where
  sent : s.sent <+: s'.sent
  applied : ∀ u ∈ s.applied, u ∈ s'.applied
  seen : ∀ x, s.Seen x → s'.Seen x

namespace Later

theorem refl (s : System) : Later s s := ⟨List.prefix_rfl, fun _ h => h, fun _ h => h⟩

theorem getElem? (h : Later s s') {i : Nat} {c : Call} (hc : s.sent[i]? = some c) :
    s'.sent[i]? = some c := by
  obtain ⟨rest, hrest⟩ := h.sent
  rw [← hrest]
  obtain ⟨hlt, -⟩ := List.getElem?_eq_some_iff.mp hc
  rw [List.getElem?_append_left hlt, hc]

theorem published (h : Later s s') {o : Nat} (ho : s.Published o) : s'.Published o := by
  obtain ⟨u, p, hmem, he⟩ := ho
  exact ⟨u, p, h.sent.subset hmem, he⟩

theorem owners (h : Later s s') {m : Metadata} (hm : s.OwnersPublished m) :
    s'.OwnersPublished m := fun r hr hl l hll => h.published (hm r hr hl l hll)

theorem replyOk (h : Later s s') {c : Call} {r : Reply} (hr : ReplyOk s c r) : ReplyOk s' c r := by
  unfold ReplyOk at hr ⊢
  split at hr
  · exact ⟨h.seen _ hr.1, h.owners hr.2⟩
  · obtain ⟨u, hu, ho⟩ := hr
    exact ⟨u, h.applied u hu, ho⟩
  · exact h.applied _ hr
  · exact trivial

theorem pcOk (h : Later s s') {pc : Pc} (hp : PcOk s pc) : PcOk s' pc := by
  cases pc with
  | judging v key _ after => exact ⟨h.seen _ hp.1, hp.2⟩
  | leasing v r _ _ => exact ⟨h.seen _ hp.1, hp.2⟩
  | extending v r _ _ => exact ⟨h.seen _ hp.1, hp.2⟩
  | persisting v => exact ⟨h.seen _ hp.1, hp.2⟩
  | publishing v => exact ⟨h.seen _ hp.1, hp.2⟩
  | checking v => exact ⟨h.seen _ hp.1, hp.2⟩
  | cleaning owner outcome => exact hp
  | _ => exact trivial

end Later

theorem Working.pcOk {u : UnitOfWork} {pc : Pc} (hu : s.Seen u.root) (h : Working u pc) :
    PcOk s pc := by
  cases pc with
  | judging v key _ after => exact ⟨h.1.root ▸ hu, h.2⟩
  | leasing v r _ _ => exact ⟨h.1.root ▸ hu, h.2⟩
  | extending v r _ _ => exact ⟨h.1.root ▸ hu, h.2⟩
  | persisting v => exact ⟨h.1.root ▸ hu, h.2⟩
  | cleaning owner outcome =>
      obtain ⟨-, reason, rfl⟩ := h
      intro he
      cases he
  | _ => exact h.elim

theorem Working.origin {u : UnitOfWork} {pc : Pc} (h : Working u pc) :
    pc.origin = some u.owner.origin := by
  cases pc with
  | judging v key _ after => rw [Pc.origin, h.1.owner]
  | leasing v r _ _ => rw [Pc.origin, h.1.owner]
  | extending v r _ _ => rw [Pc.origin, h.1.owner]
  | persisting v => rw [Pc.origin, h.1.owner]
  | cleaning owner outcome => rw [Pc.origin, h.1]
  | _ => exact h.elim

/-! ## A thread goes on -/

/-- The only place where a final `Txn` is sent. -/
theorem publishing_of_call {pc : Pc} {previous p : Option Uuid} {u : UnitOfWork}
    (h : pc.call previous = some (.publish u p)) : pc = .publishing u := by
  cases pc <;> simp_all [Pc.call]

theorem Later.resumeThread (s : System) (t : Nat) (x : Thread) : Later s (s.resumeThread t x) := by
  unfold System.resumeThread
  split
  · exact ⟨List.prefix_rfl, fun _ hu => hu, fun _ hx => hx⟩
  · exact ⟨List.prefix_append _ _, fun _ hu => hu, fun _ hx => hx⟩

/-- The final `Txn`s that were sent, after a thread went on. -/
theorem published_resumeThread {t : Nat} {x : Thread} {u : UnitOfWork} {p : Option Uuid}
    (h : Call.publish u p ∈ (s.resumeThread t x).sent) :
    Call.publish u p ∈ s.sent ∨ x.pc = .publishing u := by
  unfold System.resumeThread at h
  split at h
  · exact .inl h
  · rename_i c hc
    rcases List.mem_append.mp h with h | h
    · exact .inl h
    · rw [List.mem_singleton] at h
      exact .inr (publishing_of_call (h ▸ hc))

/-- What a thread goes on to, of its own. -/
theorem threads_resumeThread (s : System) (t : Nat) (x : Thread) :
    ∃ y : Thread, (s.resumeThread t x).threads = Function.update s.threads t y ∧ y.pc = x.pc ∧
      ∀ c, y.pc.call y.previousMarker = some c → (s.resumeThread t x).sent[y.call]? = some c := by
  unfold System.resumeThread
  split
  · rename_i hc
    exact ⟨x, rfl, rfl, fun c h => by rw [hc] at h; cases h⟩
  · rename_i c hc
    refine ⟨{ x with call := s.sent.length }, rfl, rfl, fun d h => ?_⟩
    have hcd : some c = some d := hc.symm.trans h
    rw [← hcd]
    simp

/-- **A thread may go on to what is known to be so**, under identifiers of its own. -/
theorem Inv.thread (h : Inv s) {t n : Nat} {x : Thread} (hn : s.started ≤ n)
    (hpc : PcOk s x.pc)
    (horigin : ∀ o, x.pc.origin = some o →
      o < n ∧ ∀ t', t' ≠ t → (s.threads t').pc.origin ≠ some o)
    (hun : ∀ o, x.pc.pending = some o → ¬ s.Published o) :
    Inv { s.resumeThread t x with started := n } := by
  have hlater := Later.resumeThread s t x
  obtain ⟨y, hthreads, hy, hcall⟩ := threads_resumeThread s t x
  have hother : ∀ {t'}, t' ≠ t → (s.resumeThread t x).threads t' = s.threads t' := fun hne => by
    rw [hthreads]
    exact Function.update_of_ne hne _ _
  have hself : (s.resumeThread t x).threads t = y := by
    rw [hthreads]
    exact Function.update_self _ _ _
  have hrest : (s.resumeThread t x).store = s.store ∧ (s.resumeThread t x).replies = s.replies ∧
      (s.resumeThread t x).applied = s.applied ∧ (s.resumeThread t x).outcomes = s.outcomes := by
    unfold System.resumeThread
    split <;> exact ⟨rfl, rfl, rfl, rfl⟩
  obtain ⟨hstore, hreplies, happlied, houtcomes⟩ := hrest
  have hpub : ∀ {o}, (s.resumeThread t x).Published o → s.Published o ∨
      x.pc.origin = some o ∧ x.pc.unpublished = none := by
    rintro o ⟨u, p, hmem, rfl⟩
    rcases published_resumeThread hmem with hold | hnew
    · exact .inl ⟨u, p, hold, rfl⟩
    · exact .inr ⟨by rw [hnew]; rfl, by rw [hnew]; rfl⟩
  exact
    { ordered := hstore ▸ h.ordered
      rootCell := by
        unfold System.root
        simp only [hstore]
        exact h.rootCell
      rootOwners := by
        have := hlater.owners h.rootOwners
        unfold System.root at this ⊢
        simp only [hstore]
        exact this
      recorded := by
        unfold System.root
        simp only [hstore]
        exact h.recorded
      markers := by
        simp only [hstore, happlied]
        exact h.markers
      calls := fun t' c hc => by
        by_cases ht : t' = t
        · subst ht
          simp only [hself] at hc ⊢
          exact hcall c hc
        · simp only [hother ht] at hc ⊢
          exact hlater.getElem? (h.calls t' c hc)
      replies := fun r hr => by
        simp only [hreplies] at hr
        obtain ⟨c, hc, hok⟩ := h.replies r hr
        exact ⟨c, hlater.getElem? hc, hlater.replyOk hok⟩
      started := fun t' o ho => by
        by_cases ht : t' = t
        · subst ht
          simp only [hself, hy] at ho
          exact (horigin o ho).1
        · simp only [hother ht] at ho
          exact lt_of_lt_of_le (h.started t' o ho) hn
      distinct := fun t₁ t₂ o h1 h2 => by
        by_cases ht1 : t₁ = t
        · by_cases ht2 : t₂ = t
          · rw [ht1, ht2]
          · subst ht1
            simp only [hself, hy] at h1
            simp only [hother ht2] at h2
            exact absurd h2 ((horigin o h1).2 t₂ ht2)
        · by_cases ht2 : t₂ = t
          · subst ht2
            simp only [hself, hy] at h2
            simp only [hother ht1] at h1
            exact absurd h1 ((horigin o h2).2 t₁ ht1)
          · simp only [hother ht1, hother ht2] at h1 h2
            exact h.distinct t₁ t₂ o h1 h2
      unpublished := fun t' o ho hp => by
        by_cases ht : t' = t
        · subst ht
          simp only [hself, hy] at ho
          rcases hpub hp with hold | ⟨-, hnone⟩
          · exact hun o (Pc.pending_of_unpublished ho) hold
          · rw [hnone] at ho
            cases ho
        · simp only [hother ht] at ho
          rcases hpub hp with hold | ⟨horig, -⟩
          · exact h.unpublished t' o ho hold
          · exact (horigin o horig).2 t' ht (Pc.origin_of_unpublished ho)
      publishedStarted := fun o hp => by
        rcases hpub hp with hold | ⟨horig, -⟩
        · exact lt_of_lt_of_le (h.publishedStarted o hold) hn
        · exact (horigin o horig).1
      threads := fun t' => by
        by_cases ht : t' = t
        · subst ht
          simp only [hself, hy]
          exact hlater.pcOk hpc
        · simp only [hother ht]
          exact hlater.pcOk (h.threads t')
      published := fun u p hmem => by
        rcases published_resumeThread hmem with hold | hnew
        · obtain ⟨hseen, hshape⟩ := h.published u p hold
          exact ⟨hlater.seen _ hseen, hshape⟩
        · rw [hnew] at hpc
          exact ⟨hlater.seen _ hpc.1, hpc.2⟩
      unique := fun u p v q hu hv he => by
        rcases published_resumeThread hu with hu | hu
        · rcases published_resumeThread hv with hv | hv
          · exact h.unique u p v q hu hv he
          · exact absurd ⟨u, p, hu, he⟩ (hun v.owner.origin (by rw [hv]; rfl))
        · rcases published_resumeThread hv with hv | hv
          · exact absurd ⟨v, q, hv, he.symm⟩ (hun u.owner.origin (by rw [hu]; rfl))
          · rw [hu, Pc.publishing.injEq] at hv
            exact hv
      appliedSent := fun u hu => by
        simp only [happlied] at hu
        obtain ⟨p, hp⟩ := h.appliedSent u hu
        exact ⟨p, hlater.sent.subset hp⟩
      applied := by
        simp only [hstore, happlied]
        exact h.applied
      outcomes := by
        simp only [happlied, houtcomes]
        exact h.outcomes }

/-! ## What a thread goes on to -/

/-- A thread goes on as the invariant asks. -/
structure Goes (s : System) (old : Pc) (x : Thread × Option (Uuid × Outcome)) : Prop where
  pc : PcOk s x.1.pc
  origin : ∀ o, x.1.pc.origin = some o → old.origin = some o
  pending : ∀ o, x.1.pc.pending = some o → old.unpublished = some o
  outcome : ∀ y ∈ x.2, y.2 = .committed → ∃ u ∈ s.applied, u.owner = y.1

@[simp] theorem goTo_pc (t : Thread) (pc : Pc) : (t.goTo pc).pc = pc := by
  cases pc <;> rfl

/-- A transaction fails, and gives the gate back. -/
theorem Goes.abandon {old : Pc} (t : Thread) {owner : Uuid} {outcome : Outcome}
    (ho : old.origin = some owner.origin) (hne : outcome ≠ .committed) :
    Goes s old (t.abandon owner outcome, none) where
  pc := hne
  origin o h := ho.trans h
  pending o h := by cases h
  outcome y hy := by cases hy

/-- A thread is idle again. -/
theorem Goes.idle {old : Pc} {t : Thread} (ht : t.pc = .idle) {y : Option (Uuid × Outcome)}
    (hy : ∀ z ∈ y, z.2 = .committed → ∃ u ∈ s.applied, u.owner = z.1) : Goes s old (t, y) where
  pc := by
    simp only [ht]
    exact trivial
  origin o h := by
    simp only [ht, Pc.origin] at h
    cases h
  pending o h := by
    simp only [ht, Pc.pending, Pc.unpublished] at h
    cases h
  outcome := hy

/-- The code inside a transaction goes on. -/
theorem Goes.working {old : Pc} (t : Thread) {u : UnitOfWork} {pc : Pc} (hu : s.Seen u.root)
    (hw : Working u pc) (ho : old.unpublished = some u.owner.origin) :
    Goes s old (t.goTo pc, none) where
  pc := by
    simp only [goTo_pc]
    exact hw.pcOk hu
  origin o h := by
    simp only [goTo_pc, hw.origin] at h
    exact h ▸ Pc.origin_of_unpublished ho
  pending o h := by
    simp only [goTo_pc] at h
    have horig := Pc.origin_of_pending h
    rw [hw.origin] at horig
    exact horig ▸ ho
  outcome y hy := by cases hy

/-- A transaction goes on outside of the code inside it. -/
theorem Goes.step {old : Pc} {t : Thread} (hpc : PcOk s t.pc) (ho : t.pc.origin = old.origin)
    (hu : t.pc.pending = old.unpublished ∨ t.pc.pending = none) :
    Goes s old (t, none) where
  pc := hpc
  origin o h := ho ▸ h
  pending o h := by
    rcases hu with hu | hu
    · exact hu ▸ h
    · rw [hu] at h
      cases h
  outcome y hy := by cases hy

theorem Thread.fault_goes (h : Inv s) (t : Nat) (reason : Reason) :
    Goes s (s.threads t).pc ((s.threads t).fault reason) := by
  have hfailed : ∀ {r : Reason}, Outcome.failed r ≠ .committed := fun he => by cases he
  have hthread := h.threads t
  unfold Thread.fault
  cases hpc : (s.threads t).pc with
  | idle => exact .idle hpc (by simp)
  | keeping origin lease b =>
      simp only
      split
      · exact .step trivial rfl (.inl rfl)
      · exact .idle rfl (by simp)
  | cleaning owner outcome =>
      rw [hpc] at hthread
      refine .idle rfl fun z hz he => ?_
      rw [Option.mem_def, Option.some.injEq] at hz
      subst hz
      exact absurd he hthread
  | granting | surveying | holding | empowering | electing => exact .idle rfl (by simp)
  | _ => exact .abandon _ rfl hfailed

/-- A transaction that found its own marker was applied. -/
theorem Goes.exit {old : Pc} (t : Thread) {owner : Uuid} (h : ∃ u ∈ s.applied, u.owner = owner) :
    Goes s old (t.exit owner, some (owner, .committed)) :=
  .idle rfl fun z hz _ => by
    rw [Option.mem_def, Option.some.injEq] at hz
    exact hz ▸ h

/-- **What a thread goes on to**, with a reply to its call. -/
theorem Thread.resume_goes (h : Inv s) {t : Nat} {c : Call} (late : Bool) {reply : Reply}
    (hc : (s.threads t).pc.call (s.threads t).previousMarker = some c) (hr : ReplyOk s c reply) :
    Goes s (s.threads t).pc ((s.threads t).resume late reply) := by
  have hfailed : ∀ {r : Reason}, Outcome.failed r ≠ .committed := fun he => by cases he
  have hthread := h.threads t
  have hun := h.unpublished t
  cases hpc : (s.threads t).pc with
  | idle =>
      rw [hpc] at hc
      cases hc
  | keeping origin lease b =>
      rcases reply with _ | _ | (_ | _) | _ | _ <;> simp only [Thread.resume, hpc] <;>
        first
          | exact .idle rfl (by simp)
          | exact .step trivial rfl (.inl rfl)
  | granting origin b =>
      rcases reply with _ | _ | (_ | _) | _ | _ <;> simp only [Thread.resume, hpc] <;>
        first
          | exact .idle rfl (by simp)
          | exact .step trivial rfl (.inl rfl)
  | polling owner lease b =>
      rcases reply with (_ | cell) | _ | _ | _ | _ <;> simp only [Thread.resume, hpc]
      · exact .step trivial rfl (.inl rfl)
      · split
        · exact .abandon _ rfl hfailed
        · exact .step trivial rfl (.inl rfl)
      all_goals exact .abandon _ rfl hfailed
  | acquiring owner lease b =>
      rcases reply with _ | (_ | _) | _ | _ | _ <;> simp only [Thread.resume, hpc]
      · exact .abandon _ rfl hfailed
      · split
        · exact .abandon _ rfl hfailed
        · exact .step trivial rfl (.inl rfl)
      · exact .step trivial rfl (.inl rfl)
      all_goals exact .abandon _ rfl hfailed
  | reading owner lease b =>
      rcases reply with root | _ | _ | _ | _ <;> simp only [Thread.resume, hpc]
      · rw [hpc, Pc.call, Option.some.injEq] at hc
        subst hc
        obtain ⟨hseen, howners⟩ := hr
        rw [hpc] at hun
        refine .working _ (u := .begin owner lease root (s.threads t).required) hseen ?_ rfl
        refine advance_working b (.begin fun r hr hl l hll he => ?_)
        exact hun _ rfl (he ▸ howners r hr hl l hll)
      all_goals exact .abandon _ rfl hfailed
  | judging u key owner after =>
      rcases reply with value | _ | _ | _ | _ <;> simp only [Thread.resume, hpc]
      · rw [hpc] at hthread
        obtain ⟨hseen, hshape, hnone, hafter⟩ := hthread
        obtain ⟨hshape', hsame⟩ := hshape.answer key owner value hnone
        have hw := Working.later hsame.toContinues (resume_working hshape' (hafter.same hsame)
          (u.answer key owner value).1)
        exact .working _ hseen hw rfl
      all_goals exact .abandon _ rfl hfailed
  | leasing u r lease rest =>
      rw [hpc] at hthread
      obtain ⟨hseen, hshape, hl⟩ := hthread
      rcases reply with _ | _ | (_ | _) | _ | _ <;> simp only [Thread.resume, hpc]
      case lease.true =>
        have hc : Continues u (u.bind r lease) := ⟨rfl, rfl, rfl, rfl, rfl⟩
        exact .working _ hseen (Working.later hc (advance_working rest (hshape.bind hl lease))) rfl
      all_goals exact .abandon _ rfl hfailed
  | extending u r lease rest =>
      rw [hpc] at hthread
      obtain ⟨hseen, hshape, hk⟩ := hthread
      rcases reply with _ | _ | (_ | _) | _ | _ <;> simp only [Thread.resume, hpc]
      case lease.true =>
        have hc : Continues u (u.store r) := ⟨rfl, rfl, rfl, rfl, rfl⟩
        exact .working _ hseen (Working.later hc (advance_working rest (hshape.store hk))) rfl
      all_goals exact .abandon _ rfl hfailed
  | persisting u =>
      rw [hpc] at hthread
      rcases reply with _ | _ | _ | _ | _ <;> simp only [Thread.resume, hpc]
      case persisted =>
        split
        · exact .step hthread rfl (.inl rfl)
        · exact .abandon _ rfl hfailed
      all_goals exact .abandon _ rfl hfailed
  | publishing u =>
      rw [hpc] at hthread hc
      rw [Pc.call, Option.some.injEq] at hc
      subst hc
      rcases reply with _ | (_ | _) | _ | _ | _ <;> simp only [Thread.resume, hpc]
      case txn.false => exact .step hthread rfl (.inl rfl)
      case txn.true => exact .exit _ ⟨u, hr, rfl⟩
      all_goals exact .abandon _ rfl hfailed
  | checking u =>
      rw [hpc, Pc.call, Option.some.injEq] at hc
      subst hc
      rcases reply with value | _ | _ | _ | _ <;> simp only [Thread.resume, hpc]
      · split
        · rename_i hv
          obtain ⟨cell, rfl, -⟩ := Option.map_eq_some_iff.mp hv
          exact .exit _ hr
        · exact .abandon _ rfl (by simp)
      all_goals exact .abandon _ rfl hfailed
  | cleaning owner outcome =>
      rw [hpc] at hthread
      have hne : ∀ z ∈ some (owner, outcome), z.2 = .committed → ∃ u ∈ s.applied, u.owner = z.1 :=
        fun z hz he => by
          rw [Option.mem_def, Option.some.injEq] at hz
          subst hz
          exact absurd he hthread
      rcases reply with _ | _ | _ | _ | _ <;> simp only [Thread.resume, hpc] <;>
        exact .idle rfl hne
  | surveying origin =>
      rcases reply with (_ | cell) | _ | _ | _ | _ <;> simp only [Thread.resume, hpc]
      · exact .step trivial rfl (.inl rfl)
      · split
        · split
          · exact ⟨trivial, fun o ho => (by cases ho), fun o ho => (by cases ho), by simp⟩
          · exact .idle rfl (by simp)
        · exact .idle rfl (by simp)
      all_goals exact .idle rfl (by simp)
  | holding lease =>
      rcases reply with _ | _ | _ | _ | _ <;> simp only [Thread.resume, hpc] <;>
        exact .idle rfl (by simp)
  | empowering origin =>
      rcases reply with _ | _ | (_ | _) | _ | _ <;> simp only [Thread.resume, hpc] <;>
        first
          | exact .idle rfl (by simp)
          | exact .step trivial rfl (.inl rfl)
  | electing value lease =>
      rcases reply with _ | (_ | _) | _ | _ | _ <;> simp only [Thread.resume, hpc] <;>
        exact .idle rfl (by simp)

end Dfsha.Etcd
