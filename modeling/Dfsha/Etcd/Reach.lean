import Dfsha.Etcd.Invariant

/-!
# The invariant holds

Each input keeps the invariant: a thread goes on or begins, a call is carried out, a lease ends.
Of all calls only the final `Txn` of a transaction changes the root or the lease of a record.

## Main results

* `publish_root` — a final `Txn` succeeds on the root that its transaction read.
* `Reachable.inv` — the invariant holds in every reachable state.
-/

namespace Dfsha.Etcd

open KeyValue (Ordered)

variable {s s' : System}

/-! ## Threads -/

@[simp] theorem started_resumeThread (s : System) (t : Nat) (x : Thread) :
    (s.resumeThread t x).started = s.started := by
  unfold System.resumeThread
  split <;> rfl

@[simp] theorem outcomes_resumeThread (s : System) (t : Nat) (x : Thread) :
    (s.resumeThread t x).outcomes = s.outcomes := by
  unfold System.resumeThread
  split <;> rfl

@[simp] theorem applied_resumeThread (s : System) (t : Nat) (x : Thread) :
    (s.resumeThread t x).applied = s.applied := by
  unfold System.resumeThread
  split <;> rfl

@[simp] theorem store_resumeThread (s : System) (t : Nat) (x : Thread) :
    (s.resumeThread t x).store = s.store := by
  unfold System.resumeThread
  split <;> rfl

/-- A thread goes on, and its transaction may have ended. -/
theorem Inv.resolve (h : Inv s) {t : Nat} {x : Thread × Option (Uuid × Outcome)}
    (hx : Goes s (s.threads t).pc x) : Inv (s.resolve t x) := by
  have hthread : Inv (s.resumeThread t x.1) := by
    have hnew := h.thread (t := t) (n := s.started) (Nat.le_refl _) hx.pc
      (fun o ho => ⟨h.started t o (hx.origin o ho), fun t' hne ho' =>
        hne (h.distinct t' t o ho' (hx.origin o ho))⟩)
      (fun o ho => h.unpublished t o (hx.pending o ho))
    have he : { s.resumeThread t x.1 with started := s.started } = s.resumeThread t x.1 := by
      rw [← started_resumeThread s t x.1]
    exact he ▸ hnew
  exact
    { hthread with
      outcomes := fun y hy he => by
        rcases List.mem_append.mp hy with hy | hy
        · exact hthread.outcomes y hy he
        · obtain ⟨u, hu, ho⟩ := hx.outcome y (by simpa using hy) he
          exact ⟨u, (Later.resumeThread s t x.1).applied u hu, ho⟩ }

/-- A thread begins something under a new identifier. -/
theorem Inv.begins (h : Inv s) {t : Nat} {x : Thread} (hpc : PcOk s x.pc)
    (ho : ∀ o, x.pc.origin = some o → o = s.started) :
    Inv { s.resumeThread t x with started := s.started + 1 } := by
  refine h.thread (Nat.le_succ _) hpc (fun o hx => ?_) (fun o hx hp => ?_)
  · rw [ho o hx]
    exact ⟨Nat.lt_succ_self _, fun t' _ ht' => Nat.lt_irrefl _ (h.started t' _ ht')⟩
  · rw [ho o (Pc.origin_of_pending hx)] at hp
    exact Nat.lt_irrefl _ (h.publishedStarted _ hp)

theorem Inv.beginTransaction (h : Inv s) (t : Nat) (b : Body) (required : Option Uuid) :
    Inv (s.beginTransaction t b required) := by
  unfold System.beginTransaction
  refine h.begins ?_ ?_
  · cases (s.threads t).gateLease <;> exact trivial
  · cases (s.threads t).gateLease <;> simp [Pc.origin, eq_comm]

/-! ## Calls that leave the metadata alone -/

/-- A transaction that writes one key leaves the others alone. -/
theorem held_executeTxn {a : Store} {c : Compare Key Value} {w : Write Key Value Uuid} {k : Key}
    (hk : w.key ≠ k) : (executeTxn a ⟨[c], [w]⟩).2.held k = a.held k := by
  unfold executeTxn
  cases hc : a.commit ⟨[c], [w]⟩ with
  | none => rfl
  | some x =>
      obtain ⟨b, a'⟩ := x
      cases b with
      | false =>
          obtain ⟨-, rfl⟩ := KeyValue.commit_false hc
          rfl
      | true =>
          obtain ⟨-, -, rfl⟩ := KeyValue.commit_true hc
          refine KeyValue.held_write_of_not_mem fun x hx => ?_
          rw [List.mem_singleton] at hx
          rwa [hx]

theorem ordered_executeTxn {a : Store} (h : Ordered a) {t : Txn Key Value Uuid} :
    Ordered (executeTxn a t).2 := by
  unfold executeTxn
  cases hc : a.commit t with
  | none => exact h
  | some x =>
      obtain ⟨b, a'⟩ := x
      cases b with
      | false =>
          obtain ⟨-, rfl⟩ := KeyValue.commit_false hc
          exact h
      | true =>
          obtain ⟨-, hallowed, rfl⟩ := KeyValue.commit_true hc
          exact h.write hallowed

/-- What a store keeps when the metadata stay as they are. -/
structure Aside (a b : Store) : Prop where
  ordered : Ordered b
  root : b.held .root = a.held .root
  record : ∀ kind id, (b.held (.lease (.record kind id))).isSome = true →
    (a.held (.lease (.record kind id))).isSome = true
  marker : ∀ o, (b.held (.marker o)).isSome = true → (a.held (.marker o)).isSome = true

namespace Aside

theorem refl {a : Store} (h : Ordered a) : Aside a a := ⟨h, rfl, fun _ _ h => h, fun _ h => h⟩

/-- Leases are granted. -/
theorem grant {a : Store} (h : Ordered a) (x : Uuid) : Aside a (a.grant x) :=
  ⟨h.grant x, rfl, fun _ _ h => h, fun _ h => h⟩

/-- A transaction writes one key, of no record. -/
theorem executeTxn {a : Store} (h : Ordered a) {c : Compare Key Value} {w : Write Key Value Uuid}
    (hw : w.key = .gate ∨ w.key = .lease .maintenance) :
    Aside a (executeTxn a ⟨[c], [w]⟩).2 := by
  have hne : ∀ {k : Key}, k ≠ .gate → k ≠ .lease .maintenance →
      (Etcd.executeTxn a ⟨[c], [w]⟩).2.held k = a.held k := fun h1 h2 => by
    refine held_executeTxn fun he => ?_
    rcases hw with hw | hw
    · exact h1 (he.symm.trans hw)
    · exact h2 (he.symm.trans hw)
  exact ⟨ordered_executeTxn h, hne (by simp) (by simp),
    fun kind id hs => (hne (k := .lease (.record kind id)) (by simp) (by simp)) ▸ hs,
    fun o hs => (hne (k := .marker o) (by simp) (by simp)) ▸ hs⟩

/-- A lease ends that the root is not bound to. -/
theorem expire {a : Store} (h : Ordered a) (hroot : ∀ c, a.held .root = some c → c.lease = none)
    (x : Uuid) : Aside a (a.expire x) := by
  have hsome : ∀ {k : Key}, ((a.expire x).held k).isSome = true → (a.held k).isSome = true :=
    fun hk => by
      obtain ⟨c, hc⟩ := Option.isSome_iff_exists.mp hk
      rw [(KeyValue.held_expire hc).1]
      rfl
  refine ⟨h.expire x, KeyValue.held_expire_of_ne fun c hc => ?_, fun _ _ => hsome, fun _ => hsome⟩
  rw [hroot c hc]
  simp

end Aside

theorem Later.aside {store : Store} (h : Aside s.store store) :
    Later s { s with store := store } where
  sent := List.prefix_rfl
  applied _ hu := hu
  seen x hx := by
    unfold System.Seen System.root KeyValue.modifiedAt at hx ⊢
    simp only [h.root]
    exact hx

/-- The store changes, and the metadata stay as they are. -/
theorem Inv.aside (h : Inv s) {store : Store} (ha : Aside s.store store) :
    Inv { s with store := store } := by
  have hlater := Later.aside ha
  have hroot : ({ s with store := store } : System).root = s.root := ha.root
  have hmodified : store.modifiedAt .root = s.store.modifiedAt .root := by
    unfold KeyValue.modifiedAt
    rw [ha.root]
  exact
    { h with
      ordered := ha.ordered
      rootCell := hroot ▸ h.rootCell
      rootOwners := hroot ▸ hlater.owners h.rootOwners
      recorded := fun kind id hs => hroot ▸ h.recorded kind id (ha.record kind id hs)
      markers := fun o hs => h.markers o (ha.marker o hs)
      replies := fun x hx => by
        obtain ⟨c, hc, hr⟩ := h.replies x hx
        exact ⟨c, hc, hlater.replyOk hr⟩
      threads := fun t => hlater.pcOk (h.threads t)
      published := fun u p hu => (h.published u p hu).imp_left (hlater.seen _)
      applied := fun u hu => by
        simp only [hmodified]
        exact h.applied u hu }

/-- A reply is given. -/
theorem Inv.reply (h : Inv s) {c : Nat} {call : Call} {r : Reply} (hc : s.sent[c]? = some call)
    (hr : ReplyOk s call r) : Inv { s with replies := s.replies ++ [(c, r)] } :=
  { h with
    replies := fun x hx => by
      rcases List.mem_append.mp hx with hx | hx
      · exact h.replies x hx
      · rw [List.mem_singleton] at hx
        exact ⟨call, by rw [hx]; exact hc, by rw [hx]; exact hr⟩ }

/-! ## The final `Txn` -/

theorem mem_entries {β : LeaseKey → Type} {a : AList β} {k : LeaseKey} {x : β k} :
    (⟨k, x⟩ : Sigma β) ∈ a.entries ↔ a.lookup k = some x := by
  rw [← AList.mem_lookup_iff, Option.mem_def]

/-- What the final `Txn` writes. -/
theorem mem_writes {u : UnitOfWork} {p : Option Uuid} {w : Write Key Value Uuid} :
    w ∈ (u.publication p).writes ↔
      (∃ k o l, u.effects.lookup k = some (.put o l) ∧ w = .put (.lease k) (.owner o) (some l)) ∨
      (∃ k, u.effects.lookup k = some .delete ∧ w = .delete (.lease k)) ∨
      w = .put (.marker u.owner) (.root u.view) (some u.lease) ∨
      (∃ o ∈ p, w = .delete (.marker o)) ∨
      (u.root.map Stored.value ≠ some (.root u.view) ∧ w = .put .root (.root u.view) none) ∨
      w = .delete .gate := by
  unfold UnitOfWork.publication
  simp only [List.mem_append, List.mem_map, List.mem_singleton, Option.mem_toList, or_assoc]
  constructor
  · rintro (⟨⟨k, e⟩, hmem, rfl⟩ | hw)
    · cases e with
      | put o l => exact .inl ⟨k, o, l, mem_entries.mp hmem, rfl⟩
      | delete => exact .inr (.inl ⟨k, mem_entries.mp hmem, rfl⟩)
    · rcases hw with rfl | ⟨o, ho, rfl⟩ | hw | rfl
      · simp
      · simp [ho]
      · split at hw
        · cases hw
        · rename_i hne
          rw [List.mem_singleton] at hw
          simp [hw, hne]
      · simp
  · rintro (⟨k, o, l, he, rfl⟩ | ⟨k, he, rfl⟩ | rfl | ⟨o, ho, rfl⟩ | ⟨hne, rfl⟩ | rfl)
    · exact .inl ⟨⟨k, .put o l⟩, mem_entries.mpr he, rfl⟩
    · exact .inl ⟨⟨k, .delete⟩, mem_entries.mpr he, rfl⟩
    · simp
    · exact .inr (.inr (.inl ⟨o, ho, rfl⟩))
    · exact .inr (.inr (.inr (.inl (by simp [hne]))))
    · simp

/-- A root that was read and that is compared with success is the root. -/
theorem System.Seen.eq_root {x : Option Cell} (h : s.Seen x)
    (hc : s.store.modifiedAt .root = x.elim 0 Stored.modified) : x = s.root := by
  rcases h with h | h
  · exact h
  · rw [hc] at h
    exact absurd h (Nat.lt_irrefl _)

/-- The final `Txn` compares the root with the one that the transaction read. -/
theorem modified_of_holds {u : UnitOfWork} {p : Option Uuid}
    (h : ∀ c ∈ (u.publication p).compares, s.store.holds c) :
    s.store.modifiedAt .root = u.root.elim 0 Stored.modified :=
  h (.modified .root _) (by simp [UnitOfWork.publication])

/-- It compares the owner of each lease that the transaction guards. -/
theorem guard_of_holds {u : UnitOfWork} {p : Option Uuid}
    (h : ∀ c ∈ (u.publication p).compares, s.store.holds c) {k : LeaseKey} {o : Uuid}
    (hg : u.guards.lookup k = some o) : s.store.valueAt (.lease k) = some (.owner o) :=
  h (.value (.lease k) (.owner o)) (by
    refine List.mem_append_right _ (List.mem_map.mpr ⟨⟨k, o⟩, mem_entries.mpr hg, rfl⟩))

/-- **A final `Txn` succeeds on the root that its transaction read.** -/
theorem publish_root (h : Inv s) {u : UnitOfWork} {p : Option Uuid} {store : Store}
    (hmem : Call.publish u p ∈ s.sent)
    (hc : s.store.commit (u.publication p) = some (true, store)) : u.root = s.root :=
  (h.published u p hmem).1.eq_root (modified_of_holds (KeyValue.commit_true hc).1)

/-- The root after a final `Txn` has succeeded. -/
theorem root_write (u : UnitOfWork) (p : Option Uuid) (a : Store) :
    (a.write (u.publication p).writes).held .root =
      if u.root.map Stored.value = some (.root u.view) then a.held .root
      else some ⟨.root u.view, a.revision + 1, none⟩ := by
  by_cases hv : u.root.map Stored.value = some (.root u.view)
  · rw [if_pos hv]
    refine KeyValue.held_write_of_not_mem fun w hw he => ?_
    rcases mem_writes.mp hw with ⟨k, o, l, -, rfl⟩ | ⟨k, -, rfl⟩ | rfl | ⟨o, -, rfl⟩ | ⟨hne, rfl⟩ | rfl
    · cases he
    · cases he
    · cases he
    · cases he
    · exact hne hv
    · cases he
  · rw [if_neg hv]
    have hone : ∀ w ∈ (u.publication p).writes, w.key = .root →
        w = .put .root (.root u.view) none := fun w hw he => by
      rcases mem_writes.mp hw with
        ⟨k, o, l, -, rfl⟩ | ⟨k, -, rfl⟩ | rfl | ⟨o, -, rfl⟩ | ⟨-, rfl⟩ | rfl
      · cases he
      · cases he
      · cases he
      · cases he
      · rfl
      · cases he
    exact KeyValue.held_write_of_mem (w := .put .root (.root u.view) none)
      (mem_writes.mpr (by simp [hv])) hone

/-- The metadata after a final `Txn` has succeeded are those of its transaction. -/
theorem content_write {u : UnitOfWork} (p : Option Uuid) (hroot : u.root = s.root) :
    content ((s.store.write (u.publication p).writes).held .root) = u.view := by
  rw [root_write]
  split
  · rename_i hv
    obtain ⟨c, hc, hval⟩ := Option.map_eq_some_iff.mp hv
    have hs : s.store.held .root = some c := hroot.symm.trans hc
    obtain ⟨value, modified, lease⟩ := c
    rw [hs]
    subst hval
    rfl
  · rfl

/-- When the root was last written, after a final `Txn` has succeeded. -/
theorem modifiedAt_write (u : UnitOfWork) (p : Option Uuid) (a : Store) :
    (a.write (u.publication p).writes).modifiedAt .root =
      if u.root.map Stored.value = some (.root u.view) then a.modifiedAt .root
      else a.revision + 1 := by
  unfold KeyValue.modifiedAt
  rw [root_write]
  split <;> rfl

theorem modifiedAt_le_write (h : Ordered s.store) (u : UnitOfWork) (p : Option Uuid) :
    s.store.modifiedAt .root ≤ (s.store.write (u.publication p).writes).modifiedAt .root := by
  rw [modifiedAt_write]
  split
  · exact Nat.le_refl _
  · exact Nat.le_succ_of_le (h.modifiedAt_le _)

/-- What a final `Txn` makes of the system, its reply aside. -/
def System.publish (s : System) (u : UnitOfWork) (p : Option Uuid) : System :=
  { s with
    store := s.store.write (u.publication p).writes,
    applied := s.applied ++ [u] }

theorem Later.publish (h : Inv s) (u : UnitOfWork) (p : Option Uuid) :
    Later s (s.publish u p) where
  sent := List.prefix_rfl
  applied _ hu := List.mem_append_left _ hu
  seen x hx := by
    have hle := modifiedAt_le_write h.ordered u p
    rcases hx with rfl | hlt
    · by_cases hv : u.root.map Stored.value = some (.root u.view)
      · refine .inl ?_
        unfold System.root System.publish
        rw [root_write, if_pos hv]
      · refine .inr ?_
        unfold System.publish
        rw [modifiedAt_write, if_neg hv]
        exact Nat.lt_succ_of_le (h.ordered.modifiedAt_le .root)
    · exact .inr (Nat.lt_of_lt_of_le hlt hle)

/-- **A final `Txn` keeps the invariant.** -/
theorem Inv.publish (h : Inv s) {u : UnitOfWork} {p : Option Uuid} {store : Store}
    (hmem : Call.publish u p ∈ s.sent)
    (hc : s.store.commit (u.publication p) = some (true, store)) : Inv (s.publish u p) := by
  have hroot := publish_root h hmem hc
  obtain ⟨hholds, hallowed, -⟩ := KeyValue.commit_true hc
  obtain ⟨-, hshape⟩ := h.published u p hmem
  have hlater := Later.publish h u p
  have hcontent : content (s.publish u p).root = u.view := content_write p hroot
  have hbase : u.base = content s.root := hshape.base.trans (congrArg content hroot)
  exact
    { h with
      ordered := h.ordered.write hallowed
      rootCell := fun c hcell => by
        rw [hcontent]
        have hcell' : (s.store.write (u.publication p).writes).held .root = some c := hcell
        rw [root_write] at hcell'
        split at hcell'
        · rename_i hv
          obtain ⟨hval, hlease⟩ := h.rootCell c hcell'
          rw [hroot, System.root, hcell', Option.map_some, Option.some.injEq] at hv
          exact ⟨hv, hlease⟩
        · rw [Option.some.injEq] at hcell'
          subst hcell'
          exact ⟨rfl, rfl⟩
      rootOwners := by
        rw [hcontent]
        intro r hr hl l hlr
        rcases hshape.owners r hr hl l hlr with ho | ⟨x, hx, hxl, hxlease⟩
        · exact ⟨u, p, hmem, ho.symm⟩
        · rw [hbase] at hx
          exact hlater.published (h.rootOwners x hx hxl l hxlease)
      recorded := fun kind id hs => by
        rw [hcontent]
        obtain ⟨cell, hcell⟩ := Option.isSome_iff_exists.mp hs
        rcases KeyValue.held_write_cases hcell with ⟨hold, hnot⟩ | ⟨lease, hput, -⟩
        · -- It was held before, and it was not ended: its record is still there.
          obtain ⟨hl, hrec⟩ := h.recorded kind id (by rw [hold]; rfl)
          rw [← hbase] at hrec
          refine ⟨hl, (hshape.keeps kind id hl hrec).resolve_right fun he => ?_⟩
          exact hnot (.delete (.lease (.record kind id)))
            (mem_writes.mpr (.inr (.inl ⟨_, he, rfl⟩))) rfl
        · rcases mem_writes.mp hput with
            ⟨k, o, l, he, hw⟩ | ⟨k, -, hw⟩ | hw | ⟨o, -, hw⟩ | ⟨-, hw⟩ | hw
          · rw [Write.put.injEq, Key.lease.injEq] at hw
            rw [← hw.1] at he
            obtain ⟨hl, -, r, hr, hrl⟩ := hshape.puts kind id o l he
            exact ⟨hl, r, hr, by rw [hrl]; rfl⟩
          · cases hw
          · rw [Write.put.injEq] at hw
            cases hw.1
          · cases hw
          · rw [Write.put.injEq] at hw
            cases hw.1
          · cases hw
      markers := fun o hs => by
        obtain ⟨cell, hcell⟩ := Option.isSome_iff_exists.mp hs
        rcases KeyValue.held_write_cases hcell with ⟨hold, -⟩ | ⟨lease, hput, -⟩
        · obtain ⟨x, hx, ho⟩ := h.markers o (by rw [hold]; rfl)
          exact ⟨x, hlater.applied x hx, ho⟩
        · rcases mem_writes.mp hput with
            ⟨k, _, l, -, hw⟩ | ⟨k, -, hw⟩ | hw | ⟨o, -, hw⟩ | ⟨-, hw⟩ | hw
          · rw [Write.put.injEq] at hw
            cases hw.1
          · cases hw
          · rw [Write.put.injEq, Key.marker.injEq] at hw
            exact ⟨u, List.mem_append_right _ (List.mem_singleton_self u), hw.1.symm⟩
          · cases hw
          · rw [Write.put.injEq] at hw
            cases hw.1
          · cases hw
      replies := fun x hx => by
        obtain ⟨c, hcx, hr⟩ := h.replies x hx
        exact ⟨c, hcx, hlater.replyOk hr⟩
      threads := fun t => hlater.pcOk (h.threads t)
      published := fun v q hv => (h.published v q hv).imp_left (hlater.seen _)
      appliedSent := fun v hv => by
        rcases List.mem_append.mp hv with hv | hv
        · exact h.appliedSent v hv
        · rw [List.mem_singleton] at hv
          exact ⟨p, hv ▸ hmem⟩
      applied := fun v hv => by
        rcases List.mem_append.mp hv with hv | hv
        · exact (h.applied v hv).imp_left fun hlt =>
            Nat.lt_of_lt_of_le hlt (modifiedAt_le_write h.ordered u p)
        · rw [List.mem_singleton] at hv
          subst hv
          by_cases hval : v.root.map Stored.value = some (.root v.view)
          · exact .inr hval
          · refine .inl ?_
            unfold System.publish
            rw [modifiedAt_write, if_neg hval, hroot]
            exact Nat.lt_succ_of_le (h.ordered.modifiedAt_le .root)
      outcomes := fun x hx he => by
        obtain ⟨v, hv, ho⟩ := h.outcomes x hx he
        exact ⟨v, hlater.applied v hv, ho⟩ }

/-! ## Every call -/

/-- What a call other than a final `Txn` leaves alone. -/
theorem aside_execute (h : Ordered s.store) {call : Call} (hne : ∀ u p, call ≠ .publish u p) :
    Aside s.store (call.execute s.store).2 := by
  cases call with
  | range k => exact .refl h
  | grant lease =>
      simp only [Call.execute]
      by_cases hl : lease ∈ s.store.leases
      · rw [if_pos hl]
        exact .refl h
      · rw [if_neg hl]
        exact .grant h lease
  | keepalive lease => exact .refl h
  | acquire owner lease => exact .executeTxn h (.inl rfl)
  | persist => exact .refl h
  | publish u p => exact absurd rfl (hne u p)
  | release owner => exact .executeTxn h (.inl rfl)
  | elect value lease => exact .executeTxn h (.inr rfl)

/-- What a reply to a call other than a final `Txn` says is true. -/
theorem replyOk_execute (h : Inv s) {call : Call} (hne : ∀ u p, call ≠ .publish u p) :
    ReplyOk s call (call.execute s.store).1 := by
  cases call with
  | range k =>
      cases k with
      | root => exact ⟨.inl rfl, h.rootOwners⟩
      | marker o =>
          simp only [Call.execute]
          cases hm : s.store.held (.marker o) with
          | none => exact trivial
          | some cell => exact h.markers o (by rw [hm]; rfl)
      | gate => exact trivial
      | lease key => exact trivial
  | publish u p => exact absurd rfl (hne u p)
  | _ => exact trivial

/-- What a call that was sent does to the system: it is a final `Txn` that succeeds, or the
metadata stay as they are. -/
theorem execute_cases (s : System) (c : Nat) (call : Call) :
    (∃ u p store, call = .publish u p ∧ s.store.commit (u.publication p) = some (true, store) ∧
      s.execute c call =
        { s.publish u p with replies := s.replies ++ [(c, .txn true)] }) ∨
    ((∀ u p, call = .publish u p → (call.execute s.store).1 ≠ .txn true ∧
        (call.execute s.store).2 = s.store) ∧
      s.execute c call =
        { s with
          store := (call.execute s.store).2,
          replies := s.replies ++ [(c, (call.execute s.store).1)] }) := by
  by_cases hp : ∃ u p, call = .publish u p
  · obtain ⟨u, p, rfl⟩ := hp
    cases hc : s.store.commit (u.publication p) with
    | none =>
        refine .inr ⟨fun _ _ _ => ?_, ?_⟩
        · simp [Call.execute, executeTxn, hc]
        · simp [System.execute, Call.execute, executeTxn, hc]
    | some x =>
        obtain ⟨b, store⟩ := x
        cases b with
        | false =>
            obtain ⟨-, rfl⟩ := KeyValue.commit_false hc
            refine .inr ⟨fun _ _ _ => ?_, ?_⟩
            · simp [Call.execute, executeTxn, hc]
            · simp [System.execute, Call.execute, executeTxn, hc]
        | true =>
            obtain ⟨-, -, hstore⟩ := KeyValue.commit_true hc
            refine .inl ⟨u, p, store, rfl, hc, ?_⟩
            simp [System.execute, Call.execute, executeTxn, hc, System.publish, hstore]
  · refine .inr ⟨fun u p he => absurd ⟨u, p, he⟩ hp, ?_⟩
    cases call with
    | publish u p => exact absurd ⟨u, p, rfl⟩ hp
    | _ => rfl

/-- **A call that is carried out keeps the invariant.** -/
theorem Inv.execute (h : Inv s) {c : Nat} {call : Call} (hc : s.sent[c]? = some call) :
    Inv (s.execute c call) := by
  have hmem : call ∈ s.sent := List.mem_of_getElem? hc
  rcases execute_cases s c call with ⟨u, p, store, rfl, hcommit, he⟩ | ⟨hpub, he⟩
  · rw [he]
    have hnew : Inv (s.publish u p) := h.publish hmem hcommit
    have hok : ReplyOk (s.publish u p) (.publish u p) (.txn true) :=
      List.mem_append_right _ (List.mem_singleton_self u)
    exact hnew.reply hc hok
  · rw [he]
    by_cases hp : ∃ u p, call = .publish u p
    · obtain ⟨u, p, rfl⟩ := hp
      obtain ⟨hne, hstore⟩ := hpub u p rfl
      rw [hstore]
      refine h.reply hc ?_
      unfold ReplyOk
      split
      · rename_i heq _
        cases heq
      · rename_i heq _
        cases heq
      · rename_i hr
        exact absurd hr hne
      · exact trivial
    · have hne : ∀ u p, call ≠ .publish u p := fun u p heq => hp ⟨u, p, heq⟩
      have haside := aside_execute h.ordered hne
      exact (h.aside haside).reply hc ((Later.aside haside).replyOk (replyOk_execute h hne))

/-! ## Every input -/

theorem Inv.receive (h : Inv s) {t i c : Nat} {reply : Reply} (late : Bool)
    (hi : s.replies[i]? = some (c, reply)) (hc : c = (s.threads t).call)
    (hpc : (s.threads t).pc ≠ .idle) : Inv (s.resolve t ((s.threads t).resume late reply)) := by
  obtain ⟨call, hsent, hr⟩ := h.replies (c, reply) (List.mem_of_getElem? hi)
  have hcall : ∃ d, (s.threads t).pc.call (s.threads t).previousMarker = some d := by
    cases hp : (s.threads t).pc with
    | idle => exact absurd hp hpc
    | _ => exact ⟨_, rfl⟩
  obtain ⟨d, hd⟩ := hcall
  have hsame : some call = some d := by
    rw [← hsent, ← h.calls t d hd, hc]
  rw [Option.some.injEq] at hsame
  subst hsame
  exact h.resolve (Thread.resume_goes h late hd hr)

/-- **Every input keeps the invariant.** -/
theorem Inv.perform (h : Inv s) {i : Input} (hi : s.perform i = some s') : Inv s' := by
  cases i with
  | begin t b owned =>
      simp only [System.perform] at hi
      split at hi
      · exact Option.some.inj hi ▸ h.beginTransaction t b none
      · exact Option.some.inj hi ▸ h.beginTransaction t b _
      · cases hi
  | survey t =>
      simp only [System.perform] at hi
      split at hi
      · refine Option.some.inj hi ▸ h.begins trivial fun o ho => ?_
        simpa [Pc.origin, eq_comm] using ho
      · cases hi
  | deliver c =>
      obtain ⟨call, hc, rfl⟩ := Option.map_eq_some_iff.mp hi
      exact h.execute hc
  | receive t i late =>
      simp only [System.perform] at hi
      split at hi
      · cases hi
      · rename_i c reply hreply hpc
        split at hi
        · rename_i hcall
          exact Option.some.inj hi ▸ h.receive late hreply hcall hpc
        · cases hi
      · cases hi
  | fault t reason =>
      simp only [System.perform] at hi
      split at hi
      · cases hi
      · exact Option.some.inj hi ▸ h.resolve (Thread.fault_goes h t reason)
  | expire lease =>
      refine Option.some.inj hi ▸ h.aside (.expire h.ordered (fun c hc => ?_) lease)
      exact (h.rootCell c hc).2

theorem Inv.initial : Inv .initial where
  ordered := ⟨fun _ _ h => (by cases h), fun _ _ h => (by cases h), fun _ _ _ h => (by cases h)⟩
  rootCell _ h := by cases h
  rootOwners r hr := by
    have : (content System.initial.root).all = [] := rfl
    rw [this] at hr
    cases hr
  recorded _ _ h := by cases h
  markers _ h := by cases h
  calls _ _ h := by cases h
  replies _ h := by cases h
  started _ _ h := by cases h
  distinct _ _ _ h := by cases h
  unpublished _ _ h := by cases h
  publishedStarted o h := by
    obtain ⟨_, _, hmem, _⟩ := h
    cases hmem
  threads _ := trivial
  published _ _ h := by cases h
  unique _ _ _ _ h := by cases h
  appliedSent _ h := by cases h
  applied _ h := by cases h
  outcomes _ h := by cases h

theorem run_inv {is : List Input} (h : Inv s) (hr : System.run is s = some s') : Inv s' := by
  induction is generalizing s with
  | nil => exact Option.some.inj hr ▸ h
  | cons i is ih =>
      obtain ⟨x, hx, hrest⟩ := Option.bind_eq_some_iff.mp hr
      exact ih (h.perform hx) hrest

/-- **The invariant holds in every reachable state.** -/
theorem Reachable.inv (h : Reachable s) : Inv s := by
  obtain ⟨is, his⟩ := h
  exact run_inv .initial his

end Dfsha.Etcd
