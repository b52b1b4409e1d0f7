import Dfsha.Etcd.Reach

/-!
# Transactions over etcd are serializable

The root changes only by the final `Txn` of a transaction that read the root it replaces.  All
that the transaction does to leases happens with it, and happens once: a final `Txn` that is
carried out again fails, or finds nothing to do.

## Main results

* `serializable` — what one input does to the metadata, in every reachable state.
-/

namespace Dfsha.Etcd

open KeyValue (Ordered)

variable {s s' : System}

/-! ## A final `Txn` that is carried out again -/

/-- A final `Txn` that succeeds again does not change the root. -/
theorem Inv.same_view (h : Inv s) {u v : UnitOfWork} {p : Option Uuid} {store : Store}
    (hmem : Call.publish u p ∈ s.sent)
    (hc : s.store.commit (u.publication p) = some (true, store)) (hv : v ∈ s.applied)
    (ho : v.owner = u.owner) : u.root.map Stored.value = some (.root u.view) := by
  obtain ⟨q, hq⟩ := h.appliedSent v hv
  have hsame : v = u := h.unique v q u p hq hmem (by rw [ho])
  subst hsame
  refine (h.applied v hv).resolve_left fun hlt => ?_
  rw [← modified_of_holds (KeyValue.commit_true hc).1] at hlt
  exact Nat.lt_irrefl _ hlt

/-- A transaction that does not change the root does not change a lease. -/
theorem Inv.same_lease (h : Inv s) {u : UnitOfWork} {p : Option Uuid} (hu : Shape u)
    (hroot : u.root = s.root) (hv : u.root.map Stored.value = some (.root u.view))
    (k : LeaseKey) :
    (s.store.write (u.publication p).writes).held (.lease k) = s.store.held (.lease k) := by
  have hview : u.view = u.base := by
    obtain ⟨c, hc, hval⟩ := Option.map_eq_some_iff.mp hv
    obtain ⟨value, modified, lease⟩ := c
    subst hval
    rw [hu.base, hc]
    rfl
  have hput : ∀ {kind id o l}, u.effects.lookup (.record kind id) ≠ some (.put o l) :=
    fun he => hu.changes he hview
  cases hk : u.effects.lookup k with
  | none =>
      refine KeyValue.held_write_of_not_mem fun w hw he => ?_
      rcases mem_writes.mp hw with
        ⟨j, o, l, hj, rfl⟩ | ⟨j, hj, rfl⟩ | rfl | ⟨o, -, rfl⟩ | ⟨-, rfl⟩ | rfl
      · rw [Write.key, Key.lease.injEq] at he
        rw [he, hk] at hj
        cases hj
      · rw [Write.key, Key.lease.injEq] at he
        rw [he, hk] at hj
        cases hj
      all_goals cases he
  | some e =>
      cases k with
      | maintenance =>
          rw [hu.maintenance] at hk
          cases hk
      | record kind id =>
          -- The lease of no record can end: none of the records in question had one.
          have hnone : s.store.held (.lease (.record kind id)) = none := by
            by_contra hne
            obtain ⟨hl, hrec⟩ := h.recorded kind id (Option.isSome_iff_ne_none.mpr hne)
            rw [← hroot, ← hu.base] at hrec
            exact hu.neutral hview hk hl hrec
          rw [hnone]
          by_contra hne
          obtain ⟨cell, hcell⟩ := Option.ne_none_iff_exists'.mp hne
          rcases KeyValue.held_write_cases hcell with ⟨hold, -⟩ | ⟨lease, hmem, -⟩
          · rw [hnone] at hold
            cases hold
          · rcases mem_writes.mp hmem with
              ⟨j, o, l, hj, hw⟩ | ⟨j, -, hw⟩ | hw | ⟨o, -, hw⟩ | ⟨-, hw⟩ | hw
            · rw [Write.put.injEq, Key.lease.injEq] at hw
              rw [← hw.1] at hj
              exact hput hj
            · cases hw
            · rw [Write.put.injEq] at hw
              cases hw.1
            · cases hw
            · rw [Write.put.injEq] at hw
              cases hw.1
            · cases hw

/-! ## Everything else -/

/-- Other calls leave the leases of records alone. -/
theorem record_execute (a : Store) {call : Call} (hne : ∀ u p, call ≠ .publish u p) (kind : Kind)
    (id : Nat) :
    (call.execute a).2.held (.lease (.record kind id)) = a.held (.lease (.record kind id)) := by
  cases call with
  | grant lease =>
      simp only [Call.execute]
      split <;> rfl
  | acquire owner lease => exact held_executeTxn (by simp [Write.key])
  | release owner => exact held_executeTxn (by simp [Write.key])
  | elect value lease => exact held_executeTxn (by simp [Write.key])
  | publish u p => exact absurd rfl (hne u p)
  | _ => rfl

/-- What happens to threads alone leaves the store alone. -/
theorem store_perform {i : Input} (hi : s.perform i = some s') (hd : ∀ c, i ≠ .deliver c)
    (he : ∀ x, i ≠ .expire x) : s'.store = s.store ∧ s'.applied = s.applied := by
  cases i with
  | begin t b owned =>
      simp only [System.perform] at hi
      split at hi
      · exact Option.some.inj hi ▸ ⟨store_resumeThread .., applied_resumeThread ..⟩
      · exact Option.some.inj hi ▸ ⟨store_resumeThread .., applied_resumeThread ..⟩
      · cases hi
  | survey t =>
      simp only [System.perform] at hi
      split at hi
      · exact Option.some.inj hi ▸ ⟨store_resumeThread .., applied_resumeThread ..⟩
      · cases hi
  | deliver c => exact absurd rfl (hd c)
  | receive t i late =>
      simp only [System.perform] at hi
      split at hi
      · cases hi
      · split at hi
        · exact Option.some.inj hi ▸ ⟨store_resumeThread .., applied_resumeThread ..⟩
        · cases hi
      · cases hi
  | fault t reason =>
      simp only [System.perform] at hi
      split at hi
      · cases hi
      · exact Option.some.inj hi ▸ ⟨store_resumeThread .., applied_resumeThread ..⟩
  | expire lease => exact absurd rfl (he lease)

/-- A call other than a final `Txn` that succeeds leaves the metadata as they are. -/
theorem aside_deliver (h : Inv s) {call : Call}
    (hp : ∀ u p, call = .publish u p → (call.execute s.store).1 ≠ .txn true ∧
      (call.execute s.store).2 = s.store) :
    (call.execute s.store).2.held .root = s.store.held .root ∧ ∀ kind id,
      (call.execute s.store).2.held (.lease (.record kind id)) =
        s.store.held (.lease (.record kind id)) := by
  by_cases hpub : ∃ u p, call = .publish u p
  · obtain ⟨u, p, rfl⟩ := hpub
    rw [(hp u p rfl).2]
    exact ⟨rfl, fun _ _ => rfl⟩
  · have hne : ∀ u p, call ≠ .publish u p := fun u p he => hpub ⟨u, p, he⟩
    exact ⟨(aside_execute h.ordered hne).root, record_execute s.store hne⟩

/-! ## Serializability -/

/-- **Transactions are serializable.**  In every reachable state, an input is one of two.  Either
it carries out the final `Txn` of a transaction that read the root as it is: then the root becomes
the one that the transaction computed and all its effects take place at once, every lease that
it judged live has the owner it had, and if the transaction had been applied before nothing
happens to the root or to a lease.  Or the root stays as it is, and so do the leases of records
unless they end by themselves.  And a transaction that exits normally was applied. -/
theorem serializable (hs : Reachable s) {i : Input} (hi : s.perform i = some s') :
    ((∃ c u p, i = .deliver c ∧ s.sent[c]? = some (.publish u p) ∧
        u.root = s.root ∧ u.base = content s.root ∧ content s'.root = u.view ∧
        s'.applied = s.applied ++ [u] ∧ s'.store = s.store.write (u.publication p).writes ∧
        (∀ x ∈ u.judged, s.store.valueAt (.lease x.1) = some (.owner x.2)) ∧
        ((∃ v ∈ s.applied, v.owner = u.owner) → s'.root = s.root ∧
          ∀ k, s'.store.held (.lease k) = s.store.held (.lease k))) ∨
      (s'.root = s.root ∧ s'.applied = s.applied ∧ ∀ kind id,
        s'.store.held (.lease (.record kind id)) = s.store.held (.lease (.record kind id)) ∨
          ∃ x, i = .expire x ∧ s'.store = s.store.expire x)) ∧
    ∀ o, (o, Outcome.committed) ∈ s'.outcomes → ∃ u ∈ s'.applied, u.owner = o := by
  have h := hs.inv
  refine ⟨?_, fun o ho => (h.perform hi).outcomes (o, .committed) ho rfl⟩
  by_cases hd : ∃ c, i = .deliver c
  · obtain ⟨c, rfl⟩ := hd
    obtain ⟨call, hc, rfl⟩ := Option.map_eq_some_iff.mp hi
    rcases execute_cases s c call with ⟨u, p, store, rfl, hcommit, he⟩ | ⟨hp, he⟩
    · have hmem : Call.publish u p ∈ s.sent := List.mem_of_getElem? hc
      have hroot := publish_root h hmem hcommit
      obtain ⟨-, hu⟩ := h.published u p hmem
      have hholds := (KeyValue.commit_true hcommit).1
      rw [he]
      refine .inl ⟨c, u, p, rfl, hc, hroot, hu.base.trans (congrArg content hroot),
        content_write p hroot, rfl, rfl, fun x hx => guard_of_holds hholds (hu.judged x hx), ?_⟩
      rintro ⟨v, hv, ho⟩
      have hval := h.same_view hmem hcommit hv ho
      refine ⟨?_, h.same_lease hu hroot hval⟩
      exact (root_write u p s.store).trans (if_pos hval)
    · rw [he]
      obtain ⟨hroot, hrec⟩ := aside_deliver h hp
      exact .inr ⟨hroot, rfl, fun kind id => .inl (hrec kind id)⟩
  · by_cases hx : ∃ x, i = .expire x
    · obtain ⟨x, rfl⟩ := hx
      obtain rfl := Option.some.inj hi
      refine .inr ⟨?_, rfl, fun _ _ => .inr ⟨x, rfl, rfl⟩⟩
      refine KeyValue.held_expire_of_ne fun c hc => ?_
      rw [(h.rootCell c hc).2]
      simp
    · obtain ⟨hstore, happlied⟩ :=
        store_perform hi (fun c he => hd ⟨c, he⟩) (fun x he => hx ⟨x, he⟩)
      refine .inr ⟨congrArg (fun a : Store => a.held .root) hstore, happlied, fun kind id => .inl ?_⟩
      rw [hstore]

/-! ## A transaction that writes a lock -/

/-- What inputs lead to. -/
def System.after (is : List Input) : System := (System.run is .initial).getD .initial

theorem System.run_after {is : List Input} (h : (System.run is .initial).isSome = true) :
    System.run is .initial = some (.after is) := by
  unfold System.after
  cases hr : System.run is .initial with
  | none =>
      rw [hr] at h
      cases h
  | some s => rfl

theorem System.reachable_after {is : List Input} (h : (System.run is .initial).isSome = true) :
    Reachable (.after is) := ⟨is, System.run_after h⟩

/-- A call is carried out once, and its caller goes on. -/
def Input.exchange (t c : Nat) : List Input := [.deliver c, .receive t c false]

/-- A thread writes a lock; its final `Txn` is the seventh call. -/
def lockInputs : List Input :=
  .begin 0 (.put ⟨.lock, 7, 1, false, 30, none⟩ false .done) false ::
    (List.range 6).flatMap (Input.exchange 0)

theorem small_serializable : ∃ u, (System.after (lockInputs ++ [.deliver 6])).applied = [u] ∧
    u.root = (System.after lockInputs).root ∧
    content (System.after (lockInputs ++ [.deliver 6])).root = u.view := by
  have hs : Reachable (System.after lockInputs) := System.reachable_after (by decide +kernel)
  have hi : (System.after lockInputs).perform (.deliver 6) =
      some (.after (lockInputs ++ [.deliver 6])) := by
    rfl
  have hnone : (System.after lockInputs).applied = [] := by decide +kernel
  rcases (serializable hs hi).1 with ⟨c, u, p, -, -, hroot, -, hview, happlied, -⟩ | ⟨-, happlied, -⟩
  · exact ⟨u, by rw [happlied, hnone]; rfl, hroot, hview⟩
  · have hlen : (System.after (lockInputs ++ [.deliver 6])).applied.length = 1 := by decide +kernel
    rw [happlied, hnone] at hlen
    cases hlen

end Dfsha.Etcd
