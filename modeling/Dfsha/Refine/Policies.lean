import Dfsha.Refine.Steps
import Dfsha.Refine.Frame

/-!
# What transactions do to policies

A file is given its policy when it is created, and nothing but `PromoteProtection` changes the
numbers of a policy afterwards.  The rest only settles it: a file without a policy gets its first
one, and the end of a promotion changes the state.

## Main definitions

* `Settled`, `Created` — what becomes of a policy outside `PromoteProtection`, and the first one.
* `Settles` — what every other transaction does to the policies.
* `Promoted` — what `PromoteProtection` does to them.
-/

namespace Dfsha

variable {app : App} {w v : World}

/-- A policy whose promotion may have ended. -/
structure Settled (p q : Policy) : Prop where
  r_eq : q.r = p.r
  w_eq : q.w = p.w
  revision_eq : q.revision = p.revision
  state : q.state = p.state ∨ p.state = .promoting

theorem Settled.refl (p : Policy) : Settled p p := ⟨rfl, rfl, rfl, .inl rfl⟩

theorem Settled.trans {p q s : Policy} (h : Settled p q) (h' : Settled q s) : Settled p s where
  r_eq := h'.r_eq.trans h.r_eq
  w_eq := h'.w_eq.trans h.w_eq
  revision_eq := h'.revision_eq.trans h.revision_eq
  state := by
    rcases h.state with he | hp
    · rcases h'.state with he' | hp'
      · exact .inl (he'.trans he)
      · exact .inr (he ▸ hp')
    · exact .inr hp

/-- The two levels of protection. -/
def Policy.Leveled (p : Policy) : Prop := p.r = 1 ∧ p.w = 1 ∨ p.r = 3 ∧ p.w = 2

/-- The policy that a file is created with. -/
structure Created (p : Policy) : Prop where
  leveled : p.Leveled
  revision : p.revision = 1
  state : p.state = .active

theorem Created.settled {p q : Policy} (h : Created p) (hs : Settled p q) : Created q where
  leveled := by
    rw [Policy.Leveled, hs.r_eq, hs.w_eq]
    exact h.leveled
  revision := hs.revision_eq.trans h.revision
  state := by
    rcases hs.state with he | hp
    · exact he.trans h.state
    · rw [h.state] at hp
      cases hp

/-- Policies that there were are settled at most, and new ones are those of new files. -/
def Settles (w v : World) : Prop :=
  w.cluster.policies.Grows Settled v.cluster.policies ∧
    ∀ q ∈ v.cluster.policies.all, w.cluster.policies.get q.id = none → Created q

namespace Settles

theorem of_eq (h : v.cluster.policies = w.cluster.policies) : Settles w v := by
  refine ⟨h ▸ .refl Settled.refl _, fun q hq hnone => ?_⟩
  have hget : w.cluster.policies.get q.id = some q := Table.get_of_mem (h ▸ hq)
  rw [hget] at hnone
  cases hnone

/-- A policy is written back, settled at most. -/
theorem put_old {p q : Policy} (hp : w.cluster.policies.get q.id = some p) (h : Settled p q)
    (hv : v.cluster.policies = w.cluster.policies.put q) : Settles w v := by
  constructor
  · rw [hv]
    exact .put_old Settled.refl hp h
  · intro x hx hnone
    rw [hv] at hx
    rcases Table.mem_put.mp hx with rfl | ⟨hx, -⟩
    · rw [hp] at hnone
      cases hnone
    · have hget : w.cluster.policies.get x.id = some x := Table.get_of_mem hx
      rw [hget] at hnone
      cases hnone

/-- A file is given its first policy. -/
theorem put_new {q : Policy} (hq : w.cluster.policies.get q.id = none) (h : Created q)
    (hv : v.cluster.policies = w.cluster.policies.put q) : Settles w v := by
  constructor
  · rw [hv]
    exact .put_new Settled.refl hq
  · intro x hx hnone
    rw [hv] at hx
    rcases Table.mem_put.mp hx with rfl | ⟨hx, -⟩
    · exact h
    · have hget : w.cluster.policies.get x.id = some x := Table.get_of_mem hx
      rw [hget] at hnone
      cases hnone

end Settles

instance : Steady Settles where
  refl _ := .of_eq rfl
  trans {u w v} h h' := by
    refine ⟨h.1.trans Settled.trans h'.1, fun q hq hnone => ?_⟩
    cases hget : w.cluster.policies.get q.id with
    | none => exact h'.2 q hq hget
    | some p =>
        have hpid : p.id = q.id := Table.key_of_get hget
        have hcreated := h.2 p (Table.mem_of_get hget) (hpid ▸ hnone)
        obtain ⟨q', hq', hs⟩ := h'.1 _ p hget
        obtain rfl : q' = q := Option.some.inj (hq'.symm.trans (Table.get_of_mem hq))
        exact hcreated.settled hs

instance : AllowsRest Settles := ⟨fun _ _ _ _ => .of_eq rfl⟩
instance : AllowsNodes Settles := ⟨fun _ _ => .of_eq rfl⟩
instance : AllowsSnapshots Settles := ⟨fun _ _ => .of_eq rfl⟩
instance : AllowsHandles Settles := ⟨fun _ _ _ => .of_eq rfl⟩
instance : AllowsRetired Settles := ⟨fun _ _ => .of_eq rfl⟩
instance : AllowsWork Settles := ⟨fun _ _ _ h => .of_eq h⟩
instance : AllowsCopies Settles := ⟨fun _ _ => .of_eq rfl⟩
instance : AllowsIdentity Settles := ⟨fun _ _ => .of_eq rfl⟩
instance : AllowsMemory Settles := ⟨fun _ _ _ _ => .of_eq rfl⟩
instance : AllowsLedger Settles := ⟨fun _ _ => .of_eq rfl⟩

/-- The default policy is one that a file may be created with. -/
theorem policyOf_none {c : Cluster} {file : Id} (h : c.policies.get file = none) :
    policyOf c file = ⟨file, 1, 1, 1, .active, 0⟩ := by
  rw [policyOf, h]
  rfl

theorem policyOf_some {c : Cluster} {file : Id} {p : Policy} (h : c.policies.get file = some p) :
    policyOf c file = p := by
  rw [policyOf, h]
  rfl

instance : AllowsCreation Settles := ⟨fun app file => ⟨fun w r h => by
  unfold createPolicy at h
  simp only [↓run_cluster] at h
  split at h
  · rw [Tx.pure_ok] at h
    exact h ▸ .of_eq rfl
  · rename_i hnone
    simp only [↓run_need] at h
    obtain ⟨hreplicas, h⟩ := h
    obtain ⟨_, s, hput, h⟩ := Tx.bind_ok.mp h
    rw [Tx.pure_ok] at h
    rw [putPolicy, onCluster_ok, Prod.mk.injEq] at hput
    refine .put_new (q := ⟨file, app.defaultReplicas, if app.defaultReplicas = 3 then 2 else 1, 1,
      .active, 0⟩) hnone ⟨?_, rfl, rfl⟩ (by rw [h, hput.2]; rfl)
    rcases hreplicas with he | he
    · exact .inl ⟨he, by simp [he]⟩
    · exact .inr ⟨he, by simp [he]⟩⟩⟩

/-- A policy that is created is recorded. -/
theorem policy_recorded {file : Id} {p : Policy} (h : (policy app file true) w = .ok (p, v)) :
    (v.cluster.policies.get file).isSome = true := by
  rw [policy, if_pos rfl, createPolicy] at h
  simp only [↓run_cluster] at h
  split at h
  · rename_i q hq
    rw [Tx.pure_ok, Prod.mk.injEq] at h
    rw [h.2, setAccess_cluster, hq]
    rfl
  · simp only [↓run_need] at h
    obtain ⟨_, s, hput, h⟩ := Tx.bind_ok.mp h.2
    rw [Tx.pure_ok, Prod.mk.injEq] at h
    rw [putPolicy, onCluster_ok, Prod.mk.injEq] at hput
    rw [h.2, hput.2]
    exact (congrArg Option.isSome (Table.get_put_self w.cluster.policies
      ⟨file, app.defaultReplicas, if app.defaultReplicas = 3 then 2 else 1, 1, .active, 0⟩)).trans rfl

/-- An operation on a new file gives it its policy. -/
theorem capturePolicy_recorded {op op' : Operation} (hb : op.base = none)
    (h : (capturePolicy app op) w = .ok (op', v)) :
    (v.cluster.policies.get op.file).isSome = true := by
  unfold capturePolicy at h
  obtain ⟨p, s, hp, h⟩ := Tx.bind_ok.mp h
  simp only [↓run_need, putUpload, run_onAccess, setAccess_access, setAccess_setAccess,
    Tx.pure_ok, Prod.mk.injEq] at h
  obtain ⟨-, -, rfl⟩ := h
  rw [hb] at hp
  have hrecorded : (s.cluster.policies.get op.file).isSome = true := policy_recorded hp
  exact hrecorded

/-- The end of a promotion settles its policy. -/
theorem settlePromotion_settles {wanted : List BlockRef} {p : Policy}
    (hp : w.cluster.policies.get p.id = some p)
    (h : (settlePromotion app wanted p) w = .ok ((), v)) :
    Settles w v ∧ ∃ q, v.cluster.policies.get p.id = some q ∧
      ∀ k, k ≠ p.id → v.cluster.policies.get k = w.cluster.policies.get k := by
  have hput : ∀ {q : Policy}, q.id = p.id → Settled p q →
      v.cluster.policies = w.cluster.policies.put q →
      Settles w v ∧ ∃ q, v.cluster.policies.get p.id = some q ∧
        ∀ k, k ≠ p.id → v.cluster.policies.get k = w.cluster.policies.get k := by
    intro q hid hs hv
    refine ⟨.put_old (hid ▸ hp) hs hv, q, ?_, fun k hk => ?_⟩
    · rw [hv, ← hid]
      exact Table.get_put_self _ q
    · rw [hv]
      exact Table.get_put_of_ne _ fun he => hk (he.trans hid)
  unfold settlePromotion at h
  simp only [↓run_world] at h
  split at h
  · rename_i hpromoting
    split at h
    · rw [putPolicy, onCluster_ok, Prod.mk.injEq] at h
      exact hput (q := { p with state := .active }) rfl ⟨rfl, rfl, rfl, .inr hpromoting⟩
        (by rw [h.2]; rfl)
    · split at h
      · rw [putPolicy, onCluster_ok, Prod.mk.injEq] at h
        exact hput (q := { p with state := .promotionBlocked }) rfl
          ⟨rfl, rfl, rfl, .inr hpromoting⟩ (by rw [h.2]; rfl)
      · rw [putPolicy, onCluster_ok, Prod.mk.injEq] at h
        exact hput rfl (.refl p) (by rw [h.2]; rfl)
  · rw [Tx.pure_ok, Prod.mk.injEq] at h
    rw [h.2]
    exact ⟨.of_eq rfl, p, hp, fun _ _ => rfl⟩

/-- `reconcile` ends promotions, and repairs. -/
theorem reconcile_settles {r : Unit × World} (h : (reconcile app) w = .ok r) : Settles w r.2 := by
  unfold reconcile at h
  simp only [↓run_access] at h
  obtain ⟨_, s, hrepair, h⟩ := Tx.bind_ok.mp h
  have hrepaired : Settles w s := by
    refine Steady.trans (.of_eq rfl)
      ((@Respects.each _ Settles _ _ _ fun ref => ?_).respects _ _ hrepair)
    refine .seq inferInstance fun a => ?_
    split <;> infer_instance
  simp only [↓run_cluster] at h
  refine (Tx.each_rows (fun x : World => x.cluster.policies) (P := fun _ _ => True)
    (I := fun x => Settles w x) s.cluster.policies.sorted ?_ ?_ ?_ h).1
  · intro p hp s' s'' hI hget hturn
    obtain ⟨hs, -, -, hothers⟩ := settlePromotion_settles hget hturn
    exact ⟨Steady.trans hI hs, trivial, hothers⟩
  · exact Steady.trans hrepaired (.of_eq rfl)
  · exact fun p hp => Table.get_of_mem hp

/-- The start of a control gives a policy to every file that has none. -/
theorem startReplicated_settles {r : Unit × World} (h : startReplicated w = .ok r) :
    Settles w r.2 := by
  have turn : ∀ node : Node, Respects Settles (do
      let c ← (liftM cluster : T Cluster)
      if node.kind = .file then putPolicy (policyOf c node.id) else pure () : T Unit) :=
    fun node => ⟨fun u r h => by
      simp only [↓run_cluster] at h
      split at h
      · rw [putPolicy, onCluster_ok] at h
        cases hget : u.cluster.policies.get node.id with
        | none =>
            rw [policyOf_none hget] at h
            exact .put_new (q := ⟨node.id, 1, 1, 1, .active, 0⟩) hget
              ⟨.inl ⟨rfl, rfl⟩, rfl, rfl⟩ (by rw [h]; rfl)
        | some p =>
            rw [policyOf_some hget] at h
            have hid : p.id = node.id := Table.key_of_get hget
            exact .put_old (hid ▸ hget) (.refl p) (by rw [h]; rfl)
      · rw [Tx.pure_ok] at h
        exact h ▸ .of_eq rfl⟩
  have hgen : Respects Settles
      (Tx.modify fun w => { w with maintenanceGeneration := w.generation } : T Unit) :=
    .modify fun w => AllowsMemory.memory w w.generation w.generation w.verifiedSeals
  have hall : Respects Settles startReplicated := by
    unfold startReplicated
    exact .seq hgen fun _ => .seq inferInstance fun a =>
      .seq (Respects.each a.nodes.all _) fun _ => inferInstance
  exact hall.respects w r h

instance : AllowsSettling Settles where
  reconcile _ := ⟨fun _ _ h => reconcile_settles h⟩
  start := ⟨fun _ _ h => startReplicated_settles h⟩

/-- Every command but `PromoteProtection` settles policies at most. -/
theorem execute_settles {user : User} {session : Session} {ctx : RequestContext} {cmd : Command}
    {r : Response × World} (hcmd : ∀ path revision, cmd ≠ .promoteProtection path revision)
    (h : (execute app user session ctx cmd) w = .ok r) : Settles w r.2 := by
  have hall : Respects Settles (execute app user session ctx cmd) := by
    unfold execute
    cases cmd with
    | promoteProtection path revision => exact absurd rfl (hcmd path revision)
    | _ => infer_instance
  exact hall.respects w r h

/-! ## Promotion -/

theorem policyOf_id {c : Cluster} {file : Id} : (policyOf c file).id = file := by
  cases h : c.policies.get file with
  | none => rw [policyOf_none h]
  | some p =>
      rw [policyOf_some h]
      exact Table.key_of_get h

/-- The policy of a file begins to be promoted, until `t` at the longest. -/
structure Promotes (w v : World) (file : Id) (t : Nat) : Prop where
  promotable : (policyOf w.cluster file).r ≠ 3 ∨
    (policyOf w.cluster file).state = .promotionBlocked
  node : ∃ n, w.access.nodes.get file = some n ∧ n.kind = .file
  policies : v.cluster.policies = w.cluster.policies.put
    ⟨file, 3, 2, (policyOf w.cluster file).revision + 1, .promoting, t⟩

/-- **What `PromoteProtection` does to policies.** -/
theorem promoteProtection_promotes {user : User} {ctx : RequestContext} {path : PathRef}
    {revision : Nat} {r : Response × World} (hs : Sound app w.access)
    (h : (promoteProtection app user ctx path revision) w = .ok r) :
    r.2.cluster.policies = w.cluster.policies ∨ ∃ file t, Promotes w r.2 file t := by
  unfold promoteProtection at h
  simp only [↓run_need, ↓run_cluster, run_query, setAccess_access, setAccess_setAccess,
    Access.later_later, Nat.reduceAdd] at h
  obtain ⟨-, node, hnode, hkind, -, h⟩ := h
  have hget : w.access.nodes.get node.id = some node := (resolve_ok (hs.advance 1) hnode).get
  split at h
  · rw [Tx.pure_ok] at h
    exact .inl (by rw [h]; rfl)
  · rename_i hpromotable
    simp only [↓run_now] at h
    obtain ⟨_, s, hput, h⟩ := Tx.bind_ok.mp h
    obtain ⟨_, s', habort, h⟩ := Tx.bind_ok.mp h
    rw [Tx.pure_ok] at h
    rw [putPolicy, onCluster_ok, Prod.mk.injEq] at hput
    have hkept : s'.cluster = s.cluster :=
      Leaves.leaves (inferInstance : Leaves World.cluster (abortOperations node.id)) _ _ habort
    have hpolicies : r.2.cluster.policies = w.cluster.policies.put
        ⟨node.id, 3, 2, (policyOf w.cluster node.id).revision + 1, .promoting,
          (w.setAccess (w.access.later 5)).access.now + 300000⟩ := by
      rw [h, hkept, hput.2, policyOf_id]
      rfl
    refine .inr ⟨node.id, _, ?_, ⟨node, hget, hkind⟩, hpolicies⟩
    by_cases hr : (policyOf w.cluster node.id).r = 3
    · exact .inr (by_contra fun hne => hpromotable ⟨hr, hne⟩)
    · exact .inl hr

end Dfsha
