import Dfsha.Refine.Policies
import Dfsha.Safety.Tree

/-!
# The promotion barrier

While the protection of a file is promoted nothing is published of it, and what began under an
older revision of its policy never commits.  The barrier is tested in each command that
publishes; that the tests are enough is shown by leaving the publications of one file, or the
commit of one operation, out of what the actions of a step may be.

## Main definitions

* `Governed` — every file has a policy, of one of the two levels.
* `Barrier` — what a step may do to a policy and to the file under it.

## Main results

* `promotion_barrier` — the barrier holds in every run of a replicated control.
-/

namespace Dfsha

variable {app : App} {reports : Call → Prop} {w v : World}

/-! ## What a step may publish -/

/-- Only these operations commit, and only these files are published empty. -/
def Trust.publishing (commits : Operation → Prop) (empties : Id → Prop) : Trust :=
  { Trust.all with commits := commits, empties := empties }

/-- Nothing is published of a file. -/
def Trust.without (f : Id) : Trust := .publishing (fun op => op.file ≠ f) fun k => k ≠ f

theorem Trust.without_withholds (f : Id) : (Trust.without f).withholds f :=
  ⟨fun _ h => h, fun h => h rfl⟩

/-- A file is not created. -/
def Trust.unmaking (f : Id) : Trust :=
  .publishing (fun op => op.kind = .upload → op.base = none → op.file ≠ f) fun k => k ≠ f

theorem Trust.unmaking_makesNo (f : Id) : (Trust.unmaking f).makesNo f :=
  ⟨fun _ h => h, fun h => h rfl⟩

/-- An operation does not commit. -/
def Trust.besides (k : Id) : Trust := .publishing (fun op => op.id ≠ k) fun _ => True

/-- A step publishes nothing: its actions are sequences whatever may be published. -/
def Unpublished (app : App) (w v : World) : Prop :=
  ∀ commits empties, Acts app (.publishing commits empties) w.access v.access

/-- **A step that publishes carries out a command that does.** -/
theorem Step.publisher {e : Event} (hs : Sound app w.access) (h : Step app reports w e v) :
    Unpublished app w v ∨ ∃ cmd, cmd.publishes = true ∧ Executes app w e cmd v := by
  cases h with
  | advance j free => exact .inl fun _ _ => acts_later _ j
  | @serve _ token ctx cmd _ _ h =>
      by_cases hcmd : cmd.publishes = true
      · obtain ⟨user, session, -, hcase⟩ := serve_cases h
        rcases hcase with ⟨-, rfl⟩ | ⟨-, u, verifier, hexec, -, rfl⟩
        · exact .inl fun _ _ => acts_later _ 2
        · exact .inr ⟨cmd, hcmd, ⟨_, _, _, rfl⟩, _, _, _, _, u, hexec, rfl, rfl, rfl⟩
      · exact .inl fun _ _ =>
          serve_refines (fun _ _ => trivial) (fun hp => absurd hp hcmd) (fun _ => trivial) token ctx
            w _ hs h
  | lookup _ _ => exact .inl fun _ _ => .refl
  | refuse _ _ => exact .inl fun _ _ => .refl
  | @call _ c _ _ _ h =>
      exact .inl fun _ _ => call_refines
        (by cases c <;> simp [Trust.admits, Trust.publishing, Trust.all]) w _ hs h
  | start hnext h => exact .inl fun _ _ => start_refines hnext w _ hs h
  | crash clk => exact .inl fun _ _ => .single (.crash _ clk trivial)

/-! ## Commands that publish -/

/-- What a commit does under the barrier: its operation passes the test. -/
structure Passes (app : App) (w v : World) (op : Operation) : Prop where
  stored : w.access.uploads.get op.id = some op
  validated : Validated w.cluster op
  publishes : Publishes app (fun trust => trust.commits op) w.access v.access

/-- What `Open` does under the barrier: the file has a policy afterwards, and if it is published
empty then it is new or its policy is not being promoted. -/
structure Opens (app : App) (w v : World) (f : Id) : Prop where
  governed : (v.cluster.policies.get f).isSome = true
  acts : Unpublished app w v ∨
    (w.access.nodes.get f = none ∨ (policyOf w.cluster f).state ≠ .promoting) ∧
      Publishes app (fun trust => trust.empties f) w.access v.access

theorem resolve_later {user : User} {path : PathRef} {n : Node} {k : Nat}
    (h : (resolve app user path) (w.setAccess (w.access.later k)) = .ok n) :
    (resolve app user path) w = .ok n := by
  simp only [resolve, Query.bind_ok] at h ⊢
  obtain ⟨p, hp, h⟩ := h
  exact ⟨p, pathOf_later hp, walk_later h⟩

/-- A file under promotion is not found by an `Open` that is let through. -/
theorem refusePromoting_ok {user : User} {path : PathRef} {u : Unit} {node : Node}
    (h : (refusePromoting app user path) w = .ok u)
    (hnode : (resolve app user path) w = .ok node) :
    (policyOf w.cluster node.id).state ≠ .promoting := by
  simp only [refusePromoting, Query.bind_ok, cluster, Query.read_ok, need_ok] at h
  obtain ⟨found, hfound, c, rfl, hneed⟩ := h
  refine hneed node ?_
  simp only [openResolve, Query.bind_ok, Query.attempt_ok] at hfound
  obtain ⟨x, hx, hfound⟩ := hfound
  rw [hnode] at hx
  subst hx
  rw [Query.pure_ok] at hfound
  exact hfound ▸ rfl

theorem creating_writes {mode : OpenMode} (h : mode ∈ creatingModes) : mode ∈ writeModes := by
  cases mode <;> revert h <;> decide

theorem protectionOpen_opens {user : User} {session : Session} {path : PathRef} {mode : OpenMode}
    {r : HandleMessage × World} (hs : Sound app w.access)
    (h : (protectionOpen app user session path mode) w = .ok r) : ∃ f, Opens app w r.2 f := by
  unfold protectionOpen at h
  obtain ⟨_, s, hrefuse, h⟩ := Tx.bind_ok.mp h
  obtain ⟨m, u, hopen, h⟩ := Tx.bind_ok.mp h
  obtain ⟨p, u', k, n, hpolicy, hquiet, h⟩ := run_quiet h
  rw [Tx.pure_ok] at h
  subst h
  -- The test takes a reading of the clock, or none.
  obtain ⟨j, rfl, hrefused⟩ : ∃ j, s = w.setAccess (w.access.later j) ∧
      (mode ∈ writeModes → ∀ node, (resolve app user path) w = .ok node →
        (policyOf w.cluster node.id).state ≠ .promoting) := by
    split at hrefuse
    · obtain ⟨hquery, rfl⟩ := last_query.mp hrefuse
      exact ⟨1, rfl, fun _ _ hnode => refusePromoting_ok hquery hnode⟩
    · rw [Tx.pure_ok, Prod.mk.injEq] at hrefuse
      exact ⟨0, hrefuse.2, fun hmode => absurd hmode ‹_›⟩
  have hsj : Sound app (w.setAccess (w.access.later j)).access := hs.advance j
  obtain ⟨node, hopened, ⟨t, hsnap, hfile⟩, hfound⟩ := accessOpen_ok hsj hopen
  have hsu : Sound app u.access :=
    hsj.acts (show Acts app Trust.all _ _ from hopened.acts fun _ => trivial)
  -- The file of the message is the one of the node's snapshot.
  have hmem := Table.mem_of_get hopened.stored
  obtain ⟨-, x, hx, hxget, hxfile⟩ :=
    hsu.files node hmem hopened.alive (hsu.kind_of_snapshot hmem hsnap)
  have hxt : x.id = t := Option.some.inj (hx.symm.trans hsnap)
  have hid : node.id = m.snapshot.fileId := by
    rw [← hxfile, ← (hsu.snapshotShape x (Table.mem_of_get hxget)).file]
    rw [← hxt, hxget] at hfile
    exact Option.some.inj hfile
  have hlast : ∀ trust, Acts app trust u.access u'.access := by
    intro trust
    rw [hquiet]
    exact acts_shift _ k n
  refine ⟨m.snapshot.fileId, policy_recorded hpolicy, ?_⟩
  by_cases hmode : mode ∈ creatingModes
  · right
    rw [← hid]
    refine ⟨?_, .before (fun _ => acts_later _ j) ((hopened.publishes hmode).after hlast
      (by rw [hquiet]; rfl))⟩
    rcases hfound hmode with hnone | ⟨old, hold, hold'⟩
    · exact .inl hnone
    · exact .inr (hold' ▸ hrefused (creating_writes hmode) old
        (resolve_later (resolve_later hold)))
  · left
    intro commits empties
    exact (acts_later _ j).trans ((hopened.quiet hmode _).trans (hlast _))

/-- The actions of a transaction, with the readings of the clock around it. -/
theorem acts_around {trust : Trust} {u : World} {j k : Nat}
    (h : Acts app trust (w.setAccess (w.access.later j)).access u.access)
    (hv : v.access = u.access.later k) : Acts app trust w.access v.access := by
  rw [hv]
  exact (acts_later _ j).trans (h.trans (acts_later _ k))

theorem publishes_around {may : Trust → Prop} {u : World} {j k : Nat}
    (h : Publishes app may (w.setAccess (w.access.later j)).access u.access)
    (hv : v.access = u.access.later k) : Publishes app may w.access v.access := by
  rw [hv]
  exact .before (fun _ => acts_later _ j) (h.after (fun _ => acts_later _ k) rfl)

/-- **A command that publishes stands before the barrier.** -/
theorem Executes.barrier (hr : app.profile = .replicated) (hs : Sound app w.access) {e : Event}
    {cmd : Command} (hcmd : cmd.publishes = true) (h : Executes app w e cmd v) :
    (∃ op, Passes app w v op) ∨ ∃ f, Opens app w v f := by
  have hrep : app.replicated = true := App.replicated_iff.mpr hr
  have hrf : app.rf3 = true := by simp [App.rf3, hr]
  obtain ⟨user, session, ctx, r, u, hexec, hacc, hcluster, -⟩ := h.run
  have hs₂ : Sound app (w.setAccess (w.access.later 2)).access := hs.advance 2
  cases cmd with
  | commitUpload req =>
      simp only [execute, commitUpload, hr] at hexec
      obtain ⟨res, s, hres, hexec⟩ := Tx.bind_ok.mp hexec
      rw [Tx.pure_ok, Prod.mk.injEq] at hexec
      obtain ⟨-, rfl⟩ := hexec
      obtain ⟨op, -, -, hget, hvalid, hpub⟩ := protectionCommitUpload_publishes hs₂ hres
      obtain ⟨o, ho, hvalidated⟩ := validatePolicy_ok hvalid
      obtain rfl : op = o := Option.some.inj ho
      exact .inl ⟨op, hget, hvalidated, publishes_around (j := 2) hpub hacc⟩
  | commitWrite req =>
      simp only [execute, commitWrite, hrf, hrep, if_true] at hexec
      obtain ⟨res, s, hres, hexec⟩ := Tx.bind_ok.mp hexec
      rw [Tx.pure_ok, Prod.mk.injEq] at hexec
      obtain ⟨-, rfl⟩ := hexec
      obtain ⟨op, -, -, hget, hvalid, hpub⟩ := protectionCommitWrite_publishes hres
      obtain ⟨o, ho, hvalidated⟩ := validatePolicy_ok hvalid
      obtain rfl : op = o := Option.some.inj ho
      exact .inl ⟨op, hget, hvalidated, publishes_around (j := 2) hpub hacc⟩
  | openFile path mode =>
      simp only [execute, openFile, hr] at hexec
      obtain ⟨m, s, hopen, hexec⟩ := Tx.bind_ok.mp hexec
      rw [Tx.pure_ok, Prod.mk.injEq] at hexec
      obtain ⟨-, rfl⟩ := hexec
      obtain ⟨f, hopens⟩ := protectionOpen_opens hs₂ hopen
      refine .inr ⟨f, by rw [hcluster]; exact hopens.governed, ?_⟩
      rcases hopens.acts with hun | ⟨hfree, hacts⟩
      · exact .inl fun commits empties => acts_around (j := 2) (hun commits empties) hacc
      · exact .inr ⟨hfree, publishes_around (j := 2) hacts hacc⟩
  | _ => cases hcmd

/-- **What a step publishes**: nothing, or what one command that stands before the barrier does. -/
theorem Step.barrier (hr : app.profile = .replicated) (hs : Sound app w.access) {e : Event}
    (h : Step app reports w e v) :
    Unpublished app w v ∨
      (∃ cmd, cmd.publishes = true ∧ ∃ token ctx r, e = .served token ctx cmd r) ∧
        ((∃ op, Passes app w v op) ∨ ∃ f, Opens app w v f) := by
  rcases h.publisher hs with hun | ⟨cmd, hcmd, hexec⟩
  · exact .inl hun
  · exact .inr ⟨⟨cmd, hcmd, hexec.event⟩, hexec.barrier hr hs hcmd⟩

/-- **Nothing is published of a file under promotion.** -/
theorem Step.withheld (hr : app.profile = .replicated) (hs : Sound app w.access) {e : Event}
    (h : Step app reports w e v) {f : Id} (hnode : w.access.nodes.get f ≠ none)
    (hp : (policyOf w.cluster f).state = .promoting) : Withheld f w.access v.access := by
  have hacts : Acts app (Trust.without f) w.access v.access := by
    rcases h.barrier hr hs with hun | ⟨-, ⟨op, hpass⟩ | ⟨k, hopens⟩⟩
    · exact hun _ _
    · exact hpass.publishes.acts fun he => hpass.validated.active (he ▸ hp)
    · rcases hopens.acts with hun | ⟨hfree, hacts⟩
      · exact hun _ _
      · refine hacts.acts fun he => ?_
        rcases hfree with hnone | hstate
        · exact hnode (he ▸ hnone)
        · exact hstate (he ▸ hp)
  exact hacts.withheld hs (Trust.without_withholds f)

/-- **What commits captured the policy that its file has.** -/
theorem Step.commits_current (hr : app.profile = .replicated) (hs : Sound app w.access) {e : Event}
    (h : Step app reports w e v) {k : Id} {o p : Operation}
    (ho : w.access.uploads.get k = some o) (hst : o.state ≠ .committed)
    (hp : v.access.uploads.get k = some p) (hc : p.state = .committed) :
    Validated w.cluster o := by
  by_contra hnot
  have hacts : Acts app (Trust.besides k) w.access v.access := by
    rcases h.barrier hr hs with hun | ⟨-, ⟨op, hpass⟩ | ⟨f, hopens⟩⟩
    · exact hun _ _
    · refine hpass.publishes.acts fun he => hnot ?_
      have hget := hpass.stored
      rw [he, ho, Option.some.injEq] at hget
      exact hget ▸ hpass.validated
    · rcases hopens.acts with hun | ⟨-, hacts⟩
      · exact hun _ _
      · exact hacts.acts trivial
  exact hacts.uncommitted (fun _ hne => hne) ho hst hp hc

/-! ## What a step does to policies -/

/-- **What a step does to policies**: it settles them, or it promotes the protection of one file. -/
theorem Step.policies {e : Event} (hs : Sound app w.access) (h : Step app reports w e v) :
    Settles w v ∨ ∃ f t token ctx path revision r,
      e = .served token ctx (.promoteProtection path revision) r ∧ Promotes w v f t := by
  cases h with
  | advance j free => exact .inl (.of_eq rfl)
  | @serve _ token ctx cmd r _ h =>
      obtain ⟨user, session, -, hcase⟩ := serve_cases h
      rcases hcase with ⟨-, rfl⟩ | ⟨-, u, verifier, hexec, -, rfl⟩
      · exact .inl (.of_eq rfl)
      · by_cases hcmd : ∃ path revision, cmd = .promoteProtection path revision
        · obtain ⟨path, revision, rfl⟩ := hcmd
          simp only [execute] at hexec
          split at hexec
          · have hs₂ : Sound app (w.setAccess (w.access.later 2)).access := hs.advance 2
            rcases promoteProtection_promotes hs₂ hexec with he | ⟨f, t, hp⟩
            · exact .inl (.of_eq he)
            · exact .inr ⟨f, t, token, ctx, path, revision, _, rfl, hp.promotable, hp.node,
                hp.policies⟩
          · cases hexec
        · have hsettles : Settles (w.setAccess (w.access.later 2)) u :=
            execute_settles (fun path revision he => hcmd ⟨path, revision, he⟩) hexec
          exact .inl hsettles
  | lookup _ _ => exact .inl (.of_eq rfl)
  | refuse _ _ => exact .inl (.of_eq rfl)
  | call _ _ _ h => exact .inl ((inferInstance : Respects Settles _).respects _ _ h)
  | start hnext h =>
      have hsettles := (Respects.start hnext : Respects Settles _).respects _ _ h
      exact .inl hsettles
  | crash clk => exact .inl (.of_eq rfl)

/-- Every file has a policy, from when an upload of it begins, and every policy is of one of the
two levels; what is under promotion exists. -/
structure Governed (w : World) : Prop where
  files : ∀ n ∈ w.access.nodes.all, n.kind = .file →
    (w.cluster.policies.get n.id).isSome = true
  uploads : ∀ o ∈ w.access.uploads.all, o.kind = .upload → o.base = none →
    (w.cluster.policies.get o.file).isSome = true
  leveled : ∀ p ∈ w.cluster.policies.all, p.Leveled
  located : ∀ p ∈ w.cluster.policies.all, p.state = .promoting →
    (w.access.nodes.get p.id).isSome = true

/-- What a step may make of a policy. -/
structure Advances (e : Event) (p q : Policy) : Prop where
  revision : p.revision ≤ q.revision
  level : q.r = p.r ∧ q.w = p.w ∨
    p.r = 1 ∧ p.w = 1 ∧ q.r = 3 ∧ q.w = 2 ∧ p.revision < q.revision ∧
      ∃ token ctx path revision r, e = .served token ctx (.promoteProtection path revision) r

theorem Settled.advances {e : Event} {p q : Policy} (h : Settled p q) : Advances e p q :=
  ⟨h.revision_eq.ge, .inl ⟨h.r_eq, h.w_eq⟩⟩

/-- A file that is promoted has a policy. -/
theorem Promotes.governed {f : Id} {t : Nat} (hg : Governed w) (h : Promotes w v f t) :
    ∃ p, w.cluster.policies.get f = some p := by
  obtain ⟨n, hn, hkind⟩ := h.node
  have hid : n.id = f := node_id_of_get hn
  exact Option.isSome_iff_exists.mp (hid ▸ hg.files n (Table.mem_of_get hn) hkind)

/-- **What becomes of a policy in a step.** -/
theorem Step.advances {e : Event} (hs : Sound app w.access) (hg : Governed w)
    (h : Step app reports w e v) : w.cluster.policies.Grows (Advances e) v.cluster.policies := by
  rcases h.policies hs with hset | ⟨f, t, token, ctx, path, revision, r, rfl, hp⟩
  · intro k p hk
    obtain ⟨q, hq, hsettled⟩ := hset.1 k p hk
    exact ⟨q, hq, hsettled.advances⟩
  · obtain ⟨p, hget⟩ := hp.governed hg
    rw [hp.policies]
    rw [policyOf_some hget]
    refine .put_old (fun x => ⟨le_rfl, .inl ⟨rfl, rfl⟩⟩) hget ⟨Nat.le_succ _, ?_⟩
    rcases hg.leveled p (Table.mem_of_get hget) with ⟨hr, hw⟩ | ⟨hr, hw⟩
    · exact .inr ⟨hr, hw, rfl, rfl, Nat.lt_succ_self _, _, _, _, _, _, rfl⟩
    · exact .inl ⟨hr.symm, hw.symm⟩

/-- What a policy is after a step. -/
theorem Step.policy {e : Event} (hs : Sound app w.access) (h : Step app reports w e v) {q : Policy}
    (hq : q ∈ v.cluster.policies.all) :
    Created q ∨ (∃ p ∈ w.cluster.policies.all, p.id = q.id ∧ Settled p q) ∨
      q.r = 3 ∧ q.w = 2 ∧ (w.access.nodes.get q.id).isSome = true := by
  rcases h.policies hs with hset | ⟨f, t, _, _, _, _, _, -, hp⟩
  · cases hold : w.cluster.policies.get q.id with
    | none => exact .inl (hset.2 q hq hold)
    | some p =>
        obtain ⟨q', hq', hsettled⟩ := hset.1 _ p hold
        obtain rfl : q' = q := Option.some.inj (hq'.symm.trans (Table.get_of_mem hq))
        exact .inr (.inl ⟨p, Table.mem_of_get hold, Table.key_of_get hold, hsettled⟩)
  · rw [hp.policies] at hq
    rcases Table.mem_put.mp hq with rfl | ⟨hq, -⟩
    · obtain ⟨n, hn, -⟩ := hp.node
      exact .inr (.inr ⟨rfl, rfl, by rw [hn]; rfl⟩)
    · exact .inr (.inl ⟨q, hq, rfl, .refl q⟩)

/-- **An upload of a new file gives it its policy.** -/
theorem Step.begins_governed (hr : app.profile = .replicated) (hs : Sound app w.access) {e : Event}
    (h : Step app reports w e v) {k : Id} {o : Operation} (hk : w.access.uploads.get k = none)
    (ho : v.access.uploads.get k = some o) (hkind : o.kind = .upload) (hb : o.base = none) :
    (v.cluster.policies.get o.file).isSome = true := by
  have hrf : app.rf3 = true := by simp [App.rf3, hr]
  obtain ⟨cmd, hbegins, hexec⟩ := h.beginner hs hk (by simp [ho])
  obtain ⟨user, session, ctx, r, u, hrun, hacc, hcluster, -⟩ := hexec.run
  have hs₂ : Sound app (w.setAccess (w.access.later 2)).access := hs.advance 2
  have hu : u.access.uploads.get k = some o := by
    rw [hacc] at ho
    exact ho
  rw [hcluster]
  cases cmd with
  | beginUpload req =>
      simp only [execute, beginUpload, hr] at hrun
      obtain ⟨plan, s, hplan, hrun⟩ := Tx.bind_ok.mp hrun
      rw [Tx.pure_ok, Prod.mk.injEq] at hrun
      obtain ⟨-, rfl⟩ := hrun
      unfold protectionBeginUpload at hplan
      obtain ⟨op, x, hop, hplan⟩ := Tx.bind_ok.mp hplan
      obtain ⟨hacts, hget, hpol⟩ := accessBeginUpload_ok (Trust.but k) hrf hs₂ hop
      obtain ⟨op', x', hcap, hplan⟩ := Tx.bind_ok.mp hplan
      obtain ⟨hacts', hget', rfl⟩ := capturePolicy_ok (Trust.but k) hget hpol hcap
      simp only [run_cluster, Tx.pure_ok, Prod.mk.injEq] at hplan
      obtain ⟨-, rfl⟩ := hplan
      have hx' : x'.access.uploads.get k = some o := hu
      have hne : x'.access.uploads.get k ≠ none := by simp [hx']
      have hid : op.id = k := begun_eq (fun hb => (hacts hb).trans hacts') hk hne
      have hoo : o = { op with policy := some (policyOf x'.cluster op.file) } :=
        Option.some.inj (hu.symm.trans (hid ▸ hget'))
      have hrecorded := capturePolicy_recorded (by rw [hoo] at hb; exact hb) hcap
      rw [hoo]
      exact hrecorded
  | beginWrite req =>
      simp only [execute, hrf, if_true] at hrun
      have hwrite := beginWrite_kind hs₂ hrf hrun hk hu
      rw [hkind] at hwrite
      cases hwrite
  | _ => cases hbegins

/-- **Every file keeps having a policy.** -/
theorem Step.governed (hr : app.profile = .replicated) (hs : Sound app w.access)
    (hg : Governed w) {e : Event} (h : Step app reports w e v) : Governed v := by
  have hgrows := h.advances hs hg
  have hkept : ∀ k, (w.cluster.policies.get k).isSome = true →
      (v.cluster.policies.get k).isSome = true := by
    intro k hk
    obtain ⟨p, hp⟩ := Option.isSome_iff_exists.mp hk
    obtain ⟨q, hq, -⟩ := hgrows k p hp
    rw [hq]
    rfl
  have hacts := h.all hs
  have hnodes : ∀ k, (w.access.nodes.get k).isSome = true →
      (v.access.nodes.get k).isSome = true := by
    intro k hk
    obtain ⟨n, hn⟩ := Option.isSome_iff_exists.mp hk
    obtain ⟨m, hm, -⟩ := hacts.nodes hs k n hn
    rw [hm]
    rfl
  constructor
  · intro n hn hkind
    by_contra hnone
    have hdir : ∀ m, w.access.nodes.get n.id = some m → m.kind = .directory := by
      intro m hm
      cases hmk : m.kind with
      | directory => rfl
      | file =>
          have hid : m.id = n.id := node_id_of_get hm
          exact absurd (hkept n.id (hid ▸ hg.files m (Table.mem_of_get hm) hmk)) hnone
    have hmade : Acts app (Trust.unmaking n.id) w.access v.access := by
      rcases h.barrier hr hs with hun | ⟨-, ⟨op, hpass⟩ | ⟨f, hopens⟩⟩
      · exact hun _ _
      · exact hpass.publishes.acts fun hup hb he => hnone
          (hkept n.id (he ▸ hg.uploads op (Table.mem_of_get hpass.stored) hup hb))
      · rcases hopens.acts with hun | ⟨-, hacts⟩
        · exact hun _ _
        · exact hacts.acts fun he => hnone (he ▸ hopens.governed)
    have hkind' := hmade.unmade (Trust.unmaking_makesNo n.id) hdir n (Table.get_of_mem hn)
    rw [hkind] at hkind'
    cases hkind'
  · intro o ho hkind hb
    have hget : v.access.uploads.get o.id = some o := Table.get_of_mem ho
    cases hold : w.access.uploads.get o.id with
    | none => exact h.begins_governed hr hs hold hget hkind hb
    | some o' =>
        obtain ⟨o'', ho'', hev⟩ := h.uploads hs _ _ hold
        obtain rfl : o'' = o := Option.some.inj (ho''.symm.trans hget)
        have hsome := hg.uploads o' (Table.mem_of_get hold) (by rw [← hev.kind_eq, hkind])
          (by rw [← hev.base_eq, hb])
        exact hev.file_eq ▸ hkept _ hsome
  · intro q hq
    rcases h.policy hs hq with hc | ⟨p, hp, -, hset⟩ | ⟨hr, hw, -⟩
    · exact hc.leveled
    · rw [Policy.Leveled, hset.r_eq, hset.w_eq]
      exact hg.leveled p hp
    · exact .inr ⟨hr, hw⟩
  · intro q hq hst
    rcases h.policy hs hq with hc | ⟨p, hp, hid, hset⟩ | ⟨-, -, hnode⟩
    · rw [hc.state] at hst
      cases hst
    · have hpromoting : p.state = .promoting := by
        rcases hset.state with he | hpromoting
        · exact he ▸ hst
        · exact hpromoting
      exact hnodes _ (hid ▸ hg.located p hp hpromoting)
    · exact hnodes _ hnode

theorem governed_initial (clk : Clock) (username : Text) (password : Digest) :
    Governed (World.initial app clk username password) where
  files n hn hkind := by
    rw [(initial_node hn).1] at hkind
    cases hkind
  uploads _ h := absurd h List.not_mem_nil
  leveled _ h := absurd h List.not_mem_nil
  located _ h := absurd h List.not_mem_nil

theorem Reachable.governed (hr : app.profile = .replicated) (h : Reachable app reports w) :
    Governed w := by
  obtain ⟨clk, username, password, es, hrun⟩ := h
  exact (hrun.induct (P := fun x => Sound app x.access ∧ Governed x)
    (fun x e y hxy hx => ⟨hxy.sound hx.1, hxy.governed hr hx.1 hx.2⟩)
    ⟨sound_initial clk username password, governed_initial clk username password⟩).2

/-! ## Runs -/

/-- **The barrier** of a step: how a policy moves on, and that nothing is published of its file
while it is being promoted, or in the step in which its promotion begins. -/
structure Barrier (w : World) (e : Event) (v : World) (f : Id) (p q : Policy) : Prop where
  advances : Advances e p q
  withheld : p.state = .promoting ∨ q.state = .promoting → Withheld f w.access v.access

theorem Step.before_barrier (hr : app.profile = .replicated) (hs : Sound app w.access)
    (hg : Governed w) {e : Event} (h : Step app reports w e v) {f : Id} {p : Policy}
    (hp : w.cluster.policies.get f = some p) :
    ∃ q, v.cluster.policies.get f = some q ∧ Barrier w e v f p q := by
  obtain ⟨q, hq, hadv⟩ := h.advances hs hg f p hp
  have hpid : p.id = f := Table.key_of_get hp
  have hold : p.state = .promoting → Withheld f w.access v.access := by
    intro hst
    have hnode := hg.located p (Table.mem_of_get hp) hst
    rw [hpid] at hnode
    exact h.withheld hr hs (Option.isSome_iff_ne_none.mp hnode) (by rw [policyOf_some hp]; exact hst)
  refine ⟨q, hq, hadv, fun hst => ?_⟩
  rcases hst with hst | hst
  · exact hold hst
  · rcases h.policies hs with hset | ⟨k, t, token, ctx, path, revision, r, rfl, -⟩
    · obtain ⟨q', hq', hsettled⟩ := hset.1 f p hp
      obtain rfl : q' = q := Option.some.inj (hq'.symm.trans hq)
      rcases hsettled.state with he | hpromoting
      · exact hold (he ▸ hst)
      · exact hold hpromoting
    · -- The command that begins a promotion publishes nothing.
      rcases h.barrier hr hs with hun | ⟨⟨cmd, hcmd, _, _, _, he⟩, -⟩
      · exact Acts.withheld hs (hun _ _) (Trust.without_withholds f)
      · cases he
        cases hcmd

/-- The revision of a policy never decreases, also where the policy is the default one. -/
theorem Step.revision_le {e : Event} (hs : Sound app w.access) (hg : Governed w)
    (h : Step app reports w e v) (f : Id) :
    (policyOf w.cluster f).revision ≤ (policyOf v.cluster f).revision := by
  cases hp : w.cluster.policies.get f with
  | some p =>
      obtain ⟨q, hq, hadv⟩ := h.advances hs hg f p hp
      rw [policyOf_some hp, policyOf_some hq]
      exact hadv.revision
  | none =>
      rw [policyOf_none hp]
      cases hq : v.cluster.policies.get f with
      | none => rw [policyOf_none hq]
      | some q =>
          have hqid : q.id = f := Table.key_of_get hq
          rw [policyOf_some hq]
          rcases h.policies hs with hset | ⟨k, t, _, _, _, _, _, -, hpromotes⟩
          · exact (hset.2 q (Table.mem_of_get hq) (hqid ▸ hp)).revision.ge
          · obtain ⟨p, hk⟩ := hpromotes.governed hg
            rw [hpromotes.policies, Table.get_put_of_ne, hp] at hq
            · cases hq
            · intro he
              have he' : f = k := he
              rw [he', hk] at hp
              cases hp

/-- An operation that captured an older policy, and is not committed. -/
structure Outdated (w : World) (k : Id) (captured : Policy) : Prop where
  stored : ∃ o, w.access.uploads.get k = some o ∧ o.state ≠ .committed ∧
    o.policy = some captured ∧ captured.revision < (policyOf w.cluster o.file).revision

/-- **What is outdated stays so**, and so is never committed. -/
theorem Step.outdated (hr : app.profile = .replicated) (hs : Sound app w.access)
    (hg : Governed w) {e : Event} (h : Step app reports w e v) {k : Id} {captured : Policy}
    (ho : Outdated w k captured) : Outdated v k captured := by
  obtain ⟨o, hget, hst, hcap, hlt⟩ := ho.stored
  obtain ⟨p, hp, hev⟩ := h.uploads hs k o hget
  refine ⟨p, hp, fun hc => ?_, hev.policy _ hcap, ?_⟩
  · have hrevision := (h.commits_current hr hs hget hst hp hc).revision _ hcap
    omega
  · rw [hev.file_eq]
    exact lt_of_lt_of_le hlt (h.revision_le hs hg o.file)

/-- **The promotion barrier**: every file has a policy of one of the two levels; a step moves it
from the lower to the upper one only by `PromoteProtection`, and its revision never back; nothing
is published of a file whose policy is being promoted, nor by the promotion itself; a policy that
is new is active; and an operation that began under an older revision is not committed once the
revision is past it. -/
theorem promotion_barrier (hr : app.profile = .replicated) (h : Reachable app reports w) :
    (∀ n ∈ w.access.nodes.all, n.kind = .file →
      ∃ p, w.cluster.policies.get n.id = some p ∧ p.Leveled) ∧
    (∀ e v, Step app reports w e v →
      (∀ f p, w.cluster.policies.get f = some p →
        ∃ q, v.cluster.policies.get f = some q ∧ Barrier w e v f p q) ∧
      ∀ q ∈ v.cluster.policies.all, w.cluster.policies.get q.id = none → Created q) ∧
    ∀ e u k o, Step app reports w e u → w.access.uploads.get k = none →
      u.access.uploads.get k = some o → ∀ es v, Run app reports u es v →
        (policyOf u.cluster o.file).revision < (policyOf v.cluster o.file).revision →
          (∀ x, v.access.uploads.get k = some x → x.state ≠ .committed) →
            ∀ fs z, Run app reports v fs z →
              ∀ y, z.access.uploads.get k = some y → y.state ≠ .committed := by
  have hs := h.sound
  have hg := h.governed hr
  refine ⟨fun n hn hkind => ?_, fun e v hstep => ⟨fun f p hp => hstep.before_barrier hr hs hg hp,
    fun q hq hnone => ?_⟩, fun e u k o hstep hnone ho es v hes hlt hun fs z hfs y hy => ?_⟩
  · obtain ⟨p, hp⟩ := Option.isSome_iff_exists.mp (hg.files n hn hkind)
    exact ⟨p, hp, hg.leveled p (Table.mem_of_get hp)⟩
  · rcases hstep.policies hs with hset | ⟨f, t, _, _, _, _, _, -, hp⟩
    · exact hset.2 q hq hnone
    · obtain ⟨p, hget⟩ := hp.governed hg
      rw [hp.policies] at hq
      rcases Table.mem_put.mp hq with rfl | ⟨hq, -⟩
      · rw [hget] at hnone
        cases hnone
      · have hold : w.cluster.policies.get q.id = some q := Table.get_of_mem hq
        rw [hold] at hnone
        cases hnone
  · have hu := h.run (Run.single hstep)
    have hv := hu.run hes
    obtain ⟨x, hx, hev⟩ := (hes.acts hu.sound).uploads k o ho
    have hcap := hev.policy _ (hstep.captured hr hs hnone ho)
    have houtdated : Outdated v k (policyOf u.cluster o.file) :=
      ⟨x, hx, hun x hx, hcap, hev.file_eq ▸ hlt⟩
    have hinv := hfs.induct (P := fun a => Reachable app reports a ∧
        Outdated a k (policyOf u.cluster o.file))
      (fun a e b hab ha => ⟨ha.1.run (Run.single hab),
        hab.outdated hr ha.1.sound (ha.1.governed hr) ha.2⟩) ⟨hv, houtdated⟩
    obtain ⟨y', hy', hst, -⟩ := hinv.2.stored
    exact Option.some.inj (hy'.symm.trans hy) ▸ hst

/-- The protection of a file is promoted while a write of it is in preparation. -/
theorem small_promotion : ∃ w e v p q, Reachable (App.small .replicated) (fun _ => True) w ∧
    Step (App.small .replicated) (fun _ => True) w e v ∧ p.r = 1 ∧ q.r = 3 ∧ q.state = .promoting ∧
      Barrier w e v 10 p q := by
  obtain ⟨w, hw, hv⟩ := exists_of_perform (App.small .replicated) smallBegin
    (World.small .replicated) (fun w =>
      (w.cluster.policies.get 10).map Policy.r = some 1 ∧
      (((smallInput 54 (.promoteProtection smallPath 1)).perform (App.small .replicated) w).bind
        fun v => v.cluster.policies.get 10).any
          (fun q => decide (q.r = 3 ∧ q.state = .promoting)) = true) (by decide +kernel)
  obtain ⟨hp, hq⟩ := hv
  obtain ⟨p, hp, hpr⟩ := Option.map_eq_some_iff.mp hp
  obtain ⟨q, hq, hst⟩ := (Option.any_eq_true _ _).mp hq
  obtain ⟨v, hv, hq⟩ := Option.bind_eq_some_iff.mp hq
  obtain ⟨hqr, hst⟩ := of_decide_eq_true hst
  obtain ⟨e, hstep⟩ := Input.perform_step hv
  have hreach := perform_reachable hw
  obtain ⟨q', hq', hbarrier⟩ := ((promotion_barrier rfl hreach).2.1 e v hstep).1 10 p hp
  obtain rfl : q' = q := Option.some.inj (hq'.symm.trans hq)
  exact ⟨w, e, v, p, q', hreach, hstep, hpr, hqr, hst, hbarrier⟩

end Dfsha
