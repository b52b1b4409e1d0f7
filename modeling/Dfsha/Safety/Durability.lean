import Dfsha.Refine.Frame
import Dfsha.Refine.Steps
import Dfsha.Control.Script
import Dfsha.Safety.Snapshots

/-!
# Durable publication

A commit publishes only blocks that are safe.  The check runs over what the operation allocated or
plans to replace, the published manifest comes from staged pages or from a merge; the two meet
because every block of the manifest that the file did not have before is one that was checked.
The policy that sets the number of copies is the one that was captured when the operation began:
nothing between the two changes it without the commit being refused.

## Main definitions

* `DurableAt` — copies of a block count in enough failure domains, at one moment.
* `Durably` — what a protected commit does.

## Main results

* `durable_publication` — every commit of a replicated control is durable.
-/

namespace Dfsha

variable {app : App} {reports : Call → Prop} {w : World}

/-! ## Copies that count -/

/-- Copies of a block that count, each in a failure domain of its own, at least `n` of them. -/
def DurableAt (app : App) (u : World) (block : Id) (n : Nat) : Prop :=
  ∃ ls : List Location, n ≤ ls.length ∧
    (∀ l ∈ ls, l ∈ u.cluster.locations.all ∧
      eligibleCopy app u.cluster u.access.now block l ∧ (app.allowed l.node).isSome = true) ∧
    (ls.map fun l => (app.allowed l.node).map AllowedNode.failureDomain).Nodup

/-- One element of a list for each of some values of a function on it. -/
theorem exists_map_eq {α β : Type} {f : α → β} {xs : List α} {zs : List β}
    (h : ∀ z ∈ zs, ∃ x ∈ xs, f x = z) :
    ∃ ys : List α, ys.map f = zs ∧ ∀ y ∈ ys, y ∈ xs := by
  induction zs with
  | nil => exact ⟨[], rfl, fun _ hy => absurd hy List.not_mem_nil⟩
  | cons z zs ih =>
      obtain ⟨ys, hys, hmem⟩ := ih fun z hz => h z (List.mem_cons_of_mem _ hz)
      obtain ⟨x, hx, rfl⟩ := h z List.mem_cons_self
      refine ⟨x :: ys, by rw [List.map_cons, hys], fun y hy => ?_⟩
      rcases List.mem_cons.mp hy with rfl | hy
      · exact hx
      · exact hmem y hy

theorem domainOf_ok {node d : Id} :
    (domainOf app node) w = .ok d ↔ (app.allowed node).map AllowedNode.failureDomain = some d := by
  simp [domainOf]

/-- The domains that are counted are the domains of copies that count. -/
theorem eligibleDomains_ok {block : Id} {ds : List Id}
    (h : (eligibleDomains app block) w = .ok ds) : DurableAt app w block ds.length := by
  simp only [eligibleDomains, Query.bind_ok, world, Query.read_ok, Query.pure_ok] at h
  obtain ⟨v, rfl, domains, hmap, rfl⟩ := h
  have hmem := (Query.map_mem hmap).2
  have hdomains : ∀ z ∈ domains.dedup.map some, ∃ l ∈ eligible app w block,
      (app.allowed l.node).map AllowedNode.failureDomain = z := by
    intro z hz
    obtain ⟨d, hd, rfl⟩ := List.mem_map.mp hz
    obtain ⟨l, hl, hdl⟩ := hmem d (List.mem_dedup.mp hd)
    exact ⟨l, hl, domainOf_ok.mp hdl⟩
  obtain ⟨ls, hls, hsub⟩ := exists_map_eq hdomains
  have hlen : ls.length = domains.dedup.length := by
    have hmap : (domains.dedup.map some).length = domains.dedup.length := List.length_map _
    rw [← hmap, ← hls, List.length_map]
  refine ⟨ls, hlen.ge, fun l hl => ?_, ?_⟩
  · obtain ⟨hin, hok⟩ := List.mem_filter.mp (hsub l hl)
    have hdom : (app.allowed l.node).map AllowedNode.failureDomain ∈ domains.dedup.map some := by
      rw [← hls]
      exact List.mem_map_of_mem hl
    obtain ⟨d, -, hd⟩ := List.mem_map.mp hdom
    refine ⟨hin, of_decide_eq_true hok, ?_⟩
    rw [← Option.isSome_map (f := AllowedNode.failureDomain), ← hd]
    rfl
  · rw [hls]
    exact (List.nodup_dedup _).map (Option.some_injective _)

theorem DurableAt.mono {block : Id} {n m : Nat} (h : n ≤ m) (hd : DurableAt app w block m) :
    DurableAt app w block n := by
  obtain ⟨ls, hlen, hrest⟩ := hd
  exact ⟨ls, h.trans hlen, hrest⟩

/-- What `validate_policy` lets through. -/
structure Validated (c : Cluster) (op : Operation) : Prop where
  revision : ∀ q ∈ op.policy, q.revision = (policyOf c op.file).revision
  active : (policyOf c op.file).state ≠ .promoting

theorem validatePolicy_ok {o : Option Operation} (h : (validatePolicy o) w = .ok ()) :
    ∃ op, o = some op ∧ Validated w.cluster op := by
  simp only [validatePolicy, Query.bind_ok, cluster, Query.read_ok, needSome_ok, need_ok] at h
  obtain ⟨c, rfl, op, hop, hrev, hst⟩ := h
  refine ⟨op, hop, fun q hq => ?_, hst⟩
  rw [Option.mem_def] at hq
  rwa [hq, Option.getD_some] at hrev

theorem requireDurable_ok {op : Operation} {b : BlockRef}
    (h : (requireDurable app op b) w = .ok ()) :
    DurableAt app w b.blockVersionId (policyOf w.cluster op.file).w := by
  simp only [requireDurable, Query.bind_ok, cluster, Query.read_ok, need_ok] at h
  obtain ⟨-, -, c, rfl, status, -, active, hactive, -, hle⟩ := h
  exact (eligibleDomains_ok hactive).mono hle

/-! ## Commits -/

/-- What a protected commit does: it publishes a snapshot of its file, under the policy that the
operation captured, and every block that the file did not have counts in enough domains. -/
structure Durably (app : App) (w w' : World) (op : Operation) (s : Snapshot) : Prop where
  stored : w.access.uploads.get op.id = some op
  preparing : op.state = .preparing
  committed : ∃ result, w'.access.uploads.get op.id =
    some { op with state := .committed, result := some result, reserved := 0 } ∧
      result.snapshot = s.ref
  published : w'.access.snapshots.get s.id = some s
  file_eq : s.file = op.file
  policies : w'.cluster = w.cluster
  validated : Validated w.cluster op
  durable : ∀ b ∈ s.blocks,
    (∀ n c, Current w.access s.file n c → ∀ x ∈ c.blocks, x.blockVersionId ≠ b.blockVersionId) →
      ∃ u, w.Later u ∧ u.access.phase ≤ w'.access.phase ∧
        DurableAt app u b.blockVersionId (policyOf w.cluster op.file).w

/-- A check inside a transaction says something about the policies it began with. -/
theorem durable_within {op : Operation} {b : BlockRef} {u v : World} {n : Nat} (hu : w.Later u)
    (hv : u.Later v) (hn : v.access.phase ≤ n) (h : (requireDurable app op b) u = .ok ()) :
    ∃ u, w.Later u ∧ u.access.phase ≤ n ∧
      DurableAt app u b.blockVersionId (policyOf w.cluster op.file).w := by
  have hcluster : u.cluster = w.cluster := by
    obtain ⟨k, rfl⟩ := hu
    rfl
  have hphase : u.access.phase ≤ v.access.phase := by
    obtain ⟨k, rfl⟩ := hv
    exact Nat.le_add_right _ _
  exact ⟨u, hu, hphase.trans hn, hcluster ▸ requireDurable_ok h⟩

/-- The result of a commit is completed and written back; the snapshot stays. -/
theorem policyResult_finished {v : World} {op : Operation} {s : Snapshot} {k : Id}
    {res res' : CommitResult} {w' : World} (hk : op.id = k) (hfin : Finished v.access op s res)
    (hsnap : res.snapshot = s.ref)
    (h : (do
      let a ← access
      let op ← deref (a.uploads.get k)
      policyResult app op res : T CommitResult) v = .ok (res', w')) :
    (∃ result, w'.access.uploads.get op.id =
      some { op with state := .committed, result := some result, reserved := 0 } ∧
        result.snapshot = s.ref) ∧
      w'.access.snapshots.get s.id = some s ∧ v.access.phase ≤ w'.access.phase := by
  simp only [↓run_access, ↓run_deref, setAccess_access, setAccess_setAccess, Access.later_later,
    Nat.reduceAdd] at h
  obtain ⟨o, ho, h⟩ := h
  rw [← hk, hfin.op, Option.some.injEq] at ho
  subst ho
  have hget : (v.setAccess (v.access.later 2)).access.uploads.get op.id =
      some { op with state := .committed, result := some res, reserved := 0 } := hfin.op
  obtain ⟨-, hsame, hstored, hsnaps, hlater⟩ := policyResult_ok Trust.all
    (w := v.setAccess (v.access.later 2)) hget (fun _ => rfl) h
  exact ⟨⟨res', hstored, hsame.trans hsnap⟩, hsnaps ▸ hfin.snap,
    Nat.le_trans (Nat.le_add_right _ _) hlater⟩

theorem protectionCommitUpload_durably (hr : app.replicated = true) (hs : Sound app w.access)
    {user : User} {session : Session} {req : CommitUploadRequest} {res : CommitResult} {w' : World}
    (h : (protectionCommitUpload app user session req) w = .ok (res, w')) :
    ∃ op s, op.id = req.operation.operationId ∧ Durably app w w' op s := by
  have hcluster : w'.cluster = w.cluster :=
    Leaves.leaves (inferInstance : Leaves World.cluster (protectionCommitUpload app user session req)) _ _ h
  unfold protectionCommitUpload at h
  simp only [↓run_access, run_query, setAccess_access, setAccess_setAccess, Access.later_later,
    Nat.reduceAdd] at h
  obtain ⟨_, hvalid, h⟩ := h
  obtain ⟨o, ho, hvalidated⟩ := validatePolicy_ok hvalid
  obtain ⟨res₀, s₁, hres, h⟩ := Tx.bind_ok.mp h
  obtain ⟨op, n, p, s, v, d, -, hid, hv, hdone, hsnap, hfin, hphase, hchecked⟩ :=
    accessCommitUpload_ok (hs.advance 2) hres
  obtain ⟨hcommitted, hpublished, hend⟩ := policyResult_finished hid hfin hsnap h
  obtain ⟨j, rfl⟩ := hv
  have hget : w.access.uploads.get op.id = some op := hdone.ok.stored
  have hop : o = op := by
    rw [← hid, hget, Option.some.injEq] at ho
    exact ho.symm
  subst hop
  have hshape := hs.uploadShape o (Table.mem_of_get hget) ⟨hdone.ok.kind, hdone.ok.state⟩
  refine ⟨o, s, hid, ?_⟩
  exact
    { stored := hget
      preparing := hdone.ok.state
      committed := hcommitted
      published := hpublished
      file_eq := hdone.snap.file_eq
      policies := hcluster
      validated := hvalidated
      durable := fun b hb _ => by
        -- A block of the manifest was staged, so it was allocated, so it was checked.
        obtain ⟨page, hpage, hin⟩ := hdone.ok.paged b hb
        obtain ⟨i, hi⟩ := hshape.paged page hpage b hin
        obtain ⟨u, u', hu, hu', hf⟩ := hchecked (i, b) hi
        rw [requireAllocated, if_pos hr] at hf
        have hd := (last_query.mp hf).1
        exact durable_within (World.Later.trans ⟨2, rfl⟩ hu) hu' (hphase.trans hend) hd }

theorem protectionCommitWrite_durably (hr : app.replicated = true) {user : User}
    {session : Session} {req : CommitWriteRequest} {res : CommitResult} {w' : World}
    (hs : Sound app w.access)
    (h : (protectionCommitWrite app user session req) w = .ok (res, w')) :
    ∃ op s, op.id = req.operation.operationId ∧ Durably app w w' op s := by
  have hcluster : w'.cluster = w.cluster :=
    Leaves.leaves (inferInstance : Leaves World.cluster (protectionCommitWrite app user session req)) _ _ h
  unfold protectionCommitWrite at h
  simp only [↓run_access, run_query, setAccess_access, setAccess_setAccess, Access.later_later,
    Nat.reduceAdd] at h
  obtain ⟨_, hvalid, h⟩ := h
  obtain ⟨o, ho, hvalidated⟩ := validatePolicy_ok hvalid
  obtain ⟨res₀, s₁, hres, h⟩ := Tx.bind_ok.mp h
  obtain ⟨op, g, n, c, s, -, hid, hwritten, hsnap, hfin, hlen, v, hv, hphase, hchecked⟩ :=
    accessCommitWrite_ok hres
  obtain ⟨hcommitted, hpublished, hend⟩ := policyResult_finished hid hfin hsnap h
  obtain ⟨b₀, hok⟩ := hwritten.ok
  have hget : w.access.uploads.get op.id = some op := hok.stored
  have hop : o = op := by
    rw [← hid, hget, Option.some.injEq] at ho
    exact ho.symm
  subst hop
  obtain ⟨g', hg', hfile, -⟩ := hs.writeHandle o (Table.mem_of_get hget) ⟨hok.kind, hok.state⟩
  obtain rfl : g' = g := Option.some.inj (hg'.symm.trans hok.handle)
  refine ⟨o, s, hid, ?_⟩
  exact
    { stored := hget
      preparing := hok.state
      committed := hcommitted
      published := hpublished
      file_eq := hwritten.file_eq.trans hfile
      policies := hcluster
      validated := hvalidated
      durable := fun b hb hold => by
        -- A block of the merged manifest was there, or it replaces a part and was checked.
        rcases mem_mergeParts hok.merged hb with hin | ⟨x, hx, rfl⟩
        · exact absurd rfl (hold n c (hwritten.file_eq ▸ hok.current) b hin)
        · rw [List.zip_map_right] at hx
          obtain ⟨y, hy, rfl⟩ := List.mem_map.mp hx
          obtain ⟨u, hu, hu', hd⟩ := (hchecked y hy).durable hr
          exact durable_within (World.Later.trans ⟨2, rfl⟩ hu) hu' (hphase.trans hend) hd }

/-! ## Captured policies -/

/-- Anything may be reported, and every operation but one may begin. -/
def Trust.but (k : Id) : Trust := { Trust.all with begins := fun j => j ≠ k }

/-- What neither begins an operation nor finds it does not make it. -/
theorem unbegun {k : Id} {a b : Access} (h : Acts app (Trust.but k) a b)
    (ha : a.uploads.get k = none) : b.uploads.get k = none :=
  h.unbegun (fun hne => hne rfl) ha

/-- The operation that appears is the one that began. -/
theorem begun_eq {k j : Id} {a b : Access} (h : (Trust.but k).begins j → Acts app (Trust.but k) a b)
    (ha : a.uploads.get k = none) (hb : b.uploads.get k ≠ none) : j = k := by
  by_contra hne
  exact hb (unbegun (h hne) ha)

/-- A command that begins an operation captures its policy. -/
theorem execute_captured (hr : app.profile = .replicated) (hs : Sound app w.access) {user : User}
    {session : Session} {ctx : RequestContext} {cmd : Command} {res : Response} {w' : World}
    {k : Id} {o : Operation} (hk : w.access.uploads.get k = none)
    (ho : w'.access.uploads.get k = some o)
    (h : (execute app user session ctx cmd) w = .ok (res, w')) :
    o.policy = some (policyOf w'.cluster o.file) := by
  have hrf : app.rf3 = true := by simp [App.rf3, hr]
  have hne : w'.access.uploads.get k ≠ none := by simp [ho]
  by_cases hb : cmd.begins = true
  · cases cmd with
    | beginUpload req =>
        simp only [execute, beginUpload, hr] at h
        obtain ⟨plan, s, hplan, h⟩ := Tx.bind_ok.mp h
        rw [Tx.pure_ok, Prod.mk.injEq] at h
        obtain ⟨-, rfl⟩ := h
        obtain ⟨op, hacts, hget, hp⟩ := protectionBeginUpload_ok (Trust.but k) hrf hs hplan
        have hid : op.id = k := begun_eq hacts hk hne
        obtain rfl : op = o := Option.some.inj (hget.symm.trans (hid ▸ ho))
        exact hp
    | beginWrite req =>
        simp only [execute, beginWrite, hrf, App.replicated, hr, if_true] at h
        obtain ⟨plan, s, hplan, h⟩ := Tx.bind_ok.mp h
        rw [Tx.pure_ok, Prod.mk.injEq] at h
        obtain ⟨-, rfl⟩ := h
        obtain ⟨op, hacts, hget, hp, -⟩ := protectionBeginWrite_ok (Trust.but k) hrf hs hplan
        have hid : op.id = k := begun_eq hacts hk hne
        obtain rfl : op = o := Option.some.inj (hget.symm.trans (hid ▸ ho))
        exact hp
    | _ => cases hb
  · have hrefines : Refines app (Trust.but k) (execute app user session ctx cmd) :=
      execute_refines (fun h => absurd h hb) (fun _ => ⟨fun _ => trivial, fun _ => trivial⟩)
        (fun _ => trivial) user session ctx
    exact absurd (unbegun (hrefines w _ hs h) hk) hne

/-- **An operation captures the policy of its file in the step in which it begins.** -/
theorem Step.captured (hr : app.profile = .replicated) {v : World} {e : Event}
    (hs : Sound app w.access) (h : Step app reports w e v) {k : Id} {o : Operation}
    (hk : w.access.uploads.get k = none) (ho : v.access.uploads.get k = some o) :
    o.policy = some (policyOf v.cluster o.file) := by
  have hne : v.access.uploads.get k ≠ none := by simp [ho]
  cases h with
  | advance j free => exact absurd hk hne
  | serve _ h =>
      obtain ⟨user, session, -, hcase⟩ := serve_cases h
      rcases hcase with ⟨-, rfl⟩ | ⟨-, u, verifier, hexec, -, rfl⟩
      · exact absurd hk hne
      · have hcap : o.policy = some (policyOf u.cluster o.file) :=
          execute_captured (w := w.setAccess (w.access.later 2)) hr (hs.advance 2) hk ho hexec
        exact hcap
  | lookup _ _ => exact absurd hk hne
  | refuse _ _ => exact absurd hk hne
  | @call _ c _ _ _ h =>
      have hrefines : Refines app (Trust.but k) (c.run app) := call_refines (by
        cases c <;> simp [Trust.admits, Trust.but, Trust.all])
      exact absurd (unbegun (hrefines w _ hs h) hk) hne
  | @start _ t _ hnext h =>
      have hrefines : Refines app (Trust.but k) t := start_refines hnext
      exact absurd (unbegun (hrefines w _ hs h) hk) hne
  | crash clk => exact absurd hk hne

/-! ## Runs -/

/-- The operation that a command commits. -/
def Command.commits : Command → Option Id
  | .commitUpload req => some req.operation.operationId
  | .commitWrite req => some req.operation.operationId
  | _ => none

/-- In a replicated control every operation has captured a policy. -/
theorem Reachable.captured (hr : app.profile = .replicated) (h : Reachable app reports w) :
    ∀ o ∈ w.access.uploads.all, o.policy.isSome = true := by
  obtain ⟨clk, username, password, es, hrun⟩ := h
  refine (hrun.induct (P := fun v => Sound app v.access ∧
    ∀ o ∈ v.access.uploads.all, o.policy.isSome = true) (fun v e v' hstep hv => ?_)
      ⟨sound_initial clk username password, fun o ho => absurd ho List.not_mem_nil⟩).2
  obtain ⟨hs, hall⟩ := hv
  have hacts := hstep.all hs
  refine ⟨hs.acts hacts, fun o ho => ?_⟩
  by_cases hold : v.access.uploads.get o.id = none
  · rw [hstep.captured hr hs hold (Table.get_of_mem ho)]
    rfl
  · obtain ⟨p, hp⟩ := Option.ne_none_iff_exists'.mp hold
    obtain ⟨q, hq⟩ := Option.isSome_iff_exists.mp (hall p (Table.mem_of_get hp))
    obtain ⟨o', ho', hev⟩ := hacts.uploads o.id p hp
    obtain rfl : o' = o := Option.some.inj (ho'.symm.trans (Table.get_of_mem ho))
    rw [hev.policy q hq]
    rfl

/-- **Every commit of a replicated control is durable**: the request is answered from the ledger,
or it publishes a snapshot whose new blocks have copies that count in as many failure domains as
the file's policy asks for.  That policy is not being promoted, and has the revision that it had
in the step in which the operation began, whatever happened in between. -/
theorem durable_publication (hr : app.profile = .replicated) (h : Reachable app reports w)
    {token : Id} {ctx : RequestContext} {cmd : Command} {r : Response} {w' : World} {k : Id}
    (hk : cmd.commits = some k) (hserve : (serve app token ctx cmd) w = .ok (r, w')) :
    w.Later w' ∨ ∃ op s, op.id = k ∧ Durably app w w' op s ∧
      (∃ q, op.policy = some q ∧ q.revision = (policyOf w.cluster op.file).revision) ∧
      ∀ v v' e es, Reachable app reports v → Step app reports v e v' →
        v.access.uploads.get k = none → (v'.access.uploads.get k).isSome = true →
        Run app reports v' es w →
          (policyOf v'.cluster op.file).revision = (policyOf w.cluster op.file).revision := by
  have hrep : app.replicated = true := App.replicated_iff.mpr hr
  obtain ⟨user, session, -, hcase⟩ := serve_cases hserve
  rcases hcase with ⟨-, rfl⟩ | ⟨-, u, verifier, hexec, -, rfl⟩
  · exact .inl ⟨2, rfl⟩
  · refine .inr ?_
    have hs := h.sound.advance 2
    obtain ⟨op, s, hid, hd⟩ : ∃ op s, op.id = k ∧
        Durably app (w.setAccess (w.access.later 2)) u op s := by
      cases cmd with
      | commitUpload req =>
          simp only [execute, commitUpload, hr] at hexec
          obtain ⟨res, v, hres, hexec⟩ := Tx.bind_ok.mp hexec
          rw [Tx.pure_ok, Prod.mk.injEq] at hexec
          obtain ⟨-, rfl⟩ := hexec
          rw [Command.commits, Option.some.injEq] at hk
          exact hk ▸ protectionCommitUpload_durably hrep hs hres
      | commitWrite req =>
          have hrf : app.rf3 = true := by simp [App.rf3, hr]
          simp only [execute, commitWrite, hrf, hrep, if_true] at hexec
          obtain ⟨res, v, hres, hexec⟩ := Tx.bind_ok.mp hexec
          rw [Tx.pure_ok, Prod.mk.injEq] at hexec
          obtain ⟨-, rfl⟩ := hexec
          rw [Command.commits, Option.some.injEq] at hk
          exact hk ▸ protectionCommitWrite_durably hrep hs hres
      | _ => cases hk
    have hmem := Table.mem_of_get hd.stored
    obtain ⟨q, hq⟩ := Option.isSome_iff_exists.mp (h.captured hr op hmem)
    have hrevision : q.revision = (policyOf w.cluster op.file).revision :=
      hd.validated.revision q hq
    refine ⟨op, s, hid, ?_, ⟨q, hq, hrevision⟩, fun v v' e es hv hstep hnone hsome hrun => ?_⟩
    · exact
        { hd with
          durable := fun b hb hold => by
            obtain ⟨t, ht, hphase, hdur⟩ := hd.durable b hb hold
            exact ⟨t, World.Later.trans ⟨2, rfl⟩ ht, Nat.le_trans hphase (Nat.le_add_right _ _),
              hdur⟩ }
    · obtain ⟨o, ho⟩ := Option.isSome_iff_exists.mp hsome
      have hcap := hstep.captured hr hv.sound hnone ho
      have hacts := hrun.acts (hv.run (Run.single hstep)).sound
      obtain ⟨p, hp, hev⟩ := hacts.uploads k o ho
      obtain rfl : p = op := Option.some.inj (hp.symm.trans (hid ▸ hd.stored))
      have hsame := hev.policy _ hcap
      rw [hq, Option.some.injEq] at hsame
      rw [← hrevision, hsame, hev.file_eq]

theorem small_durable : ∃ w w' r op s, Reachable (App.small .replicated) (fun _ => True) w ∧
    (serve (App.small .replicated) 8 (smallContext 53) smallCommand) w = .ok (r, w') ∧
      op.id = 13 ∧ Durably (App.small .replicated) w w' op s := by
  obtain ⟨w, hw, hpre, hpost⟩ := exists_of_perform (App.small .replicated) smallStored
    (World.small .replicated) (fun w =>
      (w.access.uploads.get 13).map Operation.state = some .preparing ∧
      ((w.after (serve (App.small .replicated) 8 (smallContext 53) smallCommand)).bind
        fun v => (v.access.uploads.get 13).map Operation.state) = some .committed)
    (by decide +kernel)
  have hreach := perform_reachable hw
  obtain ⟨v, hv, hst⟩ := Option.bind_eq_some_iff.mp hpost
  obtain ⟨r, hr⟩ := after_eq_some hv
  have hreplicated : (App.small .replicated).profile = .replicated := rfl
  rcases durable_publication hreplicated hreach (k := 13) rfl hr with hlater | ⟨op, s, hid, hd, -⟩
  · obtain ⟨k, rfl⟩ := hlater
    rw [setAccess_access, Access.later_uploads, hpre] at hst
    cases hst
  · exact ⟨w, v, r, op, s, hreach, hr, hid, hd⟩

end Dfsha
