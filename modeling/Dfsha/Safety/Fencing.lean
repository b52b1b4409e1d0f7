import Dfsha.Protocol.History
import Dfsha.Safety.Leases

/-!
# Fencing

A writer that paused for too long is fenced off.  Its handle or one of its locks is over, and
what is over stays over, so its operation can never be committed; and a fence for a lock that
is over is refused wherever a request presents one.

## Main results

* `execute_presents` — a command that is carried out found its fences live.
* `fenced_off` — an operation that lost a lease never commits, and its fences are refused.
-/

namespace Dfsha

variable {app : App} {reports : Call → Prop} {w : World}

/-! ## Fences in requests -/

/-- A command relies on a fence: it names it, or the write that it commits does. -/
def Presents (a : Access) (f : Fence) : Command → Prop
  | .renewLock fence => fence = f
  | .unlock fence => fence = f
  | .beginWrite req => f ∈ req.fences
  | .commitWrite req => ∃ op, a.uploads.get req.operation.operationId = some op ∧ f ∈ op.fences
  | _ => False

/-- The lock that a fence names is live. -/
def Admits (a : Access) (f : Fence) : Prop := ∃ l, a.locks.get f.lockId = some l ∧ a.liveLock l

theorem Admits.earlier {a : Access} {f : Fence} {k : Nat} (h : Admits (a.later k) f) :
    Admits a f := by
  obtain ⟨l, hget, hlive⟩ := h
  exact ⟨l, hget, Access.live_of_later hlive⟩

theorem validate_admits {session : Session} {f : Fence} {l : Lock}
    (h : (validate session f) w = .ok l) : Admits w.access f := by
  obtain ⟨hget, -, hlive, -⟩ := validate_ok h
  exact ⟨l, hget, hlive⟩

theorem gatherFences_admits {session : Session} {h : Handle} {indices : List Nat}
    {fences : List Fence} {g : Gathered} {w' : World}
    (hr : (gatherFences session h indices fences) w = .ok (g, w')) :
    ∀ f ∈ fences, Admits w.access f := by
  -- The fences that are still to come are a suffix; those before it were live.
  have hfold := Tx.fold_induction (fun rest (_ : Gathered) v => w.Later v ∧
    ∀ f ∈ fences, f ∈ rest ∨ Admits w.access f) ?_ ⟨.refl w, fun f hf => .inl hf⟩ hr
  · intro f hf
    exact (hfold.2 f hf).resolve_left List.not_mem_nil
  · rintro fence rest x x' v v' ⟨⟨k, rfl⟩, hrest⟩ hturn
    simp only [↓run_need, run_query, setAccess_access, setAccess_setAccess, Access.later_later,
      Tx.pure_ok, Prod.mk.injEq] at hturn
    obtain ⟨l, hv, -, -, rfl⟩ := hturn
    refine ⟨⟨k + 1 + 1, rfl⟩, fun f hf => ?_⟩
    rcases hrest f hf with hmem | hadm
    · rcases List.mem_cons.mp hmem with rfl | hmem
      · exact .inr (Admits.earlier (k := k) (validate_admits hv))
      · exact .inl hmem
    · exact .inr hadm

theorem accessBeginWrite_admits {user : User} {session : Session} {ctx : RequestContext}
    {req : BeginWriteRequest} {r : WritePlan × World}
    (h : (accessBeginWrite app user session ctx req) w = .ok r) :
    ∀ f ∈ req.fences, Admits w.access f := by
  unfold accessBeginWrite at h
  simp only [↓run_needSome, ↓run_need, run_query, run_draw, setAccess_access, setAccess_setAccess,
    Access.later_later, Access.later_shift, Access.shift_later, Nat.reduceAdd] at h
  obtain ⟨t, -, offset, -, length, -, growing, -, -, h⟩ := h
  obtain ⟨g, s, hfences, -⟩ := Tx.bind_ok.mp h
  intro f hf
  obtain ⟨l, hget, hlive⟩ := gatherFences_admits hfences f hf
  exact Admits.earlier (k := 6) ⟨l, hget, hlive⟩

theorem beginWrite_admits {user : User} {session : Session} {ctx : RequestContext}
    {req : BeginWriteRequest} {r : Response × World}
    (h : (beginWrite app user session ctx req) w = .ok r) :
    ∀ f ∈ req.fences, Admits w.access f := by
  unfold beginWrite at h
  obtain ⟨plan, s, hplan, -⟩ := Tx.bind_ok.mp h
  split at hplan
  · unfold protectionBeginWrite at hplan
    simp only [↓run_cluster, ↓run_need, run_query, setAccess_access, setAccess_setAccess,
      Access.later_later, Nat.reduceAdd] at hplan
    obtain ⟨_, -, -, hplan⟩ := hplan
    obtain ⟨p, u, hp, -⟩ := Tx.bind_ok.mp hplan
    exact fun f hf => Admits.earlier (k := 3) (accessBeginWrite_admits hp f hf)
  · exact accessBeginWrite_admits hplan

theorem commitWrite_admits {user : User} {session : Session} {req : CommitWriteRequest}
    {r : CommitResult × World} (h : (commitWrite app user session req) w = .ok r) {op : Operation}
    (hop : w.access.uploads.get req.operation.operationId = some op) :
    ∀ f ∈ op.fences, Admits w.access f := by
  have haccess : ∀ {v : World} {r : CommitResult × World}, v.access.uploads = w.access.uploads →
      (accessCommitWrite app user session req) v = .ok r → ∀ f ∈ op.fences, Admits v.access f := by
    intro v r hv h
    unfold accessCommitWrite at h
    obtain ⟨t, u, ht, -⟩ := Tx.bind_ok.mp h
    obtain ⟨-, hid, s, hc⟩ := writeOperation_ok ht
    have hget := hc.stored
    rw [hid, hv] at hget
    obtain rfl : op = t.op := Option.some.inj (hop.symm.trans hget)
    exact hc.fences
  unfold commitWrite at h
  split at h
  · unfold protectionCommitWrite at h
    simp only [↓run_access, run_query, setAccess_access, setAccess_setAccess, Access.later_later,
      Nat.reduceAdd] at h
    obtain ⟨_, -, h⟩ := h
    obtain ⟨res, s, hres, -⟩ := Tx.bind_ok.mp h
    exact fun f hf => Admits.earlier (k := 2) (haccess (v := w.setAccess (w.access.later 2)) rfl hres f hf)
  · exact haccess rfl h

/-- **A command that is carried out found its fences live.** -/
theorem execute_presents {user : User} {session : Session} {ctx : RequestContext} {cmd : Command}
    {r : Response × World} (h : (execute app user session ctx cmd) w = .ok r) {f : Fence}
    (hf : Presents w.access f cmd) : Admits w.access f := by
  have hrefuse : ∀ {α : Type} {x : α × World}, (unimplemented : T α) w = .ok x → False :=
    fun h => by cases h
  cases cmd with
  | renewLock fence =>
      obtain rfl : fence = f := hf
      simp only [execute] at h
      split at h
      · unfold renewLock at h
        simp only [run_query] at h
        obtain ⟨t, -, l, hv, -⟩ := h
        exact Admits.earlier (k := 1) (validate_admits hv)
      · exact (hrefuse h).elim
  | unlock fence =>
      obtain rfl : fence = f := hf
      simp only [execute] at h
      split at h
      · unfold unlock at h
        simp only [run_query] at h
        obtain ⟨l, hv, -⟩ := h
        exact validate_admits hv
      · exact (hrefuse h).elim
  | beginWrite req =>
      simp only [execute] at h
      split at h
      · exact beginWrite_admits h f hf
      · exact (hrefuse h).elim
  | commitWrite req =>
      obtain ⟨op, hop, hmem⟩ := hf
      simp only [execute] at h
      split at h
      · obtain ⟨res, s, hres, -⟩ := Tx.bind_ok.mp h
        exact commitWrite_admits hres hop f hmem
      · exact (hrefuse h).elim
  | _ => exact hf.elim

/-! ## Writers that lost a lease -/

/-- The handle of a write, or a lock that it names, is over: its deadline has passed, or it was
released, or the control was started again. -/
def Expired (a : Access) (op : Operation) : Prop :=
  DeadHandle a op.handle ∨ ∃ f ∈ op.fences, DeadLock a f.lockId

instance (a : Access) (op : Operation) : Decidable (Expired a op) :=
  inferInstanceAs (Decidable (_ ∨ ∃ f ∈ op.fences, _))

/-- A write that is not committed and has lost a lease is lost. -/
theorem Sound.lost {a : Access} (hs : Sound app a) {op : Operation} (hop : op ∈ a.uploads.all)
    (hkind : op.kind = .write) (hst : op.state = .preparing) (he : Expired a op) :
    Lost app a op where
  kind := hkind
  stored := ⟨op, Table.get_of_mem hop, .refl op, by rw [hst]; decide⟩
  ended := by
    rcases he with hdead | ⟨f, hf, hdead⟩
    · obtain ⟨g, hg, -⟩ := hs.writeHandle op hop ⟨hkind, hst⟩
      exact .inl ⟨by rw [hg]; rfl, hdead⟩
    · exact .inr ⟨f, hf, (hs.writeFence op hop ⟨hkind, hst⟩ f hf).1, hdead⟩

/-- An operation that lost a lease never commits. -/
theorem expired_not_committed {a b : Access} (hs : Sound app a) (h : Acts app Trust.all a b)
    {op p : Operation} (hop : op ∈ a.uploads.all) (hkind : op.kind = .write)
    (hst : op.state ≠ .committed) (he : Expired a op) (hp : b.uploads.get op.id = some p) :
    p.state ≠ .committed := by
  by_cases hprep : op.state = .preparing
  · have hlost := Acts.keep (P := fun v => Lost app v op) (fun hact hl => hact.lost hl) h (hs.lost hop hkind hprep he)
    obtain ⟨q, hq, -, hne⟩ := hlost.stored
    obtain rfl : q = p := Option.some.inj (hq.symm.trans hp)
    exact hne
  · obtain ⟨q, hq, hev⟩ := h.uploads op.id op (Table.get_of_mem hop)
    obtain rfl : q = p := Option.some.inj (hq.symm.trans hp)
    have hover : op.state = .aborted ∨ op.state = .expired := by
      cases hs : op.state with
      | preparing => exact absurd hs hprep
      | committed => exact absurd hs hst
      | aborted => exact .inl rfl
      | expired => exact .inr rfl
    rcases hev.ended hover with h | h <;> rw [h] <;> decide

/-- **Fencing.**  A write that is not committed when its handle or one of its locks is over
is not committed in any later state.  And once a lock is over, no fence for it is accepted: not
by `validate`, and not by any command that relies on it. -/
theorem fenced_off (h : Reachable app reports w) :
    (∀ op ∈ w.access.uploads.all, op.kind = .write → op.state ≠ .committed →
      Expired w.access op → ∀ es v, Run app reports w es v → ∀ p,
        v.access.uploads.get op.id = some p → p.state ≠ .committed) ∧
    (∀ l ∈ w.access.locks.all, ∀ f : Fence, f.lockId = l.id → ∀ es v, Run app reports w es v →
      DeadLock v.access l.id → ∀ fs u, Run app reports v fs u →
        (∀ session x, (validate session f) u ≠ .ok x) ∧
        ∀ user session ctx cmd r, Presents u.access f cmd →
          (execute app user session ctx cmd) u ≠ .ok r) := by
  have hs := h.sound
  refine ⟨fun op hop hkind hst he es v hrun p hp => ?_, fun l hl f hf es v hrun hdead fs u hrun' => ?_⟩
  · exact expired_not_committed hs (hrun.acts hs) hop hkind hst he hp
  · have hacts := hrun.acts hs
    have hissued : Issued app v.access l.id :=
      Acts.keep (P := fun a => Issued app a l.id) (fun hact hi => hi.act hact) hacts
        (hs.ids.locks l hl l.id (by simp [Lock.ids]))
    have hover : Issued app u.access l.id ∧ DeadLock u.access l.id :=
      Acts.keep (P := fun a => Issued app a l.id ∧ DeadLock a l.id)
        (fun hact hi => ⟨hi.1.act hact, hact.dead_lock hi.1 hi.2⟩)
        (hrun'.acts (hs.acts hacts)) ⟨hissued, hdead⟩
    have hrefuse : ¬ Admits u.access f := by
      rintro ⟨m, hget, hlive⟩
      exact hover.2 m (hf ▸ hget) hlive
    exact ⟨fun session x hx => hrefuse (validate_admits hx),
      fun user session ctx cmd r hc hr => hrefuse (execute_presents hr hc)⟩

/-- A write begins, and its writer pauses for longer than its leases last. -/
def smallPause : List Input := smallBegin ++ [.advance 60000000 0]

theorem small_fenced_off : ∃ w op l, Reachable (App.small .rf3) (fun _ => True) w ∧
    op ∈ w.access.uploads.all ∧ l ∈ w.access.locks.all ∧
    (∀ es v, Run (App.small .rf3) (fun _ => True) w es v → ∀ p,
      v.access.uploads.get op.id = some p → p.state ≠ .committed) ∧
    ∀ f : Fence, f.lockId = l.id → ∀ session x, (validate session f) w ≠ .ok x := by
  obtain ⟨w, hw, op, hop, l, hl, hkind, hst, he, hdead⟩ := exists_of_perform
    (App.small .rf3) smallPause (World.small .rf3)
    (fun w => ∃ op ∈ w.access.uploads.all, ∃ l ∈ w.access.locks.all, op.kind = .write ∧
      op.state ≠ .committed ∧ Expired w.access op ∧ DeadLock w.access l.id) (by decide +kernel)
  have hreach := perform_reachable hw
  obtain ⟨h1, h2⟩ := fenced_off hreach
  exact ⟨w, op, l, hreach, hop, hl, h1 op hop hkind hst he, fun f hf =>
    (h2 l hl f hf [] w (.nil w) hdead [] w (.nil w)).1⟩

end Dfsha
