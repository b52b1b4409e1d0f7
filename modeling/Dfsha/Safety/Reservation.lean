import Dfsha.Safety.Tree

/-!
# Names that uploads hold

An upload of a new file holds its name from the moment it begins: as long as it is pending, the
name stays free and its directory stays.  `Mkdir`, `Open` and `BeginUpload` look at the pending
uploads before they add a node, and `Rmdir` before it removes one.  `CreateUser` does not, so the
name of an account may be taken while somebody uploads a file of that name to the directory of
accounts.

## Main results

* `name_reserved` — a pending upload finds its name free, in every run in which no account takes
  it, and in which the clock does not bring back an upload of the same name that had expired.
* `reservation_broken` — a run in which an account takes the name of a pending upload.
-/

namespace Dfsha

variable {app : App} {reports : Call → Prop} {w : World}

/-! ## Time -/

/-- Without crashes, a sequence of actions goes on by one clock. -/
theorem Acts.onward {trust : Trust} {a b : Access} (hc : ¬ trust.crashes) (h : Acts app trust a b) :
    a.Onward b := by
  induction h with
  | refl => exact .refl a
  | tail _ hact ih =>
      refine ih.trans ?_
      cases hact with
      | advance j => exact ⟨rfl, Nat.le_add_right _ _⟩
      | crash clk hcrash => exact absurd hcrash hc
      | _ => exact .refl _

/-- An upload that has expired is not revived by a sequence of actions without crashes. -/
theorem Acts.lapses {trust : Trust} {a b : Access} (hc : ¬ trust.crashes) (h : Acts app trust a b) :
    a.uploads.Grows (fun o p => o.kind = .upload → p.expires = o.expires ∨
      ∃ t, a.Within b t ∧ t < o.expires) b.uploads := by
  induction h with
  | refl => exact .refl (fun _ _ => .inl rfl) _
  | @tail c d hacts hact ih =>
      have honward := Acts.onward hc hacts
      have honward' := Acts.onward hc (.single hact)
      intro k o ho
      obtain ⟨p, hp, hop⟩ := ih k o ho
      obtain ⟨q, hq, hpq⟩ := hact.lapses k p hp
      refine ⟨q, hq, fun hkind => ?_⟩
      rcases hop hkind with he | ⟨t, ⟨i, hi, hi', ht⟩, hlt⟩
      · obtain ⟨p', hp', hev⟩ := Acts.uploads hacts k o ho
        obtain rfl : p' = p := Option.some.inj (hp'.symm.trans hp)
        rcases hpq (by rw [hev.kind_eq, hkind]) with he' | hlt
        · exact .inl (he'.trans he)
        · refine .inr ⟨c.now, ⟨c.phase, honward.2, honward'.2, ?_⟩, he ▸ hlt⟩
          rw [Access.now, honward.1]
      · exact .inr ⟨t, ⟨i, hi, hi'.trans honward'.2, ht⟩, hlt⟩

/-- Nothing is assumed but that there are no crashes. -/
def Trust.calm : Trust := { Trust.all with crashes := False }

/-- A step is a crash, or has none in it. -/
theorem Step.calm {v : World} {e : Event} (hs : Sound app w.access)
    (h : Step app reports w e v) :
    (∃ clk, v = w.crash clk) ∨ Acts app Trust.calm w.access v.access := by
  cases h with
  | advance k free => exact .inr (acts_later _ k)
  | serve _ h =>
      exact .inr (serve_refines (fun _ _ => trivial) (fun _ => ⟨fun _ => trivial, fun _ => trivial⟩)
        (fun _ => trivial) _ _ w _ hs h)
  | lookup _ _ => exact .inr .refl
  | refuse _ _ => exact .inr .refl
  | @call _ c _ _ _ h =>
      have hrefines : Refines app Trust.calm (c.run app) := call_refines (by
        cases c <;> simp [Trust.admits, Trust.calm, Trust.all])
      exact .inr (hrefines w _ hs h)
  | start hnext h => exact .inr (start_refines hnext w _ hs h)
  | crash clk => exact .inl ⟨clk, rfl⟩

/-- The expiry of an upload moves only in a step in which it is still ahead. -/
theorem Step.lapses {v : World} {e : Event} (hs : Sound app w.access)
    (h : Step app reports w e v) :
    w.access.uploads.Grows (fun o p => o.kind = .upload → p.expires = o.expires ∨
      ∃ t, w.access.Within v.access t ∧ t < o.expires) v.access.uploads := by
  rcases h.calm hs with ⟨clk, rfl⟩ | hacts
  · exact .refl (fun _ _ => .inl rfl) _
  · exact hacts.lapses (fun hc => hc)

/-! ## Uploads that are committed -/

/-- An upload is committed for good. -/
theorem commitUpload_committed {user : User} {session : Session} {req : CommitUploadRequest}
    {r : CommitResult × World} (hs : Sound app w.access)
    (h : (commitUpload app user session req) w = .ok r) :
    ∃ o, r.2.access.uploads.get req.operation.operationId = some o ∧ o.state = .committed := by
  unfold commitUpload at h
  split at h
  · obtain ⟨op, n, p, s, k, d, hid, -, -, he⟩ := commandsCommitUpload_ok hs h
    rw [he, ← hid]
    exact ⟨_, w.access.uploaded_op k d op n p s r.1, rfl⟩
  · obtain ⟨op, n, p, s, v, k, d, hid, -, -, -, he, -⟩ := clusterCommitUpload_ok hs h
    rw [he, ← hid]
    exact ⟨_, v.access.uploaded_op k d op n p s r.1, rfl⟩
  · obtain ⟨op, n, p, s, v, d, -, hid, -, -, -, hfin, -⟩ := accessCommitUpload_ok hs h
    exact ⟨_, hid ▸ hfin.op, rfl⟩
  · rename_i hp
    obtain ⟨op, s, hid, hd⟩ := protectionCommitUpload_durably (by simp [App.replicated, hp]) hs h
    obtain ⟨result, hget, -⟩ := hd.committed
    exact ⟨_, hid ▸ hget, rfl⟩

/-- A step that carries out the commit of an upload leaves it committed. -/
theorem Executes.committed {e : Event} {req : CommitUploadRequest} {v : World}
    (hs : Sound app w.access) (h : Executes app w e (.commitUpload req) v) :
    ∃ o, v.access.uploads.get req.operation.operationId = some o ∧ o.state = .committed := by
  obtain ⟨user, session, ctx, r, u, hexec, hacc, -, -⟩ := h.run
  obtain ⟨x, s, hx, hexec⟩ := Tx.bind_ok.mp hexec
  obtain ⟨o, ho, hst⟩ := commitUpload_committed
    (w := w.setAccess (w.access.later 2)) (hs.advance 2) hx
  rw [Tx.pure_ok, Prod.mk.injEq] at hexec
  refine ⟨o, ?_, hst⟩
  rw [hacc, Access.later_uploads, hexec.2]
  exact ho

/-! ## The reservation -/

/-- Another upload in preparation of a new file of this name. -/
structure Rival (k p : Id) (name : Text) (o : Operation) : Prop where
  other : o.id ≠ k
  kind : o.kind = .upload
  base : o.base = none
  parent : o.parent = some p
  name_eq : o.name = name
  state : o.state = .preparing

/-- A rival was one before. -/
theorem Rival.before {k p : Id} {name : Text} {o o' : Operation} (h : Rival k p name o')
    (hev : Evolves o o') : Rival k p name o :=
  ⟨hev.id_eq ▸ h.other, hev.kind_eq ▸ h.kind, hev.base_eq ▸ h.base, hev.parent_eq ▸ h.parent,
    hev.name_eq ▸ h.name_eq, hev.preparing h.state⟩

/-- Every other upload of a new file of this name has expired. -/
def Unrivaled (k p : Id) (name : Text) (a : Access) : Prop :=
  ∀ o ∈ a.uploads.all, Rival k p name o → o.expires ≤ a.now

/-- The upload is pending in a step: it does not expire, and is in preparation afterwards. -/
structure Pends (k : Id) (w v : World) : Prop where
  unexpired : ∀ o, w.access.uploads.get k = some o →
    ∀ t, w.access.Within v.access t → t < o.expires
  preparing : ∃ o, v.access.uploads.get k = some o ∧ o.state = .preparing

/-- What may not happen to a name while an upload holds it. -/
structure Undisturbed (app : App) (k p : Id) (name : Text) (w : World) (e : Event) (v : World) :
    Prop where
  /-- No new account gets its directory under this name. -/
  account : ∀ token ctx password r, e = .served token ctx (.createUser name password) r →
    (∀ u ∈ w.identity.users.all, u.username ≠ name) →
      ∀ home ∈ children w.access app.root, home.name = homeName → home.id ≠ p
  /-- An upload of the same name that had expired stays so as the clock is read on, -/
  clock : ∀ o ∈ w.access.uploads.all, Rival k p name o → ∀ i j, w.access.phase ≤ i → i ≤ j →
    j ≤ v.access.phase → o.expires ≤ w.access.clk.wall i → o.expires ≤ w.access.clk.wall j
  /-- and when the control is started again. -/
  restart : ∀ o ∈ w.access.uploads.all, Rival k p name o →
    o.expires ≤ w.access.now → o.expires ≤ v.access.now

/-- **In a step the name stays free**, and what else wanted it stays expired. -/
theorem Step.vacant (hn : Normalizes app) {v : World} {e : Event} {k p : Id} {name : Text}
    (hs : Sound app w.access) (hpl : Planted app w.access) (h : Step app reports w e v)
    (hvacant : Vacant w.access.nodes p name) (hrivals : Unrivaled k p name w.access)
    (hpends : Pends k w v) (hfree : Undisturbed app k p name w e v)
    (hold : ∃ o, w.access.uploads.get k = some o ∧ o.parent = some p ∧ o.name = name) :
    Vacant v.access.nodes p name ∧ Unrivaled k p name v.access := by
  obtain ⟨o, ho, hop, hname⟩ := hold
  obtain ⟨o', ho', hst'⟩ := hpends.preparing
  obtain ⟨o'', ho'', hev⟩ := h.uploads hs k o ho
  obtain rfl : o'' = o' := Option.some.inj (ho''.symm.trans ho')
  have hst : o.state = .preparing := hev.preparing hst'
  have hmem := Table.mem_of_get ho
  constructor
  · rcases h.grafts hn hs hpl with he | ⟨cmd, hexec, hg⟩
    · exact he ▸ hvacant
    · refine hvacant.acts (fun n hadd hp hnn => ?_) (fun n hrem hdir hid => ?_) hg.acts
      · cases hadd with
        | @unreserved q t hq _ ht hun =>
            rw [hp, Option.some.injEq] at hq
            have hle := hun o hmem (hq ▸ hop) (by rw [hnn, hname]) hst
            exact absurd (hpends.unexpired o ho t ht) (by omega)
        | @upload req x q t hc hid hx hkind hxst hb ht hlt hxp hq hxn _ =>
            rw [hp, Option.some.injEq] at hq
            by_cases hxk : x.id = k
            · -- The upload itself would be committed afterwards.
              subst hc
              obtain ⟨y, hy, hyst⟩ := hexec.committed hs
              rw [← hid, hxk, ho', Option.some.injEq] at hy
              rw [← hy, hst'] at hyst
              cases hyst
            · have hrival : Rival k p name x := ⟨hxk, hkind, hb, hq ▸ hxp, hxn ▸ hnn, hxst⟩
              obtain ⟨i, hi, hi', rfl⟩ := ht
              have hle := hfree.clock x hx hrival _ i (Nat.le_refl _) hi hi' (hrivals x hx hrival)
              omega
        | account hc hnew hhome hhn hq hun =>
            obtain ⟨token, ctx, r, he⟩ := hexec.event
            subst hc
            rw [hp, Option.some.injEq] at hq
            rw [hnn] at hun
            subst hun
            exact hfree.account token ctx _ r he hnew _ hhome hhn hq.symm
      · obtain ⟨t, ht, hle⟩ := hrem hdir
        have := hle o hmem (hid ▸ hop) hst
        exact absurd (hpends.unexpired o ho t ht) (by omega)
  · intro x hx hrival
    have hget : v.access.uploads.get x.id = some x := Table.get_of_mem hx
    cases hxold : w.access.uploads.get x.id with
    | none =>
        -- A rival cannot begin while the name is held.
        obtain ⟨q, hq⟩ := h.begins hn hs hpl hxold hget hrival.kind hrival.base
        obtain ⟨t, ht, hun⟩ := hq.unreserved
        have hqp : q = p := Option.some.inj (hq.parent.symm.trans hrival.parent)
        have hle := hun o hmem (hqp ▸ hop) (by rw [hrival.name_eq, hname]) hst
        exact absurd (hpends.unexpired o ho t ht) (by omega)
    | some y =>
        obtain ⟨x', hx', hevy⟩ := h.uploads hs _ _ hxold
        obtain rfl : x' = x := Option.some.inj (hx'.symm.trans hget)
        obtain ⟨x'', hx'', hlapse⟩ := h.lapses hs _ _ hxold
        obtain rfl : x'' = x' := Option.some.inj (hx''.symm.trans hget)
        have hyr : Rival k p name y := hrival.before hevy
        have hymem := Table.mem_of_get hxold
        rcases hlapse hyr.kind with he | ⟨_, ⟨i, hi, hi', rfl⟩, hlt⟩
        · exact he ▸ hfree.restart y hymem hyr (hrivals y hymem hyr)
        · have := hfree.clock y hymem hyr _ i (Nat.le_refl _) hi hi' (hrivals y hymem hyr)
          omega

/-- A request that begins an upload leaves the others alone. -/
theorem beginUpload_others (hs : Sound app w.access) {user : User} {session : Session}
    {ctx : RequestContext} {req : BeginUploadRequest} {r : Response × World}
    (h : (beginUpload app user session ctx req) w = .ok r) :
    ∃ j, ∀ k, k ≠ j → r.2.access.uploads.get k = w.access.uploads.get k := by
  have hplain : ∀ {s : World} {op : Operation}, commandsBeginUpload app user session ctx req w =
      .ok (op, s) → ∀ k, k ≠ op.id → s.access.uploads.get k = w.access.uploads.get k := by
    intro s op hop k hk
    obtain ⟨j, n, rfl, -, -⟩ := commandsBeginUpload_ok hs hop
    exact Table.get_put_of_ne w.access.uploads hk
  have haccess : ∀ {s : World} {op : Operation}, accessBeginUpload app user session ctx req w =
      .ok (op, s) → ∀ k, k ≠ op.id → s.access.uploads.get k = w.access.uploads.get k := by
    intro s op hop k hk
    unfold accessBeginUpload at hop
    obtain ⟨o, u, ho, hop⟩ := Tx.bind_ok.mp hop
    obtain ⟨l, u', hl, hop⟩ := Tx.bind_ok.mp hop
    obtain ⟨j, rfl, -, -⟩ := acquire_ok hl
    simp only [↓run_clock, run_query, putLock, putUpload, run_onAccess, setAccess_access,
      setAccess_setAccess, Tx.pure_ok, Prod.mk.injEq] at hop
    obtain ⟨f, -, rfl, rfl⟩ := hop
    exact (Table.get_put_of_ne u.access.uploads hk).trans (hplain ho k hk)
  unfold beginUpload at h
  split at h
  · obtain ⟨op, s, hop, h⟩ := Tx.bind_ok.mp h
    rw [Tx.pure_ok] at h
    exact ⟨op.id, h ▸ hplain hop⟩
  · obtain ⟨op, s, hop, h⟩ := Tx.bind_ok.mp h
    rw [Tx.pure_ok] at h
    exact ⟨op.id, h ▸ hplain hop⟩
  · obtain ⟨op, s, hop, h⟩ := Tx.bind_ok.mp h
    rw [Tx.pure_ok] at h
    exact ⟨op.id, h ▸ haccess hop⟩
  · obtain ⟨plan, s, hplan, h⟩ := Tx.bind_ok.mp h
    rw [Tx.pure_ok] at h
    subst h
    unfold protectionBeginUpload at hplan
    obtain ⟨op, u, hop, hplan⟩ := Tx.bind_ok.mp hplan
    obtain ⟨op', u', hcap, hplan⟩ := Tx.bind_ok.mp hplan
    simp only [run_cluster, Tx.pure_ok] at hplan
    cases hplan
    unfold capturePolicy at hcap
    obtain ⟨q, s, j, n, -, hacc, hcap⟩ := run_quiet hcap
    simp only [↓run_need, putUpload, run_onAccess, setAccess_access, setAccess_setAccess,
      Tx.pure_ok, Prod.mk.injEq] at hcap
    obtain ⟨-, rfl, rfl⟩ := hcap
    refine ⟨op.id, fun k hk => ?_⟩
    have hput : (s.access.uploads.put { op with policy := some q }).get k = s.access.uploads.get k :=
      Table.get_put_of_ne s.access.uploads hk
    rw [hacc] at hput
    rw [hacc]
    exact hput.trans (haccess hop k hk)

/-- **An upload of a new file finds its name free when it begins.** -/
theorem Step.reserves (hn : Normalizes app) {v : World} {e : Event} {k p : Id} {o : Operation}
    (hs : Sound app w.access) (hpl : Planted app w.access) (h : Step app reports w e v)
    (hk : w.access.uploads.get k = none) (ho : v.access.uploads.get k = some o)
    (hkind : o.kind = .upload) (hb : o.base = none) (hp : o.parent = some p)
    (hfree : Undisturbed app k p o.name w e v) :
    Vacant v.access.nodes p o.name ∧ Unrivaled k p o.name v.access := by
  obtain ⟨q, hq⟩ := h.begins hn hs hpl hk ho hkind hb
  obtain ⟨cmd, hbegins, hexec⟩ := h.beginner hs hk (by simp [ho])
  obtain ⟨hnodes, honward⟩ := hexec.stays hbegins
  have hqp : q = p := Option.some.inj (hq.parent.symm.trans hp)
  subst hqp
  refine ⟨hnodes ▸ ⟨hq.folder, hq.living, hq.free⟩, fun x hx hrival => ?_⟩
  have hget : v.access.uploads.get x.id = some x := Table.get_of_mem hx
  obtain ⟨user, session, ctx, r, u, hrun, hacc, -, -⟩ := hexec.run
  rw [hacc, Access.later_uploads] at ho hget
  -- The command begins this upload, and leaves its rival as it is.
  have hold : w.access.uploads.get x.id = some x := by
    cases cmd with
    | beginUpload req =>
        simp only [execute] at hrun
        obtain ⟨j, hj⟩ := beginUpload_others (w := w.setAccess (w.access.later 2)) (hs.advance 2) hrun
        have hkj : k = j := by
          by_contra hne
          have hnone : u.access.uploads.get k = w.access.uploads.get k := hj k hne
          rw [ho, hk] at hnone
          cases hnone
        exact (hj x.id (hkj ▸ hrival.other)).symm.trans hget
    | beginWrite req =>
        simp only [execute] at hrun
        split at hrun
        · rename_i hr
          have hwrite := beginWrite_kind (w := w.setAccess (w.access.later 2)) (hs.advance 2) hr hrun
            hk ho
          rw [hkind] at hwrite
          cases hwrite
        · cases hrun
    | _ => cases hbegins
  have hmem := Table.mem_of_get hold
  obtain ⟨_, ⟨i, hi, hi', rfl⟩, hun⟩ := hq.unreserved
  have hle := hun x hmem hrival.parent hrival.name_eq hrival.state
  have hend := hfree.clock x hmem hrival i v.access.phase hi hi' (Nat.le_refl _) hle
  rw [Access.now, honward.1]
  exact hend

/-! ## Runs -/

/-- **A pending upload holds its name.**  From the step in which the upload of a new file begins,
and as long as it is pending, its directory is alive and has no child of its name, so that its
commit is not refused for that; unless an account takes the name, or the clock brings back another
upload of the same name. -/
theorem name_reserved (hn : Normalizes app) {u v : World} {e : Event} {k p : Id} {o : Operation}
    (hreach : Reachable app reports u) (hstep : Step app reports u e w)
    (hk : u.access.uploads.get k = none) (ho : w.access.uploads.get k = some o)
    (hkind : o.kind = .upload) (hb : o.base = none) (hp : o.parent = some p)
    (hfirst : Undisturbed app k p o.name u e w)
    (hrun : RunIf app reports
      (fun x e y => Pends k x y ∧ Undisturbed app k p o.name x e y) w v) :
    Vacant v.access.nodes p o.name ∧ ¬ named v.access p o.name := by
  have hs := hreach.sound
  have hpl := hreach.planted hn
  have hsw := hstep.sound hs
  have hplw := hstep.planted hn hs hpl
  have hkept : Vacant v.access.nodes p o.name ∧ Unrivaled k p o.name v.access ∧
      ∃ x, v.access.uploads.get k = some x ∧ x.parent = some p ∧ x.name = o.name := by
    induction hrun with
    | refl =>
        obtain ⟨hvacant, hrivals⟩ := hstep.reserves hn hs hpl hk ho hkind hb hp hfirst
        exact ⟨hvacant, hrivals, o, ho, hp, rfl⟩
    | tail hrun hnext ih =>
        obtain ⟨hvacant, hrivals, hold⟩ := ih
        obtain ⟨hsx, hplx⟩ := RunIf.planted hn hsw hplw hrun
        obtain ⟨e, hnext, hpends, hfree⟩ := hnext
        obtain ⟨hvacant', hrivals'⟩ := hnext.vacant hn hsx hplx hvacant hrivals hpends hfree hold
        obtain ⟨x, hx, hxp, hxn⟩ := hold
        obtain ⟨y, hy, hev⟩ := hnext.uploads hsx k x hx
        exact ⟨hvacant', hrivals', y, hy, hev.parent_eq.trans hxp, hev.name_eq.trans hxn⟩
  refine ⟨hkept.1, ?_⟩
  rintro ⟨m, hm, hname⟩
  obtain ⟨hmem, halive, hparent⟩ := mem_children.mp hm
  exact hkept.1.free m hmem halive hparent hname

/-- An upload of a new file to the directory of accounts begins. -/
def smallUpload : Input := smallInput 51 (.beginUpload
  ⟨⟨['/', 'h', 'o', 'm', 'e', '/', 'b'], [], 0⟩, false, 3, ⟨32, 0⟩, none⟩)

/-- Nothing disturbs an upload that is alone, unless an account is created. -/
theorem undisturbed_of_alone {k p : Id} {name : Text} {e : Event} {v : World}
    (halone : ∀ o ∈ w.access.uploads.all, o.id = k)
    (he : ∀ token ctx password r, e ≠ .served token ctx (.createUser name password) r) :
    Undisturbed app k p name w e v where
  account token ctx password r h := absurd h (he token ctx password r)
  clock o ho hrival := absurd (halone o ho) hrival.other
  restart o ho hrival := absurd (halone o ho) hrival.other

/-- A directory is made while an upload is pending. -/
theorem small_reserved : ∃ v, Reachable (App.small .rf3) (fun _ => True) v ∧
    (∃ o ∈ v.access.uploads.all, o.state = .preparing ∧ o.name = ['b']) ∧
      Vacant v.access.nodes 5 ['b'] ∧ ¬ named v.access 5 ['b'] := by
  obtain ⟨u, hu, hnone, hw⟩ := exists_of_perform (App.small .rf3) smallStart (World.small .rf3)
    (fun u => u.access.uploads.all = [] ∧ (smallUpload.perform (App.small .rf3) u).any (fun w =>
      decide (w.access.uploads.all.map (fun o => (o.id, o.kind, o.base, o.parent, o.name)) =
          [(10, .upload, none, some 5, ['b'])] ∧
        ((smallInput 52 (.mkdir smallPath)).perform (App.small .rf3) w).any (fun v =>
          decide ((∀ o ∈ w.access.uploads.all, ∀ i ≤ v.access.phase,
              w.access.clk.wall i < o.expires) ∧
            ∃ o ∈ v.access.uploads.all, o.id = 10 ∧ o.state = .preparing ∧ o.name = ['b'])) =
              true)) = true)
    (by decide +kernel)
  obtain ⟨w, hw, hops⟩ := (Option.any_eq_true _ _).mp hw
  obtain ⟨hops, hv⟩ := of_decide_eq_true hops
  obtain ⟨v, hv, hstays⟩ := (Option.any_eq_true _ _).mp hv
  obtain ⟨hlive, o', ho', hid', hst', hname'⟩ := of_decide_eq_true hstays
  obtain ⟨o, hlist, ho⟩ := List.map_eq_singleton_iff.mp hops
  simp only [Prod.mk.injEq] at ho
  obtain ⟨hid, hkind, hb, hp, hname⟩ := ho
  have halone : ∀ x ∈ w.access.uploads.all, x.id = 10 := fun x hx => by
    rw [hlist, List.mem_singleton] at hx
    rw [hx, hid]
  have hget : w.access.uploads.get 10 = some o := by
    have hmem : o ∈ w.access.uploads.all := hlist ▸ List.mem_singleton_self o
    exact hid ▸ Table.get_of_mem hmem
  have hnew : u.access.uploads.get 10 = none := by
    cases hget : u.access.uploads.get 10 with
    | none => rfl
    | some x =>
        have hmem := Table.mem_of_get hget
        rw [hnone] at hmem
        cases hmem
  obtain ⟨e, ⟨r, rfl⟩, hstep⟩ := Input.perform_shows hw
  obtain ⟨e', ⟨r', rfl⟩, hstep'⟩ := Input.perform_shows hv
  have hpends : Pends 10 w v := by
    refine ⟨fun x hx t ht => ?_, o', hid' ▸ Table.get_of_mem ho', hst'⟩
    obtain ⟨i, -, hi, rfl⟩ := ht
    exact hlive x (Table.mem_of_get hx) i hi
  obtain ⟨hvacant, hfree⟩ := name_reserved (small_normalizes .rf3) (perform_reachable hu) hstep hnew
    hget hkind hb hp
    (undisturbed_of_alone (by simp [hnone]) fun _ _ _ _ h => by cases h)
    (.single ⟨_, hstep', hpends, undisturbed_of_alone halone fun _ _ _ _ h => by cases h⟩)
  obtain ⟨es, hes⟩ : ∃ es, Run (App.small .rf3) (fun _ => True) u es v :=
    ⟨_, .cons hstep (.single hstep')⟩
  exact ⟨v, (perform_reachable hu).run hes, ⟨o', ho', hst', hname'⟩, hname ▸ hvacant, hname ▸ hfree⟩

/-- **`CreateUser` does not look at pending uploads**: a run in which an account takes the name of
one. -/
theorem reservation_broken : ∃ w, Reachable (App.small .rf3) (fun _ => True) w ∧
    ∃ o ∈ w.access.uploads.all, o.kind = .upload ∧ o.base = none ∧ o.state = .preparing ∧
      w.access.now < o.expires ∧
        ∃ m ∈ w.access.nodes.all, m.alive = true ∧ m.parent = o.parent ∧ m.name = o.name := by
  obtain ⟨w, hw, htaken⟩ := exists_of_perform (App.small .rf3)
    (smallStart ++ [smallUpload, smallAccount]) (World.small .rf3)
    (fun w => ∃ o ∈ w.access.uploads.all, o.kind = .upload ∧ o.base = none ∧
      o.state = .preparing ∧ w.access.now < o.expires ∧
        ∃ m ∈ w.access.nodes.all, m.alive = true ∧ m.parent = o.parent ∧ m.name = o.name)
    (by decide +kernel)
  exact ⟨w, perform_reachable hw, htaken⟩

end Dfsha
