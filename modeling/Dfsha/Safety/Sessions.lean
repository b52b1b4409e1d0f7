import Dfsha.Safety.Capabilities

/-!
# Sessions end with what they were opened with

A login compares the password with the one the account has, and opens a session in its last
transaction.  A session ends by a logout, and every session of an account ends when its password
changes or it is disabled.  Accounts and sessions are told apart by identifiers that are never
drawn again, so that a session that ended is never opened again.

## Main definitions

* `Credentials` — the accounts and the sessions opened for them.
* `Turn` — what a step may do to them.

## Main results

* `session_opened` — a session that is accepted was opened by a login with the password that its
  account has now.
* `session_revoked` — a session is not accepted once its account had another password or was
  disabled, whatever happened since.
-/

namespace Dfsha

variable {app : App} {reports : Call → Prop} {w v : World}

/-! ## Accounts and sessions -/

/-- The accounts, and the sessions opened for them. -/
structure Credentials where
  users : Table User
  sessions : Table Session

/-- The accounts and the sessions of a control. -/
def World.credentials (w : World) : Credentials := ⟨w.identity.users, w.identity.sessions⟩

instance : AsideAccess World.credentials := ⟨fun _ _ _ => rfl⟩
instance : AsideCluster World.credentials := ⟨fun _ _ _ => rfl⟩
instance : AsideMemory World.credentials := ⟨fun _ _ _ _ => rfl⟩
instance : AsideLedger World.credentials := ⟨fun _ _ => rfl⟩
instance : AllowsRetired (Same World.credentials) := ⟨fun _ _ => rfl⟩
instance : AllowsCopies (Same World.credentials) := ⟨fun _ _ => rfl⟩

-- An instance here is as large as the function it is about.
set_option synthInstance.maxSize 16384

theorem leaves_onIdentity {f : Identity → Identity} (hu : ∀ i, (f i).users = i.users)
    (hs : ∀ i, (f i).sessions = i.sessions) : Leaves World.credentials (onIdentity f) :=
  .modify fun w => by
    simp only [Same, World.credentials, hu, hs]

instance (g : Group) : Leaves World.credentials (putGroup g) :=
  leaves_onIdentity (fun _ => rfl) fun _ => rfl

instance (u : User) (n : Text) : Leaves World.credentials (createGroup app u n) := by
  unfold createGroup
  infer_instance

instance (u : User) (g : Id) (l : List Id) (n : Nat) :
    Leaves World.credentials (setGroupMembers u g l n) := by
  unfold setGroupMembers
  infer_instance

instance (m i l : Nat) : Leaves World.credentials (countLogin m i l) := by
  unfold countLogin
  have hrate : ∀ r : Rate, Leaves World.credentials
      (onIdentity fun i => { i with rates := i.rates.put r }) := fun _ =>
    leaves_onIdentity (fun _ => rfl) fun _ => rfl
  infer_instance

instance (b : Nat) : Leaves World.credentials (limitLogin b) := by
  unfold limitLogin
  infer_instance

/-- What becomes of a session: it may end, and nothing else changes. -/
def Lasts (s t : Session) : Prop :=
  t = { s with revoked := t.revoked } ∧ (s.revoked = true → t.revoked = true)

theorem Lasts.refl (s : Session) : Lasts s s := ⟨rfl, id⟩

theorem Lasts.trans {s t r : Session} (h : Lasts s t) (h' : Lasts t r) : Lasts s r := by
  refine ⟨?_, fun hs => h'.2 (h.2 hs)⟩
  have heq := h'.1
  rw [h.1] at heq
  exact heq

theorem Lasts.revoke (s : Session) : Lasts s { s with revoked := true } := ⟨rfl, fun _ => rfl⟩

/-- A session was opened by a login, after the password was compared with `password`. -/
def OpenedBy (reports : Call → Prop) (s : Session) (password : Digest) : Prop :=
  ∃ user requestId, reports (.login user requestId) ∧ user.id = s.user ∧ user.password = password

/-- An account is given the same password and is not disabled by a change. -/
def Steadfast (x y : User) : Prop :=
  y.password = x.password ∧ (y.disabled = true → x.disabled = true)

/-- Every session of an account has ended. -/
def Credentials.Ended (c : Credentials) (user : Id) : Prop :=
  ∀ s ∈ c.sessions.all, s.user = user → s.revoked = true

/-- **What a step may do to accounts and sessions**, with `n` identifiers drawn after it. -/
structure Turn (app : App) (reports : Call → Prop) (n : Nat) (c d : Credentials) : Prop where
  /-- Sessions are only ended, -/
  sessions : c.sessions.Grows Lasts d.sessions
  /-- accounts stay, and all sessions of one that has another password or is disabled end, -/
  users : ∀ k x, c.users.get k = some x →
    ∃ y, d.users.get k = some y ∧ (Steadfast x y ∨ d.Ended k)
  /-- a new account has an identifier of its own, -/
  created : ∀ u ∈ d.users.all, c.users.get u.id = none → ∃ j < n, u.id = app.uuid j
  /-- and so has a new session, which is one of an account that is not disabled and has the
  password of the login. -/
  opened : ∀ s ∈ d.sessions.all, c.sessions.get s.id = none →
    (∃ j < n, s.id = app.tokenHash (app.uuid j)) ∧
      ∃ y, d.users.get s.user = some y ∧ y.disabled = false ∧ OpenedBy reports s y.password

theorem Turn.refl (n : Nat) (c : Credentials) : Turn app reports n c c := by
  refine ⟨.refl Lasts.refl _, fun k x hx => ⟨x, hx, .inl ⟨rfl, id⟩⟩, fun u hu hnone => ?_,
    fun s hs hnone => ?_⟩
  · have hget : c.users.get u.id = some u := Table.get_of_mem hu
    simp [hget] at hnone
  · have hget : c.sessions.get s.id = some s := Table.get_of_mem hs
    simp [hget] at hnone

/-- Identifiers of accounts and sessions were drawn. -/
structure Credentials.Minted (app : App) (n : Nat) (c : Credentials) : Prop where
  users : ∀ u ∈ c.users.all, ∃ j < n, u.id = app.uuid j
  sessions : ∀ s ∈ c.sessions.all, ∃ j < n, s.id = app.tokenHash (app.uuid j)

theorem Credentials.Minted.turn {n m : Nat} {c d : Credentials} (h : c.Minted app n)
    (hle : n ≤ m) (ht : Turn app reports m c d) : d.Minted app m := by
  constructor
  · intro u hu
    cases hget : c.users.get u.id with
    | none => exact ht.created u hu hget
    | some x =>
        obtain ⟨j, hj, hid⟩ := h.users x (Table.mem_of_get hget)
        exact ⟨j, by omega, (Table.key_of_get hget).symm.trans hid⟩
  · intro s hs
    cases hget : c.sessions.get s.id with
    | none => exact (ht.opened s hs hget).1
    | some x =>
        obtain ⟨j, hj, hid⟩ := h.sessions x (Table.mem_of_get hget)
        exact ⟨j, by omega, (Table.key_of_get hget).symm.trans hid⟩

theorem Credentials.Minted.user_free {n : Nat} {c : Credentials} (h : c.Minted app n) {m : Nat}
    (hm : n ≤ m) : c.users.get (app.uuid m) = none := by
  cases hget : c.users.get (app.uuid m) with
  | none => rfl
  | some u =>
      obtain ⟨j, hj, hid⟩ := h.users u (Table.mem_of_get hget)
      have := app.uuid_injective (((Table.key_of_get hget).symm.trans hid : app.uuid m = _))
      omega

theorem Credentials.Minted.session_free (hinj : Function.Injective app.tokenHash) {n : Nat}
    {c : Credentials} (h : c.Minted app n) {m : Nat} (hm : n ≤ m) :
    c.sessions.get (app.tokenHash (app.uuid m)) = none := by
  cases hget : c.sessions.get (app.tokenHash (app.uuid m)) with
  | none => rfl
  | some s =>
      obtain ⟨j, hj, hid⟩ := h.sessions s (Table.mem_of_get hget)
      have hkey : s.id = app.tokenHash (app.uuid m) := Table.key_of_get hget
      have := app.uuid_injective (hinj (hkey.symm.trans hid))
      omega

/-- Every session that has not ended was opened with the password of its account. -/
def Credentials.Current (reports : Call → Prop) (c : Credentials) : Prop :=
  ∀ s ∈ c.sessions.all, s.revoked = false →
    ∃ y, c.users.get s.user = some y ∧ y.disabled = false ∧ OpenedBy reports s y.password

/-- What a login opened is as it was opened, or has ended. -/
theorem Credentials.Current.turn {n : Nat} {c d : Credentials} (h : c.Current reports)
    (ht : Turn app reports n c d) : d.Current reports := by
  intro t ht' hlive
  cases hget : c.sessions.get t.id with
  | none => exact (ht.opened t ht' hget).2
  | some s =>
      obtain ⟨t', hgot, hlasts, hmore⟩ := ht.sessions t.id s hget
      obtain rfl : t = t' := Option.some.inj ((Table.get_of_mem ht').symm.trans hgot)
      have hs : s.revoked = false := by
        by_contra hrevoked
        rw [hmore (by simpa using hrevoked)] at hlive
        cases hlive
      have huser : t.user = s.user := by rw [hlasts]
      obtain ⟨x, hx, henabled, user, requestId, hreports, hid, hpassword⟩ :=
        h s (Table.mem_of_get hget) hs
      obtain ⟨y, hy, ⟨hsame, hdisabled⟩ | hended⟩ := ht.users _ _ hx
      · refine ⟨y, huser ▸ hy, ?_, user, requestId, hreports, hid.trans huser.symm,
          hpassword.trans hsame.symm⟩
        by_contra hy'
        rw [hdisabled (by simpa using hy')] at henabled
        cases henabled
      · rw [hended t ht' huser] at hlive
        cases hlive

/-! ## Commands -/

theorem credentials_of_leaves {α : Type} {x : T α} [hx : Leaves World.credentials x]
    {r : α × World} (h : x w = .ok r) : r.2.credentials = w.credentials :=
  Leaves.leaves hx w r h

@[simp] theorem credentials_setAccess (w : World) (a : Access) :
    (w.setAccess a).credentials = w.credentials := rfl

/-- All sessions of an account end, and nothing else changes. -/
theorem revokeSessions_ends {user : Id} {r : Unit × World}
    (h : (revokeSessions user) w = .ok r) :
    r.2.identity.users = w.identity.users ∧
      w.identity.sessions.Grows Lasts r.2.identity.sessions ∧
      (∀ t ∈ r.2.identity.sessions.all, (w.identity.sessions.get t.id).isSome = true) ∧
      r.2.credentials.Ended user := by
  unfold revokeSessions at h
  simp only [run_query, identity, Query.read_ok] at h
  obtain ⟨i, rfl, h⟩ := h
  -- The invariant is about what the loop left; each turn ends its own session.
  have hrun := Tx.each_rows (l := w.identity.sessions.all) (s := w.setAccess (w.access.later 1))
    (fun v : World => v.identity.sessions)
    (I := fun v => v.identity.users = w.identity.users ∧
      w.identity.sessions.Grows Lasts v.identity.sessions ∧
      ∀ t ∈ v.identity.sessions.all, (w.identity.sessions.get t.id).isSome = true)
    (P := fun s o => ∃ t, o = some t ∧ t.user = s.user ∧ (s.user = user → t.revoked = true))
    w.identity.sessions.sorted ?_ ⟨rfl, .refl Lasts.refl _, fun t ht => ?_⟩
    (fun s hs => Table.get_of_mem hs) h
  · obtain ⟨⟨husers, hgrows, hold⟩, hrows⟩ := hrun
    refine ⟨husers, hgrows, hold, fun t ht huser => ?_⟩
    obtain ⟨s, hs⟩ := Option.isSome_iff_exists.mp (hold t ht)
    obtain ⟨t', hget, hsame, hended⟩ := hrows s (Table.mem_of_get hs)
    have hkey : s.id = t.id := Table.key_of_get hs
    have ht' : r.2.identity.sessions.get s.id = some t := hkey ▸ Table.get_of_mem ht
    obtain rfl : t = t' := Option.some.inj (ht'.symm.trans hget)
    exact hended (hsame ▸ huser)
  · rintro s hs v v' ⟨husers, hgrows, hold⟩ hget hturn
    have hself : w.identity.sessions.get s.id = some s := Table.get_of_mem hs
    split at hturn
    · rw [putSession, onIdentity_ok, Prod.mk.injEq] at hturn
      rw [hturn.2]
      refine ⟨⟨husers, hgrows.trans Lasts.trans (.put_old Lasts.refl hget (.revoke s)), ?_⟩,
        ⟨_, Table.get_put_self _ _, rfl, fun _ => rfl⟩, fun k hk => Table.get_put_of_ne _ hk⟩
      exact Table.forall_put hold (by simp [hself])
    · rename_i hskip
      rw [Tx.pure_ok, Prod.mk.injEq] at hturn
      rw [hturn.2]
      refine ⟨⟨husers, hgrows, hold⟩, ⟨s, hget, rfl, fun huser => ?_⟩, fun _ _ => rfl⟩
      by_contra hlive
      exact hskip ⟨huser, by simpa using hlive⟩
  · have hself : w.identity.sessions.get t.id = some t := Table.get_of_mem ht
    simp [hself]

/-- An account is written back: as steadfast, or with all its sessions ended. -/
theorem Turn.account {n : Nat} {c d : Credentials} {x y : User}
    (hget : c.users.get y.id = some x) (husers : d.users = c.users.put y)
    (hgrows : c.sessions.Grows Lasts d.sessions)
    (hold : ∀ t ∈ d.sessions.all, (c.sessions.get t.id).isSome = true)
    (h : Steadfast x y ∨ d.Ended y.id) : Turn app reports n c d := by
  refine ⟨hgrows, fun k z hz => ?_, fun u hu hnone => ?_, fun t ht hnone => ?_⟩
  · rw [husers]
    by_cases hk : k = y.id
    · obtain rfl : x = z := Option.some.inj (hget.symm.trans (hk ▸ hz))
      exact ⟨y, hk ▸ Table.get_put_self _ y, hk ▸ h⟩
    · exact ⟨z, (Table.get_put_of_ne _ hk).trans hz, .inl ⟨rfl, id⟩⟩
  · rw [husers] at hu
    rcases Table.mem_put.mp hu with rfl | ⟨hu, -⟩
    · simp [hget] at hnone
    · have hself : c.users.get u.id = some u := Table.get_of_mem hu
      simp [hself] at hnone
  · have hsome := hold t ht
    simp [hnone] at hsome

/-- `SetUser`: an account that is disabled loses its sessions. -/
theorem setUser_turn {user : User} {userId : Id} {disabled : Bool} {revision n : Nat}
    {r : Response × World} (h : (setUser user userId disabled revision) w = .ok r) :
    Turn app reports n w.credentials r.2.credentials := by
  unfold setUser at h
  simp only [↓run_need, run_query, identity, Query.read_ok, needSome_ok] at h
  obtain ⟨-, i, rfl, target, htarget, -, -, h⟩ := h
  have hid : target.id = userId := Table.key_of_get htarget
  obtain ⟨_, s, hrevoke, h⟩ := Tx.bind_ok.mp h
  obtain ⟨_, u, hput, h⟩ := Tx.bind_ok.mp h
  rw [putUser, onIdentity_ok, Prod.mk.injEq] at hput
  rw [Tx.pure_ok] at h
  rw [h, hput.2]
  by_cases hd : disabled = true
  · rw [if_pos hd] at hrevoke
    obtain ⟨husers, hgrows, hold, hended⟩ := revokeSessions_ends hrevoke
    refine Turn.account (x := target) (y := { target with disabled, revision := target.revision + 1 })
      (hid.symm ▸ htarget) (congrArg (fun t : Table User => t.put _) husers) hgrows hold
      (.inr hended)
  · rw [if_neg hd, Tx.pure_ok, Prod.mk.injEq] at hrevoke
    rw [hrevoke.2]
    refine Turn.account (x := target) (y := { target with disabled, revision := target.revision + 1 })
      (hid.symm ▸ htarget) rfl (.refl Lasts.refl _) (fun t ht => ?_) (.inl ⟨rfl, fun hy => ?_⟩)
    · have hself : w.identity.sessions.get t.id = some t := Table.get_of_mem ht
      simpa [World.credentials] using congrArg Option.isSome hself
    · exact absurd hy hd

/-- `ChangePassword`: an account with another password loses its sessions. -/
theorem changePassword_turn {user : User} {userId : Id} {password : Text} {revision n : Nat}
    {r : Response × World} (h : (changePassword app user userId password revision) w = .ok r) :
    Turn app reports n w.credentials r.2.credentials := by
  unfold changePassword at h
  simp only [↓run_need, run_query, identity, Query.read_ok, needSome_ok] at h
  obtain ⟨-, i, rfl, target, htarget, -, h⟩ := h
  have hid : target.id = userId := Table.key_of_get htarget
  obtain ⟨encoded, t, hhash, h⟩ := Tx.bind_ok.mp h
  have ht : t.credentials = w.credentials := credentials_of_leaves hhash
  obtain ⟨_, s, hput, h⟩ := Tx.bind_ok.mp h
  obtain ⟨_, u, hrevoke, h⟩ := Tx.bind_ok.mp h
  rw [putUser, onIdentity_ok, Prod.mk.injEq] at hput
  obtain ⟨husers, hgrows, hold, hended⟩ := revokeSessions_ends hrevoke
  rw [Tx.pure_ok] at h
  rw [h, ← ht]
  rw [hput.2] at husers hgrows hold
  refine Turn.account (x := target)
    (y := { target with password := encoded, revision := target.revision + 1 })
    ?_ husers hgrows hold (.inr hended)
  rw [ht, hid]
  exact htarget

/-- `Logout`: the session ends. -/
theorem logout_turn {session : Session} {ctx : RequestContext} {sessionId : Id} {n : Nat}
    {r : Response × World} (hget : w.identity.sessions.get session.id = some session)
    (h : (logout session ctx sessionId) w = .ok r) :
    Turn app reports n w.credentials r.2.credentials := by
  unfold logout at h
  simp only [run_need] at h
  obtain ⟨-, h⟩ := h
  obtain ⟨_, s, hput, h⟩ := Tx.bind_ok.mp h
  rw [putSession, onIdentity_ok, Prod.mk.injEq] at hput
  rw [Tx.pure_ok] at h
  rw [h, hput.2]
  have hold : ∀ t ∈ (w.identity.sessions.put { session with revoked := true }).all,
      (w.identity.sessions.get t.id).isSome = true :=
    Table.forall_put (fun t ht => congrArg Option.isSome (Table.get_of_mem ht))
      (congrArg Option.isSome hget)
  refine ⟨.put_old Lasts.refl hget (.revoke session), fun k x hx => ⟨x, hx, .inl ⟨rfl, id⟩⟩,
    fun x hx hnone => ?_, fun t ht hnone => ?_⟩
  · have hself : w.identity.users.get x.id = some x := Table.get_of_mem hx
    exact absurd (hself.symm.trans hnone) (by simp)
  · exact absurd (hold t ht) (by simp [show w.identity.sessions.get t.id = none from hnone])

/-- `CreateUser`: the account is new. -/
theorem createUser_turn {user : User} {username password : Text} {r : Response × World}
    (hm : w.credentials.Minted app w.access.issued)
    (h : (createUser app user username password) w = .ok r) :
    Turn app reports r.2.access.issued w.credentials r.2.credentials := by
  unfold createUser at h
  simp only [↓run_need, run_query, run_draw, setAccess_access, setAccess_setAccess,
    Access.later_later, Access.later_shift, Nat.reduceAdd, identity, Query.read_ok] at h
  obtain ⟨-, -, i, rfl, -, h⟩ := h
  obtain ⟨encoded, s, k, n, hhash, hacc, h⟩ := run_quiet h
  obtain ⟨_, s₁, k₁, n₁, hput, hacc₁, h⟩ := run_quiet h
  obtain ⟨_, s₂, k₂, n₂, hgroup, hacc₂, h⟩ := run_quiet h
  have hs₂ : s₂.credentials = s₁.credentials := credentials_of_leaves hgroup
  have hs : s.credentials = w.credentials := credentials_of_leaves hhash
  rw [putUser, onIdentity_ok, Prod.mk.injEq] at hput
  simp only [↓run_access, ↓run_need, run_query, run_draw, run_putNode, run_bump, setAccess_access,
    setAccess_setAccess, Access.later_later, Access.later_shift, Nat.reduceAdd, Tx.pure_ok] at h
  obtain ⟨home, -, -, -, -, rfl⟩ := h
  have hissued : w.access.issued < s₂.access.issued := by
    rw [hacc₂, hacc₁, hacc]
    simp only [setAccess_access, Access.shift]
    omega
  have hsessions : s₂.credentials.sessions = w.credentials.sessions := by
    have hkept : s.credentials.sessions = w.credentials.sessions := congrArg _ hs
    rw [hs₂, hput.2]
    exact hkept
  have husers : s₂.credentials.users = w.credentials.users.put
      ⟨app.uuid w.access.issued, username, encoded, false, false, 1⟩ := by
    have hkept : s.credentials.users = w.credentials.users := congrArg _ hs
    rw [hs₂, hput.2, ← hkept]
    rfl
  have hfree := hm.user_free (le_refl w.access.issued)
  have hgrows : w.credentials.users.Grows Eq s₂.credentials.users :=
    husers ▸ .put_new (fun _ => rfl) hfree
  refine ⟨hsessions ▸ .refl Lasts.refl _, fun k x hx => ?_, fun u hu hnone => ?_,
    fun t ht hnone => ?_⟩
  · obtain ⟨y, hy, rfl⟩ := hgrows k x hx
    exact ⟨x, hy, .inl ⟨rfl, id⟩⟩
  · have hu' : u ∈ s₂.credentials.users.all := hu
    rw [husers] at hu'
    rcases Table.mem_put.mp hu' with rfl | ⟨hold, -⟩
    · refine ⟨w.access.issued, ?_, rfl⟩
      simp only [setAccess_access, Access.shift, Access.later]
      omega
    · have hself : w.credentials.users.get u.id = some u := Table.get_of_mem hold
      exact absurd (hself.symm.trans hnone) (by simp)
  · have ht' : t ∈ s₂.credentials.sessions.all := ht
    rw [hsessions] at ht'
    have hself : w.credentials.sessions.get t.id = some t := Table.get_of_mem ht'
    exact absurd (hself.symm.trans hnone) (by simp)

/-- A session under an identifier that was drawn is new, and its account is as at the login. -/
theorem Turn.session (hinj : Function.Injective app.tokenHash) {m n : Nat} {c d : Credentials}
    {s : Session} {y : User} (hm : c.Minted app m) (hlt : m < n)
    (hid : s.id = app.tokenHash (app.uuid m)) (husers : d.users = c.users)
    (hsessions : d.sessions = c.sessions.put s) (hget : c.users.get s.user = some y)
    (henabled : y.disabled = false) (hopens : OpenedBy reports s y.password) :
    Turn app reports n c d := by
  refine ⟨?_, fun k x hx => ⟨x, husers ▸ hx, .inl ⟨rfl, id⟩⟩, fun u hu hnone => ?_,
    fun t ht hnone => ?_⟩
  · rw [hsessions]
    exact .put_new Lasts.refl ((congrArg c.sessions.get hid).trans (hm.session_free hinj le_rfl))
  · rw [husers] at hu
    have hself : c.users.get u.id = some u := Table.get_of_mem hu
    simp [hself] at hnone
  · rw [hsessions] at ht
    rcases Table.mem_put.mp ht with rfl | ⟨ht, -⟩
    · exact ⟨⟨m, hlt, hid⟩, y, husers ▸ hget, henabled, hopens⟩
    · have hself : c.sessions.get t.id = some t := Table.get_of_mem ht
      simp [hself] at hnone

/-- What `rememberLogin` does to accounts and sessions: it may write down its session. -/
theorem rememberLogin_credentials {username : Text} {requestId : Id} {session : Session}
    {r : Unit × World} (h : (rememberLogin username requestId session) w = .ok r) :
    r.2.credentials = w.credentials ∨
      r.2.credentials = ⟨w.identity.users, w.identity.sessions.put session⟩ := by
  unfold rememberLogin at h
  simp only [run_world] at h
  split at h
  · simp only [run_query, needSome_ok] at h
    obtain ⟨live, -, h⟩ := h
    rw [last_query] at h
    rw [h.2]
    exact .inl rfl
  · simp only [↓run_need] at h
    obtain ⟨-, h⟩ := h
    obtain ⟨_, s, hput, h⟩ := Tx.bind_ok.mp h
    rw [putSession, onIdentity_ok, Prod.mk.injEq] at hput
    rw [onIdentity_ok] at h
    rw [h, hput.2]
    exact .inr rfl

/-- The last transaction of `Login`: its session is new. -/
theorem login_turn (hinj : Function.Injective app.tokenHash) {user : User} {requestId : Id}
    {r : Unit × World} (hm : w.credentials.Minted app w.access.issued)
    (hreports : reports (.login user requestId))
    (h : (login app user requestId) w = .ok r) :
    Turn app reports r.2.access.issued w.credentials r.2.credentials := by
  unfold login at h
  simp only [↓run_now, ↓run_need, ↓run_deref, run_query, run_draw, setAccess_access,
    setAccess_setAccess, Access.later_later, Nat.reduceAdd, identity, Query.read_ok] at h
  obtain ⟨i, rfl, y, hget, ⟨henabled, hpassword⟩, h⟩ := h
  obtain ⟨k, n, hacc⟩ := Quiet.quiet _ _ h
  have hissued : w.access.issued < r.2.access.issued := by
    rw [hacc]
    simp only [setAccess_access, Access.shift, Access.later]
    omega
  -- Only a control with a key for its metadata looks for the login it may repeat.
  have hcredentials : r.2.credentials = w.credentials ∨ ∃ s : Session,
      s.id = app.tokenHash (app.uuid w.access.issued) ∧ s.user = user.id ∧
        r.2.credentials = ⟨w.identity.users, w.identity.sessions.put s⟩ := by
    split at h
    · rcases rememberLogin_credentials h with hsame | hnew
      · exact .inl hsame
      · exact .inr ⟨_, rfl, rfl, hnew⟩
    · rw [putSession, onIdentity_ok] at h
      exact .inr ⟨_, rfl, rfl, by rw [h]; rfl⟩
  rcases hcredentials with hsame | ⟨s, hid, huser, hnew⟩
  · exact hsame ▸ .refl _ _
  · rw [hnew]
    exact .session hinj hm hissued hid rfl rfl (huser.symm ▸ hget) henabled
      ⟨user, requestId, hreports, huser.symm, hpassword.symm⟩

/-- What authentication found. -/
theorem authenticated_session {token : Id} {ctx : RequestContext} {user : User}
    {session : Session} (h : (authenticated app token ctx) w = .ok (user, session)) :
    w.identity.sessions.get (app.tokenHash token) = some session ∧ session.revoked = false ∧
      w.identity.users.get session.user = some user ∧ user.disabled = false := by
  simp only [authenticated, authenticate, Query.bind_ok, Query.pure_ok, needSome_ok, need_ok,
    identity, Query.read_ok] at h
  obtain ⟨⟨u, s⟩, ⟨i, rfl, _, -, s', hs, _, ⟨hlive, -⟩, u', hu, _, hd, he⟩, _, -, _, -, he'⟩ := h
  simp only [Prod.mk.injEq] at he he'
  obtain ⟨rfl, rfl⟩ := he
  obtain ⟨rfl, rfl⟩ := he'
  exact ⟨hs, hlive, hu, hd⟩

/-- **What a command may do to accounts and sessions.** -/
theorem execute_turn {user : User} {session : Session} {ctx : RequestContext} {cmd : Command}
    {r : Response × World} (hm : w.credentials.Minted app w.access.issued)
    (hget : w.identity.sessions.get session.id = some session)
    (h : (execute app user session ctx cmd) w = .ok r) :
    Turn app reports r.2.access.issued w.credentials r.2.credentials := by
  have hleaves : ∀ x : T Response, Leaves World.credentials x → x w = .ok r →
      Turn app reports r.2.access.issued w.credentials r.2.credentials := fun _ hx hr =>
    hx.leaves w r hr ▸ .refl _ _
  unfold execute at h
  cases cmd with
  | createUser username password => exact createUser_turn hm h
  | setUser userId disabled revision => exact setUser_turn h
  | changePassword userId password revision => exact changePassword_turn h
  | logout sessionId => exact logout_turn hget h
  | _ => exact hleaves _ inferInstance h

/-- **What a step may do to accounts and sessions.** -/
theorem Step.turn (hinj : Function.Injective app.tokenHash) {e : Event}
    (hm : w.credentials.Minted app w.access.issued) (h : Step app reports w e v) :
    Turn app reports v.access.issued w.credentials v.credentials := by
  cases h with
  | advance j free => exact .refl _ _
  | serve _ h =>
      obtain ⟨user, session, hauth, ⟨-, rfl⟩ | ⟨-, u, verifier, hexec, -, rfl⟩⟩ := serve_cases h
      · exact .refl _ _
      · refine execute_turn (w := w.setAccess (w.access.later 2)) hm ?_ hexec
        have hsession := (authenticated_session hauth).1
        have hkey : session.id = app.tokenHash _ := Table.key_of_get hsession
        rw [hkey]
        exact hsession
  | lookup _ _ => exact .refl _ _
  | refuse _ _ => exact .refl _ _
  | @call _ c _ hreports _ h =>
      have hleaves : ∀ x : T Unit, Leaves World.credentials x → x w = .ok ((), v) →
          Turn app reports v.access.issued w.credentials v.credentials := fun _ hx hr =>
        hx.leaves w _ hr ▸ .refl _ _
      unfold Call.run at h
      cases c with
      | login user requestId => exact login_turn hinj hm hreports h
      | _ => exact hleaves _ inferInstance h
  | start hnext h =>
      have hx : Leaves World.credentials _ := Respects.start hnext
      exact (hx.leaves w _ h : _) ▸ .refl _ _
  | crash clk => exact .refl _ _

/-! ## Runs -/

/-- Accounts and sessions of a store that was just initialized. -/
theorem minted_initial (clk : Clock) (username : Text) (password : Digest) :
    (World.initial app clk username password).credentials.Minted app
      (World.initial app clk username password).access.issued := by
  constructor
  · intro u hu
    obtain rfl : u = ⟨app.uuid 0, username, password, false, true, 1⟩ := by
      simpa [World.initial, World.credentials, Table.mem_put, Table.all_empty] using hu
    exact ⟨0, by simp [World.initial], rfl⟩
  · intro s hs
    simp [World.initial, World.credentials, Table.all_empty] at hs

/-- **In every state a control reaches**, identifiers of accounts and sessions were drawn, and
every session that has not ended was opened with the password of its account. -/
theorem Reachable.credentials (hinj : Function.Injective app.tokenHash)
    (h : Reachable app reports w) :
    w.credentials.Minted app w.access.issued ∧ w.credentials.Current reports := by
  obtain ⟨clk, username, password, es, hrun⟩ := h
  have hall := Run.induct (P := fun v => Sound app v.access ∧
    v.credentials.Minted app v.access.issued ∧ v.credentials.Current reports) ?_ hrun
    ⟨sound_initial clk username password, minted_initial clk username password, ?_⟩
  · exact hall.2
  · rintro u e v hstep ⟨hs, hm, hc⟩
    have hturn := hstep.turn hinj hm
    exact ⟨hstep.sound hs, hm.turn (Acts.issued_le (hstep.all hs)) hturn, hc.turn hturn⟩
  · intro s hs
    simp [World.initial, World.credentials, Table.all_empty] at hs

/-- What became of a session and its account. -/
structure Since (s : Session) (x : User) (c : Credentials) : Prop where
  found : ∃ t y, c.sessions.get s.id = some t ∧ Lasts s t ∧ c.users.get s.user = some y ∧
    (Steadfast x y ∨ t.revoked = true)

/-- A session lasts as long as its account is steadfast, or has ended. -/
theorem Since.turn {n : Nat} {s : Session} {x : User} {c d : Credentials} (h : Since s x c)
    (ht : Turn app reports n c d) : Since s x d := by
  obtain ⟨t, y, hget, hlasts, hy, hsince⟩ := h.found
  obtain ⟨t', hget', hlasts'⟩ := ht.sessions _ t hget
  obtain ⟨y', hy', hkeeps⟩ := ht.users _ y hy
  have huser : t'.user = s.user := by rw [(hlasts.trans hlasts').1]
  refine ⟨t', y', hget', hlasts.trans hlasts', hy', ?_⟩
  rcases hsince with ⟨hpassword, hdisabled⟩ | hended
  · rcases hkeeps with ⟨hpassword', hdisabled'⟩ | hended
    · exact .inl ⟨hpassword'.trans hpassword, fun h => hdisabled (hdisabled' h)⟩
    · exact .inr (hended t' (Table.mem_of_get hget') huser)
  · exact .inr (hlasts'.2 hended)

/-- What became of a session in a run. -/
theorem Run.since (hinj : Function.Injective app.tokenHash) {es : List Event} {s : Session}
    {x : User} (h : Reachable app reports w) (hrun : Run app reports w es v)
    (hs : Since s x w.credentials) : Since s x v.credentials := by
  have hall := Run.induct (P := fun u => Reachable app reports u ∧ Since s x u.credentials) ?_ hrun
    ⟨h, hs⟩
  · exact hall.2
  · rintro u e v hstep ⟨hu, hsince⟩
    exact ⟨hu.run (.single hstep), hsince.turn (hstep.turn hinj (hu.credentials hinj).1)⟩

/-- Sessions are only ended in a run. -/
theorem Run.lasts (hinj : Function.Injective app.tokenHash) {es : List Event}
    (h : Reachable app reports w) (hrun : Run app reports w es v) :
    w.identity.sessions.Grows Lasts v.identity.sessions := by
  have hall := Run.induct (P := fun u => Reachable app reports u ∧
    w.identity.sessions.Grows Lasts u.identity.sessions) ?_ hrun ⟨h, .refl Lasts.refl _⟩
  · exact hall.2
  · rintro u e v hstep ⟨hu, hgrows⟩
    exact ⟨hu.run (.single hstep),
      hgrows.trans Lasts.trans (hstep.turn hinj (hu.credentials hinj).1).sessions⟩

/-- The only account that logs in. -/
def SmallLogins (c : Call) : Prop := ∀ user requestId, c = .login user requestId → user = smallUser

/-- A token whose session has ended is not accepted. -/
theorem not_authenticated {token : Id} {ctx : RequestContext} {p : User × Session} {s : Session}
    (hs : w.identity.sessions.get (app.tokenHash token) = some s) (hended : s.revoked = true) :
    (authenticated app token ctx) w ≠ .ok p := by
  intro h
  obtain ⟨hget, hlive, -⟩ := @authenticated_session _ _ _ _ p.1 p.2 h
  obtain rfl : s = p.2 := Option.some.inj (hs.symm.trans hget)
  rw [hended] at hlive
  cases hlive

/-- **A session ends when its account changes.**  Once the account of a session had another
password or was disabled, or the session had ended, its token is never accepted again, whatever
happened since: no request is carried out for it, and none is answered but a logout that was
carried out before. -/
theorem session_revoked (hinj : Function.Injective app.tokenHash) (h : Reachable app reports w)
    {token : Id} {s : Session} {x y : User} {u : World} {es fs : List Event}
    (hs : w.identity.sessions.get (app.tokenHash token) = some s)
    (hx : w.identity.users.get s.user = some x) (hrun : Run app reports w es v)
    (hy : v.identity.users.get s.user = some y)
    (hchange : y.password ≠ x.password ∨ y.disabled = true ∨
      ∃ t, v.identity.sessions.get (app.tokenHash token) = some t ∧ t.revoked = true)
    (hrun' : Run app reports v fs u) :
    (∀ ctx p, (authenticated app token ctx) u ≠ .ok p) ∧
      ∀ e t, Step app reports u e t → ∀ ctx cmd r,
        e ≠ .served token ctx cmd r ∧ (e = .replayed token ctx cmd r → cmd.method = .logout) := by
  have hkey : s.id = app.tokenHash token := Table.key_of_get hs
  have hstart : Since s x w.credentials :=
    ⟨s, x, hkey ▸ hs, .refl s, hx, .inl ⟨rfl, id⟩⟩
  -- The session has ended in `v`: its account is not disabled while it lives.
  have hended : ∃ t, v.identity.sessions.get (app.tokenHash token) = some t ∧
      t.revoked = true := by
    obtain ⟨t, y', hget, hlasts, hy', hsince⟩ := (hrun.since hinj h hstart).found
    obtain rfl : y = y' := Option.some.inj (hy.symm.trans hy')
    have hget' : v.identity.sessions.get (app.tokenHash token) = some t := hkey ▸ hget
    rcases hchange with hpassword | hdisabled | hgone
    · rcases hsince with hsteady | hended
      · exact absurd hsteady.1 hpassword
      · exact ⟨t, hget', hended⟩
    · refine ⟨t, hget', ?_⟩
      by_contra hlive
      obtain ⟨z, hz, henabled, -⟩ := ((h.run hrun).credentials hinj).2 t (Table.mem_of_get hget)
        (by simpa using hlive)
      have huser : t.user = s.user := by rw [hlasts.1]
      obtain rfl : y = z := Option.some.inj (hy.symm.trans (huser ▸ hz))
      rw [hdisabled] at henabled
      cases henabled
    · exact hgone
  obtain ⟨t, hget, hrevoked⟩ := hended
  obtain ⟨t', hget', hlasts⟩ := hrun'.lasts hinj (h.run hrun) _ t hget
  have hrefused : ∀ ctx p, (authenticated app token ctx) u ≠ .ok p := fun _ _ =>
    not_authenticated hget' (hlasts.2 hrevoked)
  refine ⟨hrefused, fun e _ hstep ctx cmd r => ⟨?_, ?_⟩⟩
  · rintro rfl
    cases hstep with
    | serve _ hserve =>
        obtain ⟨user, session, hauth, -⟩ := serve_cases hserve
        exact hrefused ctx _ hauth
  · rintro rfl
    cases hstep with
    | lookup _ hlookup =>
        by_contra hmethod
        unfold lookup at hlookup
        simp only [if_neg hmethod, Query.bind_ok] at hlookup
        obtain ⟨_, -, p, hauth, -⟩ := hlookup
        exact hrefused ctx p hauth

/-- Another password for the administrator of the small configuration. -/
def smallChange : Command := .changePassword 1 (List.replicate 12 'a') 1

/-- The password of an account is changed while it has a session. -/
theorem small_session_revoked : ∃ w v r,
    Reachable (App.small .rf3) (fun _ => True) w ∧
    (∃ p, (authenticated (App.small .rf3) 8 (smallContext 51)) w = .ok p) ∧
    Step (App.small .rf3) (fun _ => True) w (.served 8 (smallContext 51) smallChange r) v ∧
    ∀ ctx p, (authenticated (App.small .rf3) 8 ctx) v ≠ .ok p := by
  have hchanged : ((perform (App.small .rf3) smallStart (World.small .rf3)).any fun w =>
      decide (w.stage = .serving) &&
        decide ((w.identity.users.get 1).map User.password = some ⟨32, 0⟩) &&
        ((authenticated (App.small .rf3) 8 (smallContext 51)) w).toOption.any
          (fun p => decide (p.2.user = 1)) &&
        ((smallInput 51 smallChange).perform (App.small .rf3) w).any fun v =>
          (v.identity.users.get 1).any fun y => decide (y.password ≠ ⟨32, 0⟩)) = true := by
    decide +kernel
  obtain ⟨w, hw, h⟩ := (Option.any_eq_true _ _).mp hchanged
  simp only [Bool.and_eq_true, decide_eq_true_eq] at h
  obtain ⟨⟨⟨hstage, hpassword⟩, hauth⟩, hv⟩ := h
  obtain ⟨v, hv, hchange⟩ := (Option.any_eq_true _ _).mp hv
  obtain ⟨y, hy, hne⟩ := (Option.any_eq_true _ _).mp hchange
  obtain ⟨x, hx, hold⟩ := Option.map_eq_some_iff.mp hpassword
  obtain ⟨p, hok, huser⟩ := exists_ok hauth
  rw [smallInput, Input.perform, if_pos hstage] at hv
  obtain ⟨r, hr⟩ := after_eq_some hv
  have hstep : Step (App.small .rf3) (fun _ => True) w _ v := .serve hstage hr
  obtain ⟨hget, -⟩ := @authenticated_session _ _ _ _ p.1 p.2 hok
  have huser' := of_decide_eq_true huser
  have hrefused := session_revoked (fun _ _ he => he) (perform_reachable hw) hget
    (huser'.symm ▸ hx) (.single hstep) (huser'.symm ▸ hy)
    (.inl fun he => (of_decide_eq_true hne) (he.trans hold)) (.nil v)
  exact ⟨w, v, r, perform_reachable hw, ⟨p, hok⟩, hstep, hrefused.1⟩

end Dfsha
