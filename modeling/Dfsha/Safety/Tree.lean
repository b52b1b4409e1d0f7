import Dfsha.Refine.Tree
import Dfsha.Safety.Durability

/-!
# The tree of names

The nodes stay a tree in every run in which no account is created while something else than a
directory has the name of the directory of accounts.  Four commands add nodes, and three of them
look at what they put a node in; the place of an upload is checked when it begins, and nothing
that a later step does takes the room away.

## Main results

* `namespace_tree` — the tree of names, in every state of such a run.
* `home_misplaced` — a run in which an account is created below a file.
-/

namespace Dfsha

variable {app : App} {reports : Call → Prop} {w : World}

/-! ## Steps -/

/-- A request whose command is carried out in a step. -/
structure Executes (app : App) (w : World) (e : Event) (cmd : Command) (v : World) : Prop where
  event : ∃ token ctx r, e = .served token ctx cmd r
  run : ∃ user session ctx r u,
    (execute app user session ctx cmd) (w.setAccess (w.access.later 2)) = .ok (r, u) ∧
      v.access = u.access.later 2 ∧ v.cluster = u.cluster ∧ v.identity = u.identity

/-- **What a step does to the nodes**: nothing, or what the command that it carries out does. -/
theorem Step.grafts (hn : Normalizes app) {v : World} {e : Event} (hs : Sound app w.access)
    (hpl : Planted app w.access) (h : Step app reports w e v) :
    v.access.nodes = w.access.nodes ∨ ∃ cmd, Executes app w e cmd v ∧ Grafts app cmd w v := by
  cases h with
  | advance j free => exact .inl rfl
  | serve _ h =>
      obtain ⟨user, session, -, hcase⟩ := serve_cases h
      rcases hcase with ⟨-, rfl⟩ | ⟨-, u, verifier, hexec, -, rfl⟩
      · exact .inl rfl
      · have hgrafts := execute_grafts (w := w.setAccess (w.access.later 2)) hn (hs.advance 2)
          (hpl.later 2) hexec
        exact .inr ⟨_, ⟨⟨_, _, _, rfl⟩, _, _, _, _, u, hexec, rfl, rfl, rfl⟩,
          hgrafts.before.after ⟨rfl, rfl, Nat.le_add_right _ _⟩⟩
  | lookup _ _ => exact .inl rfl
  | refuse _ _ => exact .inl rfl
  | call _ _ _ h => exact .inl (stays h).1
  | start hnext h => exact .inl ((Respects.start hnext : Respects Stays _).respects _ _ h).1
  | crash clk => exact .inl rfl

/-- **An upload of a new file begins where its name is free.** -/
theorem beginUpload_begins (hn : Normalizes app) (hs : Sound app w.access)
    (hpl : Planted app w.access) {user : User} {session : Session} {ctx : RequestContext}
    {req : BeginUploadRequest} {r : Response × World}
    (h : (beginUpload app user session ctx req) w = .ok r)
    {k : Id} {o : Operation} (hk : w.access.uploads.get k = none)
    (ho : r.2.access.uploads.get k = some o) (hb : o.base = none) :
    ∃ p, Begins app w r.2 o p := by
  have hne : r.2.access.uploads.get k ≠ none := by simp [ho]
  have hplain : ∀ {s : World} {op : Operation}, commandsBeginUpload app user session ctx req w =
      .ok (op, s) → s.access.uploads.get k = some o → ∃ p, Begins app w s o p := by
    intro s op hop hget
    obtain ⟨j, n, rfl, -, -⟩ := commandsBeginUpload_ok hs hop
    have hget' : (w.access.uploads.put op).get k = some o := hget
    rw [Table.get_put] at hget'
    split at hget'
    · rw [Option.some.injEq] at hget'
      subst hget'
      exact commandsBeginUpload_begins hn hs hpl hop hb
    · rw [hk] at hget'
      cases hget'
  unfold beginUpload at h
  split at h
  · obtain ⟨op, s, hop, h⟩ := Tx.bind_ok.mp h
    rw [Tx.pure_ok] at h
    subst h
    exact hplain hop ho
  · obtain ⟨op, s, hop, h⟩ := Tx.bind_ok.mp h
    rw [Tx.pure_ok] at h
    subst h
    exact hplain hop ho
  · rename_i hp
    have hr : app.rf3 = true := by simp [App.rf3, hp]
    obtain ⟨op, s, hop, h⟩ := Tx.bind_ok.mp h
    rw [Tx.pure_ok] at h
    subst h
    obtain ⟨hacts, hget, -⟩ := accessBeginUpload_ok (Trust.but k) hr hs hop
    have hid : op.id = k := begun_eq hacts hk hne
    obtain rfl : op = o := Option.some.inj (hget.symm.trans (hid ▸ ho))
    exact accessBeginUpload_begins hn hs hpl hop hb
  · rename_i hp
    have hr : app.rf3 = true := by simp [App.rf3, hp]
    obtain ⟨plan, s, hplan, h⟩ := Tx.bind_ok.mp h
    rw [Tx.pure_ok] at h
    subst h
    unfold protectionBeginUpload at hplan
    obtain ⟨op, u, hop, hplan⟩ := Tx.bind_ok.mp hplan
    obtain ⟨hacts, hget, hpol⟩ := accessBeginUpload_ok (Trust.but k) hr hs hop
    have hlater : u.access.Onward s.access := (stays hplan).2
    obtain ⟨op', u', hcap, hplan⟩ := Tx.bind_ok.mp hplan
    obtain ⟨hacts', hget', rfl⟩ := capturePolicy_ok (Trust.but k) hget hpol hcap
    simp only [run_cluster, Tx.pure_ok] at hplan
    cases hplan
    have hid : op.id = k := begun_eq (fun hb => (hacts hb).trans hacts') hk hne
    have hoo : o = { op with policy := some (policyOf u'.cluster op.file) } :=
      Option.some.inj (ho.symm.trans (hid ▸ hget'))
    obtain ⟨p, hbegins⟩ := accessBeginUpload_begins hn hs hpl hop (by rw [hoo] at hb; exact hb)
    exact ⟨p, (hbegins.after hlater.2).congr (by rw [hoo]) (by rw [hoo])⟩

/-- A write that begins is not an upload. -/
theorem beginWrite_kind (hs : Sound app w.access) (hr : app.rf3 = true) {user : User}
    {session : Session} {ctx : RequestContext} {req : BeginWriteRequest} {r : Response × World}
    (h : (beginWrite app user session ctx req) w = .ok r) {k : Id} {o : Operation}
    (hk : w.access.uploads.get k = none) (ho : r.2.access.uploads.get k = some o) :
    o.kind = .write := by
  have hne : r.2.access.uploads.get k ≠ none := by simp [ho]
  unfold beginWrite at h
  obtain ⟨plan, s, hplan, h⟩ := Tx.bind_ok.mp h
  rw [Tx.pure_ok] at h
  subst h
  split at hplan
  · obtain ⟨op, hacts, hget, -, hkind, -⟩ := protectionBeginWrite_ok (Trust.but k) hr hs hplan
    have hid : op.id = k := begun_eq hacts hk hne
    obtain rfl : op = o := Option.some.inj (hget.symm.trans (hid ▸ ho))
    exact hkind
  · obtain ⟨hacts, op, hget, -, hkind⟩ := accessBeginWrite_ok (Trust.but k) hr hs hplan
    have hid : plan.operation.operationId = k := begun_eq hacts hk hne
    obtain rfl : op = o := Option.some.inj (hget.symm.trans (hid ▸ ho))
    exact hkind

/-- An operation appears in a step that carries out a command that begins one. -/
theorem Step.beginner {v : World} {e : Event} (hs : Sound app w.access)
    (h : Step app reports w e v) {k : Id} (hk : w.access.uploads.get k = none)
    (hne : v.access.uploads.get k ≠ none) :
    ∃ cmd, cmd.begins = true ∧ Executes app w e cmd v := by
  cases h with
  | advance j free => exact absurd hk hne
  | @serve _ token ctx cmd _ _ h =>
      obtain ⟨user, session, -, hcase⟩ := serve_cases h
      rcases hcase with ⟨-, rfl⟩ | ⟨-, u, verifier, hexec, -, rfl⟩
      · exact absurd hk hne
      · refine ⟨cmd, ?_, ⟨_, _, _, rfl⟩, _, _, _, _, u, hexec, rfl, rfl, rfl⟩
        by_contra hbegins
        have hrefines : Refines app (Trust.but k) (execute app user session ctx cmd) :=
          execute_refines (fun h => absurd h hbegins) (fun _ => ⟨fun _ => trivial, fun _ => trivial⟩)
            (fun _ => trivial) user session ctx
        have hnone : u.access.uploads.get k = none :=
          unbegun (hrefines (w.setAccess (w.access.later 2)) _ (hs.advance 2) hexec) hk
        exact hne hnone
  | lookup _ _ => exact absurd hk hne
  | refuse _ _ => exact absurd hk hne
  | @call _ c _ _ _ h =>
      have hrefines : Refines app (Trust.but k) (c.run app) := call_refines (by
        cases c <;> simp [Trust.admits, Trust.but, Trust.all])
      exact absurd (unbegun (hrefines w _ hs h) hk) hne
  | @start _ t _ hnext h =>
      have hrefines : Refines app (Trust.but k) t := start_refines hnext
      exact absurd (unbegun (hrefines w _ hs h) hk) hne
  | crash clk => exact absurd hk hne

/-- A command that begins an operation leaves the nodes alone. -/
theorem Executes.stays {v : World} {e : Event} {cmd : Command} (h : Executes app w e cmd v)
    (hb : cmd.begins = true) : Stays w v := by
  obtain ⟨user, session, ctx, r, u, hexec, hacc, -, -⟩ := h.run
  have hstays : Stays (w.setAccess (w.access.later 2)) u := by
    cases cmd with
    | beginUpload req =>
        simp only [execute] at hexec
        exact Dfsha.stays hexec
    | beginWrite req =>
        simp only [execute] at hexec
        split at hexec
        · exact Dfsha.stays hexec
        · cases hexec
    | _ => cases hb
  rw [Stays, hacc]
  exact ⟨hstays.1, hstays.2.1, (Nat.le_add_right _ 2).trans (hstays.2.2.trans (Nat.le_add_right _ 2))⟩

/-- **Every upload of a new file began where its name was free.** -/
theorem Step.begins (hn : Normalizes app) {v : World} {e : Event} (hs : Sound app w.access)
    (hpl : Planted app w.access) (h : Step app reports w e v) {k : Id} {o : Operation}
    (hk : w.access.uploads.get k = none) (ho : v.access.uploads.get k = some o)
    (hkind : o.kind = .upload) (hb : o.base = none) : ∃ p, Begins app w v o p := by
  obtain ⟨cmd, hbegins, hexec⟩ := h.beginner hs hk (by simp [ho])
  obtain ⟨user, session, ctx, r, u, hrun, hacc, -, -⟩ := hexec.run
  have hs₂ : Sound app (w.setAccess (w.access.later 2)).access := hs.advance 2
  have hu : u.access.uploads.get k = some o := by
    rw [hacc] at ho
    exact ho
  cases cmd with
  | beginUpload req =>
      obtain ⟨p, hp⟩ := beginUpload_begins (w := w.setAccess (w.access.later 2)) hn hs₂
        (hpl.later 2) hrun hk hu hb
      refine ⟨p, hp.before.after ?_⟩
      rw [hacc]
      exact Nat.le_add_right _ _
  | beginWrite req =>
      simp only [execute] at hrun
      split at hrun
      · rename_i hr
        have hwrite := beginWrite_kind (w := w.setAccess (w.access.later 2)) hs₂ hr hrun hk hu
        rw [hkind] at hwrite
        cases hwrite
      · cases hrun
  | _ => cases hbegins

/-- Nodes keep their place in every step. -/
theorem Step.grows (hn : Normalizes app) {v : World} {e : Event} (hs : Sound app w.access)
    (hpl : Planted app w.access) (h : Step app reports w e v) :
    w.access.nodes.Grows SamePlace v.access.nodes := by
  rcases h.grafts hn hs hpl with he | ⟨_, -, hg⟩
  · rw [he]
    exact .refl (fun n => ⟨rfl, rfl, rfl⟩) _
  · exact hg.acts.grows

/-- The operations of a step are those of before, evolved, and new ones. -/
theorem Step.uploads {v : World} {e : Event} (hs : Sound app w.access)
    (h : Step app reports w e v) : w.access.uploads.Grows Evolves v.access.uploads :=
  Acts.uploads (h.all hs)

/-- The root stays, and every upload remembers a place that is one. -/
theorem Step.planted (hn : Normalizes app) {v : World} {e : Event} (hs : Sound app w.access)
    (hpl : Planted app w.access) (h : Step app reports w e v) : Planted app v.access := by
  have hgrows := h.grows hn hs hpl
  constructor
  · rcases h.grafts hn hs hpl with he | ⟨_, -, hg⟩
    · rw [he]
      exact hpl.root
    · exact hpl.root.acts hg.acts hs.rooted.top
  · intro o ho hkind hb
    have hget : v.access.uploads.get o.id = some o := Table.get_of_mem ho
    cases hold : w.access.uploads.get o.id with
    | none =>
        obtain ⟨p, hp⟩ := h.begins hn hs hpl hold hget hkind hb
        exact ⟨p, hp.parent, hp.folder.grows hgrows, hp.room.grows hgrows, hp.name⟩
    | some o' =>
        obtain ⟨o'', ho'', hev⟩ := h.uploads hs _ _ hold
        obtain rfl : o'' = o := Option.some.inj (ho''.symm.trans hget)
        obtain ⟨p, hp, hfolder, hroom, hname⟩ := hpl.uploads o' (Table.mem_of_get hold)
          (by rw [← hev.kind_eq, hkind]) (by rw [← hev.base_eq, hb])
        refine ⟨p, ?_, hfolder.grows hgrows, hroom.grows hgrows, ?_⟩
        · rw [hev.parent_eq, hp]
        · rw [hev.name_eq]
          exact hname

/-! ## Runs -/

/-- No account is created while something else than a directory has the name of the directory
of accounts. -/
def HomeKept (app : App) (w : World) (e : Event) : Prop :=
  ∀ token ctx username password r, e = .served token ctx (.createUser username password) r →
    ∀ n ∈ children w.access app.root, n.name = homeName → n.kind = .directory

/-- **A step leaves a tree**, unless it creates an account below a file. -/
theorem Step.tree (hn : Normalizes app) {v : World} {e : Event} (hs : Sound app w.access)
    (hpl : Planted app w.access) (ht : Tree app w.access.nodes) (h : Step app reports w e v)
    (hhome : HomeKept app w e) : Tree app v.access.nodes := by
  rcases h.grafts hn hs hpl with he | ⟨cmd, ⟨⟨token, ctx, r, rfl⟩, -⟩, hg⟩
  · exact he ▸ ht
  · refine ht.acts (fun n hadd p hp => ?_) hg.acts
    cases hadd with
    | unreserved hq hfolder => exact Option.some.inj (hq.symm.trans hp) ▸ hfolder
    | upload _ _ _ _ _ _ _ _ _ hq _ hfolder => exact Option.some.inj (hq.symm.trans hp) ▸ hfolder
    | account hc _ hmem hname hq =>
        subst hc
        have hkind := hhome _ _ _ _ _ rfl _ hmem hname
        have hget := Table.get_of_mem (mem_children.mp hmem).1
        exact Option.some.inj (hq.symm.trans hp) ▸ ⟨_, hget, hkind⟩

/-- The nodes of a store that was just initialized are a tree. -/
theorem tree_initial (hn : Normalizes app) (clk : Clock) {username : Text} (password : Digest)
    (hname : validName username) :
    Tree app (World.initial app clk username password).access.nodes := by
  have hne : ∀ {i j : Nat}, i ≠ j → app.uuid i ≠ app.uuid j := fun h he =>
    h (app.uuid_injective he)
  have hroot : Tree app (Table.empty.put
      { newNode (app.uuid 1) [] 0 (app.uuid 0) true 493 with parent := none }) := by
    have honly : ∀ n ∈ (Table.empty.put
        { newNode (app.uuid 1) [] 0 (app.uuid 0) true 493 with parent := none }).all,
          n = { newNode (app.uuid 1) [] 0 (app.uuid 0) true 493 with parent := none } := fun n h => by
      rcases Table.mem_put.mp h with rfl | ⟨h, -⟩
      · rfl
      · exact absurd h List.not_mem_nil
    constructor
    · exact ⟨_, Table.get_put_self _ _, rfl, rfl, rfl⟩
    · intro n h _ hid
      rw [honly n h] at hid
      exact absurd rfl hid
    · intro n h m hm _ _ _ _
      rw [honly n h, honly m hm]
    · intro n h
      rw [honly n h]
      exact ⟨0, by omega, .root⟩
    · intro n h hid
      rw [honly n h] at hid
      exact absurd rfl hid
  have hhome : Tree app ((Table.empty.put
      { newNode (app.uuid 1) [] 0 (app.uuid 0) true 493 with parent := none }).put
        (newNode (app.uuid 4) homeName (app.uuid 1) (app.uuid 0) true 493)) := by
    refine hroot.put_new (p := app.uuid 1) ?_ rfl ⟨0, by omega, .root⟩
      ⟨_, Table.get_put_self _ _, rfl⟩ ⟨_, Table.get_put_self _ _, rfl⟩ ?_
      (nameOk_of_validName hn (show validName homeName by decide))
    · exact (Table.get_put_of_ne _ (hne (by decide))).trans rfl
    · intro m h _ hp
      rcases Table.mem_put.mp h with rfl | ⟨h, -⟩
      · cases hp
      · exact absurd h List.not_mem_nil
  refine hhome.put_new (p := app.uuid 4) ?_ rfl ⟨1, by omega, ?_⟩ ⟨_, Table.get_put_self _ _, rfl⟩
    ⟨_, Table.get_put_self _ _, rfl⟩ ?_ (nameOk_of_validName hn hname)
  · exact (Table.get_put_of_ne _ (hne (by decide))).trans
      ((Table.get_put_of_ne _ (hne (by decide))).trans rfl)
  · exact .step .root ⟨_, Table.get_put_self _ _, rfl⟩
  · intro m h _ hp
    rcases Table.mem_put.mp h with rfl | ⟨h, -⟩
    · exact absurd (Option.some.inj hp) (hne (by decide))
    · rcases Table.mem_put.mp h with rfl | ⟨h, -⟩
      · cases hp
      · exact absurd h List.not_mem_nil

theorem planted_initial (clk : Clock) (username : Text) (password : Digest) :
    Planted app (World.initial app clk username password).access where
  root := by
    have hs : Sound app (World.initial app clk username password).access :=
      sound_initial clk username password
    obtain ⟨r, hr, -, -⟩ := hs.root
    refine ⟨r, hr, ?_⟩
    have hmem := Table.mem_of_get hr
    simp only [World.initial, Table.mem_put, Table.all_empty, List.not_mem_nil, false_and,
      or_false] at hmem
    rcases hmem with rfl | ⟨rfl | ⟨rfl, -⟩, -⟩
    · rfl
    · rfl
    · rfl
  uploads o ho := absurd ho List.not_mem_nil

/-- Every state of a run is sound and planted. -/
theorem RunIf.planted (hn : Normalizes app) {meets : World → Event → World → Prop} {v : World}
    (hs : Sound app w.access) (hpl : Planted app w.access) (h : RunIf app reports meets w v) :
    Sound app v.access ∧ Planted app v.access := by
  induction h with
  | refl => exact ⟨hs, hpl⟩
  | tail _ hstep ih =>
      obtain ⟨e, hstep, -⟩ := hstep
      exact ⟨hstep.sound ih.1, hstep.planted hn ih.1 ih.2⟩

theorem Reachable.planted (hn : Normalizes app) (h : Reachable app reports w) :
    Planted app w.access := by
  obtain ⟨clk, username, password, es, hes⟩ := h
  have hinv := Run.induct (P := fun x => Sound app x.access ∧ Planted app x.access)
    (fun x e y hxy hx => ⟨hxy.sound hx.1, hxy.planted hn hx.1 hx.2⟩) hes
    ⟨sound_initial clk username password, planted_initial clk username password⟩
  exact hinv.2

/-- **The tree of names**: in every run from a fresh store in which no account is created below
something else than a directory, the nodes are a tree. -/
theorem namespace_tree (hn : Normalizes app) {clk : Clock} {username : Text} {password : Digest}
    (hname : validName username)
    (h : RunIf app reports (fun u e _ => HomeKept app u e)
      (World.initial app clk username password) w) :
    Tree app w.access.nodes ∧ ∀ k, ¬ Relation.TransGen (Under w.access.nodes) k k := by
  have htree : Tree app w.access.nodes := by
    induction h with
    | refl => exact tree_initial hn clk password hname
    | tail hrun hstep ih =>
        obtain ⟨hs, hpl⟩ := RunIf.planted hn (sound_initial clk username password)
          (planted_initial clk username password) hrun
        obtain ⟨e, hstep, hhome⟩ := hstep
        exact hstep.tree hn hs hpl ih hhome
  exact ⟨htree, htree.acyclic⟩

/-- The small configuration leaves every name as it is. -/
theorem small_normalizes (profile : Profile) : Normalizes (App.small profile) :=
  ⟨fun _ => rfl, fun _ h => h, fun _ _ => rfl⟩

/-- An account is created. -/
def smallAccount : Input := smallInput 60 (.createUser ['b'] ['a', 'b', 'c', 'd', 'e', 'f', 'g',
  'h', 'i', 'j', 'k', 'l'])

/-- A directory is made and an account is created. -/
theorem small_tree : ∃ w, Reachable (App.small .rf3) (fun _ => True) w ∧
    Tree (App.small .rf3) w.access.nodes ∧ ∃ n ∈ w.access.nodes.all, n.name = ['b'] := by
  obtain ⟨u, hu, hkept, hv⟩ := exists_of_perform (App.small .rf3)
    (smallStart ++ [smallInput 51 (.mkdir smallPath)]) (World.small .rf3)
    (fun u => (∀ n ∈ children u.access (App.small .rf3).root, n.name = homeName →
      n.kind = .directory) ∧ (smallAccount.perform (App.small .rf3) u).any (fun v =>
        decide (∃ n ∈ v.access.nodes.all, n.name = ['b'])) = true) (by decide +kernel)
  obtain ⟨v, hv, hb⟩ := (Option.any_eq_true _ _).mp hv
  -- Only the last step creates an account.
  have hrun : RunIf (App.small .rf3) (fun _ => True) (fun u e _ => HomeKept (App.small .rf3) u e)
      (World.small .rf3) u := by
    refine perform_runIf (fun i hi x e _ hshows => ?_) hu
    intro token ctx username password r he n hn hname
    subst he
    rcases List.mem_append.mp hi with hi | hi
    · simp only [smallStart, List.mem_cons, List.not_mem_nil, or_false] at hi
      rcases hi with rfl | rfl | rfl | rfl | rfl | rfl | rfl | rfl | rfl <;> cases hshows
    · rw [List.mem_singleton] at hi
      subst hi
      obtain ⟨_, hcase⟩ := hshows
      cases hcase
  obtain ⟨e, ⟨r, rfl⟩, hstep⟩ := Input.perform_shows hv
  have hrun' := hrun.tail ⟨_, hstep, fun _ _ _ _ _ he n hn hname => hkept n hn hname⟩
  refine ⟨v, ?_, (namespace_tree (small_normalizes .rf3) (by decide) hrun').1,
    of_decide_eq_true hb⟩
  obtain ⟨es, hes⟩ := RunIf.run hrun'
  exact ⟨_, _, _, es, hes⟩

/-- The directory of accounts is removed, and a file gets its name. -/
def smallMisplaced : List Input := smallStart ++
  [smallInput 51 (.rmdir ⟨['/', 'h', 'o', 'm', 'e', '/', 'a'], [], 0⟩),
   smallInput 52 (.rmdir ⟨['/', 'h', 'o', 'm', 'e'], [], 0⟩),
   smallInput 53 (.openFile ⟨['/', 'h', 'o', 'm', 'e'], [], 0⟩ .xPlus), smallAccount]

/-- **`CreateUser` does not look at what it finds at `/home`**: a run in which the directory of an
account is put below a file. -/
theorem home_misplaced : ∃ w, Reachable (App.small .rf3) (fun _ => True) w ∧
    ∃ n ∈ w.access.nodes.all, n.alive = true ∧ n.id ≠ (App.small .rf3).root ∧
      ¬ ∃ m ∈ w.access.nodes.all, n.parent = some m.id ∧ m.alive = true ∧ m.kind = .directory := by
  obtain ⟨w, hw, hmis⟩ := exists_of_perform (App.small .rf3) smallMisplaced (World.small .rf3)
    (fun w => ∃ n ∈ w.access.nodes.all, n.alive = true ∧ n.id ≠ (App.small .rf3).root ∧
      ¬ ∃ m ∈ w.access.nodes.all, n.parent = some m.id ∧ m.alive = true ∧ m.kind = .directory)
    (by decide +kernel)
  exact ⟨w, perform_reachable hw, hmis⟩

end Dfsha
