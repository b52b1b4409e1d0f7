import Dfsha.Refine.Maintenance

/-!
# Every step is a sequence of actions

The refinement theorem: whatever a control does in one step, its records of the
lease protocol change by a sequence of actions.  With it the invariant holds in every state
that a run reaches.
-/

namespace Dfsha

variable {app : App} {trust : Trust} {w : World}

/-- The commands that begin an operation. -/
def Command.begins : Command → Bool
  | .beginUpload _ | .beginWrite _ => true
  | _ => false

/-- The commands that publish a snapshot. -/
def Command.publishes : Command → Bool
  | .commitUpload _ | .commitWrite _ | .openFile _ _ => true
  | _ => false

/-- The command that seals a manifest. -/
def Command.seals : Command → Bool
  | .sealManifest _ => true
  | _ => false

instance {α : Type} : Quiet (unimplemented : T α) := ⟨fun _ _ h => by cases h⟩

theorem protectionOpen_refines (hp : ∀ f, trust.empties f) (user : User) (session : Session)
    (path : PathRef) (mode : OpenMode) :
    Refines app trust (protectionOpen app user session path mode) := by
  unfold protectionOpen
  refine Refines.bind (Quiet.refines app trust _) fun _ => ?_
  refine Refines.bind (accessOpen_refines hp user session path mode) fun _ => ?_
  exact Quiet.refines app trust _

theorem openFile_refines (hp : ∀ f, trust.empties f) (user : User) (session : Session)
    (path : PathRef) (mode : OpenMode) :
    Refines app trust (openFile app user session path mode) := by
  intro w r hs h
  unfold openFile at h
  split at h
  · exact commandsOpen_refines user session path mode w r hs h
  · exact commandsOpen_refines user session path mode w r hs h
  · exact (accessOpen_refines hp user session path mode).bind (fun _ => Quiet.refines app trust _)
      w r hs h
  · exact (protectionOpen_refines hp user session path mode).bind
      (fun _ => Quiet.refines app trust _) w r hs h

/-- What only a control with leases has, and the other one refuses. -/
theorem Refines.leased {α : Type} {t : T α} (h : app.rf3 = true → Refines app trust t) :
    Refines app trust (if app.rf3 = true then t else unimplemented) :=
  Refines.ite h fun _ => Quiet.refines app trust _

/-- **Every command is a sequence of actions.** -/
theorem execute_refines {cmd : Command} (hb : cmd.begins = true → ∀ k, trust.begins k)
    (hp : cmd.publishes = true → trust.publishes) (hl : cmd.seals = true → trust.seals)
    (user : User) (session : Session) (ctx : RequestContext) :
    Refines app trust (execute app user session ctx cmd) := by
  have hremove : ∀ path directory, Refines app trust (remove app user ctx path directory) :=
    fun path directory => Refines.ite (fun _ => accessRemove_refines user ctx path directory)
      fun _ => removeNode_refines user ctx path directory
  unfold execute
  cases cmd with
  | mkdir path => exact mkdir_refines user path
  | rmdir path => exact hremove path true
  | remove path => exact hremove path false
  | createUser username password => exact createUser_refines user username password
  | setUser userId disabled revision => exact Quiet.refines app trust _
  | changePassword userId password revision => exact Quiet.refines app trust _
  | createGroup name => exact Quiet.refines app trust _
  | setGroupMembers groupId userIds revision => exact Quiet.refines app trust _
  | setAcl path acl revision => exact setAcl_refines user ctx path acl revision
  | logout sessionId => exact Quiet.refines app trust _
  | beginUpload req => exact beginUpload_refines (hb rfl) user session ctx req
  | renewUpload reference => exact renewUpload_refines user session reference
  | allocateBlocks req => exact allocateBlocks_refines user session req
  | stageManifestPage req => exact stageManifestPage_refines user session req
  | sealManifest req => exact sealManifest_refines (hl rfl) user session req
  | commitUpload req =>
      exact (commitUpload_refines (hp rfl).1 user session req).bind fun _ => Quiet.refines app trust _
  | abortUpload reference => exact abortUpload_refines user session ctx reference
  | openFile path mode => exact openFile_refines (hp rfl).2 user session path mode
  | renewHandle handleId revision =>
      exact Refines.ite (fun _ => accessRenewHandle_refines user session handleId)
        fun hr => commandsRenewHandle_refines (by simpa using hr) user session handleId revision
  | close handleId revision =>
      exact Refines.ite (fun _ => accessClose_refines user session ctx handleId)
        fun _ => commandsClose_refines user session ctx handleId revision
  | beginRead req => exact .leased fun _ => beginRead_refines user session req
  | endRead handleId readId => exact .leased fun _ => endRead_refines user session ctx handleId readId
  | lock req => exact .leased fun _ => lockBlocks_refines user session req
  | renewLock fence => exact .leased fun _ => renewLock_refines user session fence
  | unlock fence => exact .leased fun _ => unlock_refines session ctx fence
  | beginWrite req => exact .leased fun hr => beginWrite_refines hr (hb rfl) user session ctx req
  | commitWrite req =>
      exact .leased fun _ =>
        (commitWrite_refines (hp rfl).1 user session req).bind fun _ => Quiet.refines app trust _
  | abortWrite reference => exact .leased fun _ => abortWrite_refines user session ctx reference
  | setNodeAuthorization nodeId enabled revision => exact Quiet.refines app trust _
  | copyBlock req => exact Quiet.refines app trust _
  | promoteProtection path revision =>
      exact Refines.ite (fun _ => promoteProtection_refines user ctx path revision)
        fun _ => Quiet.refines app trust _

theorem serve_refines {cmd : Command}
    (hb : cmd.begins = true → ∀ k, trust.begins k)
    (hp : cmd.publishes = true → trust.publishes) (hl : cmd.seals = true → trust.seals)
    (token : Id) (ctx : RequestContext) :
    Refines app trust (serve app token ctx cmd) := by
  unfold serve
  refine .query fun w x hs _ r h => ?_
  refine (Refines.query fun w previous hs _ r h => ?_ : Refines app trust _) _ r (hs.advance 1) h
  cases previous with
  | some response => exact Quiet.refines app trust _ _ r (hs.advance 1) h
  | none =>
      refine (Refines.bind (execute_refines hb hp hl x.1 x.2 ctx) fun _ => ?_ : Refines app trust _)
        _ r (hs.advance 1) h
      exact Quiet.refines app trust _

/-- **What answers a request**: the ledger, or the body of the command, whose reply is then
written to the ledger in the same transaction. -/
theorem serve_cases {token : Id} {ctx : RequestContext} {cmd : Command} {r : Response} {w' : World}
    (h : (serve app token ctx cmd) w = .ok (r, w')) :
    ∃ user session, (authenticated app token ctx) w = .ok (user, session) ∧
      ((replay app user.id ctx (.command cmd) cmd.method cmd.password)
          (w.setAccess (w.access.later 1)) = .ok (some r) ∧
          w' = w.setAccess (w.access.later 2) ∨
        (replay app user.id ctx (.command cmd) cmd.method cmd.password)
          (w.setAccess (w.access.later 1)) = .ok none ∧
          ∃ v verifier, (execute app user session ctx cmd) (w.setAccess (w.access.later 2)) =
              .ok (r, v) ∧
            (verifierOf v.identity cmd) (v.setAccess (v.access.later 1)) = .ok verifier ∧
            w' = { v.setAccess (v.access.later 2) with
              ledger := v.ledger.put
                ⟨ledgerId app user.id ctx, cmd.method, app.intent (.command cmd), r, verifier⟩ }) := by
  unfold serve at h
  simp only [run_query, setAccess_access, setAccess_setAccess, Access.later_later,
    Nat.reduceAdd] at h
  obtain ⟨⟨user, session⟩, hauth, previous, hprev, h⟩ := h
  refine ⟨user, session, hauth, ?_⟩
  cases previous with
  | some reply =>
      simp only [Tx.pure_ok, Prod.mk.injEq] at h
      obtain ⟨rfl, rfl⟩ := h
      exact .inl ⟨hprev, rfl⟩
  | none =>
      obtain ⟨reply, v, hexec, h⟩ := Tx.bind_ok.mp h
      simp only [run_query, identity, Query.read_ok, setAccess_access, setAccess_setAccess,
        Access.later_later, Nat.reduceAdd] at h
      obtain ⟨i, rfl, verifier, hverifier, h⟩ := h
      obtain ⟨_, u, hput, h⟩ := Tx.bind_ok.mp h
      simp only [remember, putLedger_ok, Tx.pure_ok, Prod.mk.injEq] at hput h
      obtain ⟨rfl, rfl⟩ := h
      exact .inr ⟨hprev, v, verifier, hexec, hverifier, hput.2⟩

theorem call_refines {c : Call} (ht : trust.admits c) :
    Refines app trust (c.run app) := by
  cases c with
  | limitLogin bucket => exact Quiet.refines app trust (limitLogin bucket)
  | login user requestId => exact Quiet.refines app trust (login app user requestId)
  | verifySeal token ctx req => exact Quiet.refines app trust (verifySeal app token ctx req)
  | registerNode call req => exact registerNode_refines call req
  | heartbeat call req => exact Quiet.refines app trust (heartbeat app call req)
  | blockReport call req => exact Quiet.refines app trust (blockReport app call req)
  | reportDurable call req => exact reportDurable_refines call req ht
  | reportPatch call req => exact reportPatch_refines call req ht
  | reportTask call req => exact Quiet.refines app trust (reportTask app call req)
  | collectMetadata =>
      exact (collectMetadata_refines false).bind fun _ => Quiet.refines app trust _
  | collectTasks => exact Quiet.refines app trust (collectTasks app)
  | failCopies => exact Quiet.refines app trust (failCopies app)
  | reconcile => exact Quiet.refines app trust (reconcile app)
  | scrubbed loc health => exact Quiet.refines app trust (scrubbed loc health)
  | cleanOrphan task status => exact Quiet.refines app trust (cleanOrphan app task status)
  | dispatched task => exact Quiet.refines app trust (dispatched task)
  | overdue task => exact Quiet.refines app trust (overdue task)
  | admitBlock token header => exact admitBlock_refines token header
  | recordBlock token header stored digest =>
      exact recordBlock_refines token header stored digest ht

theorem start_refines {stage next : Stage} {t : T Unit} (h : stage.next app = some (t, next)) :
    Refines app trust t := by
  have hnodes : Refines app trust startNodes := Quiet.refines app trust _
  cases stage with
  | down =>
      simp only [Stage.next, Option.some.injEq, Prod.mk.injEq] at h
      exact h.1 ▸ (collectMetadata_refines true).bind fun _ => Quiet.refines app trust _
  | collected =>
      simp only [Stage.next] at h
      split at h
      · simp only [Option.some.injEq, Prod.mk.injEq] at h
        exact h.1 ▸ Quiet.refines app trust (collectTasks app)
      · simp only [Option.some.injEq, Prod.mk.injEq] at h
        exact h.1 ▸ Quiet.refines app trust (pure ())
  | swept =>
      simp only [Stage.next] at h
      split at h
      · simp only [Option.some.injEq, Prod.mk.injEq] at h
        exact h.1 ▸ startLeases_refines
      · simp only [Option.some.injEq, Prod.mk.injEq] at h
        exact h.1 ▸ hnodes
  | leased =>
      simp only [Stage.next, Option.some.injEq, Prod.mk.injEq] at h
      exact h.1 ▸ hnodes
  | registered =>
      simp only [Stage.next] at h
      split at h
      · simp only [Option.some.injEq, Prod.mk.injEq] at h
        exact h.1 ▸ Quiet.refines app trust startReplicated
      · simp only [Option.some.injEq, Prod.mk.injEq] at h
        exact h.1 ▸ Quiet.refines app trust (pure ())
  | serving => cases h

variable (trust) in
/-- **Every step of a control is a sequence of actions.** -/
theorem Step.acts {reports : Call → Prop} {v : World} {e : Event}
    (hb : ∀ k, trust.begins k) (hp : trust.publishes) (hl : trust.seals) (hc : trust.crashes)
    (ht : ∀ c, reports c → trust.admits c) (hs : Sound app w.access)
    (h : Step app reports w e v) : Acts app trust w.access v.access := by
  cases h with
  | advance k free => exact acts_later _ k
  | serve _ h => exact serve_refines (fun _ => hb) (fun _ => hp) (fun _ => hl) _ _ w _ hs h
  | lookup _ _ => exact .refl
  | refuse _ _ => exact .refl
  | call _ hrep _ h => exact call_refines (ht _ hrep) w _ hs h
  | start hnext h => exact start_refines hnext w _ hs h
  | crash clk => exact .single (.crash _ clk hc)

end Dfsha
