import Dfsha.Control.Maintenance
import Dfsha.Control.Volume
import Mathlib.Logic.Relation

/-!
# Runs of a control

`serve` is the write transaction of `unary_once`, `lookup` the read transaction before
it.  A `Call` is every other transaction of a control: a login, the verification of a
manifest before it is sealed, what data nodes report, and maintenance.  A `Step` is one
transaction of a control, a part of its start, the passage of time, or a crash; a run is
any sequence of steps, so any interleaving of any clients' requests.

The parameter `reports` says which calls the outside world makes; `fun _ => True`
assumes nothing of data nodes.
-/

namespace Dfsha

variable (app : App)

/-! ## Requests of clients -/

/-- The write transaction of `unary_once`. -/
def serve (token : Id) (ctx : RequestContext) (cmd : Command) : T Response := do
  let (user, session) ← authenticated app token ctx
  let previous ← replay app user.id ctx (.command cmd) cmd.method cmd.password
  match previous with
  | some r => pure r
  | none => do
      let r ← execute app user session ctx cmd
      let i ← identity
      let verifier ← verifierOf i cmd
      remember app user.id ctx (.command cmd) cmd.method verifier r
      pure r

/-- A logout carried out before: its session is revoked, so it cannot authenticate. -/
def replayLogout (session : Session) (ctx : RequestContext) (cmd : Command) : Q Response := do
  let i ← identity
  let user ← deref (i.users.get session.user)
  need (ctx.userId = user.id ∧ ctx.serviceEpoch = app.epoch) .unauthenticated
  need (app.isUuid ctx.requestId = true) .invalidArgument
  let previous ← replay app user.id ctx (.command cmd) cmd.method cmd.password
  needSome previous .unauthenticated

/-- The read transaction of `unary_once`: the reply of a request already carried out. -/
def lookup (token : Id) (ctx : RequestContext) (cmd : Command) : Q (Option Response) := do
  let i ← identity
  match if cmd.method = .logout then
      (i.sessions.get (app.tokenHash token)).filter fun s => s.revoked else none with
  | some session => do
      let r ← replayLogout app session ctx cmd
      pure (some r)
  | none => do
      let (user, _) ← authenticated app token ctx
      replay app user.id ctx (.command cmd) cmd.method cmd.password

/-! ## Logins -/

/-- Count a login in the current minute. -/
def countLogin (window : Nat) (id limit : Nat) : T Unit := do
  let i ← identity
  let rate := (i.rates.get id).getD ⟨id, window, 0⟩
  let rate := if rate.window = window then rate else { rate with window := window, count := 0 }
  need (rate.count < limit) .limitExceeded
  onIdentity fun i => { i with rates := i.rates.put { rate with count := rate.count + 1 } }

/-- The first transaction of `Login`, with the bucket of the user's name. -/
def limitLogin (bucket : Nat) : T Unit := do
  let t ← now
  countLogin (t / 60000) 0 60
  countLogin (t / 60000) (bucket % 64 + 1) 10

/-- The quota on sessions, and the record a repeated login is answered from. -/
def rememberLogin (username : Text) (requestId : Id) (session : Session) : T Unit := do
  let w ← world
  match w.identity.loginResults.find? fun r => r.username = username ∧ r.requestId = requestId with
  | some previous => do
      let live ← needSome (w.identity.sessions.get previous.session) .unauthenticated
      need (live.revoked = false ∧ w.access.now < live.expires) .unauthenticated
  | none => do
      let active := w.identity.sessions.all.filter fun s =>
        s.revoked = false ∧ w.access.now < s.expires
      need (active.length < 128 ∧
        (active.filter fun s => s.user = session.user).length < 8) .limitExceeded
      putSession session
      onIdentity fun i =>
        { i with loginResults := ⟨username, requestId, session.id⟩ :: i.loginResults }

/-- The last transaction of `Login`: `user` is what an earlier one read. -/
def login (user : User) (requestId : Id) : T Unit := do
  let token ← draw app
  let sessionId ← draw app
  let start ← now
  let session : Session := ⟨app.tokenHash token, sessionId, user.id, start + 3600000, false⟩
  let i ← identity
  let current ← deref (i.users.get user.id)
  need (current.disabled = false ∧ current.password = user.password) .unauthenticated
  if app.metadataKey = true then rememberLogin user.username requestId session
  else putSession session

/-! ## Sealing -/

/-- `DistributedControl.verify_seal`: every block is recorded and has a copy somewhere.
The monolith reads its own volume instead. -/
def verifyBlock (block : BlockRef) : Q Unit := do
  let w ← world
  need (app.distributed = true →
    (w.access.blocks.get block.blockVersionId).map Block.ref = some block ∧
      ∃ l ∈ w.cluster.locations.all, l.block = block.blockVersionId) .dataUnavailable

/-- What `unary_once` does before the transaction of `SealManifest`. -/
def verifySeal (token : Id) (ctx : RequestContext) (req : SealManifestRequest) : T Unit := do
  let (user, session) ← authenticated app token ctx
  let op ← operation app user session req.operation (some req.fence)
  let blocks ← manifest op
  Tx.each blocks fun block => liftM (verifyBlock app block)
  Tx.modify fun w =>
    { w with verifiedSeals := (op.id, app.manifestHash blocks) :: w.verifiedSeals }

/-! ## Steps -/

/-- The transactions of a control that are not commands of a client. -/
inductive Call
  | limitLogin (bucket : Nat)
  | login (user : User) (requestId : Id)
  | verifySeal (token : Id) (ctx : RequestContext) (req : SealManifestRequest)
  | registerNode (call : NodeCall) (req : RegisterNodeRequest)
  | heartbeat (call : NodeCall) (req : HeartbeatRequest)
  | blockReport (call : NodeCall) (req : BlockReportRequest)
  | reportDurable (call : NodeCall) (req : ReportDurableRequest)
  | reportPatch (call : NodeCall) (req : ReportPatchRequest)
  | reportTask (call : NodeCall) (req : ReportTaskRequest)
  | collectMetadata
  | collectTasks
  | failCopies
  | reconcile
  | scrubbed (loc : Location) (health : Health)
  | cleanOrphan (task : Task) (status : TaskStatus)
  | dispatched (task : Id)
  | overdue (task : Id)
  | admitBlock (token : Id) (header : PutBlockHeader)
  | recordBlock (token : Id) (header : PutBlockHeader) (stored : Nat) (digest : Digest)

/-- The transaction of a call. -/
def Call.run : Call → T Unit
  | .limitLogin bucket => Dfsha.limitLogin bucket
  | .login user requestId => Dfsha.login app user requestId
  | .verifySeal token ctx req => Dfsha.verifySeal app token ctx req
  | .registerNode call req => Dfsha.registerNode app call req
  | .heartbeat call req => Dfsha.heartbeat app call req
  | .blockReport call req => Dfsha.blockReport app call req
  | .reportDurable call req => Dfsha.reportDurable app call req
  | .reportPatch call req => Dfsha.reportPatch app call req
  | .reportTask call req => Dfsha.reportTask app call req
  | .collectMetadata => do
      let _ ← Dfsha.collectMetadata app false
      pure ()
  | .collectTasks => Dfsha.collectTasks app
  | .failCopies => Dfsha.failCopies app
  | .reconcile => Dfsha.reconcile app
  | .scrubbed loc health => Dfsha.scrubbed loc health
  | .cleanOrphan task status => Dfsha.cleanOrphan app task status
  | .dispatched task => Dfsha.dispatched task
  | .overdue task => Dfsha.overdue task
  | .admitBlock token header => Dfsha.admitBlock app token header
  | .recordBlock token header stored digest => Dfsha.recordBlock app token header stored digest

/-- The calls each class of control makes or serves. -/
def Call.serves : Call → Bool
  | .limitLogin _ | .login .. | .verifySeal .. | .collectMetadata => true
  | .registerNode .. | .heartbeat .. | .blockReport .. | .reportDurable .. | .reportTask .. =>
      app.distributed
  | .reportPatch .. => app.rf3
  | .collectTasks | .overdue _ => app.distributed && !app.replicated
  | .failCopies | .reconcile | .scrubbed .. | .cleanOrphan .. | .dispatched _ => app.replicated
  | .admitBlock .. | .recordBlock .. => !app.distributed

/-- The next transaction of a constructor, and the stage it leads to. -/
def Stage.next : Stage → Option (T Unit × Stage)
  | .down => some (do let _ ← collectMetadata app true; pure (), .collected)
  | .collected =>
      if app.distributed = true then some (collectTasks app, .swept) else some (pure (), .serving)
  | .swept =>
      if app.rf3 = true then some (startLeases app, .leased) else some (startNodes, .registered)
  | .leased => some (startNodes, .registered)
  | .registered =>
      if app.replicated = true then some (startReplicated, .serving) else some (pure (), .serving)
  | .serving => none

/-- A process that ends loses its lease authority and everything else in memory; the next
one may find any clock. -/
def World.crash (w : World) (clk : Clock) : World :=
  { w with
    access := { w.access with epoch := none, clk := clk, phase := 0, admitted := [] },
    verifiedSeals := [], stage := .down }

/-- What a step shows to the outside: which request was answered, and how. -/
inductive Event
  | silent
  /-- A request was carried out, or answered from the ledger in its own transaction. -/
  | served (token : Id) (ctx : RequestContext) (cmd : Command) (r : Response)
  /-- A request was answered from the ledger without a write transaction. -/
  | replayed (token : Id) (ctx : RequestContext) (cmd : Command) (r : Response)
  /-- A request failed. -/
  | refused (token : Id) (ctx : RequestContext) (cmd : Command) (e : Failure)

/-- One step of a control. -/
inductive Step (reports : Call → Prop) : World → Event → World → Prop
  | advance (w : World) (k free : Nat) :
      Step reports w .silent { w with access := w.access.later k, diskFree := free }
  | serve {w w' : World} {token : Id} {ctx : RequestContext} {cmd : Command} {r : Response} :
      w.stage = .serving → (serve app token ctx cmd) w = .ok (r, w') →
      Step reports w (.served token ctx cmd r) w'
  | lookup {w : World} {token : Id} {ctx : RequestContext} {cmd : Command} {r : Response} :
      w.stage = .serving → (lookup app token ctx cmd) w = .ok (some r) →
      Step reports w (.replayed token ctx cmd r) w
  | refuse {w : World} {token : Id} {ctx : RequestContext} {cmd : Command} {e : Failure} :
      w.stage = .serving → (Dfsha.serve app token ctx cmd) w = .error e →
      Step reports w (.refused token ctx cmd e) w
  | call {w w' : World} {c : Call} :
      w.stage = .serving → reports c → c.serves app = true → (c.run app) w = .ok ((), w') →
      Step reports w .silent w'
  | start {w w' : World} {t : T Unit} {stage : Stage} :
      w.stage.next app = some (t, stage) → t w = .ok ((), w') →
      Step reports w .silent { w' with stage := stage }
  | crash (w : World) (clk : Clock) : Step reports w .silent (w.crash clk)

/-- A run: the events of its steps, in order. -/
inductive Run (reports : Call → Prop) : World → List Event → World → Prop
  | nil (w : World) : Run reports w [] w
  | cons {w v u : World} {e : Event} {es : List Event} :
      Step app reports w e v → Run reports v es u → Run reports w (e :: es) u

/-- `initialize`: an administrator, the root, `/home` and the administrator's own directory. -/
def World.initial (clk : Clock) (username : Text) (password : Digest) : World where
  access :=
    { clk := clk, phase := 0, epoch := none, issued := 6, lockSequence := 0,
      locks := .empty, handles := .empty, reads := .empty, uploads := .empty,
      nodes := ((Table.empty.put
          { newNode (app.uuid 1) [] 0 (app.uuid 0) true 493 with parent := none }).put
          (newNode (app.uuid 4) ['h', 'o', 'm', 'e'] (app.uuid 1) (app.uuid 0) true 493)).put
          (newNode (app.uuid 5) username (app.uuid 4) (app.uuid 0) true 448),
      snapshots := .empty, blocks := .empty, retired := .empty, admitted := [] }
  cluster :=
    { locations := .empty, assignments := .empty, datanodes := .empty, nodePolicies := .empty,
      tasks := .empty, retirements := .empty, policies := .empty, durability := .empty,
      replicaPlans := .empty, repairRetries := .empty, placementLast := 0 }
  identity :=
    { users := Table.empty.put ⟨app.uuid 0, username, password, false, true, 1⟩,
      groups := Table.empty.put ⟨app.uuid 0, username, [app.uuid 0], 1⟩,
      sessions := .empty, rates := .empty, loginResults := [] }
  ledger := .empty
  generation := 0
  maintenanceGeneration := 0
  verifiedSeals := []
  diskFree := 0
  stage := .down

/-- The states a control can get into after its store was initialized. -/
def Reachable (reports : Call → Prop) (w : World) : Prop :=
  ∃ clk username password es, Run app reports (World.initial app clk username password) es w

namespace Run

variable {app} {reports : Call → Prop}

theorem trans {w v u : World} {es fs : List Event} (h : Run app reports w es v)
    (h' : Run app reports v fs u) : Run app reports w (es ++ fs) u := by
  induction h with
  | nil w => exact h'
  | cons s _ ih => exact Run.cons s (ih h')

theorem single {w v : World} {e : Event} (h : Step app reports w e v) :
    Run app reports w [e] v := Run.cons h (Run.nil v)

/-- **The invariant rule of runs**: what every step keeps, a run keeps. -/
theorem induct {P : World → Prop}
    (step : ∀ w e v, Step app reports w e v → P w → P v) {w u : World} {es : List Event}
    (h : Run app reports w es u) (h0 : P w) : P u := by
  induction h with
  | nil w => exact h0
  | cons s _ ih => exact ih (step _ _ _ s h0)

end Run

/-- A run whose steps all meet a condition. -/
def RunIf (reports : Call → Prop) (meets : World → Event → World → Prop) : World → World → Prop :=
  Relation.ReflTransGen fun w v => ∃ e, Step app reports w e v ∧ meets w e v

variable {app} in
theorem RunIf.run {reports : Call → Prop} {meets : World → Event → World → Prop} {w v : World}
    (h : RunIf app reports meets w v) : ∃ es, Run app reports w es v := by
  induction h with
  | refl => exact ⟨[], .nil w⟩
  | tail _ hstep ih =>
      obtain ⟨es, hrun⟩ := ih
      obtain ⟨e, hstep, -⟩ := hstep
      exact ⟨_, hrun.trans (.single hstep)⟩

end Dfsha
