import Dfsha.Control.Service

/-!
# Scripts

A script is a list of inputs to a control; `perform` executes it, so a concrete run is found by
evaluation.  What a script reaches, a run reaches, so every theorem about runs can be tried on
scripts.

## Main definitions

* `Input`, `Input.perform`, `perform` — inputs, and what becomes of a control.
* `perform_reachable` — the state after a script is reachable.
* `App.small` — a small configuration to run scripts with.
-/

namespace Dfsha

variable (app : App)

/-- Something that happens to a control and succeeds. -/
inductive Input
  | advance (phases free : Nat)
  | serve (token : Id) (ctx : RequestContext) (cmd : Command)
  | call (c : Call)
  | start
  | crash (clk : Clock)

/-- The state of a successful run. -/
def World.after {α : Type} (x : T α) (w : World) : Option World :=
  match x w with
  | .ok r => some r.2
  | .error _ => none

/-- What one input makes of a control. -/
def Input.perform (w : World) : Input → Option World
  | .advance phases free => some { w with access := w.access.later phases, diskFree := free }
  | .serve token ctx cmd =>
      if w.stage = .serving then w.after (Dfsha.serve app token ctx cmd) else none
  | .call c => if w.stage = .serving ∧ c.serves app = true then w.after (c.run app) else none
  | .start =>
      match w.stage.next app with
      | some (t, stage) => (w.after t).map fun v => { v with stage := stage }
      | none => none
  | .crash clk => some (w.crash clk)

/-- Perform inputs one after the other. -/
def perform : List Input → World → Option World
  | [], w => some w
  | i :: is, w => (i.perform app w).bind (perform is)

variable {app} {w w' : World}

theorem after_eq_some {α : Type} {x : T α} (h : w.after x = some w') :
    ∃ a, x w = .ok (a, w') := by
  unfold World.after at h
  split at h
  · rename_i r hr
    rw [Option.some.injEq] at h
    exact ⟨r.1, by rw [hr, ← h]⟩
  · cases h

/-- What an input shows to the outside. -/
def Input.Shows : Input → Event → Prop
  | .serve token ctx cmd, e => ∃ r, e = .served token ctx cmd r
  | _, e => e = .silent

/-- An input is a step. -/
theorem Input.perform_shows {i : Input} (h : i.perform app w = some w') :
    ∃ e, i.Shows e ∧ Step app (fun _ => True) w e w' := by
  cases i with
  | advance phases free =>
      rw [Input.perform, Option.some.injEq] at h
      subst h
      exact ⟨_, rfl, .advance w phases free⟩
  | serve token ctx cmd =>
      rw [Input.perform] at h
      split at h
      · rename_i hstage
        obtain ⟨r, hr⟩ := after_eq_some h
        exact ⟨_, ⟨r, rfl⟩, .serve hstage hr⟩
      · cases h
  | call c =>
      rw [Input.perform] at h
      split at h
      · rename_i hc
        obtain ⟨r, hr⟩ := after_eq_some h
        exact ⟨_, rfl, .call hc.1 trivial hc.2 hr⟩
      · cases h
  | start =>
      rw [Input.perform] at h
      split at h
      · rename_i t stage hnext
        obtain ⟨v, hv, rfl⟩ := Option.map_eq_some_iff.mp h
        obtain ⟨r, hr⟩ := after_eq_some hv
        exact ⟨_, rfl, .start hnext hr⟩
      · cases h
  | crash clk =>
      rw [Input.perform, Option.some.injEq] at h
      subst h
      exact ⟨_, rfl, .crash w clk⟩

theorem Input.perform_step {i : Input} (h : i.perform app w = some w') :
    ∃ e, Step app (fun _ => True) w e w' := by
  obtain ⟨e, -, hstep⟩ := Input.perform_shows h
  exact ⟨e, hstep⟩

/-- **A script is a run.** -/
theorem perform_run {is : List Input} :
    ∀ {w}, perform app is w = some w' → ∃ es, Run app (fun _ => True) w es w' := by
  induction is with
  | nil =>
      intro w h
      rw [perform, Option.some.injEq] at h
      exact ⟨[], h ▸ .nil w⟩
  | cons i is ih =>
      intro w h
      rw [perform] at h
      obtain ⟨v, hv, h⟩ := Option.bind_eq_some_iff.mp h
      obtain ⟨e, hstep⟩ := Input.perform_step hv
      obtain ⟨es, hrun⟩ := ih h
      exact ⟨e :: es, .cons hstep hrun⟩

/-- A script whose inputs meet a condition, whatever states they are performed in. -/
theorem perform_runIf {meets : World → Event → World → Prop} {is : List Input}
    (hmeets : ∀ i ∈ is, ∀ u e v, i.Shows e → meets u e v) :
    ∀ {w}, perform app is w = some w' → RunIf app (fun _ => True) meets w w' := by
  induction is with
  | nil =>
      intro w h
      rw [perform, Option.some.injEq] at h
      exact h ▸ .refl
  | cons i is ih =>
      intro w h
      rw [perform] at h
      obtain ⟨v, hv, h⟩ := Option.bind_eq_some_iff.mp h
      obtain ⟨e, hshows, hstep⟩ := Input.perform_shows hv
      exact .head ⟨e, hstep, hmeets i List.mem_cons_self w e v hshows⟩
        (ih (fun j hj => hmeets j (List.mem_cons_of_mem _ hj)) h)

/-- **What a script reaches is reachable.** -/
theorem perform_reachable {is : List Input} {clk : Clock} {username : Text} {password : Digest}
    (h : perform app is (World.initial app clk username password) = some w) :
    Reachable app (fun _ => True) w := by
  obtain ⟨es, hrun⟩ := perform_run h
  exact ⟨clk, username, password, es, hrun⟩

/-- A step whose calls, if it is one, meet a condition. -/
theorem Input.perform_reports {reports : Call → Prop} {i : Input}
    (hi : ∀ c, i = .call c → reports c) (h : i.perform app w = some w') :
    ∃ e, i.Shows e ∧ Step app reports w e w' := by
  obtain ⟨e, hshows, hstep⟩ := Input.perform_shows h
  cases i with
  | call c =>
      rw [Input.perform] at h
      split at h
      · rename_i hc
        obtain ⟨r, hr⟩ := after_eq_some h
        exact ⟨_, rfl, .call hc.1 (hi c rfl) hc.2 hr⟩
      · cases h
  | serve token ctx cmd =>
      obtain ⟨r, rfl⟩ := hshows
      cases hstep with
      | serve hstage hr => exact ⟨_, ⟨r, rfl⟩, .serve hstage hr⟩
  | advance phases free =>
      rw [Input.perform, Option.some.injEq] at h
      exact h ▸ ⟨_, rfl, .advance w phases free⟩
  | start =>
      rw [Input.perform] at h
      split at h
      · rename_i t stage hnext
        obtain ⟨v, hv, rfl⟩ := Option.map_eq_some_iff.mp h
        obtain ⟨r, hr⟩ := after_eq_some hv
        exact ⟨_, rfl, .start hnext hr⟩
      · cases h
  | crash clk =>
      rw [Input.perform, Option.some.injEq] at h
      exact h ▸ ⟨_, rfl, .crash w clk⟩

/-- What a script reaches whose calls meet a condition. -/
theorem perform_reports {reports : Call → Prop} {is : List Input} {clk : Clock} {username : Text}
    {password : Digest} (his : ∀ i ∈ is, ∀ c, i = .call c → reports c)
    (h : perform app is (World.initial app clk username password) = some w) :
    Reachable app reports w := by
  have hrun : ∀ {js : List Input} {u : World}, (∀ i ∈ js, ∀ c, i = .call c → reports c) →
      perform app js u = some w → ∃ es, Run app reports u es w := by
    intro js
    induction js with
    | nil =>
        intro u _ hu
        rw [perform, Option.some.injEq] at hu
        exact ⟨[], hu ▸ .nil u⟩
    | cons i js ih =>
        intro u hjs hu
        rw [perform] at hu
        obtain ⟨v, hv, hu⟩ := Option.bind_eq_some_iff.mp hu
        obtain ⟨e, -, hstep⟩ := Input.perform_reports (hjs i List.mem_cons_self) hv
        obtain ⟨es, hes⟩ := ih (fun j hj => hjs j (List.mem_cons_of_mem _ hj)) hu
        exact ⟨e :: es, .cons hstep hes⟩
  obtain ⟨es, hes⟩ := hrun his h
  exact ⟨clk, username, password, es, hes⟩

/-- A script that reaches a state of some kind, found by evaluation. -/
theorem exists_of_perform (app : App) (is : List Input) (w : World) (P : World → Prop)
    [DecidablePred P]
    (h : (perform app is w).any (fun v => decide (P v)) = true) :
    ∃ v, perform app is w = some v ∧ P v := by
  obtain ⟨v, hv, hP⟩ := (Option.any_eq_true _ _).mp h
  exact ⟨v, hv, of_decide_eq_true hP⟩

/-- A result that is found by evaluation. -/
theorem exists_ok {ε α : Type} {x : Except ε α} {P : α → Bool} (h : x.toOption.any P = true) :
    ∃ a, x = .ok a ∧ P a = true := by
  obtain ⟨a, ha, hP⟩ := (Option.any_eq_true _ _).mp h
  cases x with
  | error e => cases ha
  | ok b => exact ⟨b, rfl, Option.some.inj ha ▸ hP⟩

/-! ## A small configuration -/

/-- A number for a byte string, different for different strings. -/
def Bytes.code (bytes : Bytes) : Nat :=
  bytes.foldl (fun n b => 257 * n + b.toNat + 1) 0

/-- Identifiers are numbered, digests are numbers, and no request is told from another by its
digest. -/
def App.small (profile : Profile) : App where
  profile := profile
  blockSizeBytes := 4194304
  maxFileBytes := 1073741824
  capacityBytes := 1073741824
  lockLease := 30000000000
  handleLease := 60000000000
  metadataKey := false
  uniqueNames := false
  defaultReplicas := 1
  unavailableMs := 10000
  suspectMs := 5000
  scrubIntervalMs := 60000
  strictContentPermissions := false
  allowed n := if n < 4 then some ⟨n, n, n, n + 1, 1073741824⟩ else none
  uuid n := n + 1
  isUuid _ := true
  sha256 bytes := ⟨32, bytes.code⟩
  manifestHash blocks := ⟨32, blocks.foldl (fun n b => 1000 * n + b.blockVersionId + 1) 0⟩
  intent _ := ⟨32, 0⟩
  hmac _ := ⟨32, 0⟩
  tokenHash token := token
  passwordHash salt password := ⟨32, 1000 * salt + password.length⟩
  matches_ digest password := digest.value % 1000 == password.length
  nfc text := text
  blockSize_mem := by decide
  lockLease_pos := by decide
  lockLease_le := by decide
  handleLease_pos := by decide
  handleLease_le := by decide
  domain_ne n a h := by
    split at h
    · cases h
      exact Nat.succ_ne_zero n
    · cases h
  uuid_injective _ _ h := Nat.succ.inj h
  uuid_ne_zero n := Nat.succ_ne_zero n
  isUuid_uuid _ := rfl

/-- A clock that moves on by a microsecond with every phase. -/
def Clock.steady : Clock where
  monotonic n := 1000 * n
  wall n := 1000000 + n / 1000
  mono _ _ h := Nat.mul_le_mul_left 1000 h

/-- The administrator of the small configuration. -/
def smallUser : User := ⟨1, ['a'], ⟨32, 0⟩, false, true, 1⟩

/-- A store of the small configuration that was just initialized. -/
def World.small (profile : Profile) : World :=
  World.initial (App.small profile) .steady ['a'] ⟨32, 0⟩

/-- The context of a request of the administrator. -/
def smallContext (requestId : Id) : RequestContext := ⟨requestId, 1, 3, ⟨32, 0⟩⟩

/-- A request of the administrator, in the session that `smallStart` opens. -/
def smallInput (requestId : Id) (cmd : Command) : Input := .serve 8 (smallContext requestId) cmd

/-- The file that the scripts are about. -/
def smallPath : PathRef := ⟨['/', 'f'], [], 0⟩

/-- A data node. -/
def smallNode : BlockLocation := ⟨1, 1, 1, 1, 2⟩

/-- A report of the data node. -/
def smallCall (requestId : Id) : NodeCall := ⟨1, ⟨requestId, 1, 3, ⟨32, 0⟩⟩⟩

/-- A control with leases starts, the administrator logs in, and a data node reports that it
is empty. -/
def smallStart : List Input :=
  [.start, .start, .start, .start, .start, .call (.login smallUser 50),
   .call (.registerNode (smallCall 60) ⟨smallNode, 1073741824, 1073741824, 61⟩),
   .call (.blockReport (smallCall 62) ⟨1, 1, 61, 0, [], true, 0⟩),
   .call (.heartbeat (smallCall 63) ⟨1, 1, 1, 1073741824, 0, 0⟩)]

/-- The snapshot of a file that was just created. -/
def smallEmpty : SnapshotRef := ⟨10, 1, 1, 11, 0, ⟨32, 0⟩, some ⟨32, 0⟩, 4194304⟩

/-- A handle creates a file, and begins to write three bytes to it. -/
def smallBegin : List Input := smallStart ++
  [smallInput 51 (.openFile smallPath .xPlus),
   smallInput 52 (.beginWrite ⟨12, smallEmpty, some 0, some 3, ⟨32, 0⟩, [],
     [⟨0, 0, 0, 3, ⟨32, 0⟩⟩]⟩)]

/-- The block that `smallBegin` plans, as it was built. -/
def smallBlock : BlockRef := ⟨10, 15, 0, 3, ⟨32, 7⟩⟩

/-- What the data node says when it has built the block. -/
def smallReceipt : DurableReceipt := ⟨70, 13, smallBlock, 1, 1, 2, 100, ⟨32, 8⟩, 0⟩

/-- The fence of the lock that `smallBegin` takes. -/
def smallFence : Fence := ⟨14, 12, 7, 1, 1, [0], false, true, 0⟩

/-- The operation that `smallBegin` begins. -/
def smallOperation : OperationRef := ⟨13, 52, ⟨32, 0⟩⟩

/-- The block is built at the data node. -/
def smallStored : List Input := smallBegin ++
  [.call (.reportPatch (smallCall 64) ⟨smallReceipt, ⟨⟨71, 1, 3, ⟨32, 0⟩⟩, smallOperation,
     .absent 10 0, 15, 0, 3, ⟨32, 0⟩, smallFence, ⟨32, 0⟩⟩⟩)]

/-- The commit of the write. -/
def smallCommand : Command :=
  .commitWrite ⟨smallOperation, 12, [⟨.absent 10 0, smallBlock, [smallReceipt]⟩], [smallFence], 1⟩

/-- The write is committed. -/
def smallCommit : List Input := smallStored ++ [smallInput 53 smallCommand]

end Dfsha
