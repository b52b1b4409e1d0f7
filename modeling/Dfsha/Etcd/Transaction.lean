import Dfsha.Etcd.Unit

/-!
# Transactions over etcd

`transaction` as a machine that waits for one call after the other, and a system of any number of
such machines around one store.

The channel tries a call at one endpoint after the other, and an attempt that it gave up may still
be carried out.  So a call that was sent is carried out any number of times, at any time and in any
order with others; a caller goes on with any reply to its call, or with none.  A lease ends at any
time.

Between transactions a thread may ask for the ownership of maintenance, `take_maintenance`; a
transaction that runs inside `tick` requires that its control still has it.

## Main definitions

* `Pc`, `Thread` — a thread of a control, and where it is.
* `Thread.resume`, `Thread.fault` — what it does with a reply, or without one.
* `System`, `Input`, `System.perform` — the threads, the calls and the store.
* `Reachable` — what any sequence of inputs leads to.
-/

namespace Dfsha.Etcd

/-! ## Calls -/

/-- The calls of a control to etcd, by what they are for. -/
inductive Call
  | range (k : Key)
  | grant (lease : Uuid)
  | keepalive (lease : Uuid)
  /-- The `Txn` that takes the gate. -/
  | acquire (owner lease : Uuid)
  /-- `persist_pages`. -/
  | persist
  /-- The final `Txn`. -/
  | publish (u : UnitOfWork) (previous : Option Uuid)
  /-- The `Txn` that gives the gate back after a failure. -/
  | release (owner : Uuid)
  /-- The `Txn` of `take_maintenance`. -/
  | elect (value lease : Uuid)

inductive Reply
  | range (cell : Option Cell)
  | txn (succeeded : Bool)
  /-- Whether the lease was granted, or is alive. -/
  | lease (ok : Bool)
  | persisted
  /-- The request was refused. -/
  | refused

/-- What etcd answers to a transaction, and what becomes of the store. -/
def executeTxn (s : Store) (t : Txn Key Value Uuid) : Reply × Store :=
  match s.commit t with
  | some (b, s') => (.txn b, s')
  | none => (.refused, s)

/-- One execution of a call. -/
def Call.execute (c : Call) (s : Store) : Reply × Store :=
  match c with
  | .range k => (.range (s.held k), s)
  | .grant lease => if lease ∈ s.leases then (.lease false, s) else (.lease true, s.grant lease)
  | .keepalive lease => (.lease (decide (lease ∈ s.leases)), s)
  | .persist => (.persisted, s)
  | .acquire owner lease =>
      executeTxn s ⟨[.absent .gate], [.put .gate (.owner owner) (some lease)]⟩
  | .publish u previous => executeTxn s (u.publication previous)
  | .release owner => executeTxn s ⟨[.value .gate (.owner owner)], [.delete .gate]⟩
  | .elect value lease =>
      executeTxn s ⟨[.absent (.lease .maintenance)],
        [.put (.lease .maintenance) (.owner value) (some lease)]⟩

/-! ## Threads -/

/-- How a transaction ends. -/
inductive Outcome
  /-- It exits normally. -/
  | committed
  /-- Its publication raises `VERSION_CONFLICT`. -/
  | rejected
  /-- It raises something else. -/
  | failed (reason : Reason)
  deriving DecidableEq, Repr

/-- What waits for the answer of `lease_live`. -/
inductive After
  /-- The code inside the transaction. -/
  | live (next : Bool → Body)
  /-- The `put` of a data node. -/
  | datanode (r : Record) (rest : Body)
  /-- The `put` of a record with a later deadline. -/
  | renewal (r : Record) (lease : Uuid) (rest : Body)

/-- Where a thread is: between transactions, or waiting for a call. -/
inductive Pc
  | idle
  /-- `gate_lease`: the lease of an earlier transaction is kept alive. -/
  | keeping (origin : Nat) (lease : Uuid) (b : Body)
  /-- `gate_lease`: a new lease. -/
  | granting (origin : Nat) (b : Body)
  /-- The gate is read. -/
  | polling (owner lease : Uuid) (b : Body)
  /-- The gate is taken. -/
  | acquiring (owner lease : Uuid) (b : Body)
  /-- The root is read. -/
  | reading (owner lease : Uuid) (b : Body)
  /-- `lease_live` reads a key. -/
  | judging (u : UnitOfWork) (key : LeaseKey) (owner : Uuid) (after : After)
  /-- `put` begins a lease. -/
  | leasing (u : UnitOfWork) (r : Record) (lease : Uuid) (rest : Body)
  /-- `put` keeps a lease alive. -/
  | extending (u : UnitOfWork) (r : Record) (lease : Uuid) (rest : Body)
  | persisting (u : UnitOfWork)
  | publishing (u : UnitOfWork)
  /-- The marker is read. -/
  | checking (u : UnitOfWork)
  /-- The gate is given back, and then the transaction ends. -/
  | cleaning (owner : Uuid) (outcome : Outcome)
  /-- `take_maintenance` reads the owner. -/
  | surveying (origin : Nat)
  /-- `take_maintenance` keeps its own lease alive. -/
  | holding (lease : Uuid)
  /-- `take_maintenance` begins a lease. -/
  | empowering (origin : Nat)
  /-- `take_maintenance` writes itself down as the owner. -/
  | electing (value lease : Uuid)

/-- The call that a thread waits for; the final `Txn` also deletes an earlier marker. -/
def Pc.call (previous : Option Uuid) : Pc → Option Call
  | .idle => none
  | .keeping _ lease _ => some (.keepalive lease)
  | .granting origin _ => some (.grant ⟨origin, 1⟩)
  | .polling .. => some (.range .gate)
  | .acquiring owner lease _ => some (.acquire owner lease)
  | .reading .. => some (.range .root)
  | .judging _ key _ _ => some (.range (.lease key))
  | .leasing _ _ lease _ => some (.grant lease)
  | .extending _ _ lease _ => some (.keepalive lease)
  | .persisting _ => some .persist
  | .publishing u => some (.publish u previous)
  | .checking u => some (.range (.marker u.owner))
  | .cleaning owner _ => some (.release owner)
  | .surveying _ => some (.range (.lease .maintenance))
  | .holding lease => some (.keepalive lease)
  | .empowering origin => some (.grant ⟨origin, 1⟩)
  | .electing value lease => some (.elect value lease)

/-- `put`, once it is known whether the record has a live lease. -/
def extendOrStore (u : UnitOfWork) (r : Record) (rest : Body) : UnitOfWork ⊕ Pc :=
  match r.lease with
  | none => .inr (.leasing { u with drawn := u.drawn + 1 } r ⟨u.owner.origin, u.drawn⟩ rest)
  | some l =>
      match u.view.get (rowKey r.kind r.id) with
      | none => .inl (u.store r)
      | some previous =>
          if previous.deadline < r.deadline then
            match u.recalled r.leaseKey l.owner with
            | some (true, u) => .inr (.extending u r l.lease rest)
            | some (false, u) => .inr (.cleaning u.owner (.failed .lockExpired))
            | none => .inr (.judging u r.leaseKey l.owner (.renewal r l.lease rest))
          else .inl (u.store r)

/-- `put`: a record of a leased kind gets a lease, or a data node's lease is found dead and
replaced. -/
def beginPut (u : UnitOfWork) (r : Record) (rest : Body) : UnitOfWork ⊕ Pc :=
  if r.kind.leased = true ∧ r.closed = false then
    match r.kind, r.lease with
    | .datanode, some l =>
        match u.recalled r.leaseKey l.owner with
        | some (true, u) => extendOrStore u r rest
        | some (false, u) => extendOrStore u { r with lease := none } rest
        | none => .inr (.judging u r.leaseKey l.owner (.datanode r rest))
    | _, _ => extendOrStore u r rest
  else .inl (u.store r)

/-- The code inside a transaction goes on until it needs etcd, ends or raises. -/
def advance : Body → UnitOfWork → Pc
  | .done, u => .persisting u
  | .raise reason, u => .cleaning u.owner (.failed reason)
  | .read next, u => advance (next u.view) u
  | .live none next, u => advance (next false) u
  | .live (some (key, owner)) next, u =>
      match u.recalled key owner with
      | some (valid, u) => advance (next valid) u
      | none => .judging u key owner (.live next)
  | .put r kept rest, u =>
      match beginPut u (u.carried r kept) rest with
      | .inl u => advance rest u
      | .inr pc => pc
  | .delete kind id _ rest, u => advance rest (u.remove kind id)

/-- Go on after a `put`, or wait. -/
def settle (rest : Body) : UnitOfWork ⊕ Pc → Pc
  | .inl u => advance rest u
  | .inr pc => pc

/-- Go on after `lease_live`. -/
def After.resume (after : After) (u : UnitOfWork) (valid : Bool) : Pc :=
  match after with
  | .live next => advance (next valid) u
  | .datanode r rest =>
      settle rest (extendOrStore u (if valid = true then r else { r with lease := none }) rest)
  | .renewal r lease rest =>
      if valid = true then .extending u r lease rest
      else .cleaning u.owner (.failed .lockExpired)

/-- A thread of a control. -/
structure Thread where
  pc : Pc
  /-- The call that it waits for, by its place among the calls that were sent. -/
  call : Nat
  /-- `local.gate_lease`. -/
  gateLease : Option Uuid
  /-- `local.previous_marker`. -/
  previousMarker : Option Uuid
  /-- The owner in `local.required_guards`. -/
  required : Option Uuid
  /-- `maintenance_value` and `maintenance_lease`. -/
  maintenance : Option (Uuid × Uuid)

namespace Thread

variable (t : Thread)

/-- A transaction that holds a lease for the gate fails, and gives the gate back. -/
def abandon (owner : Uuid) (outcome : Outcome) : Thread :=
  { t with pc := .cleaning owner outcome, gateLease := none }

/-- A transaction exits normally. -/
def exit (owner : Uuid) : Thread := { t with pc := .idle, previousMarker := some owner }

/-- Where a failure of the code inside leads. -/
def goTo (pc : Pc) : Thread :=
  match pc with
  | .cleaning owner outcome => t.abandon owner outcome
  | pc => { t with pc := pc }

/-- What a thread does with the reply to its call, and how its transaction ended if it did.
`late` says that a deadline has passed. -/
def resume (late : Bool) (reply : Reply) : Thread × Option (Uuid × Outcome) :=
  match t.pc, reply with
  | .keeping origin lease b, .lease true => ({ t with pc := .polling ⟨origin, 0⟩ lease b }, none)
  | .keeping origin _ b, .lease false =>
      ({ t with pc := .granting origin b, gateLease := none }, none)
  | .granting origin b, .lease true =>
      ({ t with pc := .polling ⟨origin, 0⟩ ⟨origin, 1⟩ b, gateLease := some ⟨origin, 1⟩ }, none)
  | .granting origin _, .lease false =>
      ({ t with pc := .idle }, some (⟨origin, 0⟩, .failed .serviceUnavailable))
  | .polling owner lease b, .range none => ({ t with pc := .acquiring owner lease b }, none)
  | .polling owner lease b, .range (some _) =>
      if late = true then (t.abandon owner (.failed .serviceUnavailable), none)
      else ({ t with pc := .polling owner lease b }, none)
  | .acquiring owner lease b, .txn true => ({ t with pc := .reading owner lease b }, none)
  | .acquiring owner lease b, .txn false =>
      if late = true then (t.abandon owner (.failed .serviceUnavailable), none)
      else ({ t with pc := .polling owner lease b }, none)
  | .reading owner lease b, .range root =>
      (t.goTo (advance b (.begin owner lease root t.required)), none)
  | .judging u key owner after, .range value =>
      let (valid, u) := u.answer key owner value
      (t.goTo (after.resume u valid), none)
  | .leasing u r lease rest, .lease true => (t.goTo (advance rest (u.bind r lease)), none)
  | .leasing u _ _ _, .lease false => (t.abandon u.owner (.failed .serviceUnavailable), none)
  | .extending u r _ rest, .lease true => (t.goTo (advance rest (u.store r)), none)
  | .extending u _ _ _, .lease false => (t.abandon u.owner (.failed .lockExpired), none)
  | .persisting u, .persisted =>
      if u.guards.entries.length ≤ maxGuards ∧ u.effects.entries.length ≤ maxGuards then
        ({ t with pc := .publishing u }, none)
      else (t.abandon u.owner (.failed .limitExceeded), none)
  | .publishing u, .txn true => (t.exit u.owner, some (u.owner, .committed))
  | .publishing u, .txn false => ({ t with pc := .checking u }, none)
  | .checking u, .range value =>
      if value.map Stored.value = some (.root u.view) then
        (t.exit u.owner, some (u.owner, .committed))
      else (t.abandon u.owner .rejected, none)
  | .cleaning owner outcome, _ => ({ t with pc := .idle }, some (owner, outcome))
  | .surveying origin, .range none => ({ t with pc := .empowering origin }, none)
  | .surveying _, .range (some cell) =>
      match t.maintenance with
      | some (value, lease) =>
          if cell.value = .owner value then ({ t with pc := .holding lease }, none)
          else ({ t with pc := .idle }, none)
      | none => ({ t with pc := .idle }, none)
  | .holding _, _ => ({ t with pc := .idle }, none)
  | .empowering origin, .lease true => ({ t with pc := .electing ⟨origin, 0⟩ ⟨origin, 1⟩ }, none)
  | .electing value lease, .txn true =>
      ({ t with pc := .idle, maintenance := some (value, lease) }, none)
  | .surveying _, _ | .empowering _, _ | .electing _ _, _ => ({ t with pc := .idle }, none)
  | .keeping origin _ _, _ =>
      ({ t with pc := .idle, gateLease := none }, some (⟨origin, 0⟩, .failed .serviceUnavailable))
  | .granting origin _, _ =>
      ({ t with pc := .idle }, some (⟨origin, 0⟩, .failed .serviceUnavailable))
  | .polling owner _ _, _ | .acquiring owner _ _, _ | .reading owner _ _, _ =>
      (t.abandon owner (.failed .serviceUnavailable), none)
  | .judging u _ _ _, _ | .leasing u _ _ _, _ | .extending u _ _ _, _ | .persisting u, _
  | .publishing u, _ | .checking u, _ => (t.abandon u.owner (.failed .serviceUnavailable), none)
  | .idle, _ => (t, none)

/-- What a thread does when its call raises. -/
def fault (reason : Reason) : Thread × Option (Uuid × Outcome) :=
  match t.pc with
  | .idle => (t, none)
  | .keeping origin _ b =>
      if reason = .lockExpired then ({ t with pc := .granting origin b, gateLease := none }, none)
      else ({ t with pc := .idle, gateLease := none }, some (⟨origin, 0⟩, .failed reason))
  | .granting origin _ => ({ t with pc := .idle }, some (⟨origin, 0⟩, .failed reason))
  | .polling owner _ _ | .acquiring owner _ _ | .reading owner _ _ =>
      (t.abandon owner (.failed reason), none)
  | .judging u _ _ _ | .leasing u _ _ _ | .extending u _ _ _ | .persisting u | .publishing u
  | .checking u => (t.abandon u.owner (.failed reason), none)
  | .cleaning owner outcome => ({ t with pc := .idle }, some (owner, outcome))
  | .surveying _ | .holding _ | .empowering _ | .electing .. => ({ t with pc := .idle }, none)

end Thread

/-! ## The system -/

/-- The threads of all controls, and etcd. -/
structure System where
  store : Store
  /-- How many transactions and elections began. -/
  started : Nat
  sent : List Call
  /-- The replies that were given, each with the place of its call. -/
  replies : List (Nat × Reply)
  threads : Nat → Thread
  /-- The transactions that were applied, in order. -/
  applied : List UnitOfWork
  /-- How transactions ended. -/
  outcomes : List (Uuid × Outcome)

/-- What can happen next. -/
inductive Input
  /-- A thread begins a transaction, inside `tick` or outside. -/
  | begin (t : Nat) (b : Body) (owned : Bool)
  /-- A thread begins `take_maintenance`. -/
  | survey (t : Nat)
  /-- A call is carried out once more. -/
  | deliver (c : Nat)
  /-- A thread goes on with a reply to its call. -/
  | receive (t : Nat) (i : Nat) (late : Bool)
  /-- The call of a thread raises. -/
  | fault (t : Nat) (reason : Reason)
  /-- A lease ends. -/
  | expire (lease : Uuid)

namespace System

variable (s : System)

/-- A thread goes on, and sends its next call. -/
def resumeThread (t : Nat) (x : Thread) : System :=
  match x.pc.call x.previousMarker with
  | none => { s with threads := Function.update s.threads t x }
  | some c =>
      { s with
        sent := s.sent ++ [c],
        threads := Function.update s.threads t { x with call := s.sent.length } }

/-- A thread goes on, and its transaction may have ended. -/
def resolve (t : Nat) (x : Thread × Option (Uuid × Outcome)) : System :=
  let s' := s.resumeThread t x.1
  { s' with outcomes := s'.outcomes ++ x.2.toList }

/-- A thread begins a transaction: `gate_lease` comes first. -/
def beginTransaction (t : Nat) (b : Body) (required : Option Uuid) : System :=
  let x := { s.threads t with required := required }
  let pc : Pc := match x.gateLease with
    | some lease => .keeping s.started lease b
    | none => .granting s.started b
  { s.resumeThread t { x with pc := pc } with started := s.started + 1 }

/-- A call is carried out. -/
def execute (c : Nat) (call : Call) : System :=
  let r := call.execute s.store
  { s with
    store := r.2,
    replies := s.replies ++ [(c, r.1)],
    applied := match call, r.1 with
      | .publish u _, .txn true => s.applied ++ [u]
      | _, _ => s.applied }

/-- What an input makes of the system. -/
def perform : Input → Option System
  | .begin t b owned =>
      match (s.threads t).pc, owned, (s.threads t).maintenance with
      | .idle, false, _ => some (s.beginTransaction t b none)
      | .idle, true, some (value, _) => some (s.beginTransaction t b (some value))
      | _, _, _ => none
  | .survey t =>
      match (s.threads t).pc with
      | .idle =>
          some { s.resumeThread t { s.threads t with pc := .surveying s.started } with
            started := s.started + 1 }
      | _ => none
  | .deliver c => (s.sent[c]?).map (s.execute c)
  | .receive t i late =>
      match s.replies[i]?, (s.threads t).pc with
      | _, .idle => none
      | some (c, reply), _ =>
          if c = (s.threads t).call then some (s.resolve t ((s.threads t).resume late reply))
          else none
      | none, _ => none
  | .fault t reason =>
      match (s.threads t).pc with
      | .idle => none
      | _ => some (s.resolve t ((s.threads t).fault reason))
  | .expire lease => some { s with store := s.store.expire lease }

/-- Inputs one after the other. -/
def run : List Input → System → Option System
  | [], s => some s
  | i :: is, s => (s.perform i).bind (run is)

end System

/-- A thread that has done nothing yet. -/
def Thread.new : Thread := ⟨.idle, 0, none, none, none, none⟩

/-- An empty etcd, and threads that have done nothing yet. -/
def System.initial : System where
  store := ⟨fun _ => none, 0, []⟩
  started := 0
  sent := []
  replies := []
  threads := fun _ => .new
  applied := []
  outcomes := []

/-- What some sequence of inputs leads to. -/
def Reachable (s : System) : Prop := ∃ is, System.run is .initial = some s

end Dfsha.Etcd
