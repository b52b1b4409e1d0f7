import Dfsha.Domain
import Dfsha.Lib.KeyValue
import Dfsha.Lib.Table
import Mathlib.Data.List.AList

/-!
# A unit of work over etcd

Where several controls share their metadata, it is one tree of immutable pages in etcd, and one
key holds the digest of its root.  A transaction reads the tree, works on its own copy, and
collects what it will have to compare and to write when it publishes a new root: `guards` for the
leases that it found live, `effects` for the leases that it begins and ends.

A digest stands for what it is the digest of: the value of the root key is the tree itself.
`pending` and the buckets of the source are the one table `view`, the metadata as the
transaction sees it.

A record is written as the code writes one.  It was made by the transaction and has no lease yet,
or it was read in it and keeps the lease that it has; a record that is closed was read before.

## Main definitions

* `Record`, `Key`, `Value` — the metadata, and what etcd holds.
* `UnitOfWork` — `EtcdUnit`.
* `Body` — what a transaction asks of its unit, in order.
* `UnitOfWork.publication` — the final `Txn` of a transaction.
-/

namespace Dfsha.Etcd

/-- An identifier that was drawn: by whom, and how many that one had drawn before. -/
structure Uuid where
  origin : Nat
  index : Nat
  deriving DecidableEq, Repr

/-- The kinds of records; the first four are bound to a lease in etcd. -/
inductive Kind
  | lock | handle | datanode | session | settings
  | other (n : Nat)
  deriving DecidableEq, Repr

/-- `kind in ('lock', 'handle', 'datanode', 'session')`. -/
def Kind.leased : Kind → Bool
  | .lock | .handle | .datanode | .session => true
  | .settings | .other _ => false

/-- A number for a kind, by which records are ordered. -/
def Kind.code : Kind → Nat
  | .lock => 0
  | .handle => 1
  | .datanode => 2
  | .session => 3
  | .settings => 4
  | .other n => n + 5

theorem Kind.code_injective {k j : Kind} (h : k.code = j.code) : k = j := by
  cases k <;> cases j <;> simp_all [Kind.code]

/-- `lease_key`. -/
inductive LeaseKey
  /-- `leases/<kind>/<id>`. -/
  | record (kind : Kind) (id : Nat)
  /-- `maintenance-owner`. -/
  | maintenance
  deriving DecidableEq, Repr

/-- The keys in etcd; pages are left out. -/
inductive Key
  | root
  | gate
  /-- `commits/<owner>`. -/
  | marker (owner : Uuid)
  | lease (key : LeaseKey)
  deriving DecidableEq, Repr

/-- The fields `lease` and `lease_owner` of a record. -/
structure Lease where
  lease : Uuid
  owner : Uuid
  deriving DecidableEq, Repr

/-- A record of the metadata. -/
structure Record where
  kind : Kind
  id : Nat
  /-- What else the record says. -/
  fields : Nat
  /-- `closed`, or `revoked`. -/
  closed : Bool
  deadline : Nat
  lease : Option Lease
  deriving DecidableEq, Repr

instance : Keyed Record (Nat ×ₗ Nat) := ⟨fun r => toLex (r.kind.code, r.id)⟩

/-- The key of a record of a kind. -/
def rowKey (kind : Kind) (id : Nat) : Nat ×ₗ Nat := toLex (kind.code, id)

/-- `lease_key` of a record that has one. -/
def Record.leaseKey (r : Record) : LeaseKey :=
  if r.kind = .settings then .maintenance else .record r.kind r.id

/-- The metadata. -/
abbrev Metadata := Table Record

/-- What a key holds. -/
inductive Value
  /-- The owner of the gate or of a lease. -/
  | owner (owner : Uuid)
  /-- The digest of a root. -/
  | root (metadata : Metadata)
  deriving DecidableEq

/-- What etcd holds under a key. -/
abbrev Cell := Stored Value Uuid

abbrev Store := KeyValue Key Value Uuid

/-- What a transaction writes under the key of a lease. -/
inductive Effect
  | put (owner lease : Uuid)
  | delete
  deriving DecidableEq, Repr

/-- `MAX_GUARDS`. -/
def maxGuards : Nat := 48

/-- `EtcdUnit`. -/
structure UnitOfWork where
  owner : Uuid
  /-- The lease of the gate. -/
  lease : Uuid
  /-- The root, as it was read. -/
  root : Option Cell
  base : Metadata
  view : Metadata
  guards : AList fun _ : LeaseKey => Uuid
  effects : AList fun _ : LeaseKey => Effect
  leaseReads : AList fun _ : LeaseKey => Option Cell
  /-- How many identifiers were drawn. -/
  drawn : Nat
  /-- The maintenance owner that `required_guards` names. -/
  mandate : Option Uuid
  /-- The leases that were found live in etcd, with the owners they had. -/
  judged : List (LeaseKey × Uuid)

/-- `store.object(root.value) if root else {}`. -/
def content (root : Option Cell) : Metadata :=
  match root with
  | some ⟨.root m, _, _⟩ => m
  | _ => .empty

/-- `EtcdUnit(self, root, write)`, with the guards that are required. -/
def UnitOfWork.begin (owner lease : Uuid) (root : Option Cell) (mandate : Option Uuid) :
    UnitOfWork where
  owner := owner
  lease := lease
  root := root
  base := content root
  view := content root
  guards := match mandate with
    | some value => (∅ : AList fun _ : LeaseKey => Uuid).insert .maintenance value
    | none => ∅
  effects := ∅
  leaseReads := ∅
  drawn := 2
  mandate := mandate
  judged := []

namespace UnitOfWork

variable (u : UnitOfWork)

/-- A lease is live if etcd names its owner; then its owner is compared at the end. -/
def judge (key : LeaseKey) (owner : Uuid) (value : Option Cell) : Bool × UnitOfWork :=
  if value.map Stored.value = some (.owner owner) then
    (true, { u with guards := u.guards.insert key owner, judged := (key, owner) :: u.judged })
  else (false, u)

/-- `lease_live`, when it needs nothing from etcd. -/
def recalled (key : LeaseKey) (owner : Uuid) : Option (Bool × UnitOfWork) :=
  match u.effects.lookup key with
  | some (.put o _) => some (decide (o = owner), u)
  | _ => (u.leaseReads.lookup key).map (u.judge key owner)

/-- `lease_live`, when etcd was asked. -/
def answer (key : LeaseKey) (owner : Uuid) (value : Option Cell) : Bool × UnitOfWork :=
  ({ u with leaseReads := u.leaseReads.insert key value } : UnitOfWork).judge key owner value

/-- The lease fields that a record has when it is written. -/
def carried (r : Record) (kept : Bool) : Record :=
  if r.kind.leased = true then
    { r with
      lease := if kept = true ∨ r.closed = true then
        (u.view.get (rowKey r.kind r.id)).bind Record.lease else none }
  else if r.kind = .settings then r
  else { r with lease := none }

/-- `self.pending[(kind, id)] = value`. -/
def store (r : Record) : UnitOfWork := { u with view := u.view.put r }

/-- The lease of a record begins with the publication. -/
def bind (r : Record) (lease : Uuid) : UnitOfWork :=
  let owner : Uuid := ⟨u.owner.origin, u.drawn⟩
  { u with
    drawn := u.drawn + 1, effects := u.effects.insert r.leaseKey (.put owner lease),
    view := u.view.put { r with lease := some ⟨lease, owner⟩ } }

/-- `delete`. -/
def remove (kind : Kind) (id : Nat) : UnitOfWork :=
  match u.view.get (rowKey kind id) with
  | none => { u with view := u.view.delete (rowKey kind id) }
  | some previous =>
      { u with
        effects := if previous.lease.isSome = true then
          u.effects.insert previous.leaseKey .delete else u.effects,
        view := u.view.delete (rowKey kind id) }

/-- The final `Txn`: the gate is still the transaction's, the root is the one that it read, and
every lease that it found live still has its owner. -/
def publication (previous : Option Uuid) : Txn Key Value Uuid where
  compares :=
    [.value .gate (.owner u.owner), .modified .root (u.root.elim 0 Stored.modified)] ++
      u.guards.entries.map fun g => .value (.lease g.1) (.owner g.2)
  writes :=
    (u.effects.entries.map fun e =>
      match e.2 with
      | .put owner lease => .put (.lease e.1) (.owner owner) (some lease)
      | .delete => .delete (.lease e.1)) ++
    [.put (.marker u.owner) (.root u.view) (some u.lease)] ++
    (previous.toList.map fun owner => .delete (.marker owner)) ++
    (if u.root.map Stored.value = some (.root u.view) then []
      else [.put .root (.root u.view) none]) ++
    [.delete .gate]

end UnitOfWork

/-- What the code inside a transaction does with its unit. -/
inductive Body
  /-- It ends. -/
  | done
  /-- It raises. -/
  | raise (reason : Reason)
  /-- It reads: `get`, `all` and `children`. -/
  | read (next : Metadata → Body)
  /-- `lease_live` of a record with these lease fields. -/
  | live (lease : Option (LeaseKey × Uuid)) (next : Bool → Body)
  /-- `put` of a record that keeps the lease fields it was read with, or of a new one. -/
  | put (r : Record) (kept : Bool) (rest : Body)
  /-- `delete`; settings are not deleted. -/
  | delete (kind : Kind) (id : Nat) (h : kind ≠ .settings) (rest : Body)

end Dfsha.Etcd
