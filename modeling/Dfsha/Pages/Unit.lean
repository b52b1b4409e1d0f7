import Dfsha.Pages.Store
import Mathlib.Data.List.Sort

/-!
# The unit of work over pages

A transaction reads the root that it found, and keeps what it writes on top: `pending` holds what
was put and deleted, `buckets` the shards that were read.  At its end `flush` puts the records that
are pending into their shards, and writes the records, shards and the root as pages.

The objects of the process are on a heap, so that it can be said which ones a caller holds: `get`
and `all` hand out new objects, and `put` keeps a copy of the one that it was given.

A lock, handle, data node or session that is open needs a lease; that part of `put` is the subject
of `Dfsha.Etcd.Unit`, and ends the program here.

## Main definitions

* `begin`, `get`, `all`, `children`, `put`, `delete`, `flush` — `EtcdUnit`.
* `transaction` — a transaction from its gate to its publication.
-/

namespace Dfsha.Pages

/-! ## Values -/

/-- `bool(v)`. -/
def truthy : Json → Bool
  | .null => false
  | .bool b => b
  | .int n => decide (n ≠ 0)
  | .str s => decide (s ≠ "")
  | .arr items => !items.isEmpty
  | .obj members => !members.isEmpty

/-- `v.get(k)`. -/
def member (v : Json) (k : String) : Option Json :=
  match v with
  | .obj members => Pairs.find members k
  | _ => none

/-- `bool(v.get(k))`. -/
def flag (v : Json) (k : String) : Bool := (member v k).elim false truthy

/-- `v['id']` that can be the identifier of a record. -/
def identityOf (v : Json) : Option String :=
  match member v "id" with
  | some (.str s) => some s
  | _ => none

/-- A bucket as an object. -/
def bucketJson (b : Bucket) : Json := Dict.toJson .str b

/-- A root as an object. -/
def rootJson (r : Root) : Json := Dict.toJson (Dict.toJson .str) r

/-- The bucket that an object stands for. -/
def bucketOf (v : Json) : Option Bucket := Dict.ofJson asString v

/-- The root that an object stands for. -/
def rootOf (v : Json) : Option Root := Dict.ofJson (Dict.ofJson asString) v

theorem bucketOf_json (b : Bucket) : bucketOf (bucketJson b) = some b :=
  Dict.ofJson_toJson (f := Json.str) (g := asString) (fun _ => rfl) b

theorem rootOf_json (r : Root) : rootOf (rootJson r) = some r :=
  Dict.ofJson_toJson (f := bucketJson) (g := bucketOf) bucketOf_json r

/-- The kinds of records that are bound to a lease. -/
def leasedKinds : List String := ["lock", "handle", "datanode", "session"]

/-! ## The heap -/

/-- A new object. -/
def alloc (v : Json) : M Ref := ⟨fun s => (.ok s.heap.length, { s with heap := s.heap ++ [v] })⟩

/-- What an object is. -/
def valueOf (r : Ref) : M Json := do
  let s ← Prog.reads id
  match s.heap[r]? with
  | some v => pure v
  | none => Prog.raise .crash

/-! ## Reading -/

/-- The unit of the transaction. -/
def theUnit : M EtcdUnit := do
  let s ← Prog.reads id
  match s.unit with
  | some u => pure u
  | none => Prog.raise .crash

/-- Change the unit. -/
def updateUnit (f : EtcdUnit → EtcdUnit) : M Unit :=
  Prog.modify fun s => { s with unit := s.unit.map f }

/-- `self.root.get(kind, {}).get(shard)`. -/
def bucketDigest (root : Root) (kind shard : String) : Option String :=
  (root.find kind).bind fun shards => shards.find shard

/-- The bucket of a shard; it is read when it is needed first. -/
def shardBucket (c : Codec) (kind shard : String) : M Bucket := do
  let u ← theUnit
  match Pairs.find u.buckets (kind, shard) with
  | some b => pure b
  | none => do
      let v ← object c (bucketDigest u.root kind shard)
      match bucketOf v with
      | some b => do
          updateUnit fun u => { u with buckets := Pairs.set u.buckets (kind, shard) b }
          pure b
      | none => Prog.raise .crash

/-- `bucket`. -/
def bucket (c : Codec) (kind identity : String) : M Bucket := shardBucket c kind (c.shard identity)

/-- `get`. -/
def get (c : Codec) (kind : String) (identity : Option String) : M (Option Ref) :=
  match identity with
  | none => pure none
  | some identity => do
      let u ← theUnit
      match Pairs.find u.pending (kind, identity) with
      | some none => pure none
      | some (some r) => do
          let v ← valueOf r
          let copy ← alloc v
          pure (some copy)
      | none => do
          let b ← bucket c kind identity
          match b.find identity with
          | none => pure none
          | some digest =>
              if digest = "" then pure none
              else do
                let v ← object c (some digest)
                let r ← alloc v
                pure (some r)

/-- The identifiers of a shard. -/
def shardIdentities (c : Codec) (kind shard : String) : M (List String) := do
  let b ← shardBucket c kind shard
  pure (b.all.map Item.key)

/-- `all`. -/
def all (c : Codec) (kind : String) : M (List Ref) := do
  let u ← theUnit
  let stored ← Prog.map (fun e => shardIdentities c kind e.key)
    ((u.root.find kind).elim [] Table.all)
  let u ← theUnit
  let written := (u.pending.filter fun e => e.1.1 = kind).map fun e => e.1.2
  let found ← Prog.map (fun identity => get c kind (some identity))
    (sortedSet (stored.flatten ++ written))
  pure (found.filterMap id)

/-- `x.get('alive') and x.get('parent') == parent`. -/
def isChild (parent : Option String) (v : Json) : Bool :=
  flag v "alive" && decide ((member v "parent").getD .null = parent.elim .null .str)

/-- `x['name']`, if it is a string. -/
def nameOf (v : Json) : Option String := (member v "name").bind asString

/-- `sorted(..., key=lambda x: x['name'])`; only strings are compared. -/
def sortByName {α : Type} (rows : List (α × Json)) : Except Halt (List (α × Json)) :=
  if rows.all fun row => (member row.2 "name").isSome then
    if rows.all fun row => (nameOf row.2).isSome then
      .ok (rows.insertionSort fun x y => (nameOf x.2).getD "" ≤ (nameOf y.2).getD "")
    else if rows.length ≤ 1 then .ok rows
    else .error .crash
  else .error .crash

/-- `children`. -/
def children (c : Codec) (parent : Option String) : M (List Ref) := do
  let refs ← all c "node"
  let rows ← Prog.map (fun r => do
    let v ← valueOf r
    pure (r, v)) refs
  match sortByName (rows.filter fun row => isChild parent row.2) with
  | .ok rows => pure (rows.map Prod.fst)
  | .error e => Prog.raise e

/-! ## Writing -/

/-- `put`. -/
def put (kind : String) (r : Ref) : M Unit := do
  let u ← theUnit
  require (u.write = true) .permissionDenied
  let v ← valueOf r
  if kind ∈ leasedKinds ∧ flag v "closed" = false ∧ flag v "revoked" = false then
    Prog.raise .lease
  else
    match identityOf v with
    | none => Prog.raise .crash
    | some identity => do
        let copy ← alloc v
        updateUnit fun u =>
          { u with pending := Pairs.set u.pending (kind, identity) (some copy) }

/-- The lease of a record that is deleted ends. -/
def endLease (previous : Option Ref) : M Unit :=
  match previous with
  | none => pure ()
  | some r => do
      let v ← valueOf r
      if flag v "lease_key" = true then
        match (member v "lease_key").bind asString with
        | some key => updateUnit fun u => { u with effects := Pairs.set u.effects key () }
        | none => Prog.raise .crash
      else pure ()

/-- `delete`. -/
def delete (c : Codec) (kind identity : String) : M Unit := do
  let u ← theUnit
  require (u.write = true) .permissionDenied
  let previous ← get c kind (some identity)
  endLease previous
  updateUnit fun u => { u with pending := Pairs.set u.pending (kind, identity) none }

/-- `self.store.blob(encode(value)) if value is not None else None`. -/
def recordDigest (c : Codec) (r : Option Ref) : M (Option String) :=
  match r with
  | some r => do
      let v ← valueOf r
      let digest ← blob c (encode v)
      pure (some digest)
  | none => pure none

/-- A record that is pending goes into its bucket; the shards that this changes. -/
def flushRecord (c : Codec) (e : (String × String) × Option Ref) :
    M (List (String × String)) := do
  let b ← bucket c e.1.1 e.1.2
  let digest ← recordDigest c e.2
  if b.find e.1.2 = digest then pure []
  else do
    let b := digest.elim (b.pop e.1.2) fun digest => b.set e.1.2 digest
    updateUnit fun u =>
      { u with buckets := Pairs.set u.buckets (e.1.1, c.shard e.1.2) b }
    pure [(e.1.1, c.shard e.1.2)]

/-- A shard that was changed is written, and the root names it. -/
def flushShard (c : Codec) (key : String × String) : M Unit := do
  let u ← theUnit
  match Pairs.find u.buckets key with
  | none => Prog.raise .crash
  | some b => do
      let digest ← blob c (encode (bucketJson b))
      updateUnit fun u =>
        { u with root := u.root.set key.1 (((u.root.find key.1).getD .empty).set key.2 digest) }

/-- `flush`. -/
def flush (c : Codec) : M String := do
  let u ← theUnit
  let changed ← Prog.map (flushRecord c) u.pending
  Prog.each (flushShard c) changed.flatten.dedup
  let u ← theUnit
  blob c (encode (rootJson u.root))

/-! ## Transactions -/

/-- `EtcdUnit(self, root, write)`. -/
def start (c : Codec) (write : Bool) (root : Option Cell) : M Unit := do
  let v ← object c (root.map Cell.digest)
  match rootOf v with
  | some root => Prog.modify fun s => { s with unit := some ⟨write, root, [], [], [], []⟩ }
  | none => Prog.raise .crash

/-- When a root was written. -/
def modifiedAt (root : Option Cell) : Nat := root.elim 0 Cell.modified

/-- What the final `Txn` writes. -/
def Etcd.published (e : Etcd) (k : RootKey) (digest : String) : Etcd :=
  let e := if (e.root k).map Cell.digest = some digest then { e with revision := e.revision + 1 }
    else e.setRoot k digest
  { e with gate := none }

/-- The final `Txn`: the gate is still the owner's, and the root is the one that was read. -/
def publish (k : RootKey) (owner : Nat) (root : Option Cell) (digest : String) : M Unit := do
  let u ← theUnit
  require (u.effects.length ≤ maxGuards) .limitExceeded
  rpc
  let s ← Prog.reads id
  require (s.etcd.gate = some owner ∧ modifiedAt (s.etcd.root k) = modifiedAt root) .versionConflict
  Prog.modify fun s => { s with etcd := s.etcd.published k digest }

/-- The gate is taken; it is waited for in vain when somebody has it. -/
def acquire (owner : Nat) : M Unit := do
  rpc
  let s ← Prog.reads id
  require (s.etcd.gate = none) .serviceUnavailable
  Prog.modify fun s => { s with etcd := { s.etcd with
    gate := some owner, revision := s.etcd.revision + 1 } }

/-- The gate is given back, by its owner. -/
def release (owner : Nat) : M Unit := do
  rpc
  Prog.modify fun s =>
    if s.etcd.gate = some owner then
      { s with etcd := { s.etcd with gate := none, revision := s.etcd.revision + 1 } }
    else s

section Transactions

variable {τ α : Type}

/-- A program of the code that uses the store. -/
abbrev Client (τ α : Type) := Prog (Store × τ) Halt α

/-- The end of a transaction that writes. -/
def commit (c : Codec) (k : RootKey) (owner : Nat) (root : Option Cell) : M Unit := do
  let digest ← flush c
  let u ← theUnit
  persistPages c u.pages
  publish k owner root digest

/-- What happens inside `transaction` once the gate is taken. -/
def within (c : Codec) (k : RootKey) (owner : Nat) (write : Bool) (body : Client τ α) :
    Client τ α := do
  Prog.first rpc
  let root ← Prog.first (Prog.reads fun s => s.etcd.root k)
  Prog.first (start c write root)
  let a ← body
  if write = true then do
    Prog.first (commit c k owner root)
    pure a
  else pure a

/-- `transaction`. -/
def transaction (c : Codec) (k : RootKey) (owner : Nat) (write : Bool) (body : Client τ α) :
    Client τ α := do
  let result ← Prog.attempt (do
    if write = true then Prog.first (acquire owner) else pure ()
    within c k owner write body)
  Prog.first (Prog.modify fun s => { s with unit := none })
  match result with
  | .ok a => pure a
  | .error e =>
      if write = true then do
        let _ ← Prog.attempt (Prog.first (release owner))
        Prog.raise e
      else Prog.raise e

end Transactions

end Dfsha.Pages
