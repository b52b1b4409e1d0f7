import Dfsha.Domain
import Dfsha.Lib.Addressed
import Dfsha.Lib.Collections
import Dfsha.Lib.Program

/-!
# Immutable pages in etcd

The metadata of several controls is a tree of immutable pages in etcd, each under the address of
its payload, and a key that holds the address of the root.  Content of any length is one leaf page,
or leaf pages under index pages.  A control keeps the pages that it has seen in a cache.

How an address is computed, and how a payload is wrapped on the wire, is left to a `Codec`: a plain
SHA-256 and the payload itself, or an HMAC and an authenticated cipher.  Any call to etcd may fail,
as the list `faults` says; a call that fails changes nothing in etcd here.

## Main definitions

* `Codec` — addresses, wires and shards.
* `Etcd`, `EtcdUnit`, `Store` — what etcd holds, a unit of work, and a control's store.
* `page`, `blob`, `persistPages` — content as pages.
* `readBlob` — content read back.
-/

namespace Dfsha.Pages

/-- `page_address`, `page_wire` and what reads a wire back; and the shard of an identifier. -/
structure Codec where
  address : Bytes → String
  /-- What stands in etcd for a payload; the nonce is drawn for it. -/
  wire : Nat → String → Bytes → Bytes
  payload : String → Bytes → Option Bytes
  /-- `hashlib.sha256(identity.encode()).hexdigest()[:2]`. -/
  shard : String → String

/-- Addresses are not empty and have no collisions, and a wire opens to its payload. -/
structure Codec.Sound (c : Codec) : Prop where
  injective : Function.Injective c.address
  nonempty : ∀ p, c.address p ≠ ""
  payload_wire : ∀ nonce d p, c.payload d (c.wire nonce d p) = some p

/-- `PAGE_BYTES`. -/
def pageBytes : Nat := 131072

/-- How much a cache holds, and how much one transaction may write. -/
def pagesLimit : Nat := 16 * 1048576

/-- `MAX_GUARDS`. -/
def maxGuards : Nat := 48

/-- How many pages the batches of `persist_pages` hold, and how many bytes. -/
def batchPages : Nat := 32

/-- How many bytes a batch of `persist_pages` holds. -/
def batchBytes : Nat := 524288

/-! ## State -/

/-- A page in etcd, under `pages/<digest>`. -/
structure PageRow where
  digest : String
  wire : Bytes
  deriving DecidableEq, Repr

instance : Keyed PageRow String := ⟨PageRow.digest⟩

/-- What the key of a root holds, and when it was written. -/
structure Cell where
  digest : String
  modified : Nat
  deriving DecidableEq, Repr

/-- The keys that hold the address of a root. -/
inductive RootKey
  /-- `root`. -/
  | active
  /-- `import-root`. -/
  | imported
  deriving DecidableEq, Repr

/-- What etcd holds. -/
structure Etcd where
  pages : Table PageRow
  active : Option Cell
  imported : Option Cell
  /-- The owner of the gate. -/
  gate : Option Nat
  revision : Nat

namespace Etcd

/-- The etcd that holds nothing. -/
def empty : Etcd := ⟨.empty, none, none, none, 0⟩

/-- What a root key holds. -/
def root (e : Etcd) : RootKey → Option Cell
  | .active => e.active
  | .imported => e.imported

/-- Write a root key. -/
def setRoot (e : Etcd) (k : RootKey) (digest : String) : Etcd :=
  match k with
  | .active => { e with active := some ⟨digest, e.revision + 1⟩, revision := e.revision + 1 }
  | .imported => { e with imported := some ⟨digest, e.revision + 1⟩, revision := e.revision + 1 }

/-- The payload that is under an address. -/
def fetch (c : Codec) (e : Etcd) (digest : String) : Option Bytes :=
  (e.pages.get digest).bind fun row => (c.payload digest row.wire).bind fun payload =>
    if c.address payload = digest then some payload else none

end Etcd

/-- The identifiers of one shard, and the addresses of their records. -/
abbrev Bucket := Dict String

/-- The shards of one kind, and the addresses of their buckets. -/
abbrev Shards := Dict String

/-- The kinds, and their shards. -/
abbrev Root := Dict Shards

/-- An object on the heap of the process. -/
abbrev Ref := Nat

/-- `EtcdUnit`. -/
structure EtcdUnit where
  write : Bool
  root : Root
  /-- By kind and shard. -/
  buckets : List ((String × String) × Bucket)
  /-- By kind and identifier; `none` for a record that is deleted. -/
  pending : List ((String × String) × Option Ref)
  /-- The lease keys that the publication deletes. -/
  effects : List (String × Unit)
  pages : List (String × Bytes)

/-- `EtcdMetadataStore`, with the etcd behind it. -/
structure Store where
  etcd : Etcd
  /-- The oldest page first. -/
  cache : List (String × Bytes)
  /-- `self.local.unit`. -/
  unit : Option EtcdUnit
  /-- The objects of the process. -/
  heap : List Json
  /-- Which of the next calls fail. -/
  faults : List Bool
  /-- How many nonces were drawn. -/
  nonce : Nat

/-- How a program ends that returns nothing. -/
inductive Halt
  | fault (reason : Reason)
  /-- `KeyError` and the like. -/
  | crash
  /-- A record that needs a lease is written. -/
  | lease
  deriving DecidableEq, Repr

/-- A program over the store. -/
abbrev M := Prog Store Halt

/-- `need`. -/
def require (p : Prop) [Decidable p] (reason : Reason) : M Unit :=
  if p then pure () else Prog.raise (.fault reason)

/-- `rpc`: a call to etcd, which may fail. -/
def rpc : M Unit := ⟨fun s =>
  match s.faults with
  | true :: rest => (.error (.fault .serviceUnavailable), { s with faults := rest })
  | false :: rest => (.ok (), { s with faults := rest })
  | [] => (.ok (), s)⟩

/-! ## The cache -/

/-- How many bytes pages hold. -/
def size (pages : List (String × Bytes)) : Nat := (pages.map fun x => x.2.length).sum

/-- The oldest pages leave a cache that is too large. -/
def evict : List (String × Bytes) → List (String × Bytes)
  | [] => []
  | x :: cache => if pagesLimit < size (x :: cache) then evict cache else x :: cache

/-- `cache_put`. -/
def cachePut (digest : String) (payload : Bytes) : M Unit :=
  Prog.modify fun s =>
    { s with cache := evict ((s.cache.filter fun x => x.1 ≠ digest) ++ [(digest, payload)]) }

/-! ## Writing -/

/-- A page is written to etcd. -/
def Store.putPage (c : Codec) (s : Store) (digest : String) (payload : Bytes) : Store :=
  { s with
    etcd := { s.etcd with pages := s.etcd.pages.put ⟨digest, c.wire s.nonce digest payload⟩ },
    nonce := s.nonce + 1 }

/-- `page`. -/
def page (c : Codec) (payload : Bytes) : M String := do
  require (payload.length ≤ pageBytes + 1) .limitExceeded
  let digest := c.address payload
  let s ← Prog.reads id
  if (Pairs.find s.cache digest).isSome = true then pure digest
  else
    match s.unit with
    | some ⟨true, root, buckets, pending, effects, pages⟩ => do
        let pages := Pairs.set pages digest payload
        Prog.modify fun s =>
          { s with unit := some ⟨true, root, buckets, pending, effects, pages⟩ }
        require (size pages ≤ pagesLimit) .limitExceeded
        pure digest
    | _ => do
        rpc
        Prog.modify fun s => s.putPage c digest payload
        cachePut digest payload
        pure digest

/-- A leaf page. -/
def leafPage (content : Bytes) : Bytes := 76 :: content

/-- An index page. -/
def indexPage (children : List String) : Bytes := 73 :: encode (.arr (children.map .str))

/-- Index pages over index pages, until 64 are left. -/
def gatherPages (c : Codec) : Nat → List String → M (List String)
  | 0, children => pure children
  | fuel + 1, children =>
      if 64 < children.length then do
        let above ← Prog.map (fun part => page c (indexPage part)) (slices 64 children)
        gatherPages c fuel above
      else pure children

/-- `blob`. -/
def blob (c : Codec) (payload : Bytes) : M String :=
  if payload.length ≤ pageBytes then page c (leafPage payload)
  else do
    let leaves ← Prog.map (fun part => page c (leafPage part)) (slices pageBytes payload)
    let children ← gatherPages c leaves.length leaves
    page c (indexPage children)

/-- The batches that `persist_pages` makes, when one is begun. -/
def batchesFrom (batch : List (String × Bytes)) : List (String × Bytes) →
    List (List (String × Bytes))
  | [] => [batch]
  | x :: pages =>
      if batchPages ≤ batch.length ∨ batchBytes < size batch + x.2.length then
        batch :: batchesFrom [x] pages
      else batchesFrom (batch ++ [x]) pages

/-- The batches of `persist_pages`; an empty one is not sent. -/
def batches (pages : List (String × Bytes)) : List (List (String × Bytes)) :=
  (batchesFrom [] pages).filter fun batch => batch ≠ []

/-- One `Txn` that writes a batch. -/
def Store.putBatch (c : Codec) (s : Store) (batch : List (String × Bytes)) : Store :=
  batch.foldl (fun s x => s.putPage c x.1 x.2) s

/-- A batch is written, and then cached. -/
def persistBatch (c : Codec) (batch : List (String × Bytes)) : M Unit := do
  rpc
  Prog.modify fun s => s.putBatch c batch
  Prog.each (fun x => cachePut x.1 x.2) batch

/-- `persist_pages`. -/
def persistPages (c : Codec) (pages : List (String × Bytes)) : M Unit :=
  Prog.each (persistBatch c) (batches pages)

/-! ## Reading -/

/-- A string. -/
def asString : Json → Option String
  | .str s => some s
  | _ => none

/-- The strings of a list. -/
def strings : Json → Option (List String)
  | .arr items => items.mapM asString
  | _ => none

/-- What a payload says. -/
def parse (payload : Bytes) : Except Halt (Addressed.Node String UInt8) :=
  match payload with
  | [] => .error (.fault .dataLoss)
  | tag :: rest =>
      if tag = 76 then .ok (.leaf rest)
      else if tag = 73 then
        match (loads rest).bind strings with
        | some children => .ok (.index children)
        | none => .error .crash
      else .error (.fault .dataLoss)

/-- The payload under an address, from the cache or from etcd. -/
def fetch (c : Codec) (digest : String) : M Bytes := do
  let s ← Prog.reads id
  match Pairs.find s.cache digest with
  | some payload => pure payload
  | none => do
      rpc
      match s.etcd.pages.get digest with
      | none => Prog.raise (.fault .dataLoss)
      | some row =>
          match c.payload digest row.wire with
          | none => Prog.raise (.fault .dataLoss)
          | some payload => do
              require (c.address payload = digest) .dataLoss
              cachePut digest payload
              pure payload

/-- `read_blob`; it goes down a limited number of pages. -/
def readBlob (c : Codec) : Nat → String → M Bytes
  | 0, _ => Prog.raise .crash
  | n + 1, digest => do
      let payload ← fetch c digest
      match parse payload with
      | .ok (.leaf content) => pure content
      | .ok (.index children) => do
          let parts ← Prog.map (readBlob c n) children
          pure parts.flatten
      | .error e => Prog.raise e

/-- `object`.  No way down a tree is longer than the number of pages that there are. -/
def object (c : Codec) (digest : Option String) : M Json :=
  match digest with
  | none => pure (.obj [])
  | some digest =>
      if digest = "" then pure (.obj [])
      else do
        let depth ← Prog.reads fun s => s.etcd.pages.all.length
        let content ← readBlob c depth digest
        match loads content with
        | some v => pure v
        | none => Prog.raise .crash

end Dfsha.Pages
