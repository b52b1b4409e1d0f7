import Dfsha.Lib.Program
import Dfsha.Safety.Ranges

/-!
# How a client reads a range

A client asks the control where the blocks of a range are, and gets from each block the part that
was granted.  When a data node fails on the way, it asks again for what is left of the part, and
goes on at another node.

A data node sends the part in frames, cut where the chunks of the stored block are cut.  How a
block is cut at a node, how many frames arrive, and whether a call to the control arrives, is up
to the network.

## Main definitions

* `blockFrames` — the frames of `DataNode.GetBlock`.
* `Network` — what happens to the calls.
* `iterRead` — `AccessClient._iter_read`.
-/

namespace Dfsha.Client

/-! ## The data node -/

/-- The frames that `DataNode.GetBlock` sends for a part of a block, each with its place in the
part; `position` and `total` are what went by and what was sent. -/
def blockFrames (start length : Nat) : Nat → Nat → List Bytes → List (Nat × Bytes)
  | _, _, [] => []
  | position, total, chunk :: chunks =>
      let low := max start position
      let high := min (start + length) (position + chunk.length)
      let sent := if low < high then [(total, slice chunk (low - position) (high - low))] else []
      let total := if low < high then total + (high - low) else total
      if start + length ≤ position + chunk.length then sent
      else sent ++ blockFrames start length (position + chunk.length) total chunks

/-! ## The network -/

/-- The status of a call that failed. -/
inductive Code
  | unavailable | deadlineExceeded | dataLoss | other
  deriving DecidableEq, Repr

/-- How a stream ends. -/
inductive Ending
  | closed
  | failed (code : Code)
  deriving DecidableEq, Repr

/-- What arrives of a stream: so many frames after its header, or not even that. -/
structure Delivery where
  frames : Option Nat
  ending : Ending
  deriving DecidableEq, Repr

/-- What happens to the calls of a client, one after the other. -/
structure Network where
  /-- The state in which the control answers; `none` if the call does not arrive. -/
  calls : Nat → Option World
  deliveries : Nat → Delivery
  /-- The chunks of a block where it is read. -/
  chunks : Nat → BlockRef → List Bytes

/-! ## The client -/

/-- How a read ends that does not come to its end. -/
inductive Stop
  | fault (reason : Reason)
  | rpc (code : Code)
  /-- `IndexError`, `StopIteration`. -/
  | crash
  /-- The loop would not have ended. -/
  | stuck
  deriving DecidableEq, Repr

/-- What a client has yielded, and what it knows of the block that it reads. -/
structure Reader where
  yielded : Bytes
  received : Nat
  /-- What went into the digest of the block. -/
  digested : Bytes
  calls : Nat
  gets : Nat

/-- A client that has not begun. -/
def Reader.new : Reader := ⟨[], 0, [], 0, 0⟩

abbrev R := Prog Reader Stop

/-- `need`. -/
def demand (p : Prop) [Decidable p] (reason : Reason) : R Unit :=
  if p then pure () else Prog.raise (.fault reason)

variable (app : App) (user : User) (session : Session) (net : Network)

/-- A call of `ResolveBlocks`. -/
def resolvePage (req : ResolveBlocksRequest) : R BlockPlan := do
  let s ← Prog.reads id
  Prog.modify fun s => { s with calls := s.calls + 1 }
  match net.calls s.calls with
  | none => Prog.raise (.fault .serviceUnavailable)
  | some w =>
      match (resolveBlocks app user session req) w with
      | .ok plan => pure plan
      | .error (.fault reason) => Prog.raise (.fault reason)
      | .error .crash => Prog.raise (.rpc .other)

/-- The frames of a stream; what is yielded of them is counted. -/
def consume (length : Nat) : Nat → List (Nat × Bytes) → R Nat
  | wire, [] => pure wire
  | wire, frame :: frames => do
      demand (frame.1 = wire ∧ 0 < frame.2.length ∧ frame.2.length ≤ chunkBytes ∧
        wire + frame.2.length ≤ length) .dataLoss
      Prog.modify fun s =>
        { s with
          yielded := s.yielded ++ frame.2, received := s.received + frame.2.length,
          digested := s.digested ++ frame.2 }
      consume length (wire + frame.2.length) frames

/-- One stream.  It brings what was granted, or the call fails; its header repeats the request. -/
def getBlock (block : BlockRef) (grant : BlockGrant) : R (Option Code) := do
  let s ← Prog.reads id
  Prog.modify fun s => { s with gets := s.gets + 1 }
  let delivery := net.deliveries s.gets
  let wire ← (match delivery.frames with
    | none => (match delivery.ending with
        | .closed => Prog.raise (.fault .dataLoss)
        | .failed _ => pure 0 : R Nat)
    | some n => consume grant.length 0
        ((blockFrames grant.offset grant.length 0 0 (net.chunks s.gets block)).take n))
  match delivery.ending with
  | .closed => do
      demand (wire = grant.length) .dataLoss
      pure none
  | .failed code => pure (some code)

/-- What is left of a part is granted again, at a node that did not fail yet. -/
def grantAgain (req : ResolveBlocksRequest) (offset length : Nat) (failed : List Id) (code : Code)
    (allocation : PlannedBlock) : R (PlannedBlock × BlockGrant) := do
  let s ← Prog.reads id
  let position :=
    allocation.block.blockIndex * req.snapshot.blockSizeBytes + offset + s.received
  let fresh ← resolvePage app user session net
    { req with
      offset := some position, length := some (length - s.received), limit := 1, cursor := .unset }
  match fresh.blocks with
  | [next] => do
      demand (next.block = allocation.block) .dataUnavailable
      match next.grants.find? fun g => g.nodeId ∉ failed with
      | some grant => pure (next, grant)
      | none => Prog.raise (.rpc code)
  | _ => Prog.raise (.fault .dataUnavailable)

/-- The node of a grant. -/
def locationOf (allocation : PlannedBlock) (grant : BlockGrant) : R BlockLocation :=
  match allocation.locations.find? fun l => l.nodeId = grant.nodeId with
  | some l => pure l
  | none => Prog.raise .crash

/-- The streams of a part of a block, until all of it has come. -/
def readParts (req : ResolveBlocksRequest) (offset length : Nat) :
    Nat → Nat → List Id → PlannedBlock → BlockGrant → R PlannedBlock
  | 0, _, _, _, _ => Prog.raise .stuck
  | fuel + 1, attempts, failed, allocation, grant => do
      let s ← Prog.reads id
      if s.received < length then do
        let location ← locationOf allocation grant
        let result ← getBlock net allocation.block grant
        match result with
        | none => readParts req offset length fuel attempts failed allocation grant
        | some code => do
            let s ← Prog.reads id
            if code = .other ∨ 2 ≤ attempts ∨ s.received = length then Prog.raise (.rpc code)
            else do
              let (allocation, grant) ← grantAgain app user session net req offset length
                (location.nodeId :: failed) code allocation
              readParts req offset length fuel (attempts + 1) (location.nodeId :: failed)
                allocation grant
      else pure allocation

/-- One block of a plan. -/
def readBlock (req : ResolveBlocksRequest) (allocation : PlannedBlock) : R Unit := do
  match allocation.grants with
  | [] => Prog.raise .crash
  | grant :: _ => do
      Prog.modify fun s => { s with received := 0, digested := [] }
      let allocation ← readParts app user session net req grant.offset grant.length
        (grant.length + 4) 0 [] allocation grant
      let s ← Prog.reads id
      demand (grant.offset = 0 ∧ grant.length = allocation.block.sizeBytes →
        app.sha256 s.digested = allocation.block.plaintextSha256) .checksumMismatch

/-- The pages of a range, from a cursor on. -/
def readPages (req : ResolveBlocksRequest) : Nat → BlockCursor → R Unit
  | 0, _ => Prog.raise .stuck
  | fuel + 1, cursor => do
      let plan ← resolvePage app user session net { req with limit := 64, cursor := cursor }
      demand (plan.snapshot = req.snapshot) .versionConflict
      Prog.each (readBlock app user session net req) plan.blocks
      if plan.nextCursor = .unset then pure () else readPages req fuel plan.nextCursor

/-- `AccessClient._iter_read`. -/
def iterRead (handleId : Id) (snapshot : SnapshotRef) (offset length : Nat) (readId : Id) :
    R Unit := do
  demand (offset ≤ maxOffset ∧ length ≤ maxOffset - offset) .invalidArgument
  readPages app user session net
    ⟨handleId, snapshot, some offset, some length, 64, .unset, readId⟩ (length + 2) .unset

end Dfsha.Client
