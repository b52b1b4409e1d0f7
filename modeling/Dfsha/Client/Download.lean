import Dfsha.Client.Read
import Dfsha.Datanode.Blocks
import Dfsha.Lib.Document
import Dfsha.Lib.Segments
import Mathlib.Logic.Equiv.Basic

/-!
# How a client downloads a file

A download goes to a temporary file, which is given the name of the target when everything that
came was checked: every block against its digest, and the list of the blocks against the digest of
the manifest.  A stream that fails is rolled back, in the file and in the digest, and the block is
asked for at another node.

The control, the data nodes and the operating system answer as they like.  Only the removal of the
temporary file succeeds whenever it is asked for.

## Main definitions

* `asdict`, `manifestHash` — the digest of a list of blocks.
* `Surroundings`, `Local` — what answers, and what a client has on its disk.
* `downloadBlock`, `receiveHandle` — the operations, under the source's names.

## Main results

* `manifestHash_injective` — a manifest is known by its digest.
* `download_all_or_nothing` — the target is the whole file, or what it was.
-/

namespace Dfsha.Client.Download

abbrev BlockRef := Blocks.BlockRef

/-! ## Manifests -/

/-- A field of a message, which is left out where it has its default. -/
def member (key : String) (omitted : Bool) (v : Json) : List (String × Json) :=
  if omitted = true then [] else [(key, v)]

/-- A number of 64 bits, which is a string of digits in a dictionary. -/
def digits (n : UInt64) : Json := .str (String.ofList (Nat.toDigits 10 n.toNat))

/-- `asdict`, with the keys in order. -/
def asdict (b : BlockRef) : Json :=
  .obj (member "block_index" (b.blockIndex == 0) (digits b.blockIndex) ++
    member "block_version_id" b.blockVersionId.isEmpty (.str (String.ofList b.blockVersionId)) ++
    member "file_id" b.fileId.isEmpty (.str (String.ofList b.fileId)) ++
    member "plaintext_sha256" b.plaintextSha256.isEmpty
      (.str (String.ofList (b64encode b.plaintextSha256))) ++
    member "size_bytes" (b.sizeBytes == 0) (digits b.sizeBytes))

/-- `manifest_hash`. -/
def manifestHash (sha256 : Bytes → Bytes) (blocks : List BlockRef) : Bytes :=
  sha256 (encode (.arr (blocks.map asdict)))

/-! ## Messages -/

/-- `SnapshotRef`, as a message carries it. -/
structure SnapshotRef where
  fileId : Text
  contentEpoch : UInt64
  fileVersion : UInt64
  manifestRoot : Text
  sizeBytes : UInt64
  manifestSha256 : Bytes
  fileSha256 : Option Bytes
  blockSizeBytes : UInt64
  deriving DecidableEq, Repr

structure BlockLocation where
  nodeId : Text
  clientEndpoint : Text

structure BlockGrant where
  capability : Bytes

structure PlannedBlock where
  block : BlockRef
  locations : List BlockLocation
  grants : List BlockGrant

structure BlockPlan where
  snapshot : SnapshotRef
  blocks : List PlannedBlock
  nextCursor : Text

structure ResolveBlocksRequest where
  snapshot : SnapshotRef
  offset : Nat
  length : Nat
  limit : Nat
  cursor : Text

structure GetBlockRequest where
  snapshot : SnapshotRef
  block : BlockRef
  offset : Nat
  length : Nat
  capability : Bytes

/-- A frame of `GetBlock`. -/
inductive ReadBlockFrame
  | header (block : BlockRef) (length : UInt64) (rangeSha256 : Bytes)
  | chunk (offset : UInt64) (data : Bytes)
  | unset

/-- The frames of a stream, and how it ends. -/
structure Stream where
  frames : List ReadBlockFrame
  ending : Ending

/-! ## The client -/

/-- An exception. -/
inductive Raised
  | fault (reason : Reason)
  | rpc (code : Code)
  | osError
  /-- `StopIteration`, `KeyError`, `TypeError`. -/
  | crash
  /-- The loop would not have ended. -/
  | stuck
  deriving DecidableEq, Repr

/-- What answers a client. -/
structure Surroundings where
  sha256 : Bytes → Bytes
  /-- The answer of the control to a call. -/
  answers : Nat → ResolveBlocksRequest → Except Raised BlockPlan
  /-- The stream of a data node. -/
  streams : Nat → BlockLocation → GetBlockRequest → Stream
  /-- A call of the operating system fails, after so many bytes of it. -/
  disk : Nat → Option Nat
  /-- The renewals of the handle failed. -/
  renewals : Option Raised

/-- What a client has on its disk, and the calls that it made. -/
structure Local where
  target : Option Bytes
  temporary : Option Bytes
  /-- Where the temporary file is written next. -/
  position : Nat
  answers : Nat
  streams : Nat
  operations : Nat
  /-- How often a file was put in the place of the target. -/
  publications : Nat

abbrev D := Prog Local Raised

/-- `need`. -/
def demand (p : Prop) [Decidable p] (reason : Reason) : D Unit :=
  if p then pure () else Prog.raise (.fault reason)

variable (env : Surroundings)

/-- A call of the operating system. -/
def operate : D Unit := do
  let s ← Prog.reads id
  Prog.modify fun s => { s with operations := s.operations + 1 }
  match env.disk s.operations with
  | none => pure ()
  | some _ => Prog.raise .osError

/-- The temporary file, with some bytes written to it. -/
def Local.write (s : Local) (data : Bytes) : Local :=
  { s with
    temporary := s.temporary.map fun file => overwrite file s.position data
    position := s.position + data.length }

/-- `out.write`. -/
def write (data : Bytes) : D Unit := do
  let s ← Prog.reads id
  Prog.modify fun s => { s with operations := s.operations + 1 }
  match env.disk s.operations with
  | none => Prog.modify fun s => s.write data
  | some n => do
      Prog.modify fun s => s.write (data.take n)
      Prog.raise .osError

/-- `out.seek(start)` and `out.truncate()`. -/
def rollBack (start : Nat) : D Unit := do
  operate env
  Prog.modify fun s => { s with position := start, temporary := s.temporary.map (List.take start) }

/-- A call of `ResolveBlocks`. -/
def resolve (req : ResolveBlocksRequest) : D BlockPlan := do
  -- a field of a request has 64 bits
  (if req.offset < 2 ^ 64 then pure () else Prog.raise .crash)
  let s ← Prog.reads id
  Prog.modify fun s => { s with answers := s.answers + 1 }
  match env.answers s.answers req with
  | .ok plan => pure plan
  | .error e => Prog.raise e

/-- The chunks of a stream: what went into the digest of the file and into that of the block, and
how much of the block came. -/
def consume (block : BlockRef) : Bytes → Bytes → Nat → List ReadBlockFrame → D (Bytes × Bytes × Nat)
  | current, blockHash, offset, [] => pure (current, blockHash, offset)
  | current, blockHash, offset, .chunk at_ data :: frames => do
      demand (at_.toNat = offset ∧ 0 < data.length ∧ data.length ≤ chunkBytes ∧
        offset + data.length ≤ block.sizeBytes.toNat) .checksumMismatch
      write env data
      consume block (current ++ data) (blockHash ++ data) (offset + data.length) frames
  | _, _, _, _ :: _ => Prog.raise (.fault .checksumMismatch)

/-- One stream: what went into the digest of the file, and how much came; or the code of the call
that failed. -/
def getBlock (snapshot : SnapshotRef) (block : BlockRef) (baseline : Bytes)
    (location : BlockLocation) (grant : BlockGrant) : D (Except Code (Bytes × Nat)) := do
  let s ← Prog.reads id
  Prog.modify fun s => { s with streams := s.streams + 1 }
  (if snapshot.blockSizeBytes.toNat ∈ [4194304, 67108864, 134217728] then pure ()
    else Prog.raise .crash)
  let stream := env.streams s.streams location
    ⟨snapshot, block, 0, block.sizeBytes.toNat, grant.capability⟩
  match stream.frames, stream.ending with
  | [], .closed => Prog.raise .crash
  | [], .failed code => pure (.error code)
  | .header named length range :: frames, ending => do
      demand (named = block ∧ range = block.plaintextSha256 ∧ length = block.sizeBytes)
        .checksumMismatch
      let (current, blockHash, offset) ← consume env block baseline [] 0 frames
      match ending with
      | .failed code => pure (.error code)
      | .closed => do
          demand (offset = block.sizeBytes.toNat ∧ env.sha256 blockHash = block.plaintextSha256)
            .checksumMismatch
          pure (.ok (current, offset))
  | _ :: _, _ => Prog.raise (.fault .checksumMismatch)

/-- The attempts of `download_block` that are left. -/
def attempts (snapshot : SnapshotRef) (block : BlockRef) (start : Nat) (baseline : Bytes) :
    Nat → List Text → PlannedBlock → D (Bytes × Nat)
  | 0, _, _ => Prog.raise .crash
  | left + 1, failed, allocation =>
      match (allocation.locations.zip allocation.grants).filter fun p => p.1.nodeId ∉ failed with
      | [] => Prog.raise (.fault .dataUnavailable)
      | (location, grant) :: _ => do
          let result ← getBlock env snapshot block baseline location grant
          match result with
          | .ok received => pure received
          | .error code =>
              if code = .other ∨ left = 0 then Prog.raise (.rpc code)
              else do
                let failed := location.nodeId :: failed
                rollBack env start
                let fresh ← resolve env ⟨snapshot,
                  block.blockIndex.toNat * snapshot.blockSizeBytes.toNat, block.sizeBytes.toNat, 1, []⟩
                demand (fresh.snapshot = snapshot ∧ fresh.blocks.map PlannedBlock.block = [block])
                  .checksumMismatch
                match fresh.blocks with
                | [] => Prog.raise .crash
                | next :: _ =>
                    if ∃ l ∈ next.locations, l.nodeId ∉ failed then
                      attempts snapshot block start baseline left failed next
                    else Prog.raise (.rpc code)

/-- `download_block`. -/
def downloadBlock (snapshot : SnapshotRef) (allocation : PlannedBlock) (digest : Bytes) :
    D (Bytes × Nat) := do
  let s ← Prog.reads id
  attempts env snapshot allocation.block s.position digest 3 [] allocation

/-- What came so far: what went into the digest, its size, and the blocks. -/
structure Received where
  digest : Bytes
  total : Nat
  blocks : List BlockRef

/-- The blocks of a page. -/
def downloadBlocks (snapshot : SnapshotRef) : Received → List PlannedBlock → D Received
  | r, [] => pure r
  | r, allocation :: rest => do
      demand (allocation.block.blockIndex.toNat = r.blocks.length) .checksumMismatch
      let (digest, received) ← downloadBlock env snapshot allocation r.digest
      downloadBlocks snapshot ⟨digest, r.total + received, r.blocks ++ [allocation.block]⟩ rest

/-- The pages of a file. -/
def downloadPages (snapshot : SnapshotRef) : Nat → Text → Received → D Received
  | 0, _, _ => Prog.raise .stuck
  | fuel + 1, cursor, r => do
      let plan ← resolve env ⟨snapshot, 0, snapshot.sizeBytes.toNat, 64, cursor⟩
      demand (plan.snapshot = snapshot) .checksumMismatch
      let r ← downloadBlocks env snapshot r plan.blocks
      if plan.nextCursor = [] then pure r
      else downloadPages snapshot fuel plan.nextCursor r

/-- The temporary file is made, with `os.chmod`. -/
def openTemporary : D Unit := do
  operate env
  Prog.modify fun s => { s with temporary := some [], position := 0 }
  operate env

/-- The target becomes the temporary file. -/
def Local.publish (s : Local) : Local :=
  { s with target := s.temporary, publications := s.publications + 1 }

/-- The temporary file is removed. -/
def Local.unlink (s : Local) : Local := { s with temporary := none }

/-- `os.replace`, or `os.link` and `unlink`. -/
def publish (overwriting : Bool) : D Unit := do
  operate env
  if overwriting = true then Prog.modify fun s => s.publish.unlink
  else do
    let s ← Prog.reads id
    (if s.target = none then pure () else Prog.raise .osError)
    Prog.modify Local.publish
    operate env
    Prog.modify Local.unlink

/-- The body of `receive_handle`. -/
def fetch (snapshot : SnapshotRef) (overwriting : Bool) (fuel : Nat) : D (Nat × Text) := do
  openTemporary env
  let r ← downloadPages env snapshot fuel [] ⟨[], 0, []⟩
  demand (r.total = snapshot.sizeBytes.toNat ∧
    (∀ digest ∈ snapshot.fileSha256, env.sha256 r.digest = digest) ∧
    manifestHash env.sha256 r.blocks = snapshot.manifestSha256) .checksumMismatch
  -- flushed, synchronized and closed
  operate env
  operate env
  operate env
  match env.renewals with
  | some e => Prog.raise e
  | none => do
      publish env overwriting
      pure (r.total, hex (env.sha256 r.digest))

/-- `receive_handle`: how many bytes, and their digest. -/
def receiveHandle (snapshot : SnapshotRef) (overwriting : Bool) (fuel : Nat) : D (Nat × Text) := do
  let s ← Prog.reads id
  demand (s.target = none ∨ overwriting = true) .alreadyExists
  let result ← Prog.attempt (fetch env snapshot overwriting fuel)
  Prog.modify Local.unlink
  match result with
  | .ok r => pure r
  | .error e => Prog.raise e

/-! ## A manifest is known by its digest -/

theorem find_member {key k : String} {omitted : Bool} {v : Json} {rest : List (String × Json)} :
    (member key omitted v ++ rest).find? (fun m => m.1 = k) =
      if omitted = false ∧ key = k then some (key, v) else rest.find? (fun m => m.1 = k) := by
  cases omitted with
  | true => simp [member]
  | false =>
      by_cases h : key = k
      · simp [member, h]
      · simp [member, h]

theorem digits_injective {n m : UInt64} (h : digits n = digits m) : n = m := by
  have htext : Nat.toDigits 10 n.toNat = Nat.toDigits 10 m.toNat :=
    String.ofList_injective (Json.str.inj h)
  have hint : Json.int (.ofNat n.toNat) = .int (.ofNat m.toNat) :=
    Json.dump_injective (by simpa only [Json.dump] using htext)
  exact UInt64.toNat_inj.mp (Int.ofNat.inj (Json.int.inj hint))

theorem text_injective {t t' : Text} (h : Json.str (String.ofList t) = Json.str (String.ofList t')) :
    t = t' := String.ofList_injective (Json.str.inj h)

theorem bytes_injective {x x' : Bytes} (h : Json.str (String.ofList (b64encode x)) =
    Json.str (String.ofList (b64encode x'))) : x = x' := by
  have hdecoded := congrArg b64decode (text_injective h)
  rw [b64decode_encode, b64decode_encode] at hdecoded
  exact Option.some.inj hdecoded

/-- A field is known by what a dictionary has under its key. -/
theorem member_injective {α : Type} [DecidableEq α] {key : String} {d x x' : α} {f : α → Json}
    (hf : ∀ {a a'}, f a = f a' → a = a')
    (h : (if x = d then none else some (key, f x)) = if x' = d then none else some (key, f x')) :
    x = x' := by
  by_cases hx : x = d
  · by_cases hx' : x' = d
    · exact hx.trans hx'.symm
    · simp [hx, hx'] at h
  · by_cases hx' : x' = d
    · simp [hx, hx'] at h
    · rw [if_neg hx, if_neg hx'] at h
      exact hf (Prod.mk.inj (Option.some.inj h)).2

/-- A block is known by its dictionary. -/
theorem asdict_injective {b b' : BlockRef} (h : asdict b = asdict b') : b = b' := by
  have hmembers := Json.obj.inj h
  rw [← List.append_nil (member "size_bytes" (b.sizeBytes == 0) _),
    ← List.append_nil (member "size_bytes" (b'.sizeBytes == 0) _)] at hmembers
  simp only [List.append_assoc] at hmembers
  have hfind := fun k : String => congrArg (List.find? fun m => m.1 = k) hmembers
  simp only [find_member, List.find?_nil] at hfind
  have hindex := hfind "block_index"
  have hversion := hfind "block_version_id"
  have hfile := hfind "file_id"
  have hsha := hfind "plaintext_sha256"
  have hsize := hfind "size_bytes"
  simp at hindex hversion hfile hsha hsize
  have h1 := member_injective digits_injective hindex
  have h2 := member_injective text_injective hversion
  have h3 := member_injective text_injective hfile
  have h4 := member_injective bytes_injective hsha
  have h5 := member_injective digits_injective hsize
  obtain ⟨fileId, version, index, size, sha⟩ := b
  simp_all

/-- **A manifest is known by its digest**, if no two texts have one. -/
theorem manifestHash_injective {sha256 : Bytes → Bytes} (hsha : Function.Injective sha256) :
    Function.Injective (manifestHash sha256) := by
  intro blocks blocks' h
  have hitems := Json.arr.inj (encode_injective (hsha h))
  exact List.map_injective_iff.mpr (fun _ _ => asdict_injective) hitems

/-! ## The temporary file holds what was checked -/

open Prog

/-- The target is as it was. -/
structure Untouched (o s : Local) : Prop where
  target : s.target = o.target
  publications : s.publications = o.publications

/-- The target is as it was, and the temporary file ends with what came so far. -/
structure Holds (o : Local) (done : Bytes) (s : Local) : Prop extends Untouched o s where
  temporary : s.temporary = some done
  position : s.position = done.length

variable {env : Surroundings} {o : Local} {done : Bytes} {s t : Local}

/-- What only counts calls keeps what is held. -/
theorem Holds.counts (h : Holds o done s) (htarget : t.target = s.target)
    (hpublications : t.publications = s.publications) (htemporary : t.temporary = s.temporary)
    (hposition : t.position = s.position) : Holds o done t where
  target := htarget.trans h.target
  publications := hpublications.trans h.publications
  temporary := htemporary.trans h.temporary
  position := hposition.trans h.position

theorem Holds.write (h : Holds o done s) (data : Bytes) : Holds o (done ++ data) (s.write data) where
  target := h.target
  publications := h.publications
  temporary := by simp [Local.write, h.temporary, h.position, overwrite]
  position := by simp [Local.write, h.position]

theorem demand_ends {p : Prop} [Decidable p] {reason : Reason} {Q : Unit → Local → Prop}
    {E : Raised → Local → Prop} :
    (demand p reason).Ends s Q E ↔ (p → Q () s) ∧ (¬ p → E (.fault reason) s) := by
  unfold demand
  by_cases h : p
  · simp [h, ends_pure]
  · simp [h, ends_raise]

theorem operate_ends (h : Holds o done s) :
    (operate env).Ends s (fun _ t => Holds o done t) fun _ t => Untouched o t := by
  unfold operate
  rw [ends_bind, ends_reads, ends_bind, ends_modify]
  have hcounted : Holds o done { s with operations := s.operations + 1 } := h.counts rfl rfl rfl rfl
  cases env.disk (id s).operations with
  | none => exact hcounted
  | some n => exact hcounted.toUntouched

theorem write_ends (h : Holds o done s) (data : Bytes) :
    (write env data).Ends s (fun _ t => Holds o (done ++ data) t) fun _ t => Untouched o t := by
  unfold Download.write
  rw [ends_bind, ends_reads, ends_bind, ends_modify]
  have hcounted : Holds o done { s with operations := s.operations + 1 } := h.counts rfl rfl rfl rfl
  cases env.disk (id s).operations with
  | none => exact hcounted.write data
  | some n => exact (hcounted.write (data.take n)).toUntouched

theorem rollBack_ends {data : Bytes} (h : Holds o (done ++ data) s) :
    (rollBack env done.length).Ends s (fun _ t => Holds o done t) fun _ t => Untouched o t := by
  unfold rollBack
  refine (operate_ends h).bind fun _ t ht => ?_
  rw [ends_modify]
  exact ⟨⟨ht.target, ht.publications⟩, by simp [ht.temporary], rfl⟩

theorem resolve_ends (h : Holds o done s) (req : ResolveBlocksRequest) :
    (resolve env req).Ends s (fun _ t => Holds o done t) fun _ t => Untouched o t := by
  unfold resolve
  refine ends_bind.mpr (ends_ite.mpr ⟨fun _ => ?_, fun _ => h.toUntouched⟩)
  rw [ends_pure, ends_bind, ends_reads, ends_bind, ends_modify]
  have hcounted : Holds o done { s with answers := s.answers + 1 } := h.counts rfl rfl rfl rfl
  cases env.answers (id s).answers req with
  | ok plan => exact hcounted
  | error e => exact hcounted.toUntouched

theorem consume_ends {block : BlockRef} {frames : List ReadBlockFrame} :
    ∀ {hashed : Bytes} {s : Local}, Holds o (done ++ hashed) s →
      (consume env block (done ++ hashed) hashed hashed.length frames).Ends s
        (fun r t => ∃ data, r = (done ++ data, data, data.length) ∧ Holds o (done ++ data) t)
        fun _ t => Untouched o t := by
  induction frames with
  | nil => exact fun {hashed s} h => ⟨hashed, rfl, h⟩
  | cons frame frames ih =>
      intro hashed s h
      cases frame with
      | header named length range => exact h.toUntouched
      | unset => exact h.toUntouched
      | chunk offset data =>
          refine ends_bind.mpr (demand_ends.mpr ⟨fun _ => ?_, fun _ => h.toUntouched⟩)
          refine (write_ends h data).bind fun _ t ht => ?_
          have hrest := @ih (hashed ++ data) t (by rwa [← List.append_assoc])
          rwa [← List.append_assoc, List.length_append] at hrest

/-- The data of a block. -/
def Genuine (sha256 : Bytes → Bytes) (block : BlockRef) (data : Bytes) : Prop :=
  data.length = block.sizeBytes.toNat ∧ sha256 data = block.plaintextSha256

/-- What a stream comes to: a whole block, or some of one and a code. -/
def Streamed (sha256 : Bytes → Bytes) (o : Local) (block : BlockRef) (done : Bytes) :
    Except Code (Bytes × Nat) → Local → Prop
  | .ok r, t => ∃ data, r = (done ++ data, data.length) ∧ Genuine sha256 block data ∧
      Holds o (done ++ data) t
  | .error _, t => ∃ data, Holds o (done ++ data) t

/-- **A stream** brings a whole block that has its digest, or fails. -/
theorem getBlock_ends {snapshot : SnapshotRef} {block : BlockRef} {location : BlockLocation}
    {grant : BlockGrant} (h : Holds o done s) :
    (getBlock env snapshot block done location grant).Ends s
      (Streamed env.sha256 o block done) fun _ t => Untouched o t := by
  unfold getBlock
  rw [ends_bind, ends_reads, ends_bind, ends_modify]
  have hcounted : Holds o done { s with streams := s.streams + 1 } := h.counts rfl rfl rfl rfl
  refine ends_bind.mpr (ends_ite.mpr ⟨fun _ => ?_, fun _ => hcounted.toUntouched⟩)
  rw [ends_pure]
  dsimp only
  generalize env.streams (id s).streams location _ = stream
  obtain ⟨frames, ending⟩ := stream
  cases frames with
  | nil =>
      cases ending with
      | closed => exact hcounted.toUntouched
      | failed code => exact ⟨[], by simpa using hcounted⟩
  | cons frame frames =>
      cases frame with
      | chunk offset data => exact hcounted.toUntouched
      | unset => exact hcounted.toUntouched
      | header named length range =>
          refine ends_bind.mpr (demand_ends.mpr ⟨fun _ => ?_, fun _ => hcounted.toUntouched⟩)
          have hread := @consume_ends env o done block frames [] _ (by simpa using hcounted)
          rw [List.append_nil] at hread
          refine hread.bind fun r t ⟨data, hr, ht⟩ => ?_
          subst hr
          cases ending with
          | failed code => exact ⟨data, ht⟩
          | closed =>
              refine ends_bind.mpr (demand_ends.mpr ⟨fun hwhole => ?_, fun _ => ht.toUntouched⟩)
              exact ⟨data, rfl, hwhole, ht⟩

/-- A block arrived: what went into the digest, and its size. -/
def Arrived (sha256 : Bytes → Bytes) (o : Local) (block : BlockRef) (done : Bytes)
    (r : Bytes × Nat) (t : Local) : Prop :=
  ∃ data, r = (done ++ data, data.length) ∧ Genuine sha256 block data ∧ Holds o (done ++ data) t

/-- **An attempt that fails leaves nothing behind**: what the next one writes follows what came
before the block. -/
theorem attempts_ends {snapshot : SnapshotRef} {block : BlockRef} {left : Nat} :
    ∀ {failed : List Text} {allocation : PlannedBlock} {s : Local}, Holds o done s →
      (attempts env snapshot block done.length done left failed allocation).Ends s
        (Arrived env.sha256 o block done) fun _ t => Untouched o t := by
  induction left with
  | zero => exact fun {failed allocation s} h => h.toUntouched
  | succ left ih =>
      intro failed allocation s h
      unfold attempts
      cases (allocation.locations.zip allocation.grants).filter fun p => p.1.nodeId ∉ failed with
      | nil => exact h.toUntouched
      | cons candidate candidates =>
          obtain ⟨location, grant⟩ := candidate
          refine (getBlock_ends h).bind fun result t ht => ?_
          cases result with
          | ok received => exact ht
          | error code =>
              obtain ⟨data, ht⟩ := ht
              refine ends_ite.mpr ⟨fun _ => ht.toUntouched, fun _ => ?_⟩
              refine (rollBack_ends ht).bind fun _ u hu => ?_
              refine (resolve_ends hu _).bind fun fresh v hv => ?_
              refine ends_bind.mpr (demand_ends.mpr ⟨fun _ => ?_, fun _ => hv.toUntouched⟩)
              cases fresh.blocks with
              | nil => exact hv.toUntouched
              | cons next rest => exact ends_ite.mpr ⟨fun _ => ih hv, fun _ => hv.toUntouched⟩

/-- **A block** is whole, or the download fails. -/
theorem downloadBlock_ends {snapshot : SnapshotRef} {allocation : PlannedBlock}
    (h : Holds o done s) :
    (downloadBlock env snapshot allocation done).Ends s
      (Arrived env.sha256 o allocation.block done) fun _ t => Untouched o t := by
  unfold downloadBlock
  rw [ends_bind, ends_reads]
  have hend : s.position = done.length := h.position
  rw [id, hend]
  exact attempts_ends h

/-- What came so far is the data of the blocks that came. -/
structure Collected (sha256 : Bytes → Bytes) (o : Local) (r : Received) (t : Local) : Prop where
  total : r.total = r.digest.length
  parts : ∃ parts, r.digest = parts.flatten ∧ List.Forall₂ (Genuine sha256) r.blocks parts
  holds : Holds o r.digest t

theorem Collected.snoc {r : Received} {block : BlockRef} {data : Bytes}
    (h : Collected env.sha256 o r s) (hdata : Genuine env.sha256 block data)
    (ht : Holds o (r.digest ++ data) t) :
    Collected env.sha256 o ⟨r.digest ++ data, r.total + data.length, r.blocks ++ [block]⟩ t where
  total := by simp [h.total]
  parts := by
    obtain ⟨parts, hdigest, hparts⟩ := h.parts
    exact ⟨parts ++ [data], by simp [hdigest],
      List.rel_append hparts (List.Forall₂.cons hdata .nil)⟩
  holds := ht

theorem downloadBlocks_ends {snapshot : SnapshotRef} {allocations : List PlannedBlock} :
    ∀ {r : Received} {s : Local}, Collected env.sha256 o r s →
      (downloadBlocks env snapshot r allocations).Ends s (Collected env.sha256 o)
        fun _ t => Untouched o t := by
  induction allocations with
  | nil => exact fun {r s} h => h
  | cons allocation rest ih =>
      intro r s h
      refine ends_bind.mpr (demand_ends.mpr ⟨fun _ => ?_, fun _ => h.holds.toUntouched⟩)
      refine (downloadBlock_ends h.holds).bind fun received t ht => ?_
      obtain ⟨data, hreceived, hdata, ht⟩ := ht
      subst hreceived
      exact ih (h.snoc hdata ht)

theorem downloadPages_ends {snapshot : SnapshotRef} {fuel : Nat} :
    ∀ {cursor : Text} {r : Received} {s : Local}, Collected env.sha256 o r s →
      (downloadPages env snapshot fuel cursor r).Ends s (Collected env.sha256 o)
        fun _ t => Untouched o t := by
  induction fuel with
  | zero => exact fun {cursor r s} h => h.holds.toUntouched
  | succ fuel ih =>
      intro cursor r s h
      refine (resolve_ends h.holds _).bind fun plan t ht => ?_
      have hkept : Collected env.sha256 o r t := ⟨h.total, h.parts, ht⟩
      refine ends_bind.mpr (demand_ends.mpr ⟨fun _ => ?_, fun _ => ht.toUntouched⟩)
      refine (downloadBlocks_ends hkept).bind fun r' u hu => ?_
      exact ends_ite.mpr ⟨fun _ => hu, fun _ => ih hu⟩

/-! ## The target is the whole file, or what it was -/

/-- The target is as it was, unless a file was put in its place. -/
def Kept (o s : Local) : Prop := s.publications = o.publications → s.target = o.target

theorem Untouched.kept (h : Untouched o s) : Kept o s := fun _ => h.target

theorem publish_ends {overwriting : Bool} (h : Holds o done s) :
    (publish env overwriting).Ends s (fun _ t => t.target = some done) fun _ t => Kept o t := by
  unfold publish
  refine ends_bind.mpr ((operate_ends h).mono (fun _ t ht => ?_) fun _ t ht => ht.kept)
  refine ends_ite.mpr ⟨fun _ => ht.temporary, fun _ => ?_⟩
  rw [ends_bind, ends_reads]
  refine ends_bind.mpr (ends_ite.mpr ⟨fun _ => ?_, fun _ => ht.kept⟩)
  rw [ends_pure, ends_bind, ends_modify]
  have hpublished : t.publish.publications ≠ o.publications := by
    simp [Local.publish, ht.publications]
  unfold operate
  rw [ends_bind, ends_bind, ends_reads, ends_bind, ends_modify]
  cases env.disk (id t.publish).operations with
  | none => exact ht.temporary
  | some n => exact fun heq => absurd heq hpublished

/-- The data of the blocks of a file are what the file says, since no two texts have one digest. -/
theorem genuine_unique {sha256 : Bytes → Bytes} (hsha : Function.Injective sha256)
    {content : BlockRef → Bytes} {blocks : List BlockRef} {parts : List Bytes}
    (hparts : List.Forall₂ (Genuine sha256) blocks parts)
    (hcontent : ∀ b ∈ blocks, sha256 (content b) = b.plaintextSha256) :
    parts.flatten = blocks.flatMap content := by
  induction hparts with
  | nil => rfl
  | @cons b data blocks parts hdata hparts ih =>
      have hhead : data = content b :=
        hsha (hdata.2.trans (hcontent b List.mem_cons_self).symm)
      have htail := ih fun b' hb' => hcontent b' (List.mem_cons_of_mem b hb')
      simp [hhead, htail]

/-- **The body of a download** ends with the whole file as the target. -/
theorem fetch_ends {snapshot : SnapshotRef} {overwriting : Bool} {fuel : Nat}
    {blocks : List BlockRef} {content : BlockRef → Bytes}
    (hsha : Function.Injective env.sha256)
    (hmanifest : manifestHash env.sha256 blocks = snapshot.manifestSha256)
    (hcontent : ∀ b ∈ blocks, env.sha256 (content b) = b.plaintextSha256) :
    (fetch env snapshot overwriting fuel).Ends s
      (fun r t => t.target = some (blocks.flatMap content) ∧
        r = ((blocks.flatMap content).length, hex (env.sha256 (blocks.flatMap content))))
      fun _ t => Kept s t := by
  have hkept : ∀ (e : Raised) (t : Local), Untouched s t → Kept s t := fun _ _ h => h.kept
  have hopened : (openTemporary env).Ends s (fun _ t => Holds s [] t) fun _ t => Untouched s t := by
    unfold openTemporary operate
    rw [ends_bind, ends_bind, ends_reads, ends_bind, ends_modify]
    cases env.disk (id s).operations with
    | some n => exact ⟨rfl, rfl⟩
    | none => exact operate_ends ⟨⟨rfl, rfl⟩, rfl, rfl⟩
  refine ends_bind.mpr (hopened.mono (fun _ t ht => ?_) hkept)
  have hempty : Collected env.sha256 s ⟨[], 0, []⟩ t := ⟨rfl, ⟨[], rfl, .nil⟩, ht⟩
  refine ends_bind.mpr ((downloadPages_ends hempty).mono (fun r u hu => ?_) hkept)
  refine ends_bind.mpr (demand_ends.mpr ⟨fun hchecked => ?_, fun _ => hu.holds.kept⟩)
  obtain ⟨-, -, hhash⟩ := hchecked
  have hblocks : r.blocks = blocks := manifestHash_injective hsha (hhash.trans hmanifest.symm)
  obtain ⟨parts, hdigest, hparts⟩ := hu.parts
  rw [hblocks] at hparts
  have hwhole : r.digest = blocks.flatMap content :=
    hdigest.trans (genuine_unique hsha hparts hcontent)
  refine ends_bind.mpr ((operate_ends hu.holds).mono (fun _ v hv => ?_) hkept)
  refine ends_bind.mpr ((operate_ends hv).mono (fun _ v hv => ?_) hkept)
  refine ends_bind.mpr ((operate_ends hv).mono (fun _ v hv => ?_) hkept)
  cases env.renewals with
  | some e => exact hv.kept
  | none =>
      refine (publish_ends hv).bind fun _ w hw => ?_
      rw [ends_pure, hw, hu.total, hwhole]
      exact ⟨rfl, rfl⟩

/-- **A download is all or nothing.**  When it returns, the target is the whole file; when it
raises, the target is what it was, unless a file was put in its place by then.  No temporary file
remains. -/
theorem download_all_or_nothing {snapshot : SnapshotRef} {overwriting : Bool} {fuel : Nat}
    {blocks : List BlockRef} {content : BlockRef → Bytes}
    (hsha : Function.Injective env.sha256)
    (hmanifest : manifestHash env.sha256 blocks = snapshot.manifestSha256)
    (hcontent : ∀ b ∈ blocks, env.sha256 (content b) = b.plaintextSha256)
    (hfresh : s.temporary = none) :
    (receiveHandle env snapshot overwriting fuel).Ends s
      (fun r t => t.target = some (blocks.flatMap content) ∧
        r = ((blocks.flatMap content).length, hex (env.sha256 (blocks.flatMap content))) ∧
        t.temporary = none)
      fun _ t => (t.publications = s.publications → t.target = s.target) ∧ t.temporary = none := by
  unfold receiveHandle
  rw [ends_bind, ends_reads]
  refine ends_bind.mpr (demand_ends.mpr ⟨fun _ => ?_, fun _ => ⟨fun _ => rfl, hfresh⟩⟩)
  refine ends_bind.mpr (ends_attempt.mpr ((fetch_ends hsha hmanifest hcontent).mono ?_ ?_))
  · exact fun r t ht => ⟨ht.1, ht.2, rfl⟩
  · exact fun e t ht => ⟨ht, rfl⟩

/-! ### A file of three bytes, whose first node fails in the middle -/

/-- The digest of the block. -/
def smallDigest : Bytes :=
  [186, 120, 22, 191, 143, 1, 207, 234, 65, 65, 64, 222, 93, 174, 34, 35, 176, 3, 97, 163, 150, 23,
    122, 156, 180, 16, 255, 97, 242, 0, 21, 173]

/-- The digest of the manifest. -/
def smallManifest : Bytes :=
  [182, 165, 15, 231, 255, 196, 152, 248, 198, 249, 12, 186, 183, 57, 223, 31, 238, 129, 175, 174,
    163, 171, 28, 105, 54, 7, 188, 107, 166, 23, 38, 214]

def smallBlock : BlockRef := ⟨['f'], ['b'], 0, 3, smallDigest⟩

def smallSnapshot : SnapshotRef := ⟨['f'], 1, 1, [], 3, smallManifest, some smallDigest, 4194304⟩

/-- The digests of the two texts that are digested, and no others at these two places. -/
def smallSha256 : Equiv.Perm Bytes :=
  (Equiv.swap [97, 98, 99] smallDigest).trans
    (Equiv.swap (encode (.arr [asdict smallBlock])) smallManifest)

def smallSurroundings : Surroundings where
  sha256 := smallSha256
  answers _ _ := .ok ⟨smallSnapshot,
    [⟨smallBlock, [⟨['n'], []⟩, ⟨['m'], []⟩], [⟨[]⟩, ⟨[]⟩]⟩], []⟩
  streams _ location _ :=
    if location.nodeId = ['n'] then
      ⟨[.header smallBlock 3 smallDigest, .chunk 0 [97]], .failed .unavailable⟩
    else ⟨[.header smallBlock 3 smallDigest, .chunk 0 [97, 98], .chunk 2 [99]], .closed⟩
  disk _ := none
  renewals := none

def smallLocal : Local := ⟨some [1], none, 0, 0, 0, 0, 0⟩

def smallContent (_ : BlockRef) : Bytes := [97, 98, 99]

-- the elaborator runs the program to see that its end is no function
set_option maxRecDepth 4000 in
theorem small_download :
    ((receiveHandle smallSurroundings smallSnapshot true 1).run smallLocal).1.isOk = true ∧
      (receiveHandle smallSurroundings smallSnapshot true 1).Ends smallLocal
        (fun r t => t.target = some ([smallBlock].flatMap smallContent) ∧
          r = (([smallBlock].flatMap smallContent).length,
            hex (smallSurroundings.sha256 ([smallBlock].flatMap smallContent))) ∧
          t.temporary = none)
        fun _ t => (t.publications = smallLocal.publications → t.target = smallLocal.target) ∧
          t.temporary = none := by
  have hcontent : ∀ b ∈ [smallBlock],
      smallSurroundings.sha256 (smallContent b) = b.plaintextSha256 := by
    simp only [List.mem_singleton]
    rintro b rfl
    decide +kernel
  exact ⟨by decide +kernel,
    download_all_or_nothing smallSha256.injective (by decide +kernel) hcontent rfl⟩

end Dfsha.Client.Download
