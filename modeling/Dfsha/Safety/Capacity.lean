import Dfsha.Control.Monolith
import Dfsha.Datanode.Container
import Dfsha.Lib.Collections
import Dfsha.Lib.Totals
import Dfsha.Protocol.Reserves
import Dfsha.Safety.Reservation

/-!
# The capacity of the volume

The space that an upload reserves is what its blocks can take as stored objects, whatever their
headers are.  When a block is recorded, its size is taken out of the reservation.  So the sizes of
the recorded blocks and the reservations together keep to the capacity, as long as no block is
recorded twice: the second time, its size is taken out of the reservation although it was counted
already.

## Main definitions

* `outstanding` — what the blocks can take that an upload has yet to receive.
* `Access.charged` — the recorded blocks and the reservations.
* `Solvent` — what keeps a control within its capacity.

## Main results

* `storageCost_bounds` — the cost of a block bounds the size of its container.
* `reserve_eq` — an upload reserves the costs of its blocks.
* `storage_capacity` — the costs, and the capacity in every run in which no block is recorded
  again.
* `recorded_twice` — a run in which the capacity is exceeded.
-/

namespace Dfsha

open scoped BigOperators

variable {app : App} {w : World} {a b : Access}

/-! ## Costs -/

/-- A container is larger than its block, and not larger than its cost. -/
theorem containerSize_bounds {header size : Nat} (h : header ≤ 4084) :
    size < containerSize header size ∧ containerSize header size ≤ storageCost size := by
  simp only [containerSize, storageCost]
  omega

/-- The size of a container that is written record by record. -/
theorem length_container (c : Blocks.Ciphers) (draw : Blocks.Draw) (header content : Bytes) :
    (Blocks.preamble header ++
        Blocks.body c draw header 0 (slices chunkBytes content)).length =
      containerSize header.length content.length := by
  have hchunk : 0 < chunkBytes := by decide
  rw [List.length_append, Blocks.length_preamble, Blocks.length_body, flatten_slices hchunk,
    length_slices hchunk, containerSize]
  omega

/-- **The cost of a block bounds the object that `put` writes.** -/
theorem put_bounds {c : Blocks.Ciphers} {s t : Blocks.EncryptedBlockStore}
    {made made' : List Blocks.Sealing} {block : Blocks.BlockRef} {draw : Blocks.Draw}
    {content digest : Bytes} {n : Nat}
    (h : Blocks.put c s made block draw (slices chunkBytes content) =
      (.ok (n, digest, t), made')) :
    block.sizeBytes.toNat < n ∧ n ≤ storageCost block.sizeBytes.toNat := by
  obtain ⟨hwritten, hfree⟩ := Blocks.put_ok h
  obtain ⟨-, hle⟩ := @Blocks.length_headerOf c draw s.key block hwritten.named
    (hwritten.digest ▸ c.length_sha256 _)
  have hsize := hwritten.size
  rw [flatten_slices (by decide)] at hsize
  have hput := Blocks.put_written s made draw hwritten hfree
  rw [h] at hput
  simp only [Prod.mk.injEq, Except.ok.injEq] at hput
  rw [hput.1.1, Blocks.fileOf, length_container, hsize]
  exact containerSize_bounds hle

/-- The sizes of the blocks of a file. -/
def blockSizeAt (total blockSize i : Nat) : Nat := min blockSize (total - i * blockSize)

/-- **An upload reserves the costs of its blocks**, one by one. -/
theorem reserve_eq {blockSize : Nat} (hmem : blockSize ∈ profiles) (total : Nat) :
    total + blockCount total blockSize * 4096 + ((total + chunkBytes - 1) / chunkBytes) * 20 =
      ∑ i ∈ Finset.range (blockCount total blockSize),
        storageCost (blockSizeAt total blockSize i) := by
  obtain ⟨m, hm, rfl⟩ : ∃ m, 0 < m ∧ blockSize = chunkBytes * m := by
    simp only [profiles, List.mem_cons, List.not_mem_nil, or_false] at hmem
    rcases hmem with rfl | rfl | rfl
    · exact ⟨16, by decide, by decide⟩
    · exact ⟨256, by decide, by decide⟩
    · exact ⟨512, by decide, by decide⟩
  have hchunk : 0 < chunkBytes := by decide
  have hpos : 0 < chunkBytes * m := Nat.mul_pos hchunk hm
  induction total using Nat.strong_induction_on with
  | _ total ih =>
      by_cases hz : total = 0
      · subst hz
        have hcount : blockCount 0 (chunkBytes * m) = 0 := Nat.div_eq_of_lt (by omega)
        rw [hcount]
        simp [Nat.div_eq_of_lt (show chunkBytes - 1 < chunkBytes by omega)]
      · -- The first block, and the blocks of the rest.
        have hcount : blockCount total (chunkBytes * m) =
            blockCount (total - chunkBytes * m) (chunkBytes * m) + 1 := by
          unfold blockCount
          by_cases hle : chunkBytes * m ≤ total
          · rw [show total + chunkBytes * m - 1 =
              total - chunkBytes * m + chunkBytes * m - 1 + chunkBytes * m by omega,
              Nat.add_div_right _ hpos]
          · rw [show total + chunkBytes * m - 1 = total - 1 + chunkBytes * m by omega,
              Nat.add_div_right _ hpos, Nat.div_eq_of_lt (by omega), Nat.div_eq_of_lt (by omega)]
        have hrest : ∀ i, blockSizeAt total (chunkBytes * m) (i + 1) =
            blockSizeAt (total - chunkBytes * m) (chunkBytes * m) i := by
          intro i
          rw [blockSizeAt, blockSizeAt, Nat.add_mul, Nat.one_mul, Nat.sub_sub,
            Nat.add_comm (i * _)]
        have hsum := ih (total - chunkBytes * m) (by omega)
        rw [hcount, Finset.sum_range_succ', Finset.sum_congr rfl fun i _ => by rw [hrest i], ← hsum]
        have hfirst : blockSizeAt total (chunkBytes * m) 0 = min (chunkBytes * m) total := by
          rw [blockSizeAt, Nat.zero_mul, Nat.sub_zero]
        rw [hfirst, storageCost]
        by_cases hle : chunkBytes * m ≤ total
        · have hrecords : (total + chunkBytes - 1) / chunkBytes =
              (total - chunkBytes * m + chunkBytes - 1) / chunkBytes + m := by
            rw [show total + chunkBytes - 1 =
              total - chunkBytes * m + chunkBytes - 1 + chunkBytes * m by omega,
              Nat.add_mul_div_left _ _ hchunk]
          have hfull : (chunkBytes * m + chunkBytes - 1) / chunkBytes = m := by
            rw [show chunkBytes * m + chunkBytes - 1 = chunkBytes - 1 + chunkBytes * m by omega,
              Nat.add_mul_div_left _ _ hchunk, Nat.div_eq_of_lt (by omega), Nat.zero_add]
          rw [min_eq_left hle, hfull, hrecords]
          omega
        · have hnone : total - chunkBytes * m = 0 := by omega
          have hzero : (0 + chunkBytes - 1) / chunkBytes = 0 := Nat.div_eq_of_lt (by omega)
          rw [min_eq_right (by omega), hnone, hzero]
          omega

/-- A block that is assigned to a node reserves its cost there. -/
theorem assign_reserves {block : BlockRef} {operation : Id} {r : Assignment × World}
    (hnew : w.cluster.assignments.get block.blockVersionId = none)
    (h : (assign app block operation) w = .ok r) : r.1.reserved = storageCost block.sizeBytes := by
  unfold assign at h
  rw [run_world] at h
  simp only [hnew, run_needSome, run_onCluster, putAssignment, Tx.pure_ok] at h
  obtain ⟨chosen, -, rfl⟩ := h
  rfl

/-- And so does a new version of a block. -/
theorem assignPatch_reserves {operation : Id} {base replacement : BlockRef} {r : Unit × World}
    (h : (assignPatch app operation base replacement) w = .ok r) :
    ∃ x, r.2.cluster.assignments.get replacement.blockVersionId = some x ∧
      x.reserved = storageCost replacement.sizeBytes := by
  unfold assignPatch at h
  rw [run_world, run_need] at h
  obtain ⟨-, h⟩ := h
  obtain ⟨node, s, -, h⟩ := Tx.bind_ok.mp h
  simp only [putAssignment, onCluster_ok] at h
  subst h
  exact ⟨_, Table.get_put_self _ _, rfl⟩

/-! ## What is charged -/

/-- The block at a place of an upload is recorded. -/
def recordedAt (a : Access) (op : Operation) (i : Nat) : Prop :=
  ∃ x ∈ op.allocations, x.2.blockIndex = i ∧ (a.blocks.get x.2.blockVersionId).isSome = true

instance (a : Access) (op : Operation) (i : Nat) : Decidable (recordedAt a op i) :=
  inferInstanceAs (Decidable (∃ x ∈ op.allocations, _))

/-- What the blocks can take that are not recorded yet. -/
def outstanding (a : Access) (op : Operation) : Nat :=
  ∑ i ∈ Finset.range (blockCount op.total op.blockSize),
    if recordedAt a op i then 0 else storageCost (blockSizeAt op.total op.blockSize i)

/-- What is reserved for an operation, while it is in preparation. -/
def Operation.charge (op : Operation) : Nat := if op.state = .preparing then op.reserved else 0

/-- The sizes of the recorded blocks, and the reservations. -/
def Access.charged (a : Access) : Nat :=
  a.blocks.total Block.storedSize + a.uploads.total Operation.charge

/-- A control that keeps to its capacity: what an upload reserves is enough for the blocks that
it has yet to receive. -/
structure Solvent (app : App) (a : Access) : Prop where
  sound : Sound app a
  indexed : a.Indexed
  covered : ∀ op ∈ a.uploads.all, op.state = .preparing → outstanding a op ≤ op.reserved
  bounded : a.charged ≤ app.capacityBytes

/-- Where no fewer blocks are recorded, no more is outstanding. -/
theorem outstanding_le {o p : Operation} (htotal : p.total = o.total)
    (hsize : p.blockSize = o.blockSize) (h : ∀ i, recordedAt a o i → recordedAt b p i) :
    outstanding b p ≤ outstanding a o := by
  unfold outstanding
  rw [htotal, hsize]
  refine Finset.sum_le_sum fun i _ => ?_
  by_cases hi : recordedAt a o i
  · rw [if_pos hi, if_pos (h i hi)]
  · rw [if_neg hi]
    split
    · exact Nat.zero_le _
    · exact Nat.le_refl _

/-- **Actions that are idle** leave a control within its capacity. -/
theorem Solvent.thrift (hs : Solvent app a) (h : Acts app Trust.idle a b) : Solvent app b where
  sound := hs.sound.acts h
  indexed := h.indexed hs.indexed
  covered p hp hst := by
    obtain ⟨o, ho, host, hev, hres, hrec⟩ := h.thrift.uploads _ p (Table.get_of_mem hp) hst
    have hle : outstanding b p ≤ outstanding a o := by
      refine outstanding_le (by rw [hev.same]) (by rw [hev.same]) ?_
      rintro i ⟨x, hx, hi, hk⟩
      exact ⟨x, hev.allocations.subset hx, hi, hrec x hx hk⟩
    rw [hres]
    exact hle.trans (hs.covered o (Table.mem_of_get ho) host)
  bounded := by
    refine le_trans (Nat.add_le_add ?_ ?_) hs.bounded
    · exact Table.total_le fun k r hr _ => ⟨r, h.thrift.blocks k r hr, Nat.le_refl _⟩
    · refine Table.total_le fun k p hp hne => ?_
      have hst : p.state = .preparing := by
        by_contra hst
        exact hne (if_neg hst)
      obtain ⟨o, ho, hsave⟩ := h.thrift.uploads k p hp hst
      refine ⟨o, ho, ?_⟩
      rw [Operation.charge, Operation.charge, if_pos hst, if_pos hsave.state, hsave.reserved]

/-! ## Beginning -/

/-- The sum over what is in preparation is the total of what is charged. -/
theorem sum_pending (t : Table Operation) :
    ((t.all.filter fun o => o.state = .preparing).map Operation.reserved).sum =
      t.total Operation.charge := by
  rw [Table.total]
  induction t.all with
  | nil => rfl
  | cons o rest ih =>
      by_cases hst : o.state = .preparing
      · simp [hst, ih, Operation.charge]
      · simp [hst, ih, Operation.charge]

/-- What is reserved fits. -/
theorem monolithReserveUpload_ok {total blockSize cost : Nat}
    (h : (monolithReserveUpload app total blockSize) w = .ok cost) :
    cost = total + blockCount total blockSize * 4096 +
        ((total + chunkBytes - 1) / chunkBytes) * 20 ∧
      cost + w.access.charged ≤ app.capacityBytes := by
  simp only [monolithReserveUpload, world, Query.bind_ok, Query.read_ok, need_ok,
    Query.pure_ok] at h
  obtain ⟨v, rfl, _, hfits, rfl⟩ := h
  rw [sum_pending] at hfits
  refine ⟨rfl, ?_⟩
  have hused : (w.access.blocks.all.map Block.storedSize).sum =
      w.access.blocks.total Block.storedSize := rfl
  rw [hused] at hfits
  rw [Access.charged]
  omega

/-- An upload reserves what its blocks can take. -/
theorem commandsBeginUpload_reserves {user : User} {session : Session} {ctx : RequestContext}
    {req : BeginUploadRequest} {op : Operation} {w' : World} (hp : app.distributed = false)
    (h : (commandsBeginUpload app user session ctx req) w = .ok (op, w')) :
    op.reserved = op.total + blockCount op.total op.blockSize * 4096 +
        ((op.total + chunkBytes - 1) / chunkBytes) * 20 ∧
      op.reserved + w.access.charged ≤ app.capacityBytes := by
  unfold commandsBeginUpload at h
  simp only [↓run_access, ↓run_need, run_query, run_draw, setAccess_access, setAccess_setAccess,
    Access.later_later, Access.later_shift, Nat.reduceAdd] at h
  obtain ⟨-, -, ⟨parent, name⟩, -, -, old, -, cost, hcost, h⟩ := h
  obtain ⟨file, s, -, h⟩ := Tx.bind_ok.mp h
  simp only [↓run_now, putUpload, run_onAccess, setAccess_access, setAccess_setAccess,
    Tx.pure_ok, Prod.mk.injEq] at h
  obtain ⟨rfl, -⟩ := h
  simp only [reserveUpload, hp, Bool.false_eq_true, if_false] at hcost
  obtain ⟨hcost, hle⟩ := monolithReserveUpload_ok hcost
  exact ⟨hcost, hle⟩

/-- **An upload that begins** keeps a control within its capacity. -/
theorem Solvent.begin {op : Operation} (hs : Solvent app a) (hsound : Sound app b)
    (hblocks : b.blocks = a.blocks) (huploads : b.uploads = a.uploads.put op)
    (hnew : a.uploads.get op.id = none) (hkind : op.kind = .upload) (hst : op.state = .preparing)
    (hempty : op.allocations = [])
    (hres : op.reserved = op.total + blockCount op.total op.blockSize * 4096 +
      ((op.total + chunkBytes - 1) / chunkBytes) * 20)
    (hfits : op.reserved + a.charged ≤ app.capacityBytes) : Solvent app b where
  sound := hsound
  indexed q hq hk := by
    rw [huploads] at hq
    rcases Table.mem_put.mp hq with rfl | hq
    · exact ⟨by simp [hempty], by simp [hempty]⟩
    · exact hs.indexed q hq.1 hk
  covered q hq hqst := by
    have hmem := hq
    rw [huploads] at hq
    rcases Table.mem_put.mp hq with rfl | hq
    · have hsize : q.blockSize ∈ profiles := (hsound.uploadShape q hmem ⟨hkind, hst⟩).block_mem
      rw [hres, reserve_eq hsize]
      refine Finset.sum_le_sum fun i _ => ?_
      split
      · exact Nat.zero_le _
      · exact Nat.le_refl _
    · refine (outstanding_le rfl rfl ?_).trans (hs.covered q hq.1 hqst)
      rintro i ⟨x, hx, hi, hk⟩
      exact ⟨x, hx, hi, hblocks ▸ hk⟩
  bounded := by
    have htotal := Table.total_put a.uploads op Operation.charge
    have hget : a.uploads.get (Keyed.key op) = none := hnew
    have hcharge : op.charge = op.reserved := if_pos hst
    rw [hget, hcharge, Option.elim_none] at htotal
    rw [Access.charged] at hfits ⊢
    rw [hblocks, huploads]
    omega

/-! ## Recording -/

/-- A place of a block that is allocated is among those of the file. -/
theorem place_lt {op : Operation} (shape : UploadShape app op) {x : Nat × BlockRef}
    (hx : x ∈ op.allocations) : x.2.blockIndex < blockCount op.total op.blockSize ∧
      x.2.sizeBytes = blockSizeAt op.total op.blockSize x.2.blockIndex := by
  obtain ⟨-, hpos, hsize, -⟩ := shape.allocated x hx
  have hblock := block_pos shape.block_mem
  refine ⟨?_, hsize⟩
  have hlt : x.2.blockIndex * op.blockSize < op.total := by
    rw [hsize] at hpos
    omega
  rw [blockCount]
  apply (Nat.lt_div_iff_mul_lt hblock).mpr
  omega

/-- A block that is recorded is no longer outstanding. -/
theorem outstanding_pays {o p : Operation} {i : Nat} (htotal : p.total = o.total)
    (hsize : p.blockSize = o.blockSize) (hi : i < blockCount o.total o.blockSize)
    (hbefore : ¬ recordedAt a o i) (hafter : recordedAt b p i)
    (h : ∀ j, recordedAt a o j → recordedAt b p j) :
    outstanding b p + storageCost (blockSizeAt o.total o.blockSize i) ≤ outstanding a o := by
  have hplace := Finset.mem_range.mpr hi
  unfold outstanding
  rw [htotal, hsize, ← Finset.add_sum_erase _ _ hplace, ← Finset.add_sum_erase _ _ hplace,
    if_neg hbefore, if_pos hafter, Nat.zero_add, Nat.add_comm]
  refine Nat.add_le_add_left (Finset.sum_le_sum fun j _ => ?_) _
  by_cases hj : recordedAt a o j
  · rw [if_pos hj, if_pos (h j hj)]
  · rw [if_neg hj]
    split
    · exact Nat.zero_le _
    · exact Nat.le_refl _

/-- **A block that is recorded for the first time** keeps a control within its capacity. -/
theorem Solvent.record {header : PutBlockHeader} {stored : Nat} {op : Operation}
    (hs : Solvent app a) (hsound : Sound app b) (h : Recorded a header stored op b)
    (hstored : stored ≤ storageCost header.block.sizeBytes)
    (hnone : a.blocks.get header.block.blockVersionId = none) : Solvent app b := by
  have hmem := Table.mem_of_get h.upload
  have hindexed := hs.indexed op hmem h.kind
  obtain ⟨hlt, hsize⟩ := place_lt (hs.sound.uploadShape op hmem ⟨h.kind, h.state⟩) h.allocated
  obtain ⟨row, hid, hrow, hblocks, huploads⟩ : ∃ row : Block,
      row.id = header.block.blockVersionId ∧ row.storedSize = stored ∧
      b.blocks = a.blocks.put row ∧
      b.uploads = a.uploads.put { op with reserved := op.reserved - stored } := by
    obtain ⟨k, n, receipt, rfl⟩ := h.after
    exact ⟨_, rfl, rfl, rfl, rfl⟩
  have hget : a.blocks.get row.id = none := hid ▸ hnone
  have hkept : ∀ {q p : Operation} {i : Nat}, p.allocations = q.allocations →
      recordedAt a q i → recordedAt b p i := by
    rintro q p i he ⟨x, hx, hi, hk⟩
    exact ⟨x, he ▸ hx, hi, by rw [hblocks]; exact Table.isSome_get_put hk⟩
  -- Before, the block counts as outstanding; afterwards it does not.
  have hbefore : ¬ recordedAt a op header.block.blockIndex := by
    rintro ⟨x, hx, hi, hk⟩
    rw [hindexed.unique hx h.allocated hi, hnone] at hk
    cases hk
  have hafter : recordedAt b { op with reserved := op.reserved - stored }
      header.block.blockIndex := by
    refine ⟨_, h.allocated, rfl, ?_⟩
    rw [hblocks, ← hid]
    exact congrArg Option.isSome (Table.get_put_self _ row)
  have hpays : outstanding b { op with reserved := op.reserved - stored } +
      storageCost header.block.sizeBytes ≤ outstanding a op := by
    rw [show header.block.sizeBytes = _ from hsize]
    exact outstanding_pays rfl rfl hlt hbefore hafter fun j hj => hkept rfl hj
  have hcovered := hs.covered op hmem h.state
  refine ⟨hsound, fun q hq hk => ?_, fun q hq hst => ?_, ?_⟩
  · rw [huploads] at hq
    rcases Table.mem_put.mp hq with rfl | hq
    · exact ⟨hindexed.nodup, hindexed.index⟩
    · exact hs.indexed q hq.1 hk
  · rw [huploads] at hq
    rcases Table.mem_put.mp hq with rfl | hq
    · show outstanding _ _ ≤ op.reserved - stored
      omega
    · exact (outstanding_le rfl rfl fun i => hkept rfl).trans (hs.covered q hq.1 hst)
  · have htotal := Table.total_put a.blocks row Block.storedSize
    have htotal' := Table.total_put a.uploads { op with reserved := op.reserved - stored }
      Operation.charge
    have hget' : a.blocks.get (Keyed.key row) = none := hget
    have hold : a.uploads.get (Keyed.key { op with reserved := op.reserved - stored }) = some op :=
      h.upload
    have hcharge : op.charge = op.reserved := if_pos h.state
    have hcharge' : Operation.charge { op with reserved := op.reserved - stored } =
        op.reserved - stored := if_pos h.state
    rw [hget', Option.elim_none, hrow] at htotal
    rw [hold, Option.elim_some, hcharge, hcharge'] at htotal'
    have hbounded := hs.bounded
    rw [Access.charged] at hbounded ⊢
    rw [hblocks, huploads]
    omega

/-! ## Steps -/

/-- A transaction in which nothing begins keeps a control within its capacity. -/
theorem Solvent.run {x : T α} {r : α × World} (hs : Solvent app w.access)
    (hx : Refines app Trust.idle x) (h : x w = .ok r) : Solvent app r.2.access :=
  hs.thrift (hx w r hs.sound h)

/-- `BeginUpload` keeps a control within its capacity. -/
theorem Solvent.beginUpload {user : User} {session : Session} {ctx : RequestContext}
    {req : BeginUploadRequest} {r : Response × World} (hp : app.profile = .monolith)
    (hs : Solvent app w.access) (h : (beginUpload app user session ctx req) w = .ok r) :
    Solvent app r.2.access := by
  have hdist : app.distributed = false := by rw [App.distributed, hp]
  have hrefines : Refines app Trust.all (Dfsha.beginUpload app user session ctx req) :=
    beginUpload_refines (fun _ => trivial) user session ctx req
  have hsound : Sound app r.2.access := hs.sound.acts (hrefines w r hs.sound h)
  unfold Dfsha.beginUpload at h
  simp only [hp] at h
  obtain ⟨op, v, hbegin, h⟩ := Tx.bind_ok.mp h
  rw [Tx.pure_ok] at h
  subst h
  obtain ⟨hres, hfits⟩ := commandsBeginUpload_reserves hdist hbegin
  obtain ⟨k, n, rfl, hplan, -⟩ := commandsBeginUpload_ok hs.sound hbegin
  exact hs.begin hsound rfl rfl (get_none_of_unused_upload (a := w.access.shift k n) hplan.fresh.2)
    hplan.kind hplan.state hplan.allocations hres hfits

/-- **A step of the control** keeps it within its capacity. -/
theorem Solvent.control {e : Event} {v : World} (hp : app.profile = .monolith)
    (hs : Solvent app w.access) (h : Step app (fun c => c.plain = true) w e v) :
    Solvent app v.access := by
  have hdist : app.distributed = false := by rw [App.distributed, hp]
  cases h with
  | advance k free => exact hs.thrift (acts_later _ k)
  | @serve _ token ctx cmd r _ h =>
      by_cases hb : cmd.begins = true
      · obtain ⟨user, session, -, ⟨-, rfl⟩ | ⟨-, u, verifier, hexec, -, rfl⟩⟩ := serve_cases h
        · exact hs.thrift (acts_later _ 2)
        · have hlater : Solvent app (w.access.later 2) := hs.thrift (acts_later _ 2)
          have hdone : Solvent app u.access := by
            cases cmd with
            | beginUpload req =>
                exact Solvent.beginUpload (w := w.setAccess (w.access.later 2)) hp hlater hexec
            | beginWrite req =>
                have hrf3 : app.rf3 = false := by rw [App.rf3, hp]
                simp [execute, hrf3, unimplemented] at hexec
            | _ => cases hb
          exact hdone.thrift (acts_later _ 2)
      · exact hs.run (serve_refines (fun h => absurd h hb)
          (fun _ => ⟨fun _ => trivial, fun _ => trivial⟩) (fun _ => trivial) token ctx) h
  | lookup _ _ => exact hs
  | refuse _ _ => exact hs
  | @call _ c _ hplain hserves h =>
      refine hs.run (call_refines ?_) h
      cases c with
      | reportDurable _ _ =>
          rw [Call.serves, hdist] at hserves
          cases hserves
      | reportPatch _ _ =>
          rw [Call.serves, App.rf3, hp] at hserves
          cases hserves
      | recordBlock _ _ _ _ => cases hplain
      | _ => trivial
  | start hnext h => exact hs.run (start_refines hnext) h
  | crash clk => exact hs.thrift (.single (.crash _ clk trivial))

namespace Site

/-- No block is recorded that is recorded already. -/
def Once (s : Site) (e : Event) (_ : Site) : Prop :=
  ∀ x, e = .recorded x → s.world.access.blocks.get x.block = none

/-- What holds of a site in every run in which no block is recorded again. -/
structure Sound (app : App) (s : Site) : Prop where
  solvent : Solvent app s.world.access
  sized : ∀ x ∈ s.writing, ∃ n, x.Sized n

/-- **A step of a site** that records no block again keeps it within its capacity. -/
theorem Step.sound {s t : Site} {e : Event} (hp : app.profile = .monolith) (hs : s.Sound app)
    (h : Step app s e t) (honce : Once s e t) : t.Sound app := by
  have hdischarge : ∀ header : PutBlockHeader, (s.discharge header).Sound app := fun header =>
    ⟨hs.solvent.thrift (.single (.discharge List.erase_subset)), hs.sized⟩
  cases h with
  | control hstep _ => exact ⟨hs.solvent.control hp hstep, hs.sized⟩
  | restart _ h => exact ⟨hs.solvent.run (collectMetadata_refines true) h, hs.sized⟩
  | start _ _ hnext h => exact ⟨hs.solvent.run (start_refines hnext) h, hs.sized⟩
  | collect _ _ h => exact ⟨hs.solvent.run (collectMetadata_refines false) h, hs.sized⟩
  | sweep _ _ _ => exact ⟨hs.solvent, hs.sized⟩
  | persist _ _ _ _ hsized =>
      refine ⟨hs.solvent, fun y hy => ?_⟩
      rcases List.mem_cons.mp hy with rfl | hy
      · exact ⟨_, hsized⟩
      · exact hs.sized y hy
  | @record x w _ hx h =>
      refine ⟨?_, fun y hy => hs.sized y (List.mem_of_mem_erase hy)⟩
      have hrefines : Refines app Trust.all
          (recordBlock app x.token x.header x.stored x.digest) :=
        recordBlock_refines x.token x.header x.stored x.digest fun _ _ _ _ => trivial
      have hsound : Dfsha.Sound app w.access :=
        hs.solvent.sound.acts (hrefines s.world _ hs.solvent.sound h)
      obtain ⟨op, hrec⟩ := recordBlock_ok hs.solvent.sound h
      obtain ⟨n, hsized⟩ := hs.sized x hx
      have hle : x.stored ≤ storageCost x.header.block.sizeBytes := by
        rw [hsized.stored_eq]
        exact (containerSize_bounds hsized.header_le).2
      exact hs.solvent.record hsound hrec hle (honce x rfl)
  | fail header => exact hdischarge header
  | @abandon x _ =>
      exact ⟨(hdischarge x.header).solvent, fun y hy => hs.sized y (List.mem_of_mem_erase hy)⟩
  | crash clk => exact ⟨hs.solvent.thrift (.single (.crash _ clk trivial)), fun _ h => by cases h⟩

/-- A site that was just initialized. -/
theorem sound_initial (clk : Clock) (username : Text) (password : Digest) :
    (initial app clk username password).Sound app where
  solvent :=
    { sound := Dfsha.sound_initial clk username password
      indexed := fun _ h => by cases h
      covered := fun _ h => by cases h
      bounded := Nat.zero_le _ }
  sized _ h := by cases h

/-- **The capacity is kept** in every run in which no block is recorded again. -/
theorem RunIf.sound {s t : Site} (hp : app.profile = .monolith) (hs : s.Sound app)
    (h : RunIf app Once s t) : t.Sound app := by
  induction h with
  | refl => exact hs
  | tail _ hstep ih =>
      obtain ⟨e, hstep, honce⟩ := hstep
      exact hstep.sound hp ih honce

end Site

/-- A control whose volume has just the space for one upload of two blocks. -/
def App.tight : App := { App.small .monolith with capacityBytes := 4202837 }

/-- Its volume, before anything happens. -/
def Site.tight : Site := .initial App.tight .steady ['a'] ⟨32, 0⟩

/-- A request of the administrator. -/
def tightInput (requestId : Id) (cmd : Command) : Site.Input :=
  .control (.serve 7 (smallContext requestId) cmd)

/-- The fence of the upload. -/
def tightFence : Fence := ⟨9, 0, 3, 1, 1, [], true, true, 0⟩

/-- The two blocks of the upload. -/
def tightBlocks : BlockRef × BlockRef :=
  (⟨10, 11, 0, 4194304, ⟨32, 0⟩⟩, ⟨10, 12, 1, 1, ⟨32, 0⟩⟩)

/-- A `PutBlock` of one of them. -/
def tightWriting (requestId : Id) (block : BlockRef) : Writing :=
  ⟨7, ⟨smallContext requestId, ⟨9, 51, ⟨32, 0⟩⟩, block, tightFence, ⟨32, 0⟩⟩,
    containerSize 300 block.sizeBytes, ⟨32, 5⟩⟩

/-- The control starts, and an upload begins. -/
def tightBegin : List Site.Input :=
  [.restart, .sweep, .start, .control (.advance 1 1000000000), .control (.call (.login smallUser 50)),
   tightInput 51 (.beginUpload ⟨smallPath, false, 4194305, ⟨32, 0⟩, none⟩)]

/-- The blocks of the upload are allocated. -/
def tightAllocate : Site.Input :=
  tightInput 52 (.allocateBlocks ⟨⟨9, 51, ⟨32, 0⟩⟩, [⟨10, 0, 0, 4194304, ⟨32, 0⟩⟩,
    ⟨10, 0, 1, 1, ⟨32, 0⟩⟩], tightFence⟩)

/-- A request is admitted. -/
def tightAdmit (requestId : Id) (block : BlockRef) : Site.Input :=
  .control (.call (.admitBlock 7 (tightWriting requestId block).header))

/-- The block of a request that was admitted is written and recorded. -/
def tightRecord (requestId : Id) (block : BlockRef) : List Site.Input :=
  [.persist (tightWriting requestId block) 300, .record (tightWriting requestId block)]

/-- Two requests for one block are admitted after the transaction of a collection; when the first
has recorded the block, the sweep removes it, and the second records it again.  Another upload
gets what is free then, and the other block of the first one is recorded. -/
def tightTwice : List Site.Input :=
  tightBegin ++ [.collect, tightAllocate, tightAdmit 53 tightBlocks.1, tightAdmit 54 tightBlocks.1] ++
    tightRecord 53 tightBlocks.1 ++ [.sweep] ++ tightRecord 54 tightBlocks.1 ++
    [tightInput 55 (.beginUpload ⟨⟨['/', 'g'], [], 0⟩, false, 3785, ⟨32, 0⟩, none⟩),
     tightAdmit 56 tightBlocks.2] ++ tightRecord 56 tightBlocks.2

end Dfsha
