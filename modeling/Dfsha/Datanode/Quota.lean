import Dfsha.Lib.Totals
import Dfsha.Safety.Capacity
import Mathlib.Logic.Relation

/-!
# The quota of a DataNode

A DataNode has a number of bytes that it may fill.  Who writes a block first reserves what its
container can take: `reserve` reads from the inventory what is used, adds what is reserved, and
refuses what does not fit.  It does so with a lock, but the inventory has no lock: while the figures
are compared, other writers put their records into it, and records are removed.  The reservation is
given back when the writer leaves, whatever becomes of the write.

A file is in place before its record is.  A crash in between leaves a file that no record is about,
and the next start takes it into the inventory without asking for the quota.

## Main definitions

* `DataNode` — the inventory, the files, the reservation, and who is writing.
* `step` — one action of a writer, of the disk or of the process.
* `DataNode.committed` — what is used, and what is on its way into the inventory.
* `Accounted` — what keeps a DataNode within its quota.

## Main results

* `Accounted.step` — each step keeps it.
* `quota_kept` — the quota in every state that is reached, through crashes and restarts.
-/

namespace Dfsha.Quota

/-! ## State -/

/-- What a block version takes: the size of its file, and what its writer reserves for it. -/
structure Content where
  stored : Nat
  cost : Nat
  stored_le : stored ≤ cost

/-- A block of some size, in a container with a header of some length. -/
def Content.of (size header : Nat) (h : header ≤ 4084) : Content where
  stored := containerSize header size
  cost := storageCost size
  stored_le := (containerSize_bounds h).2

/-- What `put` writes is as large as that. -/
theorem stored_of_put {c : Blocks.Ciphers} {store store' : Blocks.EncryptedBlockStore}
    {made made' : List Blocks.Sealing} {block : Blocks.BlockRef} {draw : Blocks.Draw}
    {content digest : Bytes} {n : Nat}
    (h : Blocks.put c store made block draw (slices chunkBytes content) =
      (.ok (n, digest, store'), made')) :
    ∃ (header : Nat) (hle : header ≤ 4084),
      n = (Content.of block.sizeBytes.toNat header hle).stored := by
  obtain ⟨hwritten, hfree⟩ := Blocks.put_ok h
  obtain ⟨-, hle⟩ := @Blocks.length_headerOf c draw store.key block hwritten.named
    (hwritten.digest ▸ c.length_sha256 _)
  have hsize := hwritten.size
  rw [flatten_slices (by decide)] at hsize
  have hput := Blocks.put_written store made draw hwritten hfree
  rw [h] at hput
  simp only [Prod.mk.injEq, Except.ok.injEq] at hput
  refine ⟨(Blocks.headerOf c store.key block draw).length, hle, ?_⟩
  rw [hput.1.1, Blocks.fileOf, length_container, hsize]
  rfl

/-- The configuration of a DataNode, and what its blocks are: a block version has one content. -/
structure Config where
  capacityBytes : Nat
  content : Nat → Content

/-- A record of kind `block`. -/
structure Stored where
  block : Nat
  receipt : Nat
  storedSize : Nat
  deriving DecidableEq, Repr

/-- A record of kind `quarantine`, under the receipt that was replaced. -/
structure Quarantined where
  receipt : Nat
  storedSize : Nat
  deriving DecidableEq, Repr

/-- A `.blk` file; one that is no longer intact fails `read_verified`. -/
structure Object where
  block : Nat
  size : Nat
  intact : Bool
  deriving DecidableEq, Repr

/-- Where a writer is.  It pins its block from `entered` to its end. -/
inductive Phase
  | entered
  /-- `reserve` has returned. -/
  | reserved
  /-- The file is in place. -/
  | persisted
  /-- Its record is in the inventory. -/
  | recorded
  /-- `copy` has renamed the file that it replaces. -/
  | aside
  /-- `DeleteRetiredBlock` has removed the file. -/
  | unlinked
  deriving DecidableEq, Repr

/-- Who has a block pinned for writing. -/
structure Job where
  block : Nat
  phase : Phase
  deriving DecidableEq, Repr

instance : Keyed Stored Nat := ⟨Stored.block⟩
instance : Keyed Quarantined Nat := ⟨Quarantined.receipt⟩
instance : Keyed Object Nat := ⟨Object.block⟩
instance : Keyed Job Nat := ⟨Job.block⟩

/-- What `metrics` has said to the writer that is inside `reserve`. -/
structure Metrics where
  block : Nat
  usedBytes : Nat
  freeBytes : Nat
  deriving DecidableEq, Repr

/-- A DataNode: its inventory, its files, its counter of reserved bytes, and its threads.  The last
field is no data of the program: the files whose writers failed after they were in place. -/
structure DataNode where
  blocks : Table Stored
  quarantine : Table Quarantined
  objects : Table Object
  reserved : Nat
  /-- Who holds the lock, inside `reserve`. -/
  guard : Option Metrics
  jobs : Table Job
  /-- Whether the process has started and serves requests. -/
  serving : Bool
  abandoned : Table Object
  deriving DecidableEq

/-- An empty volume. -/
def DataNode.empty : DataNode :=
  ⟨Table.empty, Table.empty, Table.empty, 0, none, Table.empty, false, Table.empty⟩

/-- `used_bytes` of `metrics`. -/
def DataNode.usedBytes (s : DataNode) : Nat :=
  s.blocks.total Stored.storedSize + s.quarantine.total Quarantined.storedSize

/-- Where the writer of a block is. -/
def DataNode.phase (s : DataNode) (b : Nat) : Option Phase := (s.jobs.get b).map Job.phase

/-- The writer of a block goes on to another place. -/
def DataNode.goes (s : DataNode) (b : Nat) (p : Phase) : DataNode :=
  { s with jobs := s.jobs.put ⟨b, p⟩ }

/-- The writer of a block is done. -/
def DataNode.ends (s : DataNode) (b : Nat) : DataNode := { s with jobs := s.jobs.delete b }

/-- A file that a start takes up: no record is about it. -/
def DataNode.Unindexed (s : DataNode) (o : Object) : Prop :=
  o.intact = true ∧ s.blocks.get o.block = none

instance (s : DataNode) (o : Object) : Decidable (s.Unindexed o) :=
  inferInstanceAs (Decidable (_ ∧ _))

/-! ## Steps -/

/-- What may happen. -/
inductive Action
  /-- A writer pins its block. -/
  | enter (block : Nat)
  /-- It takes the lock and reads the metrics; the second number is what the disk has free. -/
  | measure (block freeBytes : Nat)
  /-- It compares, and reserves or leaves. -/
  | reserve
  /-- Its write fails before the file is in place. -/
  | fail (block : Nat)
  /-- The file is renamed into its place. -/
  | persist (block : Nat)
  /-- Its record is written, with a new receipt. -/
  | record (block receipt : Nat)
  /-- Something fails between the two. -/
  | abandon (block : Nat)
  /-- The reservation is given back. -/
  | release (block : Nat)
  /-- `copy` finds the block intact, and gives it a new receipt. -/
  | renew (block receipt : Nat)
  /-- `copy` renames the file that it replaces, if there is one. -/
  | setAside (block : Nat)
  /-- It moves the record to the quarantine. -/
  | quarantine (block : Nat)
  /-- `DeleteRetiredBlock` removes the file. -/
  | unlink (block : Nat)
  /-- It removes the record. -/
  | forget (block : Nat)
  /-- A writer leaves that has no reservation. -/
  | leave (block : Nat)
  /-- A file that nobody writes is damaged. -/
  | rot (block : Nat)
  /-- The process ends. -/
  | crash
  /-- `recover_unindexed_objects` takes up a file. -/
  | takeUp (block receipt : Nat)
  /-- It has seen all files, and the process serves. -/
  | start
  deriving DecidableEq, Repr

/-- The reservation of a block is given back, with the lock. -/
def DataNode.giveBack (cfg : Config) (s : DataNode) (b : Nat) : DataNode :=
  { s with reserved := s.reserved - (cfg.content b).cost }

/-- The second half of `reserve`. -/
def reserve (cfg : Config) (s : DataNode) (m : Metrics) : DataNode :=
  let amount := (cfg.content m.block).cost
  if m.usedBytes + s.reserved + amount ≤ cfg.capacityBytes ∧
      s.reserved + amount + 1048576 ≤ m.freeBytes then
    { s.goes m.block .reserved with reserved := s.reserved + amount, guard := none }
  else { s.ends m.block with guard := none }

/-- One step; `none` where the action is not possible. -/
def step (cfg : Config) (s : DataNode) : Action → Option DataNode
  | .enter b =>
      if s.serving = true ∧ s.phase b = none then some (s.goes b .entered) else none
  | .measure b free =>
      if s.phase b = some .entered ∧ s.guard = none then
        some { s with guard := some ⟨b, s.usedBytes, free⟩ }
      else none
  | .reserve => s.guard.map (reserve cfg s)
  | .fail b =>
      if s.phase b = some .reserved ∧ s.guard = none then
        some ((s.giveBack cfg b).ends b)
      else none
  | .persist b =>
      if s.phase b = some .reserved ∧ s.objects.get b = none then
        some { s.goes b .persisted with
          objects := s.objects.put ⟨b, (cfg.content b).stored, true⟩ }
      else none
  | .record b receipt =>
      if s.phase b = some .persisted then
        some { s.goes b .recorded with
          blocks := s.blocks.put ⟨b, receipt, (cfg.content b).stored⟩ }
      else none
  | .abandon b =>
      if s.phase b = some .persisted ∧ s.guard = none then
        some { (s.giveBack cfg b).ends b with
          abandoned := s.abandoned.put ⟨b, (cfg.content b).stored, true⟩ }
      else none
  | .release b =>
      if s.phase b = some .recorded ∧ s.guard = none then
        some ((s.giveBack cfg b).ends b)
      else none
  | .renew b receipt =>
      match s.blocks.get b with
      | none => none
      | some r =>
          if s.phase b = some .entered ∧ s.guard.map Metrics.block ≠ some b then
            some { s with blocks := s.blocks.put { r with receipt := receipt } }
          else none
  | .setAside b =>
      if s.phase b = some .entered ∧ s.guard.map Metrics.block ≠ some b ∧
          s.blocks.get b ≠ none then
        some { s.goes b .aside with objects := s.objects.delete b }
      else none
  | .quarantine b =>
      match s.blocks.get b with
      | none => none
      | some r =>
          if s.phase b = some .aside then
            some { s.goes b .entered with
              quarantine := s.quarantine.put ⟨r.receipt, r.storedSize⟩
              blocks := s.blocks.delete b }
          else none
  | .unlink b =>
      if s.phase b = some .entered ∧ s.guard.map Metrics.block ≠ some b then
        some { s.goes b .unlinked with objects := s.objects.delete b }
      else none
  | .forget b =>
      if s.phase b = some .unlinked then
        some { s.ends b with blocks := s.blocks.delete b }
      else none
  | .leave b =>
      if (s.phase b = some .entered ∨ s.phase b = some .aside ∨ s.phase b = some .unlinked) ∧
          s.guard.map Metrics.block ≠ some b then
        some (s.ends b)
      else none
  | .rot b =>
      match s.objects.get b with
      | none => none
      | some o =>
          if s.phase b = some .persisted then none
          else some { s with objects := s.objects.put { o with intact := false } }
  | .crash =>
      some { s with reserved := 0, guard := none, jobs := Table.empty, serving := false }
  | .takeUp b receipt =>
      match s.objects.get b with
      | none => none
      | some o =>
          if s.serving = false ∧ s.Unindexed o then
            some { s with blocks := s.blocks.put ⟨b, receipt, o.size⟩ }
          else none
  | .start =>
      if s.serving = false ∧ ∀ o ∈ s.objects.all, ¬ s.Unindexed o then
        some { s with serving := true }
      else none

/-- One step of a DataNode. -/
def Steps (cfg : Config) (s t : DataNode) : Prop := ∃ a, step cfg s a = some t

/-- What a DataNode on an empty volume comes to. -/
def Reachable (cfg : Config) (s : DataNode) : Prop :=
  Relation.ReflTransGen (Steps cfg) DataNode.empty s

/-! ## What is counted -/

/-- What a writer at a place counts, where some places count. -/
def share (cfg : Config) (counts : Phase → Bool) (b : Nat) (p : Phase) : Nat :=
  if counts p = true then (cfg.content b).cost else 0

/-- What the writers at some places have reserved. -/
def DataNode.held (cfg : Config) (s : DataNode) (counts : Phase → Bool) : Nat :=
  s.jobs.total fun j => share cfg counts j.block j.phase

/-- Where a writer has a reservation and no file yet. -/
def awaiting : Phase → Bool
  | .reserved => true
  | _ => false

/-- Where a writer has a reservation. -/
def charging : Phase → Bool
  | .reserved | .persisted | .recorded => true
  | _ => false

/-- A place without a reservation has none to come. -/
theorem awaiting_of_charging {p : Phase} (h : charging p = false) : awaiting p = false := by
  cases p <;> simp_all [awaiting, charging]

/-- What the writers will write that have a reservation and no file yet. -/
def DataNode.awaited (cfg : Config) (s : DataNode) : Nat := s.held cfg awaiting

/-- What the writers have reserved. -/
def DataNode.charged (cfg : Config) (s : DataNode) : Nat := s.held cfg charging

/-- The intact files that no record is about. -/
def DataNode.unindexed (s : DataNode) : Nat :=
  s.objects.total fun o => if s.Unindexed o then o.size else 0

/-- **What is used, and what is on its way into the inventory**: the writers that have a
reservation, and the files that have no record yet. -/
def DataNode.committed (cfg : Config) (s : DataNode) : Nat :=
  s.usedBytes + s.awaited cfg + s.unindexed

/-- The files whose writers failed after they were in place. -/
def DataNode.lost (s : DataNode) : Nat := s.abandoned.total Object.size

/-- The files on the disk, without those that are damaged and have no record. -/
def DataNode.contents (s : DataNode) : Nat :=
  (s.objects.total fun o =>
      if o.intact = true ∨ s.blocks.get o.block ≠ none then o.size else 0) +
    s.quarantine.total Quarantined.storedSize

/-- What is right about one block. -/
structure Sound (cfg : Config) (s : DataNode) (b : Nat) : Prop where
  /-- While the process serves, a file without a record is that of a writer, or abandoned. -/
  owned : s.serving = true → ∀ o, s.objects.get b = some o → s.Unindexed o →
    s.phase b = some .persisted ∨ s.abandoned.get b ≠ none
  size : ∀ r, s.blocks.get b = some r → r.storedSize = (cfg.content b).stored
  file : ∀ o, s.objects.get b = some o → o.size = (cfg.content b).stored
  loss : ∀ o, s.abandoned.get b = some o → o.size = (cfg.content b).stored
  /-- Who has taken the file away has left none. -/
  gone : s.phase b = some .aside ∨ s.phase b = some .unlinked → s.objects.get b = none
  /-- Who has put the file in place has it there. -/
  present : s.phase b = some .persisted →
    s.objects.get b = some ⟨b, (cfg.content b).stored, true⟩

/-- **What keeps a DataNode within its quota.** -/
structure Accounted (cfg : Config) (s : DataNode) : Prop where
  /-- A reservation is that of a writer that has yet to leave. -/
  reserved : s.reserved = s.charged cfg
  committed : s.committed cfg ≤ cfg.capacityBytes + s.lost
  /-- What was read inside `reserve` is, with the reservation, not less than what is there now. -/
  guarded : ∀ m, s.guard = some m → s.phase m.block = some .entered ∧
    s.committed cfg ≤ m.usedBytes + s.reserved + s.lost
  stopped : s.serving = false → s.guard = none ∧ s.jobs = Table.empty
  sound : ∀ b, Sound cfg s b

variable {cfg : Config} {s t : DataNode}

/-! ## Writers -/

theorem jobs_get {b : Nat} {p : Phase} (h : s.phase b = some p) : s.jobs.get b = some ⟨b, p⟩ := by
  obtain ⟨j, hj, rfl⟩ := Option.map_eq_some_iff.mp h
  have hkey : j.block = b := Table.key_of_get hj
  rw [hj, ← hkey]

theorem jobs_get_none {b : Nat} (h : s.phase b = none) : s.jobs.get b = none :=
  Option.map_eq_none_iff.mp h

theorem phase_goes (s : DataNode) (b k : Nat) (p : Phase) :
    (s.goes b p).phase k = if k = b then some p else s.phase k := by
  have hput := s.jobs.get_put ⟨b, p⟩ k
  change ((s.jobs.put ⟨b, p⟩).get k).map Job.phase = _
  rw [hput]
  change (if k = b then _ else _ : Option Job).map Job.phase = _
  by_cases hk : k = b
  · simp [hk]
  · simp [hk, DataNode.phase]

theorem phase_ends (s : DataNode) (b k : Nat) :
    (s.ends b).phase k = if k = b then none else s.phase k := by
  change ((s.jobs.delete b).get k).map Job.phase = _
  rw [Table.get_delete]
  by_cases hk : k = b
  · simp [hk]
  · simp [hk, DataNode.phase]

/-- **A writer goes on**: what it counts is replaced. -/
theorem held_goes (cfg : Config) (s : DataNode) (counts : Phase → Bool) (b : Nat) (p : Phase) :
    (s.goes b p).held cfg counts + (s.phase b).elim 0 (share cfg counts b) =
      s.held cfg counts + share cfg counts b p := by
  have hput := s.jobs.total_put ⟨b, p⟩ fun j => share cfg counts j.block j.phase
  refine Eq.trans ?_ hput
  cases hphase : s.phase b with
  | none =>
      have hget : s.jobs.get (Keyed.key (⟨b, p⟩ : Job)) = none := jobs_get_none hphase
      rw [hget]
      rfl
  | some q =>
      have hget : s.jobs.get (Keyed.key (⟨b, p⟩ : Job)) = some ⟨b, q⟩ := jobs_get hphase
      rw [hget]
      rfl

/-- **A writer leaves**: it counts no more. -/
theorem held_ends (cfg : Config) (s : DataNode) (counts : Phase → Bool) (b : Nat) :
    (s.ends b).held cfg counts + (s.phase b).elim 0 (share cfg counts b) = s.held cfg counts := by
  have hdelete := s.jobs.total_delete b fun j => share cfg counts j.block j.phase
  change (s.jobs.delete b).total _ + _ = s.jobs.total _
  rw [← hdelete]
  cases hphase : s.phase b with
  | none =>
      rw [jobs_get_none hphase]
      rfl
  | some q =>
      rw [jobs_get hphase]
      rfl

/-- A writer that has no reservation goes on without one. -/
theorem held_goes_free (cfg : Config) {b : Nat} {p : Phase}
    (hold : ∀ q, s.phase b = some q → charging q = false)
    (hnew : charging p = false) :
    (s.goes b p).charged cfg = s.charged cfg ∧ (s.goes b p).awaited cfg = s.awaited cfg := by
  have hcharged := held_goes cfg s charging b p
  have hawaited := held_goes cfg s awaiting b p
  have hwait := awaiting_of_charging hnew
  cases hp : s.phase b with
  | none =>
      simp only [hp, Option.elim_none, share, hnew, hwait, Bool.false_eq_true, if_false]
        at hcharged hawaited
      exact ⟨hcharged, hawaited⟩
  | some q =>
      have hq := hold q hp
      simp only [hp, Option.elim_some, share, hnew, hwait, hq, awaiting_of_charging hq,
        Bool.false_eq_true, if_false] at hcharged hawaited
      exact ⟨hcharged, hawaited⟩

/-- A writer that has no reservation leaves. -/
theorem held_ends_free (cfg : Config) {b : Nat}
    (hold : ∀ q, s.phase b = some q → charging q = false) :
    (s.ends b).charged cfg = s.charged cfg ∧ (s.ends b).awaited cfg = s.awaited cfg := by
  have hcharged := held_ends cfg s charging b
  have hawaited := held_ends cfg s awaiting b
  cases hp : s.phase b with
  | none =>
      simp only [hp, Option.elim_none] at hcharged hawaited
      exact ⟨hcharged, hawaited⟩
  | some q =>
      have hq := hold q hp
      simp only [hp, Option.elim_some, share, hq, awaiting_of_charging hq, Bool.false_eq_true,
        if_false] at hcharged hawaited
      exact ⟨hcharged, hawaited⟩

/-- Who has a reservation counts in it. -/
theorem awaited_le_charged (s : DataNode) : s.awaited cfg ≤ s.charged cfg := by
  refine Table.total_le fun b j hj _ => ⟨j, hj, ?_⟩
  cases hphase : j.phase <;> simp [share, awaiting, charging]

/-! ## Files and records -/

/-- What the file of a block counts that no record is about. -/
def DataNode.loose (s : DataNode) (b : Nat) : Nat :=
  (s.objects.get b).elim 0 fun o => if s.Unindexed o then o.size else 0

/-- **Another record for one block.** -/
theorem unindexed_blocks {blocks : Table Stored} {b : Nat}
    (h : ∀ k, k ≠ b → blocks.get k = s.blocks.get k) :
    ({ s with blocks := blocks } : DataNode).unindexed + s.loose b =
      s.unindexed + ({ s with blocks := blocks } : DataNode).loose b := by
  refine Table.total_change s.objects b fun o ho => ?_
  have hget : blocks.get o.block = s.blocks.get o.block := h o.block ho
  exact if_congr (by simp only [DataNode.Unindexed, hget]) rfl rfl

/-- **Another file for one block.** -/
theorem unindexed_put (s : DataNode) (o : Object) :
    ({ s with objects := s.objects.put o } : DataNode).unindexed + s.loose o.block =
      s.unindexed + if s.Unindexed o then o.size else 0 :=
  s.objects.total_put o fun o => if s.Unindexed o then o.size else 0

/-- **One file less.** -/
theorem unindexed_delete (s : DataNode) (b : Nat) :
    ({ s with objects := s.objects.delete b } : DataNode).unindexed + s.loose b = s.unindexed :=
  s.objects.total_delete b fun o => if s.Unindexed o then o.size else 0

/-- **A record is written** about a file that is there: what is used and what has no record are
together what they were. -/
theorem indexed {b : Nat} {r : Stored} {o : Object} (hkey : r.block = b)
    (ho : s.objects.get b = some o) (hintact : o.intact = true) (hsize : r.storedSize = o.size)
    (hold : ∀ x, s.blocks.get b = some x → x.storedSize = o.size) :
    ({ s with blocks := s.blocks.put r } : DataNode).usedBytes +
      ({ s with blocks := s.blocks.put r } : DataNode).unindexed = s.usedBytes + s.unindexed := by
  subst hkey
  have hblock : o.block = r.block := Table.key_of_get ho
  have hput : (s.blocks.put r).total Stored.storedSize +
      (s.blocks.get r.block).elim 0 Stored.storedSize =
        s.blocks.total Stored.storedSize + r.storedSize := s.blocks.total_put r _
  have hblocks := @unindexed_blocks s (s.blocks.put r) r.block
    fun k hk => s.blocks.get_put_of_ne hk
  have hself : (s.blocks.put r).get r.block = some r := s.blocks.get_put_self r
  have hnew : ({ s with blocks := s.blocks.put r } : DataNode).loose r.block = 0 := by
    simp [DataNode.loose, DataNode.Unindexed, ho, hblock, hself]
  have hwas : s.loose r.block + (s.blocks.get r.block).elim 0 Stored.storedSize = o.size := by
    cases hget : s.blocks.get r.block with
    | none => simp [DataNode.loose, DataNode.Unindexed, ho, hblock, hget, hintact]
    | some x => simp [DataNode.loose, DataNode.Unindexed, ho, hblock, hget, hold x hget]
  simp only [DataNode.usedBytes]
  omega

/-- **A record is removed** whose file is not there. -/
theorem unindexed_forget {b : Nat} (hgone : s.objects.get b = none) :
    ({ s with blocks := s.blocks.delete b } : DataNode).unindexed = s.unindexed := by
  have hblocks := @unindexed_blocks s (s.blocks.delete b) b
    fun k hk => s.blocks.get_delete_of_ne hk
  simpa [DataNode.loose, hgone] using hblocks

/-! ## One block -/

/-- A step is about one block. -/
structure Apart (b : Nat) (s t : DataNode) : Prop where
  phase : ∀ k, k ≠ b → t.phase k = s.phase k
  blocks : ∀ k, k ≠ b → t.blocks.get k = s.blocks.get k
  objects : ∀ k, k ≠ b → t.objects.get k = s.objects.get k
  abandoned : ∀ k, k ≠ b → t.abandoned.get k = s.abandoned.get k
  serving : t.serving = s.serving

/-- What is right about the other blocks stays so. -/
theorem Sound.apart {b k : Nat} (h : Sound cfg s k) (ha : Apart b s t) (hk : k ≠ b) :
    Sound cfg t k where
  owned hserving o ho hfree := by
    rw [ha.objects k hk] at ho
    have hblock : o.block = k := Table.key_of_get ho
    have hold : s.Unindexed o := by
      refine ⟨hfree.1, ?_⟩
      have hnone := hfree.2
      rwa [hblock, ha.blocks k hk, ← hblock] at hnone
    rw [ha.phase k hk, ha.abandoned k hk]
    exact h.owned (ha.serving.symm.trans hserving) o ho hold
  size r hr := h.size r ((ha.blocks k hk).symm.trans hr)
  file o ho := h.file o ((ha.objects k hk).symm.trans ho)
  loss o ho := h.loss o ((ha.abandoned k hk).symm.trans ho)
  gone hp := by
    rw [ha.phase k hk] at hp
    rw [ha.objects k hk]
    exact h.gone hp
  present hp := by
    rw [ha.phase k hk] at hp
    rw [ha.objects k hk]
    exact h.present hp

/-- Who is writing is in a process that serves. -/
theorem Accounted.serving (h : Accounted cfg s) {b : Nat} {p : Phase} (hp : s.phase b = some p) :
    s.serving = true := by
  by_contra hserving
  have hjobs := (h.stopped (by simpa using hserving)).2
  simp [DataNode.phase, hjobs] at hp

/-- **A step about one block keeps the account**: what is committed does not grow, and the
reservation stays as it is while somebody compares. -/
theorem Accounted.apart {b : Nat} (h : Accounted cfg s) (ha : Apart b s t)
    (hreserved : t.reserved = t.charged cfg) (hcommitted : t.committed cfg ≤ s.committed cfg)
    (hlost : s.lost ≤ t.lost)
    (hguard : t.guard = s.guard) (hheld : s.guard = none ∨ t.reserved = s.reserved)
    (hinside : ∀ m, s.guard = some m → m.block = b → t.phase b = some .entered)
    (hjobs : s.serving = false → t.jobs = s.jobs) (hsound : Sound cfg t b) :
    Accounted cfg t where
  reserved := hreserved
  committed := by
    have := h.committed
    omega
  guarded m hm := by
    rw [hguard] at hm
    obtain ⟨hphase, hle⟩ := h.guarded m hm
    constructor
    · by_cases hb : m.block = b
      · rw [hb]
        exact hinside m hm hb
      · rw [ha.phase _ hb, hphase]
    · have hsame : t.reserved = s.reserved := by
        rcases hheld with hnone | hsame
        · simp [hnone] at hm
        · exact hsame
      omega
  stopped hserving := by
    have hold : s.serving = false := ha.serving.symm.trans hserving
    rw [hguard, hjobs hold]
    exact h.stopped hold
  sound k := by
    by_cases hk : k = b
    · rw [hk]
      exact hsound
    · exact (h.sound k).apart ha hk

/-! ## Steps about one block -/

/-- A writer goes on, or its block changes. -/
theorem Apart.of_goes (s : DataNode) (b : Nat) (p : Phase) : Apart b s (s.goes b p) where
  phase k hk := (phase_goes s b k p).trans (if_neg hk)
  blocks _ _ := rfl
  objects _ _ := rfl
  abandoned _ _ := rfl
  serving := rfl

theorem Apart.of_ends (s : DataNode) (b : Nat) : Apart b s (s.ends b) where
  phase k hk := (phase_ends s b k).trans (if_neg hk)
  blocks _ _ := rfl
  objects _ _ := rfl
  abandoned _ _ := rfl
  serving := rfl

theorem phase_goes_self (s : DataNode) (b : Nat) (p : Phase) : (s.goes b p).phase b = some p := by
  rw [phase_goes, if_pos rfl]

theorem phase_ends_self (s : DataNode) (b : Nat) : (s.ends b).phase b = none := by
  rw [phase_ends, if_pos rfl]

/-- What is right about a block whose writer has no file in place and has taken none away. -/
theorem Sound.calm {b : Nat} (h : Sound cfg s b) (hserving : t.serving = s.serving)
    (hobjects : t.objects.get b = s.objects.get b)
    (habandoned : t.abandoned.get b = s.abandoned.get b)
    (hblocks : s.blocks.get b ≠ none → t.blocks.get b ≠ none)
    (hsize : ∀ r, t.blocks.get b = some r → r.storedSize = (cfg.content b).stored)
    (hold : s.phase b ≠ some .persisted) (hpersisted : t.phase b ≠ some .persisted)
    (haside : t.phase b ≠ some .aside) (hunlinked : t.phase b ≠ some .unlinked) :
    Sound cfg t b where
  owned ht o ho hfree := by
    rw [hobjects] at ho
    have hblock : o.block = b := Table.key_of_get ho
    have hwas : s.Unindexed o := by
      refine ⟨hfree.1, ?_⟩
      by_contra hsome
      rw [hblock] at hsome
      have hnone := hfree.2
      rw [hblock] at hnone
      exact hblocks hsome hnone
    rcases h.owned (hserving.symm.trans ht) o ho hwas with hp | hlost
    · exact absurd hp hold
    · rw [habandoned]
      exact Or.inr hlost
  size := hsize
  file o ho := h.file o (hobjects.symm.trans ho)
  loss o ho := h.loss o (habandoned.symm.trans ho)
  gone hp := by
    rcases hp with hp | hp
    · exact absurd hp haside
    · exact absurd hp hunlinked
  present hp := absurd hp hpersisted

/-- What is committed, in its parts. -/
theorem committed_eq (s : DataNode) : s.committed cfg =
    s.blocks.total Stored.storedSize + s.quarantine.total Quarantined.storedSize +
      s.held cfg awaiting + s.unindexed := rfl

/-- A writer enters. -/
theorem Accounted.enter (h : Accounted cfg s) {b : Nat} (hserving : s.serving = true)
    (hp : s.phase b = none) : Accounted cfg (s.goes b .entered) := by
  obtain ⟨hcharged, hawaited⟩ := held_goes_free cfg (s := s) (b := b) (p := .entered)
    (by simp [hp]) rfl
  have hself := phase_goes_self s b .entered
  refine h.apart (Apart.of_goes s b .entered) (h.reserved.trans hcharged.symm) ?_ le_rfl rfl
    (Or.inr rfl) (fun _ _ _ => hself) ?_ ?_
  · change s.usedBytes + (s.goes b .entered).awaited cfg + s.unindexed ≤
      s.usedBytes + s.awaited cfg + s.unindexed
    omega
  · intro hno
    rw [hserving] at hno
    exact absurd hno (by simp)
  · refine (h.sound b).calm rfl rfl rfl id (h.sound b).size ?_ ?_ ?_ ?_ <;> simp [hp, hself]

/-- A writer without a reservation leaves. -/
theorem Accounted.leave (h : Accounted cfg s) {b : Nat} {p : Phase} (hp : s.phase b = some p)
    (hfree : charging p = false) (hguard : s.guard.map Metrics.block ≠ some b) :
    Accounted cfg (s.ends b) := by
  obtain ⟨hcharged, hawaited⟩ := held_ends_free cfg (s := s) (b := b)
    fun q hq => by rwa [← Option.some.inj (hp.symm.trans hq)]
  have hself := phase_ends_self s b
  refine h.apart (Apart.of_ends s b) (h.reserved.trans hcharged.symm) ?_ le_rfl rfl
    (Or.inr rfl) ?_ ?_ ?_
  · change s.usedBytes + (s.ends b).awaited cfg + s.unindexed ≤
      s.usedBytes + s.awaited cfg + s.unindexed
    omega
  · intro m hm hb
    exact absurd (by rw [hm, ← hb]; rfl) hguard
  · intro hno
    rw [h.serving hp] at hno
    exact absurd hno (by simp)
  · refine (h.sound b).calm rfl rfl rfl id (h.sound b).size ?_ ?_ ?_ ?_
    · rw [hp]
      cases p <;> simp_all [charging]
    all_goals simp [hself]

/-- The reservation is given back. -/
theorem Accounted.giveBack (h : Accounted cfg s) {b : Nat} {p : Phase} (hp : s.phase b = some p)
    (hcharge : charging p = true) (hplace : p ≠ .persisted) (hguard : s.guard = none) :
    Accounted cfg ((s.giveBack cfg b).ends b) := by
  have hcharged := held_ends cfg s charging b
  have hawaited := held_ends cfg s awaiting b
  simp only [hp, Option.elim_some, share, hcharge, if_true] at hcharged hawaited
  have hself := phase_ends_self s b
  have hreserved := h.reserved
  have ha : Apart b s ((s.giveBack cfg b).ends b) :=
    ⟨(Apart.of_ends s b).phase, fun _ _ => rfl, fun _ _ => rfl, fun _ _ => rfl, rfl⟩
  refine h.apart ha ?_ ?_ le_rfl rfl (Or.inl hguard) ?_ ?_ ?_
  · have hsame : ((s.giveBack cfg b).ends b).charged cfg = (s.ends b).held cfg charging := rfl
    have hleft : ((s.giveBack cfg b).ends b).reserved = s.reserved - (cfg.content b).cost := rfl
    have hold : s.charged cfg = s.held cfg charging := rfl
    omega
  · have hsame : ((s.giveBack cfg b).ends b).committed cfg =
        s.usedBytes + (s.ends b).held cfg awaiting + s.unindexed := rfl
    have hold : s.committed cfg = s.usedBytes + s.held cfg awaiting + s.unindexed := rfl
    omega
  · intro m hm
    simp [hguard] at hm
  · intro hno
    rw [h.serving hp] at hno
    exact absurd hno (by simp)
  · refine (h.sound b).calm rfl rfl rfl id (h.sound b).size ?_ ?_ ?_ ?_
    · rw [hp]
      simpa using hplace
    all_goals
      intro hno
      have hnone : ((s.giveBack cfg b).ends b).phase b = none := hself
      rw [hnone] at hno
      exact absurd hno (by simp)

/-- The file is put in its place. -/
theorem Accounted.persist (h : Accounted cfg s) {b : Nat} (hp : s.phase b = some .reserved) :
    Accounted cfg { s.goes b .persisted with
      objects := s.objects.put ⟨b, (cfg.content b).stored, true⟩ } := by
  have hcharged := held_goes cfg s charging b .persisted
  have hawaited := held_goes cfg s awaiting b .persisted
  simp only [hp, Option.elim_some, share, charging, awaiting, Bool.false_eq_true, if_false,
    if_true] at hcharged hawaited
  have hfiles := unindexed_put s ⟨b, (cfg.content b).stored, true⟩
  have hself := phase_goes_self s b .persisted
  have hput := s.objects.get_put_self ⟨b, (cfg.content b).stored, true⟩
  have hb := h.sound b
  refine h.apart ⟨(Apart.of_goes s b .persisted).phase, fun _ _ => rfl, ?_, fun _ _ => rfl, rfl⟩
    ?_ ?_ le_rfl rfl (Or.inr rfl) ?_ ?_ ⟨?_, hb.size, ?_, hb.loss, ?_, ?_⟩
  · intro k hk
    exact s.objects.get_put_of_ne hk
  · have hold : s.charged cfg = s.held cfg charging := rfl
    have hreserved := h.reserved
    change s.reserved = (s.goes b .persisted).held cfg charging
    omega
  · change s.usedBytes + (s.goes b .persisted).held cfg awaiting +
      ({ s with objects := s.objects.put ⟨b, (cfg.content b).stored, true⟩ } : DataNode).unindexed
        ≤ s.usedBytes + s.held cfg awaiting + s.unindexed
    have hle := (cfg.content b).stored_le
    have hshare : (if s.Unindexed ⟨b, (cfg.content b).stored, true⟩ then
        (cfg.content b).stored else 0) ≤ (cfg.content b).stored := by
      split <;> simp
    have hshare' : (if s.Unindexed ⟨b, (cfg.content b).stored, true⟩ then
        (⟨b, (cfg.content b).stored, true⟩ : Object).size else 0) ≤ (cfg.content b).stored := hshare
    omega
  · intro m hm hb
    obtain ⟨hentered, -⟩ := h.guarded m hm
    rw [hb, hp] at hentered
    exact absurd hentered (by simp)
  · intro hno
    rw [h.serving hp] at hno
    exact absurd hno (by simp)
  · exact fun _ _ _ _ => Or.inl hself
  · intro o ho
    rw [← Option.some.inj (hput.symm.trans ho)]
  · intro hgone
    rw [show ({ s.goes b .persisted with
      objects := s.objects.put ⟨b, (cfg.content b).stored, true⟩ } : DataNode).phase b =
        some .persisted from hself] at hgone
    simp at hgone
  · exact fun _ => hput

/-- The record of a file is written. -/
theorem Accounted.record (h : Accounted cfg s) {b : Nat} (receipt : Nat)
    (hp : s.phase b = some .persisted) :
    Accounted cfg { s.goes b .recorded with
      blocks := s.blocks.put ⟨b, receipt, (cfg.content b).stored⟩ } := by
  have hcharged := held_goes cfg s charging b .recorded
  have hawaited := held_goes cfg s awaiting b .recorded
  simp only [hp, Option.elim_some, share, charging, awaiting, Bool.false_eq_true, if_false,
    if_true] at hcharged hawaited
  have hself := phase_goes_self s b .recorded
  have hb := h.sound b
  have hobject := hb.present hp
  have hput := s.blocks.get_put_self ⟨b, receipt, (cfg.content b).stored⟩
  have hindexed := indexed (s := s) (r := ⟨b, receipt, (cfg.content b).stored⟩) rfl hobject rfl rfl
    hb.size
  refine h.apart ⟨(Apart.of_goes s b .recorded).phase, ?_, fun _ _ => rfl, fun _ _ => rfl, rfl⟩
    ?_ ?_ le_rfl rfl (Or.inr rfl) ?_ ?_ ⟨?_, ?_, hb.file, hb.loss, ?_, ?_⟩
  · intro k hk
    exact s.blocks.get_put_of_ne hk
  · have hold : s.charged cfg = s.held cfg charging := rfl
    have hreserved := h.reserved
    change s.reserved = (s.goes b .recorded).held cfg charging
    omega
  · change ({ s with blocks := s.blocks.put ⟨b, receipt, (cfg.content b).stored⟩ } :
        DataNode).usedBytes + (s.goes b .recorded).held cfg awaiting +
      ({ s with blocks := s.blocks.put ⟨b, receipt, (cfg.content b).stored⟩ } :
        DataNode).unindexed ≤ s.usedBytes + s.held cfg awaiting + s.unindexed
    omega
  · intro m hm hb
    obtain ⟨hentered, -⟩ := h.guarded m hm
    rw [hb, hp] at hentered
    exact absurd hentered (by simp)
  · intro hno
    rw [h.serving hp] at hno
    exact absurd hno (by simp)
  · intro _ o ho hfree
    have hblock : o.block = b := Table.key_of_get ho
    have hnone := hfree.2
    rw [hblock] at hnone
    exact absurd (hnone.symm.trans hput) (by simp)
  · intro r hr
    rw [← Option.some.inj (hput.symm.trans hr)]
  · intro hgone
    rw [show ({ s.goes b .recorded with
      blocks := s.blocks.put ⟨b, receipt, (cfg.content b).stored⟩ } : DataNode).phase b =
        some .recorded from hself] at hgone
    simp at hgone
  · intro hno
    exact absurd (hself.symm.trans hno) (by simp)

/-- A writer fails that has put its file in place. -/
theorem Accounted.abandon (h : Accounted cfg s) {b : Nat} (hp : s.phase b = some .persisted)
    (hguard : s.guard = none) :
    Accounted cfg { (s.giveBack cfg b).ends b with
      abandoned := s.abandoned.put ⟨b, (cfg.content b).stored, true⟩ } := by
  have hcharged := held_ends cfg s charging b
  have hawaited := held_ends cfg s awaiting b
  simp only [hp, Option.elim_some, share, charging, awaiting, Bool.false_eq_true, if_false,
    if_true] at hcharged hawaited
  have hself := phase_ends_self s b
  have hb := h.sound b
  have hput := s.abandoned.get_put_self ⟨b, (cfg.content b).stored, true⟩
  have hlost := s.abandoned.total_put ⟨b, (cfg.content b).stored, true⟩ Object.size
  have hbefore : (s.abandoned.get (Keyed.key (⟨b, (cfg.content b).stored, true⟩ : Object))).elim 0
      Object.size ≤ (cfg.content b).stored := by
    change (s.abandoned.get b).elim 0 Object.size ≤ _
    cases hget : s.abandoned.get b with
    | none => exact Nat.zero_le _
    | some o => exact (hb.loss o hget).le
  refine h.apart ⟨(Apart.of_ends s b).phase, fun _ _ => rfl, fun _ _ => rfl, ?_, rfl⟩
    ?_ ?_ ?_ rfl (Or.inl hguard) ?_ ?_ ⟨?_, hb.size, hb.file, ?_, ?_, ?_⟩
  · intro k hk
    exact s.abandoned.get_put_of_ne hk
  · have hold : s.charged cfg = s.held cfg charging := rfl
    have hreserved := h.reserved
    change s.reserved - (cfg.content b).cost = (s.ends b).held cfg charging
    omega
  · change s.usedBytes + (s.ends b).held cfg awaiting + s.unindexed ≤
      s.usedBytes + s.held cfg awaiting + s.unindexed
    omega
  · change s.abandoned.total Object.size ≤ (s.abandoned.put _).total Object.size
    change _ = _ + (cfg.content b).stored at hlost
    omega
  · intro m hm
    simp [hguard] at hm
  · intro hno
    rw [h.serving hp] at hno
    exact absurd hno (by simp)
  · intro _ _ _ _
    refine Or.inr fun hno => ?_
    exact absurd (hput.symm.trans hno) (by simp)
  · intro o ho
    rw [← Option.some.inj (hput.symm.trans ho)]
  · intro hgone
    rcases hgone with hno | hno
    all_goals exact absurd (hself.symm.trans hno) (by simp)
  · intro hno
    exact absurd (hself.symm.trans hno) (by simp)

/-- A block gets a new receipt. -/
theorem Accounted.renew (h : Accounted cfg s) {b : Nat} {r : Stored} (receipt : Nat)
    (hr : s.blocks.get b = some r) (hp : s.phase b = some .entered) :
    Accounted cfg { s with blocks := s.blocks.put { r with receipt := receipt } } := by
  have hkey : r.block = b := Table.key_of_get hr
  subst hkey
  have hb := h.sound r.block
  have hget : (s.blocks.put { r with receipt := receipt }).get r.block =
      some { r with receipt := receipt } := s.blocks.get_put_self { r with receipt := receipt }
  have hused := s.blocks.total_put { r with receipt := receipt } Stored.storedSize
  change _ + (s.blocks.get r.block).elim 0 Stored.storedSize = _ + r.storedSize at hused
  rw [hr, Option.elim_some] at hused
  have hloose := @unindexed_blocks s (s.blocks.put { r with receipt := receipt }) r.block
    fun k hk => s.blocks.get_put_of_ne hk
  have hshare : ({ s with blocks := s.blocks.put { r with receipt := receipt } } :
      DataNode).loose r.block = 0 := by
    cases ho : s.objects.get r.block with
    | none => simp [DataNode.loose, ho]
    | some o =>
        have hblock : o.block = r.block := Table.key_of_get ho
        simp [DataNode.loose, DataNode.Unindexed, ho, hblock, hget]
  refine h.apart ⟨fun _ _ => rfl, ?_, fun _ _ => rfl, fun _ _ => rfl, rfl⟩ h.reserved ?_ le_rfl
    rfl (Or.inr rfl) (fun _ _ _ => hp) (fun _ => rfl) ?_
  · intro k hk
    exact s.blocks.get_put_of_ne hk
  · simp only [committed_eq]
    have hheld : ({ s with blocks := s.blocks.put { r with receipt := receipt } } :
        DataNode).held cfg awaiting = s.held cfg awaiting := rfl
    omega
  · refine hb.calm rfl rfl rfl ?_ ?_ ?_ ?_ ?_ ?_
    · intro _ hno
      exact absurd (hget.symm.trans hno) (by simp)
    · intro x hx
      rw [← Option.some.inj (hget.symm.trans hx)]
      exact hb.size r hr
    · simp [hp]
    all_goals
      intro hno
      exact absurd (hp.symm.trans hno) (by simp)

/-- A writer takes the file of its block away. -/
theorem Accounted.takeAway (h : Accounted cfg s) {b : Nat} {p : Phase}
    (hp : s.phase b = some .entered) (hnew : p = .aside ∨ p = .unlinked)
    (hguard : s.guard.map Metrics.block ≠ some b) :
    Accounted cfg { s.goes b p with objects := s.objects.delete b } := by
  have hfree : charging p = false := by rcases hnew with rfl | rfl <;> rfl
  obtain ⟨hcharged, hawaited⟩ := held_goes_free cfg (s := s) (b := b) (p := p)
    (fun q hq => by rw [← Option.some.inj (hp.symm.trans hq)]; rfl) hfree
  have hself := phase_goes_self s b p
  have hb := h.sound b
  have hnone : (s.objects.delete b).get b = none := s.objects.get_delete_self b
  have hfiles := unindexed_delete s b
  refine h.apart ⟨(Apart.of_goes s b p).phase, fun _ _ => rfl, ?_, fun _ _ => rfl, rfl⟩
    (h.reserved.trans hcharged.symm) ?_ le_rfl rfl (Or.inr rfl) ?_ ?_
    ⟨?_, hb.size, ?_, hb.loss, fun _ => hnone, ?_⟩
  · intro k hk
    exact s.objects.get_delete_of_ne hk
  · change s.usedBytes + (s.goes b p).awaited cfg +
      ({ s with objects := s.objects.delete b } : DataNode).unindexed ≤
        s.usedBytes + s.awaited cfg + s.unindexed
    omega
  · intro m hm hb
    exact absurd (by rw [hm, ← hb]; rfl) hguard
  · intro hno
    rw [h.serving hp] at hno
    exact absurd hno (by simp)
  · intro _ o ho
    exact absurd (hnone.symm.trans ho) (by simp)
  · intro o ho
    exact absurd (hnone.symm.trans ho) (by simp)
  · intro hno
    have hpersisted := Option.some.inj (hself.symm.trans hno)
    rcases hnew with rfl | rfl <;> simp at hpersisted

/-- The records of a block move to the quarantine. -/
theorem Accounted.quarantine (h : Accounted cfg s) {b : Nat} {r : Stored}
    (hr : s.blocks.get b = some r) (hp : s.phase b = some .aside) :
    Accounted cfg { s.goes b .entered with
      quarantine := s.quarantine.put ⟨r.receipt, r.storedSize⟩
      blocks := s.blocks.delete b } := by
  obtain ⟨hcharged, hawaited⟩ := held_goes_free cfg (s := s) (b := b) (p := .entered)
    (fun q hq => by rw [← Option.some.inj (hp.symm.trans hq)]; rfl) rfl
  have hself := phase_goes_self s b .entered
  have hb := h.sound b
  have hgone := hb.gone (Or.inl hp)
  have hdelete := s.blocks.total_delete b Stored.storedSize
  rw [hr, Option.elim_some] at hdelete
  have hput := s.quarantine.total_put ⟨r.receipt, r.storedSize⟩ Quarantined.storedSize
  have hfiles := unindexed_forget hgone
  refine h.apart ⟨(Apart.of_goes s b .entered).phase, ?_, fun _ _ => rfl, fun _ _ => rfl, rfl⟩
    (h.reserved.trans hcharged.symm) ?_ le_rfl rfl (Or.inr rfl) (fun _ _ _ => hself) ?_
    ⟨?_, ?_, hb.file, hb.loss, fun _ => hgone, ?_⟩
  · intro k hk
    exact s.blocks.get_delete_of_ne hk
  · change (s.blocks.delete b).total Stored.storedSize +
      (s.quarantine.put ⟨r.receipt, r.storedSize⟩).total Quarantined.storedSize +
      (s.goes b .entered).awaited cfg +
      ({ s with blocks := s.blocks.delete b } : DataNode).unindexed ≤
        s.blocks.total Stored.storedSize + s.quarantine.total Quarantined.storedSize +
          s.awaited cfg + s.unindexed
    change _ = _ + r.storedSize at hput
    omega
  · intro hno
    rw [h.serving hp] at hno
    exact absurd hno (by simp)
  · intro _ o ho
    exact absurd (hgone.symm.trans ho) (by simp)
  · intro x hx
    exact absurd ((s.blocks.get_delete_self b).symm.trans hx) (by simp)
  · intro hno
    exact absurd (hself.symm.trans hno) (by simp)

/-- The record of a block is removed, and its writer leaves. -/
theorem Accounted.forget (h : Accounted cfg s) {b : Nat} (hp : s.phase b = some .unlinked) :
    Accounted cfg { s.ends b with blocks := s.blocks.delete b } := by
  obtain ⟨hcharged, hawaited⟩ := held_ends_free cfg (s := s) (b := b)
    fun q hq => by rw [← Option.some.inj (hp.symm.trans hq)]; rfl
  have hself := phase_ends_self s b
  have hb := h.sound b
  have hgone := hb.gone (Or.inr hp)
  have hdelete := s.blocks.total_delete b Stored.storedSize
  have hfiles := unindexed_forget hgone
  refine h.apart ⟨(Apart.of_ends s b).phase, ?_, fun _ _ => rfl, fun _ _ => rfl, rfl⟩
    (h.reserved.trans hcharged.symm) ?_ le_rfl rfl (Or.inr rfl) ?_ ?_
    ⟨?_, ?_, hb.file, hb.loss, fun _ => hgone, ?_⟩
  · intro k hk
    exact s.blocks.get_delete_of_ne hk
  · change (s.blocks.delete b).total Stored.storedSize +
      s.quarantine.total Quarantined.storedSize + (s.ends b).awaited cfg +
      ({ s with blocks := s.blocks.delete b } : DataNode).unindexed ≤
        s.blocks.total Stored.storedSize + s.quarantine.total Quarantined.storedSize +
          s.awaited cfg + s.unindexed
    omega
  · intro m hm hb
    obtain ⟨hentered, -⟩ := h.guarded m hm
    rw [hb, hp] at hentered
    exact absurd hentered (by simp)
  · intro hno
    rw [h.serving hp] at hno
    exact absurd hno (by simp)
  · intro _ o ho
    exact absurd (hgone.symm.trans ho) (by simp)
  · intro x hx
    exact absurd ((s.blocks.get_delete_self b).symm.trans hx) (by simp)
  · intro hno
    exact absurd (hself.symm.trans hno) (by simp)

/-- A file is damaged. -/
theorem Accounted.rot (h : Accounted cfg s) {b : Nat} {o : Object} (ho : s.objects.get b = some o)
    (hp : s.phase b ≠ some .persisted) :
    Accounted cfg { s with objects := s.objects.put { o with intact := false } } := by
  have hkey : o.block = b := Table.key_of_get ho
  subst hkey
  have hb := h.sound o.block
  have hput : (s.objects.put { o with intact := false }).get o.block =
      some { o with intact := false } := s.objects.get_put_self { o with intact := false }
  have hfiles := unindexed_put s { o with intact := false }
  have hdamaged : ¬ s.Unindexed { o with intact := false } := by
    intro hno
    simp [DataNode.Unindexed] at hno
  rw [if_neg hdamaged] at hfiles
  refine h.apart ⟨fun _ _ => rfl, fun _ _ => rfl, ?_, fun _ _ => rfl, rfl⟩ h.reserved ?_ le_rfl
    rfl (Or.inr rfl) ?_ (fun _ => rfl) ⟨?_, hb.size, ?_, hb.loss, ?_, ?_⟩
  · intro k hk
    exact s.objects.get_put_of_ne hk
  · change s.usedBytes + s.awaited cfg +
      ({ s with objects := s.objects.put { o with intact := false } } : DataNode).unindexed ≤
        s.usedBytes + s.awaited cfg + s.unindexed
    omega
  · intro m hm hblock
    rw [← hblock]
    exact (h.guarded m hm).1
  · intro _ x hx hfree
    have hx' := Option.some.inj (hput.symm.trans hx)
    rw [← hx'] at hfree
    exact absurd hfree.1 (by simp)
  · intro x hx
    rw [← Option.some.inj (hput.symm.trans hx)]
    exact hb.file o ho
  · intro hgone
    exact absurd ((hb.gone hgone).symm.trans ho) (by simp)
  · intro hno
    exact absurd hno hp

/-- A start takes up a file. -/
theorem Accounted.takeUp (h : Accounted cfg s) {b : Nat} {o : Object} (receipt : Nat)
    (ho : s.objects.get b = some o) (hserving : s.serving = false) (hfree : s.Unindexed o) :
    Accounted cfg { s with blocks := s.blocks.put ⟨b, receipt, o.size⟩ } := by
  have hblock : o.block = b := Table.key_of_get ho
  have hb := h.sound b
  have hnone : s.blocks.get b = none := hblock ▸ hfree.2
  have hput := s.blocks.get_put_self ⟨b, receipt, o.size⟩
  have hindexed := indexed (s := s) (r := ⟨b, receipt, o.size⟩) rfl ho hfree.1 rfl
    (by simp [hnone])
  have hidle : ∀ k, s.phase k = none := fun k => by
    simp [DataNode.phase, (h.stopped hserving).2]
  refine h.apart ⟨fun _ _ => rfl, ?_, fun _ _ => rfl, fun _ _ => rfl, rfl⟩ h.reserved ?_ le_rfl
    rfl (Or.inr rfl) ?_ (fun _ => rfl) ⟨?_, ?_, hb.file, hb.loss, ?_, ?_⟩
  · intro k hk
    exact s.blocks.get_put_of_ne hk
  · change ({ s with blocks := s.blocks.put ⟨b, receipt, o.size⟩ } : DataNode).usedBytes +
        s.awaited cfg +
      ({ s with blocks := s.blocks.put ⟨b, receipt, o.size⟩ } : DataNode).unindexed ≤
        s.usedBytes + s.awaited cfg + s.unindexed
    omega
  · intro m hm
    simp [(h.stopped hserving).1] at hm
  · intro hno
    exact absurd (hserving.symm.trans hno) (by simp)
  · intro x hx
    rw [← Option.some.inj (hput.symm.trans hx)]
    exact hb.file o ho
  · intro hno
    rcases hno with hno | hno
    all_goals exact absurd ((hidle b).symm.trans hno) (by simp)
  · intro hno
    exact absurd ((hidle b).symm.trans hno) (by simp)

/-! ## The other steps -/

/-- **What a writer reads inside `reserve` is enough**: a file without a record is that of a writer
that still has its reservation, or abandoned. -/
theorem Accounted.unindexed_le (h : Accounted cfg s) (hserving : s.serving = true) :
    s.awaited cfg + s.unindexed ≤ s.charged cfg + s.lost := by
  let placed : Job → Nat := fun j => if j.phase = .persisted then (cfg.content j.block).cost else 0
  have hunindexed : s.unindexed ≤ s.jobs.total placed + s.abandoned.total Object.size := by
    refine Table.total_le_add fun b o ho => ?_
    by_cases hfree : s.Unindexed o
    · rw [if_pos hfree, (h.sound b).file o ho]
      rcases (h.sound b).owned hserving o ho hfree with hp | hlost
      · have hle := (cfg.content b).stored_le
        simp only [jobs_get hp, Option.elim_some, placed, if_true]
        omega
      · obtain ⟨x, hx⟩ := Option.ne_none_iff_exists'.mp hlost
        rw [hx, Option.elim_some, (h.sound b).loss x hx]
        omega
    · rw [if_neg hfree]
      exact Nat.zero_le _
  have hcharged : s.awaited cfg + s.jobs.total placed ≤ s.charged cfg := by
    have hadd := s.jobs.total_add (fun j => share cfg awaiting j.block j.phase) placed
    refine le_trans (le_of_eq hadd.symm) (Table.total_le fun b j hj _ => ⟨j, hj, ?_⟩)
    cases hphase : j.phase <;> simp [placed, share, awaiting, charging, hphase]
  have hlost : s.lost = s.abandoned.total Object.size := rfl
  omega

/-- The metrics are read. -/
theorem Accounted.measure (h : Accounted cfg s) {b : Nat} (free : Nat)
    (hp : s.phase b = some .entered) :
    Accounted cfg { s with guard := some ⟨b, s.usedBytes, free⟩ } where
  reserved := h.reserved
  committed := h.committed
  guarded m hm := by
    have hm' := Option.some.inj hm
    subst hm'
    refine ⟨hp, ?_⟩
    have hle := h.unindexed_le (h.serving hp)
    have hreserved := h.reserved
    change s.usedBytes + s.awaited cfg + s.unindexed ≤ s.usedBytes + s.reserved + s.lost
    omega
  stopped hno := by
    rw [h.serving hp] at hno
    exact absurd hno (by simp)
  sound k := ⟨(h.sound k).owned, (h.sound k).size, (h.sound k).file, (h.sound k).loss,
    (h.sound k).gone, (h.sound k).present⟩

/-- **What fits is reserved.** -/
theorem Accounted.reserve (h : Accounted cfg s) {m : Metrics} (hm : s.guard = some m) :
    Accounted cfg (reserve cfg s m) := by
  obtain ⟨hp, hle⟩ := h.guarded m hm
  have hserving := h.serving hp
  have hreserved := h.reserved
  have hb := h.sound m.block
  simp only [Quota.reserve]
  split
  · next hfits =>
      have hcharged := held_goes cfg s charging m.block .reserved
      have hawaited := held_goes cfg s awaiting m.block .reserved
      simp only [hp, Option.elim_some, share, charging, awaiting, Bool.false_eq_true, if_false,
        if_true] at hcharged hawaited
      have hself := phase_goes_self s m.block .reserved
      have ha := Apart.of_goes s m.block .reserved
      refine ⟨?_, ?_, ?_, ?_, fun k => ?_⟩
      · change s.reserved + (cfg.content m.block).cost = (s.goes m.block .reserved).held cfg charging
        change s.reserved = s.held cfg charging at hreserved
        omega
      · change s.usedBytes + (s.goes m.block .reserved).held cfg awaiting + s.unindexed ≤
          cfg.capacityBytes + s.lost
        change s.usedBytes + s.held cfg awaiting + s.unindexed ≤ _ at hle
        omega
      · exact fun _ hno => absurd hno (by simp)
      · intro hno
        exact absurd (hserving.symm.trans hno) (by simp)
      · by_cases hk : k = m.block
        · rw [hk]
          refine hb.calm rfl rfl rfl id hb.size (by simp [hp]) ?_ ?_ ?_
          all_goals
            intro hno
            exact absurd (hself.symm.trans hno) (by simp)
        · exact (h.sound k).apart ⟨ha.phase, ha.blocks, ha.objects, ha.abandoned, ha.serving⟩ hk
  · obtain ⟨hcharged, hawaited⟩ := held_ends_free cfg (s := s) (b := m.block)
      fun q hq => by rw [← Option.some.inj (hp.symm.trans hq)]; rfl
    have hself := phase_ends_self s m.block
    have ha := Apart.of_ends s m.block
    have hcommitted := h.committed
    refine ⟨hreserved.trans hcharged.symm, ?_, ?_, ?_, fun k => ?_⟩
    · change s.usedBytes + (s.ends m.block).awaited cfg + s.unindexed ≤ cfg.capacityBytes + s.lost
      change s.usedBytes + s.awaited cfg + s.unindexed ≤ _ at hcommitted
      omega
    · exact fun _ hno => absurd hno (by simp)
    · intro hno
      exact absurd (hserving.symm.trans hno) (by simp)
    · by_cases hk : k = m.block
      · rw [hk]
        refine hb.calm rfl rfl rfl id hb.size (by simp [hp]) ?_ ?_ ?_
        all_goals
          intro hno
          exact absurd (hself.symm.trans hno) (by simp)
      · exact (h.sound k).apart ⟨ha.phase, ha.blocks, ha.objects, ha.abandoned, ha.serving⟩ hk

/-- The process ends: who was writing has left its files. -/
theorem Accounted.crash (h : Accounted cfg s) :
    Accounted cfg { s with reserved := 0, guard := none, jobs := Table.empty, serving := false } := by
  refine ⟨rfl, ?_, ?_, fun _ => ⟨rfl, rfl⟩, fun k => ?_⟩
  · have hcommitted := h.committed
    change s.usedBytes + s.awaited cfg + s.unindexed ≤ _ at hcommitted
    change s.usedBytes + 0 + s.unindexed ≤ cfg.capacityBytes + s.lost
    omega
  · exact fun _ hno => absurd hno (by simp)
  · have hk := h.sound k
    refine ⟨fun hno => absurd hno (by simp), hk.size, hk.file, hk.loss, ?_, ?_⟩
    · intro hno
      rcases hno with hno | hno <;> exact absurd hno (by simp [DataNode.phase])
    · exact fun hno => absurd hno (by simp [DataNode.phase])

/-- The process serves: no file is without a record. -/
theorem Accounted.start (h : Accounted cfg s) (hserving : s.serving = false)
    (hall : ∀ o ∈ s.objects.all, ¬ s.Unindexed o) :
    Accounted cfg { s with serving := true } := by
  refine ⟨h.reserved, h.committed, ?_, fun hno => absurd hno (by simp), fun k => ?_⟩
  · intro m hm
    exact absurd hm (by simp [(h.stopped hserving).1])
  · have hk := h.sound k
    refine ⟨?_, hk.size, hk.file, hk.loss, hk.gone, hk.present⟩
    intro _ o ho hfree
    exact absurd hfree (hall o (Table.mem_of_get ho))

theorem Accounted.empty : Accounted cfg DataNode.empty := by
  refine ⟨rfl, Nat.zero_le _, ?_, fun _ => ⟨rfl, rfl⟩, fun k => ?_⟩
  · exact fun _ hno => absurd hno (by simp [DataNode.empty])
  · refine ⟨fun hno => absurd hno (by simp [DataNode.empty]), ?_, ?_, ?_, ?_, ?_⟩
    all_goals simp [DataNode.empty, DataNode.phase]

/-! ## Runs -/

/-- **Each step keeps the account.** -/
theorem Accounted.step (h : Accounted cfg s) {a : Action} (hstep : step cfg s a = some t) :
    Accounted cfg t := by
  cases a with
  | enter b =>
      obtain ⟨⟨hserving, hp⟩, hsome⟩ := Option.ite_none_right_eq_some.mp hstep
      rw [← Option.some.inj hsome]
      exact h.enter hserving hp
  | measure b free =>
      obtain ⟨⟨hp, -⟩, hsome⟩ := Option.ite_none_right_eq_some.mp hstep
      rw [← Option.some.inj hsome]
      exact h.measure free hp
  | reserve =>
      obtain ⟨m, hm, rfl⟩ := Option.map_eq_some_iff.mp hstep
      exact h.reserve hm
  | fail b =>
      obtain ⟨⟨hp, hguard⟩, hsome⟩ := Option.ite_none_right_eq_some.mp hstep
      rw [← Option.some.inj hsome]
      exact h.giveBack hp rfl (by simp) hguard
  | persist b =>
      obtain ⟨⟨hp, -⟩, hsome⟩ := Option.ite_none_right_eq_some.mp hstep
      rw [← Option.some.inj hsome]
      exact h.persist hp
  | record b receipt =>
      obtain ⟨hp, hsome⟩ := Option.ite_none_right_eq_some.mp hstep
      rw [← Option.some.inj hsome]
      exact h.record receipt hp
  | abandon b =>
      obtain ⟨⟨hp, hguard⟩, hsome⟩ := Option.ite_none_right_eq_some.mp hstep
      rw [← Option.some.inj hsome]
      exact h.abandon hp hguard
  | release b =>
      obtain ⟨⟨hp, hguard⟩, hsome⟩ := Option.ite_none_right_eq_some.mp hstep
      rw [← Option.some.inj hsome]
      exact h.giveBack hp rfl (by simp) hguard
  | renew b receipt =>
      simp only [Quota.step] at hstep
      split at hstep
      · exact absurd hstep (by simp)
      · next r hr =>
          obtain ⟨⟨hp, -⟩, hsome⟩ := Option.ite_none_right_eq_some.mp hstep
          rw [← Option.some.inj hsome]
          exact h.renew receipt hr hp
  | setAside b =>
      obtain ⟨⟨hp, hguard, -⟩, hsome⟩ := Option.ite_none_right_eq_some.mp hstep
      rw [← Option.some.inj hsome]
      exact h.takeAway hp (Or.inl rfl) hguard
  | quarantine b =>
      simp only [Quota.step] at hstep
      split at hstep
      · exact absurd hstep (by simp)
      · next r hr =>
          obtain ⟨hp, hsome⟩ := Option.ite_none_right_eq_some.mp hstep
          rw [← Option.some.inj hsome]
          exact h.quarantine hr hp
  | unlink b =>
      obtain ⟨⟨hp, hguard⟩, hsome⟩ := Option.ite_none_right_eq_some.mp hstep
      rw [← Option.some.inj hsome]
      exact h.takeAway hp (Or.inr rfl) hguard
  | forget b =>
      obtain ⟨hp, hsome⟩ := Option.ite_none_right_eq_some.mp hstep
      rw [← Option.some.inj hsome]
      exact h.forget hp
  | leave b =>
      obtain ⟨⟨hp, hguard⟩, hsome⟩ := Option.ite_none_right_eq_some.mp hstep
      rw [← Option.some.inj hsome]
      rcases hp with hp | hp | hp
      all_goals exact h.leave hp rfl hguard
  | rot b =>
      simp only [Quota.step] at hstep
      split at hstep
      · exact absurd hstep (by simp)
      · next o ho =>
          split at hstep
          · exact absurd hstep (by simp)
          · next hp =>
              rw [← Option.some.inj hstep]
              exact h.rot ho hp
  | crash =>
      rw [← Option.some.inj hstep]
      exact h.crash
  | takeUp b receipt =>
      simp only [Quota.step] at hstep
      split at hstep
      · exact absurd hstep (by simp)
      · next o ho =>
          obtain ⟨⟨hserving, hfree⟩, hsome⟩ := Option.ite_none_right_eq_some.mp hstep
          rw [← Option.some.inj hsome]
          exact h.takeUp receipt ho hserving hfree
  | start =>
      obtain ⟨⟨hserving, hall⟩, hsome⟩ := Option.ite_none_right_eq_some.mp hstep
      rw [← Option.some.inj hsome]
      exact h.start hserving hall

/-- So every state that is reached keeps it. -/
theorem Reachable.accounted (h : Reachable cfg s) : Accounted cfg s := by
  induction h with
  | refl => exact Accounted.empty
  | tail _ hstep ih =>
      obtain ⟨a, ha⟩ := hstep
      exact ih.step ha

/-- The files take what is used, and what has no record yet. -/
theorem Accounted.contents_le (h : Accounted cfg s) :
    s.contents ≤ s.usedBytes + s.unindexed := by
  have hfiles : (s.objects.total fun o =>
      if o.intact = true ∨ s.blocks.get o.block ≠ none then o.size else 0) ≤
        s.blocks.total Stored.storedSize +
          s.objects.total fun o => if s.Unindexed o then o.size else 0 := by
    refine Table.total_le_add fun b o ho => ?_
    have hblock : o.block = b := Table.key_of_get ho
    rw [ho, Option.elim_some]
    cases hr : s.blocks.get b with
    | none => simp [DataNode.Unindexed, hblock, hr]
    | some r => simp [hblock, hr, (h.sound b).size r hr, (h.sound b).file o ho]
  unfold DataNode.contents DataNode.usedBytes DataNode.unindexed
  omega

/-- **The quota**, in every state that a DataNode comes to, with writers at any place between the
steps of the others, through crashes and restarts.  What is used and what has been granted keep to
the capacity, but for the files of writers that failed between their file and its record; so do
the files themselves; and a reservation is that of writers that have yet to leave, so that none is
left when all have left. -/
theorem quota_kept (h : Reachable cfg s) :
    s.usedBytes + s.awaited cfg + s.unindexed ≤ cfg.capacityBytes + s.lost ∧
      s.contents ≤ cfg.capacityBytes + s.lost ∧
      s.reserved = s.charged cfg ∧ (s.jobs = Table.empty → s.reserved = 0) := by
  have ha := h.accounted
  have hcommitted := ha.committed
  have hcontents := ha.contents_le
  change s.usedBytes + s.awaited cfg + s.unindexed ≤ _ at hcommitted
  refine ⟨hcommitted, by omega, ha.reserved, ?_⟩
  intro hjobs
  rw [ha.reserved, DataNode.charged, DataNode.held, hjobs, Table.total_empty]

/-- A run of given actions. -/
def steps (cfg : Config) : List Action → DataNode → Option DataNode
  | [], s => some s
  | a :: l, s => (step cfg s a).bind (steps cfg l)

theorem steps_reachable {l : List Action} :
    ∀ {s t : DataNode}, Reachable cfg s → steps cfg l s = some t → Reachable cfg t := by
  induction l with
  | nil =>
      intro s t h hsteps
      rwa [← Option.some.inj hsteps]
  | cons a l ih =>
      intro s t h hsteps
      obtain ⟨u, hu, ht⟩ := Option.bind_eq_some_iff.mp hsteps
      exact ih (h.tail ⟨a, hu⟩) ht

/-- Two blocks fit. -/
def smallConfig : Config := ⟨8240, fun _ => Content.of 4 300 (by decide)⟩

/-- The second writer compares figures that the record of the first has made obsolete; the process
ends before its own record is written, and the next start takes its file up. -/
def smallRun : List Action :=
  [.start, .enter 1, .measure 1 9000000, .reserve, .enter 2, .measure 2 9000000, .persist 1,
    .record 1 11, .reserve, .persist 2, .release 1, .crash, .takeUp 2 12, .start, .enter 1,
    .setAside 1, .quarantine 1]

theorem small_quota : ∃ s : DataNode, s.blocks.all.length = 1 ∧ s.quarantine.all.length = 1 ∧
    s.usedBytes + s.awaited smallConfig + s.unindexed ≤ smallConfig.capacityBytes + s.lost ∧
      s.contents ≤ smallConfig.capacityBytes + s.lost ∧
      s.reserved = s.charged smallConfig ∧ (s.jobs = Table.empty → s.reserved = 0) := by
  have hrun : (steps smallConfig smallRun DataNode.empty).any (fun s =>
      s.blocks.all.length = 1 ∧ s.quarantine.all.length = 1) = true := by decide +kernel
  obtain ⟨s, hs, hsizes⟩ := (Option.any_eq_true _ _).mp hrun
  have hsizes' := of_decide_eq_true hsizes
  exact ⟨s, hsizes'.1, hsizes'.2, quota_kept (steps_reachable Relation.ReflTransGen.refl hs)⟩

end Dfsha.Quota
