import Dfsha.World
import Mathlib.Data.List.Sort

/-!
# The lease authority

Locks and handles are leases: records with a deadline on the monotonic clock, given
under the epoch of one run of the control.  Whoever holds a `Fence` can prove which
acquisition it came from.

Every reading of the clock is a statement of its own, so `acquire` judges each lock
of the table a little later than the one before it.
-/

namespace Dfsha

variable (app : App)

/-- `checked_range`: the end of a range, if it fits. -/
def checkedRange (offset length : Nat) (maximum : Option Nat) : Q Nat := do
  need (offset ≤ maxOffset ∧ length ≤ maxOffset - offset) .invalidArgument
  need (∀ m ∈ maximum, length ≤ m) .limitExceeded
  pure (offset + length)

@[simp] theorem checkedRange_ok {offset length : Nat} {maximum : Option Nat} {w : World} {e : Nat} :
    (checkedRange offset length maximum) w = .ok e ↔
      (offset ≤ maxOffset ∧ length ≤ maxOffset - offset) ∧ (∀ m ∈ maximum, length ≤ m) ∧
        e = offset + length := by
  simp [checkedRange, @eq_comm _ e]

/-- `leases.epoch`. -/
def leaseEpoch : Q Id := do
  let a ← access
  deref a.epoch

/-- The wall-clock time a deadline would be at, as both `expiry_hint` and `message` say it. -/
def expiryHint (deadline : Nat) : Q Nat := do
  let a ← access
  pure (a.now + (deadline - a.time) / 1000000)

/-- The epoch and the longest life a handle gets when it is opened. -/
def startHandle (h : Handle) : T Handle := do
  let epoch ← leaseEpoch
  let t ← clock
  pure { h with controlEpoch := some epoch, maximum := t + 86400000000000 }

/-- `refresh_handle`. -/
def refreshHandle (h : Handle) (initial : Bool) : T Handle := do
  let h ← (if initial = true then startHandle h else pure h)
  let t ← clock
  let h := { h with deadline := min (t + app.handleLease) h.maximum }
  let hint ← expiryHint h.deadline
  pure { h with expires := hint }

/-- Who asks for a lock: a handle, or an operation that locks a whole file. -/
structure Owner where
  id : Id
  file : Id
  session : Id
  deriving DecidableEq, Repr

/-- A handle as the owner of its locks. -/
def Handle.owner (h : Handle) : Owner := ⟨h.id, h.file, h.session⟩

/-- The owner of a lock. -/
def Lock.owner (l : Lock) : Owner := ⟨l.handle, l.file, l.session⟩

/-- Two requests for locks of one file exclude each other. -/
def conflicts (indices : List Nat) (whole size : Bool) (l : Lock) : Prop :=
  whole = true ∨ l.whole = true ∨ (size = true ∧ l.size = true) ∨ ∃ i ∈ indices, i ∈ l.indices

instance (indices : List Nat) (whole size : Bool) (l : Lock) :
    Decidable (conflicts indices whole size l) :=
  inferInstanceAs (Decidable (_ ∨ _ ∨ _ ∨ ∃ i ∈ indices, _))

/-- `SQLiteLeaseAuthority.acquire`. -/
def acquire (owner : Owner) (indices : List Nat) (whole size automatic : Bool) : T Lock := do
  let indices := (indices.dedup).insertionSort (· ≤ ·)
  let a ← access
  Tx.each a.locks.all fun lock => do
    let a ← access
    need (a.liveLock lock → lock.file = owner.file →
      (lock.session, lock.handle) ≠ (owner.session, owner.id) →
        ¬ conflicts indices whole size lock) .lockConflict
  onAccess fun a => { a with lockSequence := a.lockSequence + 1 }
  let a ← access
  let epoch ← leaseEpoch
  let id ← draw app
  let t ← clock
  let lock : Lock :=
    { id := id, handle := owner.id, file := owner.file, session := owner.session,
      generation := a.lockSequence, controlEpoch := epoch, indices := indices, whole := whole,
      size := size, automatic := automatic, lease := a.lockSequence, active := [],
      deadline := t + app.lockLease }
  putLock lock
  pure lock

/-- `message`: the fence of a lock. -/
def message (l : Lock) : Q Fence := do
  let epoch ← leaseEpoch
  let hint ← expiryHint l.deadline
  pure
    { lockId := l.id, handleId := l.handle, serviceEpoch := epoch, generation := l.generation,
      leaseId := l.lease, blockIndices := l.indices, wholeFile := l.whole,
      includesSize := l.size, expiresAtUnixMs := hint }

/-- `validate`: the lock a fence was issued for, if it is still held. -/
def validate (session : Session) (fence : Fence) : Q Lock := do
  let a ← access
  let lock ← needSome (a.locks.get fence.lockId) .lockExpired
  need (lock.session = session.id ∧ lock.handle = fence.handleId) .permissionDenied
  let epoch ← leaseEpoch
  need (a.liveLock lock ∧ fence.serviceEpoch = epoch ∧ fence.generation = lock.generation ∧
    fence.leaseId = lock.lease) .lockExpired
  let expected ← message lock
  need (expected.bare = fence.bare) .permissionDenied
  pure lock

/-- `release_operation`: an operation that ended lets go of its locks and its handle. -/
def releaseOperation (op : Operation) : T Unit := do
  Tx.each op.locks fun identity => do
    let a ← access
    match a.locks.get identity with
    | none => pure ()
    | some lock =>
        if op.id ∈ lock.active then
          if lock.automatic = true then deleteLock identity
          else putLock { lock with active := lock.active.erase op.id }
        else pure ()
  let a ← access
  match a.handles.get op.handle with
  | none => pure ()
  | some handle =>
      if handle.busy = some op.id then putHandle { handle with busy := none } else pure ()

/-! ## What validation checks -/

/-- The fence is the one of this lock: everything but the advisory expiry agrees. -/
def Fence.matchesLock (f : Fence) (l : Lock) : Prop :=
  f.lockId = l.id ∧ f.handleId = l.handle ∧ f.serviceEpoch = l.controlEpoch ∧
    f.generation = l.generation ∧ f.leaseId = l.lease ∧ f.blockIndices = l.indices ∧
    f.wholeFile = l.whole ∧ f.includesSize = l.size

@[simp] theorem leaseEpoch_ok {w : World} {e : Id} :
    leaseEpoch w = .ok e ↔ w.access.epoch = some e := by
  simp [leaseEpoch, access]

@[simp] theorem expiryHint_ok {d n : Nat} {w : World} :
    (expiryHint d) w = .ok n ↔
      w.access.now + (d - w.access.time) / 1000000 = n := by
  simp [expiryHint, access]

/-- The message of a lock, but for its expiry, says what the lock says. -/
theorem message_ok {l : Lock} {w : World} {f : Fence} (h : (message l) w = .ok f) :
    f.lockId = l.id ∧ f.handleId = l.handle ∧ w.access.epoch = some f.serviceEpoch ∧
      f.generation = l.generation ∧ f.leaseId = l.lease ∧ f.blockIndices = l.indices ∧
      f.wholeFile = l.whole ∧ f.includesSize = l.size := by
  simp only [message, Query.bind_ok, leaseEpoch_ok, expiryHint_ok, Query.pure_ok] at h
  obtain ⟨e, he, _, -, rfl⟩ := h
  exact ⟨rfl, rfl, he, rfl, rfl, rfl, rfl, rfl⟩

/-- **What `validate` guarantees**: the lock is stored, live, the session's own, and
the fence is its fence. -/
theorem validate_ok {s : Session} {f : Fence} {w : World} {l : Lock}
    (h : (validate s f) w = .ok l) :
    w.access.locks.get f.lockId = some l ∧ l.session = s.id ∧ w.access.liveLock l ∧
      f.matchesLock l := by
  simp only [validate, access, Query.bind_ok, Query.read_ok, needSome_ok, need_ok, leaseEpoch_ok,
    Query.pure_ok] at h
  obtain ⟨a, rfl, l', hget, _, ⟨hs, hh⟩, e, he, _, ⟨hlive, hse, hgen, hlease⟩, m, hm, _, hbare,
    rfl⟩ := h
  obtain ⟨h1, h2, h3, h4, h5, h6, h7, h8⟩ := message_ok hm
  have hepoch : some l'.controlEpoch = w.access.epoch := hlive.2.1
  have hb : m.blockIndices = f.blockIndices ∧ m.wholeFile = f.wholeFile ∧
      m.includesSize = f.includesSize := by
    simp only [Fence.bare, Fence.mk.injEq] at hbare
    tauto
  refine ⟨hget, hs, hlive, (Table.key_of_get hget).symm, hh.symm, ?_, hgen, hlease,
    hb.1 ▸ h6, hb.2.1 ▸ h7, hb.2.2 ▸ h8⟩
  rw [he] at hepoch
  exact hse.trans (Option.some.inj hepoch).symm

end Dfsha
