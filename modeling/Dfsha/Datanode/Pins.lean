import Dfsha.Domain
import Dfsha.Lib.Program
import Dfsha.Lib.Table
import Mathlib.Data.Finset.Insert
import Mathlib.Data.Finset.Erase
import Mathlib.Logic.Relation

/-!
# Pins

Whoever uses the file of a block pins it: readers share a block, a writer has it alone.  The store
counts the holders of each block, and keeps a set of the blocks that have a writer.  Each exit takes
its block out of this set, of a reader as of a writer, so that the set is right only because a
writer is never inside together with somebody else.

## Main definitions

* `Pins` — the two tables of a store.
* `enter`, `leave` — the two halves of `pin`.
* `Site` — a store, and who is inside; `Site.Step` is one of them entering or leaving.
* `Pins.sweeps` — the files that `collect` removes.

## Main results

* `Exact` — the tables say who is inside.
* `pins_exact` — so they do in every state that is reached.
* `sweeps_unused` — what `collect` removes is in nobody's use.
-/

namespace Dfsha.Pin

variable {κ : Type} [LinearOrder κ]

/-- An entry of `active`. -/
structure Active (κ : Type) where
  block : κ
  count : Int
  deriving DecidableEq, Repr

instance : Keyed (Active κ) κ := ⟨Active.block⟩

/-- `active` and `writers`. -/
structure Pins (κ : Type) [LinearOrder κ] where
  active : Table (Active κ)
  writers : Finset κ

/-- The tables of a store that nobody uses. -/
def Pins.empty : Pins κ := ⟨Table.empty, ∅⟩

abbrev P (κ : Type) [LinearOrder κ] := Prog (Pins κ) Failure

/-! ## Entering and leaving -/

/-- `self.active.get(block_id, 0)`. -/
def Pins.count (s : Pins κ) (b : κ) : Int := ((s.active.get b).map Active.count).getD 0

/-- Who asks for a block may have it. -/
def Pins.Admits (s : Pins κ) (b : κ) (exclusive : Bool) : Prop :=
  b ∉ s.writers ∧ (exclusive = false ∨ s.active.get b = none)

instance (s : Pins κ) (b : κ) (exclusive : Bool) : Decidable (s.Admits b exclusive) :=
  inferInstanceAs (Decidable (_ ∧ _))

/-- The first half of `pin`. -/
def enter (b : κ) (exclusive : Bool) : P κ Unit := do
  let s ← Prog.reads id
  (if s.Admits b exclusive then pure () else Prog.raise (.fault .lockBusy))
  Prog.modify fun s => { s with active := s.active.put ⟨b, s.count b + 1⟩ }
  if exclusive = true then Prog.modify fun s => { s with writers := insert b s.writers }
  else pure ()

/-- The second half of `pin`. -/
def leave (b : κ) : P κ Unit := do
  let s ← Prog.reads id
  match s.active.get b with
  | none => Prog.raise .crash
  | some a => do
      Prog.modify fun s => { s with active := s.active.put ⟨b, a.count - 1⟩ }
      (if a.count - 1 = 0 then Prog.modify fun s => { s with active := s.active.delete b }
        else pure ())
      Prog.modify fun s => { s with writers := s.writers.erase b }

/-- Whether `collect` removes a file: those of the blocks in use and of the retained blocks stay,
and no file that is being written is removed while anybody is inside. -/
def Pins.sweeps (s : Pins κ) (retained : κ → Bool) (staging : Bool) (stem : κ) : Bool :=
  !(staging && !s.active.all.isEmpty) && !retained stem && (s.active.get stem).isNone

/-! ## Who is inside -/

/-- Somebody inside `pin`. -/
structure Holder (κ : Type) where
  block : κ
  exclusive : Bool
  deriving DecidableEq, Repr

/-- A store, and who is inside. -/
structure Site (κ : Type) [LinearOrder κ] where
  pins : Pins κ
  inside : List (Holder κ)

def Site.empty : Site κ := ⟨Pins.empty, []⟩

/-- How many are inside for a block. -/
def Site.holders (s : Site κ) (b : κ) : Nat := s.inside.countP fun h => h.block = b

/-- Somebody enters, is refused, or leaves. -/
inductive Site.Step : Site κ → Site κ → Prop
  | enter {s : Site κ} {p : Pins κ} {b : κ} {exclusive : Bool} :
      (Pin.enter b exclusive).run s.pins = (.ok (), p) → Step s ⟨p, ⟨b, exclusive⟩ :: s.inside⟩
  | refused {s : Site κ} {p : Pins κ} {b : κ} {exclusive : Bool} {e : Failure} :
      (Pin.enter b exclusive).run s.pins = (.error e, p) → Step s ⟨p, s.inside⟩
  | leave {s : Site κ} {p : Pins κ} {h : Holder κ} {r : Except Failure Unit} :
      h ∈ s.inside → (Pin.leave h.block).run s.pins = (r, p) → Step s ⟨p, s.inside.erase h⟩

/-- The tables of a store say who is inside. -/
structure Exact (s : Site κ) : Prop where
  active : ∀ b, s.pins.active.get b =
    if s.holders b = 0 then none else some ⟨b, (s.holders b : Int)⟩
  writers : ∀ b, b ∈ s.pins.writers ↔ ⟨b, true⟩ ∈ s.inside
  /-- A writer is alone. -/
  alone : ∀ b, ⟨b, true⟩ ∈ s.inside → s.holders b = 1

/-! ## Steps -/

theorem enter_run (s : Pins κ) (b : κ) (exclusive : Bool) :
    (enter b exclusive).run s =
      if s.Admits b exclusive then
        (.ok (), ⟨s.active.put ⟨b, s.count b + 1⟩,
          if exclusive = true then insert b s.writers else s.writers⟩)
      else (.error (.fault .lockBusy), s) := by
  have hrun : (enter b exclusive).run s =
      (((if s.Admits b exclusive then pure () else Prog.raise (.fault .lockBusy)) >>= fun _ =>
        Prog.modify (fun s => { s with active := s.active.put ⟨b, s.count b + 1⟩ }) >>= fun _ =>
        if exclusive = true then Prog.modify fun s => { s with writers := insert b s.writers }
        else pure () : P κ Unit)).run s := rfl
  by_cases h : s.Admits b exclusive
  · rw [hrun, if_pos h, if_pos h]
    cases exclusive <;> rfl
  · rw [hrun, if_neg h, if_neg h]
    rfl

theorem leave_run {s : Pins κ} {b : κ} {a : Active κ} (h : s.active.get b = some a) :
    (leave b).run s = (.ok (), ⟨if a.count - 1 = 0 then s.active.delete b
      else s.active.put ⟨b, a.count - 1⟩, s.writers.erase b⟩) := by
  have hrun : (leave b).run s = ((match s.active.get b with
      | none => Prog.raise .crash
      | some a =>
          Prog.modify (fun s => { s with active := s.active.put ⟨b, a.count - 1⟩ }) >>= fun _ =>
          (if a.count - 1 = 0 then Prog.modify fun s => { s with active := s.active.delete b }
            else pure ()) >>= fun _ =>
          Prog.modify fun s => { s with writers := s.writers.erase b } : P κ Unit)).run s := rfl
  rw [hrun, h]
  by_cases hzero : a.count - 1 = 0
  · simp only [hzero, if_pos]
    have hdelete : (s.active.put ⟨b, 0⟩).delete b = s.active.delete b := by
      refine Table.ext_get fun k => ?_
      rw [Table.get_delete, Table.get_delete, Table.get_put]
      by_cases hk : k = b
      · simp [hk]
      · have hne : k ≠ Keyed.key (⟨b, 0⟩ : Active κ) := hk
        simp [hk, hne]
    rw [← hdelete]
    rfl
  · simp only [hzero, if_false]
    rfl

theorem Site.holders_cons (p : Pins κ) (h : Holder κ) (l : List (Holder κ)) (b : κ) :
    (⟨p, h :: l⟩ : Site κ).holders b = (⟨p, l⟩ : Site κ).holders b + if h.block = b then 1 else 0 := by
  simp [Site.holders, List.countP_cons]

theorem Site.holders_pos {s : Site κ} {h : Holder κ} (hmem : h ∈ s.inside) :
    0 < s.holders h.block :=
  List.countP_pos_iff.mpr ⟨h, hmem, by simp⟩

/-- Who leaves is one less. -/
theorem Site.holders_erase {s : Site κ} {h : Holder κ} (hmem : h ∈ s.inside) (p : Pins κ) (b : κ) :
    (⟨p, s.inside.erase h⟩ : Site κ).holders b =
      s.holders b - if h.block = b then 1 else 0 := by
  simp [Site.holders, List.countP_erase, hmem]

theorem Exact.empty : Exact (Site.empty : Site κ) where
  active b := rfl
  writers b := by simp [Site.empty, Pins.empty]
  alone b h := by simp [Site.empty] at h

theorem Exact.count {s : Site κ} (h : Exact s) (b : κ) : s.pins.count b = s.holders b := by
  unfold Pins.count
  rw [h.active]
  by_cases hzero : s.holders b = 0
  · simp [hzero]
  · simp [hzero]

/-- **Who is admitted** finds no writer, and as a writer nobody. -/
theorem Exact.admits_iff {s : Site κ} (h : Exact s) {b : κ} {exclusive : Bool} :
    s.pins.Admits b exclusive ↔
      ⟨b, true⟩ ∉ s.inside ∧ (exclusive = true → s.holders b = 0) := by
  unfold Pins.Admits
  rw [h.writers, h.active]
  by_cases hzero : s.holders b = 0
  · simp [hzero]
  · simp [hzero]

/-- Somebody who is admitted enters. -/
theorem Exact.enter {s : Site κ} (h : Exact s) {b : κ} {exclusive : Bool}
    (hadmits : s.pins.Admits b exclusive) :
    Exact (⟨⟨s.pins.active.put ⟨b, s.pins.count b + 1⟩,
      if exclusive = true then insert b s.pins.writers else s.pins.writers⟩,
      ⟨b, exclusive⟩ :: s.inside⟩ : Site κ) := by
  obtain ⟨hwriter, hexclusive⟩ := h.admits_iff.mp hadmits
  constructor
  · intro k
    have hput := Table.get_put s.pins.active ⟨b, s.pins.count b + 1⟩ k
    rw [Site.holders_cons, hput, h.count]
    change (if k = b then _ else s.pins.active.get k) =
      if s.holders k + (if b = k then 1 else 0) = 0 then none
      else some ⟨k, ((s.holders k + (if b = k then 1 else 0) : Nat) : Int)⟩
    by_cases hk : k = b
    · simp [hk]
    · have hne : ¬ b = k := fun he => hk he.symm
      simp [hk, hne, h.active]
  · intro k
    cases exclusive with
    | false => simp [h.writers]
    | true => simp [h.writers]
  · intro k hk
    rw [Site.holders_cons]
    change s.holders k + (if b = k then 1 else 0) = 1
    by_cases hb : b = k
    · subst hb
      cases exclusive with
      | true => simp [hexclusive rfl]
      | false =>
          have hold : (⟨b, true⟩ : Holder κ) ∈ s.inside := by simpa using hk
          exact absurd hold hwriter
    · have hold : (⟨k, true⟩ : Holder κ) ∈ s.inside := by
        rcases List.mem_cons.mp hk with he | hold
        · exact absurd (congrArg Holder.block he).symm hb
        · exact hold
      simp [hb, h.alone k hold]

/-- Who is inside leaves. -/
theorem Exact.leave {s : Site κ} (h : Exact s) {x : Holder κ} (hx : x ∈ s.inside) :
    Exact (⟨⟨if (s.holders x.block : Int) - 1 = 0 then s.pins.active.delete x.block
      else s.pins.active.put ⟨x.block, (s.holders x.block : Int) - 1⟩,
      s.pins.writers.erase x.block⟩, s.inside.erase x⟩ : Site κ) := by
  have hpos := Site.holders_pos hx
  constructor
  · intro k
    rw [Site.holders_erase hx]
    by_cases hk : k = x.block
    · subst hk
      by_cases hone : s.holders x.block = 1
      · simp [hone]
      · have hmany : ¬ (s.holders x.block : Int) - 1 = 0 := by omega
        have hleft : ¬ s.holders x.block - 1 = 0 := by omega
        have hput := Table.get_put_self s.pins.active ⟨x.block, (s.holders x.block : Int) - 1⟩
        simp only [hmany, hleft, if_true, if_false]
        refine hput.trans ?_
        simp only [Option.some.injEq, Active.mk.injEq, true_and]
        omega
    · have hne : ¬ x.block = k := fun he => hk he.symm
      have hput := Table.get_put_of_ne s.pins.active
        (show k ≠ Keyed.key (⟨x.block, (s.holders x.block : Int) - 1⟩ : Active κ) from hk)
      have hdelete := Table.get_delete_of_ne s.pins.active hk
      simp only [hne, if_false, Nat.sub_zero, ← h.active]
      by_cases hone : (s.holders x.block : Int) - 1 = 0
      · simpa [hone] using hdelete
      · simpa [hone] using hput
  · intro k
    simp only [Finset.mem_erase, h.writers]
    constructor
    · rintro ⟨hne, hk⟩
      exact (List.mem_erase_of_ne fun he => hne (congrArg Holder.block he)).mpr hk
    · intro hk
      have hold := List.mem_of_mem_erase hk
      refine ⟨fun he => ?_, hold⟩
      -- a writer is the only holder of its block, so it is the one that left
      subst he
      have hleft := Site.holders_pos (s := ⟨s.pins, s.inside.erase x⟩) hk
      rw [Site.holders_erase hx, h.alone _ hold] at hleft
      simp at hleft
  · intro k hk
    have hold := List.mem_of_mem_erase hk
    have hleft := Site.holders_pos (s := ⟨s.pins, s.inside.erase x⟩) hk
    rw [Site.holders_erase hx]
    rw [Site.holders_erase hx] at hleft
    have hone := h.alone k hold
    simp only at hleft
    omega

/-- **A step keeps the tables exact.** -/
theorem Exact.step {s t : Site κ} (h : Exact s) (hstep : s.Step t) : Exact t := by
  cases hstep with
  | @enter p b exclusive hrun =>
      rw [enter_run] at hrun
      by_cases hadmits : s.pins.Admits b exclusive
      · rw [if_pos hadmits, Prod.mk.injEq] at hrun
        exact hrun.2 ▸ h.enter hadmits
      · rw [if_neg hadmits, Prod.mk.injEq] at hrun
        cases hrun.1
  | @refused p b exclusive e hrun =>
      rw [enter_run] at hrun
      by_cases hadmits : s.pins.Admits b exclusive
      · rw [if_pos hadmits, Prod.mk.injEq] at hrun
        cases hrun.1
      · rw [if_neg hadmits, Prod.mk.injEq] at hrun
        exact hrun.2 ▸ h
  | @leave p x r hx hrun =>
      have hget := h.active x.block
      rw [if_neg (Nat.pos_iff_ne_zero.mp (Site.holders_pos hx))] at hget
      rw [leave_run hget, Prod.mk.injEq] at hrun
      exact hrun.2 ▸ h.leave hx

/-- **The tables are exact in every state that is reached.** -/
theorem exact_of_run {s : Site κ} (h : Relation.ReflTransGen Site.Step Site.empty s) : Exact s := by
  induction h with
  | refl => exact Exact.empty
  | tail _ hstep ih => exact ih.step hstep

/-- **Pins.**  However holders enter and leave, `active` counts those inside for each block, and
`writers` has the blocks that one of them has for itself; a writer is alone.  Who is refused finds a
writer, or as a writer somebody, and changes nothing; who leaves does not fail. -/
theorem pins_exact {s : Site κ} (h : Relation.ReflTransGen Site.Step Site.empty s) (b : κ) :
    (s.pins.active.get b = if s.holders b = 0 then none else some ⟨b, (s.holders b : Int)⟩) ∧
      (b ∈ s.pins.writers ↔ ⟨b, true⟩ ∈ s.inside) ∧
      (⟨b, true⟩ ∈ s.inside → ∀ x ∈ s.inside.erase ⟨b, true⟩, x.block ≠ b) ∧
      (∀ exclusive e p, (enter b exclusive).run s.pins = (.error e, p) →
        e = .fault .lockBusy ∧ p = s.pins ∧
          (⟨b, true⟩ ∈ s.inside ∨ exclusive = true ∧ 0 < s.holders b)) ∧
      ∀ x ∈ s.inside, ∃ p, (leave x.block).run s.pins = (.ok (), p) := by
  have hexact := exact_of_run h
  refine ⟨hexact.active b, hexact.writers b, fun hwriter x hx he => ?_, fun exclusive e p hrun => ?_,
    fun x hx => ?_⟩
  · have hleft := Site.holders_pos (s := ⟨s.pins, s.inside.erase ⟨b, true⟩⟩) hx
    rw [Site.holders_erase hwriter, he, hexact.alone b hwriter] at hleft
    simp at hleft
  · rw [enter_run] at hrun
    by_cases hadmits : s.pins.Admits b exclusive
    · rw [if_pos hadmits, Prod.mk.injEq] at hrun
      cases hrun.1
    · rw [if_neg hadmits, Prod.mk.injEq] at hrun
      refine ⟨(Except.error.inj hrun.1).symm, hrun.2.symm, ?_⟩
      rw [hexact.admits_iff, not_and_or, not_not, Classical.not_imp] at hadmits
      exact hadmits.imp id fun hbusy => ⟨hbusy.1, Nat.pos_of_ne_zero hbusy.2⟩
  · have hget := hexact.active x.block
    rw [if_neg (Nat.pos_iff_ne_zero.mp (Site.holders_pos hx))] at hget
    exact ⟨_, leave_run hget⟩

/-- Two readers of a block. -/
theorem shared_pin : ∃ s : Site Nat, s.inside = [⟨7, false⟩, ⟨7, false⟩] ∧
    s.pins.active.get 7 = some ⟨7, 2⟩ ∧ 7 ∉ s.pins.writers := by
  have hfirst : Site.empty.Step ⟨((enter 7 false).run (Pins.empty : Pins Nat)).2, [⟨7, false⟩]⟩ :=
    .enter rfl
  obtain ⟨p, hp⟩ : ∃ p, (enter 7 false).run ((enter 7 false).run (Pins.empty : Pins Nat)).2 =
      (.ok (), p) := ⟨_, rfl⟩
  have hrun := (Relation.ReflTransGen.single hfirst).tail (.enter hp)
  obtain ⟨hactive, hwriters, -⟩ := pins_exact hrun 7
  exact ⟨_, rfl, hactive, fun hmem => by simpa using hwriters.mp hmem⟩

/-- **What `collect` removes is in nobody's use.** -/
theorem sweeps_unused {s : Site κ} (h : Relation.ReflTransGen Site.Step Site.empty s)
    {retained : κ → Bool} {staging : Bool} {stem : κ}
    (hsweeps : s.pins.sweeps retained staging stem = true) :
    s.holders stem = 0 ∧ (staging = true → s.inside = []) := by
  have hexact := exact_of_run h
  simp only [Pins.sweeps, Bool.and_eq_true, Bool.not_eq_true', Option.isNone_iff_eq_none] at hsweeps
  obtain ⟨⟨hstaging, -⟩, hnone⟩ := hsweeps
  constructor
  · by_contra hzero
    rw [hexact.active, if_neg hzero] at hnone
    cases hnone
  · intro hs
    subst hs
    have hempty : s.pins.active.all = [] := by simpa using hstaging
    cases hinside : s.inside with
    | nil => rfl
    | cons x l =>
        have hx : x ∈ s.inside := by simp [hinside]
        have hget := hexact.active x.block
        rw [if_neg (Nat.pos_iff_ne_zero.mp (Site.holders_pos hx))] at hget
        have hmem := Table.mem_of_get hget
        rw [hempty] at hmem
        cases hmem

end Dfsha.Pin
