import Mathlib.Algebra.Order.Ring.Nat
import Mathlib.Data.Prod.Lex
import Mathlib.Order.Basic
import Mathlib.Tactic.Common

/-!
# Keyed tables

A `Table ρ` is a finite set of records, at most one per key, listed in the order
of the keys.  It is the shape of one kind of object in a metadata store: `get` by
key, `put` that inserts or replaces, `delete`, and `all`, the records in key
order.  Sortedness is a field, so a table with two records for one key cannot be
built and `all` never needs a uniqueness argument.

## Main definitions

* `Keyed ρ κ` — the key of a record.
* `Table ρ` — the table, with `get`, `put`, `delete`, `all`.
* `get_put`, `get_delete`, `mem_all` — the three rules every proof goes through.
* `Grows R` — no record is lost, and each one changes as `R` allows.
-/

namespace Dfsha

universe u v

/-- The key under which a record is stored. -/
class Keyed (ρ : Type u) (κ : outParam (Type v)) where
  /-- The key of a record. -/
  key : ρ → κ

/-- Records sorted strictly by key. -/
structure Table (ρ : Type u) {κ : Type v} [Keyed ρ κ] [LinearOrder κ] where
  /-- The records, in the order of their keys. -/
  rows : List ρ
  /-- No key occurs twice, and the order is the order of the keys. -/
  sorted : rows.Pairwise fun a b => Keyed.key a < Keyed.key b

namespace Table

variable {ρ : Type u} {κ : Type v} [Keyed ρ κ] [LinearOrder κ]

instance [DecidableEq ρ] : DecidableEq (Table ρ) := fun t t' =>
  decidable_of_iff (t.rows = t'.rows) (by cases t; cases t'; simp)

/-- The record stored under a key. -/
def get (t : Table ρ) (k : κ) : Option ρ := t.rows.find? fun r => decide (Keyed.key r = k)

/-- Every record, in key order. -/
def all (t : Table ρ) : List ρ := t.rows

/-- The table without records. -/
def empty : Table ρ := ⟨[], List.Pairwise.nil⟩

/-- Insert a record at its place in a sorted list, replacing one of equal key. -/
def insertRow (r : ρ) : List ρ → List ρ
  | [] => [r]
  | a :: l =>
      if Keyed.key r < Keyed.key a then r :: a :: l
      else if Keyed.key r = Keyed.key a then r :: l
      else a :: insertRow r l

theorem mem_insertRow {r x : ρ} :
    ∀ {l : List ρ}, l.Pairwise (fun a b => Keyed.key a < Keyed.key b) →
      (x ∈ insertRow r l ↔ x = r ∨ (x ∈ l ∧ Keyed.key x ≠ Keyed.key r)) := by
  intro l
  induction l with
  | nil => intro _; simp [insertRow]
  | cons a l ih =>
      intro h
      obtain ⟨ha, hl⟩ := List.pairwise_cons.mp h
      simp only [insertRow]
      split
      · rename_i hlt
        constructor
        · intro hx
          rcases List.mem_cons.mp hx with rfl | hx
          · exact Or.inl rfl
          · refine Or.inr ⟨hx, ?_⟩
            rcases List.mem_cons.mp hx with rfl | hx
            · exact ne_of_gt hlt
            · exact ne_of_gt (lt_trans hlt (ha x hx))
        · rintro (rfl | ⟨hx, -⟩)
          · exact List.mem_cons_self
          · exact List.mem_cons_of_mem _ hx
      · split
        · rename_i heq
          constructor
          · intro hx
            rcases List.mem_cons.mp hx with rfl | hx
            · exact Or.inl rfl
            · exact Or.inr ⟨List.mem_cons_of_mem _ hx, heq ▸ ne_of_gt (ha x hx)⟩
          · rintro (rfl | ⟨hx, hne⟩)
            · exact List.mem_cons_self
            · rcases List.mem_cons.mp hx with rfl | hx
              · exact absurd heq.symm hne
              · exact List.mem_cons_of_mem _ hx
        · rename_i hne
          rw [List.mem_cons, ih hl]
          constructor
          · rintro (rfl | rfl | ⟨hx, hk⟩)
            · exact Or.inr ⟨List.mem_cons_self, fun h => hne h.symm⟩
            · exact Or.inl rfl
            · exact Or.inr ⟨List.mem_cons_of_mem _ hx, hk⟩
          · rintro (rfl | ⟨hx, hk⟩)
            · exact Or.inr (Or.inl rfl)
            · rcases List.mem_cons.mp hx with rfl | hx
              · exact Or.inl rfl
              · exact Or.inr (Or.inr ⟨hx, hk⟩)

theorem sorted_insertRow (r : ρ) :
    ∀ {l : List ρ}, l.Pairwise (fun a b => Keyed.key a < Keyed.key b) →
      (insertRow r l).Pairwise fun a b => Keyed.key a < Keyed.key b := by
  intro l
  induction l with
  | nil => intro _; simp [insertRow]
  | cons a l ih =>
      intro h
      obtain ⟨ha, hl⟩ := List.pairwise_cons.mp h
      simp only [insertRow]
      split
      · rename_i hlt
        refine List.pairwise_cons.mpr ⟨?_, h⟩
        intro x hx
        rcases List.mem_cons.mp hx with rfl | hx
        · exact hlt
        · exact lt_trans hlt (ha x hx)
      · split
        · rename_i heq
          exact List.pairwise_cons.mpr ⟨fun x hx => heq ▸ ha x hx, hl⟩
        · rename_i hlt hne
          refine List.pairwise_cons.mpr ⟨?_, ih hl⟩
          intro x hx
          rcases (mem_insertRow hl).mp hx with rfl | ⟨hx, -⟩
          · exact lt_of_le_of_ne (not_lt.mp hlt) (fun h => hne h.symm)
          · exact ha x hx

/-- Insert a record, or replace the one stored under its key. -/
def put (t : Table ρ) (r : ρ) : Table ρ := ⟨insertRow r t.rows, sorted_insertRow r t.sorted⟩

/-- Remove the record stored under a key, if there is one. -/
def delete (t : Table ρ) (k : κ) : Table ρ :=
  ⟨t.rows.filter fun r => !decide (Keyed.key r = k), t.sorted.filter _⟩

/-- **A record is listed exactly when it is the one stored under its key.** -/
theorem mem_all {t : Table ρ} {r : ρ} : r ∈ t.all ↔ t.get (Keyed.key r) = some r := by
  have key : ∀ l : List ρ, l.Pairwise (fun a b => Keyed.key a < Keyed.key b) →
      (r ∈ l ↔ (l.find? fun x => decide (Keyed.key x = Keyed.key r)) = some r) := by
    intro l
    induction l with
    | nil => intro _; simp
    | cons a l ih =>
        intro h
        obtain ⟨ha, hl⟩ := List.pairwise_cons.mp h
        by_cases hk : Keyed.key a = Keyed.key r
        · have hnot : r ∉ l := fun hr => absurd hk (ne_of_lt (ha r hr))
          simp only [List.mem_cons, hnot, or_false, List.find?_cons, hk, decide_true,
            Option.some.injEq]
          exact eq_comm
        · have hne : r ≠ a := fun h => hk (h ▸ rfl)
          simp only [List.mem_cons, hne, false_or, List.find?_cons, hk, decide_false]
          exact ih hl
  exact key t.rows t.sorted

/-- What is stored under a key has that key. -/
theorem key_of_get {t : Table ρ} {k : κ} {r : ρ} (h : t.get k = some r) : Keyed.key r = k := by
  have := List.find?_some h
  simpa using this

theorem mem_of_get {t : Table ρ} {k : κ} {r : ρ} (h : t.get k = some r) : r ∈ t.all :=
  List.mem_of_find?_eq_some h

/-- The key of a listed record leads back to it. -/
theorem get_of_mem {t : Table ρ} {r : ρ} (h : r ∈ t.all) : t.get (Keyed.key r) = some r :=
  mem_all.mp h

/-- Two tables that list the same records agree under every key. -/
theorem get_congr {t t' : Table ρ} {k : κ}
    (h : ∀ r, Keyed.key r = k → (r ∈ t.all ↔ r ∈ t'.all)) : t.get k = t'.get k := by
  apply Option.ext
  intro r
  constructor
  · intro hr
    have hk := key_of_get hr
    have := (h r hk).mp (mem_of_get hr)
    simpa [hk] using get_of_mem this
  · intro hr
    have hk := key_of_get hr
    have := (h r hk).mpr (mem_of_get hr)
    simpa [hk] using get_of_mem this

theorem mem_put {t : Table ρ} {r x : ρ} :
    x ∈ (t.put r).all ↔ x = r ∨ (x ∈ t.all ∧ Keyed.key x ≠ Keyed.key r) :=
  mem_insertRow t.sorted

theorem mem_delete {t : Table ρ} {k : κ} {x : ρ} :
    x ∈ (t.delete k).all ↔ x ∈ t.all ∧ Keyed.key x ≠ k := by
  simp [delete, all]

/-- What holds of every record and of a new one holds after the `put`. -/
theorem forall_put {t : Table ρ} {r : ρ} {P : ρ → Prop} (h : ∀ x ∈ t.all, P x) (hr : P r) :
    ∀ x ∈ (t.put r).all, P x := by
  intro x hx
  rcases mem_put.mp hx with rfl | ⟨hx, -⟩
  · exact hr
  · exact h x hx

/-- What holds of every record holds after a `delete`. -/
theorem forall_delete {t : Table ρ} {k : κ} {P : ρ → Prop} (h : ∀ x ∈ t.all, P x) :
    ∀ x ∈ (t.delete k).all, P x :=
  fun x hx => h x (mem_delete.mp hx).1

/-- What a `delete` leaves under a key was there before. -/
theorem get_of_get_delete {t : Table ρ} {j k : κ} {r : ρ} (h : (t.delete j).get k = some r) :
    t.get k = some r := by
  have hm := mem_delete.mp (mem_of_get h)
  exact key_of_get h ▸ get_of_mem hm.1

@[simp] theorem get_empty (k : κ) : (empty : Table ρ).get k = none := rfl

@[simp] theorem all_empty : (empty : Table ρ).all = [] := rfl

@[simp] theorem get_put_self (t : Table ρ) (r : ρ) : (t.put r).get (Keyed.key r) = some r :=
  get_of_mem (mem_put.mpr (Or.inl rfl))

theorem get_put_of_ne (t : Table ρ) {r : ρ} {k : κ} (h : k ≠ Keyed.key r) :
    (t.put r).get k = t.get k := by
  refine get_congr fun x hx => ?_
  rw [mem_put]
  constructor
  · rintro (rfl | ⟨hm, -⟩)
    · exact absurd hx.symm h
    · exact hm
  · intro hm
    exact Or.inr ⟨hm, hx ▸ h⟩

/-- **Reading after a `put`.** -/
theorem get_put (t : Table ρ) (r : ρ) (k : κ) :
    (t.put r).get k = if k = Keyed.key r then some r else t.get k := by
  by_cases h : k = Keyed.key r
  · simp [h]
  · simp [h, get_put_of_ne t h]

/-- A key that has a record keeps one when another is written. -/
theorem isSome_get_put {t : Table ρ} {r : ρ} {k : κ} (h : (t.get k).isSome = true) :
    ((t.put r).get k).isSome = true := by
  rw [get_put]
  split
  · rfl
  · exact h

@[simp] theorem get_delete_self (t : Table ρ) (k : κ) : (t.delete k).get k = none := by
  cases h : (t.delete k).get k with
  | none => rfl
  | some r => exact absurd (key_of_get h) (mem_delete.mp (mem_of_get h)).2

theorem get_delete_of_ne (t : Table ρ) {j k : κ} (h : k ≠ j) :
    (t.delete j).get k = t.get k := by
  refine get_congr fun x hx => ?_
  rw [mem_delete]
  exact ⟨And.left, fun hm => ⟨hm, hx ▸ h⟩⟩

/-- **Reading after a `delete`.** -/
theorem get_delete (t : Table ρ) (j k : κ) :
    (t.delete j).get k = if k = j then none else t.get k := by
  by_cases h : k = j
  · simp [h]
  · simp [h, get_delete_of_ne t h]

/-- A table is determined by what it stores under each key. -/
theorem ext_get {t t' : Table ρ} (h : ∀ k, t.get k = t'.get k) : t = t' := by
  have hmem : ∀ r, r ∈ t.rows ↔ r ∈ t'.rows := fun r => by
    have h1 := mem_all (t := t) (r := r)
    have h2 := mem_all (t := t') (r := r)
    rw [h] at h1
    exact h1.trans h2.symm
  have hperm : t.rows.Perm t'.rows := by
    refine (List.perm_ext_iff_of_nodup ?_ ?_).mpr hmem
    · exact t.sorted.imp fun h e => absurd (congrArg Keyed.key e) (ne_of_lt h)
    · exact t'.sorted.imp fun h e => absurd (congrArg Keyed.key e) (ne_of_lt h)
  have hrows : t.rows = t'.rows :=
    List.Perm.eq_of_pairwise
      (fun a b _ _ hab hba => absurd (lt_trans hab hba) (lt_irrefl _)) t.sorted t'.sorted hperm
  cases t; cases t'; simp_all

/-- Only the last record written under a key counts. -/
@[simp] theorem put_put (t : Table ρ) {r r' : ρ} (h : Keyed.key r = Keyed.key r') :
    (t.put r).put r' = t.put r' := by
  refine ext_get fun k => ?_
  simp only [get_put, h]
  split <;> rfl

/-- Writing back what is stored changes nothing. -/
theorem put_get_self {t : Table ρ} {k : κ} {r : ρ} (h : t.get k = some r) : t.put r = t := by
  refine ext_get fun j => ?_
  rw [get_put]
  split
  · rename_i hj
    rw [hj, key_of_get h, h]
  · rfl

/-! ## Histories -/

/-- Every record of a table is still there, changed as `R` allows. -/
def Grows (R : ρ → ρ → Prop) (t t' : Table ρ) : Prop :=
  ∀ k r, t.get k = some r → ∃ r', t'.get k = some r' ∧ R r r'

namespace Grows

variable {R : ρ → ρ → Prop} {t t' t'' : Table ρ}

theorem refl (hR : ∀ r, R r r) (t : Table ρ) : Grows R t t := fun _ r h => ⟨r, h, hR r⟩

theorem trans (hR : ∀ {r s u}, R r s → R s u → R r u) (h : Grows R t t') (h' : Grows R t' t'') :
    Grows R t t'' := fun k r hr => by
  obtain ⟨s, hs, h1⟩ := h k r hr
  obtain ⟨u, hu, h2⟩ := h' k s hs
  exact ⟨u, hu, hR h1 h2⟩

/-- A record under a key that was free loses nothing. -/
theorem put_new (hR : ∀ r, R r r) {r : ρ} (h : t.get (Keyed.key r) = none) :
    Grows R t (t.put r) := fun k x hx => by
  have hne : k ≠ Keyed.key r := fun he => by
    rw [he, h] at hx
    cases hx
  exact ⟨x, (get_put_of_ne t hne).trans hx, hR x⟩

/-- A record may be replaced by one it may change into. -/
theorem put_old (hR : ∀ r, R r r) {r s : ρ} (h : t.get (Keyed.key s) = some r) (hrs : R r s) :
    Grows R t (t.put s) := fun k x hx => by
  by_cases hk : k = Keyed.key s
  · rw [hk, h] at hx
    cases hx
    exact ⟨s, hk ▸ get_put_self t s, hrs⟩
  · exact ⟨x, (get_put_of_ne t hk).trans hx, hR x⟩

end Grows

end Table

end Dfsha
