import Dfsha.Lib.Table
import Mathlib.Algebra.BigOperators.Fin
import Mathlib.Algebra.Order.BigOperators.Group.Finset

/-!
# Totals over tables

The sum of an amount over all records of a table, and how it changes when a record is written.

## Main definitions

* `Table.total` — the sum over all records.

## Main results

* `Table.total_put` — the total with one more record, or another one in its place.
* `Table.total_delete`, `Table.total_change` — the total with one record less, and of an amount
  that another one replaces under one key.
* `Table.total_le` — a total is not more where every amount that counts is found.
* `Table.total_le_add` — the same where two tables share the amounts.
-/

namespace Dfsha.Table

open scoped BigOperators

universe u v

variable {ρ : Type u} {κ : Type v} [Keyed ρ κ] [LinearOrder κ]

/-- The sum of an amount over all records. -/
def total (t : Table ρ) (f : ρ → Nat) : Nat := (t.all.map f).sum

/-- The keys of a table, as a list, have no duplicates. -/
theorem nodup_keys (t : Table ρ) : (t.all.map (Keyed.key : ρ → κ)).Nodup := by
  refine List.pairwise_map.mpr (t.sorted.imp fun h => ?_)
  exact ne_of_lt h

/-- A total is a sum over any keys among which are those of the table. -/
theorem total_eq {t : Table ρ} {s : Finset κ} (f : ρ → Nat)
    (h : ∀ r ∈ t.all, (Keyed.key r : κ) ∈ s) : t.total f = ∑ k ∈ s, (t.get k).elim 0 f := by
  have hkeys : (t.all.map (Keyed.key : ρ → κ)).toFinset ⊆ s := by
    intro k hk
    obtain ⟨r, hr, rfl⟩ := List.mem_map.mp (List.mem_toFinset.mp hk)
    exact h r hr
  rw [← Finset.sum_subset hkeys fun k _ hk => ?_, List.sum_toFinset _ t.nodup_keys, List.map_map,
    total]
  · refine congrArg List.sum (List.map_congr_left fun r hr => ?_)
    simp [get_of_mem hr]
  · cases hget : t.get k with
    | none => rfl
    | some r =>
        refine absurd (List.mem_toFinset.mpr (List.mem_map.mpr ⟨r, mem_of_get hget, ?_⟩)) hk
        exact key_of_get hget

/-- **A record is written**: its amount counts in place of that of the record that was there. -/
theorem total_put (t : Table ρ) (r : ρ) (f : ρ → Nat) :
    (t.put r).total f + (t.get (Keyed.key r)).elim 0 f = t.total f + f r := by
  let s : Finset κ := insert (Keyed.key r) (t.all.map Keyed.key).toFinset
  have hold : ∀ x ∈ t.all, (Keyed.key x : κ) ∈ s := fun x hx =>
    Finset.mem_insert_of_mem (List.mem_toFinset.mpr (List.mem_map_of_mem hx))
  have hnew : ∀ x ∈ (t.put r).all, (Keyed.key x : κ) ∈ s := by
    intro x hx
    rcases mem_put.mp hx with rfl | hx
    · exact Finset.mem_insert_self _ _
    · exact hold x hx.1
  have hr : (Keyed.key r : κ) ∈ s := Finset.mem_insert_self _ _
  rw [total_eq f hold, total_eq f hnew, ← Finset.add_sum_erase s _ hr,
    ← Finset.add_sum_erase s _ hr, get_put_self]
  have hrest : ∑ k ∈ s.erase (Keyed.key r), ((t.put r).get k).elim 0 f =
      ∑ k ∈ s.erase (Keyed.key r), (t.get k).elim 0 f := by
    refine Finset.sum_congr rfl fun k hk => ?_
    rw [get_put_of_ne t (Finset.ne_of_mem_erase hk)]
  rw [hrest, Option.elim_some]
  omega

/-- **A record is deleted**: its amount no longer counts. -/
theorem total_delete (t : Table ρ) (k : κ) (f : ρ → Nat) :
    (t.delete k).total f + (t.get k).elim 0 f = t.total f := by
  let s : Finset κ := insert k (t.all.map Keyed.key).toFinset
  have hold : ∀ x ∈ t.all, (Keyed.key x : κ) ∈ s := fun x hx =>
    Finset.mem_insert_of_mem (List.mem_toFinset.mpr (List.mem_map_of_mem hx))
  have hnew : ∀ x ∈ (t.delete k).all, (Keyed.key x : κ) ∈ s := fun x hx =>
    hold x (mem_delete.mp hx).1
  have hk : k ∈ s := Finset.mem_insert_self _ _
  rw [total_eq f hold, total_eq f hnew, ← Finset.add_sum_erase s _ hk,
    ← Finset.add_sum_erase s _ hk, get_delete_self]
  have hrest : ∑ j ∈ s.erase k, ((t.delete k).get j).elim 0 f =
      ∑ j ∈ s.erase k, (t.get j).elim 0 f := by
    refine Finset.sum_congr rfl fun j hj => ?_
    rw [get_delete_of_ne t (Finset.ne_of_mem_erase hj)]
  rw [hrest, Option.elim_none]
  omega

/-- **Another amount under one key**: all other records count as before. -/
theorem total_change (t : Table ρ) (k : κ) {f g : ρ → Nat}
    (h : ∀ r, Keyed.key r ≠ k → f r = g r) :
    t.total f + (t.get k).elim 0 g = t.total g + (t.get k).elim 0 f := by
  have hrest : (t.delete k).total f = (t.delete k).total g :=
    congrArg List.sum (List.map_congr_left fun r hr => h r (mem_delete.mp hr).2)
  have hf := t.total_delete k f
  have hg := t.total_delete k g
  omega

/-- Two amounts at once. -/
theorem total_add (t : Table ρ) (f g : ρ → Nat) :
    t.total (fun r => f r + g r) = t.total f + t.total g :=
  List.sum_map_add

@[simp] theorem total_empty (f : ρ → Nat) : (empty : Table ρ).total f = 0 := rfl

/-- A total is not more where two other tables cover each amount. -/
theorem total_le_add {σ τ : Type u} [Keyed σ κ] [Keyed τ κ] {t : Table ρ} {a : Table σ}
    {b : Table τ} {f : ρ → Nat} {g : σ → Nat} {e : τ → Nat}
    (h : ∀ k r, t.get k = some r → f r ≤ (a.get k).elim 0 g + (b.get k).elim 0 e) :
    t.total f ≤ a.total g + b.total e := by
  let s : Finset κ := (t.all.map Keyed.key).toFinset ∪
    ((a.all.map Keyed.key).toFinset ∪ (b.all.map Keyed.key).toFinset)
  have hs : ∀ x ∈ t.all, (Keyed.key x : κ) ∈ s := fun x hx =>
    Finset.mem_union_left _ (List.mem_toFinset.mpr (List.mem_map_of_mem hx))
  have ha : ∀ x ∈ a.all, (Keyed.key x : κ) ∈ s := fun x hx => Finset.mem_union_right _
    (Finset.mem_union_left _ (List.mem_toFinset.mpr (List.mem_map_of_mem hx)))
  have hb : ∀ x ∈ b.all, (Keyed.key x : κ) ∈ s := fun x hx => Finset.mem_union_right _
    (Finset.mem_union_right _ (List.mem_toFinset.mpr (List.mem_map_of_mem hx)))
  rw [total_eq f hs, total_eq g ha, total_eq e hb, ← Finset.sum_add_distrib]
  refine Finset.sum_le_sum fun k _ => ?_
  cases hget : t.get k with
  | none => exact Nat.zero_le _
  | some r => exact h k r hget

/-- **A total is not more** where every amount that counts is found, under its key. -/
theorem total_le {t t' : Table ρ} {f g : ρ → Nat}
    (h : ∀ k r, t.get k = some r → f r ≠ 0 → ∃ r', t'.get k = some r' ∧ f r ≤ g r') :
    t.total f ≤ t'.total g := by
  let s : Finset κ := (t.all.map Keyed.key).toFinset ∪ (t'.all.map Keyed.key).toFinset
  have hs : ∀ x ∈ t.all, (Keyed.key x : κ) ∈ s := fun x hx =>
    Finset.mem_union_left _ (List.mem_toFinset.mpr (List.mem_map_of_mem hx))
  have hs' : ∀ x ∈ t'.all, (Keyed.key x : κ) ∈ s := fun x hx =>
    Finset.mem_union_right _ (List.mem_toFinset.mpr (List.mem_map_of_mem hx))
  rw [total_eq f hs, total_eq g hs']
  refine Finset.sum_le_sum fun k _ => ?_
  cases hget : t.get k with
  | none => exact Nat.zero_le _
  | some r =>
      by_cases hz : f r = 0
      · simp [hz]
      · obtain ⟨r', hr', hle⟩ := h k r hget hz
        simpa [hr'] using hle

end Dfsha.Table
