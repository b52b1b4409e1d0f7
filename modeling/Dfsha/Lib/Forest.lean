import Mathlib.Logic.Relation
import Mathlib.Order.Basic
import Mathlib.Tactic.Common

/-!
# Trees given by their parents

A relation `up k p`, read "`p` is the parent of `k`", and a root.  When every key has at most
one parent and the root has none, the number of steps from a key to the root is unique, and a
relation in which every key that has a parent is some steps below the root has no cycle.

## Main definitions

* `Below up root d k` — the key `k` is `d` steps below the root.
* `Rooted up root` — parents are unique, and the root has none.

## Main results

* `Below.unique` — the depth of a key is unique.
* `Rooted.acyclic` — there is no cycle.
-/

namespace Dfsha

universe u

variable {κ : Type u}

/-- `d` steps to a parent lead from a key to the root. -/
inductive Below (up : κ → κ → Prop) (root : κ) : Nat → κ → Prop
  | root : Below up root 0 root
  | step {d : Nat} {k p : κ} : Below up root d p → up k p → Below up root (d + 1) k

/-- Parents are unique, and the root has none. -/
structure Rooted (up : κ → κ → Prop) (root : κ) : Prop where
  single : ∀ {k p q : κ}, up k p → up k q → p = q
  top : ∀ p, ¬ up root p

variable {up up' : κ → κ → Prop} {root k p : κ} {d e : Nat}

/-- More parents only give more ways to the root. -/
theorem Below.mono (h : ∀ k p, up k p → up' k p) (hk : Below up root d k) :
    Below up' root d k := by
  induction hk with
  | root => exact .root
  | step _ hup ih => exact .step ih (h _ _ hup)

namespace Rooted

variable (hr : Rooted up root)
include hr

/-- The parent of a key is one step nearer to the root. -/
theorem above (hk : Below up root d k) (hup : up k p) : ∃ e, d = e + 1 ∧ Below up root e p := by
  cases hk with
  | root => exact absurd hup (hr.top p)
  | @step e _ q hq hup' =>
      have hpq : p = q := hr.single hup hup'
      exact ⟨e, rfl, hpq ▸ hq⟩

/-- **The depth of a key is unique.** -/
theorem unique (hk : Below up root d k) : ∀ {e : Nat}, Below up root e k → d = e := by
  induction hk with
  | root =>
      intro e he
      cases he with
      | root => rfl
      | step _ hup => exact absurd hup (hr.top _)
  | step _ hup ih =>
      intro e he
      obtain ⟨e', rfl, he'⟩ := hr.above he hup
      rw [ih he']

/-- What is above a key is nearer to the root. -/
theorem lt_of_above (hk : Below up root d k) (h : Relation.TransGen up k p) :
    ∃ e, e < d ∧ Below up root e p := by
  induction h with
  | single hup =>
      obtain ⟨e, rfl, he⟩ := hr.above hk hup
      exact ⟨e, Nat.lt_succ_self e, he⟩
  | tail _ hup ih =>
      obtain ⟨e, hlt, he⟩ := ih
      obtain ⟨e', rfl, he'⟩ := hr.above he hup
      exact ⟨e', by omega, he'⟩

/-- **Where every key with a parent is below the root, no key is above itself.** -/
theorem acyclic (h : ∀ k p, up k p → ∃ d, Below up root d k) (k : κ) :
    ¬ Relation.TransGen up k k := by
  intro hk
  obtain ⟨p, hup, -⟩ := Relation.TransGen.head'_iff.mp hk
  obtain ⟨d, hd⟩ := h k p hup
  obtain ⟨e, hlt, he⟩ := hr.lt_of_above hd hk
  exact absurd (hr.unique hd he) (by omega)

end Rooted

end Dfsha
