import Mathlib.Data.List.Basic
import Mathlib.Tactic.Common

/-!
# Ranges that tile a range

A range is a position and a length.  Ranges tile from one position to another when each begins
where the one before it ends, and none is empty.  Then every position in between is in one of them,
and what the ranges cut out of a content makes up what the whole range cuts out.

## Main definitions

* `Tiles` — ranges that follow each other.
* `slice` — what a range cuts out of a content.

## Main results

* `Tiles.append`, `Tiles.le` — ranges that follow ranges.
* `Tiles.flatMap_range` — every position is in one range.
* `Tiles.flatMap_slice` — the pieces make up the whole.
-/

namespace Dfsha

/-- Ranges that follow each other from one position to another, none of them empty. -/
def Tiles : List (Nat × Nat) → Nat → Nat → Prop
  | [], a, b => a = b
  | r :: l, a, b => r.1 = a ∧ 0 < r.2 ∧ Tiles l (a + r.2) b

/-- What a range cuts out of a content. -/
def slice {α : Type} (content : List α) (offset length : Nat) : List α :=
  (content.drop offset).take length

section Slices

variable {α : Type} (l l' : List α) (o m n : Nat)

theorem length_slice : (slice l o n).length = min n (l.length - o) := by
  rw [slice, List.length_take, List.length_drop]

theorem slice_add : slice l o (m + n) = slice l o m ++ slice l (o + m) n := by
  rw [slice, slice, slice, List.take_add, List.drop_drop]

variable {o m n}

theorem slice_initial (h : m ≤ n) : slice l o m <+: slice l o n := List.take_prefix_take_left h

/-- What lies behind a list. -/
theorem slice_append_right (h : l.length ≤ o) : slice (l ++ l') o n = slice l' (o - l.length) n := by
  rw [slice, slice, List.drop_append, List.drop_eq_nil_of_le h, List.nil_append]

/-- What begins in a list, and may go on behind it. -/
theorem slice_append (h : o ≤ l.length) :
    slice (l ++ l') o n = slice l o n ++ slice l' 0 (n - (l.length - o)) := by
  rw [slice, slice, slice, List.drop_append_of_le_length h, List.take_append, List.length_drop,
    List.drop_zero]

/-- What lies in a list. -/
theorem slice_append_left (h : o + n ≤ l.length) : slice (l ++ l') o n = slice l o n := by
  rw [slice_append l l' (by omega), show n - (l.length - o) = 0 by omega]
  simp [slice]

/-- A prefix that is as long as the whole is the whole. -/
theorem eq_slice_of_initial {got : List α} (h : got <+: slice l o n) (hlen : n ≤ got.length) :
    got = slice l o n := by
  refine h.eq_of_length_le ?_
  rw [length_slice]
  omega

/-- Cuts of one length, one after the other, are what they were cut from. -/
theorem flatten_cuts {α : Type} (l : List α) (n k : Nat) :
    ((List.range k).map fun i => slice l (i * n) n).flatten = l.take (k * n) := by
  induction k with
  | zero => simp
  | succ k ih =>
      rw [List.range_succ, List.map_append, List.flatten_append, ih, List.map_singleton,
        List.flatten_singleton, slice, Nat.add_one_mul, List.take_add]

end Slices

namespace Tiles

variable {l l' : List (Nat × Nat)} {a b d : Nat}

theorem append (h : Tiles l a b) (h' : Tiles l' b d) : Tiles (l ++ l') a d := by
  induction l generalizing a with
  | nil =>
      obtain rfl : a = b := h
      exact h'
  | cons r l ih => exact ⟨h.1, h.2.1, ih h.2.2⟩

theorem le (h : Tiles l a b) : a ≤ b := by
  induction l generalizing a with
  | nil =>
      have : a = b := h
      omega
  | cons r l ih =>
      have := ih h.2.2
      omega

/-- Ranges that are not none take place. -/
theorem lt (h : Tiles l a b) (hl : l ≠ []) : a < b := by
  cases l with
  | nil => exact absurd rfl hl
  | cons r l =>
      have := h.2.2.le
      have := h.1
      have := h.2.1
      omega

/-- A range that is one of the tiles lies between the ends. -/
theorem mem (h : Tiles l a b) {r : Nat × Nat} (hr : r ∈ l) : a ≤ r.1 ∧ 0 < r.2 ∧ r.1 + r.2 ≤ b := by
  induction l generalizing a with
  | nil => cases hr
  | cons s l ih =>
      rcases List.mem_cons.mp hr with rfl | hr
      · have := h.1
        have := h.2.2.le
        exact ⟨by omega, h.2.1, by omega⟩
      · obtain ⟨hle, hpos, hend⟩ := ih h.2.2 hr
        exact ⟨by omega, hpos, hend⟩

/-- **Every position is in one range**, in order. -/
theorem flatMap_range (h : Tiles l a b) :
    l.flatMap (fun r => List.range' r.1 r.2) = List.range' a (b - a) := by
  induction l generalizing a with
  | nil =>
      obtain rfl : a = b := h
      simp
  | cons r l ih =>
      have hle := h.2.2.le
      rw [List.flatMap_cons, ih h.2.2, h.1, List.range'_append_1]
      congr 1
      omega

/-- **The pieces make up the whole.** -/
theorem flatMap_slice {α : Type} (h : Tiles l a b) (content : List α) :
    l.flatMap (fun r => slice content r.1 r.2) = slice content a (b - a) := by
  induction l generalizing a with
  | nil =>
      obtain rfl : a = b := h
      simp [slice]
  | cons r l ih =>
      have hle := h.2.2.le
      obtain rfl := h.1
      have hlen : b - r.1 = r.2 + (b - (r.1 + r.2)) := by omega
      rw [List.flatMap_cons, ih h.2.2, hlen, slice, slice, slice, List.take_add, List.drop_drop]

end Tiles

end Dfsha
