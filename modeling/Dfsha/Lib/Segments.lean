import Mathlib.Algebra.BigOperators.Fin
import Mathlib.Data.List.Basic
import Mathlib.Tactic.Common

/-!
# Sequences cut into segments

A long sequence is kept as segments of one length `B`, the last of which may be shorter.
Overwriting a stretch of the sequence that stays inside one segment is overwriting inside
that segment; a stretch that ends beyond the end makes the sequence longer, and may need one
more segment.

## Main definitions

* `Cut B n sizes` — these are the lengths of the segments of a sequence of length `n`.
* `splice l i x` — replace the element at a place, or append it at the end.
* `overwrite l o d` — the sequence with `d` written at `o`.
* `Cut.splice`, `flatten_splice` — one segment is overwritten: the lengths, and the content.
-/

namespace Dfsha

variable {α : Type}

/-! ## Overwriting -/

/-- The sequence with `d` written at `o`, longer than before if `d` ends beyond the end. -/
def overwrite (l : List α) (o : Nat) (d : List α) : List α :=
  l.take o ++ d ++ l.drop (o + d.length)

theorem length_overwrite {l : List α} {o : Nat} {d : List α} (h : o ≤ l.length) :
    (overwrite l o d).length = max l.length (o + d.length) := by
  simp only [overwrite, List.length_append, List.length_take, List.length_drop]
  omega

/-- Writing nothing changes nothing. -/
@[simp] theorem overwrite_nil (l : List α) (o : Nat) : overwrite l o [] = l := by
  simp [overwrite]

/-- Writing one piece right after another is writing both. -/
theorem overwrite_overwrite {l : List α} {o : Nat} {d e : List α} (h : o ≤ l.length) :
    overwrite (overwrite l o d) (o + d.length) e = overwrite l o (d ++ e) := by
  have htake : (l.take o ++ d).length = o + d.length := by
    simp only [List.length_append, List.length_take]
    omega
  simp only [overwrite]
  rw [← htake, List.take_left, List.drop_append, List.drop_eq_nil_of_le (by omega)]
  simp only [List.append_assoc, List.length_append, List.nil_append, List.drop_drop]
  congr 4
  simp only [List.length_take]
  omega

/-- A stretch inside the middle of three parts is overwritten there. -/
theorem overwrite_middle {p s q d : List α} {o : Nat} (ho : o ≤ s.length)
    (hq : o + d.length ≤ s.length ∨ q = []) :
    overwrite (p ++ s ++ q) (p.length + o) d = p ++ overwrite s o d ++ q := by
  simp only [overwrite, List.append_assoc, List.take_length_add_append]
  congr 1
  rw [List.take_append_of_le_length ho]
  congr 2
  rw [Nat.add_assoc, List.drop_length_add_append]
  rcases hq with hq | rfl
  · exact List.drop_append_of_le_length hq
  · simp

/-- Each place of an overwritten sequence shows what was written, or what was there. -/
theorem getElem?_overwrite {l : List α} {o : Nat} {d : List α} (h : o ≤ l.length) (i : Nat) :
    (overwrite l o d)[i]? =
      if i < o ∨ o + d.length ≤ i then l[i]? else d[i - o]? := by
  have htake : (l.take o).length = o := by simp only [List.length_take]; omega
  simp only [overwrite, List.append_assoc]
  by_cases h1 : i < o
  · rw [List.getElem?_append_left (by omega), if_pos (.inl h1), List.getElem?_take_of_lt h1]
  · rw [List.getElem?_append_right (by omega), htake]
    by_cases h2 : o + d.length ≤ i
    · rw [List.getElem?_append_right (by omega), if_pos (.inr h2), List.getElem?_drop]
      congr 1
      omega
    · rw [List.getElem?_append_left (by omega), if_neg (by omega)]

/-! ## Splicing -/

/-- Replace the element at a place, or append it at the end. -/
def splice (l : List α) (i : Nat) (x : α) : List α :=
  if i = l.length then l ++ [x] else l.set i x

theorem length_splice {l : List α} {i : Nat} {x : α} (h : i ≤ l.length) :
    (splice l i x).length = max l.length (i + 1) := by
  unfold splice
  split
  · simp only [List.length_append, List.length_singleton]
    omega
  · rw [List.length_set]
    omega

theorem getElem?_splice {l : List α} {i : Nat} {x : α} (h : i ≤ l.length) (j : Nat) :
    (splice l i x)[j]? = if j = i then some x else l[j]? := by
  unfold splice
  split
  · rename_i hi
    by_cases hj : j = i
    · rw [if_pos hj, hj, hi, List.getElem?_concat_length]
    · rw [if_neg hj, List.getElem?_append]
      split
      · rfl
      · rw [List.getElem?_eq_none (by simp only [List.length_singleton]; omega),
          List.getElem?_eq_none (by omega)]
  · by_cases hj : j = i
    · rw [if_pos hj, hj, List.getElem?_set_self (by omega)]
    · rw [if_neg hj, List.getElem?_set_ne fun he => hj he.symm]

theorem map_splice {β : Type} (f : α → β) (l : List α) (i : Nat) (x : α) :
    (splice l i x).map f = splice (l.map f) i (f x) := by
  unfold splice
  rw [List.length_map]
  split
  · rw [List.map_append, List.map_singleton]
  · rw [List.map_set]

theorem mem_splice {l : List α} {i : Nat} {x y : α} (h : y ∈ splice l i x) : y = x ∨ y ∈ l := by
  unfold splice at h
  split at h
  · rcases List.mem_append.mp h with h | h
    · exact .inr h
    · exact .inl (List.mem_singleton.mp h)
  · exact (List.mem_or_eq_of_mem_set h).symm

/-! ## Segments -/

/-- The lengths of the segments of a sequence of length `n`. -/
structure Cut (B n : Nat) (sizes : List Nat) : Prop where
  count : sizes.length = (n + B - 1) / B
  each : ∀ i s, sizes[i]? = some s → s = min B (n - i * B)

namespace Cut

variable {B n : Nat} {sizes : List Nat}

/-- A place that is missing has no content left. -/
theorem getD_eq (h : Cut B n sizes) (hB : 0 < B) (i : Nat) :
    sizes.getD i 0 = min B (n - i * B) := by
  rw [List.getD_eq_getElem?_getD]
  cases hg : sizes[i]? with
  | some s => exact h.each i s hg
  | none =>
      have hlen : (n + B - 1) / B ≤ i := h.count ▸ List.getElem?_eq_none_iff.mp hg
      have hle : n ≤ i * B := by
        have := (Nat.div_lt_iff_lt_mul hB).mp (Nat.lt_succ_of_le hlen)
        rw [Nat.add_one_mul] at this
        omega
      simp only [Option.getD_none]
      omega

/-- Where a segment is, the sequence goes on. -/
theorem lt_of_lt (h : Cut B n sizes) (hB : 0 < B) {i : Nat} (hi : i < sizes.length) :
    i * B < n := by
  rw [h.count] at hi
  have := (Nat.le_div_iff_mul_le hB).mp (Nat.succ_le_of_lt hi)
  rw [Nat.succ_mul] at this
  omega

/-- The place of a position is a segment, or the first one missing. -/
theorem index_le (h : Cut B n sizes) (hB : 0 < B) {x : Nat} (hx : x ≤ n) :
    x / B ≤ sizes.length := by
  rw [h.count, Nat.le_div_iff_mul_le hB]
  have := Nat.div_mul_le_self x B
  omega

/-- **One segment is overwritten from a position on**: the lengths after it. -/
theorem splice (h : Cut B n sizes) (hB : 0 < B) {x len : Nat} (hx : x ≤ n) (hlen : 0 < len)
    (hfit : x % B + len ≤ B) :
    Cut B (max n (x + len))
      (splice sizes (x / B) (max (sizes.getD (x / B) 0) (x % B + len))) := by
  have hi := h.index_le hB hx
  have hsplit : x / B * B + x % B = x := by rw [Nat.mul_comm]; exact Nat.div_add_mod x B
  rw [h.getD_eq hB]
  generalize hq : x / B = i at *
  generalize hm : x % B = o at *
  have hend : x + len ≤ (i + 1) * B := by rw [Nat.add_one_mul]; omega
  constructor
  · rw [length_splice hi]
    refine Eq.symm (Nat.div_eq_of_lt_le ?_ ?_)
    · rcases Nat.lt_or_ge i sizes.length with hlt | hge
      · rw [Nat.max_eq_left hlt, h.count]
        have := Nat.div_mul_le_self (n + B - 1) B
        omega
      · rw [Nat.max_eq_right (by omega)]
        rw [Nat.add_one_mul]
        omega
    · have hn : n ≤ sizes.length * B := by
        rw [h.count]
        have := Nat.lt_div_mul_add (a := n + B - 1) hB
        omega
      have hmax : max n (x + len) ≤ max sizes.length (i + 1) * B := by
        refine Nat.max_le.mpr ⟨Nat.le_trans hn ?_, Nat.le_trans hend ?_⟩
        · exact Nat.mul_le_mul_right _ (Nat.le_max_left _ _)
        · exact Nat.mul_le_mul_right _ (Nat.le_max_right _ _)
      rw [Nat.succ_mul]
      omega
  · intro j s hs
    rw [getElem?_splice hi] at hs
    split at hs
    · rename_i hj
      cases hs
      subst hj
      omega
    · rename_i hj
      rw [h.each j s hs]
      rcases Nat.lt_or_gt_of_ne hj with hj | hj
      · have : (j + 1) * B ≤ i * B := Nat.mul_le_mul_right _ hj
        rw [Nat.add_one_mul] at this
        omega
      · have hjlen : j < sizes.length := (List.getElem?_eq_some_iff.mp hs).1
        have hlt := h.lt_of_lt hB hjlen
        have : (i + 1) * B ≤ j * B := Nat.mul_le_mul_right _ hj
        omega

end Cut

variable {B n : Nat} {segs : List (List α)}

/-- The segments before a place are full. -/
theorem length_flatten_take (h : Cut B n (segs.map List.length)) (hB : 0 < B) :
    ∀ {i : Nat}, i ≤ segs.length → i * B ≤ n → ((segs.take i).flatten).length = i * B := by
  intro i
  induction i with
  | zero => intro _ _; simp
  | succ i ih =>
      intro hi hn
      rw [Nat.add_one_mul] at hn ⊢
      have hlt : i < segs.length := hi
      have hsize := h.each i segs[i].length (by simp [hlt])
      rw [List.take_succ_eq_append_getElem hlt, List.flatten_append, List.length_append,
        ih (by omega) (by omega), List.flatten_singleton, hsize]
      omega

/-- The segments are together as long as the sequence. -/
theorem length_flatten (h : Cut B n (segs.map List.length)) (hB : 0 < B) :
    segs.flatten.length = n := by
  have hcount := h.count
  rw [List.length_map] at hcount
  have hn : n ≤ segs.length * B := by
    rw [hcount]
    have := Nat.lt_div_mul_add (a := n + B - 1) hB
    omega
  cases hlen : segs.length with
  | zero =>
      rw [hlen] at hn
      rw [List.length_eq_zero_iff.mp hlen, List.flatten_nil, List.length_nil]
      omega
  | succ i =>
      have hlt : i < segs.length := by omega
      have hlast := h.each i segs[i].length (by simp [hlt])
      have hplace := h.lt_of_lt hB (i := i) (by simpa using hlt)
      have hbefore := length_flatten_take h hB (Nat.le_of_lt hlt) (Nat.le_of_lt hplace)
      rw [hlen, Nat.add_one_mul] at hn
      have htake : segs.take (i + 1) = segs := List.take_of_length_le (by omega)
      calc segs.flatten.length
          = (segs.take (i + 1)).flatten.length := by rw [htake]
        _ = ((segs.take i).flatten).length + segs[i].length := by
            rw [List.take_succ_eq_append_getElem hlt, List.flatten_append, List.length_append,
              List.flatten_singleton]
        _ = n := by rw [hbefore, hlast]; omega

/-- The lengths of segments add up. -/
theorem Cut.sum {B n : Nat} {sizes : List Nat} (h : Cut B n sizes) (hB : 0 < B) :
    sizes.sum = n := by
  have hmap : (sizes.map fun k => List.replicate k ()).map List.length = sizes := by
    rw [List.map_map]
    exact (List.map_congr_left fun k _ => List.length_replicate).trans sizes.map_id
  have hcut : Cut B n ((sizes.map fun k => List.replicate k ()).map List.length) := hmap.symm ▸ h
  have hlength := length_flatten hcut hB
  rw [List.length_flatten, hmap] at hlength
  exact hlength

/-- **One segment is overwritten from a position on**: the content after it. -/
theorem flatten_splice (h : Cut B n (segs.map List.length)) (hB : 0 < B) {x : Nat} {d : List α}
    (hx : x ≤ n) (hfit : x % B + d.length ≤ B) :
    (splice segs (x / B) (overwrite (segs.getD (x / B) []) (x % B) d)).flatten =
      overwrite segs.flatten x d := by
  have hi : x / B ≤ segs.length := by simpa using h.index_le hB hx
  have hsplit : x / B * B + x % B = x := by rw [Nat.mul_comm]; exact Nat.div_add_mod x B
  have hbefore := length_flatten_take h hB hi (by omega)
  have hsize : (segs.getD (x / B) []).length = min B (n - x / B * B) := by
    rw [← h.getD_eq hB, List.getD_eq_getElem?_getD, List.getD_eq_getElem?_getD,
      List.getElem?_map]
    cases segs[x / B]? <;> rfl
  generalize hq : x / B = i at *
  have hx' : x = ((segs.take i).flatten).length + x % B := by omega
  rcases Nat.lt_or_ge i segs.length with hlt | hge
  · -- The segment exists: everything around it stays.
    have hget : segs.getD i [] = segs[i] := by
      rw [List.getD_eq_getElem?_getD, List.getElem?_eq_getElem hlt, Option.getD_some]
    have hsegs : segs.flatten = (segs.take i).flatten ++ segs[i] ++ (segs.drop (i + 1)).flatten := by
      conv_lhs => rw [← List.take_append_drop i segs, List.drop_eq_getElem_cons hlt]
      simp only [List.flatten_append, List.flatten_cons, List.append_assoc]
    have hrest : x % B + d.length ≤ segs[i].length ∨ (segs.drop (i + 1)).flatten = [] := by
      rcases Nat.lt_or_ge (i + 1) segs.length with hnext | hlast
      · left
        have := h.lt_of_lt hB (i := i + 1) (by simpa using hnext)
        rw [Nat.add_one_mul] at this
        rw [← hget, hsize]
        omega
      · right
        rw [List.drop_eq_nil_of_le hlast, List.flatten_nil]
    rw [splice, if_neg (by omega), List.set_eq_take_append_cons_drop, if_pos hlt, hsegs]
    conv_rhs => rw [hx']
    rw [overwrite_middle (by rw [← hget, hsize]; omega) hrest, hget]
    simp only [List.flatten_append, List.flatten_cons, List.append_assoc]
  · -- The segment is new: the sequence ends exactly where it starts.
    have hil : i = segs.length := by omega
    have hnil : segs.getD i [] = [] := by
      rw [List.getD_eq_getElem?_getD, List.getElem?_eq_none hge, Option.getD_none]
    rw [hnil, List.length_nil] at hsize
    have hx0 : x % B = 0 := by omega
    have hlen : segs.flatten.length = x := by
      have hall := hbefore
      rw [List.take_of_length_le hge] at hall
      omega
    rw [hnil, hx0, splice, if_pos hil, List.flatten_append, List.flatten_singleton]
    simp only [overwrite, List.take_zero, List.nil_append, List.drop_nil, List.append_nil]
    rw [List.take_of_length_le (by omega), List.drop_eq_nil_of_le (by omega), List.append_nil]

end Dfsha
