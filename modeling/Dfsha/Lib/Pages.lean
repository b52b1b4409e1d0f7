import Mathlib

/-!
# Reading a sorted list in pages

A list that is sorted strictly by a key can be read in pages, where a page begins after the key of
the last element of the page before it.  Nothing has to be remembered but that key.

## Main definitions

* `pageFrom` — the elements after a key, in order.

## Main results

* `pageFrom_next` — after a page that is not the last comes what the page left over.
-/

namespace Dfsha

variable {α κ : Type} [LinearOrder κ] {key : α → κ} {xs ys : List α} {k k' : κ} {y : α}

/-- The elements after a key. -/
def pageFrom (key : α → κ) (k : κ) (xs : List α) : List α := xs.filter fun x => k < key x

theorem mem_pageFrom {x : α} : x ∈ pageFrom key k xs ↔ x ∈ xs ∧ k < key x := by
  simp [pageFrom]

/-- A page of images is the image of a page. -/
theorem map_pageFrom {β : Type} (f : β → α) (zs : List β) :
    (pageFrom (fun z => key (f z)) k zs).map f = pageFrom key k (zs.map f) := by
  rw [pageFrom, pageFrom, List.filter_map]
  rfl

/-- All elements come after a key that is before them. -/
theorem pageFrom_eq_self (h : ∀ x ∈ xs, k < key x) : pageFrom key k xs = xs :=
  List.filter_eq_self.mpr fun x hx => decide_eq_true (h x hx)

/-- What comes after an element of a sorted list is the list behind it. -/
theorem pageFrom_append (h : (xs ++ y :: ys).Pairwise fun a b => key a < key b) :
    pageFrom key (key y) (xs ++ y :: ys) = ys := by
  obtain ⟨-, hys, hbefore⟩ := List.pairwise_append.mp h
  have hxs : xs.filter (fun x => key y < key x) = [] := by
    refine List.filter_eq_nil_iff.mpr fun x hx => ?_
    have hlt := hbefore x hx y List.mem_cons_self
    simp [hlt.le]
  have hafter : ys.filter (fun x => key y < key x) = ys :=
    List.filter_eq_self.mpr fun x hx => decide_eq_true ((List.pairwise_cons.mp hys).1 x hx)
  rw [pageFrom, List.filter_append, hxs, List.nil_append, List.filter_cons]
  simp [hafter]

/-- What comes after a key comes after every earlier one. -/
theorem pageFrom_pageFrom (h : k ≤ k') : pageFrom key k' (pageFrom key k xs) = pageFrom key k' xs := by
  rw [pageFrom, pageFrom, pageFrom, List.filter_filter]
  refine List.filter_congr fun x _ => ?_
  by_cases hx : k' < key x
  · simp [hx, lt_of_le_of_lt h hx]
  · simp [hx]

/-- **After a page that is not the last comes what the page left over.** -/
theorem pageFrom_next (h : xs.Pairwise fun a b => key a < key b) {l : Nat} (hl : 0 < l)
    (hlen : l < (pageFrom key k xs).length) :
    ∃ y ∈ xs, ((pageFrom key k xs).take l).getLast? = some y ∧
      pageFrom key (key y) xs = (pageFrom key k xs).drop l := by
  have hsorted : (pageFrom key k xs).Pairwise fun a b => key a < key b := h.filter _
  have hne : (pageFrom key k xs).take l ≠ [] := by
    intro hnil
    have hlength := congrArg List.length hnil
    rw [List.length_take, List.length_nil] at hlength
    omega
  have hlast := List.getLast?_eq_some_getLast hne
  have hmem := List.mem_of_mem_take (List.getLast_mem hne)
  obtain ⟨hy, hk⟩ := mem_pageFrom.mp hmem
  refine ⟨_, hy, hlast, ?_⟩
  have hsplit : pageFrom key k xs = ((pageFrom key k xs).take l).dropLast ++
      ((pageFrom key k xs).take l).getLast hne :: (pageFrom key k xs).drop l := by
    conv_lhs => rw [← List.take_append_drop l (pageFrom key k xs),
      ← List.dropLast_append_getLast hne]
    rw [List.append_assoc, List.singleton_append]
  rw [← pageFrom_pageFrom hk.le]
  have hcut := hsorted
  rw [hsplit] at hcut
  have hrest := pageFrom_append hcut
  rw [← hsplit] at hrest
  exact hrest

end Dfsha
