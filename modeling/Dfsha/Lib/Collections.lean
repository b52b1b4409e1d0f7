import Dfsha.Lib.Document
import Dfsha.Lib.Table

/-!
# Dictionaries, sets and slices

A dictionary that keeps the order in which its keys came is a list of pairs.  A dictionary whose
order does not matter is a table by its keys, and then an object in JSON.  A set that is only
ever sorted is the list of its elements in order.

## Main definitions

* `Pairs.find`, `Pairs.set` — a dictionary in the order of its keys' arrival.
* `Dict`, `Dict.toJson`, `Dict.ofJson` — a dictionary by its keys, written and read.
* `sortedSet` — a set of strings, sorted.
* `slices` — a list cut into pieces of one length.

## Main results

* `Pairs.find_set` — what an assignment changes.
* `Dict.ofJson_toJson` — a dictionary is read back.
* `flatten_slices`, `length_slices` — the pieces make up the list, and how many they are.
-/

namespace Dfsha

/-! ## In the order of arrival -/

namespace Pairs

variable {κ ν : Type} [DecidableEq κ]

/-- `d.get(k)`. -/
def find : List (κ × ν) → κ → Option ν
  | [], _ => none
  | (j, v) :: d, k => if j = k then some v else find d k

/-- `d[k] = v`. -/
def set : List (κ × ν) → κ → ν → List (κ × ν)
  | [], k, v => [(k, v)]
  | (j, w) :: d, k, v => if j = k then (j, v) :: d else (j, w) :: set d k v

theorem find_set (d : List (κ × ν)) (k j : κ) (v : ν) :
    find (set d k v) j = if k = j then some v else find d j := by
  induction d with
  | nil => rfl
  | cons e d ih =>
      obtain ⟨i, w⟩ := e
      by_cases hik : i = k
      · subst hik
        simp only [set, if_true, find]
        by_cases hij : i = j <;> simp [hij]
      · simp only [set, if_neg hik, find, ih]
        by_cases hij : i = j
        · subst hij
          simp [Ne.symm hik]
        · simp [hij]

theorem mem_of_find {d : List (κ × ν)} {k : κ} {v : ν} (h : find d k = some v) :
    (k, v) ∈ d := by
  induction d with
  | nil => cases h
  | cons e d ih =>
      obtain ⟨j, w⟩ := e
      by_cases hjk : j = k
      · simp only [find, if_pos hjk, Option.some.injEq] at h
        exact List.mem_cons.mpr (.inl (by rw [hjk, h]))
      · simp only [find, if_neg hjk] at h
        exact List.mem_cons_of_mem _ (ih h)

theorem find_of_mem_keys {d : List (κ × ν)} {k : κ} (h : k ∈ d.map Prod.fst) :
    ∃ v, find d k = some v := by
  induction d with
  | nil => cases h
  | cons e d ih =>
      obtain ⟨j, w⟩ := e
      by_cases hjk : j = k
      · exact ⟨w, if_pos hjk⟩
      · rcases List.mem_cons.mp h with heq | htail
        · exact absurd heq.symm hjk
        · obtain ⟨v, hv⟩ := ih htail
          exact ⟨v, by rw [find, if_neg hjk, hv]⟩

theorem mem_of_mem_set {d : List (κ × ν)} {k : κ} {v : ν} {e : κ × ν} (h : e ∈ set d k v) :
    e ∈ d ∨ e = (k, v) := by
  induction d with
  | nil => exact .inr (List.mem_singleton.mp h)
  | cons e' d ih =>
      obtain ⟨j, w⟩ := e'
      by_cases hjk : j = k
      · rw [set, if_pos hjk] at h
        rcases List.mem_cons.mp h with heq | htail
        · exact .inr (hjk ▸ heq)
        · exact .inl (List.mem_cons_of_mem _ htail)
      · rw [set, if_neg hjk] at h
        rcases List.mem_cons.mp h with heq | htail
        · exact .inl (heq ▸ List.mem_cons_self)
        · rcases ih htail with hd | heq
          · exact .inl (List.mem_cons_of_mem _ hd)
          · exact .inr heq

theorem nodup_set {d : List (κ × ν)} {k : κ} {v : ν} (h : (d.map Prod.fst).Nodup) :
    ((set d k v).map Prod.fst).Nodup := by
  induction d with
  | nil => simp [set]
  | cons e d ih =>
      obtain ⟨j, w⟩ := e
      obtain ⟨hj, hd⟩ := List.nodup_cons.mp h
      by_cases hjk : j = k
      · rw [set, if_pos hjk]
        exact List.nodup_cons.mpr ⟨hj, hd⟩
      · rw [set, if_neg hjk]
        refine List.nodup_cons.mpr ⟨fun hmem => ?_, ih hd⟩
        obtain ⟨e', he', heq⟩ := List.mem_map.mp hmem
        rcases mem_of_mem_set he' with hold | hnew
        · exact hj (List.mem_map.mpr ⟨e', hold, heq⟩)
        · rw [hnew] at heq
          exact hjk heq.symm

/-- In a dictionary every pair is what its key stands for. -/
theorem find_of_mem {d : List (κ × ν)} {k : κ} {v : ν} (hd : (d.map Prod.fst).Nodup)
    (h : (k, v) ∈ d) : find d k = some v := by
  induction d with
  | nil => cases h
  | cons e d ih =>
      obtain ⟨j, w⟩ := e
      obtain ⟨hj, hrest⟩ := List.nodup_cons.mp hd
      rcases List.mem_cons.mp h with heq | htail
      · obtain ⟨rfl, rfl⟩ := Prod.mk.injEq .. ▸ heq
        exact if_pos rfl
      · rw [find, if_neg, ih hrest htail]
        rintro rfl
        exact hj (List.mem_map.mpr ⟨_, htail, rfl⟩)

end Pairs

/-! ## By key -/

/-- A key and what it stands for. -/
structure Item (α : Type) where
  key : String
  value : α
  deriving DecidableEq, Repr

instance (α : Type) : Keyed (Item α) String := ⟨Item.key⟩

/-- A dictionary from strings. -/
abbrev Dict (α : Type) := Table (Item α)

namespace Dict

variable {α : Type}

/-- `d.get(k)`. -/
def find (d : Dict α) (k : String) : Option α := (d.get k).map Item.value

/-- `d[k] = v`. -/
def set (d : Dict α) (k : String) (v : α) : Dict α := d.put ⟨k, v⟩

/-- `d.pop(k, None)`. -/
def pop (d : Dict α) (k : String) : Dict α := d.delete k

theorem find_empty (k : String) : find (Table.empty : Dict α) k = none := rfl

theorem find_set (d : Dict α) (k j : String) (v : α) :
    (d.set k v).find j = if k = j then some v else d.find j := by
  rw [find, set, Table.get_put]
  by_cases h : k = j
  · subst h
    rw [if_pos rfl, if_pos (show k = Keyed.key (Item.mk k v) from rfl)]
    rfl
  · rw [if_neg h, if_neg (show ¬ j = Keyed.key (Item.mk k v) from fun he => h he.symm)]
    rfl

theorem find_pop (d : Dict α) (k j : String) :
    (d.pop k).find j = if k = j then none else d.find j := by
  rw [find, pop, Table.get_delete]
  by_cases h : k = j
  · subst h
    simp
  · rw [if_neg h, if_neg fun he => h he.symm]
    rfl

theorem find_eq_some {d : Dict α} {k : String} {v : α} :
    d.find k = some v ↔ ⟨k, v⟩ ∈ d.all := by
  rw [find, Option.map_eq_some_iff]
  constructor
  · rintro ⟨e, he, rfl⟩
    have hkey : e.key = k := Table.key_of_get he
    exact hkey ▸ Table.mem_of_get he
  · exact fun h => ⟨⟨k, v⟩, Table.get_of_mem h, rfl⟩

/-- A dictionary as an object. -/
def toJson (f : α → Json) (d : Dict α) : Json := .obj (d.all.map fun e => (e.key, f e.value))

/-- The entries that members stand for. -/
def entries (g : Json → Option α) : List (String × Json) → Option (List (Item α))
  | [] => some []
  | (k, v) :: ms => (g v).bind fun a => (entries g ms).map fun es => ⟨k, a⟩ :: es

/-- The dictionary that an object stands for. -/
def ofJson (g : Json → Option α) : Json → Option (Dict α)
  | .obj ms => (entries g ms).bind fun es =>
      if h : es.Pairwise (fun e f => Keyed.key e < Keyed.key f) then some ⟨es, h⟩ else none
  | _ => none

/-- **A dictionary is read back.** -/
theorem ofJson_toJson {f : α → Json} {g : Json → Option α} (hg : ∀ a, g (f a) = some a)
    (d : Dict α) : ofJson g (toJson f d) = some d := by
  have hentries : ∀ es : List (Item α),
      entries g (es.map fun e => (e.key, f e.value)) = some es := by
    intro es
    induction es with
    | nil => rfl
    | cons e es ih => simp [entries, hg, ih]
  have hsorted : d.all.Pairwise fun e f => Keyed.key e < Keyed.key f := d.sorted
  rw [toJson, ofJson, hentries, Option.bind_some, dif_pos hsorted]
  rfl

end Dict

/-! ## Sorted sets -/

/-- `sorted(set(...))`. -/
def sortedSet (keys : List String) : List String :=
  (keys.foldl (fun d k => Dict.set d k ()) (Table.empty : Dict Unit)).all.map Item.key

theorem mem_sortedSet {keys : List String} {k : String} : k ∈ sortedSet keys ↔ k ∈ keys := by
  have hfold : ∀ (keys : List String) (d : Dict Unit),
      Dict.find (keys.foldl (fun d k => Dict.set d k ()) d) k = some () ↔
        k ∈ keys ∨ d.find k = some () := by
    intro keys
    induction keys with
    | nil => simp
    | cons j keys ih =>
        intro d
        rw [List.foldl_cons, ih, Dict.find_set, List.mem_cons]
        by_cases hjk : j = k
        · simp [hjk]
        · simp [hjk, Ne.symm hjk]
  have hkeys := hfold keys Table.empty
  rw [Dict.find_empty, or_iff_left (by simp)] at hkeys
  rw [← hkeys, Dict.find_eq_some, sortedSet, List.mem_map]
  constructor
  · rintro ⟨e, he, rfl⟩
    exact he
  · exact fun h => ⟨_, h, rfl⟩

theorem sorted_sortedSet (keys : List String) : (sortedSet keys).Pairwise (· < ·) :=
  List.pairwise_map.mpr (Table.sorted _)

/-! ## Slices -/

/-- Cut a list into pieces of `n`, at most `fuel` of them. -/
def slicesUpTo {α : Type} (n : Nat) : Nat → List α → List (List α)
  | 0, _ => []
  | _, [] => []
  | fuel + 1, a :: l => (a :: l).take n :: slicesUpTo n fuel ((a :: l).drop n)

/-- `[l[i:i+n] for i in range(0, len(l), n)]`. -/
def slices {α : Type} (n : Nat) (l : List α) : List (List α) := slicesUpTo n l.length l

section Slices

variable {α : Type} {n : Nat}

theorem flatten_slices (hn : 0 < n) (l : List α) : (slices n l).flatten = l := by
  have hup : ∀ (fuel : Nat) (l : List α), l.length ≤ fuel → (slicesUpTo n fuel l).flatten = l := by
    intro fuel
    induction fuel with
    | zero =>
        intro l h
        rw [List.length_eq_zero_iff.mp (Nat.le_zero.mp h)]
        rfl
    | succ fuel ih =>
        intro l h
        cases l with
        | nil => rfl
        | cons a l =>
            rw [slicesUpTo, List.flatten_cons, ih _ (by rw [List.length_drop]; omega),
              List.take_append_drop]
  exact hup l.length l (Nat.le_refl _)

theorem length_of_mem_slices {l s : List α} (h : s ∈ slices n l) : s.length ≤ n := by
  have hup : ∀ (fuel : Nat) (l : List α), s ∈ slicesUpTo n fuel l → s.length ≤ n := by
    intro fuel
    induction fuel with
    | zero => exact fun l h => by cases h
    | succ fuel ih =>
        intro l h
        cases l with
        | nil => cases h
        | cons a l =>
            rcases List.mem_cons.mp h with rfl | h
            · rw [List.length_take]
              exact Nat.min_le_left _ _
            · exact ih _ h
  exact hup _ l h

/-- The first slice, and the slices of the rest. -/
theorem slices_eq (hn : 0 < n) {l : List α} (hl : l ≠ []) :
    slices n l = l.take n :: slices n (l.drop n) := by
  have hup : ∀ (fuel fuel' : Nat) (l : List α), l.length ≤ fuel → l.length ≤ fuel' →
      slicesUpTo n fuel l = slicesUpTo n fuel' l := by
    intro fuel
    induction fuel with
    | zero =>
        intro fuel' l h _
        rw [List.length_eq_zero_iff.mp (Nat.le_zero.mp h)]
        cases fuel' <;> rfl
    | succ fuel ih =>
        intro fuel' l h h'
        cases l with
        | nil => cases fuel' <;> rfl
        | cons a l =>
            cases fuel' with
            | zero => cases h'
            | succ fuel' =>
                rw [List.length_cons] at h h'
                rw [slicesUpTo, slicesUpTo,
                  ih fuel' _ (by rw [List.length_drop, List.length_cons]; omega)
                    (by rw [List.length_drop, List.length_cons]; omega)]
  cases l with
  | nil => exact absurd rfl hl
  | cons a l =>
      rw [slices, List.length_cons, slicesUpTo, slices,
        hup l.length _ ((a :: l).drop n) (by rw [List.length_drop, List.length_cons]; omega)
          (Nat.le_refl _)]

/-- No slice is empty. -/
theorem ne_nil_of_mem_slices (hn : 0 < n) {l s : List α} (h : s ∈ slices n l) : s ≠ [] := by
  have hup : ∀ (fuel : Nat) (l : List α), s ∈ slicesUpTo n fuel l → s ≠ [] := by
    intro fuel
    induction fuel with
    | zero => exact fun l h => by cases h
    | succ fuel ih =>
        intro l h
        cases l with
        | nil => cases h
        | cons a l =>
            rcases List.mem_cons.mp h with rfl | h
            · simp only [ne_eq, List.take_eq_nil_iff, reduceCtorEq, or_false]
              omega
            · exact ih _ h
  exact hup _ l h

/-- There are as many slices as it takes. -/
theorem length_slices (hn : 0 < n) (l : List α) : (slices n l).length = (l.length + n - 1) / n := by
  induction hlen : l.length using Nat.strong_induction_on generalizing l with
  | _ m ih =>
      by_cases hl : l = []
      · subst hl
        subst hlen
        rw [slices, List.length_nil, slicesUpTo, List.length_nil]
        exact (Nat.div_eq_of_lt (by omega)).symm
      · have hpos : 0 < l.length := List.length_pos_iff.mpr hl
        have hdrop : (l.drop n).length = m - n := by rw [List.length_drop, hlen]
        rw [slices_eq hn hl, List.length_cons, ih (m - n) (by omega) _ hdrop]
        by_cases hle : n ≤ m
        · have hsub : m + n - 1 = m - n + n - 1 + n := by omega
          rw [hsub, Nat.add_div_right _ hn]
        · have hzero : m - n + n - 1 < n := by omega
          have hone : m + n - 1 = m - 1 + n := by omega
          rw [Nat.div_eq_of_lt hzero, hone, Nat.add_div_right _ hn, Nat.div_eq_of_lt (by omega)]

/-- Each slice is what lies at its place. -/
theorem getElem_slices (hn : 0 < n) :
    ∀ {i : Nat} {l : List α} (h : i < (slices n l).length),
      (slices n l)[i] = (l.drop (i * n)).take n := by
  intro i
  induction i with
  | zero =>
      intro l h
      have hl : l ≠ [] := by
        rintro rfl
        simp [slices, slicesUpTo] at h
      simp [slices_eq hn hl]
  | succ i ih =>
      intro l h
      have hl : l ≠ [] := by
        rintro rfl
        simp [slices, slicesUpTo] at h
      simp only [slices_eq hn hl, List.length_cons] at h
      simp only [slices_eq hn hl, List.getElem_cons_succ]
      rw [ih (by omega), List.drop_drop, Nat.add_one_mul, Nat.add_comm n]

/-- Slices of two or more are fewer than what they hold. -/
theorem length_slices_lt (hn : 2 ≤ n) {l : List α} (hl : 2 ≤ l.length) :
    (slices n l).length < l.length := by
  have hup : ∀ (fuel : Nat) (l : List α), 2 * (slicesUpTo n fuel l).length ≤ l.length + 1 := by
    intro fuel
    induction fuel with
    | zero => exact fun l => Nat.zero_le _
    | succ fuel ih =>
        intro l
        cases l with
        | nil => exact Nat.zero_le _
        | cons a l =>
            have hrest := ih ((a :: l).drop n)
            by_cases hle : n ≤ (a :: l).length
            · rw [List.length_drop] at hrest
              rw [slicesUpTo, List.length_cons]
              omega
            · have hnil : (a :: l).drop n = [] := List.drop_eq_nil_of_le (by omega)
              have hnone : slicesUpTo n fuel ([] : List α) = [] := by cases fuel <;> rfl
              rw [slicesUpTo, hnil, hnone, List.length_singleton, List.length_cons]
              omega
  have := hup l.length l
  unfold slices
  omega

end Slices

end Dfsha
