import Mathlib.Data.List.FinRange
import Mathlib.Data.List.Nodup
import Mathlib.Data.List.Perm.Subperm
import Mathlib.Data.List.Forall2
import Mathlib.Data.Nat.Find
import Mathlib.Tactic.Common

/-!
# Content in addressed pages

A page is a leaf that holds content, or an index of the pages that hold it.  `view` says what
page an address stands for; the pages of a view may be shared and need not be a tree.

Reading goes down from an address and takes as many steps as it is given.  What can be read with
some number of steps can be read with as many steps as there are pages: the least numbers of
steps go down by one from a page to one of its children, so no page stands twice on a way down.

## Main definitions

* `Node`, `read` — a page, and what is read at an address.
* `Holds` — what an address stands for.
* `Within` — the pages under an address.

## Main results

* `Holds.unique` — an address stands for one content.
* `Holds.read` — it is read with as many steps as there are pages.
* `Holds.within` — all pages under an address are there, if it can be read.
* `Holds.of_agree` — what an address stands for depends only on the pages under it.
-/

namespace Dfsha.Addressed

/-- A page. -/
inductive Node (δ β : Type)
  | leaf (content : List β)
  | index (children : List δ)

variable {δ β : Type}

/-- In two lists that belong together, an element of the first has a partner in the second. -/
theorem partner_of_mem {γ : Type} {R : δ → γ → Prop} {l : List δ} {l' : List γ} {d : δ}
    (h : List.Forall₂ R l l') (hd : d ∈ l) : ∃ p ∈ l', R d p := by
  induction h with
  | nil => cases hd
  | cons hR _ ih =>
      rcases List.mem_cons.mp hd with rfl | hd
      · exact ⟨_, List.mem_cons_self, hR⟩
      · obtain ⟨p, hp, hdp⟩ := ih hd
        exact ⟨p, List.mem_cons_of_mem _ hp, hdp⟩

/-- What the parts say, one after the other. -/
def gather (f : δ → Option (List β)) : List δ → Option (List β)
  | [] => some []
  | d :: ds => (f d).bind fun p => (gather f ds).map fun q => p ++ q

theorem gather_eq_some {f : δ → Option (List β)} {ds : List δ} {p : List β} :
    gather f ds = some p ↔ ∃ ps, List.Forall₂ (fun d q => f d = some q) ds ps ∧ p = ps.flatten := by
  induction ds generalizing p with
  | nil => simp [gather, eq_comm]
  | cons d ds ih =>
      simp only [gather, Option.bind_eq_some_iff, Option.map_eq_some_iff, ih]
      constructor
      · rintro ⟨q, hq, r, ⟨ps, hps, rfl⟩, rfl⟩
        exact ⟨q :: ps, .cons hq hps, rfl⟩
      · rintro ⟨_ | ⟨q, ps⟩, hall, rfl⟩
        · cases hall
        · obtain ⟨hq, hps⟩ := List.forall₂_cons.mp hall
          exact ⟨q, hq, ps.flatten, ⟨ps, hps, rfl⟩, rfl⟩

theorem gather_mono {f g : δ → Option (List β)} {ds : List δ} {p : List β}
    (h : ∀ d ∈ ds, ∀ q, f d = some q → g d = some q) (hp : gather f ds = some p) :
    gather g ds = some p := by
  induction ds generalizing p with
  | nil => exact hp
  | cons d ds ih =>
      simp only [gather, Option.bind_eq_some_iff, Option.map_eq_some_iff] at hp ⊢
      obtain ⟨q, hq, r, hr, rfl⟩ := hp
      exact ⟨q, h d List.mem_cons_self q hq, r,
        ih (fun c hc => h c (List.mem_cons_of_mem _ hc)) hr, rfl⟩

theorem isSome_of_gather {f : δ → Option (List β)} {ds : List δ}
    (h : (gather f ds).isSome = true) : ∀ d ∈ ds, (f d).isSome = true := by
  obtain ⟨p, hp⟩ := Option.isSome_iff_exists.mp h
  obtain ⟨ps, hall, -⟩ := gather_eq_some.mp hp
  intro d hd
  obtain ⟨q, -, hq⟩ := partner_of_mem hall hd
  exact Option.isSome_iff_exists.mpr ⟨q, hq⟩

theorem gather_isSome {f : δ → Option (List β)} {ds : List δ}
    (h : ∀ d ∈ ds, (f d).isSome = true) : (gather f ds).isSome = true := by
  induction ds with
  | nil => rfl
  | cons d ds ih =>
      obtain ⟨p, hp⟩ := Option.isSome_iff_exists.mp (h d List.mem_cons_self)
      obtain ⟨q, hq⟩ := Option.isSome_iff_exists.mp
        (ih fun c hc => h c (List.mem_cons_of_mem _ hc))
      simp [gather, hp, hq]

/-- What is read at an address in a number of steps. -/
def read (view : δ → Option (Node δ β)) : Nat → δ → Option (List β)
  | 0, _ => none
  | n + 1, d =>
      match view d with
      | none => none
      | some (.leaf p) => some p
      | some (.index ds) => gather (read view n) ds

variable {view view' : δ → Option (Node δ β)} {d : δ} {p q : List β}

theorem read_leaf {n : Nat} (h : view d = some (.leaf p)) : read view (n + 1) d = some p := by
  rw [read, h]

theorem read_index {n : Nat} {ds : List δ} (h : view d = some (.index ds)) :
    read view (n + 1) d = gather (read view n) ds := by
  rw [read, h]

/-- More steps and more pages do not change what is read. -/
theorem read_mono (hview : ∀ d node, view d = some node → view' d = some node) {n m : Nat}
    (hle : n ≤ m) (h : read view n d = some p) : read view' m d = some p := by
  induction n generalizing m d p with
  | zero => cases h
  | succ n ih =>
      obtain ⟨m, rfl⟩ : ∃ k, m = k + 1 := ⟨m - 1, by omega⟩
      cases hd : view d with
      | none => simp [read, hd] at h
      | some node =>
          cases node with
          | leaf q =>
              rw [read_leaf hd] at h
              rw [read_leaf (hview d _ hd), h]
          | index ds =>
              rw [read_index hd] at h
              rw [read_index (hview d _ hd)]
              exact gather_mono (fun c _ r hr => ih (by omega) hr) h

/-- What an address stands for. -/
def Holds (view : δ → Option (Node δ β)) (d : δ) (p : List β) : Prop :=
  ∃ n, read view n d = some p

namespace Holds

theorem leaf (h : view d = some (.leaf p)) : Holds view d p := ⟨1, read_leaf h⟩

/-- An index stands for what its parts stand for. -/
theorem index {ds : List δ} {ps : List (List β)} (h : view d = some (.index ds))
    (hall : List.Forall₂ (Holds view) ds ps) : Holds view d ps.flatten := by
  have hsteps : ∃ n, List.Forall₂ (fun c q => read view n c = some q) ds ps := by
    clear h
    induction hall with
    | nil => exact ⟨0, .nil⟩
    | cons hc _ ih =>
        obtain ⟨n, hn⟩ := hc
        obtain ⟨m, hm⟩ := ih
        refine ⟨max n m, .cons (read_mono (fun _ _ h => h) (Nat.le_max_left n m) hn) ?_⟩
        exact hm.imp fun c q hq => read_mono (fun _ _ h => h) (Nat.le_max_right n m) hq
  obtain ⟨n, hn⟩ := hsteps
  exact ⟨n + 1, by rw [read_index h, gather_eq_some]; exact ⟨ps, hn, rfl⟩⟩

/-- **An address stands for one content.** -/
theorem unique (h : Holds view d p) (h' : Holds view d q) : p = q := by
  obtain ⟨n, hn⟩ := h
  obtain ⟨m, hm⟩ := h'
  have hp := @read_mono _ _ view view _ _ (fun _ _ h => h) _ _ (Nat.le_max_left n m) hn
  have hq := @read_mono _ _ view view _ _ (fun _ _ h => h) _ _ (Nat.le_max_right n m) hm
  exact Option.some.inj (hp.symm.trans hq)

theorem mono (hview : ∀ d node, view d = some node → view' d = some node) (h : Holds view d p) :
    Holds view' d p := by
  obtain ⟨n, hn⟩ := h
  exact ⟨n, read_mono hview (Nat.le_refl n) hn⟩

/-- An address that can be read is that of a leaf or of an index whose parts can be read. -/
theorem cases (h : Holds view d p) : view d = some (.leaf p) ∨
    ∃ ds ps, view d = some (.index ds) ∧ List.Forall₂ (Holds view) ds ps ∧ p = ps.flatten := by
  obtain ⟨n, hn⟩ := h
  cases n with
  | zero => cases hn
  | succ n =>
      cases hd : view d with
      | none => simp [Addressed.read, hd] at hn
      | some node =>
          cases node with
          | leaf q =>
              rw [read_leaf hd, Option.some.injEq] at hn
              exact .inl (by rw [hn])
          | index ds =>
              rw [read_index hd, gather_eq_some] at hn
              obtain ⟨ps, hps, rfl⟩ := hn
              exact .inr ⟨ds, ps, rfl, hps.imp fun c q hq => ⟨n, hq⟩, rfl⟩

end Holds

/-! ## How many steps it takes -/

/-- The least number of steps in which an address can be read. -/
def Least (view : δ → Option (Node δ β)) (n : Nat) (d : δ) : Prop :=
  (read view n d).isSome = true ∧ ∀ m < n, read view m d = none

theorem Least.unique {n m : Nat} (h : Least view n d) (h' : Least view m d) : n = m := by
  rcases Nat.lt_trichotomy n m with hlt | heq | hlt
  · have hsome := h.1
    rw [h'.2 n hlt] at hsome
    cases hsome
  · exact heq
  · have hsome := h'.1
    rw [h.2 m hlt] at hsome
    cases hsome

/-- Below an address that takes more than one step is one that takes one step less. -/
theorem Least.below {n : Nat} (h : Least view (n + 2) d) : ∃ c, Least view (n + 1) c := by
  obtain ⟨hsome, hnone⟩ := h
  have hbefore := hnone (n + 1) (by omega)
  cases hd : view d with
  | none => simp [read, hd] at hsome
  | some node =>
      cases node with
      | leaf p =>
          rw [read_leaf hd] at hbefore
          cases hbefore
      | index ds =>
          rw [read_index hd] at hsome hbefore
          obtain ⟨c, hc, hcnone⟩ : ∃ c ∈ ds, read view n c = none := by
            by_contra hall
            have hall : ∀ c ∈ ds, (read view n c).isSome = true := fun c hc =>
              Option.isSome_iff_ne_none.mpr fun hcn => hall ⟨c, hc, hcn⟩
            have hgather := gather_isSome hall
            rw [hbefore] at hgather
            cases hgather
          refine ⟨c, isSome_of_gather hsome c hc, fun m hm => ?_⟩
          cases hread : read view m c with
          | none => rfl
          | some q =>
              rw [read_mono (fun _ _ h => h) (by omega : m ≤ n) hread] at hcnone
              cases hcnone

theorem Least.chain {n : Nat} (h : Least view n d) : ∀ k, 0 < k → k ≤ n → ∃ c, Least view k c := by
  induction n generalizing d with
  | zero => exact fun k hpos hle => absurd hle (by omega)
  | succ n ih =>
      intro k hpos hle
      by_cases heq : k = n + 1
      · exact ⟨d, heq ▸ h⟩
      · obtain ⟨m, rfl⟩ : ∃ m, n = m + 1 := ⟨n - 1, by omega⟩
        obtain ⟨c, hc⟩ := h.below
        exact ih hc k hpos (by omega)

/-- **As many steps as there are pages are enough.** -/
theorem Holds.read [DecidableEq δ] {pages : List δ}
    (hpages : ∀ d node, view d = some node → d ∈ pages) (h : Holds view d p) :
    read view pages.length d = some p := by
  have hex : ∃ n, (Addressed.read view n d).isSome = true := by
    obtain ⟨n, hn⟩ := h
    exact ⟨n, by rw [hn]; rfl⟩
  obtain ⟨n, hleast⟩ : ∃ n, Least view n d := by
    refine ⟨Nat.find hex, Nat.find_spec hex, fun m hm => ?_⟩
    exact Option.not_isSome_iff_eq_none.mp (Nat.find_min hex hm)
  have hchain : ∀ i : Fin n, ∃ c, Least view (i.val + 1) c := fun i =>
    hleast.chain _ (by omega) (by omega)
  choose f hf using hchain
  have hmem : ∀ i, f i ∈ pages := by
    intro i
    have hsome := (hf i).1
    cases hv : view (f i) with
    | none => simp [Addressed.read, hv] at hsome
    | some node => exact hpages _ node hv
  have hinj : Function.Injective f := by
    intro i j hij
    have heq := (hf i).unique (hij ▸ hf j)
    exact Fin.ext (by omega)
  have hlength : n ≤ pages.length := by
    have hnodup : ((List.finRange n).map f).Nodup := (List.nodup_finRange n).map hinj
    have hsub : (List.finRange n).map f ⊆ pages := by
      intro c hc
      obtain ⟨i, -, rfl⟩ := List.mem_map.mp hc
      exact hmem i
    simpa using (List.subperm_of_subset hnodup hsub).length_le
  obtain ⟨q, hq⟩ := Option.isSome_iff_exists.mp hleast.1
  rw [h.unique ⟨n, hq⟩]
  exact read_mono (fun _ _ h => h) hlength hq

/-! ## The pages under an address -/

/-- A page is under an address. -/
inductive Within (view : δ → Option (Node δ β)) : δ → δ → Prop
  | refl (d : δ) : Within view d d
  | child {d c x : δ} {ds : List δ} (h : view d = some (.index ds)) (hc : c ∈ ds)
      (hx : Within view c x) : Within view d x

/-- **All pages under an address are there, if it can be read.** -/
theorem Holds.within {x : δ} (hw : Within view d x) :
    ∀ {p : List β}, Holds view d p → ∃ q, Holds view x q := by
  induction hw with
  | refl d => exact fun h => ⟨_, h⟩
  | @child d c x ds hd hc _ ih =>
      intro p h
      obtain hleaf | ⟨ds', ps, hindex, hall, -⟩ := h.cases
      · rw [hd] at hleaf
        cases hleaf
      · rw [hd, Option.some.injEq, Node.index.injEq] at hindex
        subst hindex
        obtain ⟨q, -, hq⟩ := partner_of_mem hall hc
        exact ih hq

theorem Holds.isSome (h : Holds view d p) : (view d).isSome = true := by
  obtain hleaf | ⟨ds, ps, hindex, -, -⟩ := h.cases
  · rw [hleaf]
    rfl
  · rw [hindex]
    rfl

/-- **What an address stands for depends only on the pages under it.** -/
theorem Holds.of_agree (h : Holds view d p)
    (hagree : ∀ x, Within view d x → view' x = view x) : Holds view' d p := by
  obtain ⟨n, hn⟩ := h
  refine ⟨n, ?_⟩
  induction n generalizing d p with
  | zero => cases hn
  | succ n ih =>
      have hd := hagree d (.refl d)
      cases hv : view d with
      | none => simp [Addressed.read, hv] at hn
      | some node =>
          rw [hv] at hd
          cases node with
          | leaf q =>
              rw [read_leaf hv] at hn
              rw [read_leaf hd, hn]
          | index ds =>
              rw [read_index hv] at hn
              rw [read_index hd]
              exact gather_mono (fun c hc q hq => ih (fun x hx => hagree x (.child hv hc hx)) hq) hn

/-- The pages under an address are the same in a view that has them. -/
theorem Within.of_agree {x : δ} (hagree : ∀ y, Within view d y → view' y = view y)
    (h : Within view d x) : Within view' d x := by
  induction h with
  | refl d => exact .refl d
  | child hd hc _ ih =>
      exact .child ((hagree _ (.refl _)).trans hd) hc (ih fun y hy => hagree y (.child hd hc hy))

end Dfsha.Addressed
