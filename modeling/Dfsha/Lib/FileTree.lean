import Mathlib.Data.List.Infix
import Mathlib.Logic.Function.Basic

/-!
# Trees of files

What stands below a directory, by the path from there: directories, and files with their content.
Which paths can be made at all is a parameter, as a file system refuses some names.

## Main definitions

* `FileTree`, `FileTree.fresh` — a tree, and the one with nothing in it.
* `FileTree.makeDirs`, `FileTree.create`, `FileTree.write` — the operations, which can fail.
* `Apart` — neither of two paths is the other one, or below it.
* `FileTree.Holds` — the tree has exactly these files, and the directories above them.

## Main results

* `FileTree.Holds.place_iff` — where a file can be put that was not there, with its directories.
-/

namespace Dfsha

/-- What stands at a path. -/
inductive FileTree.Node (β : Type)
  | directory
  | file (content : β)
  deriving DecidableEq, Repr

/-- What stands at each path below a directory. -/
abbrev FileTree (α β : Type) := List α → Option (FileTree.Node β)

/-- Neither path is the other one, or below it. -/
def Apart {α : Type} (p q : List α) : Prop := ¬ p <+: q ∧ ¬ q <+: p

instance {α : Type} [DecidableEq α] (p q : List α) : Decidable (Apart p q) :=
  inferInstanceAs (Decidable (_ ∧ _))

theorem Apart.symm {α : Type} {p q : List α} (h : Apart p q) : Apart q p := ⟨h.2, h.1⟩

namespace FileTree

variable {α β : Type}

/-- A directory with nothing in it. -/
def fresh : FileTree α β := fun p => if p = [] then some .directory else none

/-! ## What a tree has -/

/-- What is above the directory of a path is above the path. -/
theorem prefix_dropLast_iff {p q : List α} (hp : p ≠ []) :
    q <+: p.dropLast ↔ q <+: p ∧ q ≠ p := by
  have hsplit := List.dropLast_append_getLast hp
  have hlen := congrArg List.length hsplit
  rw [List.length_append, List.length_singleton] at hlen
  constructor
  · intro h
    refine ⟨h.trans (List.dropLast_prefix p), fun he => ?_⟩
    have hle := h.length_le
    rw [he] at hle
    omega
  · intro ⟨h, hne⟩
    rw [← hsplit, List.prefix_concat_iff] at h
    rcases h with he | h
    · exact absurd (he.trans hsplit) hne
    · exact h

/-- A tree has exactly these files, and the directories above them. -/
structure Holds (t : FileTree α β) (files : List (List α × β)) : Prop where
  file : ∀ p b, t p = some (.file b) ↔ (p, b) ∈ files
  directory : ∀ p, t p = some .directory ↔ p = [] ∨ ∃ f ∈ files, p <+: f.1 ∧ p ≠ f.1

theorem holds_fresh : Holds (fresh : FileTree α β) [] where
  file p b := by
    by_cases hp : p = []
    · simp [fresh, hp]
    · simp [fresh, hp]
  directory p := by simp [fresh]

namespace Holds

variable {t : FileTree α β} {files : List (List α × β)} {p : List α} {b : β}

/-- Nothing stands at a path that is apart from the files. -/
theorem none_of_apart (h : Holds t files) (hp : p ≠ []) (hapart : ∀ f ∈ files, Apart p f.1) :
    t p = none := by
  cases hnode : t p with
  | none => rfl
  | some node =>
      cases node with
      | directory =>
          rcases (h.directory p).mp hnode with he | ⟨f, hf, hpre, -⟩
          · exact absurd he hp
          · exact absurd hpre (hapart f hf).1
      | file c => exact absurd (List.prefix_refl p) (hapart _ ((h.file p c).mp hnode)).1

/-- What is not a directory and not free is a file. -/
theorem apart_of_none (h : Holds t files) (hnone : t p = none)
    (habove : ∀ q, q <+: p → q ≠ p → ∀ c, t q ≠ some (.file c)) :
    p ≠ [] ∧ ∀ f ∈ files, Apart p f.1 := by
  constructor
  · intro hp
    rw [(h.directory p).mpr (.inl hp)] at hnone
    cases hnone
  · intro f hf
    have hfile := (h.file f.1 f.2).mpr hf
    have hne : p ≠ f.1 := by
      intro he
      rw [he, hfile] at hnone
      cases hnone
    constructor
    · intro hpre
      rw [(h.directory p).mpr (.inr ⟨f, hf, hpre, hne⟩)] at hnone
      cases hnone
    · intro hpre
      exact habove f.1 hpre hne.symm f.2 hfile

/-- A tree with one more file, and the directories above it. -/
theorem add (h : Holds t files) (hp : p ≠ []) (hapart : ∀ f ∈ files, Apart p f.1)
    {t' : FileTree α β} (hat : t' p = some (.file b))
    (habove : ∀ q, q <+: p → q ≠ p → t' q = some .directory)
    (helse : ∀ q, ¬ q <+: p → t' q = t q) : Holds t' (files ++ [(p, b)]) where
  file q c := by
    rw [List.mem_append, List.mem_singleton, Prod.mk.injEq]
    by_cases he : q = p
    · subst he
      have hfree : (q, c) ∉ files := fun hf => (hapart _ hf).1 (List.prefix_refl q)
      simp [hat, hfree, eq_comm]
    · by_cases hpre : q <+: p
      · have hfree : (q, c) ∉ files := fun hf => (hapart _ hf).2 hpre
        simp [habove q hpre he, hfree, he]
      · simp [helse q hpre, h.file, he]
  directory q := by
    by_cases he : q = p
    · subst he
      have hfree : ¬ ∃ f ∈ files, q <+: f.1 ∧ q ≠ f.1 := fun ⟨f, hf, hpre, _⟩ =>
        (hapart f hf).1 hpre
      simp only [hat, Option.some.injEq, reduceCtorEq, false_iff, not_or]
      refine ⟨hp, fun ⟨f, hf, hpre, hne⟩ => ?_⟩
      rcases List.mem_append.mp hf with hf | hf
      · exact hfree ⟨f, hf, hpre, hne⟩
      · rw [List.mem_singleton.mp hf] at hne
        exact hne rfl
    · by_cases hpre : q <+: p
      · simp only [habove q hpre he, true_iff]
        exact .inr ⟨(p, b), List.mem_append_right _ List.mem_cons_self, hpre, he⟩
      · rw [helse q hpre, h.directory]
        simp only [List.mem_append, List.mem_singleton, or_and_right, exists_or,
          exists_eq_left, hpre, false_and, or_false]

end Holds

/-! ## Operations -/

variable [DecidableEq α] [DecidableEq β] (admits : List α → Bool)

/-- Make a directory and those above it, where they are not there. -/
def makeDirs (t : FileTree α β) (p : List α) : Option (FileTree α β) :=
  if ∀ q ∈ p.inits, t q = some .directory ∨ t q = none ∧ admits q = true then
    some fun q => if q ∈ p.inits then some .directory else t q
  else none

/-- Make a file that is not there. -/
def create (t : FileTree α β) (p : List α) (content : β) : Option (FileTree α β) :=
  if t p = none ∧ admits p = true then some (Function.update t p (some (.file content))) else none

/-- Write a file, which may be there. -/
def write (t : FileTree α β) (p : List α) (content : β) : Option (FileTree α β) :=
  if t p = some .directory ∨ t p = none ∧ admits p = false then none
  else some (Function.update t p (some (.file content)))

omit [DecidableEq β] in
variable {admits} in
/-- A file that was made is made with what is written to it then. -/
theorem create_update {t t' : FileTree α β} {p : List α} {b c : β}
    (h : create admits t p b = some t') :
    create admits t p c = some (Function.update t' p (some (.file c))) := by
  unfold create at h ⊢
  simp only [Option.ite_none_right_eq_some, Option.some.injEq] at h
  obtain ⟨hfree, rfl⟩ := h
  rw [if_pos hfree, Function.update_idem]

namespace Holds

variable {admits} {t : FileTree α β} {files : List (List α × β)} {p : List α} {b : β}

/-- **Where a file can be put** that was not there, with its directories: apart from the others. -/
theorem place_iff (hadmits : ∀ p q : List α, q <+: p → admits p = true → admits q = true)
    (h : Holds t files) :
    (∃ t₁ t₂, makeDirs admits t p.dropLast = some t₁ ∧ create admits t₁ p b = some t₂) ↔
      admits p = true ∧ p ≠ [] ∧ ∀ f ∈ files, Apart p f.1 := by
  have hself : ∀ q : List α, q ∈ p.dropLast.inits ↔ q <+: p.dropLast := fun q => List.mem_inits q _
  constructor
  · rintro ⟨t₁, t₂, hdirs, hcreate⟩
    unfold makeDirs at hdirs
    unfold create at hcreate
    simp only [Option.ite_none_right_eq_some, Option.some.injEq] at hdirs hcreate
    obtain ⟨hall, rfl⟩ := hdirs
    obtain ⟨⟨hnone, hadm⟩, -⟩ := hcreate
    dsimp only at hnone
    split at hnone
    · cases hnone
    · refine ⟨hadm, h.apart_of_none hnone fun q hpre hne c hfile => ?_⟩
      have hp : p ≠ [] := fun he => hne (by rw [he, List.prefix_nil] at hpre; rw [hpre, he])
      rcases hall q ((hself q).mpr ((prefix_dropLast_iff hp).mpr ⟨hpre, hne⟩)) with hd | hd
      · rw [hfile] at hd
        cases hd
      · rw [hfile] at hd
        cases hd.1
  · rintro ⟨hadm, hp, hapart⟩
    have hall : ∀ q ∈ p.dropLast.inits, t q = some .directory ∨ t q = none ∧ admits q = true := by
      intro q hq
      obtain ⟨hpre, hne⟩ := (prefix_dropLast_iff hp).mp ((hself q).mp hq)
      cases hnode : t q with
      | none => exact .inr ⟨rfl, hadmits p q hpre hadm⟩
      | some node =>
          cases node with
          | directory => exact .inl rfl
          | file c => exact absurd hpre (hapart _ ((h.file q c).mp hnode)).2
    have hself' : p ∉ p.dropLast.inits := fun hmem =>
      ((prefix_dropLast_iff hp).mp ((hself p).mp hmem)).2 rfl
    refine ⟨_, _, if_pos hall, if_pos ⟨?_, hadm⟩⟩
    exact (if_neg hself').trans (h.none_of_apart hp hapart)

/-- What the tree is then. -/
theorem place (h : Holds t files) (hp : p ≠ []) (hapart : ∀ f ∈ files, Apart p f.1)
    {t₁ t₂ : FileTree α β} (hdirs : makeDirs admits t p.dropLast = some t₁)
    (hcreate : create admits t₁ p b = some t₂) : Holds t₂ (files ++ [(p, b)]) := by
  unfold makeDirs at hdirs
  unfold create at hcreate
  simp only [Option.ite_none_right_eq_some, Option.some.injEq] at hdirs hcreate
  obtain ⟨-, rfl⟩ := hdirs
  obtain ⟨-, rfl⟩ := hcreate
  refine h.add hp hapart (Function.update_self _ _ _) ?_ ?_
  · intro q hpre hne
    rw [Function.update_of_ne hne]
    exact if_pos ((List.mem_inits q _).mpr ((prefix_dropLast_iff hp).mpr ⟨hpre, hne⟩))
  · intro q hpre
    have hne : q ≠ p := fun he => hpre (he ▸ List.prefix_refl q)
    rw [Function.update_of_ne hne]
    exact if_neg fun hmem => hpre (((List.mem_inits q _).mp hmem).trans (List.dropLast_prefix p))

/-- A file that can be written is not above another one. -/
theorem write_iff (h : Holds t files) (hp : p ≠ []) :
    (∃ t', write admits t p b = some t') ↔
      (∀ f ∈ files, p <+: f.1 → p = f.1) ∧ (t p = none → admits p = true) := by
  have hdir : t p = some .directory ↔ ∃ f ∈ files, p <+: f.1 ∧ p ≠ f.1 := by
    rw [h.directory]
    simp [hp]
  unfold write
  simp only [Option.ite_none_left_eq_some, exists_and_left, not_or, hdir, not_and,
    Bool.not_eq_false, not_exists, ne_eq, not_not]
  exact and_iff_left ⟨_, rfl⟩

/-- A new file at the top. -/
theorem write_top (h : Holds t files) {a : α} (hapart : ∀ f ∈ files, Apart [a] f.1)
    {t' : FileTree α β} (hwrite : write admits t [a] b = some t') :
    Holds t' (files ++ [([a], b)]) := by
  unfold write at hwrite
  simp only [Option.ite_none_left_eq_some, Option.some.injEq] at hwrite
  obtain ⟨-, rfl⟩ := hwrite
  refine h.add (List.cons_ne_nil a []) hapart (Function.update_self _ _ _) ?_ ?_
  · intro q hpre hne
    have hq : q = [] := by
      rcases List.prefix_cons_iff.mp hpre with he | ⟨s, hs, hpre⟩
      · exact he
      · rw [List.prefix_nil.mp hpre] at hs
        exact absurd hs hne
    rw [Function.update_of_ne hne]
    exact (h.directory q).mpr (.inl hq)
  · intro q hpre
    have hne : q ≠ [a] := fun he => hpre (he ▸ List.prefix_refl q)
    exact Function.update_of_ne hne _ _

end Holds

end FileTree

end Dfsha
