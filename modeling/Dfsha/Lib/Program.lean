import Mathlib.Data.List.Forall2
import Mathlib.Tactic.Common

/-!
# Programs that keep their state when they fail

A `Prog σ ε α` changes a state and may raise; what it changed before it raised stays changed.
Against a `Tx`, which gives up its state with a failure, this is a program whose memory nobody
rolls back.

`m.Ends s Q E` says how `m` ends from `s`: with a value and a state in `Q`, or with an exception
and a state in `E`.  It is computed from the parts of a program, and a loop has an invariant over
what is left to do.

## Main definitions

* `Prog` — the monad, with `raise`, `reads` and `modify`; `first` for a part of a state.
* `Prog.each`, `Prog.map` — loops.
* `Prog.Ends` — how a program ends.

## Main results

* `ends_bind`, `ends_pure`, `ends_raise`, `ends_reads`, `ends_modify` — the parts.
* `Ends.mono` — consequence.
* `Ends.each`, `Ends.collect`, `Ends.map` — loops.
* `bind_congr_of_ends` — what follows a program depends on what it can return.
-/

namespace Dfsha

/-- A program that changes the state `σ`, and may raise. -/
structure Prog (σ ε α : Type) where
  run : σ → Except ε α × σ

namespace Prog

variable {σ ε α β : Type}

instance : Monad (Prog σ ε) where
  pure a := ⟨fun s => (.ok a, s)⟩
  bind x f := ⟨fun s =>
    match x.run s with
    | (.ok a, t) => (f a).run t
    | (.error e, t) => (.error e, t)⟩

/-- Raise an exception. -/
def raise (e : ε) : Prog σ ε α := ⟨fun s => (.error e, s)⟩

/-- Read a part of the state. -/
def reads (f : σ → α) : Prog σ ε α := ⟨fun s => (.ok (f s), s)⟩

/-- Change the state. -/
def modify (f : σ → σ) : Prog σ ε Unit := ⟨fun s => (.ok (), f s)⟩

/-- Run a program and hand its exception on as a value. -/
def attempt (x : Prog σ ε α) : Prog σ ε (Except ε α) := ⟨fun s => (.ok (x.run s).1, (x.run s).2)⟩

/-- A program over the first part of a state. -/
def first {τ : Type} (x : Prog σ ε α) : Prog (σ × τ) ε α :=
  ⟨fun s => ((x.run s.1).1, ((x.run s.1).2, s.2))⟩

/-- Do something for each element of a list. -/
def each (f : α → Prog σ ε Unit) : List α → Prog σ ε Unit
  | [] => pure ()
  | a :: l => do
      f a
      each f l

/-- Do something for each element of a list, and keep what it returns. -/
def map (f : α → Prog σ ε β) : List α → Prog σ ε (List β)
  | [] => pure []
  | a :: l => do
      let b ← f a
      let bs ← map f l
      pure (b :: bs)

/-- How a program ends from a state. -/
def Ends (x : Prog σ ε α) (s : σ) (Q : α → σ → Prop) (E : ε → σ → Prop) : Prop :=
  match x.run s with
  | (.ok a, t) => Q a t
  | (.error e, t) => E e t

variable {x : Prog σ ε α} {s : σ} {Q Q' : α → σ → Prop} {E E' : ε → σ → Prop}

theorem ends_pure {a : α} : (pure a : Prog σ ε α).Ends s Q E ↔ Q a s := Iff.rfl

theorem ends_raise {e : ε} : (raise e : Prog σ ε α).Ends s Q E ↔ E e s := Iff.rfl

theorem ends_reads {f : σ → α} : (reads f : Prog σ ε α).Ends s Q E ↔ Q (f s) s := Iff.rfl

theorem ends_modify {f : σ → σ} {Q : Unit → σ → Prop} :
    (modify f : Prog σ ε Unit).Ends s Q E ↔ Q () (f s) := Iff.rfl

theorem ends_bind {f : α → Prog σ ε β} {Q : β → σ → Prop} :
    (x >>= f).Ends s Q E ↔ x.Ends s (fun a t => (f a).Ends t Q E) E := by
  change (match (match x.run s with
    | (.ok a, t) => (f a).run t
    | (.error e, t) => (.error e, t)) with
    | (.ok b, t) => Q b t
    | (.error e, t) => E e t) ↔ (match x.run s with
    | (.ok a, t) => (f a).Ends t Q E
    | (.error e, t) => E e t)
  rcases x.run s with ⟨_ | _, t⟩ <;> rfl

theorem ends_map {f : α → β} {Q : β → σ → Prop} :
    (f <$> x).Ends s Q E ↔ x.Ends s (fun a t => Q (f a) t) E := ends_bind

theorem ends_attempt {Q : Except ε α → σ → Prop} {E' : ε → σ → Prop} :
    (attempt x).Ends s Q E' ↔ x.Ends s (fun a t => Q (.ok a) t) fun e t => Q (.error e) t := by
  unfold Ends attempt
  cases hrun : x.run s with
  | mk r t => cases r <;> simp only [hrun]

theorem ends_first {τ : Type} {s : σ × τ} {Q : α → σ × τ → Prop} {E : ε → σ × τ → Prop} :
    (first x : Prog (σ × τ) ε α).Ends s Q E ↔
      x.Ends s.1 (fun a t => Q a (t, s.2)) fun e t => E e (t, s.2) := by
  unfold Ends first
  cases hrun : x.run s.1 with
  | mk r t => cases r <;> simp only [hrun]

theorem ends_ite {c : Prop} [Decidable c] {y : Prog σ ε α} :
    (if c then x else y).Ends s Q E ↔ (c → x.Ends s Q E) ∧ (¬ c → y.Ends s Q E) := by
  by_cases h : c <;> simp [h]

/-! ### Equal programs -/

@[ext] theorem ext {x y : Prog σ ε α} (h : ∀ s, x.run s = y.run s) : x = y := by
  obtain ⟨f⟩ := x
  obtain ⟨g⟩ := y
  exact congrArg Prog.mk (funext h)

instance : LawfulMonad (Prog σ ε) := LawfulMonad.mk' _
  (fun x => ext fun s => by
    change (match x.run s with
      | (.ok a, t) => (.ok a, t)
      | (.error e, t) => (.error e, t)) = x.run s
    rcases x.run s with ⟨_ | _, t⟩ <;> rfl)
  (fun _ _ => rfl)
  (fun x f g => ext fun s => by
    change (match (match x.run s with
        | (.ok a, t) => (f a).run t
        | (.error e, t) => (.error e, t)) with
      | (.ok b, t) => (g b).run t
      | (.error e, t) => (.error e, t)) = (match x.run s with
      | (.ok a, t) => (f a >>= g).run t
      | (.error e, t) => (.error e, t))
    rcases x.run s with ⟨_ | _, t⟩ <;> rfl)

/-- What follows a program depends on what it can return. -/
theorem bind_congr_of_ends {f g : α → Prog σ ε β}
    (h : ∀ s, x.Ends s (fun a _ => f a = g a) fun _ _ => True) : x >>= f = x >>= g := by
  refine ext fun s => ?_
  have hs := h s
  unfold Ends at hs
  change (match x.run s with
    | (.ok a, t) => (f a).run t
    | (.error e, t) => (.error e, t)) = match x.run s with
    | (.ok a, t) => (g a).run t
    | (.error e, t) => (.error e, t)
  rcases hrun : x.run s with ⟨e | a, t⟩
  · rfl
  · rw [hrun] at hs
    exact congrArg (fun y : Prog σ ε β => y.run t) hs

theorem each_append (f : α → Prog σ ε Unit) (l l' : List α) :
    each f (l ++ l') = each f l >>= fun _ => each f l' := by
  induction l with
  | nil => rfl
  | cons a l ih =>
      change (f a >>= fun _ => each f (l ++ l')) = (f a >>= fun _ => each f l) >>= fun _ => each f l'
      rw [ih, bind_assoc]

namespace Ends

/-- **Consequence.** -/
theorem mono (h : x.Ends s Q E) (hQ : ∀ a t, Q a t → Q' a t) (hE : ∀ e t, E e t → E' e t) :
    x.Ends s Q' E' := by
  unfold Ends at h ⊢
  rcases hrun : x.run s with ⟨e | a, t⟩
  · rw [hrun] at h
    exact hE e t h
  · rw [hrun] at h
    exact hQ a t h

/-- A program and what follows it. -/
theorem bind {f : α → Prog σ ε β} {Q' : β → σ → Prop} (h : x.Ends s Q E)
    (hf : ∀ a t, Q a t → (f a).Ends t Q' E) : (x >>= f).Ends s Q' E :=
  ends_bind.mpr (h.mono hf fun _ _ he => he)

/-- What a run that ends without an exception returns. -/
theorem ok {a : α} {t : σ} (h : x.Ends s Q E) (hrun : x.run s = (.ok a, t)) : Q a t := by
  unfold Ends at h
  rw [hrun] at h
  exact h

/-- What a run that ends with an exception raises. -/
theorem error {e : ε} {t : σ} (h : x.Ends s Q E) (hrun : x.run s = (.error e, t)) : E e t := by
  unfold Ends at h
  rw [hrun] at h
  exact h

/-- Two facts about one run. -/
theorem and (h : x.Ends s Q E) (h' : x.Ends s Q' E') :
    x.Ends s (fun a t => Q a t ∧ Q' a t) fun e t => E e t ∧ E' e t := by
  unfold Ends at h h' ⊢
  rcases hrun : x.run s with ⟨e | a, t⟩
  · rw [hrun] at h h'
    exact ⟨h, h'⟩
  · rw [hrun] at h h'
    exact ⟨h, h'⟩

/-- **A loop** keeps an invariant over what is left to do. -/
theorem each {f : α → Prog σ ε Unit} {I : List α → σ → Prop} {l : List α}
    (hstep : ∀ a rest t, I (a :: rest) t → (f a).Ends t (fun _ => I rest) E) (hI : I l s) :
    (Prog.each f l).Ends s (fun _ => I []) E := by
  induction l generalizing s with
  | nil => exact hI
  | cons a l ih => exact (hstep a l s hI).bind fun _ t ht => ih ht

/-- **A loop that keeps what it returns**, with an invariant over what is left to do and what was
returned. -/
theorem collect {f : α → Prog σ ε β} {I : List α → List β → σ → Prop} {l : List α}
    (hstep : ∀ a rest done t, I (a :: rest) done t →
      (f a).Ends t (fun b => I rest (done ++ [b])) E) (hI : I l [] s) :
    (Prog.map f l).Ends s (fun bs => I [] bs) E := by
  have hall : ∀ (l : List α) (done : List β) (s : σ), I l done s →
      (Prog.map f l).Ends s (fun bs t => I [] (done ++ bs) t) E := by
    intro l
    induction l with
    | nil => exact fun done s h => by simpa [Prog.map, ends_pure] using h
    | cons a l ih =>
        intro done s h
        refine (hstep a l done s h).bind fun b t ht => ?_
        refine (ih (done ++ [b]) t ht).bind fun bs u hu => ?_
        simpa [ends_pure] using hu
  exact (hall l [] s hI).mono (fun _ _ h => h) fun _ _ h => h

/-- What one turn of such a loop returns, and the invariant that it keeps. -/
theorem map {f : α → Prog σ ε β} {I : σ → Prop} {R : α → β → σ → Prop} {l : List α}
    (hkeep : ∀ a b t u, I t → R a b t → I u → R a b u)
    (hstep : ∀ a ∈ l, ∀ t, I t → (f a).Ends t (fun b u => I u ∧ R a b u) E) (hI : I s) :
    (Prog.map f l).Ends s (fun bs t => I t ∧ List.Forall₂ (fun a b => R a b t) l bs) E := by
  induction l generalizing s with
  | nil => exact ⟨hI, .nil⟩
  | cons a l ih =>
      refine (hstep a List.mem_cons_self s hI).bind fun b t ht => ?_
      refine (ih (fun c hc => hstep c (List.mem_cons_of_mem _ hc)) ht.1).bind fun bs u hu => ?_
      exact ⟨hu.1, .cons (hkeep a b t u ht.1 ht.2 hu.1) hu.2⟩

end Ends

end Prog

end Dfsha
