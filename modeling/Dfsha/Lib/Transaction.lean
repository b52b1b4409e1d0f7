import Dfsha.Lib.Table
import Mathlib.Data.List.Forall2
import Mathlib.Tactic.Common

/-!
# Queries and transactions

A `Query σ ε α` reads a state and may fail; a `Tx σ ε α` also changes it.  A
failed transaction returns no state at all, so rolling back is not something a
program can forget: the caller still holds the state it started from.

A query inside a transaction is a statement of that transaction, and statements
take time: lifting a query applies `Ticking.tick` once.  A state whose `tick` moves
a clock therefore sees time pass between any two statements, and never inside one.

Everything known about a successful run is read off by the `_ok` lemmas, which
turn the equation "this program returned that" into the intermediate results.

## Main definitions

* `Query`, `Tx` — the two monads, with `Tx.modify` the only primitive that writes.
* `bind_ok`, `pure_ok`, `lift_ok`, `modify_ok` — inversion of a successful run.
* `Query.each_ok` — a loop of queries succeeds exactly when every turn does.
* `Tx.each_induction`, `Tx.fold_induction` — the loop rules for transactions.
* `Tx.each_rows` — the rule for a loop over the records of a table whose turns each write
  their own record only.
-/

namespace Dfsha

/-- A fallible read of the state `σ`. -/
structure Query (σ ε α : Type) where
  run : σ → Except ε α

/-- A fallible change of the state `σ`. -/
structure Tx (σ ε α : Type) where
  run : σ → Except ε (α × σ)

instance {σ ε α : Type} : CoeFun (Query σ ε α) fun _ => σ → Except ε α := ⟨Query.run⟩

instance {σ ε α : Type} : CoeFun (Tx σ ε α) fun _ => σ → Except ε (α × σ) := ⟨Tx.run⟩

/-- What one statement of a transaction does to the clock of the state. -/
class Ticking (σ : Type) where
  /-- The state one statement later. -/
  tick : σ → σ

variable {σ ε α β : Type}

namespace Query

instance : Monad (Query σ ε) where
  pure a := ⟨fun _ => .ok a⟩
  bind x f := ⟨fun s => match x s with
    | .ok a => f a s
    | .error e => .error e⟩

/-- End with a failure. -/
def fail (e : ε) : Query σ ε α := ⟨fun _ => .error e⟩

/-- Read a part of the state. -/
def read (f : σ → α) : Query σ ε α := ⟨fun s => .ok (f s)⟩

/-- Run a query and hand its failure to the continuation as a value. -/
def attempt (q : Query σ ε α) : Query σ ε (Except ε α) := ⟨fun s => .ok (q s)⟩

@[simp] theorem bind_ok {x : Query σ ε α} {f : α → Query σ ε β} {s : σ} {b : β} :
    (x >>= f) s = .ok b ↔ ∃ a, x s = .ok a ∧ f a s = .ok b := by
  change (match x s with | .ok a => f a s | .error e => .error e) = .ok b ↔ _
  cases h : x s <;> simp

/-- A query fails in its first part or in its second. -/
theorem bind_error {x : Query σ ε α} {f : α → Query σ ε β} {s : σ} {e : ε} :
    (x >>= f) s = .error e ↔ x s = .error e ∨ ∃ a, x s = .ok a ∧ f a s = .error e := by
  change (match x s with | .ok a => f a s | .error e => .error e) = .error e ↔ _
  cases h : x s <;> simp

theorem read_error {f : σ → α} {s : σ} {e : ε} : ¬ (read f : Query σ ε α) s = .error e := by
  simp [read]

@[simp] theorem pure_ok {a b : α} {s : σ} : (pure a : Query σ ε α) s = .ok b ↔ a = b :=
  Except.ok.injEq a b ▸ Iff.rfl

@[simp] theorem fail_ok {e : ε} {s : σ} {a : α} : (fail e : Query σ ε α) s = .ok a ↔ False := by
  simp [fail]

@[simp] theorem read_ok {f : σ → α} {s : σ} {a : α} :
    (read f : Query σ ε α) s = .ok a ↔ f s = a := by
  simp [read]

@[simp] theorem attempt_ok {q : Query σ ε α} {s : σ} {r : Except ε α} :
    (attempt q) s = .ok r ↔ q s = r := by
  simp [attempt]

/-- Run a query for each element of a list, stopping at the first failure. -/
def each (l : List α) (f : α → Query σ ε Unit) : Query σ ε Unit :=
  match l with
  | [] => pure ()
  | a :: l => do
      f a
      each l f

/-- **A loop of queries succeeds exactly when each of its turns does.** -/
theorem each_ok {l : List α} {f : α → Query σ ε Unit} {s : σ} {u : Unit} :
    (each l f) s = .ok u ↔ ∀ a ∈ l, f a s = .ok () := by
  induction l with
  | nil => simp [each]
  | cons a l ih =>
      rw [each, bind_ok]
      constructor
      · rintro ⟨⟨⟩, ha, hl⟩ b hb
        rcases List.mem_cons.mp hb with rfl | hb
        · exact ha
        · exact ih.mp hl b hb
      · intro h
        exact ⟨(), h a List.mem_cons_self, ih.mpr fun b hb => h b (List.mem_cons_of_mem _ hb)⟩

/-- Run a query for each element of a list and keep the answers. -/
def map (l : List α) (f : α → Query σ ε β) : Query σ ε (List β) :=
  match l with
  | [] => pure []
  | a :: l => do
      let b ← f a
      let rest ← map l f
      pure (b :: rest)

theorem map_ok {l : List α} {f : α → Query σ ε β} {s : σ} {bs : List β} :
    (map l f) s = .ok bs ↔ List.Forall₂ (fun a b => f a s = .ok b) l bs := by
  induction l generalizing bs with
  | nil =>
      rw [map, pure_ok, List.forall₂_nil_left_iff]
      exact eq_comm
  | cons a l ih =>
      simp only [map, bind_ok, pure_ok, List.forall₂_cons_left_iff, ih]
      constructor
      · rintro ⟨b, hb, rest, hrest, rfl⟩
        exact ⟨b, rest, hb, hrest, rfl⟩
      · rintro ⟨b, rest, hb, hrest, rfl⟩
        exact ⟨b, hb, rest, hrest, rfl⟩

/-- Every answer is the answer for some element, and every element has one. -/
theorem map_mem {l : List α} {f : α → Query σ ε β} {s : σ} {bs : List β}
    (h : (map l f) s = .ok bs) :
    (∀ a ∈ l, ∃ b ∈ bs, f a s = .ok b) ∧ ∀ b ∈ bs, ∃ a ∈ l, f a s = .ok b := by
  rw [map_ok] at h
  induction h with
  | nil => exact ⟨fun _ h => absurd h List.not_mem_nil, fun _ h => absurd h List.not_mem_nil⟩
  | @cons a b l bs hab _ ih =>
      refine ⟨fun x hx => ?_, fun y hy => ?_⟩
      · rcases List.mem_cons.mp hx with rfl | hx
        · exact ⟨b, List.mem_cons_self, hab⟩
        · obtain ⟨y, hy, hxy⟩ := ih.1 x hx
          exact ⟨y, List.mem_cons_of_mem _ hy, hxy⟩
      · rcases List.mem_cons.mp hy with rfl | hy
        · exact ⟨a, List.mem_cons_self, hab⟩
        · obtain ⟨x, hx, hxy⟩ := ih.2 y hy
          exact ⟨x, List.mem_cons_of_mem _ hx, hxy⟩

/-- A loop of queries that each have an answer has answers. -/
theorem map_total {l : List α} {f : α → Query σ ε β} {s : σ} (h : ∀ a ∈ l, ∃ b, f a s = .ok b) :
    ∃ bs, (map l f) s = .ok bs := by
  induction l with
  | nil => exact ⟨[], rfl⟩
  | cons a l ih =>
      obtain ⟨b, hb⟩ := h a List.mem_cons_self
      obtain ⟨bs, hbs⟩ := ih fun c hc => h c (List.mem_cons_of_mem _ hc)
      refine ⟨b :: bs, ?_⟩
      simp only [map, bind_ok, pure_ok]
      exact ⟨b, hb, bs, hbs, rfl⟩

/-- What an element and its answer have in common, the lists have in common. -/
theorem map_eq_map {γ : Type} {l : List α} {f : α → Query σ ε β} {s : σ} {bs : List β} {g : α → γ}
    {k : β → γ} (hgk : ∀ a b, f a s = .ok b → g a = k b) (h : (map l f) s = .ok bs) :
    l.map g = bs.map k := by
  rw [map_ok] at h
  induction h with
  | nil => rfl
  | cons hab _ ih => rw [List.map_cons, List.map_cons, hgk _ _ hab, ih]

end Query

namespace Tx

instance : Monad (Tx σ ε) where
  pure a := ⟨fun s => .ok (a, s)⟩
  bind x f := ⟨fun s => match x s with
    | .ok (a, s') => f a s'
    | .error e => .error e⟩

/-- Change the state. -/
def modify (f : σ → σ) : Tx σ ε Unit := ⟨fun s => .ok ((), f s)⟩

/-- Run a query as one statement of a transaction. -/
def lift [Ticking σ] (q : Query σ ε α) : Tx σ ε α := ⟨fun s => match q s with
  | .ok a => .ok (a, Ticking.tick s)
  | .error e => .error e⟩

instance [Ticking σ] : MonadLift (Query σ ε) (Tx σ ε) := ⟨lift⟩

@[simp] theorem bind_ok {x : Tx σ ε α} {f : α → Tx σ ε β} {s : σ} {r : β × σ} :
    (x >>= f) s = .ok r ↔ ∃ a s', x s = .ok (a, s') ∧ f a s' = .ok r := by
  change (match x s with | .ok (a, s') => f a s' | .error e => .error e) = .ok r ↔ _
  cases h : x s with
  | error e => simp
  | ok p => cases p; simp

@[simp] theorem pure_ok {a : α} {s : σ} {r : α × σ} :
    (pure a : Tx σ ε α) s = .ok r ↔ r = (a, s) := by
  change Except.ok (a, s) = .ok r ↔ _
  rw [Except.ok.injEq, eq_comm]

@[simp] theorem modify_ok {f : σ → σ} {s : σ} {r : Unit × σ} :
    (modify f : Tx σ ε Unit) s = .ok r ↔ r = ((), f s) := by
  rw [modify, Except.ok.injEq, eq_comm]

@[simp] theorem lift_ok [Ticking σ] {q : Query σ ε α} {s : σ} {r : α × σ} :
    (lift q) s = .ok r ↔ q s = .ok r.1 ∧ r.2 = Ticking.tick s := by
  obtain ⟨a, s'⟩ := r
  change (match q s with
    | .ok a => Except.ok (a, Ticking.tick s)
    | .error e => Except.error e) = Except.ok (a, s') ↔ _
  cases q s with
  | error e => simp
  | ok b => simp only [Except.ok.injEq, Prod.mk.injEq, @eq_comm _ s']

@[simp] theorem monadLift_ok [Ticking σ] {q : Query σ ε α} {s : σ} {r : α × σ} :
    (MonadLiftT.monadLift q : Tx σ ε α) s = .ok r ↔ q s = .ok r.1 ∧ r.2 = Ticking.tick s :=
  lift_ok

/-- Run a transaction for each element of a list, in order. -/
def each (l : List α) (f : α → Tx σ ε Unit) : Tx σ ε Unit :=
  match l with
  | [] => pure ()
  | a :: l => do
      f a
      each l f

/-- Thread an accumulator through a list, in order. -/
def fold (l : List α) (f : β → α → Tx σ ε β) (b : β) : Tx σ ε β :=
  match l with
  | [] => pure b
  | a :: l => do
      let b' ← f b a
      fold l f b'

/-- Keep the elements a query accepts, asking about one after the other. -/
def select [Ticking σ] (l : List α) (p : α → Query σ ε Bool) : Tx σ ε (List α) :=
  match l with
  | [] => pure []
  | a :: l => do
      let b ← p a
      let rest ← select l p
      pure (if b then a :: rest else rest)

/-- **Induction along a loop of a transaction**: a predicate on the turns still to
come and the state, kept by every turn, holds at the end with no turn left. -/
theorem each_induction {f : α → Tx σ ε Unit} (P : List α → σ → Prop)
    (step : ∀ a l s s', P (a :: l) s → f a s = .ok ((), s') → P l s') :
    ∀ {l : List α} {s : σ} {r : Unit × σ}, P l s → (each l f) s = .ok r → P [] r.2 := by
  intro l
  induction l with
  | nil =>
      intro s r h0 h
      rw [each, pure_ok] at h
      exact h ▸ h0
  | cons a l ih =>
      intro s r h0 h
      rw [each, bind_ok] at h
      obtain ⟨⟨⟩, s₁, h1, h2⟩ := h
      exact ih (step a l s s₁ h0 h1) h2

/-- A reflexive and transitive relation that every turn respects is respected by
the whole loop. -/
theorem each_rel {f : α → Tx σ ε Unit} {R : σ → σ → Prop} (refl : ∀ s, R s s)
    (trans : ∀ {a b c}, R a b → R b c → R a c) {l : List α} {s : σ} {r : Unit × σ}
    (step : ∀ a ∈ l, ∀ s s', f a s = .ok ((), s') → R s s')
    (h : (each l f) s = .ok r) : R s r.2 := by
  refine (each_induction (fun rest t => R s t ∧ ∀ a ∈ rest, a ∈ l) ?_ ⟨refl s, fun _ => id⟩ h).1
  rintro a rest t t' ⟨ht, hrest⟩ hstep
  exact ⟨trans ht (step a (hrest a List.mem_cons_self) t t' hstep),
    fun b hb => hrest b (List.mem_cons_of_mem _ hb)⟩

/-- Every turn of a loop happened, somewhere between its beginning and its end. -/
theorem each_mem {f : α → Tx σ ε Unit} {R : σ → σ → Prop} (refl : ∀ s, R s s)
    (trans : ∀ {a b c}, R a b → R b c → R a c) :
    ∀ {l : List α} {s : σ} {r : Unit × σ},
      (∀ a ∈ l, ∀ s s', f a s = .ok ((), s') → R s s') → (each l f) s = .ok r →
        ∀ a ∈ l, ∃ t t', R s t ∧ f a t = .ok ((), t') ∧ R t' r.2 := by
  intro l
  induction l with
  | nil => exact fun _ _ a ha => absurd ha List.not_mem_nil
  | cons x l ih =>
      intro s r step h a ha
      rw [each, bind_ok] at h
      obtain ⟨⟨⟩, s₁, h1, h2⟩ := h
      have hrest := fun a ha => step a (List.mem_cons_of_mem _ ha)
      rcases List.mem_cons.mp ha with rfl | ha
      · exact ⟨s, s₁, refl s, h1, each_rel refl trans hrest h2⟩
      · obtain ⟨t, t', ht, hf, ht'⟩ := ih hrest h2 a ha
        exact ⟨t, t', trans (step x List.mem_cons_self s s₁ h1) ht, hf, ht'⟩

/-- What a selection leaves out was not accepted when it was asked about. -/
theorem select_ok [Ticking σ] {p : α → Query σ ε Bool} {R : σ → σ → Prop} (refl : ∀ s, R s s)
    (trans : ∀ {a b c}, R a b → R b c → R a c) (tick : ∀ s, R s (Ticking.tick s)) :
    ∀ {l : List α} {s : σ} {r : List α × σ}, (select l p) s = .ok r → R s r.2 ∧
      ∀ a ∈ l, a ∈ r.1 ∨ ∃ t, R s t ∧ R t r.2 ∧ p a t = .ok false := by
  intro l
  induction l with
  | nil =>
      intro s r h
      rw [select, pure_ok] at h
      exact ⟨h ▸ refl s, fun a ha => absurd ha List.not_mem_nil⟩
  | cons x l ih =>
      intro s r h
      rw [select, bind_ok] at h
      obtain ⟨b, s₁, h1, h2⟩ := h
      obtain ⟨hb, rfl⟩ := monadLift_ok.mp h1
      rw [bind_ok] at h2
      obtain ⟨rest, s₂, hrest, h2⟩ := h2
      rw [pure_ok] at h2
      subst h2
      obtain ⟨hR, hmem⟩ := ih hrest
      refine ⟨trans (tick s) hR, fun a ha => ?_⟩
      rcases List.mem_cons.mp ha with rfl | ha
      · cases b with
        | true => exact .inl List.mem_cons_self
        | false => exact .inr ⟨s, refl s, trans (tick s) hR, hb⟩
      · rcases hmem a ha with hin | ⟨t, h1, h2, hf⟩
        · refine .inl ?_
          cases b with
          | true => exact List.mem_cons_of_mem _ hin
          | false => exact hin
        · exact .inr ⟨t, trans (tick s) h1, h2, hf⟩

/-- **A loop over records that are written one by one.**  Every turn finds its own record as
it was when the loop began, because the other turns leave it alone; what a turn makes of its
record, `P`, is still so at the end. -/
theorem each_rows {ρ κ : Type} [Keyed ρ κ] [LinearOrder κ] (tab : σ → Table ρ)
    {f : ρ → Tx σ ε Unit} {P : ρ → Option ρ → Prop} :
    ∀ {l : List ρ} {I : σ → Prop}, l.Pairwise (fun x y => Keyed.key x < Keyed.key y) →
      (∀ x ∈ l, ∀ s s', I s → (tab s).get (Keyed.key x) = some x → f x s = .ok ((), s') →
        I s' ∧ P x ((tab s').get (Keyed.key x)) ∧
          ∀ k, k ≠ Keyed.key x → (tab s').get k = (tab s).get k) →
      ∀ {s : σ} {r : Unit × σ}, I s → (∀ x ∈ l, (tab s).get (Keyed.key x) = some x) →
        (each l f) s = .ok r → I r.2 ∧ ∀ x ∈ l, P x ((tab r.2).get (Keyed.key x)) := by
  intro l
  induction l with
  | nil =>
      intro I _ _ s r hI _ h
      rw [each, pure_ok] at h
      exact ⟨h ▸ hI, fun x hx => absurd hx List.not_mem_nil⟩
  | cons a l ih =>
      intro I hl step s r hI hrows h
      obtain ⟨ha, hl⟩ := List.pairwise_cons.mp hl
      rw [each, bind_ok] at h
      obtain ⟨⟨⟩, s₁, h1, h2⟩ := h
      obtain ⟨hI₁, hP, hkeep⟩ := step a List.mem_cons_self s s₁ hI (hrows a List.mem_cons_self) h1
      -- The record of `a` is left alone by the rest of the loop: carry `P` in the invariant.
      have hrest := ih (I := fun t => I t ∧ P a ((tab t).get (Keyed.key a))) hl
        (fun x hx t t' hIt hget hf => by
          obtain ⟨hI', hP', hkeep'⟩ := step x (List.mem_cons_of_mem _ hx) t t' hIt.1 hget hf
          refine ⟨⟨hI', ?_⟩, hP', hkeep'⟩
          rw [hkeep' _ (ne_of_lt (ha x hx))]
          exact hIt.2)
        ⟨hI₁, hP⟩
        (fun x hx => by
          rw [hkeep _ (ne_of_gt (ha x hx))]
          exact hrows x (List.mem_cons_of_mem _ hx)) h2
      refine ⟨hrest.1.1, fun x hx => ?_⟩
      rcases List.mem_cons.mp hx with rfl | hx
      · exact hrest.1.2
      · exact hrest.2 x hx

/-- Induction along a fold: the predicate also sees the accumulator. -/
theorem fold_induction {f : β → α → Tx σ ε β} (P : List α → β → σ → Prop)
    (step : ∀ a l b b' s s', P (a :: l) b s → f b a s = .ok (b', s') → P l b' s') :
    ∀ {l : List α} {b : β} {s : σ} {r : β × σ},
      P l b s → (fold l f b) s = .ok r → P [] r.1 r.2 := by
  intro l
  induction l with
  | nil =>
      intro b s r h0 h
      rw [fold, pure_ok] at h
      exact h ▸ h0
  | cons a l ih =>
      intro b s r h0 h
      rw [fold, bind_ok] at h
      obtain ⟨b₁, s₁, h1, h2⟩ := h
      exact ih (step a l b b₁ s s₁ h0 h1) h2

end Tx

end Dfsha
