import Dfsha.Control.Service
import Dfsha.Protocol.Preserve

/-!
# Running a transaction, statement by statement

The rules that read a successful run back, one for each kind of statement.  A statement that
only reads moves the clock, so after any number of them the state is the state before with
the clock a little later; `World.setAccess` keeps it in that form.

`Quiet` is the class of transactions that change none of the records of the lease protocol.
Its instances follow the structure of a program, so that most functions about data nodes are
found quiet by their definition alone.
-/

namespace Dfsha

variable {app : App} {α β : Type}

/-! ## States -/

/-- The same control with other records of the lease protocol. -/
def World.setAccess (w : World) (a : Access) : World := { w with access := a }

@[simp] theorem setAccess_access (w : World) (a : Access) : (w.setAccess a).access = a := rfl

@[simp] theorem setAccess_cluster (w : World) (a : Access) :
    (w.setAccess a).cluster = w.cluster := rfl

@[simp] theorem setAccess_setAccess (w : World) (a b : Access) :
    (w.setAccess a).setAccess b = w.setAccess b := rfl

@[simp] theorem tick_setAccess (w : World) :
    Ticking.tick w = w.setAccess (w.access.later 1) := rfl

namespace Access

variable (a : Access) (k : Nat)

@[simp] theorem later_epoch : (a.later k).epoch = a.epoch := rfl
@[simp] theorem later_issued : (a.later k).issued = a.issued := rfl
@[simp] theorem later_locks : (a.later k).locks = a.locks := rfl
@[simp] theorem later_handles : (a.later k).handles = a.handles := rfl
@[simp] theorem later_reads : (a.later k).reads = a.reads := rfl
@[simp] theorem later_uploads : (a.later k).uploads = a.uploads := rfl
@[simp] theorem later_nodes : (a.later k).nodes = a.nodes := rfl
@[simp] theorem later_snapshots : (a.later k).snapshots = a.snapshots := rfl
@[simp] theorem later_blocks : (a.later k).blocks = a.blocks := rfl
@[simp] theorem later_retired : (a.later k).retired = a.retired := rfl

/-- The same records, a number of phases later and with more identifiers drawn. -/
def shift (a : Access) (k n : Nat) : Access :=
  { a with phase := a.phase + k, issued := a.issued + n }

theorem shift_shift (a : Access) (k n j m : Nat) :
    (a.shift k n).shift j m = a.shift (k + j) (n + m) := by
  simp [shift, Nat.add_assoc]

theorem shift_later (a : Access) (k n j : Nat) : (a.shift k n).later j = a.shift (k + j) n := by
  simp [shift, later, Nat.add_assoc]

theorem later_shift (a : Access) (k n j : Nat) : (a.later j).shift k n = a.shift (j + k) n := by
  simp [shift, later, Nat.add_assoc]

@[simp] theorem shift_locks (n : Nat) : (a.shift k n).locks = a.locks := rfl
@[simp] theorem shift_handles (n : Nat) : (a.shift k n).handles = a.handles := rfl
@[simp] theorem shift_reads (n : Nat) : (a.shift k n).reads = a.reads := rfl
@[simp] theorem shift_uploads (n : Nat) : (a.shift k n).uploads = a.uploads := rfl
@[simp] theorem shift_nodes (n : Nat) : (a.shift k n).nodes = a.nodes := rfl
@[simp] theorem shift_snapshots (n : Nat) : (a.shift k n).snapshots = a.snapshots := rfl
@[simp] theorem shift_blocks (n : Nat) : (a.shift k n).blocks = a.blocks := rfl
@[simp] theorem shift_retired (n : Nat) : (a.shift k n).retired = a.retired := rfl

end Access

/-- The same control some time later. -/
def World.Later (w v : World) : Prop := ∃ k, v = w.setAccess (w.access.later k)

theorem World.Later.refl (w : World) : w.Later w := ⟨0, rfl⟩

theorem World.Later.trans {u v w : World} (h : u.Later v) (h' : v.Later w) : u.Later w := by
  obtain ⟨k, rfl⟩ := h
  obtain ⟨j, rfl⟩ := h'
  exact ⟨k + j, by simp⟩

theorem World.later_mono {w : World} {j k : Nat} (h : j ≤ k) :
    (w.setAccess (w.access.later j)).Later (w.setAccess (w.access.later k)) := by
  obtain ⟨i, rfl⟩ := Nat.exists_eq_add_of_le h
  exact ⟨i, by simp⟩

/-- A lease that is live later is live before. -/
theorem World.Later.live {u v : World} (h : u.Later v) {c : Option Id} {d : Nat}
    (hl : v.access.live c d) : u.access.live c d := by
  obtain ⟨k, rfl⟩ := h
  exact Access.live_of_later hl

/-! ## Statements -/

section Statements

variable {w : World} {r : β × World}

/-- A query, then the rest. -/
theorem run_query {q : Q α} {f : α → T β} :
    ((liftM q : T α) >>= f) w = .ok r ↔
      ∃ x, q w = .ok x ∧ f x (w.setAccess (w.access.later 1)) = .ok r := by
  rw [Tx.bind_ok]
  constructor
  · rintro ⟨x, s, hx, h⟩
    obtain ⟨hq, rfl⟩ := Tx.monadLift_ok.mp hx
    exact ⟨x, hq, h⟩
  · rintro ⟨x, hq, h⟩
    exact ⟨x, _, Tx.monadLift_ok.mpr ⟨hq, rfl⟩, h⟩

/-- A query that is the last statement. -/
theorem last_query {q : Q β} :
    (liftM q : T β) w = .ok r ↔ q w = .ok r.1 ∧ r.2 = w.setAccess (w.access.later 1) :=
  Tx.monadLift_ok

theorem run_access {f : Access → T β} :
    ((liftM access : T Access) >>= f) w = .ok r ↔
      f w.access (w.setAccess (w.access.later 1)) = .ok r := by
  rw [run_query]
  simp [access]

theorem run_world {f : World → T β} :
    ((liftM world : T World) >>= f) w = .ok r ↔
      f w (w.setAccess (w.access.later 1)) = .ok r := by
  rw [run_query]
  simp [world]

theorem run_cluster {f : Cluster → T β} :
    ((liftM cluster : T Cluster) >>= f) w = .ok r ↔
      f w.cluster (w.setAccess (w.access.later 1)) = .ok r := by
  rw [run_query]
  simp [cluster]

theorem run_now {f : Nat → T β} :
    ((liftM now : T Nat) >>= f) w = .ok r ↔
      f w.access.now (w.setAccess (w.access.later 1)) = .ok r := by
  rw [run_query]
  simp [now]

theorem run_clock {f : Nat → T β} :
    ((liftM clock : T Nat) >>= f) w = .ok r ↔
      f w.access.time (w.setAccess (w.access.later 1)) = .ok r := by
  rw [run_query]
  simp [clock]

theorem run_need {c : Prop} [Decidable c] {e : Reason} {f : Unit → T β} :
    ((liftM (need c e) : T Unit) >>= f) w = .ok r ↔
      c ∧ f () (w.setAccess (w.access.later 1)) = .ok r := by
  rw [run_query]
  constructor
  · rintro ⟨⟨⟩, hc, h⟩
    exact ⟨need_ok.mp hc, h⟩
  · rintro ⟨hc, h⟩
    exact ⟨(), need_ok.mpr hc, h⟩

theorem run_deref {o : Option α} {f : α → T β} :
    ((liftM (deref o) : T α) >>= f) w = .ok r ↔
      ∃ x, o = some x ∧ f x (w.setAccess (w.access.later 1)) = .ok r := by
  rw [run_query]
  simp

theorem run_needSome {o : Option α} {e : Reason} {f : α → T β} :
    ((liftM (needSome o e) : T α) >>= f) w = .ok r ↔
      ∃ x, o = some x ∧ f x (w.setAccess (w.access.later 1)) = .ok r := by
  rw [run_query]
  simp

/-- A change of the records, then the rest. -/
theorem run_onAccess {g : Access → Access} {f : Unit → T β} :
    (onAccess g >>= f) w = .ok r ↔ f () (w.setAccess (g w.access)) = .ok r := by
  rw [Tx.bind_ok]
  constructor
  · rintro ⟨x, s, hx, h⟩
    rw [onAccess_ok] at hx
    cases hx
    exact h
  · intro h
    exact ⟨(), _, onAccess_ok.mpr rfl, h⟩

/-- A change of the records about data nodes, then the rest. -/
theorem run_onCluster {g : Cluster → Cluster} {f : Unit → T β} :
    (onCluster g >>= f) w = .ok r ↔ f () { w with cluster := g w.cluster } = .ok r := by
  rw [Tx.bind_ok]
  constructor
  · rintro ⟨x, s, hx, h⟩
    rw [onCluster_ok] at hx
    cases hx
    exact h
  · intro h
    exact ⟨(), _, onCluster_ok.mpr rfl, h⟩

/-- A change of the records that is the last statement. -/
theorem last_onAccess {g : Access → Access} {r : Unit × World} :
    (onAccess g) w = .ok r ↔ r = ((), w.setAccess (g w.access)) := onAccess_ok

theorem run_draw {f : Id → T β} :
    (draw app >>= f) w = .ok r ↔
      f (app.uuid w.access.issued) (w.setAccess (w.access.shift 1 1)) = .ok r := by
  rw [Tx.bind_ok]
  simp only [draw, run_access, run_onAccess, Tx.pure_ok, Prod.mk.injEq]
  constructor
  · rintro ⟨x, s, ⟨rfl, rfl⟩, h⟩
    exact h
  · intro h
    exact ⟨_, _, ⟨rfl, rfl⟩, h⟩

theorem run_pure {x : α} {f : α → T β} : ((pure x : T α) >>= f) w = .ok r ↔ f x w = .ok r := by
  rw [Tx.bind_ok]
  simp

end Statements

/-! ## Quiet transactions -/

/-- A transaction that leaves the records of the lease protocol as they are. -/
class Quiet (x : T α) : Prop where
  quiet : ∀ w r, x w = .ok r → ∃ k n, r.2.access = w.access.shift k n

namespace Quiet

instance pure (a : α) : Quiet (Pure.pure a : T α) := ⟨fun w r h => by
  rw [Tx.pure_ok] at h
  subst h
  exact ⟨0, 0, rfl⟩⟩

instance bind (x : T α) (f : α → T β) [hx : Quiet x] [hf : ∀ a, Quiet (f a)] : Quiet (x >>= f) :=
  ⟨fun w r h => by
    rw [Tx.bind_ok] at h
    obtain ⟨a, s, h1, h2⟩ := h
    obtain ⟨k, n, e⟩ := hx.quiet w _ h1
    obtain ⟨j, m, e'⟩ := (hf a).quiet s _ h2
    exact ⟨k + j, n + m, by rw [e', e, Access.shift_shift]⟩⟩

instance lift (q : Q α) : Quiet (liftM q : T α) := ⟨fun w r h => by
  obtain ⟨-, e⟩ := Tx.monadLift_ok.mp h
  exact ⟨1, 0, by rw [e]; rfl⟩⟩

instance ite {c : Prop} [Decidable c] (x y : T α) [Quiet x] [Quiet y] :
    Quiet (if c then x else y) := by
  split <;> infer_instance

instance option {o : Option α} (x : T β) (f : α → T β) [Quiet x] [∀ a, Quiet (f a)] :
    Quiet (o.elim x f) := by
  cases o <;> simp only [Option.elim] <;> infer_instance

/-- A change that does not touch the records. -/
theorem modify {g : World → World} (hg : ∀ w, (g w).access = w.access) :
    Quiet (Tx.modify g : T Unit) := ⟨fun w r h => by
  rw [Tx.modify_ok] at h
  subst h
  exact ⟨0, 0, hg w⟩⟩

instance onCluster (g : Cluster → Cluster) : Quiet (onCluster g) := modify fun _ => rfl

instance onIdentity (g : Identity → Identity) : Quiet (onIdentity g) := modify fun _ => rfl

instance draw : Quiet (draw app) := ⟨fun w r h => by
  simp only [Dfsha.draw, run_access, run_onAccess, Tx.pure_ok] at h
  subst h
  exact ⟨1, 1, rfl⟩⟩

instance each (l : List α) (f : α → T Unit) [hf : ∀ a, Quiet (f a)] : Quiet (Tx.each l f) :=
  ⟨fun w r h => by
    refine Tx.each_rel (R := fun s t => ∃ k n, t.access = s.access.shift k n)
      (fun s => ⟨0, 0, rfl⟩) ?_ (fun a _ s s' h => (hf a).quiet s _ h) h
    rintro a b c ⟨k, n, e⟩ ⟨j, m, e'⟩
    exact ⟨k + j, n + m, by rw [e', e, Access.shift_shift]⟩⟩

instance fold (l : List α) (f : β → α → T β) (b : β) [hf : ∀ b a, Quiet (f b a)] :
    Quiet (Tx.fold l f b) := ⟨fun w r h => by
  refine Tx.fold_induction (fun _ _ t => ∃ k n, t.access = w.access.shift k n) ?_ ⟨0, 0, rfl⟩ h
  rintro a l b b' s s' ⟨k, n, e⟩ h
  obtain ⟨j, m, e'⟩ := (hf b a).quiet s _ h
  exact ⟨k + j, n + m, by rw [e', e, Access.shift_shift]⟩⟩

instance select (l : List α) (p : α → Q Bool) : Quiet (Tx.select l p) := by
  induction l with
  | nil => exact Quiet.pure []
  | cons a l ih =>
      unfold Tx.select
      infer_instance

end Quiet

/-! ## Actions of a quiet transaction -/

variable {trust : Trust}

theorem acts_later (a : Access) (k : Nat) : Acts app trust a (a.later k) := .single (.advance a k)

variable (app trust) in
theorem acts_draws (a : Access) (n : Nat) : Acts app trust a (a.shift 0 n) := by
  induction n with
  | zero => exact .refl
  | succ n ih => exact ih.tail (.draw _)

theorem acts_shift (a : Access) (k n : Nat) : Acts app trust a (a.shift k n) := by
  have h := (acts_draws app trust a n).trans (acts_later _ k)
  exact h

/-- What a transaction does is a sequence of actions. -/
def Refines (app : App) (trust : Trust) (x : T α) : Prop :=
  ∀ w r, Sound app w.access → x w = .ok r → Acts app trust w.access r.2.access

variable (app trust) in
theorem Quiet.refines (x : T α) [hx : Quiet x] : Refines app trust x := by
  intro w r _ h
  obtain ⟨k, n, e⟩ := hx.quiet w r h
  rw [e]
  exact acts_shift _ k n

namespace Refines

theorem bind {x : T α} {f : α → T β} (hx : Refines app trust x)
    (hf : ∀ a, Refines app trust (f a)) : Refines app trust (x >>= f) := by
  intro w r hs h
  obtain ⟨a, s, h1, h2⟩ := Tx.bind_ok.mp h
  have ha := hx w _ hs h1
  exact ha.trans (hf a s r (hs.acts ha) h2)

theorem ite {c : Prop} [Decidable c] {x y : T α} (hx : c → Refines app trust x)
    (hy : ¬ c → Refines app trust y) : Refines app trust (if c then x else y) := by
  split
  · exact hx ‹_›
  · exact hy ‹_›

/-- A query first: the rest may use what it found. -/
theorem query {q : Q α} {f : α → T β}
    (hf : ∀ w x, Sound app w.access → q w = .ok x → ∀ r,
      f x (w.setAccess (w.access.later 1)) = .ok r →
        Acts app trust (w.access.later 1) r.2.access) :
    Refines app trust ((liftM q : T α) >>= f) := by
  intro w r hs h
  obtain ⟨x, hx, hr⟩ := run_query.mp h
  exact (acts_later _ 1).trans (hf w x hs hx r hr)

end Refines

end Dfsha
