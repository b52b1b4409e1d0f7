import Dfsha.Etcd.Transaction

/-!
# What a unit of work keeps to

The leases that a transaction begins are those of records that it writes, under identifiers that
it drew itself; a lease that it ends belongs to a record that it removes; and a record that had a
lease keeps it or gets another one.  So a transaction that leaves the metadata as it found it
begins no lease, and ends none that is held.

`Shape` says so of a unit, and every function of the unit keeps it.  `Working` says it of a thread
while the code inside a transaction runs.

## Main results

* `Shape.neutral` — a unit that changes nothing has no effects that matter.
* `advance_working` — the code inside a transaction keeps the shape of its unit.
-/

namespace Dfsha.Etcd

open UnitOfWork

@[simp] theorem rowKey_inj {k j : Kind} {i n : Nat} :
    rowKey k i = rowKey j n ↔ k = j ∧ i = n := by
  constructor
  · intro h
    have hp : (k.code, i) = (j.code, n) := h
    rw [Prod.mk.injEq] at hp
    exact ⟨Kind.code_injective hp.1, hp.2⟩
  · rintro ⟨rfl, rfl⟩
    rfl

theorem key_eq_rowKey (r : Record) : Keyed.key r = rowKey r.kind r.id := rfl

theorem leased_ne_settings {k : Kind} (h : k.leased = true) : k ≠ .settings := by
  intro he
  rw [he] at h
  cases h

theorem leaseKey_of_leased {r : Record} (h : r.kind.leased = true) :
    r.leaseKey = .record r.kind r.id := by
  rw [Record.leaseKey, if_neg (leased_ne_settings h)]

/-- The record under a key is of the kind and the identifier that the key says. -/
theorem of_get_rowKey {m : Metadata} {k : Kind} {i : Nat} {r : Record}
    (h : m.get (rowKey k i) = some r) : r.kind = k ∧ r.id = i := by
  have hk : rowKey r.kind r.id = rowKey k i := Table.key_of_get h
  exact rowKey_inj.mp hk

/-- What holds of the unit of a transaction. -/
structure Shape (u : UnitOfWork) : Prop where
  base : u.base = content u.root
  /-- No record that was read has an owner that the transaction drew. -/
  fresh : ∀ r ∈ u.base.all, r.kind.leased = true → ∀ l ∈ r.lease,
    l.owner.origin ≠ u.owner.origin
  /-- A lease begins with the record that it is of. -/
  puts : ∀ kind id owner lease, u.effects.lookup (.record kind id) = some (.put owner lease) →
    kind.leased = true ∧ owner.origin = u.owner.origin ∧
      ∃ r, u.view.get (rowKey kind id) = some r ∧ r.lease = some ⟨lease, owner⟩
  /-- A lease ends with its record. -/
  deletes : ∀ kind id, kind.leased = true →
    u.effects.lookup (.record kind id) = some .delete →
      ∀ r, u.view.get (rowKey kind id) = some r → r.lease = none
  /-- A record that had a lease has one, or its lease ends. -/
  keeps : ∀ kind id, kind.leased = true →
    (∃ r, u.base.get (rowKey kind id) = some r ∧ r.lease.isSome = true) →
      (∃ r, u.view.get (rowKey kind id) = some r ∧ r.lease.isSome = true) ∨
        u.effects.lookup (.record kind id) = some .delete
  /-- An owner in the view was read, or drawn. -/
  owners : ∀ r ∈ u.view.all, r.kind.leased = true → ∀ l ∈ r.lease,
    l.owner.origin = u.owner.origin ∨ ∃ x ∈ u.base.all, x.kind.leased = true ∧ x.lease = some l
  maintenance : u.effects.lookup .maintenance = none
  /-- What was found live is compared at the end. -/
  judged : ∀ x ∈ u.judged, u.guards.lookup x.1 = some x.2
  read : ∀ x ∈ u.judged, ∃ c, u.leaseReads.lookup x.1 = some (some c) ∧ c.value = .owner x.2

/-- What two moments of one transaction have in common. -/
structure Continues (u v : UnitOfWork) : Prop where
  owner : v.owner = u.owner
  lease : v.lease = u.lease
  root : v.root = u.root
  base : v.base = u.base
  mandate : v.mandate = u.mandate

namespace Continues

variable {u v x : UnitOfWork}

theorem refl (u : UnitOfWork) : Continues u u := ⟨rfl, rfl, rfl, rfl, rfl⟩

theorem trans (h : Continues u v) (h' : Continues v x) : Continues u x :=
  ⟨h'.owner.trans h.owner, h'.lease.trans h.lease, h'.root.trans h.root, h'.base.trans h.base,
    h'.mandate.trans h.mandate⟩

end Continues

namespace Shape

variable {u : UnitOfWork}

/-- **A transaction that leaves the metadata as they are begins no lease, and the leases that it
ends are of records that had none.** -/
theorem neutral (hu : Shape u) (h : u.view = u.base) {kind : Kind} {id : Nat} {e : Effect}
    (he : u.effects.lookup (.record kind id) = some e) (hl : kind.leased = true) :
    ¬ ∃ r, u.base.get (rowKey kind id) = some r ∧ r.lease.isSome = true := by
  rintro ⟨r, hr, hsome⟩
  cases e with
  | put owner lease =>
      obtain ⟨-, ho, x, hx, hlease⟩ := hu.puts kind id owner lease he
      rw [h] at hx
      exact hu.fresh x (Table.mem_of_get hx) ((of_get_rowKey hx).1 ▸ hl) _ hlease ho
  | delete =>
      rw [← h] at hr
      rw [hu.deletes kind id hl he r hr] at hsome
      cases hsome

/-- A transaction that begins a lease changes the metadata. -/
theorem changes (hu : Shape u) {kind : Kind} {id : Nat} {owner lease : Uuid}
    (he : u.effects.lookup (.record kind id) = some (.put owner lease)) : u.view ≠ u.base := by
  intro h
  obtain ⟨hl, ho, x, hx, hlease⟩ := hu.puts kind id owner lease he
  rw [h] at hx
  exact hu.fresh x (Table.mem_of_get hx) ((of_get_rowKey hx).1 ▸ hl) _ hlease ho

theorem begin {owner lease : Uuid} {root : Option Cell} {mandate : Option Uuid}
    (h : ∀ r ∈ (content root).all, r.kind.leased = true → ∀ l ∈ r.lease,
      l.owner.origin ≠ owner.origin) : Shape (.begin owner lease root mandate) where
  base := rfl
  fresh := h
  puts _ _ _ _ he := absurd he (by simp [UnitOfWork.begin])
  deletes _ _ _ he := absurd he (by simp [UnitOfWork.begin])
  keeps _ _ _ hr := .inl hr
  owners r hr hk l hl := .inr ⟨r, hr, hk, hl⟩
  maintenance := by simp [UnitOfWork.begin]
  judged x hx := absurd hx (by simp [UnitOfWork.begin])
  read x hx := absurd hx (by simp [UnitOfWork.begin])

/-! ### `lease_live` -/

theorem judge (hu : Shape u) {key : LeaseKey} {owner : Uuid} {value : Option Cell}
    (hread : u.leaseReads.lookup key = some value) : Shape (u.judge key owner value).2 := by
  unfold UnitOfWork.judge
  split
  · rename_i hv
    obtain ⟨c, rfl, hc⟩ := Option.map_eq_some_iff.mp hv
    exact
      { hu with
        judged := fun x hx => by
          rcases List.mem_cons.mp hx with rfl | hx
          · exact AList.lookup_insert _
          · by_cases hk : x.1 = key
            · -- The key was read once, so it was found to have one owner.
              obtain ⟨d, hd, hdv⟩ := hu.read x hx
              rw [hk, hread, Option.some.injEq, Option.some.injEq] at hd
              subst hd
              rw [hc, Value.owner.injEq] at hdv
              rw [hk, hdv]
              exact AList.lookup_insert _
            · rw [AList.lookup_insert_ne hk]
              exact hu.judged x hx
        read := fun x hx => by
          rcases List.mem_cons.mp hx with rfl | hx
          · exact ⟨c, hread, hc⟩
          · exact hu.read x hx }
  · exact hu

/-- What `lease_live` leaves alone. -/
structure Same (u v : UnitOfWork) : Prop extends Continues u v where
  view : v.view = u.view
  effects : v.effects = u.effects

theorem judge_same (key : LeaseKey) (owner : Uuid) (value : Option Cell) :
    Same u (u.judge key owner value).2 := by
  unfold UnitOfWork.judge
  split <;> exact ⟨⟨rfl, rfl, rfl, rfl, rfl⟩, rfl, rfl⟩

theorem recalled (hu : Shape u) {key : LeaseKey} {owner : Uuid} {x : Bool × UnitOfWork}
    (h : u.recalled key owner = some x) : Shape x.2 ∧ Same u x.2 := by
  have hread : (u.leaseReads.lookup key).map (u.judge key owner) = some x →
      Shape x.2 ∧ Same u x.2 := fun hx => by
    obtain ⟨value, hv, rfl⟩ := Option.map_eq_some_iff.mp hx
    exact ⟨hu.judge hv, judge_same key owner value⟩
  unfold UnitOfWork.recalled at h
  split at h
  · rw [Option.some.injEq] at h
    subst h
    exact ⟨hu, ⟨.refl u, rfl, rfl⟩⟩
  · exact hread h

theorem answer (hu : Shape u) (key : LeaseKey) (owner : Uuid) (value : Option Cell)
    (hnew : u.leaseReads.lookup key = none) :
    Shape (u.answer key owner value).2 ∧ Same u (u.answer key owner value).2 := by
  have hu' : Shape { u with leaseReads := u.leaseReads.insert key value } :=
    { hu with
      read := fun x hx => by
        obtain ⟨c, hc, hv⟩ := hu.read x hx
        refine ⟨c, ?_, hv⟩
        have hne : x.1 ≠ key := fun he => by
          rw [he, hnew] at hc
          cases hc
        exact (AList.lookup_insert_ne hne).trans hc }
  refine ⟨hu'.judge (AList.lookup_insert _), ?_⟩
  obtain ⟨⟨h1, h2, h3, h4, h5⟩, h6, h7⟩ := judge_same
    (u := { u with leaseReads := u.leaseReads.insert key value }) key owner value
  exact ⟨⟨h1, h2, h3, h4, h5⟩, h6, h7⟩

/-! ### `put` and `delete` -/

/-- A record that keeps the lease fields of the one that it replaces. -/
def Keeping (u : UnitOfWork) (r : Record) : Prop :=
  r.kind.leased = true → (u.view.get (rowKey r.kind r.id)).bind Record.lease = r.lease

theorem get_view_put {r : Record} {kind : Kind} {id : Nat} (u : UnitOfWork) :
    (u.view.put r).get (rowKey kind id) =
      if kind = r.kind ∧ id = r.id then some r else u.view.get (rowKey kind id) := by
  rw [Table.get_put, key_eq_rowKey]
  simp only [rowKey_inj]

theorem store (hu : Shape u) {r : Record} (hr : Keeping u r) : Shape (u.store r) :=
  { hu with
    puts := fun kind id owner lease he => by
      obtain ⟨hl, ho, x, hx, hlease⟩ := hu.puts kind id owner lease he
      refine ⟨hl, ho, ?_⟩
      rw [UnitOfWork.store, get_view_put]
      split
      · rename_i hk
        obtain ⟨rfl, rfl⟩ := hk
        refine ⟨r, rfl, ?_⟩
        rw [← hr hl, hx]
        exact hlease
      · exact ⟨x, hx, hlease⟩
    deletes := fun kind id hl he x hx => by
      rw [UnitOfWork.store, get_view_put] at hx
      split at hx
      · rename_i hk
        obtain ⟨rfl, rfl⟩ := hk
        rw [Option.some.injEq] at hx
        subst hx
        rw [← hr hl]
        cases hget : u.view.get (rowKey r.kind r.id) with
        | none => rfl
        | some y => exact hu.deletes r.kind r.id hl he y hget
      · exact hu.deletes kind id hl he x hx
    keeps := fun kind id hl hb => by
      refine (hu.keeps kind id hl hb).imp (fun hold => ?_) fun he => he
      obtain ⟨x, hx, hsome⟩ := hold
      rw [UnitOfWork.store, get_view_put]
      split
      · rename_i hk
        obtain ⟨rfl, rfl⟩ := hk
        refine ⟨r, rfl, ?_⟩
        rw [← hr hl, hx]
        exact hsome
      · exact ⟨x, hx, hsome⟩
    owners := fun x hx hl l hlx => by
      rcases Table.mem_put.mp hx with rfl | ⟨hx, -⟩
      · have hlx' := hr hl
        rw [show x.lease = some l from hlx] at hlx'
        obtain ⟨y, hy, hyl⟩ := Option.bind_eq_some_iff.mp hlx'
        obtain ⟨hyk, -⟩ := of_get_rowKey hy
        exact hu.owners y (Table.mem_of_get hy) (hyk ▸ hl) l hyl
      · exact hu.owners x hx hl l hlx }

theorem bind (hu : Shape u) {r : Record} (hr : r.kind.leased = true) (lease : Uuid) :
    Shape (u.bind r lease) := by
  have hkey := leaseKey_of_leased hr
  exact
    { hu with
      puts := fun kind id owner lease' he => by
        simp only [UnitOfWork.bind, hkey] at he ⊢
        rw [get_view_put]
        by_cases hk : kind = r.kind ∧ id = r.id
        · obtain ⟨rfl, rfl⟩ := hk
          rw [AList.lookup_insert, Option.some.injEq, Effect.put.injEq] at he
          obtain ⟨rfl, rfl⟩ := he
          exact ⟨hr, rfl, _, if_pos ⟨rfl, rfl⟩, rfl⟩
        · rw [AList.lookup_insert_ne (by simpa using hk)] at he
          obtain ⟨hl, ho, x, hx, hlease⟩ := hu.puts kind id owner lease' he
          exact ⟨hl, ho, x, (if_neg hk).trans hx, hlease⟩
      deletes := fun kind id hl he x hx => by
        simp only [UnitOfWork.bind, hkey] at he hx
        rw [get_view_put] at hx
        by_cases hk : kind = r.kind ∧ id = r.id
        · obtain ⟨rfl, rfl⟩ := hk
          rw [AList.lookup_insert] at he
          cases he
        · rw [AList.lookup_insert_ne (by simpa using hk)] at he
          exact hu.deletes kind id hl he x ((if_neg hk).symm.trans hx)
      keeps := fun kind id hl hb => by
        simp only [UnitOfWork.bind, hkey]
        rw [get_view_put]
        by_cases hk : kind = r.kind ∧ id = r.id
        · exact .inl ⟨_, if_pos hk, rfl⟩
        · rw [if_neg hk, AList.lookup_insert_ne (by simpa using hk)]
          exact hu.keeps kind id hl hb
      owners := fun x hx hl l hlx => by
        rcases Table.mem_put.mp hx with rfl | ⟨hx, -⟩
        · cases hlx
          exact .inl rfl
        · exact hu.owners x hx hl l hlx
      maintenance := by
        simp only [UnitOfWork.bind, hkey]
        rw [AList.lookup_insert_ne (by simp)]
        exact hu.maintenance }

theorem remove (hu : Shape u) {kind : Kind} (hk : kind ≠ .settings) (id : Nat) :
    Shape (u.remove kind id) := by
  have hview : ∀ {k : Kind} {i : Nat}, (u.view.delete (rowKey kind id)).get (rowKey k i) =
      if k = kind ∧ i = id then none else u.view.get (rowKey k i) := fun {k i} => by
    rw [Table.get_delete]
    simp only [rowKey_inj]
  have howners : ∀ r ∈ (u.view.delete (rowKey kind id)).all, r.kind.leased = true →
      ∀ l ∈ r.lease, l.owner.origin = u.owner.origin ∨
        ∃ x ∈ u.base.all, x.kind.leased = true ∧ x.lease = some l := fun r hr =>
    hu.owners r (Table.mem_delete.mp hr).1
  unfold UnitOfWork.remove
  cases hget : u.view.get (rowKey kind id) with
  | none =>
      have hsame : u.view.delete (rowKey kind id) = u.view := Table.ext_get fun k => by
        rw [Table.get_delete]
        split
        · rename_i he
          rw [he, hget]
        · rfl
      rw [hsame]
      exact { hu with }
  | some previous =>
      obtain ⟨hpk, hpi⟩ := of_get_rowKey hget
      have hkey : previous.leaseKey = .record kind id := by
        rw [Record.leaseKey, if_neg (hpk ▸ hk), hpk, hpi]
      -- What ends is the lease of the record that is removed, if it has one.
      have heffects : ∀ {k : LeaseKey}, k ≠ .record kind id →
          (if previous.lease.isSome = true then u.effects.insert previous.leaseKey .delete
            else u.effects).lookup k = u.effects.lookup k := fun hne => by
        split
        · rw [hkey, AList.lookup_insert_ne hne]
        · rfl
      have hself : previous.lease.isSome = true →
          (if previous.lease.isSome = true then u.effects.insert previous.leaseKey .delete
            else u.effects).lookup (.record kind id) = some .delete := fun hs => by
        rw [if_pos hs, hkey, AList.lookup_insert]
      have hother : ¬ previous.lease.isSome = true →
          (if previous.lease.isSome = true then u.effects.insert previous.leaseKey .delete
            else u.effects).lookup (.record kind id) = u.effects.lookup (.record kind id) :=
        fun hs => by rw [if_neg hs]
      exact
        { hu with
          puts := fun k i owner lease he => by
            by_cases hki : k = kind ∧ i = id
            · obtain ⟨rfl, rfl⟩ := hki
              exfalso
              by_cases hs : previous.lease.isSome = true
              · rw [hself hs] at he
                cases he
              · obtain ⟨-, -, x, hx, hlease⟩ := hu.puts k i owner lease ((hother hs).symm.trans he)
                rw [hget, Option.some.injEq] at hx
                rw [hx, hlease] at hs
                exact hs rfl
            · rw [heffects (by simpa using hki)] at he
              obtain ⟨hl, ho, x, hx, hlease⟩ := hu.puts k i owner lease he
              exact ⟨hl, ho, x, hview.trans ((if_neg hki).trans hx), hlease⟩
          deletes := fun k i hl he x hx => by
            simp only [hview] at hx
            by_cases hki : k = kind ∧ i = id
            · rw [if_pos hki] at hx
              cases hx
            · rw [if_neg hki] at hx
              rw [heffects (by simpa using hki)] at he
              exact hu.deletes k i hl he x hx
          keeps := fun k i hl hb => by
            by_cases hki : k = kind ∧ i = id
            · obtain ⟨rfl, rfl⟩ := hki
              refine .inr ?_
              by_cases hs : previous.lease.isSome = true
              · exact hself hs
              · refine (hother hs).trans ((hu.keeps k i hl hb).resolve_left fun ⟨x, hx, hsome⟩ => ?_)
                rw [hget, Option.some.injEq] at hx
                exact hs (hx ▸ hsome)
            · rw [heffects (by simpa using hki)]
              simp only [hview, if_neg hki]
              exact hu.keeps k i hl hb
          owners := howners
          maintenance := (heffects (by simp)).trans hu.maintenance }

theorem remove_continues (kind : Kind) (id : Nat) : Continues u (u.remove kind id) := by
  unfold UnitOfWork.remove
  split <;> exact ⟨rfl, rfl, rfl, rfl, rfl⟩

end Shape

/-! ## The code inside a transaction -/

open Shape (Keeping Same)

/-- What holds of a record while `lease_live` is asked about it. -/
def After.Ok (u : UnitOfWork) : After → Prop
  | .live _ => True
  | .datanode r _ => r.kind.leased = true ∧ Keeping u r
  | .renewal r _ _ => r.kind.leased = true ∧ Keeping u r

/-- Where the code inside a transaction can be, later than `u`. -/
def Working (u : UnitOfWork) : Pc → Prop
  | .judging v key _ after =>
      Continues u v ∧ Shape v ∧ v.leaseReads.lookup key = none ∧ after.Ok v
  | .leasing v r _ _ => Continues u v ∧ Shape v ∧ r.kind.leased = true
  | .extending v r _ _ => Continues u v ∧ Shape v ∧ Keeping v r
  | .persisting v => Continues u v ∧ Shape v
  | .cleaning owner outcome => owner = u.owner ∧ ∃ reason, outcome = .failed reason
  | _ => False

variable {u v : UnitOfWork}

theorem Working.later {pc : Pc} (h : Continues u v) (hw : Working v pc) : Working u pc := by
  cases pc with
  | judging x _ _ _ => exact ⟨h.trans hw.1, hw.2⟩
  | leasing x _ _ _ => exact ⟨h.trans hw.1, hw.2⟩
  | extending x _ _ _ => exact ⟨h.trans hw.1, hw.2⟩
  | persisting x => exact ⟨h.trans hw.1, hw.2⟩
  | cleaning owner outcome => exact ⟨hw.1.trans h.owner, hw.2⟩
  | _ => exact hw.elim

/-- The outcome of a part of the code that may have to wait. -/
def WorkingOr (u : UnitOfWork) : UnitOfWork ⊕ Pc → Prop
  | .inl v => Continues u v ∧ Shape v
  | .inr pc => Working u pc

theorem WorkingOr.later {x : UnitOfWork ⊕ Pc} (h : Continues u v) (hw : WorkingOr v x) :
    WorkingOr u x := by
  cases x with
  | inl y => exact ⟨h.trans hw.1, hw.2⟩
  | inr pc => exact Working.later h hw

theorem Shape.keeping_same {r : Record} (h : Same u v) (hr : Keeping u r) : Keeping v r := by
  intro hl
  rw [h.view]
  exact hr hl

theorem recalled_none {key : LeaseKey} {owner : Uuid} (h : u.recalled key owner = none) :
    u.leaseReads.lookup key = none := by
  unfold UnitOfWork.recalled at h
  split at h
  · cases h
  · exact Option.map_eq_none_iff.mp h

theorem extendOrStore_working (hu : Shape u) {r : Record} (hl : r.kind.leased = true)
    (hr : r.lease = none ∨ Keeping u r) (rest : Body) :
    WorkingOr u (extendOrStore u r rest) := by
  unfold extendOrStore
  split
  · exact ⟨⟨rfl, rfl, rfl, rfl, rfl⟩, { hu with }, hl⟩
  · rename_i l hlease
    have hk : Keeping u r := hr.resolve_left (by simp [hlease])
    have hstore : WorkingOr u (.inl (u.store r)) := ⟨⟨rfl, rfl, rfl, rfl, rfl⟩, hu.store hk⟩
    split
    · exact hstore
    · split
      · cases hrec : u.recalled r.leaseKey l.owner with
        | none => exact ⟨.refl u, hu, recalled_none hrec, hl, hk⟩
        | some x =>
            obtain ⟨valid, v⟩ := x
            obtain ⟨hv, hsame⟩ := hu.recalled hrec
            cases valid with
            | true => exact ⟨hsame.toContinues, hv, Shape.keeping_same hsame hk⟩
            | false => exact ⟨hsame.owner, .lockExpired, rfl⟩
      · exact hstore

/-- A record is written with the fields it was read with, or it is new. -/
theorem carried_keeping (r : Record) (kept : Bool) :
    ((u.carried r kept).lease = none ∨ Keeping u (u.carried r kept)) ∧
      ((u.carried r kept).closed = true → Keeping u (u.carried r kept)) := by
  unfold UnitOfWork.carried Shape.Keeping
  by_cases hl : r.kind.leased = true
  · by_cases hk : kept = true ∨ r.closed = true
    · simp [hl, hk]
    · simp only [hl, if_true, if_neg hk, true_or, true_and]
      exact fun hc => absurd (Or.inr hc) hk
  · rw [if_neg hl]
    split
    · exact ⟨.inr fun h => absurd h hl, fun _ h => absurd h hl⟩
    · exact ⟨.inl rfl, fun _ h => absurd h hl⟩

theorem beginPut_working (hu : Shape u) {r : Record} (hr : r.lease = none ∨ Keeping u r)
    (hc : r.closed = true → Keeping u r) (rest : Body) : WorkingOr u (beginPut u r rest) := by
  unfold beginPut
  by_cases hopen : r.kind.leased = true ∧ r.closed = false
  · rw [if_pos hopen]
    split
    · rename_i l hkind hlease
      have hk : Keeping u r := hr.resolve_left (by simp [hlease])
      cases hrec : u.recalled r.leaseKey l.owner with
      | none => exact ⟨.refl u, hu, recalled_none hrec, hopen.1, hk⟩
      | some x =>
          obtain ⟨valid, v⟩ := x
          obtain ⟨hv, hsame⟩ := hu.recalled hrec
          cases valid with
          | true =>
              exact WorkingOr.later hsame.toContinues
                (extendOrStore_working hv hopen.1 (.inr (Shape.keeping_same hsame hk)) rest)
          | false =>
              exact WorkingOr.later hsame.toContinues
                (extendOrStore_working hv (r := { r with lease := none }) hopen.1 (.inl rfl) rest)
    · exact extendOrStore_working hu hopen.1 hr rest
  · rw [if_neg hopen]
    refine ⟨⟨rfl, rfl, rfl, rfl, rfl⟩, hu.store fun hl => ?_⟩
    have hclosed : r.closed = true := by
      by_contra hne
      exact hopen ⟨hl, by simpa using hne⟩
    exact hc hclosed hl

/-- **The code inside a transaction keeps the shape of its unit**, wherever it stops. -/
theorem advance_working (b : Body) : ∀ {u}, Shape u → Working u (advance b u) := by
  induction b with
  | done => exact fun {u} hu => ⟨.refl u, hu⟩
  | raise reason => exact fun {u} _ => ⟨rfl, reason, rfl⟩
  | read next ih => exact fun {u} hu => ih u.view hu
  | live lease next ih =>
      intro u hu
      cases lease with
      | none => exact ih false hu
      | some l =>
          obtain ⟨key, owner⟩ := l
          unfold advance
          cases hrec : u.recalled key owner with
          | none => exact ⟨.refl u, hu, recalled_none hrec, trivial⟩
          | some x =>
              obtain ⟨hv, hsame⟩ := hu.recalled hrec
              exact Working.later hsame.toContinues (ih x.1 hv)
  | put r kept rest ih =>
      intro u hu
      unfold advance
      obtain ⟨hr, hc⟩ := carried_keeping (u := u) r kept
      have hput := beginPut_working hu hr hc rest
      cases hx : beginPut u (u.carried r kept) rest with
      | inl v =>
          rw [hx] at hput
          exact Working.later hput.1 (ih hput.2)
      | inr pc =>
          rw [hx] at hput
          exact hput
  | delete kind id hne rest ih =>
      exact fun {u} hu => Working.later (Shape.remove_continues kind id) (ih (hu.remove hne id))

theorem settle_working {x : UnitOfWork ⊕ Pc} (h : WorkingOr u x) (rest : Body) :
    Working u (settle rest x) := by
  cases x with
  | inl v => exact Working.later h.1 (advance_working rest h.2)
  | inr pc => exact h

theorem resume_working (hu : Shape u) {after : After} (ha : after.Ok u) (valid : Bool) :
    Working u (after.resume u valid) := by
  cases after with
  | live next => exact advance_working (next valid) hu
  | datanode r rest =>
      refine settle_working (extendOrStore_working hu ?_ ?_ rest) rest
      · split
        · exact ha.1
        · exact ha.1
      · split
        · exact .inr ha.2
        · exact .inl rfl
  | renewal r lease rest =>
      simp only [After.resume]
      split
      · exact ⟨.refl u, hu, ha.2⟩
      · exact ⟨rfl, .lockExpired, rfl⟩

theorem After.Ok.same {after : After} (h : Same u v) (ha : after.Ok u) : after.Ok v := by
  cases after with
  | live next => exact trivial
  | datanode r rest => exact ⟨ha.1, Shape.keeping_same h ha.2⟩
  | renewal r lease rest => exact ⟨ha.1, Shape.keeping_same h ha.2⟩

end Dfsha.Etcd
