import Dfsha.Protocol.History

/-!
# What uploads reserve

An upload allocates one block for each place of its file.  Where nothing begins and no data is
received, what is reserved for an operation in preparation stays, and so do the records of the
blocks that it has.

## Main definitions

* `Operation.Indexed` — the allocations of an operation are at different places, each at that of
  its block.
* `Trust.idle` — nothing begins, and nothing is received.
* `Thrift` — nothing that counts is reserved or recorded.

## Main results

* `Acts.indexed` — the allocations of uploads stay indexed.
* `Acts.thrift` — what is reserved is not more after actions that are idle.
-/

namespace Dfsha

variable {app : App} {trust : Trust} {a b c : Access}

/-! ## Places -/

/-- The blocks of an operation are at different places. -/
structure Operation.Indexed (op : Operation) : Prop where
  nodup : (op.allocations.map Prod.fst).Nodup
  index : ∀ x ∈ op.allocations, x.1 = x.2.blockIndex

/-- At one place there is one block. -/
theorem Operation.Indexed.unique {op : Operation} (h : op.Indexed) {x y : Nat × BlockRef}
    (hx : x ∈ op.allocations) (hy : y ∈ op.allocations)
    (he : x.2.blockIndex = y.2.blockIndex) : x = y := by
  rw [← h.index x hx, ← h.index y hy] at he
  exact List.inj_on_of_nodup_map h.nodup hx hy he

/-- The allocations of all uploads are indexed. -/
def Access.Indexed (a : Access) : Prop :=
  ∀ op ∈ a.uploads.all, op.kind = .upload → op.Indexed

/-- **One action leaves the allocations indexed.** -/
theorem Act.indexed (h : Act app trust a b) (ha : a.Indexed) : b.Indexed := by
  have hput : ∀ {p : Operation}, (p.kind = .upload → p.Indexed) →
      ∀ op ∈ (a.uploads.put p).all, op.kind = .upload → op.Indexed := fun hp op hop => by
    rcases Table.mem_put.mp hop with rfl | hop
    · exact hp
    · exact ha op hop.1
  have hempty : ∀ {p : Operation}, p.allocations = [] → p.kind = .upload → p.Indexed :=
    fun he _ => ⟨by simp [he], by simp [he]⟩
  have hold : ∀ {o p : Operation}, a.uploads.get p.id = some o → p.kind = o.kind →
      p.allocations = o.allocations → p.kind = .upload → p.Indexed := by
    intro o p hg hk he hkind
    obtain ⟨hnodup, hindex⟩ := ha o (Table.mem_of_get hg) (hk ▸ hkind)
    exact ⟨he ▸ hnodup, he ▸ hindex⟩
  cases h with
  | recordOp _ _ _ _ _ _ he _ _ => exact hput (hempty he)
  | beginWrite _ hb =>
      refine hput fun hkind => ?_
      rw [hb.kind] at hkind
      cases hkind
  | beginPlain _ _ hp _ => exact hput (hempty hp.allocations)
  | beginUpload _ hb => exact hput (hempty hb.allocations)
  | touchOp _ _ hg _ _ => exact hput (hold hg rfl rfl)
  | spendOp _ hg _ => exact hput (hold hg rfl rfl)
  | sealOp hg _ => exact hput (hold hg rfl rfl)
  | capture _ hg _ => exact hput (hold hg rfl rfl)
  | endOp hg _ _ => exact hput (hold hg rfl rfl)
  | stage hg _ _ => exact hput (hold hg rfl rfl)
  | @allocate op x hok =>
      refine hput fun hkind => ?_
      obtain ⟨hnodup, hindex⟩ := ha op (Table.mem_of_get hok.stored) hkind
      refine ⟨?_, fun y hy => ?_⟩
      · have hfresh : x.blockIndex ∉ op.allocations.map Prod.fst := by
          intro hmem
          obtain ⟨y, hy, he⟩ := List.mem_map.mp hmem
          have hnone := List.lookup_eq_none_iff.mp hok.unallocated y hy
          simp [he] at hnone
        rw [List.map_append, List.nodup_append]
        refine ⟨hnodup, by simp, fun i hi j hj => ?_⟩
        rw [List.map_singleton, List.mem_singleton] at hj
        intro he
        rw [he, hj] at hi
        exact hfresh hi
      · rcases List.mem_append.mp hy with hy | hy
        · exact hindex y hy
        · rw [List.mem_singleton.mp hy]
  | commitWrite _ hc _ _ _ => exact hput (hold hc.stored rfl rfl)
  | commitUpload _ hc _ => exact hput (hold hc.stored rfl rfl)
  | _ => exact ha

/-- The allocations of uploads stay indexed. -/
theorem Acts.indexed (h : Acts app trust a b) (ha : a.Indexed) : b.Indexed :=
  Acts.keep Act.indexed h ha

/-! ## Reservations -/

/-- No operation begins, and no data is received for one. -/
def Trust.idle : Trust := { Trust.all with block := fun _ _ => False, begins := fun _ => False }

/-- What became of an operation that is still in preparation. -/
structure Saves (a b : Access) (o p : Operation) : Prop where
  state : o.state = .preparing
  evolves : Evolves o p
  reserved : p.reserved = o.reserved
  recorded : ∀ x ∈ o.allocations, (a.blocks.get x.2.blockVersionId).isSome = true →
    (b.blocks.get x.2.blockVersionId).isSome = true

/-- What is in preparation was so before, with as much reserved and no fewer blocks. -/
structure Thrift (a b : Access) : Prop where
  uploads : ∀ k p, b.uploads.get k = some p → p.state = .preparing →
    ∃ o, a.uploads.get k = some o ∧ Saves a b o p
  blocks : ∀ k r, b.blocks.get k = some r → a.blocks.get k = some r

namespace Thrift

theorem refl (a : Access) : Thrift a a where
  uploads _ p hp hst := ⟨p, hp, hst, .refl p, rfl, fun _ _ h => h⟩
  blocks _ _ h := h

theorem trans (h : Thrift a b) (h' : Thrift b c) : Thrift a c where
  uploads k q hq hst := by
    obtain ⟨p, hp, hpq⟩ := h'.uploads k q hq hst
    obtain ⟨o, ho, hop⟩ := h.uploads k p hp hpq.state
    refine ⟨o, ho, hop.state, hop.evolves.trans hpq.evolves, hpq.reserved.trans hop.reserved,
      fun x hx hk => ?_⟩
    exact hpq.recorded x (hop.evolves.allocations.subset hx) (hop.recorded x hx hk)
  blocks k r hr := h.blocks k r (h'.blocks k r hr)

end Thrift

/-- What is reserved for an operation in preparation changes only when data is received. -/
theorem Act.reserves (h : Act app Trust.idle a b) :
    a.uploads.Grows (fun o p => p.state = .preparing → p.reserved = o.reserved) b.uploads := by
  have hrefl : ∀ o : Operation, o.state = .preparing → o.reserved = o.reserved := fun _ _ => rfl
  have hold : ∀ {o p : Operation}, a.uploads.get p.id = some o →
      (p.state = .preparing → p.reserved = o.reserved) →
      a.uploads.Grows (fun o p => p.state = .preparing → p.reserved = o.reserved)
        (a.uploads.put p) := fun hg he => .put_old hrefl hg he
  cases h with
  | recordOp _ hb _ _ _ _ _ _ => exact hb.elim
  | beginWrite hb _ => exact hb.elim
  | beginPlain _ hb _ _ => exact hb.elim
  | beginUpload hb _ => exact hb.elim
  | touchOp _ _ hg _ _ => exact hold hg fun _ => rfl
  | spendOp _ _ ht => exact ht.elim
  | sealOp hg _ => exact hold hg fun _ => rfl
  | capture _ hg _ => exact hold hg fun _ => rfl
  | endOp hg _ hend =>
      refine hold hg fun hst => ?_
      rcases hend with rfl | rfl <;> cases hst
  | stage hg _ _ => exact hold hg fun _ => rfl
  | allocate hok => exact hold hok.stored fun _ => rfl
  | commitWrite _ hc _ _ _ => exact hold hc.stored fun hst => by cases hst
  | commitUpload _ hc _ => exact hold hc.stored fun hst => by cases hst
  | _ => exact .refl hrefl _

/-- No block is recorded where none is received. -/
theorem Act.received (h : Act app Trust.idle a b) {k : Id} {r : Block}
    (hr : b.blocks.get k = some r) : a.blocks.get k = some r := by
  cases h with
  | confirmBlock hok => exact hok.trusted.elim
  | retireBlock _ _ _ _ => exact Table.get_of_get_delete hr
  | _ => exact hr

/-- **One action that is idle reserves nothing.** -/
theorem Act.thrift (h : Act app Trust.idle a b) : Thrift a b where
  uploads k p hp hst := by
    cases ho : a.uploads.get k with
    | none =>
        rw [h.unbegun (fun hf => hf) ho] at hp
        cases hp
    | some o =>
        obtain ⟨p', hp', hev⟩ := h.uploads k o ho
        obtain rfl : p' = p := Option.some.inj (hp'.symm.trans hp)
        obtain ⟨q, hq, hres⟩ := h.reserves k o ho
        obtain rfl : q = p' := Option.some.inj (hq.symm.trans hp)
        have host := hev.preparing hst
        refine ⟨o, rfl, host, hev, hres hst, fun x hx hk => ?_⟩
        rcases h.blocks hk with hb | ⟨-, hnone⟩
        · exact hb
        · exact absurd rfl (hnone o (Table.mem_of_get ho) host x hx)
  blocks k r hr := h.received hr

/-- **Actions that are idle reserve nothing.** -/
theorem Acts.thrift (h : Acts app Trust.idle a b) : Thrift a b := by
  induction h with
  | refl => exact .refl a
  | tail _ hact ih => exact ih.trans hact.thrift

end Dfsha
