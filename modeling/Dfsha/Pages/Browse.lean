import Dfsha.Pages.Reading

/-!
# What `get`, `all` and `children` return

A unit over a root whose contents are `m` shows `current`: what was put and deleted in the unit, and
`m` beneath.  What is returned are new objects with these values.

## Main definitions

* `current` — what a unit shows of a record.
* `Sees` — a unit over contents.
* `Handed` — an object that is new, with a value.

## Main results

* `get_ends`, `all_ends`, `children_ends`.
-/

namespace Dfsha.Pages

open Prog

variable {c : Codec} {m : Contents} {s t : Store} {u : EtcdUnit}

/-- What a unit shows of a record. -/
def current (m : Contents) (u : EtcdUnit) (heap : List Json) (kind identity : String) :
    Option Json :=
  match Pairs.find u.pending (kind, identity) with
  | some none => none
  | some (some r) => heap[r]?
  | none => m kind identity

/-- A unit over contents. -/
structure Sees (c : Codec) (m : Contents) (s : Store) (u : EtcdUnit) : Prop where
  cached : s.Cached c
  unit : s.unit = some u
  loaded : Loaded (s.etcd.view c) u.root u.buckets
  content : Content c (s.etcd.view c) u.root m
  pending : ∀ key r, Pairs.find u.pending key = some (some r) → r < s.heap.length

/-- What was pending is what it was. -/
theorem Browses.current (h : Browses c s t)
    (hpending : ∀ key r, Pairs.find u.pending key = some (some r) → r < s.heap.length)
    (kind identity : String) :
    current m u t.heap kind identity = current m u s.heap kind identity := by
  unfold Pages.current
  cases hfind : Pairs.find u.pending (kind, identity) with
  | none => rfl
  | some r =>
      cases r with
      | none => rfl
      | some r =>
          have hlt := hpending _ r hfind
          exact (h.value (List.getElem?_eq_getElem hlt)).trans
            (List.getElem?_eq_getElem hlt).symm

theorem Sees.browses (h : Sees c m s u) (hb : Browses c s t) :
    ∃ buckets, Sees c m t { u with buckets := buckets } := by
  obtain ⟨buckets, ht, hloaded⟩ := hb.unit u h.unit
  refine ⟨buckets, hb.cached h.cached, ht, hb.etcd ▸ hloaded h.loaded, hb.etcd ▸ h.content,
    fun key r hr => ?_⟩
  exact Nat.lt_of_lt_of_le (h.pending key r hr) hb.heap.length_le

/-- An object that is new, with a value; or none. -/
structure Handed (old : Nat) (heap : List Json) (r : Option Ref) (v : Option Json) : Prop where
  value : (r.bind fun x => heap[x]?) = v
  fresh : ∀ x ∈ r, old ≤ x ∧ x < heap.length

theorem Handed.none (old : Nat) (heap : List Json) : Handed old heap none none :=
  ⟨rfl, fun _ hx => by cases hx⟩

theorem Handed.alloc {old : Nat} (s : Store) (v : Json) (h : old ≤ s.heap.length) :
    Handed old (s.heap ++ [v]) (some s.heap.length) (some v) := by
  refine ⟨by simp, fun x hx => ?_⟩
  rw [Option.mem_def, Option.some.injEq] at hx
  subst hx
  exact ⟨h, by simp⟩

theorem Handed.browses {old : Nat} {r : Option Ref} {v : Option Json}
    (h : Handed old s.heap r v) (hb : Browses c s t) : Handed old t.heap r v := by
  refine ⟨?_, fun x hx => ⟨(h.fresh x hx).1, ?_⟩⟩
  · rw [← h.value]
    cases r with
    | none => rfl
    | some x =>
        have hlt := (h.fresh x rfl).2
        exact (hb.value (List.getElem?_eq_getElem hlt)).trans (List.getElem?_eq_getElem hlt).symm
  · exact Nat.lt_of_lt_of_le (h.fresh x hx).2 hb.heap.length_le

/-- The bucket of a shard of contents. -/
theorem Sees.bucket (h : Sees c m s u) (kind shard : String) :
    ∃ b, BucketAt (s.etcd.view c) u.root kind shard b ∧
      ∀ identity digest, b.find identity = some digest → ∃ v, HoldsJson (s.etcd.view c) digest v :=
  h.content.closed kind shard

/-! ## `get` -/

/-- **`get` returns a new object with what the unit shows.** -/
theorem get_ends (hc : c.Sound) (h : Sees c m s u) (kind identity : String) :
    (get c kind (some identity)).Ends s
      (fun r t => Browses c s t ∧
        Handed s.heap.length t.heap r (current m u s.heap kind identity))
      fun e t => Faulted s e ∧ Browses c s t := by
  unfold get current
  rw [ends_bind, theUnit_ends h.unit]
  cases hfind : Pairs.find u.pending (kind, identity) with
  | some r =>
      cases r with
      | none => exact ends_pure.mpr ⟨.refl c s, .none _ _⟩
      | some r =>
          have hvalue := List.getElem?_eq_getElem (h.pending _ r hfind)
          simp only [hvalue]
          rw [ends_bind, valueOf_ends hvalue, ends_bind, alloc_ends]
          exact ends_pure.mpr ⟨browses_alloc c s _, .alloc s _ (Nat.le_refl _)⟩
  | none =>
      obtain ⟨b, hb, hrecords⟩ := h.bucket kind (c.shard identity)
      have hrecord := h.content.records kind identity b hb
      refine (shardBucket_ends hc h.cached h.unit h.loaded hb).bind fun b' t ht => ?_
      obtain ⟨rfl, ht⟩ := ht
      cases hdigest : b'.find identity with
      | none =>
          rw [hdigest] at hrecord
          simp only [hrecord]
          exact ends_pure.mpr ⟨ht, .none _ _⟩
      | some digest =>
          rw [hdigest] at hrecord
          obtain ⟨v, hm, hv⟩ := hrecord
          simp only [hm, if_neg (ne_empty_of_holds hc hv)]
          refine ((object_ends hc (ht.cached h.cached) (ht.etcd.symm ▸ hv)).mono
            (fun _ _ hw => hw) fun e t' he => ?_).bind fun w t' hw => ?_
          · exact ⟨ht.faulted he.1, ht.trans (.of_reads he.2)⟩
          obtain ⟨rfl, hw⟩ := hw
          rw [ends_bind, alloc_ends]
          have hlater := ht.trans (.of_reads hw)
          exact ends_pure.mpr ⟨hlater.trans (browses_alloc c t' w),
            .alloc t' w hlater.heap.length_le⟩

/-! ## `all` -/

theorem shardIdentities_ends (hc : c.Sound) (h : Sees c m s u) {kind shard : String} {b : Bucket}
    (hb : BucketAt (s.etcd.view c) u.root kind shard b) :
    (shardIdentities c kind shard).Ends s
      (fun keys t => Browses c s t ∧ keys = b.all.map Item.key)
      fun e t => Faulted s e ∧ Browses c s t := by
  unfold shardIdentities
  refine (shardBucket_ends hc h.cached h.unit h.loaded hb).bind fun b' t ht => ?_
  obtain ⟨rfl, ht⟩ := ht
  exact ends_pure.mpr ⟨ht, rfl⟩

/-- Objects that are new and different, with values. -/
structure HandedAll (old : Nat) (heap : List Json) (refs : List Ref) (vs : List Json) : Prop where
  values : List.Forall₂ (fun x v => heap[x]? = some v) refs vs
  fresh : ∀ x ∈ refs, old ≤ x ∧ x < heap.length
  distinct : refs.Nodup

theorem HandedAll.browses {old : Nat} {refs : List Ref} {vs : List Json}
    (h : HandedAll old s.heap refs vs) (hb : Browses c s t) : HandedAll old t.heap refs vs where
  values := h.values.imp fun _ _ hx => hb.value hx
  fresh x hx := ⟨(h.fresh x hx).1, Nat.lt_of_lt_of_le (h.fresh x hx).2 hb.heap.length_le⟩
  distinct := h.distinct

theorem HandedAll.snoc {old : Nat} {refs : List Ref} {vs : List Json} {r : Option Ref}
    {v : Option Json} (h : HandedAll old s.heap refs vs) (hb : Browses c s t)
    (hr : Handed s.heap.length t.heap r v) (hold : old ≤ s.heap.length) :
    HandedAll old t.heap (refs ++ r.toList) (vs ++ v.toList) := by
  have ht := h.browses hb
  cases r with
  | none =>
      obtain rfl : none = v := hr.value
      simpa using ht
  | some x =>
      obtain ⟨hx, hlt⟩ := hr.fresh x rfl
      have hvalue : t.heap[x]? = v := hr.value
      rw [List.getElem?_eq_getElem hlt] at hvalue
      subst hvalue
      refine ⟨?_, fun y hy => ?_, ?_⟩
      · exact List.rel_append ht.values (.cons (List.getElem?_eq_getElem hlt) .nil)
      · rcases List.mem_append.mp hy with hy | hy
        · exact ht.fresh y hy
        · rw [Option.toList_some, List.mem_singleton] at hy
          exact hy ▸ ⟨Nat.le_trans hold hx, hlt⟩
      · refine List.pairwise_append.mpr ⟨h.distinct, List.pairwise_singleton _ _, ?_⟩
        intro y hy z hz
        rw [Option.toList_some, List.mem_singleton] at hz
        exact hz ▸ Nat.ne_of_lt (Nat.lt_of_lt_of_le (h.fresh y hy).2 hx)

/-- The identifiers that a unit shows are in its shards, or pending. -/
theorem Sees.listed (h : Sees c m s u) {kind : String} {stored : List (List String)}
    (hstored : List.Forall₂ (fun (e : Item String) keys =>
      ∃ b, BucketAt (s.etcd.view c) u.root kind e.key b ∧ keys = b.all.map Item.key)
      ((u.root.find kind).elim [] Table.all) stored)
    {identity : String} (hcurrent : current m u s.heap kind identity ≠ none) :
    identity ∈ stored.flatten ++
      (u.pending.filter fun e => e.1.1 = kind).map fun e => e.1.2 := by
  unfold current at hcurrent
  cases hfind : Pairs.find u.pending (kind, identity) with
  | some r =>
      have hmem := Pairs.mem_of_find hfind
      exact List.mem_append_right _ (List.mem_map.mpr ⟨_, List.mem_filter.mpr
        ⟨hmem, by simp⟩, rfl⟩)
  | none =>
      simp only [hfind] at hcurrent
      obtain ⟨b, hb, -⟩ := h.bucket kind (c.shard identity)
      have hrecord := h.content.records kind identity b hb
      cases hdigest : b.find identity with
      | none =>
          rw [hdigest] at hrecord
          exact absurd hrecord hcurrent
      | some digest =>
          have hmem : ⟨identity, digest⟩ ∈ b.all := Dict.find_eq_some.mp hdigest
          -- a shard that the root does not name is empty
          obtain ⟨shards, hshards, d, hd⟩ : ∃ shards, u.root.find kind = some shards ∧
              ∃ d, shards.find (c.shard identity) = some d := by
            unfold BucketAt at hb
            cases hbd : bucketDigest u.root kind (c.shard identity) with
            | none =>
                rw [hbd] at hb
                rw [hb] at hdigest
                cases hdigest
            | some d =>
                obtain ⟨shards, hshards, hd⟩ := Option.bind_eq_some_iff.mp hbd
                exact ⟨shards, hshards, d, hd⟩
          have hitem : (⟨c.shard identity, d⟩ : Item String) ∈ shards.all :=
            Dict.find_eq_some.mp hd
          rw [hshards] at hstored
          obtain ⟨keys, hkeys, b', hb', rfl⟩ := Addressed.partner_of_mem hstored hitem
          obtain rfl := hb'.unique hb
          exact List.mem_append_left _ (List.mem_flatten.mpr
            ⟨_, hkeys, List.mem_map.mpr ⟨_, hmem, rfl⟩⟩)

/-- **`all` returns new objects with what the unit shows**, by their identifiers. -/
theorem all_ends (hc : c.Sound) (h : Sees c m s u) (kind : String) :
    (all c kind).Ends s
      (fun refs t => Browses c s t ∧ ∃ identities : List String,
        identities.Pairwise (· < ·) ∧
        (∀ identity, current m u s.heap kind identity ≠ none → identity ∈ identities) ∧
        HandedAll s.heap.length t.heap refs
          (identities.filterMap (current m u s.heap kind)))
      fun e t => Faulted s e ∧ Browses c s t := by
  unfold all
  rw [ends_bind, theUnit_ends h.unit]
  refine (Ends.map (I := fun t => Browses c s t) (R := fun (e : Item String) keys _ =>
      ∃ b, BucketAt (s.etcd.view c) u.root kind e.key b ∧ keys = b.all.map Item.key)
    (fun _ _ _ _ _ hR _ => hR) (fun e _ t ht => ?_) (.refl c s)).bind fun stored t ht => ?_
  · obtain ⟨buckets, hsees⟩ := h.browses ht
    obtain ⟨b, hb, -⟩ := hsees.bucket kind e.key
    refine (shardIdentities_ends hc hsees hb).mono (fun keys v hv => ?_) fun x v hv => ?_
    · exact ⟨ht.trans hv.1, b, ht.etcd ▸ hb, hv.2⟩
    · exact ⟨ht.faulted hv.1, ht.trans hv.2⟩
  obtain ⟨ht, hstored⟩ := ht
  obtain ⟨buckets, hsees⟩ := h.browses ht
  rw [ends_bind, theUnit_ends hsees.unit]
  have hlisted := fun identity => @Sees.listed _ _ _ _ h _ _ hstored identity
  generalize hids : sortedSet (stored.flatten ++
    (u.pending.filter fun e => e.1.1 = kind).map fun e => e.1.2) = identities
  have hcover : ∀ identity, current m u s.heap kind identity ≠ none → identity ∈ identities :=
    fun identity hne => hids ▸ mem_sortedSet.mpr (hlisted identity hne)
  have hsorted : identities.Pairwise (· < ·) := hids ▸ sorted_sortedSet _
  simp only [hids]
  refine (Ends.collect (I := fun rest done t => Browses c s t ∧ ∃ before,
      identities = before ++ rest ∧ HandedAll s.heap.length t.heap (done.filterMap id)
        (before.filterMap (current m u s.heap kind))) (fun a rest done v hv => ?_)
    ⟨ht, [], rfl, ⟨.nil, fun x hx => (List.not_mem_nil hx).elim, .nil⟩⟩).bind fun found v hv => ?_
  · obtain ⟨hv, before, hbefore, hhanded⟩ := hv
    obtain ⟨buckets', hsees'⟩ := h.browses hv
    refine (get_ends hc hsees' kind a).mono (fun r w hw => ?_) fun x w hw => ?_
    · have hshown : current m { u with buckets := buckets' } v.heap kind a =
          current m u s.heap kind a := hv.current h.pending kind a
      rw [hshown] at hw
      refine ⟨hv.trans hw.1, before ++ [a], by rw [hbefore, List.append_assoc]; rfl, ?_⟩
      have hsnoc := hhanded.snoc hw.1 hw.2 hv.heap.length_le
      have hrefs : (done ++ [r]).filterMap id = done.filterMap id ++ r.toList := by
        rw [List.filterMap_append]
        cases r <;> rfl
      have hvalues : (before ++ [a]).filterMap (current m u s.heap kind) =
          before.filterMap (current m u s.heap kind) ++ (current m u s.heap kind a).toList := by
        rw [List.filterMap_append]
        cases hca : current m u s.heap kind a <;> simp [hca]
      rw [hrefs, hvalues]
      exact hsnoc
    · exact ⟨hv.faulted hw.1, hv.trans hw.2⟩
  · obtain ⟨hv, before, hbefore, hhanded⟩ := hv
    rw [List.append_nil] at hbefore
    subst hbefore
    exact ends_pure.mpr ⟨hv, identities, hsorted, hcover, hhanded⟩

/-! ## `children` -/

/-- The children of a parent among records, by name. -/
def childrenOf (parent : Option String) (vs : List Json) : Except Halt (List Json) :=
  (sortByName ((vs.filter (isChild parent)).map fun v => ((), v))).map fun rows =>
    rows.map Prod.snd

/-- What rows are named with does not depend on what else they say. -/
theorem sortByName_map {α β : Type} (f : α → β) (rows : List (α × Json)) :
    sortByName (rows.map fun row => (f row.1, row.2)) =
      (sortByName rows).map (List.map fun row => (f row.1, row.2)) := by
  have hall : ∀ p : Json → Bool, ((rows.map fun row => (f row.1, row.2)).all fun row => p row.2) =
      rows.all fun row => p row.2 := fun p => by simp [Function.comp_def]
  have hsort : (rows.map fun row => (f row.1, row.2)).insertionSort
      (fun x y => (nameOf x.2).getD "" ≤ (nameOf y.2).getD "") =
      (rows.insertionSort fun x y => (nameOf x.2).getD "" ≤ (nameOf y.2).getD "").map
        fun row => (f row.1, row.2) :=
    (List.map_insertionSort (fun x y : α × Json => (nameOf x.2).getD "" ≤ (nameOf y.2).getD "")
      (fun x y : β × Json => (nameOf x.2).getD "" ≤ (nameOf y.2).getD "")
      (fun row => (f row.1, row.2)) rows fun _ _ _ _ => Iff.rfl).symm
  unfold sortByName
  rw [hall fun v => (member v "name").isSome, hall fun v => (nameOf v).isSome, hsort,
    List.length_map]
  split
  · split
    · rfl
    · split <;> rfl
  · rfl

theorem sortByName_perm {α : Type} {rows sorted : List (α × Json)}
    (h : sortByName rows = .ok sorted) : sorted.Perm rows := by
  unfold sortByName at h
  split at h
  · split at h
    · obtain rfl := Except.ok.inj h
      exact List.perm_insertionSort _ _
    · split at h
      · obtain rfl := Except.ok.inj h
        exact .refl _
      · cases h
  · cases h

/-- **`children` returns the objects of the children**, by their names. -/
theorem children_ends (hc : c.Sound) (h : Sees c m s u) (parent : Option String) :
    (children c parent).Ends s
      (fun refs t => Browses c s t ∧ ∃ identities : List String,
        identities.Pairwise (· < ·) ∧
        (∀ identity, current m u s.heap "node" identity ≠ none → identity ∈ identities) ∧
        ∃ vs, childrenOf parent (identities.filterMap (current m u s.heap "node")) = .ok vs ∧
          HandedAll s.heap.length t.heap refs vs)
      fun e t => Browses c s t ∧ (Faulted s e ∨ ∃ identities : List String,
        identities.Pairwise (· < ·) ∧
        (∀ identity, current m u s.heap "node" identity ≠ none → identity ∈ identities) ∧
        childrenOf parent (identities.filterMap (current m u s.heap "node")) = .error e) := by
  unfold children
  refine ((all_ends hc h "node").mono (fun _ _ hr => hr) fun e t he => ?_).bind fun refs t ht => ?_
  · exact ⟨he.2, .inl he.1⟩
  obtain ⟨ht, identities, hsorted, hcover, hhanded⟩ := ht
  generalize hvs : identities.filterMap (current m u s.heap "node") = vs at hhanded
  -- the rows are the objects with their values
  refine (Ends.map (I := fun t' => t' = t)
    (R := fun r (row : Ref × Json) _ => row.1 = r ∧ t.heap[r]? = some row.2)
    (fun _ _ _ _ _ hR _ => hR) (fun r hr t' ht' => ?_) rfl).bind fun rows t' ht' => ?_
  · obtain ⟨v, -, hv⟩ := Addressed.partner_of_mem hhanded.values hr
    subst ht'
    exact ends_bind.mpr ((valueOf_ends hv).mpr (ends_pure.mpr ⟨rfl, rfl, hv⟩))
  obtain ⟨rfl, hrows⟩ := ht'
  have hpairs : rows.map Prod.fst = refs ∧ rows.map Prod.snd = vs := by
    have hvalues := hhanded.values
    clear hhanded hvs
    induction hrows generalizing vs with
    | nil => exact ⟨rfl, by cases hvalues; rfl⟩
    | cons hrow _ ih =>
        obtain ⟨v, vs', hv, hvs', rfl⟩ := List.forall₂_cons_left_iff.mp hvalues
        obtain ⟨hfst, hsnd⟩ := ih vs' hvs'
        refine ⟨by rw [List.map_cons, hrow.1, hfst], ?_⟩
        rw [List.map_cons, hsnd, Option.some.inj (hrow.2.symm.trans hv)]
  obtain ⟨hfst, hsnd⟩ := hpairs
  have hchildren : childrenOf parent vs =
      (sortByName (rows.filter fun row => isChild parent row.2)).map fun rows =>
        rows.map Prod.snd := by
    have hfilter : (vs.filter (isChild parent)).map (fun v => ((), v)) =
        (rows.filter fun row => isChild parent row.2).map fun row => ((), row.2) := by
      rw [← hsnd, List.filter_map, List.map_map]
      rfl
    rw [childrenOf, hfilter, sortByName_map fun _ => ()]
    cases sortByName (rows.filter fun row => isChild parent row.2) with
    | error e => rfl
    | ok sorted => simp [Except.map, Function.comp_def]
  cases hsort : sortByName (rows.filter fun row => isChild parent row.2) with
  | error e =>
      rw [hsort] at hchildren
      exact ends_raise.mpr ⟨ht, .inr ⟨identities, hsorted, hcover, hvs ▸ hchildren⟩⟩
  | ok sorted =>
      rw [hsort] at hchildren
      have hperm := sortByName_perm hsort
      have hmem : ∀ row ∈ sorted, row ∈ rows := fun row hrow =>
        (List.mem_filter.mp (hperm.mem_iff.mp hrow)).1
      have hvalue : ∀ row ∈ rows, t'.heap[row.1]? = some row.2 := by
        intro row hrow
        obtain ⟨r, -, hr⟩ := Addressed.partner_of_mem hrows.flip hrow
        exact hr.1.symm ▸ hr.2
      refine ends_pure.mpr ⟨ht, identities, hsorted, hcover, _, hvs ▸ hchildren, ?_, ?_, ?_⟩
      · exact List.forall₂_map_left_iff.mpr (List.forall₂_map_right_iff.mpr
          (List.forall₂_same.mpr fun row hrow => hvalue row (hmem row hrow)))
      · intro x hx
        obtain ⟨row, hrow, rfl⟩ := List.mem_map.mp hx
        exact hhanded.fresh _ (hfst ▸ List.mem_map.mpr ⟨row, hmem row hrow, rfl⟩)
      · refine (hperm.map Prod.fst).nodup_iff.mpr ?_
        exact (hfst ▸ hhanded.distinct : (rows.map Prod.fst).Nodup).sublist
          (List.filter_sublist.map Prod.fst)

end Dfsha.Pages
