import Dfsha.Pages.Writing
import Mathlib.Data.List.Dedup

/-!
# What `flush` leaves

The records that are pending go into their shards one after the other.  On the way every shard that
was read shows the goal for what was done already and the old contents for the rest, and a shard
that was not changed is still the one that the root names.  At the end the new root has the
contents that the unit shows.

## Main definitions

* `Shows` — what a bucket has of a record.
* `Merging` — the invariant of the loop over the pending records.
* `Naming` — the invariant of the loop over the shards that were changed.

## Main results

* `flush_ends` — the root that `flush` writes has the contents that the unit shows.
-/

namespace Dfsha.Pages

open Prog

variable {c : Codec} {m goal : Contents} {s t : Store} {u x : EtcdUnit}

/-- What a bucket has of a record. -/
def Shows (view : View) (b : Bucket) (identity : String) (v : Option Json) : Prop :=
  match b.find identity with
  | none => v = none
  | some digest => ∃ w, v = some w ∧ HoldsJson view digest w

theorem Shows.mono {view view' : View} {b : Bucket} {identity : String} {v : Option Json}
    (hview : ∀ d n, view d = some n → view' d = some n) (h : Shows view b identity v) :
    Shows view' b identity v := by
  unfold Shows at h ⊢
  cases hfind : b.find identity with
  | none =>
      rw [hfind] at h
      exact h
  | some digest =>
      rw [hfind] at h
      obtain ⟨w, hv, hw⟩ := h
      exact ⟨w, hv, Addressed.Holds.mono hview hw⟩

theorem BucketAt.mono {view view' : View} {root : Root} {kind shard : String} {b : Bucket}
    (hview : ∀ d n, view d = some n → view' d = some n) (h : BucketAt view root kind shard b) :
    BucketAt view' root kind shard b := by
  unfold BucketAt at h ⊢
  cases hd : bucketDigest root kind shard with
  | none =>
      rw [hd] at h
      exact h
  | some digest =>
      rw [hd] at h
      exact Addressed.Holds.mono hview h

/-- More pages do not change what the contents are. -/
theorem Content.mono {view view' : View} {root : Root}
    (hview : ∀ d n, view d = some n → view' d = some n) (h : Content c view root m) :
    Content c view' root m where
  closed kind shard := by
    obtain ⟨b, hb, hread⟩ := h.closed kind shard
    refine ⟨b, hb.mono hview, fun identity digest hd => ?_⟩
    obtain ⟨v, hv⟩ := hread identity digest hd
    exact ⟨v, Addressed.Holds.mono hview hv⟩
  records kind identity b hb := by
    obtain ⟨b', hb', -⟩ := h.closed kind (c.shard identity)
    obtain rfl := (hb'.mono hview).unique hb
    exact Shows.mono hview (h.records kind identity b' hb')

/-- How a flush fails: a call failed, or too much is written; etcd is as it was. -/
structure Broken (c : Codec) (s : Store) (e : Halt) (t : Store) : Prop where
  etcd : t.etcd = s.etcd
  heap : t.heap = s.heap
  cached : t.Cached c
  faults : t.faults ⊆ s.faults
  reason : Faulted s e ∨ TooLarge c t e

/-- A flush that began in `s` with the unit `u`, and has come to `t` with the unit `x`. -/
structure Flushing (c : Codec) (s t : Store) (u x : EtcdUnit) : Prop where
  cached : t.Cached c
  unit : t.unit = some x
  etcd : t.etcd = s.etcd
  heap : t.heap = s.heap
  faults : t.faults ⊆ s.faults
  write : x.write = true
  pending : x.pending = u.pending
  effects : x.effects = u.effects
  own : OwnAddresses c x.pages
  nodup : (x.pages.map Prod.fst).Nodup

namespace Flushing

theorem writable (h : Flushing c s t u x) : Writable c t x := ⟨h.cached, h.unit, h.write, h.own⟩

/-- A flush goes on after pages were written. -/
theorem pages (h : Flushing c s t u x) {pages : List (String × Bytes)}
    (hw : Wrote c x.pages pages) :
    Flushing c s (t.withPages x pages) u { x with pages := pages } :=
  ⟨h.cached, rfl, h.etcd, h.heap, h.faults, h.write, h.pending, h.effects, hw.own, hw.nodup h.nodup⟩

/-- A flush goes on after pages were read. -/
theorem reads (h : Flushing c s t u x) {r : Store} (hr : Reads c t r)
    (buckets : List ((String × String) × Bucket)) :
    Flushing c s { r with unit := some { x with buckets := buckets } } u
      { x with buckets := buckets } :=
  ⟨hr.cached h.cached, rfl, hr.etcd.trans h.etcd, hr.heap.trans h.heap,
    fun _ hb => h.faults (hr.faults hb), h.write, h.pending, h.effects, h.own, h.nodup⟩

/-- A flush that fails on the way fails. -/
theorem broken (h : Flushing c s t u x) {e : Halt} {t' : Store} (hb : Broken c t e t') :
    Broken c s e t' where
  etcd := hb.etcd.trans h.etcd
  heap := hb.heap.trans h.heap
  cached := hb.cached
  faults := fun _ hx => h.faults (hb.faults hx)
  reason := hb.reason.imp_left fun hf => ⟨hf.1, h.faults hf.2⟩

theorem broken_of_reads (h : Flushing c s t u x) {e : Halt} {t' : Store} (he : Faulted t e)
    (hr : Reads c t t') : Broken c s e t' :=
  h.broken ⟨hr.etcd, hr.heap, hr.cached h.cached, hr.faults, .inl he⟩

theorem broken_of_tooLarge (h : Flushing c s t u x) {e : Halt} {t' : Store}
    (he : TooLarge c t' e ∧ ∃ pages, t' = t.withPages x pages ∧ Wrote c x.pages pages) :
    Broken c s e t' := by
  obtain ⟨htoo, pages, rfl, -⟩ := he
  exact h.broken ⟨rfl, rfl, h.cached, fun _ hx => hx, .inr htoo⟩

end Flushing

/-- A bucket is read, or was read before. -/
theorem shardBucket_loads (hc : c.Sound) (hs : t.Cached c) (hx : t.unit = some x)
    {kind shard : String} {b₀ : Bucket} (hb : BucketAt (t.etcd.view c) x.root kind shard b₀) :
    (shardBucket c kind shard).Ends t
      (fun b t' => ∃ r buckets, Reads c t r ∧
        t' = { r with unit := some { x with buckets := buckets } } ∧
        ((Pairs.find x.buckets (kind, shard) = some b ∧ buckets = x.buckets) ∨
          (Pairs.find x.buckets (kind, shard) = none ∧ b = b₀ ∧
            buckets = Pairs.set x.buckets (kind, shard) b)))
      fun e t' => Faulted t e ∧ Reads c t t' := by
  have hself : t = { t with unit := some { x with buckets := x.buckets } } := by
    cases t
    cases hx
    rfl
  unfold shardBucket
  rw [ends_bind, theUnit_ends hx]
  cases hfind : Pairs.find x.buckets (kind, shard) with
  | some b => exact ends_pure.mpr ⟨t, x.buckets, .refl c t, hself, .inl ⟨rfl, rfl⟩⟩
  | none =>
      have hobject : (object c (bucketDigest x.root kind shard)).Ends t
          (fun w t' => w = bucketJson b₀ ∧ Reads c t t') fun e t' => Faulted t e ∧ Reads c t t' := by
        unfold BucketAt at hb
        cases hd : bucketDigest x.root kind shard with
        | none =>
            rw [hd] at hb
            exact ends_pure.mpr ⟨hb ▸ rfl, .refl c t⟩
        | some digest =>
            rw [hd] at hb
            exact object_ends hc hs hb
      refine hobject.bind fun w t' ht => ?_
      obtain ⟨rfl, ht⟩ := ht
      rw [bucketOf_json]
      refine ends_bind.mpr (ends_modify.mpr (ends_pure.mpr ⟨t', _, ht, ?_, .inr ⟨rfl, rfl, rfl⟩⟩))
      rw [ht.unit, hx]
      rfl

/-! ## The records that are pending -/

/-- The goal for the records that are done, and the old contents for the rest. -/
def merged (goal m : Contents) (before : List ((String × String) × Option Ref)) : Contents :=
  fun kind identity =>
    if (kind, identity) ∈ before.map Prod.fst then goal kind identity else m kind identity

/-- Some pending records are in their shards. -/
structure Merging (c : Codec) (m goal : Contents) (s t : Store) (u x : EtcdUnit)
    (before : List ((String × String) × Option Ref)) (changed : List (String × String)) : Prop where
  flushing : Flushing c s t u x
  root : x.root = u.root
  readable : ∀ key b, Pairs.find x.buckets key = some b → ∀ identity digest,
    b.find identity = some digest → ∃ v, HoldsJson (viewWith c s.etcd x.pages) digest v
  shows : ∀ key b, Pairs.find x.buckets key = some b → ∀ identity, c.shard identity = key.2 →
    Shows (viewWith c s.etcd x.pages) b identity (merged goal m before key.1 identity)
  old : ∀ key b, Pairs.find x.buckets key = some b → key ∉ changed →
    BucketAt (s.etcd.view c) u.root key.1 key.2 b
  loaded : ∀ e ∈ before, Pairs.find x.buckets (e.1.1, c.shard e.1.2) ≠ none
  same : ∀ e ∈ before, (e.1.1, c.shard e.1.2) ∉ changed → goal e.1.1 e.1.2 = m e.1.1 e.1.2
  listed : ∀ key ∈ changed, Pairs.find x.buckets key ≠ none

/-- Further pages do not matter. -/
theorem Merging.pages {before : List ((String × String) × Option Ref)}
    {changed : List (String × String)} (h : Merging c m goal s t u x before changed)
    {pages : List (String × Bytes)} (hw : Wrote c x.pages pages) :
    Merging c m goal s (t.withPages x pages) u { x with pages := pages } before changed where
  flushing := h.flushing.pages hw
  root := h.root
  readable key b hb identity digest hd := by
    obtain ⟨v, hv⟩ := h.readable key b hb identity digest hd
    exact ⟨v, Addressed.Holds.mono (hw.view s.etcd) hv⟩
  shows key b hb identity hshard := (h.shows key b hb identity hshard).mono (hw.view s.etcd)
  old := h.old
  loaded := h.loaded
  same := h.same
  listed := h.listed

/-- A bucket that is read shows the old contents, which are the merged ones where nothing was
done. -/
theorem Merging.reads {before : List ((String × String) × Option Ref)}
    {changed : List (String × String)} (h : Merging c m goal s t u x before changed)
    (hm : Content c (s.etcd.view c) u.root m) {kind shard : String} {b₀ b : Bucket}
    (hb₀ : BucketAt (s.etcd.view c) u.root kind shard b₀) {r : Store}
    {buckets : List ((String × String) × Bucket)} (hr : Reads c t r)
    (hcases : (Pairs.find x.buckets (kind, shard) = some b ∧ buckets = x.buckets) ∨
      (Pairs.find x.buckets (kind, shard) = none ∧ b = b₀ ∧
        buckets = Pairs.set x.buckets (kind, shard) b)) :
    Pairs.find buckets (kind, shard) = some b ∧
    Merging c m goal s { r with unit := some { x with buckets := buckets } } u
      { x with buckets := buckets } before changed := by
  rcases hcases with ⟨hfind, rfl⟩ | ⟨hnone, rfl, rfl⟩
  · exact ⟨hfind, ⟨h.flushing.reads hr _, h.root, h.readable, h.shows, h.old, h.loaded, h.same,
      h.listed⟩⟩
  · have hset : ∀ key b', Pairs.find (Pairs.set x.buckets (kind, shard) b) key = some b' →
        (key = (kind, shard) ∧ b' = b) ∨ Pairs.find x.buckets key = some b' := by
      intro key b' hb'
      rw [Pairs.find_set] at hb'
      by_cases heq : (kind, shard) = key
      · rw [if_pos heq, Option.some.injEq] at hb'
        exact .inl ⟨heq.symm, hb'.symm⟩
      · rw [if_neg heq] at hb'
        exact .inr hb'
    have hmore : ∀ key, Pairs.find x.buckets key ≠ none →
        Pairs.find (Pairs.set x.buckets (kind, shard) b) key ≠ none := by
      intro key hkey
      rw [Pairs.find_set]
      by_cases heq : (kind, shard) = key
      · rw [if_pos heq]
        exact Option.some_ne_none b
      · rw [if_neg heq]
        exact hkey
    have hview := view_viewWith (c := c) s.etcd x.pages
    refine ⟨by rw [Pairs.find_set, if_pos rfl], h.flushing.reads hr _, h.root, ?_, ?_, ?_,
      fun e he => hmore _ (h.loaded e he), h.same, fun key hkey => hmore _ (h.listed key hkey)⟩
    · intro key b' hb' identity digest hd
      rcases hset key b' hb' with ⟨rfl, rfl⟩ | hold
      · obtain ⟨b'', hb'', hread⟩ := hm.closed kind shard
        obtain rfl := hb''.unique hb₀
        obtain ⟨v, hv⟩ := hread identity digest hd
        exact ⟨v, Addressed.Holds.mono hview hv⟩
      · exact h.readable key b' hold identity digest hd
    · intro key b' hb' identity hshard
      rcases hset key b' hb' with ⟨rfl, rfl⟩ | hold
      · have hrecord : Shows (s.etcd.view c) b' identity (m kind identity) :=
          hm.records kind identity b' (hshard ▸ hb₀)
        have hnew : (kind, identity) ∉ before.map Prod.fst := by
          intro hmem
          obtain ⟨e, he, hkey⟩ := List.mem_map.mp hmem
          refine h.loaded e he ?_
          rw [hkey]
          exact hshard ▸ hnone
        unfold merged
        rw [if_neg hnew]
        exact hrecord.mono hview
      · exact h.shows key b' hold identity hshard
    · intro key b' hb' hkey
      rcases hset key b' hb' with ⟨rfl, rfl⟩ | hold
      · exact hb₀
      · exact h.old key b' hold hkey

theorem Shows.unique {view : View} {b : Bucket} {identity : String} {v w : Option Json}
    (h : Shows view b identity v) (h' : Shows view b identity w) : v = w := by
  unfold Shows at h h'
  cases hfind : b.find identity with
  | none =>
      rw [hfind] at h h'
      exact h.trans h'.symm
  | some digest =>
      rw [hfind] at h h'
      obtain ⟨a, rfl, ha⟩ := h
      obtain ⟨a', rfl, ha'⟩ := h'
      rw [ha.unique ha']

theorem Shows.congr {view : View} {b b' : Bucket} {identity : String} {v : Option Json}
    (hfind : b'.find identity = b.find identity) (h : Shows view b identity v) :
    Shows view b' identity v := by
  unfold Shows at h ⊢
  rw [hfind]
  exact h

theorem merged_snoc {before : List ((String × String) × Option Ref)} {kind identity : String}
    {r : Option Ref} (k i : String) :
    merged goal m (before ++ [((kind, identity), r)]) k i =
      if (k, i) = (kind, identity) then goal kind identity else merged goal m before k i := by
  unfold merged
  rw [List.map_append, List.map_singleton]
  by_cases heq : (k, i) = (kind, identity)
  · obtain ⟨rfl, rfl⟩ := Prod.mk.injEq .. ▸ heq
    rw [if_pos (List.mem_append_right _ List.mem_cons_self), if_pos rfl]
  · have hiff : (k, i) ∈ before.map Prod.fst ++ [(kind, identity)] ↔
        (k, i) ∈ before.map Prod.fst := by simp [heq]
    simp only [hiff, if_neg heq]

/-- A record that its shard shows already is done. -/
theorem Merging.unchanged {before : List ((String × String) × Option Ref)}
    {changed : List (String × String)} (h : Merging c m goal s t u x before changed)
    {kind identity : String} {r : Option Ref} {b : Bucket}
    (hnew : (kind, identity) ∉ before.map Prod.fst)
    (hfind : Pairs.find x.buckets (kind, c.shard identity) = some b)
    (hshows : Shows (viewWith c s.etcd x.pages) b identity (goal kind identity)) :
    Merging c m goal s t u x (before ++ [((kind, identity), r)]) changed where
  flushing := h.flushing
  root := h.root
  readable := h.readable
  shows key b' hb' i hshard := by
    rw [merged_snoc]
    by_cases heq : (key.1, i) = (kind, identity)
    · obtain ⟨hkind, rfl⟩ := Prod.mk.injEq .. ▸ heq
      have hkey : key = (kind, c.shard i) := Prod.ext hkind hshard.symm
      rw [hkey, hfind, Option.some.injEq] at hb'
      rw [if_pos heq, ← hb']
      exact hshows
    · rw [if_neg heq]
      exact h.shows key b' hb' i hshard
  old := h.old
  loaded e he := by
    rcases List.mem_append.mp he with hold | hlast
    · exact h.loaded e hold
    · rw [List.mem_singleton.mp hlast, hfind]
      exact Option.some_ne_none b
  same e he hchanged := by
    rcases List.mem_append.mp he with hold | hlast
    · exact h.same e hold hchanged
    · rw [List.mem_singleton.mp hlast]
      have hmerged := h.shows _ b hfind identity rfl
      unfold merged at hmerged
      rw [if_neg hnew] at hmerged
      exact hshows.unique hmerged
  listed := h.listed

/-- A record that its shard did not show is put into it. -/
theorem Merging.replaced {before : List ((String × String) × Option Ref)}
    {changed : List (String × String)} (h : Merging c m goal s t u x before changed)
    {kind identity : String} {r : Option Ref} {b b' : Bucket}
    (hfind : Pairs.find x.buckets (kind, c.shard identity) = some b)
    (hshows : Shows (viewWith c s.etcd x.pages) b' identity (goal kind identity))
    (hother : ∀ i, i ≠ identity → b'.find i = b.find i) {t' : Store}
    (ht' : t' = { t with unit := some { x with
      buckets := Pairs.set x.buckets (kind, c.shard identity) b' } }) :
    Merging c m goal s t' u
      { x with buckets := Pairs.set x.buckets (kind, c.shard identity) b' }
      (before ++ [((kind, identity), r)]) (changed ++ [(kind, c.shard identity)]) := by
  subst ht'
  have hset : ∀ key a, Pairs.find (Pairs.set x.buckets (kind, c.shard identity) b') key = some a →
      (key = (kind, c.shard identity) ∧ a = b') ∨
        (key ≠ (kind, c.shard identity) ∧ Pairs.find x.buckets key = some a) := by
    intro key a ha
    rw [Pairs.find_set] at ha
    by_cases heq : (kind, c.shard identity) = key
    · rw [if_pos heq, Option.some.injEq] at ha
      exact .inl ⟨heq.symm, ha.symm⟩
    · rw [if_neg heq] at ha
      exact .inr ⟨fun h => heq h.symm, ha⟩
  have hmore : ∀ key, (key = (kind, c.shard identity) ∨ Pairs.find x.buckets key ≠ none) →
      Pairs.find (Pairs.set x.buckets (kind, c.shard identity) b') key ≠ none := by
    intro key hkey
    rw [Pairs.find_set]
    by_cases heq : (kind, c.shard identity) = key
    · rw [if_pos heq]
      exact Option.some_ne_none b'
    · rw [if_neg heq]
      exact hkey.resolve_left fun h => heq h.symm
  refine ⟨⟨h.flushing.cached, rfl, h.flushing.etcd, h.flushing.heap, h.flushing.faults,
    h.flushing.write, h.flushing.pending, h.flushing.effects, h.flushing.own, h.flushing.nodup⟩,
    h.root, ?_, ?_, ?_, ?_, ?_, ?_⟩
  · intro key a ha i digest hd
    rcases hset key a ha with ⟨rfl, rfl⟩ | ⟨-, hold⟩
    · by_cases heq : i = identity
      · subst heq
        unfold Shows at hshows
        rw [hd] at hshows
        obtain ⟨w, -, hw⟩ := hshows
        exact ⟨w, hw⟩
      · exact h.readable _ b hfind i digest ((hother i heq).symm.trans hd)
    · exact h.readable key a hold i digest hd
  · intro key a ha i hshard
    rw [merged_snoc]
    rcases hset key a ha with ⟨rfl, rfl⟩ | ⟨hne, hold⟩
    · by_cases heq : i = identity
      · subst heq
        rw [if_pos rfl]
        exact hshows
      · rw [if_neg fun he => heq (Prod.mk.injEq .. ▸ he).2]
        exact (h.shows _ b hfind i hshard).congr (hother i heq)
    · rw [if_neg fun he => ?_]
      · exact h.shows key a hold i hshard
      · obtain ⟨hkind, rfl⟩ := Prod.mk.injEq .. ▸ he
        exact hne (Prod.ext hkind hshard.symm)
  · intro key a ha hkey
    rcases hset key a ha with ⟨rfl, -⟩ | ⟨-, hold⟩
    · exact absurd (List.mem_append_right _ List.mem_cons_self) hkey
    · exact h.old key a hold fun hmem => hkey (List.mem_append_left _ hmem)
  · intro e he
    rcases List.mem_append.mp he with hold | hlast
    · exact hmore _ (.inr (h.loaded e hold))
    · rw [List.mem_singleton.mp hlast]
      exact hmore _ (.inl rfl)
  · intro e he hkey
    rcases List.mem_append.mp he with hold | hlast
    · exact h.same e hold fun hmem => hkey (List.mem_append_left _ hmem)
    · rw [List.mem_singleton.mp hlast] at hkey
      exact absurd (List.mem_append_right _ List.mem_cons_self) hkey
  · intro key hkey
    rcases List.mem_append.mp hkey with hold | hlast
    · exact hmore key (.inr (h.listed key hold))
    · exact hmore key (.inl (List.mem_singleton.mp hlast))

/-- The digest of a record that is pending. -/
theorem recordDigest_ends (hc : c.Sound) {before : List ((String × String) × Option Ref)}
    {changed : List (String × String)} (h : Merging c m goal s t u x before changed)
    {r : Option Ref} {v : Option Json} (hv : (r.bind fun x => s.heap[x]?) = v)
    (hvalid : ∀ y ∈ r, y < s.heap.length) :
    (recordDigest c r).Ends t
      (fun digest t' => ∃ pages, Wrote c x.pages pages ∧ t' = t.withPages x pages ∧
        ((digest = none ∧ v = none) ∨ ∃ d w, digest = some d ∧ v = some w ∧
          HoldsJson (viewWith c s.etcd pages) d w))
      (Broken c s) := by
  cases r with
  | none => exact ends_pure.mpr ⟨x.pages, .refl h.flushing.own, h.flushing.writable.self,
      .inl ⟨rfl, hv.symm⟩⟩
  | some r =>
      have hlt := hvalid r rfl
      have hvalue : t.heap[r]? = some s.heap[r] := by
        rw [h.flushing.heap]
        exact List.getElem?_eq_getElem hlt
      have hv' : v = some s.heap[r] := hv.symm.trans (List.getElem?_eq_getElem hlt)
      refine ends_bind.mpr ((valueOf_ends hvalue).mpr ?_)
      refine ((blob_ends hc h.flushing.writable _).mono (fun _ _ hd => hd)
        fun e t' he => h.flushing.broken_of_tooLarge he).bind fun d t' hd => ?_
      obtain ⟨pages, rfl, hwrote, hholds⟩ := hd
      rw [h.flushing.etcd] at hholds
      exact ends_pure.mpr ⟨pages, hwrote, rfl, .inr ⟨d, _, rfl, hv', hholds⟩⟩

/-- **One turn of the loop**: a record that is pending goes into its shard. -/
theorem flushRecord_ends (hc : c.Sound) (hm : Content c (s.etcd.view c) u.root m)
    {before : List ((String × String) × Option Ref)} {changed : List (String × String)}
    (h : Merging c m goal s t u x before changed) {kind identity : String} {r : Option Ref}
    (hgoal : (r.bind fun x => s.heap[x]?) = goal kind identity)
    (hvalid : ∀ y ∈ r, y < s.heap.length) (hnew : (kind, identity) ∉ before.map Prod.fst) :
    (flushRecord c ((kind, identity), r)).Ends t
      (fun keys t' => ∃ x', Merging c m goal s t' u x' (before ++ [((kind, identity), r)])
        (changed ++ keys))
      (Broken c s) := by
  obtain ⟨b₀, hb₀, -⟩ := hm.closed kind (c.shard identity)
  have hb : BucketAt (t.etcd.view c) x.root kind (c.shard identity) b₀ := by
    rw [h.flushing.etcd, h.root]
    exact hb₀
  unfold flushRecord
  refine ((shardBucket_loads hc h.flushing.cached h.flushing.unit hb).mono (fun _ _ hb => hb)
    fun e t' he => h.flushing.broken_of_reads he.1 he.2).bind fun b t' ht => ?_
  obtain ⟨r', buckets, hr, rfl, hcases⟩ := ht
  obtain ⟨hfind, h⟩ := h.reads hm hb₀ hr hcases
  refine (recordDigest_ends hc h hgoal hvalid).bind fun digest t' ht => ?_
  obtain ⟨pages, hwrote, rfl, hdigest⟩ := ht
  have h := h.pages hwrote
  rw [ends_ite]
  refine ⟨fun hsame => ?_, fun hdiffers => ?_⟩
  · have hshows : Shows (viewWith c s.etcd pages) b identity (goal kind identity) := by
      unfold Shows
      rw [show b.find identity = digest from hsame]
      rcases hdigest with ⟨rfl, hnone⟩ | ⟨d, w, rfl, hsome, hw⟩
      · exact hnone
      · exact ⟨w, hsome, hw⟩
    have hunchanged := h.unchanged (r := r) hnew hfind hshows
    exact ends_pure.mpr ⟨_, by rw [List.append_nil]; exact hunchanged⟩
  · have hshows : Shows (viewWith c s.etcd pages)
        (digest.elim (b.pop identity) fun d => b.set identity d) identity
        (goal kind identity) := by
      unfold Shows
      rcases hdigest with ⟨rfl, hnone⟩ | ⟨d, w, rfl, hsome, hw⟩
      · simp only [Option.elim_none, Dict.find_pop, if_true]
        exact hnone
      · simp only [Option.elim_some, Dict.find_set, if_true]
        exact ⟨w, hsome, hw⟩
    have hother : ∀ i, i ≠ identity →
        (digest.elim (b.pop identity) fun d => b.set identity d).find i = b.find i := by
      intro i hi
      cases digest with
      | none => simp only [Option.elim_none, Dict.find_pop, if_neg (Ne.symm hi)]
      | some d => simp only [Option.elim_some, Dict.find_set, if_neg (Ne.symm hi)]
    have hreplaced := h.replaced (r := r) hfind hshows hother rfl
    exact ends_bind.mpr (ends_modify.mpr (ends_pure.mpr ⟨_, hreplaced⟩))

/-! ## The shards that were changed -/

theorem bucketDigest_set (root : Root) (key key' : String × String) (digest : String) :
    bucketDigest (root.set key.1 (((root.find key.1).getD .empty).set key.2 digest))
        key'.1 key'.2 =
      if key = key' then some digest else bucketDigest root key'.1 key'.2 := by
  unfold bucketDigest
  rw [Dict.find_set]
  by_cases hkind : key.1 = key'.1
  · rw [if_pos hkind, Option.bind_some, Dict.find_set]
    by_cases hshard : key.2 = key'.2
    · rw [if_pos hshard, if_pos (Prod.ext hkind hshard)]
    · rw [if_neg hshard, if_neg fun he => hshard (congrArg Prod.snd he), hkind]
      cases root.find key'.1 <;> rfl
  · rw [if_neg hkind, if_neg fun he => hkind (congrArg Prod.fst he)]

/-- Some of the shards that were changed are named by the root; `buckets` are the shards. -/
structure Naming (c : Codec) (s t : Store) (u x : EtcdUnit)
    (buckets : List ((String × String) × Bucket)) (before : List (String × String)) : Prop where
  flushing : Flushing c s t u x
  kept : x.buckets = buckets
  named : ∀ key ∈ before, ∃ d b, bucketDigest x.root key.1 key.2 = some d ∧
    Pairs.find buckets key = some b ∧
    HoldsJson (viewWith c s.etcd x.pages) d (bucketJson b)
  old : ∀ key : String × String, key ∉ before →
    bucketDigest x.root key.1 key.2 = bucketDigest u.root key.1 key.2

/-- **One turn of the loop**: a shard that was changed is written and named. -/
theorem flushShard_ends (hc : c.Sound) {buckets : List ((String × String) × Bucket)}
    {before : List (String × String)} (h : Naming c s t u x buckets before)
    {key : String × String} (hkey : Pairs.find buckets key ≠ none) {pages₀ : List (String × Bytes)}
    (hpages : Wrote c pages₀ x.pages) :
    (flushShard c key).Ends t
      (fun _ t' => ∃ x', Naming c s t' u x' buckets (before ++ [key]) ∧ Wrote c pages₀ x'.pages)
      (Broken c s) := by
  obtain ⟨b, hb⟩ := Option.ne_none_iff_exists'.mp hkey
  unfold flushShard
  rw [ends_bind, theUnit_ends h.flushing.unit]
  simp only [h.kept, hb]
  refine ((blob_ends hc h.flushing.writable _).mono (fun _ _ hd => hd)
    fun e t' he => h.flushing.broken_of_tooLarge he).bind fun d t' hd => ?_
  obtain ⟨pages, rfl, hwrote, hholds⟩ := hd
  rw [h.flushing.etcd] at hholds
  have hf := h.flushing.pages hwrote
  refine ends_modify.mpr ⟨{ x with
    pages := pages,
    root := x.root.set key.1 (((x.root.find key.1).getD .empty).set key.2 d) },
    ⟨⟨hf.cached, rfl, hf.etcd, hf.heap, hf.faults, hf.write, hf.pending, hf.effects, hf.own,
      hf.nodup⟩, h.kept, ?_, ?_⟩, hpages.trans hwrote⟩
  · intro key' hkey'
    simp only [bucketDigest_set]
    by_cases heq : key = key'
    · subst heq
      exact ⟨d, b, if_pos rfl, hb, hholds⟩
    · rw [if_neg heq]
      have hold : key' ∈ before := by
        rcases List.mem_append.mp hkey' with hold | hlast
        · exact hold
        · exact absurd (List.mem_singleton.mp hlast).symm heq
      obtain ⟨d', b', hd', hb', hholds'⟩ := h.named key' hold
      exact ⟨d', b', hd', hb', Addressed.Holds.mono (hwrote.view s.etcd) hholds'⟩
  · intro key' hkey'
    simp only [bucketDigest_set]
    have heq : key ≠ key' := by
      rintro rfl
      exact hkey' (List.mem_append_right _ List.mem_cons_self)
    rw [if_neg heq]
    exact h.old key' fun hmem => hkey' (List.mem_append_left _ hmem)

/-! ## The whole -/

/-- Before anything is done every shard that was read is the one that the root names. -/
theorem Sees.merging (h : Sees c m s u) (hw : u.write = true) (hown : OwnAddresses c u.pages)
    (hnodup : (u.pages.map Prod.fst).Nodup) : Merging c m goal s s u u [] [] where
  flushing := ⟨h.cached, h.unit, rfl, rfl, fun _ hb => hb, hw, rfl, rfl, hown, hnodup⟩
  root := rfl
  readable key b hb identity digest hd := by
    obtain ⟨b', hb', hread⟩ := h.bucket key.1 key.2
    obtain rfl := hb'.unique (h.loaded key b hb)
    obtain ⟨v, hv⟩ := hread identity digest hd
    exact ⟨v, Addressed.Holds.mono (view_viewWith s.etcd u.pages) hv⟩
  shows key b hb identity hshard := by
    have hrecord : Shows (s.etcd.view c) b identity (m key.1 identity) :=
      h.content.records key.1 identity b (hshard ▸ h.loaded key b hb)
    exact hrecord.mono (view_viewWith s.etcd u.pages)
  old key b hb _ := h.loaded key b hb
  loaded := fun _ he => (List.not_mem_nil he).elim
  same := fun _ he => (List.not_mem_nil he).elim
  listed := fun _ hkey => (List.not_mem_nil hkey).elim

/-- What a pending record is. -/
theorem current_of_mem (hkeys : (u.pending.map Prod.fst).Nodup) {kind identity : String}
    {r : Option Ref} (h : ((kind, identity), r) ∈ u.pending) (heap : List Json) :
    (r.bind fun x => heap[x]?) = current m u heap kind identity := by
  unfold current
  rw [Pairs.find_of_mem hkeys h]
  cases r <;> rfl

/-- What is not pending is what it was. -/
theorem current_of_not_mem {kind identity : String} (heap : List Json)
    (h : (kind, identity) ∉ u.pending.map Prod.fst) :
    current m u heap kind identity = m kind identity := by
  unfold current
  cases hfind : Pairs.find u.pending (kind, identity) with
  | none => rfl
  | some r =>
      exact absurd (List.mem_map.mpr ⟨_, Pairs.mem_of_find hfind, rfl⟩) h

/-- When all shards are named, the root has the contents. -/
theorem content_of_naming (hm : Content c (s.etcd.view c) u.root m) {t' : Store}
    {x' : EtcdUnit} {changed done : List (String × String)}
    (hmerging : Merging c m (current m u s.heap) s t u x u.pending changed)
    (hdone : ∀ key, key ∈ done ↔ key ∈ changed)
    (hnaming : Naming c s t' u x' x.buckets done) (hw : Wrote c x.pages x'.pages) :
    Content c (viewWith c s.etcd x'.pages) x'.root (current m u s.heap) := by
  have hview := view_viewWith (c := c) s.etcd x'.pages
  -- the bucket of a shard is the one that was merged, if it was changed, and else the old one
  have hbucket : ∀ kind shard, ∃ b, BucketAt (viewWith c s.etcd x'.pages) x'.root kind shard b ∧
      ((kind, shard) ∈ changed ∧ Pairs.find x.buckets (kind, shard) = some b ∨
        (kind, shard) ∉ changed ∧ BucketAt (s.etcd.view c) u.root kind shard b) := by
    intro kind shard
    by_cases hchanged : (kind, shard) ∈ changed
    · obtain ⟨d, b, hd, hb, hholds⟩ := hnaming.named _ ((hdone _).mpr hchanged)
      refine ⟨b, ?_, .inl ⟨hchanged, hb⟩⟩
      unfold BucketAt
      rw [show bucketDigest x'.root kind shard = some d from hd]
      exact hholds
    · obtain ⟨b, hb, -⟩ := hm.closed kind shard
      refine ⟨b, ?_, .inr ⟨hchanged, hb⟩⟩
      have hold := hnaming.old (kind, shard) fun hmem => hchanged ((hdone _).mp hmem)
      have hb := hb.mono hview
      unfold BucketAt at hb ⊢
      rw [show bucketDigest x'.root kind shard = bucketDigest u.root kind shard from hold]
      exact hb
  constructor
  · intro kind shard
    obtain ⟨b, hb, hcases⟩ := hbucket kind shard
    refine ⟨b, hb, fun identity digest hd => ?_⟩
    rcases hcases with ⟨-, hfind⟩ | ⟨-, hold⟩
    · obtain ⟨v, hv⟩ := hmerging.readable _ b hfind identity digest hd
      exact ⟨v, Addressed.Holds.mono (hw.view s.etcd) hv⟩
    · obtain ⟨b', hb', hread⟩ := hm.closed kind shard
      obtain rfl := hb'.unique hold
      obtain ⟨v, hv⟩ := hread identity digest hd
      exact ⟨v, Addressed.Holds.mono hview hv⟩
  · intro kind identity b hb
    obtain ⟨b', hb', hcases⟩ := hbucket kind (c.shard identity)
    obtain rfl := hb'.unique hb
    change Shows (viewWith c s.etcd x'.pages) b' identity (current m u s.heap kind identity)
    rcases hcases with ⟨-, hfind⟩ | ⟨hchanged, hold⟩
    · have hshows := hmerging.shows _ b' hfind identity rfl
      have hmerged : merged (current m u s.heap) m u.pending kind identity =
          current m u s.heap kind identity := by
        unfold merged
        by_cases hmem : (kind, identity) ∈ u.pending.map Prod.fst
        · exact if_pos hmem
        · rw [if_neg hmem, current_of_not_mem s.heap hmem]
      rw [hmerged] at hshows
      exact hshows.mono (hw.view s.etcd)
    · have hrecord : Shows (s.etcd.view c) b' identity (m kind identity) :=
        hm.records kind identity b' hold
      have hsame : current m u s.heap kind identity = m kind identity := by
        by_cases hmem : (kind, identity) ∈ u.pending.map Prod.fst
        · obtain ⟨e, he, hkey⟩ := List.mem_map.mp hmem
          have := hmerging.same e he
          rw [hkey] at this
          exact this hchanged
        · exact current_of_not_mem s.heap hmem
      rw [hsame]
      exact hrecord.mono hview

/-- **The root that `flush` writes has the contents that the unit shows.** -/
theorem flush_ends (hc : c.Sound) (h : Sees c m s u) (hw : u.write = true)
    (hkeys : (u.pending.map Prod.fst).Nodup) (hown : OwnAddresses c u.pages)
    (hnodup : (u.pages.map Prod.fst).Nodup) :
    (flush c).Ends s
      (fun digest t => ∃ x root, Flushing c s t u x ∧
        HoldsJson (viewWith c s.etcd x.pages) digest (rootJson root) ∧
        Content c (viewWith c s.etcd x.pages) root (current m u s.heap))
      (Broken c s) := by
  unfold flush
  rw [ends_bind, theUnit_ends h.unit]
  refine (Ends.collect (I := fun rest done t => ∃ before x, u.pending = before ++ rest ∧
      Merging c m (current m u s.heap) s t u x before done.flatten)
    (fun e rest done t ht => ?_)
    ⟨[], u, rfl, h.merging hw hown hnodup⟩).bind fun keys t ht => ?_
  · obtain ⟨before, x, hpending, hmerging⟩ := ht
    obtain ⟨⟨kind, identity⟩, r⟩ := e
    have hmem : ((kind, identity), r) ∈ u.pending := by simp [hpending]
    have hnew : (kind, identity) ∉ before.map Prod.fst := by
      intro hin
      rw [hpending, List.map_append, List.map_cons] at hkeys
      exact (List.nodup_append.mp hkeys).2.2 _ hin _ List.mem_cons_self rfl
    refine (flushRecord_ends hc h.content hmerging (current_of_mem hkeys hmem s.heap)
      (fun y hy => ?_) hnew).mono (fun keys t ht => ?_) fun _ _ he => he
    · rw [Option.mem_def] at hy
      subst hy
      exact h.pending _ y (Pairs.find_of_mem hkeys hmem)
    · obtain ⟨x', hmerging'⟩ := ht
      refine ⟨before ++ [((kind, identity), r)], x', by simp [hpending], ?_⟩
      rw [List.flatten_append, List.flatten_singleton]
      exact hmerging'
  · obtain ⟨before, x, hpending, hmerging⟩ := ht
    rw [List.append_nil] at hpending
    subst hpending
    refine (Ends.each (I := fun rest t => ∃ before x', keys.flatten.dedup = before ++ rest ∧
        Naming c s t u x' x.buckets before ∧ Wrote c x.pages x'.pages)
      (fun key rest t ht => ?_) ⟨[], x, rfl, ⟨hmerging.flushing, rfl, ?_, ?_⟩,
        .refl hmerging.flushing.own⟩).bind fun _ t ht => ?_
    · obtain ⟨before, x', hbefore, hnaming, hwrote⟩ := ht
      have hlisted : Pairs.find x.buckets key ≠ none :=
        hmerging.listed key (List.mem_dedup.mp (by simp [hbefore]))
      refine (flushShard_ends hc hnaming hlisted hwrote).mono (fun _ t ht => ?_) fun _ _ he => he
      obtain ⟨x'', hnaming', hwrote'⟩ := ht
      exact ⟨before ++ [key], x'', by simp [hbefore], hnaming', hwrote'⟩
    · exact fun key hkey => (List.not_mem_nil hkey).elim
    · exact fun key _ => by rw [hmerging.root]
    · obtain ⟨before, x', hbefore, hnaming, hwrote⟩ := ht
      rw [List.append_nil] at hbefore
      have hdone : ∀ key, key ∈ before ↔ key ∈ keys.flatten := fun key => by
        rw [← hbefore, List.mem_dedup]
      have hcontent := content_of_naming h.content hmerging hdone hnaming hwrote
      rw [ends_bind, theUnit_ends hnaming.flushing.unit]
      refine (blob_ends hc hnaming.flushing.writable _).mono (fun d t hd => ?_)
        fun e t he => hnaming.flushing.broken_of_tooLarge he
      obtain ⟨pages, rfl, hwrote', hholds⟩ := hd
      rw [hnaming.flushing.etcd] at hholds
      exact ⟨_, x'.root, hnaming.flushing.pages hwrote', hholds,
        hcontent.mono (hwrote'.view s.etcd)⟩

end Dfsha.Pages
