import Dfsha.Pages.Unit

/-!
# What is read from pages

A page that is cached is a page of etcd.  So what is read at an address is what the pages of etcd
hold there, whether the pages come from the cache or from etcd, and a program that reads either
returns it or fails because a call failed.

## Main definitions

* `Etcd.view` — the pages of etcd.
* `Store.Cached` — the cache holds pages of etcd.
* `Reads` — what reading leaves alone.
* `Faulted` — a call failed.

## Main results

* `object_ends` — an object is read as it was written.
-/

namespace Dfsha.Pages

open Prog

variable {c : Codec} {s t u : Store}

/-- What a payload says, if it is a page. -/
def node (payload : Bytes) : Option (Addressed.Node String UInt8) := (parse payload).toOption

/-- The pages that a function from addresses to payloads gives. -/
def viewOf (payloads : String → Option Bytes) (digest : String) :
    Option (Addressed.Node String UInt8) := (payloads digest).bind node

/-- The pages of etcd. -/
def Etcd.view (c : Codec) (e : Etcd) : String → Option (Addressed.Node String UInt8) :=
  viewOf (e.fetch c)

/-- An address stands for an object. -/
def HoldsJson (view : String → Option (Addressed.Node String UInt8)) (digest : String)
    (v : Json) : Prop := Addressed.Holds view digest (encode v)

theorem HoldsJson.unique {view : String → Option (Addressed.Node String UInt8)} {digest : String}
    {v w : Json} (h : HoldsJson view digest v) (h' : HoldsJson view digest w) : v = w :=
  encode_injective (Addressed.Holds.unique h h')

theorem Etcd.fetch_address {e : Etcd} {digest : String} {payload : Bytes}
    (h : e.fetch c digest = some payload) : c.address payload = digest := by
  simp only [Etcd.fetch, Option.bind_eq_some_iff] at h
  obtain ⟨row, -, q, -, h⟩ := h
  split at h
  · rename_i haddress
    rw [Option.some.injEq] at h
    exact h ▸ haddress
  · cases h

theorem Etcd.fetch_row {e : Etcd} {digest : String} {payload : Bytes}
    (h : e.fetch c digest = some payload) : ∃ row, e.pages.get digest = some row ∧
      c.payload digest row.wire = some payload := by
  have haddress := Etcd.fetch_address h
  simp only [Etcd.fetch, Option.bind_eq_some_iff] at h
  obtain ⟨row, hrow, q, hq, h⟩ := h
  split at h
  · rw [Option.some.injEq] at h
    exact ⟨row, hrow, h ▸ hq⟩
  · cases h

/-- An address that can be read is not empty. -/
theorem ne_empty_of_holds (hc : c.Sound) {e : Etcd} {digest : String} {content : Bytes}
    (h : Addressed.Holds (e.view c) digest content) : digest ≠ "" := by
  have hview := h.isSome
  rw [Etcd.view, viewOf, Option.isSome_iff_exists] at hview
  obtain ⟨n, hn⟩ := hview
  obtain ⟨payload, hpayload, -⟩ := Option.bind_eq_some_iff.mp hn
  exact Etcd.fetch_address hpayload ▸ hc.nonempty payload

/-- The cache holds pages of etcd. -/
def Store.Cached (c : Codec) (s : Store) : Prop := ∀ x ∈ s.cache, s.etcd.fetch c x.1 = some x.2

/-- A call failed. -/
def Faulted (s : Store) (e : Halt) : Prop := e = .fault .serviceUnavailable ∧ true ∈ s.faults

/-- What reading pages leaves alone. -/
structure Reads (c : Codec) (s t : Store) : Prop where
  etcd : t.etcd = s.etcd
  unit : t.unit = s.unit
  heap : t.heap = s.heap
  nonce : t.nonce = s.nonce
  cached : s.Cached c → t.Cached c
  faults : t.faults ⊆ s.faults

namespace Reads

theorem refl (c : Codec) (s : Store) : Reads c s s :=
  ⟨rfl, rfl, rfl, rfl, id, fun _ h => h⟩

theorem trans (h : Reads c s t) (h' : Reads c t u) : Reads c s u where
  etcd := h'.etcd.trans h.etcd
  unit := h'.unit.trans h.unit
  heap := h'.heap.trans h.heap
  nonce := h'.nonce.trans h.nonce
  cached hs := h'.cached (h.cached hs)
  faults := fun _ hb => h.faults (h'.faults hb)

theorem faulted {e : Halt} (h : Reads c s t) (he : Faulted t e) : Faulted s e :=
  ⟨he.1, h.faults he.2⟩

end Reads

/-! ## Calls and the cache -/

theorem require_ends {p : Prop} [Decidable p] {reason : Reason} {Q : Unit → Store → Prop}
    {E : Halt → Store → Prop} :
    (require p reason).Ends s Q E ↔ (p → Q () s) ∧ (¬ p → E (.fault reason) s) := by
  by_cases h : p
  · simp [require, h, ends_pure]
  · simp [require, h, ends_raise]

/-- A call is carried out, or it fails; nothing else happens. -/
theorem rpc_spec (s : Store) :
    rpc.Ends s (fun _ t => ∃ fs, fs ⊆ s.faults ∧ t = { s with faults := fs })
      fun e t => Faulted s e ∧ ∃ fs, fs ⊆ s.faults ∧ t = { s with faults := fs } := by
  unfold Ends
  cases hfaults : s.faults with
  | nil =>
      simp only [rpc, hfaults]
      exact ⟨[], fun _ hb => hb, by cases s; cases hfaults; rfl⟩
  | cons b rest =>
      have hrest : rest ⊆ b :: rest := fun _ hb => List.mem_cons_of_mem _ hb
      cases b with
      | true =>
          simp only [rpc, hfaults]
          exact ⟨⟨rfl, hfaults ▸ List.mem_cons_self⟩, rest, hrest, rfl⟩
      | false =>
          simp only [rpc, hfaults]
          exact ⟨rest, hrest, rfl⟩

theorem rpc_ends (c : Codec) (s : Store) :
    rpc.Ends s (fun _ t => Reads c s t) fun e t => Faulted s e ∧ Reads c s t := by
  refine (rpc_spec s).mono (fun _ t ht => ?_) fun e t he => ⟨he.1, ?_⟩
  · obtain ⟨fs, hfs, rfl⟩ := ht
    exact ⟨rfl, rfl, rfl, rfl, id, hfs⟩
  · obtain ⟨fs, hfs, rfl⟩ := he.2
    exact ⟨rfl, rfl, rfl, rfl, id, hfs⟩

theorem mem_of_mem_evict {x : String × Bytes} {cache : List (String × Bytes)}
    (h : x ∈ evict cache) : x ∈ cache := by
  induction cache with
  | nil => exact h
  | cons y cache ih =>
      unfold evict at h
      split at h
      · exact List.mem_cons_of_mem _ (ih h)
      · exact h

theorem cachePut_ends {digest : String} {payload : Bytes}
    (h : s.etcd.fetch c digest = some payload) {E : Halt → Store → Prop} :
    (cachePut digest payload).Ends s (fun _ t => Reads c s t) E := by
  refine ends_modify.mpr ⟨rfl, rfl, rfl, rfl, fun hs x hx => ?_, fun _ hb => hb⟩
  rcases List.mem_append.mp (mem_of_mem_evict hx) with hold | hnew
  · exact hs x (List.mem_filter.mp hold).1
  · rw [List.mem_singleton.mp hnew]
    exact h

/-! ## Pages -/

/-- **A page that etcd has is read.** -/
theorem fetch_ends (hs : s.Cached c) {digest : String} {payload : Bytes}
    (h : s.etcd.fetch c digest = some payload) :
    (fetch c digest).Ends s (fun q t => q = payload ∧ Reads c s t) fun e t =>
      Faulted s e ∧ Reads c s t := by
  unfold fetch
  rw [ends_bind, ends_reads]
  cases hcache : Pairs.find s.cache digest with
  | some q =>
      have hq := hs _ (Pairs.mem_of_find hcache)
      simp only [id, hcache]
      exact ends_pure.mpr ⟨Option.some.inj (hq.symm.trans h), .refl c s⟩
  | none =>
      obtain ⟨row, hrow, hpayload⟩ := Etcd.fetch_row h
      simp only [id, hcache, hrow, hpayload]
      refine (rpc_ends c s).bind fun _ t ht => ?_
      rw [ends_bind, require_ends]
      refine ⟨fun _ => ?_, fun hne => absurd (Etcd.fetch_address h) hne⟩
      refine (cachePut_ends (ht.etcd ▸ h)).bind fun _ u hu => ?_
      exact ends_pure.mpr ⟨rfl, ht.trans hu⟩

theorem view_eq_some {payloads : String → Option Bytes} {digest : String}
    {n : Addressed.Node String UInt8} (h : viewOf payloads digest = some n) :
    ∃ payload, payloads digest = some payload ∧ parse payload = .ok n := by
  obtain ⟨payload, hpayload, hnode⟩ := Option.bind_eq_some_iff.mp h
  refine ⟨payload, hpayload, ?_⟩
  unfold node at hnode
  cases hparse : parse payload with
  | error e => simp [hparse, Except.toOption] at hnode
  | ok m => simpa [hparse, Except.toOption] using hnode

/-- **Content is read as the pages of etcd hold it.** -/
theorem readBlob_ends (n : Nat) {digest : String} {content : Bytes} (hs : s.Cached c)
    (h : Addressed.read (s.etcd.view c) n digest = some content) :
    (readBlob c n digest).Ends s (fun q t => q = content ∧ Reads c s t) fun e t =>
      Faulted s e ∧ Reads c s t := by
  induction n generalizing s digest content with
  | zero => cases h
  | succ n ih =>
      cases hview : s.etcd.view c digest with
      | none => simp [Addressed.read, hview] at h
      | some node =>
          obtain ⟨payload, hpayload, hparse⟩ := view_eq_some hview
          unfold readBlob
          refine (fetch_ends hs hpayload).bind fun q t ht => ?_
          obtain ⟨rfl, ht⟩ := ht
          rw [hparse]
          cases node with
          | leaf p =>
              rw [Addressed.read_leaf hview, Option.some.injEq] at h
              exact ⟨h, ht⟩
          | index children =>
              rw [Addressed.read_index hview, Addressed.gather_eq_some] at h
              obtain ⟨parts, hparts, rfl⟩ := h
              have hview' : t.etcd.view c = s.etcd.view c := by rw [ht.etcd]
              refine (Ends.map (I := fun u => Reads c s u)
                (R := fun d p _ => Addressed.read (s.etcd.view c) n d = some p)
                (fun _ _ _ _ _ hR _ => hR) (fun d hd u hu => ?_) ht).bind fun got u hu => ?_
              · obtain ⟨p, -, hp⟩ := Addressed.partner_of_mem hparts hd
                have hp' : Addressed.read (u.etcd.view c) n d = some p := hu.etcd.symm ▸ hp
                refine (ih (hu.cached hs) hp').mono (fun q v hv => ?_) fun e v hv => ?_
                · exact ⟨hu.trans hv.2, hv.1 ▸ hp⟩
                · exact ⟨hu.faulted hv.1, hu.trans hv.2⟩
              · have hgot := Addressed.gather_eq_some.mpr ⟨got, hu.2, rfl⟩
                have hpart := Addressed.gather_eq_some.mpr ⟨parts, hparts, rfl⟩
                exact ends_pure.mpr ⟨Option.some.inj (hgot.symm.trans hpart), hu.1⟩

/-- **An object is read as it was written.** -/
theorem object_ends (hc : c.Sound) (hs : s.Cached c) {digest : String} {v : Json}
    (h : HoldsJson (s.etcd.view c) digest v) :
    (object c (some digest)).Ends s (fun w t => w = v ∧ Reads c s t) fun e t =>
      Faulted s e ∧ Reads c s t := by
  have hpages : ∀ d n, s.etcd.view c d = some n → d ∈ s.etcd.pages.all.map PageRow.digest := by
    intro d n hd
    obtain ⟨payload, hpayload, -⟩ := view_eq_some hd
    obtain ⟨row, hrow, -⟩ := Etcd.fetch_row hpayload
    exact List.mem_map.mpr ⟨row, Table.mem_of_get hrow, Table.key_of_get hrow⟩
  have hread := Addressed.Holds.read hpages h
  rw [List.length_map] at hread
  simp only [object, if_neg (ne_empty_of_holds hc h)]
  rw [ends_bind, ends_reads]
  refine (readBlob_ends _ hs hread).bind fun content t ht => ?_
  obtain ⟨rfl, ht⟩ := ht
  rw [loads_encode]
  exact ends_pure.mpr ⟨rfl, ht⟩

/-! ## The tree of the metadata -/

/-- What a view has of the pages of the metadata. -/
abbrev View := String → Option (Addressed.Node String UInt8)

/-- The bucket of a shard. -/
def BucketAt (view : View) (root : Root) (kind shard : String) (b : Bucket) : Prop :=
  match bucketDigest root kind shard with
  | none => b = .empty
  | some digest => HoldsJson view digest (bucketJson b)

theorem BucketAt.unique {view : View} {root : Root} {kind shard : String} {b b' : Bucket}
    (h : BucketAt view root kind shard b) (h' : BucketAt view root kind shard b') : b = b' := by
  unfold BucketAt at h h'
  cases hd : bucketDigest root kind shard with
  | none =>
      rw [hd] at h h'
      exact h.trans h'.symm
  | some digest =>
      rw [hd] at h h'
      have hjson : bucketJson b = bucketJson b' := HoldsJson.unique h h'
      exact Option.some.inj ((bucketOf_json b).symm.trans ((congrArg bucketOf hjson).trans
        (bucketOf_json b')))

/-- **Every bucket of a root, and every record in it, can be read.** -/
def Closed (view : View) (root : Root) : Prop :=
  ∀ kind shard, ∃ b, BucketAt view root kind shard b ∧
    ∀ identity digest, b.find identity = some digest → ∃ v, HoldsJson view digest v

/-- The record of an identifier. -/
def RecordAt (c : Codec) (view : View) (root : Root) (kind identity : String)
    (v : Option Json) : Prop :=
  ∀ b, BucketAt view root kind (c.shard identity) b →
    match b.find identity with
    | none => v = none
    | some digest => ∃ w, v = some w ∧ HoldsJson view digest w

/-- What the metadata say, by kind and identifier. -/
abbrev Contents := String → String → Option Json

/-- **A root has these contents.** -/
structure Content (c : Codec) (view : View) (root : Root) (m : Contents) : Prop where
  closed : Closed view root
  records : ∀ kind identity, RecordAt c view root kind identity (m kind identity)

/-- The buckets of a unit are those of its root. -/
def Loaded (view : View) (root : Root) (buckets : List ((String × String) × Bucket)) : Prop :=
  ∀ key b, Pairs.find buckets key = some b → BucketAt view root key.1 key.2 b

/-! ## What is read in a unit -/

/-- What reading in a unit leaves alone: the buckets that were read are kept, and new objects are
made. -/
structure Browses (c : Codec) (s t : Store) : Prop where
  etcd : t.etcd = s.etcd
  nonce : t.nonce = s.nonce
  heap : s.heap <+: t.heap
  cached : s.Cached c → t.Cached c
  faults : t.faults ⊆ s.faults
  unit : ∀ u, s.unit = some u → ∃ buckets, t.unit = some { u with buckets := buckets } ∧
    (Loaded (s.etcd.view c) u.root u.buckets → Loaded (s.etcd.view c) u.root buckets)

namespace Browses

theorem refl (c : Codec) (s : Store) : Browses c s s :=
  ⟨rfl, rfl, List.prefix_rfl, id, fun _ h => h, fun u hu => ⟨u.buckets, hu, id⟩⟩

theorem trans (h : Browses c s t) (h' : Browses c t u) : Browses c s u where
  etcd := h'.etcd.trans h.etcd
  nonce := h'.nonce.trans h.nonce
  heap := h.heap.trans h'.heap
  cached hs := h'.cached (h.cached hs)
  faults := fun _ hb => h.faults (h'.faults hb)
  unit := by
    intro x hx
    obtain ⟨buckets, ht, hloaded⟩ := h.unit x hx
    obtain ⟨buckets', hu, hloaded'⟩ := h'.unit _ ht
    exact ⟨buckets', hu, fun hl => h.etcd ▸ hloaded' (h.etcd ▸ hloaded hl)⟩

theorem faulted {e : Halt} (h : Browses c s t) (he : Faulted t e) : Faulted s e :=
  ⟨he.1, h.faults he.2⟩

theorem of_reads (h : Reads c s t) : Browses c s t :=
  ⟨h.etcd, h.nonce, h.heap ▸ List.prefix_rfl, h.cached, h.faults,
    fun u hu => ⟨u.buckets, h.unit.trans hu, id⟩⟩

/-- An object that there was is still what it was. -/
theorem value (h : Browses c s t) {r : Ref} {v : Json} (hr : s.heap[r]? = some v) :
    t.heap[r]? = some v := by
  obtain ⟨more, hmore⟩ := h.heap
  rw [← hmore, List.getElem?_append_left (List.getElem?_eq_some_iff.mp hr).1]
  exact hr

end Browses

theorem theUnit_ends {x : EtcdUnit} (h : s.unit = some x) {Q : EtcdUnit → Store → Prop}
    {E : Halt → Store → Prop} : theUnit.Ends s Q E ↔ Q x s := by
  unfold theUnit
  rw [ends_bind, ends_reads]
  simp only [id, h]
  exact ends_pure

theorem valueOf_ends {r : Ref} {v : Json} (h : s.heap[r]? = some v) {Q : Json → Store → Prop}
    {E : Halt → Store → Prop} : (valueOf r).Ends s Q E ↔ Q v s := by
  unfold valueOf
  rw [ends_bind, ends_reads]
  simp only [id, h]
  exact ends_pure

/-- A new object. -/
theorem alloc_ends {v : Json} {Q : Ref → Store → Prop} {E : Halt → Store → Prop} :
    (alloc v).Ends s Q E ↔ Q s.heap.length { s with heap := s.heap ++ [v] } := Iff.rfl

theorem browses_alloc (c : Codec) (s : Store) (v : Json) :
    Browses c s { s with heap := s.heap ++ [v] } :=
  ⟨rfl, rfl, List.prefix_append _ _, id, fun _ h => h, fun u hu => ⟨u.buckets, hu, id⟩⟩

/-- **The bucket of a shard is read.** -/
theorem shardBucket_ends (hc : c.Sound) (hs : s.Cached c) {x : EtcdUnit} (hx : s.unit = some x)
    (hl : Loaded (s.etcd.view c) x.root x.buckets) {kind shard : String} {b : Bucket}
    (hb : BucketAt (s.etcd.view c) x.root kind shard b) :
    (shardBucket c kind shard).Ends s (fun b' t => b' = b ∧ Browses c s t) fun e t =>
      Faulted s e ∧ Browses c s t := by
  unfold shardBucket
  rw [ends_bind, theUnit_ends hx]
  cases hfind : Pairs.find x.buckets (kind, shard) with
  | some b' => exact ends_pure.mpr ⟨(hl _ _ hfind).unique hb, .refl c s⟩
  | none =>
      have hobject : (object c (bucketDigest x.root kind shard)).Ends s
          (fun w t => w = bucketJson b ∧ Reads c s t) fun e t => Faulted s e ∧ Reads c s t := by
        unfold BucketAt at hb
        cases hd : bucketDigest x.root kind shard with
        | none =>
            rw [hd] at hb
            exact ends_pure.mpr ⟨hb ▸ rfl, .refl c s⟩
        | some digest =>
            rw [hd] at hb
            exact object_ends hc hs hb
      refine (hobject.mono (fun _ _ h => h) fun e t h => ⟨h.1, .of_reads h.2⟩).bind fun w t ht => ?_
      obtain ⟨rfl, ht⟩ := ht
      rw [bucketOf_json]
      refine (ends_bind.mpr (ends_modify.mpr (ends_pure.mpr ⟨rfl, ?_⟩)))
      refine ⟨ht.etcd, ht.nonce, ht.heap ▸ List.prefix_rfl, ht.cached, ht.faults, fun u hu => ?_⟩
      obtain rfl : x = u := Option.some.inj (hx.symm.trans hu)
      refine ⟨_, by rw [ht.unit, hx]; rfl, fun _ key b' hkey => ?_⟩
      rw [Pairs.find_set] at hkey
      by_cases heq : (kind, shard) = key
      · subst heq
        rw [if_pos rfl, Option.some.injEq] at hkey
        exact hkey ▸ hb
      · rw [if_neg heq] at hkey
        exact hl key b' hkey

end Dfsha.Pages
