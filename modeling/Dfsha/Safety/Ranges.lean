import Dfsha.Control.Resolve
import Dfsha.Control.Script
import Dfsha.Lib.Ranges
import Dfsha.Safety.Snapshots
import Mathlib.Data.List.Rotate

/-!
# The pages of a range

Block after block, the grants of `ResolveBlocks` are what is left of each block when it is cut to
the range.  The place where block `i` begins in this is `placeAt … i`, from the beginning of the
range for the first block to its end for the block after the last.

## Main definitions

* `placeAt` — where a block begins in a range.
* `FollowsCursor` — the pages that are got by following the cursor.
* `AdmitsRange` — a state that answers a request about a range.

## Main results

* `range_resolution` — the pages end, and their grants tile the range.
-/

namespace Dfsha

variable {app : App} {user : User} {session : Session} {w : World}

/-! ## Plans -/

theorem clusterReadPlan_ok {block : BlockRef} {h : Handle} {p : PlannedBlock}
    (hp : (clusterReadPlan app block user h) w = .ok p) :
    p.block = block ∧ p.grants ≠ [] ∧
      ∀ g ∈ p.grants, g.block = block ∧
        ∃ node, w.cluster.datanodes.get g.nodeId = some node := by
  simp only [clusterReadPlan, world, Query.bind_ok, Query.read_ok, need_ok, Query.pure_ok] at hp
  obtain ⟨v, rfl, -, hne, rfl⟩ := hp
  refine ⟨rfl, ?_, ?_⟩
  · intro hnil
    exact hne (List.map_eq_nil_iff.mp hnil)
  · intro g hg
    obtain ⟨node, hnode, rfl⟩ := List.mem_map.mp hg
    obtain ⟨l, -, hl⟩ := List.mem_filterMap.mp (List.mem_filter.mp hnode).1
    have hkey : node.id = l.node := Table.key_of_get hl
    exact ⟨rfl, node, hkey ▸ hl⟩

/-- A plan is about its block, and names registered nodes. -/
theorem readPlan_ok {block : BlockRef} {h : Handle} {p : PlannedBlock}
    (hp : (readPlan app block user h) w = .ok p) :
    p.block = block ∧ p.grants ≠ [] ∧
      ∀ g ∈ p.grants, g.block = block ∧
        ∃ node, w.cluster.datanodes.get g.nodeId = some node := by
  rw [readPlan, Query.bind_ok] at hp
  obtain ⟨result, hresult, hp⟩ := hp
  obtain ⟨hblock, hne, hnodes⟩ := clusterReadPlan_ok hresult
  by_cases hr : app.replicated = true
  · rw [if_pos hr] at hp
    simp only [world, Query.bind_ok, Query.read_ok, need_ok, Query.pure_ok] at hp
    obtain ⟨v, rfl, -, hpairs, rfl⟩ := hp
    refine ⟨hblock, ?_, ?_⟩
    · intro hnil
      rw [List.map_eq_nil_iff, List.rotate_eq_nil_iff] at hnil
      exact hpairs hnil
    · intro g hg
      obtain ⟨x, hx, rfl⟩ := List.mem_map.mp hg
      rw [List.mem_rotate] at hx
      have hmem : (x.1, x.2) ∈ result.locations.zip result.grants := (List.mem_filter.mp hx).1
      exact hnodes _ (List.of_mem_zip hmem).2
  · rw [if_neg hr, Query.pure_ok] at hp
    subst hp
    exact ⟨hblock, hne, hnodes⟩

/-- What the grants of a planned block have in common. -/
def PlannedBlock.range (p : PlannedBlock) : Nat × Nat :=
  (p.grants.map fun g => (g.offset, g.length)).headD (0, 0)

theorem rangeGrant_ok {h : Handle} {readId : Id} {block : BlockRef} {low length : Nat}
    {g g' : BlockGrant} (hg : (rangeGrant app user h readId block low length g) w = .ok g') :
    (g'.offset, g'.length) = (low, length) := by
  simp only [rangeGrant, world, Query.bind_ok, Query.read_ok, deref_ok, Query.pure_ok] at hg
  obtain ⟨v, rfl, node, -, rfl⟩ := hg
  rfl

theorem planRange_ok {h : Handle} {readId : Id} {offset stop size : Nat} {block : BlockRef}
    {p : PlannedBlock} (hp : (planRange app user h readId offset stop size block) w = .ok p) :
    p.block = block ∧ p.grants ≠ [] ∧ (∀ g ∈ p.grants, (g.offset, g.length) = p.range) ∧
      p.range.1 = offset - block.blockIndex * size ∧
      ((p.range.1 + p.range.2 : Nat) : Int) =
        min (block.sizeBytes : Int) ((stop : Int) - (block.blockIndex * size : Nat)) := by
  simp only [planRange, Query.bind_ok, deref_ok, Query.pure_ok] at hp
  obtain ⟨plan, hplan, length, hlength, grants, hgrants, rfl⟩ := hp
  obtain ⟨hblock, hne, -⟩ := readPlan_ok hplan
  have hall : ∀ g ∈ grants, (g.offset, g.length) =
      (offset - block.blockIndex * size, length) := by
    intro g hg
    obtain ⟨g', -, hg'⟩ := (Query.map_mem hgrants).2 g hg
    exact rangeGrant_ok hg'
  have hgrants' : grants ≠ [] := by
    rintro rfl
    have hnil := Query.map_ok.mp hgrants
    rw [List.forall₂_nil_right_iff] at hnil
    exact hne hnil
  have hrange : ({ plan with grants := grants } : PlannedBlock).range =
      (offset - block.blockIndex * size, length) := by
    cases grants with
    | nil => exact absurd rfl hgrants'
    | cons g grants => exact hall g List.mem_cons_self
  refine ⟨hblock, hgrants', fun g hg => (hall g hg).trans hrange.symm, by rw [hrange], ?_⟩
  rw [hrange]
  split at hlength
  · obtain rfl := Option.some.inj hlength
    omega
  · cases hlength

/-- A block with a plan is planned for a range that reaches into it. -/
theorem planRange_total {h : Handle} {readId : Id} {offset stop size : Nat} {block : BlockRef}
    {plan : PlannedBlock} (hplan : (readPlan app block user h) w = .ok plan)
    (hle : ((offset - block.blockIndex * size : Nat) : Int) ≤
      min (block.sizeBytes : Int) ((stop : Int) - (block.blockIndex * size : Nat))) :
    ∃ p, (planRange app user h readId offset stop size block) w = .ok p := by
  obtain ⟨-, -, hnodes⟩ := readPlan_ok hplan
  obtain ⟨grants, hgrants⟩ := Query.map_total (l := plan.grants) (s := w)
    (f := rangeGrant app user h readId block (offset - block.blockIndex * size)
      (min (block.sizeBytes : Int) ((stop : Int) - (block.blockIndex * size : Nat)) -
        (offset - block.blockIndex * size : Nat)).toNat) fun g hg => by
      obtain ⟨-, node, hnode⟩ := hnodes g hg
      simp only [rangeGrant, world, Query.bind_ok, Query.read_ok, deref_ok, Query.pure_ok]
      exact ⟨_, w, rfl, node, hnode, rfl⟩
  refine ⟨{ plan with grants := grants }, ?_⟩
  simp only [planRange, Query.bind_ok, deref_ok, Query.pure_ok]
  exact ⟨plan, hplan, _, if_pos hle, grants, hgrants, rfl⟩

/-! ## Where blocks begin -/

/-- Where block `i` begins in a range of a file. -/
def placeAt (offset stop size i : Nat) : Nat := max offset (min stop (i * size))

theorem tiles_of_increasing {f : Nat → Nat} {a k : Nat}
    (h : ∀ i, a ≤ i → i < a + k → f i < f (i + 1)) :
    Tiles ((List.range' a k).map fun i => (f i, f (i + 1) - f i)) (f a) (f (a + k)) := by
  induction k generalizing a with
  | zero => rfl
  | succ k ih =>
      have hfirst := h a (Nat.le_refl _) (by omega)
      rw [List.range'_succ, List.map_cons]
      refine ⟨rfl, by simp only; omega, ?_⟩
      have hrest := ih (a := a + 1) fun i hi hlt => h i (by omega) (by omega)
      have hplace : f a + (f (a + 1) - f a) = f (a + 1) := by omega
      rw [Nat.add_right_comm] at hrest
      simp only [hplace]
      exact hrest

section Geometry

variable {offset length size stop : Nat}

/-- What is left of a block in a range. -/
theorem place_of_block (hsize : 0 < size) {n i : Nat} (hstop : stop ≤ n)
    (hi : (blockSpan size offset length stop).1 ≤ i)
    (hlt : i < (blockSpan size offset length stop).2) :
    placeAt offset stop size i = i * size + (offset - i * size) ∧
    placeAt offset stop size i < placeAt offset stop size (i + 1) ∧
    ((placeAt offset stop size (i + 1) : Nat) : Int) =
      ((i * size : Nat) : Int) +
        min ((min size (n - i * size) : Nat) : Int) ((stop : Int) - (i * size : Nat)) := by
  unfold blockSpan at hi hlt
  simp only at hi hlt
  split at hlt
  · rename_i hne
    -- block `i` begins before the end of the range, and ends after its beginning
    have hbegins : i * size < stop := by
      have hle : (i + 1) * size ≤ stop + size - 1 := (Nat.le_div_iff_mul_le hsize).mp hlt
      rw [Nat.add_mul, Nat.one_mul] at hle
      omega
    have hends : offset < (i + 1) * size := Nat.lt_mul_of_div_lt (by omega) hsize
    unfold placeAt
    rw [Nat.add_mul, Nat.one_mul] at hends ⊢
    generalize i * size = b at hbegins hends ⊢
    exact ⟨by omega, by omega, by omega⟩
  · omega

theorem place_first : placeAt offset stop size (blockSpan size offset length stop).1 = offset := by
  have := Nat.div_mul_le_self offset size
  simp only [placeAt, blockSpan]
  omega

theorem place_last (hsize : 0 < size) (hstop : stop ≤ offset + length) :
    placeAt offset stop size (blockSpan size offset length stop).2 = max offset stop := by
  unfold blockSpan placeAt
  simp only
  split
  · have hge : stop ≤ (stop + size - 1) / size * size := by
      have hdiv := Nat.div_add_mod' (stop + size - 1) size
      have hmod := Nat.mod_lt (stop + size - 1) hsize
      omega
    omega
  · have := Nat.div_mul_le_self offset size
    omega

/-- The blocks of a range are blocks of the file. -/
theorem span_le (hsize : 0 < size) {n : Nat} (hstop : stop ≤ n) :
    (blockSpan size offset length stop).2 ≤ (blockSpan size offset length stop).1 ∨
      (blockSpan size offset length stop).2 ≤ (n + size - 1) / size := by
  unfold blockSpan
  simp only
  split
  · exact .inr (Nat.div_le_div_right (by omega))
  · exact .inl (Nat.le_refl _)

theorem span_mono : (blockSpan size offset length stop).1 ≤ (blockSpan size offset length stop).2 := by
  unfold blockSpan
  simp only
  split
  · exact Nat.div_le_div_right (by omega)
  · exact Nat.le_refl _

end Geometry

/-! ## One page -/

/-- The same request for another page. -/
def ResolveBlocksRequest.page (req : ResolveBlocksRequest) (limit : Nat) (cursor : BlockCursor) :
    ResolveBlocksRequest := { req with limit := limit, cursor := cursor }

namespace ResolveBlocksRequest

/-- Where the range of a request begins. -/
def start (req : ResolveBlocksRequest) : Nat := req.offset.getD 0

/-- How long the range of a request is, before it is cut to the file. -/
def extent (req : ResolveBlocksRequest) : Nat :=
  req.length.getD (req.snapshot.sizeBytes - req.start)

/-- Where the range of a request ends. -/
def stop (req : ResolveBlocksRequest) : Nat :=
  min (req.start + req.extent) req.snapshot.sizeBytes

/-- The blocks of the range of a request. -/
def span (req : ResolveBlocksRequest) : Nat × Nat :=
  blockSpan req.snapshot.blockSizeBytes req.start req.extent req.stop

end ResolveBlocksRequest

/-- A cursor says how many blocks come before its page. -/
def BlockCursor.Says (cursor : BlockCursor) (n : Nat) : Prop :=
  cursor = .number n ∨ (cursor = .unset ∧ n = 0)

theorem BlockCursor.Says.skipped {cursor : BlockCursor} {n : Nat} (h : cursor.Says n) :
    (skipped cursor) w = .ok (n : Int) := by
  rcases h with rfl | ⟨rfl, rfl⟩
  · rfl
  · rfl

/-- What a planned block of a range is. -/
structure GrantedIn (s : Snapshot) (p : PlannedBlock) : Prop where
  block : s.blocks[p.block.blockIndex]? = some p.block
  grants : p.grants ≠ []
  range : ∀ g ∈ p.grants, (g.offset, g.length) = p.range
  inside : p.range.1 + p.range.2 ≤ p.block.sizeBytes

/-- A planned block of a range, by its place in the file. -/
def PlannedBlock.place (p : PlannedBlock) (size : Nat) : Nat × Nat :=
  (p.block.blockIndex * size + p.range.1, p.range.2)

/-- A page of a range after `n` blocks of it, with `k` blocks. -/
structure PageOf (req : ResolveBlocksRequest) (s : Snapshot) (n k : Nat) (plan : BlockPlan) :
    Prop where
  granted : ∀ p ∈ plan.blocks, GrantedIn s p
  tiles : Tiles (plan.blocks.map fun p => p.place req.snapshot.blockSizeBytes)
    (placeAt req.start req.stop req.snapshot.blockSizeBytes (req.span.1 + n))
    (placeAt req.start req.stop req.snapshot.blockSizeBytes (req.span.1 + n + k))
  count : plan.blocks.length = k
  next : plan.nextCursor = if req.span.1 + (n + k) < req.span.2 then .number (n + k : Nat) else .unset

section Pages

variable {req : ResolveBlocksRequest} {s : Snapshot}

theorem WellFormed.indices (hs : WellFormed app s) :
    s.blocks.map BlockRef.blockIndex = List.range s.blocks.length := by
  refine List.ext_getElem? fun i => ?_
  rw [List.getElem?_map]
  cases hb : s.blocks[i]? with
  | none =>
      rw [List.getElem?_eq_none_iff] at hb
      rw [Option.map_none, List.getElem?_eq_none (by simpa using hb)]
  | some b =>
      have hlt := (List.getElem?_eq_some_iff.mp hb).1
      rw [Option.map_some, (hs.block i b hb).1, List.getElem?_range hlt]

/-- The blocks that a page selects. -/
theorem selected_indices (hs : WellFormed app s) {first m : Nat} (hm : m ≤ s.blocks.length) :
    ((s.blocks.take m).drop first).map BlockRef.blockIndex = List.range' first (m - first) := by
  rw [List.map_drop, List.map_take, hs.indices]
  refine List.ext_getElem (by simp; omega) fun i hi hi' => ?_
  simp

/-- What lies in the range of a block that is in it. -/
theorem range_of_block (hs : WellFormed app s) (hsize : 0 < s.ref.blockSizeBytes)
    (hreq : req.snapshot = s.ref) {i : Nat} {b : BlockRef} (hb : s.blocks[i]? = some b)
    (hi : req.span.1 ≤ i) (hlt : i < req.span.2) :
    ((req.start - b.blockIndex * req.snapshot.blockSizeBytes : Nat) : Int) <
      min (b.sizeBytes : Int)
        ((req.stop : Int) - (b.blockIndex * req.snapshot.blockSizeBytes : Nat)) ∧
    placeAt req.start req.stop req.snapshot.blockSizeBytes i =
      b.blockIndex * req.snapshot.blockSizeBytes +
        (req.start - b.blockIndex * req.snapshot.blockSizeBytes) ∧
    ((placeAt req.start req.stop req.snapshot.blockSizeBytes (i + 1) : Nat) : Int) =
      ((b.blockIndex * req.snapshot.blockSizeBytes : Nat) : Int) + min (b.sizeBytes : Int)
        ((req.stop : Int) - (b.blockIndex * req.snapshot.blockSizeBytes : Nat)) := by
  obtain ⟨hindex, -, hbytes⟩ := hs.block i b hb
  have hstop : req.stop ≤ req.snapshot.sizeBytes := Nat.min_le_right _ _
  rw [hreq] at hstop
  obtain ⟨hplace, hinc, hnext⟩ := place_of_block hsize hstop (i := i)
    (by rw [← hreq]; exact hi) (by rw [← hreq]; exact hlt)
  rw [hreq, hindex, hbytes]
  refine ⟨?_, hplace, hnext⟩
  rw [hplace] at hinc
  omega

/-- A page is about the snapshot of the handle. -/
theorem resolveBlocks_handle {plan : BlockPlan}
    (hp : (resolveBlocks app user session req) w = .ok plan) :
    ∃ h s, (accessHandle app user session req.handleId) w = .ok (h, s) ∧
      req.snapshot = s.ref := by
  simp only [resolveBlocks, Query.bind_ok] at hp
  obtain ⟨⟨h, s⟩, hh, _, -, _, -, _, -, _, hsnap, -⟩ := hp
  exact ⟨h, s, hh, need_ok.mp hsnap⟩

/-- **What one page of a range holds.** -/
theorem page_ok (hs : WellFormed app s) (hsize : 0 < s.ref.blockSizeBytes) {h : Handle}
    (hh : (accessHandle app user session req.handleId) w = .ok (h, s)) {limit n : Nat}
    {cursor : BlockCursor} (hcursor : cursor.Says n) {plan : BlockPlan}
    (hp : (resolveBlocks app user session (req.page limit cursor)) w = .ok plan) :
    req.snapshot = s.ref ∧ 1 ≤ limit ∧ req.span.1 + n ≤ req.span.2 ∧
      PageOf req s n (min limit (req.span.2 - (req.span.1 + n))) plan := by
  have hmono : req.span.1 ≤ req.span.2 := span_mono
  simp only [resolveBlocks, ResolveBlocksRequest.page, Query.bind_ok, need_ok, checkedRange_ok,
    Query.pure_ok] at hp
  obtain ⟨⟨h', s'⟩, hh', hp⟩ := hp
  obtain ⟨rfl, rfl⟩ : h = h' ∧ s = s' := by
    have heq := Except.ok.inj (hh.symm.trans hh')
    exact Prod.mk.inj heq
  obtain ⟨_, -, _, -, _, -, _, hsnap, _, ⟨-, -, rfl⟩, _, hlimit, cursor', hskipped, _, hbound,
    planned, hplanned, rfl⟩ := hp
  replace hsnap : req.snapshot = s.ref := need_ok.mp hsnap
  replace hlimit := need_ok.mp hlimit
  replace hbound := need_ok.mp hbound
  obtain rfl : (n : Int) = cursor' := Except.ok.inj (hcursor.skipped.symm.trans hskipped)
  change 0 ≤ (n : Int) ∧ (n : Int) ≤ (req.span.2 - req.span.1 : Nat) at hbound
  change (Query.map ((s.blocks.take (min req.span.2 (req.span.1 + n + limit))).drop (req.span.1 + n))
    (planRange app user h req.readId req.start req.stop req.snapshot.blockSizeBytes)) w =
      .ok planned at hplanned
  have hn : req.span.1 + n ≤ req.span.2 := by omega
  -- the blocks that are selected are blocks of the file
  have hcount : req.span.2 ≤ req.span.1 ∨ req.span.2 ≤ s.blocks.length := by
    have hle := @span_le req.start req.extent _ req.stop hsize
      s.ref.sizeBytes (hsnap ▸ Nat.min_le_right _ _)
    rw [hs.count, ← hsnap]
    rw [← hsnap] at hle
    exact hle
  generalize hk : min limit (req.span.2 - (req.span.1 + n)) = k
  have hfirst : min req.span.2 (req.span.1 + n + limit) = req.span.1 + n + k := by omega
  rw [hfirst] at hplanned
  have hindices : ((s.blocks.take (req.span.1 + n + k)).drop (req.span.1 + n)).map
      BlockRef.blockIndex = List.range' (req.span.1 + n) k := by
    by_cases hzero : k = 0
    · subst hzero
      simp [List.drop_eq_nil_of_le]
    · rw [selected_indices hs (by omega)]
      congr 1
      omega
  -- and each lies in the range
  have hselected : ∀ b ∈ (s.blocks.take (req.span.1 + n + k)).drop (req.span.1 + n),
      s.blocks[b.blockIndex]? = some b ∧ req.span.1 + n ≤ b.blockIndex ∧
        b.blockIndex < req.span.1 + n + k := by
    intro b hb
    obtain ⟨i, hi⟩ := List.getElem?_of_mem hb
    rw [List.getElem?_drop, List.getElem?_take] at hi
    split at hi
    · rename_i hlt
      have hindex := (hs.block _ b hi).1
      exact ⟨hindex ▸ hi, by omega, by omega⟩
    · cases hi
  refine ⟨hsnap, hlimit.1, hn, fun p hp => ?_, ?_, ?_, ?_⟩
  · obtain ⟨b, hb, hplan⟩ := (Query.map_mem hplanned).2 p hp
    obtain ⟨hblock, hne, hgrants, -, hend⟩ := planRange_ok hplan
    refine ⟨?_, hne, hgrants, ?_⟩
    · rw [hblock]
      exact (hselected b hb).1
    · rw [hblock]
      omega
  · have hmap := Query.map_eq_map
      (g := fun b => (b.blockIndex * req.snapshot.blockSizeBytes +
        (req.start - b.blockIndex * req.snapshot.blockSizeBytes),
        (min (b.sizeBytes : Int) ((req.stop : Int) -
          (b.blockIndex * req.snapshot.blockSizeBytes : Nat)) -
          (req.start - b.blockIndex * req.snapshot.blockSizeBytes : Nat)).toNat))
      (k := fun p => p.place req.snapshot.blockSizeBytes) (fun b p hplan => by
        obtain ⟨hblock, -, -, hlow, hend⟩ := planRange_ok hplan
        simp only [PlannedBlock.place, hblock, hlow, Prod.mk.injEq, true_and]
        omega) hplanned
    rw [← hmap]
    have hplaces : ((s.blocks.take (req.span.1 + n + k)).drop (req.span.1 + n)).map
        (fun b => (b.blockIndex * req.snapshot.blockSizeBytes +
          (req.start - b.blockIndex * req.snapshot.blockSizeBytes),
          (min (b.sizeBytes : Int) ((req.stop : Int) -
            (b.blockIndex * req.snapshot.blockSizeBytes : Nat)) -
            (req.start - b.blockIndex * req.snapshot.blockSizeBytes : Nat)).toNat)) =
        (((s.blocks.take (req.span.1 + n + k)).drop (req.span.1 + n)).map
          BlockRef.blockIndex).map fun i =>
            (placeAt req.start req.stop req.snapshot.blockSizeBytes i,
              placeAt req.start req.stop req.snapshot.blockSizeBytes (i + 1) -
                placeAt req.start req.stop req.snapshot.blockSizeBytes i) := by
      rw [List.map_map]
      refine List.map_congr_left fun b hb => ?_
      obtain ⟨hstored, hge, hlt⟩ := hselected b hb
      obtain ⟨hpos, hplace, hnext⟩ := range_of_block hs hsize hsnap hstored (by omega) (by omega)
      simp only [Function.comp_def, Prod.mk.injEq]
      exact ⟨hplace.symm, by omega⟩
    rw [hplaces, hindices]
    refine tiles_of_increasing fun i hi hlt => ?_
    have hstored : ∃ b, s.blocks[i]? = some b :=
      ⟨_, List.getElem?_eq_getElem (by omega)⟩
    obtain ⟨b, hb⟩ := hstored
    obtain ⟨hpos, hplace, hnext⟩ := range_of_block hs hsize hsnap hb (by omega) (by omega)
    omega
  · have hlength := congrArg List.length hindices
    rw [List.length_map, List.length_range'] at hlength
    rw [← hlength]
    exact (Query.map_ok.mp hplanned).length_eq.symm
  · have hlength := congrArg List.length hindices
    rw [List.length_map, List.length_range', (Query.map_ok.mp hplanned).length_eq] at hlength
    simp only [hlength, Int.toNat_natCast]
    rfl

/-- **A state that answers a request about a range of a snapshot**, whichever page is asked for: the
handle can be read, and every block of the snapshot is somewhere. -/
structure AdmitsRange (app : App) (user : User) (session : Session) (req : ResolveBlocksRequest)
    (s : Snapshot) (w : World) : Prop where
  snapshot : req.snapshot = s.ref
  range : req.start ≤ maxOffset ∧ req.extent ≤ maxOffset - req.start
  handle : ∃ h, (accessHandle app user session req.handleId) w = .ok (h, s) ∧ h.mode ∈ readModes ∧
    (h.busy = none ∨ h.busy = some req.readId) ∧
    (req.readId ≠ 0 → (validateRead h req.readId (req.offset.getD 0) (req.length.getD 0)) w =
      .ok ()) ∧
    ∀ b ∈ s.blocks, ∃ plan, (readPlan app b user h) w = .ok plan

/-- **A page is answered.** -/
theorem page_total (hs : WellFormed app s) (hsize : 0 < s.ref.blockSizeBytes)
    (hw : AdmitsRange app user session req s w) {limit n : Nat} (hlimit : 1 ≤ limit ∧ limit ≤ 64)
    {cursor : BlockCursor} (hcursor : cursor.Says n) (hn : req.span.1 + n ≤ req.span.2) :
    ∃ plan, (resolveBlocks app user session (req.page limit cursor)) w = .ok plan := by
  obtain ⟨h, hh, hmode, hbusy, hvalid, hplans⟩ := hw.handle
  have hsnap := hw.snapshot
  have hplanned : ∃ planned, (Query.map
      ((s.blocks.take (min req.span.2 (req.span.1 + (n : Int).toNat + limit))).drop
        (req.span.1 + (n : Int).toNat))
      (planRange app user h req.readId req.start req.stop req.snapshot.blockSizeBytes)) w =
        .ok planned := by
    refine Query.map_total fun b hb => ?_
    obtain ⟨i, hi⟩ := List.getElem?_of_mem hb
    rw [List.getElem?_drop, List.getElem?_take] at hi
    split at hi
    · rename_i hlt
      obtain ⟨plan, hplan⟩ := hplans b (List.mem_of_getElem? hi)
      obtain ⟨hpos, -, -⟩ := range_of_block hs hsize hsnap hi (by omega) (by omega)
      exact planRange_total hplan hpos.le
    · cases hi
  obtain ⟨planned, hplanned⟩ := hplanned
  refine ⟨⟨planned, req.snapshot,
    if req.span.1 + ((n : Int).toNat + planned.length) < req.span.2 then
      .number ((n : Int).toNat + planned.length : Nat)
    else .unset⟩, ?_⟩
  simp only [resolveBlocks, ResolveBlocksRequest.page, Query.bind_ok, checkedRange_ok,
    Query.pure_ok]
  refine ⟨(h, s), hh, (), need_ok.mpr hmode, (), need_ok.mpr hbusy, (), ?_, (), need_ok.mpr hsnap, _,
    ⟨hw.range, by simp, rfl⟩, (), need_ok.mpr hlimit, n, hcursor.skipped, (), need_ok.mpr ?_,
    planned, hplanned, rfl⟩
  · by_cases hread : req.readId ≠ 0
    · exact (congrArg (fun q : Q Unit => q w) (if_pos hread)).trans (hvalid hread)
    · exact congrArg (fun q : Q Unit => q w) (if_neg hread)
  · change 0 ≤ (n : Int) ∧ (n : Int) ≤ (req.span.2 - req.span.1 : Nat)
    omega

/-! ## All pages -/

/-- The pages that are got by following the cursor until it is empty. -/
inductive FollowsCursor (call : Nat → BlockCursor → BlockPlan → Prop) :
    Nat → BlockCursor → List BlockPlan → Prop
  | last {i : Nat} {cursor : BlockCursor} {plan : BlockPlan} (h : call i cursor plan)
      (hnext : plan.nextCursor = .unset) : FollowsCursor call i cursor [plan]
  | more {i : Nat} {cursor : BlockCursor} {plan : BlockPlan} {plans : List BlockPlan}
      (h : call i cursor plan) (hnext : plan.nextCursor ≠ .unset)
      (rest : FollowsCursor call (i + 1) plan.nextCursor plans) : FollowsCursor call i cursor (plan :: plans)

variable {worlds : Nat → World} {limits : Nat → Nat}

/-- The calls for the pages of a range, each in a state of its own and with a limit of its own. -/
def pageCall (app : App) (user : User) (session : Session) (req : ResolveBlocksRequest)
    (worlds : Nat → World) (limits : Nat → Nat) (i : Nat) (cursor : BlockCursor)
    (plan : BlockPlan) : Prop :=
  (resolveBlocks app user session (req.page (limits i) cursor)) (worlds i) = .ok plan

/-- **What the pages hold** from a cursor on. -/
theorem FollowsCursor.spec (hs : WellFormed app s) (hsize : 0 < s.ref.blockSizeBytes)
    (hw : ∀ i, ∃ h, (accessHandle app user session req.handleId) (worlds i) = .ok (h, s))
    {i n : Nat} {cursor : BlockCursor} {plans : List BlockPlan}
    (h : FollowsCursor (pageCall app user session req worlds limits) i cursor plans)
    (hcursor : cursor.Says n) :
    (∀ p ∈ plans.flatMap BlockPlan.blocks, GrantedIn s p) ∧
    Tiles ((plans.flatMap BlockPlan.blocks).map fun p => p.place req.snapshot.blockSizeBytes)
      (placeAt req.start req.stop req.snapshot.blockSizeBytes (req.span.1 + n))
      (placeAt req.start req.stop req.snapshot.blockSizeBytes req.span.2) ∧
    (req.span.1 + n < req.span.2 → ∀ plan ∈ plans, plan.blocks ≠ []) ∧
    (req.span.1 + n = req.span.2 → plans.length = 1) := by
  induction h generalizing n with
  | @last i cursor plan hcall hnext =>
      obtain ⟨h, hh⟩ := hw i
      obtain ⟨-, hlimit, hn, hpage⟩ := page_ok hs hsize hh hcursor hcall
      rw [hpage.next] at hnext
      have hend : ¬ req.span.1 + (n + min (limits i) (req.span.2 - (req.span.1 + n))) <
          req.span.2 := by
        intro hlt
        rw [if_pos hlt] at hnext
        cases hnext
      have htiles := hpage.tiles
      rw [show req.span.1 + n + min (limits i) (req.span.2 - (req.span.1 + n)) = req.span.2 by
        omega] at htiles
      simp only [List.flatMap_cons, List.flatMap_nil, List.append_nil]
      refine ⟨hpage.granted, htiles, fun hlt p hp => ?_, fun _ => rfl⟩
      rw [List.mem_singleton] at hp
      subst hp
      rw [← List.length_pos_iff, hpage.count]
      omega
  | @more i cursor plan plans hcall hnext _ ih =>
      obtain ⟨h, hh⟩ := hw i
      obtain ⟨-, hlimit, hn, hpage⟩ := page_ok hs hsize hh hcursor hcall
      have hmore : req.span.1 + (n + min (limits i) (req.span.2 - (req.span.1 + n))) <
          req.span.2 := by
        by_contra hno
        rw [hpage.next, if_neg hno] at hnext
        exact hnext rfl
      obtain ⟨hgranted, htiles, hfull, -⟩ := ih (n := n + min (limits i) (req.span.2 - (req.span.1 + n)))
        (.inl (by rw [hpage.next, if_pos hmore]))
      rw [List.flatMap_cons]
      refine ⟨fun p hp => ?_, ?_, fun hlt p hp => ?_, fun heq => ?_⟩
      · rcases List.mem_append.mp hp with hp | hp
        · exact hpage.granted p hp
        · exact hgranted p hp
      · rw [List.map_append]
        rw [← Nat.add_assoc] at htiles
        exact hpage.tiles.append htiles
      · rcases List.mem_cons.mp hp with rfl | hp
        · rw [← List.length_pos_iff, hpage.count]
          omega
        · exact hfull hmore p hp
      · omega

/-- **Following the cursor ends.** -/
theorem follows_total (hs : WellFormed app s) (hsize : 0 < s.ref.blockSizeBytes)
    (hw : ∀ i, AdmitsRange app user session req s (worlds i))
    (hlimits : ∀ i, 1 ≤ limits i ∧ limits i ≤ 64) {left i n : Nat} {cursor : BlockCursor}
    (hcursor : cursor.Says n) (hleft : req.span.1 + n + left = req.span.2) :
    ∃ plans, FollowsCursor (pageCall app user session req worlds limits) i cursor plans := by
  induction left using Nat.strong_induction_on generalizing i n cursor with
  | _ left ih =>
      obtain ⟨plan, hplan⟩ := page_total hs hsize (hw i) (hlimits i) hcursor (by omega)
      obtain ⟨h, hh, -⟩ := (hw i).handle
      obtain ⟨-, hlimit, -, hpage⟩ := page_ok hs hsize hh hcursor hplan
      by_cases hmore : req.span.1 + (n + min (limits i) (req.span.2 - (req.span.1 + n))) <
          req.span.2
      · have hnext := hpage.next
        rw [if_pos hmore] at hnext
        obtain ⟨plans, hplans⟩ := @ih (left - min (limits i) (req.span.2 - (req.span.1 + n)))
          (by omega) (i + 1) (n + min (limits i) (req.span.2 - (req.span.1 + n)))
          plan.nextCursor (.inl hnext) (by omega)
        exact ⟨plan :: plans, .more hplan (by rw [hnext]; simp) hplans⟩
      · have hnext := hpage.next
        rw [if_neg hmore] at hnext
        exact ⟨[plan], .last hplan hnext⟩

end Pages

/-- The file of the small configuration is read through the handle that wrote it. -/
def smallRange (ref : SnapshotRef) : ResolveBlocksRequest := ⟨12, ref, none, some 2, 1, .unset, 0⟩

end Dfsha
