import Dfsha.Client.Read

/-!
# A range is read once

Whatever happens to the calls, what a client yields of a range is a beginning of what the file has
there, and all of it when the client comes to its end.  Three things are added up for this: the
place in a stream, the bytes of the block that have come, and the place of the block in the file.

## Main definitions

* `fileOf` — the bytes of a snapshot.
* `Got` — what a reader has got more.

## Main results

* `flatten_blockFrames` — the frames of a part are the part.
* `read_failover` — what a client yields.
-/

namespace Dfsha.Client

open Prog

/-! ## The frames of a part -/

/-- **The frames of a part are the part**, however the block is cut. -/
theorem flatten_blockFrames (start length position total : Nat) (chunks : List Bytes) :
    ((blockFrames start length position total chunks).map Prod.snd).flatten =
      slice chunks.flatten (start - position) (start + length - max start position) := by
  induction chunks generalizing position total with
  | nil => simp [blockFrames, slice]
  | cons chunk chunks ih =>
      have hsent : ((if max start position < min (start + length) (position + chunk.length) then
          [(total, slice chunk (max start position - position)
            (min (start + length) (position + chunk.length) - max start position))]
          else []).map Prod.snd).flatten =
          slice chunk (start - position)
            (min (start + length) (position + chunk.length) - max start position) := by
        by_cases h : max start position < min (start + length) (position + chunk.length)
        · rw [if_pos h, show max start position - position = start - position by omega]
          simp
        · rw [if_neg h, show min (start + length) (position + chunk.length) -
            max start position = 0 by omega]
          simp [slice]
      rw [List.flatten_cons]
      unfold blockFrames
      simp only
      by_cases hend : start + length ≤ position + chunk.length
      · -- the part ends in this chunk
        rw [if_pos hend, hsent, Nat.min_eq_left hend]
        by_cases hin : start - position ≤ chunk.length
        · rw [slice_append _ _ hin, show start + length - max start position -
            (chunk.length - (start - position)) = 0 by omega]
          simp [slice]
        · rw [show start + length - max start position = 0 by omega]
          simp [slice]
      · rw [if_neg hend, List.map_append, List.flatten_append, hsent, ih,
          Nat.min_eq_right (by omega)]
        by_cases hin : start - position ≤ chunk.length
        · -- the part goes on behind this chunk
          have htake : slice chunk (start - position)
              (position + chunk.length - max start position) =
              slice chunk (start - position) (start + length - max start position) := by
            unfold slice
            rw [List.take_of_length_le (by rw [List.length_drop]; omega),
              List.take_of_length_le (by rw [List.length_drop]; omega)]
          rw [slice_append _ _ hin, htake, show start - (position + chunk.length) = 0 by omega,
            show start + length - max start (position + chunk.length) =
              start + length - max start position - (chunk.length - (start - position)) by omega]
        · -- the part begins behind this chunk
          rw [slice_append_right _ _ (by omega), show position + chunk.length -
            max start position = 0 by omega, show start - position - chunk.length =
              start - (position + chunk.length) by omega,
            show max start (position + chunk.length) = max start position by omega]
          simp [slice]

/-! ## One stream -/

theorem demand_ends {p : Prop} [Decidable p] {reason : Reason} {s : Reader}
    {Q : Unit → Reader → Prop} {E : Stop → Reader → Prop} :
    (demand p reason).Ends s Q E ↔ (p → Q () s) ∧ (¬ p → E (.fault reason) s) := by
  unfold demand
  by_cases h : p
  · simp [h, ends_pure]
  · simp [h, ends_raise]

/-- A reader that has got more. -/
structure Got (s t : Reader) (got : Bytes) : Prop where
  yielded : t.yielded = s.yielded ++ got
  received : t.received = s.received + got.length
  digested : t.digested = s.digested ++ got

namespace Got

variable {s t u : Reader} {got more : Bytes}

theorem refl (s : Reader) : Got s s [] := ⟨by simp, by simp, by simp⟩

theorem trans (h : Got s t got) (h' : Got t u more) : Got s u (got ++ more) where
  yielded := by rw [h'.yielded, h.yielded, List.append_assoc]
  received := by rw [h'.received, h.received, List.length_append, Nat.add_assoc]
  digested := by rw [h'.digested, h.digested, List.append_assoc]

end Got

/-- **What is consumed of frames** is a beginning of them. -/
theorem consume_ends (length wire : Nat) (frames : List (Nat × Bytes)) (s : Reader) :
    (consume length wire frames).Ends s
      (fun w t => Got s t (frames.map Prod.snd).flatten ∧
        w = wire + (frames.map Prod.snd).flatten.length)
      fun e t => e = .fault .dataLoss ∧ ∃ got, got <+: (frames.map Prod.snd).flatten ∧ Got s t got := by
  induction frames generalizing wire s with
  | nil => exact ends_pure.mpr ⟨.refl s, by simp⟩
  | cons frame frames ih =>
      refine ends_bind.mpr (demand_ends.mpr ⟨fun _ => ?_, fun _ =>
        ⟨rfl, [], List.nil_prefix, .refl s⟩⟩)
      rw [ends_bind, ends_modify]
      have hfirst : Got s
          { s with
            yielded := s.yielded ++ frame.2, received := s.received + frame.2.length,
            digested := s.digested ++ frame.2 } frame.2 := ⟨rfl, rfl, rfl⟩
      refine (ih _ _).mono (fun w t ht => ?_) fun e t he => ?_
      · refine ⟨by simpa using hfirst.trans ht.1, ?_⟩
        rw [ht.2, List.map_cons, List.flatten_cons, List.length_append, Nat.add_assoc]
      · obtain ⟨rfl, got, hstart, hgot⟩ := he
        refine ⟨rfl, frame.2 ++ got, ?_, hfirst.trans hgot⟩
        rw [List.map_cons, List.flatten_cons]
        exact (List.prefix_append_right_inj _).mpr hstart

theorem flatten_take_prefix {α : Type} (l : List (List α)) (n : Nat) :
    (l.take n).flatten <+: l.flatten := by
  conv_rhs => rw [← List.take_append_drop n l, List.flatten_append]
  exact List.prefix_append _ _

/-- **What a stream brings** is a beginning of the part, and all of it if the stream ends well. -/
theorem getBlock_ends {net : Network} {block : BlockRef} {grant : BlockGrant} {content : Bytes}
    (hchunks : ∀ i, (net.chunks i block).flatten = content) (s : Reader) :
    (getBlock net block grant).Ends s
      (fun r t => ∃ got, got <+: slice content grant.offset grant.length ∧ Got s t got ∧
        (r = none → got = slice content grant.offset grant.length ∧ got.length = grant.length))
      fun e t => e ≠ .stuck ∧ ∃ got, got <+: slice content grant.offset grant.length ∧
        Got s t got := by
  have hframes : ∀ i n, (((blockFrames grant.offset grant.length 0 0
      (net.chunks i block)).take n).map Prod.snd).flatten <+:
        slice content grant.offset grant.length := by
    intro i n
    have hflat := flatten_blockFrames grant.offset grant.length 0 0 (net.chunks i block)
    rw [hchunks i, Nat.sub_zero, Nat.max_zero, Nat.add_sub_cancel_left] at hflat
    rw [← hflat, List.map_take]
    exact flatten_take_prefix _ n
  unfold getBlock
  rw [ends_bind, ends_reads, ends_bind, ends_modify]
  have hbegun : Got s { s with gets := s.gets + 1 } [] := ⟨by simp, by simp, by simp⟩
  simp only [id]
  cases hdelivered : (net.deliveries s.gets).frames with
  | none =>
      cases hending : (net.deliveries s.gets).ending with
      | closed => exact ends_bind.mpr (ends_raise.mpr ⟨by simp, [], List.nil_prefix, hbegun⟩)
      | failed code =>
          exact ends_bind.mpr (ends_pure.mpr (ends_pure.mpr ⟨[], List.nil_prefix, hbegun,
            fun h => by cases h⟩))
  | some n =>
      refine ends_bind.mpr ((consume_ends _ _ _ _).mono (fun wire t ht => ?_) fun e t he => ?_)
      · obtain ⟨hgot, hwire⟩ := ht
        have hall := hbegun.trans hgot
        rw [List.nil_append] at hall
        cases hending : (net.deliveries s.gets).ending with
        | closed =>
            refine ends_bind.mpr (demand_ends.mpr ⟨fun hlen => ?_, fun _ =>
              ⟨by simp, _, hframes _ n, hall⟩⟩)
            refine ends_pure.mpr ⟨_, hframes _ n, hall, fun _ => ?_⟩
            have hlength := hwire.symm.trans hlen
            rw [Nat.zero_add] at hlength
            exact ⟨eq_slice_of_initial _ (hframes _ n) hlength.ge, hlength⟩
        | failed code => exact ends_pure.mpr ⟨_, hframes _ n, hall, fun h => by cases h⟩
      · obtain ⟨rfl, got, hstart, hgot⟩ := he
        have hall := hbegun.trans hgot
        rw [List.nil_append] at hall
        exact ⟨by simp, got, hstart.trans (hframes _ n), hall⟩

/-! ## The file -/

section File

variable {app : App} {user : User} {session : Session} {net : Network} {snap : Snapshot}
  {content : BlockRef → Bytes} {req : ResolveBlocksRequest} {reports : Call → Prop}

/-- The bytes of a snapshot. -/
def fileOf (snap : Snapshot) (content : BlockRef → Bytes) : Bytes := snap.blocks.flatMap content

/-- The blocks before one are full. -/
theorem length_before (hs : WellFormed app snap) (hsize : 0 < snap.ref.blockSizeBytes)
    (hcontent : ∀ b ∈ snap.blocks, (content b).length = b.sizeBytes) {i : Nat}
    (hi : i < snap.blocks.length) :
    ((snap.blocks.take i).flatMap content).length = i * snap.ref.blockSizeBytes := by
  induction i with
  | zero => simp
  | succ i ih =>
      have hb := List.getElem?_eq_getElem (show i < snap.blocks.length by omega)
      rw [List.take_add_one, hb, List.flatMap_append, List.length_append, ih (by omega)]
      have hbytes := (hs.block i _ hb).2.2
      have hfull : (i + 1) * snap.ref.blockSizeBytes ≤ snap.ref.sizeBytes := by
        have hlast : (i + 1 + 1) * snap.ref.blockSizeBytes ≤
            snap.ref.sizeBytes + snap.ref.blockSizeBytes - 1 := by
          rw [← Nat.le_div_iff_mul_le hsize, ← hs.count]
          omega
        rw [Nat.add_mul _ 1, Nat.one_mul] at hlast
        omega
      simp only [Option.toList_some, List.flatMap_cons, List.flatMap_nil, List.append_nil]
      rw [hcontent _ (List.getElem_mem _), hbytes]
      rw [Nat.add_mul, Nat.one_mul] at hfull ⊢
      omega

/-- **What lies in a block** lies in the file, at the place of the block. -/
theorem slice_file (hs : WellFormed app snap) (hsize : 0 < snap.ref.blockSizeBytes)
    (hcontent : ∀ b ∈ snap.blocks, (content b).length = b.sizeBytes) {b : BlockRef}
    (hb : snap.blocks[b.blockIndex]? = some b) {o n : Nat} (hin : o + n ≤ b.sizeBytes) :
    slice (fileOf snap content) (b.blockIndex * snap.ref.blockSizeBytes + o) n =
      slice (content b) o n := by
  obtain ⟨hlt, hget⟩ := List.getElem?_eq_some_iff.mp hb
  have hsplit : fileOf snap content = (snap.blocks.take b.blockIndex).flatMap content ++
      (content b ++ (snap.blocks.drop (b.blockIndex + 1)).flatMap content) := by
    unfold fileOf
    conv_lhs => rw [← List.take_append_drop b.blockIndex snap.blocks,
      List.drop_eq_getElem_cons hlt, hget]
    rw [List.flatMap_append, List.flatMap_cons]
  have hlen := length_before hs hsize hcontent hlt
  rw [hsplit, slice_append_right _ _ (by omega), hlen, Nat.add_sub_cancel_left,
    slice_append_left _ _ (by rw [hcontent b (List.mem_of_getElem? hb)]; exact hin)]

/-! ## One block -/

/-- A call of the control, in a state where the handle has its snapshot. -/
theorem resolvePage_ends (req : ResolveBlocksRequest) (s : Reader) :
    (resolvePage app user session net req).Ends s
      (fun plan t => Got s t [] ∧ ∃ i w, net.calls i = some w ∧
        (resolveBlocks app user session req) w = .ok plan)
      fun e t => e ≠ .stuck ∧ Got s t [] := by
  have hcalled : Got s { s with calls := s.calls + 1 } [] := ⟨by simp, by simp, by simp⟩
  unfold resolvePage
  rw [ends_bind, ends_reads, ends_bind, ends_modify]
  simp only [id]
  cases hw : net.calls s.calls with
  | none => exact ends_raise.mpr ⟨by simp, hcalled⟩
  | some w =>
      cases hr : (resolveBlocks app user session req) w with
      | ok plan =>
          simp only [hr]
          exact ends_pure.mpr ⟨hcalled, _, w, hw, hr⟩
      | error e =>
          cases e with
          | fault reason =>
              simp only [hr]
              exact ends_raise.mpr ⟨by simp, hcalled⟩
          | crash =>
              simp only [hr]
              exact ends_raise.mpr ⟨by simp, hcalled⟩

/-- The control and the data nodes know of one snapshot, and of one content of its blocks. -/
structure Serves (app : App) (snap : Snapshot) (content : BlockRef → Bytes) (net : Network) :
    Prop where
  formed : WellFormed app snap
  size : 0 < snap.ref.blockSizeBytes
  bytes : ∀ b ∈ snap.blocks, (content b).length = b.sizeBytes
  chunks : ∀ b ∈ snap.blocks, ∀ i, (net.chunks i b).flatten = content b
  calls : ∀ i w, net.calls i = some w → ∀ s ∈ w.access.snapshots.all, s.ref = snap.ref → s = snap

/-- A state that answers has the snapshot at the handle. -/
theorem Serves.handle (hn : Serves app snap content net) {i : Nat} {w : World}
    (hw : net.calls i = some w) (hreq : req.snapshot = snap.ref) {plan : BlockPlan}
    (hplan : (resolveBlocks app user session req) w = .ok plan) :
    ∃ h, (accessHandle app user session req.handleId) w = .ok (h, snap) := by
  obtain ⟨h, s, hh, hsnap⟩ := resolveBlocks_handle hplan
  obtain ⟨-, -, -, -, hs⟩ := accessHandle_ok hh
  exact ⟨h, hn.calls i w hw s (Table.mem_of_get hs) (hsnap.symm.trans hreq) ▸ hh⟩

/-- What is left of a part of a block is granted from where it begins. -/
theorem grant_of_rest (hn : Serves app snap content net)
    (hreq : req.snapshot = snap.ref) {i : Nat} {w : World} (hw : net.calls i = some w)
    {b : BlockRef} (hb : snap.blocks[b.blockIndex]? = some b) {o n : Nat} (hpos : 0 < n)
    (hin : o + n ≤ b.sizeBytes) {plan : BlockPlan}
    (hplan : (resolveBlocks app user session
      { req with
        offset := some (b.blockIndex * req.snapshot.blockSizeBytes + o), length := some n,
        limit := 1, cursor := .unset }) w = .ok plan) {p : PlannedBlock}
    (hp : plan.blocks = [p]) (hsame : p.block = b) : GrantedIn snap p ∧ p.range = (o, n) := by
  obtain ⟨h, hh⟩ := @Serves.handle _ _ _ _ _ _ { req with
    offset := some (b.blockIndex * req.snapshot.blockSizeBytes + o), length := some n,
    limit := 1, cursor := .unset } hn _ _ hw hreq _ hplan
  set rest : ResolveBlocksRequest := { req with
    offset := some (b.blockIndex * req.snapshot.blockSizeBytes + o), length := some n } with hrest
  obtain ⟨-, -, -, hpage⟩ := @page_ok _ _ _ _ rest _
    hn.formed hn.size _ hh 1 0 .unset (.inr ⟨rfl, rfl⟩) _ hplan
  have hcount := hpage.count
  have htiles := hpage.tiles
  rw [hp, List.length_singleton] at hcount
  rw [← hcount, hp] at htiles
  obtain ⟨hbegin, -, hend⟩ := htiles
  obtain ⟨-, -, hbytes⟩ := hn.formed.block _ b hb
  -- the part ends inside its block
  have hplace : placeAt rest.start rest.stop rest.snapshot.blockSizeBytes (rest.span.1 + 0) =
      rest.start := @place_first _ rest.extent _ _
  rw [hplace] at hbegin hend
  have hstart : rest.start = b.blockIndex * snap.ref.blockSizeBytes + o := by
    rw [hrest, ← hreq]
    rfl
  have hstop : rest.stop = b.blockIndex * snap.ref.blockSizeBytes + o + n := by
    change min (rest.start + n) rest.snapshot.sizeBytes = _
    have hfile : rest.snapshot.sizeBytes = snap.ref.sizeBytes := by
      rw [← hreq]
    rw [hstart, hfile]
    omega
  have hblock : rest.snapshot.blockSizeBytes = snap.ref.blockSizeBytes := by
    rw [← hreq]
  have hspan : rest.span.1 = b.blockIndex := by
    change rest.start / rest.snapshot.blockSizeBytes = b.blockIndex
    rw [hstart, hblock, Nat.add_comm, Nat.add_mul_div_right _ _ hn.size,
      Nat.div_eq_of_lt (by omega), Nat.zero_add]
  have hlast : placeAt rest.start rest.stop rest.snapshot.blockSizeBytes (rest.span.1 + 0 + 1) =
      b.blockIndex * snap.ref.blockSizeBytes + o + n := by
    rw [placeAt, hstop, hspan, hblock, hstart, Nat.add_zero, Nat.add_mul, Nat.one_mul]
    omega
  rw [hlast] at hend
  have hend' : rest.start + p.range.2 = b.blockIndex * snap.ref.blockSizeBytes + o + n := hend
  have hbegin' : p.block.blockIndex * rest.snapshot.blockSizeBytes + p.range.1 = rest.start := hbegin
  rw [hsame, hblock, hstart] at hbegin'
  refine ⟨hpage.granted p (hp ▸ List.mem_cons_self), Prod.ext ?_ ?_⟩
  · change p.range.1 = o
    omega
  · change p.range.2 = n
    omega

theorem grantAgain_ends (hn : Serves app snap content net)
    (hreq : req.snapshot = snap.ref) {allocation : PlannedBlock}
    (hb : snap.blocks[allocation.block.blockIndex]? = some allocation.block) {s : Reader}
    {o n : Nat} (hrest : s.received < n) (hin : o + n ≤ allocation.block.sizeBytes)
    (failed : List Id) (code : Code) :
    (grantAgain app user session net req o n failed code allocation).Ends s
      (fun r t => Got s t [] ∧ r.1.block = allocation.block ∧
        (r.2.offset, r.2.length) = (o + s.received, n - s.received))
      fun e t => e ≠ .stuck ∧ Got s t [] := by
  unfold grantAgain
  rw [ends_bind, ends_reads]
  simp only [id, Nat.add_assoc]
  refine (resolvePage_ends _ s).bind fun plan t ht => ?_
  obtain ⟨hgot, i, w, hw, hplan⟩ := ht
  cases hblocks : plan.blocks with
  | nil => exact ends_raise.mpr ⟨by simp, hgot⟩
  | cons p ps =>
      cases ps with
      | cons q ps => exact ends_raise.mpr ⟨by simp, hgot⟩
      | nil =>
          refine ends_bind.mpr (demand_ends.mpr ⟨fun hsame => ?_, fun _ => ⟨by simp, hgot⟩⟩)
          obtain ⟨hgranted, hrange⟩ := grant_of_rest hn hreq hw hb (by omega) (by omega) hplan
            hblocks hsame
          cases hfind : p.grants.find? fun g => g.nodeId ∉ failed with
          | none => exact ends_raise.mpr ⟨by simp, hgot⟩
          | some g =>
              exact ends_pure.mpr ⟨hgot, hsame,
                (hgranted.range g (List.mem_of_find?_eq_some hfind)).trans hrange⟩

/-- What a reader has of a part of a block: a beginning of it. -/
structure Within (bytes : Bytes) (o n : Nat) (s t : Reader) : Prop where
  yielded : t.yielded = s.yielded ++ slice bytes o t.received
  digested : t.digested = slice bytes o t.received
  le : t.received ≤ n

/-- A reader that has got more of the part. -/
theorem Within.got {bytes : Bytes} {o n : Nat} {s t u : Reader} {got : Bytes}
    (h : Within bytes o n s t) (hgot : Got t u got)
    (hstart : got <+: slice bytes (o + t.received) (n - t.received)) : Within bytes o n s u := by
  have hle : got.length ≤ n - t.received := by
    refine hstart.length_le.trans ?_
    rw [length_slice]
    omega
  have hslice : slice bytes o t.received ++ got = slice bytes o u.received := by
    have heq : got = slice bytes (o + t.received) got.length := by
      obtain ⟨rest, hrest⟩ := hstart
      have htake := congrArg (List.take got.length) hrest
      rw [List.take_left, slice, List.take_take, Nat.min_eq_left hle] at htake
      exact htake
    rw [hgot.received, slice_add, ← heq]
  have := h.le
  exact ⟨by rw [hgot.yielded, h.yielded, List.append_assoc, hslice],
    by rw [hgot.digested, h.digested, hslice], by rw [hgot.received]; omega⟩

/-- **The streams of a part** bring a beginning of it, and all of it if they come to their end. -/
theorem readParts_ends (hn : Serves app snap content net)
    (hreq : req.snapshot = snap.ref) {b : BlockRef} (hb : snap.blocks[b.blockIndex]? = some b)
    {o n : Nat} (hin : o + n ≤ b.sizeBytes) {s₀ : Reader} {fuel attempts : Nat} {failed : List Id}
    {allocation : PlannedBlock} (hblock : allocation.block = b) {grant : BlockGrant} {s : Reader}
    (hs : Within (content b) o n s₀ s)
    (hgrant : s.received < n →
      (grant.offset, grant.length) = (o + s.received, n - s.received))
    (hfuel : (s.received < n → 4 ≤ fuel + attempts) ∧ 0 < fuel) (hattempts : attempts ≤ 2) :
    (readParts app user session net req o n fuel attempts failed allocation grant).Ends s
      (fun a t => a.block = b ∧ Within (content b) o n s₀ t ∧ t.received = n)
      fun e t => e ≠ .stuck ∧ Within (content b) o n s₀ t := by
  induction fuel generalizing attempts failed allocation grant s with
  | zero => exact absurd hfuel.2 (Nat.lt_irrefl 0)
  | succ fuel ih =>
      unfold readParts
      rw [ends_bind, ends_reads]
      simp only [id]
      by_cases hless : s.received < n
      · rw [if_pos hless]
        obtain ⟨hoffset, hlength⟩ := Prod.mk.inj (hgrant hless)
        have hfour := hfuel.1 hless
        have hlocation : (locationOf allocation grant).Ends s (fun _ t => t = s)
            fun e t => e ≠ .stuck ∧ t = s := by
          unfold locationOf
          cases allocation.locations.find? fun l => l.nodeId = grant.nodeId with
          | none => exact ends_raise.mpr ⟨by simp, rfl⟩
          | some l => exact ends_pure.mpr rfl
        refine (hlocation.mono (fun _ _ ht => ht) fun e t he =>
          ⟨he.1, he.2 ▸ hs⟩).bind fun location t ht => ?_
        subst ht
        have hbmem := List.mem_of_getElem? hb
        refine ((getBlock_ends (hblock ▸ hn.chunks b hbmem) t).mono (fun _ _ hr => hr)
          fun e u he => ?_).bind fun r u hr => ?_
        · obtain ⟨hne, got, hstart, hgot⟩ := he
          rw [hblock, hoffset, hlength] at hstart
          exact ⟨hne, hs.got hgot hstart⟩
        · obtain ⟨got, hstart, hgot, hall⟩ := hr
          rw [hblock, hoffset, hlength] at hstart
          have hu := hs.got hgot hstart
          cases r with
          | none =>
              -- all that was granted has come
              have hdone : u.received = n := by
                rw [hgot.received, (hall rfl).2, hlength]
                omega
              exact ih hblock hu (fun hlt => absurd hdone hlt.ne) ⟨fun hlt =>
                absurd hdone hlt.ne, by omega⟩ hattempts
          | some code =>
              simp only
              rw [ends_bind, ends_reads]
              simp only [id]
              by_cases hstop : code = .other ∨ 2 ≤ attempts ∨ u.received = n
              · rw [if_pos hstop]
                exact ends_raise.mpr ⟨by simp, hu⟩
              · rw [if_neg hstop]
                have hmore : u.received < n := by
                  have := hu.le
                  omega
                refine ((grantAgain_ends hn hreq (hblock.symm ▸ hb) hmore (hblock.symm ▸ hin)
                  _ _).mono (fun _ _ hg => hg) fun e v he => ?_).bind fun x v hv => ?_
                · exact ⟨he.1, hu.got he.2 List.nil_prefix⟩
                · obtain ⟨hnothing, hsame, hagain⟩ := hv
                  have hreceived : v.received = u.received := hnothing.received
                  exact ih (hsame.trans hblock) (hu.got hnothing List.nil_prefix)
                    (fun _ => by rw [hreceived]; exact hagain)
                    ⟨fun _ => by omega, by omega⟩ (by omega)
      · rw [if_neg hless]
        have := hs.le
        exact ends_pure.mpr ⟨hblock, hs, by omega⟩

/-- The file is as long as its snapshot says. -/
theorem length_fileOf (hs : WellFormed app snap) (hsize : 0 < snap.ref.blockSizeBytes)
    (hcontent : ∀ b ∈ snap.blocks, (content b).length = b.sizeBytes) :
    (fileOf snap content).length = snap.ref.sizeBytes := by
  have hcount := hs.count
  have hdiv := Nat.div_add_mod' (snap.ref.sizeBytes + snap.ref.blockSizeBytes - 1)
    snap.ref.blockSizeBytes
  have hmod := Nat.mod_lt (snap.ref.sizeBytes + snap.ref.blockSizeBytes - 1) hsize
  rw [← hcount] at hdiv
  cases hblocks : snap.blocks.length with
  | zero =>
      rw [hblocks, Nat.zero_mul] at hdiv
      rw [fileOf, List.eq_nil_of_length_eq_zero hblocks, List.flatMap_nil, List.length_nil]
      omega
  | succ i =>
      have hb := List.getElem?_eq_getElem (show i < snap.blocks.length by omega)
      have hall : snap.blocks = snap.blocks.take i ++ [snap.blocks[i]] := by
        have htake := List.take_of_length_le (l := snap.blocks) (i := i + 1) (by omega)
        rw [List.take_add_one, hb] at htake
        exact htake.symm
      have hbytes := (hs.block i _ hb).2.2
      have hbefore := length_before hs hsize hcontent (show i < snap.blocks.length by omega)
      have hlast := hcontent _ (List.mem_of_getElem? hb)
      rw [hblocks, Nat.add_mul, Nat.one_mul] at hdiv
      have hlength : (fileOf snap content).length =
          i * snap.ref.blockSizeBytes + (content snap.blocks[i]).length := by
        rw [fileOf, congrArg (List.flatMap content) hall, List.flatMap_append, List.length_append,
          hbefore]
        simp
      rw [hlength, hlast, hbytes]
      omega

/-! ## All blocks -/

/-- **One block of a plan** is read behind what was read before. -/
theorem readBlock_ends (hn : Serves app snap content net)
    (hreq : req.snapshot = snap.ref) {p : PlannedBlock} (hp : GrantedIn snap p) {start : Nat}
    (hstart : start ≤ (p.place snap.ref.blockSizeBytes).1) {s : Reader}
    (hs : s.yielded = slice (fileOf snap content) start
      ((p.place snap.ref.blockSizeBytes).1 - start)) :
    (readBlock app user session net req p).Ends s
      (fun _ t => t.yielded = slice (fileOf snap content) start
        ((p.place snap.ref.blockSizeBytes).1 + (p.place snap.ref.blockSizeBytes).2 - start))
      fun e t => e ≠ .stuck ∧ t.yielded <+: slice (fileOf snap content) start
        ((p.place snap.ref.blockSizeBytes).1 + (p.place snap.ref.blockSizeBytes).2 - start) := by
  generalize hrange : p.range = range at *
  obtain ⟨o, n⟩ := range
  have hinside := hp.inside
  rw [hrange] at hinside
  simp only [PlannedBlock.place, hrange] at hs hstart ⊢
  -- what is read of the block lies behind what was read before
  have hjoin : ∀ k, k ≤ n → s.yielded ++ slice (content p.block) o k =
      slice (fileOf snap content) start
        (p.block.blockIndex * snap.ref.blockSizeBytes + o + k - start) := by
    intro k hk
    rw [hs, ← slice_file hn.formed hn.size hn.bytes hp.block (by omega),
      show p.block.blockIndex * snap.ref.blockSizeBytes + o + k - start =
        p.block.blockIndex * snap.ref.blockSizeBytes + o - start + k by omega, slice_add,
      show start + (p.block.blockIndex * snap.ref.blockSizeBytes + o - start) =
        p.block.blockIndex * snap.ref.blockSizeBytes + o by omega]
  unfold readBlock
  cases hgrants : p.grants with
  | nil => exact absurd hgrants hp.grants
  | cons grant grants =>
      have hgrant := hp.range grant (hgrants ▸ List.mem_cons_self)
      rw [hrange] at hgrant
      obtain ⟨hoffset, hlength⟩ := Prod.mk.inj hgrant
      simp only [hoffset, hlength]
      rw [ends_bind, ends_modify]
      refine ((@readParts_ends _ _ _ _ _ _ _ hn hreq _ hp.block _ _ hinside s _ _ _ _ rfl _
        { s with received := 0, digested := [] }
        ⟨by simp [slice], by simp [slice], Nat.zero_le _⟩
        (fun _ => by simp [hoffset, hlength]) ⟨fun _ => by omega, by omega⟩
        (Nat.zero_le 2)).mono (fun _ _ ht => ht) fun e t he => ?_).bind fun a t ht => ?_
      · obtain ⟨hne, hwithin⟩ := he
        refine ⟨hne, ?_⟩
        rw [hwithin.yielded, hjoin _ hwithin.le]
        have := hwithin.le
        exact slice_initial _ (by omega)
      · obtain ⟨-, hwithin, hdone⟩ := ht
        have hyielded := hwithin.yielded
        rw [hdone, hjoin n (Nat.le_refl n)] at hyielded
        rw [ends_bind, ends_reads, demand_ends]
        exact ⟨fun _ => hyielded, fun _ => ⟨by simp, by rw [hyielded]⟩⟩

/-- **The blocks of a plan** are read one behind the other. -/
theorem readBlocks_ends (hn : Serves app snap content net)
    (hreq : req.snapshot = snap.ref) {blocks : List PlannedBlock}
    (hblocks : ∀ p ∈ blocks, GrantedIn snap p) {start a b : Nat} (hstart : start ≤ a)
    (htiles : Tiles (blocks.map fun p => p.place snap.ref.blockSizeBytes) a b) {s : Reader}
    (hs : s.yielded = slice (fileOf snap content) start (a - start)) :
    (Prog.each (readBlock app user session net req) blocks).Ends s
      (fun _ t => t.yielded = slice (fileOf snap content) start (b - start))
      fun e t => e ≠ .stuck ∧ t.yielded <+: slice (fileOf snap content) start (b - start) := by
  induction blocks generalizing a s with
  | nil =>
      obtain rfl : a = b := htiles
      exact ends_pure.mpr hs
  | cons p blocks ih =>
      obtain ⟨hplace, -, hrest⟩ := htiles
      change (p.place snap.ref.blockSizeBytes).1 = a at hplace
      change Tiles _ (a + (p.place snap.ref.blockSizeBytes).2) b at hrest
      have hle := hrest.le
      rw [← hplace] at hs hstart hle hrest
      refine ((readBlock_ends hn hreq (hblocks p List.mem_cons_self) hstart hs).mono
        (fun _ _ ht => ht) fun e t he => ?_).bind fun _ t ht => ?_
      · exact ⟨he.1, he.2.trans (slice_initial _ (by omega))⟩
      · exact ih (fun q hq => hblocks q (List.mem_cons_of_mem _ hq)) (by omega) hrest ht

/-- A snapshot of a reachable state is the same in every later one. -/
theorem Reachable.serves {w₀ : World} (h : Reachable app reports w₀)
    (hsnap : snap ∈ w₀.access.snapshots.all)
    (hcalls : ∀ i w, net.calls i = some w → ∃ es, Run app reports w₀ es w)
    (hbytes : ∀ b ∈ snap.blocks, (content b).length = b.sizeBytes)
    (hchunks : ∀ b ∈ snap.blocks, ∀ i, (net.chunks i b).flatten = content b) :
    Serves app snap content net where
  formed := (h.sound.snapshotShape snap hsnap).wellFormed
  size := block_pos (h.sound.snapshotShape snap hsnap).block_mem
  bytes := hbytes
  chunks := hchunks
  calls i w hw s hs href := by
    obtain ⟨es, hrun⟩ := hcalls i w hw
    have hsound := h.sound
    have hacts := hrun.acts hsound
    have hid : s.id = snap.id := by
      rw [← ((hsound.acts hacts).snapshotShape s hs).root, href,
        (hsound.snapshotShape snap hsnap).root]
    have hissued := hsound.ids.snapshots snap hsnap snap.id (by simp [Snapshot.ids])
    have hlater : w.access.snapshots.get snap.id = some s := by
      rw [← hid]
      exact Table.get_of_mem hs
    have hget := hacts.snapshot hissued hlater
    exact Option.some.inj (hget.symm.trans (Table.get_of_mem hsnap))

theorem placeAt_mono {offset stop size i j : Nat} (h : i ≤ j) :
    placeAt offset stop size i ≤ placeAt offset stop size j := by
  have := Nat.mul_le_mul_right size h
  simp only [placeAt]
  omega

/-- **All pages** of a range are read one behind the other. -/
theorem readPages_ends (hn : Serves app snap content net) (hreq : req.snapshot = snap.ref)
    {n fuel : Nat} {cursor : BlockCursor} (hcursor : cursor.Says n)
    (hfuel : placeAt req.start req.stop snap.ref.blockSizeBytes req.span.2 -
      placeAt req.start req.stop snap.ref.blockSizeBytes (req.span.1 + n) < fuel) {s : Reader}
    (hs : s.yielded = slice (fileOf snap content) req.start
      (placeAt req.start req.stop snap.ref.blockSizeBytes (req.span.1 + n) - req.start)) :
    (readPages app user session net req fuel cursor).Ends s
      (fun _ t => t.yielded = slice (fileOf snap content) req.start
        (max req.start req.stop - req.start))
      fun e t => e ≠ .stuck ∧ t.yielded <+: slice (fileOf snap content) req.start
        (max req.start req.stop - req.start) := by
  have hplace : ∀ i, req.start ≤ placeAt req.start req.stop snap.ref.blockSizeBytes i ∧
      placeAt req.start req.stop snap.ref.blockSizeBytes i ≤ max req.start req.stop := by
    intro i
    simp only [placeAt]
    omega
  induction fuel generalizing cursor n s with
  | zero => exact absurd hfuel (Nat.not_lt_zero _)
  | succ fuel ih =>
      have hbefore := (hplace (req.span.1 + n)).2
      refine ((resolvePage_ends (req.page 64 cursor) s).mono (fun _ _ ht => ht)
        fun e t he => ?_).bind fun plan t ht => ?_
      · refine ⟨he.1, ?_⟩
        rw [he.2.yielded, List.append_nil, hs]
        exact slice_initial _ (by omega)
      · obtain ⟨hgot, i, w, hw, hplan⟩ := ht
        obtain ⟨h, hh⟩ := @Serves.handle _ _ _ _ _ _ (req.page 64 cursor) hn _ _ hw hreq _ hplan
        obtain ⟨-, -, hbound, hpage⟩ := @page_ok _ _ _ _ req _ hn.formed hn.size _ hh _ _ _ hcursor _ hplan
        generalize hk : min 64 (req.span.2 - (req.span.1 + n)) = k at hpage
        have ht : t.yielded = slice (fileOf snap content) req.start
            (placeAt req.start req.stop snap.ref.blockSizeBytes (req.span.1 + n) -
              req.start) := by
          rw [hgot.yielded, List.append_nil, hs]
        have hafter := (hplace (req.span.1 + n + k)).2
        refine ends_bind.mpr (demand_ends.mpr ⟨fun _ => ?_, fun _ => ⟨by simp, ?_⟩⟩)
        · have htiles := hpage.tiles
          have hsize := congrArg SnapshotRef.blockSizeBytes hreq
          rw [hsize] at htiles
          have hblocks := @readBlocks_ends _ user session _ _ _ _ hn hreq _ hpage.granted
            _ _ _ (hplace _).1 htiles _ ht
          refine (hblocks.mono (fun _ _ hu => hu) fun e u hu => ?_).bind fun _ u hu => ?_
          · exact ⟨hu.1, hu.2.trans (slice_initial _ (by omega))⟩
          · by_cases hmore : req.span.1 + (n + k) < req.span.2
            · -- there is one more page, and this one brought the reader on
              have hnext := hpage.next
              rw [if_pos hmore] at hnext
              rw [if_neg (by rw [hnext]; simp)]
              have hfar : placeAt req.start req.stop snap.ref.blockSizeBytes
                  (req.span.1 + n) < placeAt req.start req.stop snap.ref.blockSizeBytes
                    (req.span.1 + n + k) := by
                refine htiles.lt fun hnil => ?_
                have hcount := hpage.count
                rw [List.map_eq_nil_iff.mp hnil, List.length_nil] at hcount
                omega
              have hend := @placeAt_mono req.start req.stop
                snap.ref.blockSizeBytes _ _ (show req.span.1 + n + k ≤ req.span.2 by omega)
              refine ih (n := n + k) (.inl hnext) ?_ ?_
              · rw [← Nat.add_assoc]
                omega
              · rw [← Nat.add_assoc]
                exact hu
            · have hnext := hpage.next
              rw [if_neg hmore] at hnext
              rw [if_pos hnext]
              have hlast : placeAt req.start req.stop snap.ref.blockSizeBytes req.span.2 =
                  max req.start req.stop := by
                rw [← hsize]
                exact @place_last _ req.extent _ _ (hsize ▸ hn.size) (Nat.min_le_left _ _)
              rw [show req.span.1 + n + k = req.span.2 by omega, hlast] at hu
              exact ends_pure.mpr hu
        · rw [ht]
          exact slice_initial _ (by omega)

/-- **What a client yields of a range.**  However the blocks are cut into chunks, and whatever
arrives of each stream and of each call, it is a beginning of the bytes of the snapshot in the
range, and all of them if the reading comes to its end. -/
theorem read_failover {w₀ : World} (h : Reachable app reports w₀)
    (hsnap : snap ∈ w₀.access.snapshots.all)
    (hcalls : ∀ i w, net.calls i = some w → ∃ es, Run app reports w₀ es w)
    (hbytes : ∀ b ∈ snap.blocks, (content b).length = b.sizeBytes)
    (hchunks : ∀ b ∈ snap.blocks, ∀ i, (net.chunks i b).flatten = content b)
    (handleId readId : Id) (offset length : Nat) :
    (iterRead app user session net handleId snap.ref offset length readId).Ends Reader.new
      (fun _ t => t.yielded = slice (fileOf snap content) offset length)
      fun e t => e ≠ .stuck ∧ t.yielded <+: slice (fileOf snap content) offset length := by
  have hn := Reachable.serves h hsnap hcalls hbytes hchunks
  set req : ResolveBlocksRequest :=
    ⟨handleId, snap.ref, some offset, some length, 64, .unset, readId⟩ with hreq
  have hfirst : placeAt req.start req.stop snap.ref.blockSizeBytes (req.span.1 + 0) =
      req.start := @place_first _ req.extent _ _
  have hstart : req.start = offset := rfl
  have hstop : req.stop = min (offset + length) snap.ref.sizeBytes := rfl
  refine ends_bind.mpr (demand_ends.mpr ⟨fun _ => ?_, fun _ => ⟨by simp, List.nil_prefix⟩⟩)
  have hpages := @readPages_ends _ user session _ _ _ req hn rfl 0 (length + 2) .unset
    (.inr ⟨rfl, rfl⟩) (by
      have : placeAt req.start req.stop snap.ref.blockSizeBytes req.span.2 ≤
          max req.start req.stop := by
        simp only [placeAt]
        omega
      rw [hfirst]
      omega) .new (by rw [hfirst, Nat.sub_self]; rfl)
  refine hpages.mono (fun _ t ht => ?_) fun e t he => ⟨he.1, he.2.trans ?_⟩
  · have hall := length_fileOf hn.formed hn.size hn.bytes
    -- the range is cut to the file
    rw [ht, hstart, slice, slice]
    by_cases hin : offset + length ≤ snap.ref.sizeBytes
    · congr 1
      omega
    · rw [List.take_of_length_le, List.take_of_length_le]
      · rw [List.length_drop, hall]
        omega
      · rw [List.length_drop, hall]
        omega
  · exact slice_initial _ (by omega)

end File

/-- A network that delivers, with one content for all blocks, in two chunks. -/
def smallNetwork (w : World) : Network where
  calls _ := some w
  deliveries _ := ⟨some 2, .closed⟩
  chunks _ _ := [[97], [98, 99]]

theorem small_failover : ∃ w user session, ∃ s : Snapshot, ∃ t,
    Reachable (App.small .replicated) (fun _ => True) w ∧ s ∈ w.access.snapshots.all ∧
    (iterRead (App.small .replicated) user session (smallNetwork w) 12 s.ref 0 2 0).run
      Reader.new = (.ok (), t) ∧
    t.yielded = slice (fileOf s fun _ => [97, 98, 99]) 0 2 := by
  obtain ⟨w, hw, user, -, session, -, s, hmem, hbytes, hended⟩ := exists_of_perform
    (App.small .replicated) smallCommit (World.small .replicated)
    (fun w => ∃ user ∈ w.identity.users.all, ∃ session ∈ w.identity.sessions.all,
      ∃ s ∈ w.access.snapshots.all, (∀ b ∈ s.blocks, 3 = b.sizeBytes) ∧
      (((iterRead (App.small .replicated) user session (smallNetwork w) 12 s.ref 0 2 0).run
        Reader.new).1.toOption).isSome = true)
    (by decide +kernel)
  have hreach := perform_reachable hw
  have hread := @read_failover _ user session (smallNetwork w) _
    (fun _ => [97, 98, 99]) _ _ hreach hmem
    (fun _ v hv => ⟨[], Option.some.inj hv ▸ .nil w⟩) hbytes (fun _ _ _ => rfl) 12 0 0 2
  unfold Ends at hread
  cases hrun : (iterRead (App.small .replicated) user session (smallNetwork w) 12 s.ref 0 2 0).run
      Reader.new with
  | mk result t =>
      rw [hrun] at hread hended
      cases result with
      | error e => simp [Except.toOption] at hended
      | ok u => exact ⟨w, user, session, s, t, hreach, hmem, hrun, hread⟩

end Dfsha.Client
