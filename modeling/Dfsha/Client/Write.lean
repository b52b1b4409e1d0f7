import Dfsha.Control.Script
import Dfsha.Lib.Ranges

/-!
# How a client cuts a write

A client cuts what it writes at the boundaries of the blocks, and sends the list of the parts.  The
control cuts the range again, and compares each part with what it expects there.

## Main definitions

* `beginWriteRequest` — `AccessClient.begin_write` up to its call.
* `WritePart.geometry` — where a part lies.

## Main results

* `write_partition` — the control accepts the list of the client and no other.
-/

namespace Dfsha

/-- The block, the place in it, the place in the delta and the length of a part. -/
def WritePart.geometry (p : WritePart) : Nat × Nat × Nat × Nat :=
  (p.blockIndex, p.blockOffset, p.deltaOffset, p.length)

namespace Client

/-- The loop of `begin_write`.  Every turn moves on by a byte at least. -/
def cutDelta (sha256 : Bytes → Digest) (size offset : Nat) (payload : Bytes) :
    Nat → Nat → List WritePart
  | 0, _ => []
  | fuel + 1, cursor =>
      if cursor < payload.length then
        let absolute := offset + cursor
        let length := min (payload.length - cursor) (size - absolute % size)
        { blockIndex := absolute / size, blockOffset := absolute % size, deltaOffset := cursor,
          length := length, deltaSha256 := sha256 (slice payload cursor length) } ::
            cutDelta sha256 size offset payload fuel (cursor + length)
      else []

/-- The parts that `begin_write` sends. -/
def writeParts (sha256 : Bytes → Digest) (size offset : Nat) (payload : Bytes) : List WritePart :=
  cutDelta sha256 size offset payload payload.length 0

/-- `AccessClient.begin_write`, up to its call. -/
def beginWriteRequest (sha256 : Bytes → Digest) (handleId : Id) (snapshot : SnapshotRef)
    (offset : Nat) (payload : Bytes) (fences : List Fence) : Except Reason BeginWriteRequest :=
  if offset ≤ maxOffset ∧ payload.length ≤ maxOffset - offset then
    if payload.length ≤ maxDelta then
      if offset ≤ snapshot.sizeBytes then
        .ok { handleId := handleId, base := snapshot, offset := some offset,
              length := some payload.length, deltaSha256 := sha256 payload, fences := fences,
              parts := writeParts sha256 snapshot.blockSizeBytes offset payload }
      else .error .sparseWriteUnsupported
    else .error .limitExceeded
  else .error .invalidArgument

/-! ## The loop of the client -/

section Cut

variable {sha256 : Bytes → Digest} {size offset : Nat} {payload : Bytes} {fuel cursor : Nat}

theorem cutDelta_end (h : payload.length ≤ cursor) :
    cutDelta sha256 size offset payload fuel cursor = [] := by
  cases fuel with
  | zero => rfl
  | succ fuel =>
      unfold cutDelta
      rw [if_neg (by omega)]

/-- A piece is not empty, and ends at the end of its block at the latest. -/
theorem piece_pos (hsize : 0 < size) (h : cursor < payload.length) :
    0 < min (payload.length - cursor) (size - (offset + cursor) % size) := by
  have := Nat.mod_lt (offset + cursor) hsize
  omega

/-- **The parts tile the range of the file** that is written. -/
theorem tiles_cutDelta (hsize : 0 < size) (hfuel : payload.length - cursor ≤ fuel)
    (hcursor : cursor ≤ payload.length) :
    Tiles ((cutDelta sha256 size offset payload fuel cursor).map fun p =>
      (p.blockIndex * size + p.blockOffset, p.length)) (offset + cursor)
      (offset + payload.length) := by
  induction fuel generalizing cursor with
  | zero =>
      obtain rfl : cursor = payload.length := by omega
      rfl
  | succ fuel ih =>
      unfold cutDelta
      by_cases h : cursor < payload.length
      · have hpos := @piece_pos _ offset _ _ hsize h
        rw [if_pos h, List.map_cons]
        refine ⟨?_, hpos, ?_⟩
        · have := Nat.div_add_mod' (offset + cursor) size
          omega
        · rw [Nat.add_assoc]
          exact ih (by omega) (by omega)
      · rw [if_neg h]
        change offset + cursor = offset + payload.length
        omega

/-- **The parts tile the delta.** -/
theorem tiles_delta (hsize : 0 < size) (hfuel : payload.length - cursor ≤ fuel)
    (hcursor : cursor ≤ payload.length) :
    Tiles ((cutDelta sha256 size offset payload fuel cursor).map fun p =>
      (p.deltaOffset, p.length)) cursor payload.length := by
  induction fuel generalizing cursor with
  | zero =>
      obtain rfl : cursor = payload.length := by omega
      rfl
  | succ fuel ih =>
      unfold cutDelta
      by_cases h : cursor < payload.length
      · have hpos := @piece_pos _ offset _ _ hsize h
        rw [if_pos h, List.map_cons]
        exact ⟨rfl, hpos, ih (by omega) (by omega)⟩
      · rw [if_neg h]
        change cursor = payload.length
        omega

/-- A part lies inside its block. -/
theorem inside_cutDelta (hsize : 0 < size) {p : WritePart}
    (hp : p ∈ cutDelta sha256 size offset payload fuel cursor) :
    p.blockOffset + p.length ≤ size := by
  induction fuel generalizing cursor with
  | zero => cases hp
  | succ fuel ih =>
      unfold cutDelta at hp
      by_cases h : cursor < payload.length
      · rw [if_pos h] at hp
        rcases List.mem_cons.mp hp with rfl | hp
        · have := Nat.mod_lt (offset + cursor) hsize
          simp only
          omega
        · exact ih hp
      · rw [if_neg h] at hp
        cases hp

/-- A piece that ends before the delta does ends its block. -/
theorem mod_next (hsize : 0 < size) {a : Nat} : (a + (size - a % size)) % size = 0 := by
  have hlt := Nat.mod_lt a hsize
  have hdiv := Nat.div_add_mod a size
  have heq : a + (size - a % size) = size * (a / size + 1) := by
    rw [Nat.mul_add, Nat.mul_one]
    omega
  rw [heq, Nat.mul_mod_right]

/-- The parts are not more than the blocks that the range touches. -/
theorem length_cutDelta (hsize : 0 < size) (hcursor : cursor < payload.length) :
    (cutDelta sha256 size offset payload fuel cursor).length * size <
      (offset + cursor) % size + (payload.length - cursor) + size := by
  induction fuel generalizing cursor with
  | zero =>
      simp only [cutDelta, List.length_nil, Nat.zero_mul]
      omega
  | succ fuel ih =>
      have hlt := Nat.mod_lt (offset + cursor) hsize
      unfold cutDelta
      rw [if_pos hcursor, List.length_cons, Nat.add_mul, Nat.one_mul]
      by_cases hlast : payload.length - cursor ≤ size - (offset + cursor) % size
      · rw [cutDelta_end (by omega), List.length_nil]
        omega
      · have hmin : min (payload.length - cursor) (size - (offset + cursor) % size) =
            size - (offset + cursor) % size := by omega
        rw [hmin]
        have hrest := @ih (cursor + (size - (offset + cursor) % size)) (by omega)
        rw [← Nat.add_assoc, mod_next hsize] at hrest
        omega

/-- At most five parts, in blocks of 4 MiB or more. -/
theorem length_writeParts (hsize : 4194304 ≤ size) (hlength : payload.length ≤ maxDelta) :
    (writeParts sha256 size offset payload).length ≤ 5 := by
  unfold writeParts
  by_cases h : 0 < payload.length
  · have hcount := @length_cutDelta sha256 _ offset _ payload.length _
      (show 0 < size by omega) h
    have hlt := Nat.mod_lt (offset + 0) (show 0 < size by omega)
    rw [maxDelta] at hlength
    -- six parts would need more than five whole blocks
    by_contra hmore
    have hsix : 6 * size ≤
        (cutDelta sha256 size offset payload payload.length 0).length * size :=
      Nat.mul_le_mul_right size (by omega)
    omega
  · rw [cutDelta_end (by omega)]
    exact Nat.zero_le _

end Cut

/-! ## The loop of the control -/

/-- **The control accepts the list of the client and no other.** -/
theorem checkParts_iff {sha256 : Bytes → Digest} {size offset : Nat} {payload : Bytes}
    {fuel cursor : Nat} (hsize : 0 < size) (hfuel : payload.length - cursor ≤ fuel)
    (hcursor : cursor ≤ payload.length) (w : World) (parts : List WritePart) :
    checkParts offset payload.length size parts cursor w = .ok payload.length ↔
      parts.map WritePart.geometry =
        (cutDelta sha256 size offset payload fuel cursor).map WritePart.geometry ∧
      ∀ p ∈ parts, p.deltaSha256.length = 32 := by
  induction fuel generalizing cursor parts with
  | zero =>
      obtain rfl : cursor = payload.length := by omega
      cases parts with
      | nil => simp [checkParts, cutDelta]
      | cons part parts => simp [checkParts, cutDelta, Query.bind_ok]
  | succ fuel ih =>
      unfold cutDelta
      by_cases h : cursor < payload.length
      · have hpos := @piece_pos _ offset _ _ hsize h
        rw [if_pos h]
        cases parts with
        | nil =>
            simp only [checkParts, Query.pure_ok, List.map_nil, List.map_cons, reduceCtorEq,
              false_and, iff_false]
            omega
        | cons part parts =>
            simp only [checkParts, Query.bind_ok, need_ok, exists_const, List.map_cons,
              List.cons.injEq, List.forall_mem_cons, WritePart.geometry, Prod.mk.injEq]
            constructor
            · rintro ⟨⟨-, hindex, hplace, hdelta, hlength, hhash⟩, hrest⟩
              rw [hlength] at hrest
              obtain ⟨hmap, hall⟩ := (ih (by omega) (by omega) parts).mp hrest
              exact ⟨⟨⟨hindex, hplace, hdelta, hlength⟩, hmap⟩, hhash, hall⟩
            · rintro ⟨⟨⟨hindex, hplace, hdelta, hlength⟩, hmap⟩, hhash, hall⟩
              refine ⟨⟨hpos, hindex, hplace, hdelta, hlength, hhash⟩, ?_⟩
              rw [hlength]
              exact (ih (by omega) (by omega) parts).mpr ⟨hmap, hall⟩
      · obtain rfl : cursor = payload.length := by omega
        rw [if_neg h]
        cases parts with
        | nil => simp [checkParts]
        | cons part parts => simp [checkParts, Query.bind_ok]

/-- **The partition of a write.**  The control accepts a list of parts exactly when it is the one
that the client cuts; this one tiles the range and the delta, each part inside one block; and in
blocks of 4 MiB or more it is never too long for the control. -/
theorem write_partition (app : App) {size : Nat} (hsize : 0 < size) (offset : Nat)
    (payload : Bytes) (w : World) :
    (∀ parts, checkParts offset payload.length size parts 0 w = .ok payload.length ↔
      parts.map WritePart.geometry =
        (writeParts app.sha256 size offset payload).map WritePart.geometry ∧
      ∀ p ∈ parts, p.deltaSha256.length = 32) ∧
    (∀ p ∈ writeParts app.sha256 size offset payload, p.blockOffset + p.length ≤ size) ∧
    Tiles ((writeParts app.sha256 size offset payload).map fun p =>
      (p.blockIndex * size + p.blockOffset, p.length)) offset (offset + payload.length) ∧
    Tiles ((writeParts app.sha256 size offset payload).map fun p => (p.deltaOffset, p.length)) 0
      payload.length ∧
    (4194304 ≤ size → ∀ handleId snapshot fences req, snapshot.blockSizeBytes = size →
      beginWriteRequest app.sha256 handleId snapshot offset payload fences = .ok req →
      req.parts = writeParts app.sha256 size offset payload ∧ req.parts.length ≤ 5) := by
  refine ⟨checkParts_iff hsize (by omega) (Nat.zero_le _) w, fun p hp => inside_cutDelta hsize hp,
    tiles_cutDelta hsize (by omega) (Nat.zero_le _), tiles_delta hsize (by omega) (Nat.zero_le _),
    fun hbig handleId snapshot fences req hblock hreq => ?_⟩
  subst hblock
  unfold beginWriteRequest at hreq
  split at hreq
  · split at hreq
    · rename_i hlength
      split at hreq
      · obtain rfl := Except.ok.inj hreq
        exact ⟨rfl, length_writeParts hbig hlength⟩
      · cases hreq
    · cases hreq
  · cases hreq

/-- Three bytes from the last one of a block: a part of one byte and one of two. -/
theorem small_partition :
    checkParts 4194303 3 4194304 (writeParts (App.small .rf3).sha256 4194304 4194303 [1, 2, 3]) 0
      (World.small .rf3) = .ok 3 :=
  ((write_partition (App.small .rf3) (by decide) 4194303 [1, 2, 3] (World.small .rf3)).1 _).mpr
    ⟨rfl, by decide⟩

end Client

end Dfsha
