import Dfsha.Protocol.Sound

/-!
# Merging a write into a manifest

`CommitWrite` puts the new block of each part into the file's manifest, one part after the
other.  The parts are the delta cut at block boundaries, so each of them overwrites one block
from its offset on, and the size of the file grows with the last of them.
-/

namespace Dfsha

variable {file : Id} {B : Nat}

theorem setBlock_eq_some {blocks blocks' : List BlockRef} {i : Nat} {x : BlockRef}
    (h : setBlock blocks i x = some blocks') : i ≤ blocks.length ∧ blocks' = splice blocks i x := by
  unfold setBlock at h
  unfold splice
  split at h
  · rename_i hi
    rw [if_pos hi]
    exact ⟨hi.le, (Option.some.inj h).symm⟩
  · rename_i hi
    rw [if_neg hi]
    split at h
    · rename_i hlt
      exact ⟨hlt.le, (Option.some.inj h).symm⟩
    · cases h

/-- One turn of the merge. -/
theorem mergeParts_cons {p : Part} {r : BlockRef} {rest : List (Part × BlockRef)}
    {blocks blocks' : List BlockRef} (h : mergeParts file ((p, r) :: rest) blocks = some blocks') :
    baseOf blocks file p.base.blockIndex = p.base ∧ p.base.blockIndex ≤ blocks.length ∧
      mergeParts file rest (splice blocks p.base.blockIndex r) = some blocks' := by
  unfold mergeParts at h
  split at h
  · rename_i hbase
    obtain ⟨b, hset, hrest⟩ := Option.bind_eq_some_iff.mp h
    obtain ⟨hle, rfl⟩ := setBlock_eq_some hset
    exact ⟨hbase, hle, hrest⟩
  · cases h

/-- A block that no part touches stays. -/
theorem getElem?_mergeParts {xs : List (Part × BlockRef)} {i : Nat} :
    ∀ {blocks blocks' : List BlockRef}, mergeParts file xs blocks = some blocks' →
      (∀ x ∈ xs, x.1.base.blockIndex ≠ i) → blocks'[i]? = blocks[i]? := by
  induction xs with
  | nil =>
      intro blocks blocks' h _
      cases h
      rfl
  | cons x xs ih =>
      intro blocks blocks' h hne
      obtain ⟨-, hle, hrest⟩ := mergeParts_cons h
      rw [ih hrest fun y hy => hne y (List.mem_cons_of_mem _ hy), getElem?_splice hle,
        if_neg fun he => hne x List.mem_cons_self he.symm]

/-- Every block of the result is new or was there. -/
theorem mem_mergeParts {xs : List (Part × BlockRef)} {b : BlockRef} :
    ∀ {blocks blocks' : List BlockRef}, mergeParts file xs blocks = some blocks' →
      b ∈ blocks' → b ∈ blocks ∨ ∃ x ∈ xs, b = x.2 := by
  induction xs with
  | nil =>
      intro blocks blocks' h hb
      cases h
      exact .inl hb
  | cons x xs ih =>
      intro blocks blocks' h hb
      obtain ⟨-, -, hrest⟩ := mergeParts_cons h
      rcases ih hrest hb with hb | ⟨y, hy, rfl⟩
      · rcases mem_splice hb with rfl | hb
        · exact .inr ⟨x, List.mem_cons_self, rfl⟩
        · exact .inl hb
      · exact .inr ⟨y, List.mem_cons_of_mem _ hy, rfl⟩

/-- A part of the partition stays inside its block. -/
theorem part_fits (hB : 0 < B) {x rest len : Nat} (h : len = min rest (B - x % B)) :
    x % B + len ≤ B := by
  have := Nat.mod_lt x hB
  omega

/-- The size of the base of a part, which is nothing if there is no block yet. -/
theorem sizeBytes_baseOf (blocks : List BlockRef) (i : Nat) :
    (baseOf blocks file i).sizeBytes = (blocks.map BlockRef.sizeBytes).getD i 0 := by
  rw [baseOf, List.getD_eq_getElem?_getD, List.getElem?_map]
  cases blocks[i]? <;> rfl

/-- What a new block must say to take the place of its part. -/
def Replaces (file : Id) (x : Part × BlockRef) : Prop :=
  x.2.blockIndex = x.1.base.blockIndex ∧ x.2.fileId = file ∧ x.2.blockVersionId ≠ 0 ∧
    x.2.sizeBytes = max x.1.base.sizeBytes (x.1.part.blockOffset + x.1.part.length)

/-- One part: the manifest of a file that reaches at least to the end of the part. -/
theorem Manifest.splice {size x len : Nat} {blocks : List BlockRef} {r : BlockRef}
    (h : Manifest file size B blocks) (hB : 0 < B) (hx : x ≤ size) (hlen : 0 < len)
    (hfit : x % B + len ≤ B) (hi : r.blockIndex = x / B) (hf : r.fileId = file)
    (hv : r.blockVersionId ≠ 0)
    (hs : r.sizeBytes = max (baseOf blocks file (x / B)).sizeBytes (x % B + len)) :
    Manifest file (max size (x + len)) B (splice blocks (x / B) r) where
  cut := by
    rw [map_splice, hs, sizeBytes_baseOf]
    exact h.cut.splice hB hx hlen hfit
  index := by
    have hle : x / B ≤ blocks.length := by simpa using h.cut.index_le hB hx
    intro i b hb
    rw [getElem?_splice hle] at hb
    split at hb
    · rename_i he
      cases hb
      exact ⟨hi.trans he.symm, hf, hv⟩
    · exact h.index i b hb

/-- **The manifest of a committed write**: the file is as long as it was, or as the end of
the write. -/
theorem Manifest.merge (hB : 0 < B) {offset length : Nat} {parts : List Part} :
    ∀ {cursor size : Nat} {rs blocks blocks' : List BlockRef}, Manifest file size B blocks →
      Partitioned offset length B cursor (parts.map Part.part) → offset + cursor ≤ size →
      (∀ p ∈ parts, p.base.blockIndex = p.part.blockIndex) → rs.length = parts.length →
      (∀ x ∈ parts.zip rs, Replaces file x) →
      mergeParts file (parts.zip rs) blocks = some blocks' →
      Manifest file (max size (offset + length)) B blocks' := by
  induction parts with
  | nil =>
      intro cursor size rs blocks blocks' hm hp hle _ _ _ h
      simp only [List.zip_nil_left, mergeParts, Option.some.injEq] at h
      have hc : cursor = length := hp
      subst h
      rw [Nat.max_eq_left (by omega)]
      exact hm
  | cons p parts ih =>
      intro cursor size rs blocks blocks' hm hp hle hidx hlen hrep h
      obtain ⟨r, rs, rfl⟩ := List.exists_cons_of_length_eq_add_one hlen
      simp only [List.map_cons, Partitioned] at hp
      obtain ⟨hpos, hcut, hindex, hoff, -, hrest⟩ := hp
      rw [List.zip_cons_cons] at h hrep
      obtain ⟨hbase, -, hmerge⟩ := mergeParts_cons h
      obtain ⟨h1, h2, h3, h4⟩ := hrep _ List.mem_cons_self
      have hb : p.base.blockIndex = (offset + cursor) / B :=
        (hidx p List.mem_cons_self).trans hindex
      have hstep := hm.splice (r := r) hB hle hpos (part_fits hB hcut) (h1.trans hb) h2 h3
        (by rw [← hb, hbase, ← hoff]; exact h4)
      rw [hb] at hmerge
      have := ih hstep hrest (by omega)
        (fun q hq => hidx q (List.mem_cons_of_mem _ hq)) (by simpa using hlen)
        (fun x hx => hrep x (List.mem_cons_of_mem _ hx)) hmerge
      have hend : cursor + p.part.length ≤ length := by omega
      rwa [Nat.max_assoc, Nat.max_eq_right (by omega : offset + cursor + p.part.length ≤ _)]
        at this

/-! ## When the merge goes through -/

section Partition

variable {offset length cursor : Nat}

/-- A part of a partition is not before the place where the partition starts. -/
theorem Partitioned.index_ge {ps : List WritePart} :
    ∀ {cursor : Nat}, Partitioned offset length B cursor ps →
      ∀ p ∈ ps, (offset + cursor) / B ≤ p.blockIndex := by
  induction ps with
  | nil => exact fun _ _ hp => absurd hp List.not_mem_nil
  | cons q ps ih =>
      intro cursor h p hp
      obtain ⟨-, -, hindex, -, -, hrest⟩ := h
      rcases List.mem_cons.mp hp with rfl | hp
      · exact hindex.ge
      · exact (Nat.div_le_div_right (by omega)).trans (ih hrest p hp)

/-- The next block of a partition starts at most one block on. -/
theorem Partitioned.next_le (hB : 0 < B) {p : WritePart} {ps : List WritePart}
    (h : Partitioned offset length B cursor (p :: ps)) :
    (offset + (cursor + p.length)) / B ≤ p.blockIndex + 1 := by
  obtain ⟨-, hcut, hindex, -⟩ := h
  have hfit := part_fits hB hcut
  have hdiv := Nat.div_add_mod (offset + cursor) B
  have hbound : offset + (cursor + p.length) ≤ B * (p.blockIndex + 1) := by
    rw [hindex, Nat.mul_add, Nat.mul_one]
    omega
  calc (offset + (cursor + p.length)) / B ≤ B * (p.blockIndex + 1) / B :=
        Nat.div_le_div_right hbound
    _ = p.blockIndex + 1 := Nat.mul_div_cancel_left _ hB

/-- All parts after the first are in later blocks. -/
theorem Partitioned.index_lt (hB : 0 < B) {p : WritePart} {ps : List WritePart}
    (h : Partitioned offset length B cursor (p :: ps)) : ∀ q ∈ ps, p.blockIndex < q.blockIndex := by
  obtain ⟨-, hcut, hindex, -, -, hrest⟩ := h
  intro q hq
  have hge := hrest.index_ge q hq
  cases ps with
  | nil => exact absurd hq List.not_mem_nil
  | cons q' ps =>
      -- There is a next part, so this one was cut at the end of its block.
      obtain ⟨hpos, hmin, -⟩ := hrest
      have hlen : p.length = B - (offset + cursor) % B := by omega
      have hmod := Nat.mod_lt (offset + cursor) hB
      have hdiv := Nat.div_add_mod (offset + cursor) B
      have hend : offset + (cursor + p.length) = B * (p.blockIndex + 1) := by
        rw [hindex, Nat.mul_add, Nat.mul_one]
        omega
      rw [hend, Nat.mul_div_cancel_left _ hB] at hge
      exact hge

/-- **No part is put beyond the end**: when some of the parts have been merged, the place of the
next one is in the manifest or at its end. -/
theorem mergeParts_take_le (hB : 0 < B) {parts : List Part} :
    ∀ {cursor j : Nat} {rs blocks blocks' : List BlockRef} {x : Part × BlockRef},
      Partitioned offset length B cursor (parts.map Part.part) →
      (offset + cursor) / B ≤ blocks.length →
      (∀ p ∈ parts, p.base.blockIndex = p.part.blockIndex) →
      (parts.zip rs)[j]? = some x →
      mergeParts file ((parts.zip rs).take j) blocks = some blocks' →
      x.1.base.blockIndex ≤ blocks'.length := by
  induction parts with
  | nil => exact fun _ _ _ hx _ => absurd hx (by simp)
  | cons p parts ih =>
      intro cursor j rs blocks blocks' x hp hle hidx hx hmerge
      cases rs with
      | nil => exact absurd hx (by simp)
      | cons r rs =>
          have hnext := hp.next_le hB
          obtain ⟨-, -, hindex, -, -, hrest⟩ := hp
          have hi := hidx p List.mem_cons_self
          rw [List.zip_cons_cons] at hx hmerge
          cases j with
          | zero =>
              simp only [List.getElem?_cons_zero, Option.some.injEq] at hx
              rw [List.take_zero, mergeParts, Option.some.injEq] at hmerge
              subst hx hmerge
              exact (hi.trans hindex).le.trans hle
          | succ j =>
              rw [List.getElem?_cons_succ] at hx
              rw [List.take_succ_cons] at hmerge
              obtain ⟨-, hin, hmerge⟩ := mergeParts_cons hmerge
              refine ih hrest ?_ (fun q hq => hidx q (List.mem_cons_of_mem _ hq)) hx hmerge
              rw [length_splice hin, hi]
              exact hnext.trans (Nat.le_max_right _ _)

/-- **Parts whose bases are in the manifest can be merged into it**, whatever their new blocks
are: no part touches the base of another, and none is beyond the end. -/
theorem mergeParts_isSome (hB : 0 < B) {parts : List Part} :
    ∀ {cursor : Nat} {rs blocks : List BlockRef},
      Partitioned offset length B cursor (parts.map Part.part) →
      (offset + cursor) / B ≤ blocks.length →
      (∀ p ∈ parts, p.base.blockIndex = p.part.blockIndex) → rs.length = parts.length →
      (∀ p ∈ parts, baseOf blocks file p.base.blockIndex = p.base) →
      (mergeParts file (parts.zip rs) blocks).isSome = true := by
  induction parts with
  | nil => exact fun _ _ _ _ _ => rfl
  | cons p parts ih =>
      intro cursor rs blocks hp hle hidx hlen hbase
      obtain ⟨r, rs, rfl⟩ := List.exists_cons_of_length_eq_add_one hlen
      have hlt := hp.index_lt hB
      have hnext := hp.next_le hB
      obtain ⟨-, -, hindex, -, -, hrest⟩ := hp
      have hi := hidx p List.mem_cons_self
      have hset : setBlock blocks p.base.blockIndex r = some (splice blocks p.base.blockIndex r) := by
        unfold setBlock splice
        split
        · rfl
        · rw [if_pos (by omega)]
      have hlen' := length_splice (x := r) (show p.base.blockIndex ≤ blocks.length by omega)
      rw [List.zip_cons_cons, mergeParts, if_pos (hbase p List.mem_cons_self), hset,
        Option.bind_some]
      refine ih hrest ?_
        (fun q hq => hidx q (List.mem_cons_of_mem _ hq)) (by simpa using hlen) ?_
      · rw [hlen', hi]
        exact hnext.trans (Nat.le_max_right _ _)
      · intro q hq
        have hq' := hlt q.part (List.mem_map_of_mem hq)
        have hqi := hidx q (List.mem_cons_of_mem _ hq)
        have hne : q.base.blockIndex ≠ p.base.blockIndex := by omega
        calc baseOf (splice blocks p.base.blockIndex r) file q.base.blockIndex
            = baseOf blocks file q.base.blockIndex := by
              rw [baseOf, getElem?_splice (by omega), if_neg hne, baseOf]
          _ = q.base := hbase q (List.mem_cons_of_mem _ hq)

end Partition

end Dfsha
