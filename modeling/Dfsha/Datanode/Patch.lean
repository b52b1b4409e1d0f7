import Dfsha.Domain
import Dfsha.Lib.Collections
import Dfsha.Lib.Ranges
import Dfsha.Lib.Segments

/-!
# How a data node patches a block

A replacement is computed twice from the base and the delta, once for its digest and once to be
stored, in chunks that have nothing to do with those in which the base is read.  Behind the end of
the base a chunk is filled with zeros, which the delta then covers.

## Main definitions

* `fill`, `Patch.overlay`, `Patch.resultChunks` — the loops of `patch_block`.

## Main results

* `overlay_chunks` — what is computed is the base with the delta written into it, in the same
  chunks every time.
-/

namespace Dfsha

/-- What a request to patch a block comes to: where the delta goes, the delta, and the size of the
replacement. -/
structure Patch where
  blockOffset : Nat
  delta : Bytes
  replacementSize : Nat

namespace Patch

/-! ## The loops -/

/-- The base is read until so much is pending; whether it came to its end. -/
def fill (wanted : Nat) : Bytes → List Bytes → Bool → Bytes × List Bytes × Bool
  | pending, [], sourceDone => (pending, [], sourceDone || decide (pending.length < wanted))
  | pending, value :: source, sourceDone =>
      if pending.length < wanted ∧ sourceDone = false then
        fill wanted (pending ++ value) source sourceDone
      else (pending, value :: source, sourceDone)

/-- `chunk[low:high] = data`. -/
def assign (chunk : Bytes) (low high : Nat) (data : Bytes) : Bytes :=
  chunk.take low ++ data ++ chunk.drop high

/-- The part of the delta that belongs into a chunk is written into it. -/
def overlay (p : Patch) (offset wanted : Nat) (chunk : Bytes) : Bytes :=
  let low := max offset p.blockOffset
  let high := min (offset + wanted) (p.blockOffset + p.delta.length)
  if low < high then
    assign chunk (low - offset) (high - offset) (slice p.delta (low - p.blockOffset) (high - low))
  else chunk

/-- The loop of `result_chunks`: what it yields, and what it raises.  `alive` says whether the
request still runs when so much was yielded. -/
def chunksFrom (p : Patch) (alive : Nat → Bool) (offset : Nat) (pending : Bytes)
    (source : List Bytes) (sourceDone : Bool) : List Bytes × Option Reason :=
  if offset < p.replacementSize then
    let wanted := min chunkBytes (p.replacementSize - offset)
    let (pending, source, sourceDone) := fill wanted pending source sourceDone
    let chunk := pending.take wanted
    if chunk.length < wanted ∧ ¬ (p.blockOffset ≤ offset + chunk.length ∧
        offset + wanted ≤ p.blockOffset + p.delta.length) then
      ([], some .sparseWriteUnsupported)
    else
      let chunk := p.overlay offset wanted (chunk ++ List.replicate (wanted - chunk.length) 0)
      if alive offset = true then
        let (chunks, e) := chunksFrom p alive (offset + wanted) (pending.drop wanted) source sourceDone
        (chunk :: chunks, e)
      else ([], some .deadlineExceeded)
  else ([], none)
termination_by p.replacementSize - offset
decreasing_by
  have hchunk : 0 < chunkBytes := by decide
  omega

/-- `result_chunks`. -/
def resultChunks (p : Patch) (alive : Nat → Bool) (source : List Bytes) :
    List Bytes × Option Reason := p.chunksFrom alive 0 [] source false

/-! ## What is computed -/

/-- Chunks as they are yielded while the request runs. -/
def delivered (alive : Nat → Bool) : Nat → List Bytes → List Bytes × Option Reason
  | _, [] => ([], none)
  | offset, chunk :: chunks =>
      if alive offset = true then
        (chunk :: (delivered alive (offset + chunk.length) chunks).1,
          (delivered alive (offset + chunk.length) chunks).2)
      else ([], some .deadlineExceeded)

theorem delivered_prefix (alive : Nat → Bool) (offset : Nat) (chunks : List Bytes) :
    (delivered alive offset chunks).1 <+: chunks ∧
      ((delivered alive offset chunks).2 = none ∨
        (delivered alive offset chunks).2 = some .deadlineExceeded) := by
  induction chunks generalizing offset with
  | nil => exact ⟨List.prefix_rfl, .inl rfl⟩
  | cons chunk chunks ih =>
      unfold delivered
      by_cases h : alive offset = true
      · simp only [h, if_true]
        exact ⟨List.prefix_cons_inj chunk |>.mpr (ih _).1, (ih _).2⟩
      · simp [h]

/-- While the request runs, everything is yielded. -/
theorem delivered_all (offset : Nat) (chunks : List Bytes) :
    delivered (fun _ => true) offset chunks = (chunks, none) := by
  induction chunks generalizing offset with
  | nil => rfl
  | cons chunk chunks ih => simp [delivered, ih]

/-- **What is pending** after the base was read on: nothing is lost, and it is enough unless the
base came to its end. -/
theorem fill_spec {wanted : Nat} {source : List Bytes} :
    ∀ {pending : Bytes} {sourceDone : Bool}, (sourceDone = true → source = []) →
      ∃ pending' source' sourceDone', fill wanted pending source sourceDone =
          (pending', source', sourceDone') ∧
        pending' ++ source'.flatten = pending ++ source.flatten ∧
        (wanted ≤ pending'.length ∨ source' = []) ∧ (sourceDone' = true → source' = []) := by
  induction source with
  | nil => exact fun {pending sourceDone} _ => ⟨pending, [], _, rfl, rfl, .inr rfl, fun _ => rfl⟩
  | cons value source ih =>
      intro pending sourceDone hdone
      unfold fill
      have hnot : sourceDone = false := by
        cases sourceDone with
        | false => rfl
        | true => cases hdone rfl
      by_cases h : pending.length < wanted
      · rw [if_pos ⟨h, hnot⟩]
        obtain ⟨p, s, d, he, hflat, hrest⟩ := @ih (pending ++ value) sourceDone (by simp [hnot])
        exact ⟨p, s, d, he, by rw [hflat]; simp, hrest⟩
      · rw [if_neg fun hand => h hand.1]
        exact ⟨_, _, _, rfl, rfl, .inl (Nat.le_of_not_lt h), hdone⟩

variable {p : Patch} {base : Bytes}

theorem getElem?_slice (l : Bytes) (offset n i : Nat) :
    (slice l offset n)[i]? = if i < n then l[offset + i]? else none := by
  rw [slice, List.getElem?_take, List.getElem?_drop]

/-- What has the length of what it replaces is written over it. -/
theorem assign_eq_overwrite {chunk data : Bytes} {low high : Nat} (h : low + data.length = high) :
    assign chunk low high data = overwrite chunk low data := by
  rw [assign, overwrite, h]

/-- A chunk of the base, with zeros behind its end, becomes a chunk of the replacement: the zeros
are all covered by the delta. -/
theorem overlay_eq (ho : p.blockOffset ≤ base.length)
    (hsize : p.replacementSize = max base.length (p.blockOffset + p.delta.length))
    {offset wanted : Nat} (hwanted : offset + wanted ≤ p.replacementSize) :
    p.overlay offset wanted (slice base offset wanted ++
        List.replicate (wanted - (slice base offset wanted).length) 0) =
      slice (overwrite base p.blockOffset p.delta) offset wanted := by
  have hlength := length_slice base offset wanted
  generalize hchunk : slice base offset wanted ++
    List.replicate (wanted - (slice base offset wanted).length) 0 = chunk
  have hfull : chunk.length = wanted := by
    rw [← hchunk, List.length_append, List.length_replicate]
    omega
  have hbase : ∀ i, i < wanted → offset + i < base.length → chunk[i]? = base[offset + i]? := by
    intro i hi hlt
    rw [← hchunk, List.getElem?_append_left (by omega), getElem?_slice, if_pos hi]
  apply List.ext_getElem?
  intro i
  rw [getElem?_slice, getElem?_overwrite ho]
  unfold overlay
  by_cases hlow : max offset p.blockOffset < min (offset + wanted) (p.blockOffset + p.delta.length)
  · rw [if_pos hlow, assign_eq_overwrite (by rw [length_slice]; omega),
      getElem?_overwrite (by omega), length_slice, getElem?_slice]
    by_cases hi : i < wanted
    · by_cases hin : p.blockOffset ≤ offset + i ∧ offset + i < p.blockOffset + p.delta.length
      · rw [if_neg (by omega), if_pos (by omega), if_pos hi, if_neg (by omega)]
        congr 1
        omega
      · rw [if_pos (by omega), if_pos hi, if_pos (by omega)]
        exact hbase i hi (by omega)
    · rw [if_pos (by omega), if_neg hi]
      exact List.getElem?_eq_none (by omega)
  · rw [if_neg hlow]
    by_cases hi : i < wanted
    · rw [if_pos hi, if_pos (by omega)]
      exact hbase i hi (by omega)
    · rw [if_neg hi]
      exact List.getElem?_eq_none (by omega)

/-- **The loop** yields the rest of the replacement, in chunks as long as they may be. -/
theorem chunksFrom_eq (ho : p.blockOffset ≤ base.length)
    (hsize : p.replacementSize = max base.length (p.blockOffset + p.delta.length))
    (alive : Nat → Bool) {offset : Nat} {pending : Bytes} {source : List Bytes} {sourceDone : Bool}
    (hrest : pending ++ source.flatten = base.drop offset) (hdone : sourceDone = true → source = []) :
    p.chunksFrom alive offset pending source sourceDone =
      delivered alive offset
        (slices chunkBytes ((overwrite base p.blockOffset p.delta).drop offset)) := by
  have hchunk : 0 < chunkBytes := by decide
  have hlength := length_overwrite (d := p.delta) ho
  induction h : p.replacementSize - offset using Nat.strong_induction_on
    generalizing offset pending source sourceDone with
  | _ n ih =>
    rw [chunksFrom]
    by_cases hlt : offset < p.replacementSize
    · rw [if_pos hlt]
      obtain ⟨wanted, hwanted⟩ : ∃ wanted, wanted = min chunkBytes (p.replacementSize - offset) :=
        ⟨_, rfl⟩
      rw [← hwanted]
      obtain ⟨pending', source', done', hfill, hflat, hend, hdone'⟩ :=
        @fill_spec wanted source pending sourceDone hdone
      rw [hrest] at hflat
      simp only [hfill]
      have htake : pending'.take wanted = slice base offset wanted := by
        rw [slice, ← hflat]
        rcases hend with hend | rfl
        · rw [List.take_append_of_le_length hend]
        · rw [List.flatten_nil, List.append_nil]
      have hdrop : pending'.drop wanted ++ source'.flatten = base.drop (offset + wanted) := by
        rw [← List.drop_drop, ← hflat]
        rcases hend with hend | rfl
        · rw [List.drop_append_of_le_length hend]
        · rw [List.flatten_nil, List.append_nil, List.append_nil]
      have hfound := length_slice base offset wanted
      -- where the base is at its end, the delta reaches to the end of the replacement
      have hcovered : ¬ ((pending'.take wanted).length < wanted ∧
          ¬ (p.blockOffset ≤ offset + (pending'.take wanted).length ∧
            offset + wanted ≤ p.blockOffset + p.delta.length)) := by
        rw [htake]
        omega
      rw [if_neg hcovered, htake, overlay_eq ho hsize (by omega)]
      have hne : (overwrite base p.blockOffset p.delta).drop offset ≠ [] := by
        rw [ne_eq, List.drop_eq_nil_iff]
        omega
      have hhead : ((overwrite base p.blockOffset p.delta).drop offset).take chunkBytes =
          slice (overwrite base p.blockOffset p.delta) offset wanted := by
        rw [slice, List.take_eq_take_iff, List.length_drop]
        omega
      have htail : ((overwrite base p.blockOffset p.delta).drop offset).drop chunkBytes =
          (overwrite base p.blockOffset p.delta).drop (offset + wanted) := by
        rw [List.drop_drop]
        by_cases hlast : wanted = chunkBytes
        · rw [hlast]
        · rw [List.drop_eq_nil_of_le (by omega), List.drop_eq_nil_of_le (by omega)]
      have hsame : (slice (overwrite base p.blockOffset p.delta) offset wanted).length = wanted := by
        rw [length_slice]
        omega
      rw [slices_eq hchunk hne, hhead, htail, delivered, hsame]
      by_cases halive : alive offset = true
      · rw [if_pos halive, if_pos halive,
          ih (p.replacementSize - (offset + wanted)) (by omega) hdrop hdone' rfl]
      · rw [if_neg halive, if_neg halive]
    · rw [if_neg hlt, List.drop_eq_nil_of_le (by omega)]
      rfl

/-- **The overlay loop.**  However the base is cut when it is read, the chunks are the same: none is
empty or too long, and they make up the base with the delta written into it.  Nothing else is
yielded when the request ends on the way, and a sparse write is never found. -/
theorem overlay_chunks (ho : p.blockOffset ≤ base.length)
    (hsize : p.replacementSize = max base.length (p.blockOffset + p.delta.length)) :
    ∃ chunks : List Bytes, chunks.flatten = overwrite base p.blockOffset p.delta ∧
      (∀ chunk ∈ chunks, 0 < chunk.length ∧ chunk.length ≤ chunkBytes) ∧
      ∀ source : List Bytes, source.flatten = base →
        p.resultChunks (fun _ => true) source = (chunks, none) ∧
          ∀ alive, (p.resultChunks alive source).1 <+: chunks ∧
            ((p.resultChunks alive source).2 = none ∨
              (p.resultChunks alive source).2 = some .deadlineExceeded) := by
  have hchunk : 0 < chunkBytes := by decide
  have hrun : ∀ (alive : Nat → Bool) (source : List Bytes), source.flatten = base →
      p.resultChunks alive source =
        delivered alive 0 (slices chunkBytes (overwrite base p.blockOffset p.delta)) := by
    intro alive source hsource
    exact chunksFrom_eq ho hsize alive hsource fun h => by cases h
  refine ⟨slices chunkBytes (overwrite base p.blockOffset p.delta), flatten_slices hchunk _,
    fun chunk hmem => ⟨List.length_pos_iff.mpr (ne_nil_of_mem_slices hchunk hmem),
      length_of_mem_slices hmem⟩, fun source hsource => ⟨?_, fun alive => ?_⟩⟩
  · rw [hrun _ source hsource, delivered_all]
  · rw [hrun alive source hsource]
    exact delivered_prefix alive 0 _

/-- Where nothing is raised, everything was yielded. -/
theorem delivered_complete {alive : Nat → Bool} {chunks chunks' : List Bytes} :
    ∀ {offset : Nat}, delivered alive offset chunks = (chunks', none) → chunks' = chunks := by
  induction chunks generalizing chunks' with
  | nil =>
      intro offset h
      exact (congrArg Prod.fst h).symm
  | cons chunk chunks ih =>
      intro offset h
      unfold delivered at h
      by_cases halive : alive offset = true
      · rw [if_pos halive, Prod.mk.injEq] at h
        have hrest : (delivered alive (offset + chunk.length) chunks).1 = chunks :=
          ih (Prod.ext rfl h.2)
        rw [← h.1, hrest]
      · rw [if_neg halive, Prod.mk.injEq] at h
        cases h.2

/-- **What is stored** when the loop comes to its end is the base with the delta written into it. -/
theorem flatten_resultChunks (ho : p.blockOffset ≤ base.length)
    (hsize : p.replacementSize = max base.length (p.blockOffset + p.delta.length))
    {alive : Nat → Bool} {source chunks : List Bytes} (hsource : source.flatten = base)
    (h : p.resultChunks alive source = (chunks, none)) :
    chunks.flatten = overwrite base p.blockOffset p.delta := by
  have hchunk : 0 < chunkBytes := by decide
  have hrun : p.resultChunks alive source = _ :=
    chunksFrom_eq ho hsize alive hsource fun hdone : false = true => by cases hdone
  rw [List.drop_zero] at hrun
  rw [delivered_complete (hrun.symm.trans h), flatten_slices hchunk]

/-- Three bytes that reach beyond the end of a base of four. -/
theorem small_patch : ∃ chunks : List Bytes, chunks.flatten = [1, 2, 9, 9, 9] ∧
    (⟨2, [9, 9, 9], 5⟩ : Patch).resultChunks (fun _ => true) [[1], [], [2, 3, 4]] =
      (chunks, none) := by
  obtain ⟨chunks, hflat, -, hrun⟩ := @overlay_chunks ⟨2, [9, 9, 9], 5⟩ [1, 2, 3, 4]
    (by decide) (by decide)
  exact ⟨chunks, hflat, (hrun [[1], [], [2, 3, 4]] rfl).1⟩

end Patch

end Dfsha
