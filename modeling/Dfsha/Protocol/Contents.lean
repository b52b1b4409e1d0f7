import Dfsha.Lib.Ranges
import Dfsha.Protocol.Preserve
import Dfsha.Protocol.Reserves

/-!
# What files contain

The control never sees a plaintext.  What a file contains is said by the blocks of its snapshot,
and what these contain is known to the data nodes.  Where data nodes report only blocks that they
store, and build a replacement from its base and its part of the delta, a write that commits
overwrites the current content of the file with its delta, whatever was published since it began.

## Main definitions

* `Contents` — the plaintext of each block version, and the bytes behind each digest.
* `Contents.Overlays` — a replacement is the base with a part of the delta written into it.
* `Contents.trust`, `Contents.Holds` — what is assumed of reports, and what follows for the records.

## Main results

* `Acts.holds` — the records agree with the contents after every sequence of actions.
* `Contents.merge` — the content of a merged manifest.
* `Contents.Holds.written` — the content of a snapshot that a write publishes.
-/

namespace Dfsha

variable {app : App} {a b : Access} {file : Id} {B : Nat}

/-! ## Contents -/

/-- What the data nodes store of each block version, and which bytes each digest was computed of:
no two of them have the same. -/
structure Contents where
  block : Id → Bytes
  preimage : Digest → Bytes

namespace Contents

variable (c : Contents)

/-- The content of a base, which is nothing if there is no block yet. -/
def base (b : BlockRef) : Bytes := if b.blockVersionId = 0 then [] else c.block b.blockVersionId

/-- The content of a manifest: that of its blocks, one after the other. -/
def manifest (blocks : List BlockRef) : Bytes :=
  (blocks.map fun b => c.block b.blockVersionId).flatten

/-- The replacement of a part is its base with its piece of the delta written into it. -/
structure Overlays (p : Part) : Prop where
  length : (c.preimage p.part.deltaSha256).length = p.part.length
  content : c.block p.replacement.blockVersionId =
    overwrite (c.base p.base) p.part.blockOffset (c.preimage p.part.deltaSha256)

/-- The delta of a write: its pieces are what the parts were declared with. -/
structure Delta (op : Operation) (delta : Bytes) : Prop where
  length : delta.length = op.length
  piece : ∀ p ∈ op.parts,
    c.preimage p.part.deltaSha256 = slice delta p.part.deltaOffset p.part.length

/-- Data nodes report the sizes of what they store, and replacements that are overlays. -/
def trust : Trust :=
  { Trust.all with
    block := fun op b => (c.block b.ref.blockVersionId).length = b.ref.sizeBytes ∧
      (op.kind = .write → ∃ p ∈ op.parts,
        p.replacement.blockVersionId = b.ref.blockVersionId ∧ c.Overlays p) }

/-- The bytes of an upload: each of its blocks holds the bytes at its place. -/
structure Sends (op : Operation) (bytes : Bytes) : Prop where
  length : bytes.length = op.total
  block : ∀ x ∈ op.allocations, c.block x.2.blockVersionId =
    slice bytes (x.2.blockIndex * op.blockSize) op.blockSize

/-- The records agree with the contents. -/
structure Holds (a : Access) : Prop where
  sizes : ∀ b ∈ a.blocks.all, (c.block b.ref.blockVersionId).length = b.ref.sizeBytes
  patched : ∀ op ∈ a.uploads.all, op.writing → ∀ p ∈ op.parts,
    (a.blocks.get p.replacement.blockVersionId).isSome = true → c.Overlays p
  snapshots : ∀ s ∈ a.snapshots.all, ∀ b ∈ s.blocks,
    (c.block b.blockVersionId).length = b.sizeBytes

end Contents

/-! ## Block versions of uploads -/

variable {trust : Trust}

/-- The block versions of an upload are different. -/
def Access.Versioned (a : Access) : Prop :=
  ∀ op ∈ a.uploads.all, op.kind = .upload →
    (op.allocations.map fun x => x.2.blockVersionId).Nodup

/-- A fresh version is none of those of an operation. -/
theorem Fresh.not_allotted {k : Id} (hf : Fresh app a k) {op : Operation}
    (hop : op ∈ a.uploads.all) : k ∉ op.allocations.map fun x => x.2.blockVersionId := by
  intro hmem
  refine Mentions.not_upload hf.2 hop ?_
  simp only [Operation.ids, List.mem_cons, List.mem_append]
  exact .inr (.inr (.inr hmem))

/-- **One action leaves the block versions of uploads different.** -/
theorem Act.versioned (h : Act app trust a b) (ha : a.Versioned) : b.Versioned := by
  have hput : ∀ {p : Operation},
      (p.kind = .upload → (p.allocations.map fun x => x.2.blockVersionId).Nodup) →
      ∀ op ∈ (a.uploads.put p).all, op.kind = .upload →
        (op.allocations.map fun x => x.2.blockVersionId).Nodup := by
    intro p hp op hop
    rcases Table.mem_put.mp hop with rfl | hop
    · exact hp
    · exact ha op hop.1
  have hempty : ∀ {p : Operation}, p.allocations = [] → p.kind = .upload →
      (p.allocations.map fun x => x.2.blockVersionId).Nodup := fun he _ => by simp [he]
  have hold : ∀ {o p : Operation}, a.uploads.get p.id = some o → p.kind = o.kind →
      p.allocations = o.allocations → p.kind = .upload →
      (p.allocations.map fun x => x.2.blockVersionId).Nodup := by
    intro o p hg hk he hkind
    rw [he]
    exact ha o (Table.mem_of_get hg) (hk ▸ hkind)
  cases h with
  | recordOp _ _ _ _ _ _ he _ _ => exact hput (hempty he)
  | beginWrite _ hb =>
      refine hput fun hkind => ?_
      rw [hb.kind] at hkind
      cases hkind
  | beginPlain _ _ hp _ => exact hput (hempty hp.allocations)
  | beginUpload _ hb => exact hput (hempty hb.allocations)
  | touchOp _ _ hg _ _ => exact hput (hold hg rfl rfl)
  | spendOp _ hg _ => exact hput (hold hg rfl rfl)
  | sealOp hg _ => exact hput (hold hg rfl rfl)
  | capture _ hg _ => exact hput (hold hg rfl rfl)
  | endOp hg _ _ => exact hput (hold hg rfl rfl)
  | stage hg _ _ => exact hput (hold hg rfl rfl)
  | allocate hok =>
      have hmem := Table.mem_of_get hok.stored
      refine hput fun hkind => ?_
      rw [List.map_append, List.nodup_append]
      refine ⟨ha _ hmem hkind, by simp, fun k hk j hj => ?_⟩
      rw [List.map_singleton, List.mem_singleton] at hj
      intro he
      exact hok.fresh.not_allotted hmem (hj ▸ he ▸ hk)
  | commitWrite _ hc _ _ _ => exact hput (hold hc.stored rfl rfl)
  | commitUpload _ hc _ => exact hput (hold hc.stored rfl rfl)
  | _ => exact ha

/-- The block versions of uploads stay different. -/
theorem Acts.versioned (h : Acts app trust a b) (ha : a.Versioned) : b.Versioned :=
  Acts.keep Act.versioned h ha

/-! ## Records -/

variable {c : Contents}

/-- A block that is recorded was recorded before, or it is confirmed. -/
theorem Act.confirming (h : Act app trust a b) {r : Block} (hr : r ∈ b.blocks.all) :
    r ∈ a.blocks.all ∨ ∃ op, ConfirmOk trust a op r := by
  cases h with
  | confirmBlock hok =>
      rcases Table.mem_put.mp hr with rfl | ⟨hr, -⟩
      · exact .inr ⟨_, hok⟩
      · exact .inl hr
  | retireBlock _ _ _ _ => exact .inl (Table.mem_delete.mp hr).1
  | _ => exact .inl hr

/-- The replacement of a part of a write is one of its allocations. -/
theorem WriteShape.allotted {op : Operation} (h : WriteShape op) {p : Part} (hp : p ∈ op.parts) :
    (p.part.blockIndex, p.replacement) ∈ op.allocations := by
  rw [h.allocations]
  exact List.mem_map_of_mem (f := fun p : Part => (p.part.blockIndex, p.replacement)) hp

/-- **What is confirmed for a write is an overlay of the part that it replaces.** -/
theorem ConfirmOk.overlays (hs : Sound app a) {o op : Operation} {r : Block}
    (hok : ConfirmOk c.trust a o r) (hop : op ∈ a.uploads.all) (hw : op.writing) {p : Part}
    (hp : p ∈ op.parts) (hr : r.id = p.replacement.blockVersionId) : c.Overlays p := by
  have shape := hs.writeShape op hop hw
  have ho := Table.mem_of_get hok.stored
  obtain ⟨x, hx, hxid, -⟩ := hok.allocated
  have hid : o.id = op.id :=
    hs.allocated o ho op hop x hx _ (shape.allotted hp) (hxid.trans hr)
  obtain rfl : o = op := by
    have hget := Table.get_of_mem ho
    change a.uploads.get o.id = some o at hget
    rw [hid] at hget
    exact Option.some.inj (hget.symm.trans (Table.get_of_mem hop))
  obtain ⟨q, hq, hqid, hover⟩ := hok.trusted.2 hw.1
  have hsame : p.replacement.blockVersionId = q.replacement.blockVersionId := by
    rw [← hr, hok.id_eq, hqid]
  obtain rfl : p = q := List.inj_on_of_nodup_map shape.nodup hp hq hsame
  exact hover

/-- A block of a committed upload has the size of its content. -/
theorem CommitUploadOk.sizes (hs : Sound app a) (hv : a.Versioned) (ha : c.Holds a)
    {op : Operation} {n : Node} {blocks : List BlockRef} (hok : CommitUploadOk a op n blocks) :
    ∀ x ∈ blocks, (c.block x.blockVersionId).length = x.sizeBytes := by
  intro x hx
  have hop := Table.mem_of_get hok.stored
  have shape := hs.uploadShape op hop ⟨hok.kind, hok.state⟩
  obtain ⟨page, hpage, hxp⟩ := hok.paged x hx
  obtain ⟨i, halloc⟩ := shape.paged page hpage x hxp
  obtain ⟨r, hr⟩ := Option.isSome_iff_exists.mp (hok.recorded x hx)
  have hid : r.id = x.blockVersionId := Table.key_of_get hr
  have hmem := Table.mem_of_get hr
  obtain ⟨hrid, hconf⟩ := hs.confirmed r hmem
  obtain ⟨y, hy, hyr⟩ := (hconf op hop hok.state _ halloc hid.symm).2 hok.kind
  have hsame : y.2.blockVersionId = x.blockVersionId := by rw [hyr, hrid, hid]
  have hxy : y = (i, x) := List.inj_on_of_nodup_map (hv op hop hok.kind) hy halloc hsame
  have href : r.ref = x := by rw [← hyr, hxy]
  have hsize := ha.sizes r hmem
  rwa [href] at hsize

/-- **One action leaves the records in agreement with the contents.** -/
theorem Act.holds (hs : Sound app a) (hv : a.Versioned) (h : Act app c.trust a b)
    (ha : c.Holds a) : c.Holds b where
  sizes r hr := by
    rcases h.confirming hr with hr | ⟨op, hok⟩
    · exact ha.sizes r hr
    · exact hok.trusted.1
  patched op hop hw p hp hsome := by
    have hget : b.uploads.get op.id = some op := Table.get_of_mem hop
    obtain ⟨r, hr⟩ := Option.isSome_iff_exists.mp hsome
    have hid : r.id = p.replacement.blockVersionId := Table.key_of_get hr
    cases ho : a.uploads.get op.id with
    | none =>
        -- A write begins with versions that are fresh, so none of them is recorded.
        rcases h.beginning ho hget with ⟨g, n, s, d, hbegin⟩ | hplan | ⟨hne, -⟩
        · have hf := (hbegin.parts p hp).fresh
          rcases h.confirming (Table.mem_of_get hr) with hr | ⟨o, hok⟩
          · exact absurd hid.symm (Mentions.not_block hf.2 hr)
          · obtain ⟨x, hx, hxid, -⟩ := hok.allocated
            exact absurd (List.mem_map.mpr ⟨x, hx, hxid.trans hid⟩)
              (hf.not_allotted (Table.mem_of_get hok.stored))
        · exact absurd (hplan.kind.symm.trans hw.1) (by simp)
        · exact absurd hw.2 hne
    | some o =>
        obtain ⟨q, hq, hev⟩ := h.uploads _ o ho
        obtain rfl : q = op := Option.some.inj (hq.symm.trans hget)
        have ho' := Table.mem_of_get ho
        have how : o.writing := ⟨hev.kind_eq.symm.trans hw.1, hev.preparing hw.2⟩
        have hpo : p ∈ o.parts := by
          rw [hev.same] at hp
          exact hp
        rcases h.confirming (Table.mem_of_get hr) with hr' | ⟨u, hok⟩
        · exact ha.patched o ho' how p hpo
            (by rw [← hid]; exact Option.isSome_iff_exists.mpr ⟨r, Table.get_of_mem hr'⟩)
        · exact hok.overlays hs ho' how hpo hid
  snapshots s hsm x hx := by
    have hput : ∀ {t : Snapshot}, s ∈ (a.snapshots.put t).all →
        (∀ x ∈ t.blocks, (c.block x.blockVersionId).length = x.sizeBytes) →
        (c.block x.blockVersionId).length = x.sizeBytes := by
      intro t hmem ht
      rcases Table.mem_put.mp hmem with rfl | ⟨hmem, -⟩
      · exact ht x hx
      · exact ha.snapshots s hmem x hx
    cases h with
    | @commitWrite op g n n' t d rs bs _ hok _ _ _ _ =>
        refine hput hsm fun y hy => ?_
        rcases mem_mergeParts hok.merged hy with hy | ⟨z, hz, rfl⟩
        · exact ha.snapshots d (Table.mem_of_get hok.current.2.2.2) y hy
        · obtain ⟨-, -, -, -, r, hr, href⟩ := hok.replaces z hz
          have hsize := ha.sizes r (Table.mem_of_get hr)
          rwa [href] at hsize
    | commitUpload _ hok _ _ => exact hput hsm (hok.sizes hs hv ha)
    | createFile _ he _ _ _ => exact hput hsm fun y hy => by simp [he.blocks] at hy
    | truncate _ _ _ he _ _ _ => exact hput hsm fun y hy => by simp [he.blocks] at hy
    | dropSnapshot _ _ => exact ha.snapshots s (Table.mem_delete.mp hsm).1 x hx
    | _ => exact ha.snapshots s hsm x hx

/-- **The records agree with the contents after every sequence of actions.** -/
theorem Acts.holds (hs : Sound app a) (hv : a.Versioned) (h : Acts app c.trust a b)
    (ha : c.Holds a) : c.Holds b := by
  induction h with
  | refl => exact ha
  | tail hacts hact ih => exact hact.holds (hs.acts hacts) (Acts.versioned hacts hv) ih

/-! ## Merging -/

/-- The content of the base of a part is that of the block at its place. -/
theorem Contents.base_baseOf {size : Nat} {blocks : List BlockRef}
    (h : Manifest file size B blocks) (i : Nat) :
    c.base (baseOf blocks file i) = (blocks.map fun b => c.block b.blockVersionId).getD i [] := by
  rw [baseOf, List.getD_eq_getElem?_getD, List.getElem?_map]
  cases hget : blocks[i]? with
  | none => simp [Contents.base, BlockRef.absent]
  | some b => simp [Contents.base, (h.index i b hget).2.2]

/-- The lengths of the contents cut the file as its manifest says. -/
theorem Contents.cut {size : Nat} {blocks : List BlockRef} (h : Manifest file size B blocks)
    (hsizes : ∀ b ∈ blocks, (c.block b.blockVersionId).length = b.sizeBytes) :
    Cut B size ((blocks.map fun b => c.block b.blockVersionId).map List.length) := by
  have heq : (blocks.map fun b => c.block b.blockVersionId).map List.length =
      blocks.map BlockRef.sizeBytes := by
    rw [List.map_map]
    exact List.map_congr_left hsizes
  rw [heq]
  exact h.cut

/-- What is written from a place on is what is written there, and the rest. -/
theorem drop_eq_slice_append (l : Bytes) (i n : Nat) :
    l.drop i = slice l i n ++ l.drop (i + n) := by
  rw [slice, ← List.drop_drop, List.take_append_drop]

/-- **The content of a merged manifest**: the rest of the delta overwrites the file from the first
part on. -/
theorem Contents.merge (hB : 0 < B) {offset : Nat} {delta : Bytes} {parts : List Part} :
    ∀ {cursor size : Nat} {rs blocks blocks' : List BlockRef}, Manifest file size B blocks →
      (∀ b ∈ blocks, (c.block b.blockVersionId).length = b.sizeBytes) →
      Partitioned offset delta.length B cursor (parts.map Part.part) → offset + cursor ≤ size →
      (∀ p ∈ parts, p.base.blockIndex = p.part.blockIndex) → rs.length = parts.length →
      (∀ x ∈ parts.zip rs, Replaces file x) →
      (∀ x ∈ parts.zip rs, (c.block x.2.blockVersionId).length = x.2.sizeBytes ∧
        c.block x.2.blockVersionId = overwrite (c.base x.1.base) x.1.part.blockOffset
          (slice delta x.1.part.deltaOffset x.1.part.length)) →
      mergeParts file (parts.zip rs) blocks = some blocks' →
      c.manifest blocks' =
        overwrite (c.manifest blocks) (offset + cursor) (delta.drop cursor) := by
  induction parts with
  | nil =>
      intro cursor size rs blocks blocks' _ _ hp _ _ _ _ _ h
      simp only [List.zip_nil_left, mergeParts, Option.some.injEq] at h
      have hc : cursor = delta.length := hp
      rw [← h, hc, List.drop_length, overwrite_nil]
  | cons p parts ih =>
      intro cursor size rs blocks blocks' hm hsizes hp hle hidx hlen hrep hover h
      obtain ⟨r, rs, rfl⟩ := List.exists_cons_of_length_eq_add_one hlen
      simp only [List.map_cons, Partitioned] at hp
      obtain ⟨hpos, hcut, hindex, hoff, hdelta, hrest⟩ := hp
      rw [List.zip_cons_cons] at h hrep hover
      obtain ⟨hbase, -, hmerge⟩ := mergeParts_cons h
      obtain ⟨h1, h2, h3, h4⟩ := hrep _ List.mem_cons_self
      obtain ⟨hsize, hcontent⟩ := hover _ List.mem_cons_self
      have hb : p.base.blockIndex = (offset + cursor) / B :=
        (hidx p List.mem_cons_self).trans hindex
      have hfit := part_fits hB hcut
      have hend : cursor + p.part.length ≤ delta.length := by omega
      have hpiece : (slice delta cursor p.part.length).length = p.part.length := by
        rw [slice, List.length_take, List.length_drop]
        omega
      have hstep := hm.splice (r := r) hB hle hpos hfit (h1.trans hb) h2 h3
        (by rw [← hb, hbase, ← hoff]; exact h4)
      -- The first part overwrites one segment of the content.
      have hfirst : c.manifest (splice blocks ((offset + cursor) / B) r) =
          overwrite (c.manifest blocks) (offset + cursor) (slice delta cursor p.part.length) := by
        have hold := Contents.base_baseOf (c := c) hm ((offset + cursor) / B)
        rw [Contents.manifest, map_splice, hcontent, ← hbase, hb, hold, hoff, hdelta]
        exact flatten_splice (Contents.cut hm hsizes) hB hle (by rw [hpiece]; exact hfit)
      rw [hb] at hmerge
      have hnext := ih hstep (fun x hx => ?_) hrest (by omega)
        (fun q hq => hidx q (List.mem_cons_of_mem _ hq)) (by simpa using hlen)
        (fun x hx => hrep x (List.mem_cons_of_mem _ hx))
        (fun x hx => hover x (List.mem_cons_of_mem _ hx)) hmerge
      · have hlength : offset + cursor ≤ (c.manifest blocks).length := by
          rw [Contents.manifest, length_flatten (Contents.cut hm hsizes) hB]
          exact hle
        calc c.manifest blocks'
            = overwrite (overwrite (c.manifest blocks) (offset + cursor)
                (slice delta cursor p.part.length)) (offset + cursor + p.part.length)
                (delta.drop (cursor + p.part.length)) := by rw [hnext, hfirst, Nat.add_assoc]
          _ = overwrite (c.manifest blocks) (offset + cursor)
                (slice delta cursor p.part.length ++ delta.drop (cursor + p.part.length)) := by
              have hover := overwrite_overwrite (d := slice delta cursor p.part.length)
                (e := delta.drop (cursor + p.part.length)) hlength
              rwa [hpiece] at hover
          _ = overwrite (c.manifest blocks) (offset + cursor) (delta.drop cursor) := by
              rw [← drop_eq_slice_append]
      · rcases mem_splice hx with rfl | hx
        · exact hsize
        · exact hsizes x hx

/-- **The content of a snapshot that a write publishes**: that of the snapshot that its file has,
with the delta written into it. -/
theorem CommitWriteOk.content (hs : Sound app a) (ha : c.Holds a) {op : Operation} {h : Handle}
    {n : Node} {s d : Snapshot} {rs bs : List BlockRef} {delta : Bytes}
    (hok : CommitWriteOk a op h n s d rs bs) (hd : c.Delta op delta) :
    op.offset ≤ (c.manifest d.blocks).length ∧
      c.manifest bs = overwrite (c.manifest d.blocks) op.offset delta := by
  have hop := Table.mem_of_get hok.stored
  have hw : op.writing := ⟨hok.kind, hok.state⟩
  have shape := hs.writeShape op hop hw
  have hB := block_pos shape.block_mem
  have hmem := Table.mem_of_get hok.current.2.2.2
  obtain ⟨-, hfile, -, hle, hblock, -⟩ := hs.commit_facts hok
  have hm := (hs.snapshotShape d hmem).manifest
  rw [hfile, hblock] at hm
  have hoff := shape.offset_le
  have hlength : (c.manifest d.blocks).length = d.ref.sizeBytes :=
    length_flatten (Contents.cut hm (ha.snapshots d hmem)) hB
  refine ⟨by omega, ?_⟩
  have hmerge := Contents.merge (c := c) hB hm (ha.snapshots d hmem)
    (by rw [hd.length]; exact shape.partition) (by omega) shape.base_index hok.length_eq
    (hs.replaces_of_commit hok) (fun x hx => ?_) hok.merged
  · simpa using hmerge
  · obtain ⟨hversion, -, -, -, r, hr, href⟩ := hok.replaces x hx
    have hp := (List.of_mem_zip hx).1
    have hover := ha.patched op hop hw x.1 hp (by rw [← hversion, hr]; rfl)
    have hsize := ha.sizes r (Table.mem_of_get hr)
    rw [href] at hsize
    refine ⟨hsize, ?_⟩
    rw [hversion, hover.content, hd.piece x.1 hp]

/-- Pieces that follow each other make up a delta. -/
theorem exists_delta {offset length : Nat} {parts : List Part} :
    ∀ {cursor : Nat} {before : Bytes}, before.length = cursor →
      Partitioned offset length B cursor (parts.map Part.part) →
      (∀ p ∈ parts, (c.preimage p.part.deltaSha256).length = p.part.length) →
      ∃ delta, before <+: delta ∧ delta.length = length ∧ ∀ p ∈ parts,
        c.preimage p.part.deltaSha256 = slice delta p.part.deltaOffset p.part.length := by
  induction parts with
  | nil =>
      intro cursor before hb h _
      exact ⟨before, List.prefix_refl _, hb.trans h, fun _ hp => absurd hp List.not_mem_nil⟩
  | cons p parts ih =>
      rintro cursor before hb ⟨-, -, -, -, hdelta, hrest⟩ hlen
      have hp := hlen p List.mem_cons_self
      have hlonger : (before ++ c.preimage p.part.deltaSha256).length =
          cursor + p.part.length := by
        rw [List.length_append, hb, hp]
      obtain ⟨delta, ⟨rest, hpre⟩, hdl, hpieces⟩ :=
        ih hlonger hrest fun q hq => hlen q (List.mem_cons_of_mem _ hq)
      refine ⟨delta, ⟨_, by rw [← hpre, List.append_assoc]⟩, hdl, fun q hq => ?_⟩
      rcases List.mem_cons.mp hq with rfl | hq
      · rw [← hpre, hdelta, ← hb, ← hp]
        simp [slice]
      · exact hpieces q hq

/-- A delta is determined by its pieces. -/
theorem delta_unique {offset length : Nat} {parts : List Part} {d e : Bytes}
    (hd : d.length = length) (he : e.length = length) :
    ∀ {cursor : Nat}, Partitioned offset length B cursor (parts.map Part.part) →
      (∀ p ∈ parts, slice d p.part.deltaOffset p.part.length =
        slice e p.part.deltaOffset p.part.length) → d.drop cursor = e.drop cursor := by
  induction parts with
  | nil =>
      intro cursor h _
      have hend : cursor = length := h
      rw [List.drop_eq_nil_of_le (by omega), List.drop_eq_nil_of_le (by omega)]
  | cons p parts ih =>
      rintro cursor ⟨-, -, -, -, hdelta, hrest⟩ hpieces
      have hp := hpieces p List.mem_cons_self
      have htail := ih hrest fun q hq => hpieces q (List.mem_cons_of_mem _ hq)
      rw [hdelta] at hp
      rw [drop_eq_slice_append d cursor p.part.length, drop_eq_slice_append e cursor p.part.length,
        hp, htail]

theorem Contents.Delta.unique {op : Operation} {d e : Bytes} (shape : WriteShape op)
    (hd : c.Delta op d) (he : c.Delta op e) : d = e := by
  have hall := delta_unique hd.length he.length shape.partition fun p hp =>
    (hd.piece p hp).symm.trans (he.piece p hp)
  simpa using hall

/-- **The delta of a write that commits** is what its parts were declared with. -/
theorem CommitWriteOk.delta (hs : Sound app a) (ha : c.Holds a) {op : Operation} {h : Handle}
    {n : Node} {s d : Snapshot} {rs bs : List BlockRef} (hok : CommitWriteOk a op h n s d rs bs) :
    ∃ delta, c.Delta op delta := by
  have hop := Table.mem_of_get hok.stored
  have hw : op.writing := ⟨hok.kind, hok.state⟩
  have hlen : ∀ p ∈ op.parts, (c.preimage p.part.deltaSha256).length = p.part.length := by
    intro p hp
    have hzip : p ∈ (op.parts.zip rs).map Prod.fst := by
      rw [List.map_fst_zip (le_of_eq hok.length_eq.symm)]
      exact hp
    obtain ⟨x, hx, rfl⟩ := List.mem_map.mp hzip
    obtain ⟨hversion, -, -, -, r, hr, -⟩ := hok.replaces x hx
    exact (ha.patched op hop hw x.1 hp (by rw [← hversion, hr]; rfl)).length
  have hnil : ([] : Bytes).length = 0 := rfl
  obtain ⟨delta, -, hdl, hpieces⟩ :=
    exists_delta (c := c) hnil (hs.writeShape op hop hw).partition hlen
  exact ⟨delta, hdl, hpieces⟩

/-- **The content of a snapshot that an upload publishes** is what was sent. -/
theorem CommitUploadOk.content (hs : Sound app a) {op : Operation} {n : Node}
    {blocks : List BlockRef} {bytes : Bytes} (hok : CommitUploadOk a op n blocks)
    (hb : c.Sends op bytes) : c.manifest blocks = bytes := by
  have shape := hs.uploadShape op (Table.mem_of_get hok.stored) ⟨hok.kind, hok.state⟩
  have hB := block_pos shape.block_mem
  have hcontent : ∀ b ∈ blocks, c.block b.blockVersionId =
      slice bytes (b.blockIndex * op.blockSize) op.blockSize := by
    intro b hmem
    obtain ⟨page, hpage, hbp⟩ := hok.paged b hmem
    obtain ⟨i, halloc⟩ := shape.paged page hpage b hbp
    exact hb.block _ halloc
  have hcover : bytes.length ≤ blocks.length * op.blockSize := by
    rw [hok.count, hb.length, blockCount]
    have := Nat.lt_div_mul_add (a := op.total + op.blockSize - 1) hB
    omega
  calc c.manifest blocks
      = ((blocks.map BlockRef.blockIndex).map fun i =>
          slice bytes (i * op.blockSize) op.blockSize).flatten := by
        rw [Contents.manifest, List.map_map]
        exact congrArg List.flatten (List.map_congr_left hcontent)
    _ = bytes.take (blocks.length * op.blockSize) := by rw [hok.indexed, flatten_cuts]
    _ = bytes := List.take_of_length_le hcover

/-! ## Publication -/

/-- **What the action that commits an operation publishes.** -/
theorem Act.published (h : Act app trust a b) {k : Id} {o p : Operation}
    (ho : a.uploads.get k = some o) (hp : b.uploads.get k = some p)
    (hst : o.state ≠ .committed) (hc : p.state = .committed) :
    (∃ g n s d rs bs, CommitWriteOk a o g n s d rs bs ∧
      b.snapshots = a.snapshots.put ⟨app.uuid a.issued, g.file,
        writtenRef app o d (app.uuid a.issued) g.file bs, bs⟩) ∨
    ∃ n s, CommitUploadOk a o n s.blocks ∧ s.id = app.uuid a.issued ∧ s.file = o.file ∧
      b.snapshots = a.snapshots.put s := by
  -- Every other action that writes an operation leaves it uncommitted, or is about another one.
  have hput : ∀ {q : Operation}, (a.uploads.put q).get k = some p → k = q.id ∧ p = q := by
    intro q hq
    rw [Table.get_put] at hq
    split at hq
    · cases hq
      exact ⟨‹_›, rfl⟩
    · rw [ho, Option.some.injEq] at hq
      exact absurd (hq ▸ hc) hst
  have hnew : ∀ {q : Operation}, Fresh app a q.id → (a.uploads.put q).get k = some p → False := by
    intro q hf hq
    rw [(hput hq).1, get_none_of_unused_upload hf.2] at ho
    cases ho
  have hold : ∀ {x q : Operation}, (a.uploads.put q).get k = some p →
      a.uploads.get q.id = some x → (q.state = .committed → x.state = .committed) → False := by
    intro x q hq hg hs
    obtain ⟨hk, hpq⟩ := hput hq
    rw [hk, hg, Option.some.injEq] at ho
    exact hst (ho ▸ hs (hpq ▸ hc))
  cases h with
  | recordOp _ _ hf _ _ _ _ _ => exact (hnew hf hp).elim
  | beginWrite _ hb => exact (hnew hb.fresh hp).elim
  | beginPlain _ _ hplan _ => exact (hnew hplan.fresh hp).elim
  | beginUpload _ hb => exact (hnew hb.fresh hp).elim
  | touchOp e res hg _ _ => exact (hold hp hg id).elim
  | spendOp r hg _ => exact (hold hp hg id).elim
  | sealOp hg _ => exact (hold hp hg id).elim
  | capture q hg _ => exact (hold hp hg id).elim
  | stage hg _ _ => exact (hold hp hg id).elim
  | allocate hok => exact (hold hp hok.stored id).elim
  | @endOp op state hg _ hend =>
      refine (hold hp hg fun hstate => ?_).elim
      have hstate' : state = .committed := hstate
      rcases hend with rfl | rfl <;> cases hstate'
  | @commitWrite op g n n' s d rs bs _ hok _ _ _ _ =>
      obtain rfl : op = o := Option.some.inj (hok.stored.symm.trans ((hput hp).1 ▸ ho))
      exact .inl ⟨g, n, s, d, rs, bs, hok, rfl⟩
  | @commitUpload op n s _ hok hu _ =>
      obtain rfl : op = o := Option.some.inj (hok.stored.symm.trans ((hput hp).1 ▸ ho))
      exact .inr ⟨n, s, hok, hu.id_eq, hu.file_eq, rfl⟩
  | _ =>
      have hop : o = p := Option.some.inj (ho.symm.trans hp)
      exact absurd (hop ▸ hc) hst

/-- **A snapshot that an action stores** is the one that its file gets.  It is that of the operation
which the action commits, or empty. -/
theorem Act.stores (h : Act app trust a b) {s : Snapshot} (hs : s ∈ b.snapshots.all)
    (hnew : s ∉ a.snapshots.all) :
    (∃ n, b.nodes.get s.file = some n ∧ n.snapshot = some s.id) ∧
      (s.blocks = [] ∨ ∃ op p, a.uploads.get op.id = some op ∧ op.state = .preparing ∧
        b.uploads.get op.id = some p ∧ p.state = .committed) := by
  have hput : ∀ {t : Snapshot}, s ∈ (a.snapshots.put t).all → s = t := fun hmem =>
    (Table.mem_put.mp hmem).resolve_right fun hold => hnew hold.1
  have hnode : ∀ {n : Node}, n.id = s.file → n.snapshot = some s.id →
      ∃ m, (a.nodes.put n).get s.file = some m ∧ m.snapshot = some s.id := fun {n} hid hsnap =>
    ⟨n, hid ▸ Table.get_put_self a.nodes n, hsnap⟩
  have hdone : ∀ (op : Operation) (result : Option CommitResult),
      (a.uploads.put { op with state := .committed, result := result, reserved := 0 }).get op.id =
        some { op with state := .committed, result := result, reserved := 0 } := fun op result =>
    Table.get_put_self a.uploads { op with state := .committed, result := result, reserved := 0 }
  cases h with
  | commitWrite result hok same _ hsnap _ =>
      obtain rfl := hput hs
      have hid := same.1.trans (node_id_of_get hok.current.1)
      exact ⟨hnode hid hsnap, .inr ⟨_, _, hok.stored, hok.state, hdone _ result, rfl⟩⟩
  | commitUpload result hok hu _ =>
      obtain rfl := hput hs
      exact ⟨hnode (hok.node_id.trans hu.file_eq.symm) hu.node_eq,
        .inr ⟨_, _, hok.stored, hok.state, hdone _ result, rfl⟩⟩
  | createFile _ he _ _ _ =>
      obtain rfl := hput hs
      exact ⟨hnode he.file_eq.symm he.node, .inl he.blocks⟩
  | truncate _ _ _ he _ _ _ =>
      obtain rfl := hput hs
      exact ⟨hnode he.file_eq.symm he.node, .inl he.blocks⟩
  | dropSnapshot _ _ => exact absurd (Table.mem_delete.mp hs).1 hnew
  | _ => exact absurd hs hnew

/-- An action writes one operation at most. -/
theorem Act.writes_one (h : Act app trust a b) :
    ∃ k, ∀ j, j ≠ k → b.uploads.get j = a.uploads.get j := by
  cases h <;> first
    | exact ⟨_, fun _ hj => Table.get_put_of_ne _ hj⟩
    | exact ⟨0, fun _ _ => rfl⟩

/-- A node that is alive was not removed before. -/
theorem Act.undead (hs : Sound app a) (h : Act app trust a b) {f : Id} {n m : Node}
    (hn : a.nodes.get f = some n) (hm : b.nodes.get f = some m) (halive : m.alive = true) :
    n.alive = true := by
  have hput : ∀ {x y : Node}, (a.nodes.put x).get f = some m → a.nodes.get x.id = some y →
      (x.alive = true → y.alive = true) → n.alive = true := by
    intro x y hx hy hxy
    rw [Table.get_put] at hx
    split at hx
    · rename_i hk
      have hk' : f = x.id := hk
      obtain rfl : x = m := Option.some.inj hx
      obtain rfl : n = y := Option.some.inj (hn.symm.trans (hk' ▸ hy))
      exact hxy halive
    · exact Option.some.inj (hn.symm.trans hx) ▸ halive
  have hfresh : ∀ {x : Node}, (a.nodes.put x).get f = some m → a.nodes.get x.id = none →
      n.alive = true := by
    intro x hx hnone
    rw [Table.get_put] at hx
    split at hx
    · rename_i hk
      have hk' : f = x.id := hk
      rw [← hk', hn] at hnone
      cases hnone
    · exact Option.some.inj (hn.symm.trans hx) ▸ halive
  cases h with
  | touchNode hg _ hal _ => exact hput hm hg fun h => hal ▸ h
  | newDirectory hf _ _ => exact hfresh hm (get_none_of_unused_node hf.2)
  | removeNode hg _ hdead _ _ => exact hput hm hg fun h => absurd h (by simp [hdead])
  | commitWrite _ hok same _ _ _ =>
      have hid := node_id_of_get hok.current.1
      exact hput hm (by rw [same.1, hid]; exact hok.current.1) fun _ => hok.current.2.1
  | @commitUpload op x s _ hok _ _ =>
      cases hb : op.base with
      | none =>
          refine hfresh hm ?_
          rw [hok.node_id]
          exact (hs.uploadNew op (Table.mem_of_get hok.stored) ⟨hok.kind, hok.state⟩ hb).1
      | some k =>
          obtain ⟨y, hy, hal, -⟩ := hok.replaces k hb
          exact hput hm (hok.node_id ▸ hy) fun _ => hal
  | createFile hf _ _ _ _ => exact hfresh hm (get_none_of_unused_node hf.2)
  | truncate hcur _ _ _ _ _ _ => exact hput hm hcur.1 fun _ => hcur.2.1
  | _ => exact Option.some.inj (hn.symm.trans hm) ▸ halive

theorem Acts.undead (hs : Sound app a) (h : Acts app trust a b) {f : Id} {n m : Node}
    (hn : a.nodes.get f = some n) (hm : b.nodes.get f = some m) (halive : m.alive = true) :
    n.alive = true := by
  induction h generalizing m with
  | refl => exact Option.some.inj (hn.symm.trans hm) ▸ halive
  | @tail x y hacts hact ih =>
      obtain ⟨k, hk, -⟩ := Acts.nodes hs hacts f n hn
      exact ih hk (hact.undead (hs.acts hacts) hk hm halive)

end Dfsha
