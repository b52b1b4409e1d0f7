import Dfsha.Lib.Ranges
import Dfsha.Protocol.Reserves
import Mathlib.Data.Finset.Range
import Mathlib.Data.Finset.Card

/-!
# The pages of an upload

A manifest is staged in pages of 64 blocks, in any order and as often as a client likes.  A page is
checked against what is allocated at its places, so that there is one page for each place, and one
manifest that the pages can make up.

## Main definitions

* `Operation.places` — what is allocated at the places of a file.
* `Operation.Staged` — each page is staged once, and is that of its place.
* `Remains` — what is allocated and what is staged stays.

## Main results

* `PageOk.slice_eq` — a page is a part of what is allocated.
* `Operation.Staged.complete_iff`, `Operation.Staged.assembled` — when all pages are there, and what
  they make up.
* `Acts.staged`, `Acts.remains` — along the actions of a run.
-/

namespace Dfsha

variable {app : App} {trust : Trust} {a b : Access} {op : Operation}

/-! ## Places -/

/-- How many pages it takes for so many blocks. -/
def pageCount (count : Nat) : Nat := (count + 63) / 64

/-- What is allocated at the places of a file. -/
def Operation.places (op : Operation) : List (Option BlockRef) :=
  (List.range (blockCount op.total op.blockSize)).map op.allocation

/-- All pages are staged. -/
def Operation.Complete (op : Operation) : Prop :=
  ∀ i < pageCount (blockCount op.total op.blockSize), ∃ page, (i, page) ∈ op.pages

@[simp] theorem Operation.length_places (op : Operation) :
    op.places.length = blockCount op.total op.blockSize := by
  simp [Operation.places]

/-- Only a page that begins before the end has blocks. -/
theorem lt_pageCount_iff {i count : Nat} : i < pageCount count ↔ i * 64 < count := by
  unfold pageCount
  omega

theorem PageOk.lt {i : Nat} {page : List BlockRef} (h : PageOk op i page) :
    i < pageCount (blockCount op.total op.blockSize) := by
  have hpos := h.pos
  have hlength := h.length_eq
  rw [lt_pageCount_iff]
  omega

/-- **A page is a part of what is allocated.** -/
theorem PageOk.slice_eq {i : Nat} {page : List BlockRef} (h : PageOk op i page) :
    page.map some = slice op.places (i * 64) 64 := by
  have hlength := h.length_eq
  ext1 j
  by_cases hj : j < page.length
  · have hplaced := h.placed (page[j], i * 64 + j) (by
      rw [List.mk_mem_zipIdx_iff_le_and_getElem?_sub]
      simp [hj])
    have hin : i * 64 + j < blockCount op.total op.blockSize := by omega
    have hfew : j < 64 := by omega
    simp [slice, Operation.places, hj, hin, hfew, hplaced.2]
  · have hout : ¬ (j < 64 ∧ i * 64 + j < blockCount op.total op.blockSize) := by omega
    rw [List.getElem?_eq_none (by simpa using hj), List.getElem?_eq_none]
    simp only [slice, List.length_take, List.length_drop, Operation.length_places]
    omega

/-- At one place there is one page. -/
theorem PageOk.unique {i : Nat} {page page' : List BlockRef} (h : PageOk op i page)
    (h' : PageOk op i page') : page = page' := by
  have hsame : page.map some = page'.map some := h.slice_eq.trans h'.slice_eq.symm
  exact (List.map_injective_iff.mpr (Option.some_injective _)) hsame

/-! ## Pages -/

/-- Each page is staged once, and is that of its place. -/
structure Operation.Staged (op : Operation) : Prop where
  nodup : (op.pages.map Prod.fst).Nodup
  page : ∀ p ∈ op.pages, PageOk op p.1 p.2

/-- **All pages are there when there are as many as it takes.** -/
theorem Operation.Staged.complete_iff (h : op.Staged) :
    op.pages.length = pageCount (blockCount op.total op.blockSize) ↔ op.Complete := by
  let indices : Finset Nat := (op.pages.map Prod.fst).toFinset
  have hcard : indices.card = op.pages.length := by
    rw [List.toFinset_card_of_nodup h.nodup, List.length_map]
  have hsub : indices ⊆ Finset.range (pageCount (blockCount op.total op.blockSize)) := by
    intro i hi
    obtain ⟨p, hp, rfl⟩ := List.mem_map.mp (List.mem_toFinset.mp hi)
    exact Finset.mem_range.mpr (h.page p hp).lt
  constructor
  · intro hlength i hi
    have hall := Finset.eq_of_subset_of_card_le hsub (by rw [hcard, hlength, Finset.card_range])
    have hmem : i ∈ indices := hall ▸ Finset.mem_range.mpr hi
    obtain ⟨p, hp, rfl⟩ := List.mem_map.mp (List.mem_toFinset.mp hmem)
    exact ⟨p.2, hp⟩
  · intro hall
    have hrange : Finset.range (pageCount (blockCount op.total op.blockSize)) ⊆ indices := by
      intro i hi
      obtain ⟨page, hpage⟩ := hall i (Finset.mem_range.mp hi)
      exact List.mem_toFinset.mpr (List.mem_map_of_mem hpage)
    have heq := Finset.Subset.antisymm hsub hrange
    rw [← hcard, heq, Finset.card_range]

/-- A page that is staged is found under its number. -/
theorem Operation.Staged.lookup (h : op.Staged) {i : Nat} {page : List BlockRef}
    (hmem : (i, page) ∈ op.pages) : op.pages.lookup i = some page := by
  cases hl : op.pages.lookup i with
  | none =>
      have hnone := List.lookup_eq_none_iff.mp hl _ hmem
      simp at hnone
  | some other =>
      obtain ⟨l₁, l₂, he, -⟩ := List.lookup_eq_some_iff.mp hl
      have hother : (i, other) ∈ op.pages := by simp [he]
      have hi : PageOk op i other := h.page _ hother
      rw [hi.unique (h.page _ hmem)]

/-- **What all pages make up** is what is allocated. -/
theorem Operation.Staged.assembled (h : op.Staged) (hall : op.Complete) :
    op.assembled.map some = op.places := by
  have hlength := h.complete_iff.mpr hall
  have hpage : ∀ i ∈ List.range op.pages.length,
      ((op.pages.lookup i).getD []).map some = slice op.places (i * 64) 64 := by
    intro i hi
    rw [List.mem_range, hlength] at hi
    obtain ⟨page, hmem⟩ := hall i hi
    rw [h.lookup hmem, Option.getD_some]
    exact (h.page _ hmem).slice_eq
  calc op.assembled.map some
      = ((List.range op.pages.length).map fun i => slice op.places (i * 64) 64).flatten := by
        rw [Operation.assembled, List.map_flatMap, List.flatMap_def]
        exact congrArg List.flatten (List.map_congr_left hpage)
    _ = op.places.take (op.pages.length * 64) := flatten_cuts _ _ _
    _ = op.places := by
        refine List.take_of_length_le ?_
        rw [Operation.length_places, hlength, pageCount]
        omega

/-! ## Along a run -/

/-- A page stays that of its place when more is allocated. -/
theorem PageOk.mono {p : Operation} {i : Nat} {page : List BlockRef} (h : PageOk op i page)
    (htotal : p.total = op.total) (hsize : p.blockSize = op.blockSize)
    (halloc : ∀ j b, op.allocation j = some b → p.allocation j = some b) : PageOk p i page where
  pos := h.pos
  length_eq := by rw [htotal, hsize, h.length_eq]
  placed x hx := ⟨(h.placed x hx).1, halloc _ _ (h.placed x hx).2⟩

/-- What is allocated and what is staged stays. -/
structure Remains (o p : Operation) : Prop where
  allocation : ∀ i b, o.allocation i = some b → p.allocation i = some b
  pages : ∀ x ∈ o.pages, x ∈ p.pages

theorem Remains.refl (o : Operation) : Remains o o := ⟨fun _ _ => id, fun _ => id⟩

theorem Remains.trans {o p q : Operation} (h : Remains o p) (h' : Remains p q) : Remains o q :=
  ⟨fun i b hb => h'.allocation i b (h.allocation i b hb), fun x hx => h'.pages x (h.pages x hx)⟩

/-- The uploads are staged. -/
def Access.Staged (a : Access) : Prop := ∀ op ∈ a.uploads.all, op.kind = .upload → op.Staged

/-- A page that is staged again is the page that was there. -/
theorem Operation.Staged.restaged (h : op.Staged) {i : Nat} {page : List BlockRef}
    (hp : PageOk op i page) : (op.staged i page).Staged ∧ Remains op (op.staged i page) := by
  refine ⟨⟨?_, fun x hx => ?_⟩, ⟨fun _ _ hb => hb, fun x hx => ?_⟩⟩
  · rw [Operation.staged, List.map_cons, List.nodup_cons]
    constructor
    · intro hmem
      obtain ⟨x, hx, he⟩ := List.mem_map.mp hmem
      have hne := (List.mem_filter.mp hx).2
      simp [he] at hne
    · exact (h.nodup.sublist (List.filter_sublist.map _))
  · rcases List.mem_cons.mp hx with rfl | hx
    · exact ⟨hp.pos, hp.length_eq, hp.placed⟩
    · have hold := h.page x (List.mem_filter.mp hx).1
      exact ⟨hold.pos, hold.length_eq, hold.placed⟩
  · by_cases hi : x.1 = i
    · have hsame : page = x.2 := hp.unique (hi ▸ h.page x hx)
      have he : (i, page) = x := by rw [hsame, ← hi]
      exact List.mem_cons.mpr (.inl he.symm)
    · exact List.mem_cons.mpr (.inr (List.mem_filter.mpr ⟨hx, by simpa using hi⟩))

/-- **How one action changes what is staged.** -/
theorem Act.staged (h : Act app trust a b) (ha : a.Staged) :
    b.Staged ∧ a.uploads.Grows (fun o p => o.kind = .upload → Remains o p) b.uploads := by
  have hput : ∀ {p : Operation}, (p.kind = .upload → p.Staged) →
      ∀ op ∈ (a.uploads.put p).all, op.kind = .upload → op.Staged := by
    intro p hp op hop
    rcases Table.mem_put.mp hop with rfl | hop
    · exact hp
    · exact ha op hop.1
  have hempty : ∀ {p : Operation}, p.pages = [] → p.Staged := fun he =>
    ⟨by simp [he], by simp [he]⟩
  have hold : ∀ {o p : Operation}, a.uploads.get p.id = some o → p.kind = o.kind →
      p.pages = o.pages → p.total = o.total → p.blockSize = o.blockSize →
      (∀ i b, o.allocation i = some b → p.allocation i = some b) →
      (∀ op ∈ (a.uploads.put p).all, op.kind = .upload → op.Staged) ∧
        a.uploads.Grows (fun o p => o.kind = .upload → Remains o p) (a.uploads.put p) := by
    intro o p hg hk hpages htotal hsize halloc
    refine ⟨hput fun hkind => ?_, .put_old (fun _ _ => .refl _) hg fun _ =>
      ⟨halloc, fun x hx => hpages ▸ hx⟩⟩
    have hs := ha o (Table.mem_of_get hg) (hk ▸ hkind)
    refine ⟨hpages ▸ hs.nodup, fun x hx => ?_⟩
    exact (hs.page x (hpages ▸ hx)).mono htotal hsize halloc
  have hnew : ∀ {p : Operation}, Fresh app a p.id →
      a.uploads.Grows (fun o p => o.kind = .upload → Remains o p) (a.uploads.put p) := fun hf =>
    .put_new (fun _ _ => .refl _) (get_none_of_unused_upload hf.2)
  cases h with
  | recordOp _ _ hf _ _ _ _ _ he => exact ⟨hput fun _ => hempty he, hnew hf⟩
  | beginWrite _ hb =>
      refine ⟨hput fun hkind => ?_, hnew hb.fresh⟩
      rw [hb.kind] at hkind
      cases hkind
  | beginPlain _ _ hp _ => exact ⟨hput fun _ => hempty hp.pages, hnew hp.fresh⟩
  | beginUpload _ hb => exact ⟨hput fun _ => hempty hb.pages, hnew hb.fresh⟩
  | touchOp _ _ hg _ _ => exact hold hg rfl rfl rfl rfl fun _ _ hb => hb
  | spendOp _ hg _ => exact hold hg rfl rfl rfl rfl fun _ _ hb => hb
  | sealOp hg _ => exact hold hg rfl rfl rfl rfl fun _ _ hb => hb
  | capture _ hg _ => exact hold hg rfl rfl rfl rfl fun _ _ hb => hb
  | endOp hg _ _ => exact hold hg rfl rfl rfl rfl fun _ _ hb => hb
  | @stage op i page hg _ hp =>
      refine ⟨hput fun hkind => ((ha op (Table.mem_of_get hg) hkind).restaged hp).1,
        .put_old (fun _ _ => .refl _) hg fun hkind => ?_⟩
      exact ((ha op (Table.mem_of_get hg) hkind).restaged hp).2
  | @allocate op x hok =>
      refine hold hok.stored rfl rfl rfl rfl fun i b hb => ?_
      have hlookup : (op.allocations ++ [(x.blockIndex, x)]).lookup i = some b := by
        rw [List.lookup_append, show op.allocations.lookup i = some b from hb, Option.some_or]
      exact hlookup
  | commitWrite _ hc _ _ _ => exact hold hc.stored rfl rfl rfl rfl fun _ _ hb => hb
  | commitUpload _ hc _ => exact hold hc.stored rfl rfl rfl rfl fun _ _ hb => hb
  | _ => exact ⟨ha, .refl (fun _ _ => .refl _) _⟩

/-- The uploads stay staged. -/
theorem Acts.staged (h : Acts app trust a b) (ha : a.Staged) : b.Staged :=
  Acts.keep (fun hact hs => (Act.staged hact hs).1) h ha

/-- **What is allocated and what is staged stays.** -/
theorem Acts.remains (h : Acts app trust a b) (ha : a.Staged) :
    a.uploads.Grows (fun o p => o.kind = .upload → Remains o p) b.uploads := by
  induction h with
  | refl => exact .refl (fun _ _ => .refl _) _
  | @tail u v hacts hact ih =>
      intro k o ho
      obtain ⟨p, hp, hremains⟩ := ih k o ho
      obtain ⟨q, hq, hmore⟩ := (Act.staged hact (Acts.staged hacts ha)).2 k p hp
      obtain ⟨p', hp', hev⟩ := Acts.uploads hacts k o ho
      obtain rfl := Option.some.inj (hp.symm.trans hp')
      exact ⟨q, hq, fun hkind => (hremains hkind).trans (hmore (hev.kind_eq.trans hkind))⟩

end Dfsha
