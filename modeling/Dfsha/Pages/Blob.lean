import Dfsha.Lib.Encoding
import Dfsha.Pages.Writing

/-!
# The pages of a byte string

Which pages `blob` creates depends on nothing but the byte string and on how addresses are computed:
the leaves, index pages over them until 64 are left, and an index page on top.  Leaves and index
pages have addresses of one kind, and are told apart by the byte that they begin with.

An address is a digest in hexadecimal digits, so 64 of them fit on a page.  That addresses are
collision free is assumed of the pages of the byte string and of those that are cached, since no
digest of bounded length is collision free for all payloads.

## Main definitions

* `blobPages`, `blobRoot` — the pages of a byte string, and the address of the one on top.
* `Codec.Hexadecimal` — how long an address is.

## Main results

* `blob_eq` — `blob` writes these pages and no others.
* `blob_tree` — they are small enough, and `read_blob` reads the byte string back.
-/

namespace Dfsha.Pages

open Prog

variable (c : Codec)

/-! ## The pages -/

/-- Index pages over pages, and the addresses that are left. -/
def indexLevels : Nat → List String → List Bytes × List String
  | 0, children => ([], children)
  | fuel + 1, children =>
      if 64 < children.length then
        let pages := (slices 64 children).map indexPage
        let above := indexLevels fuel (pages.map c.address)
        (pages ++ above.1, above.2)
      else ([], children)

/-- The leaves of a byte string that does not fit on one page. -/
def leafPages (payload : Bytes) : List Bytes := (slices pageBytes payload).map leafPage

/-- The index pages over the leaves, and the addresses that are left. -/
def levelsOf (payload : Bytes) : List Bytes × List String :=
  indexLevels c (leafPages payload).length ((leafPages payload).map c.address)

/-- The pages of a byte string. -/
def blobPages (payload : Bytes) : List Bytes :=
  if payload.length ≤ pageBytes then [leafPage payload]
  else leafPages payload ++ (levelsOf c payload).1 ++ [indexPage (levelsOf c payload).2]

/-- The address of the page on top. -/
def blobRoot (payload : Bytes) : String :=
  if payload.length ≤ pageBytes then c.address (leafPage payload)
  else c.address (indexPage (levelsOf c payload).2)

/-- Pages are written one after the other. -/
def putPages : List Bytes → M Unit :=
  Prog.each fun payload => do
    let _ ← page c payload
    pure ()

/-- An address is a digest of 32 bytes, in hexadecimal digits. -/
def Codec.Hexadecimal : Prop :=
  ∀ p, ∃ digest : Bytes, digest.length = 32 ∧ c.address p = String.ofList (hex digest)

variable {c} {s t : Store}

/-! ## `blob` writes these pages -/

/-- `page` returns the address of what it is given. -/
theorem page_address (payload : Bytes) (s : Store) :
    (page c payload).Ends s (fun d _ => d = c.address payload) fun _ _ => True := by
  unfold page
  rw [ends_bind, require_ends]
  refine ⟨fun _ => ?_, fun _ => trivial⟩
  rw [ends_bind, ends_reads, ends_ite]
  refine ⟨fun _ => rfl, fun _ => ?_⟩
  have hput : (rpc >>= fun _ => Prog.modify (fun s => s.putPage c (c.address payload) payload) >>=
      fun _ => cachePut (c.address payload) payload >>= fun _ => pure (c.address payload) :
      M String).Ends s (fun d _ => d = c.address payload) fun _ _ => True :=
    ends_bind.mpr ((rpc_spec s).mono (fun _ _ _ => rfl) fun _ _ _ => trivial)
  simp only [id]
  cases hunit : s.unit with
  | none => exact hput
  | some u =>
      obtain ⟨write, root, buckets, pending, effects, pages⟩ := u
      cases write with
      | false => exact hput
      | true =>
          rw [ends_bind, ends_modify, ends_bind, require_ends]
          exact ⟨fun _ => rfl, fun _ => trivial⟩

theorem page_bind {α : Type} (payload : Bytes) (f : String → M α) :
    (page c payload >>= f) = page c payload >>= fun _ => f (c.address payload) :=
  bind_congr_of_ends fun s => (page_address payload s).mono (fun _ _ h => by rw [h]) fun _ _ h => h

theorem map_page {α : Type} (f : α → Bytes) (parts : List α) :
    Prog.map (fun a => page c (f a)) parts =
      putPages c (parts.map f) >>= fun _ => pure ((parts.map f).map c.address) := by
  induction parts with
  | nil => rfl
  | cons a parts ih =>
      change (page c (f a) >>= fun b => Prog.map (fun a => page c (f a)) parts >>= fun bs =>
        pure (b :: bs)) = ((page c (f a) >>= fun _ => pure ()) >>= fun _ =>
        putPages c (parts.map f)) >>= fun _ => pure ((f a :: parts.map f).map c.address)
      rw [page_bind, ih]
      simp only [bind_assoc, pure_bind, List.map_cons]

theorem gatherPages_eq (fuel : Nat) (children : List String) :
    gatherPages c fuel children =
      putPages c (indexLevels c fuel children).1 >>= fun _ =>
        pure (indexLevels c fuel children).2 := by
  induction fuel generalizing children with
  | zero => rfl
  | succ fuel ih =>
      unfold gatherPages indexLevels
      by_cases h : 64 < children.length
      · rw [if_pos h, if_pos h, map_page]
        simp only [bind_assoc, pure_bind, ih, putPages, each_append]
      · rw [if_neg h, if_neg h]
        rfl

theorem putPages_append (l l' : List Bytes) :
    putPages c (l ++ l') = putPages c l >>= fun _ => putPages c l' := each_append _ l l'

/-- One page. -/
theorem page_eq (payload : Bytes) :
    page c payload = putPages c [payload] >>= fun _ => pure (c.address payload) := by
  change _ = ((page c payload >>= fun _ => pure ()) >>= fun _ => pure ()) >>= fun _ =>
    pure (c.address payload)
  simp only [bind_assoc, pure_bind]
  rw [← page_bind, bind_pure]

/-- **`blob` writes the pages of its byte string**, in this order and no others, and returns the
address of the one on top. -/
theorem blob_eq (payload : Bytes) :
    blob c payload = putPages c (blobPages c payload) >>= fun _ => pure (blobRoot c payload) := by
  unfold blob blobPages blobRoot
  by_cases h : payload.length ≤ pageBytes
  · rw [if_pos h, if_pos h, if_pos h, page_eq]
  · rw [if_neg h, if_neg h, if_neg h, map_page, putPages_append, putPages_append]
    simp only [bind_assoc, pure_bind, gatherPages_eq, page_eq, levelsOf, leafPages, List.length_map]

/-! ## They are small enough -/

theorem escapeChar_hex {ch : Char} {bytes : Bytes} (h : ch ∈ hex bytes) :
    Json.escapeChar ch = [ch] ∧ ch.utf8Size = 1 := by
  have hdigit : ∀ i : Fin 16, Json.escapeChar (Nat.digitChar i) = [Nat.digitChar i] ∧
      (Nat.digitChar i).utf8Size = 1 := by decide
  obtain ⟨b, -, hb⟩ := List.mem_flatMap.mp h
  have hlt := b.toNat_lt
  simp only [hexPair, List.mem_cons, List.not_mem_nil, or_false] at hb
  rcases hb with rfl | rfl
  · exact hdigit ⟨b.toNat / 16, by omega⟩
  · exact hdigit ⟨b.toNat % 16, by omega⟩

theorem length_encodeChars {t : List Char} (h : ∀ ch ∈ t, ch.utf8Size = 1) :
    (t.flatMap String.utf8EncodeChar).length = t.length := by
  induction t with
  | nil => rfl
  | cons ch t ih =>
      rw [List.flatMap_cons, List.length_append, String.length_utf8EncodeChar,
        h ch List.mem_cons_self, ih fun x hx => h x (List.mem_cons_of_mem _ hx), List.length_cons]
      omega

/-- An address between quotes. -/
theorem length_dumpString (hhex : c.Hexadecimal) (p : Bytes) :
    ((Json.dumpString (c.address p)).flatMap String.utf8EncodeChar).length = 66 := by
  obtain ⟨digest, hlength, haddress⟩ := hhex p
  have hplain : (hex digest).flatMap Json.escapeChar = hex digest := by
    have hpure : ∀ ch ∈ hex digest, Json.escapeChar ch = [ch] := fun ch hch =>
      (escapeChar_hex hch).1
    rw [List.flatMap_congr hpure]
    exact List.flatMap_singleton' _
  rw [haddress, Json.dumpString, String.toList_ofList, hplain, length_encodeChars]
  · simp [hlength]
  · intro ch hch
    rcases List.mem_append.mp hch with hch | hch
    · rcases List.mem_cons.mp hch with rfl | hch
      · decide
      · exact (escapeChar_hex hch).2
    · rw [List.mem_singleton.mp hch]
      decide

/-- **An index page of 64 addresses is far from full.** -/
theorem length_indexPage (hhex : c.Hexadecimal) {children : List String}
    (h : ∀ d ∈ children, ∃ p, c.address p = d) :
    (indexPage children).length ≤ 67 * children.length + 3 := by
  have hitems : ∀ ds : List String, (∀ d ∈ ds, ∃ p, c.address p = d) →
      ((Json.dumpItems (ds.map .str)).flatMap String.utf8EncodeChar).length = 67 * ds.length + 1 := by
    intro ds
    induction ds with
    | nil => exact fun _ => by decide
    | cons d ds ih =>
        intro hds
        obtain ⟨p, rfl⟩ := hds d List.mem_cons_self
        have hcomma : (String.utf8EncodeChar ',').length = 1 := by decide
        rw [List.map_cons, Json.dumpItems, Json.dump, List.flatMap_append, List.flatMap_cons,
          List.length_append, List.length_append, hcomma, length_dumpString hhex,
          ih fun x hx => hds x (List.mem_cons_of_mem _ hx), List.length_cons]
        omega
  rw [indexPage, List.length_cons, encode]
  cases children with
  | nil => decide
  | cons d ds =>
      obtain ⟨p, rfl⟩ := h d List.mem_cons_self
      have hbracket : (String.utf8EncodeChar '[').length = 1 := by decide
      rw [List.map_cons, Json.dump, Json.dump, List.flatMap_append, List.flatMap_cons,
        List.length_append, List.length_append, hbracket, length_dumpString hhex,
        hitems ds fun x hx => h x (List.mem_cons_of_mem _ hx), List.length_cons]
      omega

/-- Index pages over pages: they are small, and 64 are left. -/
theorem indexLevels_small (hhex : c.Hexadecimal) {fuel : Nat} {children : List String}
    (hfuel : children.length ≤ fuel + 1) (h : ∀ d ∈ children, ∃ p, c.address p = d) :
    (∀ p ∈ (indexLevels c fuel children).1, p.length ≤ pageBytes + 1) ∧
      (indexLevels c fuel children).2.length ≤ 64 ∧
      ∀ d ∈ (indexLevels c fuel children).2, ∃ p, c.address p = d := by
  induction fuel generalizing children with
  | zero =>
      have hfew : children.length ≤ 64 := by omega
      exact ⟨fun p hp => absurd hp List.not_mem_nil, hfew, h⟩
  | succ fuel ih =>
      unfold indexLevels
      by_cases hmany : 64 < children.length
      · rw [if_pos hmany]
        have hlt := length_slices_lt (n := 64) (by decide) (l := children) (by omega)
        obtain ⟨hpages, hleft⟩ := @ih (((slices 64 children).map indexPage).map c.address)
          (by rw [List.length_map, List.length_map]; omega) fun d hd => by
            obtain ⟨p, -, hp⟩ := List.mem_map.mp hd
            exact ⟨p, hp⟩
        refine ⟨fun p hp => ?_, hleft⟩
        rcases List.mem_append.mp hp with hp | hp
        · obtain ⟨part, hpart, rfl⟩ := List.mem_map.mp hp
          have hcount := length_of_mem_slices hpart
          have hlength := @length_indexPage c hhex part fun d hd =>
            h d (by
              rw [← flatten_slices (n := 64) (by decide) children]
              exact List.mem_flatten.mpr ⟨part, hpart, hd⟩)
          unfold pageBytes
          omega
        · exact hpages p hp
      · rw [if_neg hmany]
        exact ⟨fun p hp => absurd hp List.not_mem_nil, Nat.le_of_not_lt hmany, h⟩

/-- **No page is too large.** -/
theorem blobPages_small (hhex : c.Hexadecimal) (payload : Bytes) :
    ∀ p ∈ blobPages c payload, p.length ≤ pageBytes + 1 := by
  unfold blobPages
  by_cases h : payload.length ≤ pageBytes
  · rw [if_pos h]
    intro p hp
    rw [List.mem_singleton.mp hp, leafPage, List.length_cons]
    omega
  · rw [if_neg h]
    obtain ⟨hpages, hcount, haddress⟩ := @indexLevels_small c hhex
      (leafPages payload).length ((leafPages payload).map c.address)
      (by rw [List.length_map]; omega) fun d hd => by
        obtain ⟨p, -, hp⟩ := List.mem_map.mp hd
        exact ⟨p, hp⟩
    intro p hp
    rcases List.mem_append.mp hp with hp | hp
    · rcases List.mem_append.mp hp with hp | hp
      · obtain ⟨part, hpart, rfl⟩ := List.mem_map.mp hp
        have hlength := length_of_mem_slices hpart
        rw [leafPage, List.length_cons]
        omega
      · exact hpages p hp
    · have hlength := length_indexPage hhex haddress
      rw [List.mem_singleton.mp hp]
      unfold pageBytes
      rw [levelsOf]
      omega

/-- The pages that a transaction writes are too many. -/
def Overflowed (t : Store) (e : Halt) : Prop :=
  e = .fault .limitExceeded ∧ ∃ u, t.unit = some u ∧ u.write = true ∧ pagesLimit < size u.pages

/-- A page that is small enough is not refused for its size. -/
theorem page_small {payload : Bytes} (h : payload.length ≤ pageBytes + 1) (s : Store) :
    (page c payload).Ends s (fun _ t => t.faults ⊆ s.faults) fun e t =>
      Faulted s e ∨ Overflowed t e := by
  unfold page
  rw [ends_bind, require_ends]
  refine ⟨fun _ => ?_, fun hlarge => absurd h hlarge⟩
  rw [ends_bind, ends_reads, ends_ite]
  refine ⟨fun _ => fun _ hb => hb, fun _ => ?_⟩
  have hput : (rpc >>= fun _ => Prog.modify (fun s => s.putPage c (c.address payload) payload) >>=
      fun _ => cachePut (c.address payload) payload >>= fun _ => pure (c.address payload) :
      M String).Ends s (fun _ t => t.faults ⊆ s.faults) fun e t => Faulted s e ∨ Overflowed t e := by
    refine ends_bind.mpr ((rpc_spec s).mono (fun _ t ht => ?_) fun e t he => .inl he.1)
    obtain ⟨faults, hfaults, rfl⟩ := ht
    exact hfaults
  simp only [id]
  cases hunit : s.unit with
  | none => exact hput
  | some u =>
      obtain ⟨write, root, buckets, pending, effects, pages⟩ := u
      cases write with
      | false => exact hput
      | true =>
          rw [ends_bind, ends_modify, ends_bind, require_ends]
          exact ⟨fun _ => fun _ hb => hb, fun hsum =>
            .inr ⟨rfl, _, rfl, rfl, Nat.lt_of_not_le hsum⟩⟩

theorem putPages_small {pages : List Bytes} (h : ∀ p ∈ pages, p.length ≤ pageBytes + 1)
    (s : Store) :
    (putPages c pages).Ends s (fun _ t => t.faults ⊆ s.faults) fun e t =>
      Faulted s e ∨ Overflowed t e := by
  refine (Ends.each (I := fun rest t => (∀ p ∈ rest, p.length ≤ pageBytes + 1) ∧
    t.faults ⊆ s.faults) (fun p rest t ht => ?_) ⟨h, fun _ hb => hb⟩).mono
    (fun _ _ ht => ht.2) fun _ _ he => he
  obtain ⟨hsmall, hfaults⟩ := ht
  refine ends_bind.mpr ((page_small (hsmall p List.mem_cons_self) t).mono (fun d u hu => ?_)
    fun e u he => ?_)
  · exact ⟨fun q hq => hsmall q (List.mem_cons_of_mem _ hq), fun b hb => hfaults (hu hb)⟩
  · exact he.imp (fun hfault => ⟨hfault.1, hfaults hfault.2⟩) id

/-! ## They are read back -/

/-- The page under an address. -/
def pageAt (c : Codec) (pages : List Bytes) (d : String) : Option Bytes :=
  pages.find? fun p => c.address p = d

/-- Etcd has these pages, and what is cached under their addresses is these pages. -/
structure Serves (c : Codec) (pages : List Bytes) (s : Store) : Prop where
  stored : ∀ p ∈ pages, s.etcd.fetch c (c.address p) = some p
  cached : ∀ x ∈ s.cache, ∀ p ∈ pages, x.1 = c.address p → x.2 = p

variable {pages : List Bytes}

/-- No two of the pages have one address. -/
theorem Serves.pageAt (h : Serves c pages s) {p : Bytes} (hp : p ∈ pages) :
    pageAt c pages (c.address p) = some p := by
  unfold Pages.pageAt
  cases hfind : pages.find? fun q => c.address q = c.address p with
  | none => exact absurd (List.find?_eq_none.mp hfind p hp) (by simp)
  | some q =>
      have hq := h.stored q (List.mem_of_find?_eq_some hfind)
      have haddress : c.address q = c.address p := by simpa using List.find?_some hfind
      rw [haddress, h.stored p hp] at hq
      rw [Option.some.inj hq]

theorem fetch_served (h : Serves c pages s) {p : Bytes} (hp : p ∈ pages) :
    (fetch c (c.address p)).Ends s
      (fun q t => q = p ∧ Serves c pages t ∧ t.faults ⊆ s.faults) fun e _ => Faulted s e := by
  unfold fetch
  rw [ends_bind, ends_reads]
  cases hcache : Pairs.find s.cache (c.address p) with
  | some q =>
      simp only [id, hcache]
      exact ⟨h.cached _ (Pairs.mem_of_find hcache) p hp rfl, h, fun _ hb => hb⟩
  | none =>
      obtain ⟨row, hrow, hpayload⟩ := Etcd.fetch_row (h.stored p hp)
      simp only [id, hcache, hrow, hpayload]
      refine ends_bind.mpr ((rpc_spec s).mono (fun _ t ht => ?_) fun e t he => he.1)
      obtain ⟨faults, hfaults, rfl⟩ := ht
      rw [ends_bind, require_ends]
      refine ⟨fun _ => ⟨rfl, ⟨h.stored, fun x hx q hq he => ?_⟩, hfaults⟩, fun hne => (hne trivial).elim⟩
      rcases List.mem_append.mp (mem_of_mem_evict hx) with hold | hnew
      · exact h.cached x (List.mem_filter.mp hold).1 q hq he
      · rw [List.mem_singleton.mp hnew] at he ⊢
        have hq' := h.stored q hq
        rw [← he, h.stored p hp] at hq'
        exact Option.some.inj hq'

/-- **What pages hold is read**, from the cache or from etcd. -/
theorem readBlob_served (n : Nat) {d : String} {content : Bytes} (h : Serves c pages s)
    (hread : Addressed.read (viewOf (pageAt c pages)) n d = some content) :
    (readBlob c n d).Ends s (fun q t => q = content ∧ Serves c pages t ∧ t.faults ⊆ s.faults)
      fun e _ => Faulted s e := by
  induction n generalizing s d content with
  | zero => cases hread
  | succ n ih =>
      cases hview : viewOf (pageAt c pages) d with
      | none => simp [Addressed.read, hview] at hread
      | some node =>
          obtain ⟨payload, hpayload, hparse⟩ := view_eq_some hview
          have hmem := List.mem_of_find?_eq_some hpayload
          have haddress : c.address payload = d := by simpa using List.find?_some hpayload
          subst haddress
          unfold readBlob
          refine (fetch_served h hmem).bind fun q t ht => ?_
          obtain ⟨rfl, ht, hfaults⟩ := ht
          rw [hparse]
          cases node with
          | leaf p =>
              rw [Addressed.read_leaf hview, Option.some.injEq] at hread
              exact ⟨hread, ht, hfaults⟩
          | index children =>
              rw [Addressed.read_index hview, Addressed.gather_eq_some] at hread
              obtain ⟨parts, hparts, rfl⟩ := hread
              refine (Ends.map (I := fun u => Serves c pages u ∧ u.faults ⊆ s.faults)
                (R := fun d p _ => Addressed.read (viewOf (pageAt c pages)) n d = some p)
                (fun _ _ _ _ _ hR _ => hR) (fun d hd u hu => ?_) ⟨ht, hfaults⟩).bind
                fun got u hu => ?_
              · obtain ⟨p, -, hp⟩ := Addressed.partner_of_mem hparts hd
                refine (ih hu.1 hp).mono (fun q v hv => ?_) fun e v hv => ?_
                · exact ⟨⟨hv.2.1, fun b hb => hu.2 (hv.2.2 hb)⟩, hv.1 ▸ hp⟩
                · exact ⟨hv.1, hu.2 hv.2⟩
              · have hgot := Addressed.gather_eq_some.mpr ⟨got, hu.2, rfl⟩
                have hpart := Addressed.gather_eq_some.mpr ⟨parts, hparts, rfl⟩
                exact ⟨Option.some.inj (hgot.symm.trans hpart), hu.1⟩

/-- Index pages stand for what the pages under them stand for. -/
theorem indexLevels_holds {payloads : String → Option Bytes} {fuel : Nat} {children : List String}
    {qs : List Bytes} (hall : List.Forall₂ (Addressed.Holds (viewOf payloads)) children qs)
    (hpages : ∀ p ∈ (indexLevels c fuel children).1, payloads (c.address p) = some p) :
    ∃ rs, List.Forall₂ (Addressed.Holds (viewOf payloads)) (indexLevels c fuel children).2 rs ∧
      rs.flatten = qs.flatten := by
  induction fuel generalizing children qs with
  | zero => exact ⟨qs, hall, rfl⟩
  | succ fuel ih =>
      unfold indexLevels at hpages ⊢
      by_cases hmany : 64 < children.length
      · rw [if_pos hmany] at hpages ⊢
        have hflat : (slices 64 children).flatten = children := flatten_slices (by decide) _
        obtain ⟨qss, hqss, hqs⟩ := forall₂_flatten (hflat.symm ▸ hall)
        have hparts : List.Forall₂ (fun part d => payloads d = some (indexPage part))
            (slices 64 children) (((slices 64 children).map indexPage).map c.address) := by
          rw [List.map_map, List.forall₂_map_right_iff, List.forall₂_same]
          intro part hpart
          exact hpages _ (List.mem_append_left _ (List.mem_map_of_mem hpart))
        obtain ⟨rs, hrs, hflatten⟩ := ih (holds_indexes hparts hqss) fun p hp =>
          hpages p (List.mem_append_right _ hp)
        exact ⟨rs, hrs, by rw [hflatten, ← hqs, List.flatten_flatten]⟩
      · rw [if_neg hmany] at hpages ⊢
        exact ⟨qs, hall, rfl⟩

/-- **The page on top stands for the byte string.** -/
theorem blobRoot_holds {payloads : String → Option Bytes} {payload : Bytes}
    (hpages : ∀ p ∈ blobPages c payload, payloads (c.address p) = some p) :
    Addressed.Holds (viewOf payloads) (blobRoot c payload) payload := by
  unfold blobPages at hpages
  unfold blobRoot
  by_cases h : payload.length ≤ pageBytes
  · rw [if_pos h] at hpages ⊢
    exact holds_leaf (hpages _ List.mem_cons_self)
  · rw [if_neg h] at hpages ⊢
    have hleaves : List.Forall₂ (Addressed.Holds (viewOf payloads))
        ((leafPages payload).map c.address) (slices pageBytes payload) := by
      rw [leafPages, List.map_map, List.forall₂_map_left_iff, List.forall₂_same]
      intro part hpart
      refine holds_leaf (hpages _ ?_)
      exact List.mem_append_left _ (List.mem_append_left _ (List.mem_map_of_mem hpart))
    obtain ⟨rs, hrs, hflatten⟩ := @indexLevels_holds c payloads (leafPages payload).length _ _ hleaves
      fun p hp => hpages p (List.mem_append_left _ (List.mem_append_right _ hp))
    have htop := holds_index (hpages _ (List.mem_append_right _ List.mem_cons_self)) hrs
    rw [hflatten, flatten_slices (by decide)] at htop
    exact htop

/-- **The blob tree.**  `blob` writes these pages and returns the address of the one on top; none
of them is refused for its size.  When etcd has them, whatever of other pages is cached, `read_blob`
reads the byte string, if it may go down as many pages as there are. -/
theorem blob_tree (hhex : c.Hexadecimal) (payload : Bytes) :
    blob c payload = (putPages c (blobPages c payload) >>= fun _ => pure (blobRoot c payload)) ∧
      (∀ p ∈ blobPages c payload, p.length ≤ pageBytes + 1) ∧
      (∀ s : Store, (blob c payload).Ends s (fun d _ => d = blobRoot c payload) fun e t =>
        Faulted s e ∨ Overflowed t e) ∧
      ∀ s : Store, (∀ p ∈ blobPages c payload, s.etcd.fetch c (c.address p) = some p) →
        (∀ x ∈ s.cache, c.address x.2 = x.1) →
        (∀ x ∈ s.cache, ∀ p ∈ blobPages c payload, c.address x.2 = c.address p → x.2 = p) →
        ∀ n, (blobPages c payload).length ≤ n →
          (readBlob c n (blobRoot c payload)).Ends s (fun q _ => q = payload) fun e _ =>
            Faulted s e := by
  refine ⟨blob_eq payload, blobPages_small hhex payload, fun s => ?_, fun s hstored hown hfree n hn => ?_⟩
  · rw [blob_eq]
    exact ends_bind.mpr ((putPages_small (blobPages_small hhex payload) s).mono
      (fun _ _ _ => rfl) fun _ _ he => he)
  · have hserves : Serves c (blobPages c payload) s :=
      ⟨hstored, fun x hx p hp he => hfree x hx p hp ((hown x hx).trans he)⟩
    have hholds := blobRoot_holds fun p hp => hserves.pageAt hp
    have hknown : ∀ d node, viewOf (pageAt c (blobPages c payload)) d = some node →
        d ∈ (blobPages c payload).map c.address := by
      intro d node hd
      obtain ⟨p, hp, -⟩ := view_eq_some hd
      have haddress : c.address p = d := by simpa using List.find?_some hp
      exact haddress ▸ List.mem_map_of_mem (List.mem_of_find?_eq_some hp)
    have hread := Addressed.Holds.read hknown hholds
    rw [List.length_map] at hread
    have hmore := Addressed.read_mono (fun _ _ h => h) hn hread
    exact (readBlob_served n hserves hmore).mono (fun _ _ hq => hq.1) fun _ _ he => he

/-! ### Three bytes -/

/-- The digest of the leaf page of three bytes. -/
def leafDigest : Bytes :=
  [55, 248, 156, 153, 184, 155, 102, 10, 153, 238, 29, 109, 53, 195, 161, 182, 14, 104, 221, 140,
    78, 100, 142, 33, 230, 157, 108, 244, 28, 38, 160, 2]

/-- A codec without a cipher, with the digest of this page and no other. -/
def leafCodec : Codec where
  address p := String.ofList (hex (if p = [76, 97, 98, 99] then leafDigest else List.replicate 32 0))
  wire _ _ p := p
  payload _ wire := some wire
  shard _ := ""

/-- A store whose etcd has this page, and nothing in its cache. -/
def leafStore : Store where
  etcd := { Etcd.empty with
    pages := Table.empty.put ⟨String.ofList (hex leafDigest), [76, 97, 98, 99]⟩ }
  cache := []
  unit := none
  heap := []
  faults := []
  nonce := 0

theorem leaf_blob :
    blobPages leafCodec [97, 98, 99] = [[76, 97, 98, 99]] ∧
      (readBlob leafCodec 1 (blobRoot leafCodec [97, 98, 99])).Ends leafStore
        (fun q _ => q = [97, 98, 99]) fun e _ => Faulted leafStore e := by
  have hhex : leafCodec.Hexadecimal := by
    intro p
    refine ⟨_, ?_, rfl⟩
    by_cases h : p = [76, 97, 98, 99]
    · rw [if_pos h]
      decide
    · rw [if_neg h]
      decide
  have hpages : blobPages leafCodec [97, 98, 99] = [[76, 97, 98, 99]] := by decide
  obtain ⟨-, -, -, hread⟩ := blob_tree hhex [97, 98, 99]
  refine ⟨hpages, hread leafStore ?_ ?_ ?_ 1 ?_⟩
  · intro p hp
    rw [hpages, List.mem_singleton] at hp
    subst hp
    decide +kernel
  · exact fun x hx => absurd hx List.not_mem_nil
  · exact fun x hx => absurd hx List.not_mem_nil
  · rw [hpages]
    decide

end Dfsha.Pages
