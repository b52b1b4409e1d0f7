import Dfsha.Pages.Browse

/-!
# What is written as pages

Inside a transaction that writes, `page` adds a page to the unit unless it is cached, and so already
in etcd.  The pages of etcd and those of the unit are one view, in which every address that `blob`
returns stands for what it was given.

## Main definitions

* `EtcdUnit.view` — the pages of etcd and of a unit.
* `Writable` — a unit that may write pages.
* `Wrote` — the pages that a unit has later.
* `TooLarge` — the transaction writes too much.

## Main results

* `blob_ends` — what `blob` returns stands for what was written.
-/

namespace Dfsha.Pages

open Prog

variable {c : Codec} {s t : Store} {u : EtcdUnit}

/-- The payload under an address, in etcd or among pages. -/
def payloadsWith (c : Codec) (e : Etcd) (pages : List (String × Bytes)) (digest : String) :
    Option Bytes := (e.fetch c digest).or (Pairs.find pages digest)

/-- The pages of etcd and further pages. -/
def viewWith (c : Codec) (e : Etcd) (pages : List (String × Bytes)) : View :=
  viewOf (payloadsWith c e pages)

/-- Pages are under their own addresses. -/
def OwnAddresses (c : Codec) (pages : List (String × Bytes)) : Prop :=
  ∀ x ∈ pages, c.address x.2 = x.1

theorem payloadsWith_address {e : Etcd} {pages : List (String × Bytes)}
    (hp : OwnAddresses c pages) {digest : String} {payload : Bytes}
    (h : payloadsWith c e pages digest = some payload) : c.address payload = digest := by
  rcases Option.or_eq_some_iff.mp h with hfetch | ⟨-, hfind⟩
  · exact Etcd.fetch_address hfetch
  · exact hp _ (Pairs.mem_of_find hfind)

/-- More payloads show more pages. -/
theorem viewOf_mono {f g : String → Option Bytes} (h : ∀ d p, f d = some p → g d = some p)
    (d : String) (n : Addressed.Node String UInt8) (hn : viewOf f d = some n) :
    viewOf g d = some n := by
  obtain ⟨payload, hpayload, hnode⟩ := Option.bind_eq_some_iff.mp hn
  exact Option.bind_eq_some_iff.mpr ⟨payload, h d payload hpayload, hnode⟩

theorem view_viewWith (e : Etcd) (pages : List (String × Bytes)) (d : String)
    (n : Addressed.Node String UInt8) (h : e.view c d = some n) : viewWith c e pages d = some n :=
  viewOf_mono (fun _ _ hp => Option.or_eq_some_iff.mpr (.inl hp)) d n h

/-- A leaf page and what it stands for. -/
theorem node_leafPage (content : Bytes) : node (leafPage content) = some (.leaf content) := rfl

theorem strings_arr (children : List String) :
    strings (.arr (children.map .str)) = some children := by
  change (children.map Json.str).mapM asString = some children
  induction children with
  | nil => rfl
  | cons d ds ih =>
      rw [List.map_cons, List.mapM_cons, ih]
      rfl

/-- An index page and what it stands for. -/
theorem node_indexPage (children : List String) :
    node (indexPage children) = some (.index children) := by
  have hloads : (loads (encode (.arr (children.map .str)))).bind strings = some children := by
    rw [loads_encode, Option.bind_some, strings_arr]
  simp [node, parse, indexPage, hloads, Except.toOption]

/-- The pages that a unit has later are its own, and more. -/
structure Wrote (c : Codec) (before pages : List (String × Bytes)) : Prop where
  own : OwnAddresses c pages
  grows : ∀ d p, Pairs.find before d = some p → Pairs.find pages d = some p
  nodup : (before.map Prod.fst).Nodup → (pages.map Prod.fst).Nodup

namespace Wrote

variable {before pages pages' : List (String × Bytes)}

theorem refl (h : OwnAddresses c pages) : Wrote c pages pages := ⟨h, fun _ _ hp => hp, id⟩

theorem trans (h : Wrote c before pages) (h' : Wrote c pages pages') : Wrote c before pages' :=
  ⟨h'.own, fun d p hp => h'.grows d p (h.grows d p hp), fun hn => h'.nodup (h.nodup hn)⟩

theorem view (h : Wrote c before pages) (e : Etcd) (d : String)
    (n : Addressed.Node String UInt8) (hn : viewWith c e before d = some n) :
    viewWith c e pages d = some n := by
  refine viewOf_mono (fun d p hp => ?_) d n hn
  rcases Option.or_eq_some_iff.mp hp with hfetch | ⟨hnone, hfind⟩
  · exact Option.or_eq_some_iff.mpr (.inl hfetch)
  · exact Option.or_eq_some_iff.mpr (.inr ⟨hnone, h.grows d p hfind⟩)

/-- A page is added under its own address. -/
theorem set (hc : c.Sound) (h : OwnAddresses c pages) (payload : Bytes) :
    Wrote c pages (Pairs.set pages (c.address payload) payload) where
  own x hx := by
    rcases Pairs.mem_of_mem_set hx with hold | hnew
    · exact h x hold
    · rw [hnew]
  grows d p hp := by
    rw [Pairs.find_set]
    by_cases heq : c.address payload = d
    · have haddress : c.address p = d := h _ (Pairs.mem_of_find hp)
      rw [if_pos heq, hc.injective (heq.trans haddress.symm)]
    · rw [if_neg heq]
      exact hp
  nodup := Pairs.nodup_set

end Wrote

/-- A unit that may write pages. -/
structure Writable (c : Codec) (s : Store) (u : EtcdUnit) : Prop where
  cached : s.Cached c
  unit : s.unit = some u
  write : u.write = true
  own : OwnAddresses c u.pages

/-- The store when a unit has these pages. -/
def Store.withPages (s : Store) (u : EtcdUnit) (pages : List (String × Bytes)) : Store :=
  { s with unit := some { u with pages := pages } }

theorem Writable.withPages (h : Writable c s u) {pages : List (String × Bytes)}
    (hp : OwnAddresses c pages) : Writable c (s.withPages u pages) { u with pages := pages } :=
  ⟨h.cached, rfl, h.write, hp⟩

theorem Writable.self (h : Writable c s u) : s = s.withPages u u.pages := by
  obtain ⟨-, hunit, -, -⟩ := h
  cases s
  cases hunit
  rfl

/-- The addresses of 64 pages do not fit on one page. -/
def LongAddresses (c : Codec) : Prop :=
  ∃ children : List String, children.length ≤ 64 ∧ pageBytes + 1 < (indexPage children).length ∧
    ∀ d ∈ children, ∃ p, c.address p = d

/-- The transaction writes too much. -/
def TooLarge (c : Codec) (t : Store) (e : Halt) : Prop :=
  e = .fault .limitExceeded ∧
    (LongAddresses c ∨ ∃ u, t.unit = some u ∧
      (pagesLimit < size u.pages ∨ maxGuards < u.effects.length))

/-- **A page is written**, or it is too much. -/
theorem page_ends (hc : c.Sound) (h : Writable c s u) {payload : Bytes}
    (hsize : pageBytes + 1 < payload.length → LongAddresses c) :
    (page c payload).Ends s
      (fun d t => ∃ pages, t = s.withPages u pages ∧ Wrote c u.pages pages ∧
        payloadsWith c s.etcd pages d = some payload)
      fun e t => TooLarge c t e ∧ ∃ pages, t = s.withPages u pages ∧ Wrote c u.pages pages := by
  unfold page
  rw [ends_bind, require_ends]
  refine ⟨fun _ => ?_, fun hlong => ?_⟩
  · rw [ends_bind, ends_reads, ends_ite]
    refine ⟨fun hcache => ?_, fun hcache => ?_⟩
    · obtain ⟨p, hp⟩ := Option.isSome_iff_exists.mp hcache
      have hfetch : s.etcd.fetch c (c.address payload) = some p :=
        h.cached _ (Pairs.mem_of_find hp)
      refine ends_pure.mpr ⟨u.pages, h.self, .refl h.own, ?_⟩
      rw [payloadsWith, hfetch, hc.injective (Etcd.fetch_address hfetch)]
      rfl
    · obtain ⟨write, root, buckets, pending, effects, pages⟩ := u
      obtain rfl : write = true := h.write
      have hwrote : Wrote c pages (Pairs.set pages (c.address payload) payload) :=
        .set hc h.own payload
      simp only [id, h.unit]
      rw [ends_bind, ends_modify, ends_bind, require_ends]
      refine ⟨fun _ => ends_pure.mpr ⟨_, rfl, hwrote, ?_⟩, fun hsum => ?_⟩
      · unfold payloadsWith
        cases hfetch : s.etcd.fetch c (c.address payload) with
        | none => simp [Pairs.find_set]
        | some p => rw [hc.injective (Etcd.fetch_address hfetch)]; rfl
      · exact ⟨⟨rfl, .inr ⟨_, rfl, .inl (Nat.lt_of_not_le hsum)⟩⟩, _, rfl, hwrote⟩
  · exact ⟨⟨rfl, .inl (hsize (Nat.lt_of_not_le hlong))⟩, u.pages, h.self, .refl h.own⟩

/-- Pages are written one after the other. -/
theorem pages_ends (hc : c.Sound) (h : Writable c s u) {α : Type} {f : α → Bytes} {parts : List α}
    (hsize : ∀ a ∈ parts, pageBytes + 1 < (f a).length → LongAddresses c) :
    (Prog.map (fun a => page c (f a)) parts).Ends s
      (fun ds t => ∃ pages, t = s.withPages u pages ∧ Wrote c u.pages pages ∧
        List.Forall₂ (fun a d => payloadsWith c s.etcd pages d = some (f a)) parts ds)
      fun e t => TooLarge c t e ∧ ∃ pages, t = s.withPages u pages ∧ Wrote c u.pages pages := by
  refine (Ends.collect (I := fun rest done t => ∃ before, parts = before ++ rest ∧
    ∃ pages, t = s.withPages u pages ∧ Wrote c u.pages pages ∧
      List.Forall₂ (fun a d => payloadsWith c s.etcd pages d = some (f a)) before done)
    (fun a rest done t ht => ?_) ⟨[], rfl, u.pages, h.self, .refl h.own, .nil⟩).mono
    (fun ds t ht => ?_) fun _ _ he => he
  · obtain ⟨before, rfl, pages, rfl, hwrote, hall⟩ := ht
    refine (page_ends hc (h.withPages hwrote.own) (hsize a (by simp))).mono
      (fun d t ht => ?_) fun e t he => ?_
    · obtain ⟨pages', rfl, hwrote', hd⟩ := ht
      refine ⟨before ++ [a], by simp, pages', rfl, hwrote.trans hwrote', ?_⟩
      refine List.rel_append (hall.imp fun b d' hd' => ?_) (.cons hd .nil)
      rcases Option.or_eq_some_iff.mp hd' with hfetch | ⟨hnone, hfind⟩
      · exact Option.or_eq_some_iff.mpr (.inl hfetch)
      · exact Option.or_eq_some_iff.mpr (.inr ⟨hnone, hwrote'.grows _ _ hfind⟩)
    · obtain ⟨htoo, pages', rfl, hwrote'⟩ := he
      exact ⟨htoo, pages', rfl, hwrote.trans hwrote'⟩
  · obtain ⟨before, hparts, pages, rfl, hwrote, hall⟩ := ht
    rw [List.append_nil] at hparts
    subst hparts
    exact ⟨pages, rfl, hwrote, hall⟩

/-! ## `blob` -/

/-- What belongs together belongs together piece by piece. -/
theorem forall₂_flatten {α β : Type} {R : α → β → Prop} {ls : List (List α)} {qs : List β}
    (h : List.Forall₂ R ls.flatten qs) :
    ∃ qss, List.Forall₂ (List.Forall₂ R) ls qss ∧ qss.flatten = qs := by
  induction ls generalizing qs with
  | nil => exact ⟨[], .nil, (List.forall₂_nil_left_iff.mp h).symm⟩
  | cons l ls ih =>
      obtain ⟨qss, hqss, hflat⟩ := ih (List.forall₂_drop_append qs l ls.flatten h.flip |>.flip)
      refine ⟨qs.take l.length :: qss, .cons (List.forall₂_take_append qs l ls.flatten h.flip).flip
        hqss, ?_⟩
      rw [List.flatten_cons, hflat, List.take_append_drop]

section Holds

variable {payloads : String → Option Bytes} {d : String}

/-- An index page stands for what its parts stand for. -/
theorem holds_index {children : List String} {qs : List Bytes}
    (hd : payloads d = some (indexPage children))
    (hall : List.Forall₂ (Addressed.Holds (viewOf payloads)) children qs) :
    Addressed.Holds (viewOf payloads) d qs.flatten :=
  .index (Option.bind_eq_some_iff.mpr ⟨_, hd, node_indexPage children⟩) hall

theorem holds_leaf {content : Bytes} (hd : payloads d = some (leafPage content)) :
    Addressed.Holds (viewOf payloads) d content :=
  .leaf (Option.bind_eq_some_iff.mpr ⟨_, hd, node_leafPage content⟩)

theorem holds_indexes {parts : List (List String)} {ds : List String} {qss : List (List Bytes)}
    (hpages : List.Forall₂ (fun part d => payloads d = some (indexPage part)) parts ds)
    (hall : List.Forall₂ (List.Forall₂ (Addressed.Holds (viewOf payloads))) parts qss) :
    List.Forall₂ (Addressed.Holds (viewOf payloads)) ds (qss.map List.flatten) := by
  induction hpages generalizing qss with
  | nil =>
      cases hall
      exact .nil
  | cons hd _ ih =>
      obtain ⟨q, qss, hq, hrest, rfl⟩ := List.forall₂_cons_left_iff.mp hall
      exact .cons (holds_index hd hq) (ih hrest)

end Holds

/-- What can be read is under an address. -/
theorem address_of_holds {e : Etcd} {pages : List (String × Bytes)} (hp : OwnAddresses c pages)
    {d : String} {content : Bytes} (h : Addressed.Holds (viewWith c e pages) d content) :
    ∃ p, c.address p = d := by
  obtain ⟨n, hn⟩ := Option.isSome_iff_exists.mp h.isSome
  obtain ⟨p, hpd, -⟩ := Option.bind_eq_some_iff.mp hn
  exact ⟨p, payloadsWith_address hp hpd⟩

/-- Index pages that are too long have long addresses. -/
theorem longAddresses_of_index {e : Etcd} {pages : List (String × Bytes)}
    (hp : OwnAddresses c pages) {children : List String} {qs : List Bytes}
    (hall : List.Forall₂ (Addressed.Holds (viewWith c e pages)) children qs)
    (hcount : children.length ≤ 64) (hlong : pageBytes + 1 < (indexPage children).length) :
    LongAddresses c := by
  refine ⟨children, hcount, hlong, fun d hd => ?_⟩
  obtain ⟨q, -, hq⟩ := Addressed.partner_of_mem hall hd
  exact address_of_holds hp hq

/-- **Index pages are put over pages until 64 are left**, and stand for the same content. -/
theorem gatherPages_ends (hc : c.Sound) (fuel : Nat) (h : Writable c s u) {children : List String}
    {qs : List Bytes} (hfuel : children.length ≤ fuel + 1)
    (hall : List.Forall₂ (Addressed.Holds (viewWith c s.etcd u.pages)) children qs) :
    (gatherPages c fuel children).Ends s
      (fun ds t => ∃ pages, t = s.withPages u pages ∧ Wrote c u.pages pages ∧ ds.length ≤ 64 ∧
        ∃ rs, List.Forall₂ (Addressed.Holds (viewWith c s.etcd pages)) ds rs ∧
          rs.flatten = qs.flatten)
      fun e t => TooLarge c t e ∧ ∃ pages, t = s.withPages u pages ∧ Wrote c u.pages pages := by
  induction fuel generalizing s u children qs with
  | zero =>
      exact ends_pure.mpr ⟨u.pages, h.self, .refl h.own, by omega, qs, hall, rfl⟩
  | succ fuel ih =>
      unfold gatherPages
      rw [ends_ite]
      refine ⟨fun hmany => ?_, fun hfew => ?_⟩
      · have hflat : (slices 64 children).flatten = children := flatten_slices (by decide) _
        obtain ⟨qss, hqss, hqs⟩ := forall₂_flatten (hflat.symm ▸ hall)
        refine ((pages_ends hc h (f := indexPage) fun part hpart hlong => ?_).mono
          (fun _ _ ht => ht) fun _ _ he => he).bind fun above t ht => ?_
        · obtain ⟨q, -, hq⟩ := Addressed.partner_of_mem hqss hpart
          exact longAddresses_of_index h.own hq (length_of_mem_slices hpart) hlong
        · obtain ⟨pages, rfl, hwrote, habove⟩ := ht
          have hlt := length_slices_lt (n := 64) (by decide) (l := children) (by omega)
          have hlength := habove.length_eq
          have hholds := holds_indexes habove (hqss.imp fun part q hq =>
            hq.imp fun d p hd => hd.mono (hwrote.view s.etcd))
          refine (ih (h.withPages hwrote.own) (by omega) hholds).mono (fun ds t ht => ?_)
            fun e t he => ?_
          · obtain ⟨pages', rfl, hwrote', hcount, rs, hrs, hflatten⟩ := ht
            refine ⟨pages', rfl, hwrote.trans hwrote', hcount, rs, hrs, ?_⟩
            rw [hflatten, ← hqs, List.flatten_flatten]
          · obtain ⟨htoo, pages', rfl, hwrote'⟩ := he
            exact ⟨htoo, pages', rfl, hwrote.trans hwrote'⟩
      · exact ends_pure.mpr ⟨u.pages, h.self, .refl h.own, Nat.le_of_not_lt hfew, qs, hall, rfl⟩

/-- **What `blob` returns stands for what was written.** -/
theorem blob_ends (hc : c.Sound) (h : Writable c s u) (payload : Bytes) :
    (blob c payload).Ends s
      (fun d t => ∃ pages, t = s.withPages u pages ∧ Wrote c u.pages pages ∧
        Addressed.Holds (viewWith c s.etcd pages) d payload)
      fun e t => TooLarge c t e ∧ ∃ pages, t = s.withPages u pages ∧ Wrote c u.pages pages := by
  unfold blob
  rw [ends_ite]
  refine ⟨fun hshort => ?_, fun hlong => ?_⟩
  · refine (page_ends hc h fun hsize => ?_).mono (fun d t ht => ?_) fun _ _ he => he
    · rw [leafPage, List.length_cons] at hsize
      omega
    · obtain ⟨pages, rfl, hwrote, hd⟩ := ht
      exact ⟨pages, rfl, hwrote, holds_leaf hd⟩
  · refine (pages_ends hc h (f := leafPage) fun part hpart hsize => ?_).bind fun leaves t ht => ?_
    · have := length_of_mem_slices hpart
      rw [leafPage, List.length_cons] at hsize
      omega
    · obtain ⟨pages, rfl, hwrote, hleaves⟩ := ht
      have hholds : List.Forall₂ (Addressed.Holds (viewWith c s.etcd pages)) leaves
          (slices pageBytes payload) := (hleaves.imp fun _ _ hd => holds_leaf hd).flip
      refine ((gatherPages_ends hc _ (h.withPages hwrote.own) (Nat.le_succ _) hholds).mono
        (fun _ _ ht => ht) fun e t he => ?_).bind fun children t ht => ?_
      · obtain ⟨htoo, pages', rfl, hwrote'⟩ := he
        exact ⟨htoo, pages', rfl, hwrote.trans hwrote'⟩
      · obtain ⟨pages', rfl, hwrote', hcount, rs, hrs, hflatten⟩ := ht
        refine (page_ends hc ((h.withPages hwrote.own).withPages hwrote'.own) fun hsize => ?_).mono
          (fun d t ht => ?_) fun e t he => ?_
        · exact longAddresses_of_index hwrote'.own hrs hcount hsize
        · obtain ⟨pages'', rfl, hwrote'', hd⟩ := ht
          refine ⟨pages'', rfl, (hwrote.trans hwrote').trans hwrote'', ?_⟩
          have hindex := holds_index hd (hrs.imp fun d p hp => hp.mono (hwrote''.view s.etcd))
          rw [hflatten, flatten_slices (by decide)] at hindex
          exact hindex
        · obtain ⟨htoo, pages'', rfl, hwrote''⟩ := he
          exact ⟨htoo, pages'', rfl, (hwrote.trans hwrote').trans hwrote''⟩

end Dfsha.Pages
