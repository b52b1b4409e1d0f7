import Dfsha.Lib.Encoding
import Dfsha.Pages.Map
import Dfsha.Pages.Publication

/-!
# The unit of work is a map

What a caller sees of transactions over pages is what it sees of transactions over the plain map:
inside a transaction the unit shows what the map has, the objects of the caller have the values
that they have there, and no object that is pending is one of the caller's.  So a record that the
caller changes afterwards is not changed in the unit.

## Main definitions

* `Agrees` — the caller has and has seen the same.
* `Working` — a transaction on its way, and the map on the same way.

## Main results

* `carryOut_ends` — one operation.
* `unit_is_map` — any transactions, whatever fails on the way.
-/

namespace Dfsha.Pages

open Prog

variable {c : Codec} {m : Contents} {s t : Store} {u : EtcdUnit} {p q : Plain} {write : Bool}

/-! ## Objects -/

/-- The caller has objects with the same values, each of its own, and has seen the same. -/
structure Agrees (heap : List Json) (caller : Caller) (p : Plain) : Prop where
  objects : caller.objects.map (fun r => heap[r]?) = p.objects.map some
  distinct : caller.objects.Nodup
  answers : caller.answers = p.answers

namespace Agrees

variable {heap heap' : List Json} {caller : Caller}

/-- What an object of the caller is. -/
theorem value (h : Agrees heap caller p) {i : Nat} {r : Ref} (hi : caller.objects[i]? = some r) :
    ∃ v, p.objects[i]? = some v ∧ heap[r]? = some v := by
  have hmap := congrArg (fun l => l[i]?) h.objects
  simp only [List.getElem?_map, hi, Option.map_some] at hmap
  obtain ⟨v, hv, heq⟩ := Option.map_eq_some_iff.mp hmap.symm
  exact ⟨v, hv, heq.symm⟩

/-- The map has no object that the caller does not have. -/
theorem missing (h : Agrees heap caller p) {i : Nat} (hi : caller.objects[i]? = none) :
    p.objects[i]? = none := by
  have hlength := congrArg List.length h.objects
  rw [List.length_map, List.length_map] at hlength
  rw [List.getElem?_eq_none_iff] at hi ⊢
  omega

theorem lt (h : Agrees heap caller p) {r : Ref} (hr : r ∈ caller.objects) : r < heap.length := by
  obtain ⟨i, hi⟩ := List.getElem?_of_mem hr
  obtain ⟨v, -, hv⟩ := h.value hi
  exact (List.getElem?_eq_some_iff.mp hv).1

/-- More objects elsewhere do not matter. -/
theorem mono (h : Agrees heap caller p) (hheap : heap <+: heap') : Agrees heap' caller p where
  objects := by
    rw [← h.objects]
    refine List.map_congr_left fun r hr => ?_
    obtain ⟨more, rfl⟩ := hheap
    exact List.getElem?_append_left (h.lt hr)
  distinct := h.distinct
  answers := h.answers

/-- The caller gets new objects. -/
theorem receive (h : Agrees heap caller p) (hheap : heap <+: heap') {refs : List Ref}
    {vs : List Json} (hvalues : refs.map (fun r => heap'[r]?) = vs.map some)
    (hfresh : ∀ r ∈ refs, heap.length ≤ r) (hrefs : refs.Nodup) (a : Answer) :
    Agrees heap' (caller.receive refs a) (p.receive vs a) where
  objects := by
    change (caller.objects ++ refs).map _ = (p.objects ++ vs).map some
    rw [List.map_append, List.map_append, (h.mono hheap).objects, hvalues]
  distinct := by
    refine List.nodup_append.mpr ⟨h.distinct, hrefs, fun r hr r' hr' heq => ?_⟩
    subst heq
    exact absurd (h.lt hr) (Nat.not_lt.mpr (hfresh r hr'))
  answers := by
    change caller.answers ++ [a] = p.answers ++ [a]
    rw [h.answers]

/-- The caller changes an object of its own. -/
theorem change (h : Agrees heap caller p) {i : Nat} {r : Ref} (hi : caller.objects[i]? = some r)
    (v : Json) : Agrees (heap.set r v) caller { p with objects := p.objects.set i v } where
  objects := by
    have hlength := congrArg List.length h.objects
    rw [List.length_map, List.length_map] at hlength
    have hlt := (List.getElem?_eq_some_iff.mp hi).1
    refine List.ext_getElem? fun j => ?_
    have hj := congrArg (fun l => l[j]?) h.objects
    simp only [List.getElem?_map] at hj ⊢
    by_cases hij : i = j
    · subst hij
      rw [hi, List.getElem?_set_self (hlength ▸ hlt), Option.map_some,
        List.getElem?_set_self (h.lt (List.mem_of_getElem? hi))]
      rfl
    · rw [List.getElem?_set_ne hij, ← hj]
      cases hother : caller.objects[j]? with
      | none => rfl
      | some r' =>
          have hne : r ≠ r' := by
            intro heq
            subst heq
            exact hij ((List.getElem?_inj hlt h.distinct).mp (hi.trans hother.symm))
          rw [Option.map_some, Option.map_some, List.getElem?_set_ne hne]
  distinct := h.distinct
  answers := h.answers

end Agrees

theorem map_of_forall₂ {heap : List Json} {refs : List Ref} {vs : List Json}
    (h : List.Forall₂ (fun r v => heap[r]? = some v) refs vs) :
    refs.map (fun r => heap[r]?) = vs.map some := by
  rw [← List.forall₂_eq_eq_eq, List.forall₂_map_left_iff, List.forall₂_map_right_iff]
  exact h

/-- The values of objects. -/
theorem valuesOf_ends {refs : List Ref} {vs : List Json}
    (h : refs.map (fun r => s.heap[r]?) = vs.map some) {Q : List Json → Store → Prop}
    {E : Halt → Store → Prop} (hQ : Q vs s) : (Prog.map valueOf refs).Ends s Q E := by
  induction refs generalizing vs Q with
  | nil =>
      obtain rfl : vs = [] := by simpa using h.symm
      exact hQ
  | cons r refs ih =>
      cases vs with
      | nil => cases h
      | cons v vs =>
          obtain ⟨hv, hvs⟩ := List.cons.inj h
          refine ends_bind.mpr ((valueOf_ends hv).mpr ?_)
          exact ends_bind.mpr (ih hvs hQ)

/-! ## `put` and `delete` -/

/-- A transaction goes on after it has read. -/
theorem InUnit.browses {r : Store} (h : InUnit c m s t u write) (hb : Browses c t r) :
    ∃ u', InUnit c m s r u' write ∧ u'.pending = u.pending := by
  obtain ⟨buckets, hsees⟩ := h.sees.browses hb
  exact ⟨_, ⟨hsees, hb.etcd.trans h.etcd, fun _ hx => h.faults (hb.faults hx), h.write, h.keys,
    h.pages⟩, rfl⟩

/-- What is pending is shown, and hides nothing else. -/
theorem current_set {u' : EtcdUnit} {kind identity : String} {r : Option Ref}
    (h : u'.pending = Pairs.set u.pending (kind, identity) r) (heap : List Json)
    (kind' identity' : String) : current m u' heap kind' identity' =
      if (kind, identity) = (kind', identity') then r.bind fun x => heap[x]?
      else current m u heap kind' identity' := by
  unfold current
  rw [h, Pairs.find_set]
  by_cases hkey : (kind, identity) = (kind', identity')
  · rw [if_pos hkey, if_pos hkey]
    cases r <;> rfl
  · rw [if_neg hkey, if_neg hkey]

/-- A record is pending; its object, if there is one, is on the heap. -/
theorem InUnit.pend (h : InUnit c m s t u write) {kind identity : String} {r : Option Ref}
    (hr : ∀ x ∈ r, x < t.heap.length) {effects : List (String × Unit)} :
    InUnit c m s
      { t with unit := some { u with
        pending := Pairs.set u.pending (kind, identity) r, effects := effects } }
      { u with pending := Pairs.set u.pending (kind, identity) r, effects := effects } write where
  sees := by
    refine ⟨h.sees.cached, rfl, h.sees.loaded, h.sees.content, fun key x hx => ?_⟩
    rw [Pairs.find_set] at hx
    by_cases hkey : (kind, identity) = key
    · rw [if_pos hkey, Option.some.injEq] at hx
      exact hr x hx
    · rw [if_neg hkey] at hx
      exact h.sees.pending key x hx
  etcd := h.etcd
  faults := h.faults
  write := h.write
  keys := Pairs.nodup_set h.keys
  pages := h.pages

/-- **`put` keeps a copy**, or refuses. -/
theorem put_ends (h : InUnit c m s t u write) {kind : String} (hkind : kind ∉ leasedKinds)
    {r : Ref} {v : Json} (hv : t.heap[r]? = some v) :
    (put kind r).Ends t
      (fun _ t' => write = true ∧ ∃ identity, identityOf v = some identity ∧ ∃ u',
        InUnit c m s t' u' write ∧ t'.heap = t.heap ++ [v] ∧
        u'.pending = Pairs.set u.pending (kind, identity) (some t.heap.length))
      fun e t' => t' = t ∧ ((write = false ∧ e = .fault .permissionDenied) ∨
        write = true ∧ identityOf v = none ∧ e = .crash) := by
  unfold put
  rw [ends_bind, theUnit_ends h.sees.unit, ends_bind, require_ends, h.write]
  refine ⟨fun hwrite => ?_, fun hwrite => ⟨rfl, .inl ⟨by simpa using hwrite, rfl⟩⟩⟩
  rw [ends_bind, valueOf_ends hv, if_neg fun hleased => hkind hleased.1]
  cases hid : identityOf v with
  | none => exact ends_raise.mpr ⟨rfl, .inr ⟨hwrite, rfl, rfl⟩⟩
  | some identity =>
      simp only
      rw [ends_bind, alloc_ends]
      obtain ⟨u', hu', hpending⟩ := h.browses (browses_alloc c t v)
      have hpend := @InUnit.pend _ _ _ _ _ _ hu' kind identity (some t.heap.length) (fun x hx => by
          rw [Option.mem_def, Option.some.injEq] at hx
          simp [← hx]) u'.effects
      have hunit : t.unit = some u' := hu'.sees.unit
      have hset : (some u').map (fun u : EtcdUnit => { u with
          pending := Pairs.set u.pending (kind, identity) (some t.heap.length) }) = some { u' with
        pending := Pairs.set u'.pending (kind, identity) (some t.heap.length) } := rfl
      refine ends_modify.mpr ⟨hwrite, identity, rfl, { u' with
        pending := Pairs.set u'.pending (kind, identity) (some t.heap.length) }, ?_, rfl, by
          rw [hpending]⟩
      rw [← hunit] at hset
      simp only [hset]
      exact hpend

/-- A record that is read names its lease rightly, or the deletion fails. -/
theorem endLease_ends (h : InUnit c m s t u write) {old : Nat} {r : Option Ref} {v : Option Json}
    (hr : Handed old t.heap r v) :
    (endLease r).Ends t
      (fun _ t' => v.any Plain.misleased = false ∧ ∃ effects,
        t' = { t with unit := some { u with effects := effects } })
      fun e t' => t' = t ∧ v.any Plain.misleased = true ∧ e = .crash := by
  have hself : t = { t with unit := some { u with effects := u.effects } } := by
    have hunit := h.sees.unit
    cases t
    cases hunit
    rfl
  cases r with
  | none =>
      obtain rfl : none = v := hr.value
      exact ends_pure.mpr ⟨rfl, u.effects, hself⟩
  | some x =>
      have hlt := (hr.fresh x rfl).2
      obtain rfl : t.heap[x]? = v := hr.value
      rw [List.getElem?_eq_getElem hlt, Option.any_some]
      unfold endLease Plain.misleased
      rw [ends_bind, valueOf_ends (List.getElem?_eq_getElem hlt)]
      by_cases hkey : flag t.heap[x] "lease_key" = true
      · rw [if_pos hkey, hkey, Bool.true_and]
        cases hname : (member t.heap[x] "lease_key").bind asString with
        | none => exact ends_raise.mpr ⟨rfl, rfl, rfl⟩
        | some key =>
            refine ends_modify.mpr ⟨rfl, Pairs.set u.effects key (), ?_⟩
            rw [h.sees.unit]
            rfl
      · rw [if_neg hkey]
        exact ends_pure.mpr ⟨by simp [hkey], u.effects, hself⟩

/-- **`delete` keeps that a record is gone**, or fails. -/
theorem delete_ends (hc : c.Sound) (h : InUnit c m s t u write) (kind identity : String) :
    (delete c kind identity).Ends t
      (fun _ t' => write = true ∧ (current m u t.heap kind identity).any Plain.misleased = false ∧
        t.heap <+: t'.heap ∧ ∃ u', InUnit c m s t' u' write ∧
        u'.pending = Pairs.set u.pending (kind, identity) none)
      fun e t' => Browses c t t' ∧ (Faulted t e ∨ (write = false ∧ e = .fault .permissionDenied) ∨
        write = true ∧ (current m u t.heap kind identity).any Plain.misleased = true ∧
          e = .crash) := by
  unfold delete
  rw [ends_bind, theUnit_ends h.sees.unit, ends_bind, require_ends, h.write]
  refine ⟨fun hwrite => ?_, fun hwrite => ⟨.refl c t, .inr (.inl ⟨by simpa using hwrite, rfl⟩)⟩⟩
  refine ((get_ends hc h.sees kind identity).mono (fun _ _ hr => hr) fun e t' he =>
    ⟨he.2, .inl he.1⟩).bind fun r t' hr => ?_
  obtain ⟨hb, hhanded⟩ := hr
  obtain ⟨u', hu', hpending⟩ := h.browses hb
  refine ((endLease_ends hu' hhanded).mono (fun _ _ hl => hl) fun e t'' he => ?_).bind
    fun _ t'' hl => ?_
  · obtain ⟨rfl, hmis, rfl⟩ := he
    exact ⟨hb, .inr (.inr ⟨hwrite, hmis, rfl⟩)⟩
  · obtain ⟨hmis, effects, rfl⟩ := hl
    refine ends_modify.mpr ⟨hwrite, hmis, hb.heap, { u' with
      pending := Pairs.set u'.pending (kind, identity) none, effects := effects }, ?_, by
        rw [hpending]⟩
    exact hu'.pend fun x hx => by cases hx

/-! ## One operation -/

/-- A transaction on its way, and the map on the same way. -/
structure Working (c : Codec) (m : Contents) (t : Store) (write : Bool) (u : EtcdUnit)
    (r : Store × Caller) (p : Plain) : Prop where
  unit : InUnit c m t r.1 u write
  shows : current m u r.1.heap = p.records.contents
  apart : ∀ key x, Pairs.find u.pending key = some (some x) → x ∉ r.2.objects
  agrees : Agrees r.1.heap r.2 p

/-- What is left of a transaction that fails. -/
structure Left (c : Codec) (t : Store) (r : Store × Caller) (p : Plain) : Prop where
  etcd : r.1.etcd = t.etcd
  cached : r.1.Cached c
  faults : r.1.faults ⊆ t.faults
  agrees : Agrees r.1.heap r.2 p

variable {r : Store × Caller}

namespace Working

theorem left (h : Working c m t write u r p) : Left c t r p :=
  ⟨h.unit.etcd, h.unit.sees.cached, h.unit.faults, h.agrees⟩

/-- A transaction that reads goes on as it was. -/
theorem browses (h : Working c m t write u r p) {v : Store} (hb : Browses c r.1 v) :
    ∃ u', Working c m t write u' (v, r.2) p := by
  obtain ⟨u', hu', hpending⟩ := h.unit.browses hb
  refine ⟨u', hu', ?_, hpending ▸ h.apart, h.agrees.mono hb.heap⟩
  rw [← h.shows]
  funext kind identity
  have hsame := hb.current (m := m) h.unit.sees.pending kind identity
  rw [← hsame]
  unfold current
  rw [hpending]

/-- An object that was not there is not one of the caller's, nor pending. -/
theorem receive (h : Working c m t write u r p) {v : Store} (hb : Browses c r.1 v)
    {refs : List Ref} {vs : List Json} (hvalues : refs.map (fun x => v.heap[x]?) = vs.map some)
    (hfresh : ∀ x ∈ refs, r.1.heap.length ≤ x) (hrefs : refs.Nodup) (a : List Json → Answer) :
    (receive refs a).Ends (v, r.2)
      (fun _ r' => ∃ u', Working c m t write u' r' (p.receive vs (a vs)))
      fun e r' => Left c t r' p ∧ Faulted t e := by
  obtain ⟨u', hu', hpending⟩ := h.unit.browses hb
  obtain ⟨u'', hw⟩ := h.browses hb
  obtain rfl : u' = u'' := Option.some.inj (hu'.sees.unit.symm.trans hw.unit.sees.unit)
  unfold Pages.receive
  rw [ends_bind, ends_first]
  refine valuesOf_ends hvalues (ends_modify.mpr ⟨u', hw.unit, hw.shows, fun key x hx hmem => ?_,
    h.agrees.receive hb.heap hvalues hfresh hrefs _⟩)
  rcases List.mem_append.mp hmem with hold | hnew
  · exact hw.apart key x hx hold
  · rw [hpending] at hx
    exact absurd (h.unit.sees.pending key x hx) (Nat.not_lt.mpr (hfresh x hnew))

/-- The caller gets nothing but an answer. -/
theorem answer (h : Working c m t write u r p) (a : Answer) {E : Halt → Store × Caller → Prop} :
    (Pages.receive [] fun _ => a).Ends r
      (fun _ r' => ∃ u', Working c m t write u' r' (p.receive [] a)) E :=
  ends_bind.mpr (ends_first.mpr (ends_pure.mpr (ends_modify.mpr ⟨u, h.unit, h.shows,
    fun key x hx hmem => h.apart key x hx (by simpa [Caller.receive] using hmem),
    @Agrees.receive _ _ _ _ h.agrees List.prefix_rfl [] [] rfl
      (fun _ hx => (List.not_mem_nil hx).elim) .nil a⟩)))

end Working

/-- Two lists in order that have all places where something is say the same. -/
theorem filterMap_of_cover {l l' : List String} (hl : l.Pairwise (· < ·)) (hl' : l'.Pairwise (· < ·))
    {f : String → Option Json} (h : ∀ x, f x ≠ none → x ∈ l) (h' : ∀ x, f x ≠ none → x ∈ l') :
    l.filterMap f = l'.filterMap f := by
  have hsome : ∀ l : List String, l.filterMap f = (l.filter fun x => (f x).isSome).filterMap f := by
    intro l
    rw [List.filterMap_filter]
    refine List.filterMap_congr fun x _ => ?_
    cases f x <;> rfl
  rw [hsome l, hsome l']
  refine congrArg (List.filterMap f) (List.Perm.eq_of_pairwise (fun x y _ _ hxy hyx =>
    absurd (hxy.trans hyx) (lt_irrefl x)) (hl.filter _) (hl'.filter _) ?_)
  refine (List.perm_ext_iff_of_nodup (hl.filter _).nodup (hl'.filter _).nodup).mpr fun x => ?_
  rw [List.mem_filter, List.mem_filter]
  refine and_congr_left fun hx => ?_
  have hne : f x ≠ none := Option.isSome_iff_ne_none.mp hx
  exact ⟨fun _ => h' x hne, fun _ => h x hne⟩

/-- The records of a kind are those of all identifiers that have one. -/
theorem Records.ofKind_eq {m : Records} {kind : String} {identities : List String}
    (hsorted : identities.Pairwise (· < ·))
    (hcover : ∀ identity, m.contents kind identity ≠ none → identity ∈ identities) :
    identities.filterMap (m.contents kind) = m.ofKind kind := by
  refine filterMap_of_cover hsorted (sorted_sortedSet _) hcover fun identity hne => ?_
  obtain ⟨v, hv⟩ := Option.ne_none_iff_exists'.mp hne
  exact mem_sortedSet.mpr (List.mem_map.mpr ⟨_, List.mem_filter.mpr
    ⟨Pairs.mem_of_find hv, by simp⟩, rfl⟩)

theorem Records.contents_without (m : Records) (kind identity kind' identity' : String) :
    (m.without kind identity).contents kind' identity' =
      if (kind, identity) = (kind', identity') then none else m.contents kind' identity' := by
  unfold Records.contents Records.without
  induction m with
  | nil => simp [Pairs.find]
  | cons e m ih =>
      obtain ⟨j, v⟩ := e
      by_cases hj : j = (kind, identity)
      · rw [List.filter_cons_of_neg (by simp [hj]), ih]
        by_cases hkey : (kind, identity) = (kind', identity')
        · rw [if_pos hkey, if_pos hkey]
        · rw [if_neg hkey, if_neg hkey, Pairs.find, if_neg (hj ▸ hkey)]
      · rw [List.filter_cons_of_pos (by simp [hj]), Pairs.find, Pairs.find, ih]
        by_cases hjk : j = (kind', identity')
        · rw [if_pos hjk, if_neg (fun hkey => hj (hjk.trans hkey.symm)), if_pos hjk]
        · rw [if_neg hjk, if_neg hjk]

/-- How one operation ends. -/
def Performed (c : Codec) (m : Contents) (t : Store) (write : Bool) (p : Plain) (op : Op)
    (x : Client Caller Unit) (r : Store × Caller) : Prop :=
  x.Ends r
    (fun _ r' => ∃ u' p', p.perform write op = .ok p' ∧ Working c m t write u' r' p')
    fun e r' => Left c t r' p ∧ (p.perform write op = .error e ∨ Faulted t e)

theorem Performed.of_answer {op : Op} {x : Client Caller Unit} {p' : Plain}
    (h : x.Ends r (fun _ r' => ∃ u', Working c m t write u' r' p')
      fun e r' => Left c t r' p ∧ Faulted t e)
    (hop : p.perform write op = .ok p') : Performed c m t write p op x r :=
  h.mono (fun _ _ hr' => hr'.elim fun u' hu' => ⟨u', p', hop, hu'⟩) fun _ _ he => ⟨he.1, .inr he.2⟩

/-- A program that fails when reading failed. -/
theorem Working.faulted (h : Working c m t write u r p) {v : Store} (hb : Browses c r.1 v)
    {e : Halt} (he : Faulted r.1 e) : Left c t (v, r.2) p ∧ Faulted t e := by
  obtain ⟨u', hw⟩ := h.browses hb
  exact ⟨hw.left, he.1, h.unit.faults he.2⟩

/-- An object of the caller is named rightly, or the map has none there either. -/
theorem mine_ends (h : Working c m t write u r p) {i : Nat} {op : Op} {f : Ref → Client Caller Unit}
    (hf : ∀ x v, r.2.objects[i]? = some x → p.objects[i]? = some v → r.1.heap[x]? = some v →
      Performed c m t write p op (f x) r)
    (hop : p.object i = .error .crash → p.perform write op = .error .crash) :
    Performed c m t write p op (mine i >>= f) r := by
  unfold Performed mine
  rw [ends_bind, ends_bind, ends_reads]
  simp only [id]
  cases hi : r.2.objects[i]? with
  | none =>
      refine ends_raise.mpr ⟨h.left, .inl (hop ?_)⟩
      unfold Plain.object
      rw [h.agrees.missing hi]
  | some x =>
      obtain ⟨v, hp, hv⟩ := h.agrees.value hi
      exact ends_pure.mpr (hf x v hi hp hv)

theorem Plain.object_ok {i : Nat} {v : Json} (h : p.objects[i]? = some v) : p.object i = .ok v := by
  unfold Plain.object
  rw [h]

/-- An object is changed. -/
theorem Working.change (h : Working c m t write u r p) {i : Nat} {x : Ref}
    (hi : r.2.objects[i]? = some x) (v : Json) :
    Working c m t write u ({ r.1 with heap := r.1.heap.set x v }, r.2)
      { p with objects := p.objects.set i v } where
  unit := by
    refine ⟨⟨h.unit.sees.cached, h.unit.sees.unit, h.unit.sees.loaded, h.unit.sees.content,
      fun key y hy => ?_⟩, h.unit.etcd, h.unit.faults, h.unit.write, h.unit.keys, h.unit.pages⟩
    rw [List.length_set]
    exact h.unit.sees.pending key y hy
  shows := by
    change current m u (r.1.heap.set x v) = p.records.contents
    rw [← h.shows]
    funext kind identity
    unfold current
    cases hfind : Pairs.find u.pending (kind, identity) with
    | none => rfl
    | some y =>
        cases y with
        | none => rfl
        | some y =>
            have hne : x ≠ y := fun heq =>
              h.apart _ y hfind (heq ▸ List.mem_of_getElem? hi)
            exact List.getElem?_set_ne hne
  apart := h.apart
  agrees := h.agrees.change hi v

/-- A record that is pending in both. -/
theorem Working.pend (h : Working c m t write u r p) {v : Store} (hheap : r.1.heap <+: v.heap)
    {u' : EtcdUnit} (hu' : InUnit c m t v u' write) {kind identity : String} {x : Option Ref}
    (hpending : u'.pending = Pairs.set u.pending (kind, identity) x)
    (hx : ∀ y ∈ x, r.1.heap.length ≤ y) (records : Records)
    (hrecords : ∀ kind' identity', records.contents kind' identity' =
      if (kind, identity) = (kind', identity') then x.bind fun y => v.heap[y]?
      else p.records.contents kind' identity') :
    Working c m t write u' (v, r.2) { p with records := records } where
  unit := hu'
  shows := by
    funext kind' identity'
    rw [current_set hpending, hrecords, ← h.shows]
    by_cases hkey : (kind, identity) = (kind', identity')
    · rw [if_pos hkey, if_pos hkey]
    · rw [if_neg hkey, if_neg hkey]
      unfold current
      cases hfind : Pairs.find u.pending (kind', identity') with
      | none => rfl
      | some y =>
          cases y with
          | none => rfl
          | some y =>
              obtain ⟨more, hmore⟩ := hheap
              exact hmore ▸ List.getElem?_append_left (h.unit.sees.pending _ y hfind)
  apart key y hy hmem := by
    rw [hpending, Pairs.find_set] at hy
    by_cases hkey : (kind, identity) = key
    · rw [if_pos hkey, Option.some.injEq] at hy
      exact absurd (h.agrees.lt hmem) (Nat.not_lt.mpr (hx y hy))
    · rw [if_neg hkey] at hy
      exact h.apart key y hy hmem
  agrees :=
    have hagrees := h.agrees.mono hheap
    ⟨hagrees.objects, hagrees.distinct, hagrees.answers⟩

/-- The caller gets objects that were handed out. -/
theorem Working.receiveAll (h : Working c m t write u r p) {v : Store} (hb : Browses c r.1 v)
    {refs : List Ref} {vs : List Json} (hhanded : HandedAll r.1.heap.length v.heap refs vs)
    (a : List Json → Answer) :
    (Pages.receive refs a).Ends (v, r.2)
      (fun _ r' => ∃ u', Working c m t write u' r' (p.receive vs (a vs)))
      fun e r' => Left c t r' p ∧ Faulted t e :=
  h.receive hb (map_of_forall₂ hhanded.values) (fun x hx => (hhanded.fresh x hx).1)
    hhanded.distinct a

/-- **One operation over pages is one operation of the map.** -/
theorem carryOut_ends (hc : c.Sound) (h : Working c m t write u r p) (op : Op) :
    Performed c m t write p op (carryOut c op) r := by
  have hshows : ∀ kind, current m u r.1.heap kind = p.records.contents kind := fun kind =>
    congrFun h.shows kind
  cases op with
  | get kind identity =>
      have hget : (get c kind.name identity).Ends r.1
          (fun x t' => Browses c r.1 t' ∧
            Handed r.1.heap.length t'.heap x (p.records.record kind.name identity))
          fun e t' => Faulted r.1 e ∧ Browses c r.1 t' := by
        cases identity with
        | none => exact ends_pure.mpr ⟨.refl c _, .none _ _⟩
        | some identity =>
            have hends := get_ends hc h.unit.sees kind.name identity
            rwa [congrFun (hshows kind.name) identity] at hends
      refine .of_answer (ends_bind.mpr (ends_first.mpr (hget.mono (fun x v hv => ?_)
        fun e v he => h.faulted he.2 he.1))) rfl
      obtain ⟨hb, hhanded⟩ := hv
      have hvalues : x.toList.map (fun y => v.heap[y]?) =
          (p.records.record kind.name identity).toList.map some := by
        rw [← hhanded.value]
        cases x with
        | none => rfl
        | some y => simp [List.getElem?_eq_getElem (hhanded.fresh y rfl).2]
      have hends := h.receive hb hvalues (fun y hy => (hhanded.fresh y (by simpa using hy)).1)
        (by cases x <;> simp) fun vs => .record vs.head?
      have hhead : (p.records.record kind.name identity).toList.head? =
          p.records.record kind.name identity := by
        cases p.records.record kind.name identity <;> rfl
      rwa [hhead] at hends
  | all kind =>
      refine .of_answer (ends_bind.mpr (ends_first.mpr ((all_ends hc h.unit.sees kind.name).mono
        (fun refs v hv => ?_) fun e v he => h.faulted he.2 he.1))) rfl
      obtain ⟨hb, identities, hsorted, hcover, hhanded⟩ := hv
      rw [hshows] at hcover hhanded
      rw [Records.ofKind_eq hsorted hcover] at hhanded
      exact h.receiveAll hb hhanded .records
  | children parent =>
      refine ends_bind.mpr (ends_first.mpr ((children_ends hc h.unit.sees parent).mono
        (fun refs v hv => ?_) fun e v he => ?_))
      · obtain ⟨hb, identities, hsorted, hcover, vs, hchildren, hhanded⟩ := hv
        rw [hshows] at hcover hchildren
        rw [Records.ofKind_eq hsorted hcover] at hchildren
        refine Performed.of_answer (h.receiveAll hb hhanded .records) ?_
        simp only [Plain.perform, hchildren]
        rfl
      · obtain ⟨hb, hfault | ⟨identities, hsorted, hcover, hchildren⟩⟩ := he
        · have hfaulted := h.faulted hb hfault
          exact ⟨hfaulted.1, .inr hfaulted.2⟩
        · rw [hshows] at hcover hchildren
          rw [Records.ofKind_eq hsorted hcover] at hchildren
          obtain ⟨u', hw⟩ := h.browses hb
          refine ⟨hw.left, .inl ?_⟩
          simp only [Plain.perform, hchildren]
          rfl
  | make v =>
      refine .of_answer (ends_bind.mpr (ends_first.mpr (alloc_ends.mpr ?_))) rfl
      exact @Working.receive _ _ _ _ _ _ _ h _ (browses_alloc c r.1 v) [r.1.heap.length] [v] (by simp)
        (fun x hx => (List.mem_singleton.mp hx).ge) (List.nodup_singleton _) fun _ => .done
  | look i =>
      refine mine_ends h (fun x v hi hp hv => ?_) fun hobject => by
        simp only [Plain.perform, hobject]
        rfl
      refine .of_answer (ends_bind.mpr (ends_first.mpr ((valueOf_ends hv).mpr
        (h.answer (.value v))))) ?_
      simp only [Plain.perform, Plain.object_ok hp]
      rfl
  | change i v =>
      refine mine_ends h (fun x w hi hp hv => ?_) fun hobject => by
        simp only [Plain.perform, hobject]
        rfl
      refine ends_bind.mpr (ends_first.mpr (ends_modify.mpr (((h.change hi v).answer .done).mono
        (fun _ r' hr' => ?_) fun _ _ he => he)))
      obtain ⟨u', hw⟩ := hr'
      refine ⟨u', _, ?_, hw⟩
      simp only [Plain.perform, Plain.object_ok hp]
      rfl
  | put kind i =>
      refine mine_ends h (fun x v hi hp hv => ?_) fun hobject => by
        simp only [Plain.perform, hobject]
        rfl
      refine ends_bind.mpr (ends_first.mpr ((put_ends h.unit kind.free hv).mono
        (fun _ t' ht' => ?_) fun e t' he => ?_))
      · obtain ⟨hwrite, identity, hid, u', hu', hheap, hpending⟩ := ht'
        have hw := h.pend (hheap ▸ List.prefix_append _ _) hu' hpending
          (fun y hy => (Option.some.inj hy).le)
          (Pairs.set p.records (kind.name, identity) v) fun kind' identity' => by
            rw [Records.contents, Pairs.find_set, hheap, Option.bind_some]
            simp [Records.contents]
        refine (hw.answer .done).mono (fun _ r' hr' => ?_) fun _ _ he => he
        obtain ⟨u'', hw'⟩ := hr'
        refine ⟨u'', _, ?_, hw'⟩
        simp only [Plain.perform, Plain.object_ok hp, hwrite, if_true, bind, Except.bind, hid]
      · obtain ⟨rfl, hcases⟩ := he
        refine ⟨h.left, .inl ?_⟩
        rcases hcases with ⟨hwrite, rfl⟩ | ⟨hwrite, hid, rfl⟩
        · simp [Plain.perform, Plain.object_ok hp, hwrite, bind, Except.bind]
        · simp [Plain.perform, Plain.object_ok hp, hwrite, bind, Except.bind, hid]
  | delete kind identity =>
      have hrecord : p.records.record kind.name (some identity) =
          current m u r.1.heap kind.name identity := (congrFun (hshows kind.name) identity).symm
      refine ends_bind.mpr (ends_first.mpr ((delete_ends hc h.unit kind.name identity).mono
        (fun _ t' ht' => ?_) fun e t' he => ?_))
      · obtain ⟨hwrite, hmis, hheap, u', hu', hpending⟩ := ht'
        have hw := h.pend hheap hu' hpending (fun y hy => by cases hy)
          (p.records.without kind.name identity) fun kind' identity' =>
            p.records.contents_without kind.name identity kind' identity'
        refine (hw.answer .done).mono (fun _ r' hr' => ?_) fun _ _ he => he
        obtain ⟨u'', hw'⟩ := hr'
        refine ⟨u'', _, ?_, hw'⟩
        simp only [Plain.perform, hwrite, if_true, hrecord, hmis, Bool.false_eq_true, if_false]
      · obtain ⟨hb, hcases⟩ := he
        obtain ⟨u', hw⟩ := h.browses hb
        refine ⟨hw.left, ?_⟩
        rcases hcases with hfault | ⟨hwrite, rfl⟩ | ⟨hwrite, hmis, rfl⟩
        · exact .inr (h.faulted hb hfault).2
        · exact .inl (by simp [Plain.perform, hwrite])
        · exact .inl (by simp [Plain.perform, hwrite, hrecord, hmis])

/-! ## Transactions -/

/-- **Operations over pages are operations of the map**, up to a call that fails. -/
theorem operations_ends (hc : c.Sound) (h : Working c m t write u r p) (ops : List Op) :
    (Prog.each (carryOut c) ops).Ends r
      (fun _ r' => ∃ u' q, p.performAll write ops = (none, q) ∧ Working c m t write u' r' q)
      fun e r' => ∃ q, Left c t r' q ∧ (p.performAll write ops = (some e, q) ∨
        Faulted t e ∧ ∃ done, p.performAll write (ops.take done) = (none, q)) := by
  induction ops generalizing r u p with
  | nil => exact ends_pure.mpr ⟨u, p, rfl, h⟩
  | cons op ops ih =>
      refine ends_bind.mpr ((carryOut_ends hc h op).mono (fun _ r' hr' => ?_) fun e r' he => ?_)
      · obtain ⟨u', p', hop, hw⟩ := hr'
        have hfirst : ∀ ops, p.performAll write (op :: ops) = p'.performAll write ops := by
          intro ops
          simp only [Plain.performAll, hop]
        rw [hfirst]
        refine (ih hw).mono (fun _ _ hq => hq) fun e r'' he => ?_
        obtain ⟨q, hleft, hown | ⟨hfault, done, hdone⟩⟩ := he
        · exact ⟨q, hleft, .inl hown⟩
        · exact ⟨q, hleft, .inr ⟨hfault, done + 1, by rw [List.take_succ_cons, hfirst, hdone]⟩⟩
      · obtain ⟨hleft, hown | hfault⟩ := he
        · exact ⟨p, hleft, .inl (by simp only [Plain.performAll, hown])⟩
        · exact ⟨p, hleft, .inr ⟨hfault, 0, rfl⟩⟩

/-- The caller sees how a transaction ended. -/
theorem Agrees.finish {heap : List Json} {caller : Caller} (h : Agrees heap caller q)
    (old : Records) (e : Option Halt) :
    Agrees heap (caller.receive [] (.ended e)) (q.finish old e) where
  objects := by simpa [Caller.receive, Plain.finish] using h.objects
  distinct := by simpa [Caller.receive] using h.distinct
  answers := by simp [Caller.receive, Plain.finish, h.answers]

/-- Who may not write has not changed the map. -/
theorem Plain.performAll_records {ops : List Op} {e : Option Halt}
    (h : p.performAll false ops = (e, q)) : q.records = p.records := by
  induction ops generalizing p with
  | nil =>
      obtain ⟨-, rfl⟩ := Prod.mk.inj h
      rfl
  | cons op ops ih =>
      unfold performAll at h
      cases hop : p.perform false op with
      | error e =>
          rw [hop] at h
          obtain ⟨-, rfl⟩ := Prod.mk.inj h
          rfl
      | ok p' =>
          rw [hop] at h
          refine (ih h).trans ?_
          cases op with
          | get kind identity =>
              obtain rfl := Except.ok.inj hop
              rfl
          | all kind =>
              obtain rfl := Except.ok.inj hop
              rfl
          | children parent =>
              unfold perform at hop
              cases hchildren : childrenOf parent (p.records.ofKind "node") with
              | error e => simp [hchildren, bind, Except.bind] at hop
              | ok vs =>
                  simp only [hchildren, bind, Except.bind, Except.ok.injEq] at hop
                  exact hop ▸ rfl
          | make v =>
              obtain rfl := Except.ok.inj hop
              rfl
          | look i =>
              unfold perform at hop
              cases hobject : p.object i with
              | error e => simp [hobject, bind, Except.bind] at hop
              | ok v =>
                  simp only [hobject, bind, Except.bind, Except.ok.injEq] at hop
                  exact hop ▸ rfl
          | change i v =>
              unfold perform at hop
              cases hobject : p.object i with
              | error e => simp [hobject, bind, Except.bind] at hop
              | ok w =>
                  simp only [hobject, bind, Except.bind, Except.ok.injEq] at hop
                  exact hop ▸ rfl
          | put kind i =>
              unfold perform at hop
              cases hobject : p.object i with
              | error e => simp [hobject, bind, Except.bind] at hop
              | ok v => simp [hobject, bind, Except.bind] at hop
          | delete kind identity => simp [perform] at hop

/-- What becomes of a transaction whose caller saw the map up to `q`. -/
structure Came (c : Codec) (k : RootKey) (s : Store) (p : Plain) (a : Attempt)
    (r : Store × Caller) : Prop where
  ended : Ended c k s r.1
  fate : ∃ fate : Fate, fate.Excused s ∧ Agrees r.1.heap r.2 (p.attempt a fate) ∧
    Represents c r.1.etcd k (p.attempt a fate).records.contents

/-- **A transaction over pages is a transaction of the map.** -/
theorem tryOut_ends (hc : c.Sound) {k : RootKey} {s : Store × Caller} (hs : s.1.Cached c)
    (hm : Represents c s.1.etcd k p.records.contents) (hp : Agrees s.1.heap s.2 p) (a : Attempt) :
    (tryOut c k a).Ends s (fun _ r => Came c k s.1 p a r) fun _ _ => False := by
  have hbody : ∀ t u, InUnit c p.records.contents t t u a.write → u.pending = [] →
      t.heap = s.1.heap → t.faults ⊆ s.1.faults → (a.body c).Ends (t, s.2)
        (fun _ r => ∃ u', InUnit c p.records.contents t r.1 u' a.write ∧ ∃ q,
          p.performAll a.write a.ops = (none, q) ∧ a.raises = none ∧
          current p.records.contents u' r.1.heap = q.records.contents ∧ Agrees r.1.heap r.2 q)
        fun e r => r.1.etcd = t.etcd ∧ r.1.Cached c ∧ r.1.faults ⊆ t.faults ∧ ∃ q,
          Agrees r.1.heap r.2 q ∧ (p.performAll a.write a.ops = (some e, q) ∨
            (p.performAll a.write a.ops = (none, q) ∧ a.raises = some e) ∨
            (e = .fault .serviceUnavailable ∧ true ∈ s.1.faults) ∧
              ∃ done, p.performAll a.write (a.ops.take done) = (none, q)) := by
    intro t u hu hpending hheap hfaults
    have hw : Working c p.records.contents t a.write u (t, s.2) p := by
      refine ⟨hu, ?_, fun key x hx => ?_, hheap.symm ▸ hp⟩
      · funext kind identity
        unfold current
        rw [hpending]
        rfl
      · rw [hpending] at hx
        cases hx
    unfold Attempt.body
    refine ends_bind.mpr ((operations_ends hc hw a.ops).mono (fun _ r hr => ?_) fun e r he => ?_)
    · obtain ⟨u', q, hq, hw'⟩ := hr
      cases hraises : a.raises with
      | none => exact ends_pure.mpr ⟨u', hw'.unit, q, hq, rfl, hw'.shows, hw'.agrees⟩
      | some e =>
          exact ends_raise.mpr ⟨hw'.left.etcd, hw'.left.cached, hw'.left.faults, q, hw'.agrees,
            .inr (.inl ⟨hq, rfl⟩)⟩
    · obtain ⟨q, hleft, hcases⟩ := he
      refine ⟨hleft.etcd, hleft.cached, hleft.faults, q, hleft.agrees, hcases.imp_right fun hf => ?_⟩
      exact .inr ⟨⟨hf.1.1, hfaults hf.1.2⟩, hf.2⟩
  unfold tryOut
  refine ends_bind.mpr (ends_attempt.mpr ((@transaction_ends _ _ _ _ hc _ a.owner _ _ _ hs hm
    (Q := fun _ m' heap caller => ∃ q, p.performAll a.write a.ops = (none, q) ∧ a.raises = none ∧
      m' = q.records.contents ∧ Agrees heap caller q)
    (E := fun e heap caller => ∃ q, Agrees heap caller q ∧
      (p.performAll a.write a.ops = (some e, q) ∨
        (p.performAll a.write a.ops = (none, q) ∧ a.raises = some e) ∨
        (e = .fault .serviceUnavailable ∧ true ∈ s.1.faults) ∧
          ∃ done, p.performAll a.write (a.ops.take done) = (none, q)))
    hbody).mono (fun _ r hr => ?_) fun e r he => ?_))
  · obtain ⟨hended, m', ⟨q, hq, hraises, rfl, hagrees⟩, hrep⟩ := hr
    refine ends_bind.mpr (ends_first.mpr (ends_pure.mpr (ends_modify.mpr ⟨hended, .through,
      trivial, ?_⟩)))
    have hattempt : p.attempt a .through = q.finish p.records none := by
      simp [Plain.attempt, Attempt.course, hq, hraises]
    rw [hattempt]
    refine ⟨hagrees.finish _ _, ?_⟩
    change Represents c r.1.etcd k q.records.contents
    cases hwrite : a.write with
    | true => simpa only [hwrite, if_true] using hrep
    | false =>
        rw [hwrite] at hq
        rw [Plain.performAll_records hq]
        simpa only [hwrite, Bool.false_eq_true, if_false] using hrep
  · obtain ⟨hended, hrep, hreason⟩ := he
    -- a transaction that fails gives the old records back, and the caller keeps what it has
    have hcame : ∀ fate : Fate, fate.Excused s.1 → ∀ q, Agrees r.1.heap r.2 q →
        p.attempt a fate = q.finish p.records (some e) →
        Came c k s.1 p a (r.1, r.2.receive [] (.ended (some e))) := by
      intro fate hexcused q hagrees hattempt
      refine ⟨hended, fate, hexcused, ?_⟩
      rw [hattempt]
      exact ⟨hagrees.finish _ _, hrep⟩
    refine ends_bind.mpr (ends_first.mpr (ends_pure.mpr (ends_modify.mpr ?_)))
    rcases hreason with ⟨q, hagrees, hq | ⟨hq, hraises⟩ | ⟨⟨rfl, hfault⟩, done, hq⟩⟩ |
      ⟨⟨rfl, hstopped⟩, hheap, hcaller⟩ | ⟨hfailed, _, m', q, hq, hraises, -, hagrees⟩
    · refine hcame .through trivial q hagrees ?_
      simp [Plain.attempt, Attempt.course, hq]
    · refine hcame .through trivial q hagrees ?_
      simp [Plain.attempt, Attempt.course, hq, hraises]
    · refine hcame (.stopped done) (.inl hfault) q hagrees ?_
      simp [Plain.attempt, Attempt.course, hq]
    · refine hcame (.stopped 0) hstopped p (by rw [hheap, hcaller]; exact hp) ?_
      simp [Plain.attempt, Attempt.course, Plain.performAll]
    · rcases hfailed with ⟨rfl, hstopped⟩ | rfl
      · refine hcame (.stopped a.ops.length) hstopped q hagrees ?_
        simp [Plain.attempt, Attempt.course, hq]
      · refine hcame .tooLarge trivial q hagrees ?_
        simp [Plain.attempt, Attempt.course, hq]

/-- A codec whose addresses are the payloads themselves, in digits. -/
def Codec.small : Codec where
  address p := String.ofList ('p' :: hex p)
  wire _ _ p := p
  payload _ w := some w
  shard identity := String.ofList ((hex (identity.toList.flatMap String.utf8EncodeChar)).take 2)

theorem Codec.small_sound : Codec.small.Sound where
  injective p q h := by
    have hlist : 'p' :: hex p = 'p' :: hex q := String.ofList_injective h
    exact hex_injective (List.cons.inj hlist).2
  nonempty p h := by
    have hlist := congrArg String.toList h
    simp [Codec.small] at hlist
  payload_wire _ _ _ := rfl

/-- A store over an etcd that holds nothing. -/
def Store.small (faults : List Bool) : Store := ⟨.empty, [], none, [], faults, 0⟩

/-- The kind of the nodes. -/
def nodeKind : PlainKind := ⟨"node", by decide⟩

/-- A node is put and read, and changed without being put again; then it is deleted, and the
caller gives up; then it is read again. -/
def smallAttempts : List Attempt :=
  [⟨true, [.make (.obj [("alive", .bool true), ("id", .str "a"), ("name", .str "f")]),
      .put nodeKind 0, .get nodeKind (some "a"), .change 0 .null, .get nodeKind (some "a")], none, 1⟩,
    ⟨true, [.delete nodeKind "a", .all nodeKind], some .crash, 2⟩,
    ⟨false, [.all nodeKind, .children none], none, 3⟩]

end Dfsha.Pages
