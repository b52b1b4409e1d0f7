import Dfsha.Protocol.Tree
import Dfsha.Refine.Steps
import Mathlib.Data.List.Induction
import Mathlib.Data.List.TakeWhile

/-!
# Commands as changes of the tree

Every command that writes nodes does so by changes of the tree, and each change comes with the
check that the command made: a name was free of reservations at some moment of the transaction,
a directory had no upload pending at some moment, or an upload that was still good is committed.

## Main definitions

* `Adds`, `Removes` — why a command may add or remove a node.
* `Grafts` — what a command does to the tree.
* `Planted` — what uploads remember of the place of their file.

## Main results

* `execute_grafts` — every command changes nodes by changes of the tree.
-/

namespace Dfsha

variable {app : App} {w : World}

/-! ## Paths -/

theorem piecesOf_append (s t : Text) : piecesOf (s ++ '/' :: t) = piecesOf s ++ piecesOf t := by
  simp [piecesOf, List.splitOn_append_cons_self]

theorem piecesOf_name {t : Text} (hs : '/' ∉ t) (hne : t ≠ []) : piecesOf t = [t] := by
  simp [piecesOf, List.splitOn_eq_singleton hs, hne]

@[simp] theorem piecesOf_nil : piecesOf [] = [] := by
  simp [piecesOf, List.splitOn_nil]

theorem rstrip_concat (s : Text) (c : Char) :
    rstrip (s ++ [c]) = if c = '/' then rstrip s else s ++ [c] := by
  unfold rstrip
  rw [List.reverse_append, List.reverse_singleton, List.singleton_append, List.dropWhile_cons]
  by_cases hc : c = '/'
  · simp [hc]
  · simp [hc]

/-- Slashes at the end do not count. -/
theorem piecesOf_rstrip (t : Text) : piecesOf (rstrip t) = piecesOf t := by
  induction t using List.reverseRecOn with
  | nil => rfl
  | append_singleton s c ih =>
      rw [rstrip_concat]
      split
      · rename_i hc
        rw [ih, hc, piecesOf_append, piecesOf_nil, List.append_nil]
      · rfl

/-- What is left does not end in a slash. -/
theorem rstrip_last {t s : Text} : rstrip t ≠ s ++ ['/'] := by
  induction t using List.reverseRecOn with
  | nil => simp [rstrip]
  | append_singleton u c ih =>
      rw [rstrip_concat]
      split
      · exact ih
      · rename_i hc
        intro he
        have := List.append_inj_right' he rfl
        simp only [List.cons.injEq, and_true] at this
        exact hc this

/-- A text is what stands before its last slash, the slash, and what stands after it. -/
theorem rpartition_eq {t p n : Text} (h : rpartition t = (p, n)) :
    '/' ∉ n ∧ (t = p ++ '/' :: n ∨ (p = [] ∧ t = n)) := by
  simp only [rpartition, Prod.mk.injEq] at h
  obtain ⟨rfl, rfl⟩ := h
  have hsplit : t.reverse.takeWhile (fun c => c ≠ '/') ++ t.reverse.dropWhile (fun c => c ≠ '/') =
      t.reverse := List.takeWhile_append_dropWhile
  refine ⟨fun hmem => ?_, ?_⟩
  · rw [List.mem_reverse] at hmem
    simpa using List.mem_takeWhile_imp hmem
  · have ht : t = (t.reverse.dropWhile fun c => c ≠ '/').reverse ++
        (t.reverse.takeWhile fun c => c ≠ '/').reverse := by
      rw [← List.reverse_append, hsplit, List.reverse_reverse]
    cases hd : t.reverse.dropWhile (fun c => c ≠ '/') with
    | nil =>
        rw [hd] at ht
        exact .inr ⟨rfl, ht⟩
    | cons c rest =>
        have hc : c = '/' := by
          have := List.head?_dropWhile_not (fun c => decide (c ≠ '/')) t.reverse
          rw [hd] at this
          simpa using this
        rw [hd, hc] at ht
        refine .inl ?_
        conv_lhs => rw [ht]
        simp

/-- The last piece of a path is its last name. -/
theorem piecesOf_rpartition {path p n : Text} (hne : rstrip path ≠ [])
    (h : rpartition (rstrip path) = (p, n)) :
    '/' ∉ n ∧ n ≠ [] ∧ piecesOf path = piecesOf p ++ [n] := by
  obtain ⟨hslash, hcase⟩ := rpartition_eq h
  have hn : n ≠ [] := by
    rintro rfl
    rcases hcase with he | ⟨-, he⟩
    · exact rstrip_last he
    · exact hne he
  refine ⟨hslash, hn, ?_⟩
  rw [← piecesOf_rstrip path]
  rcases hcase with he | ⟨rfl, he⟩
  · rw [he, piecesOf_append, piecesOf_name hslash hn]
  · rw [he, piecesOf_name hslash hn, piecesOf_nil, List.nil_append]

/-! ## Walking -/

theorem Sound.shift {a : Access} (hs : Sound app a) (k n : Nat) : Sound app (a.shift k n) :=
  have hshift : Acts app Trust.all a (a.shift k n) := acts_shift a k n
  hs.acts hshift

/-- Parents are unique, and the root has none. -/
theorem Sound.rooted {a : Access} (hs : Sound app a) : Rooted (Under a.nodes) app.root where
  single := by
    rintro k p q ⟨n, hn, hp⟩ ⟨m, hm, hq⟩
    rw [hn, Option.some.injEq] at hm
    rw [hm, hq] at hp
    exact (Option.some.inj hp).symm
  top := by
    rintro p ⟨n, hn, hp⟩
    obtain ⟨r, hr, -, hnone⟩ := hs.root
    rw [hr, Option.some.injEq] at hn
    rw [← hn, hnone] at hp
    cases hp

/-- What a path leads to is alive. -/
theorem Located.living {t : Table Node} {n : Node} (hroot : Living t app.root)
    (h : Located app t n) : n.alive = true := by
  cases h with
  | root hr _ _ =>
      obtain ⟨m, hm, ha⟩ := hroot
      rw [hr, Option.some.injEq] at hm
      exact hm ▸ ha
  | child _ _ _ ha _ => exact ha

/-- A path leads at most as deep as it is long. -/
theorem walkFrom_below {user : User} (hr : Rooted (Under w.access.nodes) app.root)
    {pieces : List Text} : ∀ {node n : Node} {d : Nat}, Located app w.access.nodes node →
      Below (Under w.access.nodes) app.root d node.id →
        (walkFrom app user pieces node) w = .ok n →
          ∃ e, e ≤ d + pieces.length ∧ Below (Under w.access.nodes) app.root e n.id := by
  induction pieces with
  | nil =>
      intro node n d _ hd h
      rw [walkFrom, Query.pure_ok] at h
      exact ⟨d, Nat.le_add_right _ _, h ▸ hd⟩
  | cons piece rest ih =>
      intro node n d hn hd h
      simp only [walkFrom, Query.bind_ok, access, Query.read_ok, need_ok] at h
      obtain ⟨_, hdir, _, -, a, rfl, h⟩ := h
      rw [List.length_cons]
      split at h
      · obtain ⟨e, he, hb⟩ := ih hn hd h
        exact ⟨e, by omega, hb⟩
      · split at h
        · split at h
          · obtain ⟨e, he, hb⟩ := ih hn hd h
            exact ⟨e, by omega, hb⟩
          · rename_i parent hp
            rw [Query.bind_ok] at h
            obtain ⟨m, hm, h⟩ := h
            rw [deref_ok] at hm
            obtain ⟨d', rfl, hd'⟩ := hr.above hd ⟨node, hn.get, hp⟩
            have hmid : m.id = parent := node_id_of_get hm
            obtain ⟨e, he, hb⟩ := ih (hn.parent hp hm) (hmid ▸ hd') h
            exact ⟨e, by omega, hb⟩
        · rw [Query.bind_ok] at h
          obtain ⟨m, hm, h⟩ := h
          rw [needSome_ok] at hm
          obtain ⟨hmem, ha, hp⟩ := mem_children.mp (List.mem_of_find?_eq_some hm)
          have hstep : Below (Under w.access.nodes) app.root (d + 1) m.id :=
            .step hd ⟨m, Table.get_of_mem hmem, hp⟩
          obtain ⟨e, he, hb⟩ := ih (.child hn hdir hmem ha hp) hstep h
          exact ⟨e, by omega, hb⟩

theorem walk_below {user : User} {path : Text} {n : Node} (hs : Sound app w.access)
    (h : (walk app user path) w = .ok n) :
    ∃ e, e ≤ (piecesOf path).length ∧ Below (Under w.access.nodes) app.root e n.id := by
  simp only [walk, Query.bind_ok, access, Query.read_ok, deref_ok] at h
  obtain ⟨_, -, _, -, a, rfl, root, hroot, h⟩ := h
  obtain ⟨r, hr, hk, hp⟩ := hs.root
  have he : root = r := Option.some.inj (hroot.symm.trans hr)
  have hid : root.id = app.root := node_id_of_get hroot
  have htop : Below (Under w.access.nodes) app.root 0 root.id := hid.symm ▸ Below.root
  obtain ⟨e, hle, hb⟩ := walkFrom_below hs.rooted (.root hroot (he ▸ hk) (he ▸ hp)) htop h
  exact ⟨e, by simpa using hle, hb⟩

/-- A walk goes on where an earlier one ended. -/
theorem walkFrom_trans {user : User} {xs ys : List Text} {m n : Node}
    (h' : (walkFrom app user ys m) w = .ok n) :
    ∀ {node : Node}, (walkFrom app user xs node) w = .ok m →
      (walkFrom app user (xs ++ ys) node) w = .ok n := by
  induction xs with
  | nil =>
      intro node h
      rw [walkFrom, Query.pure_ok] at h
      exact h ▸ h'
  | cons piece rest ih =>
      intro node h
      simp only [walkFrom, List.cons_append, Query.bind_ok, access, Query.read_ok, need_ok] at h ⊢
      obtain ⟨_, hdir, _, hreq, a, rfl, h⟩ := h
      refine ⟨(), hdir, (), hreq, w.access, rfl, ?_⟩
      split at h
      · rename_i hdot
        rw [if_pos hdot]
        exact ih h
      · rename_i hdot
        rw [if_neg hdot]
        split at h
        · rename_i hdots
          rw [if_pos hdots]
          split at h
          · exact ih h
          · rw [Query.bind_ok] at h ⊢
            obtain ⟨x, hx, h⟩ := h
            exact ⟨x, hx, ih h⟩
        · rename_i hdots
          rw [if_neg hdots]
          rw [Query.bind_ok] at h ⊢
          obtain ⟨x, hx, h⟩ := h
          exact ⟨x, hx, ih h⟩

/-- Who may write a directory may search it. -/
theorem require_search {user : User} {node : Option Node}
    (h : (require app user node 3) w = .ok ()) : (require app user node 1) w = .ok () := by
  unfold require at h ⊢
  split at h
  · rename_i hadmin
    rw [if_pos hadmin]
    exact Query.pure_ok.mpr rfl
  · rename_i hadmin
    rw [if_neg hadmin]
    simp only [Query.bind_ok, deref_ok] at h ⊢
    obtain ⟨n, hn, h⟩ := h
    refine ⟨n, hn, ?_⟩
    rw [if_neg (by simp)] at h
    split
    · exact Query.pure_ok.mpr rfl
    · simp only [Query.bind_ok, identity, Query.read_ok, need_ok] at h ⊢
      obtain ⟨i, hi, h⟩ := h
      refine ⟨i, hi, ?_⟩
      have hbit : ∀ p : Nat, p &&& 3 = 3 → p &&& 1 = 1 := fun p hp => by
        have hand : p &&& 3 &&& 1 = p &&& 1 := Nat.and_assoc p 3 1
        rw [← hand, hp]
        rfl
      exact hbit _ h

/-- What `Queries.parent` finds out about a path. -/
structure Placing (app : App) (w : World) (user : User) (ref : PathRef) (p : Node) (name : Text) :
    Prop where
  folder : p.kind = .directory
  located : Located app w.access.nodes p
  room : ∃ d, d ≤ 31 ∧ Below (Under w.access.nodes) app.root d p.id
  /-- When the name is there, the path is not one that leads nowhere. -/
  found : named w.access p.id name → (resolve app user ref) w ≠ .error (.fault .notFound)

/-! ### Paths do not depend on the time -/

section Later

variable {k : Nat}

theorem require_later {user : User} {node : Option Node} {bits : Nat} {u : Unit}
    (h : (require app user node bits) (w.setAccess (w.access.later k)) = .ok u) :
    (require app user node bits) w = .ok u := by
  unfold require at h ⊢
  split at h
  · rename_i hadmin
    rw [if_pos hadmin]
    exact h
  · rename_i hadmin
    rw [if_neg hadmin]
    simp only [Query.bind_ok, deref_ok] at h ⊢
    obtain ⟨n, hn, h⟩ := h
    refine ⟨n, hn, ?_⟩
    split at h
    · rename_i hdir
      rw [if_pos hdir]
      exact h
    · rename_i hdir
      rw [if_neg hdir]
      simp only [Query.bind_ok, identity, Query.read_ok, need_ok] at h ⊢
      exact h

theorem walkFrom_later {user : User} {pieces : List Text} : ∀ {node n : Node},
    (walkFrom app user pieces node) (w.setAccess (w.access.later k)) = .ok n →
      (walkFrom app user pieces node) w = .ok n := by
  induction pieces with
  | nil => exact fun h => h
  | cons piece rest ih =>
      intro node n h
      simp only [walkFrom, Query.bind_ok, access, Query.read_ok, need_ok] at h ⊢
      obtain ⟨_, hdir, _, hreq, a, rfl, h⟩ := h
      refine ⟨(), hdir, (), require_later hreq, w.access, rfl, ?_⟩
      split at h
      · rename_i hdot
        rw [if_pos hdot]
        exact ih h
      · rename_i hdot
        rw [if_neg hdot]
        split at h
        · rename_i hdots
          rw [if_pos hdots]
          split at h
          · exact ih h
          · rw [Query.bind_ok] at h ⊢
            obtain ⟨x, hx, h⟩ := h
            exact ⟨x, deref_ok.mpr (deref_ok.mp hx), ih h⟩
        · rename_i hdots
          rw [if_neg hdots]
          rw [Query.bind_ok] at h ⊢
          obtain ⟨x, hx, h⟩ := h
          exact ⟨x, needSome_ok.mpr (needSome_ok.mp hx), ih h⟩

theorem walk_later {user : User} {path : Text} {n : Node}
    (h : (walk app user path) (w.setAccess (w.access.later k)) = .ok n) :
    (walk app user path) w = .ok n := by
  simp only [walk, Query.bind_ok, access, Query.read_ok, deref_ok, need_ok] at h ⊢
  obtain ⟨_, h1, _, h2, a, rfl, root, hroot, h⟩ := h
  exact ⟨(), h1, (), h2, w.access, rfl, root, hroot, walkFrom_later h⟩

theorem pathOf_later {user : User} {ref : PathRef} {path : Text}
    (h : (pathOf app user ref) (w.setAccess (w.access.later k)) = .ok path) :
    (pathOf app user ref) w = .ok path := by
  simp only [pathOf, Query.bind_ok, need_ok] at h ⊢
  obtain ⟨_, h1, h⟩ := h
  refine ⟨(), h1, ?_⟩
  split at h
  · rename_i habs
    rw [if_pos habs]
    exact h
  · rename_i habs
    rw [if_neg habs]
    simp only [Query.bind_ok, need_ok, Query.attempt_ok] at h ⊢
    obtain ⟨_, h2, walked, hwalked, h⟩ := h
    split at h
    · rename_i cwd
      refine ⟨(), h2, .ok cwd, walk_later hwalked, ?_⟩
      simpa only [Query.bind_ok, need_ok, Query.pure_ok] using h
    · simp at h
    · simp at h
    · simp at h

theorem parentOf_later {user : User} {ref : PathRef} {x : Node × Text}
    (h : (parentOf app user ref) (w.setAccess (w.access.later k)) = .ok x) :
    (parentOf app user ref) w = .ok x := by
  simp only [parentOf, Query.bind_ok, need_ok, Query.pure_ok] at h ⊢
  obtain ⟨path, hpath, _, h1, _, h2, parent, hparent, _, h3, _, h4, _, h5, h⟩ := h
  exact ⟨path, pathOf_later hpath, (), h1, (), h2, parent, walk_later hparent, (), h3, (),
    require_later h4, (), h5, h⟩

end Later

/-- A path that leads nowhere is one whose walk ends nowhere. -/
theorem walk_notFound {user : User} {path : Text}
    (h : (walk app user path) w = .error (.fault .notFound)) :
    ∃ root, w.access.nodes.get app.root = some root ∧
      (walkFrom app user ((piecesOf path).map app.nfc) root) w = .error (.fault .notFound) := by
  simp only [walk, Query.bind_error, need_error, access, Query.read_ok] at h
  rcases h with ⟨-, he⟩ | ⟨_, -, ⟨-, he⟩ | ⟨_, -, he | ⟨a, rfl, he | ⟨root, hroot, h⟩⟩⟩⟩
  · cases he
  · cases he
  · exact absurd he Query.read_error
  · cases deref_error he
  · exact ⟨root, deref_ok.mp hroot, h⟩

/-- What is assumed of Unicode normalisation: it is idempotent, makes no slash and leaves ASCII
alone. -/
structure Normalizes (app : App) : Prop where
  idem : ∀ t, app.nfc (app.nfc t) = app.nfc t
  slash : ∀ t, '/' ∉ t → '/' ∉ app.nfc t
  ascii : ∀ t : Text, (∀ c ∈ t, c.toNat < 128) → app.nfc t = t

theorem parentOf_placing {user : User} {ref : PathRef} {p : Node} {name : Text}
    (hn : Normalizes app) (hs : Sound app w.access)
    (h : (parentOf app user ref) w = .ok (p, name)) :
    NameOk app name ∧ Placing app w user ref p name := by
  have hloc := parentOf_ok hs h
  simp only [parentOf, Query.bind_ok, need_ok, Query.pure_ok, Prod.mk.injEq] at h
  obtain ⟨path, hpath, _, ⟨hne, -⟩, _, hname, parent, hw, _, hdir, _, hreq, _, hlen, rfl, rfl⟩ := h
  generalize hparts : rpartition (rstrip path) = parts at *
  obtain ⟨above, raw⟩ := parts
  obtain ⟨hslash, hraw, hpieces⟩ := piecesOf_rpartition hne hparts
  obtain ⟨hempty, hdot, hdots, hshort, hback, hnul⟩ := hname
  have hok : NameOk app (app.nfc raw) :=
    ⟨hn.idem raw, hempty, hdot, hdots, hshort, hn.slash raw hslash, hback, hnul⟩
  refine ⟨hok, hdir, hloc, ?_, fun hnamed => ?_⟩
  · obtain ⟨e, he, hb⟩ := walk_below hs hw
    have hlen' : (piecesOf above).length ≤ 31 := by
      rw [List.append_assoc, List.singleton_append, piecesOf_append,
        piecesOf_name (hn.slash raw hslash) hempty, List.length_append, List.length_singleton] at hlen
      exact Nat.le_of_succ_le_succ hlen
    refine ⟨e, he.trans ?_, hb⟩
    split
    · simp [show piecesOf ['/'] = [] from rfl]
    · exact hlen'
  · intro herr
    rw [resolve, Query.bind_error] at herr
    rcases herr with herr | ⟨path', hpath', herr⟩
    · rw [hpath] at herr
      cases herr
    rw [hpath, Except.ok.injEq] at hpath'
    subst hpath'
    obtain ⟨root, hroot, herr⟩ := walk_notFound herr
    -- The walk to the directory succeeds, and one more step finds the name.
    simp only [walk, Query.bind_ok, access, Query.read_ok, deref_ok] at hw
    obtain ⟨_, -, _, -, a, rfl, root', hroot', hw⟩ := hw
    rw [hroot, Option.some.injEq] at hroot'
    subst hroot'
    have habove : piecesOf (if above = [] then ['/'] else above) = piecesOf above := by
      split
      · rename_i he
        rw [he]
        rfl
      · rfl
    rw [habove] at hw
    obtain ⟨n, hfind⟩ : ∃ n, (children w.access parent.id).find? (fun n => n.name = app.nfc raw) =
        some n := by
      obtain ⟨n, hmem, hname⟩ := hnamed
      rw [← Option.isSome_iff_exists, List.find?_isSome]
      exact ⟨n, hmem, by simpa using hname⟩
    have hstep : (walkFrom app user [app.nfc raw] parent) w = .ok n := by
      simp only [walkFrom, Query.bind_ok, access, Query.read_ok, need_ok]
      refine ⟨(), hdir, (), require_search hreq, w.access, rfl, ?_⟩
      rw [if_neg hdot, if_neg hdots]
      simp only [Query.bind_ok, needSome_ok, Query.pure_ok]
      exact ⟨n, hfind, rfl⟩
    have hwhole := walkFrom_trans hstep hw
    rw [hpieces, List.map_append, List.map_singleton, hwhole] at herr
    cases herr

/-! ## What commands do to the tree -/

/-- A reading of the wall clock between two states of one transaction. -/
def Access.Within (a b : Access) (t : Nat) : Prop :=
  ∃ i, a.phase ≤ i ∧ i ≤ b.phase ∧ a.clk.wall i = t

/-- The clock is read some time after a transaction began. -/
theorem Access.within_later {a b : Access} {k : Nat} (hk : a.phase + k ≤ b.phase) :
    a.Within b (a.later k).now := ⟨a.phase + k, Nat.le_add_right _ _, hk, rfl⟩

/-- At this time no upload in preparation holds the name. -/
def Unreserved (a : Access) (p : Id) (name : Text) (t : Nat) : Prop :=
  ∀ o ∈ a.uploads.all, o.parent = some p → o.name = name → o.state = .preparing → o.expires ≤ t

/-- The name of the directory of accounts. -/
def homeName : Text := ['h', 'o', 'm', 'e']

/-- Why a command may add a node. -/
inductive Adds (app : App) (cmd : Command) (w v : World) (n : Node) : Prop
  /-- The name was free of reservations at some moment. -/
  | unreserved {p : Id} {t : Nat} :
      n.parent = some p → Folder w.access.nodes p → w.access.Within v.access t →
      Unreserved w.access p n.name t → Adds app cmd w v n
  /-- An upload that was still good is committed. -/
  | upload {req : CommitUploadRequest} {o : Operation} {p : Id} {t : Nat} :
      cmd = .commitUpload req → o.id = req.operation.operationId → o ∈ w.access.uploads.all →
      o.kind = .upload → o.state = .preparing → o.base = none → w.access.Within v.access t →
      t < o.expires → o.parent = some p → n.parent = some p → n.name = o.name →
      Folder w.access.nodes p → Adds app cmd w v n
  /-- An account is given its directory, in whatever has the name of the directory of accounts. -/
  | account {username password : Text} {home : Node} :
      cmd = .createUser username password → (∀ u ∈ w.identity.users.all, u.username ≠ username) →
      home ∈ children w.access app.root → home.name = homeName → n.parent = some home.id →
      n.name = username → Adds app cmd w v n

/-- A directory is removed at a moment when no upload into it is pending. -/
def Removes (w v : World) (n : Node) : Prop :=
  n.kind = .directory → ∃ t, w.access.Within v.access t ∧
    ∀ o ∈ w.access.uploads.all, o.parent = some n.id → o.state = .preparing → o.expires ≤ t

/-- What a command does to the tree. -/
structure Grafts (app : App) (cmd : Command) (w v : World) : Prop where
  onward : w.access.Onward v.access
  acts : TreeActs app (Adds app cmd w v) (Removes w v) w.access.nodes v.access.nodes
  counts : Counts w.access.nodes v.access.nodes

/-- The nodes stay, and time passes. -/
def Stays (w v : World) : Prop := v.access.nodes = w.access.nodes ∧ w.access.Onward v.access

theorem Access.Onward.refl (a : Access) : a.Onward a := ⟨rfl, Nat.le_refl _⟩

theorem Access.Onward.trans {a b c : Access} (h : a.Onward b) (h' : b.Onward c) : a.Onward c :=
  ⟨h'.1.trans h.1, h.2.trans h'.2⟩

instance : Steady Stays where
  refl _ := ⟨rfl, .refl _⟩
  trans h h' := ⟨h'.1.trans h.1, h.2.trans h'.2⟩

instance : AllowsRest Stays := ⟨fun _ _ h ho => ⟨congrArg Prod.fst h, ho⟩⟩
instance : AllowsSnapshots Stays := ⟨fun _ _ => ⟨rfl, .refl _⟩⟩
instance : AllowsHandles Stays := ⟨fun _ _ _ => ⟨rfl, .refl _⟩⟩
instance : AllowsRetired Stays := ⟨fun _ _ => ⟨rfl, .refl _⟩⟩
instance : AllowsWork Stays := ⟨fun _ _ _ _ => ⟨rfl, .refl _⟩⟩
instance : AllowsCopies Stays := ⟨fun _ _ => ⟨rfl, .refl _⟩⟩
instance : AllowsPolicies Stays := ⟨fun _ _ => ⟨rfl, .refl _⟩⟩
instance : AllowsIdentity Stays := ⟨fun _ _ => ⟨rfl, .refl _⟩⟩
instance : AllowsMemory Stays := ⟨fun _ _ _ _ => ⟨rfl, .refl _⟩⟩
instance : AllowsLedger Stays := ⟨fun _ _ => ⟨rfl, .refl _⟩⟩

/-- A transaction that writes no node. -/
theorem stays {α : Type} {x : T α} [hx : Respects Stays x] {w : World} {r : α × World}
    (h : x w = .ok r) : Stays w r.2 := hx.respects w r h

namespace Grafts

variable {cmd : Command} {v u : World}

theorem of_stays (h : Stays w v) : Grafts app cmd w v where
  onward := h.2
  acts := h.1 ▸ .refl
  counts := h.1 ▸ .refl _

/-- Time passes before a command does something to the tree. -/
theorem before {k : Nat} (h : Grafts app cmd (w.setAccess (w.access.later k)) v) :
    Grafts app cmd w v where
  onward := ⟨h.onward.1, (Nat.le_add_right _ _).trans h.onward.2⟩
  counts := h.counts
  acts := by
    have hw : ∀ {t}, (w.access.later k).Within v.access t → w.access.Within v.access t := by
      rintro t ⟨i, hi, hi', ht⟩
      exact ⟨i, (Nat.le_add_right _ _).trans hi, hi', ht⟩
    refine TreeActs.mono (fun n hn => ?_) (fun n hn hk => ?_) h.acts
    · cases hn with
      | unreserved hp hf ht hfree => exact .unreserved hp hf (hw ht) hfree
      | upload hc hid ho hkind hst hb ht hlt hop hp hname hf =>
          exact .upload hc hid ho hkind hst hb (hw ht) hlt hop hp hname hf
      | account hc hu hh hhome hp hname => exact .account hc hu hh hhome hp hname
    · obtain ⟨t, ht, hfree⟩ := hn hk
      exact ⟨t, hw ht, hfree⟩

/-- What follows leaves the tree alone. -/
theorem after (h : Grafts app cmd w v) (hs : Stays v u) : Grafts app cmd w u where
  onward := h.onward.trans hs.2
  counts := hs.1 ▸ h.counts
  acts := by
    have hw : ∀ {t}, w.access.Within v.access t → w.access.Within u.access t := by
      rintro t ⟨i, hi, hi', ht⟩
      exact ⟨i, hi, hi'.trans hs.2.2, ht⟩
    rw [hs.1]
    refine TreeActs.mono (fun n hn => ?_) (fun n hn hk => ?_) h.acts
    · cases hn with
      | unreserved hp hf ht hfree => exact .unreserved hp hf (hw ht) hfree
      | upload hc hid ho hkind hst hb ht hlt hop hp hname hf =>
          exact .upload hc hid ho hkind hst hb (hw ht) hlt hop hp hname hf
      | account hc hu hh hhome hp hname => exact .account hc hu hh hhome hp hname
    · obtain ⟨t, ht, hfree⟩ := hn hk
      exact ⟨t, hw ht, hfree⟩

end Grafts

/-- What uploads remember of the place of their file. -/
structure Planted (app : App) (a : Access) : Prop where
  root : Living a.nodes app.root
  uploads : ∀ o ∈ a.uploads.all, o.kind = .upload → o.base = none → ∃ p, o.parent = some p ∧
    Folder a.nodes p ∧ Roomy app a.nodes p ∧ NameOk app o.name

theorem Planted.later {a : Access} (h : Planted app a) (k : Nat) : Planted app (a.later k) :=
  ⟨h.root, h.uploads⟩

/-! ### One node and its directory -/

section Hang

variable {adds removes : Node → Prop} {t : Table Node} {n p : Node}

/-- A node is written, and its directory written back. -/
theorem treeActs_hang (h : TreeAct app adds removes t (t.put n)) (hp : t.get p.id = some p)
    (hne : p.id ≠ n.id) :
    TreeActs app adds removes t ((t.put n).put { p with revision := p.revision + 1 }) :=
  (Relation.ReflTransGen.single h).tail
    (.touch (m := p) ((Table.get_put_of_ne t hne).trans hp) ⟨rfl, rfl, rfl⟩ rfl)

/-- A new node is counted by its directory. -/
theorem counts_new (hnone : t.get n.id = none) (hp : t.get p.id = some p)
    (hpar : n.parent = some p.id) :
    Counts t ((t.put n).put { p with revision := p.revision + 1 }) := by
  refine .hang hp (fun he => ?_) hpar fun m hm => ?_
  · rw [he, hnone] at hp
    cases hp
  · rw [hnone] at hm
    cases hm

/-- A node and its directory are written back. -/
theorem counts_both {m : Node} (hm : t.get n.id = some m) (same : SamePlace n m)
    (halive : n.alive = m.alive) (hrev : m.revision ≤ n.revision) (hp : t.get p.id = some p)
    (hne : p.id ≠ n.id) : Counts t ((t.put n).put { p with revision := p.revision + 1 }) :=
  (Counts.touch hm same halive hrev).trans
    (.touch (m := p) ((Table.get_put_of_ne t hne).trans hp) ⟨rfl, rfl, rfl⟩ rfl (Nat.le_succ _))

/-- A name that no child has. -/
theorem free_of_not_named {a : Access} {k : Id} {name : Text} (h : ¬ named a k name) :
    ∀ m ∈ a.nodes.all, m.alive = true → m.parent = some k → m.name ≠ name :=
  fun m hm ha hp he => h ⟨m, mem_children.mpr ⟨hm, ha, hp⟩, he⟩

theorem unreserved_of_not {a b : Access} {k : Id} {name : Text} (h : ¬ reserved b k name)
    (hb : b.uploads = a.uploads) : Unreserved a k name b.now := by
  intro o ho hp hname hst
  by_contra hlt
  exact h ⟨o, hb ▸ ho, hp, hname, hst, Nat.lt_of_not_le hlt⟩

end Hang

/-! ### The commands -/

section Commands

variable (hn : Normalizes app)
include hn

theorem mkdir_grafts {user : User} {path : PathRef} {cmd : Command} {r : Response × World}
    (hs : Sound app w.access) (hpl : Planted app w.access)
    (h : (mkdir app user path) w = .ok r) : Grafts app cmd w r.2 := by
  simp only [mkdir, ↓run_access, ↓run_need, run_query, run_draw, run_putNode, run_bump,
    setAccess_access, setAccess_setAccess, Access.later_later, Access.later_shift, Nat.reduceAdd,
    Tx.pure_ok] at h
  obtain ⟨⟨p, name⟩, hp, hfree, hres, -, -, e, -, rfl⟩ := h
  obtain ⟨hname, hplace⟩ := parentOf_placing hn hs hp
  have hget := hplace.located.get
  have hnone : w.access.nodes.get (app.uuid w.access.issued) = none :=
    get_none_of_unused_node hs.next_unused
  refine ⟨⟨rfl, ?_⟩, treeActs_hang (.add (p := p.id) hnone rfl rfl hplace.room
    ⟨p, hget, hplace.located.living hpl.root⟩ (free_of_not_named hfree) hname ?_) hget ?_,
    counts_new hnone hget rfl⟩
  · simp only [setAccess_access, Access.shift, Access.later]
    omega
  · refine .unreserved rfl ⟨p, hget, hplace.folder⟩ (Access.within_later (k := 1) ?_)
      (unreserved_of_not hres rfl)
    simp only [setAccess_access, Access.shift, Access.later]
    omega
  · intro he
    have he' : p.id = app.uuid w.access.issued := he
    rw [← he', hget] at hnone
    cases hnone

omit hn in
theorem validChar_ascii {c : Char} (h : c.isAlphanum = true ∨ c = '_' ∨ c = '-') :
    c.toNat < 128 := by
  rcases h with h | rfl | rfl
  · rcases Bool.or_eq_true_iff.mp h with h | h
    · rcases Bool.or_eq_true_iff.mp h with h | h
      · have hle : c.val ≤ 'Z'.val := (of_decide_eq_true h).2
        exact Nat.lt_of_le_of_lt (UInt32.le_iff_toNat_le.mp hle) (by decide)
      · have hle : c.val ≤ 'z'.val := of_decide_eq_true (Bool.and_eq_true_iff.mp h).2
        exact Nat.lt_of_le_of_lt (UInt32.le_iff_toNat_le.mp hle) (by decide)
    · have hle : c.val ≤ '9'.val := of_decide_eq_true (Bool.and_eq_true_iff.mp h).2
      exact Nat.lt_of_le_of_lt (UInt32.le_iff_toNat_le.mp hle) (by decide)
  · decide
  · decide

omit hn in
theorem utf8Length_ascii {t : Text} (h : ∀ c ∈ t, c.toNat < 128) : utf8Length t = t.length := by
  have hone : ∀ c ∈ t, c.utf8Size = 1 := by
    intro c hc
    have hle : c.val ≤ 0x7f := by
      rw [UInt32.le_iff_toNat_le]
      exact Nat.le_of_lt_succ (h c hc)
    simp [Char.utf8Size, hle]
  rw [utf8Length, List.map_congr_left hone]
  simp

/-- A valid account name may be the name of a directory. -/
theorem nameOk_of_validName {t : Text} (h : validName t) : NameOk app t := by
  obtain ⟨hpos, hle, hchars⟩ := h
  have hascii : ∀ c ∈ t, c.toNat < 128 := fun c hc => validChar_ascii (hchars c hc)
  have hnot : ∀ c : Char, ¬ (c.isAlphanum = true ∨ c = '_' ∨ c = '-') → c ∉ t :=
    fun c hbad hmem => hbad (hchars c hmem)
  refine ⟨hn.ascii t hascii, ?_, ?_, ?_, ?_, hnot _ (by decide), hnot _ (by decide),
    hnot _ (by decide)⟩
  · rintro rfl
    exact absurd hpos (by decide)
  · rintro rfl
    exact hnot '.' (by decide) (by simp)
  · rintro rfl
    exact hnot '.' (by decide) (by simp)
  · rw [utf8Length_ascii hascii]
    omega

/-- The path of the directory of accounts leads to a child of the root. -/
theorem walk_home {user : User} {n : Node}
    (h : (walk app user ['/', 'h', 'o', 'm', 'e']) w = .ok n) :
    n ∈ children w.access app.root ∧ n.name = homeName := by
  have hpieces : (piecesOf ['/', 'h', 'o', 'm', 'e']).map app.nfc = [homeName] := by
    have : piecesOf ['/', 'h', 'o', 'm', 'e'] = [homeName] := by decide
    have hvalid : validName homeName := by decide
    rw [this, List.map_singleton, hn.ascii homeName fun c hc => validChar_ascii (hvalid.2.2 c hc)]
  simp only [walk, hpieces, Query.bind_ok, access, Query.read_ok, deref_ok,
    walkFrom] at h
  obtain ⟨_, -, _, -, a, rfl, root, hroot, _, -, _, -, b, rfl, h⟩ := h
  rw [if_neg (by decide), if_neg (by decide)] at h
  simp only [Query.bind_ok, needSome_ok, Query.pure_ok] at h
  obtain ⟨m, hm, rfl⟩ := h
  have hid : root.id = app.root := node_id_of_get hroot
  rw [hid] at hm
  exact ⟨List.mem_of_find?_eq_some hm, by simpa using List.find?_some hm⟩

theorem createUser_grafts {user : User} {username password : Text} {r : Response × World}
    (hs : Sound app w.access)
    (h : (createUser app user username password) w = .ok r) :
    Grafts app (.createUser username password) w r.2 := by
  unfold createUser at h
  simp only [↓run_need, run_query, run_draw, setAccess_access, setAccess_setAccess,
    Access.later_later, Access.later_shift, Nat.reduceAdd, identity, Query.read_ok] at h
  obtain ⟨-, hvalid, i, rfl, hnew, h⟩ := h
  obtain ⟨digest, s, k, n, -, hacc, h⟩ := run_quiet h
  obtain ⟨_, s₁, k₁, n₁, -, hacc₁, h⟩ := run_quiet h
  obtain ⟨_, s₂, k₂, n₂, -, hacc₂, h⟩ := run_quiet h
  have hshift : s₂.access = w.access.shift (5 + k + k₁ + k₂) (1 + n + n₁ + n₂) := by
    rw [hacc₂, hacc₁, hacc]
    simp only [setAccess_access, Access.shift_shift]
  simp only [↓run_access, ↓run_need, run_query, run_draw, run_putNode, run_bump, setAccess_access,
    setAccess_setAccess, Access.later_later, Access.later_shift, Nat.reduceAdd, Tx.pure_ok] at h
  obtain ⟨home, hhome, hfree, -, -, rfl⟩ := h
  have hs₂ : Sound app s₂.access := hshift ▸ hs.shift _ _
  have hnodes : s₂.access.nodes = w.access.nodes := by rw [hshift]; rfl
  obtain ⟨hmem, hname⟩ := walk_home hn hhome
  have hget : w.access.nodes.get home.id = some home := hnodes ▸ (walk_ok hs₂ hhome).get
  have hchild := mem_children.mp hmem
  rw [hnodes] at hchild
  have hnone : w.access.nodes.get (app.uuid s₂.access.issued) = none :=
    hnodes ▸ get_none_of_unused_node hs₂.next_unused
  have hfree' : ∀ m ∈ w.access.nodes.all, m.alive = true → m.parent = some home.id →
      m.name ≠ username := hnodes ▸ free_of_not_named hfree
  have hacts : ∀ v : World, TreeActs app (Adds app (.createUser username password) w v)
      (Removes w v) w.access.nodes
        ((w.access.nodes.put (newNode (app.uuid s₂.access.issued) username home.id
          (app.uuid w.access.issued) true 448)).put { home with revision := home.revision + 1 }) := by
    intro v
    refine treeActs_hang (.add (p := home.id) hnone rfl rfl
      ⟨1, by omega, .step .root ⟨home, hget, hchild.2.2⟩⟩ ⟨home, hget, hchild.2.1⟩ hfree'
      (nameOk_of_validName hn hvalid) (.account rfl (fun u hu he => hnew ⟨u, hu, he⟩)
        (mem_children.mpr hchild) hname rfl rfl)) hget fun he => ?_
    have he' : home.id = app.uuid s₂.access.issued := he
    rw [← he', hget] at hnone
    cases hnone
  refine ⟨⟨by simp [hshift, Access.shift, Access.later], ?_⟩, ?_, ?_⟩
  · simp only [setAccess_access, Access.shift, Access.later, hshift]
    omega
  · simp only [setAccess_access, Access.shift_nodes, hnodes]
    exact hacts _
  · simp only [setAccess_access, Access.shift_nodes, hnodes]
    exact counts_new hnone hget rfl

omit hn

/-- What `operation` checks of the place. -/
theorem commandsOperation_place {user : User} {session : Session} {reference : OperationRef}
    {fence : Option Fence} {op : Operation}
    (h : (commandsOperation app user session reference fence) w = .ok op) :
    ∃ p, op.parent = some p ∧ Living w.access.nodes p := by
  simp only [commandsOperation, Query.bind_ok, access, Query.read_ok, needSome_ok, need_ok,
    Query.pure_ok] at h
  obtain ⟨a, rfl, o, -, _, -, _, -, _, -, _, hp, _, -, _, -, _, -, rfl⟩ := h
  cases hb : o.parent with
  | none => simp [hb] at hp
  | some p =>
      cases hg : w.access.nodes.get p with
      | none => simp [hb, hg] at hp
      | some n => exact ⟨p, rfl, n, hg, by simpa [hb, hg] using hp⟩

theorem operation_place {user : User} {session : Session} {reference : OperationRef}
    {fence : Option Fence} {op : Operation}
    (h : (operation app user session reference fence) w = .ok op) :
    ∃ p, op.parent = some p ∧ Living w.access.nodes p := by
  rw [operation] at h
  split at h
  · simp only [accessOperation, Query.bind_ok, need_ok] at h
    obtain ⟨o, ho, _, -, h⟩ := h
    have hoo : o = op := by
      split at h
      · exact Query.pure_ok.mp h
      · rw [Query.bind_ok] at h
        obtain ⟨_, -, h⟩ := h
        exact Query.pure_ok.mp h
    exact hoo ▸ commandsOperation_place ho
  · exact commandsOperation_place h

theorem commandsCommitUpload_grafts {user : User} {session : Session} {req : CommitUploadRequest}
    {r : CommitResult × World} (hs : Sound app w.access) (hpl : Planted app w.access)
    (h : (commandsCommitUpload app user session req) w = .ok r) :
    Grafts app (.commitUpload req) w r.2 := by
  unfold commandsCommitUpload at h
  simp only [↓run_need, ↓run_access, ↓run_deref, run_query, setAccess_access, setAccess_setAccess,
    Access.later_later, Nat.reduceAdd] at h
  obtain ⟨op, hop, -, blocks, -, -, p, hp, h⟩ := h
  obtain ⟨hid, hup⟩ := operation_ok hs hop
  have hnow := operation_unexpired hop
  obtain ⟨q, hq, hliving⟩ := operation_place hop
  have hmem := Table.mem_of_get hup.stored
  have hpget : w.access.nodes.get p.id = some p := by
    obtain ⟨k, -, hk⟩ := Option.bind_eq_some_iff.mp hp
    have hpid : p.id = k := node_id_of_get hk
    exact hpid ▸ hk
  have hpq : p.id = q := by
    rw [hq] at hp
    exact node_id_of_get hp
  obtain ⟨node, v, hnode, h⟩ := Tx.bind_ok.mp h
  unfold uploadNode at hnode
  cases hb : op.base with
  | none =>
      simp only [hb, Option.isSome_none, Bool.false_eq_true, if_false, ↓run_need, run_draw,
        setAccess_access, setAccess_setAccess, Access.later_shift, Nat.reduceAdd, Tx.pure_ok,
        Prod.mk.injEq] at hnode
      obtain ⟨hfree, rfl, rfl⟩ := hnode
      simp only [run_draw, putSnapshot, putUpload, run_onAccess, run_bump, setAccess_access,
        setAccess_setAccess, Access.shift_shift, Tx.pure_ok] at h
      obtain ⟨-, -, rfl⟩ := h
      obtain ⟨q', hq', hfolder, hroom, hname⟩ := hpl.uploads op hmem hup.kind hb
      rw [hq, Option.some.injEq] at hq'
      subst hq' hpq
      have hnone : w.access.nodes.get op.file = none := (hs.uploadNew op hmem ⟨hup.kind, hup.state⟩ hb).1
      refine ⟨⟨rfl, ?_⟩, treeActs_hang (.add (p := p.id) hnone rfl rfl hroom hliving
        (free_of_not_named hfree) hname ?_) hpget fun he => ?_, counts_new hnone hpget rfl⟩
      · simp only [setAccess_access, Access.shift, Access.later]
        omega
      · refine .upload rfl hid hmem hup.kind hup.state hb (Access.within_later (k := 0) ?_) hnow hq rfl
          rfl hfolder
        simp only [setAccess_access, Access.shift, Access.later]
        omega
      · have he' : p.id = op.file := he
        rw [← he', hpget] at hnone
        cases hnone
  | some b =>
      obtain ⟨m, hm, ha, -⟩ := hup.base b hb
      have hget : w.access.nodes.get op.file = some m := hm
      simp only [hb, Option.isSome_some, if_true, hget, Access.later_nodes, Tx.pure_ok, Prod.mk.injEq] at hnode
      obtain ⟨rfl, rfl⟩ := hnode
      simp only [run_draw, putSnapshot, putUpload, run_onAccess, run_bump, setAccess_access,
        setAccess_setAccess, Access.later_shift, Tx.pure_ok] at h
      obtain ⟨-, -, rfl⟩ := h
      have hmid : node.id = op.file := node_id_of_get hget
      have hshape := hs.uploadShape op hmem ⟨hup.kind, hup.state⟩
      have hne : p.id ≠ node.id := fun he => hshape.parent_ne (by rw [hq, ← hpq, he, hmid])
      refine ⟨⟨rfl, ?_⟩, treeActs_hang (.touch (m := node) (hmid ▸ hget) ⟨rfl, rfl, rfl⟩ rfl) hpget
        hne, counts_both (m := node) (hmid ▸ hget) ⟨rfl, rfl, rfl⟩ rfl (Nat.le_succ _) hpget hne⟩
      simp only [setAccess_access, Access.shift, Access.later]
      omega

/-- The checks of a cluster come first, the bookkeeping of leases and of protection last. -/
theorem commitUpload_grafts {user : User} {session : Session} {req : CommitUploadRequest}
    {r : CommitResult × World} (hs : Sound app w.access) (hpl : Planted app w.access)
    (h : (commitUpload app user session req) w = .ok r) : Grafts app (.commitUpload req) w r.2 := by
  have hcluster : ∀ {w : World} {r : CommitResult × World}, Sound app w.access →
      Planted app w.access → (clusterCommitUpload app user session req) w = .ok r →
        Grafts app (.commitUpload req) w r.2 := by
    intro w r hs hpl h
    unfold clusterCommitUpload at h
    simp only [run_query] at h
    obtain ⟨o, -, h⟩ := h
    obtain ⟨_, v, hloop, h⟩ := Tx.bind_ok.mp h
    have hlater : (w.setAccess (w.access.later 1)).Later v :=
      Tx.each_rel World.Later.refl World.Later.trans
        (fun _ _ _ _ hu => requireAllocated_later hu) hloop
    obtain ⟨k, rfl⟩ := hlater
    simp only [setAccess_access, setAccess_setAccess, Access.later_later] at h
    exact (commandsCommitUpload_grafts (w := w.setAccess (w.access.later (1 + k))) (hs.advance _)
      (hpl.later _) h).before
  have haccess : ∀ {w : World} {r : CommitResult × World}, Sound app w.access →
      Planted app w.access → (accessCommitUpload app user session req) w = .ok r →
        Grafts app (.commitUpload req) w r.2 := by
    intro w r hs hpl h
    unfold accessCommitUpload at h
    simp only [↓run_access, ↓run_deref, setAccess_access, setAccess_setAccess, Access.later_later,
      Nat.reduceAdd] at h
    obtain ⟨o, -, h⟩ := h
    obtain ⟨res, s, hcommit, h⟩ := Tx.bind_ok.mp h
    exact (hcluster (w := w.setAccess (w.access.later 2)) (hs.advance 2) (hpl.later 2)
      hcommit).before.after (stays h)
  unfold commitUpload at h
  split at h
  · exact commandsCommitUpload_grafts hs hpl h
  · exact hcluster hs hpl h
  · exact haccess hs hpl h
  · unfold protectionCommitUpload at h
    simp only [↓run_access, run_query, setAccess_access, setAccess_setAccess, Access.later_later,
      Nat.reduceAdd] at h
    obtain ⟨_, -, h⟩ := h
    obtain ⟨res, s, hres, h⟩ := Tx.bind_ok.mp h
    exact (haccess (w := w.setAccess (w.access.later 2)) (hs.advance 2) (hpl.later 2)
      hres).before.after (stays h)

theorem removeNode_grafts {user : User} {ctx : RequestContext} {path : PathRef} {directory : Bool}
    {cmd : Command} {r : Response × World} (hs : Sound app w.access)
    (h : (removeNode app user ctx path directory) w = .ok r) : Grafts app cmd w r.2 := by
  unfold removeNode at h
  simp only [↓run_access, ↓run_need, ↓run_needSome, ↓run_deref, run_query, setAccess_access,
    setAccess_setAccess, Access.later_later, Nat.reduceAdd, Access.later_nodes,
    Access.later_uploads] at h
  obtain ⟨node, hnode, parentId, hp, hkind, parent, hparent, _, -, hempty, h⟩ := h
  obtain ⟨⟨⟩, s, hloop, h⟩ := Tx.bind_ok.mp h
  obtain ⟨hnodes, honward⟩ := stays hloop
  simp only [run_bump, setAccess_access, setAccess_setAccess, Tx.pure_ok] at h
  obtain ⟨-, -, rfl⟩ := h
  have hloc := resolve_ok hs hnode
  have hget := hloc.get
  have hpid : parent.id = parentId := node_id_of_get hparent
  have hne : parent.id ≠ node.id := fun he => hloc.parent_ne (by rw [hp, ← hpid, he])
  have hphase : w.access.phase + 8 ≤ s.access.phase := honward.2
  have hdir : node.kind = .directory → directory = true := fun hk => by
    rw [hk] at hkind
    by_contra hd
    rw [if_neg hd] at hkind
    cases hkind
  have hnodes' : s.access.nodes = w.access.nodes := hnodes
  have hcounts : Counts w.access.nodes ((w.access.nodes.put
      { node with alive := false, revision := node.revision + 1 }).put
        { parent with revision := parent.revision + 1 }) :=
    .hang (hpid ▸ hparent) hne (by rw [hpid]; exact hp) fun m hm => by
      obtain rfl : node = m := Option.some.inj (hget.symm.trans hm)
      exact ⟨by rw [hpid]; exact hp, Nat.le_succ _⟩
  refine ⟨⟨honward.1, by simp only [setAccess_access, Access.later]; omega⟩, ?_, by
    simpa only [setAccess_access, hnodes'] using hcounts⟩
  simp only [setAccess_access, hnodes']
  refine treeActs_hang (n := { node with alive := false, revision := node.revision + 1 })
    (.remove (m := node) hget ⟨rfl, rfl, rfl⟩ (by rw [hp]; rfl) rfl ?_ ?_) (hpid ▸ hparent) hne
  · intro hk c hc hca hcp
    have hnil := (hempty (hdir hk)).1
    have : c ∈ children (w.access.later 6) node.id := mem_children.mpr ⟨hc, hca, hcp⟩
    rw [hnil] at this
    exact absurd this List.not_mem_nil
  · intro hk
    refine ⟨_, Access.within_later (k := 6) ?_, fun o ho hop hst => ?_⟩
    · simp only [setAccess_access, Access.later]
      omega
    · by_contra hlt
      exact (hempty (hdir hk)).2 ⟨o, ho, hop, hst, Nat.lt_of_not_le hlt⟩

theorem setAcl_grafts {user : User} {ctx : RequestContext} {path : PathRef} {acl : Acl}
    {revision : Nat} {cmd : Command} {r : Response × World} (hs : Sound app w.access)
    (h : (setAcl app user ctx path acl revision) w = .ok r) : Grafts app cmd w r.2 := by
  simp only [setAcl, ↓run_need, run_query, run_bump, setAccess_access, setAccess_setAccess,
    Access.later_later, Nat.reduceAdd, Tx.pure_ok] at h
  obtain ⟨node, hnode, -, -, -, i, -, -, -, -, -, rfl⟩ := h
  have hget := (resolve_ok hs hnode).get
  exact ⟨⟨rfl, by simp only [setAccess_access, Access.later]; omega⟩,
    .single (.touch hget ⟨rfl, rfl, rfl⟩ rfl), .touch hget ⟨rfl, rfl, rfl⟩ rfl (Nat.le_succ _)⟩

theorem openResolve_none {user : User} {path : PathRef}
    (h : (openResolve app user path) w = .ok none) :
    (resolve app user path) w = .error (.fault .notFound) := by
  unfold openResolve at h
  simp only [Query.bind_ok, Query.attempt_ok] at h
  obtain ⟨found, hf, h⟩ := h
  split at h
  · simp at h
  · exact hf
  · simp at h

theorem openTruncating_node {user : User} {session : Session} {node n : Node} {mode : OpenMode}
    {e k : Nat} {v : World}
    (h : (openTruncating app user session node mode) w = .ok ((n, e, k), v)) : n = node := by
  unfold openTruncating at h
  simp only [↓run_access, ↓run_need, ↓run_deref, run_query, run_draw] at h
  obtain ⟨-, _, -, root, -, old, -, h⟩ := h
  obtain ⟨lock, s, -, h⟩ := Tx.bind_ok.mp h
  obtain ⟨_, u, -, h⟩ := Tx.bind_ok.mp h
  simp only [Tx.pure_ok, Prod.mk.injEq] at h
  exact h.1.1

include hn in
theorem openCreating_grafts {user : User} {session : Session} {path : PathRef} {mode : OpenMode}
    {cmd : Command} {r : Node × World} (hs : Sound app w.access) (hpl : Planted app w.access)
    (h : (openCreating app user session path mode) w = .ok r) : Grafts app cmd w r.2 := by
  unfold openCreating at h
  simp only [↓run_access, ↓run_need, run_query, setAccess_access, setAccess_setAccess,
    Access.later_later, Nat.reduceAdd] at h
  obtain ⟨found, hfound, ⟨parent, name⟩, hparent, hres, h⟩ := h
  have hloc : ∀ n ∈ found, Located app w.access.nodes n := fun n hmem => by
    rw [Option.mem_def] at hmem
    exact openResolve_ok hs (hmem ▸ hfound)
  obtain ⟨hpget, hpne⟩ := openParent_ok (w := w.setAccess (w.access.later 1)) (hs.advance 1) hloc
    hparent
  have hpget' : w.access.nodes.get parent.id = some parent := hpget
  obtain ⟨⟨n, epoch, version⟩, s, hnew, h⟩ := Tx.bind_ok.mp h
  simp only [run_draw, putSnapshot, run_onAccess, run_bump, setAccess_access, setAccess_setAccess,
    Tx.pure_ok] at h
  obtain ⟨-, -, rfl⟩ := h
  cases found with
  | none =>
      simp only [Option.elim, openNew, run_draw, setAccess_access, setAccess_setAccess,
        Access.later_shift, Nat.reduceAdd, Tx.pure_ok, Prod.mk.injEq] at hnew
      obtain ⟨⟨rfl, rfl, rfl⟩, rfl⟩ := hnew
      obtain ⟨hname, hplace⟩ := parentOf_placing hn hs (parentOf_later hparent)
      have hnone : w.access.nodes.get (app.uuid w.access.issued) = none :=
        get_none_of_unused_node hs.next_unused
      -- The path led nowhere, so the name is free where the file is put.
      have hfree : ¬ named w.access parent.id name := fun hnamed =>
        hplace.found hnamed (openResolve_none hfound)
      refine ⟨⟨rfl, ?_⟩, treeActs_hang (.add (p := parent.id) hnone rfl rfl hplace.room
        ⟨parent, hpget', hplace.located.living hpl.root⟩ (free_of_not_named hfree) hname ?_)
          hpget' fun he => ?_, counts_new hnone hpget' rfl⟩
      · simp only [setAccess_access, Access.shift, Access.later]
        omega
      · refine .unreserved rfl ⟨parent, hpget', hplace.folder⟩ (Access.within_later (k := 2) ?_)
          (unreserved_of_not hres rfl)
        simp only [setAccess_access, Access.shift, Access.later]
        omega
      · have he' : parent.id = app.uuid w.access.issued := he
        rw [← he', hpget'] at hnone
        cases hnone
  | some old =>
      obtain ⟨hnodes, honward⟩ := stays hnew
      obtain rfl : n = old := openTruncating_node hnew
      have hnodes' : s.access.nodes = w.access.nodes := hnodes
      have hget : w.access.nodes.get n.id = some n := (hloc n rfl).get
      have hphase : w.access.phase + 4 ≤ s.access.phase := honward.2
      refine ⟨⟨honward.1, by simp only [setAccess_access, Access.shift, Access.later]; omega⟩, ?_,
        ?_⟩
      · simp only [setAccess_access, Access.shift_nodes, hnodes']
        exact treeActs_hang (.touch (m := n) hget ⟨rfl, rfl, rfl⟩ rfl) hpget' (hpne n rfl)
      · simp only [setAccess_access, Access.shift_nodes, hnodes']
        exact counts_both (m := n) hget ⟨rfl, rfl, rfl⟩ rfl (Nat.le_succ _) hpget' (hpne n rfl)

include hn in
theorem openFile_grafts {user : User} {session : Session} {path : PathRef} {mode : OpenMode}
    {cmd : Command} {r : Response × World} (hs : Sound app w.access) (hpl : Planted app w.access)
    (h : (openFile app user session path mode) w = .ok r) : Grafts app cmd w r.2 := by
  have haccess : ∀ {w : World} {r : HandleMessage × World}, Sound app w.access →
      Planted app w.access → (accessOpen app user session path mode) w = .ok r →
        Grafts app cmd w r.2 := by
    intro w r hs hpl h
    unfold accessOpen at h
    simp only [↓run_access, ↓run_need, setAccess_access, setAccess_setAccess, Access.later_later,
      Nat.reduceAdd] at h
    obtain ⟨-, -, h⟩ := h
    obtain ⟨node, s, hnode, h⟩ := Tx.bind_ok.mp h
    have hopened : Grafts app cmd (w.setAccess (w.access.later 3)) s := by
      split at hnode
      · exact openCreating_grafts hn (hs.advance 3) (hpl.later 3) hnode
      · exact .of_stays (stays hnode)
    exact hopened.before.after (stays h)
  unfold openFile at h
  split at h
  · exact .of_stays (stays h)
  · exact .of_stays (stays h)
  · obtain ⟨m, s, hm, h⟩ := Tx.bind_ok.mp h
    rw [Tx.pure_ok] at h
    subst h
    exact haccess hs hpl hm
  · obtain ⟨m, s, hm, h⟩ := Tx.bind_ok.mp h
    rw [Tx.pure_ok] at h
    subst h
    unfold protectionOpen at hm
    obtain ⟨_, v, hrefuse, hm⟩ := Tx.bind_ok.mp hm
    obtain ⟨m', u, hopen, hrest⟩ := Tx.bind_ok.mp hm
    have hlater : w.Later v := by
      split at hrefuse
      · exact ⟨1, (last_query.mp hrefuse).2⟩
      · rw [Tx.pure_ok] at hrefuse
        cases hrefuse
        exact .refl w
    obtain ⟨k, rfl⟩ := hlater
    have hend : Stays u s := stays hrest
    exact (haccess (w := w.setAccess (w.access.later k)) (hs.advance k) (hpl.later k)
      hopen).before.after hend

theorem commitWrite_grafts {user : User} {session : Session} {req : CommitWriteRequest}
    {cmd : Command} {r : CommitResult × World}
    (h : (commitWrite app user session req) w = .ok r) : Grafts app cmd w r.2 := by
  have haccess : ∀ {w : World} {r : CommitResult × World},
      (accessCommitWrite app user session req) w = .ok r → Grafts app cmd w r.2 := by
    intro w r h
    unfold accessCommitWrite at h
    obtain ⟨t, v, ht, h⟩ := Tx.bind_ok.mp h
    obtain ⟨⟨j, rfl⟩, -, b, hc⟩ := writeOperation_ok ht
    simp only [↓run_need, setAccess_access, setAccess_setAccess, Access.later_later] at h
    obtain ⟨-, -, -, h⟩ := h
    obtain ⟨blocks, v, hfold, h⟩ := Tx.bind_ok.mp h
    obtain ⟨hnodes, honward⟩ := stays hfold
    simp only [↓run_need, run_draw, putSnapshot, putHandle, putUpload, run_onAccess, run_bump,
      setAccess_access, setAccess_setAccess, Access.later_shift] at h
    obtain ⟨-, -, h⟩ := h
    have hfile : t.node.id = t.handle.file := node_id_of_get hc.current.1
    refine Grafts.after (v := _) ⟨⟨?_, ?_⟩, ?_, ?_⟩ (stays h)
    · exact honward.1
    · have : w.access.phase + (j + 1 + 1 + 1) ≤ v.access.phase := honward.2
      simp only [setAccess_access, Access.shift, Access.later]
      omega
    · have hnodes' : v.access.nodes = w.access.nodes := hnodes
      simp only [setAccess_access, Access.shift_nodes, hnodes']
      exact .single (.touch (m := t.node) (hfile ▸ hc.current.1) ⟨rfl, rfl, rfl⟩ rfl)
    · have hnodes' : v.access.nodes = w.access.nodes := hnodes
      simp only [setAccess_access, Access.shift_nodes, hnodes']
      exact .touch (m := t.node) (hfile ▸ hc.current.1) ⟨rfl, rfl, rfl⟩ rfl (Nat.le_succ _)
  unfold commitWrite at h
  split at h
  · unfold protectionCommitWrite at h
    simp only [↓run_access, run_query, setAccess_access, setAccess_setAccess, Access.later_later,
      Nat.reduceAdd] at h
    obtain ⟨_, -, h⟩ := h
    obtain ⟨res, s, hres, h⟩ := Tx.bind_ok.mp h
    exact (haccess (w := w.setAccess (w.access.later 2)) hres).before.after (stays h)
  · exact haccess h

include hn in
/-- **Every command changes nodes by changes of the tree.** -/
theorem execute_grafts {user : User} {session : Session} {ctx : RequestContext} {cmd : Command}
    {r : Response × World} (hs : Sound app w.access) (hpl : Planted app w.access)
    (h : (execute app user session ctx cmd) w = .ok r) : Grafts app cmd w r.2 := by
  have hremove : ∀ {path directory}, (remove app user ctx path directory) w = .ok r →
      Grafts app cmd w r.2 := by
    intro path directory h
    unfold remove at h
    split at h
    · unfold accessRemove at h
      obtain ⟨x, s, hx, h⟩ := Tx.bind_ok.mp h
      exact (removeNode_grafts hs hx).after (stays h)
    · exact removeNode_grafts hs h
  unfold execute at h
  cases cmd with
  | mkdir path => exact mkdir_grafts hn hs hpl h
  | rmdir path => exact hremove h
  | remove path => exact hremove h
  | createUser username password => exact createUser_grafts hn hs h
  | setAcl path acl revision => exact setAcl_grafts hs h
  | commitUpload req =>
      obtain ⟨x, s, hx, h⟩ := Tx.bind_ok.mp h
      exact (commitUpload_grafts hs hpl hx).after (stays h)
  | openFile path mode => exact openFile_grafts hn hs hpl h
  | commitWrite req =>
      dsimp only at h
      split at h
      · obtain ⟨x, s, hx, h⟩ := Tx.bind_ok.mp h
        exact (commitWrite_grafts hx).after (stays h)
      · exact .of_stays (stays h)
  | _ => exact .of_stays (stays h)

end Commands

/-! ## Uploads that begin -/

/-- The place that an upload of a new file finds when it begins: the name is free, of nodes and of
reservations. -/
structure Begins (app : App) (w v : World) (o : Operation) (p : Id) : Prop where
  parent : o.parent = some p
  folder : Folder w.access.nodes p
  living : Living w.access.nodes p
  room : Roomy app w.access.nodes p
  name : NameOk app o.name
  free : ∀ m ∈ w.access.nodes.all, m.alive = true → m.parent = some p → m.name ≠ o.name
  unreserved : ∃ t, w.access.Within v.access t ∧ Unreserved w.access p o.name t

/-- It is enough to know where the time ends. -/
theorem Begins.after {v u : World} {o : Operation} {p : Id} (h : Begins app w v o p)
    (hs : v.access.phase ≤ u.access.phase) : Begins app w u o p :=
  { h with
    unreserved := by
      obtain ⟨t, ⟨i, hi, hi', ht⟩, hfree⟩ := h.unreserved
      exact ⟨t, ⟨i, hi, hi'.trans hs, ht⟩, hfree⟩ }

/-- The later state may be one of the same time with other records. -/
theorem Begins.before {k : Nat} {v : World} {o : Operation} {p : Id}
    (h : Begins app (w.setAccess (w.access.later k)) v o p) : Begins app w v o p :=
  { h with
    unreserved := by
      obtain ⟨t, ⟨i, hi, hi', ht⟩, hfree⟩ := h.unreserved
      exact ⟨t, ⟨i, (Nat.le_add_right _ _).trans hi, hi', ht⟩, hfree⟩ }

/-- Only what an operation remembers of its place matters. -/
theorem Begins.congr {v : World} {o o' : Operation} {p : Id} (h : Begins app w v o p)
    (hp : o'.parent = o.parent) (hn : o'.name = o.name) : Begins app w v o' p where
  parent := hp.trans h.parent
  folder := h.folder
  living := h.living
  room := h.room
  name := hn ▸ h.name
  free := hn ▸ h.free
  unreserved := hn ▸ h.unreserved

section Begin

variable (hn : Normalizes app)
include hn

theorem commandsBeginUpload_begins {user : User} {session : Session} {ctx : RequestContext}
    {req : BeginUploadRequest} {op : Operation} {w' : World} (hs : Sound app w.access)
    (hpl : Planted app w.access)
    (h : (commandsBeginUpload app user session ctx req) w = .ok (op, w')) (hb : op.base = none) :
    ∃ p, Begins app w w' op p := by
  have honward : w.access.Onward w'.access := (stays h).2
  unfold commandsBeginUpload at h
  simp only [↓run_access, ↓run_need, run_query, run_draw, setAccess_access, setAccess_setAccess,
    Access.later_later, Access.later_shift, Nat.reduceAdd] at h
  obtain ⟨-, -, ⟨parent, name⟩, hparent, hres, old, hold, cost, -, h⟩ := h
  obtain ⟨hname, hplace⟩ := parentOf_placing (w := w.setAccess (w.access.later 3)) hn
    (hs.advance 3) hparent
  have hget : w.access.nodes.get parent.id = some parent := hplace.located.get
  obtain ⟨file, s, hfile, h⟩ := Tx.bind_ok.mp h
  have hphase : w.access.phase + 4 ≤ s.access.phase := by
    have : (w.setAccess (w.access.shift 9 1)).access.Onward s.access := (stays hfile).2
    have hle : w.access.phase + 9 ≤ s.access.phase := this.2
    omega
  simp only [↓run_now, putUpload, run_onAccess, setAccess_access, setAccess_setAccess,
    Tx.pure_ok, Prod.mk.injEq] at h
  obtain ⟨rfl, rfl⟩ := h
  refine ⟨parent.id, rfl, ⟨parent, hget, hplace.folder⟩,
    ⟨parent, hget, hplace.located.living hpl.root⟩, hplace.room, hname, fun m hm ha hp he => ?_,
    _, Access.within_later (k := 4) ?_, unreserved_of_not hres rfl⟩
  · -- With a child of this name the upload would replace it.
    cases hfind : (children w.access parent.id).find? (fun n => n.name = name) with
    | none =>
        rw [List.find?_eq_none] at hfind
        exact hfind m (mem_children.mpr ⟨hm, ha, hp⟩) (by simpa using he)
    | some n =>
        rw [children_later, hfind] at hold
        cases old with
        | none =>
            simp only [uploadTarget, Query.bind_ok, Query.pure_ok] at hold
            obtain ⟨_, -, _, -, _, -, root, -, snap, -, _, -, hcase⟩ := hold
            cases hcase
        | some x =>
            obtain ⟨y, snap⟩ := x
            obtain ⟨rfl, hsnap, -⟩ := uploadTarget_ok hold
            have hbase : y.snapshot = none := hb
            rw [hbase] at hsnap
            cases hsnap
  · simp only [setAccess_access, Access.later]
    omega

theorem accessBeginUpload_begins {user : User} {session : Session} {ctx : RequestContext}
    {req : BeginUploadRequest} {op : Operation} {w' : World} (hs : Sound app w.access)
    (hpl : Planted app w.access)
    (h : (accessBeginUpload app user session ctx req) w = .ok (op, w')) (hb : op.base = none) :
    ∃ p, Begins app w w' op p := by
  unfold accessBeginUpload at h
  obtain ⟨o, s, ho, h⟩ := Tx.bind_ok.mp h
  have hlater : s.access.Onward w'.access := (stays h).2
  obtain ⟨l, s', -, h⟩ := Tx.bind_ok.mp h
  simp only [↓run_clock, run_query, putLock, putUpload, run_onAccess, setAccess_access,
    setAccess_setAccess, Tx.pure_ok, Prod.mk.injEq] at h
  obtain ⟨f, -, rfl, rfl⟩ := h
  obtain ⟨p, hp⟩ := commandsBeginUpload_begins hn hs hpl ho hb
  exact ⟨p, (hp.after hlater.2).congr rfl rfl⟩

end Begin

end Dfsha
