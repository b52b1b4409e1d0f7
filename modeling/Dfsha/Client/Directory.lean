import Dfsha.Safety.Addressing

/-!
# The working directory of a client

A client has its working directory as a text and as an identifier.  `cd` asks the server what a
path leads to, and computes the new text by itself, with `posixpath.normpath` and a normalization
of the whole.  The server walks from node to node, so for `..` it follows the parent of a node
where the client takes off a name.

What the two have in common is the chain of names from the root to a node: the names are those of
the text, and they are all that the later walk needs, because nodes keep their place.

## Main definitions

* `normpath`, `newCwd`, `cd` — `posixpath.normpath`, and `Client.cd`.
* `Leads` — a chain of names leads to a node.
* `Visits` — a client that changed its directory, in a control that went on.

## Main results

* `walk_leads` — a walk follows a chain of names, taken lexically.
* `leads_walk` — a chain of names is walked.
* `directory_coherence` — the text of the working directory leads to its identifier.
-/

namespace Dfsha.Client

/-! ## Normal paths -/

/-- One component of a path; `rooted` if the path begins with a slash. -/
def normStep (rooted : Bool) (kept : List Text) (comp : Text) : List Text :=
  if comp = [] ∨ comp = ['.'] then kept
  else if comp ≠ ['.', '.'] ∨ (rooted = false ∧ kept = []) ∨ kept.getLast? = some ['.', '.'] then
    kept ++ [comp]
  else kept.dropLast

/-- The slashes that `normpath` keeps: POSIX gives two of them a meaning, and three or more none. -/
def leadingSlashes : Text → Nat
  | '/' :: '/' :: '/' :: _ => 1
  | '/' :: '/' :: _ => 2
  | '/' :: _ => 1
  | _ => 0

/-- `posixpath.normpath`. -/
def normpath (path : Text) : Text :=
  let slashes := leadingSlashes path
  let comps := (path.splitOn '/').foldl (normStep (decide (slashes ≠ 0))) []
  let text := List.replicate slashes '/' ++ ['/'].intercalate comps
  if text = [] then ['.'] else text

/-! ## The client -/

/-- The working directory of a client. -/
structure Directory where
  cwd : Text
  cwdId : Id
  deriving DecidableEq, Repr

variable (app : App)

/-- The text of the working directory after `cd`. -/
def newCwd (ref : PathRef) : Text :=
  let cwd := app.nfc (normpath ref.joined)
  if ['/', '/'] <+: cwd then '/' :: cwd.dropWhile fun c => c = '/' else cwd

/-- `Client.cd`. -/
def cd (user : User) (dir : Directory) (path : Text) : Q Directory := do
  let ref : PathRef := ⟨path, dir.cwd, dir.cwdId⟩
  let found ← stat app user ref
  need (found.kind = .directory) .notDirectory
  pure ⟨newCwd app ref, found.objectId⟩

/-- What `Client.login` does about the directory. -/
def enter (user : User) : Q Directory := do
  let found ← stat app user ⟨['/'], ['/'], 0⟩
  pure ⟨['/'], found.objectId⟩

/-! ## Chains of names -/

variable {app} {t t' : Table Node}

/-- A chain of names leads from the root, through directories, to a node. -/
inductive Leads (app : App) (t : Table Node) : List Text → Id → Prop
  | root : Leads app t [] app.root
  | step {names : List Text} {p : Id} {n : Node} (h : Leads app t names p) (hp : Folder t p)
      (hn : t.get n.id = some n) (hparent : n.parent = some p) : Leads app t (names ++ [n.name]) n.id

namespace Leads

variable {names : List Text} {k : Id}

theorem nil_iff : Leads app t [] k ↔ k = app.root := by
  constructor
  · intro h
    generalize hnil : ([] : List Text) = names at h
    cases h with
    | root => rfl
    | step => simp at hnil
  · rintro rfl
    exact .root

/-- The last name of a chain is the name of the node, and the others lead to its parent. -/
theorem concat {name : Text} (h : Leads app t (names ++ [name]) k) :
    ∃ p n, Leads app t names p ∧ Folder t p ∧ t.get k = some n ∧ n.parent = some p ∧
      n.name = name := by
  generalize hall : names ++ [name] = all at h
  cases h with
  | root => simp at hall
  | @step names' p n h hp hn hparent =>
      obtain ⟨rfl, hname⟩ := List.append_inj' hall rfl
      exact ⟨p, n, h, hp, hn, hparent, (List.cons.inj hname).1.symm⟩

/-- Nodes keep their place, so a chain leads where it led. -/
theorem grows (h : Leads app t names k) (hg : t.Grows SamePlace t') : Leads app t' names k := by
  induction h with
  | root => exact .root
  | @step names p n _ hp hn hparent ih =>
      obtain ⟨m, hm, hplace⟩ := hg _ _ hn
      have hid : m.id = n.id := Table.key_of_get hm
      rw [← hid] at hm ⊢
      rw [hplace.name]
      exact ih.step (hp.grows hg) hm (hplace.parent ▸ hparent)

end Leads

/-! ## Names -/

/-- What is assumed of Unicode normalization where paths are normalized as a whole: it works
component by component, and makes no dot segments. -/
structure NormalizesParts (app : App) : Prop extends Normalizes app where
  parts : ∀ s u, app.nfc (s ++ '/' :: u) = app.nfc s ++ '/' :: app.nfc u
  dot : ∀ u, app.nfc u = ['.'] → u = ['.']
  dots : ∀ u, app.nfc u = ['.', '.'] → u = ['.', '.']

/-- What the chains of names rely on: names are proper, and what is alive in a directory is in one
that is alive. -/
structure Proper (app : App) (t : Table Node) : Prop where
  names : ∀ n ∈ t.all, n.parent.isSome = true → NameOk app n.name
  folders : ∀ n ∈ t.all, n.alive = true → ∀ p m, n.parent = some p → t.get p = some m →
    m.kind = .directory → m.alive = true

namespace Proper

variable {adds removes : Node → Prop} {w v : World} {reports : Call → Prop}

/-- **One change keeps names proper**, and takes no directory from under what is alive. -/
theorem act (h : Proper app t) (hact : TreeAct app adds removes t t') : Proper app t' := by
  cases hact with
  | @touch n m hm same halive =>
      constructor
      · intro x hx hsome
        rcases Table.mem_put.mp hx with rfl | ⟨hx, -⟩
        · rw [same.name]
          exact h.names m (Table.mem_of_get hm) (same.parent ▸ hsome)
        · exact h.names x hx hsome
      · intro x hx hxa p y hp hy hdir
        have hold : ∃ x' ∈ t.all, x'.alive = true ∧ x'.parent = some p := by
          rcases Table.mem_put.mp hx with rfl | ⟨hx, -⟩
          · exact ⟨m, Table.mem_of_get hm, halive ▸ hxa, same.parent ▸ hp⟩
          · exact ⟨x, hx, hxa, hp⟩
        obtain ⟨x', hx', hxa', hp'⟩ := hold
        by_cases hk : p = n.id
        · rw [hk] at hy hp'
          obtain rfl : n = y := Option.some.inj ((Table.get_put_self t n).symm.trans hy)
          rw [halive]
          exact h.folders x' hx' hxa' _ m hp' hm (same.kind ▸ hdir)
        · rw [Table.get_put_of_ne _ hk] at hy
          exact h.folders x' hx' hxa' p y hp' hy hdir
  | @add n q hnew halive hq _ hlive _ hname _ =>
      constructor
      · intro x hx hsome
        rcases Table.mem_put.mp hx with rfl | ⟨hx, -⟩
        · exact hname
        · exact h.names x hx hsome
      · intro x hx hxa p y hp hy hdir
        by_cases hk : p = n.id
        · rw [hk] at hy
          obtain rfl : n = y := Option.some.inj ((Table.get_put_self t n).symm.trans hy)
          exact halive
        · rw [Table.get_put_of_ne _ hk] at hy
          rcases Table.mem_put.mp hx with rfl | ⟨hx, -⟩
          · obtain ⟨m, hm, hma⟩ := hlive
            rw [hq, Option.some.injEq] at hp
            rw [hp, hy, Option.some.injEq] at hm
            exact hm ▸ hma
          · exact h.folders x hx hxa p y hp hy hdir
  | @remove n m hm same hsome hdead hempty _ =>
      constructor
      · intro x hx hsome
        rcases Table.mem_put.mp hx with rfl | ⟨hx, -⟩
        · rw [same.name]
          exact h.names m (Table.mem_of_get hm) (same.parent ▸ hsome)
        · exact h.names x hx hsome
      · intro x hx hxa p y hp hy hdir
        rcases Table.mem_put.mp hx with rfl | ⟨hx, -⟩
        · rw [hdead] at hxa
          cases hxa
        · by_cases hk : p = n.id
          · rw [hk] at hy hp
            obtain rfl : n = y := Option.some.inj ((Table.get_put_self t n).symm.trans hy)
            exact absurd hp (hempty hdir x hx hxa)
          · rw [Table.get_put_of_ne _ hk] at hy
            exact h.folders x hx hxa p y hp hy hdir

theorem acts (h : Proper app t) (hacts : TreeActs app adds removes t t') : Proper app t' := by
  induction hacts with
  | refl => exact h
  | tail _ hact ih => exact ih.act hact

/-- A tree is proper. -/
theorem of_tree (h : Tree app t) : Proper app t where
  names n hn hsome := by
    refine h.names n hn fun hid => ?_
    obtain ⟨r, hr, -, -, hnone⟩ := h.root
    have hget : t.get n.id = some n := Table.get_of_mem hn
    rw [hid, hr, Option.some.injEq] at hget
    rw [← hget, hnone] at hsome
    cases hsome
  folders n hn halive p m hp hm _ := by
    have hne : n.id ≠ app.root := fun hid => by
      obtain ⟨r, hr, -, -, hnone⟩ := h.root
      have hget : t.get n.id = some n := Table.get_of_mem hn
      rw [hid, hr, Option.some.injEq] at hget
      rw [← hget, hnone] at hp
      cases hp
    obtain ⟨q, m', hq, hm', hma, -⟩ := h.parents n hn halive hne
    rw [hp, Option.some.injEq] at hq
    rw [← hq, hm, Option.some.injEq] at hm'
    exact hm' ▸ hma

end Proper

/-- **Every state of a run is orderly and proper.** -/
theorem proper_run {reports : Call → Prop} {es : List Event} {w v : World} (hn : Normalizes app)
    (hw : Orderly app w ∧ Proper app w.access.nodes) (h : Run app reports w es v) :
    Orderly app v ∧ Proper app v.access.nodes := by
  refine Run.induct (P := fun x => Orderly app x ∧ Proper app x.access.nodes)
    (fun x e y hstep hx => ⟨hstep.orderly hn hx.1, ?_⟩) h hw
  rcases hstep.grafts hn hx.1.sound hx.1.planted with he | ⟨_, -, hg⟩
  · exact he ▸ hx.2
  · exact hx.2.acts hg.acts

/-! ## A walk is lexical -/

section Walk

variable {w : World} {user : User}

theorem normStep_dot (kept : List Text) : normStep true kept ['.'] = kept := by
  rw [normStep, if_pos (.inr rfl)]

/-- **A walk follows the chain of names** that is left when its pieces are taken lexically. -/
theorem walk_leads (hn : NormalizesParts app)
    (hroot : ∀ r, w.access.nodes.get app.root = some r → r.parent = none) {pieces : List Text} :
    ∀ {kept : List Text} {node n : Node}, (∀ c ∈ pieces, c ≠ []) →
      (∀ c ∈ kept, c ≠ ['.', '.']) → Leads app w.access.nodes (kept.map app.nfc) node.id →
      w.access.nodes.get node.id = some node →
      (walkFrom app user (pieces.map app.nfc) node) w = .ok n →
      Leads app w.access.nodes ((pieces.foldl (normStep true) kept).map app.nfc) n.id ∧
        (pieces.foldl (normStep true) kept).length ≤ kept.length + pieces.length := by
  have hnfcDot : app.nfc ['.'] = ['.'] := hn.ascii _ (by simp)
  have hnfcDots : app.nfc ['.', '.'] = ['.', '.'] := hn.ascii _ (by simp)
  induction pieces with
  | nil =>
      intro kept node n _ _ hleads _ h
      rw [List.map_nil, walkFrom, Query.pure_ok] at h
      subst h
      exact ⟨hleads, Nat.le_refl _⟩
  | cons piece rest ih =>
      intro kept node n hne hkept hleads hget h
      have hrest : ∀ c ∈ rest, c ≠ [] := fun c hc => hne c (List.mem_cons_of_mem _ hc)
      simp only [List.map_cons, walkFrom, Query.bind_ok, access, Query.read_ok, need_ok] at h
      obtain ⟨_, hdir, _, -, a, rfl, h⟩ := h
      rw [List.foldl_cons, List.length_cons]
      by_cases hdot : piece = ['.']
      · rw [hdot, hnfcDot, if_pos rfl] at h
        rw [hdot, normStep_dot]
        obtain ⟨hl, hlen⟩ := ih hrest hkept hleads hget h
        exact ⟨hl, by omega⟩
      · rw [if_neg fun he => hdot (hn.dot piece he)] at h
        by_cases hdots : piece = ['.', '.']
        · -- the parent of the node is what the chain without its last name leads to
          rw [hdots, hnfcDots, if_pos rfl] at h
          have hstep : normStep true kept piece = kept.dropLast := by
            have hlast : kept.getLast? ≠ some ['.', '.'] := fun he =>
              hkept _ (List.mem_of_getLast? he) rfl
            rw [normStep, if_neg (by simp [hdots]), if_neg (by simp [hdots, hlast])]
          rw [hstep]
          have hfew : ∀ c ∈ kept.dropLast, c ≠ ['.', '.'] := fun c hc =>
            hkept c (List.mem_of_mem_dropLast hc)
          rcases List.eq_nil_or_concat kept with rfl | ⟨before, name, rfl⟩
          · have hid : node.id = app.root := Leads.nil_iff.mp hleads
            rw [hroot node (hid ▸ hget)] at h
            obtain ⟨hl, hlen⟩ := ih hrest hfew hleads hget h
            exact ⟨hl, by simpa using hlen.trans (Nat.le_succ _)⟩
          · rw [List.concat_eq_append] at hleads hfew ⊢
            rw [List.dropLast_concat] at hfew ⊢
            rw [List.map_append, List.map_singleton] at hleads
            obtain ⟨p, n', hup, -, hn', hparent, -⟩ := hleads.concat
            obtain rfl : node = n' := Option.some.inj (hget.symm.trans hn')
            simp only [hparent, Query.bind_ok, deref_ok] at h
            obtain ⟨x, hx, h⟩ := h
            have hid : x.id = p := node_id_of_get hx
            obtain ⟨hl, hlen⟩ := ih hrest hfew (hid ▸ hup) (hid ▸ hx) h
            refine ⟨hl, ?_⟩
            rw [List.length_append]
            omega
        · rw [if_neg fun he => hdots (hn.dots piece he)] at h
          have hstep : normStep true kept piece = kept ++ [piece] := by
            rw [normStep, if_neg (by simp [hdot, hne piece List.mem_cons_self]),
              if_pos (.inl hdots)]
          rw [hstep]
          simp only [Query.bind_ok, needSome_ok] at h
          obtain ⟨x, hx, h⟩ := h
          obtain ⟨hall, -, hparent⟩ := mem_children.mp (List.mem_of_find?_eq_some hx)
          have hname : x.name = app.nfc piece := by simpa using List.find?_some hx
          have hgetx : w.access.nodes.get x.id = some x := Table.get_of_mem hall
          have hleads' : Leads app w.access.nodes ((kept ++ [piece]).map app.nfc) x.id := by
            rw [List.map_append, List.map_singleton, ← hname]
            exact hleads.step ⟨node, hget, hdir⟩ hgetx hparent
          have hkept' : ∀ c ∈ kept ++ [piece], c ≠ ['.', '.'] := by
            intro c hc
            rcases List.mem_append.mp hc with hc | hc
            · exact hkept c hc
            · rw [List.mem_singleton] at hc
              exact hc ▸ hdots
          obtain ⟨hl, hlen⟩ := ih hrest hkept' hleads' hgetx h
          refine ⟨hl, ?_⟩
          rw [List.length_append, List.length_singleton] at hlen
          omega

/-- Every name of a chain is proper. -/
theorem Leads.names_ok {t : Table Node} {names : List Text} {k : Id} (ht : Proper app t)
    (h : Leads app t names k) : ∀ name ∈ names, NameOk app name := by
  induction h with
  | root => exact fun _ hname => absurd hname List.not_mem_nil
  | step _ _ hn hparent ih =>
      intro name hname
      rcases List.mem_append.mp hname with hname | hname
      · exact ih name hname
      · rw [List.mem_singleton] at hname
        rw [hname]
        exact ht.names _ (Table.mem_of_get hn) (by rw [hparent]; rfl)

/-- Every ancestor of a node may be searched. -/
def Searches (app : App) (user : User) (w : World) (k : Id) : Prop :=
  ∀ a m, Relation.TransGen (Under w.access.nodes) k a → w.access.nodes.get a = some m →
    (require app user (some m) 1) w = .ok ()

/-- **A chain of names is walked**, if its end is alive and what is above may be searched. -/
theorem leads_walk (hs : Siblings w.access.nodes) (ht : Proper app w.access.nodes)
    {names : List Text} {k : Id} (h : Leads app w.access.nodes names k) :
    ∀ {n root : Node}, w.access.nodes.get k = some n → n.alive = true →
      w.access.nodes.get app.root = some root → Searches app user w k →
      (walkFrom app user names root) w = .ok n := by
  induction h with
  | root =>
      intro n root hn _ hroot _
      rw [hroot, Option.some.injEq] at hn
      subst hn
      rfl
  | @step names p x _ hp hx hparent ih =>
      intro n root hn halive hroot hsearch
      obtain rfl : x = n := Option.some.inj (hx.symm.trans hn)
      obtain ⟨m, hm, hdir⟩ := hp
      have hup : Under w.access.nodes x.id p := ⟨x, hx, hparent⟩
      have hma : m.alive = true := ht.folders x (Table.mem_of_get hx) halive p m hparent hm hdir
      have hwalk := ih hm hma hroot fun a b ha hb => hsearch a b (.head hup ha) hb
      refine walkFrom_trans ?_ hwalk
      have hok := ht.names x (Table.mem_of_get hx) (by rw [hparent]; rfl)
      have hid : m.id = p := node_id_of_get hm
      have hchild : x ∈ children w.access m.id := mem_children.mpr
        ⟨Table.mem_of_get hx, halive, by rw [hid, hparent]⟩
      simp only [walkFrom, Query.bind_ok, access, Query.read_ok, need_ok]
      refine ⟨(), hdir, (), hsearch p m (.single hup) hm, _, rfl, ?_⟩
      rw [if_neg hok.dot, if_neg hok.dots]
      simp only [Query.bind_ok, needSome_ok, Query.pure_ok]
      exact ⟨x, hs.find hchild, rfl⟩

end Walk

/-! ## The text -/

theorem foldl_pieces (comps : List Text) (kept : List Text) :
    comps.foldl (normStep true) kept =
      (comps.filter fun c => c ≠ []).foldl (normStep true) kept := by
  induction comps generalizing kept with
  | nil => rfl
  | cons comp comps ih =>
      rw [List.foldl_cons, ih]
      by_cases hc : comp = []
      · rw [List.filter_cons_of_neg (by simp [hc]), normStep, if_pos (.inl hc)]
      · rw [List.filter_cons_of_pos (by simp [hc]), List.foldl_cons]

theorem leadingSlashes_rooted {path : Text} (h : path.head? = some '/') :
    leadingSlashes path = 1 ∨ leadingSlashes path = 2 := by
  unfold leadingSlashes
  split
  · exact .inl rfl
  · exact .inr rfl
  · exact .inl rfl
  · rename_i hno
    cases path with
    | nil => cases h
    | cons c rest =>
        rw [List.head?_cons, Option.some.injEq] at h
        exact absurd (congrArg (· :: rest) h) (hno rest)

namespace NormalizesParts

variable (hn : NormalizesParts app)
include hn

theorem nil : app.nfc [] = [] := hn.ascii [] (by simp)

theorem cons_slash (u : Text) : app.nfc ('/' :: u) = '/' :: app.nfc u := by
  have hparts := hn.parts [] u
  rwa [hn.nil] at hparts

theorem intercalate (comps : List Text) :
    app.nfc (['/'].intercalate comps) = ['/'].intercalate (comps.map app.nfc) := by
  induction comps with
  | nil => exact hn.nil
  | cons comp comps ih =>
      cases comps with
      | nil => simp
      | cons next comps =>
          rw [List.map_cons, List.map_cons, List.intercalate_cons_cons, List.intercalate_cons_cons,
            List.append_assoc, List.append_assoc, List.singleton_append, List.singleton_append,
            hn.parts, ih, List.map_cons]

end NormalizesParts

/-- A text of proper names does not begin with a slash. -/
theorem head_intercalate {names : List Text} (h : ∀ name ∈ names, NameOk app name) :
    (['/'].intercalate names).head? ≠ some '/' := by
  cases names with
  | nil => simp
  | cons name names =>
      have hok := h name List.mem_cons_self
      have hhead : name.head? ≠ some '/' := fun he => hok.slash (List.mem_of_head? he)
      cases name with
      | nil => exact absurd rfl hok.nonempty
      | cons c rest =>
          cases names with
          | nil => simpa using hhead
          | cons next names =>
              rw [List.intercalate_cons_cons]
              simpa using hhead

/-- What is in a text of names is a slash or in a name. -/
theorem mem_intercalate {names : List Text} {c : Char} (h : c ∈ ['/'].intercalate names) :
    c = '/' ∨ ∃ name ∈ names, c ∈ name := by
  induction names with
  | nil => simp at h
  | cons name names ih =>
      cases names with
      | nil => exact .inr ⟨name, List.mem_cons_self, by simpa using h⟩
      | cons next names =>
          rw [List.intercalate_cons_cons, List.append_assoc, List.mem_append, List.mem_append,
            List.mem_singleton] at h
          rcases h with h | rfl | h
          · exact .inr ⟨name, List.mem_cons_self, h⟩
          · exact .inl rfl
          · rcases ih h with rfl | ⟨other, hother, hmem⟩
            · exact .inl rfl
            · exact .inr ⟨other, List.mem_cons_of_mem _ hother, hmem⟩

/-- The pieces of a text of names are the names. -/
theorem piecesOf_text {names : List Text} (h : ∀ name ∈ names, NameOk app name) :
    piecesOf ('/' :: ['/'].intercalate names) = names := by
  have hsplit := piecesOf_append [] (['/'].intercalate names)
  rw [List.nil_append, piecesOf_nil, List.nil_append] at hsplit
  rw [hsplit]
  cases names with
  | nil => simp
  | cons name names =>
      rw [piecesOf, List.splitOn_intercalate _ (fun l hl => (h l hl).slash) (by simp),
        List.filter_eq_self.mpr fun l hl => by simpa using (h l hl).nonempty]

/-- **The text after `cd`** is a slash and the names that are left. -/
theorem newCwd_eq (hn : NormalizesParts app) {ref : PathRef} (hrooted : ref.joined.head? = some '/')
    (hok : ∀ name ∈ ((piecesOf ref.joined).foldl (normStep true) []).map app.nfc, NameOk app name) :
    newCwd app ref =
      '/' :: ['/'].intercalate (((piecesOf ref.joined).foldl (normStep true) []).map app.nfc) := by
  have hhead := head_intercalate hok
  rw [← hn.intercalate] at hhead ⊢
  have hslashes := leadingSlashes_rooted hrooted
  have hcomps : (ref.joined.splitOn '/').foldl
      (normStep (decide (leadingSlashes ref.joined ≠ 0))) [] =
        (piecesOf ref.joined).foldl (normStep true) [] := by
    have hne : decide (leadingSlashes ref.joined ≠ 0) = true := by
      rw [decide_eq_true_eq]
      omega
    rw [hne, foldl_pieces]
    rfl
  have hnorm : normpath ref.joined = List.replicate (leadingSlashes ref.joined) '/' ++
      ['/'].intercalate ((piecesOf ref.joined).foldl (normStep true) []) := by
    unfold normpath
    simp only [hcomps]
    rw [if_neg]
    intro hempty
    have hlength := congrArg List.length hempty
    rw [List.length_append, List.length_replicate, List.length_nil] at hlength
    omega
  unfold newCwd
  rw [hnorm]
  generalize (['/'] : Text).intercalate ((piecesOf ref.joined).foldl (normStep true) []) = text at *
  rcases hslashes with hone | htwo
  · rw [hone, List.replicate_one, List.singleton_append, hn.cons_slash]
    refine if_neg fun hstart => hhead ?_
    obtain ⟨rest, hrest⟩ := hstart
    rw [← (List.cons.inj hrest).2]
    rfl
  · rw [htwo, List.replicate_succ, List.replicate_one, List.cons_append, List.singleton_append,
      hn.cons_slash, hn.cons_slash]
    refine (if_pos ⟨_, rfl⟩).trans ?_
    rw [List.dropWhile_cons_of_pos (by simp), List.dropWhile_cons_of_pos (by simp)]
    cases hnfc : app.nfc text with
    | nil => rfl
    | cons c rest =>
        rw [hnfc, List.head?_cons] at hhead
        rw [List.dropWhile_cons_of_neg]
        simpa using hhead

/-! ## Runs -/

/-- A client that changed its directory, in a control that went on. -/
inductive Visits (app : App) (reports : Call → Prop) : World → Directory → Prop
  | login {clk : Clock} {username : Text} {password : Digest} {es : List Event} {w : World}
      {user : User} {dir : Directory} (hname : validName username)
      (hrun : Run app reports (World.initial app clk username password) es w)
      (h : (enter app user) w = .ok dir) : Visits app reports w dir
  | cd {w : World} {user : User} {dir dir' : Directory} {path : Text} (h : Visits app reports w dir)
      (hcd : (cd app user dir path) w = .ok dir') : Visits app reports w dir'
  | wait {w v : World} {es : List Event} {dir : Directory} (h : Visits app reports w dir)
      (hrun : Run app reports w es v) : Visits app reports v dir

/-- The text of a working directory is the chain of names that leads to it. -/
def Placed (app : App) (w : World) (dir : Directory) : Prop :=
  ∃ names, Leads app w.access.nodes names dir.cwdId ∧ dir.cwd = '/' :: ['/'].intercalate names ∧
    names.length ≤ 32 ∧ Folder w.access.nodes dir.cwdId

variable {w v : World} {user : User} {reports : Call → Prop} {dir : Directory}

theorem stat_ok {ref : PathRef} {found : Entry} (h : (stat app user ref) w = .ok found) :
    ∃ n, (resolve app user ref) w = .ok n ∧ found.objectId = n.id ∧ found.kind = n.kind := by
  simp only [stat, entry, Query.bind_ok] at h
  obtain ⟨n, hn, _, -, a, -, h⟩ := h
  refine ⟨n, hn, ?_⟩
  split at h
  · rw [Query.pure_ok] at h
    exact h ▸ ⟨rfl, rfl⟩
  · simp only [Query.bind_ok, Query.pure_ok] at h
    obtain ⟨_, -, rfl⟩ := h
    exact ⟨rfl, rfl⟩

/-- **What a path leads to** is what its names, taken lexically, lead to. -/
theorem resolve_placed (hn : NormalizesParts app) (hw : Orderly app w)
    (ht : Proper app w.access.nodes) {ref : PathRef} {n : Node}
    (h : (resolve app user ref) w = .ok n) (hdir : n.kind = .directory) :
    Placed app w ⟨newCwd app ref, n.id⟩ := by
  rw [resolve, Query.bind_ok] at h
  obtain ⟨whole, hwhole, h⟩ := h
  obtain rfl := pathOf_joined hwhole
  have hget := (walk_ok hw.sound h).get
  simp only [walk, Query.bind_ok, access, Query.read_ok, deref_ok, need_ok] at h
  obtain ⟨_, hrooted, _, hlimits, a, rfl, root, hroot, h⟩ := h
  have hid : root.id = app.root := node_id_of_get hroot
  have htop : ∀ r, w.access.nodes.get app.root = some r → r.parent = none := fun r hr => by
    obtain ⟨r', hr', -, hnone⟩ := hw.sound.root
    obtain rfl := Option.some.inj (hr.symm.trans hr')
    exact hnone
  obtain ⟨hleads, hlen⟩ := @walk_leads _ _ _ hn htop _ [] _ _
    (fun c hc => by simpa using (List.mem_filter.mp hc).2) (fun _ hc => absurd hc List.not_mem_nil)
    (hid ▸ Leads.root) (hid ▸ hroot) h
  have hpieces := hlimits.1
  rw [List.length_map] at hpieces
  exact ⟨_, hleads, newCwd_eq hn hrooted.1 (hleads.names_ok ht), by
    rw [List.length_map]
    simpa using hlen.trans (by simpa using hpieces), n, hget, hdir⟩

theorem Visits.placed (hn : NormalizesParts app) (h : Visits app reports w dir) :
    Orderly app w ∧ Proper app w.access.nodes ∧ Placed app w dir := by
  induction h with
  | login hname hrun h =>
      obtain ⟨hw, ht⟩ := proper_run hn.toNormalizes
        ⟨orderly_initial hn.toNormalizes _ _ hname, .of_tree (tree_initial hn.toNormalizes _ _ hname)⟩
        hrun
      refine ⟨hw, ht, ?_⟩
      simp only [enter, Query.bind_ok, Query.pure_ok] at h
      obtain ⟨found, hstat, rfl⟩ := h
      obtain ⟨n, hresolve, hid, -⟩ := stat_ok hstat
      rw [resolve, Query.bind_ok] at hresolve
      obtain ⟨whole, hwhole, hwalk⟩ := hresolve
      obtain rfl := pathOf_joined hwhole
      obtain ⟨r, hr, hkind, -⟩ := hw.sound.root
      have hroot : n = r := by
        have hpieces : piecesOf ['/'] = [] := by decide
        simp only [PathRef.joined, List.head?_cons, if_true, walk, hpieces, List.map_nil,
          Query.bind_ok, access, Query.read_ok, deref_ok, walkFrom, Query.pure_ok] at hwalk
        obtain ⟨_, -, _, -, a, rfl, root, hroot, rfl⟩ := hwalk
        exact Option.some.inj (hroot.symm.trans hr)
      have hrid : r.id = app.root := node_id_of_get hr
      exact ⟨[], by rw [hid, hroot, hrid]; exact .root, rfl, by simp,
        by rw [hid, hroot, hrid]; exact ⟨r, hr, hkind⟩⟩
  | cd _ hcd ih =>
      obtain ⟨hw, ht, -⟩ := ih
      refine ⟨hw, ht, ?_⟩
      simp only [Dfsha.Client.cd, Query.bind_ok, need_ok, Query.pure_ok] at hcd
      obtain ⟨found, hstat, _, hdir, rfl⟩ := hcd
      obtain ⟨n, hresolve, hid, hkind⟩ := stat_ok hstat
      rw [hid]
      exact resolve_placed hn hw ht hresolve (hkind ▸ hdir)
  | wait _ hrun ih =>
      obtain ⟨hw, ht, names, hleads, hcwd, hlen, hfolder⟩ := ih
      have hgrows := (hrun.counts hn.toNormalizes hw).1
      obtain ⟨hv, ht'⟩ := proper_run hn.toNormalizes ⟨hw, ht⟩ hrun
      exact ⟨hv, ht', names, hleads.grows hgrows, hcwd, hlen, hfolder.grows hgrows⟩

/-- **The working directory is coherent.**  Whatever directories a client changed to, and whatever
happened since, the text of its working directory leads to the identifier of it, as long as the
directory was not removed and what is above may be searched; so a relative path is never refused
because the directory would be gone. -/
theorem directory_coherence (hn : NormalizesParts app) (h : Visits app reports w dir)
    (hshort : utf8Length dir.cwd ≤ 4096) (hlive : Living w.access.nodes dir.cwdId)
    (hsearch : Searches app user w dir.cwdId) :
    (∃ n, (walk app user dir.cwd) w = .ok n ∧ n.id = dir.cwdId ∧ n.kind = .directory) ∧
    ∀ path, path ≠ [] → utf8Length path ≤ 4096 → path.head? ≠ some '/' →
      (pathOf app user ⟨path, dir.cwd, dir.cwdId⟩) w = .ok (rstrip dir.cwd ++ ['/'] ++ path) := by
  obtain ⟨hw, ht, names, hleads, hcwd, hlen, hfolder⟩ := h.placed hn
  obtain ⟨n, hget, halive⟩ := hlive
  obtain ⟨n', hget', hkind⟩ := hfolder
  obtain rfl : n = n' := Option.some.inj (hget.symm.trans hget')
  obtain ⟨root, hroot, -, -⟩ := hw.sound.root
  have hnames := hleads.names_ok ht
  have hfrom := leads_walk hw.siblings ht hleads hget halive hroot hsearch
  have hpieces : (piecesOf dir.cwd).map app.nfc = names := by
    rw [hcwd, piecesOf_text hnames]
    conv_rhs => rw [← List.map_id names]
    exact List.map_congr_left fun name hname => (hnames name hname).normal
  have hchars : ∀ c : Char, c ≠ '/' → (∀ name ∈ names, c ∉ name) → c ∉ dir.cwd := by
    intro c hc hno hmem
    rw [hcwd, List.mem_cons] at hmem
    rcases hmem with he | hmem
    · exact hc he
    · rcases mem_intercalate hmem with he | ⟨name, hname, hin⟩
      · exact hc he
      · exact hno name hname hin
  have hwalk : (walk app user dir.cwd) w = .ok n := by
    simp only [walk, hpieces, Query.bind_ok, access, Query.read_ok, deref_ok, need_ok]
    refine ⟨(), ⟨by rw [hcwd]; rfl, hshort, ?_, ?_⟩, (), ⟨hlen, fun name hname =>
      (hnames name hname).short⟩, _, rfl, root, hroot, hfrom⟩
    · exact hchars _ (by decide) fun name hname => (hnames name hname).backslash
    · exact hchars _ (by decide) fun name hname => (hnames name hname).nul
  have hid : n.id = dir.cwdId := node_id_of_get hget
  refine ⟨⟨n, hwalk, hid, hkind⟩, fun path hpath hbytes hrelative => ?_⟩
  have hne : dir.cwdId ≠ 0 := by
    obtain ⟨i, -, hissued⟩ := hw.sound.ids.nodes n (Table.mem_of_get hget) n.id (by simp [Node.ids])
    rw [← hid, hissued]
    exact app.uuid_ne_zero i
  simp only [pathOf, Query.bind_ok, need_ok]
  refine ⟨(), ⟨hpath, hbytes⟩, ?_⟩
  rw [if_neg hrelative]
  simp only [Query.bind_ok, need_ok, Query.attempt_ok]
  refine ⟨(), ⟨by rw [hcwd]; rfl, hne⟩, .ok n, hwalk, ?_⟩
  simp only [Query.bind_ok, need_ok, Query.pure_ok]
  exact ⟨(), ⟨hid, hkind⟩, trivial⟩

/-- The small configuration leaves every text as it is. -/
theorem small_parts (profile : Profile) : NormalizesParts (App.small profile) :=
  { small_normalizes profile with
    parts := fun _ _ => rfl, dot := fun _ h => h, dots := fun _ h => h }

/-- The administrator goes to its own directory by a crooked path. -/
theorem small_coherence : ∃ dir : Directory, ∃ n,
    Visits (App.small .monolith) (fun _ => True) (World.small .monolith) dir ∧
    dir.cwd = '/' :: homeName ++ ['/', 'a'] ∧
    (walk (App.small .monolith) smallUser dir.cwd) (World.small .monolith) = .ok n ∧
    n.id = dir.cwdId := by
  have henter : (enter (App.small .monolith) smallUser) (World.small .monolith) =
      .ok ⟨['/'], 2⟩ := by decide +kernel
  have hcd : (cd (App.small .monolith) smallUser ⟨['/'], 2⟩
      (['.', '.', '/', '/'] ++ homeName ++ ['/', 'a', '/', '.', '.', '/', '.', '/', 'a', '/']))
        (World.small .monolith) = .ok ⟨'/' :: homeName ++ ['/', 'a'], 6⟩ := by decide +kernel
  have hvisits : Visits (App.small .monolith) (fun _ => True) (World.small .monolith) _ :=
    .cd (@Visits.login _ _ _ ['a'] _ _ _ _ _ (by decide) (.nil _) henter) hcd
  have hlive : Living (World.small .monolith).access.nodes 6 := by
    have hsome : ((World.small .monolith).access.nodes.get 6).any (fun n => n.alive) = true := by
      decide +kernel
    obtain ⟨n, hn, halive⟩ := (Option.any_eq_true _ _).mp hsome
    exact ⟨n, hn, halive⟩
  obtain ⟨⟨n, hn, hid, -⟩, -⟩ := @directory_coherence _ _ smallUser _ _ (small_parts .monolith)
    hvisits (by decide) hlive fun _ _ _ _ => rfl
  exact ⟨_, n, hvisits, rfl, hn, hid⟩

end Dfsha.Client
