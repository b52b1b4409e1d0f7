import Dfsha.Control.Authority
import Dfsha.Lib.Encoding
import Dfsha.Safety.Bases
import Dfsha.Safety.Leases
import Dfsha.Safety.Ranges

/-!
# What a capability was issued for

A capability is the authentication code of a text that is joined from parts: the epoch, a user or a
source node, an operation, a handle or a task, a block version, and an action, which is joined from
parts again.  Some of the parts may be empty, and there are not equally many in every text.  The
texts can be told apart nevertheless, as long as no operation or handle has the identifier of a
task: so the holder of a capability can only do with it what it was issued for.

## Main definitions

* `Naming` — how identifiers are written.
* `CapabilityText.input` — the text whose code `Authorizer.capability` returns.
* `GrantIssued` — a grant that is sent out in a state, and its capability.
* `AuthorizeBlockRequest.grant`, `AuthorizeInternalRequest.grant` — what a request is about.

## Main results

* `capabilities_exact` — different grants have different texts, and what is authorized was issued.
-/

namespace Dfsha

/-! ## The text of a capability -/

/-- How identifiers are written: different ones differently, without a separator. -/
structure Naming where
  name : Id → Text
  injective : Function.Injective name
  clean : ∀ id, ':' ∉ name id ∧ '\x00' ∉ name id

section Texts

variable (names : Naming)

def TaskKind.text : TaskKind → Text
  | .copy => ['c', 'o', 'p', 'y']
  | .delete => ['d', 'e', 'l', 'e', 't', 'e']

/-- The parts of an action. -/
def Action.parts : Action → List Text
  | .read => [['r', 'e', 'a', 'd']]
  | .readRange low length readId =>
      [['r', 'e', 'a', 'd'], decimal low, decimal length, names.name readId]
  | .write => [['w', 'r', 'i', 't', 'e']]
  | .patch => [['p', 'a', 't', 'c', 'h']]

/-- The text that `Authorizer.capability` authenticates. -/
def authorizerInput (epoch user binding block : Id) (action : Text) : Text :=
  joined '\x00' [names.name epoch, names.name user, names.name binding, names.name block, action]

/-- What the callers of `Authorizer.capability` give it, by the kind of the grant. -/
def CapabilityText.input (epoch : Id) : CapabilityText → Text
  | .monolith user binding block action =>
      authorizerInput names epoch user binding block (joined ':' (action.parts names))
  | .data user binding block action node generation session =>
      authorizerInput names epoch user binding block
        (joined ':' [joined ':' (action.parts names), names.name node, decimal generation,
          names.name session])
  | .task src id block dest kind =>
      authorizerInput names epoch src id block (names.name dest ++ [':'] ++ kind.text)
  | .ownedTask src id block dest kind owner generation =>
      authorizerInput names epoch src id block
        (joined ':' [names.name dest, kind.text, names.name owner, decimal generation])

/-- The user or the source node a grant is for, what it is bound to, and the block. -/
def CapabilityText.head : CapabilityText → Id × Id × Id
  | .monolith user binding block _ | .data user binding block _ _ _ _ => (user, binding, block)
  | .task src id block _ _ | .ownedTask src id block _ _ _ _ => (src, id, block)

/-- The parts of the rest. -/
def CapabilityText.parts : CapabilityText → List Text
  | .monolith _ _ _ action => action.parts names
  | .data _ _ _ action node generation session =>
      action.parts names ++ [names.name node, decimal generation, names.name session]
  | .task _ _ _ dest kind => [names.name dest, kind.text]
  | .ownedTask _ _ _ dest kind owner generation =>
      [names.name dest, kind.text, names.name owner, decimal generation]

/-- Whether a grant is for a task. -/
def CapabilityText.forTask : CapabilityText → Bool
  | .monolith .. | .data .. => false
  | .task .. | .ownedTask .. => true

end Texts

variable {names : Naming}

theorem Action.parts_ne_nil (action : Action) : action.parts names ≠ [] := by
  cases action <;> exact List.cons_ne_nil _ _

theorem CapabilityText.input_eq (epoch : Id) (g : CapabilityText) :
    g.input names epoch = joined '\x00' [names.name epoch, names.name g.head.1,
      names.name g.head.2.1, names.name g.head.2.2, joined ':' (g.parts names)] := by
  cases g with
  | monolith => rfl
  | data user binding block action =>
      rw [input, joined_joined action.parts_ne_nil]
      rfl
  | task =>
      simp [input, authorizerInput, parts, head, joined, List.intercalate_cons_cons]
  | ownedTask => rfl

/-- No part has a separator in it. -/
theorem CapabilityText.parts_clean {c : Char} (hc : c = ':' ∨ c = '\x00') (g : CapabilityText) :
    ∀ t ∈ g.parts names, c ∉ t := by
  have hname : ∀ id, c ∉ names.name id := by
    intro id
    rcases hc with rfl | rfl
    · exact (names.clean id).1
    · exact (names.clean id).2
  have hdigits : ∀ n, c ∉ decimal n := by
    intro n
    rcases hc with rfl | rfl
    · exact not_mem_decimal (by decide) n
    · exact not_mem_decimal (by decide) n
  have hkind : ∀ kind : TaskKind, c ∉ kind.text := by
    intro kind
    rcases hc with rfl | rfl
    · cases kind <;> decide
    · cases kind <;> decide
  have haction : ∀ action : Action, ∀ t ∈ action.parts names, c ∉ t := by
    intro action
    rcases hc with rfl | rfl
    · cases action <;> simp [Action.parts, hname, hdigits]
    · cases action <;> simp [Action.parts, hname, hdigits]
  cases g with
  | monolith user binding block action => exact haction action
  | data user binding block action =>
      intro t ht
      rcases List.mem_append.mp ht with ht | ht
      · exact haction action t ht
      · simp only [List.mem_cons, List.not_mem_nil, or_false] at ht
        rcases ht with rfl | rfl | rfl
        · exact hname _
        · exact hdigits _
        · exact hname _
  | task => simp [parts, hname, hkind]
  | ownedTask => simp [parts, hname, hkind, hdigits]

theorem CapabilityText.parts_ne_nil (g : CapabilityText) : g.parts names ≠ [] := by
  cases g with
  | monolith user binding block action => exact action.parts_ne_nil
  | data user binding block action => simp [parts]
  | task => exact List.cons_ne_nil _ _
  | ownedTask => exact List.cons_ne_nil _ _

/-- **A text is known by its parts.** -/
theorem CapabilityText.of_input_eq {epoch : Id} {g g' : CapabilityText}
    (h : g.input names epoch = g'.input names epoch) :
    g.head = g'.head ∧ g.parts names = g'.parts names := by
  rw [input_eq, input_eq] at h
  have hclean : ∀ g : CapabilityText, ∀ t ∈ [names.name epoch, names.name g.head.1,
      names.name g.head.2.1, names.name g.head.2.2, joined ':' (g.parts names)],
      '\x00' ∉ t := by
    intro g t ht
    simp only [List.mem_cons, List.not_mem_nil, or_false] at ht
    rcases ht with rfl | rfl | rfl | rfl | rfl
    · exact (names.clean _).2
    · exact (names.clean _).2
    · exact (names.clean _).2
    · exact (names.clean _).2
    · exact not_mem_joined (by decide) (parts_clean (.inr rfl) g)
  have hparts := joined_injective (hclean g) (hclean g') (List.cons_ne_nil _ _)
    (List.cons_ne_nil _ _) h
  simp only [List.cons.injEq, true_and, and_true] at hparts
  obtain ⟨h1, h2, h3, haction⟩ := hparts
  refine ⟨Prod.ext (names.injective h1) (Prod.ext (names.injective h2) (names.injective h3)), ?_⟩
  exact joined_injective (parts_clean (.inl rfl) g) (parts_clean (.inl rfl) g') g.parts_ne_nil
    g'.parts_ne_nil haction

theorem TaskKind.text_injective {k k' : TaskKind} (h : k.text = k'.text) : k = k' := by
  cases k <;> cases k' <;> first | rfl | exact absurd h (by decide)

/-- The actions of the clients are known by their parts. -/
theorem Action.parts_append_injective {action action' : Action} {l l' : List Text}
    (hl : l.length = l'.length)
    (h : action.parts names ++ l = action'.parts names ++ l') : action = action' ∧ l = l' := by
  have hlength := congrArg List.length h
  rw [List.length_append, List.length_append, hl, Nat.add_right_cancel_iff] at hlength
  obtain ⟨hparts, hrest⟩ := List.append_inj h hlength
  refine ⟨?_, hrest⟩
  cases action <;> cases action' <;>
    simp [parts, decimal_injective.eq_iff, names.injective.eq_iff] at hparts ⊢
  exact hparts

/-- **A grant of a control with data nodes is known by its text**, and by whether it is for a
task. -/
theorem CapabilityText.input_injective {epoch : Id} {g g' : CapabilityText}
    (hg : ∀ u b k a, g ≠ .monolith u b k a) (hg' : ∀ u b k a, g' ≠ .monolith u b k a)
    (htask : g.head.2.1 = g'.head.2.1 → g.forTask = g'.forTask)
    (h : g.input names epoch = g'.input names epoch) : g = g' := by
  obtain ⟨hhead, hparts⟩ := of_input_eq h
  replace htask := htask (by rw [hhead])
  have hnames : ∀ i j, names.name i = names.name j → i = j := fun _ _ h => names.injective h
  have hdigits : ∀ i j, decimal i = decimal j → i = j := fun _ _ h => decimal_injective h
  cases g with
  | monolith u b k a => exact absurd rfl (hg u b k a)
  | data user binding block action node generation session =>
      cases g' with
      | monolith u b k a => exact absurd rfl (hg' u b k a)
      | data user' binding' block' action' node' generation' session' =>
          have hflat : action.parts names ++
              [names.name node, decimal generation, names.name session] =
            action'.parts names ++
              [names.name node', decimal generation', names.name session'] := hparts
          obtain ⟨haction, hrest⟩ := Action.parts_append_injective (by rfl) hflat
          simp only [List.cons.injEq, and_true] at hrest
          obtain ⟨h1, h2, h3⟩ := hrest
          simp only [head, Prod.mk.injEq] at hhead
          obtain ⟨h4, h5, h6⟩ := hhead
          rw [haction, hnames _ _ h1, hdigits _ _ h2, hnames _ _ h3, h4, h5, h6]
      | task => cases htask
      | ownedTask => cases htask
  | task src id block dest kind =>
      cases g' with
      | monolith u b k a => exact absurd rfl (hg' u b k a)
      | data => cases htask
      | task src' id' block' dest' kind' =>
          simp only [parts, List.cons.injEq, and_true] at hparts
          simp only [head, Prod.mk.injEq] at hhead
          obtain ⟨h4, h5, h6⟩ := hhead
          rw [hnames _ _ hparts.1, TaskKind.text_injective hparts.2, h4, h5, h6]
      | ownedTask => simp [parts] at hparts
  | ownedTask src id block dest kind owner generation =>
      cases g' with
      | monolith u b k a => exact absurd rfl (hg' u b k a)
      | data => cases htask
      | task => simp [parts] at hparts
      | ownedTask src' id' block' dest' kind' owner' generation' =>
          simp only [parts, List.cons.injEq, and_true] at hparts
          obtain ⟨h1, h2, h3, h7⟩ := hparts
          simp only [head, Prod.mk.injEq] at hhead
          obtain ⟨h4, h5, h6⟩ := hhead
          rw [hnames _ _ h1, TaskKind.text_injective h2, hnames _ _ h3, hdigits _ _ h7, h4, h5, h6]

/-! ## What plans grant -/

variable {app : App} {w w' : World}

/-- The grant of a write is for the node it names, as the control knows it. -/
def WriteGranted (app : App) (nodes : Table DataNode) (user binding session : Id)
    (p : PlannedBlock) : Prop :=
  ∃ grant node, p.grants = [grant] ∧ nodes.get grant.nodeId = some node ∧
    grant.capability = app.hmac (.data user binding grant.block.blockVersionId .write node.id
      node.location.bootGeneration session)

/-- The grant of a patch is for the node at the first location. -/
def PatchGranted (app : App) (nodes : Table DataNode) (user binding session : Id)
    (p : PlannedBlock) : Prop :=
  ∃ grant location node, p.grants = [grant] ∧ p.locations.head? = some location ∧
    nodes.get location.nodeId = some node ∧
    grant.capability = app.hmac (.data user binding p.replacementBlockVersionId .patch node.id
      node.location.bootGeneration session)

theorem clusterPlan_grants {block : BlockRef} {user : User} {binding : Binding}
    {p : PlannedBlock} (h : (clusterPlan app block user binding) w = .ok (p, w')) :
    WriteGranted app w.cluster.datanodes user.id binding.id binding.session p := by
  unfold clusterPlan at h
  obtain ⟨a, s, ha, h⟩ := Tx.bind_ok.mp h
  simp only [run_world, run_need, run_deref, Tx.pure_ok, Prod.mk.injEq] at h
  obtain ⟨-, target, htarget, rfl, -⟩ := h
  have hnodes : s.cluster.datanodes = w.cluster.datanodes := (assign_plans ha).datanodes
  refine ⟨_, target, rfl, ?_, rfl⟩
  have hkey : target.id = a.node := Table.key_of_get htarget
  simp only
  rw [hkey, ← hnodes]
  exact htarget

theorem plan_grants (hr : app.rf3 = true) {block : BlockRef} {user : User} {binding : Binding}
    {p : PlannedBlock} (h : (plan app block user binding) w = .ok (p, w')) :
    WriteGranted app w.cluster.datanodes user.id binding.id binding.session p := by
  unfold plan at h
  cases hp : app.profile with
  | monolith => simp [App.rf3, hp] at hr
  | distributed => simp [App.rf3, hp] at hr
  | rf3 => exact clusterPlan_grants (by simpa only [hp] using h)
  | replicated =>
      simp only [hp] at h
      obtain ⟨result, s, hresult, h⟩ := Tx.bind_ok.mp h
      obtain ⟨_, s₁, -, h⟩ := Tx.bind_ok.mp h
      obtain ⟨_, s₂, -, h⟩ := Tx.bind_ok.mp h
      rw [Tx.pure_ok, Prod.mk.injEq] at h
      exact h.1 ▸ clusterPlan_grants hresult

theorem operation_session {user : User} {session : Session} {reference : OperationRef}
    {fence : Option Fence} {op : Operation}
    (h : (operation app user session reference fence) w = .ok op) :
    w.access.uploads.get reference.operationId = some op ∧ op.session = session.id := by
  have hcommands : ∀ {o : Operation},
      (commandsOperation app user session reference fence) w = .ok o →
        w.access.uploads.get reference.operationId = some o ∧ o.session = session.id := by
    intro o ho
    simp only [commandsOperation, Query.bind_ok, access, Query.read_ok, needSome_ok, need_ok,
      Query.pure_ok] at ho
    obtain ⟨_, rfl, x, hx, _, ⟨-, hs⟩, _, -, _, -, _, -, _, -, _, -, _, -, rfl⟩ := ho
    exact ⟨hx, hs⟩
  rw [operation] at h
  split at h
  · rw [accessOperation, Query.bind_ok] at h
    obtain ⟨o, ho, h⟩ := h
    rw [Query.bind_ok] at h
    obtain ⟨_, -, h⟩ := h
    have heq : o = op := by
      split at h
      · exact Query.pure_ok.mp h
      · rw [Query.bind_ok] at h
        obtain ⟨_, -, h⟩ := h
        exact Query.pure_ok.mp h
    exact heq ▸ hcommands ho
  · exact hcommands h

/-- **The grants of `AllocateBlocks`.** -/
theorem allocateBlocks_grants (hr : app.rf3 = true) {user : User} {session : Session}
    {req : AllocateBlocksRequest} {blocks : List PlannedBlock}
    (h : (allocateBlocks app user session req) w = .ok (.blockPlan blocks, w')) :
    (w'.access.uploads.get req.operation.operationId).isSome = true ∧
      ∀ b ∈ blocks, WriteGranted app w.cluster.datanodes user.id req.operation.operationId
        session.id b := by
  unfold allocateBlocks at h
  simp only [↓run_need, run_query, setAccess_access, setAccess_setAccess, Access.later_later,
    Nat.reduceAdd] at h
  obtain ⟨op, hop, -, -, h⟩ := h
  obtain ⟨hget, hsession⟩ := operation_session hop
  have hid : op.id = req.operation.operationId := upload_id_of_get hget
  obtain ⟨⟨op', planned⟩, s, hfold, h⟩ := Tx.bind_ok.mp h
  -- every turn plans one more block for the same operation, and leaves the nodes alone
  have hfinal := Tx.fold_induction (P := fun _ acc s => s.cluster.datanodes = w.cluster.datanodes ∧
      acc.1.id = op.id ∧ acc.1.session = op.session ∧
      ∀ b ∈ acc.2, WriteGranted app w.cluster.datanodes user.id op.id op.session b)
    (by
      rintro requested l ⟨o, ps⟩ ⟨o', ps'⟩ s s' ⟨hnodes, hoid, hosession, hall⟩ hturn
      simp only at hoid hosession hall
      unfold allocateBlock at hturn
      simp only [↓run_need] at hturn
      obtain ⟨-, hturn⟩ := hturn
      have hlast : ∀ {x : World} {p : PlannedBlock} {o'' : Operation},
          x.cluster = s.cluster → o''.id = o.id → o''.session = o.session →
          WriteGranted app x.cluster.datanodes user.id o''.id o''.session p →
          ∀ b ∈ ps ++ [p], WriteGranted app w.cluster.datanodes user.id op.id op.session b := by
        intro x p o'' hx h1 h2 hp b hb
        rcases List.mem_append.mp hb with hb | hb
        · exact hall b hb
        · rw [List.mem_singleton.mp hb]
          rwa [hx, hnodes, h1, h2, hoid, hosession] at hp
      split at hturn
      · simp only [↓run_need] at hturn
        obtain ⟨p, s₁, hplan, hturn⟩ := Tx.bind_ok.mp hturn.2
        simp only [Tx.pure_ok, Prod.mk.injEq] at hturn
        obtain ⟨⟨rfl, rfl⟩, rfl⟩ := hturn
        exact ⟨(plan_plans hplan).datanodes.trans hnodes, hoid, hosession,
          hlast rfl rfl rfl (plan_grants hr hplan)⟩
      · simp only [run_draw] at hturn
        obtain ⟨p, s₁, hplan, hturn⟩ := Tx.bind_ok.mp hturn
        simp only [Tx.pure_ok, Prod.mk.injEq] at hturn
        obtain ⟨⟨rfl, rfl⟩, rfl⟩ := hturn
        exact ⟨(plan_plans hplan).datanodes.trans hnodes, hoid, hosession,
          hlast rfl rfl rfl (plan_grants hr hplan)⟩)
    ⟨rfl, rfl, rfl, fun _ hb => absurd hb List.not_mem_nil⟩ hfold
  obtain ⟨-, hoid, -, hall⟩ := hfinal
  simp only [putUpload, run_onAccess, Tx.pure_ok, Prod.mk.injEq, Response.blockPlan.injEq] at h
  obtain ⟨rfl, rfl⟩ := h
  rw [hid, hsession] at hall
  refine ⟨?_, hall⟩
  rw [← hid, ← hoid]
  exact Option.isSome_iff_exists.mpr ⟨op', Table.get_put_self _ op'⟩

theorem cluster_of_leaves {α : Type} {x : T α} [hx : Leaves World.cluster x] {r : α × World}
    (h : x w = .ok r) : r.2.cluster = w.cluster := Leaves.leaves hx w r h

theorem assignPatch_datanodes {opId : Id} {base replacement : BlockRef} {r : Unit × World}
    (h : (assignPatch app opId base replacement) w = .ok r) :
    r.2.cluster.datanodes = w.cluster.datanodes := by
  cases (assignPatch_ok h).2 with
  | held node hnode hissued hcluster =>
      obtain ⟨a, -, -, hcluster⟩ := hcluster
      rw [hcluster]
  | copied node source l t hnone hnode hsource hlocation hissued htask hcluster =>
      obtain ⟨a, -, -, hcluster⟩ := hcluster
      rw [hcluster]

theorem planPart_grants (hr : app.rf3 = true) {user : User} {snap : Snapshot} {file : Id}
    {op op' : Operation} {planned planned' : List PlannedBlock} {part : WritePart}
    (h : (planPart app user snap file (op, planned) part) w = .ok ((op', planned'), w')) :
    w'.cluster.datanodes = w.cluster.datanodes ∧ op'.id = op.id ∧ op'.session = op.session ∧
      ∃ p, planned' = planned ++ [p] ∧
        PatchGranted app w.cluster.datanodes user.id op.id op.session p := by
  unfold planPart at h
  simp only [run_draw] at h
  obtain ⟨_, s, hassign, h⟩ := Tx.bind_ok.mp h
  obtain ⟨p, s₁, hplan, h⟩ := Tx.bind_ok.mp h
  simp only [↓run_world, ↓run_deref, putUpload, run_onAccess, Tx.pure_ok, Prod.mk.injEq] at h
  obtain ⟨location, hlocation, target, htarget, ⟨rfl, rfl⟩, rfl⟩ := h
  have hnodes : s.cluster.datanodes = w.cluster.datanodes := by
    split at hassign
    · exact assignPatch_datanodes hassign
    · rw [Tx.pure_ok, Prod.mk.injEq] at hassign
      rw [hassign.2]
      rfl
  have hnodes' : s₁.cluster.datanodes = w.cluster.datanodes :=
    (plan_plans hplan).datanodes.trans hnodes
  obtain ⟨grant, node, hgrants, -⟩ := plan_grants hr hplan
  have hget : w.cluster.datanodes.get location.nodeId = some target := hnodes' ▸ htarget
  refine ⟨hnodes', rfl, rfl, _, rfl, ?_⟩
  unfold PatchGranted
  simp only [hgrants]
  exact ⟨_, location, target, rfl, hlocation, hget, rfl⟩

theorem accessBeginWrite_grants (hr : app.rf3 = true) {user : User} {session : Session}
    {ctx : RequestContext} {req : BeginWriteRequest} {plan : WritePlan}
    (h : (accessBeginWrite app user session ctx req) w = .ok (plan, w')) :
    ∀ b ∈ plan.blocks, PatchGranted app w.cluster.datanodes user.id plan.operation.operationId
      session.id b := by
  unfold accessBeginWrite at h
  simp only [↓run_needSome, ↓run_need, run_query, run_draw, setAccess_access, setAccess_setAccess,
    Access.later_later, Access.later_shift, Access.shift_later, Nat.reduceAdd] at h
  obtain ⟨t, -, offset, -, length, -, growing, -, -, h⟩ := h
  obtain ⟨g₁, s₁, hfences, h⟩ := Tx.bind_ok.mp h
  obtain ⟨g₂, s₂, hown, h⟩ := Tx.bind_ok.mp h
  obtain ⟨g₃, s₃, hmissing, h⟩ := Tx.bind_ok.mp h
  have hcluster : s₃.cluster = w.cluster :=
    (cluster_of_leaves hmissing).trans ((cluster_of_leaves hown).trans (cluster_of_leaves hfences))
  simp only [run_query, putUpload, run_onAccess] at h
  obtain ⟨fences, -, epoch, -, h⟩ := h
  obtain ⟨⟨op, planned⟩, s₄, hfold, h⟩ := Tx.bind_ok.mp h
  obtain ⟨_, s₅, -, h⟩ := Tx.bind_ok.mp h
  obtain ⟨_, s₆, -, h⟩ := Tx.bind_ok.mp h
  simp only [Tx.pure_ok, Prod.mk.injEq] at h
  obtain ⟨rfl, rfl⟩ := h
  have hfinal := Tx.fold_induction (P := fun _ acc s => s.cluster.datanodes = w.cluster.datanodes ∧
      acc.1.id = app.uuid w.access.issued ∧ acc.1.session = session.id ∧
      ∀ b ∈ acc.2, PatchGranted app w.cluster.datanodes user.id (app.uuid w.access.issued)
        session.id b)
    (by
      rintro part l ⟨o, ps⟩ ⟨o', ps'⟩ s s' ⟨hnodes, hoid, hosession, hall⟩ hturn
      simp only at hoid hosession hall
      obtain ⟨hnodes', hid, hsession, p, rfl, hp⟩ := planPart_grants hr hturn
      refine ⟨hnodes'.trans hnodes, hid.trans hoid, hsession.trans hosession, ?_⟩
      intro b hb
      rcases List.mem_append.mp hb with hb | hb
      · exact hall b hb
      · rw [List.mem_singleton.mp hb]
        rwa [hnodes, hoid, hosession] at hp)
    (by
      refine ⟨?_, rfl, rfl, fun _ hb => absurd hb List.not_mem_nil⟩
      exact congrArg Cluster.datanodes hcluster) hfold
  exact hfinal.2.2.2

/-- **The grants of `BeginWrite`.** -/
theorem beginWrite_grants (hr : app.rf3 = true) (hs : Sound app w.access) {user : User}
    {session : Session} {ctx : RequestContext} {req : BeginWriteRequest} {plan : WritePlan}
    (h : (beginWrite app user session ctx req) w = .ok (.writePlan plan, w')) :
    (w'.access.uploads.get plan.operation.operationId).isSome = true ∧
      ∀ b ∈ plan.blocks, PatchGranted app w.cluster.datanodes user.id
        plan.operation.operationId session.id b := by
  unfold beginWrite at h
  obtain ⟨plan', s, hplan, h⟩ := Tx.bind_ok.mp h
  simp only [Tx.pure_ok, Prod.mk.injEq, Response.writePlan.injEq] at h
  obtain ⟨rfl, rfl⟩ := h
  split at hplan
  · obtain ⟨op, -, hget, -, -, hid⟩ := protectionBeginWrite_ok Trust.all hr hs hplan
    rw [hid]
    refine ⟨Option.isSome_iff_exists.mpr ⟨op, hget⟩, ?_⟩
    rw [← hid]
    unfold protectionBeginWrite at hplan
    simp only [↓run_cluster, ↓run_need, run_query] at hplan
    obtain ⟨⟨_, _⟩, -, -, hplan⟩ := hplan
    obtain ⟨r, v, hr', hplan⟩ := Tx.bind_ok.mp hplan
    simp only [↓run_access, ↓run_deref] at hplan
    obtain ⟨op', -, hplan⟩ := hplan
    obtain ⟨_, _, -, hplan⟩ := Tx.bind_ok.mp hplan
    simp only [↓run_cluster] at hplan
    obtain ⟨_, _, -, hplan⟩ := Tx.bind_ok.mp hplan
    simp only [Tx.pure_ok, Prod.mk.injEq] at hplan
    obtain ⟨rfl, -⟩ := hplan
    have hall := accessBeginWrite_grants hr hr'
    exact hall
  · obtain ⟨-, op, hget, -⟩ := accessBeginWrite_ok Trust.all hr hs hplan
    exact ⟨Option.isSome_iff_exists.mpr ⟨op, hget⟩, accessBeginWrite_grants hr hplan⟩

/-- The grants of a block of a range. -/
theorem planRange_grants {user : User} {h : Handle} {readId : Id} {offset stop size : Nat}
    {block : BlockRef} {p : PlannedBlock}
    (hp : (planRange app user h readId offset stop size block) w = .ok p) :
    ∀ grant ∈ p.grants, ∃ node, w.cluster.datanodes.get grant.nodeId = some node ∧
      grant.capability = app.hmac (.data user.id h.id grant.block.blockVersionId
        (.readRange grant.offset grant.length readId) node.id node.location.bootGeneration
        h.session) := by
  simp only [planRange, Query.bind_ok, deref_ok, Query.pure_ok] at hp
  obtain ⟨plan, hplan, length, -, grants, hgrants, rfl⟩ := hp
  obtain ⟨-, -, hall⟩ := readPlan_ok hplan
  intro grant hgrant
  obtain ⟨g, hg, hturn⟩ := (Query.map_mem hgrants).2 grant hgrant
  simp only [rangeGrant, world, Query.bind_ok, Query.read_ok, deref_ok, Query.pure_ok] at hturn
  obtain ⟨v, rfl, node, hnode, rfl⟩ := hturn
  refine ⟨node, hnode, ?_⟩
  simp only [(hall g hg).1]

/-- **The grants of `ResolveBlocks`.** -/
theorem resolveBlocks_grants {user : User} {session : Session} {req : ResolveBlocksRequest}
    {plan : BlockPlan} (h : (resolveBlocks app user session req) w = .ok plan) :
    (w.access.handles.get req.handleId).isSome = true ∧
      ∀ b ∈ plan.blocks, ∀ grant ∈ b.grants, ∃ node,
        w.cluster.datanodes.get grant.nodeId = some node ∧
        grant.capability = app.hmac (.data user.id req.handleId grant.block.blockVersionId
          (.readRange grant.offset grant.length req.readId) node.id
          node.location.bootGeneration session.id) := by
  simp only [resolveBlocks, Query.bind_ok, Query.pure_ok] at h
  obtain ⟨⟨h', snap⟩, hh, _, -, _, -, _, -, _, -, stop, -, _, -, cursor, -, _, -, planned, hplanned,
    rfl⟩ := h
  obtain ⟨hget, hsession, -⟩ := accessHandle_ok hh
  have hid : h'.id = req.handleId := handle_id_of_get hget
  refine ⟨Option.isSome_iff_exists.mpr ⟨h', hget⟩, fun b hb => ?_⟩
  obtain ⟨block, -, hblock⟩ := (Query.map_mem hplanned).2 b hb
  have hall := planRange_grants hblock
  rwa [hid, hsession] at hall

/-! ## What is issued -/

theorem authenticated_ok {token : Id} {ctx : RequestContext} {user : User} {session : Session}
    (h : (authenticated app token ctx) w = .ok (user, session)) :
    user.id = ctx.userId ∧ session.id = app.tokenHash token := by
  simp only [authenticated, authenticate, Query.bind_ok, Query.pure_ok, needSome_ok, need_ok] at h
  obtain ⟨⟨u, s⟩, ⟨_, -, _, -, s', hs', _, -, u', -, _, -, he⟩, _, -, _, ⟨huser, -⟩, he'⟩ := h
  simp only [Prod.mk.injEq] at he he'
  obtain ⟨rfl, rfl⟩ := he
  obtain ⟨rfl, rfl⟩ := he'
  exact ⟨huser.symm, Table.key_of_get hs'⟩

/-- The command of a request is carried out in a step, and not answered from the ledger. -/
structure CarriedOut (app : App) (w : World) (token : Id) (ctx : RequestContext) (cmd : Command)
    (r : Response) (v : World) : Prop where
  served : (serve app token ctx cmd) w = .ok (r, v)
  fresh : (replay app ctx.userId ctx (.command cmd) cmd.method cmd.password)
    (w.setAccess (w.access.later 1)) = .ok none

theorem CarriedOut.executes {token : Id} {ctx : RequestContext} {cmd : Command} {r : Response}
    (h : CarriedOut app w token ctx cmd r w') :
    ∃ user session u, user.id = ctx.userId ∧ session.id = app.tokenHash token ∧
      (execute app user session ctx cmd) (w.setAccess (w.access.later 2)) = .ok (r, u) ∧
      w'.access.uploads = u.access.uploads := by
  obtain ⟨user, session, hauth, hcase⟩ := serve_cases h.served
  obtain ⟨huser, hsession⟩ := authenticated_ok hauth
  rcases hcase with ⟨hprevious, -⟩ | ⟨-, u, verifier, hexec, -, rfl⟩
  · have hfresh := h.fresh
    rw [← huser, hprevious] at hfresh
    cases hfresh
  · exact ⟨user, session, u, huser, hsession, hexec, rfl⟩

/-- A grant that is sent out in a step from `w` to `v`, and its capability: with the plan of an
`AllocateBlocks`, a `BeginWrite` or a `ResolveBlocks`, or with a task that is dispatched. -/
inductive GrantIssued (app : App) (w v : World) : CapabilityText → Digest → Prop
  | write {token : Id} {ctx : RequestContext} {req : AllocateBlocksRequest}
      {blocks : List PlannedBlock} {b : PlannedBlock} {grant : BlockGrant} {node : DataNode}
      (hreply : CarriedOut app w token ctx (.allocateBlocks req) (.blockPlan blocks) v)
      (hb : b ∈ blocks) (hgrant : grant ∈ b.grants)
      (hnode : w.cluster.datanodes.get grant.nodeId = some node) :
      GrantIssued app w v (.data ctx.userId req.operation.operationId
        grant.block.blockVersionId .write node.id node.location.bootGeneration
        (app.tokenHash token)) grant.capability
  | patch {token : Id} {ctx : RequestContext} {req : BeginWriteRequest} {plan : WritePlan}
      {b : PlannedBlock} {grant : BlockGrant} {location : BlockLocation} {node : DataNode}
      (hreply : CarriedOut app w token ctx (.beginWrite req) (.writePlan plan) v)
      (hb : b ∈ plan.blocks) (hgrant : grant ∈ b.grants)
      (hlocation : b.locations.head? = some location)
      (hnode : w.cluster.datanodes.get location.nodeId = some node) :
      GrantIssued app w v (.data ctx.userId plan.operation.operationId
        b.replacementBlockVersionId .patch node.id node.location.bootGeneration
        (app.tokenHash token)) grant.capability
  | read {token : Id} {ctx : RequestContext} {user : User} {session : Session}
      {req : ResolveBlocksRequest} {plan : BlockPlan} {b : PlannedBlock} {grant : BlockGrant}
      {node : DataNode} (hauth : (authenticated app token ctx) w = .ok (user, session))
      (hreply : (resolveBlocks app user session req) w = .ok plan) (hsame : v = w)
      (hb : b ∈ plan.blocks) (hgrant : grant ∈ b.grants)
      (hnode : w.cluster.datanodes.get grant.nodeId = some node) :
      GrantIssued app w v (.data ctx.userId req.handleId grant.block.blockVersionId
        (.readRange grant.offset grant.length req.readId) node.id node.location.bootGeneration
        (app.tokenHash token)) grant.capability
  | task {id : Id} {order : TaskOrder} {task : Task} (horder : (dispatch app id) w = .ok order)
      (hsame : v = w) (htask : w.cluster.tasks.get id = some task) :
      GrantIssued app w v (task.grant app) order.capability

/-- What a grant is bound to is there: a task, or else an operation or a handle. -/
structure Bound (w : World) (g : CapabilityText) : Prop where
  clustered : ∀ u b k a, g ≠ .monolith u b k a
  task : g.forTask = true → (w.cluster.tasks.get g.head.2.1).isSome = true
  client : g.forTask = false → (w.access.uploads.get g.head.2.1).isSome = true ∨
    (w.access.handles.get g.head.2.1).isSome = true

theorem Task.grant_bound {task : Task} {id : Id} (h : w.cluster.tasks.get id = some task) :
    Bound w (task.grant app) := by
  have hkey : task.id = id := Table.key_of_get h
  have hsome : (w.cluster.tasks.get task.id).isSome = true := by rw [hkey, h]; rfl
  unfold Task.grant
  split
  · exact ⟨nofun, fun _ => hsome, nofun⟩
  · exact ⟨nofun, fun _ => hsome, nofun⟩

theorem Bound.data {user binding block node session : Id} {action : Action} {generation : Nat}
    (h : (w.access.uploads.get binding).isSome = true ∨
      (w.access.handles.get binding).isSome = true) :
    Bound w (.data user binding block action node generation session) :=
  ⟨nofun, nofun, fun _ => h⟩

/-- **The capability of a grant is the code of its text.** -/
theorem GrantIssued.spec (hr : app.rf3 = true) (hs : Sound app w.access) {g : CapabilityText}
    {c : Digest} (h : GrantIssued app w w' g c) : c = app.hmac g ∧ Bound w' g := by
  cases h with
  | write hreply hb hgrant hnode =>
      obtain ⟨user, session, u, huser, hsession, hexec, huploads⟩ := hreply.executes
      obtain ⟨hop, hall⟩ := allocateBlocks_grants hr hexec
      obtain ⟨grant', node', hgrants, hnode', htag⟩ := hall _ hb
      rw [hgrants, List.mem_singleton] at hgrant
      subst hgrant
      obtain rfl := Option.some.inj (hnode.symm.trans hnode')
      rw [huser, hsession] at htag
      exact ⟨htag, .data (.inl (huploads ▸ hop))⟩
  | patch hreply hb hgrant hlocation hnode =>
      obtain ⟨user, session, u, huser, hsession, hexec, huploads⟩ := hreply.executes
      rw [execute, if_pos hr] at hexec
      obtain ⟨hop, hall⟩ := beginWrite_grants hr (hs.advance 2) hexec
      obtain ⟨grant', location', node', hgrants, hlocation', hnode', htag⟩ := hall _ hb
      rw [hgrants, List.mem_singleton] at hgrant
      subst hgrant
      obtain rfl := Option.some.inj (hlocation.symm.trans hlocation')
      obtain rfl := Option.some.inj (hnode.symm.trans hnode')
      rw [huser, hsession] at htag
      exact ⟨htag, .data (.inl (huploads ▸ hop))⟩
  | read hauth hreply hsame hb hgrant hnode =>
      subst hsame
      obtain ⟨huser, hsession⟩ := authenticated_ok hauth
      obtain ⟨hhandle, hall⟩ := resolveBlocks_grants hreply
      obtain ⟨node', hnode', htag⟩ := hall _ hb _ hgrant
      obtain rfl := Option.some.inj (hnode.symm.trans hnode')
      rw [huser, hsession] at htag
      exact ⟨htag, .data (.inr hhandle)⟩
  | @task id order task horder hsame htask =>
      subst hsame
      refine ⟨?_, Task.grant_bound htask⟩
      simp only [dispatch, world, Query.bind_ok, Query.read_ok, deref_ok] at horder
      obtain ⟨v, rfl, task', htask', _, -, horder⟩ := horder
      obtain rfl := Option.some.inj (htask.symm.trans htask')
      split at horder
      · simp only [Query.bind_ok, Query.pure_ok] at horder
        obtain ⟨_, -, _, -, _, -, rfl⟩ := horder
        rfl
      · rw [Query.pure_ok] at horder
        subst horder
        rfl

/-! ## What is authorized -/

theorem askingNode_ok {id : Id} {node : DataNode} (h : (askingNode app id) w = .ok node) :
    w.cluster.datanodes.get id = some node := by
  simp only [askingNode, world, Query.bind_ok, Query.read_ok, deref_ok] at h
  obtain ⟨v, rfl, _, -, hnode⟩ := h
  exact hnode

/-- What a request to `AuthorizeBlock` is about, at a node. -/
def AuthorizeBlockRequest.grant (app : App) (req : AuthorizeBlockRequest) (node : DataNode) :
    CapabilityText :=
  let issued (binding block : Id) (action : Action) : CapabilityText :=
    .data req.context.userId binding block action node.id node.location.bootGeneration
      (app.tokenHash req.token)
  match req.action with
  | .readData =>
      issued req.handleId req.block.blockVersionId (.readRange req.offset req.length req.readId)
  | .patchData => issued req.operation.operationId req.replacementBlockVersionId .patch
  | _ => issued req.operation.operationId req.block.blockVersionId .write

/-- A data node may act on a request only if its capability is that of what it is about. -/
structure Authorized (app : App) (w : World) (req : AuthorizeBlockRequest) : Prop where
  tag : ∃ node, w.cluster.datanodes.get req.nodeId = some node ∧
    req.capability = app.hmac (req.grant app node) ∧ Bound w (req.grant app node)

theorem replayDecision_ok {node : DataNode} {r : Response} {a b c : Nat} :
    ¬ (replayDecision node r) w = .ok (.allow a b c) := by
  intro h
  unfold replayDecision at h
  split at h
  · simp [Query.bind_ok] at h
  · simp at h

theorem authorizeWrite_ok {peer : Id} {req : AuthorizeBlockRequest} {a b c : Nat}
    (haction : req.action = .writeData)
    (h : (authorizeWrite app peer req) w = .ok (.allow a b c, w')) : Authorized app w req := by
  unfold authorizeWrite at h
  simp only [run_query] at h
  obtain ⟨_, -, ⟨user, session⟩, hauth, node, hnode, previous, -, h⟩ := h
  obtain ⟨huser, hsession⟩ := authenticated_ok hauth
  have hget := askingNode_ok hnode
  split at h
  · exact absurd (Tx.monadLift_ok.mp h).1 replayDecision_ok
  · simp only [↓run_need, ↓run_needSome, run_query, Tx.pure_ok] at h
    obtain ⟨op, hop, _, -, assignment, -, -, -, htag, -⟩ := h
    obtain ⟨hstored, hown⟩ := operation_session hop
    have hid : op.id = req.operation.operationId := upload_id_of_get hstored
    refine ⟨node, hget, ?_, ?_⟩
    · rw [htag, capability, AuthorizeBlockRequest.grant, haction]
      simp only [Operation.binding, huser, hid, hown, hsession]
    · rw [AuthorizeBlockRequest.grant, haction]
      exact .data (.inl (Option.isSome_iff_exists.mpr ⟨op, hstored⟩))

theorem writeOperation_session {user : User} {session : Session} {reference : OperationRef}
    {t : WriteTarget} (h : (writeOperation app user session reference) w = .ok (t, w')) :
    w.access.uploads.get reference.operationId = some t.op ∧ t.op.session = session.id := by
  unfold writeOperation at h
  simp only [↓run_access, ↓run_needSome, ↓run_need, run_query, setAccess_access] at h
  obtain ⟨op, hop, ⟨-, -, hsession⟩, -, epoch, -, -, x, -, -, h⟩ := h
  obtain ⟨_, v, -, h⟩ := Tx.bind_ok.mp h
  simp only [Tx.pure_ok, Prod.mk.injEq] at h
  obtain ⟨rfl, -⟩ := h
  exact ⟨hop, hsession⟩

theorem authorizePatch_ok {peer : Id} {req : AuthorizeBlockRequest} {a b c : Nat}
    (haction : req.action = .patchData)
    (h : (authorizePatch app peer req) w = .ok (.allow a b c, w')) : Authorized app w req := by
  unfold authorizePatch at h
  simp only [↓run_need, run_query] at h
  obtain ⟨-, _, -, ⟨user, session⟩, hauth, node, hnode, previous, -, h⟩ := h
  obtain ⟨huser, hsession⟩ := authenticated_ok hauth
  have hget := askingNode_ok hnode
  split at h
  · exact absurd (Tx.monadLift_ok.mp h).1 replayDecision_ok
  · obtain ⟨t, s, ht, h⟩ := Tx.bind_ok.mp h
    simp only [↓run_need] at h
    obtain ⟨htag, -⟩ := h
    have hversion : t.part.replacement.blockVersionId = req.replacementBlockVersionId :=
      (validateHeader_ok ht).2.2.2.1
    unfold validateHeader at ht
    obtain ⟨x, s₁, hx, ht⟩ := Tx.bind_ok.mp ht
    obtain ⟨hstored, hown⟩ := writeOperation_session hx
    simp only [↓run_need, ↓run_needSome, ↓run_cluster, Tx.pure_ok, Prod.mk.injEq] at ht
    obtain ⟨part, -, -, -, assignment, -, -, rfl, -⟩ := ht
    have hid : x.op.id = req.operation.operationId := upload_id_of_get hstored
    replace hversion : part.replacement.blockVersionId = req.replacementBlockVersionId := hversion
    refine ⟨node, hget, ?_, ?_⟩
    · rw [htag, capability, AuthorizeBlockRequest.grant, haction]
      simp only [Operation.binding, huser, hid, hown, hsession, hversion]
    · rw [AuthorizeBlockRequest.grant, haction]
      exact .data (.inl (Option.isSome_iff_exists.mpr ⟨x.op, hstored⟩))

theorem authorizeRead_ok (hr : app.rf3 = true) {peer : Id} {req : AuthorizeBlockRequest}
    {a b c : Nat} (haction : req.action = .readData)
    (h : (authorizeRead app peer req) w = .ok (.allow a b c, w')) : Authorized app w req := by
  unfold authorizeRead readHandle at h
  simp only [hr, if_true, run_query] at h
  obtain ⟨_, -, ⟨user, session⟩, hauth, node, hnode, ⟨hd, snap⟩, hh, h⟩ := h
  obtain ⟨huser, hsession⟩ := authenticated_ok hauth
  have hget := askingNode_ok hnode
  obtain ⟨hstored, hown, -⟩ := accessHandle_ok hh
  have hid : hd.id = req.handleId := handle_id_of_get hstored
  obtain ⟨_, s, -, h⟩ := Tx.bind_ok.mp h
  simp only [↓run_cluster, ↓run_need] at h
  obtain ⟨-, h⟩ := h
  obtain ⟨action, s', hpart, h⟩ := Tx.bind_ok.mp h
  simp only [↓run_need, Tx.pure_ok, Prod.mk.injEq] at hpart
  obtain ⟨-, rfl, rfl⟩ := hpart
  simp only [↓run_need] at h
  obtain ⟨htag, -⟩ := h
  refine ⟨node, hget, ?_, ?_⟩
  · rw [htag, AuthorizeBlockRequest.grant, haction]
    simp only [huser, hid, hown, hsession]
  · rw [AuthorizeBlockRequest.grant, haction]
    exact .data (.inr (Option.isSome_iff_exists.mpr ⟨hd, hstored⟩))

/-- **What `AuthorizeBlock` allows has the capability of what it is about.** -/
theorem authorizeBlock_ok (hr : app.rf3 = true) {peer : Id} {req : AuthorizeBlockRequest}
    {a b c : Nat} (h : (authorizeBlock app peer req) w = .ok (.allow a b c, w')) :
    Authorized app w req := by
  unfold authorizeBlock at h
  rw [run_query] at h
  obtain ⟨_, -, h⟩ := h
  have hback : ∀ {v : World}, Authorized app v req → v.cluster = w.cluster →
      v.access.uploads = w.access.uploads → v.access.handles = w.access.handles →
      Authorized app w req := by
    rintro v ⟨node, hnode, htag, hbound⟩ hcluster huploads hhandles
    refine ⟨node, hcluster ▸ hnode, htag, hbound.clustered, fun hg => ?_, fun hg => ?_⟩
    · rw [← hcluster]
      exact hbound.task hg
    · rw [← huploads, ← hhandles]
      exact hbound.client hg
  cases haction : req.action with
  | patchData =>
      simp only [haction] at h
      have hallowed := authorizePatch_ok haction h
      exact hback hallowed rfl rfl rfl
  | writeData =>
      simp only [haction] at h
      have hallowed := authorizeWrite_ok haction h
      exact hback hallowed rfl rfl rfl
  | readData =>
      simp only [haction] at h
      have hallowed := authorizeRead_ok hr haction h
      exact hback hallowed rfl rfl rfl
  | readReplica | storeReplica | deleteRetired =>
      simp only [haction, run_query] at h
      obtain ⟨_, -, _, -, _, -, h⟩ := h
      exact absurd (Tx.monadLift_ok.mp h).1 (by simp)

/-- The kind of task that a data node may show a capability for. -/
def AuthorizeInternalRequest.kind (req : AuthorizeInternalRequest) : TaskKind :=
  if req.action = .deleteRetired then .delete else .copy

/-- What a request to `AuthorizeInternal` is about, for a control with this lease epoch. -/
def AuthorizeInternalRequest.grant (app : App) (req : AuthorizeInternalRequest) (owner : Id) :
    CapabilityText :=
  if app.replicated = true then
    .ownedTask req.sourceNodeId req.taskId req.block.blockVersionId req.destinationNodeId req.kind
      owner req.fence.generation
  else .task req.sourceNodeId req.taskId req.block.blockVersionId req.destinationNodeId req.kind

/-- **What `AuthorizeInternal` allows has the capability of its task**, which is as the request
says. -/
theorem authorizeInternal_ok {peer : Id} {req : AuthorizeInternalRequest} {expires : Nat}
    (h : (authorizeInternal app peer req) w = .ok expires) :
    ∃ task, w.cluster.tasks.get req.taskId = some task ∧
      req.taskCapability = app.hmac (task.grant app) ∧ task.src = req.sourceNodeId ∧
      task.id = req.taskId ∧ task.block = req.block ∧ task.dest = req.destinationNodeId ∧
      task.kind = req.kind := by
  simp only [authorizeInternal, world, Query.bind_ok, Query.read_ok, needSome_ok, need_ok,
    Query.pure_ok] at h
  obtain ⟨_, -, _, -, v, rfl, task, htask, _, ⟨-, hblock, htag, hsrc, hdest, -⟩, _, -, _, hkind,
    -⟩ := h
  refine ⟨task, htask, htag, hsrc.symm, Table.key_of_get htask, hblock.symm, hdest.symm, ?_⟩
  rw [AuthorizeInternalRequest.kind]
  rcases hkind with ⟨hcopy, haction | haction⟩ | ⟨hdelete, haction, -⟩
  · rw [hcopy, haction]
    rfl
  · rw [hcopy, haction]
    rfl
  · rw [hdelete, haction]
    rfl

/-- The first transaction has checked the owner and the generation. -/
theorem Task.grant_eq {task : Task} {req : AuthorizeInternalRequest} {u : World}
    (hsrc : task.src = req.sourceNodeId) (hid : task.id = req.taskId)
    (hblock : task.block = req.block) (hdest : task.dest = req.destinationNodeId)
    (hkind : task.kind = req.kind)
    (hfirst : app.replicated = true → ∃ first, (ownedTask req) u = .ok first)
    (hsame : (u.cluster.tasks.get req.taskId).map (Task.grant app) = some (task.grant app)) :
    task.grant app = req.grant app (u.access.epoch.getD 0) := by
  unfold AuthorizeInternalRequest.grant
  by_cases hr : app.replicated = true
  · obtain ⟨first, hfirst⟩ := hfirst hr
    simp only [ownedTask, world, leaseEpoch, access, Query.bind_ok, Query.read_ok, deref_ok,
      needSome_ok, need_ok, Query.pure_ok] at hfirst
    obtain ⟨v, rfl, epoch, ⟨a, rfl, hepoch⟩, t, ht, _, ⟨howner, hgeneration⟩, _, -, _, -, _, -,
      rfl⟩ := hfirst
    rw [ht, Option.map_some, Option.some.injEq] at hsame
    simp only [Task.grant, if_pos hr, CapabilityText.ownedTask.injEq] at hsame ⊢
    obtain ⟨-, -, -, -, -, howner', hgeneration'⟩ := hsame
    rw [hsrc, hid, hblock, hdest, hkind, ← howner', ← hgeneration', howner, hgeneration, hepoch]
    exact ⟨rfl, rfl, rfl, rfl, rfl, rfl, rfl⟩
  · rw [Task.grant, if_neg hr, if_neg hr, hsrc, hid, hblock, hdest, hkind]

/-! ## Capabilities do not transfer -/

/-- In these states of a control, no operation and no handle has the identifier of a task. -/
structure DistinctIds (run : Set World) : Prop where
  apart : ∀ v ∈ run, ∀ w ∈ run, ∀ id, (v.cluster.tasks.get id).isSome = true →
    w.access.uploads.get id = none ∧ w.access.handles.get id = none

theorem DistinctIds.forTask {run : Set World} (h : DistinctIds run) (hw : w ∈ run)
    (hw' : w' ∈ run) {g g' : CapabilityText} (hg : Bound w g) (hg' : Bound w' g')
    (hhead : g.head.2.1 = g'.head.2.1) : g.forTask = g'.forTask := by
  have hclash : ∀ {v v' : World} {f f' : CapabilityText}, v ∈ run → v' ∈ run → Bound v f →
      Bound v' f' → f.head.2.1 = f'.head.2.1 → f.forTask = true → f'.forTask = false → False := by
    intro v v' f f' hv hv' hf hf' heq htask hclient
    obtain ⟨h1, h2⟩ := h.apart v hv v' hv' _ (hf.task htask)
    rcases hf'.client hclient with h3 | h3
    · rw [← heq, h1] at h3
      cases h3
    · rw [← heq, h2] at h3
      cases h3
  cases ht : g.forTask with
  | false =>
      cases ht' : g'.forTask with
      | false => rfl
      | true => exact (hclash hw' hw hg' hg hhead.symm ht' ht).elim
  | true =>
      cases ht' : g'.forTask with
      | false => exact (hclash hw hw' hg hg' hhead ht ht').elim
      | true => rfl

/-- A number for a text, different for different texts. -/
def Text.code : Text → Nat
  | [] => 0
  | c :: t => 1114112 * Text.code t + c.toNat + 1

theorem Text.code_injective : Function.Injective Text.code := by
  intro t
  induction t with
  | nil =>
      intro t' h
      cases t' with
      | nil => rfl
      | cons c t' =>
          simp only [code] at h
          omega
  | cons c t ih =>
      intro t' h
      cases t' with
      | nil =>
          simp only [code] at h
          omega
      | cons c' t' =>
          simp only [code] at h
          have hlt : ∀ d : Char, d.toNat < 1114112 := by
            intro d
            rcases d.valid with hd | ⟨-, hd⟩
            · exact Nat.lt_trans hd (by decide)
            · exact hd
          have h1 := hlt c
          have h2 := hlt c'
          have hc : c.toNat = c'.toNat := by omega
          have ht : Text.code t = Text.code t' := by omega
          rw [ih ht, Char.toNat_inj.mp hc]

/-- Identifiers written as numbers. -/
def Naming.small : Naming where
  name := decimal
  injective := decimal_injective
  clean id := ⟨not_mem_decimal (by decide) id, not_mem_decimal (by decide) id⟩

/-- The small configuration, with an authentication code that tells all texts apart. -/
def App.tagged : App :=
  { App.small .rf3 with hmac := fun g => ⟨32, Text.code (g.input Naming.small 3)⟩ }

/-- The write that `smallBegin` begins. -/
def smallWrite : Command :=
  .beginWrite ⟨12, smallEmpty, some 0, some 3, ⟨32, 0⟩, [], [⟨0, 0, 0, 3, ⟨32, 0⟩⟩]⟩

/-- The grant for its block. -/
def smallGrant : CapabilityText := .data 1 13 15 .patch 1 1 8

/-- The plan for its block. -/
def smallPlanned : PlannedBlock :=
  ⟨.absent 10 0, [smallNode], [⟨App.tagged.hmac smallGrant, .patchData,
    ⟨10, 15, 0, 3, .unset⟩, 1, 0, 3, 1059999⟩], 15, true, 0, 0, 3,
    some ⟨15, 1, 13, 4119, 1059999⟩⟩

/-- What the data node asks when it is shown the grant. -/
def smallAsked : AuthorizeBlockRequest :=
  ⟨smallContext 54, 8, .patchData, 1, .absent 10 0, 0, 3, App.tagged.hmac smallGrant,
    smallOperation, 0, 0, smallEmpty, 15, ⟨32, 0⟩, smallFence⟩

/-- The write is carried out as planned, and the data node may then build its block. -/
def smallAllowed (v : World) : Bool :=
  match (serve App.tagged 8 (smallContext 52) smallWrite) v,
    (replay App.tagged 1 (smallContext 52) (.command smallWrite) smallWrite.method
      smallWrite.password) (v.setAccess (v.access.later 1)), v.cluster.datanodes.get 1 with
  | .ok (.writePlan plan, v'), .ok none, some node =>
      decide (plan.operation = smallOperation ∧ plan.blocks = [smallPlanned] ∧
        v.cluster.tasks.rows = [] ∧ v'.cluster.tasks.rows = [] ∧
        node.location.bootGeneration = 1 ∧ v.stage = .serving) &&
        match (authorizeBlock App.tagged 1 smallAsked) v' with
        | .ok (.allow _ _ _, _) => true
        | _ => false
  | _, _, _ => false

end Dfsha
