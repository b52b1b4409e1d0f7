import Dfsha.Safety.Capabilities

/-!
# Requests are carried out at most once

A reply is remembered in the transaction that carries out the request.  Whoever remembers
something looked the request up in the same transaction, so what is remembered once is never
written over, through crashes and restarts.  Only the second transaction of `PutBlock` does not
look again, but a client gives every request an identifier of its own.

## Main results

* `Step.remembers` — what is remembered of a request stays, but for `PutBlock`.
* `at_most_once` — a request that was answered is answered in the same way ever after, and is not
  carried out again.
-/

namespace Dfsha

variable {app : App} {reports : Call → Prop} {w v : World} {k : LedgerKey}

/-! ## What is remembered -/

/-- What is remembered of one request. -/
def World.remembered (k : LedgerKey) (w : World) : Option LedgerEntry := w.ledger.get k

instance : AsideAccess (World.remembered k) := ⟨fun _ _ _ => rfl⟩
instance : AsideCluster (World.remembered k) := ⟨fun _ _ _ => rfl⟩
instance : AsideIdentity (World.remembered k) := ⟨fun _ _ => rfl⟩
instance : AsideMemory (World.remembered k) := ⟨fun _ _ _ _ => rfl⟩
instance : AllowsRetired (Same (World.remembered k)) := ⟨fun _ _ => rfl⟩
instance : AllowsCopies (Same (World.remembered k)) := ⟨fun _ _ => rfl⟩

-- An instance here is as large as the function it is about.
set_option synthInstance.maxSize 16384

theorem remembered_of_leaves {α : Type} {x : T α} [hx : Leaves (World.remembered k) x]
    {r : α × World} (h : x w = .ok r) : r.2.remembered k = w.remembered k :=
  Leaves.leaves hx w r h

/-- A request that finds no reply is not remembered. -/
theorem replay_none {user : Id} {ctx : RequestContext} {x : Intended} {method : Method}
    {password : Option Text} (h : (replay app user ctx x method password) w = .ok none) :
    w.remembered (ledgerId app user ctx) = none := by
  simp only [replay, world, Query.bind_ok, Query.read_ok, need_ok] at h
  obtain ⟨_, -, _, rfl, h⟩ := h
  cases hget : w.ledger.get (ledgerId app user ctx) with
  | none => exact hget
  | some entry =>
      simp only [hget, Query.bind_ok, Query.pure_ok] at h
      obtain ⟨r, -, h⟩ := h
      cases h

/-- A reply that is found is the one that is remembered, of the same request. -/
theorem replay_some {user : Id} {ctx : RequestContext} {x : Intended} {method : Method}
    {password : Option Text} {r : Response}
    (h : (replay app user ctx x method password) w = .ok (some r)) :
    ∃ entry, w.remembered (ledgerId app user ctx) = some entry ∧ entry.response = r ∧
      entry.method = method ∧ entry.digest = app.intent x := by
  simp only [replay, world, Query.bind_ok, Query.read_ok, need_ok] at h
  obtain ⟨_, -, _, rfl, h⟩ := h
  cases hget : w.ledger.get (ledgerId app user ctx) with
  | none =>
      simp only [hget, Query.pure_ok] at h
      cases h
  | some entry =>
      simp only [hget, Query.bind_ok, Query.pure_ok, Option.some.injEq] at h
      obtain ⟨reply, hreply, rfl⟩ := h
      refine ⟨entry, hget, ?_⟩
      simp only [replayEntry, Query.bind_ok, need_ok] at hreply
      obtain ⟨_, ⟨hmethod, hdigest⟩, hreply⟩ := hreply
      cases password with
      | none =>
          rw [Query.pure_ok] at hreply
          exact ⟨hreply, hmethod, hdigest⟩
      | some password =>
          simp only [Query.bind_ok, need_ok, Query.pure_ok] at hreply
          obtain ⟨_, -, _, -, hreply⟩ := hreply
          exact ⟨hreply, hmethod, hdigest⟩

/-- Writing down a request that is not remembered loses nothing. -/
theorem remembered_put {entry e : LedgerEntry} (h : w.remembered k = some entry)
    (hnew : w.remembered e.key = none) :
    World.remembered k { w with ledger := w.ledger.put e } = some entry := by
  have hne : k ≠ e.key := by
    intro he
    rw [he, hnew] at h
    cases h
  exact (Table.get_put_of_ne w.ledger hne).trans h

/-! ## Steps -/

/-- A client's request that is answered leaves the ledger, or adds its reply to it. -/
theorem serve_remembers {token : Id} {ctx : RequestContext} {cmd : Command} {r : Response}
    {entry : LedgerEntry} (h : (serve app token ctx cmd) w = .ok (r, v))
    (hk : w.remembered k = some entry) : v.remembered k = some entry := by
  obtain ⟨user, session, -, ⟨-, rfl⟩ | ⟨hnone, u, verifier, hexec, -, rfl⟩⟩ := serve_cases h
  · exact hk
  · have hleaves : ∀ j, u.remembered j = w.remembered j := by
      intro j
      have hx : Leaves (World.remembered j) (execute app user session ctx cmd) := by
        cases cmd <;> infer_instance
      exact Leaves.leaves hx _ _ hexec
    have hfresh : (w.setAccess (w.access.later 1)).remembered (ledgerId app user.id ctx) = none :=
      replay_none hnone
    exact remembered_put (w := u.setAccess (u.access.later 2)) ((hleaves k).trans hk)
      ((hleaves _).trans hfresh)

/-- A statement, and the rest, which ends by writing down a request. -/
theorem remember_last {α : Type} {x : T α} {f : α → T Unit} {r : Unit × World}
    {entry e : LedgerEntry} [hx : ∀ j, Leaves (World.remembered j) x]
    (h : (x >>= fun a => f a) w = .ok r) (hf : ∀ a, f a = putLedger e)
    (hk : w.remembered k = some entry) (hnew : w.remembered e.key = none) :
    r.2.remembered k = some entry := by
  obtain ⟨a, s, hs, h⟩ := Tx.bind_ok.mp h
  rw [hf a, putLedger_ok] at h
  subst h
  exact remembered_put ((Leaves.leaves (hx k) w _ hs).trans hk)
    ((Leaves.leaves (hx e.key) w _ hs).trans hnew)

/-- A received block is written down for the request that was looked up. -/
theorem reportDurable_remembers {call : NodeCall} {req : ReportDurableRequest} {r : Unit × World}
    {entry : LedgerEntry} (h : (reportDurable app call req) w = .ok r)
    (hk : w.remembered k = some entry) : r.2.remembered k = some entry := by
  unfold reportDurable at h
  simp only [run_query] at h
  obtain ⟨-, -, node, -, user, -, -, -, previous, hprevious, h⟩ := h
  cases previous with
  | some reply => exact (remembered_of_leaves h).trans hk
  | none =>
      have hnone := replay_none hprevious
      unfold confirmStored at h
      simp only [run_query] at h
      obtain ⟨session, -, op, -, c, -, assignment, -, -, -, -, -, h⟩ := h
      obtain ⟨_, s, hs, h⟩ := Tx.bind_ok.mp h
      exact remember_last h (fun _ => rfl) ((remembered_of_leaves hs).trans hk)
        ((remembered_of_leaves hs).trans hnone)

/-- And so is a patched one. -/
theorem reportPatch_remembers {call : NodeCall} {req : ReportPatchRequest} {r : Unit × World}
    {entry : LedgerEntry} (h : (reportPatch app call req) w = .ok r)
    (hk : w.remembered k = some entry) : r.2.remembered k = some entry := by
  unfold reportPatch at h
  simp only [run_query] at h
  obtain ⟨-, -, node, -, user, -, previous, hprevious, h⟩ := h
  cases previous with
  | some reply => exact (remembered_of_leaves h).trans hk
  | none =>
      have hnone := replay_none hprevious
      unfold confirmPatched at h
      simp only [run_query] at h
      obtain ⟨session, -, h⟩ := h
      obtain ⟨t, u, hu, h⟩ := Tx.bind_ok.mp h
      simp only [run_query] at h
      obtain ⟨-, -, h⟩ := h
      obtain ⟨_, s, hs, h⟩ := Tx.bind_ok.mp h
      have hsame : ∀ j, s.remembered j = w.remembered j := fun j =>
        (remembered_of_leaves hs).trans (remembered_of_leaves hu)
      exact remember_last h (fun _ => rfl) ((hsame k).trans hk) ((hsame _).trans hnone)

/-- The second transaction of `PutBlock` writes down its own request. -/
theorem recordBlock_remembers {token : Id} {header : PutBlockHeader} {stored : Nat}
    {digest : Digest} {r : Unit × World} {entry : LedgerEntry}
    (h : (recordBlock app token header stored digest) w = .ok r)
    (hother : k ≠ ledgerId app header.context.userId header.context)
    (hk : w.remembered k = some entry) : r.2.remembered k = some entry := by
  unfold recordBlock at h
  simp only [↓run_access, ↓run_deref, ↓run_now, run_query, run_draw] at h
  obtain ⟨found, hfound, ⟨user, session⟩, hauth, op, -, h⟩ := h
  have hheader : found = header := by simpa using List.find?_some hfound
  subst hheader
  obtain ⟨_, s, hs, h⟩ := Tx.bind_ok.mp h
  obtain ⟨_, s', hs', h⟩ := Tx.bind_ok.mp h
  obtain ⟨_, u, hu, h⟩ := Tx.bind_ok.mp h
  have hsame : s'.remembered k = w.remembered k :=
    (remembered_of_leaves hs').trans (remembered_of_leaves hs)
  simp only [remember, putLedger_ok] at hu
  cases hu
  rw [remembered_of_leaves h]
  rw [← (authenticated_ok hauth).1] at hother
  exact (Table.get_put_of_ne _ hother).trans (hsame.trans hk)

/-- The calls that write down a request. -/
def Call.remembers : Call → Bool
  | .reportDurable .. | .reportPatch .. | .recordBlock .. => true
  | _ => false

/-- The other calls leave the ledger. -/
theorem Call.leaves_ledger {c : Call} (h : c.remembers = false) :
    Leaves (World.remembered k) (c.run app) := by
  unfold Call.run
  cases c <;> first | infer_instance | cases h

/-- **What is remembered of a request stays**, unless a `PutBlock` of the same identifier is
recorded. -/
theorem Step.remembers {e : Event} {entry : LedgerEntry} (h : Step app reports w e v)
    (hput : ∀ token header stored digest, reports (.recordBlock token header stored digest) →
      k ≠ ledgerId app header.context.userId header.context)
    (hk : w.remembered k = some entry) : v.remembered k = some entry := by
  cases h with
  | advance j free => exact hk
  | serve _ h => exact serve_remembers h hk
  | lookup _ _ => exact hk
  | refuse _ _ => exact hk
  | @call _ c _ hreports _ h =>
      by_cases hc : c.remembers = true
      · cases c with
        | reportDurable call req => exact reportDurable_remembers h hk
        | reportPatch call req => exact reportPatch_remembers h hk
        | recordBlock token header stored digest =>
            exact recordBlock_remembers h (hput token header stored digest hreports) hk
        | _ => cases hc
      · have hx : Leaves (World.remembered k) (c.run app) :=
          Call.leaves_ledger (Bool.eq_false_iff.mpr hc)
        exact (Leaves.leaves hx w _ h).trans hk
  | start hnext h =>
      have hx : Leaves (World.remembered k) _ := Respects.start hnext
      exact (Leaves.leaves hx w _ h).trans hk
  | crash clk => exact hk

/-- What is remembered of a request stays in a run. -/
theorem Run.remembers {es : List Event} {entry : LedgerEntry} (h : Run app reports w es v)
    (hput : ∀ token header stored digest, reports (.recordBlock token header stored digest) →
      k ≠ ledgerId app header.context.userId header.context)
    (hk : w.remembered k = some entry) : v.remembered k = some entry :=
  Run.induct (P := fun u => u.remembered k = some entry)
    (fun _ _ _ hstep hu => hstep.remembers hput hu) h hk

/-! ## Answers -/

/-- A request of a client is answered, by carrying it out or from the ledger. -/
def Event.Answers (ctx : RequestContext) (cmd : Command) (r : Response) (e : Event) : Prop :=
  ∃ token, e = .served token ctx cmd r ∨ e = .replayed token ctx cmd r

/-- An entry is about a command, and holds its reply. -/
structure LedgerEntry.Of (app : App) (cmd : Command) (r : Response) (entry : LedgerEntry) :
    Prop where
  response : entry.response = r
  method : entry.method = cmd.method
  digest : entry.digest = app.intent (.command cmd)

/-- The reply that `unary_once` finds in its read transaction is remembered. -/
theorem lookup_some {token : Id} {ctx : RequestContext} {cmd : Command} {r : Response}
    (h : (lookup app token ctx cmd) w = .ok (some r)) :
    ∃ entry, w.remembered (ledgerId app ctx.userId ctx) = some entry ∧ entry.Of app cmd r := by
  have hfound : ∀ {user : User}, user.id = ctx.userId →
      (replay app user.id ctx (.command cmd) cmd.method cmd.password) w = .ok (some r) →
      ∃ entry, w.remembered (ledgerId app ctx.userId ctx) = some entry ∧ entry.Of app cmd r := by
    intro user hid hreplay
    rw [hid] at hreplay
    obtain ⟨entry, hget, hresponse, hmethod, hdigest⟩ := replay_some hreplay
    exact ⟨entry, hget, hresponse, hmethod, hdigest⟩
  unfold lookup at h
  rw [Query.bind_ok] at h
  obtain ⟨i, -, h⟩ := h
  split at h
  · rename_i session _
    simp only [Query.bind_ok, Query.pure_ok, Option.some.injEq] at h
    obtain ⟨reply, hlogout, rfl⟩ := h
    simp only [replayLogout, Query.bind_ok, need_ok, needSome_ok] at hlogout
    obtain ⟨_, -, user, -, _, ⟨huser, -⟩, _, -, previous, hreplay, hprevious⟩ := hlogout
    subst hprevious
    exact hfound huser.symm hreplay
  · rw [Query.bind_ok] at h
    obtain ⟨⟨user, session⟩, hauth, hreplay⟩ := h
    exact hfound (authenticated_ok hauth).1 hreplay

/-- **A request that is answered is remembered**, with its reply. -/
theorem Step.answered {e : Event} {ctx : RequestContext} {cmd : Command} {r : Response}
    (h : Step app reports w e v) (he : e.Answers ctx cmd r) :
    ∃ entry, v.remembered (ledgerId app ctx.userId ctx) = some entry ∧ entry.Of app cmd r := by
  obtain ⟨token, rfl | rfl⟩ := he
  · cases h with
    | serve _ h =>
        obtain ⟨user, session, hauth, hcase⟩ := serve_cases h
        have hid := (authenticated_ok hauth).1
        rcases hcase with ⟨hreplay, rfl⟩ | ⟨-, u, verifier, -, -, rfl⟩
        · rw [hid] at hreplay
          obtain ⟨entry, hget, hresponse, hmethod, hdigest⟩ := replay_some hreplay
          exact ⟨entry, hget, hresponse, hmethod, hdigest⟩
        · refine ⟨⟨ledgerId app user.id ctx, cmd.method, app.intent (.command cmd), r, verifier⟩,
            ?_, rfl, rfl, rfl⟩
          rw [hid]
          exact Table.get_put_self _ _
  · cases h with
    | lookup _ h => exact lookup_some h

/-- **A request that is remembered is answered from the ledger**: with the reply that was given,
only if it is the same request, and without any effect. -/
theorem Step.answers_again {e : Event} {ctx : RequestContext} {cmd : Command} {r : Response}
    {entry : LedgerEntry} (h : Step app reports w e v) (he : e.Answers ctx cmd r)
    (hk : w.remembered (ledgerId app ctx.userId ctx) = some entry) :
    entry.Of app cmd r ∧ ∃ n, v = w.setAccess (w.access.later n) := by
  obtain ⟨token, rfl | rfl⟩ := he
  · cases h with
    | serve _ h =>
        obtain ⟨user, session, hauth, hcase⟩ := serve_cases h
        have hid := (authenticated_ok hauth).1
        rw [hid] at hcase
        rcases hcase with ⟨hreplay, rfl⟩ | ⟨hnone, -⟩
        · obtain ⟨entry', hget, hresponse, hmethod, hdigest⟩ := replay_some hreplay
          obtain rfl : entry' = entry := Option.some.inj (hget.symm.trans hk)
          exact ⟨⟨hresponse, hmethod, hdigest⟩, 2, rfl⟩
        · have hlost : (w.setAccess (w.access.later 1)).remembered
              (ledgerId app ctx.userId ctx) = none := replay_none hnone
          have hkept : w.remembered (ledgerId app ctx.userId ctx) = none := hlost
          rw [hk] at hkept
          cases hkept
  · cases h with
    | lookup _ h =>
        obtain ⟨entry', hget, hof⟩ := lookup_some h
        obtain rfl : entry' = entry := Option.some.inj (hget.symm.trans hk)
        exact ⟨hof, 0, rfl⟩

/-- **A request is carried out at most once.**  When it has been answered, every later request of
the same user with the same identifier that is answered is the same request, gets the same reply,
and changes nothing; unless the identifier was also used for a `PutBlock` that is recorded. -/
theorem at_most_once {ctx ctx' : RequestContext} {cmd cmd' : Command} {r r' : Response}
    {u t : World} {e e' : Event} {es : List Event}
    (hput : ∀ token header stored digest, reports (.recordBlock token header stored digest) →
      header.context.userId = ctx.userId → header.context.requestId ≠ ctx.requestId)
    (huser : ctx'.userId = ctx.userId) (hrequest : ctx'.requestId = ctx.requestId)
    (h : Step app reports w e v) (he : e.Answers ctx cmd r) (hrun : Run app reports v es u)
    (h' : Step app reports u e' t) (he' : e'.Answers ctx' cmd' r') :
    r' = r ∧ cmd'.method = cmd.method ∧ app.intent (.command cmd') = app.intent (.command cmd) ∧
      ∃ n, t = u.setAccess (u.access.later n) := by
  have hkey : ledgerId app ctx'.userId ctx' = ledgerId app ctx.userId ctx := by
    rw [ledgerId, ledgerId, huser, hrequest]
  obtain ⟨entry, hget, hof⟩ := h.answered he
  have hfree : ∀ token header stored digest, reports (.recordBlock token header stored digest) →
      ledgerId app ctx.userId ctx ≠ ledgerId app header.context.userId header.context := by
    intro token header stored digest hreports hsame
    simp only [ledgerId, toLex_inj, Prod.mk.injEq, true_and] at hsame
    exact hput token header stored digest hreports hsame.1.symm hsame.2.symm
  have hkept := hrun.remembers hfree hget
  obtain ⟨hagain, hn⟩ := h'.answers_again he' (hkey ▸ hkept)
  refine ⟨?_, ?_, ?_, hn⟩
  · rw [← hagain.response, hof.response]
  · rw [← hagain.method, hof.method]
  · rw [← hagain.digest, hof.digest]

/-- No `PutBlock` is recorded. -/
def Unrecorded (c : Call) : Prop :=
  ∀ token header stored digest, c ≠ .recordBlock token header stored digest

/-- A directory is made, and the request for it arrives again. -/
theorem small_at_most_once : ∃ w v t r r',
    Step (App.small .rf3) Unrecorded w (.served 8 (smallContext 51) (.mkdir smallPath) r) v ∧
    Step (App.small .rf3) Unrecorded v (.served 8 (smallContext 51) (.mkdir smallPath) r') t ∧
    r' = r ∧ ∃ n, t = v.setAccess (v.access.later n) := by
  have hmade : ((perform (App.small .rf3) smallStart (World.small .rf3)).any fun w =>
      decide (w.stage = .serving) &&
        ((smallInput 51 (.mkdir smallPath)).perform (App.small .rf3) w).any fun v =>
          decide (v.stage = .serving) &&
            ((smallInput 51 (.mkdir smallPath)).perform (App.small .rf3) v).isSome) = true := by
    decide +kernel
  obtain ⟨w, -, h⟩ := (Option.any_eq_true _ _).mp hmade
  rw [Bool.and_eq_true] at h
  obtain ⟨hw, h⟩ := h
  obtain ⟨v, hv, h⟩ := (Option.any_eq_true _ _).mp h
  rw [Bool.and_eq_true] at h
  obtain ⟨hstage, h⟩ := h
  obtain ⟨t, ht⟩ := Option.isSome_iff_exists.mp h
  have hserve : ∀ {a b : World}, a.stage = .serving →
      (smallInput 51 (.mkdir smallPath)).perform (App.small .rf3) a = some b →
        ∃ r, (serve (App.small .rf3) 8 (smallContext 51) (.mkdir smallPath)) a = .ok (r, b) := by
    intro a b ha hab
    rw [smallInput, Input.perform, if_pos ha] at hab
    exact after_eq_some hab
  obtain ⟨r, hr⟩ := hserve (of_decide_eq_true hw) hv
  obtain ⟨r', hr'⟩ := hserve (of_decide_eq_true hstage) ht
  have hfirst : Step (App.small .rf3) Unrecorded w _ v := .serve (of_decide_eq_true hw) hr
  have hsecond : Step (App.small .rf3) Unrecorded v _ t := .serve (of_decide_eq_true hstage) hr'
  obtain ⟨hsame, -, -, hn⟩ := at_most_once
    (fun token header stored digest hreports => absurd rfl (hreports token header stored digest))
    rfl rfl hfirst ⟨8, .inl rfl⟩ (.nil v) hsecond ⟨8, .inl rfl⟩
  exact ⟨w, v, t, r, r', hfirst, hsecond, hsame, hn⟩

end Dfsha
