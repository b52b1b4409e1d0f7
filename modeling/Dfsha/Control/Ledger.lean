import Dfsha.World

/-!
# The ledger of requests

A mutation is remembered under the service epoch, the user and the request's identifier,
together with its method, the digest of its intent and its reply.  `replay` looks a
request up, `remember` writes it down; both run inside the transaction they speak about.
-/

namespace Dfsha

variable (app : App)

/-- `ledger_id`. -/
def ledgerId (user : Id) (ctx : RequestContext) : LedgerKey :=
  toLex (app.epoch, toLex (user, ctx.requestId))

/-- A remembered request is the same request again. -/
def replayEntry (x : Intended) (method : Method) (password : Option Text) (entry : LedgerEntry) :
    Q Response := do
  need (entry.method = method ∧ entry.digest = app.intent x) .idempotencyMismatch
  match password with
  | none => pure entry.response
  | some password => do
      let verifier ← deref entry.passwordVerifier
      need (app.matches_ verifier password = true) .idempotencyMismatch
      pure entry.response

/-- `replay`: the reply of a request already carried out. -/
def replay (user : Id) (ctx : RequestContext) (x : Intended) (method : Method)
    (password : Option Text) : Q (Option Response) := do
  need (ctx.intentSha256 = app.intent x) .invalidArgument
  let w ← world
  match w.ledger.get (ledgerId app user ctx) with
  | none => pure none
  | some entry => do
      let r ← replayEntry app x method password entry
      pure (some r)

/-- The stored password a remembered request is compared with. -/
def verifierOf (i : Identity) : Command → Q (Option Digest)
  | .createUser username _ => do
      let user ← deref (i.users.all.find? fun u => u.username = username)
      pure (some user.password)
  | .changePassword userId _ _ => do
      let user ← deref (i.users.get userId)
      pure (some user.password)
  | _ => pure none

/-- Write an entry of the ledger. -/
def putLedger (e : LedgerEntry) : T Unit := Tx.modify fun w => { w with ledger := w.ledger.put e }

/-- `remember`. -/
def remember (user : Id) (ctx : RequestContext) (x : Intended) (method : Method)
    (verifier : Option Digest) (response : Response) : T Unit :=
  putLedger ⟨ledgerId app user ctx, method, app.intent x, response, verifier⟩

@[simp] theorem putLedger_ok {e : LedgerEntry} {w : World} {r : Unit × World} :
    (putLedger e) w = .ok r ↔ r = ((), { w with ledger := w.ledger.put e }) := Tx.modify_ok

end Dfsha
