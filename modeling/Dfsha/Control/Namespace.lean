import Dfsha.World
import Mathlib.Data.Char
import Mathlib.Data.List.Lex
import Mathlib.Data.List.Sort

/-!
# Identity, permissions and paths

Authentication by session token, the permission check every request passes, and the
walk from a path to a node.

A path is split at `/` and empty pieces are skipped, so repeated and trailing
slashes do not matter; each piece is normalised before it is compared with a name.
-/

namespace Dfsha

variable (app : App)

/-! ## Authentication and permissions -/

/-- `Authorizer.authenticate`. -/
def authenticate (token : Id) : Q (User × Session) := do
  let i ← identity
  let now ← now
  let session ← needSome (i.sessions.get (app.tokenHash token)) .unauthenticated
  need (session.revoked = false ∧ now < session.expires) .unauthenticated
  let user ← needSome (i.users.get session.user) .unauthenticated
  need (user.disabled = false) .unauthenticated
  pure (user, session)

/-- `Monolith.authenticated`: the token's user must be the one the context names. -/
def authenticated (token : Id) (ctx : RequestContext) : Q (User × Session) := do
  let (user, session) ← authenticate app token
  need (app.isUuid ctx.requestId = true) .invalidArgument
  need (ctx.userId = user.id ∧ ctx.serviceEpoch = app.epoch) .unauthenticated
  pure (user, session)

/-- The permission bits a user has on a node: the mode's bits for the owner, the
group or the others, and every entry of the list that names the user or its group. -/
def permissions (groups : List Id) (user : User) (node : Node) : Nat :=
  let shift := if node.owner = user.id then 6 else if node.group ∈ groups then 3 else 0
  node.acl.foldl
    (fun allowed entry =>
      if (entry.principalId = user.id ∧ entry.isGroup = false) ∨
          (entry.isGroup = true ∧ entry.principalId ∈ groups) then
        allowed ||| entry.permissions
      else allowed)
    ((node.mode >>> shift) &&& 7)

/-- `Authorizer.require`. -/
def require (user : User) (node : Option Node) (bits : Nat) : Q Unit := do
  if user.admin = true ∧ app.strictContentPermissions = false then
    pure ()
  else do
    let node ← deref node
    if user.admin = true ∧ node.kind = .directory ∧ bits = 1 then
      pure ()
    else do
      let i ← identity
      let groups := (i.groups.all.filter fun g => user.id ∈ g.members).map Group.id
      need (permissions groups user node &&& bits = bits) .permissionDenied

/-! ## Paths -/

/-- `len(text.encode())`. -/
def utf8Length (t : Text) : Nat := (t.map fun c => c.utf8Size).sum

/-- The non-empty pieces of a path. -/
def piecesOf (t : Text) : List Text := (t.splitOn '/').filter fun p => p ≠ []

/-- `rstrip('/')`. -/
def rstrip (t : Text) : Text := (t.reverse.dropWhile fun c => c = '/').reverse

/-- `rpartition('/')`: what stands before the last slash, and what stands after it. -/
def rpartition (t : Text) : Text × Text :=
  (((t.reverse.dropWhile fun c => c ≠ '/').drop 1).reverse,
    (t.reverse.takeWhile fun c => c ≠ '/').reverse)

/-- `tx.children`: the live children of a node, by name. -/
def children (a : Access) (parent : Id) : List Node :=
  (a.nodes.all.filter fun n => n.alive = true ∧ n.parent = some parent).insertionSort
    fun x y => x.name ≤ y.name

/-- One piece of a path after the other. -/
def walkFrom (user : User) : List Text → Node → Q Node
  | [], node => pure node
  | piece :: rest, node => do
      need (node.kind = .directory) .notDirectory
      require app user (some node) 1
      let a ← access
      if piece = ['.'] then
        walkFrom user rest node
      else if piece = ['.', '.'] then
        match node.parent with
        | none => walkFrom user rest node
        | some parent => do
            let node ← deref (a.nodes.get parent)
            walkFrom user rest node
      else do
        let node ← needSome ((children a node.id).find? fun n => n.name = piece) .notFound
        walkFrom user rest node

/-- `Queries.walk`. -/
def walk (user : User) (path : Text) : Q Node := do
  need (path.head? = some '/' ∧ utf8Length path ≤ 4096 ∧ '\\' ∉ path ∧ '\x00' ∉ path)
    .invalidArgument
  let pieces := (piecesOf path).map app.nfc
  need (pieces.length ≤ 32 ∧ ∀ p ∈ pieces, utf8Length p ≤ 255) .limitExceeded
  let a ← access
  let root ← deref (a.nodes.get app.root)
  walkFrom app user pieces root

/-- `Queries.path`: a relative path is taken from its working directory, which must
still be the directory it was. -/
def pathOf (user : User) (ref : PathRef) : Q Text := do
  need (ref.path ≠ [] ∧ utf8Length ref.path ≤ 4096) .invalidArgument
  if ref.path.head? = some '/' then
    pure ref.path
  else do
    need (ref.cwdPath.head? = some '/' ∧ ref.cwdId ≠ 0) .invalidArgument
    let walked ← Query.attempt (walk app user ref.cwdPath)
    match walked with
    | .ok cwd => do
        need (cwd.id = ref.cwdId ∧ cwd.kind = .directory) .cwdGone
        pure (rstrip ref.cwdPath ++ ['/'] ++ ref.path)
    | .error (.fault .notFound) => Query.fail (.fault .cwdGone)
    | .error (.fault .notDirectory) => Query.fail (.fault .cwdGone)
    | .error e => Query.fail e

/-- `Queries.resolve`. -/
def resolve (user : User) (ref : PathRef) : Q Node := do
  let path ← pathOf app user ref
  walk app user path

/-- `Queries.parent`: the directory a path's last name is or would be in. -/
def parentOf (user : User) (ref : PathRef) : Q (Node × Text) := do
  let path ← pathOf app user ref
  let path := rstrip path
  need (path ≠ [] ∧ path ≠ ['/']) .rootProtected
  let (parentPath, name) := rpartition path
  let name := app.nfc name
  need (name ≠ [] ∧ name ≠ ['.'] ∧ name ≠ ['.', '.'] ∧ utf8Length name ≤ 255 ∧
    '\\' ∉ name ∧ '\x00' ∉ name) .invalidArgument
  let parent ← walk app user (if parentPath = [] then ['/'] else parentPath)
  need (parent.kind = .directory) .notDirectory
  require app user (some parent) 3
  -- The full depth counts the name that need not exist yet.
  need ((piecesOf (parentPath ++ ['/'] ++ name)).length ≤ 32) .limitExceeded
  pure (parent, name)

/-- `Queries.entry`. -/
def entry (node : Node) : Q Entry := do
  let a ← access
  match node.snapshot with
  | none => pure ⟨node.id, node.name, node.kind, node.revision, none, 0⟩
  | some root => do
      let snap ← deref (a.snapshots.get root)
      pure ⟨node.id, node.name, node.kind, node.revision, some snap.ref, snap.ref.sizeBytes⟩

/-- `new_node`, with its identifier already drawn. -/
def newNode (id : Id) (name : Text) (parent owner : Id) (directory : Bool) (mode : Nat) : Node where
  id := id
  name := name
  parent := some parent
  owner := owner
  group := owner
  mode := mode
  acl := []
  alive := true
  kind := if directory = true then .directory else .file
  revision := 1
  snapshot := none
  blockSize := 0

end Dfsha
