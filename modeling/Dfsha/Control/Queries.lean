import Dfsha.Control.Namespace

/-!
# Queries

What can be asked about the namespace.  A query reads one state of the metadata and changes
nothing.

A listing goes page by page: its cursor carries the revision of the directory and the last child
of the page before, and a cursor of another revision is refused.
-/

namespace Dfsha

variable (app : App)

/-- `Stat`. -/
def stat (user : User) (path : PathRef) : Q Entry := do
  let node ← resolve app user path
  require app user (some node) (if node.kind = .directory then 1 else 4)
  entry node

/-- What `List` writes into a cursor. -/
structure ListCursor where
  id : Id
  revision : Nat
  user : Id
  last : Id
  deriving DecidableEq, Repr

/-- A cursor as it is received: unset, one that a listing made, or text that is none. -/
inductive Cursor
  | unset
  | decoded (c : ListCursor)
  | malformed
  | oversized
  deriving DecidableEq, Repr

/-- `ListResponse`. -/
structure ListResponse where
  entries : List Entry
  nextCursor : Cursor
  directoryRevision : Nat
  deriving DecidableEq, Repr

/-- The name after which a page begins. -/
def listFrom (user : User) (a : Access) (node : Node) : Cursor → Q Text
  | .unset => pure []
  | .malformed => Query.fail (.fault .invalidArgument)
  | .oversized => Query.fail (.fault .limitExceeded)
  | .decoded c => do
      need (c.id = node.id ∧ c.revision = node.revision ∧ c.user = user.id) .listChanged
      let previous ← needSome ((children a node.id).find? fun n => n.id = c.last) .invalidArgument
      pure previous.name

/-- The cursor after a page: unset if the page is the last one. -/
def listNext (user : User) (node : Node) (limit : Nat) (rest : List Node) : Q Cursor :=
  if rest.length ≤ limit then pure .unset
  else do
    let last ← deref (rest.take limit).getLast?
    pure (.decoded ⟨node.id, node.revision, user.id, last.id⟩)

/-- `List`. -/
def list (user : User) (path : PathRef) (limit : Nat) (cursor : Cursor) : Q ListResponse := do
  let node ← resolve app user path
  need (node.kind = .directory) .notDirectory
  require app user (some node) 5
  need (1 ≤ limit ∧ limit ≤ 100) .invalidArgument
  let a ← access
  let last ← listFrom user a node cursor
  let rest := (children a node.id).filter fun n => last < n.name
  let next ← listNext user node limit rest
  let entries ← Query.map (rest.take limit) entry
  pure ⟨entries, next, node.revision⟩

end Dfsha
