import Dfsha.Pages.Browse

/-!
# A plain map, and what a caller does with either

A caller begins one transaction after the other, and in each it reads, writes and deletes records
and changes the objects that it has got.  The same is said of a plain map from a kind and an
identifier to a record, where an object is a value of its own, and where a transaction that fails
gives the old map back.

A caller names an object by the number of objects that it had got before.  What it sees is the list
of its answers.

## Main definitions

* `Op`, `Attempt` — what a caller does in a transaction.
* `Plain.perform`, `Plain.attempt` — the plain map.
* `carryOut`, `tryOut` — the same over pages.
-/

namespace Dfsha.Pages

/-- A kind of records that have no lease. -/
structure PlainKind where
  name : String
  free : name ∉ leasedKinds

/-- What a caller does. -/
inductive Op
  | get (kind : PlainKind) (identity : Option String)
  | all (kind : PlainKind)
  | children (parent : Option String)
  /-- An object is made. -/
  | make (v : Json)
  /-- An object is looked at. -/
  | look (i : Nat)
  /-- An object is changed. -/
  | change (i : Nat) (v : Json)
  | put (kind : PlainKind) (i : Nat)
  | delete (kind : PlainKind) (identity : String)

/-- What a caller sees. -/
inductive Answer
  | record (v : Option Json)
  | records (vs : List Json)
  | value (v : Json)
  | done
  /-- A transaction is through, or raised an exception. -/
  | ended (e : Option Halt)
  deriving DecidableEq

/-- A transaction that a caller begins. -/
structure Attempt where
  write : Bool
  ops : List Op
  /-- The exception that the caller raises at the end. -/
  raises : Option Halt
  owner : Nat

/-! ## The plain map -/

/-- Records by their kinds and identifiers. -/
abbrev Records := List ((String × String) × Json)

namespace Records

/-- The record of an identifier. -/
def record (m : Records) (kind : String) (identity : Option String) : Option Json :=
  identity.bind fun identity => Pairs.find m (kind, identity)

/-- The records of a kind, by their identifiers. -/
def ofKind (m : Records) (kind : String) : List Json :=
  (sortedSet ((m.filter fun e => e.1.1 = kind).map fun e => e.1.2)).filterMap fun identity =>
    Pairs.find m (kind, identity)

/-- The records without one. -/
def without (m : Records) (kind identity : String) : Records :=
  m.filter fun e => e.1 ≠ (kind, identity)

/-- What the records say. -/
def contents (m : Records) : Contents := fun kind identity => Pairs.find m (kind, identity)

end Records

/-- A plain map, and what the caller has and has seen. -/
structure Plain where
  records : Records
  objects : List Json
  answers : List Answer

namespace Plain

/-- The caller gets objects and an answer. -/
def receive (p : Plain) (vs : List Json) (a : Answer) : Plain :=
  { p with objects := p.objects ++ vs, answers := p.answers ++ [a] }

/-- An object of the caller. -/
def object (p : Plain) (i : Nat) : Except Halt Json :=
  match p.objects[i]? with
  | some v => .ok v
  | none => .error .crash

/-- A record names a lease, but not by a string. -/
def misleased (v : Json) : Bool :=
  flag v "lease_key" && ((member v "lease_key").bind asString).isNone

/-- One operation.  One that fails changes nothing. -/
def perform (write : Bool) (op : Op) (p : Plain) : Except Halt Plain :=
  match op with
  | .get kind identity =>
      let v := p.records.record kind.name identity
      .ok (p.receive v.toList (.record v))
  | .all kind =>
      let vs := p.records.ofKind kind.name
      .ok (p.receive vs (.records vs))
  | .children parent => do
      let vs ← childrenOf parent (p.records.ofKind "node")
      .ok (p.receive vs (.records vs))
  | .make v => .ok (p.receive [v] .done)
  | .look i => do
      let v ← p.object i
      .ok (p.receive [] (.value v))
  | .change i v => do
      let _ ← p.object i
      .ok ({ p with objects := p.objects.set i v }.receive [] .done)
  | .put kind i => do
      let v ← p.object i
      if write = true then
        match identityOf v with
        | some identity =>
            .ok ({ p with records := Pairs.set p.records (kind.name, identity) v }.receive [] .done)
        | none => .error .crash
      else .error (.fault .permissionDenied)
  | .delete kind identity =>
      if write = true then
        if (p.records.record kind.name (some identity)).any misleased = true then .error .crash
        else .ok ({ p with records := p.records.without kind.name identity }.receive [] .done)
      else .error (.fault .permissionDenied)

/-- Operations, up to the first that fails. -/
def performAll (write : Bool) : List Op → Plain → Option Halt × Plain
  | [], p => (none, p)
  | op :: ops, p =>
      match p.perform write op with
      | .ok q => performAll write ops q
      | .error e => (some e, p)

end Plain

/-- What becomes of a transaction, apart from what its caller does. -/
inductive Fate
  /-- Nothing interferes. -/
  | through
  /-- A call to etcd fails when so many operations are done. -/
  | stopped (done : Nat)
  /-- It writes more than a transaction may write. -/
  | tooLarge
  deriving DecidableEq

/-- The operations that are carried out, and the exception that follows them. -/
def Attempt.course (a : Attempt) : Fate → List Op × Option Halt
  | .through => (a.ops, a.raises)
  | .stopped done => (a.ops.take done, some (.fault .serviceUnavailable))
  | .tooLarge => (a.ops, some (.fault .limitExceeded))

/-- A call fails only where one of the calls is to fail, or somebody had the gate. -/
def Fate.Excused (s : Store) : Fate → Prop
  | .stopped _ => true ∈ s.faults ∨ s.etcd.gate ≠ none
  | _ => True

namespace Plain

/-- The end of a transaction that began with some records: they come back when it failed. -/
def finish (q : Plain) (old : Records) (e : Option Halt) : Plain :=
  { q with
    records := if e = none then q.records else old,
    answers := q.answers ++ [.ended e] }

/-- A transaction. -/
def attempt (p : Plain) (a : Attempt) (fate : Fate) : Plain :=
  let (raised, q) := p.performAll a.write (a.course fate).1
  q.finish p.records (raised.or (a.course fate).2)

/-- Transactions, one after the other. -/
def attempts (p : Plain) (as : List (Attempt × Fate)) : Plain :=
  as.foldl (fun p a => p.attempt a.1 a.2) p

end Plain

/-! ## Over pages -/

/-- What a caller has and has seen. -/
structure Caller where
  objects : List Ref
  answers : List Answer

/-- The caller gets objects and an answer. -/
def Caller.receive (caller : Caller) (refs : List Ref) (a : Answer) : Caller :=
  ⟨caller.objects ++ refs, caller.answers ++ [a]⟩

/-- The caller gets objects, and looks at them. -/
def receive (refs : List Ref) (answer : List Json → Answer) : Client Caller Unit := do
  let vs ← Prog.first (Prog.map valueOf refs)
  Prog.modify fun s => (s.1, s.2.receive refs (answer vs))

/-- An object of the caller. -/
def mine (i : Nat) : Client Caller Ref := do
  let s ← Prog.reads id
  match s.2.objects[i]? with
  | some r => pure r
  | none => Prog.raise .crash

/-- One operation. -/
def carryOut (c : Codec) : Op → Client Caller Unit
  | .get kind identity => do
      let r ← Prog.first (get c kind.name identity)
      receive r.toList fun vs => .record vs.head?
  | .all kind => do
      let refs ← Prog.first (all c kind.name)
      receive refs .records
  | .children parent => do
      let refs ← Prog.first (children c parent)
      receive refs .records
  | .make v => do
      let r ← Prog.first (alloc v)
      receive [r] fun _ => .done
  | .look i => do
      let r ← mine i
      let v ← Prog.first (valueOf r)
      receive [] fun _ => .value v
  | .change i v => do
      let r ← mine i
      Prog.first (Prog.modify fun s => { s with heap := s.heap.set r v })
      receive [] fun _ => .done
  | .put kind i => do
      let r ← mine i
      Prog.first (put kind.name r)
      receive [] fun _ => .done
  | .delete kind identity => do
      Prog.first (delete c kind.name identity)
      receive [] fun _ => .done

/-- What happens inside a transaction. -/
def Attempt.body (c : Codec) (a : Attempt) : Client Caller Unit := do
  Prog.each (carryOut c) a.ops
  match a.raises with
  | some e => Prog.raise e
  | none => pure ()

/-- How a transaction ended. -/
def ending : Except Halt Unit → Option Halt
  | .ok _ => none
  | .error e => some e

/-- A transaction; the caller sees how it ends. -/
def tryOut (c : Codec) (k : RootKey) (a : Attempt) : Client Caller Unit := do
  let result ← Prog.attempt (transaction c k a.owner a.write (a.body c))
  receive [] fun _ => .ended (ending result)

end Dfsha.Pages
