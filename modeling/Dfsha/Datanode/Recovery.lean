import Dfsha.Datanode.Container

/-!
# Objects that were not written here

What a data node finds on its volume when it starts need not be what it wrote.  The header of an
object is parsed before anything about it is authenticated, so it is whatever JSON value stands
there, and each access to it may raise an exception of its own.  Reading an object, taking up
objects that no inventory knows, and registering the inventory catch different ones.

What is read is the same as in `readFile`, which knows the headers that a store writes; here are the
other ones.  `json.loads`, `base64.b64decode`, `bytes.fromhex` and the constructor of a message are
parameters.

## Main definitions

* `Value`, `Loaded` — a JSON value, and what `json.loads` makes of bytes.
* `Raised` — the exceptions.
* `headerOf`, `readVerified` — how a header is read, and an object.
* `recoverUnindexedObjects`, `verifiedReceipts` — the two callers.
* `Regular`, `Contained`, `Takable`, `Proper` — where no exception escapes.

## Main results

* `malformed_contained` — exactly where malformed objects are contained.
-/

namespace Dfsha.Blocks.Recovery

/-! ## Values -/

/-- A JSON value, as Python sees it.  Of a floating-point number it is known which integer it
equals, if any. -/
inductive Value
  | null
  | bool (b : Bool)
  | int (n : Int)
  | float (n : Option Int)
  | text (t : Text)
  | list (items : List Value)
  | object (fields : List (Text × Value))

/-- What `json.loads` makes of bytes: a value, a `ValueError`, or a `RecursionError`. -/
inductive Loaded
  | value (v : Value)
  | refused
  | tooDeep

/-- An exception. -/
inductive Raised
  | fault (reason : Reason)
  | osError | valueError | keyError | structError | invalidTag | invalidUnwrap
  | typeError | attributeError | recursionError
  deriving DecidableEq, Repr

namespace Value

/-- `value == n`. -/
def eqInt : Value → Int → Bool
  | .bool b, n => (if b = true then 1 else 0) == n
  | .int m, n => m == n
  | .float m, n => m == some n
  | _, _ => false

/-- `value == text`. -/
def eqText : Value → Text → Bool
  | .text t, u => t == u
  | _, _ => false

/-- A list or an object is not hashable. -/
def hashable : Value → Bool
  | .list _ | .object _ => false
  | _ => true

/-- The fields of an object. -/
def fields? : Value → Option (List (Text × Value))
  | .object fields => some fields
  | _ => none

/-- The text of a string. -/
def text? : Value → Option Text
  | .text t => some t
  | _ => none

end Value

/-- The value of a key: of two with one key, the later one. -/
def valueOf (fields : List (Text × Value)) (key : String) : Option Value :=
  (fields.reverse.find? fun f => f.1 = key.toList).map Prod.snd

/-- `value[key]`. -/
def subscript (v : Value) (key : String) : Except Raised Value :=
  match v.fields? with
  | none => .error .typeError
  | some fields =>
      match valueOf fields key with
      | none => .error .keyError
      | some x => .ok x

/-- `value.get(key, default)`, of which it is asked something. -/
def getField (v : Value) (key : String) : Except Raised (Option Value) :=
  match v.fields? with
  | none => .error .attributeError
  | some fields => .ok (valueOf fields key)

/-- `need`. -/
def demand (p : Prop) [Decidable p] (reason : Reason) : Except Raised Unit :=
  if p then .ok () else .error (.fault reason)

/-- `uuid`. -/
def uuid (t : Text) : Except Raised Unit := demand (isUuid t = true) .invalidArgument

/-- A function of a text that raises `TypeError` where there is no text, and `ValueError` where the
text is not admitted. -/
def ofText {α : Type} (f : Text → Option α) (v : Value) : Except Raised α :=
  match v.text? with
  | none => .error .typeError
  | some t =>
      match f t with
      | none => .error .valueError
      | some a => .ok a

/-! ## Reading an object -/

/-- What a data node runs on. -/
structure Platform where
  ciphers : Ciphers
  loads : Bytes → Loaded
  /-- `base64.b64decode`. -/
  b64decode : Text → Option Bytes
  /-- `bytes.fromhex`. -/
  fromHex : Text → Option Bytes
  /-- The index and the size that `BlockRef` makes of two values. -/
  message : Value → Value → Except Raised (UInt64 × UInt64)

variable (platform : Platform)

/-- `json.loads`. -/
def Platform.load (header : Bytes) : Except Raised Value :=
  match platform.loads header with
  | .value v => .ok v
  | .refused => .error .valueError
  | .tooDeep => .error .recursionError

/-- `value in self.keys`. -/
def keyOf (keys : List Bytes) (v : Value) : Except Raised Bytes :=
  if v.hashable = true then
    match v.text?.bind (keysOf platform.ciphers keys) with
    | none => .error (.fault .dataLoss)
    | some key => .ok key
  else .error .typeError

/-- The key and the start of the nonces that a header gives for a block. -/
def headerOf (keys : List Bytes) (block : BlockRef) (obj : Value) : Except Raised (Bytes × Bytes) := do
  let version ← subscript obj "version"
  demand (version.eqInt 1 = true) .dataLoss
  let fileId ← subscript obj "file_id"
  demand (fileId.eqText block.fileId = true) .dataLoss
  let blockId ← subscript obj "block_id"
  demand (blockId.eqText block.blockVersionId = true) .dataLoss
  let size ← subscript obj "size"
  demand (size.eqInt block.sizeBytes.toNat = true) .dataLoss
  let index ← getField obj "block_index"
  demand (∀ i ∈ index, i.eqInt block.blockIndex.toNat = true) .dataLoss
  let sha ← subscript obj "sha256"
  demand (sha.eqText (hex block.plaintextSha256) = true) .dataLoss
  let keyId ← subscript obj "key_id"
  let key ← keyOf platform keys keyId
  let wrapped ← subscript obj "wrapped_dek"
  let wrapped ← ofText platform.b64decode wrapped
  let dek ← (match platform.ciphers.unwrap key wrapped with
    | none => .error .invalidUnwrap
    | some dek => .ok dek : Except Raised Bytes)
  let noncePrefix ← subscript obj "nonce_prefix"
  let noncePrefix ← ofText platform.b64decode noncePrefix
  demand (noncePrefix.length = 8) .dataLoss
  pure (dek, noncePrefix)

/-- The handlers of `read_verified`. -/
def handled : Raised → Raised
  | .osError | .valueError | .keyError | .structError | .invalidTag | .invalidUnwrap =>
      .fault .dataLoss
  | e => e

/-- `read_verified` of an open file: the chunks that it yields, and what it raises if it does.  The
file is read a second time when chunks are yielded, and is the same then. -/
def readFile (keys : List Bytes) (made : List Sealing) (block : BlockRef) (file : Bytes) :
    List Bytes × Option Raised :=
  match splitHeader file with
  | none => ([], some (.fault .dataLoss))
  | some (header, body) =>
      match (platform.load header).bind (headerOf platform keys block) with
      | .error e => ([], some (handled e))
      | .ok (dek, noncePrefix) =>
          let (data, failed) := records platform.ciphers made dek noncePrefix header 0 body
          if failed = none ∧ data.flatten.length = block.sizeBytes.toNat ∧
              platform.ciphers.sha256 data.flatten = block.plaintextSha256 then
            (data, none)
          else ([], some (.fault .dataLoss))

/-- `read_verified`. -/
def readVerified (s : EncryptedBlockStore) (made : List Sealing) (block : BlockRef) :
    List Bytes × Option Raised :=
  match block.path with
  | .error _ => ([], some (.fault .invalidArgument))
  | .ok target =>
      match s.files target with
      | none => ([], some (.fault .dataLoss))
      | some file => readFile platform s.keys made block file

/-! ## Taking up objects -/

/-- The exceptions that leave an object in quarantine when objects are taken up. -/
def quarantined : Raised → Bool
  | .fault _ | .valueError | .keyError | .structError => true
  | _ => false

/-- The suffix of a file. -/
inductive Suffix
  | staging | blk | other
  deriving DecidableEq, Repr

/-- A file in a folder of the volume. -/
structure FileEntry where
  stem : Text
  suffix : Suffix
  symlink : Bool
  /-- What it holds, if it can be opened and read. -/
  content : Option Bytes
  /-- It can be removed. -/
  removable : Bool

/-- An entry of the volume. -/
structure FolderEntry where
  name : Text
  directory : Bool
  symlink : Bool
  files : List FileEntry

/-- What the inventory records of a block: its reference, and the size and the digest of the file
that its receipt states. -/
structure Record where
  ref : BlockRef
  storedSize : Nat
  ciphertextSha256 : Bytes
  recoveredUnconfirmed : Bool
  deriving DecidableEq, Repr

/-- The header of an object that is taken up. -/
def parse (file : Bytes) : Except Raised Value := do
  demand (file.take 8 = magic) .dataLoss
  if ((file.drop 8).take 4).length = 4 then
    match splitHeader file with
    | none => .error (.fault .dataLoss)
    | some (header, _) => platform.load header
  else .error .structError

/-- The block that an object says it is. -/
def blockOf (folder stem : Text) (obj : Value) : Except Raised BlockRef := do
  let index ← getField obj "block_index"
  let size ← subscript obj "size"
  let sha ← subscript obj "sha256"
  let digest ← ofText platform.fromHex sha
  let (index, size) ← platform.message (index.getD (.int 0)) size
  pure {
    fileId := folder
    blockVersionId := stem
    blockIndex := index
    sizeBytes := size
    plaintextSha256 := digest }

/-- What a loop over the chunks that are yielded raises. -/
def exhaust (result : List Bytes × Option Raised) : Except Raised Unit :=
  match result.2 with
  | none => .ok ()
  | some e => .error e

/-- The record of an object that is taken up. -/
def takeUp (keys : List Bytes) (made : List Sealing) (folder : Text) (entry : FileEntry) :
    Except Raised Record :=
  match entry.content with
  | none => .error .osError
  | some file => do
      let obj ← parse platform file
      let block ← blockOf platform folder entry.stem obj
      exhaust (readFile platform keys made block file)
      pure {
        ref := block
        storedSize := file.length
        ciphertextSha256 := platform.ciphers.sha256 file
        recoveredUnconfirmed := true }

/-- The inventory knows a block. -/
def known (inventory : List Record) (stem : Text) : Bool :=
  inventory.any fun r => r.ref.blockVersionId = stem

/-- What `recover_unindexed_objects` does with a file. -/
def recoverFile (keys : List Bytes) (made : List Sealing) (folder : Text)
    (inventory : List Record) (entry : FileEntry) : Except Raised (List Record) :=
  if entry.symlink = true then .ok inventory
  else
    match entry.suffix with
    | .staging => do
        uuid entry.stem
        if entry.removable = true then .ok inventory else .error .osError
    | .blk => do
        uuid entry.stem
        if known inventory entry.stem = true then .ok inventory
        else
          match takeUp platform keys made folder entry with
          | .ok record => .ok (inventory ++ [record])
          | .error e => if quarantined e = true then .ok inventory else .error e
    | .other => .ok inventory

/-- What `recover_unindexed_objects` does with an entry of the volume. -/
def recoverFolder (keys : List Bytes) (made : List Sealing) (inventory : List Record)
    (entry : FolderEntry) : Except Raised (List Record) :=
  if entry.directory = true ∧ entry.symlink = false then do
    uuid entry.name
    entry.files.foldlM (recoverFile platform keys made entry.name) inventory
  else .ok inventory

/-- `recover_unindexed_objects`: the inventory after it. -/
def recoverUnindexedObjects (keys : List Bytes) (made : List Sealing) (volume : List FolderEntry)
    (inventory : List Record) : Except Raised (List Record) :=
  volume.foldlM (recoverFolder platform keys made) inventory

/-! ## Reporting the inventory -/

/-- The records of `register_inventory` whose receipts are reported. -/
def verifiedReceipts (s : EncryptedBlockStore) (made : List Sealing) :
    List Record → Except Raised (List Record)
  | [] => .ok []
  | record :: records =>
      match exhaust (readVerified platform s made record.ref) with
      | .ok () => do
          let receipts ← verifiedReceipts s made records
          pure (record :: receipts)
      | .error (.fault _) => verifiedReceipts s made records
      | .error e => .error e

/-- The reports of an inventory: the receipts of each, and whether it is the last one. -/
def blockReports (receipts : List Record) : List (List Record × Bool) :=
  (List.range (max 1 ((receipts.length + 63) / 64))).map fun page =>
    ((receipts.drop (page * 64)).take 64, decide ((page + 1) * 64 ≥ receipts.length))

/-- `register_inventory`: the reports that are made. -/
def registerInventory (s : EncryptedBlockStore) (made : List Sealing) (records : List Record) :
    Except Raised (List (List Record × Bool)) := do
  let receipts ← verifiedReceipts platform s made records
  pure (blockReports receipts)

/-! ## What reading contains -/

/-- A header that is for a block. -/
structure ForBlock (block : BlockRef) (fields : List (Text × Value)) : Prop where
  version : ∃ v, valueOf fields "version" = some v ∧ v.eqInt 1 = true
  fileId : ∃ v, valueOf fields "file_id" = some v ∧ v.eqText block.fileId = true
  blockId : ∃ v, valueOf fields "block_id" = some v ∧ v.eqText block.blockVersionId = true
  size : ∃ v, valueOf fields "size" = some v ∧ v.eqInt block.sizeBytes.toNat = true
  index : ∀ v ∈ valueOf fields "block_index", v.eqInt block.blockIndex.toNat = true
  sha : ∃ v, valueOf fields "sha256" = some v ∧ v.eqText (hex block.plaintextSha256) = true

/-- A header whose key is known. -/
def KeyFor (keys : List Bytes) (fields : List (Text × Value)) (key : Bytes) : Prop :=
  ∃ id, valueOf fields "key_id" = some (.text id) ∧ keysOf platform.ciphers keys id = some key

/-- A header from which a key unwraps the key of the content. -/
def DekFor (fields : List (Text × Value)) (key dek : Bytes) : Prop :=
  ∃ t raw, valueOf fields "wrapped_dek" = some (.text t) ∧ platform.b64decode t = some raw ∧
    platform.ciphers.unwrap key raw = some dek

/-- What a header may be without an exception that escapes: if it is for the block, its key is
hashable, and what it says of a known key and of the nonces are strings. -/
structure Regular (keys : List Bytes) (block : BlockRef) (fields : List (Text × Value)) : Prop where
  keyId : ∀ k, ForBlock block fields → valueOf fields "key_id" = some k → k.hashable = true
  wrapped : ∀ key w, ForBlock block fields → KeyFor platform keys fields key →
    valueOf fields "wrapped_dek" = some w → w.text?.isSome = true
  noncePrefix : ∀ key dek p, ForBlock block fields → KeyFor platform keys fields key →
    DekFor platform fields key dek → valueOf fields "nonce_prefix" = some p → p.text?.isSome = true

/-- What a file may hold without an exception that escapes: no header, bytes that are no JSON, or an
object that is regular. -/
def Contained (keys : List Bytes) (block : BlockRef) (file : Bytes) : Prop :=
  ∀ header body, splitHeader file = some (header, body) →
    platform.loads header ≠ .tooDeep ∧ ∀ v, platform.loads header = .value v →
      ∃ fields, v.fields? = some fields ∧ Regular platform keys block fields

/-- The file of a block is contained, if there is one. -/
def Admissible (s : EncryptedBlockStore) (block : BlockRef) : Prop :=
  ∀ target file, block.path = .ok target → s.files target = some file →
    Contained platform s.keys block file

/-- What reading may come to: the whole plaintext, or a fault before anything is yielded. -/
def Reads (block : BlockRef) (result : List Bytes × Option Raised) : Prop :=
  (result.2 = none ∧ result.1.flatten.length = block.sizeBytes.toNat ∧
    platform.ciphers.sha256 result.1.flatten = block.plaintextSha256) ∨
  (result.1 = [] ∧ ∃ reason, result.2 = some (.fault reason))

/-! ### Safe computations -/

/-- What `read_verified` turns into a fault. -/
def Handled (e : Raised) : Prop := ∃ reason, handled e = .fault reason

/-- What the two handlers have in common. -/
structure Handler (caught : Raised → Prop) : Prop where
  fault : ∀ reason, caught (.fault reason)
  valueError : caught .valueError
  keyError : caught .keyError
  typeError : ¬ caught .typeError
  attributeError : ¬ caught .attributeError
  recursionError : ¬ caught .recursionError

theorem handler_handled : Handler Handled := by
  constructor <;> simp [Handled, handled]

theorem handler_quarantined : Handler (fun e => quarantined e = true) := by
  constructor <;> simp [quarantined]

/-- What `read_verified` raises is quarantined only if it is a fault. -/
theorem quarantined_handled (e : Raised) : quarantined (handled e) = true ↔ Handled e := by
  unfold Handled
  cases e <;> simp [handled, quarantined]

/-- A computation whose exceptions are caught. -/
def Safe {α : Type} (caught : Raised → Prop) (x : Except Raised α) : Prop :=
  ∀ e, x = .error e → caught e

section Safe

variable {α β : Type} {caught : Raised → Prop}

theorem safe_ok (a : α) : Safe caught (.ok a : Except Raised α) := fun _ h => by cases h

theorem safe_error {e : Raised} : Safe caught (.error e : Except Raised α) ↔ caught e := by
  constructor
  · exact fun h => h e rfl
  · intro h e' he
    cases he
    exact h

theorem safe_bind {x : Except Raised α} {f : α → Except Raised β} :
    Safe caught (x >>= f) ↔ Safe caught x ∧ ∀ a, x = .ok a → Safe caught (f a) := by
  cases x with
  | error e =>
      constructor
      · intro h
        exact ⟨safe_error.mpr (safe_error.mp h), fun a ha => by cases ha⟩
      · rintro ⟨h, -⟩
        exact safe_error.mpr (safe_error.mp h)
  | ok a =>
      constructor
      · exact fun h => ⟨safe_ok a, fun b hb => Except.ok.inj hb ▸ h⟩
      · exact fun h => h.2 a rfl

theorem bind_ok {x : Except Raised α} {f : α → Except Raised β} {b : β} :
    x >>= f = .ok b ↔ ∃ a, x = .ok a ∧ f a = .ok b := by
  cases x with
  | error e => simp [bind, Except.bind]
  | ok a => simp [bind, Except.bind]

theorem demand_ok {p : Prop} [Decidable p] {reason : Reason} {u : Unit} :
    demand p reason = .ok u ↔ p := by
  unfold demand
  by_cases h : p
  · simp [h]
  · simp [h]

theorem subscript_ok {v x : Value} {fields : List (Text × Value)} {key : String}
    (h : v.fields? = some fields) : subscript v key = .ok x ↔ valueOf fields key = some x := by
  unfold subscript
  rw [h]
  cases hy : valueOf fields key with
  | none => simp [hy]
  | some y => simp [hy]

theorem getField_ok {v : Value} {fields : List (Text × Value)} {key : String}
    {x : Option Value} (h : v.fields? = some fields) :
    getField v key = .ok x ↔ valueOf fields key = x := by
  unfold getField
  rw [h]
  simp

theorem ofText_ok {f : Text → Option α} {v : Value} {a : α} :
    ofText f v = .ok a ↔ ∃ t, v = .text t ∧ f t = some a := by
  unfold ofText
  cases v with
  | text t =>
      cases hf : f t with
      | none => simp [Value.text?, hf]
      | some b => simp [Value.text?, hf]
  | _ => simp [Value.text?]

namespace Handler

variable (h : Handler caught)

include h

theorem demand (p : Prop) [Decidable p] (reason : Reason) : Safe caught (demand p reason) := by
  unfold Recovery.demand
  by_cases hp : p
  · rw [if_pos hp]
    exact safe_ok ()
  · rw [if_neg hp]
    exact safe_error.mpr (h.fault reason)

theorem subscript {v : Value} {key : String} :
    Safe caught (subscript v key) ↔ ∃ fields, v.fields? = some fields := by
  unfold Recovery.subscript
  cases v.fields? with
  | none => simp [safe_error, h.typeError]
  | some fields =>
      cases hx : valueOf fields key with
      | none => simp [safe_error, h.keyError, hx]
      | some x => simp [safe_ok, hx]

theorem getField {v : Value} {key : String} :
    Safe caught (getField v key) ↔ ∃ fields, v.fields? = some fields := by
  unfold Recovery.getField
  cases v.fields? with
  | none => simp [safe_error, h.attributeError]
  | some fields => simp [safe_ok]

theorem ofText {f : Text → Option α} {v : Value} :
    Safe caught (ofText f v) ↔ v.text?.isSome = true := by
  unfold Recovery.ofText
  cases v.text? with
  | none => simp [safe_error, h.typeError]
  | some t =>
      cases ha : f t with
      | none => simp [safe_error, h.valueError, ha]
      | some a => simp [safe_ok, ha]

theorem keyOf {platform : Platform} {keys : List Bytes} {v : Value} :
    Safe caught (keyOf platform keys v) ↔ v.hashable = true := by
  unfold Recovery.keyOf
  by_cases hv : v.hashable = true
  · rw [if_pos hv]
    cases v.text?.bind (keysOf platform.ciphers keys) with
    | none => simp [safe_error, h.fault, hv]
    | some key => simp [safe_ok, hv]
  · rw [if_neg hv]
    simp [safe_error, h.typeError, hv]

theorem load {platform : Platform} {header : Bytes} :
    Safe caught (platform.load header) ↔ platform.loads header ≠ .tooDeep := by
  unfold Platform.load
  cases platform.loads header with
  | value v => simp [safe_ok]
  | refused => simp [safe_error, h.valueError]
  | tooDeep => simp [safe_error, h.recursionError]

end Handler

variable {platform}

theorem load_ok {header : Bytes} {v : Value} :
    platform.load header = .ok v ↔ platform.loads header = .value v := by
  unfold Platform.load
  cases platform.loads header <;> simp

theorem keyOf_ok {keys : List Bytes} {v : Value} {key : Bytes} :
    keyOf platform keys v = .ok key ↔
      ∃ id, v = .text id ∧ keysOf platform.ciphers keys id = some key := by
  unfold keyOf
  cases v with
  | text t =>
      cases hf : keysOf platform.ciphers keys t with
      | none => simp [Value.text?, Value.hashable, hf]
      | some b => simp [Value.text?, Value.hashable, hf]
  | _ => simp [Value.text?, Value.hashable]

end Safe

section Reading

variable {platform} {keys : List Bytes} {block : BlockRef} {made : List Sealing}

/-- **A header is read safely** exactly when it is an object that is regular. -/
theorem safe_headerOf {obj : Value} : Safe Handled (headerOf platform keys block obj) ↔
    ∃ fields, obj.fields? = some fields ∧ Regular platform keys block fields := by
  have hs := handler_handled
  cases hfields : obj.fields? with
  | none =>
      have hnot : ¬ Safe Handled (headerOf platform keys block obj) := fun h => by
        obtain ⟨fields, hsome⟩ := hs.subscript.mp (safe_bind.mp h).1
        rw [hfields] at hsome
        cases hsome
      simp [hnot]
  | some fields =>
      have hsub : ∀ key, Safe Handled (subscript obj key) :=
        fun key => hs.subscript.mpr ⟨fields, hfields⟩
      have hget : Safe Handled (getField obj "block_index") := hs.getField.mpr ⟨fields, hfields⟩
      have hunwrap : ∀ key wrapped, Safe Handled (match platform.ciphers.unwrap key wrapped with
          | none => .error .invalidUnwrap
          | some dek => .ok dek : Except Raised Bytes) := fun key wrapped => by
        cases platform.ciphers.unwrap key wrapped with
        | none => exact safe_error.mpr ⟨_, rfl⟩
        | some dek => exact safe_ok dek
      simp only [Option.some.injEq, exists_eq_left']
      simp only [headerOf, safe_bind, hsub, hget, hunwrap, hs.demand, hs.keyOf, hs.ofText,
        subscript_ok hfields, getField_ok hfields, demand_ok, true_and, forall_const]
      have hunwrapped : ∀ key wrapped dek, (match platform.ciphers.unwrap key wrapped with
          | none => .error .invalidUnwrap
          | some dek => .ok dek : Except Raised Bytes) = .ok dek ↔
            platform.ciphers.unwrap key wrapped = some dek := fun key wrapped dek => by
        cases platform.ciphers.unwrap key wrapped <;> simp
      constructor
      · intro h
        have hinner := fun (hb : ForBlock block fields) =>
          h _ hb.version.choose_spec.1 hb.version.choose_spec.2 _ hb.fileId.choose_spec.1
            hb.fileId.choose_spec.2 _ hb.blockId.choose_spec.1 hb.blockId.choose_spec.2 _
            hb.size.choose_spec.1 hb.size.choose_spec.2 _ rfl hb.index _ hb.sha.choose_spec.1
            hb.sha.choose_spec.2
        constructor
        · exact fun k hb hk => (hinner hb k hk).1
        · rintro key w hb ⟨id, hid, hkey⟩ hw
          exact ((hinner hb _ hid).2 key (keyOf_ok.mpr ⟨id, rfl, hkey⟩) w hw).1
        · rintro key dek p hb ⟨id, hid, hkey⟩ ⟨t, raw, ht, hraw, hdek⟩ hp
          exact (((hinner hb _ hid).2 key (keyOf_ok.mpr ⟨id, rfl, hkey⟩) _ ht).2 raw
            (ofText_ok.mpr ⟨t, rfl, hraw⟩) dek ((hunwrapped key raw dek).mpr hdek) p hp).1
      · intro h version hversion hone fileId hfileId hfile blockId hblockId hversionId size hsize
          hbytes index hindex hat sha hsha hdigest keyId hkeyId
        have hb : ForBlock block fields := ⟨⟨_, hversion, hone⟩, ⟨_, hfileId, hfile⟩,
          ⟨_, hblockId, hversionId⟩, ⟨_, hsize, hbytes⟩, hindex ▸ hat, ⟨_, hsha, hdigest⟩⟩
        refine ⟨h.keyId keyId hb hkeyId, fun key hkey w hw => ?_⟩
        obtain ⟨id, rfl, hknows⟩ := keyOf_ok.mp hkey
        have hknown : KeyFor platform keys fields key := ⟨id, hkeyId, hknows⟩
        refine ⟨h.wrapped key w hb hknown hw, fun raw hraw dek hdek p hp => ?_⟩
        obtain ⟨t, rfl, hdecoded⟩ := ofText_ok.mp hraw
        have hunwraps := (hunwrapped key raw dek).mp hdek
        exact ⟨h.noncePrefix key dek p hb hknown ⟨t, raw, hw, hdecoded, hunwraps⟩ hp,
          fun prefixed _ _ => safe_ok (dek, prefixed)⟩

/-- **An object is contained** exactly when its header is, whatever the header holds. -/
theorem readFile_contained (file : Bytes) : Reads platform block
    (readFile platform keys made block file) ↔ Contained platform keys block file := by
  unfold readFile Contained
  cases hsplit : splitHeader file with
  | none => simp [Reads]
  | some parts =>
      obtain ⟨header, body⟩ := parts
      have hsafe : Safe Handled ((platform.load header).bind (headerOf platform keys block)) ↔
          platform.loads header ≠ .tooDeep ∧ ∀ v, platform.loads header = .value v →
            ∃ fields, v.fields? = some fields ∧ Regular platform keys block fields := by
        refine safe_bind.trans ?_
        simp only [handler_handled.load, load_ok, safe_headerOf]
      have hall : (∀ header' body', some (header, body) = some (header', body') →
          platform.loads header' ≠ .tooDeep ∧ ∀ v, platform.loads header' = .value v →
            ∃ fields, v.fields? = some fields ∧ Regular platform keys block fields) ↔
          Safe Handled ((platform.load header).bind (headerOf platform keys block)) := by
        rw [hsafe]
        constructor
        · exact fun h => h header body rfl
        · intro h header' body' he
          obtain ⟨rfl, rfl⟩ := Prod.mk.inj (Option.some.inj he)
          exact h
      rw [hall]
      simp only
      cases (platform.load header).bind (headerOf platform keys block) with
      | error e => simp [Reads, safe_error, Handled]
      | ok result =>
          simp only [safe_ok, iff_true]
          by_cases hdone : (records platform.ciphers made result.1 result.2 header 0 body).2 = none ∧
              (records platform.ciphers made result.1 result.2 header 0 body).1.flatten.length =
                block.sizeBytes.toNat ∧
              platform.ciphers.sha256
                (records platform.ciphers made result.1 result.2 header 0 body).1.flatten =
                block.plaintextSha256
          · rw [if_pos hdone]
            exact .inl ⟨rfl, hdone.2⟩
          · rw [if_neg hdone]
            exact .inr ⟨rfl, _, rfl⟩

/-- What reading comes to: the whole plaintext, or an exception before anything is yielded. -/
theorem readFile_ends (file : Bytes) :
    ((readFile platform keys made block file).2 = none ∧
      Reads platform block (readFile platform keys made block file)) ∨
    ∃ e, readFile platform keys made block file = ([], some (handled e)) := by
  unfold readFile
  cases splitHeader file with
  | none => exact .inr ⟨.fault .dataLoss, rfl⟩
  | some parts =>
      obtain ⟨header, body⟩ := parts
      simp only
      cases (platform.load header).bind (headerOf platform keys block) with
      | error e => exact .inr ⟨e, rfl⟩
      | ok result =>
          simp only
          by_cases hdone : (records platform.ciphers made result.1 result.2 header 0 body).2 = none ∧
              (records platform.ciphers made result.1 result.2 header 0 body).1.flatten.length =
                block.sizeBytes.toNat ∧
              platform.ciphers.sha256
                (records platform.ciphers made result.1 result.2 header 0 body).1.flatten =
                block.plaintextSha256
          · rw [if_pos hdone]
            exact .inl ⟨rfl, .inl ⟨rfl, hdone.2⟩⟩
          · rw [if_neg hdone]
            exact .inr ⟨.fault .dataLoss, rfl⟩

/-- A loop over the chunks of an object is safe when the object is contained. -/
theorem safe_exhaust (file : Bytes) :
    Safe (fun e => quarantined e = true) (exhaust (readFile platform keys made block file)) ↔
      Contained platform keys block file := by
  rw [← @readFile_contained _ _ _ made]
  obtain ⟨hnone, hreads⟩ | ⟨e, he⟩ := @readFile_ends platform keys block made file
  · simp [exhaust, hnone, safe_ok, hreads]
  · rw [he]
    simp [exhaust, safe_error, quarantined_handled, Reads, Handled]

end Reading

/-! ## What taking up objects contains -/

section Recovering

variable (keys : List Bytes) (made : List Sealing)

/-- The block that the fields of a header state. -/
def States (folder stem : Text) (fields : List (Text × Value)) (block : BlockRef) : Prop :=
  ∃ size t digest index bytes, valueOf fields "size" = some size ∧
    valueOf fields "sha256" = some (.text t) ∧ platform.fromHex t = some digest ∧
    platform.message ((valueOf fields "block_index").getD (.int 0)) size = .ok (index, bytes) ∧
    block = ⟨folder, stem, index, bytes, digest⟩

/-- What a header may be without an exception that escapes: if it has a size, its digest is a string,
and the size and the index are such that no message raises a `TypeError`; and it is regular for the
block that it states. -/
structure Shaped (folder stem : Text) (fields : List (Text × Value)) : Prop where
  sha : ∀ size v, valueOf fields "size" = some size → valueOf fields "sha256" = some v →
    v.text?.isSome = true
  message : ∀ size t digest e, valueOf fields "size" = some size →
    valueOf fields "sha256" = some (.text t) → platform.fromHex t = some digest →
    platform.message ((valueOf fields "block_index").getD (.int 0)) size = .error e →
    quarantined e = true
  regular : ∀ block, States platform folder stem fields block → Regular platform keys block fields

/-- What an object may be without an exception that escapes: it can be opened, and its header is an
object of JSON that is shaped. -/
def Takable (folder : Text) (entry : FileEntry) : Prop :=
  ∃ file, entry.content = some file ∧ ∀ header body, splitHeader file = some (header, body) →
    platform.loads header ≠ .tooDeep ∧ ∀ v, platform.loads header = .value v →
      ∃ fields, v.fields? = some fields ∧ Shaped platform keys folder entry.stem fields

/-- A step of `recover_unindexed_objects`: a folder of the volume, or a file in it. -/
inductive Visit
  | directory (name : Text)
  | file (folder : Text) (entry : FileEntry)

/-- The steps in their order. -/
def visits (volume : List FolderEntry) : List Visit :=
  volume.flatMap fun f =>
    if f.directory = true ∧ f.symlink = false then .directory f.name :: f.files.map (.file f.name)
    else []

/-- What a step does. -/
def Visit.recover (inventory : List Record) : Visit → Except Raised (List Record)
  | .directory name => do
      uuid name
      pure inventory
  | .file folder entry => recoverFile platform keys made folder inventory entry

/-- A step that takes up an object under an identifier, unless that is known. -/
def Visit.Takes (stem : Text) : Visit → Prop
  | .directory _ => False
  | .file folder entry => entry.symlink = false ∧ entry.suffix = .blk ∧ entry.stem = stem ∧
      isUuid stem = true ∧ ∃ r, takeUp platform keys made folder entry = .ok r

/-- What an entry may be without an exception that escapes, where some were visited before: a folder
is named by an identifier; a staged file is, and can be removed; an object is, and is known, or
taken up from elsewhere before, or takable. -/
def Visit.Proper (inventory : List Record) (before : List Visit) : Visit → Prop
  | .directory name => isUuid name = true
  | .file folder entry => entry.symlink = false →
      (entry.suffix = .staging → isUuid entry.stem = true ∧ entry.removable = true) ∧
      (entry.suffix = .blk → isUuid entry.stem = true ∧
        (known inventory entry.stem = true ∨
          (∃ visit ∈ before, visit.Takes platform keys made entry.stem) ∨
          Takable platform keys folder entry))

variable {platform} {keys} {made}

theorem parse_split {file header body : Bytes} (h : splitHeader file = some (header, body)) :
    parse platform file = platform.load header := by
  have hc : file.take 8 = magic ∧ ((file.drop 8).take 4).length = 4 := by
    by_cases hc : file.take 8 = magic ∧ ((file.drop 8).take 4).length = 4
    · exact hc
    · unfold splitHeader at h
      rw [if_neg fun hall => hc ⟨hall.1, hall.2.1⟩] at h
      cases h
  simp only [parse, demand, if_pos hc.1, if_pos hc.2, h]
  rfl

theorem parse_none {file : Bytes} (h : splitHeader file = none) :
    ∃ e, parse platform file = .error e ∧ quarantined e = true := by
  by_cases hmagic : file.take 8 = magic
  · by_cases hlen : ((file.drop 8).take 4).length = 4
    · refine ⟨.fault .dataLoss, ?_, rfl⟩
      simp only [parse, demand, if_pos hmagic, if_pos hlen, h]
      rfl
    · refine ⟨.structError, ?_, rfl⟩
      simp only [parse, demand, if_pos hmagic, if_neg hlen]
      rfl
  · refine ⟨.fault .dataLoss, ?_, rfl⟩
    simp only [parse, demand, if_neg hmagic]
    rfl

theorem blockOf_ok {folder stem : Text} {obj : Value} {fields : List (Text × Value)}
    {block : BlockRef} (h : obj.fields? = some fields) :
    blockOf platform folder stem obj = .ok block ↔ States platform folder stem fields block := by
  simp only [blockOf, bind_ok, getField_ok h, subscript_ok h, ofText_ok]
  constructor
  · rintro ⟨index, rfl, size, hsize, sha, hsha, digest, ⟨t, rfl, hdigest⟩, ⟨i, n⟩, hmessage, hb⟩
    exact ⟨size, t, digest, i, n, hsize, hsha, hdigest, hmessage, (Except.ok.inj hb).symm⟩
  · rintro ⟨size, t, digest, i, n, hsize, hsha, hdigest, hmessage, rfl⟩
    exact ⟨_, rfl, size, hsize, _, hsha, digest, ⟨t, rfl, hdigest⟩, (i, n), hmessage, rfl⟩

theorem safe_blockOf {folder stem : Text} {obj : Value} {fields : List (Text × Value)}
    (h : obj.fields? = some fields) :
    Safe (fun e => quarantined e = true) (blockOf platform folder stem obj) ↔
      (∀ size v, valueOf fields "size" = some size → valueOf fields "sha256" = some v →
        v.text?.isSome = true) ∧
      ∀ size t digest e, valueOf fields "size" = some size →
        valueOf fields "sha256" = some (.text t) → platform.fromHex t = some digest →
        platform.message ((valueOf fields "block_index").getD (.int 0)) size = .error e →
        quarantined e = true := by
  have hs := handler_quarantined
  have hsub : ∀ key, Safe (fun e => quarantined e = true) (subscript obj key) :=
    fun key => hs.subscript.mpr ⟨fields, h⟩
  have hget : Safe (fun e => quarantined e = true) (getField obj "block_index") :=
    hs.getField.mpr ⟨fields, h⟩
  simp only [blockOf, safe_bind, hsub, hget, hs.ofText, subscript_ok h, getField_ok h, true_and,
    ofText_ok]
  constructor
  · intro hall
    refine ⟨fun size v hsize hsha => (hall _ rfl size hsize v hsha).1, ?_⟩
    intro size t digest e hsize hsha hdigest hmessage
    exact ((hall _ rfl size hsize _ hsha).2 digest ⟨t, rfl, hdigest⟩).1 e hmessage
  · rintro ⟨hsha, hmessage⟩ index rfl size hsize v hv
    refine ⟨hsha size v hsize hv, ?_⟩
    rintro digest ⟨t, rfl, hdigest⟩
    exact ⟨fun e he => hmessage size t digest e hsize hv hdigest he, fun _ _ => safe_ok _⟩

/-- **An object is taken up or left in quarantine** exactly when it is takable. -/
theorem safe_takeUp {folder : Text} {entry : FileEntry} :
    Safe (fun e => quarantined e = true) (takeUp platform keys made folder entry) ↔
      Takable platform keys folder entry := by
  have hs := handler_quarantined
  unfold takeUp Takable
  cases hcontent : entry.content with
  | none => simp [safe_error, quarantined]
  | some file =>
      simp only [Option.some.injEq, exists_eq_left']
      cases hsplit : splitHeader file with
      | none =>
          obtain ⟨e, he, hq⟩ := @parse_none platform _ hsplit
          simp only [he]
          simp [safe_error, bind, Except.bind, hq]
      | some parts =>
          obtain ⟨header, body⟩ := parts
          have hregular : ∀ v fields block, platform.loads header = .value v →
              v.fields? = some fields → (Contained platform keys block file ↔
                Regular platform keys block fields) := fun v fields block hv hfields => by
            simp [Contained, hsplit, hv, hfields]
          have hpure : ∀ r : Record, Safe (fun e => quarantined e = true) (pure r) := safe_ok
          simp only [parse_split hsplit, safe_bind, hs.load, load_ok, safe_exhaust, hpure,
            implies_true, and_true]
          constructor
          · intro h header' body' heq
            obtain ⟨rfl, rfl⟩ := Prod.mk.inj (Option.some.inj heq)
            refine ⟨h.1, fun v hv => ?_⟩
            obtain ⟨hblock, hread⟩ := h.2 v hv
            obtain ⟨fields, hfields⟩ := hs.getField.mp (safe_bind.mp hblock).1
            obtain ⟨hsha, hmessage⟩ := (safe_blockOf hfields).mp hblock
            exact ⟨fields, hfields, hsha, hmessage, fun block hstates =>
              (hregular v fields block hv hfields).mp (hread block ((blockOf_ok hfields).mpr hstates))⟩
          · intro h
            obtain ⟨hdeep, hshaped⟩ := h header body rfl
            refine ⟨hdeep, fun v hv => ?_⟩
            obtain ⟨fields, hfields, hsha, hmessage, hreg⟩ := hshaped v hv
            exact ⟨(safe_blockOf hfields).mpr ⟨hsha, hmessage⟩, fun block hblock =>
              (hregular v fields block hv hfields).mpr (hreg block ((blockOf_ok hfields).mp hblock))⟩

theorem takeUp_stem {folder : Text} {entry : FileEntry} {r : Record}
    (h : takeUp platform keys made folder entry = .ok r) : r.ref.blockVersionId = entry.stem := by
  unfold takeUp at h
  cases hcontent : entry.content with
  | none => simp [hcontent] at h
  | some file =>
      simp only [hcontent, bind_ok] at h
      obtain ⟨obj, -, block, hblock, -, -, hr⟩ := h
      obtain rfl := Except.ok.inj hr
      have hobj : ∃ fields, obj.fields? = some fields := by
        simp only [blockOf, bind_ok] at hblock
        obtain ⟨index, hindex, -⟩ := hblock
        cases hfields : obj.fields? with
        | none => simp [getField, hfields] at hindex
        | some fields => exact ⟨fields, rfl⟩
      obtain ⟨fields, hfields⟩ := hobj
      obtain ⟨size, t, digest, index, bytes, -, -, -, -, rfl⟩ := (blockOf_ok hfields).mp hblock
      rfl

theorem uuid_ok {t : Text} {u : Unit} : uuid t = .ok u ↔ isUuid t = true := demand_ok

theorem uuid_of_not {t : Text} (h : ¬ isUuid t = true) :
    uuid t = .error (.fault .invalidArgument) := if_neg h

theorem uuid_of {t : Text} (h : isUuid t = true) : uuid t = .ok () := if_pos h

/-- A step is done exactly when its entry is proper. -/
theorem Visit.recover_proper {inventory : List Record} (visit : Visit) :
    (∃ r, visit.recover platform keys made inventory = .ok r) ↔
      visit.Proper platform keys made inventory [] := by
  cases visit with
  | directory name =>
      by_cases h : isUuid name = true
      · simp [Visit.recover, Visit.Proper, uuid_of h, h, bind, Except.bind, pure, Except.pure]
      · simp [Visit.recover, Visit.Proper, uuid_of_not h, h, bind, Except.bind]
  | file folder entry =>
      by_cases hlink : entry.symlink = true
      · simp [Visit.recover, Visit.Proper, recoverFile, hlink]
      · simp only [Visit.recover, Visit.Proper, recoverFile, hlink]
        cases hsuffix : entry.suffix with
        | staging =>
            by_cases h : isUuid entry.stem = true
            · by_cases hr : entry.removable = true <;> simp [uuid_of h, h, hr, bind, Except.bind]
            · simp [uuid_of_not h, h, bind, Except.bind]
        | other => simp
        | blk =>
            by_cases h : isUuid entry.stem = true
            · by_cases hknown : known inventory entry.stem = true
              · simp [uuid_of h, h, hknown, bind, Except.bind]
              · have hsafe := @safe_takeUp platform keys made folder entry
                cases htake : takeUp platform keys made folder entry with
                | ok r =>
                    rw [htake] at hsafe
                    simp [uuid_of h, h, hknown, bind, Except.bind, hsafe.mp (safe_ok r)]
                | error e =>
                    rw [htake, safe_error] at hsafe
                    by_cases hq : quarantined e = true
                    · simp [uuid_of h, h, hknown, bind, Except.bind, hq, hsafe.mp hq]
                    · simp [uuid_of h, h, hknown, bind, Except.bind, hq, ← hsafe]
            · simp [uuid_of_not h, h, bind, Except.bind]

/-- The inventory after a step knows what it knew, and what the step takes up. -/
theorem Visit.recover_known {inventory inventory' : List Record} {visit : Visit}
    (h : visit.recover platform keys made inventory = .ok inventory') (stem : Text) :
    known inventory' stem = true ↔
      known inventory stem = true ∨ visit.Takes platform keys made stem := by
  cases visit with
  | directory name =>
      simp only [Visit.recover, bind_ok] at h
      obtain ⟨-, -, hr⟩ := h
      obtain rfl := Except.ok.inj hr
      simp [Visit.Takes]
  | file folder entry =>
      by_cases hlink : entry.symlink = true
      · simp only [Visit.recover, recoverFile, if_pos hlink] at h
        obtain rfl := Except.ok.inj h
        simp [Visit.Takes, hlink]
      · simp only [Visit.recover, recoverFile, if_neg hlink] at h
        cases hsuffix : entry.suffix with
        | staging =>
            simp only [hsuffix, bind_ok] at h
            obtain ⟨-, -, hr⟩ := h
            by_cases hrem : entry.removable = true
            · rw [if_pos hrem] at hr
              obtain rfl := Except.ok.inj hr
              simp [Visit.Takes, hsuffix]
            · rw [if_neg hrem] at hr
              cases hr
        | other =>
            simp only [hsuffix] at h
            obtain rfl := Except.ok.inj h
            simp [Visit.Takes, hsuffix]
        | blk =>
            simp only [hsuffix, bind_ok, uuid_ok] at h
            obtain ⟨-, huuid, h⟩ := h
            by_cases hknown : known inventory entry.stem = true
            · rw [if_pos hknown] at h
              obtain rfl := Except.ok.inj h
              refine ⟨.inl, ?_⟩
              rintro (hk | ⟨-, -, rfl, -⟩)
              · exact hk
              · exact hknown
            · rw [if_neg hknown] at h
              cases htake : takeUp platform keys made folder entry with
              | ok r =>
                  simp only [htake] at h
                  obtain rfl := Except.ok.inj h
                  simp only [Visit.Takes, known, List.any_append, List.any_cons, List.any_nil,
                    Bool.or_false, Bool.or_eq_true, decide_eq_true_eq, takeUp_stem htake, hsuffix,
                    htake, Except.ok.injEq, exists_eq', and_true, true_and, hlink]
                  grind
              | error e =>
                  simp only [htake] at h
                  by_cases hq : quarantined e = true
                  · rw [if_pos hq] at h
                    obtain rfl := Except.ok.inj h
                    simp [Visit.Takes, htake]
                  · rw [if_neg hq] at h
                    cases h

/-- What a step takes up is known to the ones behind it. -/
theorem Visit.proper_cons {inventory inventory' : List Record} {visit : Visit}
    (h : visit.recover platform keys made inventory = .ok inventory') (before : List Visit)
    (later : Visit) : later.Proper platform keys made inventory' before ↔
      later.Proper platform keys made inventory (visit :: before) := by
  cases later with
  | directory name => exact .rfl
  | file folder entry =>
      simp only [Visit.Proper, Visit.recover_known h, List.mem_cons, exists_eq_or_imp, or_assoc]

/-- **The steps are done** exactly when every entry is proper where it is visited. -/
theorem recover_visits (steps : List Visit) (inventory : List Record) :
    (∃ r, steps.foldlM (Visit.recover platform keys made) inventory = .ok r) ↔
      ∀ before visit after, steps = before ++ visit :: after →
        visit.Proper platform keys made inventory before := by
  induction steps generalizing inventory with
  | nil => simp [pure, Except.pure]
  | cons visit steps ih =>
      constructor
      · rintro ⟨r, hr⟩ before later after heq
        simp only [List.foldlM_cons, bind_ok] at hr
        obtain ⟨inventory', hvisit, hrest⟩ := hr
        cases before with
        | nil =>
            obtain ⟨rfl, rfl⟩ := List.cons.inj heq
            exact visit.recover_proper.mp ⟨inventory', hvisit⟩
        | cons first before =>
            obtain ⟨rfl, rfl⟩ := List.cons.inj heq
            exact (Visit.proper_cons hvisit before later).mp
              ((ih inventory').mp ⟨r, hrest⟩ before later after rfl)
      · intro h
        obtain ⟨inventory', hvisit⟩ := visit.recover_proper.mpr (h [] visit steps rfl)
        obtain ⟨r, hr⟩ := (ih inventory').mpr fun before later after heq =>
          (Visit.proper_cons hvisit before later).mpr
            (h (visit :: before) later after (congrArg (visit :: ·) heq))
        refine ⟨r, ?_⟩
        simp only [List.foldlM_cons, bind_ok]
        exact ⟨inventory', hvisit, hr⟩

theorem recoverFolder_eq (folder : FolderEntry) (inventory : List Record) :
    recoverFolder platform keys made inventory folder =
      (visits [folder]).foldlM (Visit.recover platform keys made) inventory := by
  unfold recoverFolder visits
  by_cases h : folder.directory = true ∧ folder.symlink = false
  · simp only [if_pos h, List.flatMap_cons, List.flatMap_nil, List.append_nil, List.foldlM_cons,
      List.foldlM_map, Visit.recover, bind_assoc, pure_bind]
  · simp only [if_neg h, List.flatMap_cons, List.flatMap_nil, List.append_nil]
    rfl

theorem recover_eq (volume : List FolderEntry) (inventory : List Record) :
    recoverUnindexedObjects platform keys made volume inventory =
      (visits volume).foldlM (Visit.recover platform keys made) inventory := by
  induction volume generalizing inventory with
  | nil => rfl
  | cons folder volume ih =>
      have hvisits : visits (folder :: volume) = visits [folder] ++ visits volume := by
        simp [visits]
      rw [hvisits, List.foldlM_append, ← recoverFolder_eq]
      exact bind_congr ih

end Recovering

/-! ## What reporting contains -/

section Reporting

variable {platform} {s : EncryptedBlockStore} {made : List Sealing}

/-- An object that can be read. -/
def healthy (platform : Platform) (s : EncryptedBlockStore) (made : List Sealing) (r : Record) :
    Bool :=
  (readVerified platform s made r.ref).2.isNone

theorem readVerified_contained (block : BlockRef) :
    Reads platform block (readVerified platform s made block) ↔ Admissible platform s block := by
  unfold readVerified Admissible
  cases hpath : block.path with
  | error e =>
      have hreads : Reads platform block ([], some (.fault .invalidArgument)) := .inr ⟨rfl, _, rfl⟩
      exact iff_of_true hreads fun target file h => by cases h
  | ok target =>
      cases hfile : s.files target with
      | none =>
          have hreads : Reads platform block ([], some (.fault .dataLoss)) := .inr ⟨rfl, _, rfl⟩
          refine iff_of_true (by simpa only [hfile] using hreads) fun target' file ht hf => ?_
          obtain rfl := Except.ok.inj ht
          rw [hfile] at hf
          cases hf
      | some file =>
          simp only [hfile]
          rw [readFile_contained]
          constructor
          · intro h target' file' ht hf
            obtain rfl := Except.ok.inj ht
            rw [hfile] at hf
            exact Option.some.inj hf ▸ h
          · exact fun h => h target file rfl hfile

theorem readVerified_ends (block : BlockRef) :
    ((readVerified platform s made block).2 = none ∧
      Reads platform block (readVerified platform s made block)) ∨
    ∃ e, readVerified platform s made block = ([], some (handled e)) := by
  unfold readVerified
  cases block.path with
  | error e => exact .inr ⟨.fault .invalidArgument, rfl⟩
  | ok target =>
      cases hfile : s.files target with
      | none => exact .inr ⟨.fault .dataLoss, by simp [hfile, handled]⟩
      | some file =>
          simp only [hfile]
          exact readFile_ends file

/-- A healthy object is admissible, and so is one whose reading comes to a fault. -/
theorem exhaust_readVerified (block : BlockRef) :
    ((readVerified platform s made block).2 = none ∧ Admissible platform s block) ∨
    ∃ e, exhaust (readVerified platform s made block) = .error (handled e) ∧
      (readVerified platform s made block).2 ≠ none ∧
      (Admissible platform s block ↔ Handled e) := by
  rw [← @readVerified_contained _ _ made]
  obtain ⟨hnone, hreads⟩ | ⟨e, he⟩ := @readVerified_ends platform s made block
  · exact .inl ⟨hnone, hreads⟩
  · refine .inr ⟨e, ?_⟩
    rw [he]
    simp [exhaust, Reads, Handled]

/-- **The receipts of exactly the healthy objects are kept** when every object is admissible, and
only then. -/
theorem verifiedReceipts_ok (records receipts : List Record) :
    verifiedReceipts platform s made records = .ok receipts ↔
      (∀ r ∈ records, Admissible platform s r.ref) ∧
        receipts = records.filter (healthy platform s made) := by
  induction records generalizing receipts with
  | nil => simp [verifiedReceipts, eq_comm]
  | cons record records ih =>
      rw [List.forall_mem_cons, verifiedReceipts]
      obtain ⟨hnone, hadmissible⟩ | ⟨e, he, hsome, hiff⟩ :=
        @exhaust_readVerified platform s made record.ref
      · have hhealthy : healthy platform s made record = true := by simp [healthy, hnone]
        have hdone : exhaust (readVerified platform s made record.ref) = .ok () := by
          simp [exhaust, hnone]
        simp only [hdone, bind_ok, ih, hadmissible, true_and, List.filter_cons_of_pos hhealthy]
        constructor
        · rintro ⟨_, ⟨hall, rfl⟩, hr⟩
          exact ⟨hall, (Except.ok.inj hr).symm⟩
        · rintro ⟨hall, rfl⟩
          exact ⟨_, ⟨hall, rfl⟩, rfl⟩
      · have hsick : ¬ healthy platform s made record = true := by simp [healthy, hsome]
        rw [he, hiff, List.filter_cons_of_neg hsick]
        by_cases hfault : Handled e
        · obtain ⟨reason, hreason⟩ := hfault
          simp only [hreason, ih, iff_true_intro (show Handled e from ⟨reason, hreason⟩), true_and]
        · simp only [hfault, false_and, iff_false]
          cases hraised : handled e with
          | fault reason => exact absurd ⟨reason, hraised⟩ hfault
          | _ => simp

/-- The reports hold the receipts, page after page. -/
theorem blockReports_flatten (receipts : List Record) :
    ((blockReports receipts).map Prod.fst).flatten = receipts := by
  have hpages : ∀ n, ((List.range n).map fun page =>
      (receipts.drop (page * 64)).take 64).flatten = receipts.take (n * 64) := by
    intro n
    induction n with
    | zero => simp
    | succ n ih =>
        rw [List.range_succ, List.map_append, List.flatten_append, ih, Nat.succ_mul, List.take_add]
        simp
  have hall : receipts.length ≤ max 1 ((receipts.length + 63) / 64) * 64 := by omega
  rw [blockReports, List.map_map]
  exact (hpages _).trans (List.take_of_length_le hall)

end Reporting

/-- A platform that knows one JSON text, that of an empty list. -/
def Platform.small : Platform where
  ciphers := .small
  loads header := if header = ascii ['[', ']'] then .value (.list []) else .refused
  b64decode := Dfsha.b64decode
  fromHex t := if t = [] then some [] else none
  message index size :=
    match index, size with
    | .int i, .int n => .ok (UInt64.ofInt i, UInt64.ofInt n)
    | _, _ => .error .typeError

/-- An object whose header is an empty list. -/
def listObject : Bytes := magic ++ pack 2 ++ ascii ['[', ']']

end Dfsha.Blocks.Recovery
