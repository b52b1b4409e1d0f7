import Dfsha.Datanode.Container
import Dfsha.Lib.Collections
import Dfsha.Lib.Escapes
import Dfsha.Lib.FileTree

/-!
# Backup archives

An archive is a store of blocks, one for each file, and a sealed manifest that names them.  It is
restored below a directory that is not there before, file by file in the order of the manifest, and
a file that marks it as complete is written last.

Names are compared as texts when an archive is made, and are paths when it is restored.  A file
system may know several names as one, and refuse some; it is a parameter, as is what the messages
and the derived keys of the libraries are.  The files are there and stay as they are while the
archive is made, and the disk does not fail.

## Main definitions

* `partsOf`, `admissible` — the components of a path, and the names that are taken.
* `MetadataCipher.sealEnvelope`, `MetadataCipher.openEnvelope` — the envelope of the manifest.
* `createArchive`, `restoreArchive` — the operations, under the source's names.
* `Clear` — the files and the marker are at places that are apart.

## Main results

* `backup_round_trip` — exactly which archives are restored.
-/

namespace Dfsha.Backup

open Blocks (EncryptedBlockStore Sealing Ciphers Named)

abbrev BlockRef := Blocks.BlockRef

/-! ## Libraries -/

/-- An exception. -/
inductive Raised
  | fault (reason : Reason)
  | osError
  /-- `ValueError`, `KeyError`, `TypeError`. -/
  | crash
  deriving DecidableEq, Repr

/-- A field of a message, which is left out where it has its default. -/
def member (key : String) (omitted : Bool) (v : Json) : List (String × Json) :=
  if omitted = true then [] else [(key, v)]

/-- A number of 64 bits, which is a string of digits in a dictionary. -/
def digits (n : UInt64) : Json := .str (String.ofList (Nat.toDigits 10 n.toNat))

/-- `asdict`, with the fields in the order of the message. -/
def asdict (b : BlockRef) : Json :=
  .obj (member "file_id" b.fileId.isEmpty (.str (String.ofList b.fileId)) ++
    member "block_version_id" b.blockVersionId.isEmpty (.str (String.ofList b.blockVersionId)) ++
    member "block_index" (b.blockIndex == 0) (digits b.blockIndex) ++
    member "size_bytes" (b.sizeBytes == 0) (digits b.sizeBytes) ++
    member "plaintext_sha256" b.plaintextSha256.isEmpty
      (.str (String.ofList (b64encode b.plaintextSha256))))

/-- The libraries that an archive rests on. -/
structure Libraries where
  ciphers : Ciphers
  /-- `HKDF(SHA256, 64, None, b'dfsha-metadata-v1').derive(key)`. -/
  derive (key : Bytes) : Bytes
  /-- `ParseDict`, of a `BlockRef`. -/
  proto (v : Json) : Option BlockRef
  proto_asdict : ∀ b, proto (asdict b) = some b

/-- The file system below a directory that was made for an archive. -/
structure FileSystem where
  /-- The name under which a component of a path is known. -/
  fold : Text → Text
  /-- The paths at which something can be made. -/
  admits : List Text → Bool
  admits_above : ∀ p q, q <+: p → admits p = true → admits q = true

/-- What is below such a directory. -/
abbrev Tree := FileTree Text Bytes

/-- `os.urandom(12)`. -/
structure Nonce where
  bytes : Bytes
  length_bytes : bytes.length = 12

/-- `need`. -/
def demand (p : Prop) [Decidable p] (reason : Reason) : Except Raised Unit :=
  if p then .ok () else .error (.fault reason)

/-- A call of the operating system. -/
def operate {α : Type} : Option α → Except Raised α
  | none => .error .osError
  | some a => .ok a

/-- An exception of a store. -/
def ofFailure : Failure → Raised
  | .fault reason => .fault reason
  | .crash => .crash

/-- What a store does. -/
def lifted {α : Type} : Except Failure α → Except Raised α
  | .error e => .error (ofFailure e)
  | .ok a => .ok a

variable (lib : Libraries)

/-! ## The envelope of the manifest -/

namespace MetadataCipher

/-- `MAGIC`. -/
def magic : Bytes := ascii ['D', 'F', 'S', 'H', 'A', 'M', '0', '1']

/-- `b'dfsha-backup-manifest-v1'`. -/
def context : Bytes :=
  ascii ['d', 'f', 's', 'h', 'a', '-', 'b', 'a', 'c', 'k', 'u', 'p', '-', 'm', 'a', 'n', 'i', 'f',
    'e', 's', 't', '-', 'v', '1']

/-- `self.key_id`. -/
def keyId (key : Bytes) : Bytes := lib.ciphers.sha256 key

/-- The key of `self.aead`. -/
def aead (key : Bytes) : Bytes := (lib.derive key).take 32

/-- The encryption of an envelope. -/
def sealing (key : Bytes) (nonce : Nonce) (data : Bytes) : Sealing where
  key := aead lib key
  nonce := nonce.bytes
  data := magic ++ keyId lib key ++ nonce.bytes ++ context
  plaintext := data

/-- `seal`. -/
def sealEnvelope (key : Bytes) (nonce : Nonce) (data : Bytes) : Bytes :=
  magic ++ keyId lib key ++ nonce.bytes ++ (sealing lib key nonce data).ciphertext lib.ciphers

/-- `open`, after the given encryptions. -/
def openEnvelope (made : List Sealing) (key data : Bytes) : Except Raised Bytes := do
  demand (68 ≤ data.length ∧ data.take 8 = magic) .dataLoss
  demand ((data.drop 8).take 32 = keyId lib key) .dataLoss
  match Blocks.decrypt lib.ciphers made (aead lib key) ((data.drop 40).take 12)
      (data.take 52 ++ context) (data.drop 52) with
  | none => .error (.fault .dataLoss)
  | some payload => .ok payload

end MetadataCipher

/-! ## Names -/

/-- `PurePosixPath(name).parts`, of a path that is not absolute. -/
def partsOf (name : Text) : List Text := (name.splitOn '/').filter fun c => c ≠ [] ∧ c ≠ ['.']

/-- A name that is taken next to others. -/
def admissible (names : List Text) (name : Text) : Prop :=
  name.head? ≠ some '/' ∧ ['.', '.'] ∉ partsOf name ∧ '\\' ∉ name ∧ ':' ∉ name ∧
    name ∉ names ∧ name ≠ [] ∧ name ≠ ['.']

instance (names : List Text) (name : Text) : Decidable (admissible names name) :=
  inferInstanceAs (Decidable (_ ∧ _))

/-- Where a file system has the file of a name. -/
def FileSystem.place (fs : FileSystem) (name : Text) : List Text := (partsOf name).map fs.fold

/-- `RESTORE_COMPLETE`. -/
def markerName : Text := "RESTORE_COMPLETE".toList

/-- Where the marker is. -/
def FileSystem.marker (fs : FileSystem) : List Text := [fs.fold markerName]

/-! ## Making an archive -/

/-- A file that goes into an archive. -/
structure Source where
  name : Text
  content : Bytes
  deriving DecidableEq, Repr

/-- What is drawn for a file: two identifiers, and what its container needs. -/
structure Drawn where
  fileId : Text
  blockVersionId : Text
  draw : Blocks.Draw

/-- An entry of a manifest. -/
structure Entry where
  path : Text
  block : BlockRef
  stored : Nat
  ciphertextSha256 : Bytes

/-- An entry in the manifest. -/
def Entry.json (e : Entry) : Json :=
  .obj [("path", .str (String.ofList e.path)), ("block", asdict e.block), ("stored", .int e.stored),
    ("ciphertext_sha256", .str (String.ofList (hex e.ciphertextSha256)))]

/-- `metadata or {}`. -/
def recorded : Json → Json
  | .null | .bool false | .arr [] => .obj []
  | .int n => if n = 0 then .obj [] else .int n
  | .str s => if s.isEmpty = true then .obj [] else .str s
  | metadata => metadata

example (members : List (String × Json)) : recorded (.obj members) = .obj members := rfl

/-- The document that is sealed. -/
def document (entries : List Entry) (metadata : Json) : Json :=
  .obj [("schema", .int 1), ("entries", .arr (entries.map Entry.json)),
    ("metadata", recorded metadata)]

/-- The directory of an archive. -/
structure Archive where
  /-- `objects`. -/
  objects : Text × Text → Option Bytes
  /-- `manifest.sealed`. -/
  manifest : Bytes

/-- What `create_archive` returns. -/
structure Summary where
  files : Nat
  manifestSha256 : Text
  archiveKeyId : Text

/-- The store in the directory of an archive. -/
def storeOf (key : Bytes) (objects : Text × Text → Option Bytes) :
    Except Raised EncryptedBlockStore :=
  if h : key.length = 32 then .ok ⟨key, [], by simpa using h, objects⟩
  else .error .crash

/-- The block of a file. -/
def blockOf (source : Source) (drawn : Drawn) : BlockRef where
  fileId := drawn.fileId
  blockVersionId := drawn.blockVersionId
  blockIndex := 0
  sizeBytes := UInt64.ofNat source.content.length
  plaintextSha256 := lib.ciphers.sha256 source.content

/-- One turn of the loop of `create_archive`. -/
def archiveSource (store : EncryptedBlockStore) (made : List Sealing) (names : List Text)
    (source : Source) (drawn : Drawn) :
    Except Raised (Entry × EncryptedBlockStore × List Sealing) := do
  demand (admissible names source.name) .invalidArgument
  demand (names.length + 1 ≤ 100000) .limitExceeded
  -- the field of a message has 64 bits
  (if source.content.length < 2 ^ 64 then pure () else .error .crash)
  let block := blockOf lib source drawn
  let (done, made) := Blocks.put lib.ciphers store made block drawn.draw
    (slices chunkBytes source.content)
  let (stored, digest, store) ← lifted done
  pure (⟨source.name, block, stored, digest⟩, store, made)

/-- The loop of `create_archive`, behind the entries that were made. -/
def archiveSources (draws : Nat → Drawn) :
    EncryptedBlockStore → List Sealing → List Entry → List Source →
      Except Raised (List Entry × EncryptedBlockStore × List Sealing)
  | store, made, entries, [] => .ok (entries, store, made)
  | store, made, entries, source :: rest => do
      let (entry, store, made) ← archiveSource lib store made (entries.map Entry.path) source
        (draws entries.length)
      archiveSources draws store made (entries ++ [entry]) rest

/-- `create_archive`: the directory and what is returned, with the encryptions that were made. -/
def createArchive (directory : Option Archive) (key : Bytes) (sources : List Source)
    (metadata : Json) (draws : Nat → Drawn) (nonce : Nonce) (made : List Sealing) :
    Except Raised (Archive × Summary × List Sealing) := do
  demand (directory.isNone = true) .alreadyExists
  let store ← storeOf key fun _ => none
  let (entries, store, made) ← archiveSources lib draws store made [] sources
  let payload := dumps (document entries metadata)
  demand (payload.length ≤ 16 * 1048576) .limitExceeded
  pure (⟨store.files, MetadataCipher.sealEnvelope lib key nonce payload⟩,
    ⟨entries.length, hex (lib.ciphers.sha256 payload), hex (MetadataCipher.keyId lib key)⟩,
    made ++ [MetadataCipher.sealing lib key nonce payload])

/-! ## Restoring an archive -/

/-- `value[key]`: of two members with one key, the later one. -/
def subscript (v : Json) (key : String) : Except Raised Json :=
  match v with
  | .obj members =>
      match (members.reverse.find? fun m => m.1 = key).map Prod.snd with
      | none => .error .crash
      | some x => .ok x
  | _ => .error .crash

/-- What is iterated over. -/
def elements : Json → Except Raised (List Json)
  | .arr items => .ok items
  | .obj members => .ok (members.map fun m => .str m.1)
  | .str s => .ok (s.toList.map fun c => .str (String.singleton c))
  | _ => .error .crash

/-- The integer that equals a value. -/
def numberOf : Json → Option Int
  | .int n => some n
  | .bool b => some (if b = true then 1 else 0)
  | _ => none

/-- The text that equals a value. -/
def textOf : Json → Option Text
  | .str s => some s.toList
  | _ => none

/-- `entry['path']`, which has to be a string. -/
def nameOf (entry : Json) : Except Raised Text := do
  let path ← subscript entry "path"
  match textOf path with
  | none => .error .crash
  | some name => .ok name

/-- The names of a manifest are checked as they were when it was made. -/
def checkNames : List Text → List Json → Except Raised Unit
  | _, [] => .ok ()
  | names, entry :: rest => do
      let name ← nameOf entry
      demand (admissible names name) .dataLoss
      checkNames (names ++ [name]) rest

variable (fs : FileSystem)

/-- One turn of the loop of `restore_archive`. -/
def restoreEntry (store : EncryptedBlockStore) (made : List Sealing) (t : Tree) (entry : Json) :
    Except Raised Tree := do
  let name ← nameOf entry
  let target := fs.place name
  let t ← operate (t.makeDirs fs.admits target.dropLast)
  -- below a new directory, nothing leads out of it
  let value ← subscript entry "block"
  let block ← (match lib.proto value with
    | none => .error .crash
    | some block => .ok block)
  let path ← lifted block.path
  let file ← operate (store.files path)
  let stored ← subscript entry "stored"
  demand (numberOf stored = some (file.length : Int)) .dataLoss
  let digest ← subscript entry "ciphertext_sha256"
  demand (textOf digest = some (hex (lib.ciphers.sha256 file))) .dataLoss
  let t ← operate (t.create fs.admits target [])
  match Blocks.readVerified lib.ciphers store made block with
  | (_, some e) => .error (ofFailure e)
  | (pieces, none) => pure (Function.update t target (some (.file pieces.flatten)))

/-- The loop of `restore_archive`. -/
def restoreEntries (store : EncryptedBlockStore) (made : List Sealing) :
    Tree → List Json → Except Raised Tree
  | t, [] => .ok t
  | t, entry :: rest => do
      let t ← restoreEntry lib fs store made t entry
      restoreEntries store made t rest

/-- `restore_archive`: the metadata, and what is below the destination. -/
def restoreArchive (archive : Archive) (destination : Option Tree) (key : Bytes)
    (made : List Sealing) : Except Raised (Json × Tree) := do
  demand (destination.isNone = true) .alreadyExists
  demand (archive.manifest.length ≤ 16 * 1048576 + 68) .limitExceeded
  let store ← storeOf key archive.objects
  let payload ← MetadataCipher.openEnvelope lib made key archive.manifest
  let document ← (match loadsAscii payload with
    | none => .error .crash
    | some document => .ok document)
  let schema ← subscript document "schema"
  demand (numberOf schema = some 1) .dataLoss
  let value ← subscript document "entries"
  let entries ← elements value
  demand (entries.length ≤ 100000) .dataLoss
  checkNames [] entries
  let t ← restoreEntries lib fs store made FileTree.fresh entries
  let t ← operate (t.write fs.admits fs.marker
    (ascii (hex (lib.ciphers.sha256 payload) ++ ['\n'])))
  let metadata ← subscript document "metadata"
  pure (metadata, t)

/-! ## The parts of a run -/

section Runs

variable {α β : Type}

theorem bind_ok {x : Except Raised α} {f : α → Except Raised β} {b : β} :
    x >>= f = .ok b ↔ ∃ a, x = .ok a ∧ f a = .ok b := by
  cases x with
  | error e => exact ⟨fun h => (by cases h), fun ⟨a, h, _⟩ => (by cases h)⟩
  | ok a => exact ⟨fun h => ⟨a, rfl, h⟩, fun ⟨_, h, hf⟩ => (Except.ok.inj h) ▸ hf⟩

theorem ok_of_isOk {x : Except Raised α} (h : x.isOk = true) : ∃ a, x = .ok a := by
  cases x with
  | error e => cases h
  | ok a => exact ⟨a, rfl⟩

theorem ok_bind (a : α) (f : α → Except Raised β) : (Except.ok a >>= f) = f a := rfl

theorem demand_ok {p : Prop} [Decidable p] {reason : Reason} {u : Unit} :
    demand p reason = .ok u ↔ p := by
  unfold demand
  split
  · exact ⟨fun _ => ‹p›, fun _ => rfl⟩
  · exact ⟨fun h => (by cases h), fun h => absurd h ‹¬ p›⟩

theorem demand_true {p : Prop} [Decidable p] {reason : Reason} (h : p) :
    demand p reason = .ok () := demand_ok.mpr h

theorem operate_ok {x : Option α} {a : α} : operate x = .ok a ↔ x = some a := by
  cases x with
  | none => simp [operate]
  | some b => simp [operate]

theorem operate_some (a : α) : operate (some a) = .ok a := rfl

theorem lifted_ok {x : Except Failure α} {a : α} : lifted x = .ok a ↔ x = .ok a := by
  cases x with
  | error e => simp [lifted]
  | ok b => simp [lifted]

end Runs

variable {lib : Libraries} {fs : FileSystem}

/-! ## The envelope -/

theorem length_sealEnvelope (key : Bytes) (nonce : Nonce) (data : Bytes) :
    (MetadataCipher.sealEnvelope lib key nonce data).length = data.length + 68 := by
  have hcipher := Blocks.length_ciphertext (c := lib.ciphers)
    (MetadataCipher.sealing lib key nonce data)
  have hid : (MetadataCipher.keyId lib key).length = 32 := lib.ciphers.length_sha256 key
  have hmagic : MetadataCipher.magic.length = 8 := rfl
  simp only [MetadataCipher.sealEnvelope, List.length_append, hcipher, hid, hmagic,
    nonce.length_bytes]
  have hplain : (MetadataCipher.sealing lib key nonce data).plaintext = data := rfl
  rw [hplain]
  omega

/-- **An envelope is opened** with its key. -/
theorem open_seal {key : Bytes} {nonce : Nonce} {data : Bytes} {made : List Sealing}
    (hmade : MetadataCipher.sealing lib key nonce data ∈ made) :
    MetadataCipher.openEnvelope lib made key (MetadataCipher.sealEnvelope lib key nonce data) =
      .ok data := by
  have hid : (MetadataCipher.keyId lib key).length = 32 := lib.ciphers.length_sha256 key
  have hmagic : MetadataCipher.magic.length = 8 := rfl
  have hnonce := nonce.length_bytes
  have hlen := @length_sealEnvelope lib key nonce data
  obtain ⟨ciphertext, hcipher⟩ : ∃ t, t =
    (MetadataCipher.sealing lib key nonce data).ciphertext lib.ciphers := ⟨_, rfl⟩
  have hfile : MetadataCipher.sealEnvelope lib key nonce data = MetadataCipher.magic ++
      (MetadataCipher.keyId lib key ++ (nonce.bytes ++ ciphertext)) := by
    rw [hcipher, MetadataCipher.sealEnvelope, List.append_assoc, List.append_assoc]
  have h8 : (MetadataCipher.sealEnvelope lib key nonce data).take 8 = MetadataCipher.magic := by
    rw [hfile, List.take_left' hmagic]
  have h40 : ((MetadataCipher.sealEnvelope lib key nonce data).drop 8).take 32 =
      MetadataCipher.keyId lib key := by
    rw [hfile, List.drop_left' hmagic, List.take_left' hid]
  have hrest : (MetadataCipher.sealEnvelope lib key nonce data).drop 40 =
      nonce.bytes ++ ciphertext := by
    rw [hfile, ← List.append_assoc, List.drop_left' (by rw [List.length_append, hmagic, hid])]
  have h52 : (MetadataCipher.sealEnvelope lib key nonce data).take 52 =
      MetadataCipher.magic ++ MetadataCipher.keyId lib key ++ nonce.bytes := by
    rw [MetadataCipher.sealEnvelope, List.take_left' (by
      rw [List.length_append, List.length_append, hmagic, hid, hnonce])]
  have hbody : (MetadataCipher.sealEnvelope lib key nonce data).drop 52 = ciphertext := by
    rw [MetadataCipher.sealEnvelope, ← hcipher, List.drop_left' (by
      rw [List.length_append, List.length_append, hmagic, hid, hnonce])]
  have hread : Blocks.decrypt lib.ciphers made (MetadataCipher.aead lib key) nonce.bytes
      (MetadataCipher.magic ++ MetadataCipher.keyId lib key ++ nonce.bytes ++
        MetadataCipher.context) ciphertext = some data :=
    Blocks.decrypt_eq_some.mpr ⟨hmade, hcipher.symm⟩
  rw [MetadataCipher.openEnvelope, demand_true ⟨by omega, h8⟩, ok_bind, demand_true h40, ok_bind,
    hrest, List.take_left' hnonce, h52, hbody, hread]

/-! ## What was archived -/

/-- Names that are taken one after the other, next to others. -/
def Accepted : List Text → List Text → Prop
  | _, [] => True
  | names, name :: rest => admissible names name ∧ Accepted (names ++ [name]) rest

/-- A store and the encryptions that were made have an entry for a file. -/
structure Filed (lib : Libraries) (store : EncryptedBlockStore) (made : List Sealing) (e : Entry)
    (source : Source) : Prop where
  path : e.path = source.name
  named : Named e.block
  file : ∃ file, store.files (e.block.fileId, e.block.blockVersionId) = some file ∧
    e.stored = file.length ∧ e.ciphertextSha256 = lib.ciphers.sha256 file ∧
    ∃ pieces, pieces.flatten = source.content ∧ ∀ later, made ⊆ later →
      Blocks.readFile lib.ciphers store.keys later e.block file = (pieces, none)

/-- What a store had, it has. -/
structure Extends (store : EncryptedBlockStore) (made : List Sealing)
    (store' : EncryptedBlockStore) (made' : List Sealing) : Prop where
  keys : store'.keys = store.keys
  files : ∀ p file, store.files p = some file → store'.files p = some file
  made : made ⊆ made'

theorem Extends.refl (store : EncryptedBlockStore) (made : List Sealing) :
    Extends store made store made := ⟨rfl, fun _ _ h => h, fun _ h => h⟩

theorem Extends.trans {s s' s'' : EncryptedBlockStore} {m m' m'' : List Sealing}
    (h : Extends s m s' m') (h' : Extends s' m' s'' m'') : Extends s m s'' m'' :=
  ⟨h'.keys.trans h.keys, fun p file hf => h'.files p file (h.files p file hf),
    List.Subset.trans h.made h'.made⟩

theorem Filed.mono {store store' : EncryptedBlockStore} {made made' : List Sealing} {e : Entry}
    {source : Source} (h : Filed lib store made e source)
    (hext : Extends store made store' made') : Filed lib store' made' e source where
  path := h.path
  named := h.named
  file := by
    obtain ⟨file, hfile, hstored, hdigest, pieces, hcontent, hread⟩ := h.file
    refine ⟨file, hext.files _ _ hfile, hstored, hdigest, pieces, hcontent, fun later hl => ?_⟩
    rw [hext.keys]
    exact hread later (List.Subset.trans hext.made hl)

theorem paths_of_filed {store : EncryptedBlockStore} {made : List Sealing} {entries : List Entry}
    {sources : List Source} (h : List.Forall₂ (Filed lib store made) entries sources) :
    entries.map Entry.path = sources.map Source.name := by
  induction h with
  | nil => rfl
  | cons hone _ ih => rw [List.map_cons, List.map_cons, hone.path, ih]

/-- **One file** goes into an archive. -/
theorem archiveSource_ok {store store' : EncryptedBlockStore} {made made' : List Sealing}
    {names : List Text} {source : Source} {drawn : Drawn} {e : Entry}
    (h : archiveSource lib store made names source drawn = .ok (e, store', made')) :
    admissible names source.name ∧ names.length + 1 ≤ 100000 ∧ Extends store made store' made' ∧
      Filed lib store' made' e source := by
  simp only [archiveSource, bind_ok, demand_ok] at h
  obtain ⟨-, hadm, -, hlimit, u, hlen, ⟨stored, digest, t⟩, hput, h⟩ := h
  obtain ⟨rfl, rfl, rfl⟩ : _ ∧ _ ∧ _ := by simpa using (Except.ok.inj h)
  have hput := lifted_ok.mp hput
  obtain ⟨hwritten, hfree⟩ := Blocks.put_ok (Prod.ext hput rfl)
  have hall := Blocks.put_written store made drawn.draw hwritten hfree
  rw [hall] at hput ⊢
  obtain ⟨rfl, rfl, rfl⟩ : _ ∧ _ ∧ _ := by simpa using (Except.ok.inj hput)
  refine ⟨hadm, hlimit, ⟨rfl, fun p file hfile => ?_, List.subset_append_left _ _⟩, rfl,
    hwritten.named, _, Blocks.withFile_file _ _ _, rfl, rfl, slices chunkBytes source.content,
    flatten_slices (by decide) _, fun later hlater => ?_⟩
  · have hne : p ≠ ((blockOf lib source drawn).fileId,
        (blockOf lib source drawn).blockVersionId) := by
      intro he
      rw [he, hfree] at hfile
      cases hfile
    exact (Function.update_of_ne hne _ _).trans hfile
  · exact hwritten.readFile (Blocks.EncryptedBlockStore.length_keys _) List.mem_cons_self
      fun e he => hlater (List.mem_append_right _ he)

/-- **The files** go into an archive. -/
theorem archiveSources_ok {draws : Nat → Drawn} {sources : List Source} :
    ∀ {store store' : EncryptedBlockStore} {made made' : List Sealing} {entries all : List Entry},
      archiveSources lib draws store made entries sources = .ok (all, store', made') →
        ∃ new, all = entries ++ new ∧ Extends store made store' made' ∧
          List.Forall₂ (Filed lib store' made') new sources ∧
          Accepted (entries.map Entry.path) (sources.map Source.name) ∧
          (entries.length ≤ 100000 → all.length ≤ 100000) := by
  induction sources with
  | nil =>
      intro store store' made made' entries all h
      obtain ⟨rfl, rfl, rfl⟩ : _ ∧ _ ∧ _ := by simpa using (Except.ok.inj h)
      exact ⟨[], (List.append_nil _).symm, .refl _ _, .nil, trivial, id⟩
  | cons source rest ih =>
      intro store store' made made' entries all h
      rw [archiveSources, bind_ok] at h
      obtain ⟨⟨e, t, m⟩, hone, hrest⟩ := h
      obtain ⟨hadm, hlimit, hext, hfiled⟩ := archiveSource_ok hone
      obtain ⟨new, rfl, hext', hnew, hacc, hlen⟩ := ih hrest
      refine ⟨e :: new, by simp, hext.trans hext', .cons (hfiled.mono hext') hnew, ⟨hadm, ?_⟩, ?_⟩
      · rw [List.map_append, List.map_singleton, hfiled.path] at hacc
        exact hacc
      · rw [List.length_map] at hlimit
        intro _
        exact hlen (by rw [List.length_append, List.length_singleton]; exact hlimit)

/-! ## Reading the manifest -/

theorem nameOf_json (e : Entry) : nameOf e.json = .ok e.path := by
  simp [nameOf, Entry.json, subscript, textOf, bind, Except.bind]

/-- The names are accepted again. -/
theorem checkNames_json {entries : List Entry} {names : List Text}
    (h : Accepted names (entries.map Entry.path)) :
    checkNames names (entries.map Entry.json) = .ok () := by
  induction entries generalizing names with
  | nil => rfl
  | cons e entries ih =>
      rw [List.map_cons, checkNames, nameOf_json, ok_bind, demand_true h.1, ok_bind]
      exact ih h.2

theorem subscript_document (entries : List Entry) (metadata : Json) :
    subscript (document entries metadata) "schema" = .ok (.int 1) ∧
      subscript (document entries metadata) "entries" = .ok (.arr (entries.map Entry.json)) ∧
      subscript (document entries metadata) "metadata" = .ok (recorded metadata) := by
  simp [document, subscript]

/-! ## Restoring -/

/-- The file of a source, at its place. -/
def FileSystem.fileOf (fs : FileSystem) (source : Source) : List Text × Bytes :=
  (fs.place source.name, source.content)

/-- **One file** is restored exactly where it can be put. -/
theorem restoreEntry_iff {store : EncryptedBlockStore} {made : List Sealing} {e : Entry}
    {source : Source} (h : Filed lib store made e source) {t : Tree}
    {files : List (List Text × Bytes)} (ht : t.Holds files) :
    ((∃ t', restoreEntry lib fs store made t e.json = .ok t') ↔
      fs.admits (fs.place source.name) = true ∧ fs.place source.name ≠ [] ∧
        ∀ f ∈ files, Apart (fs.place source.name) f.1) ∧
    ∀ t', restoreEntry lib fs store made t e.json = .ok t' →
      FileTree.Holds t' (files ++ [fs.fileOf source]) := by
  obtain ⟨file, hfile, hstored, hdigest, pieces, hcontent, hread⟩ := h.file
  have hverified : Blocks.readVerified lib.ciphers store made e.block = (pieces, none) := by
    rw [Blocks.readVerified, h.named.path]
    dsimp only
    rw [hfile]
    exact hread made fun _ hm => hm
  have hblock : subscript e.json "block" = .ok (asdict e.block) := by
    simp [Entry.json, subscript]
  have hsize : subscript e.json "stored" = .ok (.int e.stored) := by
    simp [Entry.json, subscript]
  have hhash : subscript e.json "ciphertext_sha256" =
      .ok (.str (String.ofList (hex e.ciphertextSha256))) := by
    simp [Entry.json, subscript]
  have hrun : ∀ t', restoreEntry lib fs store made t e.json = .ok t' ↔ ∃ t₁ t₂,
      t.makeDirs fs.admits (fs.place source.name).dropLast = some t₁ ∧
      t₁.create fs.admits (fs.place source.name) [] = some t₂ ∧
      t' = Function.update t₂ (fs.place source.name) (some (.file source.content)) := by
    intro t'
    simp only [restoreEntry, nameOf_json, ok_bind, h.path, hblock, lib.proto_asdict,
      h.named.path, lifted, hfile, operate_some, hsize, hhash, hstored, hdigest, numberOf, textOf,
      String.toList_ofList, demand_true, hverified, hcontent, bind_ok, operate_ok]
    constructor
    · rintro ⟨t₁, h₁, t₂, h₂, ht'⟩
      exact ⟨t₁, t₂, h₁, h₂, (Except.ok.inj ht').symm⟩
    · rintro ⟨t₁, t₂, h₁, h₂, rfl⟩
      exact ⟨t₁, h₁, t₂, h₂, rfl⟩
  have hplace := ht.place_iff (p := fs.place source.name) (b := ([] : Bytes)) fs.admits_above
  simp only [hrun]
  refine ⟨⟨?_, fun hp => ?_⟩, ?_⟩
  · rintro ⟨_, t₁, t₂, h₁, h₂, -⟩
    exact hplace.mp ⟨t₁, t₂, h₁, h₂⟩
  · obtain ⟨t₁, t₂, h₁, h₂⟩ := hplace.mpr hp
    exact ⟨_, t₁, t₂, h₁, h₂, rfl⟩
  · rintro t' ⟨t₁, t₂, h₁, h₂, rfl⟩
    obtain ⟨-, hp, hapart⟩ := hplace.mp ⟨t₁, t₂, h₁, h₂⟩
    exact ht.place hp hapart h₁ (FileTree.create_update h₂)

/-- Files that can be put next to others, one after the other. -/
def Placeable (fs : FileSystem) (files : List (List Text × Bytes)) (sources : List Source) :
    Prop :=
  (sources.map fun s => fs.place s.name).Pairwise Apart ∧
    ∀ s ∈ sources, fs.admits (fs.place s.name) = true ∧ fs.place s.name ≠ [] ∧
      ∀ f ∈ files, Apart (fs.place s.name) f.1

theorem placeable_cons {files : List (List Text × Bytes)} {source : Source}
    {rest : List Source} : Placeable fs files (source :: rest) ↔
      (fs.admits (fs.place source.name) = true ∧ fs.place source.name ≠ [] ∧
        ∀ f ∈ files, Apart (fs.place source.name) f.1) ∧
      Placeable fs (files ++ [fs.fileOf source]) rest := by
  unfold Placeable
  rw [List.map_cons, List.pairwise_cons, List.forall_mem_cons]
  constructor
  · rintro ⟨⟨hapart, hpair⟩, hone, hrest⟩
    refine ⟨hone, hpair, fun s hs => ⟨(hrest s hs).1, (hrest s hs).2.1, fun f hf => ?_⟩⟩
    rcases List.mem_append.mp hf with hf | hf
    · exact (hrest s hs).2.2 f hf
    · rw [List.mem_singleton.mp hf]
      exact (hapart _ (List.mem_map_of_mem hs)).symm
  · rintro ⟨hone, hpair, hrest⟩
    refine ⟨⟨fun p hp => ?_, hpair⟩, hone, fun s hs => ⟨(hrest s hs).1, (hrest s hs).2.1,
      fun f hf => (hrest s hs).2.2 f (List.mem_append_left _ hf)⟩⟩
    obtain ⟨s, hs, rfl⟩ := List.mem_map.mp hp
    exact ((hrest s hs).2.2 _ (List.mem_append_right _ List.mem_cons_self)).symm

/-- **The files** are restored exactly where they can be put, one after the other. -/
theorem restoreEntries_iff {store : EncryptedBlockStore} {made : List Sealing}
    {entries : List Entry} {sources : List Source}
    (h : List.Forall₂ (Filed lib store made) entries sources) :
    ∀ {t : Tree} {files : List (List Text × Bytes)}, t.Holds files →
      ((∃ t', restoreEntries lib fs store made t (entries.map Entry.json) = .ok t') ↔
        Placeable fs files sources) ∧
      ∀ t', restoreEntries lib fs store made t (entries.map Entry.json) = .ok t' →
        FileTree.Holds t' (files ++ sources.map fs.fileOf) := by
  induction h with
  | nil =>
      intro t files ht
      refine ⟨⟨fun _ => ⟨.nil, by simp⟩, fun _ => ⟨t, rfl⟩⟩, fun t' ht' => ?_⟩
      rw [List.map_nil, List.append_nil, ← Except.ok.inj ht']
      exact ht
  | cons hone _ ih =>
      rename_i e source entries rest _
      intro t files ht
      obtain ⟨hiff, hholds⟩ := @restoreEntry_iff lib fs _ _ _ _ hone _ _ ht
      simp only [List.map_cons, restoreEntries, bind_ok, placeable_cons, ← hiff]
      constructor
      · constructor
        · rintro ⟨t', t₁, h₁, hrest⟩
          exact ⟨⟨t₁, h₁⟩, (ih (hholds t₁ h₁)).1.mp ⟨t', hrest⟩⟩
        · rintro ⟨⟨t₁, h₁⟩, hrest⟩
          obtain ⟨t', ht'⟩ := (ih (hholds t₁ h₁)).1.mpr hrest
          exact ⟨t', t₁, h₁, ht'⟩
      · rintro t' ⟨t₁, h₁, hrest⟩
        have hall := (ih (hholds t₁ h₁)).2 t' hrest
        rwa [List.append_assoc, List.singleton_append] at hall

/-! ## The round trip -/

/-- The files of these names and the marker are at places that are apart, and that a file system
admits. -/
def Clear (fs : FileSystem) (names : List Text) : Prop :=
  (fs.marker :: names.map fs.place).Pairwise Apart ∧
    ∀ p ∈ fs.marker :: names.map fs.place, fs.admits p = true

instance (fs : FileSystem) (names : List Text) : Decidable (Clear fs names) :=
  inferInstanceAs (Decidable (_ ∧ _))

/-- An archive was restored: the metadata is what was recorded, and exactly the files of the
sources are there, each with its content, and the marker. -/
def Restored (fs : FileSystem) (sources : List Source) (metadata : Json) (summary : Summary)
    (result : Except Raised (Json × Tree)) : Prop :=
  ∃ t : Tree, result = .ok (recorded metadata, t) ∧
    (∀ s ∈ sources, t (fs.place s.name) = some (.file s.content)) ∧
    t fs.marker = some (.file (ascii (summary.manifestSha256 ++ ['\n']))) ∧
    (∀ p b, t p = some (.file b) → p = fs.marker ∨ ∃ s ∈ sources, p = fs.place s.name) ∧
    (fs.marker :: sources.map fun s => fs.place s.name).Nodup

theorem storeOf_ok {key : Bytes} {objects : Text × Text → Option Bytes}
    {store : EncryptedBlockStore} (h : storeOf key objects = .ok store) :
    key.length = 32 ∧ store.keys = [key] ∧ store.files = objects := by
  unfold storeOf at h
  split at h
  · rename_i hkey
    rw [← Except.ok.inj h]
    exact ⟨hkey, rfl, rfl⟩
  · cases h

/-- What is left to do when an archive is restored that was made. -/
theorem restoreArchive_eq {key : Bytes} {sources : List Source} {metadata : Json}
    {draws : Nat → Drawn} {nonce : Nonce} {made made' later : List Sealing} {archive : Archive}
    {summary : Summary} (h : createArchive lib none key sources metadata draws nonce made =
      .ok (archive, summary, made')) (hlater : made' ⊆ later) :
    ∃ store entries, List.Forall₂ (Filed lib store later) entries sources ∧
      restoreArchive lib fs archive none key later = (do
        let t ← restoreEntries lib fs store later FileTree.fresh (entries.map Entry.json)
        let t ← operate (t.write fs.admits fs.marker
          (ascii (summary.manifestSha256 ++ ['\n'])))
        pure (recorded metadata, t)) := by
  simp only [createArchive, bind_ok, demand_ok] at h
  obtain ⟨-, -, empty, hempty, ⟨new, store, m⟩, hsources, -, hlimit, h⟩ := h
  obtain ⟨rfl, rfl, rfl⟩ : _ ∧ _ ∧ _ := by simpa using (Except.ok.inj h)
  obtain ⟨hkey, hkeys, -⟩ := storeOf_ok hempty
  obtain ⟨entries, hnew, hext, hfiled, hacc, hcount⟩ := archiveSources_ok hsources
  rw [List.nil_append] at hnew
  subst hnew
  dsimp only at hlimit
  obtain ⟨store', hstore'⟩ : ∃ store', storeOf key store.files = .ok store' := ⟨_, dif_pos hkey⟩
  obtain ⟨-, hkeys', hfiles'⟩ := storeOf_ok hstore'
  have hsame : Extends store m store' later :=
    ⟨by rw [hkeys', hext.keys, hkeys], fun p file hf => by rw [hfiles']; exact hf,
      fun e he => hlater (List.mem_append_left _ he)⟩
  have hopen := @open_seal lib key nonce (dumps (document new metadata)) later
    (hlater (List.mem_append_right _ List.mem_cons_self))
  have hsize : (MetadataCipher.sealEnvelope lib key nonce
      (dumps (document new metadata))).length ≤ 16 * 1048576 + 68 := by
    rw [length_sealEnvelope]
    exact Nat.add_le_add_right hlimit 68
  obtain ⟨hschema, hentries, hmetadata⟩ := subscript_document new metadata
  have hnames : checkNames [] (new.map Entry.json) = .ok () := by
    refine checkNames_json ?_
    rw [paths_of_filed hfiled]
    exact hacc
  have hlen : (new.map Entry.json).length ≤ 100000 := by
    rw [List.length_map]
    exact hcount (Nat.zero_le _)
  refine ⟨store', new, hfiled.imp fun e s he => he.mono hsame, ?_⟩
  simp only [restoreArchive, Option.isNone_none, demand_true, hsize, hstore', hopen, ok_bind,
    loadsAscii_dumps, hschema, numberOf, hentries, elements, hlen, hnames, hmetadata]

/-- **Backup archives.**  Whatever was archived is restored as it was exactly if the files and the
marker are at places that are apart from each other, and that the file system admits. -/
theorem backup_round_trip (lib : Libraries) (fs : FileSystem) {key : Bytes} {sources : List Source}
    {metadata : Json} {draws : Nat → Drawn} {nonce : Nonce} {made made' later : List Sealing}
    {archive : Archive} {summary : Summary}
    (h : createArchive lib none key sources metadata draws nonce made =
      .ok (archive, summary, made')) (hlater : made' ⊆ later) :
    Restored fs sources metadata summary (restoreArchive lib fs archive none key later) ↔
      Clear fs (sources.map Source.name) := by
  obtain ⟨store, entries, hfiled, hrun⟩ := @restoreArchive_eq lib fs _ _ _ _ _ _ _ _ _ _ h hlater
  obtain ⟨hiff, hholds⟩ := @restoreEntries_iff lib fs _ _ _ _ hfiled _ _ FileTree.holds_fresh
  simp only [List.nil_append] at hholds
  have hmarker : fs.marker ≠ [] := List.cons_ne_nil _ _
  have hplaces : (sources.map Source.name).map fs.place = sources.map fun s => fs.place s.name :=
    List.map_map
  unfold Clear
  rw [hrun, hplaces]
  constructor
  · rintro ⟨t, hok, -, -, -, hnodup⟩
    simp only [bind_ok, operate_ok] at hok
    obtain ⟨t₁, hloop, t₂, hwrite, -⟩ := hok
    obtain ⟨hpair, hall⟩ := hiff.mp ⟨t₁, hloop⟩
    have ht₁ := hholds t₁ hloop
    obtain ⟨habove, hadm⟩ := (ht₁.write_iff hmarker).mp ⟨t₂, hwrite⟩
    obtain ⟨hnot, -⟩ := List.nodup_cons.mp hnodup
    have hapart : ∀ s ∈ sources, Apart fs.marker (fs.place s.name) := by
      intro s hs
      have hne : fs.marker ≠ fs.place s.name := fun he =>
        hnot (List.mem_map.mpr ⟨s, hs, he.symm⟩)
      refine ⟨fun hpre => hne (habove _ (List.mem_map_of_mem hs) hpre), fun hpre => ?_⟩
      rcases List.prefix_cons_iff.mp hpre with hnil | ⟨p, hp, hpre⟩
      · exact (hall s hs).2.1 hnil
      · rw [List.prefix_nil.mp hpre] at hp
        exact hne hp.symm
    refine ⟨List.pairwise_cons.mpr ⟨?_, hpair⟩, List.forall_mem_cons.mpr ⟨hadm ?_, ?_⟩⟩
    · intro p hp
      obtain ⟨s, hs, rfl⟩ := List.mem_map.mp hp
      exact hapart s hs
    · refine ht₁.none_of_apart hmarker fun f hf => ?_
      obtain ⟨s, hs, rfl⟩ := List.mem_map.mp hf
      exact hapart s hs
    · intro p hp
      obtain ⟨s, hs, rfl⟩ := List.mem_map.mp hp
      exact (hall s hs).1
  · rintro ⟨hpair, hadm⟩
    obtain ⟨hapart, hpair'⟩ := List.pairwise_cons.mp hpair
    obtain ⟨hadmits, hadm⟩ := List.forall_mem_cons.mp hadm
    have hfiles : ∀ f ∈ sources.map fs.fileOf, Apart fs.marker f.1 := by
      intro f hf
      obtain ⟨s, hs, rfl⟩ := List.mem_map.mp hf
      exact hapart _ (List.mem_map_of_mem hs)
    have hne : ∀ s ∈ sources, fs.place s.name ≠ [] := by
      intro s hs hnil
      exact (hapart _ (List.mem_map_of_mem hs)).2 (hnil ▸ List.nil_prefix)
    obtain ⟨t₁, hloop⟩ := hiff.mpr
      ⟨hpair', fun s hs => ⟨hadm _ (List.mem_map_of_mem hs), hne s hs, by simp⟩⟩
    have ht₁ := hholds t₁ hloop
    obtain ⟨t, ht⟩ := (ht₁.write_iff (b := ascii (summary.manifestSha256 ++ ['\n'])) hmarker).mpr
      ⟨fun f hf hpre => absurd hpre (hfiles f hf).1, fun _ => hadmits⟩
    have hend := ht₁.write_top hfiles ht
    refine ⟨t, ?_, ?_, ?_, ?_, ?_⟩
    · rw [hloop, ok_bind, ht, operate_some, ok_bind]
      rfl
    · intro s hs
      exact (hend.file _ _).mpr (List.mem_append_left _ (List.mem_map_of_mem hs))
    · exact (hend.file _ _).mpr (List.mem_append_right _ List.mem_cons_self)
    · intro p b hp
      rcases List.mem_append.mp ((hend.file p b).mp hp) with hf | hf
      · obtain ⟨s, hs, he⟩ := List.mem_map.mp hf
        exact .inr ⟨s, hs, (congrArg Prod.fst he).symm⟩
      · exact .inl (congrArg Prod.fst (List.mem_singleton.mp hf))
    · refine hpair.imp fun hp he => hp.1 ?_
      rw [he]

/-! ## Small archives -/

/-- The text at a key, empty where there is none. -/
def textAt (members : List (String × Json)) (key : String) : Text :=
  ((members.find? fun m => m.1 = key).bind fun m => textOf m.2).getD []

/-- A message that was written by `asdict`. -/
def messageOf (v : Json) : Option BlockRef :=
  match v with
  | .obj members => do
      let digest ← b64decode (textAt members "plaintext_sha256")
      some {
        fileId := textAt members "file_id"
        blockVersionId := textAt members "block_version_id"
        blockIndex := UInt64.ofNat (Nat.ofDigitChars 10 (textAt members "block_index") 0)
        sizeBytes := UInt64.ofNat (Nat.ofDigitChars 10 (textAt members "size_bytes") 0)
        plaintextSha256 := digest }
  | _ => none

theorem textAt_member {key : String} {omitted : Bool} {v : Json} {rest : List (String × Json)}
    {t : Text} (hv : textOf v = some t) (homitted : omitted = true → textAt rest key = t) :
    textAt (member key omitted v ++ rest) key = t := by
  cases omitted with
  | true => exact homitted rfl
  | false => simp [member, textAt, hv]

theorem textAt_other {key other : String} {omitted : Bool} {v : Json}
    {rest : List (String × Json)} (hne : other ≠ key) :
    textAt (member other omitted v ++ rest) key = textAt rest key := by
  cases omitted with
  | true => rfl
  | false => simp [member, textAt, hne]

theorem textAt_nil (key : String) : textAt [] key = [] := rfl

theorem textAt_digits {key : String} {n : UInt64} {rest : List (String × Json)}
    (hrest : textAt rest key = []) :
    UInt64.ofNat (Nat.ofDigitChars 10 (textAt (member key (n == 0) (digits n) ++ rest) key) 0) =
      n := by
  by_cases hn : n = 0
  · subst hn
    change UInt64.ofNat (Nat.ofDigitChars 10 (textAt rest key) 0) = 0
    rw [hrest]
    rfl
  · have hkept : (n == 0) = false := beq_eq_false_iff_ne.mpr hn
    have htext : textOf (digits n) = some (Nat.toDigits 10 n.toNat) := by simp [textOf, digits]
    rw [textAt_member htext (by simp [hkept]), Nat.ofDigitChars_ten_toDigits, UInt64.ofNat_toNat]

theorem messageOf_asdict (b : BlockRef) : messageOf (asdict b) = some b := by
  have htext : ∀ t : Text, textOf (.str (String.ofList t)) = some t := fun t => by simp [textOf]
  have hempty : ∀ {t : Text}, t.isEmpty = true → [] = t := fun h => (List.isEmpty_iff.mp h).symm
  let m1 := member "file_id" b.fileId.isEmpty (.str (String.ofList b.fileId))
  let m2 := member "block_version_id" b.blockVersionId.isEmpty
    (.str (String.ofList b.blockVersionId))
  let m3 := member "block_index" (b.blockIndex == 0) (digits b.blockIndex)
  let m4 := member "size_bytes" (b.sizeBytes == 0) (digits b.sizeBytes)
  let m5 := member "plaintext_sha256" b.plaintextSha256.isEmpty
    (.str (String.ofList (b64encode b.plaintextSha256)))
  have hdict : asdict b = .obj (m1 ++ (m2 ++ (m3 ++ (m4 ++ (m5 ++ []))))) := by
    simp [asdict, m1, m2, m3, m4, m5]
  have hfile : textAt (m1 ++ (m2 ++ (m3 ++ (m4 ++ (m5 ++ []))))) "file_id" = b.fileId := by
    refine textAt_member (htext _) fun h => ?_
    simp (disch := decide) only [m2, m3, m4, m5, textAt_other]
    exact hempty h
  have hversion : textAt (m1 ++ (m2 ++ (m3 ++ (m4 ++ (m5 ++ []))))) "block_version_id" =
      b.blockVersionId := by
    rw [textAt_other (by decide)]
    refine textAt_member (htext _) fun h => ?_
    simp (disch := decide) only [m3, m4, m5, textAt_other]
    exact hempty h
  have hindex : UInt64.ofNat (Nat.ofDigitChars 10
      (textAt (m1 ++ (m2 ++ (m3 ++ (m4 ++ (m5 ++ []))))) "block_index") 0) = b.blockIndex := by
    rw [textAt_other (by decide), textAt_other (by decide)]
    refine textAt_digits ?_
    simp (disch := decide) only [m4, m5, textAt_other, textAt_nil]
  have hsize : UInt64.ofNat (Nat.ofDigitChars 10
      (textAt (m1 ++ (m2 ++ (m3 ++ (m4 ++ (m5 ++ []))))) "size_bytes") 0) = b.sizeBytes := by
    rw [textAt_other (by decide), textAt_other (by decide), textAt_other (by decide)]
    refine textAt_digits ?_
    simp (disch := decide) only [m5, textAt_other, textAt_nil]
  have hdigest : textAt (m1 ++ (m2 ++ (m3 ++ (m4 ++ (m5 ++ []))))) "plaintext_sha256" =
      b64encode b.plaintextSha256 := by
    rw [textAt_other (by decide), textAt_other (by decide), textAt_other (by decide),
      textAt_other (by decide)]
    refine textAt_member (htext _) fun h => ?_
    rw [List.isEmpty_iff.mp h]
    rfl
  rw [hdict, messageOf, hfile, hversion, hindex, hsize, hdigest, b64decode_encode]
  rfl

/-- Libraries that hide nothing. -/
def Libraries.small : Libraries where
  ciphers := .small
  derive key := key ++ key
  proto := messageOf
  proto_asdict := messageOf_asdict

/-- A file system that tells all names apart and takes all of them. -/
def FileSystem.posix : FileSystem where
  fold := id
  admits _ := true
  admits_above _ _ _ _ := rfl

/-- What is drawn: one file, and versions that differ. -/
def smallDraws (n : Nat) : Drawn where
  fileId := Blocks.smallUuid
  blockVersionId := "0f8fad5b-d9cb-469f-a165-7086772895".toList ++
    [Nat.digitChar (n / 16 % 16), Nat.digitChar (n % 16)]
  draw := Blocks.smallDraw

/-- A nonce of zeros. -/
def smallNonce : Nonce := ⟨List.replicate 12 0, rfl⟩

/-- A key. -/
def smallKey : Bytes := List.replicate 32 7

/-- Two names of one file. -/
def twice : List Source := [⟨['a'], [1]⟩, ⟨['.', '/', 'a'], [2]⟩]

/-- **Two names of one file are archived, and the archive is not restored.** -/
theorem archived_twice : ∃ archive summary made,
    createArchive .small none smallKey twice .null smallDraws smallNonce [] =
      .ok (archive, summary, made) ∧
    ∀ result, restoreArchive .small .posix archive none smallKey made ≠ .ok result := by
  have hok : (createArchive .small none smallKey twice .null smallDraws smallNonce []).isOk =
      true := by decide +kernel
  obtain ⟨⟨archive, summary, made⟩, h⟩ := ok_of_isOk hok
  refine ⟨archive, summary, made, h, fun result hresult => ?_⟩
  obtain ⟨store, entries, hfiled, hrun⟩ :=
    @restoreArchive_eq _ .posix _ _ _ _ _ _ _ _ _ _ h (List.Subset.refl _)
  rw [hrun, bind_ok] at hresult
  obtain ⟨t, hloop, -⟩ := hresult
  obtain ⟨hpair, -⟩ := (restoreEntries_iff hfiled FileTree.holds_fresh).1.mp ⟨t, hloop⟩
  exact absurd hpair (by decide +kernel)

/-- Files at places that are apart are archived and restored. -/
theorem small_round_trip : ∃ archive summary made,
    createArchive .small none smallKey [⟨['a', '/', 'b'], [1]⟩, ⟨['c'], []⟩] .null smallDraws
      smallNonce [] = .ok (archive, summary, made) ∧
    Restored .posix [⟨['a', '/', 'b'], [1]⟩, ⟨['c'], []⟩] .null summary
      (restoreArchive .small .posix archive none smallKey made) := by
  have hok : (createArchive .small none smallKey [⟨['a', '/', 'b'], [1]⟩, ⟨['c'], []⟩] .null
      smallDraws smallNonce []).isOk = true := by decide +kernel
  obtain ⟨⟨archive, summary, made⟩, h⟩ := ok_of_isOk hok
  exact ⟨archive, summary, made, h,
    (backup_round_trip .small .posix h (List.Subset.refl _)).mpr (by decide +kernel)⟩

end Dfsha.Backup
