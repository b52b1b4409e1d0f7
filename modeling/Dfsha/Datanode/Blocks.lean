import Dfsha.Domain
import Dfsha.Lib.Encoding
import Dfsha.Lib.Json

/-!
# The block container

A data node keeps every block in one file: a header in clear, which names the block and holds its
wrapped key, and the content in records, each encrypted with its index, its length and the header
as associated data.

The ciphers are parameters.  They are ideal: what a cipher decrypts is what was encrypted before
under the same key, nonce and associated data, so the encryptions are listed as they are made.
What the operating system draws at random is an argument.

## Main definitions

* `Ciphers`, `Sealing`, `decrypt` — the ciphers, and the list of what was encrypted.
* `EncryptedBlockStore` — a store: its keys, and its files.
* `put`, `readVerified`, `importCiphertext` — the operations, under the source's names.
-/

namespace Dfsha.Blocks

/-! ## Ciphers -/

/-- The libraries that the container rests on. -/
structure Ciphers where
  /-- `hashlib.sha256(bytes).digest()`. -/
  sha256 : Bytes → Bytes
  /-- `AESGCM(key).encrypt(nonce, plaintext, data)`: the ciphertext, and the tag behind it. -/
  encrypt (key nonce data plaintext : Bytes) : Bytes
  /-- `aes_key_wrap(key, dek)`. -/
  wrap (key dek : Bytes) : Bytes
  /-- `aes_key_unwrap(key, wrapped)`. -/
  unwrap (key wrapped : Bytes) : Option Bytes
  length_sha256 : ∀ bytes, (sha256 bytes).length = 32
  /-- No two keys have one digest. -/
  sha256_inj : ∀ k k' : Bytes, k.length = 32 → k'.length = 32 → sha256 k = sha256 k' → k = k'
  length_encrypt : ∀ key nonce data plaintext,
    (encrypt key nonce data plaintext).length = plaintext.length + 16
  encrypt_inj : ∀ key nonce data p p', encrypt key nonce data p = encrypt key nonce data p' → p = p'
  length_wrap : ∀ key dek, (wrap key dek).length = dek.length + 8
  unwrap_wrap : ∀ key dek, unwrap key (wrap key dek) = some dek

/-- One encryption. -/
structure Sealing where
  key : Bytes
  nonce : Bytes
  data : Bytes
  plaintext : Bytes
  deriving DecidableEq, Repr

variable (c : Ciphers)

/-- What an encryption gives. -/
def Sealing.ciphertext (e : Sealing) : Bytes := c.encrypt e.key e.nonce e.data e.plaintext

/-- `AESGCM(key).decrypt(nonce, ciphertext, data)`, after the given encryptions. -/
def decrypt (made : List Sealing) (key nonce data ciphertext : Bytes) : Option Bytes :=
  (made.find? fun e => e.key = key ∧ e.nonce = nonce ∧ e.data = data ∧
    e.ciphertext c = ciphertext).map Sealing.plaintext

/-- What is drawn at random for a container. -/
structure Draw where
  dek : Bytes
  noncePrefix : Bytes
  length_dek : dek.length = 32
  length_noncePrefix : noncePrefix.length = 8

/-! ## Stores -/

/-- `BlockRef`, as a message carries it. -/
structure BlockRef where
  fileId : Text
  blockVersionId : Text
  blockIndex : UInt64
  sizeBytes : UInt64
  plaintextSha256 : Bytes
  deriving DecidableEq, Repr

/-- `EncryptedBlockStore`: the key it writes with, the keys it reads with too, and its files by
the file and the version of the block. -/
structure EncryptedBlockStore where
  key : Bytes
  readKeys : List Bytes
  length_keys : ∀ k ∈ key :: readKeys, k.length = 32
  files : Text × Text → Option Bytes

/-- `self.keys`: a key by its identifier; of two with one identifier, the later one. -/
def keysOf (keys : List Bytes) (id : Text) : Option Bytes :=
  keys.reverse.find? fun k => hex (c.sha256 k) = id

/-- The keys of a store. -/
def EncryptedBlockStore.keys (s : EncryptedBlockStore) : List Bytes := s.key :: s.readKeys

/-- `str(UUID(value)) == value`: groups of hexadecimal digits, with dashes in between. -/
def isUuid (t : Text) : Bool :=
  t.length = 36 ∧ t.zipIdx.all fun p =>
    if p.2 = 8 ∨ p.2 = 13 ∨ p.2 = 18 ∨ p.2 = 23 then p.1 = '-'
    else p.1.isDigit || ('a' ≤ p.1 && p.1 ≤ 'f')

/-- `path`: the place of a block, if its identifiers are such. -/
def BlockRef.path (block : BlockRef) : Except Failure (Text × Text) :=
  if isUuid block.fileId = true ∧ isUuid block.blockVersionId = true then
    .ok (block.fileId, block.blockVersionId)
  else .error (.fault .invalidArgument)

/-! ## Writing -/

/-- `MAGIC`. -/
def magic : Bytes := ascii ['D', 'F', 'S', 'H', 'A', 'B', '0', '1']

/-- The header of a container, with its keys in order. -/
def headerFields (block : BlockRef) (keyId : Text) (wrappedDek noncePrefix : Bytes) :
    List (String × JsonValue) :=
  [("block_id", .text block.blockVersionId),
   ("block_index", .number block.blockIndex.toNat),
   ("file_id", .text block.fileId),
   ("key_id", .text keyId),
   ("nonce_prefix", .text (b64encode noncePrefix)),
   ("sha256", .text (hex block.plaintextSha256)),
   ("size", .number block.sizeBytes.toNat),
   ("version", .number 1),
   ("wrapped_dek", .text (b64encode wrappedDek))]

/-- `canonical`. -/
def canonical (fields : List (String × JsonValue)) : Bytes := ascii (dumpObject fields)

/-- The encryption of a chunk, which binds it to its place in the container. -/
def sealing (draw : Draw) (header : Bytes) (index : Nat) (chunk : Bytes) : Sealing where
  key := draw.dek
  nonce := draw.noncePrefix ++ pack index
  data := header ++ pack index ++ pack chunk.length
  plaintext := chunk

/-- A record: the length of the ciphertext, and the ciphertext. -/
def Sealing.record (e : Sealing) : Bytes := pack (e.ciphertext c).length ++ e.ciphertext c

/-- The loop of `put`: the bytes that are written and the encryptions that are made, until the
chunks end or one of them is refused. -/
def writeRecords (draw : Draw) (header : Bytes) (size : Nat) :
    Nat → Nat → List Bytes → Except Failure Unit × Bytes × List Sealing
  | _, _, [] => (.ok (), [], [])
  | index, total, chunk :: chunks =>
      if 0 < chunk.length ∧ chunk.length ≤ chunkBytes ∧ total + chunk.length ≤ size then
        if index < 2 ^ 32 then
          let e := sealing draw header index chunk
          let rest := writeRecords draw header size (index + 1) (total + chunk.length) chunks
          (rest.1, e.record c ++ rest.2.1, e :: rest.2.2)
        else (.error .crash, [], [])
      else (.error (.fault .invalidArgument), [], [])

/-- What stands before the records. -/
def preamble (header : Bytes) : Bytes := magic ++ pack header.length ++ header

/-- `put`: the size and the digest of the file, and the store with it; with the encryptions that
were made. -/
def put (s : EncryptedBlockStore) (made : List Sealing) (block : BlockRef) (draw : Draw)
    (chunks : List Bytes) : Except Failure (Nat × Bytes × EncryptedBlockStore) × List Sealing :=
  match block.path with
  | .error e => (.error e, made)
  | .ok target =>
      let header := canonical (headerFields block (hex (c.sha256 s.key)) (c.wrap s.key draw.dek)
        draw.noncePrefix)
      let (done, records, sealings) := writeRecords c draw header block.sizeBytes.toNat 0 0 chunks
      let made := made ++ sealings
      match done with
      | .error e => (.error e, made)
      | .ok () =>
          if chunks.flatten.length = block.sizeBytes.toNat ∧
              c.sha256 chunks.flatten = block.plaintextSha256 then
            if s.files target = none then
              let file := preamble header ++ records
              (.ok (file.length, c.sha256 file,
                { s with files := Function.update s.files target (some file) }), made)
            else (.error (.fault .alreadyExists), made)
          else (.error (.fault .checksumMismatch), made)

/-! ## Reading -/

/-- A field of an object: of two with one key, the later one. -/
def field (o : List (String × JsonValue)) (key : String) : Option JsonValue :=
  (o.reverse.find? fun f => f.1 = key).map Prod.snd

/-- A field that is a string. -/
def textField (o : List (String × JsonValue)) (key : String) : Option Text :=
  match field o key with
  | some (.text t) => some t
  | _ => none

/-- The header of a file, and what comes behind it. -/
def splitHeader (file : Bytes) : Option (Bytes × Bytes) :=
  let raw := (file.drop 8).take 4
  let length := unpack raw
  if file.take 8 = magic ∧ raw.length = 4 ∧ 0 < length ∧ length ≤ 4096 then
    some ((file.drop 12).take length, (file.drop 12).drop length)
  else none

/-- The key and the start of the nonces that a header gives for a block. -/
def openHeader (keys : List Bytes) (block : BlockRef) (header : Bytes) : Option (Bytes × Bytes) := do
  let o ← (ofAscii header).bind loadObject
  if field o "version" = some (.number 1) ∧
      field o "file_id" = some (.text block.fileId) ∧
      field o "block_id" = some (.text block.blockVersionId) ∧
      field o "size" = some (.number block.sizeBytes.toNat) ∧
      (field o "block_index").getD (.number block.blockIndex.toNat) =
        .number block.blockIndex.toNat ∧
      field o "sha256" = some (.text (hex block.plaintextSha256)) then do
    let id ← textField o "key_id"
    let key ← keysOf c keys id
    let wrapped ← (textField o "wrapped_dek").bind b64decode
    let dek ← c.unwrap key wrapped
    let noncePrefix ← (textField o "nonce_prefix").bind b64decode
    if noncePrefix.length = 8 then some (dek, noncePrefix) else none
  else none

/-- `records`: what the records of a file decrypt to, up to the end of the file or the first one
that does not. -/
def records (made : List Sealing) (dek noncePrefix header : Bytes) (index : Nat) (stream : Bytes) :
    List Bytes × Option Failure :=
  if _hempty : stream = [] then ([], none)
  else
    let raw := stream.take 4
    let length := unpack raw
    let data := (stream.drop 4).take length
    if raw.length = 4 ∧ 16 < length ∧ length ≤ chunkBytes + 16 ∧ data.length = length ∧
        index < 2 ^ 32 then
      match decrypt c made dek (noncePrefix ++ pack index)
          (header ++ pack index ++ pack (length - 16)) data with
      | none => ([], some (.fault .dataLoss))
      | some chunk =>
          let rest := records made dek noncePrefix header (index + 1) (stream.drop (4 + length))
          (chunk :: rest.1, rest.2)
    else ([], some (.fault .dataLoss))
termination_by stream.length
decreasing_by
  have hpos := List.length_pos_iff.mpr _hempty
  rw [List.length_drop]
  omega

/-- `read_verified` of an open file: the chunks that it yields, and how it fails if it does.  The
whole file is read once before anything is yielded. -/
def readFile (keys : List Bytes) (made : List Sealing) (block : BlockRef) (file : Bytes) :
    List Bytes × Option Failure :=
  match splitHeader file with
  | none => ([], some (.fault .dataLoss))
  | some (header, body) =>
      match openHeader c keys block header with
      | none => ([], some (.fault .dataLoss))
      | some (dek, noncePrefix) =>
          let (data, failed) := records c made dek noncePrefix header 0 body
          match failed with
          | some e => ([], some e)
          | none =>
              if data.flatten.length = block.sizeBytes.toNat ∧
                  c.sha256 data.flatten = block.plaintextSha256 then
                records c made dek noncePrefix header 0 body
              else ([], some (.fault .dataLoss))

/-- `read_verified`. -/
def readVerified (s : EncryptedBlockStore) (made : List Sealing) (block : BlockRef) :
    List Bytes × Option Failure :=
  match block.path with
  | .error e => ([], some e)
  | .ok target =>
      match s.files target with
      | none => ([], some (.fault .dataLoss))
      | some file => readFile c s.keys made block file

/-- The loop of `import_ciphertext`. -/
def acceptChunks (length : Nat) : Nat → List Bytes → Bool
  | _, [] => true
  | total, chunk :: chunks =>
      decide (0 < chunk.length ∧ chunk.length ≤ chunkBytes ∧ total + chunk.length ≤ length) &&
        acceptChunks length (total + chunk.length) chunks

/-- `import_ciphertext`: the store with the file that was sent. -/
def importCiphertext (s : EncryptedBlockStore) (made : List Sealing) (block : BlockRef)
    (chunks : List Bytes) (length : Nat) (digest : Bytes) : Except Failure EncryptedBlockStore := do
  let target ← block.path
  if acceptChunks length 0 chunks = true then
    if chunks.flatten.length = length ∧ c.sha256 chunks.flatten = digest then
      match (readFile c s.keys made block chunks.flatten).2 with
      | some e => .error e
      | none =>
          if s.files target = none then
            .ok { s with files := Function.update s.files target (some chunks.flatten) }
          else .error (.fault .alreadyExists)
    else .error (.fault .checksumMismatch)
  else .error (.fault .invalidArgument)

end Dfsha.Blocks
