import Dfsha.Datanode.Blocks

/-!
# What a block container guarantees

A file that `put` wrote is read back as it was written, and a file that was made from it by any
change of its records is refused before a byte of it is yielded.  Three things work together: the
header is associated data of every record, so records of other containers do not fit; the index
is part of the nonce, so a record fits in one place only; and the size of the block says where the
records end.

## Main definitions

* `sealed` — the encryptions of a container.
* `Owned` — what was encrypted with a key was encrypted for one container.
* `Tampered` — the files that are made from a container.

## Main results

* `readFile_written` — a container is read back.
* `readFile_tampered` — nothing is yielded of a file that is made from one.
* `block_container` — both for every container that was written, and for what is imported.
-/

namespace Dfsha.Blocks

variable {c : Ciphers} {draw : Draw} {header : Bytes} {made : List Sealing}

/-! ## Ciphers -/

theorem decrypt_eq_some {key nonce data ciphertext p : Bytes} :
    decrypt c made key nonce data ciphertext = some p ↔
      (⟨key, nonce, data, p⟩ : Sealing) ∈ made ∧ c.encrypt key nonce data p = ciphertext := by
  constructor
  · intro h
    obtain ⟨e, he, rfl⟩ := Option.map_eq_some_iff.mp h
    have hmem := List.mem_of_find?_eq_some he
    have hp : e.key = key ∧ e.nonce = nonce ∧ e.data = data ∧ e.ciphertext c = ciphertext := by
      simpa using List.find?_some he
    obtain ⟨rfl, rfl, rfl, rfl⟩ := hp
    exact ⟨hmem, rfl⟩
  · rintro ⟨hmem, rfl⟩
    have hsome : (made.find? fun e => e.key = key ∧ e.nonce = nonce ∧ e.data = data ∧
        e.ciphertext c = c.encrypt key nonce data p).isSome = true := by
      rw [List.find?_isSome]
      exact ⟨_, hmem, decide_eq_true ⟨rfl, rfl, rfl, rfl⟩⟩
    obtain ⟨e, he⟩ := Option.isSome_iff_exists.mp hsome
    have hp : e.key = key ∧ e.nonce = nonce ∧ e.data = data ∧
        e.ciphertext c = c.encrypt key nonce data p := by
      simpa using List.find?_some he
    obtain ⟨rfl, rfl, rfl, hc⟩ := hp
    rw [decrypt, he, Option.map_some, Option.some.injEq]
    exact c.encrypt_inj _ _ _ _ _ hc

/-- A key is found by its identifier. -/
theorem keysOf_mem {keys : List Bytes} {key : Bytes} (hlen : ∀ k ∈ keys, k.length = 32)
    (h : key ∈ keys) : keysOf c keys (hex (c.sha256 key)) = some key := by
  have hsome : (keys.reverse.find? fun k => hex (c.sha256 k) = hex (c.sha256 key)).isSome =
      true := by
    rw [List.find?_isSome]
    exact ⟨key, List.mem_reverse.mpr h, decide_eq_true rfl⟩
  obtain ⟨k, hk⟩ := Option.isSome_iff_exists.mp hsome
  have hmem := List.mem_reverse.mp (List.mem_of_find?_eq_some hk)
  have hhex : hex (c.sha256 k) = hex (c.sha256 key) := by simpa using List.find?_some hk
  rw [keysOf, hk, c.sha256_inj _ _ (hlen k hmem) (hlen key h) (hex_injective hhex)]

/-! ## Records -/

/-- The encryptions of a container, from an index on. -/
def sealed (draw : Draw) (header : Bytes) (index : Nat) (chunks : List Bytes) : List Sealing :=
  (chunks.zipIdx index).map fun p => sealing draw header p.2 p.1

@[simp] theorem sealed_nil {index : Nat} : sealed draw header index [] = [] := rfl

@[simp] theorem sealed_cons {index : Nat} {chunk : Bytes} {chunks : List Bytes} :
    sealed draw header index (chunk :: chunks) =
      sealing draw header index chunk :: sealed draw header (index + 1) chunks := rfl

/-- The records of a container. -/
def body (c : Ciphers) (draw : Draw) (header : Bytes) (index : Nat) (chunks : List Bytes) : Bytes :=
  (sealed draw header index chunks).flatMap (Sealing.record c)

/-- Each record has its length and its tag besides the chunk. -/
theorem length_body {index : Nat} {chunks : List Bytes} :
    (body c draw header index chunks).length = chunks.flatten.length + 20 * chunks.length := by
  induction chunks generalizing index with
  | nil => rfl
  | cons chunk chunks ih =>
      have hone : (Sealing.record c (sealing draw header index chunk)).length =
          chunk.length + 20 := by
        rw [Sealing.record, List.length_append, length_pack, Sealing.ciphertext, c.length_encrypt]
        simp only [sealing]
        omega
      have hrest := @ih (index + 1)
      simp only [body, sealed_cons, List.flatMap_cons, List.length_append, hone, List.flatten_cons,
        List.length_cons] at hrest ⊢
      omega

/-- The chunks that fit into records, the first of which has an index. -/
def Fits : Nat → List Bytes → Prop
  | _, [] => True
  | index, chunk :: chunks =>
      0 < chunk.length ∧ chunk.length ≤ chunkBytes ∧ index < 2 ^ 32 ∧ Fits (index + 1) chunks

theorem fits_iff {index : Nat} {chunks : List Bytes} (h : ∀ chunk ∈ chunks, 0 < chunk.length ∧
    chunk.length ≤ chunkBytes) (hlen : index + chunks.length ≤ 2 ^ 32) : Fits index chunks := by
  induction chunks generalizing index with
  | nil => trivial
  | cons chunk chunks ih =>
      obtain ⟨hpos, hle⟩ := h chunk List.mem_cons_self
      rw [List.length_cons] at hlen
      exact ⟨hpos, hle, by omega, ih (fun x hx => h x (List.mem_cons_of_mem _ hx)) (by omega)⟩

/-- The loop of `put` succeeds on chunks that fit and are not longer than the block. -/
theorem writeRecords_ok {size index total : Nat} {chunks : List Bytes} (h : Fits index chunks)
    (hsize : total + chunks.flatten.length ≤ size) :
    writeRecords c draw header size index total chunks =
      (.ok (), body c draw header index chunks, sealed draw header index chunks) := by
  induction chunks generalizing index total with
  | nil => rfl
  | cons chunk chunks ih =>
      obtain ⟨hpos, hle, hindex, hrest⟩ := h
      rw [List.flatten_cons, List.length_append] at hsize
      rw [writeRecords, if_pos ⟨hpos, hle, by omega⟩, if_pos hindex, ih hrest (by omega)]
      rfl

/-- What the loop of `put` wrote when it came to its end. -/
theorem writeRecords_done {size index total : Nat} {chunks : List Bytes}
    (h : (writeRecords c draw header size index total chunks).1 = .ok ()) :
    Fits index chunks ∧ writeRecords c draw header size index total chunks =
      (.ok (), body c draw header index chunks, sealed draw header index chunks) := by
  induction chunks generalizing index total with
  | nil => exact ⟨trivial, rfl⟩
  | cons chunk chunks ih =>
      rw [writeRecords] at h ⊢
      split at h
      · rename_i hchunk
        rw [if_pos hchunk]
        split at h
        · rename_i hindex
          obtain ⟨hfits, heq⟩ := ih h
          rw [if_pos hindex, heq]
          exact ⟨⟨hchunk.1, hchunk.2.1, hindex, hfits⟩, rfl⟩
        · cases h
      · cases h

/-- Whatever becomes of it, the loop of `put` encrypts with the key that was drawn. -/
theorem writeRecords_key {size index total : Nat} {chunks : List Bytes} :
    ∀ e ∈ (writeRecords c draw header size index total chunks).2.2, e.key = draw.dek := by
  induction chunks generalizing index total with
  | nil => exact fun e h => absurd h List.not_mem_nil
  | cons chunk chunks ih =>
      intro e he
      rw [writeRecords] at he
      split at he
      · split at he
        · rcases List.mem_cons.mp he with rfl | he
          · rfl
          · exact ih e he
        · exact absurd he List.not_mem_nil
      · exact absurd he List.not_mem_nil

theorem length_ciphertext (e : Sealing) : (e.ciphertext c).length = e.plaintext.length + 16 :=
  c.length_encrypt _ _ _ _

/-- **Records are read back.** -/
theorem records_body {index : Nat} {chunks : List Bytes} (h : Fits index chunks)
    (hmade : ∀ e ∈ sealed draw header index chunks, e ∈ made) :
    records c made draw.dek draw.noncePrefix header index (body c draw header index chunks) =
      (chunks, none) := by
  induction chunks generalizing index with
  | nil =>
      rw [records]
      exact dif_pos rfl
  | cons chunk chunks ih =>
      obtain ⟨hpos, hle, hindex, hrest⟩ := h
      have hlen := length_ciphertext (c := c) (sealing draw header index chunk)
      have hplain : (sealing draw header index chunk).plaintext.length = chunk.length := rfl
      have hbound : chunkBytes < 2 ^ 31 := by decide
      have hunpack := unpack_pack
        (n := ((sealing draw header index chunk).ciphertext c).length) (by omega)
      have hbody : body c draw header index (chunk :: chunks) =
          pack ((sealing draw header index chunk).ciphertext c).length ++
            ((sealing draw header index chunk).ciphertext c ++
              body c draw header (index + 1) chunks) := by
        simp only [body, sealed_cons, List.flatMap_cons, Sealing.record, List.append_assoc]
      have htake : (body c draw header index (chunk :: chunks)).take 4 =
          pack ((sealing draw header index chunk).ciphertext c).length := by
        rw [hbody]
        exact List.take_left' (length_pack _)
      have hdrop : (body c draw header index (chunk :: chunks)).drop 4 =
          (sealing draw header index chunk).ciphertext c ++ body c draw header (index + 1) chunks := by
        rw [hbody]
        exact List.drop_left' (length_pack _)
      have hne : body c draw header index (chunk :: chunks) ≠ [] := fun he => by
        rw [he] at htake
        cases htake
      have hdec : decrypt c made draw.dek (draw.noncePrefix ++ pack index)
          (header ++ pack index ++ pack chunk.length)
          ((sealing draw header index chunk).ciphertext c) = some chunk :=
        decrypt_eq_some.mpr ⟨hmade _ List.mem_cons_self, rfl⟩
      rw [records, dif_neg hne]
      simp only [htake, hunpack, hdrop, length_pack, ← List.drop_drop, List.take_left, List.drop_left]
      rw [if_pos ⟨trivial, by omega, by omega, trivial, hindex⟩]
      have hsub : ((sealing draw header index chunk).ciphertext c).length - 16 = chunk.length := by
        omega
      rw [hsub, hdec]
      simp only [ih hrest fun e he => hmade e (List.mem_cons_of_mem _ he)]

theorem mem_sealed {e : Sealing} {chunks : List Bytes} :
    e ∈ sealed draw header 0 chunks ↔ ∃ (index : Nat) (chunk : Bytes),
      chunks[index]? = some chunk ∧ e = sealing draw header index chunk := by
  rw [sealed, List.mem_map]
  constructor
  · rintro ⟨⟨chunk, index⟩, hmem, rfl⟩
    exact ⟨index, chunk, List.mem_zipIdx_iff_getElem?.mp hmem, rfl⟩
  · rintro ⟨index, chunk, hget, rfl⟩
    exact ⟨(chunk, index), List.mem_zipIdx_iff_getElem?.mpr hget, rfl⟩

theorem Fits.lt {first index : Nat} {chunks : List Bytes} {chunk : Bytes} (h : Fits first chunks)
    (hget : chunks[index]? = some chunk) : first + index < 2 ^ 32 := by
  induction chunks generalizing first index with
  | nil => cases hget
  | cons x xs ih =>
      obtain ⟨-, -, hfirst, hrest⟩ := h
      cases index with
      | zero => omega
      | succ index =>
          have hlt := ih hrest (List.getElem?_cons_succ ▸ hget)
          omega

/-- What was encrypted with the key of a container was encrypted for it. -/
def Owned (made : List Sealing) (draw : Draw) (header : Bytes) (chunks : List Bytes) : Prop :=
  ∀ e ∈ made, e.key = draw.dek → e ∈ sealed draw header 0 chunks

/-- **Records that are read are the records of the container**, from the place on where they are
read. -/
theorem records_owned {chunks : List Bytes} (hfits : Fits 0 chunks)
    (hown : Owned made draw header chunks) {index : Nat} {stream : Bytes} {read : List Bytes}
    (h : records c made draw.dek draw.noncePrefix header index stream = (read, none)) :
    read <+: chunks.drop index ∧ stream = body c draw header index read := by
  induction hn : stream.length using Nat.strong_induction_on generalizing index stream read with
  | _ n ih =>
      rw [records] at h
      split at h
      · rename_i hempty
        cases h
        exact ⟨List.nil_prefix, hempty⟩
      · rename_i hne
        dsimp only at h
        split at h
        · rename_i hframe
          obtain ⟨hraw, hlow, -, hdata, hindex⟩ := hframe
          split at h
          · cases h
          · rename_i chunk hdec
            rw [Prod.mk.injEq] at h
            obtain ⟨rfl, hfailed⟩ := h
            obtain ⟨hmem, hcipher⟩ := decrypt_eq_some.mp hdec
            obtain ⟨j, x, hget, heq⟩ := mem_sealed.mp (hown _ hmem rfl)
            rw [sealing, Sealing.mk.injEq] at heq
            obtain ⟨-, hnonce, -, rfl⟩ := heq
            -- The nonce says which record it is.
            obtain rfl : index = j :=
              pack_inj hindex (by simpa using hfits.lt hget) (List.append_cancel_left hnonce)
            have hlen : ((stream.drop 4).take (unpack (stream.take 4))).length =
                chunk.length + 16 := by
              rw [← hcipher, c.length_encrypt]
            have hsize : unpack (stream.take 4) - 16 = chunk.length := by omega
            have hrest := ih _ (by
              rw [List.length_drop]
              have hpos := List.length_pos_iff.mpr hne
              omega) (Prod.ext rfl hfailed) rfl
            obtain ⟨hpre, hstream⟩ := hrest
            constructor
            · have hsplit : chunks.drop index = chunk :: chunks.drop (index + 1) := by
                obtain ⟨hlt, rfl⟩ := List.getElem?_eq_some_iff.mp hget
                exact List.drop_eq_getElem_cons hlt
              rw [hsplit]
              exact List.cons_prefix_cons.mpr ⟨rfl, hpre⟩
            · rw [hsize] at hcipher
              have hrecord : (sealing draw header index chunk).record c =
                  stream.take 4 ++ (stream.drop 4).take (unpack (stream.take 4)) := by
                have hlength : (sealing draw header index chunk).plaintext.length + 16 =
                    unpack (stream.take 4) := hlen.symm.trans hdata
                rw [Sealing.record, length_ciphertext, hlength, pack_unpack hraw]
                exact congrArg _ hcipher
              have hbody : body c draw header index (chunk ::
                  (records c made draw.dek draw.noncePrefix header (index + 1)
                    (stream.drop (4 + unpack (stream.take 4)))).1) =
                  (sealing draw header index chunk).record c ++
                    stream.drop (4 + unpack (stream.take 4)) := by
                rw [body, sealed_cons, List.flatMap_cons, ← body, ← hstream]
              rw [hbody, hrecord, ← List.drop_drop, List.append_assoc, List.take_append_drop,
                List.take_append_drop]
        · cases h

/-! ## Headers -/

/-- The header that `put` writes. -/
def headerOf (c : Ciphers) (key : Bytes) (block : BlockRef) (draw : Draw) : Bytes :=
  canonical (headerFields block (hex (c.sha256 key)) (c.wrap key draw.dek) draw.noncePrefix)

/-- The characters of identifiers, digests and keys. -/
def wordChar (x : Char) : Bool :=
  x.isAlphanum || x = '-' || x = '+' || x = '/' || x = '=' || x = '_'

theorem wordChar_lt {x : Char} (h : wordChar x = true) : x.toNat < 128 := by
  simp only [wordChar, Char.isAlphanum, Char.isAlpha, Char.isUpper, Char.isLower, Char.isDigit,
    Bool.or_eq_true, Bool.and_eq_true, decide_eq_true_eq] at h
  have hval : x.toNat = x.val.toNat := rfl
  rcases h with ((((h | rfl) | rfl) | rfl) | rfl) | rfl
  · simp only [UInt32.le_iff_toNat_le, ge_iff_le] at h
    have hupper : 'Z'.val.toNat = 90 := rfl
    have hlower : 'z'.val.toNat = 122 := rfl
    have hdigit : '9'.val.toNat = 57 := rfl
    omega
  all_goals decide

theorem plain_of_word {t : Text} (h : t.all wordChar) : Plain t := by
  have hne : ∀ x : Char, wordChar x = false → x ∉ t := by
    intro x hx hmem
    have hword := List.all_eq_true.mp h x hmem
    rw [hx] at hword
    cases hword
  exact ⟨hne _ (by decide), hne _ (by decide), hne _ (by decide)⟩

theorem word_uuid {t : Text} (h : isUuid t = true) : t.all wordChar ∧ t.length = 36 := by
  simp only [isUuid, Bool.decide_and, Bool.and_eq_true, decide_eq_true_eq] at h
  obtain ⟨hlen, hall⟩ := h
  refine ⟨List.all_eq_true.mpr fun x hx => ?_, hlen⟩
  obtain ⟨i, hi, rfl⟩ := List.getElem_of_mem hx
  have hmem : (t[i], i) ∈ t.zipIdx := by
    rw [List.mem_zipIdx_iff_getElem?]
    exact List.getElem?_eq_getElem hi
  have hchar := List.all_eq_true.mp hall _ hmem
  split at hchar
  · have he : t[i] = '-' := of_decide_eq_true hchar
    rw [he]
    decide
  · rw [Bool.or_eq_true, Bool.and_eq_true, decide_eq_true_eq, decide_eq_true_eq] at hchar
    have halnum : t[i].isAlphanum = true := by
      rw [Char.isAlphanum, Bool.or_eq_true]
      rcases hchar with hdigit | ⟨hlow, hhigh⟩
      · exact .inr hdigit
      · refine .inl ?_
        rw [Char.isAlpha, Bool.or_eq_true, Char.isLower, Bool.and_eq_true]
        have hbound : 'f'.val ≤ 'z'.val := by decide
        exact .inr ⟨decide_eq_true hlow, decide_eq_true (UInt32.le_trans hhigh hbound)⟩
    simp [wordChar, halnum]

theorem word_hex (bytes : Bytes) : (hex bytes).all wordChar := by
  have hall : ∀ i : Fin 16, wordChar (Nat.digitChar i) = true := by decide
  refine List.all_eq_true.mpr fun x hx => ?_
  obtain ⟨b, -, hb⟩ := List.mem_flatMap.mp hx
  have hlt := b.toNat_lt
  simp only [hexPair, List.mem_cons, List.not_mem_nil, or_false] at hb
  rcases hb with rfl | rfl
  · exact hall ⟨b.toNat / 16, by omega⟩
  · exact hall ⟨b.toNat % 16, by omega⟩

theorem word_b64 (bytes : Bytes) : (b64encode bytes).all wordChar := by
  have hall : ∀ n, n < 64 → wordChar (b64char n) = true := by
    have hfin : ∀ i : Fin 64, wordChar (b64char i) = true := by decide +kernel
    exact fun n hn => hfin ⟨n, hn⟩
  have heq : wordChar '=' = true := by decide
  induction bytes using b64encode.induct with
  | case1 => rfl
  | case2 a =>
      have ha := a.toNat_lt
      simp only [b64encode, List.all_cons, List.all_nil, hall _ (show a.toNat / 4 < 64 by omega),
        hall _ (show a.toNat % 4 * 16 < 64 by omega), heq, Bool.and_self]
  | case3 a b =>
      have ha := a.toNat_lt
      have hb := b.toNat_lt
      simp only [b64encode, List.all_cons, List.all_nil, hall _ (show a.toNat / 4 < 64 by omega),
        hall _ (show a.toNat % 4 * 16 + b.toNat / 16 < 64 by omega),
        hall _ (show b.toNat % 16 * 4 < 64 by omega), heq, Bool.and_self]
  | case4 a b d rest ih =>
      have ha := a.toNat_lt
      have hb := b.toNat_lt
      have hd := d.toNat_lt
      simp only [b64encode, List.all_cons, hall _ (show a.toNat / 4 < 64 by omega),
        hall _ (show a.toNat % 4 * 16 + b.toNat / 16 < 64 by omega),
        hall _ (show b.toNat % 16 * 4 + d.toNat / 64 < 64 by omega),
        hall _ (show d.toNat % 64 < 64 by omega), ih, Bool.and_self]

/-- A block whose identifiers are such. -/
structure Named (block : BlockRef) : Prop where
  file : isUuid block.fileId = true
  block : isUuid block.blockVersionId = true

theorem path_ok {block : BlockRef} {target : Text × Text} (h : block.path = .ok target) :
    Named block ∧ target = (block.fileId, block.blockVersionId) := by
  rw [BlockRef.path] at h
  split at h
  · rename_i hids
    exact ⟨⟨hids.1, hids.2⟩, (Except.ok.inj h).symm⟩
  · cases h

theorem Named.path {block : BlockRef} (h : Named block) :
    block.path = .ok (block.fileId, block.blockVersionId) := if_pos ⟨h.file, h.block⟩

/-- The texts of a header are words. -/
theorem headerFields_words {block : BlockRef} {key wrapped noncePrefix : Bytes} (h : Named block) :
    ∀ f ∈ headerFields block (hex key) wrapped noncePrefix,
      f.1.toList.all wordChar ∧ ∀ t, f.2 = .text t → t.all wordChar := by
  have hfile := (word_uuid h.file).1
  have hblock := (word_uuid h.block).1
  simp only [headerFields, List.forall_mem_cons, JsonValue.text.injEq, forall_eq', reduceCtorEq,
    false_imp_iff, implies_true, and_true, hfile, hblock, word_hex, word_b64, List.not_mem_nil]
  decide

theorem headerFields_plain {block : BlockRef} {key wrapped noncePrefix : Bytes} (h : Named block) :
    PlainObject (headerFields block (hex key) wrapped noncePrefix) where
  nonempty := List.cons_ne_nil _ _
  keys f hf := plain_of_word (headerFields_words h f hf).1
  values f hf := by
    cases hv : f.2 with
    | text t => exact plain_of_word ((headerFields_words h f hf).2 t hv)
    | number n => trivial

theorem headerFields_ascii {block : BlockRef} {key wrapped noncePrefix : Bytes} (h : Named block) :
    (dumpObject (headerFields block (hex key) wrapped noncePrefix)).all fun x => x.toNat < 128 := by
  have hword : ∀ t : Text, t.all wordChar → t.all fun x => x.toNat < 128 := fun t ht =>
    List.all_eq_true.mpr fun x hx => decide_eq_true (wordChar_lt (List.all_eq_true.mp ht x hx))
  refine all_dumpObject (by decide) (fun x hx => ?_) fun f hf => ?_
  · refine decide_eq_true (wordChar_lt ?_)
    simp [wordChar, Char.isAlphanum, hx]
  · obtain ⟨hkey, hvalue⟩ := headerFields_words h f hf
    exact ⟨hword _ hkey, fun t ht => hword t (hvalue t ht)⟩

/-- A header is read as the fields that were written. -/
theorem load_canonical {block : BlockRef} {key wrapped noncePrefix : Bytes} (h : Named block) :
    (ofAscii (canonical (headerFields block (hex key) wrapped noncePrefix))).bind loadObject =
      some (headerFields block (hex key) wrapped noncePrefix) := by
  rw [canonical, ofAscii_ascii (headerFields_ascii h), Option.bind_some,
    loadObject_dump (headerFields_plain h)]

/-- A header is not longer than a reader admits. -/
theorem length_headerOf {key : Bytes} {block : BlockRef} (h : Named block)
    (hsha : block.plaintextSha256.length = 32) :
    0 < (headerOf c key block draw).length ∧ (headerOf c key block draw).length ≤ 4084 := by
  have hfile := (word_uuid h.file).2
  have hblock := (word_uuid h.block).2
  have hdigits : ∀ n : UInt64, (Nat.toDigits 10 n.toNat).length ≤ 20 := fun n =>
    (Nat.length_toDigits_le_iff (by decide) (by decide)).mpr (n.toNat_lt.trans_le (by decide))
  have hindex := hdigits block.blockIndex
  have hsize := hdigits block.sizeBytes
  have hone : (Nat.toDigits 10 1).length = 1 := rfl
  have hwrap := c.length_wrap key draw.dek
  rw [draw.length_dek] at hwrap
  simp only [headerOf, canonical, length_ascii, dumpObject, headerFields, dumpFields, dumpField,
    dumpText, dumpValue, List.length_append, List.length_cons, List.length_nil, hfile, hblock,
    length_hex, length_b64encode, c.length_sha256, hsha, hwrap, draw.length_noncePrefix, hone]
  have hkeys : "block_id".toList.length = 8 ∧ "block_index".toList.length = 11 ∧
      "file_id".toList.length = 7 ∧ "key_id".toList.length = 6 ∧
      "nonce_prefix".toList.length = 12 ∧ "sha256".toList.length = 6 ∧
      "size".toList.length = 4 ∧ "version".toList.length = 7 ∧
      "wrapped_dek".toList.length = 11 := by decide
  omega

/-- **A header gives its key** to who has the key that it is wrapped with. -/
theorem openHeader_own {key : Bytes} {keys : List Bytes} {block : BlockRef} (h : Named block)
    (hlen : ∀ k ∈ keys, k.length = 32) (hkey : key ∈ keys) :
    openHeader c keys block (headerOf c key block draw) = some (draw.dek, draw.noncePrefix) := by
  rw [openHeader, headerOf, load_canonical h]
  simp [field, textField, headerFields, keysOf_mem hlen hkey, b64decode_encode, c.unwrap_wrap,
    draw.length_noncePrefix]

/-- **A header is for one block.** -/
theorem openHeader_other {key : Bytes} {keys : List Bytes} {block other : BlockRef}
    (h : Named block) (hne : other ≠ block) :
    openHeader c keys other (headerOf c key block draw) = none := by
  rw [openHeader, headerOf, load_canonical h]
  refine if_neg fun hfields => hne ?_
  have hread : block.fileId = other.fileId ∧ block.blockVersionId = other.blockVersionId ∧
      block.sizeBytes.toNat = other.sizeBytes.toNat ∧
      block.blockIndex.toNat = other.blockIndex.toNat ∧
      hex block.plaintextSha256 = hex other.plaintextSha256 := by
    simpa [field, headerFields] using hfields
  obtain ⟨hfile, hblock, hsize, hindex, hsha⟩ := hread
  have hsize' := UInt64.toNat_inj.mp hsize
  have hindex' := UInt64.toNat_inj.mp hindex
  have hsha' := hex_injective hsha
  cases block
  cases other
  simp_all

/-- What a header gives to whoever can open it. -/
theorem openHeader_some {key : Bytes} {keys : List Bytes} {block : BlockRef} (h : Named block)
    (hlen : ∀ k ∈ keys, k.length = 32) (hkey : key.length = 32) {x : Bytes × Bytes}
    (hopen : openHeader c keys block (headerOf c key block draw) = some x) :
    x = (draw.dek, draw.noncePrefix) := by
  by_cases hmem : key ∈ keys
  · rw [openHeader_own h hlen hmem] at hopen
    exact (Option.some.inj hopen).symm
  · -- No other key has the identifier of this one.
    have hnone : keysOf c keys (hex (c.sha256 key)) = none := by
      refine List.find?_eq_none.mpr fun k hk hid => hmem ?_
      have hk' := List.mem_reverse.mp hk
      have hhex : hex (c.sha256 k) = hex (c.sha256 key) := of_decide_eq_true hid
      exact c.sha256_inj _ _ (hlen k hk') hkey (hex_injective hhex) ▸ hk'
    rw [openHeader, headerOf, load_canonical h] at hopen
    simp [field, textField, headerFields, hnone] at hopen

/-- A header that is cut off is none. -/
theorem openHeader_cut {key : Bytes} {keys : List Bytes} {block other : BlockRef} (h : Named block)
    {n : Nat} (hn : n < (headerOf c key block draw).length) :
    openHeader c keys other ((headerOf c key block draw).take n) = none := by
  have hnone : (ofAscii ((headerOf c key block draw).take n)).bind loadObject = none := by
    have hcut : (headerOf c key block draw).take n = ascii ((dumpObject (headerFields block
        (hex (c.sha256 key)) (c.wrap key draw.dek) draw.noncePrefix)).take n) :=
      List.map_take.symm
    rw [hcut, ofAscii_ascii, Option.bind_some]
    · refine loadObject_cut (headerFields_plain h) (List.take_append_drop n _) fun hnil => ?_
      have hlen := congrArg List.length hnil
      rw [List.length_drop, List.length_nil] at hlen
      rw [headerOf, canonical, length_ascii] at hn
      omega
    · refine List.all_eq_true.mpr fun x hx => ?_
      exact List.all_eq_true.mp (headerFields_ascii h) x (List.mem_of_mem_take hx)
  rw [openHeader, hnone]
  rfl

/-! ## Files -/

theorem length_preamble : (preamble header).length = 12 + header.length := by
  rw [preamble, List.length_append, List.length_append, length_pack]
  rfl

theorem take_preamble {rest : Bytes} : (preamble header ++ rest).take 8 = magic := by
  rw [preamble, List.append_assoc, List.append_assoc]
  exact List.take_left' rfl

theorem drop_preamble (header rest : Bytes) :
    (preamble header ++ rest).drop 8 = pack header.length ++ (header ++ rest) := by
  rw [preamble, List.append_assoc, List.append_assoc]
  exact List.drop_left' rfl

/-- A file is taken apart into its header and its records. -/
theorem splitHeader_preamble {rest : Bytes} (hpos : 0 < header.length)
    (hle : header.length ≤ 4096) : splitHeader (preamble header ++ rest) = some (header, rest) := by
  have hunpack := unpack_pack (n := header.length) (by omega)
  have hraw : (pack header.length ++ (header ++ rest)).take 4 = pack header.length :=
    List.take_left' (length_pack _)
  have hdrop : (preamble header ++ rest).drop 12 = header ++ rest := by
    have hdrop8 := congrArg (List.drop 4) (drop_preamble header rest)
    rw [List.drop_drop, List.drop_left' (length_pack _)] at hdrop8
    exact hdrop8
  simp only [splitHeader, take_preamble, drop_preamble, hraw, hunpack, hdrop, List.take_left,
    List.drop_left, length_pack, hpos, hle, and_self, if_true]

/-- What is left of a file that ends in its preamble. -/
theorem splitHeader_cut {n : Nat} (hn : n < (preamble header).length) (hle : header.length ≤ 4096)
    {x : Bytes × Bytes} (h : splitHeader ((preamble header).take n) = some x) :
    ∃ k < header.length, x = (header.take k, []) := by
  rw [length_preamble] at hn
  rw [splitHeader] at h
  simp only [Option.ite_none_right_eq_some, Option.some.injEq] at h
  obtain ⟨⟨-, hraw, -, -⟩, rfl⟩ := h
  have hlen : 12 ≤ n := by
    rw [List.length_take, List.length_drop, List.length_take] at hraw
    omega
  have hself : preamble header = preamble header ++ [] := (List.append_nil _).symm
  have hdrop8 : (preamble header).drop 8 = pack header.length ++ header := by
    rw [hself, drop_preamble, List.append_nil]
  have hdrop : ((preamble header).take n).drop 12 = header.take (n - 12) := by
    have hdrop12 : (preamble header).drop 12 = header := by
      have h4 := congrArg (List.drop 4) hdrop8
      rw [List.drop_drop, List.drop_left' (length_pack _)] at h4
      exact h4
    rw [List.drop_take, hdrop12]
  have htake : (((preamble header).take n).drop 8).take 4 = pack header.length := by
    rw [List.drop_take, hdrop8, List.take_take, Nat.min_eq_left (by omega)]
    exact List.take_left' (length_pack _)
  have hunpack := unpack_pack (n := header.length) (by omega)
  refine ⟨n - 12, by omega, ?_⟩
  rw [htake, hunpack, hdrop, List.take_take, Nat.min_eq_right (by omega)]
  rw [Prod.mk.injEq]
  refine ⟨rfl, List.drop_eq_nil_of_le ?_⟩
  rw [List.length_take]
  omega

/-! ## Reading -/

/-- The file of a container. -/
def fileOf (c : Ciphers) (key : Bytes) (block : BlockRef) (draw : Draw) (chunks : List Bytes) :
    Bytes :=
  preamble (headerOf c key block draw) ++ body c draw (headerOf c key block draw) 0 chunks

/-- What was written for a block: chunks that fit and are its content. -/
structure Written (c : Ciphers) (block : BlockRef) (chunks : List Bytes) : Prop where
  named : Named block
  fits : Fits 0 chunks
  size : chunks.flatten.length = block.sizeBytes.toNat
  digest : c.sha256 chunks.flatten = block.plaintextSha256

namespace Written

variable {key : Bytes} {keys : List Bytes} {block : BlockRef} {chunks : List Bytes}

theorem length_header (h : Written c block chunks) (key : Bytes) (draw : Draw) :
    0 < (headerOf c key block draw).length ∧
    (headerOf c key block draw).length ≤ 4096 := by
  obtain ⟨hpos, hle⟩ := @length_headerOf c draw key block h.named (h.digest ▸ c.length_sha256 _)
  exact ⟨hpos, hle.trans (by decide)⟩

/-- **A container is read back**, chunk by chunk. -/
theorem readFile (h : Written c block chunks) (hlen : ∀ k ∈ keys, k.length = 32) (hkey : key ∈ keys)
    (hmade : ∀ e ∈ sealed draw (headerOf c key block draw) 0 chunks, e ∈ made) :
    readFile c keys made block (fileOf c key block draw chunks) = (chunks, none) := by
  obtain ⟨hpos, hle⟩ := h.length_header key draw
  rw [Blocks.readFile, fileOf, splitHeader_preamble hpos hle]
  dsimp only
  rw [openHeader_own h.named hlen hkey]
  dsimp only
  rw [records_body h.fits hmade]
  exact if_pos ⟨h.size, h.digest⟩

end Written

/-- An empty prefix of non-empty chunks is as long as all of them only if it is all of them. -/
theorem prefix_eq {index : Nat} {read chunks : List Bytes} (hfits : Fits index chunks)
    (hpre : read <+: chunks) (hlen : read.flatten.length = chunks.flatten.length) :
    read = chunks := by
  obtain ⟨rest, rfl⟩ := hpre
  rw [List.flatten_append, List.length_append] at hlen
  cases rest with
  | nil => exact (List.append_nil read).symm
  | cons chunk rest =>
      have hpos : 0 < chunk.length := by
        clear hlen
        induction read generalizing index with
        | nil => exact hfits.1
        | cons x read ih => exact ih hfits.2.2.2
      rw [List.flatten_cons, List.length_append] at hlen
      omega

/-- A file that is not read to its end with the size of the block yields nothing. -/
theorem readFile_failed {keys : List Bytes} {block : BlockRef} {file : Bytes}
    (h : ∀ header body dek noncePrefix, splitHeader file = some (header, body) →
      openHeader c keys block header = some (dek, noncePrefix) →
        ∀ read, records c made dek noncePrefix header 0 body = (read, none) →
          read.flatten.length ≠ block.sizeBytes.toNat) :
    ∃ e, readFile c keys made block file = ([], some e) := by
  rw [readFile]
  split
  · exact ⟨_, rfl⟩
  · rename_i header body hsplit
    split
    · exact ⟨_, rfl⟩
    · rename_i dek noncePrefix hopen
      split
      rename_i data failed hrecords
      split
      · exact ⟨_, rfl⟩
      · have hsize := h header body dek noncePrefix hsplit hopen data hrecords
        rw [if_neg fun hchecks => hsize hchecks.1]
        exact ⟨_, rfl⟩

/-- A file that is made from a container, or that is another one. -/
inductive Tampered (c : Ciphers) (key : Bytes) (block : BlockRef) (draw : Draw)
    (chunks : List Bytes) : Bytes → Prop
  /-- The file is cut off. -/
  | cut {n : Nat} : n < (fileOf c key block draw chunks).length →
      Tampered c key block draw chunks ((fileOf c key block draw chunks).take n)
  /-- Other records stand behind the header: some are missing, are there twice, stand in another
  order, are replaced, or are followed by something. -/
  | records {rs : List Bytes} :
      preamble (headerOf c key block draw) ++ rs.flatten ≠ fileOf c key block draw chunks →
      Tampered c key block draw chunks (preamble (headerOf c key block draw) ++ rs.flatten)
  /-- It is the container of another block. -/
  | substituted {key' : Bytes} {other : BlockRef} {draw' : Draw} {chunks' : List Bytes} :
      Written c other chunks' → other ≠ block →
      Tampered c key block draw chunks (fileOf c key' other draw' chunks')

/-- **Nothing is yielded of a file that is made from a container.** -/
theorem readFile_tampered {key : Bytes} {keys : List Bytes} {block : BlockRef}
    {chunks : List Bytes} {file : Bytes} (h : Written c block chunks)
    (hlen : ∀ k ∈ keys, k.length = 32) (hkey : key.length = 32)
    (hown : Owned made draw (headerOf c key block draw) chunks)
    (ht : Tampered c key block draw chunks file) :
    ∃ e, readFile c keys made block file = ([], some e) := by
  obtain ⟨hpos, hle⟩ := h.length_header key draw
  -- Other bytes behind the header do not have the size of the block.
  have hbody : ∀ rest, rest ≠ body c draw (headerOf c key block draw) 0 chunks →
      ∃ e, readFile c keys made block (preamble (headerOf c key block draw) ++ rest) =
        ([], some e) := by
    intro rest hne
    refine readFile_failed fun header' body' dek noncePrefix hsplit hopen read hread hsize => ?_
    rw [splitHeader_preamble hpos hle, Option.some.injEq, Prod.mk.injEq] at hsplit
    obtain ⟨rfl, rfl⟩ := hsplit
    have hdraw := openHeader_some h.named hlen hkey hopen
    rw [Prod.mk.injEq] at hdraw
    obtain ⟨rfl, rfl⟩ := hdraw
    obtain ⟨hpre, hstream⟩ := records_owned h.fits hown hread
    have hall := prefix_eq h.fits hpre (hsize.trans h.size.symm)
    exact hne (hall ▸ hstream)
  cases ht with
  | @cut n hn =>
      by_cases hshort : n < (preamble (headerOf c key block draw)).length
      · refine readFile_failed fun header' body' dek noncePrefix hsplit hopen => ?_
        rw [fileOf, List.take_append_of_le_length (Nat.le_of_lt hshort)] at hsplit
        obtain ⟨k, hk, hx⟩ := splitHeader_cut hshort hle hsplit
        rw [Prod.mk.injEq] at hx
        rw [hx.1, openHeader_cut h.named hk] at hopen
        cases hopen
      · rw [fileOf, List.take_append, List.take_of_length_le (Nat.le_of_not_lt hshort)]
        refine hbody _ fun he => ?_
        have hlength := congrArg List.length he
        rw [fileOf, List.length_append] at hn
        rw [List.length_take] at hlength
        omega
  | @records rs hne =>
      refine hbody _ fun he => hne ?_
      rw [he, fileOf]
  | @substituted key' other draw' chunks' hother hne =>
      refine readFile_failed fun header' body' dek noncePrefix hsplit hopen => ?_
      obtain ⟨hpos', hle'⟩ := hother.length_header key' draw'
      rw [fileOf, splitHeader_preamble hpos' hle', Option.some.injEq, Prod.mk.injEq] at hsplit
      obtain ⟨rfl, rfl⟩ := hsplit
      rw [openHeader_other hother.named fun he => hne he.symm] at hopen
      cases hopen

/-! ## Stores -/

/-- A store with one more file. -/
def EncryptedBlockStore.withFile (s : EncryptedBlockStore) (block : BlockRef) (file : Bytes) :
    EncryptedBlockStore :=
  { s with files := Function.update s.files (block.fileId, block.blockVersionId) (some file) }

theorem withFile_file (s : EncryptedBlockStore) (block : BlockRef) (file : Bytes) :
    (s.withFile block file).files (block.fileId, block.blockVersionId) = some file := by
  simp [EncryptedBlockStore.withFile]

theorem withFile_key (s : EncryptedBlockStore) (block : BlockRef) (file : Bytes) :
    s.key ∈ (s.withFile block file).keys := List.mem_cons_self

/-- `put` writes a container. -/
theorem put_written (s : EncryptedBlockStore) (made : List Sealing) (draw : Draw)
    {block : BlockRef} {chunks : List Bytes} (h : Written c block chunks) (hfree : s.files (block.fileId, block.blockVersionId) = none) :
    put c s made block draw chunks = (.ok ((fileOf c s.key block draw chunks).length,
        c.sha256 (fileOf c s.key block draw chunks),
        s.withFile block (fileOf c s.key block draw chunks)),
      made ++ sealed draw (headerOf c s.key block draw) 0 chunks) := by
  have hloop : writeRecords c draw (headerOf c s.key block draw) block.sizeBytes.toNat 0 0 chunks =
      (.ok (), body c draw (headerOf c s.key block draw) 0 chunks,
        sealed draw (headerOf c s.key block draw) 0 chunks) :=
    writeRecords_ok h.fits (by rw [Nat.zero_add, h.size])
  rw [headerOf] at hloop
  rw [put, h.named.path]
  simp only [hloop, if_pos (And.intro h.size h.digest), if_pos hfree]
  rfl

/-- What `put` wrote, and where. -/
theorem put_ok {s t : EncryptedBlockStore} {block : BlockRef} {chunks : List Bytes} {n : Nat}
    {digest : Bytes} {made' : List Sealing}
    (h : put c s made block draw chunks = (.ok (n, digest, t), made')) :
    Written c block chunks ∧ s.files (block.fileId, block.blockVersionId) = none := by
  rw [put] at h
  split at h
  · cases h
  · rename_i target hpath
    obtain ⟨hnamed, rfl⟩ := path_ok hpath
    dsimp only at h
    split at h
    · cases h
    · rename_i hdone
      obtain ⟨hfits, -⟩ := writeRecords_done hdone
      split at h
      · rename_i hchecks
        split at h
        · rename_i hfree
          exact ⟨⟨hnamed, hfits, hchecks.1, hchecks.2⟩, hfree⟩
        · cases h
      · cases h

/-- Whatever becomes of it, `put` encrypts with the key that was drawn, and adds to what was
encrypted. -/
theorem put_made (c : Ciphers) (s : EncryptedBlockStore) (made : List Sealing) (block : BlockRef)
    (draw : Draw) (chunks : List Bytes) :
    made ⊆ (put c s made block draw chunks).2 ∧
      ∀ e ∈ (put c s made block draw chunks).2, e ∈ made ∨ e.key = draw.dek := by
  have hadded : ∀ {records : List Sealing}, (∀ e ∈ records, e.key = draw.dek) →
      made ⊆ made ++ records ∧ ∀ e ∈ made ++ records, e ∈ made ∨ e.key = draw.dek := fun h =>
    ⟨List.subset_append_left _ _, fun e he => (List.mem_append.mp he).imp id (h e)⟩
  rw [put]
  split
  · exact ⟨fun _ h => h, fun _ h => .inl h⟩
  · dsimp only
    split
    · exact hadded writeRecords_key
    · split
      · split
        · exact hadded writeRecords_key
        · exact hadded writeRecords_key
      · exact hadded writeRecords_key

/-- What stores do after a key was drawn: they write containers, and draw other keys. -/
inductive Puts (c : Ciphers) (dek : Bytes) : List Sealing → List Sealing → Prop
  | refl {made : List Sealing} : Puts c dek made made
  | next {made made' : List Sealing} {s : EncryptedBlockStore} {block : BlockRef} {draw : Draw}
      {chunks : List Bytes} : Puts c dek made made' → draw.dek ≠ dek →
      Puts c dek made (put c s made' block draw chunks).2

theorem Puts.owned {made' : List Sealing} {chunks : List Bytes} (h : Puts c draw.dek made made')
    (hown : Owned made draw header chunks) : made ⊆ made' ∧ Owned made' draw header chunks := by
  induction h with
  | refl => exact ⟨fun _ h => h, hown⟩
  | @next made' s block draw' chunks' _ hne ih =>
      obtain ⟨hsub, hkey⟩ := put_made c s made' block draw' chunks'
      refine ⟨fun e he => hsub (ih.1 he), fun e he hdek => ?_⟩
      rcases hkey e he with hold | hnew
      · exact ih.2 e hold hdek
      · exact absurd (hnew.symm.trans hdek) hne

/-- Pieces of a file as they are sent. -/
def Pieces (file : Bytes) (pieces : List Bytes) : Prop :=
  pieces.flatten = file ∧ ∀ piece ∈ pieces, 0 < piece.length ∧ piece.length ≤ chunkBytes

theorem acceptChunks_pieces {length total : Nat} {pieces : List Bytes}
    (h : ∀ piece ∈ pieces, 0 < piece.length ∧ piece.length ≤ chunkBytes)
    (hlen : total + pieces.flatten.length ≤ length) :
    acceptChunks length total pieces = true := by
  induction pieces generalizing total with
  | nil => rfl
  | cons piece pieces ih =>
      obtain ⟨hpos, hle⟩ := h piece List.mem_cons_self
      rw [List.flatten_cons, List.length_append] at hlen
      rw [acceptChunks, ih (fun x hx => h x (List.mem_cons_of_mem _ hx)) (by omega), Bool.and_true]
      exact decide_eq_true ⟨hpos, hle, by omega⟩

/-- What can be read can be imported. -/
theorem import_ok {s : EncryptedBlockStore} {block : BlockRef} {file : Bytes}
    {pieces chunks : List Bytes} (h : Named block) (hp : Pieces file pieces)
    (hfree : s.files (block.fileId, block.blockVersionId) = none)
    (hread : readFile c s.keys made block file = (chunks, none)) :
    importCiphertext c s made block pieces file.length (c.sha256 file) =
      .ok (s.withFile block file) := by
  obtain ⟨rfl, hpieces⟩ := hp
  rw [importCiphertext, h.path]
  change (if acceptChunks _ _ _ = true then _ else _) = _
  rw [if_pos (acceptChunks_pieces hpieces (by omega)), if_pos ⟨rfl, rfl⟩, hread]
  exact if_pos hfree

/-- What cannot be read is not imported. -/
theorem import_error {s : EncryptedBlockStore} {block : BlockRef} {pieces chunks : List Bytes}
    {length : Nat} {digest : Bytes} {e : Failure}
    (hread : readFile c s.keys made block pieces.flatten = (chunks, some e)) :
    ∃ e', importCiphertext c s made block pieces length digest = .error e' := by
  rw [importCiphertext]
  cases hpath : block.path with
  | error e' => exact ⟨e', rfl⟩
  | ok target =>
      change ∃ e', (if acceptChunks _ _ _ = true then _ else _) = _
      split
      · split
        · rw [hread]
          exact ⟨e, rfl⟩
        · exact ⟨_, rfl⟩
      · exact ⟨_, rfl⟩

/-- **The block container**.  A block that is split into chunks is written, if there is room for
its records.  Whatever other containers are written later, with other keys, a store that has the
key of the writer reads the file as these chunks, and imports it as it is; of a file that is made
from it, or that is the container of another block, no store yields a byte, and none imports
it. -/
theorem block_container (c : Ciphers) :
    (∀ s made block draw chunks, Written c block chunks →
      s.files (block.fileId, block.blockVersionId) = none →
        ∃ r, (put c s made block draw chunks).1 = .ok r) ∧
    ∀ s made block draw chunks n digest t made₁ made₂, (∀ e ∈ made, e.key ≠ draw.dek) →
      put c s made block draw chunks = (.ok (n, digest, t), made₁) → Puts c draw.dek made₁ made₂ →
        ∃ file, t.files (block.fileId, block.blockVersionId) = some file ∧
          n = file.length ∧ digest = c.sha256 file ∧
          (∀ u : EncryptedBlockStore, s.key ∈ u.keys →
            (u.files (block.fileId, block.blockVersionId) = some file →
              readVerified c u made₂ block = (chunks, none)) ∧
            (u.files (block.fileId, block.blockVersionId) = none → ∀ pieces, Pieces file pieces →
              importCiphertext c u made₂ block pieces n digest = .ok (u.withFile block file))) ∧
          ∀ (u : EncryptedBlockStore) file', Tampered c s.key block draw chunks file' →
            (u.files (block.fileId, block.blockVersionId) = some file' →
              ∃ e, readVerified c u made₂ block = ([], some e)) ∧
            ∀ pieces length digest', pieces.flatten = file' →
              ∃ e, importCiphertext c u made₂ block pieces length digest' = .error e := by
  constructor
  · intro s made block draw chunks h hfree
    rw [put_written s made draw h hfree]
    exact ⟨_, rfl⟩
  · intro s made block draw chunks n digest t made₁ made₂ hfresh hput hputs
    obtain ⟨h, hfree⟩ := put_ok hput
    rw [put_written s made draw h hfree, Prod.mk.injEq, Except.ok.injEq, Prod.mk.injEq, Prod.mk.injEq] at hput
    obtain ⟨⟨rfl, rfl, rfl⟩, rfl⟩ := hput
    have hown : Owned (made ++ sealed draw (headerOf c s.key block draw) 0 chunks) draw
        (headerOf c s.key block draw) chunks := fun e he hkey => by
      rcases List.mem_append.mp he with hold | hnew
      · exact absurd hkey (hfresh e hold)
      · exact hnew
    obtain ⟨hsub, hown₂⟩ := hputs.owned hown
    refine ⟨fileOf c s.key block draw chunks, withFile_file _ _ _, rfl, rfl, ?_, ?_⟩
    · intro u hkey
      have hread := h.readFile u.length_keys hkey fun e he => hsub (List.mem_append_right _ he)
      refine ⟨fun hfile => ?_, fun hnone pieces hp => import_ok h.named hp hnone hread⟩
      rw [readVerified, h.named.path]
      dsimp only
      rw [hfile]
      exact hread
    · intro u file' ht
      obtain ⟨e, hread⟩ := readFile_tampered h u.length_keys
        (s.length_keys _ List.mem_cons_self) hown₂ ht
      refine ⟨fun hfile => ⟨e, ?_⟩, ?_⟩
      · rw [readVerified, h.named.path]
        dsimp only
        rw [hfile]
        exact hread
      · rintro pieces length digest' rfl
        exact import_error hread

/-- Ciphers that hide nothing, but have the lengths of the real ones. -/
def Ciphers.small : Ciphers where
  sha256 bytes := (bytes ++ List.replicate 32 0).take 32
  encrypt _ _ _ plaintext := plaintext ++ List.replicate 16 0
  wrap _ dek := dek ++ List.replicate 8 0
  unwrap _ wrapped := some (wrapped.take (wrapped.length - 8))
  length_sha256 bytes := by
    rw [List.length_take, List.length_append, List.length_replicate]
    omega
  sha256_inj k k' hk hk' h := by
    rwa [List.take_left' hk, List.take_left' hk'] at h
  length_encrypt _ _ _ plaintext := by rw [List.length_append, List.length_replicate]
  encrypt_inj _ _ _ _ _ h := List.append_cancel_right h
  length_wrap _ dek := by rw [List.length_append, List.length_replicate]
  unwrap_wrap _ dek := by
    rw [List.length_append, List.length_replicate, Nat.add_sub_cancel, List.take_left' rfl]

/-- An identifier. -/
def smallUuid : Text := "0f8fad5b-d9cb-469f-a165-70867728950e".toList

/-- A block of four bytes. -/
def smallBlockRef : BlockRef := ⟨smallUuid, smallUuid, 0, 4, Ciphers.small.sha256 [1, 2, 3, 4]⟩

/-- A store without files. -/
def smallStore : EncryptedBlockStore where
  key := List.replicate 32 7
  readKeys := []
  length_keys := by decide
  files _ := none

/-- A key of zeros. -/
def smallDraw : Draw := ⟨List.replicate 32 0, List.replicate 8 0, rfl, rfl⟩

/-- A block is written in two chunks and read back; cut off before its header it is not. -/
theorem small_container : ∃ n digest t made file,
    put .small smallStore [] smallBlockRef smallDraw [[1, 2, 3], [4]] =
      (.ok (n, digest, t), made) ∧
    t.files (smallUuid, smallUuid) = some file ∧
    readVerified .small t made smallBlockRef = ([[1, 2, 3], [4]], none) ∧
    ∃ e, readVerified .small (t.withFile smallBlockRef (file.take 12)) made smallBlockRef =
      ([], some e) := by
  have h : Written .small smallBlockRef [[1, 2, 3], [4]] :=
    ⟨⟨by decide, by decide⟩, fits_iff (by decide +kernel) (by decide), rfl, rfl⟩
  have hput := put_written smallStore [] smallDraw h rfl
  obtain ⟨file, hfile, -, -, hread, htampered⟩ := (block_container .small).2 smallStore [] smallBlockRef
    smallDraw _ _ _ _ _ _ (fun e he => absurd he List.not_mem_nil) hput .refl
  have hkey := withFile_key smallStore smallBlockRef
    (fileOf .small smallStore.key smallBlockRef smallDraw [[1, 2, 3], [4]])
  refine ⟨_, _, _, _, file, hput, hfile, (hread _ hkey).1 hfile, ?_⟩
  have heq : file = fileOf .small smallStore.key smallBlockRef smallDraw [[1, 2, 3], [4]] :=
    Option.some.inj (hfile.symm.trans (withFile_file _ _ _))
  subst heq
  obtain ⟨hpos, -⟩ := h.length_header smallStore.key smallDraw
  refine (htampered _ _ (.cut (n := 12) ?_)).1 (withFile_file _ _ _)
  rw [fileOf, List.length_append, length_preamble]
  omega

end Dfsha.Blocks
