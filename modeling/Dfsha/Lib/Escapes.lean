import Dfsha.Lib.Document
import Dfsha.Lib.Encoding

/-!
# JSON documents in ASCII

A document whose characters are all of the lowest 128: the other ones are written as escapes, with
the four digits of a unit of UTF-16, or with two of them.

The escapes are undone before the document is read.  What stays of a backslash is what stands
behind it, so the backslash of an escape is told from one that is itself escaped.

## Main definitions

* `Json.asciiChar`, `dumps` — a character, and a document as bytes.
* `Json.expand`, `loadsAscii` — the text without these escapes, and the value of a document.

## Main results

* `loadsAscii_dumps` — a value is read back.
-/

namespace Dfsha

namespace Json

/-! ## Writing -/

/-- The escape of a unit. -/
def unitEscape (n : Nat) : List Char :=
  ['\\', 'u', Nat.digitChar (n / 4096), Nat.digitChar (n / 256 % 16), Nat.digitChar (n / 16 % 16),
    Nat.digitChar (n % 16)]

/-- A character, which is escaped if it is not printable ASCII. -/
def asciiChar (c : Char) : List Char :=
  if c.toNat < 127 then [c]
  else if c.toNat < 65536 then unitEscape c.toNat
  else unitEscape (55296 + (c.toNat - 65536) / 1024) ++
    unitEscape (56320 + (c.toNat - 65536) % 1024)

/-! ## Reading -/

/-- The value of a hexadecimal digit. -/
def hexDigit (c : Char) : Option Nat :=
  if c.isDigit = true then some (c.toNat - 48)
  else if 'a' ≤ c ∧ c ≤ 'f' then some (c.toNat - 87)
  else if 'A' ≤ c ∧ c ≤ 'F' then some (c.toNat - 55)
  else none

/-- The unit that is escaped at the front of a text. -/
def readUnit : List Char → Option Nat
  | s :: u :: a :: b :: x :: y :: _ =>
      if s = '\\' ∧ u = 'u' then do
        let a ← hexDigit a
        let b ← hexDigit b
        let x ← hexDigit x
        let y ← hexDigit y
        some (4096 * a + 256 * b + 16 * x + y)
      else none
  | _ => none

/-- The character above 126 that is escaped at the front of a text, and how many characters of the
text come after the first one of its escape. -/
def readEscape (t : List Char) : Option (Char × Nat) := do
  let high ← readUnit t
  if high < 127 then none
  else if 55296 ≤ high ∧ high < 56320 then do
    let low ← readUnit (t.drop 6)
    if 56320 ≤ low ∧ low < 57344 then
      some (Char.ofNat (65536 + (high - 55296) * 1024 + (low - 56320)), 11)
    else none
  else some (Char.ofNat high, 5)

/-- A text without the escapes of characters above 126: so many characters are left out, and then
one stands behind a backslash. -/
def expand : Nat → Bool → List Char → List Char
  | _, _, [] => []
  | k + 1, behind, _ :: t => expand k behind t
  | 0, true, c :: t => c :: expand 0 false t
  | 0, false, c :: t =>
      match readEscape (c :: t) with
      | some (d, k) => d :: expand k false t
      | none => c :: expand 0 (c == '\\') t

/-! ## What is written is read -/

theorem hexDigit_digit {n : Nat} (h : n < 16) : hexDigit (Nat.digitChar n) = some n := by
  revert n
  decide

theorem readUnit_escape {n : Nat} (h : n < 65536) (t : List Char) :
    readUnit (unitEscape n ++ t) = some n := by
  have h1 := hexDigit_digit (n := n / 4096) (by omega)
  have h2 := hexDigit_digit (n := n / 256 % 16) (by omega)
  have h3 := hexDigit_digit (n := n / 16 % 16) (by omega)
  have h4 := hexDigit_digit (n := n % 16) (by omega)
  simp only [unitEscape, List.cons_append, List.nil_append, readUnit, and_self, if_true, h1, h2,
    h3, h4, Option.bind_eq_bind, Option.bind_some, Option.some.injEq]
  omega

theorem readUnit_plain {c : Char} (h : c ≠ '\\') (t : List Char) : readUnit (c :: t) = none := by
  unfold readUnit
  split
  · rename_i heq
    rw [List.cons.injEq] at heq
    simp [← heq.1, h]
  · rfl

/-- What stands between the surrogates is no character. -/
theorem surrogate_free (c : Char) : ¬ (55296 ≤ c.toNat ∧ c.toNat < 57344) := by
  intro h
  rcases c.valid with hlow | hhigh
  · have hlt : c.toNat < 55296 := hlow
    omega
  · have hlt : 57343 < c.toNat := hhigh.1
    omega

theorem toNat_lt (c : Char) : c.toNat < 1114112 := by
  rcases c.valid with hlow | hhigh
  · have hlt : c.toNat < 55296 := hlow
    omega
  · exact hhigh.2

theorem readEscape_unit {n : Nat} {t : List Char} (h : readUnit t = some n) (hn : ¬ n < 127)
    (hhigh : ¬ (55296 ≤ n ∧ n < 56320)) : readEscape t = some (Char.ofNat n, 5) := by
  rw [readEscape, h]
  simp only [Option.bind_eq_bind, Option.bind_some, if_neg hn, if_neg hhigh]

theorem readEscape_pair {high low n : Nat} {t : List Char} (h : readUnit t = some high)
    (h' : readUnit (t.drop 6) = some low) (hhigh : 55296 ≤ high ∧ high < 56320)
    (hlow : 56320 ≤ low ∧ low < 57344)
    (hn : 65536 + (high - 55296) * 1024 + (low - 56320) = n) :
    readEscape t = some (Char.ofNat n, 11) := by
  have hsmall : ¬ high < 127 := by omega
  rw [readEscape, h]
  simp only [Option.bind_eq_bind, Option.bind_some, if_neg hsmall, if_pos hhigh, h', if_pos hlow,
    hn]

theorem readEscape_char {c : Char} (h : 127 ≤ c.toNat) (t : List Char) :
    readEscape (asciiChar c ++ t) = some (c, (asciiChar c).length - 1) := by
  have hsmall : ¬ c.toNat < 127 := by omega
  have hfree := surrogate_free c
  have hmax := toNat_lt c
  by_cases hunit : c.toNat < 65536
  · have hchar : asciiChar c = unitEscape c.toNat := by simp [asciiChar, hsmall, hunit]
    rw [hchar, readEscape_unit (readUnit_escape hunit t) hsmall (by omega), Char.ofNat_toNat]
    rfl
  · obtain ⟨high, hhigh⟩ : ∃ high, high = 55296 + (c.toNat - 65536) / 1024 := ⟨_, rfl⟩
    obtain ⟨low, hlow⟩ : ∃ low, low = 56320 + (c.toNat - 65536) % 1024 := ⟨_, rfl⟩
    have hchar : asciiChar c = unitEscape high ++ unitEscape low := by
      simp [asciiChar, hsmall, hunit, hhigh, hlow]
    have hdrop : (unitEscape high ++ (unitEscape low ++ t)).drop 6 = unitEscape low ++ t := rfl
    rw [hchar, List.append_assoc, readEscape_pair (n := c.toNat) (readUnit_escape (by omega) _)
      (hdrop ▸ readUnit_escape (by omega) t) (by omega) (by omega) (by omega), Char.ofNat_toNat]
    rfl

/-- What is left out. -/
theorem expand_skip (behind : Bool) (s t : List Char) :
    expand s.length behind (s ++ t) = expand 0 behind t := by
  induction s with
  | nil => rfl
  | cons c s ih => exact ih

/-- A text that is restored in front of any other one. -/
def Escaped (t : List Char) : Prop :=
  ∀ rest, expand 0 false (t.flatMap asciiChar ++ rest) = t ++ expand 0 false rest

theorem escaped_nil : Escaped [] := fun _ => rfl

theorem Escaped.append {s t : List Char} (hs : Escaped s) (ht : Escaped t) :
    Escaped (s ++ t) := by
  intro rest
  rw [List.flatMap_append, List.append_assoc, hs, ht, List.append_assoc]

theorem expand_plain {c : Char} (h : readEscape (c :: t) = none) :
    expand 0 false (c :: t) = c :: expand 0 (c == '\\') t := by
  rw [expand, h]

theorem escaped_char {c : Char} (h : c ≠ '\\') : Escaped [c] := by
  intro rest
  rw [List.flatMap_singleton]
  by_cases hsmall : c.toNat < 127
  · have hnone : readEscape (c :: rest) = none := by simp [readEscape, readUnit_plain h]
    rw [asciiChar, if_pos hsmall, List.singleton_append, expand_plain hnone,
      beq_eq_false_iff_ne.mpr h, List.singleton_append]
  · obtain ⟨t, ht⟩ : ∃ t, asciiChar c = '\\' :: t := by
      unfold asciiChar
      split
      · contradiction
      · split
        · exact ⟨_, rfl⟩
        · exact ⟨_, rfl⟩
    have hread := readEscape_char (Nat.not_lt.mp hsmall) rest
    rw [ht, List.cons_append, List.length_cons, Nat.add_sub_cancel] at hread
    rw [ht, List.cons_append, expand, hread]
    exact congrArg (c :: ·) (expand_skip false t rest)

theorem Escaped.cons {c : Char} {t : List Char} (ht : Escaped t) (h : c ≠ '\\') :
    Escaped (c :: t) := (escaped_char h).append ht

theorem escaped_plain {t : List Char} (h : '\\' ∉ t) : Escaped t := by
  induction t with
  | nil => exact escaped_nil
  | cons c t ih =>
      rw [List.mem_cons, not_or] at h
      exact (ih h.2).cons fun he => h.1 he.symm

/-- A backslash and what stands behind it stay. -/
theorem escaped_pair {e : Char} (hsmall : e.toNat < 127) (h : ∀ rest,
    readEscape ('\\' :: e :: rest) = none) : Escaped ['\\', e] := by
  intro rest
  have hflat : ['\\', e].flatMap asciiChar = ['\\', e] := by
    simp [asciiChar, hsmall]
  rw [hflat]
  change expand 0 false ('\\' :: e :: rest) = _
  rw [expand_plain (h rest)]
  rfl

theorem escaped_letter {e : Char} (hsmall : e.toNat < 127) (hu : e ≠ 'u') :
    Escaped ['\\', e] := by
  refine escaped_pair hsmall fun rest => ?_
  have hunit : readUnit ('\\' :: e :: rest) = none := by
    unfold readUnit
    split
    · rename_i heq
      simp only [List.cons.injEq] at heq
      simp [← heq.2.1, hu]
    · rfl
  simp [readEscape, hunit]

/-- The escape of a unit below 127 stays. -/
theorem escaped_unit {n : Nat} (h : n < 127) : Escaped (unitEscape n) := by
  have hdigit : ∀ d : Fin 16, Nat.digitChar d ≠ '\\' ∧ (Nat.digitChar d).toNat < 127 := by
    decide
  have h1 := hdigit ⟨n / 4096, by omega⟩
  have h2 := hdigit ⟨n / 256 % 16, by omega⟩
  have h3 := hdigit ⟨n / 16 % 16, by omega⟩
  have h4 := hdigit ⟨n % 16, by omega⟩
  let digits := [Nat.digitChar (n / 4096), Nat.digitChar (n / 256 % 16),
    Nat.digitChar (n / 16 % 16), Nat.digitChar (n % 16)]
  have hdigits : digits.flatMap asciiChar = digits := by
    simp [digits, asciiChar, h1.2, h2.2, h3.2, h4.2]
  have hflat : (unitEscape n).flatMap asciiChar = '\\' :: 'u' :: digits := by
    simp [digits, unitEscape, asciiChar, h1.2, h2.2, h3.2, h4.2]
  have hplain : Escaped digits := by
    refine escaped_plain ?_
    simp [digits, h1.1.symm, h2.1.symm, h3.1.symm, h4.1.symm]
  intro rest
  have hread : readEscape ('\\' :: 'u' :: (digits ++ rest)) = none := by
    have hunit := readUnit_escape (n := n) (by omega) rest
    change readUnit ('\\' :: 'u' :: (digits ++ rest)) = _ at hunit
    simp [readEscape, hunit, h]
  have hrest := hplain rest
  rw [hdigits] at hrest
  rw [hflat]
  change expand 0 false ('\\' :: 'u' :: (digits ++ rest)) = _
  rw [expand_plain hread]
  exact congrArg (fun t => '\\' :: 'u' :: t) hrest

/-- What is escaped in any document stays escaped. -/
theorem escaped_escapeChar (c : Char) : Escaped (escapeChar c) := by
  by_cases hspecial : c = '"' ∨ c = '\\' ∨ c = '\n' ∨ c = '\r' ∨ c = '\t' ∨ c = Char.ofNat 12 ∨
      c = Char.ofNat 8
  · rcases hspecial with rfl | rfl | rfl | rfl | rfl | rfl | rfl <;>
      exact escaped_letter (by decide) (by decide)
  · simp only [not_or] at hspecial
    obtain ⟨hquote, hbackslash, hn, hr, ht, hf, hb⟩ := hspecial
    by_cases hcontrol : c.toNat < 32
    · have hescape : escapeChar c = unitEscape c.toNat := by
        have h1 : c.toNat / 4096 = 0 := by omega
        have h2 : c.toNat / 256 % 16 = 0 := by omega
        have h3 : c.toNat / 16 % 16 = c.toNat / 16 := by omega
        simp [escapeChar, hquote, hbackslash, hn, hr, ht, hf, hb, hcontrol, unitEscape, h1, h2, h3]
      rw [hescape]
      exact escaped_unit (by omega)
    · have hescape : escapeChar c = [c] := by
        simp [escapeChar, hquote, hbackslash, hn, hr, ht, hf, hb, hcontrol]
      rw [hescape]
      exact escaped_char hbackslash

theorem escaped_dumpString (s : String) : Escaped (dumpString s) := by
  have hchars : Escaped (s.toList.flatMap escapeChar) := by
    induction s.toList with
    | nil => exact escaped_nil
    | cons c cs ih => exact (escaped_escapeChar c).append ih
  exact (hchars.cons (by decide)).append (escaped_char (by decide))

theorem escaped_digits (n : Nat) : Escaped (Nat.toDigits 10 n) := by
  refine escaped_plain fun h => ?_
  exact absurd (Nat.isDigit_of_mem_toDigits (by decide) (by decide) h) (by decide)

mutual

/-- **A document is restored** from its text in ASCII. -/
theorem escaped_dump (v : Json) : Escaped (dump v) := by
  match v with
  | .null => exact escaped_plain (by decide)
  | .bool true => exact escaped_plain (by decide)
  | .bool false => exact escaped_plain (by decide)
  | .int (.ofNat n) => exact escaped_digits n
  | .int (.negSucc n) => exact (escaped_digits (n + 1)).cons (by decide)
  | .str s => exact escaped_dumpString s
  | .arr [] => exact escaped_plain (by decide)
  | .arr (v :: vs) =>
      rw [dump]
      exact ((escaped_dump v).cons (by decide)).append (escaped_dumpItems vs)
  | .obj [] => exact escaped_plain (by decide)
  | .obj ((k, v) :: ms) =>
      rw [dump]
      exact (((escaped_dumpString k).cons (by decide)).append
        ((escaped_dump v).cons (by decide))).append (escaped_dumpMembers ms)

theorem escaped_dumpItems (vs : List Json) : Escaped (dumpItems vs) := by
  match vs with
  | [] => exact escaped_plain (by decide)
  | v :: vs =>
      rw [dumpItems]
      exact ((escaped_dump v).cons (by decide)).append (escaped_dumpItems vs)

theorem escaped_dumpMembers (ms : List (String × Json)) : Escaped (dumpMembers ms) := by
  match ms with
  | [] => exact escaped_plain (by decide)
  | (k, v) :: ms =>
      rw [dumpMembers]
      exact (((escaped_dumpString k).cons (by decide)).append
        ((escaped_dump v).cons (by decide))).append (escaped_dumpMembers ms)

end

/-- Every character is of the lowest 128. -/
theorem asciiChar_lt {c d : Char} (h : d ∈ asciiChar c) : d.toNat < 128 := by
  have hdigit : ∀ d : Fin 16, (Nat.digitChar d).toNat < 128 := by decide
  have hunit : ∀ n, n < 65536 → ∀ d ∈ unitEscape n, d.toNat < 128 := by
    intro n hn d hd
    simp only [unitEscape, List.mem_cons, List.not_mem_nil, or_false] at hd
    rcases hd with rfl | rfl | rfl | rfl | rfl | rfl
    · decide
    · decide
    · exact hdigit ⟨n / 4096, by omega⟩
    · exact hdigit ⟨n / 256 % 16, by omega⟩
    · exact hdigit ⟨n / 16 % 16, by omega⟩
    · exact hdigit ⟨n % 16, by omega⟩
  have hmax := toNat_lt c
  unfold asciiChar at h
  split at h
  · rename_i hsmall
    rw [List.mem_singleton.mp h]
    omega
  · split at h
    · rename_i hn
      exact hunit _ hn d h
    · rcases List.mem_append.mp h with h | h
      · exact hunit _ (by omega) d h
      · exact hunit _ (by omega) d h

end Json

/-- `json.dumps(value, separators=(',', ':')).encode()`. -/
def dumps (v : Json) : List UInt8 := ascii (v.dump.flatMap Json.asciiChar)

/-- `json.loads`, of bytes in ASCII. -/
def loadsAscii (bytes : List UInt8) : Option Json :=
  (ofAscii bytes).bind fun t => Json.load (Json.expand 0 false t)

/-- **A value is read back.** -/
theorem loadsAscii_dumps (v : Json) : loadsAscii (dumps v) = some v := by
  have hascii : (v.dump.flatMap Json.asciiChar).all fun c => c.toNat < 128 := by
    refine List.all_eq_true.mpr fun d hd => ?_
    obtain ⟨c, -, hc⟩ := List.mem_flatMap.mp hd
    exact decide_eq_true (Json.asciiChar_lt hc)
  have hexpand := Json.escaped_dump v []
  simp only [List.append_nil, Json.expand] at hexpand
  rw [loadsAscii, dumps, ofAscii_ascii hascii, Option.bind_some, hexpand, Json.load_dump]

end Dfsha
