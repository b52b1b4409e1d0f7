import Dfsha.Lib.Json
import Mathlib.Data.String.Basic

/-!
# JSON documents

Values of any depth as the bytes of a text, written without spaces, and read back.  A dictionary is
the list of its members by their keys, the order in which they are written.  Numbers are integers.

Every character that has to be escaped is; a reader takes what it understands from the front of
the text and leaves the rest.

## Main definitions

* `Json` — a value.
* `Json.dump`, `encode` — a value as text, and as bytes.
* `Json.load`, `loads` — the value that a text, or bytes, stand for.

## Main results

* `Json.load_dump`, `loads_encode` — a value is read back.
-/

namespace Dfsha

/-- A JSON value. -/
inductive Json
  | null
  | bool (b : Bool)
  | int (n : Int)
  | str (s : String)
  | arr (items : List Json)
  | obj (members : List (String × Json))
  deriving Repr

namespace Json

/-! ## Writing -/

/-- A character inside a string. -/
def escapeChar (c : Char) : List Char :=
  if c = '"' then ['\\', '"']
  else if c = '\\' then ['\\', '\\']
  else if c = '\n' then ['\\', 'n']
  else if c = '\r' then ['\\', 'r']
  else if c = '\t' then ['\\', 't']
  else if c = Char.ofNat 12 then ['\\', 'f']
  else if c = Char.ofNat 8 then ['\\', 'b']
  else if c.toNat < 32 then
    ['\\', 'u', '0', '0', Nat.digitChar (c.toNat / 16), Nat.digitChar (c.toNat % 16)]
  else [c]

/-- A string between quotes. -/
def dumpString (s : String) : List Char := '"' :: s.toList.flatMap escapeChar ++ ['"']

mutual

/-- `json.dumps`, without spaces. -/
def dump : Json → List Char
  | .null => ['n', 'u', 'l', 'l']
  | .bool true => ['t', 'r', 'u', 'e']
  | .bool false => ['f', 'a', 'l', 's', 'e']
  | .int (.ofNat n) => Nat.toDigits 10 n
  | .int (.negSucc n) => '-' :: Nat.toDigits 10 (n + 1)
  | .str s => dumpString s
  | .arr [] => ['[', ']']
  | .arr (v :: vs) => '[' :: dump v ++ dumpItems vs
  | .obj [] => ['\x7b', '\x7d']
  | .obj ((k, v) :: ms) => '\x7b' :: dumpString k ++ ':' :: dump v ++ dumpMembers ms

/-- Further items, and the end of the list. -/
def dumpItems : List Json → List Char
  | [] => [']']
  | v :: vs => ',' :: dump v ++ dumpItems vs

/-- Further members, and the end of the object. -/
def dumpMembers : List (String × Json) → List Char
  | [] => ['\x7d']
  | (k, v) :: ms => ',' :: dumpString k ++ ':' :: dump v ++ dumpMembers ms

end

/-! ## Reading -/

/-- The character that a letter stands for behind a backslash. -/
def unescape (c : Char) : Option Char :=
  if c = '"' ∨ c = '\\' ∨ c = '/' then some c
  else if c = 'n' then some '\n'
  else if c = 'r' then some '\r'
  else if c = 't' then some '\t'
  else if c = 'f' then some (Char.ofNat 12)
  else if c = 'b' then some (Char.ofNat 8)
  else none

/-- The value of a hexadecimal digit. -/
def hexValue (c : Char) : Nat :=
  if c.isDigit then c.toNat - 48 else c.toNat - 87

/-- Read a string up to its closing quote. -/
def readChars : List Char → Option (List Char × List Char)
  | [] => none
  | c :: t =>
      if c = '"' then some ([], t)
      else if c = '\\' then
        match t with
        | [] => none
        | e :: t =>
            if e = 'u' then
              match t with
              | a :: b :: x :: y :: t =>
                  (readChars t).map fun p => (Char.ofNat (4096 * hexValue a + 256 * hexValue b +
                    16 * hexValue x + hexValue y) :: p.1, p.2)
              | _ => none
            else (unescape e).bind fun d => (readChars t).map fun p => (d :: p.1, p.2)
      else if c.toNat < 32 then none
      else (readChars t).map fun p => (c :: p.1, p.2)

/-- Read a string. -/
def readString : List Char → Option (String × List Char)
  | [] => none
  | c :: t => if c = '"' then (readChars t).map fun p => (String.ofList p.1, p.2) else none

/-- Read a word. -/
def readWord (word : List Char) (v : Json) (t : List Char) : Option (Json × List Char) :=
  if word <+: t then some (v, t.drop word.length) else none

mutual

/-- Read a value. -/
def read : Nat → List Char → Option (Json × List Char)
  | 0, _ => none
  | _, [] => none
  | n + 1, c :: t =>
      if c = 'n' then readWord ['u', 'l', 'l'] .null t
      else if c = 't' then readWord ['r', 'u', 'e'] (.bool true) t
      else if c = 'f' then readWord ['a', 'l', 's', 'e'] (.bool false) t
      else if c = '-' then (readNumber t).map fun p => (.int (-(p.1 : Int)), p.2)
      else if c = '"' then (readString (c :: t)).map fun p => (.str p.1, p.2)
      else if c = '[' then
        if t.head? = some ']' then some (.arr [], t.tail)
        else do
          let (v, t) ← read n t
          let (vs, t) ← readItems n t
          some (.arr (v :: vs), t)
      else if c = '\x7b' then
        if t.head? = some '\x7d' then some (.obj [], t.tail)
        else do
          let (m, t) ← readMember n t
          let (ms, t) ← readMembers n t
          some (.obj (m :: ms), t)
      else (readNumber (c :: t)).map fun p => (.int p.1, p.2)

/-- Read further items. -/
def readItems : Nat → List Char → Option (List Json × List Char)
  | 0, _ => none
  | _, [] => none
  | n + 1, c :: t =>
      if c = ']' then some ([], t)
      else if c = ',' then do
        let (v, t) ← read n t
        let (vs, t) ← readItems n t
        some (v :: vs, t)
      else none

/-- Read a key and its value. -/
def readMember : Nat → List Char → Option ((String × Json) × List Char)
  | 0, _ => none
  | n + 1, t => do
      let (k, t) ← readString t
      if t.head? = some ':' then do
        let (v, t) ← read n t.tail
        some ((k, v), t)
      else none

/-- Read further members. -/
def readMembers : Nat → List Char → Option (List (String × Json) × List Char)
  | 0, _ => none
  | _, [] => none
  | n + 1, c :: t =>
      if c = '\x7d' then some ([], t)
      else if c = ',' then do
        let (m, t) ← readMember n t
        let (ms, t) ← readMembers n t
        some (m :: ms, t)
      else none

end

/-- `json.loads`, which here refuses spaces and numbers that are not integers. -/
def load (t : List Char) : Option Json :=
  match read (t.length + 1) t with
  | some (v, []) => some v
  | _ => none

/-! ## What is written is read -/

/-- The digits of a control character. -/
theorem hexValue_digit {n : Nat} (h : n < 16) : hexValue (Nat.digitChar n) = n := by
  revert n
  decide

theorem readChars_quote (t : List Char) : readChars ('"' :: t) = some ([], t) := by
  rw [readChars.eq_def]
  simp

theorem readChars_plain {c : Char} (hquote : c ≠ '"') (hbackslash : c ≠ '\\')
    (hcontrol : ¬ c.toNat < 32) (t : List Char) :
    readChars (c :: t) = (readChars t).map fun p => (c :: p.1, p.2) := by
  rw [readChars.eq_def]
  simp [hquote, hbackslash, hcontrol]

theorem readChars_backslash {e d : Char} (hu : e ≠ 'u') (h : unescape e = some d)
    (t : List Char) :
    readChars ('\\' :: e :: t) = (readChars t).map fun p => (d :: p.1, p.2) := by
  rw [readChars.eq_def]
  simp [hu, h]

theorem readChars_hex {a b x y c : Char} (h : 4096 * hexValue a + 256 * hexValue b +
    16 * hexValue x + hexValue y = c.toNat) (t : List Char) :
    readChars ('\\' :: 'u' :: a :: b :: x :: y :: t) =
      (readChars t).map fun p => (c :: p.1, p.2) := by
  rw [readChars.eq_def]
  simp [h]

theorem readChars_escape (c : Char) (t : List Char) :
    readChars (escapeChar c ++ t) = (readChars t).map fun p => (c :: p.1, p.2) := by
  by_cases hspecial : c = '"' ∨ c = '\\' ∨ c = '\n' ∨ c = '\r' ∨ c = '\t' ∨ c = Char.ofNat 12 ∨
      c = Char.ofNat 8
  · rcases hspecial with rfl | rfl | rfl | rfl | rfl | rfl | rfl <;>
      exact readChars_backslash (by decide) (by decide) t
  · simp only [not_or] at hspecial
    obtain ⟨hquote, hbackslash, hn, hr, ht, hf, hb⟩ := hspecial
    by_cases hcontrol : c.toNat < 32
    · have hhigh : hexValue (Nat.digitChar (c.toNat / 16)) = c.toNat / 16 :=
        hexValue_digit (by omega)
      have hlow : hexValue (Nat.digitChar (c.toNat % 16)) = c.toNat % 16 :=
        hexValue_digit (by omega)
      have hnat : 4096 * hexValue '0' + 256 * hexValue '0' +
          16 * hexValue (Nat.digitChar (c.toNat / 16)) +
          hexValue (Nat.digitChar (c.toNat % 16)) = c.toNat := by
        rw [hhigh, hlow, show hexValue '0' = 0 by decide]
        omega
      have hescape : escapeChar c = ['\\', 'u', '0', '0', Nat.digitChar (c.toNat / 16),
          Nat.digitChar (c.toNat % 16)] := by
        simp [escapeChar, hquote, hbackslash, hn, hr, ht, hf, hb, hcontrol]
      rw [hescape]
      exact readChars_hex hnat t
    · have hescape : escapeChar c = [c] := by
        simp [escapeChar, hquote, hbackslash, hn, hr, ht, hf, hb, hcontrol]
      rw [hescape]
      exact readChars_plain hquote hbackslash hcontrol t

theorem readString_dump (s : String) (t : List Char) :
    readString (dumpString s ++ t) = some (s, t) := by
  have hchars : ∀ cs : List Char, readChars (cs.flatMap escapeChar ++ '"' :: t) = some (cs, t) := by
    intro cs
    induction cs with
    | nil => exact readChars_quote t
    | cons c cs ih => rw [List.flatMap_cons, List.append_assoc, readChars_escape, ih]; rfl
  simp [dumpString, readString, hchars]

/-- The first character of a value. -/
theorem head_dump (v : Json) : ∃ c t, dump v = c :: t ∧ c ≠ ']' := by
  cases v with
  | null => exact ⟨_, _, rfl, by decide⟩
  | bool b => cases b <;> exact ⟨_, _, rfl, by decide⟩
  | int n =>
      cases n with
      | ofNat n =>
          obtain ⟨c, t, h⟩ := List.exists_cons_of_ne_nil (Nat.toDigits_ne_nil (b := 10) (n := n))
          refine ⟨c, t, h, ?_⟩
          rintro rfl
          exact absurd (Nat.isDigit_of_mem_toDigits (b := 10) (n := n) (by decide) (by decide)
            (h ▸ List.mem_cons_self)) (by decide)
      | negSucc n => exact ⟨_, _, rfl, by decide⟩
  | str s => exact ⟨_, _, rfl, by decide⟩
  | arr vs => cases vs <;> exact ⟨_, _, rfl, by decide⟩
  | obj ms => rcases ms with - | ⟨⟨k, v⟩, ms⟩ <;> exact ⟨_, _, rfl, by decide⟩

/-- What may stand behind a value. -/
def Ends (t : List Char) : Prop := ∀ c, t.head? = some c → c.isDigit = false

theorem ends_cons {c : Char} {t : List Char} (h : c.isDigit = false) : Ends (c :: t) := by
  intro d hd
  rw [List.head?_cons, Option.some.injEq] at hd
  exact hd ▸ h

theorem ends_items (vs : List Json) (t : List Char) : Ends (dumpItems vs ++ t) := by
  cases vs <;> exact ends_cons (by decide)

theorem ends_members (ms : List (String × Json)) (t : List Char) : Ends (dumpMembers ms ++ t) := by
  rcases ms with - | ⟨⟨k, v⟩, ms⟩ <;> exact ends_cons (by decide)

theorem read_arr {n : Nat} {t : List Char} (h : t.head? ≠ some ']') :
    read (n + 1) ('[' :: t) = (read n t).bind fun p =>
      (readItems n p.2).bind fun q => some (.arr (p.1 :: q.1), q.2) := by
  simp [read, h]

theorem read_obj {n : Nat} {t : List Char} (h : t.head? ≠ some '\x7d') :
    read (n + 1) ('\x7b' :: t) = (readMember n t).bind fun p =>
      (readMembers n p.2).bind fun q => some (.obj (p.1 :: q.1), q.2) := by
  simp [read, h]

theorem readMembers_cons {n : Nat} {t : List Char} :
    readMembers (n + 1) (',' :: t) = (readMember n t).bind fun p =>
      (readMembers n p.2).bind fun q => some (p.1 :: q.1, q.2) := by
  simp [readMembers]

/-- The first digit of a number is none of the characters by which the other values begin. -/
theorem read_digits {n m : Nat} {t : List Char} (ht : Ends t) :
    read (n + 1) (Nat.toDigits 10 m ++ t) = some (.int m, t) := by
  obtain ⟨c, r, h⟩ := List.exists_cons_of_ne_nil (Nat.toDigits_ne_nil (b := 10) (n := m))
  have hdigit : c.isDigit = true := Nat.isDigit_of_mem_toDigits (b := 10) (n := m) (by decide)
    (by decide) (h ▸ List.mem_cons_self)
  have hne : ∀ d : Char, d.isDigit = false → c ≠ d := by
    rintro d hd rfl
    exact absurd (hdigit.symm.trans hd) (by decide)
  have hread : readNumber (c :: (r ++ t)) = some (m, t) := by
    rw [← List.cons_append, ← h]
    exact readNumber_dump ht
  rw [h, List.cons_append, read, if_neg (hne _ (by decide)), if_neg (hne _ (by decide)),
    if_neg (hne _ (by decide)), if_neg (hne _ (by decide)), if_neg (hne _ (by decide)),
    if_neg (hne _ (by decide)), if_neg (hne _ (by decide)), hread]
  rfl

theorem readMember_dump {k : String} {v : Json} {n : Nat} {t : List Char}
    (hv : read n (dump v ++ t) = some (v, t)) :
    readMember (n + 1) (dumpString k ++ ':' :: dump v ++ t) = some ((k, v), t) := by
  rw [List.append_assoc, readMember, readString_dump]
  simp [hv]

mutual

theorem read_dump (v : Json) {n : Nat} {t : List Char} (hn : (dump v).length < n) (ht : Ends t) :
    read n (dump v ++ t) = some (v, t) := by
  obtain ⟨n, rfl⟩ : ∃ m, n = m + 1 := ⟨n - 1, by omega⟩
  match v with
  | .null => simp [dump, read, readWord]
  | .bool true => simp [dump, read, readWord]
  | .bool false => simp [dump, read, readWord]
  | .int (.ofNat m) => exact read_digits ht
  | .int (.negSucc m) => simp [dump, read, readNumber_dump ht, Int.negSucc_eq]
  | .str s =>
      have hread : readString ('"' :: (s.toList.flatMap escapeChar ++ '"' :: t)) = some (s, t) := by
        simpa [dumpString] using readString_dump s t
      simp [dump, dumpString, read, hread]
  | .arr [] => simp [dump, read]
  | .arr (w :: vs) =>
      simp only [dump, List.length_cons, List.length_append] at hn
      obtain ⟨c, r, hc, hbracket⟩ := head_dump w
      have hw := read_dump w (n := n) (by omega) (ends_items vs t)
      have hvs := readItems_dump vs (n := n) (t := t) (by omega)
      have hhead : (dump w ++ (dumpItems vs ++ t)).head? ≠ some ']' := by
        rw [hc]
        simpa using hbracket
      rw [dump, List.cons_append, List.cons_append, List.append_assoc, read_arr hhead, hw]
      simp [hvs]
  | .obj [] => simp [dump, read]
  | .obj ((k, w) :: ms) =>
      simp only [dump, List.length_cons, List.length_append] at hn
      obtain ⟨n, rfl⟩ : ∃ m, n = m + 1 := ⟨n - 1, by omega⟩
      have hm := readMember_dump (k := k) (read_dump w (n := n) (by omega) (ends_members ms t))
      have hms := readMembers_dump ms (n := n + 1) (t := t) (by omega)
      have htext : dump (.obj ((k, w) :: ms)) ++ t =
          '\x7b' :: (dumpString k ++ ':' :: dump w ++ (dumpMembers ms ++ t)) := by simp [dump]
      rw [htext, read_obj (by simp [dumpString]), hm]
      simp [hms]

theorem readItems_dump (vs : List Json) {n : Nat} {t : List Char}
    (hn : (dumpItems vs).length < n) :
    readItems n (dumpItems vs ++ t) = some (vs, t) := by
  obtain ⟨n, rfl⟩ : ∃ m, n = m + 1 := ⟨n - 1, by omega⟩
  match vs with
  | [] => simp [dumpItems, readItems]
  | v :: vs =>
      simp only [dumpItems, List.length_cons, List.length_append] at hn
      have hv := read_dump v (n := n) (by omega) (ends_items vs t)
      have hvs := readItems_dump vs (n := n) (t := t) (by omega)
      simp [dumpItems, readItems, hv, hvs]

theorem readMembers_dump (ms : List (String × Json)) {n : Nat} {t : List Char}
    (hn : (dumpMembers ms).length < n) :
    readMembers n (dumpMembers ms ++ t) = some (ms, t) := by
  obtain ⟨n, rfl⟩ : ∃ m, n = m + 1 := ⟨n - 1, by omega⟩
  match ms with
  | [] => simp [dumpMembers, readMembers]
  | (k, v) :: ms =>
      simp only [dumpMembers, List.length_cons, List.length_append] at hn
      obtain ⟨n, rfl⟩ : ∃ m, n = m + 1 := ⟨n - 1, by omega⟩
      have hm := readMember_dump (k := k) (read_dump v (n := n) (by omega) (ends_members ms t))
      have hms := readMembers_dump ms (n := n + 1) (t := t) (by omega)
      have htext : dumpMembers ((k, v) :: ms) ++ t =
          ',' :: (dumpString k ++ ':' :: dump v ++ (dumpMembers ms ++ t)) := by simp [dumpMembers]
      rw [htext, readMembers_cons, hm]
      simp [hms]

end

/-- **A value that was written is read back.** -/
theorem load_dump (v : Json) : load (dump v) = some v := by
  have h := read_dump v (n := (dump v).length + 1) (t := []) (by omega) (fun c hc => by cases hc)
  rw [List.append_nil] at h
  rw [load, h]

theorem dump_injective {v w : Json} (h : dump v = dump w) : v = w := by
  have hload : some v = some w := by rw [← load_dump v, h, load_dump]
  exact Option.some.inj hload

instance : DecidableEq Json := fun v w =>
  decidable_of_iff (dump v = dump w) ⟨dump_injective, congrArg dump⟩

end Json

/-! ## Bytes -/

/-- The bytes of a document. -/
def encode (v : Json) : List UInt8 := v.dump.flatMap String.utf8EncodeChar

/-- The document that bytes stand for. -/
def loads (bytes : List UInt8) : Option Json :=
  bytes.toByteArray.utf8Decode?.bind fun cs => Json.load cs.toList

/-- **A document is read back from its bytes.** -/
theorem loads_encode (v : Json) : loads (encode v) = some v := by
  have hbytes : (encode v).toByteArray = v.dump.utf8Encode := rfl
  rw [loads, hbytes, List.utf8Decode?_utf8Encode]
  exact Json.load_dump v

theorem encode_injective {v w : Json} (h : encode v = encode w) : v = w := by
  have hloads : some v = some w := by rw [← loads_encode v, h, loads_encode]
  exact Option.some.inj hloads

end Dfsha
