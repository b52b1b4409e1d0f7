import Mathlib

/-!
# Bytes and their notations

Numbers of four bytes, and the two ways in which bytes are written as text: hexadecimal digits
and base 64.

## Main definitions

* `pack`, `unpack` — a number below `2 ^ 32` as four bytes, the first one the highest.
* `hex` — two digits for each byte.
* `b64encode`, `b64decode` — four characters for three bytes, with `=` where bytes are missing.
* `ascii`, `ofAscii` — text of the lowest 128 characters, as bytes.
* `decimal` — a number in decimal digits.
* `joined` — texts with a separator in between.

## Main results

* `unpack_pack`, `hex_injective`, `b64decode_encode`, `ofAscii_ascii` — what is written is read
  back.
* `joined_injective` — the parts of a joined text are known, if the separator is in none of them.
-/

namespace Dfsha

/-! ## Numbers -/

/-- `struct.pack('>I', n)`. -/
def pack (n : Nat) : List UInt8 :=
  [UInt8.ofNat (n / 16777216), UInt8.ofNat (n / 65536), UInt8.ofNat (n / 256), UInt8.ofNat n]

/-- `struct.unpack('>I', raw)`. -/
def unpack (raw : List UInt8) : Nat := raw.foldl (fun n b => 256 * n + b.toNat) 0

@[simp] theorem length_pack (n : Nat) : (pack n).length = 4 := rfl

theorem unpack_pack {n : Nat} (h : n < 2 ^ 32) : unpack (pack n) = n := by
  simp only [unpack, pack, List.foldl_cons, List.foldl_nil, UInt8.toNat_ofNat']
  omega

theorem pack_inj {n m : Nat} (hn : n < 2 ^ 32) (hm : m < 2 ^ 32) (h : pack n = pack m) : n = m := by
  rw [← unpack_pack hn, ← unpack_pack hm, h]

theorem pack_unpack {raw : List UInt8} (h : raw.length = 4) : pack (unpack raw) = raw := by
  match raw, h with
  | [a, b, c, d], _ =>
      have ha := a.toNat_lt
      have hb := b.toNat_lt
      have hc := c.toNat_lt
      have hd := d.toNat_lt
      have key : ∀ (n : Nat) (x : UInt8), n % 256 = x.toNat → UInt8.ofNat n = x := by
        intro n x hx
        apply UInt8.toNat_inj.mp
        rw [UInt8.toNat_ofNat']
        exact hx
      simp only [unpack, List.foldl_cons, List.foldl_nil, pack]
      rw [key _ a (by omega), key _ b (by omega), key _ c (by omega), key _ d (by omega)]

/-! ## Hexadecimal digits -/

/-- The digits of a byte. -/
def hexPair (b : UInt8) : List Char := [Nat.digitChar (b.toNat / 16), Nat.digitChar (b.toNat % 16)]

/-- `bytes.hex()`. -/
def hex (bytes : List UInt8) : List Char := bytes.flatMap hexPair

@[simp] theorem length_hex (bytes : List UInt8) : (hex bytes).length = 2 * bytes.length := by
  induction bytes with
  | nil => rfl
  | cons b bytes ih =>
      have hcons : hex (b :: bytes) = hexPair b ++ hex bytes := rfl
      have hpair : (hexPair b).length = 2 := rfl
      rw [hcons, List.length_append, hpair, ih, List.length_cons]
      omega

theorem digitChar_inj {n m : Nat} (hn : n < 16) (hm : m < 16) (h : Nat.digitChar n = Nat.digitChar m) :
    n = m := by
  have hall : ∀ i j : Fin 16, Nat.digitChar i = Nat.digitChar j → i = j := by decide
  exact congrArg Fin.val (hall ⟨n, hn⟩ ⟨m, hm⟩ h)

/-- Different bytes are written differently. -/
theorem hex_injective {xs ys : List UInt8} (h : hex xs = hex ys) : xs = ys := by
  induction xs generalizing ys with
  | nil =>
      cases ys with
      | nil => rfl
      | cons y ys => cases h
  | cons x xs ih =>
      cases ys with
      | nil => cases h
      | cons y ys =>
          have hx := x.toNat_lt
          have hy := y.toNat_lt
          simp only [hex, List.flatMap_cons, hexPair, List.cons_append, List.nil_append,
            List.cons.injEq] at h
          obtain ⟨hhigh, hlow, hrest⟩ := h
          have h1 := digitChar_inj (by omega) (by omega) hhigh
          have h2 := digitChar_inj (by omega) (by omega) hlow
          have hxy : x = y := UInt8.toNat_inj.mp (by omega)
          rw [hxy, ih hrest]

/-! ## Base 64 -/

/-- The characters of base 64. -/
def b64chars : List Char :=
  "ABCDEFGHIJKLMNOPQRSTUVWXYZabcdefghijklmnopqrstuvwxyz0123456789+/".toList

/-- The character for a number below 64. -/
def b64char (n : Nat) : Char := b64chars.getD n '='

/-- The number that a character stands for. -/
def b64digit (c : Char) : Option Nat :=
  if c ∈ b64chars then some (b64chars.idxOf c) else none

theorem b64digit_char {n : Nat} (h : n < 64) : b64digit (b64char n) = some n := by
  have hall : ∀ i : Fin 64, b64digit (b64char i) = some i.val := by decide +kernel
  exact hall ⟨n, h⟩

theorem b64char_ne {n : Nat} (h : n < 64) : b64char n ≠ '=' := by
  have hall : ∀ i : Fin 64, b64char i ≠ '=' := by decide +kernel
  exact hall ⟨n, h⟩

/-- `base64.b64encode`. -/
def b64encode : List UInt8 → List Char
  | [] => []
  | [a] => [b64char (a.toNat / 4), b64char (a.toNat % 4 * 16), '=', '=']
  | [a, b] =>
      [b64char (a.toNat / 4), b64char (a.toNat % 4 * 16 + b.toNat / 16),
        b64char (b.toNat % 16 * 4), '=']
  | a :: b :: c :: rest =>
      b64char (a.toNat / 4) :: b64char (a.toNat % 4 * 16 + b.toNat / 16) ::
        b64char (b.toNat % 16 * 4 + c.toNat / 64) :: b64char (c.toNat % 64) :: b64encode rest

/-- `base64.b64decode`, which here refuses what `b64encode` does not write. -/
def b64decode : List Char → Option (List UInt8)
  | [] => some []
  | [w, x, '=', '='] => do
      let w ← b64digit w
      let x ← b64digit x
      some [UInt8.ofNat (w * 4 + x / 16)]
  | [w, x, y, '='] => do
      let w ← b64digit w
      let x ← b64digit x
      let y ← b64digit y
      some [UInt8.ofNat (w * 4 + x / 16), UInt8.ofNat (x % 16 * 16 + y / 4)]
  | w :: x :: y :: z :: rest => do
      let w ← b64digit w
      let x ← b64digit x
      let y ← b64digit y
      let z ← b64digit z
      let bytes ← b64decode rest
      some (UInt8.ofNat (w * 4 + x / 16) :: UInt8.ofNat (x % 16 * 16 + y / 4) ::
        UInt8.ofNat (y % 4 * 64 + z) :: bytes)
  | _ => none

@[simp] theorem length_b64encode (bytes : List UInt8) :
    (b64encode bytes).length = (bytes.length + 2) / 3 * 4 := by
  induction bytes using b64encode.induct with
  | case1 => rfl
  | case2 a => simp [b64encode]
  | case3 a b => simp [b64encode]
  | case4 a b c rest ih =>
      simp only [b64encode, List.length_cons, ih]
      omega

/-- A byte is put together from its pieces. -/
theorem ofNat_eq {n : Nat} {x : UInt8} (h : n = x.toNat) : UInt8.ofNat n = x := by
  apply UInt8.toNat_inj.mp
  rw [UInt8.toNat_ofNat', h]
  exact Nat.mod_eq_of_lt x.toNat_lt

/-- **What is written in base 64 is read back.** -/
theorem b64decode_encode (bytes : List UInt8) : b64decode (b64encode bytes) = some bytes := by
  induction bytes using b64encode.induct with
  | case1 => rfl
  | case2 a =>
      have ha := a.toNat_lt
      rw [b64encode, b64decode, b64digit_char (by omega), b64digit_char (by omega)]
      simp only [Option.bind_eq_bind, Option.bind_some, Option.some.injEq, List.cons.injEq, and_true]
      exact ofNat_eq (by omega)
  | case3 a b =>
      have ha := a.toNat_lt
      have hb := b.toNat_lt
      rw [b64encode, b64decode, b64digit_char (by omega), b64digit_char (by omega),
        b64digit_char (by omega)]
      · simp only [Option.bind_eq_bind, Option.bind_some, Option.some.injEq, List.cons.injEq,
          and_true]
        exact ⟨ofNat_eq (by omega), ofNat_eq (by omega)⟩
      · exact b64char_ne (by omega)
  | case4 a b c rest ih =>
      have ha := a.toNat_lt
      have hb := b.toNat_lt
      have hc := c.toNat_lt
      have hne := b64char_ne (n := c.toNat % 64) (by omega)
      rw [b64encode, b64decode, b64digit_char (by omega), b64digit_char (by omega),
        b64digit_char (by omega), b64digit_char (by omega), ih]
      · simp only [Option.bind_eq_bind, Option.bind_some, Option.some.injEq, List.cons.injEq,
          and_true]
        exact ⟨ofNat_eq (by omega), ofNat_eq (by omega), ofNat_eq (by omega)⟩
      · exact fun _ hz _ => hne hz
      · exact fun hz _ => hne hz

/-! ## Text as bytes -/

/-- `text.encode()`, for text of the lowest 128 characters. -/
def ascii (t : List Char) : List UInt8 := t.map fun c => UInt8.ofNat c.toNat

/-- The text that bytes stand for, none if a byte is not below 128. -/
def ofAscii (bytes : List UInt8) : Option (List Char) :=
  if bytes.all (fun b => b.toNat < 128) then some (bytes.map fun b => Char.ofNat b.toNat) else none

@[simp] theorem length_ascii (t : List Char) : (ascii t).length = t.length := List.length_map _

theorem ascii_append (s t : List Char) : ascii (s ++ t) = ascii s ++ ascii t := List.map_append

/-- What is written is read back. -/
theorem ofAscii_ascii {t : List Char} (h : t.all fun c => c.toNat < 128) :
    ofAscii (ascii t) = some t := by
  have hbyte : ∀ c ∈ t, (UInt8.ofNat c.toNat).toNat = c.toNat := by
    intro c hc
    have hlt := of_decide_eq_true (List.all_eq_true.mp h c hc)
    rw [UInt8.toNat_ofNat']
    omega
  have hall : ((ascii t).all fun b => b.toNat < 128) = true := by
    refine List.all_eq_true.mpr fun b hb => ?_
    obtain ⟨c, hc, rfl⟩ := List.mem_map.mp hb
    rw [hbyte c hc]
    exact List.all_eq_true.mp h c hc
  rw [ofAscii, if_pos hall, Option.some.injEq, ascii, List.map_map]
  refine (List.map_congr_left fun c hc => ?_).trans (List.map_id t)
  exact (congrArg Char.ofNat (hbyte c hc)).trans (Char.ofNat_toNat c)

/-! ## Joined texts -/

/-- `str(n)`. -/
def decimal (n : Nat) : List Char := Nat.toDigits 10 n

theorem not_mem_decimal {c : Char} (hc : c.isDigit = false) (n : Nat) : c ∉ decimal n := by
  intro h
  rw [Nat.isDigit_of_mem_toDigits (by decide) (by decide) h] at hc
  cases hc

theorem decimal_injective : Function.Injective decimal := by
  intro n m h
  have hread := congrArg (Nat.ofDigitChars 10 · 0) h
  simpa [decimal, Nat.ofDigitChars_ten_toDigits] using hread

/-- `separator.join(parts)`. -/
def joined (separator : Char) (parts : List (List Char)) : List Char :=
  [separator].intercalate parts

/-- **Parts without the separator are known from the joined text.** -/
theorem joined_injective {c : Char} {l l' : List (List Char)} (hl : ∀ t ∈ l, c ∉ t)
    (hl' : ∀ t ∈ l', c ∉ t) (hne : l ≠ []) (hne' : l' ≠ []) (h : joined c l = joined c l') :
    l = l' := by
  have hsplit := congrArg (List.splitOn c) h
  rwa [joined, joined, List.splitOn_intercalate c hl hne, List.splitOn_intercalate c hl' hne']
    at hsplit

/-- A joined text among the parts is as good as its own parts. -/
theorem joined_joined {c : Char} {l : List (List Char)} (hne : l ≠ [])
    (rest : List (List Char)) : joined c (joined c l :: rest) = joined c (l ++ rest) := by
  cases rest with
  | nil => simp [joined]
  | cons t rest =>
      unfold joined
      rw [List.intercalate_cons_cons]
      induction l with
      | nil => exact absurd rfl hne
      | cons u l ih =>
          cases l with
          | nil => simp
          | cons v l =>
              rw [List.intercalate_cons_cons, List.cons_append, List.cons_append,
                List.intercalate_cons_cons, ← List.cons_append, ← ih (List.cons_ne_nil v l)]
              simp [List.append_assoc]

theorem not_mem_joined {c d : Char} {l : List (List Char)} (hcd : c ≠ d)
    (hl : ∀ t ∈ l, c ∉ t) : c ∉ joined d l := by
  induction l with
  | nil => simp [joined]
  | cons t l ih =>
      cases l with
      | nil => simpa [joined] using hl
      | cons u l =>
          have hrest := ih fun x hx => hl x (List.mem_cons_of_mem t hx)
          unfold joined at hrest ⊢
          rw [List.intercalate_cons_cons]
          simp [hl t List.mem_cons_self, hcd, hrest]

end Dfsha
