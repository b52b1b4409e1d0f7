import Mathlib.Data.List.Basic
import Mathlib.Tactic.Common

/-!
# Flat objects in JSON

An object whose values are strings and natural numbers, as text and read back.  The strings are
plain: no character of them has to be escaped.

A reader takes what it understands from the front of the text and leaves the rest, so that every
reader has one rule: what was written in front of any text is read, and that text is left.

## Main definitions

* `JsonValue`, `dumpObject` — a value, and an object as text.
* `loadObject` — the object that a text stands for.
* `Plain` — the texts that are written as they are.

## Main results

* `loadObject_dump` — an object is read back.
* `loadObject_cut` — nothing that is cut off is an object.
-/

namespace Dfsha

/-- A value of a flat object. -/
inductive JsonValue
  | text (t : List Char)
  | number (n : Nat)
  deriving DecidableEq, Repr

/-- Text that is written as it is, without a brace. -/
structure Plain (t : List Char) : Prop where
  quote : '"' ∉ t
  backslash : '\\' ∉ t
  brace : '}' ∉ t

/-- A value that is written as it is. -/
def JsonValue.Plain : JsonValue → Prop
  | .text t => Dfsha.Plain t
  | .number _ => True

/-! ## Writing -/

/-- A string between quotes. -/
def dumpText (t : List Char) : List Char := '"' :: t ++ ['"']

/-- A value. -/
def dumpValue : JsonValue → List Char
  | .text t => dumpText t
  | .number n => Nat.toDigits 10 n

/-- A key and its value. -/
def dumpField (f : String × JsonValue) : List Char := dumpText f.1.toList ++ ':' :: dumpValue f.2

/-- Fields, with commas in between. -/
def dumpFields : List (String × JsonValue) → List Char
  | [] => []
  | [f] => dumpField f
  | f :: g :: fs => dumpField f ++ ',' :: dumpFields (g :: fs)

/-- `json.dumps`, without spaces. -/
def dumpObject (fs : List (String × JsonValue)) : List Char := '{' :: dumpFields fs ++ ['}']

/-! ## Reading -/

/-- Read a string; one with an escape is not read. -/
def readText : List Char → Option (List Char × List Char)
  | '"' :: t =>
      match t.dropWhile fun c => c ≠ '"' with
      | '"' :: rest =>
          let s := t.takeWhile fun c => c ≠ '"'
          if '\\' ∈ s then none else some (s, rest)
      | _ => none
  | _ => none

/-- Read a number; it has no leading zeros. -/
def readNumber (t : List Char) : Option (Nat × List Char) :=
  let ds := t.takeWhile Char.isDigit
  if ds = Nat.toDigits 10 (Nat.ofDigitChars 10 ds 0) then
    some (Nat.ofDigitChars 10 ds 0, t.dropWhile Char.isDigit)
  else none

/-- Read a value. -/
def readValue (t : List Char) : Option (JsonValue × List Char) :=
  if t.head? = some '"' then (readText t).map fun p => (.text p.1, p.2)
  else (readNumber t).map fun p => (.number p.1, p.2)

/-- Read a key and its value. -/
def readField (t : List Char) : Option ((String × JsonValue) × List Char) := do
  let (key, t) ← readText t
  match t with
  | ':' :: t => do
      let (value, t) ← readValue t
      some ((String.ofList key, value), t)
  | _ => none

/-- Read fields up to the closing brace. -/
def readFields : Nat → List Char → Option (List (String × JsonValue) × List Char)
  | 0, _ => none
  | n + 1, t => do
      let (f, t) ← readField t
      match t with
      | '}' :: t => some ([f], t)
      | ',' :: t => do
          let (fs, t) ← readFields n t
          some (f :: fs, t)
      | _ => none

/-- `json.loads`, which here refuses everything but flat objects with a field. -/
def loadObject : List Char → Option (List (String × JsonValue))
  | '{' :: t =>
      match readFields t.length t with
      | some (fs, []) => some fs
      | _ => none
  | _ => none

/-! ## What is written is read -/

theorem while_append {p : Char → Bool} {s r : List Char} (hs : s.all p) (hrest : ∀ c,
    r.head? = some c → p c = false) :
    (s ++ r).takeWhile p = s ∧ (s ++ r).dropWhile p = r := by
  have hdrop : r.takeWhile p = [] ∧ r.dropWhile p = r := by
    cases r with
    | nil => exact ⟨rfl, rfl⟩
    | cons c cs =>
        have hc : p c = false := hrest c rfl
        simp [hc]
  have hall : ∀ c ∈ s, p c = true := fun c hc => List.all_eq_true.mp hs c hc
  rw [List.takeWhile_append_of_pos hall, List.dropWhile_append_of_pos hall, hdrop.1, hdrop.2,
    List.append_nil]
  exact ⟨rfl, rfl⟩

theorem readText_dump {t rest : List Char} (h : Plain t) :
    readText (dumpText t ++ rest) = some (t, rest) := by
  obtain ⟨htake, hdrop⟩ := while_append (p := fun c => c ≠ '"') (s := t) (r := '"' :: rest)
    (List.all_eq_true.mpr fun c hc => decide_eq_true fun he => h.quote (he ▸ hc)) fun c hc => by
      rw [List.head?_cons, Option.some.injEq] at hc
      simp [← hc]
  have htext : dumpText t ++ rest = '"' :: (t ++ '"' :: rest) := by simp [dumpText]
  rw [htext, readText, hdrop, htake]
  exact if_neg h.backslash

theorem readNumber_dump {n : Nat} {rest : List Char} (hrest : ∀ c, rest.head? = some c →
    c.isDigit = false) : readNumber (Nat.toDigits 10 n ++ rest) = some (n, rest) := by
  obtain ⟨htake, hdrop⟩ := while_append (List.all_eq_true.mpr fun c hc =>
    Nat.isDigit_of_mem_toDigits (b := 10) (n := n) (by decide) (by decide) hc) hrest
  rw [readNumber, htake, hdrop]
  simp

theorem readValue_dump {v : JsonValue} {rest : List Char} (h : v.Plain)
    (hrest : ∀ c, rest.head? = some c → c.isDigit = false) :
    readValue (dumpValue v ++ rest) = some (v, rest) := by
  cases v with
  | text t =>
      have hhead : (dumpText t ++ rest).head? = some '"' := rfl
      rw [dumpValue, readValue, if_pos hhead, readText_dump h]
      rfl
  | number n =>
      have hhead : (Nat.toDigits 10 n ++ rest).head? ≠ some '"' := by
        intro hq
        rw [List.head?_append_of_ne_nil _ Nat.toDigits_ne_nil] at hq
        have hdigit := Nat.isDigit_of_mem_toDigits (by decide) (by decide) (List.mem_of_head? hq)
        exact absurd hdigit (by decide)
      rw [dumpValue, readValue, if_neg hhead, readNumber_dump hrest]
      rfl

theorem readField_dump {f : String × JsonValue} {rest : List Char} (hk : Plain f.1.toList)
    (hv : f.2.Plain) (hrest : ∀ c, rest.head? = some c → c.isDigit = false) :
    readField (dumpField f ++ rest) = some (f, rest) := by
  rw [dumpField, readField, List.append_assoc, readText_dump hk]
  simp only [Option.bind_eq_bind, Option.bind_some, List.cons_append]
  rw [readValue_dump hv hrest]
  simp only [Option.bind_some, String.ofList_toList]

/-- An object of plain texts with a field. -/
structure PlainObject (fs : List (String × JsonValue)) : Prop where
  nonempty : fs ≠ []
  keys : ∀ f ∈ fs, Plain f.1.toList
  values : ∀ f ∈ fs, f.2.Plain

theorem readFields_dump {fs : List (String × JsonValue)} {r : List Char} :
    ∀ {n : Nat}, fs.length ≤ n → fs ≠ [] → (∀ f ∈ fs, Plain f.1.toList ∧ f.2.Plain) →
      readFields n (dumpFields fs ++ '}' :: r) = some (fs, r) := by
  induction fs using dumpFields.induct with
  | case1 => exact fun _ hne _ => absurd rfl hne
  | case2 f =>
      intro n hn _ h
      obtain ⟨m, rfl⟩ := Nat.exists_eq_succ_of_ne_zero (Nat.ne_of_gt hn)
      obtain ⟨hk, hv⟩ := h f List.mem_cons_self
      rw [dumpFields, readFields, readField_dump hk hv fun c hc => by
        rw [List.head?_cons, Option.some.injEq] at hc
        subst hc
        decide]
      rfl
  | case3 f g fs ih =>
      intro n hn _ h
      obtain ⟨m, rfl⟩ := Nat.exists_eq_succ_of_ne_zero (Nat.ne_of_gt (Nat.lt_of_lt_of_le
        (Nat.succ_pos _) hn))
      obtain ⟨hk, hv⟩ := h f List.mem_cons_self
      rw [dumpFields, readFields, List.append_assoc, readField_dump hk hv fun c hc => by
        rw [List.cons_append, List.head?_cons, Option.some.injEq] at hc
        subst hc
        decide]
      have hrest := ih (n := m) (Nat.le_of_succ_le_succ hn) (List.cons_ne_nil _ _)
        fun x hx => h x (List.mem_cons_of_mem _ hx)
      simp only [Option.bind_eq_bind, Option.bind_some, List.cons_append, hrest]

/-- Every field is written with at least one character. -/
theorem length_dumpFields (fs : List (String × JsonValue)) :
    fs.length ≤ (dumpFields fs).length := by
  induction fs using dumpFields.induct with
  | case1 => exact Nat.le_refl _
  | case2 f =>
      simp only [dumpFields, dumpField, dumpText, List.length_append, List.length_cons,
        List.length_nil]
      omega
  | case3 f g fs ih =>
      simp only [dumpFields, List.length_append, List.length_cons] at ih ⊢
      omega

/-- **An object is read back.** -/
theorem loadObject_dump {fs : List (String × JsonValue)} (h : PlainObject fs) :
    loadObject (dumpObject fs) = some fs := by
  have hlen : fs.length ≤ (dumpFields fs ++ ['}']).length := by
    rw [List.length_append]
    exact Nat.le_trans (length_dumpFields fs) (Nat.le_add_right _ _)
  have hread := readFields_dump (r := []) hlen h.nonempty fun f hf => ⟨h.keys f hf, h.values f hf⟩
  rw [dumpObject, List.cons_append, loadObject, hread]

/-- The characters of an object: those of its texts, digits, and what stands in between. -/
theorem all_dumpObject {p : Char → Bool} {fs : List (String × JsonValue)}
    (hmarks : ['{', '}', '"', ':', ','].all p) (hdigits : ∀ c, c.isDigit = true → p c = true)
    (h : ∀ f ∈ fs, f.1.toList.all p ∧ ∀ t, f.2 = .text t → t.all p) : (dumpObject fs).all p := by
  simp only [List.all_cons, List.all_nil, Bool.and_true, Bool.and_eq_true] at hmarks
  obtain ⟨hopen, hclose, hquote, hcolon, hcomma⟩ := hmarks
  have htext : ∀ t : List Char, t.all p → (dumpText t).all p := by
    intro t ht
    simp [dumpText, hquote, ht]
  have hvalue : ∀ f ∈ fs, (dumpValue f.2).all p := by
    intro f hf
    cases hv : f.2 with
    | text t => exact htext t ((h f hf).2 t hv)
    | number n =>
        refine List.all_eq_true.mpr fun c hc => ?_
        exact hdigits c (Nat.isDigit_of_mem_toDigits (by decide) (by decide) hc)
  have hfield : ∀ f ∈ fs, (dumpField f).all p := by
    intro f hf
    have hkey := htext f.1.toList (h f hf).1
    have hval := hvalue f hf
    simp [dumpField, hkey, hcolon, hval]
  have hfields : (dumpFields fs).all p := by
    clear h hvalue
    induction fs using dumpFields.induct with
    | case1 => rfl
    | case2 f => exact hfield f List.mem_cons_self
    | case3 f g fs ih =>
        have hf := hfield f List.mem_cons_self
        have hrest := ih fun x hx => hfield x (List.mem_cons_of_mem _ hx)
        simp [dumpFields, hf, hcomma, hrest]
  simp [dumpObject, hopen, hfields, hclose]

/-! ## What is cut off -/

/-- A reader leaves an end of what it reads. -/
theorem readText_suffix {t s rest : List Char} (h : readText t = some (s, rest)) : rest <:+ t := by
  unfold readText at h
  split at h
  · rename_i t
    split at h
    · rename_i rest' hdrop
      simp only [Option.ite_none_left_eq_some, Option.some.injEq, Prod.mk.injEq] at h
      rw [← h.2.2]
      have hsuffix : '"' :: rest' <:+ t := hdrop ▸ List.dropWhile_suffix _
      exact ((List.suffix_cons _ _).trans hsuffix).trans (List.suffix_cons _ _)
    · cases h
  · cases h

theorem readValue_suffix {t rest : List Char} {v : JsonValue} (h : readValue t = some (v, rest)) :
    rest <:+ t := by
  unfold readValue at h
  split at h
  · obtain ⟨⟨s, r⟩, hs, hr⟩ := Option.map_eq_some_iff.mp h
    rw [Prod.mk.injEq] at hr
    exact hr.2 ▸ readText_suffix hs
  · obtain ⟨⟨n, r⟩, hn, hr⟩ := Option.map_eq_some_iff.mp h
    rw [Prod.mk.injEq] at hr
    unfold readNumber at hn
    simp only [Option.ite_none_right_eq_some, Option.some.injEq, Prod.mk.injEq] at hn
    rw [← hr.2, ← hn.2.2]
    exact List.dropWhile_suffix _

theorem readField_suffix {t rest : List Char} {f : String × JsonValue}
    (h : readField t = some (f, rest)) : rest <:+ t := by
  unfold readField at h
  obtain ⟨⟨key, u⟩, hkey, h⟩ := Option.bind_eq_some_iff.mp h
  dsimp only at h
  split at h
  · rename_i u
    obtain ⟨⟨value, u'⟩, hvalue, h⟩ := Option.bind_eq_some_iff.mp h
    rw [Option.some.injEq, Prod.mk.injEq] at h
    rw [← h.2]
    exact ((readValue_suffix hvalue).trans (List.suffix_cons _ _)).trans (readText_suffix hkey)
  · cases h

/-- What is read as fields has a closing brace. -/
theorem brace_of_readFields {n : Nat} : ∀ {t rest : List Char} {fs : List (String × JsonValue)},
    readFields n t = some (fs, rest) → '}' ∈ t := by
  induction n with
  | zero => exact fun h => (by cases h)
  | succ n ih =>
      intro t rest fs h
      unfold readFields at h
      obtain ⟨⟨f, u⟩, hf, h⟩ := Option.bind_eq_some_iff.mp h
      have hsuffix := readField_suffix hf
      dsimp only at h
      split at h
      · exact hsuffix.subset List.mem_cons_self
      · obtain ⟨⟨gs, u'⟩, hgs, -⟩ := Option.bind_eq_some_iff.mp h
        exact hsuffix.subset (List.mem_cons_of_mem _ (ih hgs))
      · cases h

theorem brace_of_loadObject {t : List Char} {fs : List (String × JsonValue)}
    (h : loadObject t = some fs) : '}' ∈ t := by
  unfold loadObject at h
  split at h
  · split at h
    · rename_i hread
      exact List.mem_cons_of_mem _ (brace_of_readFields hread)
    · cases h
  · cases h

theorem brace_dumpField {f : String × JsonValue} (hk : Plain f.1.toList) (hv : f.2.Plain) :
    '}' ∉ dumpField f := by
  have hvalue : '}' ∉ dumpValue f.2 := by
    cases hf : f.2 with
    | text t =>
        rw [hf] at hv
        have hbrace := Plain.brace hv
        simp [dumpValue, dumpText, hbrace]
    | number n =>
        intro hmem
        exact absurd (Nat.isDigit_of_mem_toDigits (by decide) (by decide) hmem) (by decide)
  have hkey := hk.brace
  simp [dumpField, dumpText, hvalue, hkey]

theorem brace_dumpFields {fs : List (String × JsonValue)}
    (h : ∀ f ∈ fs, Plain f.1.toList ∧ f.2.Plain) : '}' ∉ dumpFields fs := by
  induction fs using dumpFields.induct with
  | case1 => exact List.not_mem_nil
  | case2 f =>
      obtain ⟨hk, hv⟩ := h f List.mem_cons_self
      exact brace_dumpField hk hv
  | case3 f g fs ih =>
      obtain ⟨hk, hv⟩ := h f List.mem_cons_self
      have hrest := ih fun x hx => h x (List.mem_cons_of_mem _ hx)
      have hfield := brace_dumpField hk hv
      simp [dumpFields, hfield, hrest]

/-- **Nothing that is cut off is an object.** -/
theorem loadObject_cut {fs : List (String × JsonValue)} (h : PlainObject fs) {t rest : List Char}
    (ht : t ++ rest = dumpObject fs) (hrest : rest ≠ []) : loadObject t = none := by
  cases hload : loadObject t with
  | none => rfl
  | some gs =>
      have hbrace := brace_of_loadObject hload
      -- The only closing brace is the last character.
      have hlast : t ++ rest.dropLast = '{' :: dumpFields fs := by
        have hcut := congrArg List.dropLast ht
        rw [List.dropLast_append_of_ne_nil hrest, dumpObject, List.dropLast_concat] at hcut
        exact hcut
      have hmem : '}' ∈ '{' :: dumpFields fs := hlast ▸ List.mem_append_left _ hbrace
      rcases List.mem_cons.mp hmem with he | hmem
      · cases he
      · exact absurd hmem (brace_dumpFields fun f hf => ⟨h.keys f hf, h.values f hf⟩)

end Dfsha
