import Dfsha.Lib.Segments

/-!
# Edits of a content

A content that may be there or not is emptied, replaced as a whole, overwritten in part, or removed.
What a sequence of edits makes of it is found edit by edit, and a place that no edit reaches keeps
what it has.

## Main definitions

* `Edit` — one change of a content.
* `amend` — what a sequence of edits makes of a content.
* `Edit.Spares` — an edit that does not reach a place.

## Main results

* `getElem?_amend` — a place that all edits spare keeps what it has.
* `amend_overwritten` — what was written is there as long as later edits spare it.
-/

namespace Dfsha

variable {α : Type}

/-- One change of a content. -/
inductive Edit (α : Type)
  | emptied
  | replaced (content : List α)
  | overwritten (offset : Nat) (delta : List α)
  | removed

namespace Edit

/-- What an edit makes of a content. -/
def apply : Edit α → Option (List α) → Option (List α)
  | .emptied, _ => some []
  | .replaced content, _ => some content
  | .overwritten offset delta, old => old.map fun l => overwrite l offset delta
  | .removed, _ => none

/-- An edit that leaves a place as it is. -/
def Spares (i : Nat) : Edit α → Prop
  | .overwritten offset delta => i < offset ∨ offset + delta.length ≤ i
  | _ => False

/-- A place that is spared is still there, with what it had. -/
theorem Spares.apply {e : Edit α} {i : Nat} {l : List α} (h : e.Spares i) (hi : i < l.length) :
    ∃ l', e.apply (some l) = some l' ∧ i < l'.length ∧ l'[i]? = l[i]? := by
  cases e with
  | overwritten offset delta =>
      refine ⟨overwrite l offset delta, rfl, ?_, ?_⟩
      · simp only [overwrite, List.length_append, List.length_take, List.length_drop]
        rcases h with h | h <;> omega
      · rcases h with h | h
        · rw [overwrite, List.append_assoc, List.getElem?_append_left
            (by rw [List.length_take]; omega), List.getElem?_take_of_lt h]
        · rw [getElem?_overwrite (by omega), if_pos (.inr h)]
  | _ => exact h.elim

end Edit

/-- What a sequence of edits makes of a content. -/
def amend (edits : List (Edit α)) (content : Option (List α)) : Option (List α) :=
  edits.foldl (fun old e => e.apply old) content

@[simp] theorem amend_nil (content : Option (List α)) : amend [] content = content := rfl

@[simp] theorem amend_append (l l' : List (Edit α)) (content : Option (List α)) :
    amend (l ++ l') content = amend l' (amend l content) := by
  simp [amend]

@[simp] theorem amend_cons (e : Edit α) (l : List (Edit α)) (content : Option (List α)) :
    amend (e :: l) content = amend l (e.apply content) := rfl

/-- **A place that all edits spare keeps what it has.** -/
theorem getElem?_amend {edits : List (Edit α)} {i : Nat} (h : ∀ e ∈ edits, e.Spares i) :
    ∀ {l : List α}, i < l.length → ∃ l', amend edits (some l) = some l' ∧ l'[i]? = l[i]? := by
  induction edits with
  | nil => exact fun _ => ⟨_, rfl, rfl⟩
  | cons e edits ih =>
      intro l hi
      obtain ⟨m, hm, hlt, heq⟩ := (h e List.mem_cons_self).apply hi
      obtain ⟨l', hl', hsame⟩ := ih (fun x hx => h x (List.mem_cons_of_mem _ hx)) hlt
      exact ⟨l', by rw [amend_cons, hm, hl'], hsame.trans heq⟩

/-- **What was written is there as long as later edits spare it.** -/
theorem amend_overwritten {edits : List (Edit α)} {offset i : Nat} {delta l : List α}
    (hle : offset ≤ l.length) (hi : i < delta.length)
    (h : ∀ e ∈ edits, e.Spares (offset + i)) :
    ∃ l', amend (.overwritten offset delta :: edits) (some l) = some l' ∧
      l'[offset + i]? = delta[i]? := by
  have hlt : offset + i < (overwrite l offset delta).length := by
    rw [length_overwrite hle]
    omega
  obtain ⟨l', hl', heq⟩ := getElem?_amend h hlt
  refine ⟨l', hl', heq.trans ?_⟩
  rw [getElem?_overwrite hle, if_neg (by omega)]
  congr 1
  omega

end Dfsha
