import Mathlib.Data.List.Basic

/-!
# The last operation of a history

A history is a list of entries, oldest first. Some entries are operations on the
object of interest. A statement about the last operation is settled entry by
entry, at the end where the history grows.
-/

namespace Histories

variable {C B : Type*}

/-- The last entry of the history that is an operation is the operation `b`. -/
def Last (op : C → B → Prop) (history : List C) (b : B) : Prop :=
  ∃ before entry after, history = before ++ entry :: after ∧ op entry b ∧
    ∀ later ∈ after, ∀ b', ¬ op later b'

variable {op : C → B → Prop} {history : List C} {entry : C} {b : B}

/-- An empty history has no last operation. -/
theorem not_last_nil : ¬ Last op [] b := by
  rintro ⟨before, entry, after, heq, _⟩
  simp at heq

/-- A new entry is the last operation, or is none and leaves the last operation as it was. -/
theorem last_append_iff : Last op (history ++ [entry]) b ↔
    op entry b ∨ (∀ b', ¬ op entry b') ∧ Last op history b := by
  constructor
  · rintro ⟨before, last, after, heq, hop, hafter⟩
    rcases List.eq_nil_or_concat after with rfl | ⟨after, newest, rfl⟩
    · obtain ⟨_, hlast⟩ := List.append_inj' heq rfl
      obtain rfl := List.singleton_inj.mp hlast
      exact .inl hop
    · have heq' : history ++ [entry] = (before ++ last :: after) ++ [newest] := by
        simpa using heq
      obtain ⟨hhistory, hnewest⟩ := List.append_inj' heq' rfl
      obtain rfl := List.singleton_inj.mp hnewest
      exact .inr ⟨hafter entry (by simp), before, last, after, hhistory, hop,
        fun later hlater => hafter later (by simp [hlater])⟩
  · rintro (hop | ⟨hnone, before, last, after, rfl, hop, hafter⟩)
    · exact ⟨history, entry, [], rfl, hop, by simp⟩
    · refine ⟨before, last, after ++ [entry], by simp, hop, ?_⟩
      intro later hlater
      rcases List.mem_append.mp hlater with hlater | hlater
      · exact hafter later hlater
      · rw [List.mem_singleton.mp hlater]
        exact hnone

/-- A condition that two opposite operations turn on and off, and that nothing else changes,
holds exactly when the last operation turned it on. -/
theorem iff_last_append {op : C → Bool → Prop} {now before : Prop}
    (hbefore : before ↔ Last op history true)
    (hnow : (op entry true ∧ now) ∨ (op entry false ∧ ¬ op entry true ∧ ¬ now) ∨
      (¬ op entry true ∧ ¬ op entry false ∧ (now ↔ before))) :
    now ↔ Last op (history ++ [entry]) true := by
  rw [last_append_iff]
  rcases hnow with ⟨hon, hnow⟩ | ⟨hoff, hon, hnow⟩ | ⟨hon, hoff, hsame⟩
  · exact iff_of_true hnow (.inl hon)
  · refine iff_of_false hnow ?_
    rintro (hon' | ⟨hnone, _⟩)
    · exact hon hon'
    · exact hnone false hoff
  · have hnone : ∀ b, ¬ op entry b := by
      intro b
      cases b with
      | true => exact hon
      | false => exact hoff
    rw [hsame, hbefore]
    constructor
    · intro hlast
      exact .inr ⟨hnone, hlast⟩
    · rintro (hop | ⟨_, hlast⟩)
      · exact absurd hop hon
      · exact hlast

end Histories
