import MessagingApp.Library.PartialLoops
import MessagingApp.Library.Runs

/-!
# Actions in any order

A list of partial actions is performed one after the other. Results are compared
up to a relation that forgets what does not matter. When any two of the actions
commute up to that relation, every order of the list gives related results.
-/

namespace Commutation

variable {S A : Type*}

/-- Actions that satisfy `ok` never fail on states that satisfy `I`, and do not tell apart
states that `r` relates. -/
structure Respects (f : S → A → Option S) (ok : A → Prop) (I : S → Prop) (r : S → S → Prop) :
    Prop where
  refl : ∀ s, r s s
  trans : ∀ {s t u}, r s t → r t u → r s u
  total : ∀ {s a}, I s → ok a → ∃ t, f s a = some t ∧ I t
  congr : ∀ {s s' t t' a}, r s s' → ok a → f s a = some t → f s' a = some t' → r t t'

/-- The two orders of two actions give related results. -/
def Commutes (f : S → A → Option S) (I : S → Prop) (r : S → S → Prop) (a b : A) : Prop :=
  ∀ s t t', I s → Runs.run f s [a, b] = some t → Runs.run f s [b, a] = some t' → r t t'

variable {f : S → A → Option S} {ok : A → Prop} {I : S → Prop} {r : S → S → Prop}

/-- An action commutes with itself. -/
theorem Commutes.self (h : Respects f ok I r) (a : A) : Commutes f I r a a := by
  intro s t t' _ ht ht'
  obtain rfl := Option.some.inj (ht.symm.trans ht')
  exact h.refl t

namespace Respects

/-- A list of actions never fails. -/
theorem total_run (h : Respects f ok I r) {s : S} {as : List A} (hs : I s)
    (hok : ∀ a ∈ as, ok a) : ∃ t, Runs.run f s as = some t ∧ I t :=
  PartialLoops.exists_foldlM hs fun _ hs a ha => h.total hs (hok a ha)

/-- A list of actions does not tell related states apart. -/
theorem congr_run (h : Respects f ok I r) {s s' t t' : S} {as : List A} (hr : r s s')
    (hs : I s) (hs' : I s') (hok : ∀ a ∈ as, ok a) (ht : Runs.run f s as = some t)
    (ht' : Runs.run f s' as = some t') : r t t' := by
  induction as generalizing s s' with
  | nil =>
    obtain rfl := Option.some.inj ht
    obtain rfl := Option.some.inj ht'
    exact hr
  | cons a as ih =>
    have ha := hok a List.mem_cons_self
    obtain ⟨u, hu, hI⟩ := h.total hs ha
    obtain ⟨u', hu', hI'⟩ := h.total hs' ha
    rw [Runs.run_cons, hu] at ht
    rw [Runs.run_cons, hu'] at ht'
    exact ih (h.congr hr ha hu hu') hI hI' (fun b hb => hok b (List.mem_cons_of_mem a hb)) ht ht'

/-- **Every order gives the same result.** Pairwise commuting actions can be permuted. -/
theorem run_perm (h : Respects f ok I r) {as bs : List A} (hperm : as.Perm bs)
    (hok : ∀ a ∈ as, ok a) (hcomm : ∀ a ∈ as, ∀ b ∈ as, Commutes f I r a b) {s t t' : S}
    (hs : I s) (ht : Runs.run f s as = some t) (ht' : Runs.run f s bs = some t') : r t t' := by
  induction hperm generalizing s t t' with
  | nil =>
    obtain rfl := Option.some.inj (ht.symm.trans ht')
    exact h.refl t
  | @cons a as bs _ ih =>
    obtain ⟨u, hu, hI⟩ := h.total hs (hok a List.mem_cons_self)
    rw [Runs.run_cons, hu] at ht ht'
    exact ih (fun b hb => hok b (List.mem_cons_of_mem a hb))
      (fun b hb d hd => hcomm b (List.mem_cons_of_mem a hb) d (List.mem_cons_of_mem a hd)) hI ht ht'
  | swap a b as =>
    -- Perform the two actions in both orders, then the rest from related states.
    have hmem : ∀ x ∈ [b, a], x ∈ b :: a :: as := by simp
    have hok' : ∀ x ∈ [a, b], ok x := by simpa using ⟨hok a (by simp), hok b (by simp)⟩
    obtain ⟨u, hu, hI⟩ := h.total_run hs fun x hx => hok x (hmem x hx)
    obtain ⟨u', hu', hI'⟩ := h.total_run hs hok'
    have hr : r u u' := hcomm b (by simp) a (by simp) s u u' hs hu hu'
    have ht : (Runs.run f s [b, a]).bind (fun v => Runs.run f v as) = some t := by
      rwa [← Runs.run_append]
    have ht' : (Runs.run f s [a, b]).bind (fun v => Runs.run f v as) = some t' := by
      rwa [← Runs.run_append]
    rw [hu, Option.bind_some] at ht
    rw [hu', Option.bind_some] at ht'
    exact h.congr_run hr hI hI' (fun x hx => hok x (by simp [hx])) ht ht'
  | @trans as bs cs hab _ ihab ihbc =>
    have hok' : ∀ b ∈ bs, ok b := fun b hb => hok b (hab.mem_iff.mpr hb)
    obtain ⟨u, hu, _⟩ := h.total_run hs hok'
    refine h.trans (ihab hok hcomm hs ht hu) (ihbc hok' ?_ hs hu ht')
    exact fun b hb d hd => hcomm b (hab.mem_iff.mpr hb) d (hab.mem_iff.mpr hd)

end Respects

end Commutation
