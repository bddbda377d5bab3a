import Mathlib.Data.List.Sort
import Mathlib.Order.Basic

/-!
# Lists ordered by a rank

An ordered query lists what it finds by decreasing rank. Such a list is determined
by its members, so two results are compared by comparing what they contain. A list
that is kept by moving each used entry to the front is ordered by the time of the
last use.
-/

namespace RankedLists

variable {α K : Type*} [Preorder K] {rank : α → K} {xs ys : List α}

/-- Every element ranks above all that follow it. -/
def Ranked (rank : α → K) (xs : List α) : Prop := xs.Pairwise (fun a b => rank b < rank a)

/-- A ranked list repeats nothing. -/
theorem Ranked.nodup (h : Ranked rank xs) : xs.Nodup := by
  refine List.Pairwise.imp ?_ h
  rintro a b hlt rfl
  exact lt_irrefl _ hlt

/-- A ranked list is determined by its members. -/
theorem Ranked.ext (hx : Ranked rank xs) (hy : Ranked rank ys) (h : ∀ a, a ∈ xs ↔ a ∈ ys) :
    xs = ys := by
  have hperm : xs.Perm ys := (List.perm_ext_iff_of_nodup hx.nodup hy.nodup).mpr h
  refine hperm.eq_of_pairwise ?_ hx hy
  intro a b _ _ hab hba
  exact absurd hab hba.not_gt

/-- What a ranked list selects from is ranked as well. -/
theorem Ranked.filter (hx : Ranked rank xs) (p : α → Bool) : Ranked rank (xs.filter p) :=
  List.Pairwise.filter p hx

/-- A ranked list whose members another ranked list selects is that selection. -/
theorem Ranked.eq_filter (hx : Ranked rank xs) (hy : Ranked rank ys) (p : α → Bool)
    (h : ∀ a, a ∈ xs ↔ a ∈ ys ∧ p a = true) : xs = ys.filter p :=
  hx.ext (hy.filter p) (fun a => (h a).trans List.mem_filter.symm)

/-- A ranked list of more elements contains the other one in the same order. -/
theorem Ranked.sublist (hx : Ranked rank xs) (hy : Ranked rank ys) (h : xs ⊆ ys) :
    xs.Sublist ys := by
  classical
  have hselect : xs = ys.filter (fun a => decide (a ∈ xs)) := by
    refine hx.eq_filter hy _ ?_
    intro a
    constructor
    · exact fun ha => ⟨h ha, decide_eq_true ha⟩
    · exact fun ha => of_decide_eq_true ha.2
  rw [hselect]
  exact List.filter_sublist

/-- Only the ranks of the elements matter. -/
theorem Ranked.congr {rank' : α → K} (hx : Ranked rank xs) (h : ∀ a ∈ xs, rank' a = rank a) :
    Ranked rank' xs := by
  refine List.Pairwise.imp_of_mem ?_ hx
  intro a b ha hb hlt
  rwa [h a ha, h b hb]

/-! ## Moving an entry to the front -/

variable [DecidableEq α]

/-- Use an entry: it comes first, and the others keep their order. -/
def toFront (a : α) (xs : List α) : List α := a :: xs.erase a

theorem mem_toFront {a b : α} : b ∈ toFront a xs ↔ b = a ∨ b ∈ xs := by
  by_cases hb : b = a
  · simp [toFront, hb]
  · simp [toFront, hb, List.mem_erase_of_ne hb]

/-- What is used now ranks first by the time of its last use. -/
theorem Ranked.toFront {a : α} {now : K} (hx : Ranked rank xs)
    (hnow : ∀ b ∈ xs, b ≠ a → rank b < now) :
    Ranked (Function.update rank a now) (toFront a xs) := by
  have hne : ∀ b ∈ xs.erase a, b ≠ a := fun b hb => (hx.nodup.mem_erase_iff.mp hb).1
  refine List.pairwise_cons.mpr ⟨?_, ?_⟩
  · intro b hb
    rw [Function.update_self, Function.update_of_ne (hne b hb)]
    exact hnow b (List.mem_of_mem_erase hb) (hne b hb)
  · have herase : Ranked rank (xs.erase a) := List.Pairwise.sublist List.erase_sublist hx
    exact herase.congr (fun b hb => Function.update_of_ne (hne b hb) _ _)

end RankedLists
