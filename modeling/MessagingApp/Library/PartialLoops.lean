import Mathlib.Data.List.Forall2

/-!
# Loops whose body may fail

`List.mapM` and `List.foldlM` over `Option` are loops that stop at the first
iteration without a result. These rules say when such a loop completes and what
it computes.
-/

namespace PartialLoops

variable {α β γ S : Type*}

/-- A mapping loop completes exactly with the list of its iterations' results. -/
theorem mapM_eq_some_iff {f : α → Option β} {xs : List α} {ys : List β} :
    xs.mapM f = some ys ↔ List.Forall₂ (fun x y => f x = some y) xs ys := by
  induction xs generalizing ys with
  | nil => simp [eq_comm]
  | cons x xs ih =>
    rw [List.mapM_cons, List.forall₂_cons_left_iff]
    constructor
    · intro h
      obtain ⟨y, hy, h⟩ := Option.bind_eq_some_iff.mp h
      obtain ⟨zs, hzs, h⟩ := Option.bind_eq_some_iff.mp h
      exact ⟨y, zs, hy, ih.mp hzs, (Option.some.inj h).symm⟩
    · rintro ⟨y, zs, hy, hzs, rfl⟩
      rw [hy, ih.mpr hzs]
      rfl

/-- A mapping loop whose iterations all have results completes. -/
theorem exists_mapM {f : α → Option β} {xs : List α} (h : ∀ x ∈ xs, ∃ y, f x = some y) :
    ∃ ys, xs.mapM f = some ys := by
  induction xs with
  | nil => exact ⟨[], rfl⟩
  | cons x xs ih =>
    obtain ⟨y, hy⟩ := h x List.mem_cons_self
    obtain ⟨ys, hys⟩ := ih (fun z hz => h z (List.mem_cons_of_mem x hz))
    exact ⟨y :: ys, mapM_eq_some_iff.mpr (.cons hy (mapM_eq_some_iff.mp hys))⟩

/-- A mapping loop with known results maps them. -/
theorem mapM_eq_map {f : α → Option β} {g : α → β} {xs : List α}
    (h : ∀ x ∈ xs, f x = some (g x)) : xs.mapM f = some (xs.map g) := by
  rw [mapM_eq_some_iff, List.forall₂_map_right_iff, List.forall₂_same]
  exact h

/-- A result of a completed mapping loop is the result of one of its iterations. -/
theorem mem_of_mapM {f : α → Option β} {xs : List α} {ys : List β} (h : xs.mapM f = some ys)
    {y : β} (hy : y ∈ ys) : ∃ x ∈ xs, f x = some y := by
  have hforall := mapM_eq_some_iff.mp h
  clear h
  induction hforall with
  | nil => cases hy
  | cons hhead _ ih =>
    rcases List.mem_cons.mp hy with rfl | hy
    · exact ⟨_, List.mem_cons_self, hhead⟩
    · obtain ⟨x, hx, hfx⟩ := ih hy
      exact ⟨x, List.mem_cons_of_mem _ hx, hfx⟩

/-- Every iteration of a completed mapping loop contributes its result. -/
theorem exists_of_mapM {f : α → Option β} {xs : List α} {ys : List β} (h : xs.mapM f = some ys)
    {x : α} (hx : x ∈ xs) : ∃ y ∈ ys, f x = some y := by
  have hforall := mapM_eq_some_iff.mp h
  clear h
  induction hforall with
  | nil => cases hx
  | cons hhead _ ih =>
    rcases List.mem_cons.mp hx with rfl | hx
    · exact ⟨_, List.mem_cons_self, hhead⟩
    · obtain ⟨y, hy, hfx⟩ := ih hx
      exact ⟨y, List.mem_cons_of_mem _ hy, hfx⟩

/-- What the results of a mapping loop have in common with its inputs, the two lists have in
common. -/
theorem map_eq_map_of_mapM {f : α → Option β} {g : β → γ} {k : α → γ} {xs : List α}
    {ys : List β} (h : xs.mapM f = some ys) (hgk : ∀ x y, f x = some y → g y = k x) :
    ys.map g = xs.map k := by
  have hforall := mapM_eq_some_iff.mp h
  clear h
  induction hforall with
  | nil => rfl
  | cons hhead _ ih => rw [List.map_cons, List.map_cons, ih, hgk _ _ hhead]

/-- The results of a mapping loop are ordered as its inputs are. -/
theorem pairwise_of_mapM {f : α → Option β} {R : α → α → Prop} {Q : β → β → Prop}
    {xs : List α} {ys : List β} (h : xs.mapM f = some ys) (hxs : xs.Pairwise R)
    (himp : ∀ x ∈ xs, ∀ x' ∈ xs, ∀ y y', f x = some y → f x' = some y' → R x x' → Q y y') :
    ys.Pairwise Q := by
  induction xs generalizing ys with
  | nil =>
    obtain rfl : [] = ys := Option.some.inj h
    exact .nil
  | cons x xs ih =>
    obtain ⟨y, zs, hy, hzs, rfl⟩ := List.forall₂_cons_left_iff.mp (mapM_eq_some_iff.mp h)
    have hzs := mapM_eq_some_iff.mpr hzs
    obtain ⟨hhead, htail⟩ := List.pairwise_cons.mp hxs
    refine List.pairwise_cons.mpr ⟨?_, ih hzs htail fun x hx x' hx' =>
      himp x (List.mem_cons_of_mem _ hx) x' (List.mem_cons_of_mem _ hx')⟩
    intro z hz
    obtain ⟨x', hx', hz⟩ := mem_of_mapM hzs hz
    exact himp x List.mem_cons_self x' (List.mem_cons_of_mem _ hx') y z hy hz (hhead x' hx')

/-- An accumulating loop completes when every iteration keeps an invariant that lets the
next one run. -/
theorem exists_foldlM {f : S → α → Option S} {I : S → Prop} {xs : List α} {s : S} (hs : I s)
    (hstep : ∀ s, I s → ∀ x ∈ xs, ∃ t, f s x = some t ∧ I t) :
    ∃ t, xs.foldlM f s = some t ∧ I t := by
  induction xs generalizing s with
  | nil => exact ⟨s, rfl, hs⟩
  | cons x xs ih =>
    obtain ⟨t, ht, hI⟩ := hstep s hs x List.mem_cons_self
    obtain ⟨u, hu, hIu⟩ := ih hI (fun s hs y hy => hstep s hs y (List.mem_cons_of_mem x hy))
    exact ⟨u, by rw [List.foldlM_cons, ht]; exact hu, hIu⟩

/-- A filtering loop whose tests all have results filters by them. -/
theorem filterM_eq_filter {ι : Type} {f : ι → Option Bool} {g : ι → Bool} {xs : List ι}
    (h : ∀ x ∈ xs, f x = some (g x)) : xs.filterM f = some (xs.filter g) := by
  -- The loop collects what passes in reverse order behind `kept`.
  have hloop : ∀ kept : List ι, xs.filterAuxM f kept = some ((xs.filter g).reverse ++ kept) := by
    induction xs with
    | nil => exact fun kept => rfl
    | cons x xs ih =>
      intro kept
      have htail := ih (fun y hy => h y (List.mem_cons_of_mem x hy))
      rw [List.filterAuxM, h x List.mem_cons_self]
      cases hx : g x with
      | false => simpa [hx] using htail kept
      | true => simpa [hx] using htail (x :: kept)
  rw [List.filterM, hloop]
  simp

end PartialLoops
