import MessagingApp.Library.DocumentStore
import Mathlib.Data.Option.Basic

/-!
# Writes laid over documents

A client shows its cached documents with its own unanswered writes laid over them.
A write whose precondition fails leaves its document as it is. What a series of
writes makes of one document depends only on the writes to it, so a view is read
path by path. Views of different kinds of values are compared by a map of values
that the dictionary entries respect.
-/

namespace DocumentStore

variable {P K V V' A T : Type*} [DecidableEq K]

/-! ## One document -/

/-- What a write makes of the document under its path. -/
def Write.onto (eval : A → Option V → V) (w : Write P K A) (old : Option (Fields K V)) :
    Option (Fields K V) :=
  ((w.base old).map (fun fields => assign eval fields w.data)).or old

/-- What stamped writes make of one document. The value an entry writes may depend on the stamp
of its write. -/
def replay (eval : T → A → Option V → V) (ws : List (T × Write P K A))
    (old : Option (Fields K V)) : Option (Fields K V) :=
  ws.foldl (fun old w => w.2.onto (eval w.1) old) old

section onto

variable {eval : A → Option V → V} {w : Write P K A} {d : Fields K V} {old : Option (Fields K V)}

/-- An overwrite leaves its dictionary. -/
theorem Write.onto_of_set (hmode : w.mode = .set) :
    w.onto eval old = some (assign eval (fun _ => none) w.data) := by
  simp [onto, base, hmode]

/-- A merge or an update of a document lays its dictionary over it. -/
theorem Write.onto_of_ne_set (hmode : w.mode ≠ .set) :
    w.onto eval (some d) = some (assign eval d w.data) := by
  simp [onto, base_of_ne_set hmode]

/-- A write deletes nothing. -/
theorem Write.isSome_onto_of_isSome (h : old.isSome) : (w.onto eval old).isSome := by
  simp [onto, h]

end onto

section replay

variable {eval : T → A → Option V → V} {ws ws' : List (T × Write P K A)}
  {old : Option (Fields K V)}

@[simp] theorem replay_nil : replay eval ([] : List (T × Write P K A)) old = old := rfl

theorem replay_cons (w : T × Write P K A) :
    replay eval (w :: ws) old = replay eval ws (w.2.onto (eval w.1) old) := rfl

theorem replay_append : replay eval (ws ++ ws') old = replay eval ws' (replay eval ws old) :=
  List.foldl_append

theorem replay_concat (w : T × Write P K A) :
    replay eval (ws ++ [w]) old = w.2.onto (eval w.1) (replay eval ws old) := replay_append

/-- Writes delete nothing. -/
theorem isSome_replay (h : old.isSome) : (replay eval ws old).isSome := by
  induction ws generalizing old with
  | nil => exact h
  | cons w ws ih => exact ih (Write.isSome_onto_of_isSome h)

/-- Only writes make documents. -/
theorem ne_nil_of_isSome_replay (h : (replay eval ws none).isSome) : ws ≠ [] := by
  rintro rfl
  cases h

/-- Copies of one overwrite leave its dictionary. -/
theorem replay_of_forall_eq {w : Write P K A} (hmode : w.mode = .set) (hne : ws ≠ [])
    (h : ∀ x ∈ ws, x.2 = w) :
    ∃ t, replay eval ws old = some (assign (eval t) (fun _ => none) w.data) := by
  obtain ⟨ws', x, rfl⟩ := (List.eq_nil_or_concat' ws).resolve_left hne
  have hx : x.2 = w := h x (by simp)
  refine ⟨x.1, ?_⟩
  rw [replay_concat, Write.onto_of_set (by rw [hx, hmode]), hx]

end replay

/-! ## Maps of values -/

/-- Apply a function to every value of a document. -/
def mapFields (f : V → V') (d : Fields K V) : Fields K V' := fun k => (d k).map f

section maps

variable {f : V → V'}

/-- A dictionary laid over a document commutes with a map of values that its entries respect. -/
theorem mapFields_assign {eval : A → Option V → V} {eval' : A → Option V' → V'}
    (heval : ∀ a old, f (eval a old) = eval' a (old.map f)) (d : Fields K V)
    (data : List (K × A)) :
    mapFields f (assign eval d data) = assign eval' (mapFields f d) data := by
  induction data generalizing d with
  | nil => rfl
  | cons entry data ih =>
    rw [show entry = (entry.1, entry.2) from rfl, assign_cons, assign_cons, ih]
    congr 1
    funext k
    by_cases hk : k = entry.1
    · subst hk
      simp [mapFields, heval]
    · simp [mapFields, hk]

/-- So does a write. -/
theorem Write.map_onto {eval : A → Option V → V} {eval' : A → Option V' → V'}
    (heval : ∀ a old, f (eval a old) = eval' a (old.map f)) (w : Write P K A)
    (old : Option (Fields K V)) :
    (w.onto eval old).map (mapFields f) = w.onto eval' (old.map (mapFields f)) := by
  have hassign : ∀ (d : Fields K V) (data : List (K × A)),
      mapFields f (assign eval d data) = assign eval' (mapFields f d) data :=
    mapFields_assign heval
  cases hm : w.mode <;> cases old <;> simp [onto, base, hm, hassign] <;> rfl

/-- And a series of writes. -/
theorem map_replay {eval : T → A → Option V → V} {eval' : T → A → Option V' → V'}
    (heval : ∀ t a old, f (eval t a old) = eval' t a (old.map f)) (ws : List (T × Write P K A))
    (old : Option (Fields K V)) :
    (replay eval ws old).map (mapFields f) = replay eval' ws (old.map (mapFields f)) := by
  induction ws generalizing old with
  | nil => rfl
  | cons w ws ih => rw [replay_cons, replay_cons, ih, Write.map_onto (heval w.1)]

end maps

/-! ## Stores -/

section stores

variable [DecidableEq P]

/-- Lay stamped writes over a store, one after the other. -/
def overlay (eval : T → A → Option V → V) (s : Store P K V) (ws : List (T × Write P K A)) :
    Store P K V :=
  ws.foldl (fun s w => (w.2.commit (eval w.1) s).getD s) s

/-- A write laid over a store changes the document under its path and no other. -/
theorem lookup_commit_getD (eval : A → Option V → V) (s : Store P K V) (w : Write P K A) (p : P) :
    ((w.commit eval s).getD s).lookup p =
      if w.path = p then w.onto eval (s.lookup p) else s.lookup p := by
  by_cases hp : w.path = p
  · subst hp
    rw [if_pos rfl, Write.commit, Write.onto]
    cases w.base (s.lookup w.path) <;> simp
  · rw [if_neg hp, Write.commit]
    cases w.base (s.lookup w.path) with
    | none => rfl
    | some fields => exact AList.lookup_insert_ne (Ne.symm hp)

/-- A document of an overlay is what the writes to it make of the stored one. -/
theorem lookup_overlay (eval : T → A → Option V → V) (s : Store P K V)
    (ws : List (T × Write P K A)) (p : P) :
    (overlay eval s ws).lookup p =
      replay eval (ws.filter (fun w => w.2.path = p)) (s.lookup p) := by
  induction ws generalizing s with
  | nil => rfl
  | cons w ws ih =>
    have hhead := lookup_commit_getD (eval w.1) s w.2 p
    rw [overlay, List.foldl_cons]
    refine (ih _).trans ?_
    rw [hhead]
    by_cases hp : w.2.path = p
    · rw [if_pos hp, List.filter_cons_of_pos (by simpa using hp), replay_cons]
    · rw [if_neg hp, List.filter_cons_of_neg (by simpa using hp)]

end stores

end DocumentStore
