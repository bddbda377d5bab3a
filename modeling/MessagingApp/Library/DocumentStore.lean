import Mathlib.Data.List.AList
import Mathlib.Logic.Function.Basic

/-!
# Document stores

A store maps paths to documents and a document maps field names to values. A
write names one document and carries a data dictionary; it overwrites the
document, merges into it, or updates a document that must exist. The value a
dictionary entry writes may depend on the value it replaces, which covers field
transforms. No operation deletes a document. Paths, field names, values and
dictionary entries are arbitrary types.
-/

namespace DocumentStore

variable {P K V A I : Type*}

/-- The fields of one document. -/
abbrev Fields (K V : Type*) := K → Option V

/-- A store holds at most one document under each path. -/
abbrev Store (P K V : Type*) := AList (fun _ : P => Fields K V)

/-- A document that is found is stored. -/
theorem mem_of_lookup [DecidableEq P] {s : Store P K V} {p : P} {d : Fields K V}
    (h : s.lookup p = some d) : p ∈ s := by
  rw [← AList.lookup_isSome, h]
  rfl

/-- A stored document is found. -/
theorem exists_lookup [DecidableEq P] {s : Store P K V} {p : P} (h : p ∈ s) :
    ∃ d, s.lookup p = some d :=
  Option.isSome_iff_exists.mp (AList.lookup_isSome.mpr h)

section assign

variable [DecidableEq K]

/-- Lay a data dictionary over existing fields. Entry `(k, a)` replaces the value
of `k` by `eval a` of the value it had. -/
def assign (eval : A → Option V → V) (fields : Fields K V) (data : List (K × A)) :
    Fields K V :=
  data.foldl (fun fs entry => Function.update fs entry.1 (some (eval entry.2 (fs entry.1)))) fields

theorem assign_cons (eval : A → Option V → V) (fields : Fields K V) (k : K) (a : A)
    (data : List (K × A)) :
    assign eval fields ((k, a) :: data) =
      assign eval (Function.update fields k (some (eval a (fields k)))) data := rfl

/-- A field the dictionary does not mention keeps its value. -/
theorem assign_of_not_mem (eval : A → Option V → V) {fields : Fields K V}
    {data : List (K × A)} {k : K} (hk : k ∉ data.map Prod.fst) :
    assign eval fields data k = fields k := by
  induction data generalizing fields with
  | nil => rfl
  | cons entry data ih =>
    rw [List.map_cons, List.mem_cons, not_or] at hk
    rw [assign_cons, ih hk.2, Function.update_of_ne hk.1]

end assign

/-- How a write treats the document it finds. -/
inductive Mode
  /-- Replace the document by the dictionary. -/
  | set
  /-- Keep the fields the dictionary does not mention; create a missing document. -/
  | merge
  /-- As `merge`, but the document must exist. -/
  | update
  deriving DecidableEq

/-- A write to one document. -/
structure Write (P K A : Type*) where
  path : P
  mode : Mode
  data : List (K × A)

namespace Write

/-- The fields the dictionary is laid over, or `none` when the precondition of the
write fails. -/
def base (w : Write P K A) (old : Option (Fields K V)) : Option (Fields K V) :=
  match w.mode with
  | .set => some (fun _ => none)
  | .merge => some (old.getD (fun _ => none))
  | .update => old

/-- An overwrite starts from no fields. -/
theorem base_of_set {w : Write P K A} (hmode : w.mode = .set) (old : Option (Fields K V)) :
    w.base old = some (fun _ => none) := by
  simp [base, hmode]

/-- A merge or an update of an existing document starts from its fields. -/
theorem base_of_ne_set {w : Write P K A} (hmode : w.mode ≠ .set) (old : Fields K V) :
    w.base (some old) = some old := by
  cases hm : w.mode with
  | set => exact absurd hm hmode
  | merge => simp [base, hm]
  | update => simp [base, hm]

/-- A write is laid over no fields or over those of the document it finds. -/
theorem empty_or_eq_of_base {w : Write P K A} {old : Option (Fields K V)} {fields : Fields K V}
    (h : w.base old = some fields) : fields = (fun _ => none) ∨ old = some fields := by
  unfold base at h
  split at h
  · exact .inl (Option.some.inj h).symm
  · cases old with
    | none => exact .inl (Option.some.inj h).symm
    | some old => exact .inr h
  · exact .inr h

variable [DecidableEq P] [DecidableEq K]

/-- Commit a write. A write whose precondition fails is refused. -/
def commit (eval : A → Option V → V) (w : Write P K A) (s : Store P K V) :
    Option (Store P K V) :=
  (w.base (s.lookup w.path)).map (fun fields => s.insert w.path (assign eval fields w.data))

variable {eval : A → Option V → V} {w : Write P K A} {s t : Store P K V}

/-- What a commit does: the dictionary is laid over the base, and nothing else changes. -/
theorem commit_eq_some_iff : w.commit eval s = some t ↔
    ∃ fields, w.base (s.lookup w.path) = some fields ∧
      s.insert w.path (assign eval fields w.data) = t := by
  simp [commit]

/-- Other documents are untouched by a commit. -/
theorem lookup_commit_of_ne (h : w.commit eval s = some t) {p : P} (hp : p ≠ w.path) :
    t.lookup p = s.lookup p := by
  obtain ⟨fields, _, rfl⟩ := commit_eq_some_iff.mp h
  exact AList.lookup_insert_ne hp

/-- The written document is the dictionary laid over the base. -/
theorem lookup_commit_self (h : w.commit eval s = some t) :
    ∃ fields, w.base (s.lookup w.path) = some fields ∧
      t.lookup w.path = some (assign eval fields w.data) := by
  obtain ⟨fields, hbase, rfl⟩ := commit_eq_some_iff.mp h
  exact ⟨fields, hbase, AList.lookup_insert _⟩

/-- Each document after a commit is determined by the same document before it. -/
theorem lookup_commit (h : w.commit eval s = some t) (p : P) :
    t.lookup p = if p = w.path then
      (w.base (s.lookup p)).map (fun fields => assign eval fields w.data) else s.lookup p := by
  split
  · obtain ⟨fields, hbase, hlookup⟩ := lookup_commit_self h
    rw [‹p = w.path›, hlookup, hbase, Option.map_some]
  · exact lookup_commit_of_ne h ‹_›

/-- A commit never deletes a document. -/
theorem mem_commit_of_mem (h : w.commit eval s = some t) {p : P} (hp : p ∈ s) : p ∈ t := by
  obtain ⟨fields, _, rfl⟩ := commit_eq_some_iff.mp h
  exact (AList.mem_insert _).mpr (Or.inr hp)

/-- The written document exists after the commit. -/
theorem path_mem_commit (h : w.commit eval s = some t) : w.path ∈ t := by
  obtain ⟨fields, _, rfl⟩ := commit_eq_some_iff.mp h
  exact (AList.mem_insert _).mpr (Or.inl rfl)

/-- A document found after a commit is the written one or was there before. -/
theorem mem_of_mem_commit (h : w.commit eval s = some t) {p : P} (hp : p ∈ t) :
    p = w.path ∨ p ∈ s := by
  obtain ⟨fields, _, rfl⟩ := commit_eq_some_iff.mp h
  exact (AList.mem_insert _).mp hp

end Write

/-- The documents whose path `select` recognises, with the identifier it gives them. -/
def collection (select : P → Option I) (s : Store P K V) : List (I × Fields K V) :=
  s.entries.filterMap (fun entry => (select entry.1).map (fun i => (i, entry.2)))

section collection

variable {select : P → Option I} {s : Store P K V}

/-- A collection lists the stored documents it selects and no others. -/
theorem mem_collection [DecidableEq P] {i : I} {d : Fields K V} :
    (i, d) ∈ collection select s ↔ ∃ p, select p = some i ∧ s.lookup p = some d := by
  simp only [collection, List.mem_filterMap, Option.map_eq_some_iff, Prod.mk.injEq]
  constructor
  · rintro ⟨⟨p, d'⟩, hmem, i', hsel, rfl, rfl⟩
    exact ⟨p, hsel, AList.mem_lookup_iff.mpr hmem⟩
  · rintro ⟨p, hsel, hlookup⟩
    exact ⟨⟨p, d⟩, AList.mem_lookup_iff.mp hlookup, i, hsel, rfl, rfl⟩

/-- No identifier is listed twice, provided a path is determined by its identifier. -/
theorem collection_ids_nodup
    (hinj : ∀ p q i, select p = some i → select q = some i → p = q) :
    ((collection select s).map Prod.fst).Nodup := by
  have hids : (collection select s).map Prod.fst = s.keys.filterMap select := by
    simp only [collection, AList.keys, List.keys, List.map_filterMap, List.filterMap_map]
    congr 1
    funext entry
    simp [Function.comp_def]
  rw [hids]
  exact s.keys_nodup.filterMap (fun p q i hp hq => hinj p q i hp hq)

end collection

end DocumentStore
