import MessagingApp.Library.Overlays
import Mathlib.Data.List.MinMax
import Mathlib.Order.Nat

/-!
# Local stores

A client keeps a cache of documents the server has sent, the writes it has issued
and the server's answers to them that it has not processed. It shows the cache
with its writes laid over it. Answers and documents travel on separate streams, so
either may overtake the other. A document is taken over unless the cache has a
later version of it, and an answered write is applied to the cache unless the
cache has its version already. This file defines the store and its operations, and
the parts of the server's log that a client knows of.
-/

namespace DocumentStore

variable {C L T P K V V' A : Type*}

/-- A committed write in the log of the server. -/
structure Entry (C T P K A : Type*) where
  version : ℕ
  author : C
  stamp : T
  write : Write P K A

/-- The stamped write of an entry. -/
def Entry.stamped (e : Entry C T P K A) : T × Write P K A := (e.stamp, e.write)

/-- A cached document. It is `none` when an update was committed of which the cache does not
know what it was applied to. -/
structure Cached (K V : Type*) where
  document : Option (Fields K V)
  version : ℕ
  hasCommittedMutations : Bool

/-- A write of the client, issued at a local time. -/
structure Batch (L P K A : Type*) where
  localWriteTime : L
  write : Write P K A

/-- The version and the stamp of a committed write, or `none` for a rejected one. -/
abbrev Answer (T : Type*) := Option (ℕ × T)

/-- A document on its way to the client. -/
structure Update (P K V : Type*) where
  path : P
  document : Fields K V
  version : ℕ

/-- What a client stores: the cache, its writes that the server has answered while the answer is
on its way, its other writes, and the documents on their way. -/
structure LocalStore (L T P K V A : Type*) where
  cache : AList (fun _ : P => Cached K V)
  answered : List (Batch L P K A × Answer T)
  waiting : List (Batch L P K A)
  updates : List (Update P K V)

/-- The entry of a store made of a cached document. -/
def shownEntry (f : V → V') (e : (_ : P) × Cached K V) : Option ((_ : P) × Fields K V') :=
  e.2.document.map (fun d => ⟨e.1, mapFields f d⟩)

/-- What a store shows of a cache repeats no path. -/
theorem nodupKeys_shownEntries (f : V → V') {entries : List ((_ : P) × Cached K V)}
    (h : entries.NodupKeys) : (entries.filterMap (shownEntry f)).NodupKeys := by
  have hkeys : (entries.filterMap (shownEntry f)).keys.Sublist entries.keys := by
    clear h
    induction entries with
    | nil => exact List.Sublist.slnil
    | cons e entries ih =>
      cases hd : e.2.document with
      | none => simpa [List.filterMap_cons, shownEntry, hd] using ih.cons e.1
      | some d => simpa [List.filterMap_cons, shownEntry, hd] using ih.cons_cons e.1
  exact List.Nodup.sublist hkeys h

/-- The documents of a cache, with a function applied to their values. -/
def documentsOf (f : V → V') (cache : AList (fun _ : P => Cached K V)) : Store P K V' :=
  ⟨cache.entries.filterMap (shownEntry f), nodupKeys_shownEntries f cache.nodupKeys⟩

/-- A cached document is found. -/
theorem lookup_documentsOf [DecidableEq P] (f : V → V')
    (cache : AList (fun _ : P => Cached K V)) (p : P) :
    (documentsOf f cache).lookup p =
      (cache.lookup p).bind (fun c => c.document.map (mapFields f)) := by
  refine Option.ext ?_
  intro d
  rw [Option.bind_eq_some_iff]
  constructor
  · intro h
    obtain ⟨e, he, hd⟩ := List.mem_filterMap.mp (AList.mem_lookup_iff.mp h)
    obtain ⟨d', hd', heq⟩ := Option.map_eq_some_iff.mp hd
    cases heq
    exact ⟨e.2, AList.mem_lookup_iff.mpr he, by rw [hd', Option.map_some]⟩
  · rintro ⟨c, hc, hd⟩
    obtain ⟨d', hd', rfl⟩ := Option.map_eq_some_iff.mp hd
    refine AList.mem_lookup_iff.mpr (List.mem_filterMap.mpr ⟨⟨p, c⟩, ?_, ?_⟩)
    · exact AList.mem_lookup_iff.mp hc
    · rw [shownEntry, hd', Option.map_some]

namespace LocalStore

/-- Nothing is cached and nothing under way. -/
def empty : LocalStore L T P K V A := ⟨∅, [], [], []⟩

/-- The unanswered writes and those whose answers are on their way, oldest first. -/
def batches (store : LocalStore L T P K V A) : List (Batch L P K A) :=
  store.answered.map Prod.fst ++ store.waiting

/-- The client issues writes. -/
def writeLocally (store : LocalStore L T P K V A) (bs : List (Batch L P K A)) :
    LocalStore L T P K V A :=
  { store with waiting := store.waiting ++ bs }

/-- The server answers the oldest unanswered write. -/
def answer (store : LocalStore L T P K V A) (a : Answer T) : LocalStore L T P K V A :=
  match store.waiting with
  | [] => store
  | b :: rest => { store with answered := store.answered ++ [(b, a)], waiting := rest }

/-- The server sends a document. -/
def send (store : LocalStore L T P K V A) (u : Update P K V) : LocalStore L T P K V A :=
  { store with updates := store.updates ++ [u] }

/-- Whether a document is taken over into the cache. -/
def accepts (u : Update P K V) : Option (Cached K V) → Bool
  | none => true
  | some old =>
    old.version < u.version || (u.version == old.version && old.hasCommittedMutations)

section operations

variable [DecidableEq P]

/-- The client processes the oldest document on its way. -/
def applyRemoteEvent (store : LocalStore L T P K V A) : Option (LocalStore L T P K V A) :=
  match store.updates with
  | [] => none
  | u :: rest =>
    some { store with
      updates := rest
      cache := if accepts u (store.cache.lookup u.path) then
          store.cache.insert u.path ⟨some u.document, u.version, false⟩
        else store.cache }

/-- A document from the server is the oldest on its way, and leaves the queue as it is. -/
theorem queue_applyRemoteEvent {store store' : LocalStore L T P K V A}
    (h : store.applyRemoteEvent = some store') :
    store'.answered = store.answered ∧ store'.waiting = store.waiting ∧
      ∃ u, store.updates = u :: store'.updates := by
  unfold applyRemoteEvent at h
  cases hupdates : store.updates with
  | nil => simp [hupdates] at h
  | cons u rest =>
    simp only [hupdates, Option.some.injEq] at h
    obtain rfl := h.symm
    exact ⟨rfl, rfl, u, rfl⟩

/-- A document on its way can be processed. -/
theorem exists_applyRemoteEvent {store : LocalStore L T P K V A} (h : store.updates ≠ []) :
    ∃ store', store.applyRemoteEvent = some store' := by
  obtain ⟨u, rest, hupdates⟩ := List.exists_cons_of_ne_nil h
  exact ⟨_, by rw [applyRemoteEvent, hupdates]⟩

variable [DecidableEq K]

/-- Apply a committed write to a cache that does not have its version yet. -/
def applyBatchResult (eval : A → Option V → V) (w : Write P K A) (version : ℕ)
    (cache : AList (fun _ : P => Cached K V)) : AList (fun _ : P => Cached K V) :=
  match cache.lookup w.path with
  | none => cache.insert w.path ⟨w.onto eval none, version, true⟩
  | some old =>
    if old.version < version then
      cache.insert w.path ⟨w.onto eval old.document, version, true⟩
    else cache

/-- The client processes the oldest answer on its way. -/
def acknowledgeBatch (eval : T → A → Option V → V) (store : LocalStore L T P K V A) :
    Option (LocalStore L T P K V A) :=
  match store.answered with
  | [] => none
  | (b, a) :: rest =>
    some { store with
      answered := rest
      cache := match a with
        | none => store.cache
        | some (version, stamp) => applyBatchResult (eval stamp) b.write version store.cache }

/-- What the client shows: its cache with its writes laid over it. -/
def localView (known : V → V') (localEval : L → A → Option V' → V')
    (store : LocalStore L T P K V A) : Store P K V' :=
  overlay localEval (documentsOf known store.cache)
    (store.batches.map fun b => (b.localWriteTime, b.write))

/-- A processed answer is the oldest on its way. -/
theorem queue_acknowledgeBatch {eval : T → A → Option V → V} {store store' : LocalStore L T P K V A}
    (h : store.acknowledgeBatch eval = some store') :
    store'.updates = store.updates ∧ store'.waiting = store.waiting ∧
      ∃ first, store.answered = first :: store'.answered := by
  unfold acknowledgeBatch at h
  cases hanswered : store.answered with
  | nil => simp [hanswered] at h
  | cons first rest =>
    simp only [hanswered, Option.some.injEq] at h
    obtain rfl := h.symm
    exact ⟨rfl, rfl, first, rfl⟩

/-- An answer on its way can be processed. -/
theorem exists_acknowledgeBatch (eval : T → A → Option V → V) {store : LocalStore L T P K V A}
    (h : store.answered ≠ []) : ∃ store', store.acknowledgeBatch eval = some store' := by
  obtain ⟨first, rest, hanswered⟩ := List.exists_cons_of_ne_nil h
  exact ⟨_, by rw [acknowledgeBatch, hanswered]⟩

end operations

end LocalStore

/-! ### The queue -/

section queue

variable {store : LocalStore L T P K V A}

/-- An answer on its way leaves the queue as it is. -/
theorem LocalStore.batches_answer (a : Answer T) : (store.answer a).batches = store.batches := by
  unfold answer
  cases hwaiting : store.waiting with
  | nil => rfl
  | cons b rest => simp [batches, hwaiting]

/-- A processed answer takes its write from the queue. -/
theorem LocalStore.batches_of_answered {store' : LocalStore L T P K V A} {b : Batch L P K A}
    {a : Answer T} {rest : List (Batch L P K A × Answer T)}
    (hanswered : store.answered = (b, a) :: rest) (hanswered' : store'.answered = rest)
    (hwaiting : store'.waiting = store.waiting) : store.batches = b :: store'.batches := by
  simp [batches, hanswered, hanswered', hwaiting]

variable [DecidableEq P]

/-- The writes of the queue to a document. -/
def LocalStore.pendingWrites (store : LocalStore L T P K V A) (p : P) : List (L × Write P K A) :=
  (store.batches.filter (fun b => b.write.path = p)).map (fun b => (b.localWriteTime, b.write))

/-- Issued writes come last. -/
theorem LocalStore.pendingWrites_writeLocally (bs : List (Batch L P K A)) (p : P) :
    (store.writeLocally bs).pendingWrites p = store.pendingWrites p ++
      (bs.filter (fun b => b.write.path = p)).map (fun b => (b.localWriteTime, b.write)) := by
  simp [pendingWrites, writeLocally, batches]

end queue

/-! ## The log of the server -/

/-- The versions of a log increase. -/
structure Versioned (log : List (Entry C T P K A)) : Prop where
  increasing : log.Pairwise (fun e e' => e.version < e'.version)
  positive : ∀ e ∈ log, 0 < e.version
  bounded : ∀ e ∈ log, e.version ≤ log.length

section versioned

variable {log : List (Entry C T P K A)} {e : Entry C T P K A}

theorem Versioned.nil : Versioned ([] : List (Entry C T P K A)) := by
  constructor <;> simp

/-- The next entry has the next version. -/
theorem Versioned.concat (hlog : Versioned log) (he : e.version = log.length + 1) :
    Versioned (log ++ [e]) := by
  constructor
  case increasing =>
    refine List.pairwise_append.mpr ⟨hlog.increasing, List.pairwise_singleton _ _, ?_⟩
    intro e' he' f hf
    obtain rfl := List.mem_singleton.mp hf
    have := hlog.bounded e' he'
    omega
  case positive =>
    intro e' he'
    rcases List.mem_append.mp he' with he' | he'
    · exact hlog.positive e' he'
    · obtain rfl := List.mem_singleton.mp he'
      omega
  case bounded =>
    intro e' he'
    rw [List.length_append, List.length_singleton]
    rcases List.mem_append.mp he' with he' | he'
    · have := hlog.bounded e' he'
      omega
    · obtain rfl := List.mem_singleton.mp he'
      omega

/-- Entries with the same version are the same. -/
theorem Versioned.eq_of_version (hlog : Versioned log) {e' : Entry C T P K A} (he : e ∈ log)
    (he' : e' ∈ log) (h : e.version = e'.version) : e = e' := by
  have hnodup : (log.map Entry.version).Nodup :=
    List.pairwise_map.mpr (hlog.increasing.imp fun hlt => Nat.ne_of_lt hlt)
  exact List.inj_on_of_nodup_map hnodup he he' h

/-- Between two commits of the client lie no writes of it. -/
theorem settled_of_ne_path (hlog : Versioned log) {me : C} {settled version : ℕ} {stamp : T}
    {w : Write P K A} (hmem : ⟨version, me, stamp, w⟩ ∈ log)
    (hnext : ∀ e ∈ log, e.author = me → settled < e.version → version ≤ e.version) :
    ∀ e ∈ log, e.author = me → e.write.path ≠ w.path → e.version ≤ version →
      e.version ≤ settled := by
  intro e he hauthor hpath hle
  by_contra hgt
  have hge := hnext e he hauthor (by omega)
  obtain rfl := hlog.eq_of_version he hmem (Nat.le_antisymm hle hge)
  exact hpath rfl

end versioned

/-! ### Parts of the log -/

section parts

variable [DecidableEq P]

/-- The writes to a document up to a version. -/
def writesUpTo (log : List (Entry C T P K A)) (p : P) (version : ℕ) : List (T × Write P K A) :=
  (log.filter (fun e => e.write.path = p ∧ e.version ≤ version)).map Entry.stamped

/-- The writes of one client to a document, after a version and up to another. -/
def ownWrites [DecidableEq C] (log : List (Entry C T P K A)) (me : C) (p : P) (after upTo : ℕ) :
    List (T × Write P K A) :=
  (log.filter (fun e => e.write.path = p ∧ e.author = me ∧ after < e.version ∧
    e.version ≤ upTo)).map Entry.stamped

/-- The version of a document: that of the last write to it. -/
def lastVersion (log : List (Entry C T P K A)) (p : P) : ℕ :=
  ((log.filter (fun e => e.write.path = p)).map Entry.version).foldr max 0

variable {log : List (Entry C T P K A)} {me : C} {e : Entry C T P K A}

/-- No write to a document is later than its version. -/
theorem le_lastVersion {p : P} (he : e ∈ log) (hpath : e.write.path = p) :
    e.version ≤ lastVersion log p := by
  refine List.le_max_of_le' 0 (List.mem_map_of_mem (List.mem_filter.mpr ⟨he, ?_⟩)) le_rfl
  exact decide_eq_true hpath

theorem lastVersion_le {p : P} {bound : ℕ}
    (h : ∀ e ∈ log, e.write.path = p → e.version ≤ bound) : lastVersion log p ≤ bound := by
  have hall : ∀ version ∈ (log.filter (fun e => e.write.path = p)).map Entry.version,
      version ≤ bound := by
    intro version hversion
    obtain ⟨e, he, rfl⟩ := List.mem_map.mp hversion
    obtain ⟨he, hpath⟩ := List.mem_filter.mp he
    exact h e he (of_decide_eq_true hpath)
  exact List.max_le_of_forall_le _ bound hall

/-- Versions do not fall. -/
theorem lastVersion_le_concat (log : List (Entry C T P K A)) (e : Entry C T P K A) (p : P) :
    lastVersion log p ≤ lastVersion (log ++ [e]) p :=
  lastVersion_le (fun _ he' hpath => le_lastVersion (List.mem_append_left _ he') hpath)

/-- All writes to a document are the writes up to its version. -/
theorem writesUpTo_of_le {p : P} {version : ℕ}
    (h : ∀ e ∈ log, e.write.path = p → e.version ≤ version) :
    writesUpTo log p version = (log.filter (fun e => e.write.path = p)).map Entry.stamped := by
  rw [writesUpTo]
  congr 1
  refine List.filter_congr ?_
  intro e he
  exact decide_eq_decide.mpr ⟨fun hboth => hboth.1, fun hpath => ⟨hpath, h e he hpath⟩⟩

/-- A later entry does not count among the writes up to a version. -/
theorem writesUpTo_concat {p : P} {version : ℕ} (h : version < e.version) :
    writesUpTo (log ++ [e]) p version = writesUpTo log p version := by
  have hlast : [e].filter (fun e => e.write.path = p ∧ e.version ≤ version) = [] := by
    simp [h]
  rw [writesUpTo, List.filter_append, hlast, List.append_nil, writesUpTo]

variable [DecidableEq C]

theorem ownWrites_concat {p : P} {after upTo : ℕ} (h : upTo < e.version) :
    ownWrites (log ++ [e]) me p after upTo = ownWrites log me p after upTo := by
  have hlast : [e].filter (fun e => e.write.path = p ∧ e.author = me ∧ after < e.version ∧
      e.version ≤ upTo) = [] := by
    simp [h]
  rw [ownWrites, List.filter_append, hlast, List.append_nil, ownWrites]

/-- A client has no writes where none of its entries are. -/
theorem ownWrites_eq_nil {p : P} {after upTo : ℕ}
    (h : ∀ e ∈ log, e.write.path = p → e.author = me → e.version ≤ upTo → e.version ≤ after) :
    ownWrites log me p after upTo = [] := by
  rw [ownWrites, List.map_eq_nil_iff, List.filter_eq_nil_iff]
  intro e he hmem
  obtain ⟨hpath, hauthor, hafter, hupTo⟩ := of_decide_eq_true hmem
  exact absurd (h e he hpath hauthor hupTo) (by omega)

/-- Raising the bound by one own write of the document appends it. -/
theorem ownWrites_settle (hlog : Versioned log) {p : P} {after upTo version : ℕ} {stamp : T}
    {w : Write P K A} (hw : w.path = p) (hafter : after < version) (hlt : upTo < version)
    (hmem : ⟨version, me, stamp, w⟩ ∈ log)
    (hnext : ∀ e ∈ log, e.author = me → upTo < e.version → version ≤ e.version) :
    ownWrites log me p after version = ownWrites log me p after upTo ++ [(stamp, w)] := by
  obtain ⟨before, later, hsplit⟩ := List.append_of_mem hmem
  have hincreasing := hlog.increasing
  rw [hsplit, List.pairwise_append, List.pairwise_cons] at hincreasing
  obtain ⟨_, ⟨hlater, _⟩, hbefore⟩ := hincreasing
  have hfirst : before.filter (fun e => e.write.path = p ∧ e.author = me ∧ after < e.version ∧
      e.version ≤ version) = before.filter (fun e => e.write.path = p ∧ e.author = me ∧
      after < e.version ∧ e.version ≤ upTo) := by
    refine List.filter_congr ?_
    intro e he
    have hbound : e.version < version := hbefore e he _ List.mem_cons_self
    refine decide_eq_decide.mpr ?_
    constructor
    · rintro ⟨hpath, hauthor, hgt, _⟩
      refine ⟨hpath, hauthor, hgt, ?_⟩
      by_contra hupTo
      have := hnext e (by rw [hsplit]; exact List.mem_append_left _ he) hauthor (by omega)
      omega
    · rintro ⟨hpath, hauthor, hgt, _⟩
      exact ⟨hpath, hauthor, hgt, Nat.le_of_lt hbound⟩
  have hnone : ∀ bound, bound ≤ version → later.filter (fun e => e.write.path = p ∧
      e.author = me ∧ after < e.version ∧ e.version ≤ bound) = [] := by
    intro bound hbound
    rw [List.filter_eq_nil_iff]
    intro e he hmem
    have hgt := hlater e he
    have hle := (of_decide_eq_true hmem).2.2.2
    simp only at hgt
    omega
  rw [hsplit, ownWrites, ownWrites, List.filter_append, List.filter_append, hfirst,
    List.filter_cons_of_pos (by simp [hw, hafter]),
    List.filter_cons_of_neg (by simp [hlt]), hnone version le_rfl, hnone upTo (Nat.le_of_lt hlt)]
  simp [Entry.stamped]

/-- Settling a write changes the own writes of no other document. -/
theorem ownWrites_of_ne_path {settled version : ℕ} {w : Write P K A} (hlt : settled < version)
    (hother : ∀ e ∈ log, e.author = me → e.write.path ≠ w.path → e.version ≤ version →
      e.version ≤ settled) {p : P} (hp : p ≠ w.path) (after : ℕ) :
    ownWrites log me p after version = ownWrites log me p after settled := by
  rw [ownWrites, ownWrites]
  congr 1
  refine List.filter_congr ?_
  intro e he
  refine decide_eq_decide.mpr ?_
  constructor
  · rintro ⟨hpath, hauthor, hgt, hle⟩
    exact ⟨hpath, hauthor, hgt, hother e he hauthor (hpath ▸ hp) hle⟩
  · rintro ⟨hpath, hauthor, hgt, hle⟩
    exact ⟨hpath, hauthor, hgt, by omega⟩

end parts

/-! ### Answers on their way -/

section answers

/-- The answers on their way are the answers to the writes of the client that were committed
after the version `settled`, in their order. -/
def AnsweredFrom (log : List (Entry C T P K A)) (me : C) :
    ℕ → List (Batch L P K A × Answer T) → Prop
  | settled, [] => ∀ e ∈ log, e.author = me → e.version ≤ settled
  | settled, (_, none) :: rest => AnsweredFrom log me settled rest
  | settled, (b, some (version, stamp)) :: rest =>
    settled < version ∧ ⟨version, me, stamp, b.write⟩ ∈ log ∧
      (∀ e ∈ log, e.author = me → settled < e.version → version ≤ e.version) ∧
      AnsweredFrom log me version rest

variable {log : List (Entry C T P K A)} {me : C} {settled : ℕ} {e : Entry C T P K A}

/-- A commit of another client leaves the answers as they are. -/
theorem AnsweredFrom.concat_other {answered : List (Batch L P K A × Answer T)}
    (h : AnsweredFrom log me settled answered) (he : e.author ≠ me) :
    AnsweredFrom (log ++ [e]) me settled answered := by
  have hown : ∀ e' ∈ log ++ [e], e'.author = me → e' ∈ log := by
    intro e' he' hauthor
    rcases List.mem_append.mp he' with he' | he'
    · exact he'
    · obtain rfl := List.mem_singleton.mp he'
      exact absurd hauthor he
  induction answered generalizing settled with
  | nil => exact fun e' he' hauthor => h e' (hown e' he' hauthor) hauthor
  | cons a rest ih =>
    obtain ⟨b, _ | ⟨version, stamp⟩⟩ := a
    · exact ih h
    · obtain ⟨hlt, hmem, hnext, hrest⟩ := h
      exact ⟨hlt, List.mem_append_left _ hmem,
        fun e' he' hauthor => hnext e' (hown e' he' hauthor) hauthor, ih hrest⟩

/-- A commit of the client is answered last. -/
theorem AnsweredFrom.concat_own {answered : List (Batch L P K A × Answer T)} {b : Batch L P K A}
    {stamp : T} (hlog : Versioned log) (hsettled : settled ≤ log.length)
    (h : AnsweredFrom log me settled answered) :
    AnsweredFrom (log ++ [⟨log.length + 1, me, stamp, b.write⟩]) me settled
      (answered ++ [(b, some (log.length + 1, stamp))]) := by
  induction answered generalizing settled with
  | nil =>
    refine ⟨by omega, by simp, ?_, ?_⟩
    · intro e he hauthor hlt
      rcases List.mem_append.mp he with he | he
      · have := h e he hauthor
        omega
      · obtain rfl := List.mem_singleton.mp he
        exact le_rfl
    · intro e he _
      rcases List.mem_append.mp he with he | he
      · have := hlog.bounded e he
        omega
      · obtain rfl := List.mem_singleton.mp he
        exact le_rfl
  | cons a rest ih =>
    obtain ⟨b', _ | ⟨version, stamp'⟩⟩ := a
    · exact ih hsettled h
    · obtain ⟨hlt, hmem, hnext, hrest⟩ := h
      refine ⟨hlt, List.mem_append_left _ hmem, ?_, ih (hlog.bounded _ hmem) hrest⟩
      intro e he hauthor hgt
      rcases List.mem_append.mp he with he | he
      · exact hnext e he hauthor hgt
      · obtain rfl := List.mem_singleton.mp he
        have := hlog.bounded _ hmem
        simp only at this ⊢
        omega

/-- A rejection is answered last. -/
theorem AnsweredFrom.concat_rejected {answered : List (Batch L P K A × Answer T)}
    {b : Batch L P K A} (h : AnsweredFrom log me settled answered) :
    AnsweredFrom log me settled (answered ++ [(b, none)]) := by
  induction answered generalizing settled with
  | nil => exact h
  | cons a rest ih =>
    obtain ⟨b', _ | ⟨version, stamp⟩⟩ := a
    · exact ih h
    · exact ⟨h.1, h.2.1, h.2.2.1, ih h.2.2.2⟩

/-- A committed write whose answer is not processed is among the answered ones. -/
theorem AnsweredFrom.mem_of_lt {answered : List (Batch L P K A × Answer T)} (hlog : Versioned log)
    (h : AnsweredFrom log me settled answered) (he : e ∈ log) (hauthor : e.author = me)
    (hlt : settled < e.version) : ∃ b, (b, some (e.version, e.stamp)) ∈ answered ∧
      b.write = e.write := by
  induction answered generalizing settled with
  | nil =>
    have := h e he hauthor
    omega
  | cons a rest ih =>
    obtain ⟨b, _ | ⟨version, stamp⟩⟩ := a
    · obtain ⟨b', hb', hwrite⟩ := ih h hlt
      exact ⟨b', List.mem_cons_of_mem _ hb', hwrite⟩
    · obtain ⟨_, hmem, hnext, hrest⟩ := h
      rcases Nat.eq_or_lt_of_le (hnext e he hauthor hlt) with heq | hgt
      · obtain rfl := hlog.eq_of_version hmem he heq
        exact ⟨b, List.mem_cons_self, rfl⟩
      · obtain ⟨b', hb', hwrite⟩ := ih hrest hgt
        exact ⟨b', List.mem_cons_of_mem _ hb', hwrite⟩

/-- An answer to a committed write speaks of an entry of the log. -/
theorem AnsweredFrom.mem_log {answered : List (Batch L P K A × Answer T)} {b : Batch L P K A}
    {version : ℕ} {stamp : T} (h : AnsweredFrom log me settled answered)
    (hb : (b, some (version, stamp)) ∈ answered) : ⟨version, me, stamp, b.write⟩ ∈ log := by
  induction answered generalizing settled with
  | nil => cases hb
  | cons a rest ih =>
    obtain ⟨b', _ | ⟨version', stamp'⟩⟩ := a
    · rcases List.mem_cons.mp hb with heq | hb
      · cases heq
      · exact ih h hb
    · rcases List.mem_cons.mp hb with heq | hb
      · cases heq
        exact h.2.1
      · exact ih h.2.2.2 hb

end answers

end DocumentStore
