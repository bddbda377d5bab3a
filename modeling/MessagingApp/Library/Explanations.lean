import MessagingApp.Library.LocalStores

/-!
# What local stores are made of

The store of a client is explained by the log of the server: the client has all
writes to a document up to some version and its own writes after it. Each
operation on the store keeps such an explanation, and no version of it falls back,
in whatever order answers and documents arrive.
-/

namespace DocumentStore

variable {C L T P K V V' A : Type*}

/-! ## What a document on the screen is made of -/

section made

variable [DecidableEq C] [DecidableEq P]

/-- The writes that what a client shows of a document is made of. -/
def madeOf (log : List (Entry C T P K A)) (me : C) (settled : ℕ) (base : P → ℕ)
    (store : LocalStore L T P K V A) (p : P) : List (Write P K A) :=
  (writesUpTo log p (base p)).map Prod.snd ++
    (ownWrites log me p (base p) settled).map Prod.snd ++ (store.pendingWrites p).map Prod.snd

/-- Some writes to a document begin with all writes to it up to some version. -/
def Restarts (log : List (Entry C T P K A)) (p : P) (ws : List (Write P K A)) : Prop :=
  ∃ version, writesUpTo log p version ≠ [] ∧ (writesUpTo log p version).map Prod.snd <+: ws

variable {log : List (Entry C T P K A)} {me : C} {settled : ℕ} {base : P → ℕ}
  {store : LocalStore L T P K V A}

/-- A document from the server replaces what the client had of it, or changes nothing. -/
theorem madeOf_applyRemoteEvent {base' : P → ℕ} {store' : LocalStore L T P K V A} {p : P}
    (hbatches : store'.batches = store.batches) (hbase : base' p = base p ∨
      (ownWrites log me p (base' p) settled = [] ∧ writesUpTo log p (base' p) ≠ [])) :
    madeOf log me settled base' store' p = madeOf log me settled base store p ∨
      Restarts log p (madeOf log me settled base' store' p) := by
  rcases hbase with hbase | ⟨hown, hsent⟩
  · left
    rw [madeOf, madeOf, hbase, LocalStore.pendingWrites, LocalStore.pendingWrites, hbatches]
  · right
    refine ⟨base' p, hsent, ?_⟩
    rw [madeOf, hown, List.append_assoc]
    exact List.prefix_append _ _

/-- A committed write stays among the writes, or the server has sent it. -/
theorem madeOf_acknowledgeBatch {settled' : ℕ} {store' : LocalStore L T P K V A}
    {b : Batch L P K A} {p : P} (hbatches : store.batches = b :: store'.batches)
    (hown : if b.write.path = p then
      (∃ t, ownWrites log me p (base p) settled' =
        ownWrites log me p (base p) settled ++ [(t, b.write)]) ∨
      (ownWrites log me p (base p) settled' = [] ∧ writesUpTo log p (base p) ≠ [])
      else ownWrites log me p (base p) settled' = ownWrites log me p (base p) settled) :
    madeOf log me settled' base store' p = madeOf log me settled base store p ∨
      Restarts log p (madeOf log me settled' base store' p) := by
  by_cases hp : b.write.path = p
  · rw [if_pos hp] at hown
    rcases hown with ⟨t, hown⟩ | ⟨hown, hsent⟩
    · left
      have hpending : store.pendingWrites p =
          (b.localWriteTime, b.write) :: store'.pendingWrites p := by
        rw [LocalStore.pendingWrites, hbatches, List.filter_cons_of_pos (by simpa using hp)]
        rfl
      rw [madeOf, madeOf, hown, hpending]
      simp
    · right
      refine ⟨base p, hsent, ?_⟩
      rw [madeOf, hown, List.append_assoc]
      exact List.prefix_append _ _
  · left
    rw [if_neg hp] at hown
    have hpending : store.pendingWrites p = store'.pendingWrites p := by
      rw [LocalStore.pendingWrites, hbatches, List.filter_cons_of_neg (by simpa using hp)]
      rfl
    rw [madeOf, madeOf, hown, hpending]

end made

/-! ## What a cached document is made of -/

section explained

variable [DecidableEq C] [DecidableEq P] [DecidableEq K]

/-- What the version of a cached document says. -/
structure CachedSound (log : List (Entry C T P K A)) (me : C) (settled base : ℕ) (p : P)
    (c : Cached K V) : Prop where
  base_le : base ≤ c.version
  version_le : c.version ≤ max base settled
  own_le : ∀ e ∈ log, e.write.path = p → e.author = me → e.version ≤ settled →
    e.version ≤ c.version
  clean : c.hasCommittedMutations = false → c.version = base
  current : c.version ≤ lastVersion log p

/-- What a client stores, explained by the log of the server. The client has processed the answers
to its writes up to the version `settled`, and the document under each path is made of all
writes up to the version `base` of this path, which the server has sent, and of the client's
own writes after it. The server writes with `eval`, the client with `ackEval`. -/
structure Explained (eval ackEval : T → A → Option V → V) (log : List (Entry C T P K A)) (me : C)
    (settled : ℕ) (base : P → ℕ) (store : LocalStore L T P K V A) : Prop where
  settled_le : settled ≤ log.length
  base_le : ∀ p, base p ≤ log.length
  document : ∀ p, (store.cache.lookup p).bind Cached.document =
    replay ackEval (ownWrites log me p (base p) settled)
      (replay eval (writesUpTo log p (base p)) none)
  cached : ∀ p c, store.cache.lookup p = some c → CachedSound log me settled (base p) p c
  uncached : ∀ p, store.cache.lookup p = none → base p = 0 ∧
    ∀ e ∈ log, e.write.path = p → e.author = me → settled < e.version
  updates : ∀ u ∈ store.updates, u.version ≤ lastVersion log u.path ∧
    some u.document = replay eval (writesUpTo log u.path u.version) none
  answered : AnsweredFrom log me settled store.answered

variable {eval ackEval : T → A → Option V → V} {log : List (Entry C T P K A)} {me : C}
  {settled : ℕ} {base : P → ℕ} {store : LocalStore L T P K V A} {e : Entry C T P K A}

/-! ### Each operation -/

theorem Explained.empty : Explained eval ackEval ([] : List (Entry C T P K A)) me 0 (fun _ => 0)
    (LocalStore.empty : LocalStore L T P K V A) := by
  constructor <;> simp [LocalStore.empty, ownWrites, writesUpTo, AnsweredFrom]

/-- A commit changes nothing the client has processed. -/
theorem Explained.concat (hlog : Versioned log)
    (h : Explained eval ackEval log me settled base store) (he : e.version = log.length + 1)
    {answered : List (Batch L P K A × Answer T)} {waiting : List (Batch L P K A)}
    (hanswered : AnsweredFrom (log ++ [e]) me settled answered) :
    Explained eval ackEval (log ++ [e]) me settled base
      { store with answered := answered, waiting := waiting } := by
  have hsettled := h.settled_le
  have hold : ∀ e' ∈ log ++ [e], e'.version ≤ log.length → e' ∈ log := by
    intro e' he' hle
    rcases List.mem_append.mp he' with he' | he'
    · exact he'
    · obtain rfl := List.mem_singleton.mp he'
      omega
  constructor
  case settled_le =>
    rw [List.length_append]
    omega
  case base_le =>
    intro p
    have := h.base_le p
    rw [List.length_append]
    omega
  case document =>
    intro p
    have hbase := h.base_le p
    rw [ownWrites_concat (by omega), writesUpTo_concat (by omega)]
    exact h.document p
  case cached =>
    intro p c hc
    have hcached := h.cached p c hc
    exact ⟨hcached.base_le, hcached.version_le, fun e' he' hpath hauthor hupTo =>
      hcached.own_le e' (hold e' he' (by omega)) hpath hauthor hupTo, hcached.clean,
      Nat.le_trans hcached.current (lastVersion_le_concat log e p)⟩
  case uncached =>
    intro p hp
    obtain ⟨hbase, hown⟩ := h.uncached p hp
    refine ⟨hbase, ?_⟩
    intro e' he' hpath hauthor
    by_contra hle
    exact hle (hown e' (hold e' he' (by omega)) hpath hauthor)
  case updates =>
    intro u hu
    obtain ⟨hle, hdocument⟩ := h.updates u hu
    have hbound : u.version ≤ log.length :=
      Nat.le_trans hle (lastVersion_le (fun e' he' _ => hlog.bounded e' he'))
    rw [writesUpTo_concat (by omega)]
    exact ⟨Nat.le_trans hle (lastVersion_le_concat log e u.path), hdocument⟩
  case answered => exact hanswered

/-- Issued writes are not explained by the log yet. -/
theorem Explained.writeLocally (h : Explained eval ackEval log me settled base store)
    (bs : List (Batch L P K A)) :
    Explained eval ackEval log me settled base (store.writeLocally bs) :=
  ⟨h.settled_le, h.base_le, h.document, h.cached, h.uncached, h.updates, h.answered⟩

/-- A rejected write leaves no entry. -/
theorem Explained.reject (h : Explained eval ackEval log me settled base store) :
    Explained eval ackEval log me settled base (store.answer none) := by
  unfold LocalStore.answer
  cases store.waiting with
  | nil => exact h
  | cons b rest =>
    exact ⟨h.settled_le, h.base_le, h.document, h.cached, h.uncached, h.updates,
      h.answered.concat_rejected⟩

/-- The server sends a document as it is after all writes to it. -/
theorem Explained.send (h : Explained eval ackEval log me settled base store) {u : Update P K V}
    (hle : u.version ≤ lastVersion log u.path)
    (hu : some u.document = replay eval (writesUpTo log u.path u.version) none) :
    Explained eval ackEval log me settled base (store.send u) := by
  refine ⟨h.settled_le, h.base_le, h.document, h.cached, h.uncached, ?_, h.answered⟩
  intro u' hu'
  rcases List.mem_append.mp hu' with hu' | hu'
  · exact h.updates u' hu'
  · obtain rfl := List.mem_singleton.mp hu'
    exact ⟨hle, hu⟩

/-- A document that is taken over is not older than anything the cache has of it. -/
theorem Explained.newer_of_accepts (h : Explained eval ackEval log me settled base store)
    {u : Update P K V}
    (haccepts : LocalStore.accepts u (store.cache.lookup u.path) = true) :
    base u.path ≤ u.version ∧ ∀ e ∈ log, e.write.path = u.path → e.author = me →
      e.version ≤ settled → e.version ≤ u.version := by
  cases hcached : store.cache.lookup u.path with
  | none =>
    obtain ⟨hbase, hown⟩ := h.uncached _ hcached
    refine ⟨by omega, ?_⟩
    intro e he hpath hauthor hsettled
    have := hown e he hpath hauthor
    omega
  | some c =>
    have hsound := h.cached _ c hcached
    have hversion : c.version ≤ u.version := by
      simp only [hcached, LocalStore.accepts, Bool.or_eq_true, decide_eq_true_eq,
        Bool.and_eq_true, beq_iff_eq] at haccepts
      omega
    refine ⟨Nat.le_trans hsound.base_le hversion, ?_⟩
    intro e he hpath hauthor hsettled
    exact Nat.le_trans (hsound.own_le e he hpath hauthor hsettled) hversion

/-- A document that is not taken over is not newer than what the server has sent of it. -/
theorem Explained.le_base_of_not_accepts (h : Explained eval ackEval log me settled base store)
    {u : Update P K V} (haccepts : ¬ LocalStore.accepts u (store.cache.lookup u.path) = true)
    (hlast : lastVersion log u.path ≤ u.version) : u.version ≤ base u.path := by
  cases hcached : store.cache.lookup u.path with
  | none => simp [hcached, LocalStore.accepts] at haccepts
  | some c =>
    have hsound := h.cached _ c hcached
    simp only [hcached, LocalStore.accepts, Bool.or_eq_true, decide_eq_true_eq,
      Bool.and_eq_true, beq_iff_eq, not_or, not_and, Bool.not_eq_true] at haccepts
    have heq : u.version = c.version := by
      have := hsound.current
      omega
    have hclean := hsound.clean (haccepts.2 heq)
    omega

/-- **A document from the server.** It replaces what the cache has of it, or the cache has it
already. The version up to which the client has all writes to a document does not fall back. -/
theorem Explained.applyRemoteEvent (hlog : Versioned log)
    (h : Explained eval ackEval log me settled base store) {u : Update P K V}
    {rest : List (Update P K V)} (hupdates : store.updates = u :: rest) :
    ∃ base' store', store.applyRemoteEvent = some store' ∧
      Explained eval ackEval log me settled base' store' ∧
      store'.updates = rest ∧ store'.answered = store.answered ∧ store'.waiting = store.waiting ∧
      (∀ p, base p ≤ base' p) ∧ (lastVersion log u.path ≤ u.version → u.version ≤ base' u.path) ∧
      ∀ p, base' p = base p ∨
        (ownWrites log me p (base' p) settled = [] ∧ writesUpTo log p (base' p) ≠ []) := by
  have hrest : ∀ u' ∈ rest, u' ∈ store.updates := by
    intro u' hu'
    simp [hupdates, hu']
  obtain ⟨hle, hdocument⟩ := h.updates u (by simp [hupdates])
  by_cases haccepts : LocalStore.accepts u (store.cache.lookup u.path) = true
  · obtain ⟨hbase, hown⟩ := h.newer_of_accepts haccepts
    refine ⟨Function.update base u.path u.version, { store with
      updates := rest
      cache := store.cache.insert u.path ⟨some u.document, u.version, false⟩ },
      by simp [LocalStore.applyRemoteEvent, hupdates, haccepts], ?_, rfl, rfl, rfl, ?_, ?_, ?_⟩
    · constructor
      case settled_le => exact h.settled_le
      case base_le =>
        intro p
        by_cases hp : p = u.path
        · subst hp
          rw [Function.update_self]
          exact Nat.le_trans hle (lastVersion_le (fun e he _ => hlog.bounded e he))
        · rw [Function.update_of_ne hp]
          exact h.base_le p
      case document =>
        intro p
        by_cases hp : p = u.path
        · subst hp
          rw [AList.lookup_insert, Function.update_self, ownWrites_eq_nil hown]
          exact hdocument
        · rw [AList.lookup_insert_ne hp, Function.update_of_ne hp]
          exact h.document p
      case cached =>
        intro p c hc
        by_cases hp : p = u.path
        · subst hp
          rw [AList.lookup_insert] at hc
          obtain rfl := Option.some.inj hc
          rw [Function.update_self]
          exact ⟨le_rfl, le_max_left _ _, hown, fun _ => rfl, hle⟩
        · rw [AList.lookup_insert_ne hp] at hc
          rw [Function.update_of_ne hp]
          exact h.cached p c hc
      case uncached =>
        intro p hp
        by_cases hpath : p = u.path
        · subst hpath
          simp at hp
        · rw [AList.lookup_insert_ne hpath] at hp
          rw [Function.update_of_ne hpath]
          exact h.uncached p hp
      case updates => exact fun u' hu' => h.updates u' (hrest u' hu')
      case answered => exact h.answered
    · intro p
      by_cases hp : p = u.path
      · subst hp
        rwa [Function.update_self]
      · rw [Function.update_of_ne hp]
    · intro _
      rw [Function.update_self]
    · intro p
      by_cases hp : p = u.path
      · subst hp
        refine .inr ⟨?_, ?_⟩
        · rw [Function.update_self, ownWrites_eq_nil hown]
        · rw [Function.update_self]
          refine fun hnil => ?_
          have hsome : (replay eval (writesUpTo log u.path u.version) none).isSome := by
            rw [← hdocument]
            rfl
          exact ne_nil_of_isSome_replay hsome hnil
      · exact .inl (Function.update_of_ne hp _ _)
  · refine ⟨base, { store with updates := rest },
      by simp [LocalStore.applyRemoteEvent, hupdates, haccepts], ?_, rfl, rfl, rfl,
      fun _ => le_rfl, fun hlast => h.le_base_of_not_accepts haccepts hlast, fun _ => .inl rfl⟩
    exact ⟨h.settled_le, h.base_le, h.document, h.cached, h.uncached,
      fun u' hu' => h.updates u' (hrest u' hu'), h.answered⟩

/-- What applying a committed write to a cache does under its path. -/
theorem LocalStore.lookup_applyBatchResult_self (ack : A → Option V → V) (w : Write P K A)
    (version : ℕ) (cache : AList (fun _ : P => Cached K V)) :
    ((∀ c, cache.lookup w.path = some c → c.version < version) ∧
      (applyBatchResult ack w version cache).lookup w.path =
        some ⟨w.onto ack ((cache.lookup w.path).bind Cached.document), version, true⟩) ∨
    ∃ c, cache.lookup w.path = some c ∧ version ≤ c.version ∧
      applyBatchResult ack w version cache = cache := by
  unfold applyBatchResult
  cases hc : cache.lookup w.path with
  | none => exact .inl ⟨by simp, by simp⟩
  | some c =>
    by_cases hlt : c.version < version
    · exact .inl ⟨by simpa using hlt, by simp [hlt]⟩
    · exact .inr ⟨c, rfl, by omega, by simp [hlt]⟩

theorem LocalStore.lookup_applyBatchResult_of_ne (ack : A → Option V → V) (w : Write P K A)
    (version : ℕ) (cache : AList (fun _ : P => Cached K V)) {p : P} (hp : p ≠ w.path) :
    (applyBatchResult ack w version cache).lookup p = cache.lookup p := by
  unfold applyBatchResult
  cases cache.lookup w.path with
  | none => exact AList.lookup_insert_ne hp
  | some c =>
    by_cases hlt : c.version < version
    · simp [hlt, AList.lookup_insert_ne hp]
    · simp [hlt]

section commitProcessed

variable {b : Batch L P K A} {version : ℕ} {stamp : T} {rest : List (Batch L P K A × Answer T)}

/-- The write is applied to the cached document, which does not have it yet. -/
theorem Explained.applied (hlog : Versioned log)
    (h : Explained eval ackEval log me settled base store) (hlt : settled < version)
    (hmem : ⟨version, me, stamp, b.write⟩ ∈ log)
    (hnext : ∀ e ∈ log, e.author = me → settled < e.version → version ≤ e.version)
    (hrest : AnsweredFrom log me version rest)
    {cache : AList (fun _ : P => Cached K V)} (hbase : base b.write.path < version)
    (hself : cache.lookup b.write.path = some ⟨b.write.onto (ackEval stamp)
      ((store.cache.lookup b.write.path).bind Cached.document), version, true⟩)
    (hne : ∀ p, p ≠ b.write.path → cache.lookup p = store.cache.lookup p) :
    Explained eval ackEval log me version base
      { store with answered := rest, cache := cache } := by
  have hother := settled_of_ne_path hlog hmem hnext
  constructor
  case settled_le => exact hlog.bounded _ hmem
  case base_le => exact h.base_le
  case document =>
    intro p
    by_cases hp : p = b.write.path
    · subst hp
      rw [hself, ownWrites_settle hlog rfl hbase hlt hmem hnext, replay_concat, ← h.document]
      rfl
    · rw [hne p hp, ownWrites_of_ne_path hlt hother hp]
      exact h.document p
  case cached =>
    intro p c hc
    by_cases hp : p = b.write.path
    · subst hp
      rw [hself] at hc
      obtain rfl := Option.some.inj hc
      exact ⟨Nat.le_of_lt hbase, le_max_right _ _, fun _ _ _ _ hle => hle,
        fun hclean => absurd hclean (by simp), le_lastVersion hmem rfl⟩
    · rw [hne p hp] at hc
      have hsound := h.cached p c hc
      have hmax := hsound.version_le
      refine ⟨hsound.base_le, by omega, ?_, hsound.clean, hsound.current⟩
      intro e he hpath hauthor hupTo
      exact hsound.own_le e he hpath hauthor (hother e he hauthor (hpath ▸ hp) hupTo)
  case uncached =>
    intro p hp
    by_cases hpath : p = b.write.path
    · subst hpath
      rw [hself] at hp
      cases hp
    · rw [hne p hpath] at hp
      obtain ⟨hzero, hown⟩ := h.uncached p hp
      refine ⟨hzero, ?_⟩
      intro e he hepath hauthor
      by_contra hle
      have hgt := hown e he hepath hauthor
      have hsettled := hother e he hauthor (hepath ▸ hpath) (by omega)
      omega
  case updates => exact h.updates
  case answered => exact hrest

/-- The server has already sent a version of the document that contains the write. -/
theorem Explained.overtaken (hlog : Versioned log)
    (h : Explained eval ackEval log me settled base store) (hlt : settled < version)
    (hmem : ⟨version, me, stamp, b.write⟩ ∈ log)
    (hnext : ∀ e ∈ log, e.author = me → settled < e.version → version ≤ e.version)
    (hrest : AnsweredFrom log me version rest) {c : Cached K V}
    (hc : store.cache.lookup b.write.path = some c) (hbase : version ≤ base b.write.path) :
    Explained eval ackEval log me version base { store with answered := rest } := by
  have hother := settled_of_ne_path hlog hmem hnext
  have hnone : ∀ bound ≤ version, ownWrites log me b.write.path (base b.write.path) bound = [] :=
    fun bound hbound => ownWrites_eq_nil (fun _ _ _ _ hle => by omega)
  constructor
  case settled_le => exact hlog.bounded _ hmem
  case base_le => exact h.base_le
  case document =>
    intro p
    rw [h.document p]
    by_cases hp : p = b.write.path
    · rw [hp, hnone version le_rfl, hnone settled (Nat.le_of_lt hlt)]
    · rw [ownWrites_of_ne_path hlt hother hp]
  case cached =>
    intro p c' hc'
    have hsound := h.cached p c' hc'
    have hmax := hsound.version_le
    refine ⟨hsound.base_le, by omega, ?_, hsound.clean, hsound.current⟩
    intro e he hpath hauthor hupTo
    by_cases hp : e.write.path = b.write.path
    · have hle := hsound.base_le
      rw [← hpath, hp] at hle
      omega
    · exact hsound.own_le e he hpath hauthor (hother e he hauthor hp hupTo)
  case uncached =>
    intro p hp
    obtain ⟨hzero, hown⟩ := h.uncached p hp
    refine ⟨hzero, ?_⟩
    intro e he hpath hauthor
    by_contra hle
    by_cases hp' : e.write.path = b.write.path
    · rw [← hpath, hp', hc] at hp
      cases hp
    · have hgt := hown e he hpath hauthor
      have hsettled := hother e he hauthor hp' (by omega)
      omega
  case updates => exact h.updates
  case answered => exact hrest

end commitProcessed

/-- **An answer from the server.** The version up to which the client has its own writes rises. A
committed write goes on counting, among the own writes or among those the server has sent. -/
theorem Explained.acknowledgeBatch (hlog : Versioned log)
    (h : Explained eval ackEval log me settled base store) {b : Batch L P K A} {a : Answer T}
    {rest : List (Batch L P K A × Answer T)} (hanswered : store.answered = (b, a) :: rest) :
    ∃ settled' store', store.acknowledgeBatch ackEval = some store' ∧ settled ≤ settled' ∧
      Explained eval ackEval log me settled' base store' ∧ store'.answered = rest ∧
      store'.waiting = store.waiting ∧ store'.updates = store.updates ∧
      (a ≠ none → ∀ p, (if b.write.path = p then
        (∃ t, ownWrites log me p (base p) settled' =
          ownWrites log me p (base p) settled ++ [(t, b.write)]) ∨
        (ownWrites log me p (base p) settled' = [] ∧ writesUpTo log p (base p) ≠ [])
        else ownWrites log me p (base p) settled' = ownWrites log me p (base p) settled)) := by
  have hall := h.answered
  rw [hanswered] at hall
  obtain _ | ⟨version, stamp⟩ := a
  · refine ⟨settled, { store with answered := rest },
      by simp [LocalStore.acknowledgeBatch, hanswered], le_rfl, ?_, rfl, rfl, rfl,
      fun hne => absurd rfl hne⟩
    exact ⟨h.settled_le, h.base_le, h.document, h.cached, h.uncached, h.updates, hall⟩
  · obtain ⟨hlt, hmem, hnext, hrest⟩ := hall
    have hother := settled_of_ne_path hlog hmem hnext
    refine ⟨version, { store with
      answered := rest
      cache := LocalStore.applyBatchResult (ackEval stamp) b.write version store.cache },
      by simp [LocalStore.acknowledgeBatch, hanswered], Nat.le_of_lt hlt, ?_⟩
    rcases LocalStore.lookup_applyBatchResult_self (ackEval stamp) b.write version store.cache with
      ⟨hfresh, hself⟩ | ⟨c, hc, hge, hsame⟩
    · have hbase : base b.write.path < version := by
        cases hc : store.cache.lookup b.write.path with
        | none =>
          have hzero := (h.uncached _ hc).1
          omega
        | some c => exact Nat.lt_of_le_of_lt (h.cached _ c hc).base_le (hfresh c hc)
      refine ⟨h.applied hlog hlt hmem hnext hrest hbase hself
        (fun p hp => LocalStore.lookup_applyBatchResult_of_ne _ _ _ _ hp), rfl, rfl, rfl, ?_⟩
      intro _ p
      by_cases hp : b.write.path = p
      · subst hp
        rw [if_pos rfl]
        exact .inl ⟨stamp, ownWrites_settle hlog rfl hbase hlt hmem hnext⟩
      · rw [if_neg hp]
        exact ownWrites_of_ne_path hlt hother (Ne.symm hp) _
    · have hbase : version ≤ base b.write.path := by
        have hmax := (h.cached _ c hc).version_le
        omega
      rw [hsame]
      refine ⟨h.overtaken hlog hlt hmem hnext hrest hc hbase, rfl, rfl, rfl, ?_⟩
      intro _ p
      by_cases hp : b.write.path = p
      · subst hp
        rw [if_pos rfl]
        refine .inr ⟨ownWrites_eq_nil (fun _ _ _ _ hle => by omega), ?_⟩
        refine List.ne_nil_of_mem (List.mem_map_of_mem (List.mem_filter.mpr ⟨hmem, ?_⟩))
        exact decide_eq_true ⟨rfl, hbase⟩
      · rw [if_neg hp]
        exact ownWrites_of_ne_path hlt hother (Ne.symm hp) _

/-! ### What the client shows -/

/-- A cached document is made of all writes to it up to some version and of the client's own writes
after this version whose answers it has processed. -/
theorem Explained.lookup_documentsOf (h : Explained eval ackEval log me settled base store)
    (known : V → V') (p : P) :
    (documentsOf known store.cache).lookup p =
      (replay ackEval (ownWrites log me p (base p) settled)
        (replay eval (writesUpTo log p (base p)) none)).map (mapFields known) := by
  rw [DocumentStore.lookup_documentsOf, ← h.document p]
  cases store.cache.lookup p <;> rfl

/-- **What a client shows.** A document on the screen is made of all writes to it up to some
version, of the client's own writes after this version whose answers it has processed, and of
its own writes in the queue. -/
theorem Explained.lookup_localView (h : Explained eval ackEval log me settled base store)
    (known : V → V') (localEval : L → A → Option V' → V') (p : P) :
    (store.localView known localEval).lookup p =
      replay localEval (store.pendingWrites p)
        ((replay ackEval (ownWrites log me p (base p) settled)
          (replay eval (writesUpTo log p (base p)) none)).map (mapFields known)) := by
  rw [LocalStore.localView, lookup_overlay, h.lookup_documentsOf, LocalStore.pendingWrites,
    List.filter_map]
  rfl

/-- A client that has received all writes to a document and has none of its own in the queue
shows what the server stores. -/
theorem Explained.lookup_localView_of_current
    (h : Explained eval ackEval log me settled base store) (known : V → V')
    (localEval : L → A → Option V' → V') {p : P}
    (hbase : ∀ e ∈ log, e.write.path = p → e.version ≤ base p)
    (hpending : store.pendingWrites p = []) :
    (store.localView known localEval).lookup p =
      (replay eval ((log.filter (fun e => e.write.path = p)).map Entry.stamped) none).map
        (mapFields known) := by
  rw [h.lookup_localView, hpending, ownWrites_eq_nil (fun e he hpath _ _ => hbase e he hpath),
    writesUpTo_of_le hbase]
  rfl

/-- Only the queue matters when the explanation stays. -/
theorem madeOf_concat (h : Explained eval ackEval log me settled base store)
    (he : e.version = log.length + 1) (store' : LocalStore L T P K V A) (p : P) :
    madeOf (log ++ [e]) me settled base store' p = madeOf log me settled base store' p := by
  have hsettled := h.settled_le
  have hbase := h.base_le p
  rw [madeOf, madeOf, ownWrites_concat (by omega), writesUpTo_concat (by omega)]

end explained

end DocumentStore
