import MessagingApp.Replicas

/-!
# A client reads its own writes

The store of every client is explained by the log of the server, and each step of
the system advances the explanation. What a client is shown of a document is
therefore made of the server's writes up to some version and of all its own writes
after it, and it never goes back to an earlier version.
-/

namespace MessagingApp

/-! ## The stores are explained by the log -/

/-- The writes of the server to a document. -/
def serverWrites (history : List ServerEntry) (path : DocPath) : List (Time × Write) :=
  (history.filter (fun e => e.write.path = path)).map DocumentStore.Entry.stamped

/-- The store of a client is explained by the log. -/
abbrev Replicas.Explains (r : Replicas) (c : ClientId) (settled : ℕ) (base : DocPath → ℕ) :
    Prop :=
  DocumentStore.Explained FieldValue.eval FieldValue.ackEval r.history c settled base (r.stores c)

/-- What holds in every state, rejected writes included. -/
structure ReplicasSound (r : Replicas) : Prop where
  versioned : DocumentStore.Versioned r.history
  stored : ∀ path, r.system.db.lookup path =
    DocumentStore.replay FieldValue.eval (serverWrites r.history path) none
  written : ∀ e ∈ r.history, e.write.path ∈ r.system.db
  waiting : ∀ c, (r.stores c).waiting.map DocumentStore.Batch.write =
    (r.system.clients c).queue.map Pending.write
  explained : ∀ c, ∃ settled base, r.Explains c settled base

section sound

variable {r r' : Replicas}

theorem ReplicasSound.init (owner : ClientId → Email) : ReplicasSound (Replicas.init owner) where
  versioned := DocumentStore.Versioned.nil
  stored path := by simp [Replicas.init, System.init, serverWrites]
  written e he := by cases he
  waiting c := rfl
  explained c := ⟨0, fun _ => 0, DocumentStore.Explained.empty⟩

/-- The documents of the server after a commit. -/
theorem ReplicasSound.stored_commit (hr : ReplicasSound r) {s : System} {c : ClientId}
    {now : Time} {p : Pending} {rest : List Pending} (h : Commits r.system s c now p rest)
    (path : DocPath) : s.db.lookup path = DocumentStore.replay FieldValue.eval
      (serverWrites (r.history ++ [⟨r.history.length + 1, c, now, p.write⟩]) path) none := by
  have hsplit : serverWrites (r.history ++ [⟨r.history.length + 1, c, now, p.write⟩]) path =
      serverWrites r.history path ++
        serverWrites [⟨r.history.length + 1, c, now, p.write⟩] path := by
    rw [serverWrites, List.filter_append, List.map_append]
    rfl
  rw [hsplit, DocumentStore.replay_append, ← hr.stored path, serverWrites]
  by_cases hpath : p.write.path = path
  · subst hpath
    obtain ⟨fields, hbase, hlookup⟩ := DocumentStore.Write.lookup_commit_self h.commit_eq
    rw [hlookup, List.filter_cons_of_pos (by simp)]
    simp [DocumentStore.replay_cons, DocumentStore.Entry.stamped, DocumentStore.Write.onto, hbase]
  · rw [DocumentStore.Write.lookup_commit_of_ne h.commit_eq (Ne.symm hpath),
      List.filter_cons_of_neg (by simpa using hpath)]
    rfl

/-- A document sent by the server is what all writes to it make. -/
theorem ReplicasSound.sent (hr : ReplicasSound r) {path : DocPath} {document : Document}
    (h : r.system.db.lookup path = some document) :
    some document = DocumentStore.replay FieldValue.eval
      (DocumentStore.writesUpTo r.history path
        (DocumentStore.lastVersion r.history path)) none := by
  rw [DocumentStore.writesUpTo_of_le (fun _ he hpath => DocumentStore.le_lastVersion he hpath),
    ← h, hr.stored path, serverWrites]

/-- The queue of a client after it enqueued writes. -/
theorem ReplicasSound.waiting_enqueue (hr : ReplicasSound r) {s : System} {c : ClientId}
    {new : List Pending} (h : Enqueues r.system s c new) (t : Time) (d : ClientId) :
    ((r.withStore c ((r.stores c).writeLocally
      (new.map fun p => ⟨t, p.write⟩))).stores d).waiting.map DocumentStore.Batch.write =
      (s.clients d).queue.map Pending.write := by
  by_cases hd : d = c
  · subst hd
    rw [Replicas.withStore_self, h.queue_self, List.map_append, ← hr.waiting d]
    simp [DocumentStore.LocalStore.writeLocally, Function.comp_def]
  · rw [Replicas.withStore_of_ne r _ hd, h.clients_other d hd, hr.waiting d]

/-- The queue of a client after an answer. -/
theorem ReplicasSound.waiting_answer (hr : ReplicasSound r) {s : System} {c : ClientId}
    {p : Pending} (hqueue : (r.system.clients c).queue = p :: (s.clients c).queue)
    (hother : ∀ d, d ≠ c → s.clients d = r.system.clients d)
    (a : DocumentStore.Answer Time) (d : ClientId) :
    ((r.withStore c ((r.stores c).answer a)).stores d).waiting.map DocumentStore.Batch.write =
      (s.clients d).queue.map Pending.write := by
  by_cases hd : d = c
  · subst hd
    have hwaiting := hr.waiting d
    rw [hqueue] at hwaiting
    rw [Replicas.withStore_self]
    cases hstore : (r.stores d).waiting with
    | nil => simp [hstore] at hwaiting
    | cons b bs =>
      simp only [hstore, List.map_cons, List.cons.injEq] at hwaiting
      simpa [DocumentStore.LocalStore.answer, hstore] using hwaiting.2
  · rw [Replicas.withStore_of_ne r _ hd, hother d hd, hr.waiting d]

/-- The oldest write of the queue in the store of the client. -/
theorem ReplicasSound.waiting_head (hr : ReplicasSound r) {c : ClientId} {p : Pending}
    {rest : List Pending} (hqueue : (r.system.clients c).queue = p :: rest) :
    ∃ b bs, (r.stores c).waiting = b :: bs ∧ b.write = p.write := by
  have hwaiting := hr.waiting c
  rw [hqueue] at hwaiting
  cases hstore : (r.stores c).waiting with
  | nil => simp [hstore] at hwaiting
  | cons b bs =>
    simp only [hstore, List.map_cons, List.cons.injEq] at hwaiting
    exact ⟨b, bs, rfl, hwaiting.1⟩

/-- The writes that what a client is shown of a document is made of. -/
def Replicas.made (r : Replicas) (c : ClientId) (settled : ℕ) (base : DocPath → ℕ)
    (path : DocPath) : List Write :=
  DocumentStore.madeOf r.history c settled base (r.stores c) path

/-- The writes to a document that a client has put into its queue. -/
def Replicas.enqueued (r r' : Replicas) (c : ClientId) (path : DocPath) : List Write :=
  (((r'.system.clients c).queue.drop (r.system.clients c).queue.length).map
    Pending.write).filter fun w => w.path = path

theorem Replicas.enqueued_eq_nil {c : ClientId} (h : (r'.system.clients c).queue.length ≤
    (r.system.clients c).queue.length) (path : DocPath) : r.enqueued r' c path = [] := by
  rw [Replicas.enqueued, List.drop_eq_nil_of_le h]
  rfl

/-- What a step makes of an explanation: the client has no fewer of the writes to any document, and
no fewer answers to its own. When the server rejects nothing, what it is shown of a document
gets its new writes, or it begins anew with what the server has sent. -/
structure Replicas.Advances (r r' : Replicas) (c : ClientId) (settled settled' : ℕ)
    (base base' : DocPath → ℕ) : Prop where
  settled_le : settled ≤ settled'
  base_le : ∀ path, base path ≤ base' path
  explains : r'.Explains c settled' base'
  made : (∀ a ∈ (r.stores c).answered, a.2 ≠ none) → ∀ path,
    r'.made c settled' base' path = r.made c settled base path ++ r.enqueued r' c path ∨
      DocumentStore.Restarts r'.history path (r'.made c settled' base' path)

/-- A step that leaves the history, the queue and the store of a client as they are. -/
theorem Replicas.Advances.of_same {c : ClientId} {settled : ℕ} {base : DocPath → ℕ}
    (h : r.Explains c settled base) (hhistory : r'.history = r.history)
    (hstore : r'.stores c = r.stores c)
    (hqueue : (r'.system.clients c).queue = (r.system.clients c).queue) :
    r.Advances r' c settled settled base base := by
  refine ⟨le_rfl, fun _ => le_rfl, by rw [Replicas.Explains, hhistory, hstore]; exact h, ?_⟩
  intro _ path
  rw [Replicas.enqueued_eq_nil (by rw [hqueue]), List.append_nil, Replicas.made, Replicas.made,
    hhistory, hstore]
  exact .inl rfl

/-- A step that leaves the history and the queue of writes of a client as they are. -/
theorem Replicas.Advances.of_batches {c : ClientId} {settled : ℕ} {base : DocPath → ℕ}
    (h : r'.Explains c settled base) (hhistory : r'.history = r.history)
    (hbatches : (r'.stores c).batches = (r.stores c).batches)
    (hqueue : (r'.system.clients c).queue.length ≤ (r.system.clients c).queue.length) :
    r.Advances r' c settled settled base base := by
  refine ⟨le_rfl, fun _ => le_rfl, h, ?_⟩
  intro _ path
  rw [Replicas.enqueued_eq_nil hqueue, List.append_nil, Replicas.made, Replicas.made, hhistory,
    DocumentStore.madeOf, DocumentStore.madeOf, DocumentStore.LocalStore.pendingWrites, hbatches]
  exact .inl rfl

/-- The store of a client after its write is committed. -/
theorem Replicas.Explains.commit_own {c : ClientId} {settled : ℕ} {base : DocPath → ℕ}
    (hlog : DocumentStore.Versioned r.history) (h : r.Explains c settled base)
    {b : DocumentStore.Batch Time DocPath Field FieldValue}
    {bs : List (DocumentStore.Batch Time DocPath Field FieldValue)}
    (hwaiting : (r.stores c).waiting = b :: bs) (now : Time) :
    DocumentStore.Explained FieldValue.eval FieldValue.ackEval
      (r.history ++ [⟨r.history.length + 1, c, now, b.write⟩]) c settled base
      ((r.stores c).answer (some (r.history.length + 1, now))) := by
  rw [DocumentStore.LocalStore.answer, hwaiting]
  exact h.concat hlog rfl (h.answered.concat_own hlog h.settled_le)

/-- The store of a client after a write of another one is committed. -/
theorem Replicas.Explains.commit_other {c : ClientId} {settled : ℕ} {base : DocPath → ℕ}
    (hlog : DocumentStore.Versioned r.history) (h : r.Explains c settled base) {e : ServerEntry}
    (hversion : e.version = r.history.length + 1) (hauthor : e.author ≠ c) :
    DocumentStore.Explained FieldValue.eval FieldValue.ackEval (r.history ++ [e]) c settled base
      (r.stores c) :=
  h.concat hlog hversion (h.answered.concat_other hauthor)

/-- A client lays its new writes over what it is shown. -/
theorem Replicas.Explains.enqueue {e : Event} {t : Time} {new : List Pending} {settled : ℕ}
    {base : DocPath → ℕ} {s : System} (h : r.Explains e.client settled base)
    (hnew : Enqueues r.system s e.client new)
    (hr' : r' = { r.withStore e.client ((r.stores e.client).writeLocally
      (new.map fun p => ⟨t, p.write⟩)) with system := s }) :
    r.Advances r' e.client settled settled base base := by
  have hstore : r'.stores e.client =
      (r.stores e.client).writeLocally (new.map fun p => ⟨t, p.write⟩) := by
    rw [hr']
    exact Replicas.withStore_self r _ _
  have hhistory : r'.history = r.history := by rw [hr']; rfl
  have hsystem : r'.system = s := by rw [hr']
  refine ⟨le_rfl, fun _ => le_rfl, ?_, ?_⟩
  · rw [Replicas.Explains, hhistory, hstore]
    exact h.writeLocally _
  · intro _ path
    left
    rw [Replicas.made, Replicas.made, hhistory, hstore, DocumentStore.madeOf, DocumentStore.madeOf,
      DocumentStore.LocalStore.pendingWrites_writeLocally, Replicas.enqueued, hsystem,
      hnew.queue_self, List.drop_left]
    simp [List.filter_map, Function.comp_def]

/-- The server commits a write of this client or of another one. -/
theorem ReplicasSound.advances_commit (hr : ReplicasSound r) {c d : ClientId} {settled : ℕ}
    {base : DocPath → ℕ} {now : Time} {p : Pending} {rest : List Pending}
    (hexplains : r.Explains c settled base)
    (hcommit : Commits r.system r'.system d now p rest)
    (hr' : r' = { r.withStore d ((r.stores d).answer (some (r.history.length + 1, now))) with
      system := r'.system
      history := r.history ++ [⟨r.history.length + 1, d, now, p.write⟩] }) :
    r.Advances r' c settled settled base base := by
  have hhistory : r'.history = r.history ++ [⟨r.history.length + 1, d, now, p.write⟩] := by
    rw [hr']
  have hqueue : (r'.system.clients c).queue.length ≤ (r.system.clients c).queue.length := by
    by_cases hc : c = d
    · subst hc
      rw [hcommit.queue_self, hcommit.queue_eq]
      exact Nat.le_succ _
    · rw [hcommit.clients_other c hc]
  have hbatches : (r'.stores c).batches = (r.stores c).batches := by
    rw [hr']
    by_cases hc : c = d
    · subst hc
      simpa using DocumentStore.LocalStore.batches_answer _
    · simp [Replicas.withStore_of_ne r _ hc]
  refine ⟨le_rfl, fun _ => le_rfl, ?_, ?_⟩
  · by_cases hc : c = d
    · subst hc
      obtain ⟨b, bs, hwaiting, hwrite⟩ := hr.waiting_head hcommit.queue_eq
      rw [hr', Replicas.Explains]
      simpa [← hwrite] using hexplains.commit_own hr.versioned hwaiting now
    · have hother := hexplains.commit_other hr.versioned
        (e := ⟨r.history.length + 1, d, now, p.write⟩) rfl (Ne.symm hc)
      rw [hr', Replicas.Explains]
      simpa [Replicas.withStore_of_ne r _ hc] using hother
  · intro _ path
    rw [Replicas.enqueued_eq_nil hqueue, List.append_nil, Replicas.made, Replicas.made, hhistory,
      DocumentStore.madeOf_concat hexplains rfl, DocumentStore.madeOf, DocumentStore.madeOf,
      DocumentStore.LocalStore.pendingWrites, hbatches]
    exact .inl rfl

/-- The client processes a document that has arrived. -/
theorem ReplicasSound.advances_receive (hr : ReplicasSound r) {c : ClientId} {settled : ℕ}
    {base : DocPath → ℕ} {store : ClientStore} (hexplains : r.Explains c settled base)
    (hstore : (r.stores c).applyRemoteEvent = some store) :
    ∃ base', r.Advances (r.withStore c store) c settled settled base base' := by
  cases hupdates : (r.stores c).updates with
  | nil => simp [DocumentStore.LocalStore.applyRemoteEvent, hupdates] at hstore
  | cons u rest =>
    obtain ⟨base', store', hstore', hexplained, _, hanswered, hwaiting, hle, _, hbase⟩ :=
      hexplains.applyRemoteEvent hr.versioned hupdates
    obtain rfl := Option.some.inj (hstore.symm.trans hstore')
    have hbatches : store.batches = (r.stores c).batches := by
      rw [DocumentStore.LocalStore.batches, hanswered, hwaiting]
      rfl
    refine ⟨base', le_rfl, hle, ?_, ?_⟩
    · rw [Replicas.Explains, Replicas.withStore_self]
      exact hexplained
    · intro _ path
      have hnone : r.enqueued (r.withStore c store) c path = [] :=
        Replicas.enqueued_eq_nil le_rfl path
      rw [hnone, List.append_nil, Replicas.made, Replicas.made, Replicas.withStore_self]
      exact DocumentStore.madeOf_applyRemoteEvent hbatches (hbase path)

/-- The client processes an answer of the server. -/
theorem ReplicasSound.advances_acknowledge (hr : ReplicasSound r) {c : ClientId} {settled : ℕ}
    {base : DocPath → ℕ} {store : ClientStore} (hexplains : r.Explains c settled base)
    (hstore : (r.stores c).acknowledgeBatch FieldValue.ackEval = some store) :
    ∃ settled', r.Advances (r.withStore c store) c settled settled' base base := by
  cases hanswered : (r.stores c).answered with
  | nil => simp [DocumentStore.LocalStore.acknowledgeBatch, hanswered] at hstore
  | cons a rest =>
    obtain ⟨settled', store', hstore', hle, hexplained, hanswered', hwaiting, _, hown⟩ :=
      hexplains.acknowledgeBatch hr.versioned hanswered
    obtain rfl := Option.some.inj (hstore.symm.trans hstore')
    refine ⟨settled', hle, fun _ => le_rfl, ?_, ?_⟩
    · rw [Replicas.Explains, Replicas.withStore_self]
      exact hexplained
    · intro haccepted path
      have hnone : r.enqueued (r.withStore c store) c path = [] :=
        Replicas.enqueued_eq_nil le_rfl path
      rw [hnone, List.append_nil, Replicas.made, Replicas.made, Replicas.withStore_self]
      refine DocumentStore.madeOf_acknowledgeBatch
        (DocumentStore.LocalStore.batches_of_answered hanswered hanswered' hwaiting) ?_
      exact hown (haccepted a (by rw [hanswered]; exact List.mem_cons_self)) path

/-- A step advances every client. -/
theorem ReplicasSound.advances (hr : ReplicasSound r) {e : ReplicaEvent}
    (h : r.step e = some r') {c : ClientId} {settled : ℕ} {base : DocPath → ℕ}
    (hexplains : r.Explains c settled base) :
    ∃ settled' base', r.Advances r' c settled settled' base base' := by
  rcases Replicas.step_cases h with ⟨e', t, new, _, _, _, _, hnew, hr'⟩ |
    ⟨d, now, t, p, rest, _, hcommit, hr'⟩ | ⟨d, t, _, hreject, hr'⟩ |
    ⟨d, path, document, _, hdocument, hr'⟩ | ⟨d, store, _, hstore, rfl⟩ | ⟨d, store, _, hstore, rfl⟩
  · refine ⟨settled, base, ?_⟩
    by_cases hc : c = e'.client
    · subst hc
      exact hexplains.enqueue hnew hr'
    · refine .of_same hexplains (by rw [hr']; rfl) ?_ (by rw [hnew.clients_other c hc])
      rw [hr']
      exact Replicas.withStore_of_ne r _ hc
  · exact ⟨settled, base, hr.advances_commit hexplains hcommit hr'⟩
  · refine ⟨settled, base, ?_⟩
    by_cases hc : c = d
    · subst hc
      refine .of_batches ?_ (by rw [hr']; rfl) ?_ ?_
      · rw [hr', Replicas.Explains]
        simpa using hexplains.reject
      · rw [hr']
        simpa using DocumentStore.LocalStore.batches_answer none
      · obtain ⟨p, hp⟩ := hreject.queue_self
        rw [hp]
        exact Nat.le_succ _
    · refine .of_same hexplains (by rw [hr']; rfl) ?_ (by rw [hreject.clients_other c hc])
      rw [hr']
      exact Replicas.withStore_of_ne r _ hc
  · refine ⟨settled, base, ?_⟩
    by_cases hc : c = d
    · subst hc
      refine .of_batches ?_ (by rw [hr']; rfl) (by rw [hr']; simp; rfl) (by rw [hr']; rfl)
      rw [hr', Replicas.Explains]
      simpa using hexplains.send le_rfl (hr.sent hdocument)
    · exact .of_same hexplains (by rw [hr']; rfl) (by rw [hr', Replicas.withStore_of_ne r _ hc])
        (by rw [hr']; rfl)
  · by_cases hc : c = d
    · subst hc
      exact ⟨settled, hr.advances_receive hexplains hstore⟩
    · exact ⟨settled, base, .of_same hexplains rfl (Replicas.withStore_of_ne r _ hc) rfl⟩
  · by_cases hc : c = d
    · subst hc
      obtain ⟨settled', hadvances⟩ := hr.advances_acknowledge hexplains hstore
      exact ⟨settled', base, hadvances⟩
    · exact ⟨settled, base, .of_same hexplains rfl (Replicas.withStore_of_ne r _ hc) rfl⟩

theorem ReplicasSound.step (hr : ReplicasSound r) {e : ReplicaEvent} (h : r.step e = some r') :
    ReplicasSound r' := by
  have hexplained : ∀ c, ∃ settled base, r'.Explains c settled base := by
    intro c
    obtain ⟨settled, base, hexplains⟩ := hr.explained c
    obtain ⟨settled', base', hadvances⟩ := hr.advances h hexplains
    exact ⟨settled', base', hadvances.explains⟩
  have hsame : ∀ (c : ClientId) (store : ClientStore), store.waiting = (r.stores c).waiting →
      r' = r.withStore c store → ReplicasSound r' := by
    rintro c store hwaiting rfl
    refine ⟨hr.versioned, hr.stored, hr.written, ?_, hexplained⟩
    intro d
    by_cases hd : d = c
    · subst hd
      rw [Replicas.withStore_self, hwaiting]
      exact hr.waiting d
    · rw [Replicas.withStore_of_ne r _ hd]
      exact hr.waiting d
  rcases Replicas.step_cases h with ⟨e', t, new, _, _, _, _, hnew, hr'⟩ |
    ⟨d, now, t, p, rest, _, hcommit, hr'⟩ | ⟨d, t, _, hreject, hr'⟩ |
    ⟨d, path, document, _, _, hr'⟩ | ⟨d, store, _, hstore, hr'⟩ | ⟨d, store, _, hstore, hr'⟩
  · have hhistory : r'.history = r.history := by
      rw [hr']
      rfl
    refine ⟨by rw [hhistory]; exact hr.versioned, ?_, ?_, ?_, hexplained⟩
    · rw [hhistory, hnew.db_eq]
      exact hr.stored
    · rw [hhistory, hnew.db_eq]
      exact hr.written
    · rw [hr']
      exact hr.waiting_enqueue hnew t
  · have hhistory : r'.history = r.history ++ [⟨r.history.length + 1, d, now, p.write⟩] := by
      rw [hr']
    refine ⟨by rw [hhistory]; exact hr.versioned.concat rfl, ?_, ?_, ?_, hexplained⟩
    · rw [hhistory]
      exact hr.stored_commit hcommit
    · intro e' he'
      rw [hhistory] at he'
      rcases List.mem_append.mp he' with he' | he'
      · exact hcommit.mem_of_mem (hr.written e' he')
      · obtain rfl := List.mem_singleton.mp he'
        exact DocumentStore.Write.path_mem_commit hcommit.commit_eq
    · rw [hr']
      refine hr.waiting_answer (p := p) ?_ hcommit.clients_other _
      rw [hcommit.queue_self]
      exact hcommit.queue_eq
  · have hhistory : r'.history = r.history := by
      rw [hr']
      rfl
    refine ⟨by rw [hhistory]; exact hr.versioned, ?_, ?_, ?_, hexplained⟩
    · rw [hhistory, hreject.db_eq]
      exact hr.stored
    · rw [hhistory, hreject.db_eq]
      exact hr.written
    · rw [hr']
      obtain ⟨p, hp⟩ := hreject.queue_self
      exact hr.waiting_answer hp hreject.clients_other _
  · refine hsame d _ ?_ hr'
    rfl
  · exact hsame d store (DocumentStore.LocalStore.queue_applyRemoteEvent hstore).2.1 hr'
  · exact hsame d store (DocumentStore.LocalStore.queue_acknowledgeBatch hstore).2.1 hr'

theorem Replicas.ReachableWithRejections.sound {owner : ClientId → Email}
    (hr : r.ReachableWithRejections owner) : ReplicasSound r :=
  Runs.Reachable.invariant hr (.init owner) (fun _ _ _ _ hu _ h => hu.step h)

end sound

/-! ## What a client is shown -/

/-- The writes that lie over the cached version of a document. -/
def Replicas.overlaid (r : Replicas) (c : ClientId) (path : DocPath) : List (Time × Write) :=
  if r.SignedIn c then (r.stores c).pendingWrites path else []

/-- What client `c` is shown: each document is made of all writes to it up to the version `base`,
of the client's own writes from there up to the version `settled`, and of its own writes in
the queue. No write of the client is left out while its account is signed in. -/
structure Replicas.Shows (r : Replicas) (c : ClientId) (settled : ℕ) (base : DocPath → ℕ) :
    Prop where
  shown : ∀ path, (r.shown c).lookup path =
    DocumentStore.replay FieldValue.localEval (r.overlaid c path)
      ((DocumentStore.replay FieldValue.ackEval
        (DocumentStore.ownWrites r.history c path (base path) settled)
        (DocumentStore.replay FieldValue.eval
          (DocumentStore.writesUpTo r.history path (base path)) none)).map
        (DocumentStore.mapFields LocalValue.known))
  committed : r.SignedIn c → ∀ e ∈ r.history, e.author = c → e.version ≤ base e.write.path ∨
    e.stamped ∈ DocumentStore.ownWrites r.history c e.write.path (base e.write.path) settled ∨
    e.write ∈ (r.overlaid c e.write.path).map Prod.snd
  queued : r.SignedIn c → ∀ p ∈ (r.system.clients c).queue,
    p.write ∈ (r.overlaid c p.write.path).map Prod.snd

/-- A write in the queue is pending. -/
theorem Replicas.mem_pendingWrites {r : Replicas} {c : ClientId}
    {b : DocumentStore.Batch Time DocPath Field FieldValue}
    (hb : b ∈ (r.stores c).batches) :
    b.write ∈ ((r.stores c).pendingWrites b.write.path).map Prod.snd := by
  refine List.mem_map.mpr ⟨(b.localWriteTime, b.write), ?_, rfl⟩
  exact List.mem_map_of_mem (List.mem_filter.mpr ⟨hb, decide_eq_true rfl⟩)

/-- An unanswered write is pending. -/
theorem ReplicasSound.pending_of_queued {r : Replicas} (hr : ReplicasSound r) {c : ClientId}
    {p : Pending} (hp : p ∈ (r.system.clients c).queue) :
    p.write ∈ ((r.stores c).pendingWrites p.write.path).map Prod.snd := by
  have hmem : p.write ∈ (r.stores c).waiting.map DocumentStore.Batch.write := by
    rw [hr.waiting c]
    exact List.mem_map_of_mem hp
  obtain ⟨b, hb, hwrite⟩ := List.mem_map.mp hmem
  rw [← hwrite]
  exact Replicas.mem_pendingWrites (List.mem_append_right _ hb)

/-- A committed write of the client is in its cache, or its answer is not processed and it is
pending. -/
theorem ReplicasSound.applied_or_pending {r : Replicas} (hr : ReplicasSound r) {c : ClientId}
    {settled : ℕ} {base : DocPath → ℕ} (h : r.Explains c settled base) {e : ServerEntry}
    (he : e ∈ r.history) (hauthor : e.author = c) :
    e.version ≤ base e.write.path ∨
      e.stamped ∈ DocumentStore.ownWrites r.history c e.write.path (base e.write.path) settled ∨
      e.write ∈ ((r.stores c).pendingWrites e.write.path).map Prod.snd := by
  by_cases hbase : e.version ≤ base e.write.path
  · exact .inl hbase
  · by_cases hsettled : e.version ≤ settled
    · refine .inr (.inl (List.mem_map_of_mem (List.mem_filter.mpr ⟨he, ?_⟩)))
      exact decide_eq_true ⟨rfl, hauthor, by omega, hsettled⟩
    · obtain ⟨b, hb, hwrite⟩ := h.answered.mem_of_lt hr.versioned he hauthor (by omega)
      refine .inr (.inr ?_)
      rw [← hwrite]
      exact Replicas.mem_pendingWrites (List.mem_append_left _ (List.mem_map_of_mem hb))

/-- What lies under the writes of the queue. -/
theorem Replicas.Explains.lookup_view {r : Replicas} {c : ClientId} {settled : ℕ}
    {base : DocPath → ℕ} (h : r.Explains c settled base) (path : DocPath) :
    (r.view c).lookup path =
      DocumentStore.replay FieldValue.localEval ((r.stores c).pendingWrites path)
        ((DocumentStore.replay FieldValue.ackEval
          (DocumentStore.ownWrites r.history c path (base path) settled)
          (DocumentStore.replay FieldValue.eval
            (DocumentStore.writesUpTo r.history path (base path)) none)).map
          (DocumentStore.mapFields LocalValue.known)) :=
  h.lookup_localView _ _ path

theorem ReplicasSound.shows {r : Replicas} (hr : ReplicasSound r) {c : ClientId} {settled : ℕ}
    {base : DocPath → ℕ} (h : r.Explains c settled base) : r.Shows c settled base where
  shown path := by
    by_cases huser : r.SignedIn c
    · rw [Replicas.shown_of_signedIn huser, Replicas.overlaid, if_pos huser]
      exact h.lookup_view path
    · rw [Replicas.shown, if_neg huser, Replicas.overlaid, if_neg huser]
      exact h.lookup_documentsOf _ path
  committed huser e he hauthor := by
    rw [Replicas.overlaid, if_pos huser]
    exact hr.applied_or_pending h he hauthor
  queued huser p hp := by
    rw [Replicas.overlaid, if_pos huser]
    exact hr.pending_of_queued hp

/-- `ann` owns the first device and `bob` the others. -/
def sampleOwner (c : ClientId) : Email := if c = 0 then "ann" else "bob"

/-- `ann` creates a chat and adds `bob`, who is sent the chat and posts a message in it. -/
def sampleReplicas : List ReplicaEvent :=
  [.act (.signIn 0 "ann") 1, .act (.call 0 (.newChat "tea" "Tea time")) 1,
   .act (.commit 0 1) 1, .act (.commit 0 1) 1, .acknowledge 0, .acknowledge 0,
   .act (.call 0 (.addNewUser "tea" { email := some "bob", name := some "Bob" })) 2,
   .act (.commit 0 2) 2, .act (.commit 0 2) 2, .act (.signIn 1 "bob") 2,
   .send 1 (.chat "tea"), .receive 1, .act (.call 1 (.sendMessage "tea" "m1" "hello")) 5]

end MessagingApp
