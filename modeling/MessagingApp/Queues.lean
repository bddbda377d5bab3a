import MessagingApp.Steps

/-!
# What waits in the queues

Merges may create documents, so the order in which documents come into existence
matters. This file shows that every waiting write acts on a document that is
stored or that an earlier write of the same queue creates, that every waiting
write comes from its call, and that a chat is created at most once.
-/

namespace MessagingApp

/-! ## Grounded queues -/

/-- Every waiting write acts on a known document, or on one that an earlier write of the
queue creates. -/
def Grounded (known : DocPath → Prop) : List Pending → Prop
  | [] => True
  | p :: queue =>
    (∀ path ∈ p.origin.target, known path) ∧
      Grounded (fun path => known path ∨ path = p.write.path) queue

/-- Knowing more documents keeps a queue grounded. -/
theorem Grounded.mono {known known' : DocPath → Prop} {queue : List Pending}
    (hsub : ∀ path, known path → known' path) (h : Grounded known queue) :
    Grounded known' queue := by
  induction queue generalizing known known' with
  | nil => trivial
  | cons p queue ih =>
    exact ⟨fun path hpath => hsub path (h.1 path hpath),
      ih (fun path hpath => hpath.imp_left (hsub path)) h.2⟩

/-- Writes on documents that are known or in the queue can be appended. -/
theorem Grounded.append {known : DocPath → Prop} {queue new : List Pending}
    (h : Grounded known queue)
    (hnew : ∀ p ∈ new, ∀ path ∈ p.origin.target,
      known path ∨ path ∈ queue.map (fun p => p.write.path)) :
    Grounded known (queue ++ new) := by
  induction queue generalizing known with
  | nil =>
    induction new generalizing known with
    | nil => trivial
    | cons p new ih =>
      have hknown : ∀ q ∈ p :: new, ∀ path ∈ q.origin.target, known path := by
        simpa using hnew
      refine ⟨hknown p List.mem_cons_self, ih trivial ?_⟩
      intro q hq path hpath
      exact .inl (.inl (hknown q (List.mem_cons_of_mem p hq) path hpath))
  | cons p queue ih =>
    refine ⟨h.1, ih h.2 ?_⟩
    intro q hq path hpath
    rcases hnew q hq path hpath with hknown | hmem
    · exact .inl (.inl hknown)
    · rcases List.mem_cons.mp hmem with heq | hmem
      · exact .inl (.inr heq)
      · exact .inr hmem

/-- The chats that waiting writes are about to create. -/
def creates (queue : List Pending) : List ChatId :=
  queue.filterMap fun p =>
    match p.origin, p.write.path with
    | .newChat ref _, .chat _ => some ref
    | _, _ => none

/-- A call creates a chat only under the identifier generated for it. -/
theorem creates_issued {call : Call} {user : Option Email} {ws : List Write}
    (hws : call.writes user = some ws) :
    creates (ws.map (Pending.mk call)) = [] ∨
      ∃ ref, call.generatedId = some ref ∧ creates (ws.map (Pending.mk call)) = [ref] := by
  cases call with
  | newChat ref name =>
    obtain ⟨email, _, rfl⟩ := newChat_eq_some.mp hws
    exact .inr ⟨ref, rfl, rfl⟩
  | _ => exact .inl (List.filterMap_eq_nil_iff.mpr (by simp))

/-! ## The invariant -/

/-- What holds of one client's queue, given the stored documents and the identifiers
generated so far. -/
structure QueueSound (db : Db) (ids : List String) (client : Client) : Prop where
  genuine : ∀ p ∈ client.queue, Genuine p.origin p.write
  grounded : Grounded (· ∈ db) client.queue
  completed : ∀ m ∈ client.completions, DocPath.chat m.chat ∈ db
  creates_nodup : (creates client.queue).Nodup
  creates_unborn : ∀ ref ∈ creates client.queue, DocPath.chat ref ∉ db
  creates_generated : ∀ ref ∈ creates client.queue, ref ∈ ids

/-- What holds of all queues in every state reached by accepted writes. -/
structure QueuesSound (s : System) : Prop where
  client : ∀ c, QueueSound s.db s.generatedIds (s.clients c)
  creates_disjoint : ∀ c d, c ≠ d →
    (creates (s.clients c).queue).Disjoint (creates (s.clients d).queue)
  stored_generated : ∀ ref, DocPath.chat ref ∈ s.db → ref ∈ s.generatedIds

/-- Generating further identifiers and committing writes that create none of the chats the
queue creates keeps a queue sound. -/
theorem QueueSound.mono {db db' : Db} {ids ids' : List String} {client : Client}
    (h : QueueSound db ids client) (hdb : ∀ path ∈ db, path ∈ db') (hids : ∀ i ∈ ids, i ∈ ids')
    (hunborn : ∀ ref ∈ creates client.queue, DocPath.chat ref ∉ db') :
    QueueSound db' ids' client where
  genuine := h.genuine
  grounded := h.grounded.mono hdb
  completed m hm := hdb _ (h.completed m hm)
  creates_nodup := h.creates_nodup
  creates_unborn := hunborn
  creates_generated ref hmem := hids ref (h.creates_generated ref hmem)

theorem QueuesSound.init : QueuesSound System.init := by
  refine ⟨fun c => ⟨?_, ?_, ?_, ?_, ?_, ?_⟩, ?_, ?_⟩ <;>
    simp [System.init, creates, Grounded]

theorem QueuesSound.idle {s t : System} (hs : QueuesSound s) (h : Idle s t) :
    QueuesSound t where
  client c := by
    obtain ⟨hgenuine, hgrounded, hcompleted, hnodup, hunborn, hgenerated⟩ := hs.client c
    rw [h.db_eq, h.ids_eq]
    rw [← h.queue_eq c] at hgenuine hgrounded hnodup hunborn hgenerated
    rw [← h.completions_eq c] at hcompleted
    exact ⟨hgenuine, hgrounded, hcompleted, hnodup, hunborn, hgenerated⟩
  creates_disjoint c d := by
    rw [h.queue_eq, h.queue_eq]
    exact hs.creates_disjoint c d
  stored_generated := by
    rw [h.db_eq, h.ids_eq]
    exact hs.stored_generated

/-! ## Issuing -/

section issues

variable {s t : System} {c : ClientId} {call : Call} {ws : List Write}

/-- What a call acts on is known to the client that makes it. -/
theorem QueuesSound.target_known (hs : QueuesSound s) (h : Issues s t c call ws) :
    ∀ path ∈ call.target, s.Known c path := by
  rcases h.source with hallowed | ⟨m, hm, rfl⟩ | ⟨emailText, rfl⟩
  · exact hallowed.2.1
  · intro path hpath
    obtain rfl := Option.some.inj hpath
    exact .inl ((hs.client c).completed m hm)
  · intro path hpath
    cases hpath

/-- A chat is created under an identifier that was not in use. -/
theorem Issues.creates_fresh (h : Issues s t c call ws) :
    ∀ ref ∈ creates (ws.map (Pending.mk call)), ref ∉ s.generatedIds ∧ ref ∈ t.generatedIds := by
  intro ref hmem
  rcases creates_issued h.writes_eq with hnil | ⟨ref', hid, hone⟩
  · simp [hnil] at hmem
  · obtain rfl : ref = ref' := by simpa [hone] using hmem
    refine ⟨?_, by simp [h.ids_eq, hid]⟩
    rcases h.source with hallowed | ⟨m, _, rfl⟩ | ⟨emailText, rfl⟩
    · exact hallowed.2.2.1 ref hid
    · cases hid
    · cases hid

/-- The chats a queue creates after an `Issues` step. -/
theorem Issues.creates_self (h : Issues s t c call ws) :
    creates (t.clients c).queue =
      creates (s.clients c).queue ++ creates (ws.map (Pending.mk call)) := by
  rw [h.queue_self, creates, List.filterMap_append]
  rfl

theorem QueuesSound.issues (hs : QueuesSound s) (h : Issues s t c call ws) : QueuesSound t := by
  have hids : ∀ i ∈ s.generatedIds, i ∈ t.generatedIds := by
    intro i hi
    simp [h.ids_eq, hi]
  have hold : ∀ d, QueueSound t.db t.generatedIds (s.clients d) := by
    intro d
    rw [h.db_eq]
    exact (hs.client d).mono (fun _ hmem => hmem) hids (hs.client d).creates_unborn
  have hself : QueueSound t.db t.generatedIds (t.clients c) := by
    constructor
    case genuine =>
      intro p hp
      rcases h.mem_queue_or hp with hp | ⟨_, w, hw, rfl⟩
      · exact (hold c).genuine p hp
      · exact Call.genuine_of_mem h.writes_eq hw
    case grounded =>
      rw [h.queue_self, h.db_eq]
      refine (hs.client c).grounded.append ?_
      intro p hp path hpath
      obtain ⟨w, _, rfl⟩ := List.mem_map.mp hp
      exact hs.target_known h path hpath
    case completed =>
      intro m hm
      exact (hold c).completed m (h.completions_self m hm)
    case creates_nodup =>
      have hnew : (creates (ws.map (Pending.mk call))).Nodup := by
        rcases creates_issued h.writes_eq with hnil | ⟨ref, _, hone⟩
        · simp [hnil]
        · simp [hone]
      rw [h.creates_self]
      refine List.nodup_append'.mpr ⟨(hold c).creates_nodup, hnew, ?_⟩
      intro ref hmem hnew
      exact (h.creates_fresh ref hnew).1 ((hs.client c).creates_generated ref hmem)
    case creates_unborn =>
      intro ref hmem
      rw [h.creates_self] at hmem
      rw [h.db_eq]
      rcases List.mem_append.mp hmem with hmem | hnew
      · exact (hs.client c).creates_unborn ref hmem
      · exact fun hstored => (h.creates_fresh ref hnew).1 (hs.stored_generated ref hstored)
    case creates_generated =>
      intro ref hmem
      rw [h.creates_self] at hmem
      rcases List.mem_append.mp hmem with hmem | hnew
      · exact (hold c).creates_generated ref hmem
      · exact (h.creates_fresh ref hnew).2
  -- A new chat identifier is not in use in any other queue.
  have hdisjoint : ∀ d, d ≠ c →
      (creates (t.clients c).queue).Disjoint (creates (s.clients d).queue) := by
    intro d hd ref hmem hother
    rw [h.creates_self] at hmem
    rcases List.mem_append.mp hmem with hmem | hnew
    · exact hs.creates_disjoint c d (Ne.symm hd) hmem hother
    · exact (h.creates_fresh ref hnew).1 ((hs.client d).creates_generated ref hother)
  constructor
  case client => exact h.forall_clients hold hself
  case creates_disjoint =>
    intro d d' hne
    by_cases hd : d = c
    · subst hd
      rw [h.clients_other d' (Ne.symm hne)]
      exact hdisjoint d' (Ne.symm hne)
    · rw [h.clients_other d hd]
      by_cases hd' : d' = c
      · subst hd'
        exact fun ref hmem hother => hdisjoint d hd hother hmem
      · rw [h.clients_other d' hd']
        exact hs.creates_disjoint d d' hne
  case stored_generated =>
    intro ref hmem
    rw [h.db_eq] at hmem
    exact hids ref (hs.stored_generated ref hmem)

end issues

/-! ## Committing -/

section commits

variable {s t : System} {c : ClientId} {now : Time} {p : Pending} {rest : List Pending}

/-- The write at the head of a queue comes from its call. -/
theorem QueuesSound.genuine_head (hs : QueuesSound s) (h : Commits s t c now p rest) :
    Genuine p.origin p.write :=
  (hs.client c).genuine p (by simp [h.queue_eq])

/-- The write at the head of a queue acts on a stored document. -/
theorem QueuesSound.target_stored (hs : QueuesSound s) (h : Commits s t c now p rest) :
    ∀ path ∈ p.origin.target, path ∈ s.db := by
  have hgrounded := (hs.client c).grounded
  rw [h.queue_eq] at hgrounded
  exact hgrounded.1

/-- A document that a commit does not overwrite was stored before. -/
theorem QueuesSound.path_stored (hs : QueuesSound s) (h : Commits s t c now p rest)
    (hmode : p.write.mode ≠ .set) : p.write.path ∈ s.db :=
  hs.target_stored h _ ((hs.genuine_head h).target_eq hmode)

theorem Commits.mem_of_mem (h : Commits s t c now p rest) {path : DocPath} (hmem : path ∈ s.db) :
    path ∈ t.db :=
  DocumentStore.Write.mem_commit_of_mem h.commit_eq hmem

/-- A chat found after a commit was there before, or the committed write creates it. -/
theorem QueuesSound.chat_mem (hs : QueuesSound s) (h : Commits s t c now p rest) {ref : ChatId}
    (hmem : DocPath.chat ref ∈ t.db) : DocPath.chat ref ∈ s.db ∨ ref ∈ creates [p] := by
  rcases DocumentStore.Write.mem_of_mem_commit h.commit_eq hmem with hpath | hold
  · by_cases hmode : p.write.mode = .set
    · right
      obtain ⟨user, name, horigin, _⟩ := (hs.genuine_head h).eq_baseDocument hmode hpath.symm
      simp [creates, horigin, ← hpath]
    · left
      rw [hpath]
      exact hs.path_stored h hmode
  · exact .inl hold

/-- The chats of a queue split into those of its head and those of the rest. -/
theorem creates_cons (p : Pending) (rest : List Pending) :
    creates (p :: rest) = creates [p] ++ creates rest := by
  rw [creates, ← List.singleton_append, List.filterMap_append]
  rfl

theorem QueuesSound.commits (hs : QueuesSound s) (h : Commits s t c now p rest) :
    QueuesSound t := by
  have hhead : creates (s.clients c).queue = creates [p] ++ creates rest := by
    rw [h.queue_eq, creates_cons]
  have hrest : ∀ ref ∈ creates rest, ref ∈ creates (s.clients c).queue := by
    intro ref hmem
    simp [hhead, hmem]
  have hsplit := List.nodup_append'.mp (hhead ▸ (hs.client c).creates_nodup)
  -- The committed write creates none of the chats that still wait to be created.
  have hother : ∀ d, d ≠ c → QueueSound t.db t.generatedIds (s.clients d) := by
    intro d hd
    refine (hs.client d).mono (fun _ => h.mem_of_mem) (by simp [h.ids_eq]) ?_
    intro ref hmem hstored
    rcases hs.chat_mem h hstored with hold | hnew
    · exact (hs.client d).creates_unborn ref hmem hold
    · exact hs.creates_disjoint d c hd hmem (by simp [hhead, hnew])
  have hself : QueueSound t.db t.generatedIds (t.clients c) := by
    constructor
    case genuine =>
      intro q hq
      exact (hs.client c).genuine q (h.mem_queue hq)
    case grounded =>
      have hgrounded := (hs.client c).grounded
      rw [h.queue_eq] at hgrounded
      rw [h.queue_self]
      refine hgrounded.2.mono ?_
      rintro path (hmem | rfl)
      · exact h.mem_of_mem hmem
      · exact DocumentStore.Write.path_mem_commit h.commit_eq
    case completed =>
      intro m hm
      rw [h.completions_self] at hm
      rcases List.mem_append.mp hm with hm | hm
      · exact h.mem_of_mem ((hs.client c).completed m hm)
      · cases horigin : p.origin with
        | sendMessage chat id text =>
          obtain rfl : m = ⟨chat, id⟩ := by simpa [System.completionOf, horigin] using hm
          exact h.mem_of_mem (hs.target_stored h _ (by simp [horigin, Call.target]))
        | _ => simp [System.completionOf, horigin] at hm
    case creates_nodup =>
      rw [h.queue_self]
      exact hsplit.2.1
    case creates_unborn =>
      intro ref hmem hstored
      rw [h.queue_self] at hmem
      rcases hs.chat_mem h hstored with hold | hnew
      · exact (hs.client c).creates_unborn ref (hrest ref hmem) hold
      · exact hsplit.2.2 hnew hmem
    case creates_generated =>
      intro ref hmem
      rw [h.queue_self] at hmem
      rw [h.ids_eq]
      exact (hs.client c).creates_generated ref (hrest ref hmem)
  have hsub : ∀ d, ∀ ref ∈ creates (t.clients d).queue, ref ∈ creates (s.clients d).queue := by
    intro d ref hmem
    by_cases hd : d = c
    · subst hd
      rw [h.queue_self] at hmem
      exact hrest ref hmem
    · rwa [h.clients_other d hd] at hmem
  constructor
  case client =>
    intro d
    by_cases hd : d = c
    · rwa [hd]
    · rw [h.clients_other d hd]
      exact hother d hd
  case creates_disjoint =>
    intro d d' hne ref hmem hmem'
    exact hs.creates_disjoint d d' hne (hsub d ref hmem) (hsub d' ref hmem')
  case stored_generated =>
    intro ref hstored
    rw [h.ids_eq]
    rcases hs.chat_mem h hstored with hold | hnew
    · exact hs.stored_generated ref hold
    · exact (hs.client c).creates_generated ref (by simp [hhead, hnew])

end commits

/-- No step deletes a document. -/
theorem System.mem_of_step {s t : System} {e : Event} (h : s.step e = some t) {path : DocPath}
    (hmem : path ∈ s.db) : path ∈ t.db := by
  rcases System.step_cases h with h | ⟨c, call, ws, _, h⟩ | ⟨c, now, p, rest, _, h⟩ | ⟨c, _, h⟩
  · rwa [h.db_eq]
  · rwa [h.db_eq]
  · exact h.mem_of_mem hmem
  · rwa [h.db_eq]

/-- **The server can accept the oldest write of a queue.** -/
theorem QueuesSound.exists_commit {s : System} (hs : QueuesSound s) {c : ClientId} {p : Pending}
    {rest : List Pending} (hqueue : (s.clients c).queue = p :: rest) :
    ∃ t, s.step (.commit c s.clock) = some t ∧ Commits s t c s.clock p rest := by
  have hbase : ∃ fields, p.write.base (s.db.lookup p.write.path) = some fields := by
    by_cases hmode : p.write.mode = .set
    · exact ⟨_, DocumentStore.Write.base_of_set hmode _⟩
    · have hgenuine := (hs.client c).genuine p (by simp [hqueue])
      have hgrounded := (hs.client c).grounded
      rw [hqueue] at hgrounded
      obtain ⟨d, hd⟩ := DocumentStore.exists_lookup
        (hgrounded.1 p.write.path (hgenuine.target_eq hmode))
      exact ⟨d, by rw [hd, DocumentStore.Write.base_of_ne_set hmode]⟩
  obtain ⟨fields, hfields⟩ := hbase
  have hstep : ∃ t, s.step (.commit c s.clock) = some t := by
    simp [System.step, System.commit, hqueue, commit, DocumentStore.Write.commit, hfields]
  obtain ⟨t, ht⟩ := hstep
  obtain ⟨q, rest', hcommit⟩ := System.commits_of_commit ht
  obtain ⟨rfl, rfl⟩ := List.cons.inj (hqueue.symm.trans hcommit.queue_eq)
  exact ⟨t, ht, hcommit⟩

/-- Every state reached by accepted writes has sound queues. -/
theorem System.Reachable.queuesSound {s : System} (hs : s.Reachable) : QueuesSound s :=
  hs.induction .init (fun _ _ _ h => h.idle) (fun _ _ _ _ _ _ h => h.issues)
    (fun _ _ _ _ _ _ _ h => h.commits)

end MessagingApp
