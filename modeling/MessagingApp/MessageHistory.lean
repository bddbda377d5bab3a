import MessagingApp.Outcomes
import MessagingApp.Queries

/-!
# The history of a chat

A message is written once, under an identifier of its own, and nothing writes to it
again. So whatever the clients do and however the server answers, the messages of a
chat only grow: what was listed stays, unchanged and in its order, and what comes
later is not older.
-/

namespace MessagingApp

/-- The message stored under a path. -/
def DocPath.message? : DocPath → Option MessageRef
  | .message c m => some ⟨c, m⟩
  | _ => none

theorem DocPath.message?_eq_some {path : DocPath} {m : MessageRef} :
    path.message? = some m ↔ path = .message m.chat m.message := by
  obtain ⟨chat, id⟩ := m
  cases path <;> simp [message?]

/-- The messages that wait in a queue. -/
def waiting (queue : List Pending) : List MessageRef :=
  queue.filterMap fun p => p.write.path.message?

theorem mem_waiting {queue : List Pending} {m : MessageRef} :
    m ∈ waiting queue ↔ ∃ p ∈ queue, p.write.path = .message m.chat m.message := by
  simp [waiting, DocPath.message?_eq_some]

theorem waiting_append (queue queue' : List Pending) :
    waiting (queue ++ queue') = waiting queue ++ waiting queue' := by
  rw [waiting, List.filterMap_append]
  rfl

/-- Only `sendMessage` issues a message, under the identifier generated for it. -/
theorem waiting_issued {call : Call} {user : Option Email} {ws : List Write}
    (hws : call.writes user = some ws) :
    waiting (ws.map (Pending.mk call)) = [] ∨ ∃ m, call.generatedId = some m.message ∧
      call.byUser = true ∧ waiting (ws.map (Pending.mk call)) = [m] := by
  cases call with
  | sendMessage chat id text =>
    obtain rfl := Option.some.inj hws
    cases user with
    | none => exact .inl rfl
    | some email => exact .inr ⟨⟨chat, id⟩, rfl, rfl, rfl⟩
  | newChat ref name =>
    obtain ⟨email, _, rfl⟩ := newChat_eq_some.mp hws
    exact .inl rfl
  | addNewUser chat user =>
    obtain ⟨email, name, _, _, rfl⟩ := addNewUser_eq_some.mp hws
    exact .inl rfl
  | _ =>
    obtain rfl := Option.some.inj hws
    exact .inl rfl

/-! ## The invariant -/

/-- What holds of the messages in every state, whatever the server answers. -/
structure MessagesSound (s : System) : Prop where
  genuine : ∀ c, ∀ p ∈ (s.clients c).queue, Genuine p.origin p.write
  /-- A stored message is what `sendMessage` wrote, at a time that is not in the future. -/
  stored : ∀ chat id d, s.db.lookup (.message chat id) = some d →
    id ∈ s.generatedIds ∧ ∃ fromEmail text time, time ≤ s.clock ∧
      d = newDocument time (messageDocument chat id fromEmail text)
  generated : ∀ c, ∀ m ∈ waiting (s.clients c).queue, m.message ∈ s.generatedIds
  unstored : ∀ c, ∀ m ∈ waiting (s.clients c).queue, DocPath.message m.chat m.message ∉ s.db
  once : ∀ c, (waiting (s.clients c).queue).Nodup
  disjoint : ∀ c d, c ≠ d →
    (waiting (s.clients c).queue).Disjoint (waiting (s.clients d).queue)

theorem MessagesSound.init : MessagesSound System.init := by
  constructor <;> simp [System.init, waiting]

/-- Steps that store nothing and add nothing to a queue keep the invariant. -/
theorem MessagesSound.of_sublist {s t : System} (hs : MessagesSound s) (hdb : t.db = s.db)
    (hclock : t.clock = s.clock) (hids : t.generatedIds = s.generatedIds)
    (hqueue : ∀ c, (t.clients c).queue.Sublist (s.clients c).queue) : MessagesSound t := by
  have hwaiting : ∀ c, (waiting (t.clients c).queue).Sublist (waiting (s.clients c).queue) :=
    fun c => (hqueue c).filterMap _
  constructor
  case genuine => exact fun c p hp => hs.genuine c p ((hqueue c).subset hp)
  case stored =>
    rw [hdb, hclock, hids]
    exact hs.stored
  case generated =>
    rw [hids]
    exact fun c m hm => hs.generated c m ((hwaiting c).subset hm)
  case unstored =>
    rw [hdb]
    exact fun c m hm => hs.unstored c m ((hwaiting c).subset hm)
  case once => exact fun c => (hs.once c).sublist (hwaiting c)
  case disjoint =>
    intro c d hcd m hm hm'
    exact hs.disjoint c d hcd ((hwaiting c).subset hm) ((hwaiting d).subset hm')

/-- A message is issued under an identifier that is not in use. -/
theorem Issues.waiting_fresh {s t : System} {c : ClientId} {call : Call} {ws : List Write}
    (h : Issues s t c call ws) :
    (waiting (ws.map (Pending.mk call))).Nodup ∧ ∀ m ∈ waiting (ws.map (Pending.mk call)),
      m.message ∉ s.generatedIds ∧ m.message ∈ t.generatedIds := by
  rcases waiting_issued h.writes_eq with hnil | ⟨m, hid, huser, hone⟩
  · simp [hnil]
  · rw [hone]
    refine ⟨List.nodup_singleton m, ?_⟩
    intro m' hm'
    obtain rfl := List.mem_singleton.mp hm'
    refine ⟨?_, by simp [h.ids_eq, hid]⟩
    rcases h.source with hallowed | ⟨m'', _, rfl⟩ | ⟨emailText, rfl⟩
    · exact hallowed.2.2.1 _ hid
    · cases huser
    · cases huser

theorem MessagesSound.issues {s t : System} {c : ClientId} {call : Call} {ws : List Write}
    (hs : MessagesSound s) (h : Issues s t c call ws) : MessagesSound t := by
  obtain ⟨hnodup, hfresh⟩ := h.waiting_fresh
  have hids : ∀ i ∈ s.generatedIds, i ∈ t.generatedIds := by
    intro i hi
    simp [h.ids_eq, hi]
  have hself : waiting (t.clients c).queue =
      waiting (s.clients c).queue ++ waiting (ws.map (Pending.mk call)) := by
    rw [h.queue_self, waiting_append]
  have hmem : ∀ d, ∀ m ∈ waiting (t.clients d).queue, m ∈ waiting (s.clients d).queue ∨
      d = c ∧ m ∈ waiting (ws.map (Pending.mk call)) := by
    intro d m hm
    by_cases hd : d = c
    · subst hd
      rw [hself] at hm
      exact (List.mem_append.mp hm).imp_right (fun hnew => ⟨rfl, hnew⟩)
    · rw [h.clients_other d hd] at hm
      exact .inl hm
  constructor
  case genuine =>
    intro d p hp
    rcases h.mem_queue_or hp with hp | ⟨_, w, hw, rfl⟩
    · exact hs.genuine d p hp
    · exact Call.genuine_of_mem h.writes_eq hw
  case stored =>
    rw [h.db_eq, h.clock_eq]
    exact fun chat id d hd => (hs.stored chat id d hd).imp_left (hids id)
  case generated =>
    intro d m hm
    rcases hmem d m hm with hm | ⟨_, hm⟩
    · exact hids _ (hs.generated d m hm)
    · exact (hfresh m hm).2
  case unstored =>
    intro d m hm hstored
    rw [h.db_eq] at hstored
    rcases hmem d m hm with hm | ⟨_, hm⟩
    · exact hs.unstored d m hm hstored
    · obtain ⟨document, hdocument⟩ := DocumentStore.exists_lookup hstored
      exact (hfresh m hm).1 (hs.stored _ _ _ hdocument).1
  case once =>
    refine h.forall_clients (P := fun client => (waiting client.queue).Nodup) hs.once ?_
    rw [hself]
    refine List.nodup_append'.mpr ⟨hs.once c, hnodup, ?_⟩
    exact fun m hm hm' => (hfresh m hm').1 (hs.generated c m hm)
  case disjoint =>
    intro d d' hne m hm hm'
    rcases hmem d m hm with hm | ⟨rfl, hm⟩ <;> rcases hmem d' m hm' with hm' | ⟨rfl, hm'⟩
    · exact hs.disjoint d d' hne hm hm'
    · exact (hfresh m hm').1 (hs.generated d m hm)
    · exact (hfresh m hm).1 (hs.generated d' m hm')
    · exact hne rfl

/-- Only `sendMessage` writes messages, each as one overwrite. -/
theorem Genuine.eq_messageDocument {call : Call} {w : Write} {chat : ChatId} {id : MessageId}
    (h : Genuine call w) (hpath : w.path = .message chat id) : ∃ fromEmail text,
      call = .sendMessage chat id text ∧ w = messageDocument chat id fromEmail text := by
  cases h with
  | message chat' id' fromEmail text =>
    obtain ⟨rfl, rfl⟩ := DocPath.message.inj hpath
    exact ⟨fromEmail, text, rfl, rfl⟩
  | _ => cases hpath

section commits

variable {s t : System} {c : ClientId} {now : Time} {p : Pending} {rest : List Pending}

/-- The messages that wait before a commit are that of the committed write and those that wait
after it. -/
theorem Commits.waiting_eq (h : Commits s t c now p rest) :
    waiting (s.clients c).queue = waiting [p] ++ waiting (t.clients c).queue := by
  rw [h.queue_eq, h.queue_self, ← waiting_append, List.singleton_append]

/-- A commit takes nothing into the queues. -/
theorem Commits.waiting_sublist (h : Commits s t c now p rest) (d : ClientId) :
    (waiting (t.clients d).queue).Sublist (waiting (s.clients d).queue) := by
  by_cases hd : d = c
  · subst hd
    rw [h.waiting_eq]
    exact List.sublist_append_right _ _
  · rw [h.clients_other d hd]

/-- What a commit stores waits nowhere any more. -/
theorem MessagesSound.not_waiting_of_commits (hs : MessagesSound s)
    (h : Commits s t c now p rest) {m : MessageRef}
    (hpath : p.write.path = .message m.chat m.message) (d : ClientId) :
    m ∉ waiting (t.clients d).queue := by
  intro hm
  have hhead : m ∈ waiting [p] := mem_waiting.mpr ⟨p, List.mem_singleton_self p, hpath⟩
  have hqueue := h.waiting_eq
  by_cases hd : d = c
  · subst hd
    have honce := hs.once d
    rw [hqueue] at honce
    exact (List.nodup_append'.mp honce).2.2 hhead hm
  · refine hs.disjoint d c hd ((h.waiting_sublist d).subset hm) ?_
    rw [hqueue]
    exact List.mem_append_left _ hhead

/-- The message a commit stores was not stored before, and is what its write says. -/
theorem MessagesSound.message_committed (hs : MessagesSound s) (h : Commits s t c now p rest)
    {chat : ChatId} {id : MessageId} (hpath : p.write.path = .message chat id) :
    DocPath.message chat id ∉ s.db ∧ id ∈ s.generatedIds ∧ ∃ fromEmail text,
      p = ⟨.sendMessage chat id text, messageDocument chat id fromEmail text⟩ ∧
        t.db.lookup (.message chat id) =
          some (newDocument now (messageDocument chat id fromEmail text)) := by
  have hhead : p ∈ (s.clients c).queue := by simp [h.queue_eq]
  have hwaiting : ⟨chat, id⟩ ∈ waiting (s.clients c).queue := mem_waiting.mpr ⟨p, hhead, hpath⟩
  refine ⟨hs.unstored c _ hwaiting, hs.generated c _ hwaiting, ?_⟩
  obtain ⟨fromEmail, text, horigin, hwrite⟩ := (hs.genuine c p hhead).eq_messageDocument hpath
  refine ⟨fromEmail, text, ?_, ?_⟩
  · rw [← horigin, ← hwrite]
  · obtain ⟨d, hbase, hlookup⟩ := DocumentStore.Write.lookup_commit_self h.commit_eq
    rw [hwrite, DocumentStore.Write.base_of_set rfl] at hbase
    obtain rfl := Option.some.inj hbase
    rwa [hpath, hwrite] at hlookup

theorem MessagesSound.commits (hs : MessagesSound s) (h : Commits s t c now p rest) :
    MessagesSound t := by
  constructor
  case genuine => exact fun d q hq => hs.genuine d q (h.mem_queue hq)
  case stored =>
    intro chat id d hd
    rw [h.ids_eq, h.clock_eq]
    by_cases hpath : p.write.path = .message chat id
    · obtain ⟨_, hid, fromEmail, text, _, hlookup⟩ := hs.message_committed h hpath
      obtain rfl := Option.some.inj (hlookup.symm.trans hd)
      exact ⟨hid, fromEmail, text, now, le_rfl, rfl⟩
    · rw [DocumentStore.Write.lookup_commit_of_ne h.commit_eq (Ne.symm hpath)] at hd
      obtain ⟨hid, fromEmail, text, time, hle, rfl⟩ := hs.stored chat id d hd
      exact ⟨hid, fromEmail, text, time, hle.trans h.clock_le, rfl⟩
  case generated =>
    rw [h.ids_eq]
    exact fun d m hm => hs.generated d m ((h.waiting_sublist d).subset hm)
  case unstored =>
    intro d m hm hstored
    rcases DocumentStore.Write.mem_of_mem_commit h.commit_eq hstored with hpath | hold
    · exact hs.not_waiting_of_commits h hpath.symm d hm
    · exact hs.unstored d m ((h.waiting_sublist d).subset hm) hold
  case once => exact fun d => (hs.once d).sublist (h.waiting_sublist d)
  case disjoint =>
    intro d d' hne m hm hm'
    exact hs.disjoint d d' hne ((h.waiting_sublist d).subset hm) ((h.waiting_sublist d').subset hm')

end commits

/-- A step keeps the invariant, whatever it is. -/
theorem MessagesSound.step {s t : System} {e : Event} (hs : MessagesSound s)
    (h : s.step e = some t) : MessagesSound t := by
  rcases System.step_cases h with h | ⟨c, call, ws, _, h⟩ | ⟨c, now, p, rest, _, h⟩ | ⟨c, _, h⟩
  · exact hs.of_sublist h.db_eq h.clock_eq h.ids_eq (fun d => by rw [h.queue_eq])
  · exact hs.issues h
  · exact hs.commits h
  · refine hs.of_sublist h.db_eq h.clock_eq h.ids_eq ?_
    intro d
    by_cases hd : d = c
    · subst hd
      obtain ⟨p, hp⟩ := h.queue_self
      rw [hp]
      exact List.sublist_cons_self p _
    · rw [h.clients_other d hd]

theorem System.ReachableWithRejections.messagesSound {s : System}
    (hs : s.ReachableWithRejections) : MessagesSound s :=
  Runs.Reachable.invariant hs .init (fun _ _ _ _ hu _ h => hu.step h)

/-! ## Along a run -/

/-- From `s` to `t` no message is lost or changed, and a new one is not older than the clock of
`s`. -/
structure KeepsHistory (s t : System) : Prop where
  kept : ∀ chat id d, s.db.lookup (.message chat id) = some d →
    t.db.lookup (.message chat id) = some d
  later : ∀ chat id d, t.db.lookup (.message chat id) = some d →
    s.db.lookup (.message chat id) = some d ∨
      ∃ time, s.clock ≤ time ∧ timestampField d .time = some time
  clock_le : s.clock ≤ t.clock

theorem KeepsHistory.refl (s : System) : KeepsHistory s s :=
  ⟨fun _ _ _ hd => hd, fun _ _ _ hd => .inl hd, le_rfl⟩

theorem KeepsHistory.trans {s t u : System} (hst : KeepsHistory s t) (htu : KeepsHistory t u) :
    KeepsHistory s u where
  kept chat id d hd := htu.kept chat id d (hst.kept chat id d hd)
  later chat id d hd := by
    rcases htu.later chat id d hd with hd | ⟨time, hle, htime⟩
    · exact hst.later chat id d hd
    · exact .inr ⟨time, hst.clock_le.trans hle, htime⟩
  clock_le := hst.clock_le.trans htu.clock_le

theorem KeepsHistory.of_eq {s t : System} (hdb : t.db = s.db) (hclock : t.clock = s.clock) :
    KeepsHistory s t where
  kept chat id d hd := by rwa [hdb]
  later chat id d hd := .inl (by rwa [hdb] at hd)
  clock_le := hclock.ge

/-- A commit adds at most its own message. -/
theorem MessagesSound.keepsHistory_commits {s t : System} {c : ClientId} {now : Time}
    {p : Pending} {rest : List Pending} (hs : MessagesSound s) (h : Commits s t c now p rest) :
    KeepsHistory s t := by
  constructor
  case kept =>
    intro chat id d hd
    have hpath : p.write.path ≠ .message chat id := fun hpath =>
      (hs.message_committed h hpath).1 (DocumentStore.mem_of_lookup hd)
    rwa [DocumentStore.Write.lookup_commit_of_ne h.commit_eq (Ne.symm hpath)]
  case later =>
    intro chat id d hd
    by_cases hpath : p.write.path = .message chat id
    · obtain ⟨_, _, fromEmail, text, _, hlookup⟩ := hs.message_committed h hpath
      obtain rfl := Option.some.inj (hlookup.symm.trans hd)
      exact .inr ⟨now, h.clock_le, rfl⟩
    · rw [DocumentStore.Write.lookup_commit_of_ne h.commit_eq (Ne.symm hpath)] at hd
      exact .inl hd
  case clock_le =>
    rw [h.clock_eq]
    exact h.clock_le

/-- Every run keeps the history. -/
theorem MessagesSound.keepsHistory {s t : System} {es : List Event} (hs : MessagesSound s)
    (hrun : Runs.run System.step s es = some t) : KeepsHistory s t := by
  let Keeps (u v : System) : Prop := MessagesSound u → MessagesSound v ∧ KeepsHistory u v
  have hkeeps : Keeps s t := by
    refine Runs.run_rel hrun (fun u hu => ⟨hu, .refl u⟩) ?_ ?_
    · intro u v w huv hvw hu
      obtain ⟨hv, hkept⟩ := huv hu
      obtain ⟨hw, hkept'⟩ := hvw hv
      exact ⟨hw, hkept.trans hkept'⟩
    · intro u v e _ hstep hu
      refine ⟨hu.step hstep, ?_⟩
      rcases System.step_cases hstep with h | ⟨c, call, ws, _, h⟩ | ⟨c, now, p, rest, _, h⟩ |
        ⟨c, _, h⟩
      · exact .of_eq h.db_eq h.clock_eq
      · exact .of_eq h.db_eq h.clock_eq
      · exact hu.keepsHistory_commits h
      · exact .of_eq h.db_eq h.clock_eq
  exact (hkeeps hs).2

/-- **The history of a chat is append-only.** Over every run, rejected writes included, the
messages listed before are listed after in the same order and unchanged, and a message that is
new is not older than any of them. -/
theorem message_history_append_only {s t : System} {es : List Event}
    (hs : s.ReachableWithRejections) (hrun : Runs.run System.step s es = some t)
    (chat : ChatId) :
    (messagesOf chat s.db).Sublist (messagesOf chat t.db) ∧
      ∀ new ∈ messagesOf chat t.db, new ∉ messagesOf chat s.db →
        ∀ old ∈ messagesOf chat s.db, orderTime .time old ≤ orderTime .time new := by
  have hkeeps := hs.messagesSound.keepsHistory hrun
  constructor
  · refine (messagesOf_ranked chat s.db).sublist (messagesOf_ranked chat t.db) ?_
    intro d hd
    obtain ⟨hlookup, htime⟩ := mem_messagesOf.mp hd
    exact mem_messagesOf.mpr ⟨hkeeps.kept _ _ _ hlookup, htime⟩
  · intro new hnew hunlisted old hold
    obtain ⟨hlookup, htime⟩ := mem_messagesOf.mp hnew
    obtain ⟨_, _, _, time, hle, hdata⟩ := hs.messagesSound.stored _ _ _ (mem_messagesOf.mp hold).1
    have holdTime : orderTime .time old = time := by
      rw [orderTime, hdata]
      rfl
    rcases hkeeps.later _ _ _ hlookup with hstored | ⟨time', hle', htime'⟩
    · exact absurd (mem_messagesOf.mpr ⟨hstored, htime⟩) hunlisted
    · rw [holdTime, orderTime, htime']
      exact hle.trans hle'

/-- After the sample session `ann` answers, and a later answer of `bob` is rejected. -/
def answers : List Event :=
  [.call 0 (.sendMessage "tea" "m2" "hi"), .call 1 (.sendMessage "tea" "m3" "bye"), .reject 1,
   .commit 0 5]

/-- The message of the sample session stays where it is when an answer is stored. -/
theorem message_history_append_only_on_answers : ∃ s t : System,
    (messagesOf "tea" s.db).map QueryDocument.documentID = ["m1"] ∧
      (messagesOf "tea" t.db).map QueryDocument.documentID = ["m2", "m1"] ∧
      (messagesOf "tea" s.db).Sublist (messagesOf "tea" t.db) := by
  have hrun : (System.runFromInit System.sampleSession).bind (fun s =>
      (Runs.run System.step s answers).map (fun t =>
        decide ((messagesOf "tea" s.db).map QueryDocument.documentID = ["m1"] ∧
          (messagesOf "tea" t.db).map QueryDocument.documentID = ["m2", "m1"]))) = some true := by
    decide
  obtain ⟨s, hs, hrun⟩ := Option.bind_eq_some_iff.mp hrun
  obtain ⟨t, ht, hlists⟩ := Option.map_eq_some_iff.mp hrun
  obtain ⟨hbefore, hafter⟩ := of_decide_eq_true hlists
  have hreachable : s.ReachableWithRejections := Runs.Reachable.of_run (fun _ _ => trivial) hs
  exact ⟨s, t, hbefore, hafter, (message_history_append_only hreachable ht "tea").1⟩

end MessagingApp
