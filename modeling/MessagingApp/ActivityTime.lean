import MessagingApp.Schema

/-!
# Messages and activity times

A message and the activity time of its chat are two writes, the second issued by
the success closure of the first. This file shows that a message is covered by the
activity time of its chat or by an update that is still owed for a message at least
as recent, and that activity times never decrease.
-/

namespace MessagingApp

/-- The activity time stored for a chat. -/
def lastActive (db : Db) (chat : ChatId) : Option Time :=
  (db.lookup (.chat chat)).bind fun d => timestampField d .chatLastActive

/-- The time stored for a message. -/
def messageTime (db : Db) (chat : ChatId) (id : MessageId) : Option Time :=
  (db.lookup (.message chat id)).bind fun d => timestampField d .time

/-- Some client still owes the chat the update of the activity time for a message: the
success closure of the message has not run, or its write is not applied. -/
def Owes (s : System) (chat : ChatId) (id : MessageId) : Prop :=
  ∃ c, ⟨chat, id⟩ ∈ (s.clients c).completions ∨
    ∃ p ∈ (s.clients c).queue, p.origin = .updateChatLastActiveTimestamp chat id ∧
      p.write = updateChatLastActiveTimestamp chat

/-- A time in a chat is covered by its activity time, or by an update that is owed for a
message at least as recent. -/
def Covered (s : System) (chat : ChatId) (time : Time) : Prop :=
  (∃ a, lastActive s.db chat = some a ∧ time ≤ a) ∨
    ∃ id time', messageTime s.db chat id = some time' ∧ time ≤ time' ∧ Owes s chat id

/-- Stored times are not in the future, and every message is covered. -/
structure ActivitySound (s : System) : Prop where
  active_le : ∀ chat a, lastActive s.db chat = some a → a ≤ s.clock
  message_le : ∀ chat id time, messageTime s.db chat id = some time → time ≤ s.clock
  covered : ∀ chat id time, messageTime s.db chat id = some time → Covered s chat time

/-! ## What a commit does to the times -/

section commits

variable {s t : System} {c : ClientId} {now : Time} {p : Pending} {rest : List Pending}

/-- A write that does not mention the activity time of its chat keeps it; any other sets it
to the time of the commit. -/
theorem Genuine.chatLastActive {call : Call} {w : Write} (h : Genuine call w) {chat : ChatId}
    (hpath : w.path = .chat chat) (now : Time) (d : Document) :
    timestampField (DocumentStore.assign (FieldValue.eval now) d w.data) .chatLastActive =
      some now ∨
    (w.mode ≠ .set ∧ (∀ id, call ≠ .updateChatLastActiveTimestamp chat id) ∧
      timestampField (DocumentStore.assign (FieldValue.eval now) d w.data) .chatLastActive =
        timestampField d .chatLastActive) := by
  cases h with
  | baseDocument ref user name => exact .inl rfl
  | lastActive chat' id => exact .inl rfl
  | addToUsers | removal | chatColour =>
    refine .inr ⟨by simp [MessagingApp.addToUsers, removalWrite, chatColourWrite],
      by simp, ?_⟩
    simp [MessagingApp.addToUsers, removalWrite, chatColourWrite, assign_singleton]
  | _ => cases hpath

/-- The activity time of a chat after a commit. -/
theorem Commits.lastActive (hq : QueuesSound s) (h : Commits s t c now p rest) (chat : ChatId) :
    MessagingApp.lastActive t.db chat = some now ∨
      ((∀ id, p.origin ≠ .updateChatLastActiveTimestamp chat id) ∧
        MessagingApp.lastActive t.db chat = MessagingApp.lastActive s.db chat) := by
  by_cases hpath : p.write.path = .chat chat
  · obtain ⟨d, hafter, _, hbefore⟩ :=
      hq.committed_read h (fun d => timestampField d .chatLastActive) hpath
    rw [MessagingApp.lastActive, MessagingApp.lastActive, hafter]
    rcases (hq.genuine_head h).chatLastActive hpath now d with hnow | ⟨hmode, horigin, hkept⟩
    · exact .inl hnow
    · exact .inr ⟨horigin, by rw [hkept, hbefore hmode]⟩
  · refine .inr ⟨?_, ?_⟩
    · intro id horigin
      have hgenuine := hq.genuine_head h
      rw [horigin] at hgenuine
      generalize hwrite : p.write = w at hgenuine hpath
      cases hgenuine
      exact hpath rfl
    · rw [MessagingApp.lastActive, MessagingApp.lastActive,
        DocumentStore.Write.lookup_commit_of_ne h.commit_eq (Ne.symm hpath)]

/-- The time of a message after a commit: the commit stores the message and its sender waits
for the success closure, or the time is as before. -/
theorem Commits.messageTime (hq : QueuesSound s) (h : Commits s t c now p rest) (chat : ChatId)
    (id : MessageId) :
    (MessagingApp.messageTime t.db chat id = some now ∧ ⟨chat, id⟩ ∈ (t.clients c).completions) ∨
      MessagingApp.messageTime t.db chat id = MessagingApp.messageTime s.db chat id := by
  by_cases hpath : p.write.path = .message chat id
  · left
    have hgenuine := hq.genuine_head h
    obtain ⟨d, hlookup, _⟩ := hq.committed_document h
    rw [hpath] at hlookup
    generalize horigin : p.origin = call at hgenuine
    generalize p.write = w at hgenuine hpath hlookup
    cases hgenuine with
    | message chat' id' fromEmail text =>
      obtain ⟨rfl, rfl⟩ := DocPath.message.inj hpath
      refine ⟨?_, by simp [h.completions_self, horigin, System.completionOf]⟩
      rw [MessagingApp.messageTime, hlookup]
      rfl
    | _ => cases hpath
  · right
    rw [MessagingApp.messageTime, MessagingApp.messageTime,
      DocumentStore.Write.lookup_commit_of_ne h.commit_eq (Ne.symm hpath)]

/-- What was owed before a commit is owed after it, unless the commit pays for it. -/
theorem Commits.owes (h : Commits s t c now p rest) {chat : ChatId} {id : MessageId}
    (howes : Owes s chat id) (horigin : p.origin ≠ .updateChatLastActiveTimestamp chat id) :
    Owes t chat id := by
  obtain ⟨d, hcompletion | ⟨q, hq, hqorigin, hqwrite⟩⟩ := howes
  · refine ⟨d, .inl ?_⟩
    by_cases hd : d = c
    · subst hd
      rw [h.completions_self]
      exact List.mem_append_left _ hcompletion
    · rwa [h.clients_other d hd]
  · rcases h.mem_queue_or hq with rfl | hq
    · exact absurd hqorigin horigin
    · exact ⟨d, .inr ⟨q, hq, hqorigin, hqwrite⟩⟩

end commits

/-! ## The invariant -/

theorem ActivitySound.init : ActivitySound System.init := by
  constructor <;> simp [lastActive, messageTime, System.init]

theorem Covered.of_owes {s t : System} {chat : ChatId} {time : Time} (h : Covered s chat time)
    (hdb : t.db = s.db) (howes : ∀ id, Owes s chat id → Owes t chat id) :
    Covered t chat time := by
  rw [Covered, hdb]
  rcases h with hactive | ⟨id, time', htime, hle, hid⟩
  · exact .inl hactive
  · exact .inr ⟨id, time', htime, hle, howes id hid⟩

theorem ActivitySound.idle {s t : System} (hs : ActivitySound s) (h : Idle s t) :
    ActivitySound t where
  active_le := by rw [h.db_eq, h.clock_eq]; exact hs.active_le
  message_le := by rw [h.db_eq, h.clock_eq]; exact hs.message_le
  covered chat id time htime := by
    rw [h.db_eq] at htime
    refine (hs.covered chat id time htime).of_owes h.db_eq ?_
    rintro id ⟨c, howes⟩
    refine ⟨c, ?_⟩
    rwa [h.queue_eq, h.completions_eq]

/-- Issuing a call pays no debt: a completion that disappears is now a write in the queue. -/
theorem Issues.owes {s t : System} {c : ClientId} {call : Call} {ws : List Write}
    (h : Issues s t c call ws) {chat : ChatId} {id : MessageId} (howes : Owes s chat id) :
    Owes t chat id := by
  obtain ⟨d, hcompletion | ⟨q, hq, hqorigin, hqwrite⟩⟩ := howes
  · refine ⟨d, ?_⟩
    by_cases hd : d = c
    · subst hd
      rcases h.completions_kept _ hcompletion with hkept | rfl
      · exact .inl hkept
      · obtain rfl := Option.some.inj h.writes_eq
        right
        rw [h.queue_self]
        exact ⟨⟨_, updateChatLastActiveTimestamp chat⟩, List.mem_append_right _ (by simp),
          rfl, rfl⟩
    · rw [h.clients_other d hd]
      exact .inl hcompletion
  · exact ⟨d, .inr ⟨q, h.mem_queue hq, hqorigin, hqwrite⟩⟩

theorem ActivitySound.issues {s t : System} {c : ClientId} {call : Call} {ws : List Write}
    (hs : ActivitySound s) (h : Issues s t c call ws) : ActivitySound t where
  active_le := by rw [h.db_eq, h.clock_eq]; exact hs.active_le
  message_le := by rw [h.db_eq, h.clock_eq]; exact hs.message_le
  covered chat id time htime := by
    rw [h.db_eq] at htime
    exact (hs.covered chat id time htime).of_owes h.db_eq fun _ => h.owes

theorem ActivitySound.commits {s t : System} {c : ClientId} {now : Time} {p : Pending}
    {rest : List Pending} (hq : QueuesSound s) (hs : ActivitySound s)
    (h : Commits s t c now p rest) : ActivitySound t := by
  have hmessage : ∀ chat id time, messageTime t.db chat id = some time → time ≤ now := by
    intro chat id time htime
    rcases h.messageTime hq chat id with ⟨hnow, _⟩ | hsame
    · exact (Option.some.inj (htime.symm.trans hnow)).le
    · exact (hs.message_le chat id time (hsame ▸ htime)).trans h.clock_le
  constructor
  case active_le =>
    intro chat a ha
    rw [h.clock_eq]
    rcases h.lastActive hq chat with hnow | ⟨_, hsame⟩
    · exact (Option.some.inj (ha.symm.trans hnow)).le
    · exact (hs.active_le chat a (hsame ▸ ha)).trans h.clock_le
  case message_le =>
    rw [h.clock_eq]
    exact hmessage
  case covered =>
    intro chat id time htime
    rcases h.lastActive hq chat with hnow | ⟨horigin, hsame⟩
    · -- The activity time is now, and no message is newer.
      exact .inl ⟨now, hnow, hmessage chat id time htime⟩
    · rcases h.messageTime hq chat id with ⟨hnow, hcompletion⟩ | hsameTime
      · -- The message is stored by this commit; its success closure has not run.
        exact .inr ⟨id, time, htime, le_rfl, c, .inl hcompletion⟩
      · rcases hs.covered chat id time (hsameTime ▸ htime) with
          ⟨a, ha, hle⟩ | ⟨id', time', htime', hle, howes⟩
        · exact .inl ⟨a, by rw [hsame, ha], hle⟩
        · have howes' := h.owes howes (horigin id')
          rcases h.messageTime hq chat id' with ⟨hnow', _⟩ | hsame'
          · exact .inr ⟨id', now, hnow', hmessage chat id time htime, howes'⟩
          · exact .inr ⟨id', time', by rw [hsame', htime'], hle, howes'⟩

theorem System.Reachable.activitySound {s : System} (hs : s.Reachable) : ActivitySound s :=
  hs.induction .init (fun _ _ _ h => h.idle) (fun _ _ _ _ _ _ h => h.issues)
    (fun _ _ _ _ _ _ hu h => h.commits hu.queuesSound)

/-! ## Activity times never decrease -/

/-- No activity time is lost or runs backwards from `s` to `t`. -/
def ActivityGrows (s t : System) : Prop :=
  ∀ chat a, lastActive s.db chat = some a → ∃ b, lastActive t.db chat = some b ∧ a ≤ b

theorem ActivityGrows.trans {s t u : System} (hst : ActivityGrows s t) (htu : ActivityGrows t u) :
    ActivityGrows s u := by
  intro chat a ha
  obtain ⟨b, hb, hab⟩ := hst chat a ha
  obtain ⟨d, hd, hbd⟩ := htu chat b hb
  exact ⟨d, hd, hab.trans hbd⟩

theorem ActivityGrows.of_db_eq {s t : System} (h : t.db = s.db) : ActivityGrows s t := by
  intro chat a ha
  exact ⟨a, by rw [h, ha], le_rfl⟩

/-- A step of an accepted run does not decrease an activity time. -/
theorem System.Reachable.activityGrows_step {s t : System} {e : Event} (hs : s.Reachable)
    (h : s.step e = some t) : ActivityGrows s t := by
  rcases step_cases h with h | ⟨c, call, ws, _, h⟩ | ⟨c, now, p, rest, _, h⟩ | ⟨c, _, h⟩
  · exact .of_db_eq h.db_eq
  · exact .of_db_eq h.db_eq
  · intro chat a ha
    rcases h.lastActive hs.queuesSound chat with hnow | ⟨_, hsame⟩
    · exact ⟨now, hnow, (hs.activitySound.active_le chat a ha).trans h.clock_le⟩
    · exact ⟨a, by rw [hsame, ha], le_rfl⟩
  · exact .of_db_eq h.db_eq

/-- The states that accepted events lead to from `s`. -/
def System.LeadsTo (s t : System) : Prop :=
  Runs.Reachable System.step (fun e => e.accepted = true) s t

theorem System.Reachable.leadsTo {s t : System} (hs : s.Reachable) (h : s.LeadsTo t) :
    t.Reachable := by
  induction h with
  | refl => exact hs
  | tail _ hok hstep ih => exact ih.step hok hstep

/-- An accepted run does not decrease an activity time. -/
theorem System.Reachable.activityGrows {s t : System} (hs : s.Reachable) (h : s.LeadsTo t) :
    ActivityGrows s t := by
  induction h with
  | refl => exact .of_db_eq rfl
  | tail hu _ hstep ih => exact ih.trans ((hs.leadsTo hu).activityGrows_step hstep)

/-- Nothing is in flight: no write is unanswered and every success closure has run. -/
def System.NothingInFlight (s : System) : Prop :=
  s.NoWriteInFlight ∧ ∀ c, (s.clients c).completions = []

/-- Nothing is owed when nothing is in flight. -/
theorem System.NothingInFlight.not_owes {s : System} (h : s.NothingInFlight) (chat : ChatId)
    (id : MessageId) : ¬ Owes s chat id := by
  rintro ⟨c, hcompletion | ⟨p, hp, _⟩⟩
  · simp [h.2 c] at hcompletion
  · simp [h.1 c] at hp

/-! ### Coming to rest -/

/-- How much the server and the success closures have left to do for a client: a message that waits
brings about a completion, and a completion brings about another write. -/
def Client.work (client : Client) : ℕ :=
  let awaited := client.queue.flatMap fun p => System.completionOf p.origin
  client.queue.length + 2 * (awaited.length + client.completions.length)

/-- A success closure that is waited for can run. -/
theorem System.exists_complete {s : System} {c : ClientId} {m : MessageRef}
    (hm : m ∈ (s.clients c).completions) : ∃ t p, s.step (.complete c m) = some t ∧
      p.origin = .updateChatLastActiveTimestamp m.chat m.message ∧
      t.clients c = { s.clients c with
        queue := (s.clients c).queue ++ [p]
        completions := (s.clients c).completions.erase m } ∧
      ∀ d, d ≠ c → t.clients d = s.clients d := by
  have hstep : ∃ t, s.step (.complete c m) = some t := by
    simp [step, complete, hm, issue, Call.writes]
  obtain ⟨t, ht⟩ := hstep
  obtain ⟨ws, hws, heq⟩ := issue_eq_some (issue_of_complete ht).2
  obtain rfl := Option.some.inj hws
  refine ⟨t, ⟨.updateChatLastActiveTimestamp m.chat m.message,
    updateChatLastActiveTimestamp m.chat⟩, ht, rfl, ?_, fun d hd => step_clients_of_ne ht hd⟩
  rw [heq]
  simp

/-- Everything that a client waits for can happen, and concerns no other client. -/
theorem System.Reachable.exists_rest {s : System} (hs : s.Reachable) (c : ClientId) :
    ∃ t, s.LeadsTo t ∧ (t.clients c).queue = [] ∧ (t.clients c).completions = [] ∧
      ∀ d, d ≠ c → t.clients d = s.clients d := by
  -- By induction on what is left to do for the client.
  induction hwork : (s.clients c).work using Nat.strong_induction_on generalizing s with
  | _ n ih =>
    subst hwork
    have hnext : ∀ (e : Event) (t : System), e.accepted = true → s.step e = some t →
        (t.clients c).work < (s.clients c).work → (∀ d, d ≠ c → t.clients d = s.clients d) →
        ∃ u, s.LeadsTo u ∧ (u.clients c).queue = [] ∧ (u.clients c).completions = [] ∧
          ∀ d, d ≠ c → u.clients d = s.clients d := by
      intro e t hok hstep hless hother
      obtain ⟨u, hu, hqueue, hcompletions, hother'⟩ := ih _ hless (hs.step hok hstep) rfl
      exact ⟨u, Runs.Reachable.trans (Runs.Reachable.tail .refl hok hstep) hu, hqueue,
        hcompletions, fun d hd => (hother' d hd).trans (hother d hd)⟩
    cases hqueue : (s.clients c).queue with
    | cons p rest =>
      obtain ⟨t, ht, hcommit⟩ := hs.queuesSound.exists_commit hqueue
      refine hnext _ t rfl ht ?_ hcommit.clients_other
      simp only [Client.work, hcommit.queue_self, hcommit.completions_self, hqueue,
        List.flatMap_cons, List.length_append, List.length_cons]
      omega
    | nil =>
      cases hcompletions : (s.clients c).completions with
      | nil => exact ⟨s, .refl, hqueue, hcompletions, fun _ _ => rfl⟩
      | cons m rest =>
        have hm : m ∈ (s.clients c).completions := by simp [hcompletions]
        obtain ⟨t, p, ht, horigin, hclient, hother⟩ := exists_complete hm
        refine hnext _ t rfl ht ?_ hother
        rw [hclient]
        simp only [Client.work, hqueue, hcompletions, horigin, completionOf, List.nil_append,
          List.flatMap_cons, List.flatMap_nil, List.erase_cons_head, List.length_cons,
          List.length_nil]
        omega

/-- **Nothing stays in flight forever**: from every reachable state the answers of the server and
the success closures lead to one in which nothing is in flight. -/
theorem System.Reachable.exists_nothingInFlight {s : System} (hs : s.Reachable) :
    ∃ t, s.LeadsTo t ∧ t.NothingInFlight := by
  obtain ⟨es, _, hrun⟩ := Runs.Reachable.exists_run hs
  -- The clients that have acted come to rest one after the other.
  have hall : ∀ cs : List ClientId, ∃ t, s.LeadsTo t ∧
      ∀ d, ((t.clients d).queue = [] ∧ (t.clients d).completions = []) ∨
        d ∉ cs ∧ t.clients d = s.clients d := by
    intro cs
    induction cs with
    | nil => exact ⟨s, .refl, fun d => .inr ⟨by simp, rfl⟩⟩
    | cons c cs ih =>
      obtain ⟨t, ht, hrest⟩ := ih
      obtain ⟨u, hu, hqueue, hcompletions, hother⟩ := (hs.leadsTo ht).exists_rest c
      refine ⟨u, Runs.Reachable.trans ht hu, fun d => ?_⟩
      by_cases hd : d = c
      · subst hd
        exact .inl ⟨hqueue, hcompletions⟩
      · rw [hother d hd]
        exact (hrest d).imp_right fun hold => ⟨by simp [hd, hold.1], hold.2⟩
  obtain ⟨t, ht, hrest⟩ := hall (es.map Event.client)
  have hquiet : ∀ d, (t.clients d).queue = [] ∧ (t.clients d).completions = [] := by
    intro d
    rcases hrest d with hdone | ⟨hidle, hsame⟩
    · exact hdone
    · rw [hsame, run_clients_of_not_mem hrun hidle]
      exact ⟨rfl, rfl⟩
  exact ⟨t, ht, fun d => (hquiet d).1, fun d => (hquiet d).2⟩

/-- **Every stored message is reflected in the activity time of its chat.** In every reachable
state each message is covered; activity times never decrease on the way to any later state; and
when nothing is in flight no chat is behind its messages. -/
theorem messages_reflected {s : System} (hs : s.Reachable) :
    (∀ chat id time, messageTime s.db chat id = some time → Covered s chat time) ∧
      (∀ t, s.LeadsTo t → ActivityGrows s t) ∧
      (s.NothingInFlight → ∀ chat id time, messageTime s.db chat id = some time →
        ∃ a, lastActive s.db chat = some a ∧ time ≤ a) := by
  refine ⟨hs.activitySound.covered, fun t => hs.activityGrows, ?_⟩
  intro hquiet chat id time htime
  rcases hs.activitySound.covered chat id time htime with hactive | ⟨id', _, _, _, howes⟩
  · exact hactive
  · exact absurd howes (hquiet.not_owes chat id')

/-- The message of the sample session is covered. -/
theorem messages_reflected_on_sample : ∃ s : System,
    messageTime s.db "tea" "m1" = some 3 ∧ Covered s "tea" 3 := by
  obtain ⟨s, hs, _, htime⟩ := System.exists_reachable_of_run System.sampleSession (by decide)
    (fun s => decide (messageTime s.db "tea" "m1" = some 3)) (by decide)
  exact ⟨s, of_decide_eq_true htime,
    (messages_reflected hs).1 "tea" "m1" 3 (of_decide_eq_true htime)⟩

end MessagingApp
