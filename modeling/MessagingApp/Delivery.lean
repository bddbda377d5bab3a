import MessagingApp.ActivityTime
import MessagingApp.MessageHistory

/-!
# What becomes of a message

A message that was sent waits in the queue of its sender, or it is stored, or the
server has rejected it; it is never in two places, and only a rejection loses it.
The messages of one sender in a chat are stored in the order they were sent. A sender
is a client, that is, an account on a device, with the queue of writes of this account.
-/

namespace MessagingApp

/-- A message waits in the queue of its sender, once, and is neither stored nor in another
queue. -/
structure Waits (s : System) (c : ClientId) (m : MessageRef) (p : Pending) : Prop where
  queued : p ∈ (s.clients c).queue
  once : (waiting (s.clients c).queue).count m = 1
  elsewhere : ∀ d, d ≠ c → m ∉ waiting (s.clients d).queue
  unstored : DocPath.message m.chat m.message ∉ s.db

/-- A message is stored as it was written, at some time from `since` on, and waits nowhere. -/
structure Stored (s : System) (m : MessageRef) (w : Write) (since : Time) : Prop where
  document : ∃ time, since ≤ time ∧ time ≤ s.clock ∧
    s.db.lookup (.message m.chat m.message) = some (newDocument time w)
  nowhere : ∀ d, m ∉ waiting (s.clients d).queue

/-- A message is neither stored nor waiting, and its identifier is used up. -/
structure Lost (s : System) (m : MessageRef) : Prop where
  generated : m.message ∈ s.generatedIds
  unstored : DocPath.message m.chat m.message ∉ s.db
  nowhere : ∀ d, m ∉ waiting (s.clients d).queue

/-! ## One step -/

section step

variable {s t : System} {e : Event} {c : ClientId} {m : MessageRef} {p : Pending}

/-- Being in a queue is all there is to waiting. -/
theorem MessagesSound.waits (hs : MessagesSound s) (hqueued : p ∈ (s.clients c).queue)
    (hpath : p.write.path = .message m.chat m.message) : Waits s c m p := by
  have hm : m ∈ waiting (s.clients c).queue := mem_waiting.mpr ⟨p, hqueued, hpath⟩
  constructor
  case queued => exact hqueued
  case once => exact List.count_eq_one_of_mem (hs.once c) hm
  case elsewhere => exact fun d hd hm' => hs.disjoint c d (Ne.symm hd) hm hm'
  case unstored => exact hs.unstored c m hm

/-- A message that waits goes on waiting, or is stored, or is rejected. -/
theorem MessagesSound.waits_step (hs : MessagesSound s) (h : s.step e = some t)
    (hwaits : Waits s c m p) (hpath : p.write.path = .message m.chat m.message) :
    Waits t c m p ∨ Stored t m p.write s.clock ∨ (Lost t m ∧ e = .reject c) := by
  have ht : MessagesSound t := hs.step h
  have hstill : p ∈ (t.clients c).queue → Waits t c m p := fun hp => ht.waits hp hpath
  have hm : m ∈ waiting (s.clients c).queue := mem_waiting.mpr ⟨p, hwaits.queued, hpath⟩
  rcases System.step_cases h with h | ⟨d, call, ws, _, h⟩ | ⟨d, now, q, rest, _, h⟩ | ⟨d, he, h⟩
  · refine .inl (hstill ?_)
    rw [h.queue_eq]
    exact hwaits.queued
  · exact .inl (hstill (h.mem_queue hwaits.queued))
  · rcases h.mem_queue_or hwaits.queued with rfl | hp
    · obtain ⟨_, _, fromEmail, text, hp, hlookup⟩ := hs.message_committed h hpath
      refine .inr (.inl ⟨⟨now, h.clock_le, h.clock_eq.ge, ?_⟩, hs.not_waiting_of_commits h hpath⟩)
      rw [hlookup, hp]
    · exact .inl (hstill hp)
  · by_cases hp : p ∈ (t.clients c).queue
    · exact .inl (hstill hp)
    · -- The rejected write is this one, and no other write carries the message.
      have hcd : c = d := by
        by_contra hne
        exact hp (by rw [h.clients_other c hne]; exact hwaits.queued)
      subst hcd
      obtain ⟨q, hq⟩ := h.queue_self
      have hqueued := hwaits.queued
      rw [hq] at hqueued
      obtain rfl : p = q := (List.mem_cons.mp hqueued).resolve_right hp
      have honce := hs.once c
      rw [hq, ← List.singleton_append, waiting_append] at honce
      have hhead : m ∈ waiting [p] := mem_waiting.mpr ⟨p, List.mem_singleton_self p, hpath⟩
      refine .inr (.inr ⟨⟨?_, ?_, ?_⟩, he⟩)
      · rw [h.ids_eq]
        exact hs.generated c m hm
      · rw [h.db_eq]
        exact hwaits.unstored
      · intro d'
        by_cases hd' : d' = c
        · rw [hd']
          exact (List.nodup_append'.mp honce).2.2 hhead
        · rw [h.clients_other d' hd']
          exact hwaits.elsewhere d' hd'

/-- What is issued has an identifier that was not in use. -/
theorem System.nowhere_step (h : s.step e = some t)
    (hgenerated : m.message ∈ s.generatedIds)
    (hnowhere : ∀ d, m ∉ waiting (s.clients d).queue) (d : ClientId) :
    m ∉ waiting (t.clients d).queue := by
  intro hm
  obtain ⟨q, hq, hpath⟩ := mem_waiting.mp hm
  have hold : q ∉ (s.clients d).queue :=
    fun hq => hnowhere d (mem_waiting.mpr ⟨q, hq, hpath⟩)
  rcases System.step_cases h with h | ⟨c, call, ws, _, h⟩ | ⟨c, now, p, rest, _, h⟩ | ⟨c, _, h⟩
  · rw [h.queue_eq] at hq
    exact hold hq
  · rcases h.mem_queue_or hq with hq | ⟨_, w, hw, rfl⟩
    · exact hold hq
    · have hissued : m ∈ waiting (ws.map (Pending.mk call)) :=
        mem_waiting.mpr ⟨_, List.mem_map_of_mem hw, hpath⟩
      exact (h.waiting_fresh.2 m hissued).1 hgenerated
  · exact hold (h.mem_queue hq)
  · exact hold (h.mem_queue hq)

/-- A stored message stays stored. -/
theorem MessagesSound.stored_step (hs : MessagesSound s) (h : s.step e = some t) {w : Write}
    {since : Time} (hstored : Stored s m w since) : Stored t m w since := by
  obtain ⟨⟨time, hsince, hclock, hlookup⟩, hnowhere⟩ := hstored
  have hkeeps : KeepsHistory s t :=
    hs.keepsHistory (Runs.run_cons_eq_some.mpr ⟨t, h, Runs.run_nil _ t⟩)
  exact ⟨⟨time, hsince, hclock.trans hkeeps.clock_le, hkeeps.kept _ _ _ hlookup⟩,
    System.nowhere_step h (hs.stored _ _ _ hlookup).1 hnowhere⟩

/-- A lost message stays lost. -/
theorem System.lost_step (h : s.step e = some t) (hlost : Lost s m) : Lost t m := by
  have hids : m.message ∈ t.generatedIds := by
    rcases System.step_cases h with h | ⟨c, call, ws, _, h⟩ | ⟨c, now, p, rest, _, h⟩ | ⟨c, _, h⟩
    · rw [h.ids_eq]
      exact hlost.generated
    · rw [h.ids_eq]
      exact List.mem_append_right _ hlost.generated
    · rw [h.ids_eq]
      exact hlost.generated
    · rw [h.ids_eq]
      exact hlost.generated
  refine ⟨hids, ?_, System.nowhere_step h hlost.generated hlost.nowhere⟩
  intro hstored
  rcases System.step_cases h with h | ⟨c, call, ws, _, h⟩ | ⟨c, now, p, rest, _, h⟩ | ⟨c, _, h⟩
  · exact hlost.unstored (by rwa [h.db_eq] at hstored)
  · exact hlost.unstored (by rwa [h.db_eq] at hstored)
  · rcases DocumentStore.Write.mem_of_mem_commit h.commit_eq hstored with hpath | hold
    · refine hlost.nowhere c (mem_waiting.mpr ⟨p, ?_, hpath.symm⟩)
      simp [h.queue_eq]
    · exact hlost.unstored hold
  · exact hlost.unstored (by rwa [h.db_eq] at hstored)

end step

/-! ## A whole run -/

/-- Sending puts the message at the end of the queue of its sender. -/
theorem System.sent_step {s t : System} {c : ClientId} {chat : ChatId} {id : MessageId}
    {text : String} {fromEmail : Email} (huser : (s.clients c).currentUser = some fromEmail)
    (h : s.step (.call c (.sendMessage chat id text)) = some t) :
    (t.clients c).queue = (s.clients c).queue ++
        [⟨.sendMessage chat id text, messageDocument chat id fromEmail text⟩] ∧
      (t.clients c).currentUser = some fromEmail ∧ t.clock = s.clock ∧ t.db = s.db ∧
      id ∉ s.generatedIds := by
  obtain ⟨hallowed, hissue⟩ := issue_of_call h
  obtain ⟨ws, hws, rfl⟩ := issue_eq_some hissue
  have hws' : ws = [messageDocument chat id fromEmail text] := by
    rw [huser] at hws
    exact (Option.some.inj hws).symm
  subst hws'
  exact ⟨by simp, by simpa using huser, rfl, rfl, hallowed.2.2.1 id rfl⟩

/-- What has become of a message. -/
def Accounted (s : System) (c : ClientId) (m : MessageRef) (p : Pending) (since : Time)
    (rejected : Prop) : Prop :=
  Waits s c m p ∨ Stored s m p.write since ∨ (Lost s m ∧ rejected)

/-- A run accounts for a message that waits at its start. -/
theorem MessagesSound.accounted {s t : System} {es : List Event} {c : ClientId}
    {m : MessageRef} {p : Pending} {since : Time} (hs : MessagesSound s)
    (hpath : p.write.path = .message m.chat m.message) (hwaits : Waits s c m p)
    (hsince : since ≤ s.clock) (hrun : Runs.run System.step s es = some t) :
    Accounted t c m p since (.reject c ∈ es) := by
  -- Whatever the message has become after a step, the steps that follow keep or advance it.
  let Follows (u v : System) : Prop := MessagesSound u → since ≤ u.clock →
    MessagesSound v ∧ since ≤ v.clock ∧
      ∀ rejected, Accounted u c m p since rejected →
        Accounted v c m p since (rejected ∨ .reject c ∈ es)
  have hfollows : Follows s t := by
    refine Runs.run_rel hrun ?_ ?_ ?_
    · intro u hu hle
      refine ⟨hu, hle, ?_⟩
      rintro rejected (h | h | ⟨h, hrejected⟩)
      · exact .inl h
      · exact .inr (.inl h)
      · exact .inr (.inr ⟨h, .inl hrejected⟩)
    · intro u v w huv hvw hu hle
      obtain ⟨hv, hle', hfirst⟩ := huv hu hle
      obtain ⟨hw, hle'', hsecond⟩ := hvw hv hle'
      refine ⟨hw, hle'', ?_⟩
      intro rejected h
      simpa [or_assoc] using hsecond _ (hfirst rejected h)
    · intro u v e he hstep hu hle
      have hkeeps : KeepsHistory u v :=
        hu.keepsHistory (Runs.run_cons_eq_some.mpr ⟨v, hstep, Runs.run_nil _ v⟩)
      refine ⟨hu.step hstep, hle.trans hkeeps.clock_le, ?_⟩
      rintro rejected (h | h | ⟨h, hrejected⟩)
      · rcases hu.waits_step hstep h hpath with h | ⟨⟨time, htime, hdoc⟩, hnowhere⟩ | ⟨h, rfl⟩
        · exact .inl h
        · exact .inr (.inl ⟨⟨time, hle.trans htime, hdoc⟩, hnowhere⟩)
        · exact .inr (.inr ⟨h, .inr he⟩)
      · exact .inr (.inl (hu.stored_step hstep h))
      · exact .inr (.inr ⟨System.lost_step hstep h, .inl hrejected⟩)
  simpa using (hfollows hs hsince).2.2 False (.inl hwaits)

/-- **No message is lost, duplicated or changed.** Whatever happens after a signed-in user sends
a message, it waits once in the queue of its client and is not stored, or it is stored with
the text and the sender it was sent with and waits nowhere, or it is gone and the server has
rejected a write of that client. -/
theorem message_delivered_once {s t u : System} {es : List Event} {c : ClientId} {chat : ChatId}
    {id : MessageId} {text : String} {fromEmail : Email} (hs : s.ReachableWithRejections)
    (huser : (s.clients c).currentUser = some fromEmail)
    (hcall : s.step (.call c (.sendMessage chat id text)) = some t)
    (hrun : Runs.run System.step t es = some u) :
    Accounted u c ⟨chat, id⟩
      ⟨.sendMessage chat id text, messageDocument chat id fromEmail text⟩ s.clock
      (.reject c ∈ es) := by
  obtain ⟨hqueue, _, hclock, _, _⟩ := System.sent_step huser hcall
  have ht : MessagesSound t := hs.messagesSound.step hcall
  exact ht.accounted rfl (ht.waits (by simp [hqueue]) rfl) hclock.ge hrun

/-- The message of the sample session is accounted for while its answer is rejected. -/
theorem message_delivered_once_on_answers : ∃ s t u : System,
    s.step (.call 0 (.sendMessage "tea" "m2" "hi")) = some t ∧
      Runs.run System.step t (answers.drop 1) = some u ∧
      Accounted u 0 ⟨"tea", "m2"⟩
        ⟨.sendMessage "tea" "m2" "hi", messageDocument "tea" "m2" "ann" "hi"⟩ s.clock
        (.reject 0 ∈ answers.drop 1) := by
  have hrun : (System.runFromInit System.sampleSession).bind (fun s =>
      (s.step (.call 0 (.sendMessage "tea" "m2" "hi"))).bind (fun t =>
        (Runs.run System.step t (answers.drop 1)).map (fun _ =>
          decide ((s.clients 0).currentUser = some "ann")))) = some true := by
    decide
  obtain ⟨s, hs, hrun⟩ := Option.bind_eq_some_iff.mp hrun
  obtain ⟨t, ht, hrun⟩ := Option.bind_eq_some_iff.mp hrun
  obtain ⟨u, hu, huser⟩ := Option.map_eq_some_iff.mp hrun
  have hreachable : s.ReachableWithRejections := Runs.Reachable.of_run (fun _ _ => trivial) hs
  exact ⟨s, t, u, ht, hu, message_delivered_once hreachable (of_decide_eq_true huser) ht hu⟩

/-! ## The order of the messages of one sender -/

/-- Two messages of client `c` wait one behind the other, or the first is stored and the second
is not stored before it. -/
def InOrder (s : System) (c : ClientId) (chat : ChatId) (first second : MessageId) : Prop :=
  (∃ p q before between after, (s.clients c).queue = before ++ p :: (between ++ q :: after) ∧
      p.write.path = .message chat first ∧ q.write.path = .message chat second) ∨
    ∃ time, messageTime s.db chat first = some time ∧ time ≤ s.clock ∧
      ∀ time', messageTime s.db chat second = some time' → time ≤ time'

/-- A message that waits has no time. -/
theorem MessagesSound.messageTime_eq_none {s : System} (hs : MessagesSound s) {c : ClientId}
    {p : Pending} (hp : p ∈ (s.clients c).queue) {chat : ChatId} {id : MessageId}
    (hpath : p.write.path = .message chat id) : messageTime s.db chat id = none := by
  have hunstored := hs.unstored c ⟨chat, id⟩ (mem_waiting.mpr ⟨p, hp, hpath⟩)
  rw [messageTime, AList.lookup_eq_none.mpr hunstored, Option.bind_none]

/-- The time of a stored message stays, and a time that is new is not before the clock. -/
theorem KeepsHistory.messageTime {s t : System} (h : KeepsHistory s t) (chat : ChatId)
    (id : MessageId) :
    (∀ time, messageTime s.db chat id = some time → messageTime t.db chat id = some time) ∧
      ∀ time, messageTime t.db chat id = some time →
        messageTime s.db chat id = some time ∨ s.clock ≤ time := by
  constructor
  · intro time htime
    obtain ⟨d, hd, hd'⟩ := Option.bind_eq_some_iff.mp htime
    exact Option.bind_eq_some_iff.mpr ⟨d, h.kept chat id d hd, hd'⟩
  · intro time htime
    obtain ⟨d, hd, hd'⟩ := Option.bind_eq_some_iff.mp htime
    rcases h.later chat id d hd with hold | ⟨time', hle, htime'⟩
    · exact .inl (Option.bind_eq_some_iff.mpr ⟨d, hold, hd'⟩)
    · obtain rfl := Option.some.inj (hd'.symm.trans htime')
      exact .inr hle

/-- An accepted step keeps two messages in order. -/
theorem MessagesSound.inOrder_step {s t : System} {e : Event} {c : ClientId} {chat : ChatId}
    {first second : MessageId} (hs : MessagesSound s) (hok : e.accepted = true)
    (h : s.step e = some t) (horder : InOrder s c chat first second) :
    InOrder t c chat first second := by
  have ht : MessagesSound t := hs.step h
  have hkeeps : KeepsHistory s t :=
    hs.keepsHistory (Runs.run_cons_eq_some.mpr ⟨t, h, Runs.run_nil _ t⟩)
  rcases horder with ⟨p, q, before, between, after, hqueue, hp, hq⟩ | ⟨time, htime, hle, hsecond⟩
  · rcases System.step_cases h with h | ⟨d, call, ws, _, h⟩ | ⟨d, now, r, rest, _, h⟩ | ⟨d, rfl, _⟩
    · exact .inl ⟨p, q, before, between, after, by rw [h.queue_eq, hqueue], hp, hq⟩
    · by_cases hd : c = d
      · subst hd
        refine .inl ⟨p, q, before, between, after ++ ws.map (Pending.mk call), ?_, hp, hq⟩
        rw [h.queue_self, hqueue]
        simp
      · exact .inl ⟨p, q, before, between, after, by rw [h.clients_other c hd, hqueue], hp, hq⟩
    · by_cases hd : c = d
      · subst hd
        have hrest := hqueue
        rw [h.queue_eq] at hrest
        cases before with
        | nil =>
          -- The first message is stored now, and the second still waits.
          obtain ⟨rfl, htail⟩ := List.cons.inj hrest
          obtain ⟨_, _, fromEmail, text, _, hlookup⟩ := hs.message_committed h hp
          have hwaits : q ∈ (t.clients c).queue := by
            rw [h.queue_self, htail]
            simp
          refine .inr ⟨now, ?_, h.clock_eq.ge, ?_⟩
          · rw [messageTime, hlookup]
            rfl
          · intro time' htime'
            rw [ht.messageTime_eq_none hwaits hq] at htime'
            cases htime'
        | cons r' before =>
          obtain ⟨_, htail⟩ := List.cons.inj hrest
          have hsplit : (t.clients c).queue = before ++ p :: (between ++ q :: after) := by
            rw [h.queue_self, htail]
            rfl
          exact .inl ⟨p, q, before, between, after, hsplit, hp, hq⟩
      · exact .inl ⟨p, q, before, between, after, by rw [h.clients_other c hd, hqueue], hp, hq⟩
    · cases hok
  · refine .inr ⟨time, (hkeeps.messageTime chat first).1 time htime, hle.trans hkeeps.clock_le, ?_⟩
    intro time' htime'
    rcases (hkeeps.messageTime chat second).2 time' htime' with hold | hnew
    · exact hsecond time' hold
    · exact hle.trans hnew

/-- **The messages of a sender are stored in the order they were sent.** When a client, an account
on a device, sends two messages in a chat, with any activity in between and afterwards, the second
is stored only after the first, and not at an earlier time. -/
theorem messages_in_sending_order {s s' t t' u : System} {es es' : List Event} {c : ClientId}
    {chat : ChatId} {first second : MessageId} {text text' : String} {fromEmail fromEmail' : Email}
    (hs : s.ReachableWithRejections) (huser : (s.clients c).currentUser = some fromEmail)
    (hfirst : s.step (.call c (.sendMessage chat first text)) = some s')
    (hrun : Runs.run System.step s' es = some t)
    (huser' : (t.clients c).currentUser = some fromEmail')
    (hsecond : t.step (.call c (.sendMessage chat second text')) = some t')
    (hrun' : Runs.run System.step t' es' = some u)
    (hok : ∀ e ∈ es ++ es', e.accepted = true) :
    ∀ time', messageTime u.db chat second = some time' →
      ∃ time, messageTime u.db chat first = some time ∧ time ≤ time' := by
  have hs' : MessagesSound s' := hs.messagesSound.step hfirst
  have ht : MessagesSound t := by
    have hreachable : s'.ReachableWithRejections := hs.tail trivial hfirst
    exact System.ReachableWithRejections.messagesSound
      (hreachable.append_run (fun _ _ => trivial) hrun)
  have ht' : MessagesSound t' := ht.step hsecond
  obtain ⟨hqueue, _, hclock, hdb, hfresh⟩ := System.sent_step huser' hsecond
  have hstart : InOrder t' c chat first second := by
    rcases message_delivered_once hs huser hfirst hrun with hwaits | hstored | ⟨_, hrejected⟩
    · obtain ⟨before, after, hsplit⟩ := List.append_of_mem hwaits.queued
      refine .inl ⟨⟨.sendMessage chat first text, messageDocument chat first fromEmail text⟩,
        ⟨.sendMessage chat second text', messageDocument chat second fromEmail' text'⟩,
        before, after, [], ?_, rfl, rfl⟩
      rw [hqueue, hsplit, List.append_assoc, List.cons_append]
    · obtain ⟨time, _, hle, hlookup⟩ := hstored.document
      refine .inr ⟨time, ?_, hclock.symm ▸ hle, ?_⟩
      · rw [hdb, messageTime, hlookup]
        rfl
      · intro time' htime'
        rw [hdb] at htime'
        obtain ⟨d, hd, _⟩ := Option.bind_eq_some_iff.mp htime'
        exact absurd (ht.stored chat second d hd).1 hfresh
    · have haccepted := hok (.reject c) (List.mem_append_left _ hrejected)
      cases haccepted
  let Follows (v w : System) : Prop := MessagesSound v → InOrder v c chat first second →
    MessagesSound w ∧ InOrder w c chat first second
  have hfollows : Follows t' u := by
    refine Runs.run_rel hrun' (fun _ hv horder => ⟨hv, horder⟩) ?_ ?_
    · intro v w x hvw hwx hv horder
      obtain ⟨hw, horder⟩ := hvw hv horder
      exact hwx hw horder
    · intro v w e he hstep hv horder
      have haccepted := hok e (List.mem_append_right _ he)
      exact ⟨hv.step hstep, hv.inOrder_step haccepted hstep horder⟩
  obtain ⟨hu, horder⟩ := hfollows ht' hstart
  intro time' htime'
  rcases horder with ⟨p, q, before, between, after, hsplit, _, hq⟩ | ⟨time, htime, _, hle⟩
  · have hwaits : q ∈ (u.clients c).queue := by simp [hsplit]
    rw [hu.messageTime_eq_none hwaits hq] at htime'
    cases htime'
  · exact ⟨time, htime, hle time' htime'⟩

/-- `ann` sends two messages after the sample session; both are stored, in this order. -/
theorem messages_in_sending_order_on_sample : ∃ u : System,
    messageTime u.db "tea" "m3" = some 6 ∧
      ∃ time, messageTime u.db "tea" "m2" = some time ∧ time ≤ 6 := by
  have hrun : (System.runFromInit System.sampleSession).bind (fun s =>
      (s.step (.call 0 (.sendMessage "tea" "m2" "hi"))).bind (fun s' =>
        (Runs.run System.step s' [.commit 0 5]).bind (fun t =>
          (t.step (.call 0 (.sendMessage "tea" "m3" "there"))).bind (fun t' =>
            (Runs.run System.step t' [.commit 0 6]).map (fun u =>
              decide ((s.clients 0).currentUser = some "ann" ∧
                (t.clients 0).currentUser = some "ann" ∧
                messageTime u.db "tea" "m3" = some 6)))))) = some true := by
    decide
  obtain ⟨s, hs, hrun⟩ := Option.bind_eq_some_iff.mp hrun
  obtain ⟨s', hs', hrun⟩ := Option.bind_eq_some_iff.mp hrun
  obtain ⟨t, ht, hrun⟩ := Option.bind_eq_some_iff.mp hrun
  obtain ⟨t', ht', hrun⟩ := Option.bind_eq_some_iff.mp hrun
  obtain ⟨u, hu, hfacts⟩ := Option.map_eq_some_iff.mp hrun
  obtain ⟨huser, huser', htime⟩ := of_decide_eq_true hfacts
  have hreachable : s.ReachableWithRejections := Runs.Reachable.of_run (fun _ _ => trivial) hs
  have hok : ∀ e ∈ [Event.commit 0 5] ++ [Event.commit 0 6], e.accepted = true := by
    simp [Event.accepted]
  exact ⟨u, htime,
    messages_in_sending_order hreachable huser hs' ht huser' ht' hu hok 6 htime⟩

end MessagingApp
