import MessagingApp.Delivery
import MessagingApp.SafeViews

/-!
# Messages on the screens

A message is one write under an identifier of its own, so wherever it is found, in
the log of the server or in a queue, it is the same write. A client therefore shows
it with the sender and the text it was sent with, from the moment it is first
shown, and a sender sees the own message at once; no answer of the server and no
document that arrives takes it off the screen again. Only signing out may, and only
until the account signs in again.
-/

namespace MessagingApp

/-! ## The writes there are -/

/-- A write that the server has committed or that waits in some queue. -/
def Replicas.Wrote (r : Replicas) (w : Write) : Prop :=
  (∃ e ∈ r.history, e.write = w) ∨ ∃ c, ∃ p ∈ (r.system.clients c).queue, p.write = w

/-- The writes of one call to a message are the same. -/
theorem Call.message_unique {call : Call} {user : Option Email} {ws : List Write}
    (hws : call.writes user = some ws) {w w' : Write} (hw : w ∈ ws) (hw' : w' ∈ ws)
    {chat : ChatId} {id : MessageId} (hpath : w.path = .message chat id) : w = w' := by
  obtain ⟨fromEmail, text, rfl, _⟩ := (Call.genuine_of_mem hws hw).eq_messageDocument hpath
  obtain rfl := Option.some.inj hws
  cases user with
  | none => cases hw
  | some email => rw [List.mem_singleton.mp hw, List.mem_singleton.mp hw']

section wrote

variable {r r' : Replicas} {w : Write} {m : MessageRef}

/-- A client makes its documents of writes there are. -/
theorem ReplicasAccepted.wrote_of_mem_made (hr : ReplicasAccepted r) {c : ClientId} {settled : ℕ}
    {base : DocPath → ℕ} (h : r.Explains c settled base) {path : DocPath}
    (hw : w ∈ r.made c settled base path) : w.path = path ∧ r.Wrote w := by
  obtain ⟨hpath, hlog | ⟨p, hp, rfl⟩⟩ := hr.mem_made h hw
  · exact ⟨hpath, .inl hlog⟩
  · exact ⟨hpath, .inr ⟨c, p, hp, rfl⟩⟩

/-- Every write comes from a call. -/
theorem ReplicasAccepted.sourced_of_wrote (hr : ReplicasAccepted r) (hw : r.Wrote w) :
    Sourced w := by
  rcases hw with ⟨e, he, rfl⟩ | ⟨c, p, hp, rfl⟩
  · exact hr.committed e he
  · exact hr.sourced hp

theorem ReplicasAccepted.messagesSound (hr : ReplicasAccepted r) : MessagesSound r.system :=
  System.ReachableWithRejections.messagesSound
    (hr.reachable.mono fun _ _ => trivial)

/-- The identifier of a message is taken as long as a write of it exists. -/
theorem ReplicasAccepted.generated_of_wrote (hr : ReplicasAccepted r) (hw : r.Wrote w)
    (hpath : w.path = .message m.chat m.message) : m.message ∈ r.system.generatedIds := by
  rcases hw with ⟨e, he, rfl⟩ | ⟨c, p, hp, rfl⟩
  · have hstored := hr.sound.written e he
    rw [hpath] at hstored
    obtain ⟨d, hd⟩ := DocumentStore.exists_lookup hstored
    exact (hr.messagesSound.stored _ _ d hd).1
  · exact hr.messagesSound.generated c m (mem_waiting.mpr ⟨p, hp, hpath⟩)

/-- An accepted step loses no write, and the writes that are new are those of one call. -/
theorem ReplicasAccepted.wrote_step (hr : ReplicasAccepted r) {e : ReplicaEvent}
    (hok : e.accepted = true) (h : r.step e = some r') :
    (∀ w, r.Wrote w → r'.Wrote w) ∧ ((∀ w, r'.Wrote w → r.Wrote w) ∨
      ∃ c call ws, Issues r.system r'.system c call ws ∧
        ∀ w, r'.Wrote w → r.Wrote w ∨ w ∈ ws) := by
  have hsame : r'.history = r.history →
      (∀ c, (r'.system.clients c).queue = (r.system.clients c).queue) →
      ∀ w, r'.Wrote w ↔ r.Wrote w := by
    intro hhistory hqueue w
    simp only [Replicas.Wrote, hhistory, hqueue]
  rcases hr.step_cases hok h with ⟨hhistory, hqueue⟩ | ⟨c, call, ws, hissues, hhistory⟩ |
    ⟨c, now, p, rest, hcommit, hhistory⟩
  · exact ⟨fun w => (hsame hhistory hqueue w).mpr, .inl fun w => (hsame hhistory hqueue w).mp⟩
  · constructor
    · rintro w (⟨e, he, rfl⟩ | ⟨d, q, hq, rfl⟩)
      · exact .inl ⟨e, by rwa [hhistory], rfl⟩
      · exact .inr ⟨d, q, hissues.mem_queue hq, rfl⟩
    · refine .inr ⟨c, call, ws, hissues, ?_⟩
      rintro w (⟨e, he, rfl⟩ | ⟨d, q, hq, rfl⟩)
      · exact .inl (.inl ⟨e, by rwa [← hhistory], rfl⟩)
      · rcases hissues.mem_queue_or hq with hq | ⟨_, w, hw, rfl⟩
        · exact .inl (.inr ⟨d, q, hq, rfl⟩)
        · exact .inr hw
  · have hhead : p ∈ (r.system.clients c).queue := by
      rw [hcommit.queue_eq]
      exact List.mem_cons_self
    constructor
    · rintro w (⟨e, he, rfl⟩ | ⟨d, q, hq, rfl⟩)
      · exact .inl ⟨e, by rw [hhistory]; exact List.mem_append_left _ he, rfl⟩
      · rcases hcommit.mem_queue_or hq with rfl | hq
        · exact .inl ⟨_, by rw [hhistory]; exact List.mem_append_right _ List.mem_cons_self, rfl⟩
        · exact .inr ⟨d, q, hq, rfl⟩
    · left
      rintro w (⟨e, he, rfl⟩ | ⟨d, q, hq, rfl⟩)
      · rw [hhistory] at he
        rcases List.mem_append.mp he with he | he
        · exact .inl ⟨e, he, rfl⟩
        · obtain rfl := List.mem_singleton.mp he
          exact .inr ⟨c, p, hhead, rfl⟩
      · exact .inr ⟨d, q, hcommit.mem_queue hq, rfl⟩

/-- Wherever the write of a message is found, it is the same. -/
theorem Replicas.Reachable.wrote_unique {owner : ClientId → Email} (hr : r.Reachable owner)
    {w w' : Write} (hw : r.Wrote w) (hw' : r.Wrote w') {chat : ChatId} {id : MessageId}
    (hpath : w.path = .message chat id) (hpath' : w'.path = .message chat id) : w = w' := by
  let Unique (u : Replicas) : Prop := ReplicasAccepted u ∧ ∀ w w', u.Wrote w → u.Wrote w' →
    w.path = .message chat id → w'.path = .message chat id → w = w'
  have hunique : Unique r := by
    refine Runs.Reachable.invariant hr ⟨.init owner, ?_⟩ ?_
    · rintro w w' (⟨e, he, _⟩ | ⟨c, p, hp, _⟩)
      · cases he
      · cases hp
    · rintro u v e _ ⟨hu, hunique⟩ hok hstep
      refine ⟨hu.step hok hstep, ?_⟩
      intro w w' hw hw' hpath hpath'
      rcases (hu.wrote_step hok hstep).2 with hold | ⟨c, call, ws, hissues, hnew⟩
      · exact hunique w w' (hold w hw) (hold w' hw') hpath hpath'
      · -- The identifier of an issued message was not in use.
        have hfresh : ∀ w ∈ ws, w.path = .message chat id → id ∉ u.system.generatedIds := by
          intro w hw hpath
          exact (hissues.waiting_fresh.2 ⟨chat, id⟩
            (mem_waiting.mpr ⟨_, List.mem_map_of_mem hw, hpath⟩)).1
        have hused : ∀ w, u.Wrote w → w.path = .message chat id → id ∈ u.system.generatedIds :=
          fun w hw hpath => hu.generated_of_wrote (m := ⟨chat, id⟩) hw hpath
        rcases hnew w hw with hold | hissued <;> rcases hnew w' hw' with hold' | hissued'
        · exact hunique w w' hold hold' hpath hpath'
        · exact absurd (hused w hold hpath) (hfresh w' hissued' hpath')
        · exact absurd (hused w' hold' hpath') (hfresh w hissued hpath)
        · exact Call.message_unique hissues.writes_eq hissued hissued' hpath
  exact hunique.2 w w' hw hw' hpath hpath'

end wrote

/-! ## What a message on the screen says -/

section shown

variable {owner : ClientId → Email} {r r' : Replicas} {c : ClientId} {chat : ChatId}
  {id : MessageId} {fromEmail : Email} {text : String}

/-- A message that a client is shown is what its one write says. -/
theorem Replicas.Reachable.shown_message (hr : r.Reachable owner) {w : Write} (hw : r.Wrote w)
    (hpath : w.path = .message chat id) {d : LocalDocument}
    (hd : (r.shown c).lookup (.message chat id) = some d) :
    ∃ time, d.resolve = newDocument time w := by
  obtain ⟨call, hgenuine, _⟩ := hr.accepted.sourced_of_wrote hw
  obtain ⟨fromEmail, text, _, rfl⟩ := hgenuine.eq_messageDocument hpath
  obtain ⟨settled, base, hgrounds⟩ := hr.grounds c
  have hsame : ∀ w' ∈ r.made c settled base (.message chat id),
      w' = messageDocument chat id fromEmail text := by
    intro w' hw'
    obtain ⟨hpath', hwrote⟩ := hr.accepted.wrote_of_mem_made hgrounds.explains hw'
    exact hr.wrote_unique hwrote hw hpath' rfl
  have hresolve := (hr.accepted.sound.shows hgrounds.explains).resolve (.message chat id)
  rw [hd, Option.map_some] at hresolve
  rw [Replicas.made, DocumentStore.madeOf, List.append_assoc, ← List.map_append] at hsame
  -- The client's own writes come last; without any, the document is as the server has sent it.
  by_cases hown : DocumentStore.ownWrites r.history c (.message chat id) (base (.message chat id))
      settled ++ r.overlaid c (.message chat id) = []
  · rw [hown, DocumentStore.replay_nil] at hresolve
    have hsent : DocumentStore.writesUpTo r.history (.message chat id)
        (base (.message chat id)) ≠ [] :=
      DocumentStore.ne_nil_of_isSome_replay (by rw [← hresolve]; rfl)
    obtain ⟨time, hdocument⟩ : ∃ time, DocumentStore.replay FieldValue.eval
        (DocumentStore.writesUpTo r.history (.message chat id) (base (.message chat id))) none =
          some (newDocument time (messageDocument chat id fromEmail text)) :=
      DocumentStore.replay_of_forall_eq rfl hsent
        (fun x hx => hsame x.2 (List.mem_append_left _ (List.mem_map_of_mem hx)))
    rw [hdocument] at hresolve
    exact ⟨time, Option.some.inj hresolve⟩
  · have hlaid : DocumentStore.ownWrites r.history c (.message chat id) (base (.message chat id))
        settled ++ r.overlaid c (.message chat id) <+:
        DocumentStore.ownWrites r.history c (.message chat id) (base (.message chat id)) settled ++
          (r.stores c).pendingWrites (.message chat id) :=
      (List.prefix_append_right_inj _).mpr (r.overlaid_isPrefix c _)
    obtain ⟨time, hdocument⟩ : ∃ time, DocumentStore.replay FieldValue.ackEval
        (DocumentStore.ownWrites r.history c (.message chat id) (base (.message chat id)) settled ++
          r.overlaid c (.message chat id))
        (DocumentStore.replay FieldValue.eval
          (DocumentStore.writesUpTo r.history (.message chat id) (base (.message chat id))) none) =
        some (newDocument time (messageDocument chat id fromEmail text)) :=
      DocumentStore.replay_of_forall_eq rfl hown (fun x hx =>
        hsame x.2 (List.mem_append_right _ (List.mem_map_of_mem (hlaid.subset hx))))
    rw [hdocument] at hresolve
    exact ⟨time, Option.some.inj hresolve⟩

/-- Whatever the messages screen of a client showed before, the next snapshot makes it show the
message. -/
def Replicas.ShowsMessage (r : Replicas) (c : ClientId) (chat : ChatId) (id : MessageId)
    (fromEmail : Email) (text : String) : Prop :=
  ∀ screen : MessagesScreen, ∃ screen',
    screen.loadMessages (.ok (localMessagesOf chat (r.shown c))) = some screen' ∧
      ∃ message ∈ screen'.messages,
        message.id = id ∧ message.fromEmail = fromEmail ∧ message.text = text

/-- A client shows a message exactly when it holds the document and the message was written so. -/
theorem Replicas.Reachable.showsMessage_iff (hr : r.Reachable owner) :
    r.ShowsMessage c chat id fromEmail text ↔ DocPath.message chat id ∈ r.shown c ∧
      r.Wrote (messageDocument chat id fromEmail text) := by
  constructor
  · intro hshows
    obtain ⟨screen, hscreen, message, hmessage, rfl, rfl, rfl⟩ := hshows {}
    obtain ⟨messages, hmessages, rfl⟩ := MessagesScreen.mapM_of_loadMessages hscreen
    rw [MessagesScreen.rebuilt_messages] at hmessage
    obtain ⟨d, hd, hread⟩ := PartialLoops.mem_of_mapM hmessages hmessage
    obtain ⟨d', hlookup, hdata, _⟩ := mem_localMessagesOf.mp hd
    have hmem := DocumentStore.mem_of_lookup hlookup
    obtain ⟨settled, base, hgrounds⟩ := hr.grounds c
    obtain ⟨w, hmade⟩ := List.exists_mem_of_ne_nil _
      (hgrounds.explains.made_ne_nil (Replicas.mem_view_of_shown hmem))
    obtain ⟨hpath, hwrote⟩ := hr.accepted.wrote_of_mem_made hgrounds.explains hmade
    obtain ⟨call, hgenuine, _⟩ := hr.accepted.sourced_of_wrote hwrote
    obtain ⟨fromEmail, text, _, rfl⟩ := hgenuine.eq_messageDocument hpath
    obtain ⟨time, hresolve⟩ := hr.shown_message hwrote rfl hlookup
    have htext : stringField d.data .text = some text := by
      rw [← hdata, LocalDocument.stringField_shown, hresolve]
      rfl
    have hfromEmail : stringField d.data .fromEmail = some fromEmail := by
      rw [← hdata, LocalDocument.stringField_shown, hresolve]
      rfl
    obtain rfl : _ = message := by
      simpa [MessagesScreen.readMessage, htext, hfromEmail] using hread
    exact ⟨hmem, hwrote⟩
  · rintro ⟨hmem, hwrote⟩ screen
    obtain ⟨d, hd⟩ := DocumentStore.exists_lookup hmem
    obtain ⟨time, hresolve⟩ := hr.shown_message hwrote rfl hd
    obtain ⟨screen', hscreen'⟩ := (hr.localSchema c).readersSafe.messages chat screen
    obtain ⟨messages, hmessages, rfl⟩ := MessagesScreen.mapM_of_loadMessages hscreen'
    refine ⟨_, hscreen', ?_⟩
    have hlisted : ⟨id, LocalDocument.shown d⟩ ∈ localMessagesOf chat (r.shown c) := by
      refine mem_localMessagesOf.mpr ⟨d, hd, rfl, LocalDocument.orderKey_isSome (t := time) ?_⟩
      rw [hresolve]
      rfl
    obtain ⟨message, hmessage, hread⟩ := PartialLoops.exists_of_mapM hmessages hlisted
    have htext : stringField (LocalDocument.shown d) .text = some text := by
      rw [LocalDocument.stringField_shown, hresolve]
      rfl
    have hfromEmail : stringField (LocalDocument.shown d) .fromEmail = some fromEmail := by
      rw [LocalDocument.stringField_shown, hresolve]
      rfl
    refine ⟨message, by rwa [MessagesScreen.rebuilt_messages], ?_⟩
    obtain rfl : _ = message := by
      simpa [MessagesScreen.readMessage, htext, hfromEmail] using hread
    exact ⟨rfl, rfl, rfl⟩

/-- No write disappears over an accepted run. -/
theorem Replicas.Reachable.wrote_run (hr : r.Reachable owner) {es : List ReplicaEvent}
    (hok : ∀ e ∈ es, e.accepted = true) (hrun : Runs.run Replicas.step r es = some r')
    {w : Write} (hw : r.Wrote w) : r'.Wrote w := by
  let Keeps (u v : Replicas) : Prop := ReplicasAccepted u →
    ReplicasAccepted v ∧ (u.Wrote w → v.Wrote w)
  have hkeeps : Keeps r r' := by
    refine Runs.run_rel hrun (fun u hu => ⟨hu, id⟩) ?_ ?_
    · intro u v x huv hvx hu
      obtain ⟨hv, hfirst⟩ := huv hu
      obtain ⟨hx, hsecond⟩ := hvx hv
      exact ⟨hx, fun hw => hsecond (hfirst hw)⟩
    · intro u v e he hstep hu
      exact ⟨hu.step (hok e he) hstep, (hu.wrote_step (hok e he) hstep).1 w⟩
  exact (hkeeps hr.accepted).2 hw

/-- What a client shows is on the screen whenever its account is signed in later. -/
theorem Replicas.Reachable.showsMessage_run (hr : r.Reachable owner) {es : List ReplicaEvent}
    (hok : ∀ e ∈ es, e.accepted = true) (hrun : Runs.run Replicas.step r es = some r')
    (hshows : r.ShowsMessage c chat id fromEmail text) (huser : r'.SignedIn c) :
    r'.ShowsMessage c chat id fromEmail text := by
  obtain ⟨hmem, hwrote⟩ := hr.showsMessage_iff.mp hshows
  have hr' : r'.Reachable owner := hr.append_run hok hrun
  refine hr'.showsMessage_iff.mpr ⟨?_, hr.wrote_run hok hrun hwrote⟩
  rw [Replicas.shown_of_signedIn huser]
  exact hr.mem_view_of_run hok hrun c _ (Replicas.mem_view_of_shown hmem)

/-- A message is shown to its sender as soon as it waits in the queue. -/
theorem Replicas.Reachable.showsMessage_of_send (hr : r.Reachable owner) {t : Time}
    (huser : (r.system.clients c).currentUser = some fromEmail)
    (hsend : r.step (.act (.call c (.sendMessage chat id text)) t) = some r') :
    r'.ShowsMessage c chat id fromEmail text := by
  have hr' : r'.Reachable owner := Runs.Reachable.tail hr rfl hsend
  refine hr'.showsMessage_iff.mpr ?_
  rcases Replicas.system_cases hsend with ⟨e, t', heq, hpermitted, hperform⟩ | ⟨_, _, hact⟩
  · obtain rfl : Event.call c (.sendMessage chat id text) = e := (ReplicaEvent.act.inj heq).1
    obtain ⟨hqueue, _⟩ := System.sent_step huser (hr.accepted.step_of_perform hpermitted hperform)
    have huser' : r'.SignedIn c := by
      have hself := (System.currentUser_of_perform hperform).1
      rw [Replicas.SignedIn, show (r'.system.clients c).currentUser = _ from hself, Event.client,
        huser]
      rfl
    have hqueued : ⟨.sendMessage chat id text, messageDocument chat id fromEmail text⟩ ∈
        (r'.system.clients c).queue := by
      simp [hqueue]
    refine ⟨?_, .inr ⟨c, _, hqueued, rfl⟩⟩
    obtain ⟨settled, base, hgrounds⟩ := hr'.grounds c
    rw [Replicas.shown_of_signedIn huser', hgrounds.mem_view_iff]
    have hmade : messageDocument chat id fromEmail text ∈
        r'.made c settled base (.message chat id) :=
      List.mem_append_right _ (hr'.accepted.sound.pending_of_queued hqueued)
    exact List.ne_nil_of_mem hmade
  · exact absurd rfl (hact _ _)

end shown

/-- `bob` is about to send the message of the sample run, and sends it. -/
def beforeMessage : List ReplicaEvent := sampleReplicas.take 12

/-- `bob` signs out, his message is stored, and he signs in again, processes the answer and is sent
the document. -/
def deliverToBob : List ReplicaEvent :=
  [.act (.signOut 1) 5, .act (.commit 1 6) 6, .act (.signIn 1 "bob") 7, .acknowledge 1,
   .send 1 (.message "tea" "m1"), .receive 1]

/-- The sample run up to the message, the message, and its delivery. -/
theorem exists_deliverToBob : ∃ r₁ r₂ r₃ : Replicas,
    r₁.Reachable sampleOwner ∧ (r₁.system.clients 1).currentUser = some "bob" ∧
      r₁.step (.act (.call 1 (.sendMessage "tea" "m1" "hello")) 5) = some r₂ ∧
      Runs.run Replicas.step r₂ deliverToBob = some r₃ ∧ r₃.SignedIn 1 := by
  have hrun : (Runs.run Replicas.step (Replicas.init sampleOwner) beforeMessage).bind (fun r₁ =>
      (r₁.step (.act (.call 1 (.sendMessage "tea" "m1" "hello")) 5)).bind (fun r₂ =>
        (Runs.run Replicas.step r₂ deliverToBob).map (fun r₃ =>
          decide ((r₁.system.clients 1).currentUser = some "bob" ∧ r₃.SignedIn 1)))) =
            some true := by
    decide
  obtain ⟨r₁, hr₁, hrun⟩ := Option.bind_eq_some_iff.mp hrun
  obtain ⟨r₂, hr₂, hrun⟩ := Option.bind_eq_some_iff.mp hrun
  obtain ⟨r₃, hr₃, hfacts⟩ := Option.map_eq_some_iff.mp hrun
  obtain ⟨huser, hsigned⟩ := of_decide_eq_true hfacts
  exact ⟨r₁, r₂, r₃, Runs.Reachable.of_run (by decide) hr₁, huser, hr₂, hr₃, hsigned⟩

/-- **A message stays on the screen.** Over every run with accepted writes, a message that a client
is shown once is shown, with the same sender and the same text, by every later snapshot that is
taken while its account is signed in, also when it was signed out in between. -/
theorem shown_message_stays {owner : ClientId → Email} {r r' : Replicas} {es : List ReplicaEvent}
    (hr : r.Reachable owner) (hok : ∀ e ∈ es, e.accepted = true)
    (hrun : Runs.run Replicas.step r es = some r') {c : ClientId} {chat : ChatId} {id : MessageId}
    {fromEmail : Email} {text : String} (hshows : r.ShowsMessage c chat id fromEmail text)
    (huser : r'.SignedIn c) : r'.ShowsMessage c chat id fromEmail text :=
  hr.showsMessage_run hok hrun hshows huser

/-- `bob` goes on seeing his message while it is delivered. -/
theorem shown_message_stays_for_bob : ∃ r r' : Replicas,
    Runs.run Replicas.step r deliverToBob = some r' ∧
      r'.ShowsMessage 1 "tea" "m1" "bob" "hello" := by
  obtain ⟨r₁, r₂, r₃, hr₁, huser, hsend, hrun, hsigned⟩ := exists_deliverToBob
  have hr₂ : r₂.Reachable sampleOwner := Runs.Reachable.tail hr₁ rfl hsend
  exact ⟨r₂, r₃, hrun, shown_message_stays hr₂ (by decide) hrun
    (hr₁.showsMessage_of_send huser hsend) hsigned⟩

/-- **A sender sees the own message at once and from then on.** After a signed-in user sends a
message, every snapshot of every later state in which the account is signed in shows it: before the
server has it, between the answer of the server and the arrival of the stored document, and
afterwards. -/
theorem sent_message_shown {owner : ClientId → Email} {r r₁ r₂ : Replicas}
    {es : List ReplicaEvent} {c : ClientId} {chat : ChatId} {id : MessageId} {fromEmail : Email}
    {text : String} {t : Time} (hr : r.Reachable owner)
    (huser : (r.system.clients c).currentUser = some fromEmail)
    (hsend : r.step (.act (.call c (.sendMessage chat id text)) t) = some r₁)
    (hok : ∀ e ∈ es, e.accepted = true) (hrun : Runs.run Replicas.step r₁ es = some r₂)
    (hsigned : r₂.SignedIn c) : r₂.ShowsMessage c chat id fromEmail text := by
  have hr₁ : r₁.Reachable owner := Runs.Reachable.tail hr rfl hsend
  exact hr₁.showsMessage_run hok hrun (hr.showsMessage_of_send huser hsend) hsigned

/-- `bob` sees his message once it is stored and has come back to him. -/
theorem sent_message_shown_to_bob : ∃ r r' : Replicas,
    r.step (.act (.call 1 (.sendMessage "tea" "m1" "hello")) 5) = some r' ∧
      ∃ r'' : Replicas, Runs.run Replicas.step r' deliverToBob = some r'' ∧
        r''.ShowsMessage 1 "tea" "m1" "bob" "hello" := by
  obtain ⟨r₁, r₂, r₃, hr₁, huser, hsend, hrun, hsigned⟩ := exists_deliverToBob
  exact ⟨r₁, r₂, hsend, r₃, hrun, sent_message_shown hr₁ huser hsend (by decide) hrun hsigned⟩

end MessagingApp
