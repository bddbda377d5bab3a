import MessagingApp.ChatList
import MessagingApp.Sessions

/-!
# Who can post

Nothing on the way from the send button to the database looks at the `users` array.
What the array decides is which chats are listed, and a messages screen is only
opened from a list. This file proves so over every interleaving, and shows that an
open screen keeps posting after its listener was told of a removal.
-/

namespace MessagingApp

/-! ## Where messages come from -/

namespace System

variable {device : ClientId → DeviceId} {s t : System} {e : Event}

/-- Replacing the user of a device touches neither the database nor a queue. -/
theorem replaceUser_frame (device : ClientId → DeviceId) (e : Event) (s : System) :
    (s.replaceUser device e).db = s.db ∧
      ∀ c, ((s.replaceUser device e).clients c).queue = (s.clients c).queue := by
  have hsigned : ∀ c, (if c ≠ e.client ∧ device c = device e.client then
      { s.clients c with currentUser := none } else s.clients c).queue = (s.clients c).queue := by
    intro c
    split <;> rfl
  cases e with
  | signIn | register => exact ⟨rfl, hsigned⟩
  | _ => exact ⟨rfl, fun _ => rfl⟩

/-- An event issues a call or is a step of the system, up to who is signed in. -/
theorem performOn_cases (h : s.performOn device e = some t) :
    (∃ c call, e = .call c call ∧ s.issue c call = some t) ∨
      ((∀ c call, e ≠ .call c call) ∧ ∃ u, s.step e = some u ∧ t.db = u.db ∧
        ∀ c, (t.clients c).queue = (u.clients c).queue) := by
  obtain ⟨u, hu, rfl⟩ := Option.map_eq_some_iff.mp h
  have hframe := replaceUser_frame device e u
  cases e with
  | call c call => exact .inl ⟨c, call, rfl, hu⟩
  | _ => exact .inr ⟨by simp, u, hu, hframe⟩

/-- Only `sendMessage` puts a message into a queue, and only for a signed-in user. -/
theorem message_queued (h : s.performOn device e = some t) {c : ClientId} {p : Pending}
    (hp : p ∈ (t.clients c).queue) {chat : ChatId} {id : MessageId}
    (hpath : p.write.path = .message chat id) :
    p ∈ (s.clients c).queue ∨ ∃ text, e = .call c (.sendMessage chat id text) ∧
      (s.clients c).currentUser.isSome := by
  rcases performOn_cases h with ⟨d, call, rfl, hissue⟩ | ⟨hcall, u, hstep, _, hqueue⟩
  · obtain ⟨ws, hws, rfl⟩ := issue_eq_some hissue
    by_cases hc : c = d
    · subst hc
      simp only [withClient_self] at hp
      rcases List.mem_append.mp hp with hp | hp
      · exact .inl hp
      · obtain ⟨w, hw, rfl⟩ := List.mem_map.mp hp
        obtain ⟨text, rfl⟩ := (Call.genuine_of_mem hws hw).eq_sendMessage hpath
        refine .inr ⟨text, rfl, ?_⟩
        cases huser : (s.clients c).currentUser with
        | some email => rfl
        | none =>
          rw [huser] at hws
          obtain rfl := Option.some.inj hws
          cases hw
    · exact .inl (by simpa only [withClient_of_ne s _ hc] using hp)
  · rw [hqueue] at hp
    rcases step_cases hstep with h | ⟨d, call, ws, hcalled, h⟩ | ⟨d, now, q, rest, _, h⟩ | ⟨d, _, h⟩
    · exact .inl (by rwa [h.queue_eq] at hp)
    · rcases h.mem_queue_or hp with hp | ⟨rfl, w, hw, rfl⟩
      · exact .inl hp
      · obtain ⟨text, rfl⟩ := (Call.genuine_of_mem h.writes_eq hw).eq_sendMessage hpath
        rcases hcalled with rfl | hcalled
        · exact absurd rfl (hcall c (.sendMessage chat id text))
        · cases hcalled
    · exact .inl (h.mem_queue hp)
    · exact .inl (h.mem_queue hp)

/-- A message is stored from a queue. -/
theorem message_stored (h : s.performOn device e = some t) {chat : ChatId} {id : MessageId}
    (hmem : DocPath.message chat id ∈ t.db) : DocPath.message chat id ∈ s.db ∨
      ∃ c, ∃ p ∈ (s.clients c).queue, p.write.path = .message chat id := by
  rcases performOn_cases h with ⟨d, call, rfl, hissue⟩ | ⟨_, u, hstep, hdb, _⟩
  · obtain ⟨ws, _, rfl⟩ := issue_eq_some hissue
    exact .inl hmem
  · rw [hdb] at hmem
    rcases step_cases hstep with h | ⟨d, call, ws, _, h⟩ | ⟨d, now, p, rest, _, h⟩ | ⟨d, _, h⟩
    · exact .inl (by rwa [h.db_eq] at hmem)
    · exact .inl (by rwa [h.db_eq] at hmem)
    · rcases DocumentStore.Write.mem_of_mem_commit h.commit_eq hmem with hpath | hmem
      · exact .inr ⟨d, p, by simp [h.queue_eq], hpath.symm⟩
      · exact .inl hmem
    · exact .inl (by rwa [h.db_eq] at hmem)

/-- A signed-in client can send whatever its screens were told. -/
theorem performOn_sendMessage (device : ClientId → DeviceId) {c : ClientId} {email : Email}
    (huser : (s.clients c).currentUser = some email) (chat : ChatId) (id : MessageId)
    (text : String) : ∃ t, s.performOn device (.call c (.sendMessage chat id text)) = some t ∧
      (t.clients c).queue = (s.clients c).queue ++
        [⟨.sendMessage chat id text, messageDocument chat id email text⟩] := by
  have hwrites : (Call.sendMessage chat id text).writes (s.clients c).currentUser =
      some [messageDocument chat id email text] := by rw [huser]; rfl
  obtain ⟨t, ht⟩ : ∃ t, s.issue c (.sendMessage chat id text) = some t := by
    simp [issue, hwrites]
  refine ⟨t, Option.map_eq_some_iff.mpr ⟨t, ht, rfl⟩, ?_⟩
  obtain ⟨ws, hws, rfl⟩ := issue_eq_some ht
  obtain rfl := Option.some.inj (hwrites.symm.trans hws)
  simp

end System

/-! ## What a step does to the screens -/

namespace SessionsRun

/-- What can happen to the screens of device `d` without a step of the system. -/
inductive Shown (k : SessionsRun) (d : DeviceId) : List OpenScreen → Prop
  | showContacts (user : Option Email) :
      Shown k d (.contacts { currentUser := user } :: k.screens d)
  | listTold {list : ChatListScreen} {i : ℕ} {email : Email} {view : Db}
      {contacts : ContactsScreen} (hi : (k.screens d)[i]? = some (.contacts list))
      (huser : list.currentUser = some email)
      (hload : list.contacts.loadChats (.ok (chatsOf email view)) = some contacts) :
      Shown k d ((k.screens d).set i
        (.contacts { list with contacts := contacts, listedFrom := view }))
  | select {list : ChatListScreen} {chat : Chat} (hlist : .contacts list ∈ k.screens d)
      (hchat : chat ∈ list.contacts.chats) :
      Shown k d (.messages (list.prepare chat) :: k.screens d)
  | left {screens : List OpenScreen} (hsub : ∀ screen ∈ screens, screen ∈ k.screens d) :
      Shown k d screens
  | chatTold {openChat : OpenChat} {i : ℕ} (told : OpenChat)
      (hi : (k.screens d)[i]? = some (.messages openChat))
      (hchatId : told.chatId = openChat.chatId) (hfor : told.openedFor = openChat.openedFor)
      (hfrom : told.openedFrom = openChat.openedFrom) :
      Shown k d ((k.screens d).set i (.messages told))

variable {device : ClientId → DeviceId} {k k' : SessionsRun}

/-- **Inversion.** An event changes the screens of one device, or is a step of the system that
sends nothing, or sends a message in the chat of an open screen. -/
theorem next_cases {e : SessionEvent} (h : k.next device e = some k') :
    (∃ d screens, Shown k d screens ∧ k' = k.withScreens d screens) ∨
    (∃ e', e'.sends = false ∧ k.now.performOn device e' = some k'.now ∧ k'.sent = k.sent ∧
      k'.screens = k.screens) ∨
    ∃ c id text openChat, .messages openChat ∈ k.screens (device c) ∧
      k.now.performOn device (.call c (.sendMessage openChat.chatId id text)) = some k'.now ∧
      k'.sent = k.sent ++
        (if (k.now.clients c).currentUser.isSome then [⟨c, openChat, id⟩] else []) ∧
      k'.screens = k.screens := by
  cases e with
  | system e' =>
    by_cases hsends : e'.sends = true
    · simp [next, hsends] at h
    · have h' : k.system device e' = some k' := by simpa [next, hsends] using h
      obtain ⟨s, hs, rfl⟩ := Option.map_eq_some_iff.mp h'
      exact .inr (.inl ⟨e', by simpa using hsends, hs, rfl, rfl⟩)
  | showContacts c => exact .inl ⟨device c, _, .showContacts _, (Option.some.inj h).symm⟩
  | listTold c i version own =>
    simp only [next, listTold] at h
    split at h
    case h_1 list hi =>
      obtain ⟨email, huser, h⟩ := Option.bind_eq_some_iff.mp h
      obtain ⟨view, _, h⟩ := Option.bind_eq_some_iff.mp h
      obtain ⟨contacts, hload, h⟩ := Option.bind_eq_some_iff.mp h
      exact .inl ⟨device c, _, .listTold hi huser hload, (Option.some.inj h).symm⟩
    case h_2 => cases h
  | select d row =>
    simp only [next, select] at h
    split at h
    case h_1 list below hscreens =>
      obtain ⟨chat, hchat, h⟩ := Option.bind_eq_some_iff.mp h
      have hlist : .contacts list ∈ k.screens d := by
        rw [hscreens]
        exact List.mem_cons_self
      exact .inl ⟨d, _, .select hlist (List.mem_of_getElem? hchat), (Option.some.inj h).symm⟩
    case h_2 => cases h
  | leave d =>
    exact .inl ⟨d, _, .left (fun _ => List.mem_of_mem_tail), (Option.some.inj h).symm⟩
  | popToRoot d =>
    exact .inl ⟨d, [], .left (by simp), (Option.some.inj h).symm⟩
  | chatTold c i version own =>
    simp only [next, chatTold] at h
    split at h
    case h_1 openChat hi =>
      obtain ⟨view, _, h⟩ := Option.bind_eq_some_iff.mp h
      obtain ⟨hexColourString, _, h⟩ := Option.bind_eq_some_iff.mp h
      let told : OpenChat := { openChat with
        hexColourString := hexColourString
        told := view.lookup (.chat openChat.chatId) }
      exact .inl ⟨device c, _, .chatTold told hi rfl rfl rfl, (Option.some.inj h).symm⟩
    case h_2 => cases h
  | sendButtonPressed c id text =>
    simp only [next, sendButtonPressed] at h
    split at h
    case h_1 openChat below hscreens =>
      obtain ⟨s, hs, h⟩ := Option.bind_eq_some_iff.mp h
      obtain rfl := Option.some.inj h
      have hopen : .messages openChat ∈ k.screens (device c) := by
        rw [hscreens]
        exact List.mem_cons_self
      exact .inr (.inr ⟨c, id, text, openChat, hopen, hs, rfl, rfl⟩)
    case h_2 => cases h

end SessionsRun

/-! ## What the screens rest on -/

/-- A view of the database has the chat, with the user's email in its `users` array. -/
def listedFor (user : Option Email) (view : Db) (chat : ChatId) : Bool :=
  user.any fun email => (view.lookup (.chat chat)).any (hasUser email)

theorem listedFor_iff {user : Option Email} {view : Db} {chat : ChatId} :
    listedFor user view chat = true ↔ ∃ email, user = some email ∧ IsMember view chat email := by
  simp [listedFor, IsMember, Option.any_eq_true]

/-- The list an open screen was opened from had its chat for the list's user. -/
def OpenChat.Listed (openChat : OpenChat) : Prop :=
  listedFor openChat.openedFor openChat.openedFrom openChat.chatId = true

/-- A list shows chats of its user, and a messages screen was opened from such a list. -/
def OpenScreen.Grounded : OpenScreen → Prop
  | .contacts list =>
    ∀ chat ∈ list.contacts.chats, listedFor list.currentUser list.listedFrom chat.id = true
  | .messages openChat => openChat.Listed

/-- A chat list shows chats that contain the email of its user. -/
theorem listedFor_of_loadChats {email : Email} {view : Db} {screen contacts : ContactsScreen}
    (hload : screen.loadChats (.ok (chatsOf email view)) = some contacts) :
    ∀ chat ∈ contacts.chats, listedFor (some email) view chat.id = true := by
  obtain ⟨chats, hchats, hcontacts⟩ := Option.bind_eq_some_iff.mp hload
  obtain rfl := Option.some.inj hcontacts
  intro chat hchat
  obtain ⟨d, hd, hconversation⟩ := PartialLoops.mem_of_mapM hchats hchat
  obtain ⟨hlookup, hmember, _⟩ := mem_chatsOf.mp hd
  rw [(conversation_eq_some hconversation).1]
  exact listedFor_iff.mpr ⟨email, rfl, d.data, hlookup, hmember⟩

namespace SessionsRun

variable {device : ClientId → DeviceId} {k k' : SessionsRun} {chat : ChatId}

/-- A message was sent from an open messages screen. -/
def Sent (k : SessionsRun) (chat : ChatId) (id : MessageId) : Prop :=
  ∃ m ∈ k.sent, m.openChat.chatId = chat ∧ m.id = id

/-- What holds in every reachable state. -/
structure Sound (k : SessionsRun) : Prop where
  grounded : ∀ d, ∀ screen ∈ k.screens d, screen.Grounded
  listed : ∀ m ∈ k.sent, m.openChat.Listed
  queued : ∀ c, ∀ p ∈ (k.now.clients c).queue, ∀ chat id,
    p.write.path = .message chat id → k.Sent chat id
  stored : ∀ chat id, DocPath.message chat id ∈ k.now.db → k.Sent chat id

theorem Sound.init : Sound SessionsRun.init := by
  refine ⟨?_, ?_, ?_, ?_⟩ <;> simp [SessionsRun.init, System.init]

/-- What is shown next is grounded in what was shown before. -/
theorem Sound.shown (hk : k.Sound) {d : DeviceId} {screens : List OpenScreen}
    (h : Shown k d screens) : ∀ screen ∈ screens, screen.Grounded := by
  have hold := hk.grounded d
  -- A new or changed screen, with the others as before.
  have hpush : ∀ new : OpenScreen, new.Grounded →
      ∀ screen ∈ new :: k.screens d, screen.Grounded := by
    intro new hnew screen hscreen
    rcases List.mem_cons.mp hscreen with rfl | hscreen
    · exact hnew
    · exact hold screen hscreen
  have hset : ∀ (i : ℕ) (new : OpenScreen), new.Grounded →
      ∀ screen ∈ (k.screens d).set i new, screen.Grounded := by
    intro i new hnew screen hscreen
    rcases List.mem_or_eq_of_mem_set hscreen with hscreen | rfl
    · exact hold screen hscreen
    · exact hnew
  cases h with
  | showContacts user => exact hpush _ (fun _ hchat => nomatch hchat)
  | listTold hi huser hload =>
    refine hset _ _ ?_
    intro chat hchat
    dsimp only at hchat ⊢
    rw [huser]
    exact listedFor_of_loadChats hload chat hchat
  | select hlist hchat => exact hpush _ (hold _ hlist _ hchat)
  | left hsub => exact fun screen hscreen => hold screen (hsub screen hscreen)
  | chatTold told hi hchatId hfor hfrom =>
    refine hset _ _ ?_
    have hgrounded : OpenChat.Listed _ := hold _ (List.mem_of_getElem? hi)
    rw [OpenScreen.Grounded, OpenChat.Listed, hchatId, hfor, hfrom]
    exact hgrounded

/-- Steps of the system that account for the messages they send keep the invariant. -/
theorem Sound.performed (hk : k.Sound) {e : Event}
    (hstep : k.now.performOn device e = some k'.now) (hscreens : k'.screens = k.screens)
    (hkeep : ∀ m ∈ k.sent, m ∈ k'.sent) (hlisted : ∀ m ∈ k'.sent, m.openChat.Listed)
    (hsends : ∀ c chat id text, e = .call c (.sendMessage chat id text) →
      (k.now.clients c).currentUser.isSome → k'.Sent chat id) : k'.Sound := by
  have hsent : ∀ chat id, k.Sent chat id → k'.Sent chat id := by
    rintro chat id ⟨m, hm, hsame⟩
    exact ⟨m, hkeep m hm, hsame⟩
  refine ⟨by rw [hscreens]; exact hk.grounded, hlisted, ?_, ?_⟩
  · intro c p hp chat id hpath
    rcases System.message_queued hstep hp hpath with hp | ⟨text, rfl, huser⟩
    · exact hsent chat id (hk.queued c p hp chat id hpath)
    · exact hsends c chat id text rfl huser
  · intro chat id hmem
    rcases System.message_stored hstep hmem with hmem | ⟨c, p, hp, hpath⟩
    · exact hsent chat id (hk.stored chat id hmem)
    · exact hsent chat id (hk.queued c p hp chat id hpath)

/-- Every step keeps the invariant. -/
theorem Sound.next (hk : k.Sound) {e : SessionEvent} (h : k.next device e = some k') :
    k'.Sound := by
  rcases next_cases h with ⟨d, screens, hshown, rfl⟩ |
    ⟨e', hsends, hstep, hsent, hscreens⟩ | ⟨c, id, text, openChat, hopen, hstep, hsent, hscreens⟩
  · refine ⟨?_, hk.listed, hk.queued, hk.stored⟩
    intro d'
    by_cases hd : d' = d
    · subst hd
      rw [withScreens_self]
      exact hk.shown hshown
    · rw [withScreens_of_ne k screens hd]
      exact hk.grounded d'
  · refine hk.performed hstep hscreens (by simp [hsent]) (by rw [hsent]; exact hk.listed) ?_
    rintro c chat id text rfl
    cases hsends
  · refine hk.performed hstep hscreens (fun m hm => by simp [hsent, hm]) ?_ ?_
    · intro m hm
      rw [hsent] at hm
      rcases List.mem_append.mp hm with hm | hm
      · exact hk.listed m hm
      · split at hm
        · obtain rfl := List.mem_singleton.mp hm
          exact hk.grounded _ _ hopen
        · cases hm
    · rintro c' chat id' text' hcall huser
      obtain ⟨rfl, hsame⟩ := Event.call.inj hcall
      obtain ⟨rfl, rfl, _⟩ := Call.sendMessage.inj hsame
      exact ⟨⟨c, openChat, id⟩, by simp [hsent, huser], rfl, rfl⟩

theorem Reachable.sound (hk : k.Reachable device) : k.Sound :=
  Runs.Reachable.invariant hk .init fun _ _ _ _ hu _ h => hu.next h

/-! ## The way to an open screen -/

/-- The messages screen, if the screen is one. -/
def openChat? : OpenScreen → Option OpenChat
  | .contacts _ => none
  | .messages openChat => some openChat

/-- The chat of a messages screen. -/
def chat? (screen : OpenScreen) : Option ChatId := (openChat? screen).map OpenChat.chatId

/-- The snapshot a list was handed last has the chat, with the list's user in its `users`
array. -/
def listsChat (chat : ChatId) : OpenScreen → Bool
  | .contacts list => listedFor list.currentUser list.listedFrom chat
  | .messages _ => false

/-- A chat list open on the device has the chat. -/
def lists (k : SessionsRun) (d : DeviceId) (chat : ChatId) : Bool :=
  (k.screens d).any (listsChat chat)

/-- The chats of the messages screens open on a device. -/
def openIn (k : SessionsRun) (d : DeviceId) : List ChatId := (k.screens d).filterMap chat?

/-- The messages sent in a chat from a device. -/
def sentIn (device : ClientId → DeviceId) (k : SessionsRun) (d : DeviceId) (chat : ChatId) :
    List SentMessage :=
  k.sent.filter fun m => device m.client = d ∧ m.openChat.chatId = chat

/-- The send button of an open screen issues a message under the email signed in, whatever the
screen was told. -/
theorem sends_of_open {d : DeviceId} {openChat : OpenChat} {below : List OpenScreen}
    (hscreens : k.screens d = .messages openChat :: below) {c : ClientId} (hdevice : device c = d)
    {email : Email} (huser : (k.now.clients c).currentUser = some email) (id : MessageId)
    (text : String) : ∃ k', k.next device (.sendButtonPressed c id text) = some k' ∧
      (k'.now.clients c).queue = (k.now.clients c).queue ++
        [⟨.sendMessage openChat.chatId id text,
          messageDocument openChat.chatId id email text⟩] := by
  obtain ⟨s, hs, hqueue⟩ := System.performOn_sendMessage device huser openChat.chatId id text
  subst hdevice
  refine ⟨{ k with
    past := k.past ++ [k.now.db]
    now := s
    sent := k.sent ++ [⟨c, openChat, id⟩] }, ?_, hqueue⟩
  simp [SessionsRun.next, sendButtonPressed, hscreens, hs, huser]

/-- Without an open screen of the chat, and while no list of the device has it, a step sends
nothing in the chat from the device and opens no screen of it. -/
theorem Sound.closed_next (hk : k.Sound) {d : DeviceId} (hlists : k.lists d chat = false)
    (hclosed : chat ∉ k.openIn d) {e : SessionEvent} (h : k.next device e = some k') :
    chat ∉ k'.openIn d ∧ k'.sentIn device d chat = k.sentIn device d chat := by
  have hscreen : ∀ screen ∈ k.screens d, chat? screen ≠ some chat :=
    fun screen hmem heq => hclosed (List.mem_filterMap.mpr ⟨screen, hmem, heq⟩)
  rcases next_cases h with ⟨d', screens, hshown, rfl⟩ | ⟨e', _, _, hsent, hscreens⟩ |
    ⟨c, id, text, openChat, hopen, _, hsent, hscreens⟩
  · refine ⟨?_, rfl⟩
    by_cases hd : d = d'
    · subst hd
      rw [openIn, withScreens_self]
      intro hmem
      obtain ⟨screen, hmem, heq⟩ := List.mem_filterMap.mp hmem
      cases hshown with
      | showContacts user =>
        rcases List.mem_cons.mp hmem with rfl | hmem
        · cases heq
        · exact hscreen screen hmem heq
      | listTold hi huser hload =>
        rcases List.mem_or_eq_of_mem_set hmem with hmem | rfl
        · exact hscreen screen hmem heq
        · cases heq
      | @select list row hlist hchat =>
        rcases List.mem_cons.mp hmem with rfl | hmem
        · -- The list has the chat of every row it shows.
          obtain rfl := Option.some.inj heq
          have hlisted := hk.grounded d _ hlist row hchat
          have hany : k.lists d row.id = true := List.any_eq_true.mpr ⟨_, hlist, hlisted⟩
          rw [lists] at hany
          simp [ChatListScreen.prepare, lists, hany] at hlists
        · exact hscreen screen hmem heq
      | left hsub => exact hscreen screen (hsub screen hmem) heq
      | chatTold told hi hchatId _ _ =>
        rcases List.mem_or_eq_of_mem_set hmem with hmem | rfl
        · exact hscreen screen hmem heq
        · refine hscreen _ (List.mem_of_getElem? hi) ?_
          rw [← heq]
          exact congrArg some hchatId.symm
    · rwa [openIn, withScreens_of_ne k screens hd]
  · exact ⟨by rwa [openIn, hscreens], by rw [sentIn, hsent, sentIn]⟩
  · refine ⟨by rwa [openIn, hscreens], ?_⟩
    have hother : ¬ (device c = d ∧ openChat.chatId = chat) := by
      rintro ⟨rfl, rfl⟩
      exact hscreen _ hopen rfl
    rw [sentIn, hsent, List.filter_append, sentIn]
    split <;> simp [hother]

end SessionsRun

/-- **Posting follows the chat lists.** A stored message was sent from a messages screen that was
opened from a list in which the chat had the list's user in its `users` array. So was every screen
that is open, and its send button posts for whoever is signed in, whatever it was told since. A
device without a messages screen of the chat sends nothing in it for as long as no chat list open
on it is handed a snapshot in which the chat has the list's user. -/
theorem posting_follows_chat_list (device : ClientId → DeviceId) {k : SessionsRun}
    (hk : k.Reachable device) (d : DeviceId) (chat : ChatId) :
    (∀ id, DocPath.message chat id ∈ k.now.db → ∃ m ∈ k.sent, m.openChat.chatId = chat ∧
      m.id = id ∧ m.openChat.Listed) ∧
    (∀ openChat, .messages openChat ∈ k.screens d → openChat.Listed) ∧
    (∀ openChat below, k.screens d = .messages openChat :: below → ∀ c, device c = d →
      ∀ email, (k.now.clients c).currentUser = some email → ∀ id text,
        ∃ k', k.next device (.sendButtonPressed c id text) = some k' ∧
          (k'.now.clients c).queue = (k.now.clients c).queue ++
            [⟨.sendMessage openChat.chatId id text,
              messageDocument openChat.chatId id email text⟩]) ∧
    (chat ∉ k.openIn d → ∀ es k',
      Runs.Along (SessionsRun.next device) (fun k => k.lists d chat = false) k es →
      Runs.run (SessionsRun.next device) k es = some k' →
        k'.sentIn device d chat = k.sentIn device d chat) := by
  have hsound := hk.sound
  refine ⟨?_, fun _ hopen => hsound.grounded d _ hopen, ?_, ?_⟩
  · intro id hmem
    obtain ⟨m, hm, hchat, hid⟩ := hsound.stored chat id hmem
    exact ⟨m, hm, hchat, hid, hsound.listed m hm⟩
  · intro openChat below hscreens c hdevice email huser id text
    exact SessionsRun.sends_of_open hscreens hdevice huser id text
  · intro hclosed es k' halong hrun
    refine (halong.invariant
      (fun u => u.Sound ∧ chat ∉ u.openIn d ∧ u.sentIn device d chat = k.sentIn device d chat)
      (fun _ _ => trivial) hrun ⟨hsound, hclosed, rfl⟩ ?_).2.2
    rintro u v e hlists ⟨hu, huclosed, husent⟩ _ h
    obtain ⟨hvclosed, hvsent⟩ := hu.closed_next hlists huclosed h
    exact ⟨hu.next h, hvclosed, hvsent.trans husent⟩

/-- The accounts 1 and 2 are used on one device, every other account on its own. -/
def sampleDevice (c : ClientId) : DeviceId := if c = 2 then 1 else c

/-- `ann` adds `bob` to her chat, `bob` opens it, and `ann` removes him again. -/
def removedWhileOpen : List SessionEvent :=
  [.system (.signIn 0 "ann"), .system (.call 0 (.newChat "tea" "Tea time")),
   .system (.commit 0 1), .system (.commit 0 1),
   .system (.call 0 (.addNewUser "tea" { email := some "bob", name := some "Bob" })),
   .system (.commit 0 2), .system (.commit 0 2), .system (.signIn 1 "bob"), .showContacts 1,
   .listTold 1 0 8 [], .select 1 0, .system (.call 0 (.removeFromChat "tea" "bob")),
   .system (.commit 0 3), .listTold 1 1 10 [], .chatTold 1 0 10 []]

/-- On the device of `bob` the user `cat` signs in, leaves the new chat list, sends a message from
the screen `bob` had opened, and leaves that screen too. -/
def postedByAnother : List SessionEvent :=
  [.system (.signIn 2 "cat"), .showContacts 2, .leave 1, .sendButtonPressed 2 "m1" "hello",
   .system (.commit 2 4), .leave 1]

/-- The message that is stored was sent from the screen opened for `bob`. Once it is left, the
device sends no more in the chat until a list has it again. -/
theorem posting_follows_chat_list_on_leaving : ∃ k : SessionsRun,
    k.sent.map (fun m => (m.client, m.id, m.openChat.openedFor)) = [(2, "m1", some "bob")] ∧
      (∃ m ∈ k.sent, m.openChat.chatId = "tea" ∧ m.id = "m1" ∧ m.openChat.Listed) ∧
      k.lists 1 "tea" = false ∧
      ∀ es k', Runs.Along (SessionsRun.next sampleDevice) (fun k => k.lists 1 "tea" = false) k es →
        Runs.run (SessionsRun.next sampleDevice) k es = some k' →
          k'.sentIn sampleDevice 1 "tea" = k.sentIn sampleDevice 1 "tea" := by
  have hrun : (Runs.run (SessionsRun.next sampleDevice) SessionsRun.init
      (removedWhileOpen ++ postedByAnother)).map (fun k =>
      decide (k.sent.map (fun m => (m.client, m.id, m.openChat.openedFor)) =
          [(2, "m1", some "bob")] ∧
        DocPath.message "tea" "m1" ∈ k.now.db ∧ k.lists 1 "tea" = false ∧
        "tea" ∉ k.openIn 1)) = some true := by
    decide
  obtain ⟨k, hk, hfacts⟩ := Option.map_eq_some_iff.mp hrun
  obtain ⟨hsent, hstored, hlists, hclosed⟩ := of_decide_eq_true hfacts
  have hreachable : k.Reachable sampleDevice := Runs.Reachable.of_run (fun _ _ => trivial) hk
  obtain ⟨hfrom, _, _, hquiet⟩ := posting_follows_chat_list sampleDevice hreachable 1 "tea"
  exact ⟨k, hsent, hfrom "m1" hstored, hlists, hquiet hclosed⟩

/-- **A removed user keeps posting on an open screen.** The screen of `bob` was told a `users`
array without him, and the message he sends then is stored. -/
theorem removed_user_keeps_posting : ∃ (k k' : SessionsRun) (openChat : OpenChat)
    (document : Document), (∀ e ∈ removedWhileOpen, e.accepted = true) ∧
      Runs.run (SessionsRun.next sampleDevice) SessionsRun.init removedWhileOpen = some k ∧
      (k.now.clients 1).currentUser = some "bob" ∧
      (k.screens 1).head?.bind SessionsRun.openChat? = some openChat ∧
      openChat.chatId = "tea" ∧ openChat.told = some document ∧
      hasUser "bob" document = false ∧
      Runs.run (SessionsRun.next sampleDevice) k
        [.sendButtonPressed 1 "m1" "hello", .system (.commit 1 4)] = some k' ∧
      DocPath.message "tea" "m1" ∉ k.now.db ∧ DocPath.message "tea" "m1" ∈ k'.now.db := by
  have hrun : (Runs.run (SessionsRun.next sampleDevice) SessionsRun.init removedWhileOpen).bind
      (fun k => (Runs.run (SessionsRun.next sampleDevice) k
        [.sendButtonPressed 1 "m1" "hello", .system (.commit 1 4)]).bind (fun k' =>
      ((k.screens 1).head?.bind SessionsRun.openChat?).map (fun openChat =>
      decide ((k.now.clients 1).currentUser = some "bob" ∧ openChat.chatId = "tea" ∧
        openChat.told.map (hasUser "bob") = some false ∧
        DocPath.message "tea" "m1" ∉ k.now.db ∧ DocPath.message "tea" "m1" ∈ k'.now.db)))) =
      some true := by
    decide
  obtain ⟨k, hk, hrun⟩ := Option.bind_eq_some_iff.mp hrun
  obtain ⟨k', hk', hrun⟩ := Option.bind_eq_some_iff.mp hrun
  obtain ⟨openChat, hopen, hfacts⟩ := Option.map_eq_some_iff.mp hrun
  obtain ⟨huser, hchat, htold, hbefore, hafter⟩ := of_decide_eq_true hfacts
  obtain ⟨document, htold, hmember⟩ := Option.map_eq_some_iff.mp htold
  exact ⟨k, k', openChat, document, by decide, hk, huser, hopen, hchat, htold, hmember, hk',
    hbefore, hafter⟩

end MessagingApp
