import MessagingApp.MessagesTable
import MessagingApp.Queries
import MessagingApp.Schema

/-!
# No stored document traps a reader

Each snapshot handler is run on what its query returns in a reachable state. The
schema of the stored documents makes every forced cast and unwrap succeed, and
every string that becomes a colour is one.
-/

namespace MessagingApp

/-- Every button of the picker names a colour. -/
theorem hexColour_of_picked {colour : String} (h : colour ∈ pickerColours) :
    ∃ rgb, hexColour colour = some rgb := by
  have hall : ∀ colour ∈ pickerColours, (hexColour colour).isSome := by decide
  exact Option.isSome_iff_exists.mp (hall colour h)

/-- A stored array of distinct strings passes the cast `as! [String]`. -/
theorem ChatSchema.stringsField_users {d : Document} {users : List Email}
    (h : d .users = some (.array (users.map some))) : stringsField d .users = some users := by
  have hmap : (users.map some).mapM id = some ((users.map some).map (fun x => x.getD "")) :=
    PartialLoops.mapM_eq_map (by simp)
  simpa [stringsField, h, Value.strings?, Function.comp_def] using hmap

/-- The sequences of snapshots, errors and layout requests a messages screen of a chat can
have seen, and the screen they lead to. -/
inductive MessagesScreen.Shows (chat : ChatId) : MessagesScreen → Prop
  | opened : Shows chat {}
  | users {screen : MessagesScreen} {s : System} (hs : s.Reachable) (h : Shows chat screen) :
      Shows chat (loadUserOptions (.ok (usersOf chat s.db)) screen).screen
  | usersError {screen : MessagesScreen} (error : String) (h : Shows chat screen) :
      Shows chat (loadUserOptions (.error error) screen).screen
  | messages {screen screen' : MessagesScreen} {s : System} (hs : s.Reachable)
      (h : Shows chat screen)
      (hload : loadMessages (.ok (messagesOf chat s.db)) screen = some screen') :
      Shows chat screen'
  | messagesError {screen screen' : MessagesScreen} (error : String) (h : Shows chat screen)
      (hload : loadMessages (.error error) screen = some screen') : Shows chat screen'
  | row {screen screen' : MessagesScreen} (row : ℕ) (h : Shows chat screen)
      (hrow : layoutRow row screen = some screen') : Shows chat screen'

/-- No handler traps on the documents of a state. -/
structure ReadersSafe (s : System) : Prop where
  /-- `ChatManager.loadChats`: every chat in a chat list has a `name`. -/
  chatList : ∀ email (screen : ContactsScreen),
    ∃ screen', screen.loadChats (.ok (chatsOf email s.db)) = some screen'
  /-- `GroupMembersModel.loadValidMembers`: every chat has `users`. -/
  validMembers : ∀ chat, DocPath.chat chat ∈ s.db → ∀ screen : GroupMembersScreen,
    ∃ handled, screen.loadValidMembers (.ok (s.db.lookup (.chat chat))) = some handled
  /-- `GroupMembersModel.loadMembers`: every member document has a `colour`, and the cells
  made of it get one. -/
  members : ∀ chat (screen : GroupMembersScreen),
    ∃ screen', screen.loadMembers (.ok (usersOf chat s.db)) = some screen' ∧
      ∀ user ∈ screen'.chatMembers, ∀ colour ∈ user.colour, (hexColour colour).isSome
  /-- `MemberViewModel.loadMember` and `showMemberDetails`. -/
  member : ∀ chat member, DocPath.member chat member ∈ s.db →
    ∃ details, loadMember (.ok (s.db.lookup (.member chat member))) = some (some details)
  /-- `MessagesManager.loadTitle`. -/
  title : ∀ chat, DocPath.chat chat ∈ s.db →
    ∃ title, MessagesScreen.loadTitle (.ok (s.db.lookup (.chat chat))) = some (some title)
  /-- `MessagesManager.loadChatOptions` and `updateUI`, after an error or on the chat's
  document, from any colour shown before. -/
  chatOptions : ∀ chat, DocPath.chat chat ∈ s.db → ∀ result : Snapshot (Option Document),
    (∀ document, result = .ok document → document = s.db.lookup (.chat chat)) →
    ∀ hex, (hexColour hex).isSome →
      ∃ hex', MessagesScreen.loadChatOptions result hex = some hex' ∧ (hexColour hex').isSome
  /-- `MessagesManager.loadMessages`: every message has a `text` and a `fromEmail`. -/
  messages : ∀ chat (screen : MessagesScreen),
    ∃ screen', screen.loadMessages (.ok (messagesOf chat s.db)) = some screen'
  /-- `AddUserManager`: every listed profile has the name `addNewUser` unwraps. -/
  profiles : ∀ d ∈ profiles s.db, ∀ chatId, ∃ ws, addNewUser chatId (listedUser d) = some ws

section readers

variable {s : System}

/-- A document found by a query has its schema. -/
theorem SchemaSound.chat (hs : SchemaSound s) {chat : ChatId} {d : Document}
    (h : s.db.lookup (.chat chat) = some d) : ChatSchema d := hs.stored _ _ h

theorem SchemaSound.member (hs : SchemaSound s) {chat : ChatId} {member : Email} {d : Document}
    (h : s.db.lookup (.member chat member) = some d) : MemberSchema d := hs.stored _ _ h

theorem SchemaSound.message (hs : SchemaSound s) {chat : ChatId} {id : MessageId} {d : Document}
    (h : s.db.lookup (.message chat id) = some d) : MessageSchema d := hs.stored _ _ h

theorem SchemaSound.profile (hs : SchemaSound s) {email : Email} {d : Document}
    (h : s.db.lookup (.profile email) = some d) : ProfileSchema d := hs.stored _ _ h

/-- The user made from a stored member document. -/
theorem SchemaSound.chatMember (hs : SchemaSound s) {chat : ChatId} {d : QueryDocument}
    (hd : d ∈ usersOf chat s.db) : ∃ colour ∈ pickerColours, MessagingApp.chatMember d = some {
      email := some d.documentID
      name := stringField d.data .name
      userName := stringField d.data .userName
      colour := some colour } := by
  obtain ⟨colour, hpicked, hcolour⟩ := (hs.member (mem_usersOf.mp hd)).colour
  exact ⟨colour, hpicked, by simp [MessagingApp.chatMember, hcolour]⟩

/-- `loadMembers` completes on a stored sub-collection. -/
theorem SchemaSound.loadMembers (hs : SchemaSound s) (chat : ChatId)
    (screen : GroupMembersScreen) :
    ∃ screen', screen.loadMembers (.ok (usersOf chat s.db)) = some screen' ∧
      ∀ user ∈ screen'.chatMembers, ∀ colour ∈ user.colour, (hexColour colour).isSome := by
  have hread : ∀ d ∈ usersOf chat s.db, ∃ user, MessagingApp.chatMember d = some user := by
    intro d hd
    obtain ⟨colour, _, huser⟩ := hs.chatMember hd
    exact ⟨_, huser⟩
  obtain ⟨users, husers⟩ := PartialLoops.exists_mapM hread
  refine ⟨{ screen with
    chatMembers := users.filter (isValidMember screen.chatMemberArray)
    title := membersTitle (users.filter (isValidMember screen.chatMemberArray)).length
    rowCount := (users.filter (isValidMember screen.chatMemberArray)).length },
    by simp [GroupMembersScreen.loadMembers, husers], ?_⟩
  intro user huser colour hcolour
  obtain ⟨d, hd, hmember⟩ := PartialLoops.mem_of_mapM husers (List.mem_of_mem_filter huser)
  obtain ⟨colour', hpicked, huser'⟩ := hs.chatMember hd
  rw [hmember, Option.some.injEq] at huser'
  subst huser'
  obtain rfl := Option.some.inj hcolour
  exact Option.isSome_iff_exists.mpr (hexColour_of_picked hpicked)

/-- The message made from a stored document. -/
theorem SchemaSound.readMessage (hs : SchemaSound s) {chat : ChatId} {d : QueryDocument}
    (hd : d ∈ messagesOf chat s.db) : ∃ message, MessagesScreen.readMessage d = some message :=
  (hs.message (mem_messagesOf.mp hd).1).readMessage

/-- `loadMessages` completes on the stored messages. -/
theorem SchemaSound.loadMessages (hs : SchemaSound s) (chat : ChatId) (screen : MessagesScreen) :
    ∃ screen', screen.loadMessages (.ok (messagesOf chat s.db)) = some screen' := by
  have hread : ∀ d ∈ messagesOf chat s.db,
      ∃ message, MessagesScreen.readMessage d = some message := fun _ => hs.readMessage
  obtain ⟨messages, hmessages⟩ := PartialLoops.exists_mapM hread
  exact ⟨_, screen.loadMessages_ok hmessages⟩

/-- Every chat of a chat list has a name. -/
theorem SchemaSound.loadChats (hs : SchemaSound s) (email : Email) (screen : ContactsScreen) :
    ∃ screen', screen.loadChats (.ok (chatsOf email s.db)) = some screen' := by
  have hread : ∀ d ∈ chatsOf email s.db, ∃ chat, conversation d = some chat := by
    intro d hd
    obtain ⟨name, hname⟩ := (hs.chat (mem_chatsOf.mp hd).1).name
    exact ⟨{ id := d.documentID, name := name }, by simp [conversation, hname]⟩
  obtain ⟨chats, hchats⟩ := PartialLoops.exists_mapM hread
  exact ⟨{ chats := chats, rowCount := chats.length },
    by simp [ContactsScreen.loadChats, hchats]⟩

/-- **Every reader is safe.** The schema makes every handler complete. -/
theorem SchemaSound.readersSafe (hs : SchemaSound s) : ReadersSafe s where
  chatList := hs.loadChats
  validMembers chat hchat screen := by
    obtain ⟨d, hd⟩ := DocumentStore.exists_lookup hchat
    obtain ⟨users, _, husers⟩ := (hs.chat hd).users
    have hcast := ChatSchema.stringsField_users husers
    exact ⟨{ screen := { screen with chatMemberArray := some users }, called := [.loadMembers] },
      by simp [GroupMembersScreen.loadValidMembers, hd, hcast]⟩
  members := hs.loadMembers
  member chat member hmember := by
    obtain ⟨d, hd⟩ := DocumentStore.exists_lookup hmember
    obtain ⟨name, hname⟩ := (hs.member hd).name
    obtain ⟨colour, hpicked, hcolour⟩ := (hs.member hd).colour
    obtain ⟨rgb, hrgb⟩ := hexColour_of_picked hpicked
    exact ⟨⟨name, (stringField d .userName).getD " ", colour⟩,
      by simp [loadMember, hd, hname, hcolour, hrgb]⟩
  title chat hchat := by
    obtain ⟨d, hd⟩ := DocumentStore.exists_lookup hchat
    obtain ⟨name, hname⟩ := (hs.chat hd).name
    exact ⟨name, by simp [MessagesScreen.loadTitle, hd, hname]⟩
  chatOptions chat hchat result hresult hex hhex := by
    obtain ⟨d, hd⟩ := DocumentStore.exists_lookup hchat
    obtain ⟨colour, hpicked, hcolour⟩ := (hs.chat hd).colour
    cases result with
    | error e =>
      obtain ⟨rgb, hrgb⟩ := Option.isSome_iff_exists.mp hhex
      exact ⟨hex, by simp [MessagesScreen.loadChatOptions, hrgb], hhex⟩
    | ok document =>
      obtain ⟨rgb, hrgb⟩ := hexColour_of_picked hpicked
      refine ⟨colour, ?_, Option.isSome_iff_exists.mpr ⟨rgb, hrgb⟩⟩
      rw [hresult document rfl, hd]
      simp [MessagesScreen.loadChatOptions, hcolour, hrgb]
  messages := hs.loadMessages
  profiles d hd chatId := by
    obtain ⟨name, hname⟩ := (hs.profile (mem_profiles.mp hd)).name
    cases chatId with
    | none => exact ⟨[], rfl⟩
    | some chat =>
      exact ⟨_, addNewUser_eq_some.mpr ⟨d.documentID, name, rfl, hname, rfl⟩⟩

end readers

/-! ## The rows of the messages screen -/

/-- The fallbacks for a missing colour are colours. -/
theorem hexColour_fallbacks :
    (hexColour MessagesScreen.initialHexColourString).isSome ∧ (hexColour "0A82E1").isSome := by
  decide

namespace MessagesScreen

/-- Every colour remembered for a member comes from the picker. -/
def OptionsPicked (screen : MessagesScreen) : Prop :=
  ∀ email colour, screen.userOptions email = some colour → colour ∈ pickerColours

/-- Taking over a member document keeps the remembered colours on the picker. -/
theorem OptionsPicked.loadUserOption {screen : MessagesScreen} (h : screen.OptionsPicked)
    {d : QueryDocument} (hd : MemberSchema d.data) : (screen.loadUserOption d).OptionsPicked := by
  intro email colour hcolour
  by_cases hemail : email = d.documentID
  · subst hemail
    obtain ⟨colour', hpicked, hcolour'⟩ := hd.colour
    obtain rfl : colour' = colour := by
      simpa [MessagesScreen.loadUserOption, hcolour'] using hcolour
    exact hpicked
  · refine h email colour ?_
    simpa [MessagesScreen.loadUserOption, hemail] using hcolour

/-- A messages screen remembers only colours from the picker. -/
theorem Shows.optionsPicked {chat : ChatId} {screen : MessagesScreen} (h : Shows chat screen) :
    screen.OptionsPicked := by
  induction h with
  | opened =>
    intro email colour hcolour
    cases hcolour
  | @users screen s hs h ih =>
    have hdocs : ∀ d ∈ usersOf chat s.db, MemberSchema d.data :=
      fun d hd => hs.schemaSound.member (mem_usersOf.mp hd)
    change ((usersOf chat s.db).foldl _ screen).OptionsPicked
    generalize usersOf chat s.db = docs at hdocs
    clear h
    induction docs generalizing screen with
    | nil => exact ih
    | cons d docs ihdocs =>
      exact ihdocs (ih.loadUserOption (hdocs d List.mem_cons_self))
        (fun d' hd' => hdocs d' (List.mem_cons_of_mem d hd'))
  | usersError error h ih => exact ih
  | messages hs h hload ih =>
    obtain ⟨messages, _, rfl⟩ := mapM_of_loadMessages hload
    simpa [OptionsPicked] using ih
  | messagesError error h hload ih =>
    obtain rfl := Option.some.inj hload
    exact ih
  | row row h hrow ih =>
    obtain ⟨_, cell, _, rfl⟩ := layoutRow_eq_some.mp hrow
    exact ih

/-- The colour picked for a sender is one. -/
theorem OptionsPicked.colourOf {screen : MessagesScreen} (h : screen.OptionsPicked)
    (fromEmail : Email) : (hexColour (colourOf screen.userOptions fromEmail)).isSome := by
  cases hoption : screen.userOptions fromEmail with
  | none => simpa [MessagesScreen.colourOf, hoption] using hexColour_fallbacks.2
  | some colour =>
    by_cases hempty : colour = ""
    · simpa [MessagesScreen.colourOf, hoption, hempty] using hexColour_fallbacks.2
    · have hpicked := hexColour_of_picked (h fromEmail colour hoption)
      simpa [MessagesScreen.colourOf, hoption, hempty, Option.isSome_iff_exists] using hpicked

end MessagesScreen

/-- **No stored document can crash a reader.** In every state the app's own writes lead to,
every document has its schema, every snapshot handler completes on the documents it is given,
and on every messages screen every row of the message list can be built. -/
theorem readers_never_trap {s : System} (hs : s.Reachable) :
    (∀ path d, s.db.lookup path = some d → Schema path d) ∧ ReadersSafe s ∧
      (hexColour MessagesScreen.initialHexColourString).isSome ∧
      ∀ chat screen, MessagesScreen.Shows chat screen → ∀ row < screen.messages.length,
        ∃ cell, screen.cellForRowAt row = some cell := by
  refine ⟨hs.schemaSound.stored, hs.schemaSound.readersSafe, hexColour_fallbacks.1, ?_⟩
  intro chat screen hshows row hrow
  exact ⟨_, MessagesScreen.cellForRowAt_eq_some.mpr ⟨screen.messages[row],
    List.getElem?_eq_getElem hrow, hshows.optionsPicked.colourOf _, rfl⟩⟩

/-- The readers are safe after the sample session, which stores a message. -/
theorem readers_never_trap_on_sample :
    ∃ s : System, DocPath.message "tea" "m1" ∈ s.db ∧ ReadersSafe s := by
  obtain ⟨s, hs, _, hstored⟩ := System.exists_reachable_of_run System.sampleSession (by decide)
    (fun s => decide (DocPath.message "tea" "m1" ∈ s.db)) (by decide)
  exact ⟨s, of_decide_eq_true hstored, (readers_never_trap hs).2.1⟩

end MessagingApp
