import MessagingApp.AddUserScreen
import MessagingApp.Library.ObjectStacks
import MessagingApp.LocalView
import MessagingApp.Registration

/-!
# The view controllers

One constructor for each view controller of the storyboard, with the model objects it
owns. The handlers of a view controller answer a tap, a snapshot or the table's
request for a row; an answer says what becomes of the view controller, what is asked
of Firebase, and where the navigation goes. A handler is described in two layers:
the outer `none` means that the event cannot happen, the inner `none` that the app
traps.
-/

namespace MessagingApp

/-! ## Names of documents -/

/-- The `users` collection of a chat. -/
def usersCollection (chat : ChatId) : List String := ["conversations", chat, "users"]

/-- `document(_:)` takes the name of a document. Firestore generates the names of chats and
messages; the others are email addresses. -/
def DocPath.Refers : DocPath → Prop
  | .member c email => (documentReference (usersCollection c) email).isSome = true
  | .profile email => (documentReference ["users"] email).isSome = true
  | .chat _ | .message _ _ => True

instance (path : DocPath) : Decidable path.Refers := by
  cases path <;> unfold DocPath.Refers <;> infer_instance

/-- An address can name a member exactly when it can name a profile. -/
theorem DocPath.refers_member_iff {chat : ChatId} {email : Email} :
    (DocPath.member chat email).Refers ↔ (DocPath.profile email).Refers := by
  have hlength : ∀ collection : List String,
      (documentReference collection email).isSome = true ↔
        ∃ subPath, resourcePath email = some subPath ∧
          (collection.length + subPath.length) % 2 = 0 := by
    intro collection
    cases hpath : resourcePath email with
    | none => simp [documentReference, hpath]
    | some subPath => simp [documentReference, hpath]
  unfold DocPath.Refers
  dsimp only
  rw [hlength, hlength]
  refine exists_congr fun subPath => and_congr_right fun _ => ?_
  simp only [usersCollection, List.length_cons, List.length_nil]
  omega

/-! ## The objects -/

/-- What the titles and buttons of the navigation bar are coloured with. The app always sets them
together. -/
inductive BarColour
  /-- The colours of `K.navController`. -/
  | standard
  | colour (hexColour : String)
  /-- Black or white, whichever contrasts with a colour. -/
  | contrasting (hexColour : String)
  deriving DecidableEq

/-- `ContactsViewController`, with the user its `ChatManager` was made for. -/
structure ContactsController where
  currentUser : Option Email
  table : ContactsScreen := {}
  selectedChatId : Option ChatId := none

/-- `MessagesViewController` with its `MessagesManager`. -/
structure MessagesController where
  chatId : Option ChatId
  chatColour : Option String := none
  title : Option String := none
  /-- The variable of the closure that `loadChatOptions` registers. -/
  hexColourString : String := MessagesScreen.initialHexColourString
  screen : MessagesScreen := {}
  /-- The request of `loadTitle` has not completed. -/
  titleLoading : Bool := true
  /-- The listener of `loadUserOptions` has called `loadMessages`. -/
  messagesListening : Bool := false

/-- `GroupMembersViewController` with its `GroupMembersModel`. -/
structure GroupMembersController where
  chatId : Option ChatId
  table : GroupMembersScreen := {}
  selectedRow : Option ℕ := none

/-- `MemberViewViewController` with its `MemberViewModel`. -/
structure MemberController where
  chatId : Option ChatId
  memberId : Option Email
  /-- What `showMemberDetails` has put on the main queue. -/
  queued : List MemberDetails := []
  shown : Option MemberDetails := none

/-- `AddUserViewController` with its `AddUserManager`. -/
structure AddUserController where
  chatId : Option ChatId
  table : AddUserScreen := {}

/-- The view controllers of the storyboard. `requests` counts the sign-in requests that have not
completed, and `delegate` refers to the view controller that uses the picked colour. -/
inductive ViewController
  | menu
  | login (requests : ℕ)
  | register (requests : ℕ)
  | contacts (k : ContactsController)
  | createChat
  | appSettings
  | messages (k : MessagesController)
  | chatSettings (chatId : Option ChatId)
  | colourPicker (delegate : ℕ)
  | groupMembers (k : GroupMembersController)
  | memberView (k : MemberController)
  | addUser (k : AddUserController)

/-! ## Snapshots -/

section told

variable (listener : Listener) (snapshot : Snapshot LocalDb)

/-- The listener of `ChatManager.loadChats`, which is only registered for a user. -/
def ContactsController.told (k : ContactsController) : Option (Option ContactsController) :=
  match listener, k.currentUser with
  | .loadChats, some safeEmail =>
    some ((k.table.loadChats (snapshot.map (localChatsOf safeEmail))).map fun table =>
      { k with table := table })
  | _, _ => none

/-- The callbacks of `MessagesManager`. -/
def MessagesController.told (k : MessagesController) : Option (Option MessagesController) :=
  match listener, k.chatId with
  | .loadTitle, some safeChatId =>
    if k.titleLoading then
      some ((MessagesScreen.loadTitle (snapshot.map (localDocument · (.chat safeChatId)))).map
        fun title => { k with title := title, titleLoading := false })
    else none
  | .loadChatOptions, some safeChatId =>
    some ((MessagesScreen.loadChatOptions (snapshot.map (localDocument · (.chat safeChatId)))
      k.hexColourString).map fun hexColour =>
        { k with hexColourString := hexColour, chatColour := some hexColour })
  | .loadUserOptions, some safeChatId =>
    let handled := k.screen.loadUserOptions (snapshot.map (localUsersOf safeChatId))
    some (some { k with
      screen := handled.screen
      messagesListening := k.messagesListening || handled.called.contains .loadMessages })
  | .loadMessages, some safeChatId =>
    if k.messagesListening then
      some ((k.screen.loadMessages (snapshot.map (localMessagesOf safeChatId))).map
        fun screen => { k with screen := screen })
    else none
  | _, _ => none

/-- The listeners of `GroupMembersModel`. The second is registered by the first. -/
def GroupMembersController.told (k : GroupMembersController) :
    Option (Option GroupMembersController) :=
  match listener, k.chatId with
  | .loadValidMembers, some safeChatId =>
    some ((k.table.loadValidMembers (snapshot.map (localDocument · (.chat safeChatId)))).map
      fun handled => { k with table := handled.screen })
  | .loadMembers, some safeChatId =>
    if k.table.chatMemberArray.isSome then
      some ((k.table.loadMembers (snapshot.map (localUsersOf safeChatId))).map
        fun table => { k with table := table })
    else none
  | _, _ => none

/-- The listener of `MemberViewModel.loadMember`. What it shows waits on the main queue. -/
def MemberController.told (k : MemberController) : Option (Option MemberController) :=
  match listener, k.chatId, k.memberId with
  | .loadMember, some safeChatId, some safeMemberId =>
    some ((loadMember (snapshot.map (localDocument · (.member safeChatId safeMemberId)))).map
      fun details => { k with queued := k.queued ++ details.toList })
  | _, _, _ => none

/-- The completion of `AddUserManager.loadUsers`. -/
def AddUserController.told (k : AddUserController) : Option (Option AddUserController) :=
  match listener with
  | .loadUsers =>
    if k.table.loading then
      some (some { k with
        table := AddUserScreen.loadUsers (snapshot.map localProfiles)
          { k.table with loading := false } })
    else none
  | _ => none

/-- A view controller is handed a snapshot of what its client is shown, or an error. -/
def ViewController.told : ViewController → Option (Option ViewController)
  | .contacts k => (k.told listener snapshot).map (Option.map .contacts)
  | .messages k => (k.told listener snapshot).map (Option.map .messages)
  | .groupMembers k => (k.told listener snapshot).map (Option.map .groupMembers)
  | .memberView k => (k.told listener snapshot).map (Option.map .memberView)
  | .addUser k => (k.told listener snapshot).map (Option.map .addUser)
  | _ => none

end told

/-! ## Rows -/

/-- `tableView(_:cellForRowAt:)` of the members of a chat, which unwraps the colour. -/
def GroupMembersController.cellForRowAt (row : ℕ) (k : GroupMembersController) : Option User := do
  let chatMember ← k.table.chatMembers[row]?
  match chatMember.colour with
  | none => return chatMember
  | some safeColour =>
    let _ ← hexColour safeColour
    return chatMember

/-- A table asks for a row. It asks below the row count of its last reload. -/
def ViewController.layoutRow (row : ℕ) : ViewController → Option (Option ViewController)
  | .contacts k =>
    if row < k.table.rowCount then
      some (k.table.chats[row]?.map fun _ => .contacts k)
    else none
  | .messages k =>
    if row < k.screen.rowCount then
      some ((k.screen.layoutRow row).map fun screen => .messages { k with screen := screen })
    else none
  | .groupMembers k =>
    if row < k.table.rowCount then
      some ((k.cellForRowAt row).map fun _ => .groupMembers k)
    else none
  | .addUser k =>
    if row < k.table.rows.length then
      some ((AddUserScreen.cellForRowAt row k.table).map fun _ => .addUser k)
    else none
  | _ => none

/-! ## Taps -/

/-- The segues of the storyboard that a button or a fixed row performs. -/
inductive Segue
  | showLogin
  | showRegister
  | showCreateChat
  | showAppSettings
  | showChatSettings
  | showAddUser
  | showChatMembers
  | showColourPicker

/-- What a user can do on the screen on top. -/
inductive Tap
  | segue (s : Segue)
  /-- The back button of the navigation bar, or the gesture. -/
  | back
  | loginButtonPressed
  | registerButtonPressed
  /-- Firestore generates `newChatRef`. -/
  | createButtonPressed (newChatRef : ChatId) (name : String)
  /-- `signOut` of Firebase succeeds or throws. -/
  | logoutButtonPressed (signOutSuccess : Bool)
  /-- Firestore generates `id`. -/
  | sendButtonPressed (id : MessageId) (text : String)
  | didSelectRowAt (row : ℕ)
  | textFieldDidChange (text : String)
  | removeButtonPressed
  | colourButtonPressed (currentTitle : String)

/-- Where the navigation goes. -/
inductive Navigation
  | stay
  | push (k : ViewController)
  | pop
  | popToRoot
  /-- The alert of `showChangeUsernameAlert`. -/
  | present

/-- What a view controller does in answer to a tap: what becomes of it, what it asks of Firebase,
and where it goes. -/
structure Answer where
  self : ViewController
  request : Option Event := none
  navigation : Navigation := .stay

namespace ViewController

/-- The view controller a segue opens, after `prepare(for:sender:)`. `id` refers to the view
controller the segue starts from. -/
def prepare (id : ℕ) : Segue → ViewController → Option ViewController
  | .showLogin, .menu => some (.login 0)
  | .showRegister, .menu => some (.register 0)
  | .showCreateChat, .contacts _ => some .createChat
  | .showAppSettings, .contacts _ => some .appSettings
  | .showChatSettings, .messages k => some (.chatSettings k.chatId)
  | .showAddUser, .chatSettings chatId => some (.addUser { chatId := chatId })
  | .showChatMembers, .chatSettings chatId => some (.groupMembers { chatId := chatId })
  | .showColourPicker, .chatSettings _ => some (.colourPicker id)
  | _, _ => none

/-- The view controller of the selected member, after `prepare(for:sender:)` and `viewDidLoad`,
which unwrap the selected row and the member and refer to the document of the member. -/
def prepareMemberView (k : GroupMembersController) : Option MemberController :=
  match k.chatId with
  -- Nothing is handed over, and `viewDidLoad` unwraps the missing member.
  | none => none
  | some safeChatId => do
    let selectedRow ← k.selectedRow
    let chatMember ← k.table.chatMembers[selectedRow]?
    let memberId ← chatMember.email
    -- `loadMember` listens to the document of the member.
    if (DocPath.member safeChatId memberId).Refers then
      return { chatId := some safeChatId, memberId := some memberId }
    else none

/-- The member view is opened on the member of the selected row, after whom its document can be
named. -/
theorem prepareMemberView_eq_some {k : GroupMembersController} {next : MemberController} :
    prepareMemberView k = some next ↔ ∃ chat row user member, k.chatId = some chat ∧
      k.selectedRow = some row ∧ k.table.chatMembers[row]? = some user ∧
      user.email = some member ∧ (DocPath.member chat member).Refers ∧
      next = { chatId := some chat, memberId := some member } := by
  unfold prepareMemberView
  cases hchat : k.chatId with
  | none => simp
  | some chat => simp [Option.bind_eq_some_iff, @eq_comm _ next]

/-- `ColourPickerDelegate.useColour` of the two view controllers that implement it. -/
def useColour (c : ClientId) (colour : String) : ViewController → Option Event
  | .chatSettings chatId => chatId.map fun chat => .call c (.updateChatColour chat colour)
  | .memberView k => do
    let chat ← k.chatId
    let member ← k.memberId
    return .call c (.updateUserColour chat member colour)
  | _ => none

/-- The action of the alert of `showChangeUsernameAlert`. -/
def updateUserName (c : ClientId) (newUserName : String) : ViewController → Option Event
  | .memberView k => do
    let chat ← k.chatId
    let member ← k.memberId
    return .call c (.updateUserName chat member newUserName)
  | _ => none

/-- `tableView(_:didSelectRowAt:)`. -/
def didSelectRowAt (c : ClientId) (id row : ℕ) : ViewController → Option (Option Answer)
  | .contacts k =>
    if row < k.table.rowCount then some (do
      let chat ← k.table.chats[row]?
      let selected := { k with selectedChatId := some chat.id }
      return {
        self := .contacts selected
        navigation := .push (.messages { chatId := selected.selectedChatId }) })
    else none
  | .groupMembers k =>
    if row < k.table.rowCount then some (do
      let selected := { k with selectedRow := some row }
      let next ← prepareMemberView selected
      return { self := .groupMembers selected, navigation := .push (.memberView next) })
    else none
  | .memberView k =>
    some (some {
      self := .memberView k
      navigation :=
        if row = 1 then .present else if row = 2 then .push (.colourPicker id) else .stay })
  | .addUser k =>
    if row < k.table.rows.length then some (do
      let user ← k.table.possibleUsers[row]?
      return {
        self := .addUser k
        request := k.chatId.map fun chat => .call c (.addNewUser chat user) })
    else none
  | _ => none

/-- The answer to a tap. `contains` is the search of the add-user screen, and `controllers` are the
view controllers that references point to. -/
def tap (contains : String → String → Bool) (c : ClientId) (controllers : List ViewController)
    (id : ℕ) : Tap → ViewController → Option (Option Answer)
  | .segue s, k => (k.prepare id s).map fun next => some { self := k, navigation := .push next }
  | .back, k => some (some { self := k, navigation := .pop })
  | .didSelectRowAt row, k => k.didSelectRowAt c id row
  | .loginButtonPressed, .login requests => some (some { self := .login (requests + 1) })
  | .registerButtonPressed, .register requests => some (some { self := .register (requests + 1) })
  | .createButtonPressed newChatRef name, .createChat =>
    some (some {
      self := .createChat
      request := some (.call c (.newChat newChatRef name))
      navigation := .pop })
  -- The button lies on this screen; its action is that of `ContactsViewController`.
  | .logoutButtonPressed signOutSuccess, .appSettings =>
    some (if signOutSuccess then
        some { self := .appSettings, request := some (.signOut c), navigation := .popToRoot }
      -- `fatalError`
      else none)
  | .sendButtonPressed messageId text, .messages k =>
    some (some {
      self := .messages k
      request := k.chatId.map fun chat => .call c (.sendMessage chat messageId text) })
  | .textFieldDidChange text, .addUser k =>
    some ((AddUserScreen.next contains k.table (.textFieldDidChange text)).map fun table =>
      { self := .addUser { k with table := table } })
  | .removeButtonPressed, .memberView k =>
    some (some {
      self := .memberView k
      request := do
        let chat ← k.chatId
        let member ← k.memberId
        return .call c (.removeFromChat chat member)
      navigation := .pop })
  | .colourButtonPressed currentTitle, .colourPicker delegate =>
    if currentTitle ∈ pickerColours then
      some (some {
        self := .colourPicker delegate
        request := controllers[delegate]?.bind (useColour c currentTitle)
        navigation := .pop })
    else none
  | _, _ => none

/-- `viewWillAppear`: what becomes of the colours of the navigation bar. -/
def viewWillAppear (bar : BarColour) : ViewController → BarColour
  | .menu | .contacts _ | .chatSettings _ | .colourPicker _ | .groupMembers _ => .standard
  | .messages k => (k.chatColour.map .colour).getD bar
  | .login _ | .register _ | .createChat | .appSettings | .memberView _ | .addUser _ => bar

/-! ### What a tap asks for -/

/-- What a tap on a view controller asks of Firebase. -/
inductive Asks (c : ClientId) (controllers : List ViewController) : Tap → ViewController →
    Event → Prop
  | newChat (newChatRef : ChatId) (name : String) :
      Asks c controllers (.createButtonPressed newChatRef name) .createChat
        (.call c (.newChat newChatRef name))
  | signOut : Asks c controllers (.logoutButtonPressed true) .appSettings (.signOut c)
  | sendMessage (k : MessagesController) (chat : ChatId) (id : MessageId) (text : String)
      (hchat : k.chatId = some chat) :
      Asks c controllers (.sendButtonPressed id text) (.messages k)
        (.call c (.sendMessage chat id text))
  | addNewUser (k : AddUserController) (chat : ChatId) (row : ℕ) (user : User)
      (hchat : k.chatId = some chat) (huser : k.table.possibleUsers[row]? = some user) :
      Asks c controllers (.didSelectRowAt row) (.addUser k) (.call c (.addNewUser chat user))
  | removeFromChat (k : MemberController) (chat : ChatId) (member : Email)
      (hchat : k.chatId = some chat) (hmember : k.memberId = some member) :
      Asks c controllers .removeButtonPressed (.memberView k)
        (.call c (.removeFromChat chat member))
  | useColour (delegate : ℕ) (k : ViewController) (colour : String) (e : Event)
      (hk : controllers[delegate]? = some k) (he : k.useColour c colour = some e) :
      Asks c controllers (.colourButtonPressed colour) (.colourPicker delegate) e

section asks

variable {contains : String → String → Bool} {c : ClientId} {controllers : List ViewController}
  {id : ℕ} {k : ViewController} {answer : Answer} {e : Event}

theorem asks_of_didSelectRowAt {row : ℕ} (h : k.didSelectRowAt c id row = some (some answer))
    (he : answer.request = some e) : Asks c controllers (.didSelectRowAt row) k e := by
  unfold ViewController.didSelectRowAt at h
  split at h
  case h_3 k =>
    obtain rfl := Option.some.inj (Option.some.inj h)
    cases he
  case h_4 k =>
    split at h
    case isFalse => cases h
    case isTrue =>
      obtain ⟨user, huser, hanswer⟩ := Option.bind_eq_some_iff.mp (Option.some.inj h)
      obtain rfl := Option.some.inj hanswer
      obtain ⟨chat, hchat, rfl⟩ := Option.map_eq_some_iff.mp he
      exact .addNewUser k chat row user hchat huser
  case h_5 => cases h
  all_goals
    split at h
    case isFalse => cases h
    case isTrue =>
      obtain ⟨_, _, hanswer⟩ := Option.bind_eq_some_iff.mp (Option.some.inj h)
      obtain rfl := Option.some.inj hanswer
      cases he

/-- **Inversion.** The requests of taps. -/
theorem asks_of_tap {t : Tap} (h : k.tap contains c controllers id t = some (some answer))
    (he : answer.request = some e) : Asks c controllers t k e := by
  unfold ViewController.tap at h
  split at h
  case h_1 s k =>
    obtain ⟨next, _, hanswer⟩ := Option.map_eq_some_iff.mp h
    obtain rfl := Option.some.inj hanswer
    cases he
  case h_3 row => exact asks_of_didSelectRowAt h he
  case h_6 newChatRef name =>
    obtain rfl := Option.some.inj (Option.some.inj h)
    obtain rfl := Option.some.inj he
    exact .newChat newChatRef name
  case h_7 signOutSuccess =>
    cases signOutSuccess with
    | false => cases h
    | true =>
      obtain rfl := Option.some.inj (Option.some.inj h)
      obtain rfl := Option.some.inj he
      exact .signOut
  case h_8 messageId text k =>
    obtain rfl := Option.some.inj (Option.some.inj h)
    obtain ⟨chat, hchat, rfl⟩ := Option.map_eq_some_iff.mp he
    exact .sendMessage k chat messageId text hchat
  case h_9 text k =>
    obtain ⟨table, _, rfl⟩ := Option.map_eq_some_iff.mp (Option.some.inj h)
    cases he
  case h_10 k =>
    obtain rfl := Option.some.inj (Option.some.inj h)
    obtain ⟨chat, hchat, he⟩ := Option.bind_eq_some_iff.mp he
    obtain ⟨member, hmember, he⟩ := Option.bind_eq_some_iff.mp he
    obtain rfl := Option.some.inj he
    exact .removeFromChat k chat member hchat hmember
  case h_11 currentTitle delegate =>
    split at h
    case isFalse => cases h
    case isTrue =>
      obtain rfl := Option.some.inj (Option.some.inj h)
      obtain ⟨k', hk', hcolour⟩ := Option.bind_eq_some_iff.mp he
      exact .useColour delegate k' currentTitle e hk' hcolour
  case h_12 => cases h
  all_goals
    obtain rfl := Option.some.inj (Option.some.inj h)
    cases he

/-- A delegate uses a colour in a call. -/
theorem exists_call_of_useColour {colour : String} (h : k.useColour c colour = some e) :
    ∃ made, e = .call c made := by
  unfold ViewController.useColour at h
  split at h
  case h_1 =>
    obtain ⟨_, _, rfl⟩ := Option.map_eq_some_iff.mp h
    exact ⟨_, rfl⟩
  case h_2 =>
    obtain ⟨_, _, h⟩ := Option.bind_eq_some_iff.mp h
    obtain ⟨_, _, h⟩ := Option.bind_eq_some_iff.mp h
    exact ⟨_, (Option.some.inj h).symm⟩
  case h_3 => cases h

/-- The alert changes a user name in a call. -/
theorem exists_call_of_updateUserName {newUserName : String}
    (h : k.updateUserName c newUserName = some e) : ∃ made, e = .call c made := by
  unfold ViewController.updateUserName at h
  split at h
  case h_1 k =>
    obtain ⟨_, _, h⟩ := Option.bind_eq_some_iff.mp h
    obtain ⟨_, _, h⟩ := Option.bind_eq_some_iff.mp h
    exact ⟨_, (Option.some.inj h).symm⟩
  case h_2 => cases h

/-- Signing out leads to the menu. -/
theorem navigation_of_signOut {signOutSuccess : Bool}
    (h : k.tap contains c controllers id (.logoutButtonPressed signOutSuccess) =
      some (some answer)) : answer.navigation = .popToRoot := by
  cases k with
  | appSettings =>
    cases signOutSuccess with
    | false => cases h
    | true =>
      obtain rfl := Option.some.inj (Option.some.inj h)
      rfl
  | _ => cases h

end asks

end ViewController

end MessagingApp
