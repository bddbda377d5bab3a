import MessagingApp.DocumentNames
import MessagingApp.OpenScreens

/-!
# What traps an app

What the handlers unwrap is there in every reachable state, but for the rows of a
messages screen after an empty snapshot and for a document that waits in the queue of an
account that has signed out. The only call that needs a user is the one that creates a
chat, and its screen stays open when Firebase Auth signs the account out by itself. So
the places where an app can trap are known.
-/

namespace MessagingApp

/-! ## Where an app traps -/

namespace ViewController

variable {view : LocalDb} {k : ViewController}

/-- A row of a sound view controller traps exactly when a messages screen has no message for it. -/
theorem Sound.layoutRow_eq_none_iff (hk : k.Sound view) {row : ℕ} :
    k.layoutRow row = some none ↔
      ∃ m, k = .messages m ∧ m.screen.messages.length ≤ row ∧ row < m.screen.rowCount := by
  cases k with
  | messages k =>
    have hcell : k.screen.layoutRow row = none ↔
        k.screen.messages.length ≤ row ∨ k.screen.rowCount ≤ row := by
      rw [← not_iff_not, ← ne_eq, Option.ne_none_iff_exists', not_or, not_le, not_le]
      constructor
      · rintro ⟨screen, hscreen⟩
        obtain ⟨hrow, cell, hcell, _⟩ := MessagesScreen.layoutRow_eq_some.mp hscreen
        obtain ⟨message, hmessage, _⟩ := MessagesScreen.cellForRowAt_eq_some.mp hcell
        exact ⟨(List.getElem?_eq_some_iff.mp hmessage).1, hrow⟩
      · rintro ⟨hlength, hrow⟩
        have hcolour := (MessagesController.Sound.options hk).colourOf
          k.screen.messages[row].fromEmail
        have hcell := MessagesScreen.cellForRowAt_eq_some.mpr
          ⟨_, List.getElem?_eq_getElem hlength, hcolour, rfl⟩
        exact ⟨_, MessagesScreen.layoutRow_eq_some.mpr ⟨hrow, _, hcell, rfl⟩⟩
    change (if row < k.screen.rowCount then _ else none) = _ ↔ _
    constructor
    · intro h
      split at h
      case isFalse => cases h
      case isTrue hrow =>
        have hnone := Option.map_eq_none_iff.mp (Option.some.inj h)
        exact ⟨k, rfl, (hcell.mp hnone).resolve_right (by omega), hrow⟩
    · rintro ⟨m, hm, hlength, hrow⟩
      obtain rfl := ViewController.messages.inj hm
      rw [if_pos hrow, hcell.mpr (.inl hlength)]
      rfl
  | contacts k =>
    refine ⟨fun h => ?_, fun h => by obtain ⟨_, hm, _⟩ := h; cases hm⟩
    change (if row < k.table.rowCount then _ else none) = _ at h
    split at h
    case isFalse => cases h
    case isTrue hrow =>
      have hnone := Option.map_eq_none_iff.mp (Option.some.inj h)
      have hlength := List.getElem?_eq_none_iff.mp hnone
      have hrows := ContactsController.Sound.rows hk
      omega
  | groupMembers k =>
    refine ⟨fun h => ?_, fun h => by obtain ⟨_, hm, _⟩ := h; cases hm⟩
    change (if row < k.table.rowCount then _ else none) = _ at h
    split at h
    case isFalse => cases h
    case isTrue hrow =>
      have hnone : k.cellForRowAt row = none := Option.map_eq_none_iff.mp (Option.some.inj h)
      obtain ⟨_, hrows, _, hcolours⟩ := hk
      have hrow' : row < k.table.chatMembers.length := by omega
      have hmem := List.getElem_mem hrow'
      unfold GroupMembersController.cellForRowAt at hnone
      rw [List.getElem?_eq_getElem hrow'] at hnone
      cases hcolour : k.table.chatMembers[row].colour with
      | none => simp [hcolour] at hnone
      | some colour =>
        obtain ⟨rgb, hrgb⟩ := Option.isSome_iff_exists.mp (hcolours _ hmem colour hcolour)
        simp [hcolour, hrgb] at hnone
  | addUser k =>
    refine ⟨fun h => ?_, fun h => by obtain ⟨_, hm, _⟩ := h; cases hm⟩
    change (if row < k.table.rows.length then _ else none) = _ at h
    split at h
    case isFalse => cases h
    case isTrue hrow =>
      have hnone := Option.map_eq_none_iff.mp (Option.some.inj h)
      rw [(AddUserController.Sound.table hk).rows] at hrow
      simp [AddUserScreen.cellForRowAt, hrow] at hnone
  | _ =>
    constructor
    · intro h
      cases h
    · rintro ⟨_, hm, _⟩
      cases hm

/-- A row that is shown can be selected: what it stands for is there, and has the name that the
screen it opens refers to. -/
theorem Sound.didSelectRowAt_ne_none {c : ClientId} (hk : k.Sound view)
    (hnamed : ∀ path ∈ view, path.Refers) {id row : ℕ} : k.didSelectRowAt c id row ≠ some none := by
  intro h
  cases k with
  | contacts k =>
    obtain ⟨hrow, hnone⟩ := Option.ite_none_right_eq_some.mp h
    rw [ContactsController.Sound.rows hk] at hrow
    simp [hrow] at hnone
  | groupMembers k =>
    obtain ⟨hrow, hnone⟩ := Option.ite_none_right_eq_some.mp h
    obtain ⟨⟨chat, hchat, _⟩, hrows, hlisted, _⟩ := hk
    rw [hrows] at hrow
    obtain ⟨member, hemail, hmember⟩ := hlisted chat hchat _ (List.getElem_mem hrow)
    have hnext : prepareMemberView { k with selectedRow := some row } =
        some { chatId := some chat, memberId := some member } :=
      prepareMemberView_eq_some.mpr ⟨chat, row, _, member, hchat, rfl,
        List.getElem?_eq_getElem hrow, hemail, hnamed _ hmember, rfl⟩
    simp [hnext] at hnone
  | addUser k =>
    obtain ⟨hrow, hnone⟩ := Option.ite_none_right_eq_some.mp h
    rw [(AddUserController.Sound.table hk).rows] at hrow
    simp [hrow] at hnone
  | _ => cases h

/-- A tap on a sound view controller traps exactly when signing out fails. -/
theorem Sound.tap_eq_none_iff {contains : String → String → Bool} {c : ClientId}
    {controllers : List ViewController} (hk : k.Sound view) (hnamed : ∀ path ∈ view, path.Refers)
    {id : ℕ} {t : Tap} :
    k.tap contains c controllers id t = some none ↔
      t = .logoutButtonPressed false ∧ k = .appSettings := by
  constructor
  · intro h
    cases t with
    | segue s =>
      obtain ⟨_, _, hnone⟩ := Option.map_eq_some_iff.mp h
      cases hnone
    | didSelectRowAt row => exact absurd h (hk.didSelectRowAt_ne_none hnamed)
    | textFieldDidChange text =>
      cases k with
      | addUser k =>
        obtain ⟨table, htable, _⟩ := AddUserController.Sound.textFieldDidChange hk text
        have hnone := Option.map_eq_none_iff.mp (Option.some.inj h)
        rw [htable] at hnone
        cases hnone
      | _ => cases h
    | colourButtonPressed currentTitle =>
      cases k with
      | colourPicker delegate =>
        obtain ⟨_, hnone⟩ := Option.ite_none_right_eq_some.mp h
        cases hnone
      | _ => cases h
    | logoutButtonPressed signOutSuccess =>
      cases k with
      | appSettings =>
        cases signOutSuccess with
        | false => exact ⟨rfl, rfl⟩
        | true => cases h
      | _ => cases h
    | _ => cases k <;> cases h
  · rintro ⟨rfl, rfl⟩
    rfl

end ViewController

namespace App

/-- Signing out throws, where the app ends with `fatalError`. -/
def SignOutFails (a : App) (e : AppEvent) : Prop :=
  e = .tap (.logoutButtonPressed false) ∧ a.alert = none ∧
    ∃ id, a.screens.top = some (id, .appSettings)

/-- The table of a messages screen asks for a row that has no message. -/
def RowMissing (a : App) (e : AppEvent) : Prop :=
  ∃ id row k, e = .layoutRow id row ∧ a.screens.objects[id]? = some (.messages k) ∧
    k.screen.messages.length ≤ row ∧ row < k.screen.rowCount

/-- A callback is handed a snapshot without the document that it unwraps. -/
def SnapshotLacks (views : List LocalDb) (a : App) (e : AppEvent) : Prop :=
  ∃ id listener result k handed snapshot, e = .told id listener result ∧
    a.screens.objects[id]? = some k ∧ a.snapshot views result = some (handed, snapshot) ∧
    k.Lacks listener snapshot

/-- `document(_:)` refuses the address of the account that creates a chat, or the text that a
registration finds in the email field. -/
def NameRefused (user : Option Email) (a : App) (e : AppEvent) : Prop :=
  (∃ newChatRef name id, e = .tap (.createButtonPressed newChatRef name) ∧ a.alert = none ∧
    a.screens.top = some (id, .createChat) ∧
    ∃ account ∈ user, ¬ (DocPath.profile account).Refers) ∨
  ∃ id requests account emailText, e = .registered id account emailText ∧
    a.screens.objects[id]? = some (.register (requests + 1)) ∧
    ¬ (DocPath.profile emailText).Refers

/-- A chat is created while nobody is signed in, where `newChat` unwraps the address of the user. -/
def UserMissing (user : Option Email) (a : App) (e : AppEvent) : Prop :=
  ∃ newChatRef name id, e = .tap (.createButtonPressed newChatRef name) ∧ a.alert = none ∧
    a.screens.top = some (id, .createChat) ∧ user = none

/-- **Where the handlers of a sound app trap.** -/
theorem Sound.handle_eq_none_iff {contains : String → String → Bool} {c : ClientId}
    {full views : List LocalDb} {view : LocalDb} {a : App} (ha : a.Sound view)
    (hview : full[a.handed]? = some view) (hversions : Versions full views)
    (hnamed : ∀ path ∈ view, path.Refers) {e : AppEvent} :
    a.handle contains c views e = some none ↔
      a.SignOutFails e ∨ a.RowMissing e ∨ a.SnapshotLacks views e := by
  constructor
  · intro h
    cases e with
    | tap t =>
      obtain ⟨halert, id, k, answer, htop, hanswer, hresult⟩ := handle_tap h
      obtain rfl := Option.map_eq_none_iff.mp hresult.symm
      have hk : k.Sound view :=
        ha k (List.mem_of_getElem? (ObjectStacks.Heap.top_eq_some.mp htop).2)
      obtain ⟨rfl, rfl⟩ := (hk.tap_eq_none_iff hnamed).mp hanswer
      exact .inl ⟨rfl, halert, id, htop⟩
    | layoutRow id row =>
      obtain ⟨k, answer, hk, hanswer, hresult⟩ := handle_layoutRow h
      obtain rfl := Option.map_eq_none_iff.mp hresult.symm
      have hsound : k.Sound view := ha k (List.mem_of_getElem? hk)
      obtain ⟨m, rfl, hlength, hrow⟩ := hsound.layoutRow_eq_none_iff.mp hanswer
      exact .inr (.inl ⟨id, row, m, rfl, hk, hlength, hrow⟩)
    | told id listener result =>
      obtain ⟨k, handed, snapshot, answer, hk, hsnapshot, hanswer, hresult⟩ := handle_told h
      obtain rfl := Option.map_eq_none_iff.mp hresult.symm
      obtain ⟨view', _, hgrows, htaken⟩ := exists_view_of_snapshot hversions hview hsnapshot
      have hsound : k.Sound view' := (ha k (List.mem_of_getElem? hk)).mono hgrows
      rcases hsound.told htaken hanswer with ⟨_, hsome, _⟩ | ⟨_, hlacks⟩
      · cases hsome
      · exact .inr (.inr ⟨id, listener, result, k, handed, snapshot, rfl, hk, hsnapshot, hlacks⟩)
    | showMemberDetails id =>
      obtain ⟨k, details, queued, hk, hqueued, hresult⟩ := handle_showMemberDetails h
      have hnone := Option.map_eq_none_iff.mp hresult.symm
      have hsound : k.Sound view := ha _ (List.mem_of_getElem? hk)
      have hcolour := hsound.queued details (hqueued ▸ List.mem_cons_self)
      rw [hnone] at hcolour
      cases hcolour
    | changeUsername newUserName =>
      obtain ⟨_, _, _, _, hresult⟩ := handle_changeUsername h
      cases hresult
    | cancel =>
      obtain ⟨_, _, hresult⟩ := Option.map_eq_some_iff.mp h
      cases hresult
    | signedIn id account =>
      obtain ⟨_, _, _, _, hresult⟩ := handle_signedIn h
      cases hresult
    | registered id account emailText =>
      obtain ⟨_, _, _, _, hresult⟩ := handle_registered h
      cases hresult
    | requestFailed id =>
      obtain ⟨_, _, _, _, hresult⟩ := handle_requestFailed h
      cases hresult
  · rintro (⟨rfl, halert, id, htop⟩ | ⟨id, row, k, rfl, hk, hlength, hrow⟩ |
      ⟨id, listener, result, k, handed, snapshot, rfl, hk, hsnapshot, hlacks⟩)
    · simp [App.handle, halert, htop, ViewController.tap]
    · have hsound : ViewController.Sound view (.messages k) := ha _ (List.mem_of_getElem? hk)
      have hnone := hsound.layoutRow_eq_none_iff.mpr ⟨k, rfl, hlength, hrow⟩
      simp [App.handle, hk, hnone]
    · simp [App.handle, hk, hsnapshot, hlacks.told_eq]

end App

/-! ## What an app asks for is carried out -/

/-- A delegate uses a colour in a call that issues its write, whoever is signed in. -/
theorem ViewController.isSome_writes_of_useColour {k : ViewController} {c d : ClientId}
    {colour : String} {made : Call} (h : k.useColour c colour = some (.call d made))
    (user : Option Email) : (made.writes user).isSome = true := by
  unfold ViewController.useColour at h
  split at h
  case h_1 =>
    obtain ⟨_, _, hcall⟩ := Option.map_eq_some_iff.mp h
    obtain ⟨rfl, rfl⟩ := Event.call.inj hcall
    rfl
  case h_2 =>
    obtain ⟨_, _, h⟩ := Option.bind_eq_some_iff.mp h
    obtain ⟨_, _, h⟩ := Option.bind_eq_some_iff.mp h
    obtain ⟨rfl, rfl⟩ := Event.call.inj (Option.some.inj h)
    rfl
  case h_3 => cases h

/-- The alert changes a user name in a call that issues its write. -/
theorem ViewController.isSome_writes_of_updateUserName {k : ViewController} {c d : ClientId}
    {newUserName : String} {made : Call}
    (h : k.updateUserName c newUserName = some (.call d made)) (user : Option Email) :
    (made.writes user).isSome = true := by
  unfold ViewController.updateUserName at h
  split at h
  case h_1 k =>
    obtain ⟨_, _, h⟩ := Option.bind_eq_some_iff.mp h
    obtain ⟨_, _, h⟩ := Option.bind_eq_some_iff.mp h
    obtain ⟨rfl, rfl⟩ := Event.call.inj (Option.some.inj h)
    rfl
  case h_2 => cases h

/-- A tap calls for writes that can be issued: the users that can be added have a name, and only
the creator of a chat has to be signed in. -/
theorem ViewController.Asks.isSome_writes {view : LocalDb} {c d : ClientId}
    {controllers : List ViewController} {t : Tap} {k : ViewController} {made : Call}
    {user : Option Email} (h : ViewController.Asks c controllers t k (.call d made))
    (hk : k.Sound view) (hcreate : ∀ newChatRef name, t = .createButtonPressed newChatRef name →
      k = .createChat → user ≠ none) : (made.writes user).isSome = true := by
  cases h with
  | newChat newChatRef name =>
    obtain ⟨email, rfl⟩ := Option.ne_none_iff_exists'.mp (hcreate newChatRef name rfl rfl)
    exact Option.isSome_iff_exists.mpr ⟨_, newChat_eq_some.mpr ⟨email, rfl, rfl⟩⟩
  | sendMessage | removeFromChat => rfl
  | addNewUser k chat row user hchat hrow =>
    have hmem := AddUserController.Sound.listed hk user (List.mem_of_getElem? hrow)
    obtain ⟨email, name, hemail, hname, _⟩ := AddUserController.Sound.named hk user hmem
    exact Option.isSome_iff_exists.mpr
      ⟨_, addNewUser_eq_some.mpr ⟨email, name, hemail, hname, rfl⟩⟩
  | useColour delegate k' colour e hk' he => exact isSome_writes_of_useColour he user

namespace App

variable {contains : String → String → Bool} {c d : ClientId} {views : List LocalDb} {a : App}
  {user : Option Email} {e : AppEvent} {reaction : Reaction} {made : Call}

/-- What an app calls for can be issued. -/
theorem Sound.isSome_writes {view : LocalDb} (ha : a.Sound view) (huser : ¬ a.UserMissing user e)
    (h : a.handle contains c views e = some (some reaction))
    (hrequest : reaction.request = some (.call d made)) : (made.writes user).isSome = true := by
  rcases request_cases h hrequest with ⟨t, id, k, answer, rfl, halert, htop, hanswer, htapped⟩ |
    ⟨newUserName, id, k, rfl, _, hk, hchanged⟩ | ⟨id, account, _, heq⟩ |
    ⟨id, account, emailText, _, heq⟩
  · have hk : k.Sound view :=
      ha k (List.mem_of_getElem? (ObjectStacks.Heap.top_eq_some.mp htop).2)
    refine (ViewController.asks_of_tap hanswer htapped).isSome_writes hk ?_
    rintro newChatRef name rfl rfl hnone
    exact huser ⟨newChatRef, name, id, rfl, halert, htop, hnone⟩
  · exact ViewController.isSome_writes_of_updateUserName hchanged user
  · cases heq
  · cases heq

end App

/-! ## What an app refers to -/

section refers

variable {view : LocalDb} {c : ClientId} {user : Option Email} {k : ViewController} {e : Event}

/-- The picked colour is used on a document that the client is shown. -/
theorem ViewController.Sound.refers_of_useColour (hk : k.Sound view)
    (hnamed : ∀ path ∈ view, path.Refers) {colour : String}
    (he : k.useColour c colour = some e) : e.Refers user := by
  cases k with
  | chatSettings chatId =>
    obtain ⟨chat, _, rfl⟩ := Option.map_eq_some_iff.mp he
    simp [Event.Refers, Event.made, Call.references]
  | memberView k =>
    obtain ⟨chatId, memberId, queued, shown⟩ := k
    obtain ⟨⟨chat, member, rfl, rfl, _, hmember⟩, _⟩ := hk
    obtain rfl := Option.some.inj he
    simpa [Event.Refers, Event.made, Call.references] using hnamed _ hmember
  | _ => cases he

/-- The user name is changed in a document that the client is shown. -/
theorem ViewController.Sound.refers_of_updateUserName (hk : k.Sound view)
    (hnamed : ∀ path ∈ view, path.Refers) {newUserName : String}
    (he : k.updateUserName c newUserName = some e) : e.Refers user := by
  cases k with
  | memberView k =>
    obtain ⟨chatId, memberId, queued, shown⟩ := k
    obtain ⟨⟨chat, member, rfl, rfl, _, hmember⟩, _⟩ := hk
    obtain rfl := Option.some.inj he
    simpa [Event.Refers, Event.made, Call.references] using hnamed _ hmember
  | _ => cases he

/-- A tap refers to documents that the client is shown, or creates a chat. -/
theorem ViewController.Asks.refers {controllers : List ViewController} {t : Tap}
    (h : ViewController.Asks c controllers t k e) (hk : k.Sound view)
    (hcontrollers : ∀ k ∈ controllers, k.Sound view) (hnamed : ∀ path ∈ view, path.Refers)
    (hcreate : ∀ newChatRef name, t = .createButtonPressed newChatRef name → k = .createChat →
      ∀ account ∈ user, (DocPath.profile account).Refers) : e.Refers user := by
  cases h with
  | newChat newChatRef name =>
    rintro _ ⟨⟩ path hpath
    obtain ⟨email, hemail, rfl⟩ := List.mem_map.mp hpath
    have hname := hcreate newChatRef name rfl rfl email (Option.mem_toList.mp hemail)
    exact DocPath.refers_member_iff.mpr hname
  | addNewUser k chat row user hchat hrow =>
    obtain ⟨email, _, hemail, _, hprofile⟩ := AddUserController.Sound.named hk user
      (AddUserController.Sound.listed hk user (List.mem_of_getElem? hrow))
    have hmember : (DocPath.member chat email).Refers :=
      DocPath.refers_member_iff.mpr (hnamed _ hprofile)
    simpa [Event.Refers, Event.made, Call.references, hemail] using hmember
  | useColour delegate k' colour e hk' he =>
    exact (hcontrollers k' (List.mem_of_getElem? hk')).refers_of_useColour hnamed he
  | signOut | sendMessage | removeFromChat =>
    simp [Event.Refers, Event.made, Call.references]

end refers

section refused

variable {contains : String → String → Bool} {c : ClientId} {views : List LocalDb} {view : LocalDb}
  {a : App} {user : Option Email} {e : AppEvent}

/-- **Which names an app refers to**: those of documents that its client is shown, of the creator of
a chat, and of a registration. -/
theorem App.Sound.refers (ha : a.Sound view) (hnamed : ∀ path ∈ view, path.Refers)
    {reaction : Reaction} (h : a.handle contains c views e = some (some reaction))
    (hrefused : ¬ a.NameRefused user e) : ∀ request ∈ reaction.request, request.Refers user := by
  intro request hrequest
  rcases request_cases h hrequest with ⟨t, id, k, answer, rfl, halert, htop, hanswer, htapped⟩ |
    ⟨newUserName, id, k, rfl, _, hk, hchanged⟩ | ⟨id, account, rfl, rfl⟩ |
    ⟨id, account, emailText, rfl, rfl⟩
  · have hk : k.Sound view :=
      ha k (List.mem_of_getElem? (ObjectStacks.Heap.top_eq_some.mp htop).2)
    refine (ViewController.asks_of_tap hanswer htapped).refers hk ha hnamed ?_
    rintro newChatRef name rfl rfl account haccount
    by_contra hname
    exact hrefused (.inl ⟨newChatRef, name, id, rfl, halert, htop, account, haccount, hname⟩)
  · exact (ha k (List.mem_of_getElem? hk)).refers_of_updateUserName hnamed hchanged
  · simp [Event.Refers, Event.made]
  · obtain ⟨requests, hobject⟩ := exists_requests_of_registered h
    have hname : (DocPath.profile emailText).Refers := by
      by_contra hname
      exact hrefused (.inr ⟨id, requests, account, emailText, rfl, hobject, hname⟩)
    simpa [Event.Refers, Event.made, Call.references] using hname

/-- The create button asks for a new chat. -/
theorem App.handle_createButtonPressed (contains : String → String → Bool) (c : ClientId)
    (views : List LocalDb) (newChatRef : ChatId) (name : String) {id : ℕ} (halert : a.alert = none)
    (htop : a.screens.top = some (id, .createChat)) :
    a.handle contains c views (.tap (.createButtonPressed newChatRef name)) = some (some {
      app := (a.change id .createChat).navigate id .pop
      request := some (.call c (.newChat newChatRef name)) }) := by
  simp [App.handle, halert, htop, ViewController.tap]

/-- A refused name is asked for. -/
theorem App.NameRefused.exists_request (hrefused : a.NameRefused user e)
    (contains : String → String → Bool) (c : ClientId) (views : List LocalDb) :
    ∃ reaction request, a.handle contains c views e = some (some reaction) ∧
      reaction.request = some request ∧ ¬ request.Refers user := by
  rcases hrefused with ⟨newChatRef, name, id, rfl, halert, htop, email, hemail, hname⟩ |
    ⟨id, requests, account, emailText, rfl, hobject, hname⟩
  · obtain rfl : user = some email := hemail
    refine ⟨_, _, App.handle_createButtonPressed contains c views newChatRef name halert htop, rfl,
      fun hrefers => hname ?_⟩
    exact DocPath.refers_member_iff.mp
      (hrefers _ rfl (.member newChatRef email) List.mem_cons_self)
  · have hhandle : a.handle contains c views (.registered id account emailText) =
        some (some {
          app := (a.change id (.register requests)).showContacts id account
          request := some (.register c account emailText) }) := by
      simp [App.handle, hobject]
    exact ⟨_, _, hhandle, rfl,
      fun hrefers => hname (hrefers _ rfl (.profile emailText) List.mem_cons_self)⟩

end refused

/-- What an app calls for is carried out when `document(_:)` takes the names. -/
theorem Replicas.isSome_ask {r : Replicas} {deviceTime : Time} {request : Option Event}
    (hscreen : ∀ e ∈ request, (ReplicaEvent.act e deviceTime).byScreen = true)
    (hwrites : ∀ c made, request = some (.call c made) →
      (made.writes (r.system.clients c).currentUser).isSome = true)
    (hrefers : ∀ e ∈ request, e.Refers (r.system.clients e.client).currentUser) :
    (r.ask deviceTime request).isSome = true := by
  cases request with
  | none => rfl
  | some e =>
    have hbyScreen := hscreen e rfl
    rw [ask, if_pos (hrefers e rfl), Option.isSome_map]
    cases e with
    | call c made =>
      obtain ⟨ws, hws⟩ := Option.isSome_iff_exists.mp (hwrites c made rfl)
      simp [System.perform, System.issue, hws]
    | register c account emailText =>
      simp [System.perform, System.step, System.issue, Call.writes]
    | signIn | signOut => rfl
    | commit | reject | complete => cases hbyScreen

/-- Nobody creates a chat while nobody is signed in. -/
theorem Replicas.ask_newChat_of_none {r : Replicas} {c : ClientId}
    (huser : (r.system.clients c).currentUser = none) (deviceTime : Time) (newChatRef : ChatId)
    (name : String) : r.ask deviceTime (some (.call c (.newChat newChatRef name))) = none := by
  have hissue : r.system.issue c (.newChat newChatRef name) = none := by
    rw [System.issue, huser]
    rfl
  simp [ask, System.perform, hissue]

/-! ## The whole system -/

/-- A callback is handed a snapshot that was taken while the account was signed out, and the
document that it unwraps is not in the cache of the client. -/
def Running.SnapshotLacks (s : Running) (c : ClientId) (e : AppEvent) : Prop :=
  ∃ id listener version k path r, e = .told id listener (.ok version) ∧
    (s.apps c).screens.objects[id]? = some k ∧ k.document listener = some path ∧
    (s.apps c).handed ≤ version ∧ (s.past ++ [s.now])[version]? = some r ∧
    ¬ r.SignedIn c ∧ path ∉ r.shown c

/-- A snapshot lacks the document of a callback only if the account was signed out. -/
theorem Running.Sound.snapshotLacks_iff {owner : ClientId → Email} {s : Running}
    (hs : s.Sound owner) {c : ClientId} {e : AppEvent} :
    (s.apps c).SnapshotLacks (s.views c) e ↔ s.SnapshotLacks c e := by
  constructor
  · rintro ⟨id, listener, result, k, handed, snapshot, rfl, hk, hsnapshot, path, v, hdocument, rfl,
      hpath⟩
    rcases App.snapshot_eq_some hsnapshot with ⟨_, _, _, heq⟩ | ⟨v', rfl, hle, hv, heq⟩
    · cases heq
    · obtain rfl := Except.ok.inj heq
      obtain ⟨r, hr, rfl⟩ := getElem?_views.mp hv
      obtain ⟨view, hview, happ⟩ := hs.app c
      have hmem : path ∈ r.view c := by
        refine (hs.versions c).grow _ _ _ _ hle hview (getElem?_full.mpr ⟨r, hr, rfl⟩) path ?_
        exact (happ k (List.mem_of_getElem? hk)).document_mem hdocument
      have hout : ¬ r.SignedIn c := by
        intro hsigned
        rw [Replicas.shown_of_signedIn hsigned] at hpath
        exact hpath hmem
      exact ⟨id, listener, handed, k, path, r, rfl, hk, hdocument, hle, hr, hout, hpath⟩
  · rintro ⟨id, listener, version, k, path, r, rfl, hk, hdocument, hle, hr, _, hpath⟩
    have hv : (s.views c)[version]? = some (r.shown c) := getElem?_views.mpr ⟨r, hr, rfl⟩
    refine ⟨id, listener, .ok version, k, version, .ok (r.shown c), rfl, hk, ?_, path, _, hdocument,
      rfl, hpath⟩
    rw [App.snapshot, if_pos hle, hv, Option.map_some]

/-- What a handler asks for is carried out, unless a name is refused or a user is missing. -/
theorem Running.Reachable.isSome_ask {contains : String → String → Bool} {owner : ClientId → Email}
    {s : Running} (hs : s.Reachable contains owner) {c : ClientId} {e : AppEvent}
    {reaction : Reaction}
    (hhandle : (s.apps c).handle contains c (s.views c) e = some (some reaction))
    (hrefused : ¬ (s.apps c).NameRefused (s.now.system.clients c).currentUser e)
    (huser : ¬ (s.apps c).UserMissing (s.now.system.clients c).currentUser e) (deviceTime : Time) :
    (s.now.ask deviceTime reaction.request).isSome = true := by
  obtain ⟨view, hview, happ⟩ := hs.sound.app c
  have hclient : ∀ request ∈ reaction.request, request.client = c ∧
      (ReplicaEvent.act request deviceTime).byScreen = true :=
    fun request hrequest => App.client_of_request hhandle hrequest deviceTime
  refine Replicas.isSome_ask (fun e he => (hclient e he).2) ?_ ?_
  · intro d made hmade
    obtain rfl : d = c := (hclient _ hmade).1
    exact happ.isSome_writes huser hhandle hmade
  · intro request hrequest
    obtain rfl := (hclient request hrequest).1
    have hnamed : ∀ path ∈ view, path.Refers :=
      fun path hpath => hs.refers_of_mem_view (hs.sound.mem_view hview path hpath)
    exact happ.refers hnamed hhandle hrefused request hrequest

/-- What is asked for under a refused name or without a user is not carried out. -/
theorem Running.exists_ask_eq_none (contains : String → String → Bool) {s : Running} {c : ClientId}
    {e : AppEvent} (deviceTime : Time)
    (h : (s.apps c).NameRefused (s.now.system.clients c).currentUser e ∨
      (s.apps c).UserMissing (s.now.system.clients c).currentUser e) :
    ∃ reaction, (s.apps c).handle contains c (s.views c) e = some (some reaction) ∧
      s.now.ask deviceTime reaction.request = none := by
  rcases h with hrefused | ⟨newChatRef, name, id, rfl, halert, htop, huser⟩
  · obtain ⟨reaction, request, hhandle, hrequest, hrefers⟩ :=
      hrefused.exists_request contains c (s.views c)
    obtain rfl := (App.client_of_request hhandle hrequest deviceTime).1
    refine ⟨reaction, hhandle, ?_⟩
    rw [hrequest, Replicas.ask, if_neg hrefers]
  · exact ⟨_, App.handle_createButtonPressed contains c (s.views c) newChatRef name halert htop,
      Replicas.ask_newChat_of_none huser deviceTime newChatRef name⟩

/-- Signing out fails, the table of a messages screen has rows without messages, a snapshot lacks a
document, a name is refused, or a user is missing. -/
def Running.Traps (s : Running) : RunningEvent → Prop
  | .background _ => False
  | .app c e _ => s.Possible c e ∧
      ((s.apps c).SignOutFails e ∨ (s.apps c).RowMissing e ∨ s.SnapshotLacks c e ∨
        (s.apps c).NameRefused (s.now.system.clients c).currentUser e ∨
        (s.apps c).UserMissing (s.now.system.clients c).currentUser e)

/-- **Where the apps trap.** In every state that is reached while the server accepts the writes, an
event that can happen makes an app trap in exactly five cases: signing out fails, the table of a
messages screen asks for a row that has no message, a callback is handed a snapshot that was taken
while the account was signed out and lacks the document that the callback unwraps, `document(_:)`
refuses the address of the account that creates a chat or the text that a registration finds in its
email field, or a chat is created while nobody is signed in. No other forced unwrapping, no index,
no other reference and no other call made with nobody signed in ever fails, whatever the users do
and however late snapshots arrive. -/
theorem apps_trap_iff {contains : String → String → Bool} {owner : ClientId → Email} {s : Running}
    (hs : s.Reachable contains owner) (e : RunningEvent) :
    s.react contains e = some none ↔ s.Traps e := by
  cases e with
  | background e =>
    refine iff_of_false (fun h => ?_) id
    rcases Running.react_cases h with ⟨_, _, _, _, _, heq⟩ | ⟨_, _, _, _, heq, _⟩
    · cases heq
    · cases heq
  | app c e deviceTime =>
    obtain ⟨view, hview, happ⟩ := hs.sound.app c
    have hnamed : ∀ path ∈ view, path.Refers :=
      fun path hpath => hs.refers_of_mem_view (hs.sound.mem_view hview path hpath)
    have htraps : (s.apps c).handle contains c (s.views c) e = some none ↔ _ :=
      happ.handle_eq_none_iff hview (hs.sound.versions c) hnamed
    rw [hs.sound.snapshotLacks_iff] at htraps
    constructor
    · intro h
      rcases Running.react_cases h with ⟨_, _, heq, _⟩ |
        ⟨_, _, _, reaction, heq, hpossible, hhandle, hresult⟩
      · cases heq
      · obtain ⟨rfl, rfl, rfl⟩ := RunningEvent.app.inj heq
        refine ⟨hpossible, ?_⟩
        cases reaction with
        | none =>
          rcases htraps.mp hhandle with hsignOut | hrow | hlacks
          · exact .inl hsignOut
          · exact .inr (.inl hrow)
          · exact .inr (.inr (.inl hlacks))
        | some reaction =>
          by_contra hnone
          have hasked : (s.now.ask deviceTime reaction.request).isSome = true :=
            hs.isSome_ask hhandle (fun hrefused => hnone (.inr (.inr (.inr (.inl hrefused)))))
              (fun hmissing => hnone (.inr (.inr (.inr (.inr hmissing))))) deviceTime
          obtain ⟨now, hnow⟩ := Option.isSome_iff_exists.mp hasked
          rw [Option.bind_some, hnow] at hresult
          cases hresult
    · rintro ⟨hpossible, htrap⟩
      have hreact : s.react contains (.app c e deviceTime) = _ := if_pos hpossible
      rw [hreact]
      rcases htrap with hsignOut | hrow | hlacks | hasked
      · rw [htraps.mpr (.inl hsignOut)]
        rfl
      · rw [htraps.mpr (.inr (.inl hrow))]
        rfl
      · rw [htraps.mpr (.inr (.inr hlacks))]
        rfl
      · obtain ⟨reaction, hhandle, hnone⟩ :=
          Running.exists_ask_eq_none contains deviceTime hasked
        rw [hhandle, Option.map_some]
        simp [hnone]

/-- `ann` has sent a message, which her messages screen shows, and then the query for messages
fails. -/
def Running.sampleFailure : List RunningEvent :=
  sampleTaps ++ [.app 0 (.told 4 .loadUserOptions (.ok 11)) 3,
    .app 0 (.told 4 .loadMessages (.ok 11)) 3,
    .app 0 (.told 4 .loadMessages (.error "unavailable")) 3]

/-- How many messages a messages screen has, and how many rows it shows. -/
def App.messageRows (a : App) (id : ℕ) : Option (ℕ × ℕ) :=
  match a.screens.objects[id]? with
  | some (.messages k) => some (k.screen.messages.length, k.screen.rowCount)
  | _ => none

/-- `ann` creates a chat and opens it before the server has answered, and signs out. -/
def Running.sampleSignedOut : List RunningEvent :=
  sampleTaps.take 5 ++ [.app 0 (.told 2 .loadChats (.ok 5)) 2,
    .app 0 (.tap (.didSelectRowAt 0)) 2, .app 0 (.tap .back) 2,
    .app 0 (.tap (.segue .showAppSettings)) 2, .app 0 (.tap (.logoutButtonPressed true)) 2]

/-- The token of `ann` is refused while she is about to create a chat. -/
def Running.sampleRefusedToken : List RunningEvent :=
  sampleTaps.take 4 ++ [.background (.act (.signOut 0) 1)]

/-- The table of `ann`'s messages screen still has a row, and to lay it out traps. Where she has
signed out, the snapshot that her messages screen is handed next lacks the chat. Where her token is
refused, the create button traps. -/
theorem apps_trap_iff_on_failure : (∃ s : Running,
    Runs.run (Running.step fun _ _ => true) (Running.init sampleOwner) Running.sampleFailure =
      some s ∧ s.react (fun _ _ => true) (.app 0 (.layoutRow 4 0) 3) = some none) ∧
    (∃ s : Running, Runs.run (Running.step fun _ _ => true) (Running.init sampleOwner)
      Running.sampleSignedOut = some s ∧
        s.Traps (.app 0 (.told 4 .loadChatOptions (.ok 10)) 3)) ∧
    ∃ s : Running, Runs.run (Running.step fun _ _ => true) (Running.init sampleOwner)
      Running.sampleRefusedToken = some s ∧
        s.Traps (.app 0 (.tap (.createButtonPressed "tea" "Tea time")) 1) := by
  have hfailure : (Runs.run (Running.step fun _ _ => true) (Running.init sampleOwner)
      Running.sampleFailure).map (fun s => (s.apps 0).messageRows 4) = some (some (0, 1)) := by
    decide
  -- The first event that traps behind a run.
  have htraps : ∀ (es : List RunningEvent) (e : RunningEvent), (∀ e ∈ es, e.accepted = true) →
      (Runs.run (Running.step fun _ _ => true) (Running.init sampleOwner) es).bind (fun s =>
        (s.react (fun _ _ => true) e).map Option.isNone) = some true →
      ∃ s, Runs.run (Running.step fun _ _ => true) (Running.init sampleOwner) es = some s ∧
        s.Traps e := by
    intro es e hok hreact
    obtain ⟨s, hs, hreact⟩ := Option.bind_eq_some_iff.mp hreact
    obtain ⟨result, hresult, hnone⟩ := Option.map_eq_some_iff.mp hreact
    obtain rfl := Option.isNone_iff_eq_none.mp hnone
    have hreachable : s.Reachable (fun _ _ => true) sampleOwner := Runs.Reachable.of_run hok hs
    exact ⟨s, hs, (apps_trap_iff hreachable _).mp hresult⟩
  refine ⟨?_, htraps _ _ (by decide) (by decide), htraps _ _ (by decide) (by decide)⟩
  obtain ⟨s, hs, hrows⟩ := Option.map_eq_some_iff.mp hfailure
  have hreachable : s.Reachable (fun _ _ => true) sampleOwner :=
    Runs.Reachable.of_run (by decide) hs
  have hpossible : s.Possible 0 (.layoutRow 4 0) :=
    ⟨by simp [AppEvent.generatedId], by simp [AppEvent.account]⟩
  refine ⟨s, hs, (apps_trap_iff hreachable _).mpr ⟨hpossible, .inr (.inl ?_)⟩⟩
  unfold App.messageRows at hrows
  split at hrows
  case h_1 k hk =>
    obtain ⟨hlength, hrow⟩ := Prod.mk.inj (Option.some.inj hrows)
    exact ⟨4, 0, k, rfl, hk, by omega, by omega⟩
  case h_2 => cases hrows

end MessagingApp
