import MessagingApp.AppRefinement
import MessagingApp.ChatHistories

/-!
# The screens that are open

What a view controller is, and which chat and member it was opened on, stays as it
is, and a navigation stack is a path along the segues of the storyboard. So every
screen that acts on a chat lies over the messages screen of this chat, and what is
edited is the chat that was opened.
-/

namespace MessagingApp

/-! ## Places -/

/-- What a view controller is, and what it was opened on. -/
inductive Place
  | menu
  | login
  | register
  | contacts
  | createChat
  | appSettings
  | messages (chatId : Option ChatId)
  | chatSettings (chatId : Option ChatId)
  | colourPicker (delegate : ℕ)
  | groupMembers (chatId : Option ChatId)
  | memberView (chatId : Option ChatId) (memberId : Option Email)
  | addUser (chatId : Option ChatId)

/-- The place of a view controller. -/
def ViewController.place : ViewController → Place
  | .menu => .menu
  | .login _ => .login
  | .register _ => .register
  | .contacts _ => .contacts
  | .createChat => .createChat
  | .appSettings => .appSettings
  | .messages k => .messages k.chatId
  | .chatSettings chatId => .chatSettings chatId
  | .colourPicker delegate => .colourPicker delegate
  | .groupMembers k => .groupMembers k.chatId
  | .memberView k => .memberView k.chatId k.memberId
  | .addUser k => .addUser k.chatId

namespace Place

/-- The segues: what may be pushed over the view controller that reference `j` points to. The chat
list opens over whatever shows when a sign-in request completes. -/
inductive Over : Place → ℕ → Place → Prop
  | showLogin (j : ℕ) : Over .login j .menu
  | showRegister (j : ℕ) : Over .register j .menu
  | showContacts (j : ℕ) (l : Place) : Over .contacts j l
  | showCreateChat (j : ℕ) : Over .createChat j .contacts
  | showAppSettings (j : ℕ) : Over .appSettings j .contacts
  | showMessages (j : ℕ) (chatId : Option ChatId) : Over (.messages chatId) j .contacts
  | showChatSettings (j : ℕ) (chatId : Option ChatId) :
      Over (.chatSettings chatId) j (.messages chatId)
  | showAddUser (j : ℕ) (chatId : Option ChatId) : Over (.addUser chatId) j (.chatSettings chatId)
  | showChatMembers (j : ℕ) (chatId : Option ChatId) :
      Over (.groupMembers chatId) j (.chatSettings chatId)
  | showMember (j : ℕ) (chatId : Option ChatId) (memberId : Option Email) :
      Over (.memberView chatId memberId) j (.groupMembers chatId)
  | showChatColours (j : ℕ) (chatId : Option ChatId) :
      Over (.colourPicker j) j (.chatSettings chatId)
  | showUserColours (j : ℕ) (chatId : Option ChatId) (memberId : Option Email) :
      Over (.colourPicker j) j (.memberView chatId memberId)

/-- The chat a view controller acts on. -/
def chat : Place → Option ChatId
  | .messages chatId | .chatSettings chatId | .groupMembers chatId | .memberView chatId _
  | .addUser chatId => chatId
  | .menu | .login | .register | .contacts | .createChat | .appSettings | .colourPicker _ => none

/-- The chat a messages screen shows. -/
def shownChat : Place → Option ChatId
  | .messages chatId => chatId
  | _ => none

/-- A view controller takes the chat over from the one it lies on, down to the messages screen. -/
theorem handsUp : ObjectStacks.HandsUp Over chat shownChat := by
  intro u i l c hover hchat
  cases hover with
  | showMessages => exact .inl hchat
  | showChatSettings | showAddUser | showChatMembers | showMember => exact .inr ⟨rfl, hchat⟩
  | _ => cases hchat

end Place

/-! ## Handlers keep the place -/

section told

variable {listener : Listener} {snapshot : Snapshot LocalDb}

theorem MessagesController.chatId_of_told {k k' : MessagesController}
    (h : k.told listener snapshot = some (some k')) : k'.chatId = k.chatId := by
  unfold MessagesController.told at h
  split at h
  case h_1 =>
    split at h
    case isFalse => cases h
    case isTrue =>
      obtain ⟨_, _, rfl⟩ := Option.map_eq_some_iff.mp (Option.some.inj h)
      rfl
  case h_2 =>
    obtain ⟨_, _, rfl⟩ := Option.map_eq_some_iff.mp (Option.some.inj h)
    rfl
  case h_3 =>
    obtain rfl := Option.some.inj (Option.some.inj h)
    rfl
  case h_4 =>
    split at h
    case isFalse => cases h
    case isTrue =>
      obtain ⟨_, _, rfl⟩ := Option.map_eq_some_iff.mp (Option.some.inj h)
      rfl
  case h_5 => cases h

theorem GroupMembersController.chatId_of_told {k k' : GroupMembersController}
    (h : k.told listener snapshot = some (some k')) : k'.chatId = k.chatId := by
  unfold GroupMembersController.told at h
  split at h
  case h_1 =>
    obtain ⟨_, _, rfl⟩ := Option.map_eq_some_iff.mp (Option.some.inj h)
    rfl
  case h_2 =>
    split at h
    case isFalse => cases h
    case isTrue =>
      obtain ⟨_, _, rfl⟩ := Option.map_eq_some_iff.mp (Option.some.inj h)
      rfl
  case h_3 => cases h

theorem MemberController.ids_of_told {k k' : MemberController}
    (h : k.told listener snapshot = some (some k')) :
    k'.chatId = k.chatId ∧ k'.memberId = k.memberId := by
  unfold MemberController.told at h
  split at h
  case h_1 =>
    obtain ⟨_, _, rfl⟩ := Option.map_eq_some_iff.mp (Option.some.inj h)
    exact ⟨rfl, rfl⟩
  case h_2 => cases h

theorem AddUserController.chatId_of_told {k k' : AddUserController}
    (h : k.told listener snapshot = some (some k')) : k'.chatId = k.chatId := by
  unfold AddUserController.told at h
  split at h
  case h_1 =>
    split at h
    case isFalse => cases h
    case isTrue =>
      obtain rfl := Option.some.inj (Option.some.inj h)
      rfl
  case h_2 => cases h

/-- A snapshot changes nothing but what is shown. -/
theorem ViewController.place_of_told {k k' : ViewController}
    (h : k.told listener snapshot = some (some k')) : k'.place = k.place := by
  cases k with
  | contacts k =>
    obtain ⟨r, _, hr⟩ := Option.map_eq_some_iff.mp h
    obtain ⟨k', rfl, rfl⟩ := Option.map_eq_some_iff.mp hr
    rfl
  | messages k =>
    obtain ⟨r, htold, hr⟩ := Option.map_eq_some_iff.mp h
    obtain ⟨k', rfl, rfl⟩ := Option.map_eq_some_iff.mp hr
    exact congrArg Place.messages (MessagesController.chatId_of_told htold)
  | groupMembers k =>
    obtain ⟨r, htold, hr⟩ := Option.map_eq_some_iff.mp h
    obtain ⟨k', rfl, rfl⟩ := Option.map_eq_some_iff.mp hr
    exact congrArg Place.groupMembers (GroupMembersController.chatId_of_told htold)
  | memberView k =>
    obtain ⟨r, htold, hr⟩ := Option.map_eq_some_iff.mp h
    obtain ⟨k', rfl, rfl⟩ := Option.map_eq_some_iff.mp hr
    obtain ⟨hchat, hmember⟩ := MemberController.ids_of_told htold
    exact congrArg₂ Place.memberView hchat hmember
  | addUser k =>
    obtain ⟨r, htold, hr⟩ := Option.map_eq_some_iff.mp h
    obtain ⟨k', rfl, rfl⟩ := Option.map_eq_some_iff.mp hr
    exact congrArg Place.addUser (AddUserController.chatId_of_told htold)
  | _ => cases h

end told

theorem ViewController.place_of_layoutRow {k k' : ViewController} {row : ℕ}
    (h : k.layoutRow row = some (some k')) : k'.place = k.place := by
  unfold ViewController.layoutRow at h
  split at h
  case h_5 => cases h
  all_goals
    split at h
    case isFalse => cases h
    case isTrue =>
      obtain ⟨_, _, rfl⟩ := Option.map_eq_some_iff.mp (Option.some.inj h)
      rfl

theorem ViewController.place_of_requested {k k' : ViewController} (h : App.Requested k k') :
    k'.place = k.place := by
  cases h <;> rfl

/-- What an answer to a tap does to the places: the view controller keeps its own, what is pushed
comes by a segue from it, and only a member view presents an alert. -/
structure Answer.Placed (id : ℕ) (k : ViewController) (answer : Answer) : Prop where
  self : answer.self.place = k.place
  push : ∀ next, answer.navigation = .push next →
    Place.Over next.place id k.place ∧ next.place ≠ .contacts
  present : answer.navigation = .present → ∃ chat member, k.place = .memberView chat member

namespace ViewController

/-- An answer that pushes nothing and presents nothing. -/
theorem placed_of_quiet {id : ℕ} {k : ViewController} {answer : Answer}
    (hself : answer.self.place = k.place) (hpush : ∀ next, answer.navigation ≠ .push next)
    (hpresent : answer.navigation ≠ .present) : answer.Placed id k :=
  ⟨hself, fun next h => absurd h (hpush next), fun h => absurd h hpresent⟩

theorem over_of_prepare {id : ℕ} {s : Segue} {k next : ViewController}
    (h : k.prepare id s = some next) :
    Place.Over next.place id k.place ∧ next.place ≠ .contacts := by
  unfold ViewController.prepare at h
  split at h
  case h_9 => cases h
  all_goals
    obtain rfl := Option.some.inj h
    exact ⟨by constructor, by simp [place]⟩

theorem chatId_of_prepareMemberView {k : GroupMembersController} {next : MemberController}
    (h : prepareMemberView k = some next) : next.chatId = k.chatId := by
  obtain ⟨chat, row, user, member, hchat, _, _, _, _, rfl⟩ := prepareMemberView_eq_some.mp h
  exact hchat.symm

/-- A selected row opens a screen of the chat it belongs to. -/
theorem placed_of_didSelectRowAt {c : ClientId} {id row : ℕ} {k : ViewController} {answer : Answer}
    (h : k.didSelectRowAt c id row = some (some answer)) : answer.Placed id k := by
  unfold ViewController.didSelectRowAt at h
  split at h
  case h_1 k =>
    split at h
    case isFalse => cases h
    case isTrue =>
      obtain ⟨chat, _, hanswer⟩ := Option.bind_eq_some_iff.mp (Option.some.inj h)
      obtain rfl := Option.some.inj hanswer
      refine ⟨rfl, ?_, by simp⟩
      rintro _ ⟨⟩
      exact ⟨.showMessages id _, by simp [place]⟩
  case h_2 k =>
    split at h
    case isFalse => cases h
    case isTrue =>
      obtain ⟨next, hnext, hanswer⟩ := Option.bind_eq_some_iff.mp (Option.some.inj h)
      obtain rfl := Option.some.inj hanswer
      refine ⟨rfl, ?_, by simp⟩
      rintro _ ⟨⟩
      obtain ⟨chatId, memberId, queued, shown⟩ := next
      obtain rfl : chatId = k.chatId := chatId_of_prepareMemberView hnext
      exact ⟨.showMember id _ _, by simp [place]⟩
  case h_3 k =>
    obtain rfl := Option.some.inj (Option.some.inj h)
    refine ⟨rfl, ?_, fun _ => ⟨_, _, rfl⟩⟩
    intro next hnext
    dsimp only at hnext
    split at hnext
    case isTrue => cases hnext
    case isFalse =>
      split at hnext
      case isFalse => cases hnext
      case isTrue =>
        obtain rfl := Navigation.push.inj hnext
        exact ⟨.showUserColours id _ _, by simp [place]⟩
  case h_4 k =>
    split at h
    case isFalse => cases h
    case isTrue =>
      obtain ⟨user, _, hanswer⟩ := Option.bind_eq_some_iff.mp (Option.some.inj h)
      obtain rfl := Option.some.inj hanswer
      exact placed_of_quiet rfl (by simp) (by simp)
  case h_5 => cases h

/-- Every tap moves along a segue of the storyboard, or back. -/
theorem placed_of_tap {contains : String → String → Bool} {c : ClientId}
    {controllers : List ViewController} {id : ℕ} {t : Tap} {k : ViewController} {answer : Answer}
    (h : k.tap contains c controllers id t = some (some answer)) : answer.Placed id k := by
  unfold ViewController.tap at h
  split at h
  case h_1 s k =>
    obtain ⟨next, hnext, hanswer⟩ := Option.map_eq_some_iff.mp h
    obtain rfl := Option.some.inj hanswer
    refine ⟨rfl, ?_, by simp⟩
    rintro _ ⟨⟩
    exact over_of_prepare hnext
  case h_3 => exact placed_of_didSelectRowAt h
  case h_7 signOutSuccess =>
    cases signOutSuccess with
    | false => cases h
    | true =>
      obtain rfl := Option.some.inj (Option.some.inj h)
      exact placed_of_quiet rfl (by simp) (by simp)
  case h_9 text k =>
    obtain ⟨table, _, rfl⟩ := Option.map_eq_some_iff.mp (Option.some.inj h)
    exact placed_of_quiet rfl (by simp) (by simp)
  case h_11 currentTitle delegate =>
    split at h
    case isFalse => cases h
    case isTrue =>
      obtain rfl := Option.some.inj (Option.some.inj h)
      exact placed_of_quiet rfl (by simp) (by simp)
  case h_12 => cases h
  all_goals
    obtain rfl := Option.some.inj (Option.some.inj h)
    exact placed_of_quiet rfl (by simp) (by simp)

end ViewController

/-! ## The navigation stack -/

/-- The navigation stack is a path along segues that starts at the menu, and an alert belongs to a
member view on it. -/
structure App.Arranged (a : App) : Prop where
  linked : ObjectStacks.Linked ViewController.place Place.Over a.screens
  bottom : a.screens.stack.getLast? = some 0
  menu : a.screens.keyAt ViewController.place 0 = some .menu
  alert : ∀ id ∈ a.alert, id ∈ a.screens.stack ∧
    ∃ chat member, a.screens.keyAt ViewController.place id = some (.memberView chat member)

namespace App

variable {a : App} {id : ℕ} {k : ViewController}

/-- What happens to a view controller that keeps its place moves nothing. -/
theorem Arranged.change (ha : a.Arranged) (hk : a.screens.objects[id]? = some k)
    {k' : ViewController} (hplace : k'.place = k.place) : (a.change id k').Arranged := by
  have hkey : ∀ y, a.screens.objects[id]? = some y → k'.place = y.place := by
    intro y hy
    obtain rfl := Option.some.inj (hk.symm.trans hy)
    exact hplace
  refine ⟨ha.linked.update hkey, ha.bottom, ?_, ?_⟩
  · rw [change_screens, ObjectStacks.Heap.keyAt_update hkey]
    exact ha.menu
  · intro id' hid'
    obtain ⟨hmem, hmember⟩ := ha.alert id' hid'
    rw [change_screens, ObjectStacks.Heap.keyAt_update hkey]
    exact ⟨hmem, hmember⟩

/-- Colours and handed snapshots move nothing. -/
theorem Arranged.of_screens {a' : App} (ha : a.Arranged) (hscreens : a'.screens = a.screens)
    (halert : a'.alert = a.alert ∨ a'.alert = none) : a'.Arranged := by
  refine ⟨hscreens ▸ ha.linked, hscreens ▸ ha.bottom, hscreens ▸ ha.menu, ?_⟩
  intro id hid
  rcases halert with hsame | hnone
  · rw [hscreens]
    exact ha.alert id (hsame ▸ hid)
  · rw [hnone] at hid
    cases hid

/-- A view controller is pushed by a segue from the one on top. -/
theorem Arranged.push (ha : a.Arranged)
    (hover : ∀ j y, a.screens.top = some (j, y) → Place.Over k.place j y.place) :
    (a.navigate id (.push k)).Arranged := by
  have hkept : ∀ j, j ∈ a.screens.stack → (a.screens.push k).keyAt ViewController.place j =
      a.screens.keyAt ViewController.place j :=
    fun j hj => ObjectStacks.Heap.keyAt_push (ha.linked.valid j hj)
  constructor
  case linked =>
    rw [navigate, viewWillAppear_screens]
    exact ha.linked.push hover
  case bottom =>
    rw [navigate, viewWillAppear_screens]
    exact ObjectStacks.Heap.getLast?_push ha.bottom
  case menu =>
    rw [navigate, viewWillAppear_screens]
    exact (hkept 0 (List.mem_of_getLast? ha.bottom)).trans ha.menu
  case alert =>
    intro id' hid'
    rw [navigate, viewWillAppear_alert] at hid'
    obtain ⟨hmem, hmember⟩ := ha.alert id' hid'
    rw [navigate, viewWillAppear_screens]
    refine ⟨List.mem_cons_of_mem _ hmem, ?_⟩
    exact (hkept id' hmem).symm ▸ hmember

/-- Where an answer of the view controller on top leads. -/
theorem Arranged.navigate (ha : a.Arranged) (halert : a.alert = none)
    (htop : a.screens.top = some (id, k)) {navigation : Navigation}
    (hpush : ∀ next, navigation = .push next → Place.Over next.place id k.place)
    (hpresent : navigation = .present → ∃ chat member, k.place = .memberView chat member) :
    (a.navigate id navigation).Arranged := by
  cases navigation with
  | stay => exact ha
  | push next =>
    refine ha.push fun j y hy => ?_
    obtain ⟨rfl, rfl⟩ := Prod.mk.inj (Option.some.inj (htop.symm.trans hy))
    exact hpush next rfl
  | pop =>
    refine Arranged.of_screens (a := { a with screens := a.screens.pop }) ?_
      (viewWillAppear_screens _) (.inl (viewWillAppear_alert _))
    refine ⟨ha.linked.pop, ObjectStacks.Heap.getLast?_pop.trans ha.bottom, ha.menu, ?_⟩
    simp [halert]
  | popToRoot =>
    refine Arranged.of_screens (a := { a with screens := a.screens.popToRoot }) ?_
      (viewWillAppear_screens _) (.inl (viewWillAppear_alert _))
    refine ⟨ha.linked.popToRoot, ObjectStacks.Heap.getLast?_popToRoot.trans ha.bottom, ha.menu, ?_⟩
    simp [halert]
  | present =>
    refine ⟨ha.linked, ha.bottom, ha.menu, ?_⟩
    rintro id' ⟨⟩
    obtain ⟨hhead, hobject⟩ := ObjectStacks.Heap.top_eq_some.mp htop
    obtain ⟨chat, member, hplace⟩ := hpresent rfl
    refine ⟨List.mem_of_head? hhead, chat, member, ?_⟩
    change a.screens.objects[id]?.map ViewController.place = _
    rw [hobject, Option.map_some, hplace]

/-- The chat list opens over whatever shows. -/
theorem Arranged.showContacts (ha : a.Arranged) (id : ℕ) (currentUser : Email) :
    (a.showContacts id currentUser).Arranged := by
  unfold App.showContacts
  split
  case isTrue => exact ha.push fun j y _ => .showContacts j y.place
  case isFalse => exact ha

/-- **An app keeps its navigation stack in order.** -/
theorem Arranged.handle {contains : String → String → Bool} {c : ClientId} {views : List LocalDb}
    {e : AppEvent} {reaction : Reaction} (ha : a.Arranged)
    (h : a.handle contains c views e = some (some reaction)) : reaction.app.Arranged := by
  cases e with
  | tap t =>
    obtain ⟨halert, id, k, answer, htop, hanswer, hresult⟩ := handle_tap h
    obtain ⟨answer, rfl, rfl⟩ := Option.map_eq_some_iff.mp hresult.symm
    have hplaced := ViewController.placed_of_tap hanswer
    obtain ⟨hhead, hobject⟩ := ObjectStacks.Heap.top_eq_some.mp htop
    have hlength := (List.getElem?_eq_some_iff.mp hobject).1
    have htop' : (a.change id answer.self).screens.top = some (id, answer.self) := by
      refine ObjectStacks.Heap.top_eq_some.mpr ⟨hhead, ?_⟩
      exact List.getElem?_set_self hlength
    refine (ha.change hobject hplaced.self).navigate halert htop' ?_ ?_
    · rw [hplaced.self]
      exact fun next hnext => (hplaced.push next hnext).1
    · rw [hplaced.self]
      exact hplaced.present
  | changeUsername newUserName =>
    obtain ⟨id, k, _, _, hresult⟩ := handle_changeUsername h
    obtain rfl := Option.some.inj hresult
    exact ha.of_screens rfl (.inr rfl)
  | cancel =>
    obtain ⟨_, _, hresult⟩ := Option.map_eq_some_iff.mp h
    obtain rfl := Option.some.inj hresult
    exact ha.of_screens rfl (.inr rfl)
  | signedIn id account =>
    obtain ⟨k, k', hk, hkk', hresult⟩ := handle_signedIn h
    obtain rfl := Option.some.inj hresult
    exact (ha.change hk (ViewController.place_of_requested hkk')).showContacts id account
  | registered id account emailText =>
    obtain ⟨k, k', hk, hkk', hresult⟩ := handle_registered h
    obtain rfl := Option.some.inj hresult
    exact (ha.change hk (ViewController.place_of_requested hkk')).showContacts id account
  | requestFailed id =>
    obtain ⟨k, k', hk, hkk', hresult⟩ := handle_requestFailed h
    obtain rfl := Option.some.inj hresult
    exact ha.change hk (ViewController.place_of_requested hkk')
  | told id listener result =>
    obtain ⟨k, handed, snapshot, answer, hk, _, hanswer, hresult⟩ := handle_told h
    obtain ⟨k', rfl, rfl⟩ := Option.map_eq_some_iff.mp hresult.symm
    refine (ha.change hk (ViewController.place_of_told hanswer)).of_screens ?_ (.inl ?_)
    · rw [recolour_screens]
    · rw [recolour_alert]
  | layoutRow id row =>
    obtain ⟨k, answer, hk, hanswer, hresult⟩ := handle_layoutRow h
    obtain ⟨k', rfl, rfl⟩ := Option.map_eq_some_iff.mp hresult.symm
    exact ha.change hk (ViewController.place_of_layoutRow hanswer)
  | showMemberDetails id =>
    obtain ⟨k, details, queued, hk, _, hresult⟩ := handle_showMemberDetails h
    obtain ⟨_, _, rfl⟩ := Option.map_eq_some_iff.mp hresult.symm
    have hchanged : (a.change id (.memberView { k with
        queued := queued
        shown := some details })).Arranged := ha.change hk rfl
    exact hchanged.of_screens (recolour_screens _ _ _) (.inl (recolour_alert _ _ _))

/-- The chat whose messages screen is the nearest on the stack from a view controller down. -/
def openChat (a : App) (id : ℕ) : Option ChatId :=
  ObjectStacks.nearest ViewController.place Place.shownChat a.screens
    (a.screens.stack.dropWhile fun j => j ≠ id)

/-- The view controller that taps go to: the one that presents an alert, or the one on top. -/
def acting (a : App) : Option ℕ := a.alert.or a.screens.stack.head?

/-- The chat of a view controller on the stack is that of the nearest messages screen. -/
theorem Arranged.nearest_eq (ha : a.Arranged) {below : List ℕ}
    (hsuffix : id :: below <:+ a.screens.stack) (hk : a.screens.objects[id]? = some k)
    {chat : ChatId} (hchat : k.place.chat = some chat) :
    ObjectStacks.nearest ViewController.place Place.shownChat a.screens (id :: below) =
      some chat := by
  have hkey : a.screens.keyAt ViewController.place id = some k.place := by
    rw [ObjectStacks.Heap.keyAt, hk, Option.map_some]
  refine ha.linked.nearest_eq Place.handsUp ?_ hsuffix hkey hchat
  intro i hi u hu
  obtain rfl : i = 0 := Option.some.inj (hi.symm.trans ha.bottom)
  obtain rfl : u = .menu := Option.some.inj (hu.symm.trans ha.menu)
  rfl

/-- **A view controller acts on the open chat.** -/
theorem Arranged.openChat_eq (ha : a.Arranged) (hid : id ∈ a.screens.stack)
    (hk : a.screens.objects[id]? = some k) {chat : ChatId} (hchat : k.place.chat = some chat) :
    a.openChat id = some chat := by
  obtain ⟨below, hbelow⟩ := ObjectStacks.exists_dropWhile hid
  rw [openChat, hbelow]
  exact ha.nearest_eq (hbelow ▸ List.dropWhile_suffix _) hk hchat

/-- A colour picker lies over its delegate. -/
theorem Arranged.delegate (ha : a.Arranged) {delegate : ℕ} {rest : List ℕ}
    (hstack : a.screens.stack = id :: rest)
    (hk : a.screens.objects[id]? = some (.colourPicker delegate)) :
    ∃ below, rest = delegate :: below := by
  have hkey : a.screens.keyAt ViewController.place id = some (.colourPicker delegate) := by
    rw [ObjectStacks.Heap.keyAt, hk]
    rfl
  cases rest with
  | nil =>
    -- Only the menu lies at the bottom.
    have hbottom := ha.bottom
    rw [hstack] at hbottom
    obtain rfl : id = 0 := Option.some.inj hbottom
    cases hkey.symm.trans ha.menu
  | cons j below =>
    have hchain := ha.linked.chain
    rw [hstack] at hchain
    obtain ⟨u, l, hu, _, hover⟩ := hchain.rel
    obtain rfl : u = .colourPicker delegate := Option.some.inj (hu.symm.trans hkey)
    cases hover <;> exact ⟨below, rfl⟩

end App

/-! ## What is edited -/

/-- What an event acts on belongs to a chat. -/
def Event.ActsIn (chatId : Option ChatId) : Event → Prop
  | .call _ made => ∀ path ∈ made.target, ∃ chat ∈ chatId, path.belongsTo chat = true
  | _ => True

namespace ViewController

variable {c : ClientId} {k : ViewController} {e : Event}

end ViewController

theorem Event.ActsIn.mono {chatId chatId' : Option ChatId} {e : Event} (he : e.ActsIn chatId)
    (h : ∀ chat, chatId = some chat → chatId' = some chat) : e.ActsIn chatId' := by
  cases e with
  | call c made =>
    intro path hpath
    obtain ⟨chat, hchat, hbelongs⟩ := he path hpath
    exact ⟨chat, h chat hchat, hbelongs⟩
  | _ => trivial

/-- The writes of a call belong to the chat the call acts on. -/
theorem Genuine.belongsTo {call : Call} {w : Write} (h : Genuine call w) {path : DocPath}
    (htarget : call.target = some path) {chat : ChatId} (hpath : path.belongsTo chat = true) :
    w.path.belongsTo chat = true := by
  cases h with
  | baseDocument | creatorDocument | profile => cases htarget
  | _ =>
    obtain rfl := Option.some.inj htarget
    exact hpath

/-- What an app asks for is an event of its client that a screen brings about. -/
theorem App.client_of_request {a : App} {contains : String → String → Bool} {c : ClientId}
    {views : List LocalDb} {e : AppEvent} {reaction : Reaction}
    (h : a.handle contains c views e = some (some reaction)) {request : Event}
    (hrequest : request ∈ reaction.request) (deviceTime : Time) :
    request.client = c ∧ (ReplicaEvent.act request deviceTime).byScreen = true := by
  rcases request_cases h hrequest with ⟨t, id, k, answer, rfl, _, _, hanswer, htapped⟩ |
    ⟨newUserName, id, k, rfl, _, _, hchanged⟩ | ⟨id, account, rfl, rfl⟩ |
    ⟨id, account, emailText, rfl, rfl⟩
  · cases ViewController.asks_of_tap hanswer htapped with
    | useColour delegate k' colour e _ he =>
      obtain ⟨_, rfl⟩ := ViewController.exists_call_of_useColour he
      exact ⟨rfl, rfl⟩
    | _ => exact ⟨rfl, rfl⟩
  · obtain ⟨_, rfl⟩ := ViewController.exists_call_of_updateUserName hchanged
    exact ⟨rfl, rfl⟩
  · exact ⟨rfl, rfl⟩
  · exact ⟨rfl, rfl⟩

namespace Running

variable {contains : String → String → Bool} {owner : ClientId → Email} {s s' : Running}

theorem Reachable.withRejections (hs : s.Reachable contains owner) :
    s.ReachableWithRejections contains owner := hs.mono fun _ _ => trivial

/-- Every app has its navigation stack in order. -/
theorem ReachableWithRejections.arranged (hs : s.ReachableWithRejections contains owner)
    (c : ClientId) : (s.apps c).Arranged := by
  have hall : ∀ c, (s.apps c).Arranged := by
    refine Runs.Reachable.invariant (I := fun u : Running => ∀ c, (u.apps c).Arranged) hs ?_ ?_
    · intro c
      refine ⟨⟨?_, .singleton 0⟩, rfl, rfl, by simp [init]⟩
      intro i hi
      obtain rfl := List.mem_singleton.mp hi
      exact Nat.one_pos
    · intro u v e _ hu _ hstep
      rcases step_cases hstep with ⟨_, _, _, _, _, rfl⟩ |
        ⟨d, e', deviceTime, reaction, now, _, _, hhandle, _, rfl⟩
      · exact hu
      · refine (Function.forall_update_iff u.apps (p := fun _ a => App.Arranged a)).mpr ?_
        exact ⟨(hu d).handle hhandle, fun c _ => hu c⟩
  exact hall c

/-- Every app has its navigation stack in order. -/
theorem Reachable.arranged (hs : s.Reachable contains owner) (c : ClientId) :
    (s.apps c).Arranged := hs.withRejections.arranged c

end Running

end MessagingApp
