import MessagingApp.MembersScreen
import MessagingApp.RunningApps

/-!
# What the view controllers hold

A view controller was opened on documents that its client was shown, and lists
documents that its client was shown. What a tap writes to was therefore shown to the
client, and its handlers find what they unwrap, except for a document that a snapshot
lacks because its write waits in the queue of an account that has signed out.
-/

namespace MessagingApp

/-! ## Sound view controllers -/

/-- A view controller was opened on a chat that its client is shown. -/
def OpenedOn (view : LocalDb) (chatId : Option ChatId) : Prop :=
  ∃ chat, chatId = some chat ∧ DocPath.chat chat ∈ view

/-- The chat list shows a row for each of its chats, and the client is shown these chats. -/
structure ContactsController.Sound (view : LocalDb) (k : ContactsController) : Prop where
  rows : k.table.rowCount = k.table.chats.length
  listed : ∀ chat ∈ k.table.chats, DocPath.chat chat.id ∈ view

/-- The colours of a messages screen are colours. -/
structure MessagesController.Sound (view : LocalDb) (k : MessagesController) : Prop where
  opened : OpenedOn view k.chatId
  colour : (hexColour k.hexColourString).isSome
  options : k.screen.OptionsPicked

/-- The members screen shows a row for each of its members, and the client is shown their
documents. -/
structure GroupMembersController.Sound (view : LocalDb) (k : GroupMembersController) : Prop where
  opened : OpenedOn view k.chatId
  rows : k.table.rowCount = k.table.chatMembers.length
  listed : ∀ chat, k.chatId = some chat → ∀ user ∈ k.table.chatMembers,
    ∃ member, user.email = some member ∧ DocPath.member chat member ∈ view
  colours : ∀ user ∈ k.table.chatMembers, ∀ colour ∈ user.colour, (hexColour colour).isSome

/-- A member view was opened on a member whose document the client is shown. -/
structure MemberController.Sound (view : LocalDb) (k : MemberController) : Prop where
  opened : ∃ chat member, k.chatId = some chat ∧ k.memberId = some member ∧
    DocPath.chat chat ∈ view ∧ DocPath.member chat member ∈ view
  queued : ∀ details ∈ k.queued, (hexColour details.colour).isSome

/-- The users that can be added have the email and the name that `addNewUser` unwraps, and the
client is shown their profiles. -/
structure AddUserController.Sound (view : LocalDb) (k : AddUserController) : Prop where
  opened : OpenedOn view k.chatId
  table : k.table.Sound
  named : ∀ user ∈ k.table.totalUsers, ∃ email name, user.email = some email ∧
    user.name = some name ∧ DocPath.profile email ∈ view
  listed : ∀ user ∈ k.table.possibleUsers, user ∈ k.table.totalUsers

/-- What a view controller holds is in order, and its client is shown what it refers to. -/
def ViewController.Sound (view : LocalDb) : ViewController → Prop
  | .contacts k => k.Sound view
  | .messages k => k.Sound view
  | .chatSettings chatId => OpenedOn view chatId
  | .groupMembers k => k.Sound view
  | .memberView k => k.Sound view
  | .addUser k => k.Sound view
  | .menu | .login _ | .register _ | .createChat | .appSettings | .colourPicker _ => True

section mono

variable {view view' : LocalDb} (h : ∀ path ∈ view, path ∈ view')
include h

theorem OpenedOn.mono {chatId : Option ChatId} (hopened : OpenedOn view chatId) :
    OpenedOn view' chatId := by
  obtain ⟨chat, hchat, hmem⟩ := hopened
  exact ⟨chat, hchat, h _ hmem⟩

/-- A view controller stays sound while its client is shown more. -/
theorem ViewController.Sound.mono {k : ViewController} (hk : k.Sound view) : k.Sound view' := by
  cases k with
  | contacts k => exact ⟨hk.rows, fun chat hchat => h _ (hk.listed chat hchat)⟩
  | messages k => exact ⟨hk.opened.mono h, hk.colour, hk.options⟩
  | chatSettings chatId => exact OpenedOn.mono h hk
  | groupMembers k =>
    refine ⟨hk.opened.mono h, hk.rows, ?_, hk.colours⟩
    intro chat hchat user huser
    obtain ⟨member, hemail, hmem⟩ := hk.listed chat hchat user huser
    exact ⟨member, hemail, h _ hmem⟩
  | memberView k =>
    obtain ⟨chat, member, hchat, hmember, hshown, hlisted⟩ := hk.opened
    exact ⟨⟨chat, member, hchat, hmember, h _ hshown, h _ hlisted⟩, hk.queued⟩
  | addUser k =>
    refine ⟨hk.opened.mono h, hk.table, ?_, hk.listed⟩
    intro user huser
    obtain ⟨email, name, hemail, hname, hmem⟩ := hk.named user huser
    exact ⟨email, name, hemail, hname, h _ hmem⟩
  | _ => trivial

end mono

/-! ## Snapshots -/

/-- What `loadChats` does when it completes. -/
theorem loadChats_eq_some {documents : List QueryDocument} {screen t : ContactsScreen} :
    screen.loadChats (.ok documents) = some t ↔ ∃ chats, documents.mapM conversation = some chats ∧
      t = { chats := chats, rowCount := chats.length } := by
  cases hchats : documents.mapM conversation with
  | none => simp [ContactsScreen.loadChats, hchats]
  | some chats => simp [ContactsScreen.loadChats, hchats, eq_comm]

/-- A row of the chat list is made of a chat document. -/
theorem conversation_id {d : QueryDocument} {chat : Chat} (h : conversation d = some chat) :
    chat.id = d.documentID := by
  obtain ⟨name, _, hchat⟩ := Option.bind_eq_some_iff.mp h
  obtain rfl := Option.some.inj hchat
  rfl

/-- Taking over member documents keeps the remembered colours on the picker. -/
theorem MessagesScreen.OptionsPicked.loadUserOptions {screen : MessagesScreen}
    (h : screen.OptionsPicked) {documents : List QueryDocument}
    (hdocs : ∀ d ∈ documents, MemberSchema d.data) :
    (screen.loadUserOptions (.ok documents)).screen.OptionsPicked := by
  change (documents.foldl MessagesScreen.loadUserOption screen).OptionsPicked
  induction documents generalizing screen with
  | nil => exact h
  | cons d documents ih =>
    exact ih (h.loadUserOption (hdocs d List.mem_cons_self))
      (fun d' hd' => hdocs d' (List.mem_cons_of_mem d hd'))

/-- The colour of the details a member view shows is one. -/
theorem hexColour_of_loadMember {result : Snapshot (Option Document)} {details : MemberDetails}
    (h : loadMember result = some (some details)) : (hexColour details.colour).isSome := by
  cases result with
  | error e => cases Option.some.inj h
  | ok document =>
    obtain ⟨data, _, h⟩ := Option.bind_eq_some_iff.mp h
    obtain ⟨name, _, h⟩ := Option.bind_eq_some_iff.mp h
    obtain ⟨colour, _, h⟩ := Option.bind_eq_some_iff.mp h
    obtain ⟨rgb, hrgb, h⟩ := Option.bind_eq_some_iff.mp h
    obtain rfl := Option.some.inj (Option.some.inj h)
    exact Option.isSome_iff_exists.mpr ⟨rgb, hrgb⟩

/-- A snapshot has documents of a view, all with their schema. -/
structure TakenFrom (view snapshot : LocalDb) : Prop where
  schema : LocalSchema snapshot
  mem : ∀ path ∈ snapshot, path ∈ view

/-- The document that a callback of a view controller unwraps. The title is loaded once. -/
def ViewController.document : Listener → ViewController → Option DocPath
  | .loadTitle, .messages k => if k.titleLoading then k.chatId.map .chat else none
  | .loadChatOptions, .messages k => k.chatId.map .chat
  | .loadValidMembers, .groupMembers k => k.chatId.map .chat
  | .loadMember, .memberView k => do
    let chat ← k.chatId
    let member ← k.memberId
    return .member chat member
  | _, _ => none

/-- A view controller is handed a snapshot without the document that the callback unwraps. -/
def ViewController.Lacks (listener : Listener) (snapshot : Snapshot LocalDb)
    (k : ViewController) : Prop :=
  ∃ path v, k.document listener = some path ∧ snapshot = .ok v ∧ path ∉ v

/-- The document a snapshot lacks. -/
theorem localDocument_eq_none {view : LocalDb} {path : DocPath} (h : path ∉ view) :
    localDocument view path = none := by
  rw [localDocument, AList.lookup_eq_none.mpr h, Option.map_none]

/-- **A callback that does not find its document traps.** -/
theorem ViewController.Lacks.told_eq {listener : Listener} {snapshot : Snapshot LocalDb}
    {k : ViewController} (hlacks : k.Lacks listener snapshot) :
    k.told listener snapshot = some none := by
  obtain ⟨path, v, hdocument, rfl, hpath⟩ := hlacks
  have hnone := localDocument_eq_none hpath
  unfold ViewController.document at hdocument
  split at hdocument
  case h_1 k =>
    obtain ⟨hloading, hdocument⟩ := Option.ite_none_right_eq_some.mp hdocument
    obtain ⟨chat, hchat, rfl⟩ := Option.map_eq_some_iff.mp hdocument
    simp [ViewController.told, MessagesController.told, hchat, hloading, Except.map,
      MessagesScreen.loadTitle, hnone]
  case h_2 k =>
    obtain ⟨chat, hchat, rfl⟩ := Option.map_eq_some_iff.mp hdocument
    simp [ViewController.told, MessagesController.told, hchat, Except.map,
      MessagesScreen.loadChatOptions, hnone]
  case h_3 k =>
    obtain ⟨chat, hchat, rfl⟩ := Option.map_eq_some_iff.mp hdocument
    simp [ViewController.told, GroupMembersController.told, hchat, Except.map,
      GroupMembersScreen.loadValidMembers, hnone]
  case h_4 k =>
    obtain ⟨chatId, memberId, queued, shown⟩ := k
    obtain ⟨chat, rfl, hdocument⟩ := Option.bind_eq_some_iff.mp hdocument
    obtain ⟨member, rfl, hdocument⟩ := Option.bind_eq_some_iff.mp hdocument
    obtain rfl := Option.some.inj hdocument
    simp [ViewController.told, MemberController.told, Except.map, loadMember, hnone]
  case h_5 => cases hdocument

/-- The document that a callback of a sound view controller unwraps is shown to the client while
its account is signed in. -/
theorem ViewController.Sound.document_mem {view : LocalDb} {k : ViewController}
    (hk : k.Sound view) {listener : Listener} {path : DocPath}
    (hdocument : k.document listener = some path) : path ∈ view := by
  unfold ViewController.document at hdocument
  split at hdocument
  case h_1 k =>
    obtain ⟨_, hdocument⟩ := Option.ite_none_right_eq_some.mp hdocument
    obtain ⟨chat, hchat, hshown⟩ := MessagesController.Sound.opened hk
    rw [hchat] at hdocument
    exact Option.some.inj hdocument ▸ hshown
  case h_2 k =>
    obtain ⟨chat, hchat, hshown⟩ := MessagesController.Sound.opened hk
    rw [hchat] at hdocument
    exact Option.some.inj hdocument ▸ hshown
  case h_3 k =>
    obtain ⟨chat, hchat, hshown⟩ := GroupMembersController.Sound.opened hk
    rw [hchat] at hdocument
    exact Option.some.inj hdocument ▸ hshown
  case h_4 k =>
    obtain ⟨chat, member, hchat, hmember, _, hshown⟩ := MemberController.Sound.opened hk
    rw [hchat, hmember] at hdocument
    exact Option.some.inj hdocument ▸ hshown
  case h_5 => cases hdocument

/-- An answer of one view controller as an answer of the storyboard's. -/
theorem ViewController.exists_of_map {α : Type} {wrap : α → ViewController}
    {answer : Option (Option α)} {result : Option ViewController} {P : α → Prop}
    {Q : ViewController → Prop} {trapped : Prop} (h : answer.map (Option.map wrap) = some result)
    (hanswer : ∀ r, answer = some r → (∃ k, r = some k ∧ P k) ∨ r = none ∧ trapped)
    (hwrap : ∀ k, P k → Q (wrap k)) :
    (∃ k, result = some k ∧ Q k) ∨ result = none ∧ trapped := by
  obtain ⟨r, hr, rfl⟩ := Option.map_eq_some_iff.mp h
  rcases hanswer r hr with ⟨k, rfl, hk⟩ | ⟨rfl, htrapped⟩
  · exact .inl ⟨wrap k, rfl, hwrap k hk⟩
  · exact .inr ⟨rfl, htrapped⟩

section told

variable {view : LocalDb} {listener : Listener} {snapshot : Snapshot LocalDb}
  (hsnapshot : ∀ v, snapshot = .ok v → TakenFrom view v)
include hsnapshot

theorem ContactsController.Sound.told {k : ContactsController} (hk : k.Sound view)
    {result : Option ContactsController} (h : k.told listener snapshot = some result) :
    ∃ k', result = some k' ∧ k'.Sound view := by
  unfold ContactsController.told at h
  split at h
  case h_2 => cases h
  case h_1 safeEmail huser =>
    obtain rfl := (Option.some.inj h).symm
    cases snapshot with
    | error e => exact ⟨_, rfl, hk.rows, hk.listed⟩
    | ok v =>
      have hv := hsnapshot v rfl
      obtain ⟨table, htable⟩ := hv.schema.readersSafe.chatList safeEmail k.table
      refine ⟨_, Option.map_eq_some_iff.mpr ⟨_, htable, rfl⟩, ?_⟩
      obtain ⟨chats, hchats, rfl⟩ := loadChats_eq_some.mp htable
      refine ⟨rfl, ?_⟩
      intro chat hchat
      obtain ⟨d, hd, hread⟩ := PartialLoops.mem_of_mapM hchats hchat
      obtain ⟨d', hd', _⟩ := mem_localChatsOf.mp hd
      rw [conversation_id hread]
      exact hv.mem _ (DocumentStore.mem_of_lookup hd')

theorem MessagesController.Sound.told {k : MessagesController} (hk : k.Sound view)
    {result : Option MessagesController} (h : k.told listener snapshot = some result) :
    (∃ k', result = some k' ∧ k'.Sound view) ∨
      result = none ∧ ViewController.Lacks listener snapshot (.messages k) := by
  obtain ⟨chatId, chatColour, title, hexColourString, screen, titleLoading, listening⟩ := k
  obtain ⟨⟨chat, rfl, hshown⟩, hcolour, hoptions⟩ := hk
  have hopened : OpenedOn view (some chat) := ⟨chat, rfl, hshown⟩
  cases listener with
  | loadTitle =>
    cases titleLoading with
    | false => cases h
    | true =>
      obtain rfl := (Option.some.inj h).symm
      cases snapshot with
      | error e => exact .inl ⟨_, rfl, hopened, hcolour, hoptions⟩
      | ok v =>
        by_cases hchat : DocPath.chat chat ∈ v
        · obtain ⟨name, hname⟩ := (hsnapshot v rfl).schema.readersSafe.title chat hchat
          refine .inl ⟨_, Option.map_eq_some_iff.mpr ⟨_, hname, rfl⟩, ?_⟩
          exact ⟨hopened, hcolour, hoptions⟩
        · have hlacks : ViewController.Lacks .loadTitle (.ok v) (.messages ⟨some chat, chatColour,
              title, hexColourString, screen, true, listening⟩) := ⟨_, v, rfl, rfl, hchat⟩
          exact .inr ⟨by simp [Except.map, MessagesScreen.loadTitle,
            localDocument_eq_none hchat], hlacks⟩
  | loadChatOptions =>
    obtain rfl := (Option.some.inj h).symm
    cases snapshot with
    | error e =>
      obtain ⟨rgb, hrgb⟩ := Option.isSome_iff_exists.mp hcolour
      refine .inl ⟨_, Option.map_eq_some_iff.mpr ⟨hexColourString, ?_, rfl⟩, ?_⟩
      · simp [Except.map, MessagesScreen.loadChatOptions, hrgb]
      · exact ⟨hopened, hcolour, hoptions⟩
    | ok v =>
      by_cases hchat : DocPath.chat chat ∈ v
      · obtain ⟨hex, hhex, hcolour'⟩ :=
          (hsnapshot v rfl).schema.readersSafe.chatOptions chat hchat hexColourString
        refine .inl ⟨_, Option.map_eq_some_iff.mpr ⟨_, hhex, rfl⟩, ?_⟩
        exact ⟨hopened, hcolour', hoptions⟩
      · have hlacks : ViewController.Lacks .loadChatOptions (.ok v) (.messages ⟨some chat,
            chatColour, title, hexColourString, screen, titleLoading, listening⟩) :=
          ⟨_, v, rfl, rfl, hchat⟩
        exact .inr ⟨by simp [Except.map, MessagesScreen.loadChatOptions,
          localDocument_eq_none hchat], hlacks⟩
  | loadUserOptions =>
    obtain rfl := (Option.some.inj h).symm
    refine .inl ⟨_, rfl, hopened, hcolour, ?_⟩
    cases snapshot with
    | error e => exact hoptions
    | ok v =>
      exact hoptions.loadUserOptions fun d hd =>
        (hsnapshot v rfl).schema.member (mem_localUsersOf.mp hd)
  | loadMessages =>
    cases listening with
    | false => cases h
    | true =>
      obtain rfl := (Option.some.inj h).symm
      cases snapshot with
      | error e => exact .inl ⟨_, rfl, hopened, hcolour, hoptions⟩
      | ok v =>
        obtain ⟨screen', hscreen⟩ := (hsnapshot v rfl).schema.readersSafe.messages chat screen
        refine .inl ⟨_, Option.map_eq_some_iff.mpr ⟨_, hscreen, rfl⟩, hopened, hcolour, ?_⟩
        obtain ⟨messages, _, rfl⟩ := MessagesScreen.mapM_of_loadMessages hscreen
        simpa [MessagesScreen.OptionsPicked] using hoptions
  | _ => cases h

theorem GroupMembersController.Sound.told {k : GroupMembersController} (hk : k.Sound view)
    {result : Option GroupMembersController} (h : k.told listener snapshot = some result) :
    (∃ k', result = some k' ∧ k'.Sound view) ∨
      result = none ∧ ViewController.Lacks listener snapshot (.groupMembers k) := by
  obtain ⟨chatId, table, selectedRow⟩ := k
  obtain ⟨⟨chat, rfl, hshown⟩, hrows, hlisted, hcolours⟩ := hk
  have hopened : OpenedOn view (some chat) := ⟨chat, rfl, hshown⟩
  cases listener with
  | loadValidMembers =>
    obtain rfl := (Option.some.inj h).symm
    cases snapshot with
    | error e => exact .inl ⟨_, rfl, hopened, hrows, hlisted, hcolours⟩
    | ok v =>
      by_cases hchat : DocPath.chat chat ∈ v
      · obtain ⟨table', htable⟩ :=
          (hsnapshot v rfl).schema.readersSafe.validMembers chat hchat table
        refine .inl ⟨_, Option.map_eq_some_iff.mpr ⟨_, htable, rfl⟩, ?_⟩
        obtain ⟨d, users, _, _, rfl⟩ := loadValidMembers_eq_some.mp htable
        exact ⟨hopened, hrows, hlisted, hcolours⟩
      · have hlacks : ViewController.Lacks .loadValidMembers (.ok v)
            (.groupMembers ⟨some chat, table, selectedRow⟩) := ⟨_, v, rfl, rfl, hchat⟩
        exact .inr ⟨by simp [Except.map, GroupMembersScreen.loadValidMembers,
          localDocument_eq_none hchat], hlacks⟩
  | loadMembers =>
    change (if table.chatMemberArray.isSome then _ else none) = some result at h
    split at h
    case isFalse => cases h
    case isTrue =>
      obtain rfl := (Option.some.inj h).symm
      cases snapshot with
      | error e => exact .inl ⟨_, rfl, hopened, hrows, hlisted, hcolours⟩
      | ok v =>
        have hv := hsnapshot v rfl
        obtain ⟨table', htable, hcolours'⟩ := hv.schema.readersSafe.members chat table
        refine .inl ⟨_, Option.map_eq_some_iff.mpr ⟨_, htable, rfl⟩, ?_⟩
        obtain ⟨members, hmembers, rfl⟩ := loadMembers_eq_some.mp htable
        refine ⟨hopened, rfl, ?_, hcolours'⟩
        intro chat' hchat' user huser
        obtain rfl := Option.some.inj hchat'
        obtain ⟨d, hd, hread⟩ := PartialLoops.mem_of_mapM hmembers (List.mem_of_mem_filter huser)
        obtain ⟨d', hd', _⟩ := Option.map_eq_some_iff.mp (mem_localUsersOf.mp hd)
        exact ⟨d.documentID, chatMember_email hread, hv.mem _ (DocumentStore.mem_of_lookup hd')⟩
  | _ => cases h

theorem MemberController.Sound.told {k : MemberController} (hk : k.Sound view)
    {result : Option MemberController} (h : k.told listener snapshot = some result) :
    (∃ k', result = some k' ∧ k'.Sound view) ∨
      result = none ∧ ViewController.Lacks listener snapshot (.memberView k) := by
  obtain ⟨chatId, memberId, queued, shown⟩ := k
  obtain ⟨⟨chat, member, rfl, rfl, hchat, hmember⟩, hqueued⟩ := hk
  cases listener with
  | loadMember =>
    obtain rfl := (Option.some.inj h).symm
    have hanswer : (∃ details, loadMember
        (snapshot.map (localDocument · (.member chat member))) = some details) ∨
        ∃ v, snapshot = .ok v ∧ DocPath.member chat member ∉ v := by
      cases snapshot with
      | error e => exact .inl ⟨none, rfl⟩
      | ok v =>
        by_cases hshown : DocPath.member chat member ∈ v
        · obtain ⟨details, hdetails⟩ :=
            (hsnapshot v rfl).schema.readersSafe.member chat member hshown
          exact .inl ⟨some details, hdetails⟩
        · exact .inr ⟨v, rfl, hshown⟩
    rcases hanswer with ⟨details, hdetails⟩ | ⟨v, rfl, hlacking⟩
    · refine .inl ⟨_, Option.map_eq_some_iff.mpr ⟨_, hdetails, rfl⟩,
        ⟨chat, member, rfl, rfl, hchat, hmember⟩, ?_⟩
      intro details' hdetails'
      rcases List.mem_append.mp hdetails' with hold | hnew
      · exact hqueued details' hold
      · obtain rfl := Option.mem_toList.mp hnew
        exact hexColour_of_loadMember hdetails
    · have hlacks : ViewController.Lacks .loadMember (.ok v)
          (.memberView ⟨some chat, some member, queued, shown⟩) := ⟨_, v, rfl, rfl, hlacking⟩
      exact .inr ⟨by simp [Except.map, loadMember, localDocument_eq_none hlacking], hlacks⟩
  | _ => cases h

theorem AddUserController.Sound.told {k : AddUserController} (hk : k.Sound view)
    {result : Option AddUserController} (h : k.told listener snapshot = some result) :
    ∃ k', result = some k' ∧ k'.Sound view := by
  cases listener with
  | loadUsers =>
    change (if k.table.loading then _ else none) = some result at h
    split at h
    case isFalse => cases h
    case isTrue hloading =>
      obtain rfl := (Option.some.inj h).symm
      have hnext : AddUserScreen.next (fun _ _ => true) k.table
          (.loadUsers (snapshot.map localProfiles)) =
            some (AddUserScreen.loadUsers (snapshot.map localProfiles)
              { k.table with loading := false }) := by
        rw [AddUserScreen.next, if_pos hloading]
      have htable := hk.table.next hnext
      cases snapshot with
      | error e => exact ⟨_, rfl, hk.opened, htable, hk.named, hk.listed⟩
      | ok v =>
        have hv := hsnapshot v rfl
        refine ⟨_, rfl, hk.opened, htable, ?_, fun _ huser => huser⟩
        intro user huser
        rcases List.mem_append.mp huser with hold | hnew
        · exact hk.named user hold
        · obtain ⟨d, hd, rfl⟩ := List.mem_map.mp hnew
          obtain ⟨ws, hws⟩ := hv.schema.readersSafe.profiles d hd (some "")
          obtain ⟨email, name, hemail, hname, _⟩ := addNewUser_eq_some.mp hws
          obtain rfl : d.documentID = email := Option.some.inj hemail
          obtain ⟨d', hd', _⟩ := Option.map_eq_some_iff.mp (mem_localProfiles.mp hd)
          exact ⟨d.documentID, name, hemail, hname, hv.mem _ (DocumentStore.mem_of_lookup hd')⟩
  | _ => cases h

/-- **What a callback does**: a view controller stays sound, or the snapshot lacks the document that
the callback unwraps. -/
theorem ViewController.Sound.told {k : ViewController} (hk : k.Sound view)
    {result : Option ViewController} (h : k.told listener snapshot = some result) :
    (∃ k', result = some k' ∧ k'.Sound view) ∨ result = none ∧ k.Lacks listener snapshot := by
  cases k with
  | contacts k =>
    exact exists_of_map h (fun _ hr => .inl (ContactsController.Sound.told hsnapshot hk hr))
      fun _ hk' => hk'
  | messages k =>
    exact exists_of_map h (fun _ => MessagesController.Sound.told hsnapshot hk) fun _ hk' => hk'
  | groupMembers k =>
    exact exists_of_map h (fun _ => GroupMembersController.Sound.told hsnapshot hk)
      fun _ hk' => hk'
  | memberView k =>
    exact exists_of_map h (fun _ => MemberController.Sound.told hsnapshot hk) fun _ hk' => hk'
  | addUser k =>
    exact exists_of_map h (fun _ hr => .inl (AddUserController.Sound.told hsnapshot hk hr))
      fun _ hk' => hk'
  | _ => cases h

end told

/-! ## Taps -/

/-- What an app asks of Firebase on an event that generates an identifier or none: a client signs
in to its account, and a screen acts on documents that the client is shown. -/
def Event.Grounded (view : LocalDb) (owner : Email) (generated : Option String) : Event → Prop
  | .signIn _ account | .register _ account _ => account = owner
  | .signOut _ => True
  | .call _ made => made.byUser = true ∧ (∀ path ∈ made.target, path ∈ view) ∧
      (∀ id ∈ made.generatedId, generated = some id) ∧
      ∀ colour ∈ made.pickedColour, colour ∈ pickerColours
  | .commit _ _ | .reject _ | .complete _ _ => False

/-- A call on a document that the client is shown. -/
theorem Event.Grounded.of_target {view : LocalDb} {c : ClientId} {owner : Email}
    {generated : Option String} {made : Call} {path : DocPath} (hbyUser : made.byUser = true)
    (htarget : made.target = some path) (hshown : path ∈ view) (hid : made.generatedId = generated)
    (hcolour : ∀ colour ∈ made.pickedColour, colour ∈ pickerColours) :
    (Event.call c made).Grounded view owner generated := by
  refine ⟨hbyUser, ?_, fun _ hgenerated => hid ▸ hgenerated, hcolour⟩
  intro path' hpath'
  obtain rfl : path = path' := Option.some.inj (htarget.symm.trans hpath')
  exact hshown

/-- A view controller that is pushed keeps to what its client is shown. -/
def Navigation.Sound (view : LocalDb) : Navigation → Prop
  | .push k => k.Sound view
  | .stay | .pop | .popToRoot | .present => True

/-- An answer of a sound view controller keeps to what its client is shown. -/
structure Answer.Sound (view : LocalDb) (c : ClientId) (owner : Email) (generated : Option String)
    (answer : Answer) : Prop where
  self : answer.self.Sound view
  navigation : answer.navigation.Sound view
  request : ∀ e ∈ answer.request, e.client = c ∧ e.Grounded view owner generated

/-- **An edit of the search field does not trap**, and lists users that were fetched. -/
theorem AddUserController.Sound.textFieldDidChange {contains : String → String → Bool}
    {view : LocalDb} {k : AddUserController} (hk : k.Sound view) (text : String) :
    ∃ table, AddUserScreen.next contains k.table (.textFieldDidChange text) = some table ∧
      AddUserController.Sound view { k with table := table } := by
  have hedited : AddUserScreen.Sound { k.table with searchText := text } :=
    ⟨hk.table.named, hk.table.rows, hk.table.empty⟩
  have hnext : AddUserScreen.next contains k.table (.textFieldDidChange text) =
      some (AddUserScreen.updateTableView { k.table with
        searchText := text
        possibleUsers := k.table.totalUsers.filter (AddUserScreen.found contains text) }) :=
    AddUserScreen.updatePossibleUsers_eq hedited text
  refine ⟨_, hnext, hk.opened, hk.table.next hnext, hk.named, ?_⟩
  intro user huser
  exact List.mem_of_mem_filter huser

namespace ViewController

variable {view : LocalDb} {c : ClientId} {owner : Email} {k : ViewController}

/-- A view controller takes the chat over from the one it is opened from. -/
theorem Sound.prepare (hk : k.Sound view) {id : ℕ} {s : Segue} {next : ViewController}
    (h : k.prepare id s = some next) : next.Sound view := by
  unfold ViewController.prepare at h
  split at h
  case h_5 k => exact Option.some.inj h ▸ MessagesController.Sound.opened hk
  case h_6 chatId =>
    obtain rfl := Option.some.inj h
    exact ⟨hk, .opened, by simp, by simp⟩
  case h_7 chatId =>
    obtain rfl := Option.some.inj h
    exact ⟨hk, rfl, by simp, by simp⟩
  case h_9 => cases h
  all_goals
    obtain rfl := Option.some.inj h
    trivial

/-- The picked colour is used on a document that the client is shown. -/
theorem Sound.useColour (hk : k.Sound view) {colour : String} (hcolour : colour ∈ pickerColours)
    {e : Event} (he : k.useColour c colour = some e) :
    e.client = c ∧ e.Grounded view owner none := by
  have hpicked : ∀ colour' ∈ some colour, colour' ∈ pickerColours := by
    rintro _ ⟨⟩
    exact hcolour
  cases k with
  | chatSettings chatId =>
    obtain ⟨chat, rfl, hshown⟩ := hk
    obtain rfl := Option.some.inj he
    exact ⟨rfl, .of_target rfl rfl hshown rfl hpicked⟩
  | memberView k =>
    obtain ⟨chatId, memberId, queued, shown⟩ := k
    obtain ⟨⟨chat, member, rfl, rfl, _, hmember⟩, _⟩ := hk
    obtain rfl := Option.some.inj he
    exact ⟨rfl, .of_target rfl rfl hmember rfl hpicked⟩
  | _ => cases he

/-- The user name is changed in a document that the client is shown. -/
theorem Sound.updateUserName (hk : k.Sound view) {newUserName : String} {e : Event}
    (he : k.updateUserName c newUserName = some e) : e.client = c ∧ e.Grounded view owner none := by
  cases k with
  | memberView k =>
    obtain ⟨chatId, memberId, queued, shown⟩ := k
    obtain ⟨⟨chat, member, rfl, rfl, _, hmember⟩, _⟩ := hk
    obtain rfl := Option.some.inj he
    exact ⟨rfl, .of_target rfl rfl hmember rfl (by simp [Call.pickedColour])⟩
  | _ => cases he

/-- **A row opens what it shows.** -/
theorem Sound.didSelectRowAt (hk : k.Sound view) {id row : ℕ} {answer : Answer}
    (h : k.didSelectRowAt c id row = some (some answer)) : answer.Sound view c owner none := by
  cases k with
  | contacts k =>
    obtain ⟨currentUser, table, selectedChatId⟩ := k
    obtain ⟨hrows, hlisted⟩ := hk
    obtain ⟨_, h⟩ := Option.ite_none_right_eq_some.mp h
    obtain ⟨chat, hchat, hanswer⟩ := Option.bind_eq_some_iff.mp (Option.some.inj h)
    obtain rfl := Option.some.inj hanswer
    refine ⟨⟨hrows, hlisted⟩, ?_, by simp⟩
    refine ⟨⟨_, rfl, hlisted chat (List.mem_of_getElem? hchat)⟩, hexColour_fallbacks.1, ?_⟩
    intro email colour hcolour
    cases hcolour
  | groupMembers k =>
    obtain ⟨chatId, table, selectedRow⟩ := k
    obtain ⟨⟨chat, rfl, hshown⟩, hrows, hlisted, hcolours⟩ := hk
    obtain ⟨_, h⟩ := Option.ite_none_right_eq_some.mp h
    obtain ⟨next, hnext, hanswer⟩ := Option.bind_eq_some_iff.mp (Option.some.inj h)
    obtain rfl := Option.some.inj hanswer
    refine ⟨⟨⟨chat, rfl, hshown⟩, hrows, hlisted, hcolours⟩, ?_, by simp⟩
    obtain ⟨_, _, user, member, hchat, hrow, huser, hemail, _, rfl⟩ :=
      prepareMemberView_eq_some.mp hnext
    obtain rfl := Option.some.inj hchat
    obtain rfl := Option.some.inj hrow
    obtain ⟨member', hemail', hmember⟩ := hlisted chat rfl user (List.mem_of_getElem? huser)
    obtain rfl := Option.some.inj (hemail.symm.trans hemail')
    exact ⟨⟨chat, member, rfl, rfl, hshown, hmember⟩, by simp⟩
  | memberView k =>
    obtain rfl := Option.some.inj (Option.some.inj h)
    refine ⟨hk, ?_, by simp⟩
    dsimp only
    split
    case isTrue => trivial
    case isFalse => split <;> trivial
  | addUser k =>
    obtain ⟨chatId, table⟩ := k
    have hself : ViewController.Sound view (.addUser ⟨chatId, table⟩) := hk
    obtain ⟨⟨chat, rfl, hshown⟩, _, _, _⟩ := hk
    obtain ⟨_, h⟩ := Option.ite_none_right_eq_some.mp h
    obtain ⟨user, _, hanswer⟩ := Option.bind_eq_some_iff.mp (Option.some.inj h)
    obtain rfl := Option.some.inj hanswer
    refine ⟨hself, trivial, ?_⟩
    intro e he
    obtain rfl := Option.some.inj he
    exact ⟨rfl, .of_target rfl rfl hshown rfl (by simp [Call.pickedColour])⟩
  | _ => cases h

/-- **A tap keeps to what the client is shown.** -/
theorem Sound.tap {contains : String → String → Bool} {controllers : List ViewController}
    (hk : k.Sound view) (hcontrollers : ∀ k ∈ controllers, k.Sound view) {id : ℕ} {t : Tap}
    {answer : Answer} (h : k.tap contains c controllers id t = some (some answer)) :
    answer.Sound view c owner (AppEvent.tap t).generatedId := by
  cases t with
  | segue s =>
    obtain ⟨next, hnext, hanswer⟩ := Option.map_eq_some_iff.mp h
    obtain rfl := Option.some.inj hanswer
    exact ⟨hk, hk.prepare hnext, by simp⟩
  | back =>
    obtain rfl := Option.some.inj (Option.some.inj h)
    exact ⟨hk, trivial, by simp⟩
  | didSelectRowAt row => exact hk.didSelectRowAt h
  | loginButtonPressed =>
    cases k with
    | login requests =>
      obtain rfl := Option.some.inj (Option.some.inj h)
      exact ⟨trivial, trivial, by simp⟩
    | _ => cases h
  | registerButtonPressed =>
    cases k with
    | register requests =>
      obtain rfl := Option.some.inj (Option.some.inj h)
      exact ⟨trivial, trivial, by simp⟩
    | _ => cases h
  | createButtonPressed newChatRef name =>
    cases k with
    | createChat =>
      obtain rfl := Option.some.inj (Option.some.inj h)
      refine ⟨trivial, trivial, ?_⟩
      intro e he
      obtain rfl := Option.some.inj he
      exact ⟨rfl, rfl, by simp [Call.target], fun _ hid => hid, by simp [Call.pickedColour]⟩
    | _ => cases h
  | logoutButtonPressed signOutSuccess =>
    cases k with
    | appSettings =>
      cases signOutSuccess with
      | false => cases h
      | true =>
        obtain rfl := Option.some.inj (Option.some.inj h)
        refine ⟨trivial, trivial, ?_⟩
        intro e he
        obtain rfl := Option.some.inj he
        exact ⟨rfl, trivial⟩
    | _ => cases h
  | sendButtonPressed messageId text =>
    cases k with
    | messages k =>
      obtain rfl := Option.some.inj (Option.some.inj h)
      refine ⟨hk, trivial, ?_⟩
      obtain ⟨chat, hchat, hshown⟩ := MessagesController.Sound.opened hk
      intro e he
      rw [hchat] at he
      obtain rfl := Option.some.inj he
      exact ⟨rfl, .of_target rfl rfl hshown rfl (by simp [Call.pickedColour])⟩
    | _ => cases h
  | textFieldDidChange text =>
    cases k with
    | addUser k =>
      obtain ⟨table, htable, hsound⟩ := AddUserController.Sound.textFieldDidChange hk text
      obtain ⟨table', htable', rfl⟩ := Option.map_eq_some_iff.mp (Option.some.inj h)
      obtain rfl := Option.some.inj (htable.symm.trans htable')
      exact ⟨hsound, trivial, by simp⟩
    | _ => cases h
  | removeButtonPressed =>
    cases k with
    | memberView k =>
      obtain rfl := Option.some.inj (Option.some.inj h)
      refine ⟨hk, trivial, ?_⟩
      obtain ⟨chatId, memberId, queued, shown⟩ := k
      obtain ⟨⟨chat, member, rfl, rfl, hchat, _⟩, _⟩ := hk
      intro e he
      obtain rfl := Option.some.inj he
      exact ⟨rfl, .of_target rfl rfl hchat rfl (by simp [Call.pickedColour])⟩
    | _ => cases h
  | colourButtonPressed currentTitle =>
    cases k with
    | colourPicker delegate =>
      obtain ⟨hpicked, h⟩ := Option.ite_none_right_eq_some.mp h
      obtain rfl := Option.some.inj (Option.some.inj h)
      refine ⟨trivial, trivial, ?_⟩
      intro e he
      obtain ⟨k, hdelegate, hcolour⟩ := Option.bind_eq_some_iff.mp he
      exact (hcontrollers k (List.mem_of_getElem? hdelegate)).useColour hpicked hcolour
    | _ => cases h

/-- Laying out a row changes nothing but the cells of the messages screen. -/
theorem Sound.layoutRow (hk : k.Sound view) {row : ℕ} {k' : ViewController}
    (h : k.layoutRow row = some (some k')) : k'.Sound view := by
  cases k with
  | contacts k =>
    change (if row < k.table.rowCount then _ else none) = _ at h
    split at h
    case isFalse => cases h
    case isTrue =>
      obtain ⟨_, _, rfl⟩ := Option.map_eq_some_iff.mp (Option.some.inj h)
      exact hk
  | messages k =>
    change (if row < k.screen.rowCount then _ else none) = _ at h
    split at h
    case isFalse => cases h
    case isTrue =>
      obtain ⟨screen, hscreen, rfl⟩ := Option.map_eq_some_iff.mp (Option.some.inj h)
      obtain ⟨_, cell, _, rfl⟩ := MessagesScreen.layoutRow_eq_some.mp hscreen
      have hk : k.Sound view := hk
      exact ⟨hk.opened, hk.colour, hk.options⟩
  | groupMembers k =>
    change (if row < k.table.rowCount then _ else none) = _ at h
    split at h
    case isFalse => cases h
    case isTrue =>
      obtain ⟨_, _, rfl⟩ := Option.map_eq_some_iff.mp (Option.some.inj h)
      exact hk
  | addUser k =>
    change (if row < k.table.rows.length then _ else none) = _ at h
    split at h
    case isFalse => cases h
    case isTrue =>
      obtain ⟨_, _, rfl⟩ := Option.map_eq_some_iff.mp (Option.some.inj h)
      exact hk
  | _ => cases h

end ViewController

end MessagingApp
