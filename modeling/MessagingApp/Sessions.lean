import MessagingApp.MessagesScreen
import MessagingApp.Queries
import MessagingApp.Replay

/-!
# From the chat list to the send button

A message is sent from a messages screen, and a messages screen is opened from a
row of a chat list. This file runs the system together with these screens of every
device. A client is an account on a device, and the clients of a device share its
screens: signing in only shows one more chat list above the screens that are open
already, and the send button posts for whoever is signed in when it is pressed. The
snapshot listeners are handed any version of the database, in any order, under any
of the unanswered writes of the client they run for.
-/

namespace MessagingApp

abbrev DeviceId := ℕ

/-- `ContactsViewController`, with the user its `ChatManager` was made for. `listedFrom` is what
the list is made of. -/
structure ChatListScreen where
  currentUser : Option Email
  contacts : ContactsScreen := {}
  listedFrom : Db := ∅

/-- `MessagesViewController` of a chat. `openedFor` and `openedFrom` are the user of the chat
list and what the list was made of when its row was selected; `hexColourString` belongs to the
`loadChatOptions` listener, and `told` is the chat document that listener was handed last. -/
structure OpenChat where
  chatId : ChatId
  openedFor : Option Email
  openedFrom : Db
  hexColourString : String := MessagesScreen.initialHexColourString
  told : Option Document := none

/-- The messages screen that `prepare(for:sender:)` sets up for a row of a chat list. -/
def ChatListScreen.prepare (list : ChatListScreen) (chat : Chat) : OpenChat :=
  { chatId := chat.id, openedFor := list.currentUser, openedFrom := list.listedFrom }

/-- The screens on the way to the send button. -/
inductive OpenScreen
  | contacts (list : ChatListScreen)
  | messages (openChat : OpenChat)

/-- A message a client sent, with the screen it was sent from. -/
structure SentMessage where
  client : ClientId
  openChat : OpenChat
  id : MessageId

/-- The system with the earlier versions of the database, the screens of every device, the
topmost first, and the messages sent so far. -/
structure SessionsRun where
  past : List Db
  now : System
  screens : DeviceId → List OpenScreen
  sent : List SentMessage

/-- What can happen next. -/
inductive SessionEvent
  /-- Anything but sending a message, which goes through the send button. -/
  | system (e : Event)
  /-- The completion of `signIn` or of `createUser` shows a chat list to client `c`. -/
  | showContacts (c : ClientId)
  /-- The listener of `ChatManager.loadChats` of an open list is handed a snapshot. -/
  | listTold (c : ClientId) (screen version : ℕ) (own : List ℕ)
  /-- A row of the chat list is selected. -/
  | select (d : DeviceId) (row : ℕ)
  /-- The topmost screen is left. -/
  | leave (d : DeviceId)
  /-- `popToRootViewController` after a logout. -/
  | popToRoot (d : DeviceId)
  /-- The listener of `MessagesManager.loadChatOptions` of an open screen is handed a
  snapshot. -/
  | chatTold (c : ClientId) (screen version : ℕ) (own : List ℕ)
  /-- `sendButtonPressed`, which client `c` sends for. -/
  | sendButtonPressed (c : ClientId) (id : MessageId) (text : String)

/-- The event sends a message. -/
def Event.sends : Event → Bool
  | .call _ (.sendMessage _ _ _) => true
  | _ => false

/-- Every event but a rejected write. -/
def SessionEvent.accepted : SessionEvent → Bool
  | .system e => e.accepted
  | _ => true

/-- Whoever signs in on a device takes the place of the user who was signed in. -/
def System.replaceUser (device : ClientId → DeviceId) (e : Event) (s : System) : System :=
  match e with
  | .signIn c _ | .register c _ _ =>
    { s with
      clients := fun d =>
        if d ≠ c ∧ device d = device c then { s.clients d with currentUser := none }
        else s.clients d }
  | _ => s

/-- What an event does to the system. A screen may have stayed open while another account signed
in, so a call is not refused for acting on what its client was never shown. -/
def System.performOn (device : ClientId → DeviceId) (s : System) (e : Event) : Option System :=
  (s.perform e).map (replaceUser device e)

namespace SessionsRun

/-- No client has done anything. -/
def init : SessionsRun := { past := [], now := System.init, screens := fun _ => [], sent := [] }

/-- What a listener that runs for a client can be handed: a version of the database with the
unanswered writes at the places `own` of the client's queue laid over it. -/
def view (k : SessionsRun) (c : ClientId) (version : ℕ) (own : List ℕ) : Option Db := do
  let db ← (k.past ++ [k.now.db])[version]?
  let writes := own.filterMap fun place => (k.now.clients c).queue[place]?
  Runs.run apply db (writes.map fun p => (k.now.clock, p.write))

/-- Replace the screens of one device. -/
def withScreens (k : SessionsRun) (d : DeviceId) (screens : List OpenScreen) : SessionsRun :=
  { k with screens := Function.update k.screens d screens }

@[simp] theorem withScreens_self (k : SessionsRun) (d : DeviceId) (screens : List OpenScreen) :
    (k.withScreens d screens).screens d = screens := by
  simp [withScreens]

theorem withScreens_of_ne (k : SessionsRun) {d d' : DeviceId} (screens : List OpenScreen)
    (h : d' ≠ d) : (k.withScreens d screens).screens d' = k.screens d' := by
  simp [withScreens, h]

/-- Put a screen on top of the others. -/
def push (k : SessionsRun) (d : DeviceId) (screen : OpenScreen) : SessionsRun :=
  k.withScreens d (screen :: k.screens d)

/-- Replace one of the open screens. -/
def replace (k : SessionsRun) (d : DeviceId) (i : ℕ) (screen : OpenScreen) : SessionsRun :=
  k.withScreens d ((k.screens d).set i screen)

section device

variable (device : ClientId → DeviceId)

/-- One step of the system, which leaves every screen open. -/
def system (k : SessionsRun) (e : Event) : Option SessionsRun :=
  (k.now.performOn device e).map fun s => { k with past := k.past ++ [k.now.db], now := s }

/-- The listener of `loadChats` of the list `i`. -/
def listTold (k : SessionsRun) (c : ClientId) (i version : ℕ) (own : List ℕ) :
    Option SessionsRun :=
  match (k.screens (device c))[i]? with
  | some (.contacts list) => do
    let safeEmail ← list.currentUser
    let view ← k.view c version own
    let contacts ← list.contacts.loadChats (.ok (chatsOf safeEmail view))
    let told : ChatListScreen := { list with contacts := contacts, listedFrom := view }
    return k.replace (device c) i (.contacts told)
  | _ => none

/-- `didSelectRowAt` of the topmost screen opens the messages screen of the row's chat. -/
def select (k : SessionsRun) (d : DeviceId) (row : ℕ) : Option SessionsRun :=
  match k.screens d with
  | .contacts list :: _ => do
    let chat ← list.contacts.chats[row]?
    return k.push d (.messages (list.prepare chat))
  | _ => none

/-- The listener of `loadChatOptions` of the messages screen `i`. -/
def chatTold (k : SessionsRun) (c : ClientId) (i version : ℕ) (own : List ℕ) :
    Option SessionsRun :=
  match (k.screens (device c))[i]? with
  | some (.messages openChat) => do
    let view ← k.view c version own
    let document := view.lookup (.chat openChat.chatId)
    let hexColourString ← MessagesScreen.loadChatOptions (.ok document) openChat.hexColourString
    let told : OpenChat := { openChat with hexColourString := hexColourString, told := document }
    return k.replace (device c) i (.messages told)
  | _ => none

/-- `sendButtonPressed` of the topmost screen hands the text to `sendMessage`, which sends
nothing unless a user is signed in. -/
def sendButtonPressed (k : SessionsRun) (c : ClientId) (id : MessageId) (text : String) :
    Option SessionsRun :=
  match k.screens (device c) with
  | .messages openChat :: _ => do
    let s ← k.now.performOn device (.call c (.sendMessage openChat.chatId id text))
    let signedIn := (k.now.clients c).currentUser.isSome
    return { k with
      past := k.past ++ [k.now.db]
      now := s
      sent := k.sent ++ if signedIn then [⟨c, openChat, id⟩] else [] }
  | _ => none

/-- One step; `none` when the event cannot happen. -/
def next (k : SessionsRun) : SessionEvent → Option SessionsRun
  | .system e => if e.sends then none else k.system device e
  | .showContacts c =>
    some (k.push (device c) (.contacts { currentUser := (k.now.clients c).currentUser }))
  | .listTold c i version own => k.listTold device c i version own
  | .select d row => k.select d row
  | .leave d => some (k.withScreens d (k.screens d).tail)
  | .popToRoot d => some (k.withScreens d [])
  | .chatTold c i version own => k.chatTold device c i version own
  | .sendButtonPressed c id text => k.sendButtonPressed device c id text

/-- The states of the system and its screens, whatever the server accepts. -/
def Reachable (k : SessionsRun) : Prop :=
  Runs.Reachable (next device) (fun _ => True) SessionsRun.init k

end device

end SessionsRun

end MessagingApp
