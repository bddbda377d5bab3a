import MessagingApp.Writers

/-!
# The snapshot handlers of the screens

One definition for each closure the app hands to Firestore, acting on the part of
the screen it touches. A handler returns `none` where the app would trap: a
failed `as!`, an unwrapped `nil`, an index out of range. Table views are modelled
by the row count of their last reload and by the rows they have asked for since.
-/

namespace MessagingApp

/-- What a listener is handed: an error or a snapshot. -/
abbrev Snapshot (α : Type) := Except String α

/-- The methods that register listeners and requests with Firestore. -/
inductive Listener
  | loadChats
  | loadTitle
  | loadChatOptions
  | loadUserOptions
  | loadMessages
  | loadValidMembers
  | loadMembers
  | loadMember
  | loadUsers
  deriving DecidableEq

/-- What a closure leaves that calls such methods itself: the screen and the methods called. -/
structure Handled (S : Type) where
  screen : S
  called : List Listener := []

/-- How many listeners the calls of a method register. Without a chat identifier the methods of
`MessagesManager` and `GroupMembersModel` register none. -/
def Handled.registers {S : Type} (handled : Handled S) (chatId : Option ChatId)
    (method : Listener) : ℕ :=
  if chatId.isSome then handled.called.count method else 0

@[simp] theorem Handled.registers_called {S : Type} (screen : S) (chat : ChatId)
    (method : Listener) :
    Handled.registers { screen := screen, called := [method] } (some chat) method = 1 := by
  simp [Handled.registers]

@[simp] theorem Handled.registers_nil {S : Type} (screen : S) (chatId : Option ChatId)
    (method : Listener) : Handled.registers { screen := screen } chatId method = 0 := by
  simp [Handled.registers]

/-! ## Colours -/

/-- The UTF-16 code units of a string, which is what `NSString` indexes. -/
def utf16Units (s : String) : List ℕ :=
  s.toList.flatMap fun c =>
    if c.toNat < 0x10000 then [c.toNat]
    else [0xD800 + (c.toNat - 0x10000) / 0x400, 0xDC00 + (c.toNat - 0x10000) % 0x400]

/-- The value of a hexadecimal digit. -/
def hexDigit (u : ℕ) : Option ℕ :=
  if 48 ≤ u ∧ u ≤ 57 then some (u - 48)
  else if 65 ≤ u ∧ u ≤ 70 then some (u - 55)
  else if 97 ≤ u ∧ u ≤ 102 then some (u - 87)
  else none

/-- `hexValueToUnsigned` on two digits: the digits up to the first that is not hexadecimal. -/
def hexValueToUnsigned (a b : ℕ) : ℕ :=
  match hexDigit a, hexDigit b with
  | some x, some y => 16 * x + y
  | some x, none => x
  | none, _ => 0

/-- `UIColor(hexString:)`: the red, green and blue components, or `nil` for an empty
string and for a string that is not three or six digits after an optional `#`. -/
def hexColour (string : String) : Option (ℕ × ℕ × ℕ) :=
  match utf16Units string with
  | [] => none
  | u :: us =>
    -- The source adds a missing `#` and then works on the units behind it.
    match if u = 35 then us else u :: us with
    | [r, g, b] =>
      some (hexValueToUnsigned r r, hexValueToUnsigned g g, hexValueToUnsigned b b)
    | [r, r', g, g', b, b'] =>
      some (hexValueToUnsigned r r', hexValueToUnsigned g g', hexValueToUnsigned b b')
    | _ => none

/-! ## The chat list -/

/-- `Chat`. -/
structure Chat where
  id : String := ""
  name : String := ""
  users : List String := []

/-- `ChatManager.chats` and the table of `ContactsViewController`. -/
structure ContactsScreen where
  chats : List Chat := []
  rowCount : ℕ := 0

/-- One iteration of the loop of `ChatManager.loadChats`. -/
def conversation (chat : QueryDocument) : Option Chat := do
  let name ← stringField chat.data .name
  return { id := chat.documentID, name := name }

/-- The listener of `ChatManager.loadChats`. -/
def ContactsScreen.loadChats (result : Snapshot (List QueryDocument)) (s : ContactsScreen) :
    Option ContactsScreen :=
  match result with
  | .error _ => some s
  | .ok documents => do
    let chats ← documents.mapM conversation
    return { chats := chats, rowCount := chats.length }

/-! ## The members of a chat -/

/-- `GroupMembersModel` and the title and table of its view controller. -/
structure GroupMembersScreen where
  chatMembers : List User := []
  chatMemberArray : Option (List Email) := none
  title : String := ""
  rowCount : ℕ := 0

/-- The listener of `GroupMembersModel.loadValidMembers`. When it succeeds it also calls
`loadMembers`, which registers one more listener on the `users` sub-collection. -/
def GroupMembersScreen.loadValidMembers (result : Snapshot (Option Document))
    (s : GroupMembersScreen) : Option (Handled GroupMembersScreen) :=
  match result with
  | .error _ => some { screen := s }
  | .ok chatDocument => do
    let data ← chatDocument
    let users ← stringsField data .users
    return { screen := { s with chatMemberArray := some users }, called := [.loadMembers] }

/-- The user made from a member document in the loop of `GroupMembersModel.loadMembers`. -/
def chatMember (document : QueryDocument) : Option User := do
  let colour ← stringField document.data .colour
  return {
    email := some document.documentID
    name := stringField document.data .name
    userName := stringField document.data .userName
    colour := some colour }

/-- Whether `chatMemberArray` is set and contains the user's email. -/
def isValidMember (chatMemberArray : Option (List Email)) (user : User) : Bool :=
  match chatMemberArray, user.email with
  | some safeChatMemberArray, some email => email ∈ safeChatMemberArray
  | _, _ => false

/-- `"Members (\(count))"`. -/
def membersTitle (count : ℕ) : String := "Members (" ++ toString count ++ ")"

/-- The listener of `GroupMembersModel.loadMembers`. -/
def GroupMembersScreen.loadMembers (result : Snapshot (List QueryDocument))
    (s : GroupMembersScreen) : Option GroupMembersScreen :=
  match result with
  | .error _ => some s
  | .ok documents => do
    let users ← documents.mapM chatMember
    let chatMembers := users.filter (isValidMember s.chatMemberArray)
    return { s with
      chatMembers := chatMembers
      title := membersTitle chatMembers.length
      rowCount := chatMembers.length }

/-- What `MemberViewModelDelegate.showMemberDetails` is called with. -/
structure MemberDetails where
  name : String
  userName : String
  colour : String

/-- The listener of `MemberViewModel.loadMember`, with the unwrapped colour of
`showMemberDetails`. An error shows nothing. -/
def loadMember (result : Snapshot (Option Document)) : Option (Option MemberDetails) :=
  match result with
  | .error _ => some none
  | .ok document => do
    let data ← document
    let name ← stringField data .name
    let colour ← stringField data .colour
    let _ ← hexColour colour
    return some ⟨name, (stringField data .userName).getD " ", colour⟩

/-- The user made from a profile in the loop of `AddUserManager.loadUsers`. -/
def listedUser (document : QueryDocument) : User :=
  { email := some document.documentID
    name := stringField document.data .name
    userName := stringField document.data .userName }

end MessagingApp
