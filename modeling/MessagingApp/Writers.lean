import MessagingApp.Firestore

/-!
# The writes the app issues

One definition for each method that writes, named as in the source. A method
returns the writes it issues, in order; `none` means that a forced unwrap fails
before they are all issued. Optional properties such as `chatId` are parameters.
References created without a name (`document()`, `addDocument`) take the
identifier Firestore generates as a parameter. An email names the document it is
passed for, which is what `document(_:)` does with an address that has no slash.
-/

namespace MessagingApp

/-- `K.db.defaults.chatColour`. -/
def defaultChatColour : String := "00CD42"

/-- `K.db.defaults.userColour`. -/
def defaultUserColour : String := "0A82E1"

/-- The titles of the buttons of the colour picker, which `colourButtonPressed`
hands on as the chosen colour. -/
def pickerColours : List String :=
  ["E6ECEE", "0A82E1", "3D4D9B", "653BC9", "9034B5", "FF54C0", "F84F63", "EF261D",
   "EA6600", "FFC600", "8EC300", "00CD42", "00B685", "245C72", "25384F", "202020"]

/-- A user as the screens hold it. -/
structure User where
  email : Option String := none
  name : Option String := none
  userName : Option String := none
  colour : Option String := none
  deriving DecidableEq

/-! ## Creating a chat -/

/-- `CreateChatModel.createBaseChatDocument`: the chat document with its defaults. -/
def createBaseChatDocument (newChatRef : ChatId) (currentUser : Option Email)
    (chatName : String) : Write :=
  { path := .chat newChatRef
    mode := .set
    data :=
      [(.name, .value (.string chatName)),
       (.colour, .value (.string defaultChatColour)),
       (.timeCreated, .serverTimestamp),
       (.users, .value (.array [currentUser])),
       (.chatLastActive, .serverTimestamp)] }

/-- The document `CreateChatModel.createChatUserCollection` writes for the creator. It
has a `nickName` and no `userName`. -/
def creatorDocument (newChatRef : ChatId) (creator : Email) : Write :=
  { path := .member newChatRef creator
    mode := .set
    data :=
      [(.name, .value (.string "")),
       (.nickName, .value (.string "")),
       (.colour, .value (.string defaultUserColour)),
       (.timeAdded, .serverTimestamp)] }

/-- `CreateChatModel.createChatUserCollection`, which unwraps the current user's email. -/
def createChatUserCollection (newChatRef : ChatId) (currentUser : Option Email) :
    Option Write :=
  currentUser.map (creatorDocument newChatRef)

/-- `CreateChatModel.newChat`. -/
def newChat (newChatRef : ChatId) (currentUser : Option Email) (name : String) :
    Option (List Write) := do
  let userCollection ← createChatUserCollection newChatRef currentUser
  return [createBaseChatDocument newChatRef currentUser name, userCollection]

/-! ## Members of a chat -/

/-- The first write of `AddUserManager.addNewUser`: the email joins the `users` array. -/
def addToUsers (chat : ChatId) (email : Email) : Write :=
  { path := .chat chat
    mode := .merge
    data := [(.users, .arrayUnion [email])] }

/-- The second write of `AddUserManager.addNewUser`: the member's document. -/
def addedDocument (chat : ChatId) (email : Email) (name : String) : Write :=
  { path := .member chat email
    mode := .set
    data :=
      [(.name, .value (.string name)),
       (.userName, .value (.string "")),
       (.colour, .value (.string defaultUserColour))] }

/-- `AddUserManager.addNewUser`. -/
def addNewUser (chatId : Option ChatId) (user : User) : Option (List Write) :=
  match chatId with
  | none => some []
  | some safeChatId => do
    let email ← user.email
    let name ← user.name
    return [addToUsers safeChatId email, addedDocument safeChatId email name]

/-- A method of `MemberViewModel` that issues one write when both identifiers are set. -/
def forMember (write : ChatId → Email → Write) (chatId : Option ChatId)
    (memberId : Option Email) : List Write :=
  match chatId, memberId with
  | some safeChatId, some safeMemberId => [write safeChatId safeMemberId]
  | _, _ => []

/-- The write of `MemberViewModel.updateUserColour`. -/
def userColourWrite (colour : String) (chat : ChatId) (member : Email) : Write :=
  { path := .member chat member
    mode := .merge
    data := [(.colour, .value (.string colour))] }

/-- `MemberViewModel.updateUserColour`. -/
def updateUserColour (colour : String) : Option ChatId → Option Email → List Write :=
  forMember (userColourWrite colour)

/-- The write of `MemberViewModel.updateUserName`. -/
def userNameWrite (newUserName : String) (chat : ChatId) (member : Email) : Write :=
  { path := .member chat member
    mode := .merge
    data := [(.userName, .value (.string newUserName))] }

/-- `MemberViewModel.updateUserName`. -/
def updateUserName (newUserName : String) : Option ChatId → Option Email → List Write :=
  forMember (userNameWrite newUserName)

/-- The write of `MemberViewModel.removeFromChat`: the member's document stays. -/
def removalWrite (chat : ChatId) (member : Email) : Write :=
  { path := .chat chat
    mode := .update
    data := [(.users, .arrayRemove [member])] }

/-- `MemberViewModel.removeFromChat`. -/
def removeFromChat : Option ChatId → Option Email → List Write := forMember removalWrite

/-! ## The chat and its messages -/

/-- The write of `ChatSettingsManager.updateChatColour`. -/
def chatColourWrite (colour : String) (chat : ChatId) : Write :=
  { path := .chat chat
    mode := .merge
    data := [(.colour, .value (.string colour))] }

/-- `ChatSettingsManager.updateChatColour`. -/
def updateChatColour (chatId : Option ChatId) (colour : String) : List Write :=
  match chatId with
  | none => []
  | some safeChatId => [chatColourWrite colour safeChatId]

/-- `DBMethods.updateChatLastActiveTimestamp`. -/
def updateChatLastActiveTimestamp (chatDocumentID : ChatId) : Write :=
  { path := .chat chatDocumentID
    mode := .merge
    data := [(.chatLastActive, .serverTimestamp)] }

/-- The document `MessagesManager.sendMessage` adds. -/
def messageDocument (chat : ChatId) (id : MessageId) (fromEmail : Email) (message : String) :
    Write :=
  { path := .message chat id
    mode := .set
    data :=
      [(.fromEmail, .value (.string fromEmail)),
       (.text, .value (.string message)),
       (.time, .serverTimestamp),
       (.type, .value (.string "Generic Message"))] }

/-- `MessagesManager.sendMessage`. It consults the signed-in email and the chat
identifier, and nothing else. -/
def sendMessage (currentUser : Option Email) (chatId : Option ChatId) (id : MessageId)
    (message : String) : List Write :=
  match currentUser, chatId with
  | some fromEmail, some safeChatId => [messageDocument safeChatId id fromEmail message]
  | _, _ => []

/-! ## Registration -/

/-- The profile `RegisterViewController.registerButtonPressed` writes once the account
exists, under the text the email field holds by then. -/
def registerProfile (emailText : Email) : Write :=
  { path := .profile emailText
    mode := .set
    data :=
      [(.name, .value (.string "Null Name")),
       (.email, .value (.string emailText)),
       (.friends, .value (.array []))] }

end MessagingApp
