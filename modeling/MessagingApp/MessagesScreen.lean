import MessagingApp.Screens

/-!
# The messages screen

`MessagesManager` keeps the messages, colours and names of one chat;
`MessagesViewController` shows them in a table and posts new messages. The table
asks for its row count when it is reloaded and for single rows whenever it lays
them out, so the two are separate operations here.
-/

namespace MessagingApp

/-- `Message`. -/
structure Message where
  id : String := ""
  text : String := ""
  fromEmail : String := ""
  time : Option Time := none
  deriving DecidableEq

/-- What a `MessageBubble` cell is given: the name label, the text, and the string its
colours are made of. -/
structure MessageBubble where
  nameLabel : Option String
  textContent : String
  hexCode : String
  deriving DecidableEq

/-- `MessagesManager` and the table of its view controller. `cells row` is the cell the
table has loaded for the row since its last reload. -/
structure MessagesScreen where
  messages : List Message := []
  userOptions : Email → Option String := fun _ => none
  displayName : Email → Option String := fun _ => none
  rowCount : ℕ := 0
  cells : ℕ → Option MessageBubble := fun _ => none

namespace MessagesScreen

/-! ## Names and colours -/

/-- The value assigned to `displayName` for a member document: the document's identifier
for an empty `userName`, else the `userName`, which may be absent. -/
def shownName (userDocument : QueryDocument) : Option String :=
  if stringField userDocument.data .userName = some "" then some userDocument.documentID
  else stringField userDocument.data .userName

/-- One iteration of the loop of `loadUserOptions`. Assigning `nil` to a dictionary entry
removes it. -/
def loadUserOption (s : MessagesScreen) (userDocument : QueryDocument) : MessagesScreen :=
  { s with
    userOptions :=
      Function.update s.userOptions userDocument.documentID
        (stringField userDocument.data .colour)
    displayName :=
      Function.update s.displayName userDocument.documentID (shownName userDocument) }

/-- The listener of `loadUserOptions`. When it succeeds it also calls `loadMessages`, which
registers one more listener on the messages. -/
def loadUserOptions (result : Snapshot (List QueryDocument)) (s : MessagesScreen) :
    Handled MessagesScreen :=
  match result with
  | .error _ => { screen := s }
  | .ok documents => { screen := documents.foldl loadUserOption s, called := [.loadMessages] }

/-- The colour `loadMessageColour` picks for a sender. -/
def colourOf (userOptions : Email → Option String) (fromEmail : Email) : String :=
  if userOptions fromEmail ≠ some "" then (userOptions fromEmail).getD "0A82E1" else "0A82E1"

/-- `loadMessageColour`, which indexes the messages. -/
def loadMessageColour (s : MessagesScreen) (row : ℕ) : Option String := do
  let message ← s.messages[row]?
  return colourOf s.userOptions message.fromEmail

/-! ## The table -/

/-- `updateMessages`: reload the table and scroll to row 0, which must exist. -/
def updateMessages (s : MessagesScreen) : Option MessagesScreen :=
  let reloaded := { s with rowCount := s.messages.length, cells := fun _ => none }
  if 0 < reloaded.rowCount then some reloaded else none

/-- `tableView(_:cellForRowAt:)`, which indexes the messages and unwraps the colour. -/
def cellForRowAt (s : MessagesScreen) (row : ℕ) : Option MessageBubble := do
  let message ← s.messages[row]?
  let hexCode ← s.loadMessageColour row
  let _ ← hexColour hexCode
  return {
    nameLabel := s.displayName message.fromEmail
    textContent := message.text
    hexCode := hexCode }

/-- The table asks for a row. It only asks below the row count of its last reload. -/
def layoutRow (row : ℕ) (s : MessagesScreen) : Option MessagesScreen :=
  if row < s.rowCount then do
    let cell ← s.cellForRowAt row
    return { s with cells := Function.update s.cells row (some cell) }
  else none

/-! ## The messages listener -/

/-- The message made from a document in the loop of `loadMessages`. -/
def readMessage (message : QueryDocument) : Option Message := do
  let text ← stringField message.data .text
  let fromEmail ← stringField message.data .fromEmail
  return {
    id := message.documentID
    text := text
    fromEmail := fromEmail
    time := timestampField message.data .time }

/-- One iteration of the loop of `loadMessages`: append a message and reload the table. -/
def loadMessage (s : MessagesScreen) (message : QueryDocument) : Option MessagesScreen := do
  let newMessage ← readMessage message
  updateMessages { s with messages := s.messages ++ [newMessage] }

/-- The listener of `loadMessages`. The messages are cleared before the error is looked at,
and the table is reloaded only inside the loop. -/
def loadMessages (result : Snapshot (List QueryDocument)) (s : MessagesScreen) :
    Option MessagesScreen :=
  let cleared := { s with messages := [] }
  match result with
  | .error _ => some cleared
  | .ok documents => documents.foldlM loadMessage cleared

/-! ## Chat title and colour -/

/-- The completion of `loadTitle`: the title it sets. An error sets none. -/
def loadTitle (result : Snapshot (Option Document)) : Option (Option String) :=
  match result with
  | .error _ => some none
  | .ok document => do
    let data ← document
    let name ← stringField data .name
    return some name

/-- The `hexColourString` that `loadChatOptions` starts from. -/
def initialHexColourString : String := "ffffff"

/-- The listener of `loadChatOptions`: the new `hexColourString`, which `updateUI` turns into
a colour. It reads the chat's `colour` and nothing else. -/
def loadChatOptions (result : Snapshot (Option Document)) (hexColourString : String) :
    Option String := do
  let hexColour' ←
    match result with
    | .error _ => some hexColourString
    | .ok document => document.map fun data => (stringField data .colour).getD hexColourString
  let _ ← hexColour hexColour'
  return hexColour'

end MessagesScreen

end MessagingApp
