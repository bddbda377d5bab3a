import MessagingApp.Library.Runs
import MessagingApp.Screens

/-!
# Clients, their writes and the server

Any number of clients share one database. A call hands its writes to the client's
queue; the server answers each client's writes in the order they were issued, and
the queues of different clients interleave freely, also between the two writes of
one call. A clock that never runs backwards stamps the commits. The success
closure of `sendMessage` runs at some later moment and issues the activity time of
the chat. A log keeps every commit, so that statements can speak of histories.
-/

namespace MessagingApp

abbrev ClientId := ℕ

/-- A message of a chat. -/
structure MessageRef where
  chat : ChatId
  message : MessageId
  deriving DecidableEq

/-- The calls that write. The chat and member a method reads from its model's properties are
arguments here. -/
inductive Call
  | newChat (newChatRef : ChatId) (name : String)
  | addNewUser (chat : ChatId) (user : User)
  | removeFromChat (chat : ChatId) (member : Email)
  | updateUserName (chat : ChatId) (member : Email) (newUserName : String)
  | updateUserColour (chat : ChatId) (member : Email) (colour : String)
  | updateChatColour (chat : ChatId) (colour : String)
  | sendMessage (chat : ChatId) (id : MessageId) (text : String)
  /-- Issued by the success closure of the message, never by the user. -/
  | updateChatLastActiveTimestamp (chat : ChatId) (onBehalfOf : MessageId)
  /-- Issued by the success closure of `createUser`. -/
  | registerProfile (emailText : Email)

namespace Call

/-- The writes of a call made under a signed-in user. -/
def writes (currentUser : Option Email) : Call → Option (List Write)
  | .newChat ref name => MessagingApp.newChat ref currentUser name
  | .addNewUser chat user => MessagingApp.addNewUser (some chat) user
  | .removeFromChat chat member => some (MessagingApp.removeFromChat (some chat) (some member))
  | .updateUserName chat member newUserName =>
    some (MessagingApp.updateUserName newUserName (some chat) (some member))
  | .updateUserColour chat member colour =>
    some (MessagingApp.updateUserColour colour (some chat) (some member))
  | .updateChatColour chat colour => some (MessagingApp.updateChatColour (some chat) colour)
  | .sendMessage chat id text => some (MessagingApp.sendMessage currentUser (some chat) id text)
  | .updateChatLastActiveTimestamp chat _ =>
    some [MessagingApp.updateChatLastActiveTimestamp chat]
  | .registerProfile emailText => some [MessagingApp.registerProfile emailText]

/-- The document the user selected on a screen before the call: it was shown to the client. -/
def target : Call → Option DocPath
  | .newChat _ _ | .registerProfile _ => none
  | .addNewUser chat _ | .removeFromChat chat _ | .updateChatColour chat _ => some (.chat chat)
  | .sendMessage chat _ _ | .updateChatLastActiveTimestamp chat _ => some (.chat chat)
  | .updateUserName chat member _ | .updateUserColour chat member _ => some (.member chat member)

/-- The identifier Firestore generates for the call. -/
def generatedId : Call → Option String
  | .newChat ref _ => some ref
  | .sendMessage _ id _ => some id
  | _ => none

/-- The colour taken from the colour picker. -/
def pickedColour : Call → Option String
  | .updateUserColour _ _ colour | .updateChatColour _ colour => some colour
  | _ => none

/-- Whether a screen makes the call, as opposed to a completion closure. -/
def byUser : Call → Bool
  | .updateChatLastActiveTimestamp _ _ | .registerProfile _ => false
  | _ => true

end Call

/-- A write the server has not answered yet, with the call that issued it. -/
structure Pending where
  origin : Call
  write : Write

/-- A committed write. -/
structure Commit where
  origin : Call
  write : Write
  time : Time

/-- An account on a device: the user who is signed in, the unanswered writes (oldest first), and
the messages whose success closure has not run. Firestore keeps a queue of writes for each account,
so another account on the same device is another client. -/
structure Client where
  currentUser : Option Email := none
  queue : List Pending := []
  completions : List MessageRef := []

/-- The server and all clients. -/
structure System where
  db : Db
  clock : Time
  log : List Commit
  generatedIds : List String
  clients : ClientId → Client

namespace System

/-- No document, and no client has done anything. -/
def init : System :=
  { db := ∅, clock := 0, log := [], generatedIds := [], clients := fun _ => {} }

/-- Replace the state of one client. -/
def withClient (s : System) (c : ClientId) (client : Client) : System :=
  { s with clients := Function.update s.clients c client }

/-- A document a screen of client `c` may show: it is stored, or one of the client's own
unanswered writes creates it. Documents are never deleted, so what some snapshot showed is
of this kind. -/
def Known (s : System) (c : ClientId) (path : DocPath) : Prop :=
  path ∈ s.db ∨ path ∈ (s.clients c).queue.map (fun p => p.write.path)

instance (s : System) (c : ClientId) (path : DocPath) : Decidable (s.Known c path) :=
  inferInstanceAs (Decidable (_ ∨ _))

/-- When a screen can make a call: what it acts on was shown to the client, generated
identifiers are new, and colours come from the picker. -/
def Allowed (s : System) (c : ClientId) (call : Call) : Prop :=
  call.byUser = true ∧ (∀ path ∈ call.target, s.Known c path) ∧
    (∀ id ∈ call.generatedId, id ∉ s.generatedIds) ∧
    ∀ colour ∈ call.pickedColour, colour ∈ pickerColours

instance (s : System) (c : ClientId) (call : Call) : Decidable (s.Allowed c call) :=
  inferInstanceAs (Decidable (_ ∧ _))

/-- Hand the writes of a call to the queue of a client. -/
def issue (s : System) (c : ClientId) (call : Call) : Option System := do
  let client := s.clients c
  let writes ← call.writes client.currentUser
  let issued := writes.map (Pending.mk call)
  return { s.withClient c { client with queue := client.queue ++ issued } with
    generatedIds := call.generatedId.toList ++ s.generatedIds }

/-- The success closure the app waits for after a committed write. -/
def completionOf : Call → List MessageRef
  | .sendMessage chat id _ => [⟨chat, id⟩]
  | _ => []

/-- The server accepts the oldest unanswered write of a client at time `now`. -/
def commit (s : System) (c : ClientId) (now : Time) : Option System :=
  let client := s.clients c
  match client.queue with
  | [] => none
  | p :: rest =>
    if s.clock ≤ now then do
      let db ← MessagingApp.commit now p.write s.db
      let client' : Client :=
        { client with
          queue := rest
          completions := client.completions ++ completionOf p.origin }
      return { s.withClient c client' with
        db := db
        clock := now
        log := s.log ++ [⟨p.origin, p.write, now⟩] }
    else none

/-- The server rejects the oldest unanswered write of a client. It has no effect, and the
error closures only print. -/
def reject (s : System) (c : ClientId) : Option System :=
  let client := s.clients c
  match client.queue with
  | [] => none
  | _ :: rest => some (s.withClient c { client with queue := rest })

/-- The success closure of a stored message runs. -/
def complete (s : System) (c : ClientId) (m : MessageRef) : Option System :=
  let client := s.clients c
  if m ∈ client.completions then
    (s.withClient c { client with completions := client.completions.erase m }).issue c
      (.updateChatLastActiveTimestamp m.chat m.message)
  else none

end System

/-- What can happen next. -/
inductive Event
  /-- Signing in succeeds. -/
  | signIn (c : ClientId) (account : Email)
  | signOut (c : ClientId)
  /-- `createUser` succeeds for `account`; the email field now holds `emailText`. -/
  | register (c : ClientId) (account emailText : Email)
  | call (c : ClientId) (call : Call)
  | commit (c : ClientId) (now : Time)
  | reject (c : ClientId)
  | complete (c : ClientId) (m : MessageRef)

/-- The client that acts. -/
def Event.client : Event → ClientId
  | .signIn c _ | .signOut c | .register c _ _ | .call c _ => c
  | .commit c _ | .reject c | .complete c _ => c

/-- Every event but a rejected write. -/
def Event.accepted : Event → Bool
  | .reject _ => false
  | _ => true

namespace System

/-- One step; `none` when the event cannot happen. -/
def step (s : System) : Event → Option System
  | .signIn c account => some (s.withClient c { s.clients c with currentUser := some account })
  | .signOut c => some (s.withClient c { s.clients c with currentUser := none })
  | .register c account emailText =>
    (s.withClient c { s.clients c with currentUser := some account }).issue c
      (.registerProfile emailText)
  | .call c call => if s.Allowed c call then s.issue c call else none
  | .commit c now => s.commit c now
  | .reject c => s.reject c
  | .complete c m => s.complete c m

/-- An event other than a call of a screen, or the call without the conditions on it. -/
def perform (s : System) : Event → Option System
  | .call c call => s.issue c call
  | e => s.step e

/-- Feed events to the system, starting from an empty database. -/
def runFromInit (es : List Event) : Option System := Runs.run step init es

/-- The states of a system whose server accepts every write. -/
def Reachable (s : System) : Prop := Runs.Reachable step (fun e => e.accepted = true) init s

/-- The states of a system whose server may reject any write. -/
def ReachableWithRejections (s : System) : Prop := Runs.Reachable step (fun _ => True) init s

/-- No client has a write the server has not answered. -/
def NoWriteInFlight (s : System) : Prop := ∀ c, (s.clients c).queue = []

/-- A short session: `ann` creates a chat and adds `bob`, who posts a message. -/
def sampleSession : List Event :=
  [.signIn 0 "ann", .call 0 (.newChat "tea" "Tea time"), .commit 0 1, .commit 0 1,
   .call 0 (.addNewUser "tea" { email := some "bob", name := some "Bob" }), .commit 0 2,
   .commit 0 2, .signIn 1 "bob", .call 1 (.sendMessage "tea" "m1" "hello"), .commit 1 3,
   .complete 1 ⟨"tea", "m1"⟩, .commit 1 4]

end System

end MessagingApp
