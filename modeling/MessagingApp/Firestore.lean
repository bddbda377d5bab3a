import MessagingApp.Library.DocumentStore
import Mathlib.Data.String.Basic
import Mathlib.Data.List.Sort

/-!
# The database of the app

The app keeps everything in Firestore. This file fixes the documents it uses: the
chats of the `conversations` collection, their `users` and `messages`
sub-collections, and the profiles of the top-level `users` collection. It gives
the meaning of the `FieldValue` transforms and of the queries the app listens to.
-/

namespace MessagingApp

/-- An address is compared by its code points. Swift's `==` is the same on addresses whose
characters have no other canonical form. -/
abbrev Email := String
abbrev ChatId := String
abbrev MessageId := String

/-- Server time. Only its order is used. -/
abbrev Time := ℕ

/-- A stored value. An array entry is a string, or null where an absent optional
was stored; Firestore allows no array directly inside an array. -/
inductive Value
  | string (s : String)
  | timestamp (t : Time)
  | array (xs : List (Option String))
  deriving DecidableEq

/-- The field names that occur in the app's documents. -/
inductive Field
  | name | colour | timeCreated | users | chatLastActive
  | nickName | timeAdded | userName
  | fromEmail | text | time | type
  | email | friends
  deriving DecidableEq

/-- The documents of the database: a chat, the document of `member` in the chat's
`users` sub-collection, a message of the chat, and a registered user's profile. Members and
profiles are named after email addresses: a name is one segment of a path, so it has no slash,
at which `document(_:)` splits its argument. -/
inductive DocPath
  | chat (chat : ChatId)
  | member (chat : ChatId) (member : Email)
  | message (chat : ChatId) (message : MessageId)
  | profile (user : Email)
  deriving DecidableEq

/-- What a data dictionary assigns to a field: a value or a `FieldValue` transform. -/
inductive FieldValue
  | value (v : Value)
  | serverTimestamp
  | arrayUnion (xs : List String)
  | arrayRemove (xs : List String)

abbrev Document := DocumentStore.Fields Field Value
abbrev Db := DocumentStore.Store DocPath Field Value
abbrev Write := DocumentStore.Write DocPath Field FieldValue

/-- The entries of an array value; any other value, or none, counts as an empty array. -/
def coercedArray : Option Value → List (Option String)
  | some (.array xs) => xs
  | _ => []

/-- `arrayUnion`: append the elements that are not there yet, one after the other. -/
def unionEntries (entries : List (Option String)) (xs : List String) : List (Option String) :=
  xs.foldl (fun result x => if some x ∈ result then result else result ++ [some x]) entries

/-- `arrayRemove`: drop every occurrence of the elements. -/
def removeEntries (entries : List (Option String)) (xs : List String) : List (Option String) :=
  entries.filter (fun entry => entry ∉ xs.map some)

/-- `arrayUnion` of one element. -/
theorem unionEntries_one (xs : List (Option String)) (e : String) :
    unionEntries xs [e] = if some e ∈ xs then xs else xs ++ [some e] := rfl

/-- `arrayRemove` of one element. -/
theorem removeEntries_one (xs : List (Option String)) (e : String) :
    removeEntries xs [e] = xs.filter (fun entry => entry ≠ some e) := by
  simp [removeEntries]

/-- The value a dictionary entry writes at server time `now` over the value `old`. -/
def FieldValue.eval (now : Time) : FieldValue → Option Value → Value
  | .value v, _ => v
  | .serverTimestamp, _ => .timestamp now
  | .arrayUnion xs, old => .array (unionEntries (coercedArray old) xs)
  | .arrayRemove xs, old => .array (removeEntries (coercedArray old) xs)

/-- The server commits one write at time `now`. The result is `none` when the
precondition of the write fails. -/
def commit (now : Time) (w : Write) (db : Db) : Option Db := w.commit (FieldValue.eval now) db

/-! ## Reading a document -/

/-- The cast `as? String`, and, where it must succeed, `as! String`. -/
def Value.string? : Value → Option String
  | .string s => some s
  | _ => none

/-- The cast `as? Timestamp`. -/
def Value.timestamp? : Value → Option Time
  | .timestamp t => some t
  | _ => none

/-- The cast `as! [String]`, which fails on a null entry. -/
def Value.strings? : Value → Option (List String)
  | .array xs => xs.mapM id
  | _ => none

/-- `data()[field] as? String`. -/
def stringField (d : Document) (field : Field) : Option String := (d field).bind Value.string?

/-- `data()[field] as? Timestamp`. -/
def timestampField (d : Document) (field : Field) : Option Time :=
  (d field).bind Value.timestamp?

/-- `data()[field] as! [String]`. -/
def stringsField (d : Document) (field : Field) : Option (List String) :=
  (d field).bind Value.strings?

/-- The document of a query snapshot. -/
structure QueryDocument where
  documentID : String
  data : Document

/-! ## Queries -/

/-- The identifier of a chat document. -/
def DocPath.chatId? : DocPath → Option ChatId
  | .chat c => some c
  | _ => none

/-- The email that names a document of the `users` sub-collection of a chat. -/
def DocPath.memberOf? (c : ChatId) : DocPath → Option Email
  | .member c' e => if c' = c then some e else none
  | _ => none

/-- The identifier of a message of a chat. -/
def DocPath.messageOf? (c : ChatId) : DocPath → Option MessageId
  | .message c' m => if c' = c then some m else none
  | _ => none

/-- The email that names a registered user's profile. -/
def DocPath.profileEmail? : DocPath → Option Email
  | .profile e => some e
  | _ => none

/-- The documents `select` recognises, in the order the store happens to hold them. -/
def documents (select : DocPath → Option String) (db : Db) : List QueryDocument :=
  (DocumentStore.collection select db).map (fun entry => ⟨entry.1, entry.2⟩)

/-- Firestore's order on the documents of a collection without `order(by:)`. -/
def byDocumentID (a b : QueryDocument) : Prop := a.documentID ≤ b.documentID

instance : DecidableRel byDocumentID := fun a b =>
  inferInstanceAs (Decidable (a.documentID ≤ b.documentID))

/-- The time a document is ordered by. -/
def orderTime (field : Field) (d : QueryDocument) : Time := (timestampField d.data field).getD 0

/-- `order(by: field, descending: true)`; ties are broken by the document identifier in
the same direction. -/
def newestFirst (field : Field) (a b : QueryDocument) : Prop :=
  orderTime field b < orderTime field a ∨
    (orderTime field a = orderTime field b ∧ b.documentID ≤ a.documentID)

instance (field : Field) : DecidableRel (newestFirst field) := fun a b =>
  inferInstanceAs (Decidable (_ ∨ (_ ∧ b.documentID ≤ a.documentID)))

/-- An ordered query returns the documents that have the ordering field. The app
stores server timestamps in the two fields it orders by. -/
def orderedBy (field : Field) (docs : List QueryDocument) : List QueryDocument :=
  (docs.filter (fun d => (timestampField d.data field).isSome)).insertionSort (newestFirst field)

/-- The `users` sub-collection of a chat. -/
def usersOf (chat : ChatId) (db : Db) : List QueryDocument :=
  (documents (DocPath.memberOf? chat) db).insertionSort byDocumentID

/-- The profiles of the registered users. -/
def profiles (db : Db) : List QueryDocument :=
  (documents DocPath.profileEmail? db).insertionSort byDocumentID

/-- The messages of a chat, newest first. -/
def messagesOf (chat : ChatId) (db : Db) : List QueryDocument :=
  orderedBy .time (documents (DocPath.messageOf? chat) db)

/-- Whether the `users` array of a chat document contains an email. -/
def hasUser (email : Email) (d : Document) : Bool := some email ∈ coercedArray (d .users)

/-- The chats whose `users` array contains an email, most recently active first. -/
def chatsOf (email : Email) (db : Db) : List QueryDocument :=
  orderedBy .chatLastActive
    ((documents DocPath.chatId? db).filter (fun d => hasUser email d.data))

end MessagingApp
