import MessagingApp.Library.Explanations
import MessagingApp.NoTrap

/-!
# What a client is shown

The screens never read the server: a snapshot is made of the documents the client
has cached and of its own unanswered writes. A server timestamp that is not known
yet is held as the time of the write; it is handed to the app as null and is
ordered after every known time. This file gives the meaning of the writes and of
the queries on such values, and shows that the schema of the documents is enough
for the snapshot handlers here too.
-/

namespace MessagingApp

/-- A value as a client holds it: a stored value, or a server timestamp that is not known yet. -/
inductive LocalValue
  | known (v : Value)
  | pending (localWriteTime : Time)
  deriving DecidableEq

abbrev LocalDocument := DocumentStore.Fields Field LocalValue
abbrev LocalDb := DocumentStore.Store DocPath Field LocalValue

namespace LocalValue

/-- The value a client would store if its clock were that of the server. -/
def resolve : LocalValue → Value
  | known v => v
  | pending localWriteTime => .timestamp localWriteTime

/-- The value `data()` hands to the app: a pending timestamp is null. -/
def shown : LocalValue → Option Value
  | known v => some v
  | pending _ => none

/-- How values are ordered: a pending timestamp comes after every known one. -/
def orderKey : LocalValue → Option (ℕ ×ₗ Time)
  | known (.timestamp t) => some (toLex (0, t))
  | pending localWriteTime => some (toLex (1, localWriteTime))
  | known _ => none

end LocalValue

/-! ## Writes -/

/-- `arrayRemove` as a client computes it: the first occurrence of each element is erased. -/
def eraseEntries (entries : List (Option String)) (xs : List String) : List (Option String) :=
  xs.foldl (fun result x => result.erase (some x)) entries

/-- The value a client writes into its cache when the server has committed the write at time
`now`. The server does not send the results of array transforms. -/
def FieldValue.ackEval (now : Time) : FieldValue → Option Value → Value
  | .value v, _ => v
  | .serverTimestamp, _ => .timestamp now
  | .arrayUnion xs, old => .array (unionEntries (coercedArray old) xs)
  | .arrayRemove xs, old => .array (eraseEntries (coercedArray old) xs)

/-- The value a client shows of a write issued at a local time. -/
def FieldValue.localEval (localWriteTime : Time) : FieldValue → Option LocalValue → LocalValue
  | .value v, _ => .known v
  | .serverTimestamp, _ => .pending localWriteTime
  | .arrayUnion xs, old =>
    .known (.array (unionEntries (coercedArray (old.bind LocalValue.shown)) xs))
  | .arrayRemove xs, old =>
    .known (.array (eraseEntries (coercedArray (old.bind LocalValue.shown)) xs))

/-- A pending timestamp counts as an empty array, as a known one does. -/
theorem coercedArray_resolve (old : Option LocalValue) :
    coercedArray (old.map LocalValue.resolve) = coercedArray (old.bind LocalValue.shown) := by
  cases old with
  | none => rfl
  | some v => cases v <;> rfl

/-- A client shows what it will store, up to the timestamps. -/
theorem FieldValue.resolve_localEval (localWriteTime : Time) (v : FieldValue)
    (old : Option LocalValue) : (v.localEval localWriteTime old).resolve =
      v.ackEval localWriteTime (old.map LocalValue.resolve) := by
  cases v with
  | value | serverTimestamp => rfl
  | arrayUnion xs =>
    rw [localEval, LocalValue.resolve, ackEval, coercedArray_resolve]
  | arrayRemove xs =>
    rw [localEval, LocalValue.resolve, ackEval, coercedArray_resolve]

/-- On an array of distinct strings a client removes what the server removes. -/
theorem eraseEntries_one {users : List Email} (hnodup : users.Nodup) (email : Email) :
    eraseEntries (users.map some) [email] = removeEntries (users.map some) [email] := by
  have hnodup' : (users.map some).Nodup := hnodup.map (Option.some_injective _)
  rw [removeEntries_one, eraseEntries, List.foldl_cons, List.foldl_nil,
    hnodup'.erase_eq_filter]
  refine List.filter_congr ?_
  intro entry _
  rw [Bool.eq_iff_iff]
  simp

/-! ## Documents -/

/-- The fields the app reads of a document it is shown. -/
def LocalDocument.shown (d : LocalDocument) : Document := fun k => (d k).bind LocalValue.shown

/-- The document as it would be stored if the client's clock were that of the server. -/
def LocalDocument.resolve (d : LocalDocument) : Document :=
  DocumentStore.mapFields LocalValue.resolve d

section reading

variable {d : LocalDocument} {field : Field}

/-- Strings do not depend on the timestamps. -/
theorem LocalDocument.stringField_shown :
    stringField d.shown field = stringField d.resolve field := by
  simp only [stringField, shown, resolve, DocumentStore.mapFields]
  cases d field with
  | none => rfl
  | some v => cases v <;> rfl

/-- An array is shown as it is. -/
theorem LocalDocument.shown_of_array {xs : List (Option String)}
    (h : d.resolve field = some (.array xs)) : d.shown field = some (.array xs) := by
  obtain ⟨v, hv, hresolve⟩ := Option.map_eq_some_iff.mp h
  rw [shown, hv]
  cases v with
  | known v => rw [Option.bind_some, LocalValue.shown, ← hresolve, LocalValue.resolve]
  | pending t => cases hresolve

/-- What is shown is stored. -/
theorem LocalDocument.resolve_of_shown {v : Value} (h : d.shown field = some v) :
    d.resolve field = some v := by
  obtain ⟨v', hv', hshown⟩ := Option.bind_eq_some_iff.mp h
  rw [resolve, DocumentStore.mapFields, hv']
  cases v' with
  | known v' => exact hshown
  | pending t => cases hshown

/-- A field with a time can be ordered by. -/
theorem LocalDocument.orderKey_isSome {t : Time} (h : timestampField d.resolve field = some t) :
    ((d field).bind LocalValue.orderKey).isSome := by
  simp only [timestampField, resolve, DocumentStore.mapFields] at h
  cases hd : d field with
  | none => simp [hd] at h
  | some v =>
    cases v with
    | pending t => rfl
    | known v => cases v <;> simp_all [LocalValue.resolve, Value.timestamp?, LocalValue.orderKey]

end reading

/-! ## Queries -/

/-- A document of a query snapshot, before the app reads it. -/
structure LocalQueryDocument where
  documentID : String
  data : LocalDocument

/-- The document the app is handed. -/
def LocalQueryDocument.shown (d : LocalQueryDocument) : QueryDocument :=
  ⟨d.documentID, d.data.shown⟩

/-- The documents `select` recognises, in the order the store happens to hold them. -/
def localDocuments (select : DocPath → Option String) (view : LocalDb) :
    List LocalQueryDocument :=
  (DocumentStore.collection select view).map (fun entry => ⟨entry.1, entry.2⟩)

/-- What an ordered query orders by, the first document having the greatest rank. -/
def localRank (field : Field) (d : LocalQueryDocument) : (ℕ ×ₗ Time) ×ₗ String :=
  toLex (((d.data field).bind LocalValue.orderKey).getD (toLex (0, 0)), d.documentID)

/-- `order(by: field, descending: true)` on what the client holds. -/
def localOrderedBy (field : Field) (docs : List LocalQueryDocument) : List LocalQueryDocument :=
  (docs.filter (fun d => ((d.data field).bind LocalValue.orderKey).isSome)).insertionSort
    (fun a b => localRank field b ≤ localRank field a)

/-- The `users` sub-collection of a chat. -/
def localUsersOf (chat : ChatId) (view : LocalDb) : List QueryDocument :=
  ((localDocuments (DocPath.memberOf? chat) view).map LocalQueryDocument.shown).insertionSort
    byDocumentID

/-- The profiles of the registered users. -/
def localProfiles (view : LocalDb) : List QueryDocument :=
  ((localDocuments DocPath.profileEmail? view).map LocalQueryDocument.shown).insertionSort
    byDocumentID

/-- The messages of a chat, newest first. -/
def localMessagesOf (chat : ChatId) (view : LocalDb) : List QueryDocument :=
  (localOrderedBy .time (localDocuments (DocPath.messageOf? chat) view)).map
    LocalQueryDocument.shown

/-- The chats whose `users` array contains an email, most recently active first. -/
def localChatsOf (email : Email) (view : LocalDb) : List QueryDocument :=
  (localOrderedBy .chatLastActive ((localDocuments DocPath.chatId? view).filter
    (fun d => hasUser email d.data.shown))).map LocalQueryDocument.shown

/-- The document a listener on one document is handed. -/
def localDocument (view : LocalDb) (path : DocPath) : Option Document :=
  (view.lookup path).map LocalDocument.shown

section queries

variable {view : LocalDb} {d : QueryDocument}

theorem mem_localDocuments {select : DocPath → Option String} {d : LocalQueryDocument} :
    d ∈ localDocuments select view ↔ ∃ path, select path = some d.documentID ∧
      view.lookup path = some d.data := by
  rw [← DocumentStore.mem_collection]
  constructor
  · intro h
    obtain ⟨entry, hentry, rfl⟩ := List.mem_map.mp h
    exact hentry
  · intro h
    exact List.mem_map.mpr ⟨(d.documentID, d.data), h, rfl⟩

theorem mem_localOrderedBy {field : Field} {docs : List LocalQueryDocument}
    {d : LocalQueryDocument} : d ∈ localOrderedBy field docs ↔
      d ∈ docs ∧ ((d.data field).bind LocalValue.orderKey).isSome := by
  rw [localOrderedBy, List.mem_insertionSort, List.mem_filter]

/-- The documents the app is handed without an order. -/
theorem mem_shownDocuments {select : DocPath → Option String} :
    d ∈ (localDocuments select view).map LocalQueryDocument.shown ↔
      ∃ path, select path = some d.documentID ∧ localDocument view path = some d.data := by
  rw [List.mem_map]
  constructor
  · rintro ⟨d', hd', rfl⟩
    obtain ⟨path, hpath, hlookup⟩ := mem_localDocuments.mp hd'
    exact ⟨path, hpath, Option.map_eq_some_iff.mpr ⟨d'.data, hlookup, rfl⟩⟩
  · rintro ⟨path, hpath, hdocument⟩
    obtain ⟨d', hlookup, hdata⟩ := Option.map_eq_some_iff.mp hdocument
    refine ⟨⟨d.documentID, d'⟩, mem_localDocuments.mpr ⟨path, hpath, hlookup⟩, ?_⟩
    rw [LocalQueryDocument.shown, hdata]

theorem mem_localUsersOf {chat : ChatId} : d ∈ localUsersOf chat view ↔
    localDocument view (.member chat d.documentID) = some d.data := by
  rw [localUsersOf, List.mem_insertionSort, mem_shownDocuments]
  simp [DocPath.memberOf?_eq_some]

theorem mem_localProfiles : d ∈ localProfiles view ↔
    localDocument view (.profile d.documentID) = some d.data := by
  rw [localProfiles, List.mem_insertionSort, mem_shownDocuments]
  simp [DocPath.profileEmail?_eq_some]

theorem mem_localMessagesOf {chat : ChatId} : d ∈ localMessagesOf chat view ↔
    ∃ d' : LocalDocument, view.lookup (.message chat d.documentID) = some d' ∧ d'.shown = d.data ∧
      ((d' .time).bind LocalValue.orderKey).isSome := by
  rw [localMessagesOf, List.mem_map]
  constructor
  · rintro ⟨d', hd', rfl⟩
    obtain ⟨hdocs, hkey⟩ := mem_localOrderedBy.mp hd'
    obtain ⟨path, hpath, hlookup⟩ := mem_localDocuments.mp hdocs
    rw [DocPath.messageOf?_eq_some.mp hpath] at hlookup
    exact ⟨d'.data, hlookup, rfl, hkey⟩
  · rintro ⟨d', hd', hdata, hkey⟩
    refine ⟨⟨d.documentID, d'⟩, mem_localOrderedBy.mpr ⟨mem_localDocuments.mpr ⟨_, ?_, hd'⟩,
      hkey⟩, ?_⟩
    · exact DocPath.messageOf?_eq_some.mpr rfl
    · rw [LocalQueryDocument.shown, hdata]

theorem mem_localChatsOf {email : Email} : d ∈ localChatsOf email view ↔
    ∃ d' : LocalDocument, view.lookup (.chat d.documentID) = some d' ∧ d'.shown = d.data ∧
      hasUser email d.data = true ∧ ((d' .chatLastActive).bind LocalValue.orderKey).isSome := by
  rw [localChatsOf, List.mem_map]
  constructor
  · rintro ⟨d', hd', rfl⟩
    obtain ⟨hdocs, hkey⟩ := mem_localOrderedBy.mp hd'
    obtain ⟨hdocs, huser⟩ := List.mem_filter.mp hdocs
    obtain ⟨path, hpath, hlookup⟩ := mem_localDocuments.mp hdocs
    rw [DocPath.chatId?_eq_some.mp hpath] at hlookup
    exact ⟨d'.data, hlookup, rfl, huser, hkey⟩
  · rintro ⟨d', hd', hdata, huser, hkey⟩
    refine ⟨⟨d.documentID, d'⟩, mem_localOrderedBy.mpr ⟨List.mem_filter.mpr
      ⟨mem_localDocuments.mpr ⟨_, ?_, hd'⟩, ?_⟩, hkey⟩, ?_⟩
    · exact DocPath.chatId?_eq_some.mpr rfl
    · rw [hdata]
      exact huser
    · rw [LocalQueryDocument.shown, hdata]

end queries

/-! ## Writes and the schema -/

/-- A write of some call whose colours come from the picker. -/
def Sourced (w : Write) : Prop :=
  ∃ call : Call, Genuine call w ∧ ∀ colour ∈ call.pickedColour, colour ∈ pickerColours

/-- On a document with the schema a client computes what the server computes. -/
theorem Genuine.assign_ackEval {call : Call} {w : Write} (h : Genuine call w) (now : Time)
    {d : Document} (hd : if w.mode = .set then d = (fun _ => none) else Schema w.path d) :
    DocumentStore.assign (FieldValue.ackEval now) d w.data =
      DocumentStore.assign (FieldValue.eval now) d w.data := by
  cases h with
  | removal chat member =>
    have hd : ChatSchema d := hd
    obtain ⟨users, hnodup, husers⟩ := hd.users
    have hsame : FieldValue.ackEval now (.arrayRemove [member]) (d .users) =
        FieldValue.eval now (.arrayRemove [member]) (d .users) := by
      rw [husers, FieldValue.ackEval, FieldValue.eval, coercedArray, eraseEntries_one hnodup]
    change Function.update d .users (some (FieldValue.ackEval now (.arrayRemove [member]) _)) =
      Function.update d .users (some (FieldValue.eval now (.arrayRemove [member]) _))
    rw [hsame]
  | _ => rfl

/-- An evaluation of dictionary entries under which writes respect the schema. -/
def KeepsSchema (eval : Time → FieldValue → Option Value → Value) : Prop :=
  ∀ (w : Write) (now : Time) (d : Document), Sourced w →
    (if w.mode = .set then d = (fun _ => none) else Schema w.path d) →
      Schema w.path (DocumentStore.assign (eval now) d w.data)

theorem keepsSchema_eval : KeepsSchema FieldValue.eval :=
  fun _ now _ ⟨_, hgenuine, hcolour⟩ hd => hgenuine.schema hcolour now hd

theorem keepsSchema_ackEval : KeepsSchema FieldValue.ackEval := by
  rintro w now d ⟨call, hgenuine, hcolour⟩ hd
  rw [hgenuine.assign_ackEval now hd]
  exact hgenuine.schema hcolour now hd

/-- The first of some writes, if there is one, overwrites. -/
def StartsWithSet (ws : List Write) : Prop := ∀ w ∈ ws.head?, w.mode = .set

/-- A document made of such writes has its schema. -/
theorem KeepsSchema.replay {eval : Time → FieldValue → Option Value → Value}
    (heval : KeepsSchema eval) {path : DocPath} {ws : List (Time × Write)}
    (hws : ∀ w ∈ ws, w.2.path = path ∧ Sourced w.2) {old : Option Document}
    (hold : ∀ d, old = some d → Schema path d)
    (hstart : old = none → StartsWithSet (ws.map Prod.snd)) :
    ∀ d, DocumentStore.replay eval ws old = some d → Schema path d := by
  induction ws generalizing old with
  | nil => exact hold
  | cons w ws ih =>
    obtain ⟨hpath, hsourced⟩ := hws w List.mem_cons_self
    have hrest : ∀ w' ∈ ws, w'.2.path = path ∧ Sourced w'.2 :=
      fun w' hw' => hws w' (List.mem_cons_of_mem w hw')
    -- The write leaves a document, and the document has the schema.
    have hnew : ∃ d, w.2.onto (eval w.1) old = some d ∧ Schema path d := by
      by_cases hmode : w.2.mode = .set
      · refine ⟨_, DocumentStore.Write.onto_of_set hmode, ?_⟩
        rw [← hpath]
        exact heval w.2 w.1 _ hsourced (by rw [if_pos hmode])
      · cases old with
        | none => exact absurd (hstart rfl w.2 rfl) hmode
        | some d =>
          refine ⟨_, DocumentStore.Write.onto_of_ne_set hmode, ?_⟩
          rw [← hpath]
          refine heval w.2 w.1 d hsourced ?_
          rw [if_neg hmode, hpath]
          exact hold d rfl
    obtain ⟨d, hd, hschema⟩ := hnew
    rw [DocumentStore.replay_cons, hd]
    refine ih hrest ?_ (fun hnone => by cases hnone)
    intro d' hd'
    obtain rfl := Option.some.inj hd'
    exact hschema

/-! ## The schema of what is shown -/

/-- The documents a client holds have their schema. -/
def LocalSchema (view : LocalDb) : Prop :=
  ∀ path (d : LocalDocument), view.lookup path = some d → Schema path d.resolve

section shown

variable {d : LocalDocument}

/-- What the readers of a chat find in what they are shown. -/
theorem ChatSchema.of_resolve (h : ChatSchema d.resolve) :
    (∃ name, stringField d.shown .name = some name) ∧
      (∃ colour ∈ pickerColours, stringField d.shown .colour = some colour) ∧
      ∃ users, stringsField d.shown .users = some users := by
  obtain ⟨users, _, husers⟩ := h.users
  refine ⟨?_, ?_, users, ChatSchema.stringsField_users (LocalDocument.shown_of_array husers)⟩
  · rw [LocalDocument.stringField_shown]
    exact h.name
  · simp only [LocalDocument.stringField_shown]
    exact h.colour

/-- A member document holds no timestamp that is read. -/
theorem MemberSchema.of_resolve (h : MemberSchema d.resolve) : MemberSchema d.shown := by
  constructor
  case name =>
    rw [LocalDocument.stringField_shown]
    exact h.name
  case colour =>
    simp only [LocalDocument.stringField_shown]
    exact h.colour
  case userName =>
    cases hshown : d.shown .userName with
    | none => exact .inl rfl
    | some v =>
      have hresolve := LocalDocument.resolve_of_shown hshown
      rcases h.userName with hnone | ⟨userName, hsome⟩
      · rw [hnone] at hresolve
        cases hresolve
      · rw [hsome] at hresolve
        exact .inr ⟨userName, hresolve.symm⟩

theorem ProfileSchema.of_resolve (h : ProfileSchema d.resolve) : ProfileSchema d.shown where
  name := by
    rw [LocalDocument.stringField_shown]
    exact h.name

/-- A message that is shown can be read, whether its time is known or not. -/
theorem MessageSchema.readMessage_shown (h : MessageSchema d.resolve) (id : MessageId) :
    ∃ message, MessagesScreen.readMessage ⟨id, d.shown⟩ = some message := by
  have htext := h.text
  have hfromEmail := h.fromEmail
  rw [← LocalDocument.stringField_shown] at htext hfromEmail
  exact MessagesScreen.exists_readMessage htext hfromEmail

end shown

/-- No handler traps on what a client is shown. -/
structure ViewReadersSafe (view : LocalDb) : Prop where
  chatList : ∀ email (screen : ContactsScreen),
    ∃ screen', screen.loadChats (.ok (localChatsOf email view)) = some screen'
  validMembers : ∀ chat, DocPath.chat chat ∈ view → ∀ screen : GroupMembersScreen,
    ∃ handled, screen.loadValidMembers (.ok (localDocument view (.chat chat))) = some handled
  members : ∀ chat (screen : GroupMembersScreen),
    ∃ screen', screen.loadMembers (.ok (localUsersOf chat view)) = some screen' ∧
      ∀ user ∈ screen'.chatMembers, ∀ colour ∈ user.colour, (hexColour colour).isSome
  member : ∀ chat member, DocPath.member chat member ∈ view →
    ∃ details, loadMember (.ok (localDocument view (.member chat member))) = some (some details)
  title : ∀ chat, DocPath.chat chat ∈ view →
    ∃ title, MessagesScreen.loadTitle (.ok (localDocument view (.chat chat))) = some (some title)
  chatOptions : ∀ chat, DocPath.chat chat ∈ view → ∀ hex,
    ∃ hex', MessagesScreen.loadChatOptions (.ok (localDocument view (.chat chat))) hex = some hex' ∧
      (hexColour hex').isSome
  messages : ∀ chat (screen : MessagesScreen),
    ∃ screen', screen.loadMessages (.ok (localMessagesOf chat view)) = some screen'
  profiles : ∀ d ∈ localProfiles view, ∀ chatId, ∃ ws, addNewUser chatId (listedUser d) = some ws

namespace LocalSchema

variable {view : LocalDb} (h : LocalSchema view)
include h

/-- The document a listener on a chat is handed. -/
theorem chat {chat : ChatId} (hchat : DocPath.chat chat ∈ view) :
    ∃ d : LocalDocument, localDocument view (.chat chat) = some d.shown ∧ ChatSchema d.resolve := by
  obtain ⟨d, hd⟩ := DocumentStore.exists_lookup hchat
  exact ⟨d, by rw [localDocument, hd, Option.map_some], h _ _ hd⟩

/-- The member documents a client is shown have their schema. -/
theorem member {chat : ChatId} {member : Email} {d : Document}
    (hd : localDocument view (.member chat member) = some d) : MemberSchema d := by
  obtain ⟨d', hd', rfl⟩ := Option.map_eq_some_iff.mp hd
  have hschema : MemberSchema d'.resolve := h _ _ hd'
  exact hschema.of_resolve

/-- `loadMembers` completes on the members a client is shown. -/
theorem loadMembers (chat : ChatId) (screen : GroupMembersScreen) :
    ∃ screen', screen.loadMembers (.ok (localUsersOf chat view)) = some screen' ∧
      ∀ user ∈ screen'.chatMembers, ∀ colour ∈ user.colour, (hexColour colour).isSome := by
  have hread : ∀ d ∈ localUsersOf chat view, ∃ user, chatMember d = some user ∧
      ∀ colour ∈ user.colour, (hexColour colour).isSome := by
    intro d hd
    obtain ⟨colour, hpicked, hcolour⟩ := (h.member (mem_localUsersOf.mp hd)).colour
    refine ⟨{
      email := some d.documentID
      name := stringField d.data .name
      userName := stringField d.data .userName
      colour := some colour }, by simp [chatMember, hcolour], ?_⟩
    intro colour' hcolour'
    obtain rfl := Option.some.inj hcolour'
    exact Option.isSome_iff_exists.mpr (hexColour_of_picked hpicked)
  obtain ⟨users, husers⟩ :=
    PartialLoops.exists_mapM (fun d hd => (hread d hd).imp fun _ hu => hu.1)
  refine ⟨{ screen with
    chatMembers := users.filter (isValidMember screen.chatMemberArray)
    title := membersTitle (users.filter (isValidMember screen.chatMemberArray)).length
    rowCount := (users.filter (isValidMember screen.chatMemberArray)).length },
    by simp [GroupMembersScreen.loadMembers, husers], ?_⟩
  intro user huser
  obtain ⟨d, hd, hmember⟩ := PartialLoops.mem_of_mapM husers (List.mem_of_mem_filter huser)
  obtain ⟨user', huser', hcolours⟩ := hread d hd
  obtain rfl := Option.some.inj (hmember.symm.trans huser')
  exact hcolours

/-- **Every reader is safe on a client's own view.** The schema of the documents, pending
timestamps aside, makes every handler complete. -/
theorem readersSafe : ViewReadersSafe view where
  chatList email screen := by
    have hread : ∀ d ∈ localChatsOf email view, ∃ chat, conversation d = some chat := by
      intro d hd
      obtain ⟨d', hd', hdata, _⟩ := mem_localChatsOf.mp hd
      have hschema : ChatSchema d'.resolve := h _ _ hd'
      obtain ⟨name, hname⟩ := hschema.of_resolve.1
      rw [hdata] at hname
      exact ⟨{ id := d.documentID, name := name }, by simp [conversation, hname]⟩
    obtain ⟨chats, hchats⟩ := PartialLoops.exists_mapM hread
    exact ⟨{ chats := chats, rowCount := chats.length },
      by simp [ContactsScreen.loadChats, hchats]⟩
  validMembers chat hchat screen := by
    obtain ⟨d, hd, hschema⟩ := h.chat hchat
    obtain ⟨users, husers⟩ := hschema.of_resolve.2.2
    exact ⟨{ screen := { screen with chatMemberArray := some users }, called := [.loadMembers] },
      by simp [GroupMembersScreen.loadValidMembers, hd, husers]⟩
  members := h.loadMembers
  member chat member hmember := by
    obtain ⟨d, hd⟩ := DocumentStore.exists_lookup hmember
    have hdoc : localDocument view (.member chat member) = some (LocalDocument.shown d) := by
      rw [localDocument, hd, Option.map_some]
    have hschema := h.member hdoc
    obtain ⟨name, hname⟩ := hschema.name
    obtain ⟨colour, hpicked, hcolour⟩ := hschema.colour
    obtain ⟨rgb, hrgb⟩ := hexColour_of_picked hpicked
    exact ⟨⟨name, (stringField (LocalDocument.shown d) .userName).getD " ", colour⟩,
      by simp [loadMember, hdoc, hname, hcolour, hrgb]⟩
  title chat hchat := by
    obtain ⟨d, hd, hschema⟩ := h.chat hchat
    obtain ⟨name, hname⟩ := hschema.of_resolve.1
    exact ⟨name, by simp [MessagesScreen.loadTitle, hd, hname]⟩
  chatOptions chat hchat hex := by
    obtain ⟨d, hd, hschema⟩ := h.chat hchat
    obtain ⟨colour, hpicked, hcolour⟩ := hschema.of_resolve.2.1
    obtain ⟨rgb, hrgb⟩ := hexColour_of_picked hpicked
    refine ⟨colour, ?_, Option.isSome_iff_exists.mpr ⟨rgb, hrgb⟩⟩
    simp [MessagesScreen.loadChatOptions, hd, hcolour, hrgb]
  messages chat screen := by
    have hread : ∀ d ∈ localMessagesOf chat view,
        ∃ message, MessagesScreen.readMessage d = some message := by
      intro d hd
      obtain ⟨d', hd', hdata, _⟩ := mem_localMessagesOf.mp hd
      have hschema : MessageSchema d'.resolve := h _ _ hd'
      have hshown := hschema.readMessage_shown d.documentID
      rwa [hdata] at hshown
    obtain ⟨messages, hmessages⟩ := PartialLoops.exists_mapM hread
    exact ⟨_, screen.loadMessages_ok hmessages⟩
  profiles d hd chatId := by
    obtain ⟨d', hd', hdata⟩ := Option.map_eq_some_iff.mp (mem_localProfiles.mp hd)
    have hschema : ProfileSchema d'.resolve := h _ _ hd'
    obtain ⟨name, hname⟩ := hschema.of_resolve.name
    rw [hdata] at hname
    cases chatId with
    | none => exact ⟨[], rfl⟩
    | some chat =>
      exact ⟨_, addNewUser_eq_some.mpr ⟨d.documentID, name, rfl, hname, rfl⟩⟩

end LocalSchema

end MessagingApp
