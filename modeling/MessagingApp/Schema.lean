import MessagingApp.Queues
import MessagingApp.MessagesTable

/-!
# The implied schema

No code states which fields a document has, yet the snapshot handlers force them.
This file writes the schema down, shows that every write of the app respects it in
every order in which writes can reach the server, and concludes that no stored
document makes a handler trap.
-/

namespace MessagingApp

/-! ## The schema -/

/-- What the readers of a chat document rely on. -/
structure ChatSchema (d : Document) : Prop where
  name : ∃ name, stringField d .name = some name
  colour : ∃ colour ∈ pickerColours, stringField d .colour = some colour
  users : ∃ users : List Email, users.Nodup ∧ d .users = some (.array (users.map some))
  chatLastActive : ∃ t, timestampField d .chatLastActive = some t

/-- What the readers of a member document rely on. The creator's document has no
`userName`. -/
structure MemberSchema (d : Document) : Prop where
  name : ∃ name, stringField d .name = some name
  colour : ∃ colour ∈ pickerColours, stringField d .colour = some colour
  userName : d .userName = none ∨ ∃ userName, d .userName = some (.string userName)

/-- What the readers of a message rely on. -/
structure MessageSchema (d : Document) : Prop where
  text : ∃ text, stringField d .text = some text
  fromEmail : ∃ fromEmail, stringField d .fromEmail = some fromEmail
  time : ∃ t, timestampField d .time = some t

/-- What the readers of a profile rely on. -/
structure ProfileSchema (d : Document) : Prop where
  name : ∃ name, stringField d .name = some name

/-- The schema of the document under a path. -/
def Schema : DocPath → Document → Prop
  | .chat _ => ChatSchema
  | .member _ _ => MemberSchema
  | .message _ _ => MessageSchema
  | .profile _ => ProfileSchema

/-- Both default colours are on the picker. -/
theorem defaults_picked :
    defaultChatColour ∈ pickerColours ∧ defaultUserColour ∈ pickerColours := by
  decide

/-- A message with the schema can be read. -/
theorem MessageSchema.readMessage {d : QueryDocument} (h : MessageSchema d.data) :
    ∃ message, MessagesScreen.readMessage d = some message :=
  MessagesScreen.exists_readMessage h.text h.fromEmail

/-! ## The transforms on duplicate-free arrays of strings -/

/-- `arrayUnion` of one email keeps an array of distinct strings. -/
theorem unionEntries_singleton {users : List Email} (hnodup : users.Nodup) (email : Email) :
    ∃ users' : List Email, users'.Nodup ∧ unionEntries (users.map some) [email] = users'.map some ∧
      ∀ e, e ∈ users' ↔ e ∈ users ∨ e = email := by
  by_cases hmem : email ∈ users
  · refine ⟨users, hnodup, by simp [unionEntries_one, hmem], ?_⟩
    intro e
    constructor
    · exact Or.inl
    · rintro (h | rfl)
      · exact h
      · exact hmem
  · refine ⟨users ++ [email], ?_, by simp [unionEntries_one, hmem], by simp⟩
    rw [List.nodup_append']
    exact ⟨hnodup, List.nodup_singleton email, by simpa [List.disjoint_singleton] using hmem⟩

/-- `arrayRemove` of one email keeps an array of distinct strings. -/
theorem removeEntries_singleton {users : List Email} (hnodup : users.Nodup) (email : Email) :
    ∃ users' : List Email, users'.Nodup ∧ removeEntries (users.map some) [email] = users'.map some ∧
      ∀ e, e ∈ users' ↔ e ∈ users ∧ e ≠ email := by
  refine ⟨users.filter (fun e => e ≠ email), hnodup.filter _, ?_, by simp⟩
  simp [removeEntries_one, List.filter_map, Function.comp_def]

/-! ## Every write respects the schema -/

/-- A dictionary of one entry changes one field. -/
theorem assign_singleton (now : Time) (d : Document) (field : Field) (v : FieldValue) :
    DocumentStore.assign (FieldValue.eval now) d [(field, v)] =
      Function.update d field (some (v.eval now (d field))) := rfl

section merges

variable {d : Document} {field : Field} {v : Value}

@[simp] theorem stringField_update_self :
    stringField (Function.update d field (some v)) field = v.string? := by
  simp [stringField]

@[simp] theorem stringField_update_of_ne {field' : Field} (h : field' ≠ field) :
    stringField (Function.update d field (some v)) field' = stringField d field' := by
  simp [stringField, h]

@[simp] theorem timestampField_update_self :
    timestampField (Function.update d field (some v)) field = v.timestamp? := by
  simp [timestampField]

@[simp] theorem timestampField_update_of_ne {field' : Field} (h : field' ≠ field) :
    timestampField (Function.update d field (some v)) field' = timestampField d field' := by
  simp [timestampField, h]

end merges

/-- Membership of the `users` array after one of its transforms. -/
theorem ChatSchema.update_users {d : Document} (hd : ChatSchema d) {users : List Email}
    (hnodup : users.Nodup) :
    ChatSchema (Function.update d .users (some (.array (users.map some)))) where
  name := by simpa using hd.name
  colour := by simpa using hd.colour
  users := ⟨users, hnodup, by simp⟩
  chatLastActive := by simpa using hd.chatLastActive

/-- What `arrayUnion` of one email stores over a chat document. -/
theorem ChatSchema.eval_arrayUnion {d : Document} (hd : ChatSchema d) (now : Time)
    (email : Email) : ∃ users users' : List Email, d .users = some (.array (users.map some)) ∧
      FieldValue.eval now (.arrayUnion [email]) (d .users) = .array (users'.map some) ∧
      users'.Nodup ∧ ∀ e, e ∈ users' ↔ e ∈ users ∨ e = email := by
  obtain ⟨users, hnodup, husers⟩ := hd.users
  obtain ⟨users', hnodup', heq, hmem⟩ := unionEntries_singleton hnodup email
  refine ⟨users, users', husers, ?_, hnodup', hmem⟩
  simp [FieldValue.eval, husers, coercedArray, heq]

/-- What `arrayRemove` of one email stores over a chat document. -/
theorem ChatSchema.eval_arrayRemove {d : Document} (hd : ChatSchema d) (now : Time)
    (email : Email) : ∃ users users' : List Email, d .users = some (.array (users.map some)) ∧
      FieldValue.eval now (.arrayRemove [email]) (d .users) = .array (users'.map some) ∧
      users'.Nodup ∧ ∀ e, e ∈ users' ↔ e ∈ users ∧ e ≠ email := by
  obtain ⟨users, hnodup, husers⟩ := hd.users
  obtain ⟨users', hnodup', heq, hmem⟩ := removeEntries_singleton hnodup email
  refine ⟨users, users', husers, ?_, hnodup', hmem⟩
  simp [FieldValue.eval, husers, coercedArray, heq]

/-- **Writers respect the schema.** Laid over a document that has the schema, or over no
fields when it overwrites, every genuine write leaves a document with the schema. -/
theorem Genuine.schema {call : Call} {w : Write} (h : Genuine call w)
    (hcolour : ∀ colour ∈ call.pickedColour, colour ∈ pickerColours) (now : Time) {d : Document}
    (hd : if w.mode = .set then d = (fun _ => none) else Schema w.path d) :
    Schema w.path (DocumentStore.assign (FieldValue.eval now) d w.data) := by
  cases h with
  | baseDocument ref user name =>
    exact ⟨⟨name, rfl⟩, ⟨_, defaults_picked.1, rfl⟩, ⟨[user], List.nodup_singleton user, rfl⟩,
      ⟨now, rfl⟩⟩
  | creatorDocument ref user =>
    obtain rfl : d = fun _ => none := hd
    exact ⟨⟨"", rfl⟩, ⟨_, defaults_picked.2, rfl⟩, .inl rfl⟩
  | addedDocument chat user email name hemail hname =>
    exact ⟨⟨name, rfl⟩, ⟨_, defaults_picked.2, rfl⟩, .inr ⟨"", rfl⟩⟩
  | message chat id fromEmail text => exact ⟨⟨text, rfl⟩, ⟨fromEmail, rfl⟩, ⟨now, rfl⟩⟩
  | profile emailText => exact ⟨⟨"Null Name", rfl⟩⟩
  | addToUsers chat user email name hemail hname =>
    have hd : ChatSchema d := hd
    obtain ⟨users, users', _, hval, hnodup, _⟩ := hd.eval_arrayUnion now email
    change ChatSchema (Function.update d .users
      (some (FieldValue.eval now (.arrayUnion [email]) (d .users))))
    rw [hval]
    exact hd.update_users hnodup
  | removal chat member =>
    have hd : ChatSchema d := hd
    obtain ⟨users, users', _, hval, hnodup, _⟩ := hd.eval_arrayRemove now member
    change ChatSchema (Function.update d .users
      (some (FieldValue.eval now (.arrayRemove [member]) (d .users))))
    rw [hval]
    exact hd.update_users hnodup
  | userName chat member newUserName =>
    have hd : MemberSchema d := hd
    change MemberSchema (Function.update d .userName (some (.string newUserName)))
    constructor
    case name => simpa using hd.name
    case colour => simpa using hd.colour
    case userName => exact .inr ⟨newUserName, rfl⟩
  | userColour chat member colour =>
    have hd : MemberSchema d := hd
    change MemberSchema (Function.update d .colour (some (.string colour)))
    constructor
    case name => simpa using hd.name
    case colour => exact ⟨colour, hcolour colour rfl, rfl⟩
    case userName => simpa using hd.userName
  | chatColour chat colour =>
    have hd : ChatSchema d := hd
    change ChatSchema (Function.update d .colour (some (.string colour)))
    constructor
    case name => simpa using hd.name
    case colour => exact ⟨colour, hcolour colour rfl, rfl⟩
    case users => simpa using hd.users
    case chatLastActive => simpa using hd.chatLastActive
  | lastActive chat id =>
    have hd : ChatSchema d := hd
    change ChatSchema (Function.update d .chatLastActive (some (.timestamp now)))
    constructor
    case name => simpa using hd.name
    case colour => simpa using hd.colour
    case users => simpa using hd.users
    case chatLastActive => exact ⟨now, rfl⟩

/-! ## Every stored document has its schema -/

/-- The colours in a client's queue come from the picker. -/
def Client.ColoursPicked (client : Client) : Prop :=
  ∀ p ∈ client.queue, ∀ colour ∈ p.origin.pickedColour, colour ∈ pickerColours

/-- The stored documents have their schema, and waiting colours come from the picker. -/
structure SchemaSound (s : System) : Prop where
  stored : ∀ path d, s.db.lookup path = some d → Schema path d
  colours : ∀ c, (s.clients c).ColoursPicked

theorem SchemaSound.init : SchemaSound System.init where
  stored path d h := by simp [System.init] at h
  colours c p hp := by simp [System.init] at hp

theorem SchemaSound.idle {s t : System} (hs : SchemaSound s) (h : Idle s t) : SchemaSound t where
  stored := by rw [h.db_eq]; exact hs.stored
  colours c := by
    rw [Client.ColoursPicked, h.queue_eq]
    exact hs.colours c

theorem SchemaSound.issues {s t : System} {c : ClientId} {call : Call} {ws : List Write}
    (hs : SchemaSound s) (h : Issues s t c call ws) : SchemaSound t where
  stored := by rw [h.db_eq]; exact hs.stored
  colours := by
    refine h.forall_clients hs.colours ?_
    intro p hp
    rcases h.mem_queue_or hp with hp | ⟨_, w, _, rfl⟩
    · exact hs.colours c p hp
    · rcases h.source with hallowed | ⟨m, _, rfl⟩ | ⟨emailText, rfl⟩
      · exact hallowed.2.2.2
      · intro colour hcolour
        cases hcolour
      · intro colour hcolour
        cases hcolour

/-- The fields a committed write is laid over, and the document it leaves. -/
theorem QueuesSound.committed_document {s t : System} {c : ClientId} {now : Time} {p : Pending}
    {rest : List Pending} (hs : QueuesSound s) (h : Commits s t c now p rest) :
    ∃ d : Document, t.db.lookup p.write.path =
        some (DocumentStore.assign (FieldValue.eval now) d p.write.data) ∧
      if p.write.mode = .set then d = (fun _ => none)
      else s.db.lookup p.write.path = some d := by
  obtain ⟨d, hbase, hlookup⟩ := DocumentStore.Write.lookup_commit_self h.commit_eq
  refine ⟨d, hlookup, ?_⟩
  by_cases hmode : p.write.mode = .set
  · rw [if_pos hmode]
    rw [DocumentStore.Write.base_of_set hmode] at hbase
    exact (Option.some.inj hbase).symm
  · rw [if_neg hmode]
    obtain ⟨old, hold⟩ := DocumentStore.exists_lookup (hs.path_stored h hmode)
    rw [hold, DocumentStore.Write.base_of_ne_set hmode] at hbase
    rw [hold, hbase]

/-- What can be read of the written document before and after a commit. -/
theorem QueuesSound.committed_read {s t : System} {c : ClientId} {now : Time} {p : Pending}
    {rest : List Pending} (hs : QueuesSound s) (h : Commits s t c now p rest) {α : Type}
    (read : Document → Option α) {path : DocPath} (hpath : p.write.path = path) :
    ∃ d : Document, (t.db.lookup path).bind read =
        read (DocumentStore.assign (FieldValue.eval now) d p.write.data) ∧
      (p.write.mode = .set → d = fun _ => none) ∧
      (p.write.mode ≠ .set → (s.db.lookup path).bind read = read d) := by
  obtain ⟨d, hlookup, hd⟩ := hs.committed_document h
  rw [hpath] at hlookup hd
  refine ⟨d, by rw [hlookup, Option.bind_some], ?_, ?_⟩
  · intro hmode
    rwa [if_pos hmode] at hd
  · intro hmode
    rw [if_neg hmode] at hd
    rw [hd, Option.bind_some]

theorem SchemaSound.commits {s t : System} {c : ClientId} {now : Time} {p : Pending}
    {rest : List Pending} (hq : QueuesSound s) (hs : SchemaSound s)
    (h : Commits s t c now p rest) : SchemaSound t where
  stored := by
    intro path d hd
    by_cases hpath : path = p.write.path
    · subst hpath
      obtain ⟨old, hlookup, hold⟩ := hq.committed_document h
      obtain rfl : _ = d := Option.some.inj (hlookup.symm.trans hd)
      refine (hq.genuine_head h).schema (hs.colours c p (by simp [h.queue_eq])) now ?_
      split at hold
      · rwa [if_pos ‹_›]
      · rw [if_neg ‹_›]
        exact hs.stored _ _ hold
    · rw [DocumentStore.Write.lookup_commit_of_ne h.commit_eq hpath] at hd
      exact hs.stored path d hd
  colours := by
    refine h.forall_clients hs.colours ?_
    intro q hq'
    exact hs.colours c q (h.mem_queue hq')

/-- Every document of a reachable state has its schema. -/
theorem System.Reachable.schemaSound {s : System} (hs : s.Reachable) : SchemaSound s :=
  hs.induction .init (fun _ _ _ h => h.idle) (fun _ _ _ _ _ _ h => h.issues)
    (fun _ _ _ _ _ _ hu h => h.commits hu.queuesSound)

end MessagingApp
