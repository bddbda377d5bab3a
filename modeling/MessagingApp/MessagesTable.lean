import MessagingApp.Library.PartialLoops
import MessagingApp.MessagesScreen

/-!
# What the handlers of the messages screen compute

The loops of `loadMessages` and `loadUserOptions` in closed form, and when a row of
the table can be built. The later files use these lemmas and never run the loops.
-/

namespace MessagingApp

namespace MessagesScreen

/-! ## The loop over the messages -/

/-- A message holds the text and the sender of its document, under the document's identifier,
and the time when the document has one. -/
theorem readMessage_eq_some {d : QueryDocument} {message : Message} :
    readMessage d = some message ↔ stringField d.data .text = some message.text ∧
      stringField d.data .fromEmail = some message.fromEmail ∧ message.id = d.documentID ∧
      message.time = timestampField d.data .time := by
  constructor
  · intro h
    obtain ⟨text, htext, h⟩ := Option.bind_eq_some_iff.mp h
    obtain ⟨fromEmail, hfromEmail, h⟩ := Option.bind_eq_some_iff.mp h
    obtain rfl := Option.some.inj h
    exact ⟨htext, hfromEmail, rfl, rfl⟩
  · obtain ⟨id, text, fromEmail, time⟩ := message
    rintro ⟨htext, hfromEmail, hid, htime⟩
    obtain rfl : id = d.documentID := hid
    obtain rfl : time = timestampField d.data .time := htime
    simp [readMessage, htext, hfromEmail]

/-- A document with the two fields that are cast can be read. -/
theorem exists_readMessage {d : QueryDocument}
    (htext : ∃ text, stringField d.data .text = some text)
    (hfromEmail : ∃ fromEmail, stringField d.data .fromEmail = some fromEmail) :
    ∃ message, readMessage d = some message := by
  obtain ⟨text, htext⟩ := htext
  obtain ⟨fromEmail, hfromEmail⟩ := hfromEmail
  exact ⟨⟨_, text, fromEmail, _⟩, readMessage_eq_some.mpr ⟨htext, hfromEmail, rfl, rfl⟩⟩

/-- The screen after a snapshot with the given messages. An empty snapshot clears the
messages without reloading the table. -/
def rebuilt (messages : List Message) (s : MessagesScreen) : MessagesScreen :=
  if messages = [] then { s with messages := [] }
  else { s with messages := messages, rowCount := messages.length, cells := fun _ => none }

@[simp] theorem rebuilt_messages (messages : List Message) (s : MessagesScreen) :
    (rebuilt messages s).messages = messages := by
  unfold rebuilt
  split
  · exact (by assumption : messages = []).symm
  · rfl

@[simp] theorem rebuilt_userOptions (messages : List Message) (s : MessagesScreen) :
    (rebuilt messages s).userOptions = s.userOptions := by
  unfold rebuilt
  split <;> rfl

@[simp] theorem rebuilt_displayName (messages : List Message) (s : MessagesScreen) :
    (rebuilt messages s).displayName = s.displayName := by
  unfold rebuilt
  split <;> rfl

theorem rebuilt_rowCount {messages : List Message} (h : messages ≠ []) (s : MessagesScreen) :
    (rebuilt messages s).rowCount = messages.length := by
  simp [rebuilt, h]

theorem rebuilt_cells {messages : List Message} (h : messages ≠ []) (s : MessagesScreen) :
    (rebuilt messages s).cells = fun _ => none := by
  simp [rebuilt, h]

/-- Appending a message and reloading the table never scrolls an empty table. -/
theorem loadMessage_of_read (s : MessagesScreen) {d : QueryDocument} {message : Message}
    (h : readMessage d = some message) :
    s.loadMessage d = some { s with
      messages := s.messages ++ [message]
      rowCount := s.messages.length + 1
      cells := fun _ => none } := by
  simp [loadMessage, h, updateMessages]

/-- An iteration completes only on a message that can be read. -/
theorem read_of_loadMessage {s t : MessagesScreen} {d : QueryDocument}
    (h : s.loadMessage d = some t) : ∃ message, readMessage d = some message := by
  obtain ⟨message, hmessage, _⟩ := Option.bind_eq_some_iff.mp h
  exact ⟨message, hmessage⟩

/-- The loop of `loadMessages`, started behind some messages. -/
theorem foldlM_loadMessage {docs : List QueryDocument} {messages : List Message}
    (h : docs.mapM readMessage = some messages) (s : MessagesScreen) :
    docs.foldlM loadMessage s = some
      (if messages = [] then s
       else { s with
         messages := s.messages ++ messages
         rowCount := s.messages.length + messages.length
         cells := fun _ => none }) := by
  have hforall := PartialLoops.mapM_eq_some_iff.mp h
  clear h
  induction hforall generalizing s with
  | nil => rfl
  | @cons d message docs messages hread _ ih =>
    rw [List.foldlM_cons, s.loadMessage_of_read hread]
    change docs.foldlM loadMessage _ = _
    rw [ih]
    have hcount : s.messages.length + 1 + messages.length =
        s.messages.length + (messages.length + 1) := by omega
    cases messages with
    | nil => simp
    | cons next messages => simpa using hcount

/-- The listener of `loadMessages` shows exactly the messages of a snapshot. -/
theorem loadMessages_ok {docs : List QueryDocument} {messages : List Message}
    (h : docs.mapM readMessage = some messages) (s : MessagesScreen) :
    s.loadMessages (.ok docs) = some (rebuilt messages s) := by
  rw [loadMessages]
  simp only [foldlM_loadMessage h]
  unfold rebuilt
  split <;> simp

/-- The listener of `loadMessages` completes only when every message can be read. -/
theorem mapM_of_loadMessages {docs : List QueryDocument} {s t : MessagesScreen}
    (h : s.loadMessages (.ok docs) = some t) :
    ∃ messages, docs.mapM readMessage = some messages ∧ t = rebuilt messages s := by
  have hread : ∀ d ∈ docs, ∃ message, readMessage d = some message := by
    have hloop : docs.foldlM loadMessage { s with messages := [] } = some t := h
    clear h
    generalize { s with messages := [] } = u at hloop
    induction docs generalizing u with
    | nil => simp
    | cons d docs ih =>
      rw [List.foldlM_cons] at hloop
      obtain ⟨v, hv, hrest⟩ := Option.bind_eq_some_iff.mp hloop
      intro d' hd'
      rcases List.mem_cons.mp hd' with rfl | hd'
      · exact read_of_loadMessage hv
      · exact ih v hrest d' hd'
  obtain ⟨messages, hmessages⟩ := PartialLoops.exists_mapM hread
  rw [loadMessages_ok hmessages, Option.some.injEq] at h
  exact ⟨messages, hmessages, h.symm⟩

/-! ## The loop over the member documents -/

section userOptions

variable (s : MessagesScreen)

/-- `loadUserOptions` touches neither the messages nor the table. -/
theorem loadUserOptions_frame (result : Snapshot (List QueryDocument)) :
    (s.loadUserOptions result).screen.messages = s.messages ∧
      (s.loadUserOptions result).screen.rowCount = s.rowCount ∧
      (s.loadUserOptions result).screen.cells = s.cells := by
  cases result with
  | error e => exact ⟨rfl, rfl, rfl⟩
  | ok docs =>
    change (docs.foldl loadUserOption s).messages = _ ∧ _
    induction docs generalizing s with
    | nil => exact ⟨rfl, rfl, rfl⟩
    | cons d docs ih => exact ih (s.loadUserOption d)

/-- A name without a document keeps its colour and its name. -/
theorem foldl_loadUserOption_of_not_mem {docs : List QueryDocument} {email : Email}
    (h : email ∉ docs.map QueryDocument.documentID) :
    (docs.foldl loadUserOption s).userOptions email = s.userOptions email ∧
      (docs.foldl loadUserOption s).displayName email = s.displayName email := by
  induction docs generalizing s with
  | nil => exact ⟨rfl, rfl⟩
  | cons d docs ih =>
    rw [List.map_cons, List.mem_cons, not_or] at h
    obtain ⟨hoptions, hnames⟩ := ih (s.loadUserOption d) h.2
    rw [List.foldl_cons, hoptions, hnames]
    exact ⟨Function.update_of_ne h.1 _ _, Function.update_of_ne h.1 _ _⟩

/-- Each document of a snapshot that repeats no identifier sets the colour and the name of
its member. -/
theorem foldl_loadUserOption_of_mem {docs : List QueryDocument}
    (hnodup : (docs.map QueryDocument.documentID).Nodup) {d : QueryDocument} (hd : d ∈ docs) :
    (docs.foldl loadUserOption s).userOptions d.documentID = stringField d.data .colour ∧
      (docs.foldl loadUserOption s).displayName d.documentID = shownName d := by
  induction docs generalizing s with
  | nil => cases hd
  | cons d' docs ih =>
    rw [List.map_cons, List.nodup_cons] at hnodup
    rw [List.foldl_cons]
    rcases List.mem_cons.mp hd with rfl | hd
    · obtain ⟨hoptions, hnames⟩ := foldl_loadUserOption_of_not_mem (s.loadUserOption d) hnodup.1
      rw [hoptions, hnames]
      exact ⟨Function.update_self _ _ _, Function.update_self _ _ _⟩
    · exact ih (s.loadUserOption d') hnodup.2 hd

end userOptions

/-! ## Rows -/

/-- The cell made for a message. -/
def bubble (userOptions displayName : Email → Option String) (message : Message) :
    MessageBubble :=
  { nameLabel := displayName message.fromEmail
    textContent := message.text
    hexCode := colourOf userOptions message.fromEmail }

/-- A row can be built exactly when its message exists and its sender's colour is one. -/
theorem cellForRowAt_eq_some {s : MessagesScreen} {row : ℕ} {cell : MessageBubble} :
    s.cellForRowAt row = some cell ↔ ∃ message, s.messages[row]? = some message ∧
      (hexColour (colourOf s.userOptions message.fromEmail)).isSome ∧
      cell = bubble s.userOptions s.displayName message := by
  cases hmessage : s.messages[row]? with
  | none => simp [cellForRowAt, hmessage]
  | some message =>
    cases hcolour : hexColour (colourOf s.userOptions message.fromEmail) with
    | none => simp [cellForRowAt, loadMessageColour, hmessage, hcolour]
    | some rgb =>
      simp only [cellForRowAt, loadMessageColour, hmessage, hcolour, bubble, Option.bind_eq_bind,
        Option.bind_some, Option.pure_def, Option.some.injEq, exists_eq_left', Option.isSome_some,
        true_and]
      exact eq_comm

/-- What laying out a row does. -/
theorem layoutRow_eq_some {s t : MessagesScreen} {row : ℕ} :
    layoutRow row s = some t ↔ row < s.rowCount ∧ ∃ cell, s.cellForRowAt row = some cell ∧
      t = { s with cells := Function.update s.cells row (some cell) } := by
  by_cases hrow : row < s.rowCount
  · cases hcell : s.cellForRowAt row with
    | none => simp [layoutRow, hrow, hcell]
    | some cell => simp [layoutRow, hrow, hcell, eq_comm]
  · simp [layoutRow, hrow]

end MessagesScreen

end MessagingApp
