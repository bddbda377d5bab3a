import MessagingApp.Library.NestedListeners
import MessagingApp.NoTrap

/-!
# The transcript converges

`loadUserOptions` follows the member documents and registers one more
`loadMessages` listener each time it is told something. All of these listeners
rebuild the same list and reload the same table. Once every listener is up to
date, the table shows one row for each stored message, newest first, in the
colours and under the names of the current member documents. The listeners here
are handed what the queries give on the documents of the server, at any lag; what
they are handed from the store of the client itself is the same once everything has
reached this client.
-/

namespace MessagingApp

/-- An open messages screen of a chat over the running system. -/
def transcriptProgram (chat : ChatId) : NestedListeners.Program System Event (List QueryDocument)
    (List QueryDocument) ℕ MessagesScreen where
  step := System.step
  outer s := usersOf chat s.db
  inner s := messagesOf chat s.db
  onOuter result screen :=
    let handled := screen.loadUserOptions result
    some (handled.screen, handled.registers (some chat) .loadMessages)
  onInner documents screen := screen.loadMessages (.ok documents)
  onLocal row screen := MessagesScreen.layoutRow row screen

/-- The system, the messages screen and its listeners. -/
abbrev TranscriptRun :=
  NestedListeners.Config System (List QueryDocument) (List QueryDocument) MessagesScreen

/-- A configuration of a messages screen that was opened in some state, while any clients
went on writing and every write was accepted. -/
def TranscriptRun.Reachable (chat : ChatId) (c : TranscriptRun) : Prop :=
  ∃ s : System, s.Reachable ∧
    (transcriptProgram chat).Reachable (fun e => e.accepted = true) (.opened s {}) c

/-! ## What the screen should show -/

/-- The colour in the member document of a sender. -/
def memberColour (db : Db) (chat : ChatId) (email : Email) : Option String :=
  (db.lookup (.member chat email)).bind fun d => stringField d .colour

/-- The name `loadUserOptions` makes of the member document of a sender. -/
def memberName (db : Db) (chat : ChatId) (email : Email) : Option String :=
  (db.lookup (.member chat email)).bind fun d => MessagesScreen.shownName ⟨email, d⟩

/-- The table shows the stored messages of a chat. -/
structure ShowsTranscript (db : Db) (chat : ChatId) (screen : MessagesScreen) : Prop where
  /-- The query returns every stored message once, newest first. -/
  stored : ∀ id, id ∈ (messagesOf chat db).map QueryDocument.documentID ↔
    DocPath.message chat id ∈ db
  distinct : ((messagesOf chat db).map QueryDocument.documentID).Nodup
  newest : (messagesOf chat db).Pairwise (newestFirst .time)
  /-- The table has one row for each of them. -/
  rowCount : screen.rowCount = (messagesOf chat db).length
  /-- Each row is made from its message and the current member documents. -/
  row : ∀ row d, (messagesOf chat db)[row]? = some d → ∃ message,
    MessagesScreen.readMessage d = some message ∧
      screen.cellForRowAt row =
        some (MessagesScreen.bubble (memberColour db chat) (memberName db chat) message)
  /-- A row the table has loaded since its last reload is still what it would load now. -/
  loaded : ∀ row < screen.rowCount, ∀ cell, screen.cells row = some cell →
    screen.cellForRowAt row = some cell

/-! ## The callbacks -/

/-- The screen took over every member document of a snapshot. -/
def TookOver (documents : List QueryDocument) (screen : MessagesScreen) : Prop :=
  ∀ d ∈ documents, screen.userOptions d.documentID = stringField d.data .colour ∧
    screen.displayName d.documentID = MessagesScreen.shownName d

/-- The screen lists the messages of a snapshot, and the rows loaded so far are up to date. -/
def Lists (documents : List QueryDocument) (screen : MessagesScreen) : Prop :=
  documents.mapM MessagesScreen.readMessage = some screen.messages ∧
    (documents ≠ [] → screen.rowCount = documents.length ∧
      ∀ row cell, screen.cells row = some cell → screen.cellForRowAt row = some cell)

/-- The screen knows only names of stored member documents, and has rows only when there are
messages. -/
structure Anchored (chat : ChatId) (db : Db) (screen : MessagesScreen) : Prop where
  options : ∀ email, DocPath.member chat email ∉ db →
    screen.userOptions email = none ∧ screen.displayName email = none
  rows : 0 < screen.rowCount → ∃ id, DocPath.message chat id ∈ db

theorem Anchored.mono {chat : ChatId} {db db' : Db} {screen : MessagesScreen}
    (h : Anchored chat db screen) (hsub : ∀ path ∈ db, path ∈ db') :
    Anchored chat db' screen where
  options email hemail := h.options email (fun hmem => hemail (hsub _ hmem))
  rows hrows := (h.rows hrows).imp fun _ hmem => hsub _ hmem

/-- Taking over the member documents of an earlier state. -/
theorem Anchored.loadUserOptions {chat : ChatId} {db db' : Db} {screen : MessagesScreen}
    (h : Anchored chat db' screen) (hsub : ∀ path ∈ db, path ∈ db') :
    Anchored chat db' (screen.loadUserOptions (.ok (usersOf chat db))).screen where
  options email hemail := by
    have hnot : email ∉ (usersOf chat db).map QueryDocument.documentID := by
      intro hmem
      obtain ⟨d, hd, rfl⟩ := List.mem_map.mp hmem
      exact hemail (hsub _ (DocumentStore.mem_of_lookup (mem_usersOf.mp hd)))
    obtain ⟨hoptions, hnames⟩ := screen.foldl_loadUserOption_of_not_mem hnot
    exact ⟨hoptions.trans (h.options email hemail).1, hnames.trans (h.options email hemail).2⟩
  rows hrows := by
    rw [(screen.loadUserOptions_frame _).2.1] at hrows
    exact h.rows hrows

/-- Rebuilding the list from the messages of an earlier state. -/
theorem Anchored.rebuilt {chat : ChatId} {db db' : Db} {screen : MessagesScreen}
    {messages : List Message} (h : Anchored chat db' screen) (hsub : ∀ path ∈ db, path ∈ db')
    (hread : (messagesOf chat db).mapM MessagesScreen.readMessage = some messages) :
    Anchored chat db' (screen.rebuilt messages) where
  options email hemail := by simpa using h.options email hemail
  rows hrows := by
    by_cases hnil : messages = []
    · subst hnil
      exact h.rows (by simpa [MessagesScreen.rebuilt] using hrows)
    · obtain ⟨message, hmessage⟩ := List.exists_mem_of_ne_nil messages hnil
      obtain ⟨d, hd, _⟩ := PartialLoops.mem_of_mapM hread hmessage
      exact ⟨d.documentID, hsub _ (DocumentStore.mem_of_lookup (mem_messagesOf.mp hd).1)⟩

/-- The `loadMessages` listener lists its snapshot, and no row is loaded yet. -/
theorem Lists.rebuilt {documents : List QueryDocument} {messages : List Message}
    (h : documents.mapM MessagesScreen.readMessage = some messages) (screen : MessagesScreen) :
    Lists documents (screen.rebuilt messages) := by
  refine ⟨by simpa using h, ?_⟩
  intro hne
  have hlength : documents.length = messages.length :=
    (PartialLoops.mapM_eq_some_iff.mp h).length_eq
  have hmessages : messages ≠ [] := by
    rintro rfl
    exact hne (List.length_eq_zero_iff.mp hlength)
  refine ⟨by rw [MessagesScreen.rebuilt_rowCount hmessages, hlength], ?_⟩
  intro row cell hcell
  simp [MessagesScreen.rebuilt_cells hmessages] at hcell

/-- Laying out a row loads what the row shows. -/
theorem Lists.layoutRow {documents : List QueryDocument} {screen screen' : MessagesScreen}
    {row : ℕ} (h : Lists documents screen)
    (hrow : MessagesScreen.layoutRow row screen = some screen') : Lists documents screen' := by
  obtain ⟨_, cell, hcell, rfl⟩ := MessagesScreen.layoutRow_eq_some.mp hrow
  refine ⟨h.1, ?_⟩
  intro hne
  refine ⟨(h.2 hne).1, ?_⟩
  intro row' cell' hcell'
  change Function.update screen.cells row (some cell) row' = some cell' at hcell'
  by_cases heq : row' = row
  · subst heq
    rw [Function.update_self] at hcell'
    obtain rfl := Option.some.inj hcell'
    exact hcell
  · rw [Function.update_of_ne heq] at hcell'
    exact (h.2 hne).2 row' cell' hcell'

/-- How the callbacks of the messages screen depend on the two contents. -/
def transcriptRules (chat : ChatId) :
    NestedListeners.Rules (transcriptProgram chat) (fun e => e.accepted = true) where
  Valid s := s.Reachable
  Later s t := ∀ path ∈ s.db, path ∈ t.db
  Linked s screen := Anchored chat s.db screen
  Fresh documents screen := TookOver documents screen ∧
    (documents.map QueryDocument.documentID).Nodup
  Built _ documents screen := Lists documents screen
  later_refl _ _ hmem := hmem
  later_trans huv hvw path hmem := hvw path (huv path hmem)
  valid_step hv hok hstep := ⟨hv.step hok hstep, fun _ hmem => System.mem_of_step hstep hmem⟩
  linked_later hlinked hlater := hlinked.mono hlater
  outer := by
    intro v w s t n hv hlater hlinked h
    obtain ⟨rfl, rfl⟩ := Prod.mk.inj (Option.some.inj h)
    have hnodup := usersOf_ids_nodup chat v.db
    exact ⟨by simp [MessagesScreen.loadUserOptions], hlinked.loadUserOptions hlater,
      fun d hd => s.foldl_loadUserOption_of_mem hnodup hd, hnodup⟩
  outer_error := by
    intro error s t n h
    exact (Prod.mk.inj (Option.some.inj h)).1.symm
  inner_linked := by
    intro v w s t hv hlater hlinked h
    obtain ⟨messages, hread, rfl⟩ := MessagesScreen.mapM_of_loadMessages h
    exact hlinked.rebuilt hlater hread
  inner_built := by
    rintro o i s t ⟨htook, hnodup⟩ h
    obtain ⟨messages, hread, rfl⟩ := MessagesScreen.mapM_of_loadMessages h
    exact ⟨⟨by simpa [TookOver] using htook, hnodup⟩, Lists.rebuilt hread s⟩
  local_linked := by
    intro w row s t hlinked h
    obtain ⟨_, cell, _, rfl⟩ := MessagesScreen.layoutRow_eq_some.mp h
    exact ⟨hlinked.options, hlinked.rows⟩
  local_fresh := by
    intro o row s t hfresh h
    obtain ⟨_, cell, _, rfl⟩ := MessagesScreen.layoutRow_eq_some.mp h
    exact hfresh
  local_built hbuilt h := hbuilt.layoutRow h

/-- A screen that took over the current member documents has their colours and names. -/
theorem TookOver.eq_member {chat : ChatId} {db : Db} {screen : MessagesScreen}
    (htook : TookOver (usersOf chat db) screen) (hanchored : Anchored chat db screen) :
    screen.userOptions = memberColour db chat ∧ screen.displayName = memberName db chat := by
  have hboth : ∀ email, screen.userOptions email = memberColour db chat email ∧
      screen.displayName email = memberName db chat email := by
    intro email
    cases hlookup : db.lookup (.member chat email) with
    | none =>
      simpa [memberColour, memberName, hlookup] using
        hanchored.options email (AList.lookup_eq_none.mp hlookup)
    | some d =>
      have hmem : (⟨email, d⟩ : QueryDocument) ∈ usersOf chat db := mem_usersOf.mpr hlookup
      simpa [memberColour, memberName, hlookup] using htook _ hmem
  exact ⟨funext fun email => (hboth email).1, funext fun email => (hboth email).2⟩

/-- The colours of the stored member documents come from the picker. -/
theorem SchemaSound.optionsPicked {s : System} (hs : SchemaSound s) {chat : ChatId}
    {screen : MessagesScreen} (h : screen.userOptions = memberColour s.db chat) :
    screen.OptionsPicked := by
  intro email colour hcolour
  rw [h] at hcolour
  obtain ⟨d, hd, hfield⟩ := Option.bind_eq_some_iff.mp hcolour
  obtain ⟨colour', hpicked, hcolour'⟩ := (hs.member hd).colour
  obtain rfl := Option.some.inj (hcolour'.symm.trans hfield)
  exact hpicked

/-- Nothing is shown when a screen is opened. -/
theorem anchored_opened (chat : ChatId) (db : Db) : Anchored chat db {} :=
  ⟨fun _ _ => ⟨rfl, rfl⟩, fun h => absurd h (by decide)⟩

/-- Reachable configurations are sound. -/
theorem TranscriptRun.Reachable.sound {chat : ChatId} {c : TranscriptRun}
    (hc : c.Reachable chat) : (transcriptRules chat).Sound c := by
  obtain ⟨s, hs, hreach⟩ := hc
  exact NestedListeners.Rules.sound_of_reachable (transcriptRules chat) hs
    (anchored_opened chat s.db) hreach

/-- The system under a reachable configuration is reachable. -/
theorem TranscriptRun.Reachable.now {chat : ChatId} {c : TranscriptRun} (hc : c.Reachable chat) :
    c.now.Reachable := hc.sound.valid_now

/-- Once `loadUserOptions` was told the current member documents, the screen has their colours
and names. -/
theorem TranscriptRun.Reachable.eq_member {chat : ChatId} {c : TranscriptRun}
    (hc : c.Reachable chat)
    (htold : ∃ o, c.outerSeen = some o ∧ o.content = usersOf chat c.now.db) :
    c.screen.userOptions = memberColour c.now.db chat ∧
      c.screen.displayName = memberName c.now.db chat := by
  obtain ⟨o, ho, hcontent⟩ := htold
  obtain ⟨⟨htook, _⟩, _⟩ := hc.sound.tracked o ho
  rw [hcontent] at htook
  exact htook.eq_member hc.sound.linked

/-- **What a row says**, in terms of the fields of the documents: the text of the message, and the
name and the colour that the member document of its sender has. -/
theorem ShowsTranscript.cell {db : Db} {chat : ChatId} {screen : MessagesScreen}
    (h : ShowsTranscript db chat screen) {row : ℕ} {d : QueryDocument}
    (hd : (messagesOf chat db)[row]? = some d) : ∃ text fromEmail,
    stringField d.data .text = some text ∧ stringField d.data .fromEmail = some fromEmail ∧
      screen.cellForRowAt row = some {
        nameLabel := (db.lookup (.member chat fromEmail)).bind fun member =>
          if stringField member .userName = some "" then some fromEmail
          else stringField member .userName
        textContent := text
        hexCode := (((db.lookup (.member chat fromEmail)).bind (stringField · .colour)).filter
          (· ≠ "")).getD "0A82E1" } := by
  obtain ⟨message, hread, hcell⟩ := h.row row d hd
  obtain ⟨htext, hfromEmail, _, _⟩ := MessagesScreen.readMessage_eq_some.mp hread
  refine ⟨message.text, message.fromEmail, htext, hfromEmail, hcell.trans ?_⟩
  have hcolour : MessagesScreen.colourOf (memberColour db chat) message.fromEmail =
      ((memberColour db chat message.fromEmail).filter (· ≠ "")).getD "0A82E1" := by
    cases hmember : memberColour db chat message.fromEmail with
    | none => simp [MessagesScreen.colourOf, hmember]
    | some colour =>
      by_cases hempty : colour = "" <;>
        simp [MessagesScreen.colourOf, hmember, hempty, Option.filter]
  rw [MessagesScreen.bubble, hcolour]
  rfl

/-- The listeners of an open messages screen can always catch up. -/
theorem transcript_settles {chat : ChatId} {c : TranscriptRun} (hc : c.Reachable chat) :
    ∃ c' : TranscriptRun, c'.Reachable chat ∧ c'.now = c.now ∧
      (transcriptProgram chat).Settled c' := by
  have hreaders := hc.now.schemaSound.readersSafe
  obtain ⟨s, hs, hreach⟩ := hc
  obtain ⟨c', hc', hsame, hsettled⟩ := NestedListeners.Program.exists_settled hreach
    (NestedListeners.Program.Reachable.behind hreach) (fun screen => ⟨_, rfl⟩)
    (hreaders.messages chat)
  exact ⟨c', ⟨s, hs, hc'⟩, hsame, hsettled⟩

end MessagingApp
