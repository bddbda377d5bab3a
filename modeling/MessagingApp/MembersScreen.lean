import MessagingApp.Library.NestedListeners
import MessagingApp.Membership
import MessagingApp.NoTrap

/-!
# The members screen converges

`loadValidMembers` follows the chat document and registers one more `loadMembers`
listener on the member documents each time it is told something. Both are joined
on the screen. Once nothing is in flight and every listener is up to date, the
screen lists the members of the chat.
-/

namespace MessagingApp

/-- An open members screen of a chat over the running system. -/
def membersProgram (chat : ChatId) : NestedListeners.Program System Event (Option Document)
    (List QueryDocument) Empty GroupMembersScreen where
  step := System.step
  outer s := s.db.lookup (.chat chat)
  inner s := usersOf chat s.db
  onOuter result screen := (screen.loadValidMembers result).map fun handled =>
    (handled.screen, handled.registers (some chat) .loadMembers)
  onInner documents screen := screen.loadMembers (.ok documents)
  onLocal l := l.elim

/-- The system, the members screen and its listeners. -/
abbrev MembersRun :=
  NestedListeners.Config System (Option Document) (List QueryDocument) GroupMembersScreen

/-- A configuration of a members screen that was opened on a stored chat, while any clients
went on writing and every write was accepted. -/
def MembersRun.Reachable (chat : ChatId) (c : MembersRun) : Prop :=
  ∃ s : System, s.Reachable ∧ DocPath.chat chat ∈ s.db ∧
    (membersProgram chat).Reachable (fun e => e.accepted = true) (.opened s {}) c

/-! ## The callbacks -/

/-- What `loadValidMembers` does when it completes. -/
theorem loadValidMembers_eq_some {document : Option Document} {screen : GroupMembersScreen}
    {handled : Handled GroupMembersScreen} :
    screen.loadValidMembers (.ok document) = some handled ↔ ∃ d users, document = some d ∧
      stringsField d .users = some users ∧ handled =
        { screen := { screen with chatMemberArray := some users }, called := [.loadMembers] } := by
  cases document with
  | none => simp [GroupMembersScreen.loadValidMembers]
  | some d =>
    cases husers : stringsField d .users with
    | none => simp [GroupMembersScreen.loadValidMembers, husers]
    | some users => simp [GroupMembersScreen.loadValidMembers, husers, eq_comm]

/-- What `loadMembers` does when it completes. -/
theorem loadMembers_eq_some {documents : List QueryDocument} {screen t : GroupMembersScreen} :
    screen.loadMembers (.ok documents) = some t ↔ ∃ members,
      documents.mapM chatMember = some members ∧ t = { screen with
        chatMembers := members.filter (isValidMember screen.chatMemberArray)
        title := membersTitle (members.filter (isValidMember screen.chatMemberArray)).length
        rowCount := (members.filter (isValidMember screen.chatMemberArray)).length } := by
  cases hmembers : documents.mapM chatMember with
  | none => simp [GroupMembersScreen.loadMembers, hmembers]
  | some members => simp [GroupMembersScreen.loadMembers, hmembers, eq_comm]

/-- A member carries the identifier of its document as email. -/
theorem chatMember_email {d : QueryDocument} {user : User} (h : chatMember d = some user) :
    user.email = some d.documentID := by
  obtain ⟨colour, _, huser⟩ := Option.bind_eq_some_iff.mp h
  obtain rfl := Option.some.inj huser
  rfl

/-- The emails that pass the filter are the identifiers listed in the array. -/
theorem emails_filter_isValidMember {documents : List QueryDocument} {members : List User}
    (h : documents.mapM chatMember = some members) (users : List Email) :
    (members.filter (isValidMember (some users))).map User.email =
      ((documents.map QueryDocument.documentID).filter (· ∈ users)).map some := by
  have hforall := PartialLoops.mapM_eq_some_iff.mp h
  clear h
  induction hforall with
  | nil => rfl
  | @cons d user documents members hread _ ih =>
    have hemail := chatMember_email hread
    by_cases hmem : d.documentID ∈ users <;>
      simp [isValidMember, hemail, hmem, ih]

/-! ## Convergence -/

/-- How the two callbacks of the members screen depend on the two contents. -/
def membersRules (chat : ChatId) :
    NestedListeners.Rules (membersProgram chat) (fun e => e.accepted = true) where
  Valid s := s.Reachable ∧ DocPath.chat chat ∈ s.db
  Later _ _ := True
  Linked _ _ := True
  Fresh document screen := ∃ d users, document = some d ∧ stringsField d .users = some users ∧
    screen.chatMemberArray = some users
  Built _ documents screen := ∃ members, documents.mapM chatMember = some members ∧
    screen.chatMembers = members.filter (isValidMember screen.chatMemberArray) ∧
    screen.title = membersTitle screen.chatMembers.length ∧
    screen.rowCount = screen.chatMembers.length
  later_refl _ := trivial
  later_trans _ _ := trivial
  valid_step hv hok hstep := ⟨⟨hv.1.step hok hstep, System.mem_of_step hstep hv.2⟩, trivial⟩
  linked_later _ _ := trivial
  outer := by
    intro v w s t n _ _ _ h
    obtain ⟨handled, hhandled, h⟩ := Option.map_eq_some_iff.mp h
    obtain ⟨d, users, hd, husers, rfl⟩ := loadValidMembers_eq_some.mp hhandled
    obtain ⟨rfl, rfl⟩ := Prod.mk.inj h
    exact ⟨by simp, trivial, d, users, hd, husers, rfl⟩
  outer_error := by
    intro error s t n h
    exact (Prod.mk.inj (Option.some.inj h)).1.symm
  inner_linked _ _ _ _ := trivial
  inner_built := by
    rintro o i s t ⟨d, users, hd, husers, harray⟩ h
    obtain ⟨members, hmembers, rfl⟩ := loadMembers_eq_some.mp h
    exact ⟨⟨d, users, hd, husers, harray⟩, members, hmembers, rfl, rfl, rfl⟩
  local_linked _ _ := trivial
  local_fresh := by
    intro o l
    exact l.elim
  local_built := by
    intro o i l
    exact l.elim

/-- What the members screen should show for a chat document. -/
structure ShowsMembers (users : List Email) (screen : GroupMembersScreen) : Prop where
  /-- Every email of the array once and no other. -/
  emails : (screen.chatMembers.map User.email).Perm (users.map some)
  distinct : users.Nodup
  title : screen.title = "Members (" ++ toString users.length ++ ")"
  rowCount : screen.rowCount = users.length

/-- **The members screen converges to the real membership.** Once no write is in flight and no
listener has anything new to be told, the screen lists exactly the `users` array of the chat
document. -/
theorem members_screen_converges {chat : ChatId} {c : MembersRun} (hc : c.Reachable chat)
    (hwrites : c.now.NoWriteInFlight) (hsettled : (membersProgram chat).Settled c) :
    ∃ d users, c.now.db.lookup (.chat chat) = some d ∧ stringsField d .users = some users ∧
      ShowsMembers users c.screen := by
  obtain ⟨s, hs, hstored, hreach⟩ := hc
  have hsound := NestedListeners.Rules.sound_of_reachable (membersRules chat) ⟨hs, hstored⟩
    trivial hreach
  have hnow : c.now.Reachable := hsound.valid_now.1
  obtain ⟨⟨d, users, hd, husers, harray⟩, members, hmembers, hlist, htitle, hrows⟩ :=
    hsound.settled hsettled
  have hlookup : c.now.db.lookup (.chat chat) = some d := hd
  have hdocuments : (usersOf chat c.now.db).mapM chatMember = some members := hmembers
  obtain ⟨users', hnodup, harray'⟩ := (hnow.schemaSound.chat hlookup).users
  obtain rfl : users' = users := by
    rw [ChatSchema.stringsField_users harray'] at husers
    exact Option.some.inj husers
  have hemails : c.screen.chatMembers.map User.email =
      (((usersOf chat c.now.db).map QueryDocument.documentID).filter (· ∈ users')).map some := by
    rw [hlist, harray, emails_filter_isValidMember hdocuments]
  have hperm : (c.screen.chatMembers.map User.email).Perm (users'.map some) := by
    rw [hemails]
    refine List.Perm.map some ?_
    rw [List.perm_ext_iff_of_nodup ((usersOf_ids_nodup chat c.now.db).filter _) hnodup]
    intro email
    rw [List.mem_filter, decide_eq_true_eq]
    refine ⟨And.right, fun hmem => ⟨?_, hmem⟩⟩
    -- A listed member has a document, since no write is in flight.
    have hmember : IsMember c.now.db chat email :=
      ⟨d, hlookup, (hasUser_of_users harray' email).mpr hmem⟩
    obtain ⟨d', hd'⟩ := DocumentStore.exists_lookup
      (hnow.membersSound.document_of_isMember hwrites hmember)
    exact List.mem_map.mpr ⟨⟨email, d'⟩, mem_usersOf.mpr hd', rfl⟩
  have hlength : c.screen.chatMembers.length = users'.length := by
    simpa using hperm.length_eq
  exact ⟨d, users', hlookup, husers, hperm, hnodup, by rw [htitle, hlength, membersTitle],
    by rw [hrows, hlength]⟩

/-- The listeners of an open members screen can always catch up. -/
theorem members_screen_settles {chat : ChatId} {c : MembersRun} (hc : c.Reachable chat) :
    ∃ c' : MembersRun, c'.Reachable chat ∧ c'.now = c.now ∧ (membersProgram chat).Settled c' := by
  obtain ⟨s, hs, hstored, hreach⟩ := hc
  have hsound := NestedListeners.Rules.sound_of_reachable (membersRules chat) ⟨hs, hstored⟩
    trivial hreach
  obtain ⟨hnow, hnowStored⟩ := hsound.valid_now
  have hreaders := hnow.schemaSound.readersSafe
  have houter : ∀ screen, ∃ handled, (membersProgram chat).onOuter
      (.ok ((membersProgram chat).outer c.now)) screen = some handled := by
    intro screen
    obtain ⟨handled, hhandled⟩ := hreaders.validMembers chat hnowStored screen
    exact ⟨_, Option.map_eq_some_iff.mpr ⟨handled, hhandled, rfl⟩⟩
  obtain ⟨c', hc', hsame, hsettled⟩ := NestedListeners.Program.exists_settled hreach
    (NestedListeners.Program.Reachable.behind hreach) houter
    (fun screen => (hreaders.members chat screen).imp fun _ h => h.1)
  exact ⟨c', ⟨s, hs, hstored, hc'⟩, hsame, hsettled⟩

/-- The members screen of the sample session converges. -/
theorem members_screen_converges_on_sample : ∃ (c : MembersRun) (users : List Email),
    c.now.db.lookup (.chat "tea") ≠ none ∧ ShowsMembers users c.screen ∧
      c.now.NoWriteInFlight ∧ (membersProgram "tea").Settled c := by
  obtain ⟨s, hs, hquiet, hstored⟩ := System.exists_reachable_of_run System.sampleSession
    (by decide) (fun s => decide (DocPath.chat "tea" ∈ s.db)) (by decide)
  have hopened : MembersRun.Reachable "tea" (.opened s {}) :=
    ⟨s, hs, of_decide_eq_true hstored, .refl⟩
  obtain ⟨c, hc, hnow, hsettled⟩ := members_screen_settles hopened
  have hwrites : c.now.NoWriteInFlight := by rwa [hnow]
  obtain ⟨d, users, hd, _, hshows⟩ := members_screen_converges hc hwrites hsettled
  exact ⟨c, users, by simp [hd], hshows, hwrites, hsettled⟩

end MessagingApp
