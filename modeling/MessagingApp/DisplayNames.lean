import MessagingApp.Library.Histories
import MessagingApp.Transcript

/-!
# Names of senders

A member document comes from `newChat`, which writes no `userName`, or from
`addNewUser`, which writes an empty one, and `updateUserName` changes it later. This
file determines for which histories a sender is shown under a name.
-/

namespace MessagingApp

/-! ## Operations on the name of a member -/

/-- The committed write gives the member document of `email` a `userName`. -/
def Names (chat : ChatId) (email : Email) (call : Call) (w : Write) : Prop :=
  (∃ user name, call = .addNewUser chat user ∧ w = addedDocument chat email name) ∨
    ∃ newUserName, call = .updateUserName chat email newUserName ∧
      w = userNameWrite newUserName chat email

/-- The committed write overwrites the member document of `email` as the chat's creator. -/
def CreatesMember (chat : ChatId) (email : Email) (call : Call) (w : Write) : Prop :=
  ∃ name, call = .newChat chat name ∧ w = creatorDocument chat email

/-- The entry of the log is an operation on the name of `email`: `true` when it gives one. -/
def NamingOp (chat : ChatId) (email : Email) (entry : Commit) : Bool → Prop
  | true => Names chat email entry.origin entry.write
  | false => CreatesMember chat email entry.origin entry.write

/-- The last operation on the name of `email` that was applied in the chat gave one (`true`) or
was the creation of the chat by `email` (`false`). -/
def LastNaming (log : List Commit) (chat : ChatId) (email : Email) : Bool → Prop :=
  Histories.Last (NamingOp chat email) log

/-- The `userName` stored for a member. -/
def memberUserName (db : Db) (chat : ChatId) (email : Email) : Option String :=
  (db.lookup (.member chat email)).bind fun d => stringField d .userName

theorem Names.path_eq {chat : ChatId} {email : Email} {call : Call} {w : Write}
    (h : Names chat email call w) : w.path = .member chat email := by
  rcases h with ⟨user, name, _, rfl⟩ | ⟨newUserName, _, rfl⟩ <;> rfl

theorem CreatesMember.path_eq {chat : ChatId} {email : Email} {call : Call} {w : Write}
    (h : CreatesMember chat email call w) : w.path = .member chat email := by
  obtain ⟨name, _, rfl⟩ := h
  rfl

/-- No write names a member and creates it without a name. -/
theorem CreatesMember.not_names {chat : ChatId} {email : Email} {call : Call} {w : Write}
    (h : CreatesMember chat email call w) : ¬ Names chat email call w := by
  obtain ⟨name, rfl, _⟩ := h
  rintro (⟨user, name', hcall, _⟩ | ⟨newUserName, hcall, _⟩) <;> cases hcall

/-- What a write to a member document does to the name in it. -/
theorem Genuine.naming {call : Call} {w : Write} (h : Genuine call w) {chat : ChatId}
    {email : Email} (hpath : w.path = .member chat email) (now : Time) {d : Document}
    (hset : w.mode = .set → d = fun _ => none) :
    (Names chat email call w ∧
      (stringField (DocumentStore.assign (FieldValue.eval now) d w.data) .userName).isSome) ∨
    (CreatesMember chat email call w ∧
      stringField (DocumentStore.assign (FieldValue.eval now) d w.data) .userName = none) ∨
    (w.mode ≠ .set ∧ ¬ Names chat email call w ∧ ¬ CreatesMember chat email call w ∧
      stringField (DocumentStore.assign (FieldValue.eval now) d w.data) .userName =
        stringField d .userName) := by
  cases h with
  | creatorDocument ref user name =>
    obtain ⟨rfl, rfl⟩ := DocPath.member.inj hpath
    obtain rfl := hset rfl
    exact .inr (.inl ⟨⟨name, rfl, rfl⟩, rfl⟩)
  | addedDocument chat' user email' name hemail hname =>
    obtain ⟨rfl, rfl⟩ := DocPath.member.inj hpath
    exact .inl ⟨.inl ⟨user, name, rfl, rfl⟩, rfl⟩
  | userName chat' member newUserName =>
    obtain ⟨rfl, rfl⟩ := DocPath.member.inj hpath
    exact .inl ⟨.inr ⟨newUserName, rfl, rfl⟩, rfl⟩
  | userColour chat' member colour =>
    refine .inr (.inr ⟨by simp [userColourWrite], ?_, ?_, ?_⟩)
    · rintro (⟨user, name, hcall, _⟩ | ⟨newUserName, hcall, _⟩) <;> cases hcall
    · rintro ⟨name, hcall, _⟩
      cases hcall
    · simp [userColourWrite, assign_singleton]
  | _ => cases hpath

/-- What a commit does to the stored name of a member. -/
theorem Commits.memberUserName {s t : System} {c : ClientId} {now : Time} {p : Pending}
    {rest : List Pending} (hq : QueuesSound s) (h : Commits s t c now p rest) (chat : ChatId)
    (email : Email) :
    (Names chat email p.origin p.write ∧
      (MessagingApp.memberUserName t.db chat email).isSome) ∨
    (CreatesMember chat email p.origin p.write ∧
      MessagingApp.memberUserName t.db chat email = none) ∨
    (¬ Names chat email p.origin p.write ∧ ¬ CreatesMember chat email p.origin p.write ∧
      MessagingApp.memberUserName t.db chat email =
        MessagingApp.memberUserName s.db chat email) := by
  by_cases hpath : p.write.path = .member chat email
  · obtain ⟨d, hafter, hset, hbefore⟩ :=
      hq.committed_read h (fun d => stringField d .userName) hpath
    rw [MessagingApp.memberUserName, MessagingApp.memberUserName, hafter]
    rcases (hq.genuine_head h).naming hpath now hset with
      hnames | hcreates | ⟨hmode, hnames, hcreates, hkept⟩
    · exact .inl hnames
    · exact .inr (.inl hcreates)
    · exact .inr (.inr ⟨hnames, hcreates, by rw [hkept, hbefore hmode]⟩)
  · refine .inr (.inr ⟨fun hnames => hpath hnames.path_eq, fun hcreates => hpath hcreates.path_eq,
      ?_⟩)
    rw [MessagingApp.memberUserName, MessagingApp.memberUserName,
      DocumentStore.Write.lookup_commit_of_ne h.commit_eq (Ne.symm hpath)]

/-! ## The stored name and the history -/

/-- A member has a stored `userName` exactly when the last operation on it gave one. -/
def NamingLogged (s : System) : Prop :=
  ∀ chat email, (memberUserName s.db chat email).isSome ↔ LastNaming s.log chat email true

theorem NamingLogged.init : NamingLogged System.init := by
  intro chat email
  refine iff_of_false ?_ Histories.not_last_nil
  simp [memberUserName, System.init]

theorem NamingLogged.commits {s t : System} {c : ClientId} {now : Time} {p : Pending}
    {rest : List Pending} (hq : QueuesSound s) (hs : NamingLogged s)
    (h : Commits s t c now p rest) : NamingLogged t := by
  intro chat email
  rw [h.log_eq]
  refine Histories.iff_last_append (hs chat email) ?_
  rcases h.memberUserName hq chat email with
    hnames | ⟨hcreates, hnone⟩ | ⟨hnames, hcreates, hkept⟩
  · exact .inl hnames
  · exact .inr (.inl ⟨hcreates, hcreates.not_names, by simp [hnone]⟩)
  · exact .inr (.inr ⟨hnames, hcreates, by rw [hkept]⟩)

theorem System.Reachable.namingLogged {s : System} (hs : s.Reachable) : NamingLogged s :=
  hs.log_induction .init
    (fun _ _ hdb hlog hI chat email => by rw [hdb, hlog]; exact hI chat email)
    (fun _ _ _ _ _ _ hu hI h => hI.commits hu.queuesSound h)

/-! ## The label of a sender -/

/-- The name a sender should be shown under: the stored `userName` when it is not empty, and
the email otherwise. -/
def expectedName (db : Db) (chat : ChatId) (email : Email) : String :=
  match memberUserName db chat email with
  | some userName => if userName = "" then email else userName
  | none => email

/-- Some stored message of the chat was sent by `email`. -/
def SentBy (db : Db) (chat : ChatId) (email : Email) : Prop :=
  ∃ id d, db.lookup (.message chat id) = some d ∧ stringField d .fromEmail = some email

/-- The name made of a member document is the expected one exactly when a `userName` is
stored. -/
theorem memberName_eq_expectedName_iff (db : Db) (chat : ChatId) (email : Email) :
    memberName db chat email = some (expectedName db chat email) ↔
      (memberUserName db chat email).isSome := by
  cases hlookup : db.lookup (.member chat email) with
  | none => simp [memberName, memberUserName, hlookup]
  | some d =>
    cases hname : stringField d .userName with
    | none => simp [memberName, memberUserName, MessagesScreen.shownName, hlookup, hname]
    | some userName =>
      by_cases hempty : userName = "" <;>
        simp [memberName, memberUserName, expectedName, MessagesScreen.shownName, hlookup, hname,
          hempty]

/-- **When every sender is shown under a name.** Once `loadUserOptions` was told the current
member documents, the labels of all senders are right if and only if each sender was named, by
`addNewUser` or `updateUserName`, with no creation of the chat by that sender applied later. -/
theorem senders_named_iff {chat : ChatId} {c : TranscriptRun} (hc : c.Reachable chat)
    (htold : ∃ o, c.outerSeen = some o ∧ o.content = usersOf chat c.now.db) :
    (∀ email, SentBy c.now.db chat email →
      c.screen.displayName email = some (expectedName c.now.db chat email)) ↔
    ∀ email, SentBy c.now.db chat email → LastNaming c.now.log chat email true := by
  refine forall₂_congr fun email _ => ?_
  rw [(hc.eq_member htold).2, memberName_eq_expectedName_iff, hc.now.namingLogged chat email]

/-- In the sample session the only sender was added, so its label is right. -/
theorem senders_named_on_sample : ∃ c : TranscriptRun, SentBy c.now.db "tea" "bob" ∧
    ((∀ email, SentBy c.now.db "tea" email →
      c.screen.displayName email = some (expectedName c.now.db "tea" email)) ↔
    ∀ email, SentBy c.now.db "tea" email → LastNaming c.now.log "tea" email true) := by
  obtain ⟨s, hs, _, hsent⟩ := System.exists_reachable_of_run System.sampleSession (by decide)
    (fun s => decide ((s.db.lookup (.message "tea" "m1")).bind
      (fun d => stringField d .fromEmail) = some "bob")) (by decide)
  obtain ⟨d, hd, hfrom⟩ := Option.bind_eq_some_iff.mp (of_decide_eq_true hsent)
  have hopened : TranscriptRun.Reachable "tea" (.opened s {}) := ⟨s, hs, .refl⟩
  obtain ⟨c, hc, hnow, hsettled⟩ := transcript_settles hopened
  refine ⟨c, ⟨"m1", d, ?_, hfrom⟩, senders_named_iff hc hsettled.1⟩
  rw [hnow]
  exact hd

/-- **The creator is shown without a name.** `ann` creates a chat and posts a message; her
label is absent. -/
theorem creator_unnamed : ∃ c : TranscriptRun, c.Reachable "tea" ∧ c.now.NoWriteInFlight ∧
    (transcriptProgram "tea").Settled c ∧ SentBy c.now.db "tea" "ann" ∧
      c.screen.displayName "ann" = none := by
  obtain ⟨s, hs, hquiet, hfacts⟩ := System.exists_reachable_of_run
    [.signIn 0 "ann", .call 0 (.newChat "tea" "Tea time"), .commit 0 1, .commit 0 1,
     .call 0 (.sendMessage "tea" "m1" "hello"), .commit 0 2, .complete 0 ⟨"tea", "m1"⟩,
     .commit 0 2] (by decide)
    (fun s => decide ((s.db.lookup (.message "tea" "m1")).bind
      (fun d => stringField d .fromEmail) = some "ann" ∧ memberName s.db "tea" "ann" = none))
    (by decide)
  obtain ⟨hsent, hname⟩ := of_decide_eq_true hfacts
  obtain ⟨d, hd, hfrom⟩ := Option.bind_eq_some_iff.mp hsent
  have hopened : TranscriptRun.Reachable "tea" (.opened s {}) := ⟨s, hs, .refl⟩
  obtain ⟨c, hc, hnow, hsettled⟩ := transcript_settles hopened
  have hwrites : c.now.NoWriteInFlight := by rwa [hnow]
  refine ⟨c, hc, hwrites, hsettled, ⟨"m1", d, by rw [hnow]; exact hd, hfrom⟩, ?_⟩
  rw [(hc.eq_member hsettled.1).2, hnow]
  exact hname

end MessagingApp
