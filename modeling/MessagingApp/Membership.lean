import MessagingApp.Library.Histories
import MessagingApp.Schema

/-!
# Membership

The `users` array of a chat is written by `newChat`, `addNewUser` and
`removeFromChat`. This file relates the stored array to the history of these
operations, and shows that whoever is in the array has a member document or will
have one as soon as the queues are empty.
-/

namespace MessagingApp

/-! ## Operations on membership -/

/-- The committed write makes `email` a member: the creation of the chat by `email`, or the
array write of an `addNewUser`. -/
def Adds (chat : ChatId) (email : Email) (call : Call) (w : Write) : Prop :=
  (∃ name, call = .newChat chat name ∧ w = createBaseChatDocument chat (some email) name) ∨
    ∃ user, call = .addNewUser chat user ∧ w = addToUsers chat email

/-- The committed write removes `email` from the chat. -/
def Removes (chat : ChatId) (email : Email) (call : Call) (w : Write) : Prop :=
  call = .removeFromChat chat email ∧ w = removalWrite chat email

/-- The entry of the log is a membership operation on `email`: `true` for an addition. -/
def MembershipOp (chat : ChatId) (email : Email) (entry : Commit) : Bool → Prop
  | true => Adds chat email entry.origin entry.write
  | false => Removes chat email entry.origin entry.write

/-- The last membership operation on `email` that was applied in the chat was an addition
(`true`) or a removal (`false`). -/
def LastMembership (log : List Commit) (chat : ChatId) (email : Email) : Bool → Prop :=
  Histories.Last (MembershipOp chat email) log

/-- The stored `users` array of the chat contains `email`. -/
def IsMember (db : Db) (chat : ChatId) (email : Email) : Prop :=
  ∃ d, db.lookup (.chat chat) = some d ∧ hasUser email d = true

theorem Adds.path_eq {chat : ChatId} {email : Email} {call : Call} {w : Write}
    (h : Adds chat email call w) : w.path = .chat chat := by
  rcases h with ⟨name, _, rfl⟩ | ⟨user, _, rfl⟩ <;> rfl

theorem Removes.path_eq {chat : ChatId} {email : Email} {call : Call} {w : Write}
    (h : Removes chat email call w) : w.path = .chat chat := by
  rw [h.2]
  rfl

/-- No write is an addition and a removal. -/
theorem Removes.not_adds {chat : ChatId} {email : Email} {call : Call} {w : Write}
    (h : Removes chat email call w) : ¬ Adds chat email call w := by
  obtain ⟨rfl, _⟩ := h
  rintro (⟨name, hcall, _⟩ | ⟨user, hcall, _⟩) <;> cases hcall

theorem MembershipOp.path_eq {chat : ChatId} {email : Email} {entry : Commit} {b : Bool}
    (h : MembershipOp chat email entry b) : entry.write.path = .chat chat := by
  cases b with
  | true => exact Adds.path_eq h
  | false => exact Removes.path_eq h

/-! ## The array after a write -/

theorem hasUser_update_users (d : Document) (users : List Email) (email : Email) :
    hasUser email (Function.update d .users (some (.array (users.map some)))) = true ↔
      email ∈ users := by
  simp [hasUser, coercedArray]

theorem hasUser_update_of_ne {d : Document} {field : Field} (h : field ≠ .users) (v : Value)
    (email : Email) : hasUser email (Function.update d field (some v)) = hasUser email d := by
  simp [hasUser, Function.update_of_ne (Ne.symm h)]

theorem hasUser_of_users {d : Document} {users : List Email}
    (h : d .users = some (.array (users.map some))) (email : Email) :
    hasUser email d = true ↔ email ∈ users := by
  simp [hasUser, coercedArray, h]

/-- `arrayUnion` of one email adds exactly that email. -/
theorem ChatSchema.hasUser_arrayUnion {d : Document} (hd : ChatSchema d) (now : Time)
    (added email : Email) :
    hasUser email (Function.update d .users
      (some (FieldValue.eval now (.arrayUnion [added]) (d .users)))) = true ↔
        hasUser email d = true ∨ email = added := by
  obtain ⟨users, users', husers, hval, _, hmem⟩ := hd.eval_arrayUnion now added
  rw [hval, hasUser_update_users, hasUser_of_users husers, hmem]

/-- `arrayRemove` of one email removes exactly that email. -/
theorem ChatSchema.hasUser_arrayRemove {d : Document} (hd : ChatSchema d) (now : Time)
    (removed email : Email) :
    hasUser email (Function.update d .users
      (some (FieldValue.eval now (.arrayRemove [removed]) (d .users)))) = true ↔
        hasUser email d = true ∧ email ≠ removed := by
  obtain ⟨users, users', husers, hval, _, hmem⟩ := hd.eval_arrayRemove now removed
  rw [hval, hasUser_update_users, hasUser_of_users husers, hmem]

/-- What a write to a chat document does to the membership of `email`: it is an addition, it
is a removal, or it is neither and keeps what the fields it was laid over say. -/
theorem Genuine.membership {call : Call} {w : Write} (h : Genuine call w) {chat : ChatId}
    (hpath : w.path = .chat chat) (email : Email) (now : Time) {d : Document}
    (hd : w.mode ≠ .set → ChatSchema d) (hset : w.mode = .set → d = fun _ => none) :
    (Adds chat email call w ∧
      hasUser email (DocumentStore.assign (FieldValue.eval now) d w.data) = true) ∨
    (Removes chat email call w ∧
      ¬ hasUser email (DocumentStore.assign (FieldValue.eval now) d w.data) = true) ∨
    (¬ Adds chat email call w ∧ ¬ Removes chat email call w ∧
      (hasUser email (DocumentStore.assign (FieldValue.eval now) d w.data) = true ↔
        hasUser email d = true)) := by
  cases h with
  | baseDocument ref user name =>
    obtain rfl : ref = chat := DocPath.chat.inj hpath
    obtain rfl := hset rfl
    have husers : hasUser email (DocumentStore.assign (FieldValue.eval now) (fun _ => none)
        (createBaseChatDocument ref (some user) name).data) = true ↔ email = user := by
      change hasUser email (Function.update _ _ _) = true ↔ _
      rw [hasUser_update_of_ne (by decide)]
      exact (hasUser_update_users _ [user] email).trans (by simp)
    by_cases hemail : email = user
    · subst hemail
      exact .inl ⟨.inl ⟨name, rfl, rfl⟩, husers.mpr rfl⟩
    · refine .inr (.inr ⟨?_, ?_, ?_⟩)
      · rintro (⟨name', _, heq⟩ | ⟨user', hcall, _⟩)
        · simp [createBaseChatDocument, Ne.symm hemail] at heq
        · cases hcall
      · rintro ⟨hcall, _⟩
        cases hcall
      · refine husers.trans ?_
        simp [hasUser, coercedArray, hemail]
  | addToUsers chat' user added name hemail hname =>
    obtain rfl : chat' = chat := DocPath.chat.inj hpath
    have hafter := (hd (by simp [MessagingApp.addToUsers])).hasUser_arrayUnion now added email
    by_cases heq : email = added
    · subst heq
      exact .inl ⟨.inr ⟨user, rfl, rfl⟩, hafter.mpr (.inr rfl)⟩
    · refine .inr (.inr ⟨?_, ?_, hafter.trans (by simp [heq])⟩)
      · rintro (⟨name', hcall, _⟩ | ⟨user', _, hw⟩)
        · cases hcall
        · simp [MessagingApp.addToUsers, Ne.symm heq] at hw
      · rintro ⟨hcall, _⟩
        cases hcall
  | removal chat' member =>
    obtain rfl : chat' = chat := DocPath.chat.inj hpath
    have hafter := (hd (by simp [removalWrite])).hasUser_arrayRemove now member email
    by_cases heq : email = member
    · subst heq
      exact .inr (.inl ⟨⟨rfl, rfl⟩, fun hmem => (hafter.mp hmem).2 rfl⟩)
    · refine .inr (.inr ⟨?_, ?_, hafter.trans (by simp [heq])⟩)
      · rintro (⟨name', hcall, _⟩ | ⟨user', hcall, _⟩) <;> cases hcall
      · rintro ⟨hcall, _⟩
        cases hcall
        exact heq rfl
  | chatColour | lastActive =>
    refine .inr (.inr ⟨?_, ?_, ?_⟩)
    · rintro (⟨name', hcall, _⟩ | ⟨user', hcall, _⟩) <;> cases hcall
    · rintro ⟨hcall, _⟩
      cases hcall
    · exact iff_of_eq (congrArg (· = true) (hasUser_update_of_ne (by simp) _ email))
  | _ => cases hpath

section commits

variable {s t : System} {c : ClientId} {now : Time} {p : Pending} {rest : List Pending}

/-- A commit that overwrites a chat document creates it. -/
theorem QueuesSound.unborn_of_set (hs : QueuesSound s) (h : Commits s t c now p rest)
    {ref : ChatId} (hmode : p.write.mode = .set) (hpath : p.write.path = .chat ref) :
    DocPath.chat ref ∉ s.db := by
  obtain ⟨user, name, horigin, _⟩ := (hs.genuine_head h).eq_baseDocument hmode hpath
  refine (hs.client c).creates_unborn ref ?_
  rw [h.queue_eq, creates_cons]
  simp [creates, horigin, hpath]

/-- What a commit does to the membership of `email`. -/
theorem Commits.isMember (hq : QueuesSound s) (hs : SchemaSound s)
    (h : Commits s t c now p rest) (chat : ChatId) (email : Email) :
    (Adds chat email p.origin p.write ∧ IsMember t.db chat email) ∨
    (Removes chat email p.origin p.write ∧ ¬ IsMember t.db chat email) ∨
    (¬ Adds chat email p.origin p.write ∧ ¬ Removes chat email p.origin p.write ∧
      (IsMember t.db chat email ↔ IsMember s.db chat email)) := by
  by_cases hpath : p.write.path = .chat chat
  · obtain ⟨d, hlookup, hd⟩ := hq.committed_document h
    rw [hpath] at hlookup hd
    have hafter : IsMember t.db chat email ↔
        hasUser email (DocumentStore.assign (FieldValue.eval now) d p.write.data) = true := by
      simp [IsMember, hlookup]
    have hbefore : IsMember s.db chat email ↔ hasUser email d = true := by
      split at hd
      · have hunborn := hq.unborn_of_set h ‹_› hpath
        rw [← AList.lookup_eq_none] at hunborn
        simp [IsMember, hunborn, hd, hasUser, coercedArray]
      · simp [IsMember, hd]
    rw [hafter, hbefore]
    refine (hq.genuine_head h).membership hpath email now ?_ ?_
    · intro hmode
      rw [if_neg hmode] at hd
      exact hs.stored _ _ hd
    · intro hmode
      rwa [if_pos hmode] at hd
  · refine .inr (.inr ⟨fun hadds => hpath hadds.path_eq, fun hremoves => hpath hremoves.path_eq,
      ?_⟩)
    rw [IsMember, IsMember, DocumentStore.Write.lookup_commit_of_ne h.commit_eq (Ne.symm hpath)]

end commits

/-- The stored `users` arrays contain exactly the emails whose last membership operation was
an addition. -/
def MembershipLogged (s : System) : Prop :=
  ∀ chat email, IsMember s.db chat email ↔ LastMembership s.log chat email true

theorem MembershipLogged.init : MembershipLogged System.init := by
  intro chat email
  refine iff_of_false ?_ Histories.not_last_nil
  rintro ⟨d, hd, _⟩
  simp [System.init] at hd

theorem MembershipLogged.commits {s t : System} {c : ClientId} {now : Time} {p : Pending}
    {rest : List Pending} (hq : QueuesSound s) (hsch : SchemaSound s) (hs : MembershipLogged s)
    (h : Commits s t c now p rest) : MembershipLogged t := by
  intro chat email
  rw [h.log_eq]
  refine Histories.iff_last_append (hs chat email) ?_
  rcases h.isMember hq hsch chat email with hadds | ⟨hremoves, hmember⟩ | hneither
  · exact .inl hadds
  · exact .inr (.inl ⟨hremoves, hremoves.not_adds, hmember⟩)
  · exact .inr (.inr hneither)

/-- **The array is the history**, in every reachable state. -/
theorem System.Reachable.membershipLogged {s : System} (hs : s.Reachable) : MembershipLogged s :=
  hs.log_induction .init
    (fun _ _ hdb hlog hI chat email => by rw [hdb, hlog]; exact hI chat email)
    (fun _ _ _ _ _ _ hu hI h => hI.commits hu.queuesSound hu.schemaSound h)

/-! ## Members and their documents -/

/-- Behind every waiting addition waits a write to the new member's document. -/
def Paired : List Pending → Prop
  | [] => True
  | p :: queue =>
    (∀ chat email, Adds chat email p.origin p.write →
      DocPath.member chat email ∈ queue.map (fun p => p.write.path)) ∧ Paired queue

theorem Paired.append {queue new : List Pending} (hqueue : Paired queue) (hnew : Paired new) :
    Paired (queue ++ new) := by
  induction queue with
  | nil => exact hnew
  | cons p queue ih =>
    refine ⟨?_, ih hqueue.2⟩
    intro chat email hadds
    change _ ∈ (queue ++ new).map (fun p => p.write.path)
    rw [List.map_append]
    exact List.mem_append_left _ (hqueue.1 chat email hadds)

/-- A call that adds nobody issues paired writes. -/
theorem paired_of_not_adds {queue : List Pending}
    (h : ∀ p ∈ queue, ∀ chat email, ¬ Adds chat email p.origin p.write) : Paired queue := by
  induction queue with
  | nil => trivial
  | cons p queue ih =>
    exact ⟨fun chat email hadds => absurd hadds (h p List.mem_cons_self chat email),
      ih (fun q hq => h q (List.mem_cons_of_mem p hq))⟩

/-- Every call issues paired writes. -/
theorem Call.paired {call : Call} {user : Option Email} {ws : List Write}
    (hws : call.writes user = some ws) : Paired (ws.map (Pending.mk call)) := by
  cases call with
  | newChat ref name =>
    obtain ⟨creator, _, rfl⟩ := newChat_eq_some.mp hws
    refine ⟨?_, ?_, trivial⟩
    · rintro chat email (⟨name', _, hw⟩ | ⟨user', hcall, _⟩)
      · obtain ⟨rfl, _, rfl⟩ : ref = chat ∧ name = name' ∧ creator = email := by
          simpa [createBaseChatDocument] using hw
        simp [creatorDocument]
      · cases hcall
    · intro chat email hadds
      exact absurd hadds.path_eq (by simp [creatorDocument])
  | addNewUser chat' u =>
    obtain ⟨added, name, _, _, rfl⟩ := addNewUser_eq_some.mp hws
    refine ⟨?_, ?_, trivial⟩
    · rintro chat email (⟨name', hcall, _⟩ | ⟨user', _, hw⟩)
      · cases hcall
      · obtain ⟨rfl, rfl⟩ : chat' = chat ∧ added = email := by
          simpa [MessagingApp.addToUsers] using hw
        simp [MessagingApp.addedDocument]
    · intro chat email hadds
      exact absurd hadds.path_eq (by simp [MessagingApp.addedDocument])
  | _ =>
    refine paired_of_not_adds ?_
    intro p hp chat email hadds
    obtain ⟨w, _, rfl⟩ := List.mem_map.mp hp
    rcases hadds with ⟨name, hcall, _⟩ | ⟨u, hcall, _⟩ <;> cases hcall

/-- The waiting writes of a client are paired. -/
def Client.Paired (client : Client) : Prop := MessagingApp.Paired client.queue

/-- A member of a chat has a member document, or a write to it waits in some queue. -/
structure MembersSound (s : System) : Prop where
  paired : ∀ c, (s.clients c).Paired
  documents : ∀ chat email, IsMember s.db chat email → DocPath.member chat email ∈ s.db ∨
    ∃ c, DocPath.member chat email ∈ (s.clients c).queue.map (fun p => p.write.path)

theorem MembersSound.init : MembersSound System.init where
  paired c := trivial
  documents chat email h := by
    obtain ⟨d, hd, _⟩ := h
    simp [System.init] at hd

theorem MembersSound.idle {s t : System} (hs : MembersSound s) (h : Idle s t) :
    MembersSound t where
  paired c := by
    rw [Client.Paired, h.queue_eq]
    exact hs.paired c
  documents chat email hmember := by
    rw [h.db_eq] at hmember ⊢
    simp only [h.queue_eq]
    exact hs.documents chat email hmember

theorem MembersSound.issues {s t : System} {c : ClientId} {call : Call} {ws : List Write}
    (hs : MembersSound s) (h : Issues s t c call ws) : MembersSound t where
  paired := by
    refine h.forall_clients hs.paired ?_
    rw [Client.Paired, h.queue_self]
    exact Paired.append (hs.paired c) (Call.paired h.writes_eq)
  documents chat email hmember := by
    rw [h.db_eq] at hmember ⊢
    rcases hs.documents chat email hmember with hstored | ⟨d, hd⟩
    · exact .inl hstored
    · obtain ⟨q, hq, hpath⟩ := List.mem_map.mp hd
      exact .inr ⟨d, List.mem_map.mpr ⟨q, h.mem_queue hq, hpath⟩⟩

theorem MembersSound.commits {s t : System} {c : ClientId} {now : Time} {p : Pending}
    {rest : List Pending} (hq : QueuesSound s) (hsch : SchemaSound s) (hs : MembersSound s)
    (h : Commits s t c now p rest) : MembersSound t where
  paired := by
    refine h.forall_clients hs.paired ?_
    have hpaired := hs.paired c
    rw [Client.Paired, h.queue_eq] at hpaired
    rw [Client.Paired, h.queue_self]
    exact hpaired.2
  documents chat email hmember := by
    rcases h.isMember hq hsch chat email with ⟨hadds, _⟩ | ⟨_, hnot⟩ | ⟨_, _, hiff⟩
    · have hpaired := hs.paired c
      rw [Client.Paired, h.queue_eq] at hpaired
      refine .inr ⟨c, ?_⟩
      rw [h.queue_self]
      exact hpaired.1 chat email hadds
    · exact absurd hmember hnot
    · rcases hs.documents chat email (hiff.mp hmember) with hstored | ⟨d, hd⟩
      · exact .inl (h.mem_of_mem hstored)
      · -- The write to the document was committed, or it still waits.
        obtain ⟨q, hq, hpath⟩ := List.mem_map.mp hd
        rcases h.mem_queue_or hq with rfl | hq
        · rw [← hpath]
          exact .inl (DocumentStore.Write.path_mem_commit h.commit_eq)
        · exact .inr ⟨d, List.mem_map.mpr ⟨q, hq, hpath⟩⟩

theorem System.Reachable.membersSound {s : System} (hs : s.Reachable) : MembersSound s :=
  hs.induction .init (fun _ _ _ h => h.idle) (fun _ _ _ _ _ _ h => h.issues)
    (fun _ _ _ _ _ _ hu h => h.commits hu.queuesSound hu.schemaSound)

/-- When no write is in flight every member has a member document. -/
theorem MembersSound.document_of_isMember {s : System} (hs : MembersSound s)
    (hwrites : s.NoWriteInFlight) {chat : ChatId} {email : Email}
    (h : IsMember s.db chat email) : DocPath.member chat email ∈ s.db := by
  rcases hs.documents chat email h with hstored | ⟨c, hc⟩
  · exact hstored
  · simp [hwrites c] at hc

end MessagingApp
