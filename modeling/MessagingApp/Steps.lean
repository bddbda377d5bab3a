import MessagingApp.System

/-!
# What a step can do

Every step of the system does one of four things: it touches only sign-in state,
it hands the writes of one call to a queue, it commits the oldest write of a
queue, or it drops a rejected write. The invariants of the later files are proved
from these descriptions and never unfold the step function.
-/

namespace MessagingApp

/-! ## The writes of each call -/

/-- The writes a call can issue. -/
inductive Genuine : Call → Write → Prop
  | baseDocument (ref : ChatId) (user : Email) (name : String) :
      Genuine (.newChat ref name) (createBaseChatDocument ref (some user) name)
  | creatorDocument (ref : ChatId) (user : Email) (name : String) :
      Genuine (.newChat ref name) (creatorDocument ref user)
  | addToUsers (chat : ChatId) (user : User) (email : Email) (name : String)
      (hemail : user.email = some email) (hname : user.name = some name) :
      Genuine (.addNewUser chat user) (addToUsers chat email)
  | addedDocument (chat : ChatId) (user : User) (email : Email) (name : String)
      (hemail : user.email = some email) (hname : user.name = some name) :
      Genuine (.addNewUser chat user) (addedDocument chat email name)
  | removal (chat : ChatId) (member : Email) :
      Genuine (.removeFromChat chat member) (removalWrite chat member)
  | userName (chat : ChatId) (member : Email) (newUserName : String) :
      Genuine (.updateUserName chat member newUserName) (userNameWrite newUserName chat member)
  | userColour (chat : ChatId) (member : Email) (colour : String) :
      Genuine (.updateUserColour chat member colour) (userColourWrite colour chat member)
  | chatColour (chat : ChatId) (colour : String) :
      Genuine (.updateChatColour chat colour) (chatColourWrite colour chat)
  | message (chat : ChatId) (id : MessageId) (fromEmail : Email) (text : String) :
      Genuine (.sendMessage chat id text) (messageDocument chat id fromEmail text)
  | lastActive (chat : ChatId) (id : MessageId) :
      Genuine (.updateChatLastActiveTimestamp chat id) (updateChatLastActiveTimestamp chat)
  | profile (emailText : Email) :
      Genuine (.registerProfile emailText) (registerProfile emailText)

/-- `newChat` succeeds for a signed-in user and issues two writes. -/
theorem newChat_eq_some {ref : ChatId} {user : Option Email} {name : String} {ws : List Write} :
    newChat ref user name = some ws ↔ ∃ email, user = some email ∧
      ws = [createBaseChatDocument ref (some email) name, creatorDocument ref email] := by
  cases user with
  | none => simp [newChat, createChatUserCollection]
  | some email => simp [newChat, createChatUserCollection, eq_comm]

/-- `addNewUser` succeeds for a user with an email and a name and issues two writes. -/
theorem addNewUser_eq_some {chat : ChatId} {user : User} {ws : List Write} :
    addNewUser (some chat) user = some ws ↔ ∃ email name, user.email = some email ∧
      user.name = some name ∧ ws = [addToUsers chat email, addedDocument chat email name] := by
  cases hemail : user.email with
  | none => simp [addNewUser, hemail]
  | some email =>
    cases hname : user.name with
    | none => simp [addNewUser, hemail, hname]
    | some name => simp [addNewUser, hemail, hname, eq_comm]

/-- Calls issue genuine writes only. -/
theorem Call.genuine_of_mem {call : Call} {user : Option Email} {ws : List Write} {w : Write}
    (hws : call.writes user = some ws) (hw : w ∈ ws) : Genuine call w := by
  cases call with
  | newChat ref name =>
    obtain ⟨email, rfl, rfl⟩ := newChat_eq_some.mp hws
    rcases List.mem_cons.mp hw with rfl | hw
    · exact .baseDocument ref email name
    · obtain rfl := List.mem_singleton.mp hw
      exact .creatorDocument ref email name
  | addNewUser chat u =>
    obtain ⟨email, name, hemail, hname, rfl⟩ := addNewUser_eq_some.mp hws
    rcases List.mem_cons.mp hw with rfl | hw
    · exact .addToUsers chat u email name hemail hname
    · obtain rfl := List.mem_singleton.mp hw
      exact .addedDocument chat u email name hemail hname
  | removeFromChat chat member =>
    obtain rfl := Option.some.inj hws
    obtain rfl := List.mem_singleton.mp hw
    exact .removal chat member
  | updateUserName chat member newUserName =>
    obtain rfl := Option.some.inj hws
    obtain rfl := List.mem_singleton.mp hw
    exact .userName chat member newUserName
  | updateUserColour chat member colour =>
    obtain rfl := Option.some.inj hws
    obtain rfl := List.mem_singleton.mp hw
    exact .userColour chat member colour
  | updateChatColour chat colour =>
    obtain rfl := Option.some.inj hws
    obtain rfl := List.mem_singleton.mp hw
    exact .chatColour chat colour
  | sendMessage chat id text =>
    obtain rfl := Option.some.inj hws
    cases user with
    | none => exact absurd hw List.not_mem_nil
    | some fromEmail =>
      obtain rfl := List.mem_singleton.mp hw
      exact .message chat id fromEmail text
  | updateChatLastActiveTimestamp chat id =>
    obtain rfl := Option.some.inj hws
    obtain rfl := List.mem_singleton.mp hw
    exact .lastActive chat id
  | registerProfile emailText =>
    obtain rfl := Option.some.inj hws
    obtain rfl := List.mem_singleton.mp hw
    exact .profile emailText

/-- A write that does not overwrite addresses the document its call was made on. -/
theorem Genuine.target_eq {call : Call} {w : Write} (h : Genuine call w) (hmode : w.mode ≠ .set) :
    call.target = some w.path := by
  cases h <;> first | rfl | exact absurd rfl hmode

/-- Only `newChat` overwrites a chat document. -/
theorem Genuine.eq_baseDocument {call : Call} {w : Write} {ref : ChatId} (h : Genuine call w)
    (hmode : w.mode = .set) (hpath : w.path = .chat ref) :
    ∃ user name, call = .newChat ref name ∧ w = createBaseChatDocument ref (some user) name := by
  cases h with
  | baseDocument ref' user name =>
    obtain rfl : ref' = ref := DocPath.chat.inj hpath
    exact ⟨user, name, rfl, rfl⟩
  | _ => cases hpath <;> cases hmode

/-- Only `sendMessage` writes messages. -/
theorem Genuine.eq_sendMessage {call : Call} {w : Write} {chat : ChatId} {id : MessageId}
    (h : Genuine call w) (hpath : w.path = .message chat id) :
    ∃ text, call = .sendMessage chat id text := by
  cases h with
  | message chat' id' fromEmail text =>
    obtain ⟨rfl, rfl⟩ := DocPath.message.inj hpath
    exact ⟨text, rfl⟩
  | _ => cases hpath

/-! ## The four kinds of step -/

/-- Only sign-in state may differ. -/
structure Idle (s t : System) : Prop where
  db_eq : t.db = s.db
  clock_eq : t.clock = s.clock
  log_eq : t.log = s.log
  ids_eq : t.generatedIds = s.generatedIds
  queue_eq : ∀ c, (t.clients c).queue = (s.clients c).queue
  completions_eq : ∀ c, (t.clients c).completions = (s.clients c).completions

/-- Client `c` issues the writes `ws` of a call. -/
structure Issues (s t : System) (c : ClientId) (call : Call) (ws : List Write) : Prop where
  /-- Where the call comes from: a screen, the success closure of a message, or that of
  `createUser`. -/
  source : s.Allowed c call ∨
    (∃ m ∈ (s.clients c).completions, call = .updateChatLastActiveTimestamp m.chat m.message) ∨
    ∃ emailText, call = .registerProfile emailText
  writes_eq : call.writes (t.clients c).currentUser = some ws
  queue_self : (t.clients c).queue = (s.clients c).queue ++ ws.map (Pending.mk call)
  completions_self : ∀ m, m ∈ (t.clients c).completions → m ∈ (s.clients c).completions
  /-- A completion disappears only when its activity time is issued. -/
  completions_kept : ∀ m ∈ (s.clients c).completions, m ∈ (t.clients c).completions ∨
    call = .updateChatLastActiveTimestamp m.chat m.message
  clients_other : ∀ d, d ≠ c → t.clients d = s.clients d
  db_eq : t.db = s.db
  clock_eq : t.clock = s.clock
  log_eq : t.log = s.log
  ids_eq : t.generatedIds = call.generatedId.toList ++ s.generatedIds

/-- The server commits the oldest write `p` of client `c` at time `now`. -/
structure Commits (s t : System) (c : ClientId) (now : Time) (p : Pending)
    (rest : List Pending) : Prop where
  queue_eq : (s.clients c).queue = p :: rest
  currentUser_self : (t.clients c).currentUser = (s.clients c).currentUser
  queue_self : (t.clients c).queue = rest
  completions_self : (t.clients c).completions =
    (s.clients c).completions ++ System.completionOf p.origin
  clients_other : ∀ d, d ≠ c → t.clients d = s.clients d
  clock_le : s.clock ≤ now
  clock_eq : t.clock = now
  commit_eq : commit now p.write s.db = some t.db
  log_eq : t.log = s.log ++ [⟨p.origin, p.write, now⟩]
  ids_eq : t.generatedIds = s.generatedIds

/-- The oldest write of client `c` is dropped. -/
structure Rejects (s t : System) (c : ClientId) : Prop where
  currentUser_self : (t.clients c).currentUser = (s.clients c).currentUser
  queue_self : ∃ p, (s.clients c).queue = p :: (t.clients c).queue
  completions_self : (t.clients c).completions = (s.clients c).completions
  clients_other : ∀ d, d ≠ c → t.clients d = s.clients d
  db_eq : t.db = s.db
  clock_eq : t.clock = s.clock
  log_eq : t.log = s.log
  ids_eq : t.generatedIds = s.generatedIds

/-- A property of single clients survives an `Issues` step if it does at the client that
acts. -/
theorem Issues.forall_clients {s t : System} {c : ClientId} {call : Call} {ws : List Write}
    (h : Issues s t c call ws) {P : Client → Prop} (hs : ∀ d, P (s.clients d))
    (hc : P (t.clients c)) (d : ClientId) : P (t.clients d) := by
  by_cases hd : d = c
  · rwa [hd]
  · rw [h.clients_other d hd]
    exact hs d

/-- A property of single clients survives a commit if it does at the client that acts. -/
theorem Commits.forall_clients {s t : System} {c : ClientId} {now : Time} {p : Pending}
    {rest : List Pending} (h : Commits s t c now p rest) {P : Client → Prop}
    (hs : ∀ d, P (s.clients d)) (hc : P (t.clients c)) (d : ClientId) : P (t.clients d) := by
  by_cases hd : d = c
  · rwa [hd]
  · rw [h.clients_other d hd]
    exact hs d

/-! ### Queues across a step -/

section queues

variable {s t : System} {c d : ClientId} {q : Pending}

/-- Issuing keeps what waits. -/
theorem Issues.mem_queue {call : Call} {ws : List Write} (h : Issues s t c call ws)
    (hq : q ∈ (s.clients d).queue) : q ∈ (t.clients d).queue := by
  by_cases hd : d = c
  · subst hd
    rw [h.queue_self]
    exact List.mem_append_left _ hq
  · rwa [h.clients_other d hd]

/-- What waits after issuing waited before or was issued. -/
theorem Issues.mem_queue_or {call : Call} {ws : List Write} (h : Issues s t c call ws)
    (hq : q ∈ (t.clients d).queue) :
    q ∈ (s.clients d).queue ∨ d = c ∧ ∃ w ∈ ws, q = ⟨call, w⟩ := by
  by_cases hd : d = c
  · subst hd
    rw [h.queue_self] at hq
    rcases List.mem_append.mp hq with hq | hq
    · exact .inl hq
    · obtain ⟨w, hw, rfl⟩ := List.mem_map.mp hq
      exact .inr ⟨rfl, w, hw, rfl⟩
  · exact .inl (by rwa [h.clients_other d hd] at hq)

/-- A commit answers the write it commits and no other. -/
theorem Commits.mem_queue_or {now : Time} {p : Pending} {rest : List Pending}
    (h : Commits s t c now p rest) (hq : q ∈ (s.clients d).queue) :
    q = p ∨ q ∈ (t.clients d).queue := by
  by_cases hd : d = c
  · subst hd
    rw [h.queue_eq] at hq
    rw [h.queue_self]
    exact List.mem_cons.mp hq
  · exact .inr (by rwa [h.clients_other d hd])

/-- A commit adds nothing to a queue. -/
theorem Commits.mem_queue {now : Time} {p : Pending} {rest : List Pending}
    (h : Commits s t c now p rest) (hq : q ∈ (t.clients d).queue) :
    q ∈ (s.clients d).queue := by
  by_cases hd : d = c
  · subst hd
    rw [h.queue_self] at hq
    rw [h.queue_eq]
    exact List.mem_cons_of_mem p hq
  · rwa [h.clients_other d hd] at hq

/-- A rejection adds nothing to a queue. -/
theorem Rejects.mem_queue (h : Rejects s t c) (hq : q ∈ (t.clients d).queue) :
    q ∈ (s.clients d).queue := by
  by_cases hd : d = c
  · subst hd
    obtain ⟨p, hp⟩ := h.queue_self
    rw [hp]
    exact List.mem_cons_of_mem p hq
  · rwa [h.clients_other d hd] at hq

end queues

namespace System

@[simp] theorem withClient_self (s : System) (c : ClientId) (client : Client) :
    (s.withClient c client).clients c = client := by
  simp [withClient]

theorem withClient_of_ne (s : System) {c d : ClientId} (client : Client) (h : d ≠ c) :
    (s.withClient c client).clients d = s.clients d := by
  simp [withClient, h]

@[simp] theorem withClient_eq_self (s : System) (c : ClientId) :
    s.withClient c (s.clients c) = s := by
  simp [withClient]

/-- A screen's call is allowed and issued. -/
theorem issue_of_call {s t : System} {c : ClientId} {call : Call}
    (h : s.step (.call c call) = some t) : s.Allowed c call ∧ s.issue c call = some t := by
  by_cases hallowed : s.Allowed c call
  · exact ⟨hallowed, by simpa [step, hallowed] using h⟩
  · simp [step, hallowed] at h

/-- A success closure leaves the completions and issues the activity time. -/
theorem issue_of_complete {s t : System} {c : ClientId} {m : MessageRef}
    (h : s.step (.complete c m) = some t) : m ∈ (s.clients c).completions ∧
      (s.withClient c { s.clients c with
        completions := (s.clients c).completions.erase m }).issue c
        (.updateChatLastActiveTimestamp m.chat m.message) = some t := by
  by_cases hm : m ∈ (s.clients c).completions
  · exact ⟨hm, by simpa [step, complete, hm] using h⟩
  · simp [step, complete, hm] at h

/-- What `issue` produces. -/
theorem issue_eq_some {s t : System} {c : ClientId} {call : Call} (h : s.issue c call = some t) :
    ∃ ws, call.writes (s.clients c).currentUser = some ws ∧
      t = { s.withClient c { s.clients c with
              queue := (s.clients c).queue ++ ws.map (Pending.mk call) } with
            generatedIds := call.generatedId.toList ++ s.generatedIds } := by
  obtain ⟨ws, hws, ht⟩ := Option.bind_eq_some_iff.mp h
  exact ⟨ws, hws, (Option.some.inj ht).symm⟩

/-- Issuing a call from a state that differs from `s` only in client `c`, whose queue is
unchanged, is an `Issues` step from `s`. -/
theorem issues_of_issue {s t : System} {c : ClientId} {call : Call} (client : Client)
    (hqueue : client.queue = (s.clients c).queue)
    (hsub : ∀ m ∈ client.completions, m ∈ (s.clients c).completions)
    (hkept : ∀ m ∈ (s.clients c).completions, m ∈ client.completions ∨
      call = .updateChatLastActiveTimestamp m.chat m.message)
    (hsource : s.Allowed c call ∨
      (∃ m ∈ (s.clients c).completions, call = .updateChatLastActiveTimestamp m.chat m.message) ∨
      ∃ emailText, call = .registerProfile emailText)
    (h : (s.withClient c client).issue c call = some t) :
    ∃ ws, Issues s t c call ws := by
  obtain ⟨ws, hws, rfl⟩ := issue_eq_some h
  rw [withClient_self] at hws
  refine ⟨ws, ?_⟩
  constructor
  case source => exact hsource
  case writes_eq => simpa [withClient] using hws
  case queue_self => simp [withClient, hqueue]
  case completions_self => simpa [withClient] using hsub
  case completions_kept => simpa [withClient] using hkept
  case clients_other =>
    intro d hd
    simp [withClient, hd]
  all_goals rfl

/-- Replacing a client by one with the same queue and completions is an idle step. -/
theorem idle_withClient {s : System} {c : ClientId} {client : Client}
    (hqueue : client.queue = (s.clients c).queue)
    (hcompletions : client.completions = (s.clients c).completions) :
    Idle s (s.withClient c client) := by
  have hboth : ∀ d, ((s.withClient c client).clients d).queue = (s.clients d).queue ∧
      ((s.withClient c client).clients d).completions = (s.clients d).completions := by
    intro d
    by_cases hd : d = c
    · subst hd
      rw [withClient_self]
      exact ⟨hqueue, hcompletions⟩
    · rw [withClient_of_ne s client hd]
      exact ⟨rfl, rfl⟩
  exact ⟨rfl, rfl, rfl, rfl, fun d => (hboth d).1, fun d => (hboth d).2⟩

/-- What `commit` produces. -/
theorem commits_of_commit {s t : System} {c : ClientId} {now : Time}
    (h : s.commit c now = some t) : ∃ p rest, Commits s t c now p rest := by
  unfold commit at h
  cases hqueue : (s.clients c).queue with
  | nil => simp [hqueue] at h
  | cons p rest =>
    simp only [hqueue] at h
    by_cases hclock : s.clock ≤ now
    · rw [if_pos hclock] at h
      obtain ⟨db, hdb, ht⟩ := Option.bind_eq_some_iff.mp h
      obtain rfl := (Option.some.inj ht).symm
      refine ⟨p, rest, ?_⟩
      constructor
      case queue_eq => exact hqueue
      case currentUser_self => simp [withClient]
      case queue_self => simp [withClient]
      case completions_self => simp [withClient]
      case clients_other =>
        intro d hd
        simp [withClient, hd]
      case clock_le => exact hclock
      case commit_eq => exact hdb
      all_goals rfl
    · rw [if_neg hclock] at h
      cases h

/-- What `reject` produces. -/
theorem rejects_of_reject {s t : System} {c : ClientId} (h : s.reject c = some t) :
    Rejects s t c := by
  unfold reject at h
  cases hqueue : (s.clients c).queue with
  | nil => simp [hqueue] at h
  | cons p rest =>
    simp only [hqueue, Option.some.injEq] at h
    obtain rfl := h.symm
    constructor
    case currentUser_self => simp
    case queue_self => exact ⟨p, by simp [hqueue]⟩
    case completions_self => simp
    case clients_other => exact fun d hd => withClient_of_ne s _ hd
    all_goals rfl

/-- **Inversion.** Every step is of one of the four kinds; what a screen issues is a call
event, and the server's answers are the commits and the rejections. -/
theorem step_cases {s t : System} {e : Event} (h : s.step e = some t) :
    Idle s t ∨
      (∃ c call ws, (e = .call c call ∨ call.byUser = false) ∧ Issues s t c call ws) ∨
      (∃ c now p rest, e = .commit c now ∧ Commits s t c now p rest) ∨
      ∃ c, e = .reject c ∧ Rejects s t c := by
  cases e with
  | signIn c account =>
    obtain rfl := (Option.some.inj h).symm
    exact .inl (idle_withClient rfl rfl)
  | signOut c =>
    obtain rfl := (Option.some.inj h).symm
    exact .inl (idle_withClient rfl rfl)
  | register c account emailText =>
    obtain ⟨ws, hws⟩ := issues_of_issue { s.clients c with currentUser := some account } rfl
      (fun _ hm => hm) (fun _ hm => .inl hm) (.inr (.inr ⟨emailText, rfl⟩)) h
    exact .inr (.inl ⟨c, _, ws, .inr rfl, hws⟩)
  | call c call =>
    obtain ⟨hallowed, hissue⟩ := issue_of_call h
    rw [← withClient_eq_self s c] at hissue
    obtain ⟨ws, hws⟩ := issues_of_issue (s.clients c) rfl (fun _ hm => hm)
      (fun _ hm => .inl hm) (.inl hallowed) hissue
    exact .inr (.inl ⟨c, call, ws, .inl rfl, hws⟩)
  | commit c now =>
    obtain ⟨p, rest, hcommit⟩ := commits_of_commit h
    exact .inr (.inr (.inl ⟨c, now, p, rest, rfl, hcommit⟩))
  | reject c => exact .inr (.inr (.inr ⟨c, rfl, rejects_of_reject h⟩))
  | complete c m =>
    obtain ⟨hm, hissue⟩ := issue_of_complete h
    have hkept : ∀ m' ∈ (s.clients c).completions, m' ∈ (s.clients c).completions.erase m ∨
        Call.updateChatLastActiveTimestamp m.chat m.message =
          .updateChatLastActiveTimestamp m'.chat m'.message := by
      intro m' hm'
      by_cases heq : m' = m
      · exact .inr (by rw [heq])
      · exact .inl ((List.mem_erase_of_ne heq).mpr hm')
    obtain ⟨ws, hws⟩ := issues_of_issue
      { s.clients c with completions := (s.clients c).completions.erase m } rfl
      (fun _ => List.mem_of_mem_erase) hkept (.inr (.inl ⟨m, hm, rfl⟩)) hissue
    exact .inr (.inl ⟨c, _, ws, .inr rfl, hws⟩)

/-- **Induction over accepted runs**, one case for each kind of step. -/
theorem Reachable.induction {I : System → Prop} {s : System} (hs : s.Reachable) (h0 : I init)
    (idle : ∀ s t, s.Reachable → I s → Idle s t → I t)
    (issues : ∀ s t c call ws, s.Reachable → I s → Issues s t c call ws → I t)
    (commits : ∀ s t c now p rest, s.Reachable → I s → Commits s t c now p rest → I t) : I s := by
  refine Runs.Reachable.invariant hs h0 ?_
  intro u v e hu hI hok hstep
  rcases step_cases hstep with h | ⟨c, call, ws, _, h⟩ | ⟨c, now, p, rest, _, h⟩ |
    ⟨c, rfl, _⟩
  · exact idle u v hu hI h
  · exact issues u v c call ws hu hI h
  · exact commits u v c now p rest hu hI h
  · cases hok

/-- **Induction over the log.** What only depends on the database and the log has to be checked
at the commits. -/
theorem Reachable.log_induction {I : System → Prop} {s : System} (hs : s.Reachable) (h0 : I init)
    (same : ∀ s t, t.db = s.db → t.log = s.log → I s → I t)
    (commits : ∀ s t c now p rest, s.Reachable → I s → Commits s t c now p rest → I t) : I s :=
  hs.induction h0 (fun s t _ hI h => same s t h.db_eq h.log_eq hI)
    (fun s t _ _ _ _ hI h => same s t h.db_eq h.log_eq hI) commits

/-- A step of an accepted run stays among the reachable states. -/
theorem Reachable.step {s t : System} {e : Event} (hs : s.Reachable) (hok : e.accepted = true)
    (h : s.step e = some t) : t.Reachable :=
  Runs.Reachable.tail hs hok h

/-! ## Executing a run -/

/-- A step changes no other client. -/
theorem step_clients_of_ne {s t : System} {e : Event} (h : s.step e = some t) {c : ClientId}
    (hc : c ≠ e.client) : t.clients c = s.clients c := by
  have hissue : ∀ (client : Client) (call : Call) (u : System),
      (s.withClient e.client client).issue e.client call = some u →
        u.clients c = s.clients c := by
    intro client call u hu
    obtain ⟨ws, _, rfl⟩ := issue_eq_some hu
    simp [withClient, hc]
  cases e with
  | signIn d account =>
    obtain rfl := (Option.some.inj h).symm
    exact withClient_of_ne s _ hc
  | signOut d =>
    obtain rfl := (Option.some.inj h).symm
    exact withClient_of_ne s _ hc
  | register d account emailText => exact hissue _ _ t h
  | call d call =>
    have h' := (issue_of_call h).2
    rw [← withClient_eq_self s d] at h'
    exact hissue _ _ t h'
  | commit d now =>
    obtain ⟨p, rest, hcommit⟩ := commits_of_commit h
    exact hcommit.clients_other c hc
  | reject d => exact (rejects_of_reject h).clients_other c hc
  | complete d m => exact hissue _ _ t (issue_of_complete h).2

/-- A run changes no client that does not act in it. -/
theorem run_clients_of_not_mem {s t : System} {es : List Event} (h : Runs.run step s es = some t)
    {c : ClientId} (hc : c ∉ es.map Event.client) : t.clients c = s.clients c := by
  let Same (u v : System) : Prop := v.clients c = u.clients c
  have hsame : Same s t := by
    refine Runs.run_rel h (fun _ => rfl) (fun _ _ _ huv hvw => hvw.trans huv) ?_
    intro u v e he hstep
    have hne : c ≠ e.client := fun heq => hc (heq ▸ List.mem_map_of_mem he)
    exact step_clients_of_ne hstep hne
  exact hsame

/-- The clients that act in a run have no write in flight. -/
def quietAfter (es : List Event) (s : System) : Bool :=
  es.all (fun e => (s.clients e.client).queue.isEmpty)

/-- Executing accepted events shows that a state with a decidable property is reachable, and
that no write is in flight there when none is at the clients that act. -/
theorem exists_reachable_of_run (es : List Event) (hok : ∀ e ∈ es, e.accepted = true)
    (q : System → Bool) (h : (runFromInit es).map (fun s => quietAfter es s && q s) = some true) :
    ∃ s : System, s.Reachable ∧ s.NoWriteInFlight ∧ q s = true := by
  obtain ⟨s, hs, hq⟩ := Option.map_eq_some_iff.mp h
  rw [Bool.and_eq_true] at hq
  refine ⟨s, Runs.Reachable.of_run hok hs, ?_, hq.2⟩
  intro c
  by_cases hc : c ∈ es.map Event.client
  · obtain ⟨e, he, rfl⟩ := List.mem_map.mp hc
    simpa using List.all_eq_true.mp hq.1 e he
  · rw [run_clients_of_not_mem hs hc]
    rfl

end System

end MessagingApp
