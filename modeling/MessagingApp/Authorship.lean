import MessagingApp.MessageHistory
import Mathlib.Data.List.Induction

/-!
# Who wrote what

Any account can sign in on a client, one after the other, and an answer may come
after the account has signed out. A call takes the email it writes from the user who
is signed in when it is made. So whatever is stored, was committed or waits in a
queue names the account that was signed in when it was written. Nothing here depends
on each client being one account: a device on which several accounts are used can be
as many clients, or one whose writes go through one queue.
-/

namespace MessagingApp

/-- The call that an event issues. -/
def Event.made : Event → Option Call
  | .call _ made => some made
  | .register _ _ emailText => some (.registerProfile emailText)
  | .complete _ m => some (.updateChatLastActiveTimestamp m.chat m.message)
  | .signIn _ _ | .signOut _ | .commit _ _ | .reject _ => none

/-! ## Who is signed in -/

/-- The user after an event of a client. -/
def Event.userAfter (user : Option Email) : Event → Option Email
  | .signIn _ account | .register _ account _ => some account
  | .signOut _ => none
  | .call _ _ | .commit _ _ | .reject _ | .complete _ _ => user

/-- An event changes the user of its client only. -/
theorem System.currentUser_of_perform {s t : System} {e : Event} (h : s.perform e = some t) :
    (t.clients e.client).currentUser = e.userAfter (s.clients e.client).currentUser ∧
      ∀ d, d ≠ e.client → t.clients d = s.clients d := by
  have hissue : ∀ (client : Client) (call : Call) (u : System),
      (s.withClient e.client client).issue e.client call = some u →
        (u.clients e.client).currentUser = client.currentUser ∧
          ∀ d, d ≠ e.client → u.clients d = s.clients d := by
    intro client call u hu
    obtain ⟨ws, _, rfl⟩ := issue_eq_some hu
    exact ⟨by simp, fun d hd => by simp [withClient, hd]⟩
  cases e with
  | signIn c account =>
    obtain rfl := (Option.some.inj h).symm
    exact ⟨by simp [Event.client, Event.userAfter], fun d hd => withClient_of_ne s _ hd⟩
  | signOut c =>
    obtain rfl := (Option.some.inj h).symm
    exact ⟨by simp [Event.client, Event.userAfter], fun d hd => withClient_of_ne s _ hd⟩
  | register c account emailText => exact hissue _ _ t h
  | call c call =>
    have h' : s.issue c call = some t := h
    rw [← withClient_eq_self s c] at h'
    exact hissue _ _ t h'
  | commit c now =>
    obtain ⟨p, rest, hcommit⟩ := commits_of_commit h
    exact ⟨hcommit.currentUser_self, hcommit.clients_other⟩
  | reject c =>
    have hreject := rejects_of_reject h
    exact ⟨hreject.currentUser_self, hreject.clients_other⟩
  | complete c m =>
    exact hissue { s.clients c with completions := (s.clients c).completions.erase m } _ t
      (issue_of_complete h).2

/-! ## Where waiting writes come from -/

/-- What waits after an event waited before, or the call of the event makes it under the signed-in
user. -/
theorem System.mem_queue_of_perform {s t : System} {e : Event} (h : s.perform e = some t)
    {c : ClientId} {p : Pending} (hp : p ∈ (t.clients c).queue) :
    p ∈ (s.clients c).queue ∨ c = e.client ∧ e.made = some p.origin ∧
      ∃ ws, p.origin.writes (t.clients c).currentUser = some ws ∧ p.write ∈ ws := by
  by_cases hc : c = e.client
  swap
  · rw [(currentUser_of_perform h).2 c hc] at hp
    exact .inl hp
  subst hc
  refine Or.imp_right (And.intro rfl) ?_
  have hissue : ∀ (client : Client) (call : Call) (u : System),
      client.queue = (s.clients e.client).queue → e.made = some call →
      (s.withClient e.client client).issue e.client call = some u →
      p ∈ (u.clients e.client).queue → p ∈ (s.clients e.client).queue ∨
        e.made = some p.origin ∧
          ∃ ws, p.origin.writes (u.clients e.client).currentUser = some ws ∧ p.write ∈ ws := by
    intro client call u hqueue hmade hu hp
    obtain ⟨ws, hws, rfl⟩ := issue_eq_some hu
    rw [withClient_self] at hws
    simp only [withClient_self, hqueue] at hp ⊢
    rcases List.mem_append.mp hp with hold | hnew
    · exact .inl hold
    · obtain ⟨w, hw, rfl⟩ := List.mem_map.mp hnew
      exact .inr ⟨hmade, ws, hws, hw⟩
  cases e with
  | signIn c account | signOut c =>
    obtain rfl := (Option.some.inj h).symm
    exact .inl (by simpa [Event.client] using hp)
  | register c account emailText =>
    exact hissue { s.clients c with currentUser := some account } _ t rfl rfl h hp
  | call c call =>
    have h' : s.issue c call = some t := h
    rw [← withClient_eq_self s c] at h'
    exact hissue (s.clients c) _ t rfl rfl h' hp
  | commit c now =>
    obtain ⟨q, rest, hcommit⟩ := commits_of_commit h
    exact .inl (hcommit.mem_queue hp)
  | reject c => exact .inl ((rejects_of_reject h).mem_queue hp)
  | complete c m =>
    exact hissue { s.clients c with completions := (s.clients c).completions.erase m } _ t rfl rfl
      (issue_of_complete h).2 hp

/-! ## Writes in an account's name -/

/-- In the run `es` client `c` makes a call while `account` is signed in. -/
def CalledUnder (es : List Event) (c : ClientId) (account : Email) (call : Call) : Prop :=
  ∃ before after s, es = before ++ .call c call :: after ∧ System.runFromInit before = some s ∧
    (s.clients c).currentUser = some account

/-- A write of client `c` in the run `es` is in the name of the account that made it: a message
names it as the sender, and a new chat has it as its only user. -/
structure InOwnName (es : List Event) (c : ClientId) (w : Write) : Prop where
  message : ∀ chat id, w.path = .message chat id → ∃ account text,
    CalledUnder es c account (.sendMessage chat id text) ∧
      w = messageDocument chat id account text
  chat : ∀ chat, w.mode = .set → w.path = .chat chat → ∃ account name,
    CalledUnder es c account (.newChat chat name) ∧
      w = createBaseChatDocument chat (some account) name

section own

variable {es : List Event} {c : ClientId} {w : Write}

theorem CalledUnder.concat {account : Email} {call : Call} (h : CalledUnder es c account call)
    (e : Event) : CalledUnder (es ++ [e]) c account call := by
  obtain ⟨before, after, s, rfl, hbefore, huser⟩ := h
  exact ⟨before, after ++ [e], s, by simp, hbefore, huser⟩

theorem InOwnName.concat (h : InOwnName es c w) (e : Event) : InOwnName (es ++ [e]) c w where
  message chat id hpath := by
    obtain ⟨account, text, hcalled, hw⟩ := h.message chat id hpath
    exact ⟨account, text, hcalled.concat e, hw⟩
  chat chat hmode hpath := by
    obtain ⟨account, name, hcalled, hw⟩ := h.chat chat hmode hpath
    exact ⟨account, name, hcalled.concat e, hw⟩

/-- The call of an event that is a call, made under the user who is signed in. -/
theorem CalledUnder.of_step {s t : System} {e : Event} {account : Email} {call : Call}
    (hrun : System.runFromInit es = some s) (h : s.step e = some t)
    (hbyUser : call.byUser = true) (hmade : e.made = some call)
    (huser : (t.clients e.client).currentUser = some account) :
    CalledUnder (es ++ [e]) e.client account call := by
  cases e with
  | call c call' =>
    obtain rfl := Option.some.inj hmade
    have hissue : s.issue c call' = some t := (System.issue_of_call h).2
    rw [(System.currentUser_of_perform (e := .call c call') hissue).1] at huser
    exact ⟨es, [], s, rfl, hrun, huser⟩
  | register | complete =>
    obtain rfl := Option.some.inj hmade
    cases hbyUser
  | signIn | signOut | commit | reject => cases hmade

/-- A write that a step puts into a queue. -/
theorem InOwnName.of_step {s t : System} {e : Event} {p : Pending} {ws : List Write}
    (hrun : System.runFromInit es = some s) (h : s.step e = some t)
    (hmade : e.made = some p.origin)
    (hws : p.origin.writes (t.clients e.client).currentUser = some ws) (hw : p.write ∈ ws) :
    InOwnName (es ++ [e]) e.client p.write := by
  have hgenuine := Call.genuine_of_mem hws hw
  constructor
  case message =>
    intro chat id hpath
    obtain ⟨_, text, horigin, _⟩ := hgenuine.eq_messageDocument hpath
    rw [horigin] at hmade hws
    obtain rfl := Option.some.inj hws
    cases huser : (t.clients e.client).currentUser with
    | none =>
      rw [huser] at hw
      cases hw
    | some account =>
      rw [huser] at hw
      exact ⟨account, text, .of_step hrun h rfl hmade huser, List.mem_singleton.mp hw⟩
  case chat =>
    intro chat hmode hpath
    obtain ⟨_, name, horigin, _⟩ := hgenuine.eq_baseDocument hmode hpath
    rw [horigin] at hmade hws
    obtain ⟨account, huser, rfl⟩ := newChat_eq_some.mp hws
    refine ⟨account, name, .of_step hrun h rfl hmade huser, ?_⟩
    rcases List.mem_cons.mp hw with heq | hw
    · exact heq
    · rw [List.mem_singleton.mp hw] at hpath
      cases hpath

end own

/-- What the run `es` has written, in whose name: what waits, what was committed, and the messages
that are stored. -/
structure Attributed (es : List Event) (s : System) : Prop where
  queued : ∀ c, ∀ p ∈ (s.clients c).queue, InOwnName es c p.write
  committed : ∀ entry ∈ s.log, ∃ c, InOwnName es c entry.write
  stored : ∀ chat id d, s.db.lookup (.message chat id) = some d → ∃ c account text time,
    CalledUnder es c account (.sendMessage chat id text) ∧
      d = newDocument time (messageDocument chat id account text)

namespace Attributed

variable {es : List Event} {s t : System} {e : Event}

theorem init : Attributed [] System.init where
  queued c p hp := by cases hp
  committed entry hentry := by cases hentry
  stored chat id d hd := by cases hd

/-- What waits after a step. -/
theorem queued_step (hs : Attributed es s) (hrun : System.runFromInit es = some s)
    (h : s.step e = some t) :
    ∀ c, ∀ p ∈ (t.clients c).queue, InOwnName (es ++ [e]) c p.write := by
  intro c p hp
  have hperform : s.perform e = some t := by
    cases e with
    | call c call => exact (System.issue_of_call h).2
    | _ => exact h
  rcases System.mem_queue_of_perform hperform hp with hold | ⟨rfl, hmade, ws, hws, hw⟩
  · exact (hs.queued c p hold).concat e
  · exact .of_step hrun h hmade hws hw

/-- **Every step writes in the name of the signed-in user.** -/
theorem step (hs : Attributed es s) (hrun : System.runFromInit es = some s)
    (h : s.step e = some t) : Attributed (es ++ [e]) t := by
  have hsame : t.db = s.db → t.log = s.log → Attributed (es ++ [e]) t := by
    intro hdb hlog
    refine ⟨hs.queued_step hrun h, ?_, ?_⟩
    · rw [hlog]
      intro entry hentry
      obtain ⟨c, hown⟩ := hs.committed entry hentry
      exact ⟨c, hown.concat e⟩
    · rw [hdb]
      intro chat id d hd
      obtain ⟨c, account, text, time, hcalled, hdocument⟩ := hs.stored chat id d hd
      exact ⟨c, account, text, time, hcalled.concat e, hdocument⟩
  rcases System.step_cases h with hidle | ⟨c, call, ws, _, hissues⟩ |
    ⟨c, now, p, rest, _, hcommit⟩ | ⟨c, _, hreject⟩
  · exact hsame hidle.db_eq hidle.log_eq
  · exact hsame hissues.db_eq hissues.log_eq
  · have hown : InOwnName (es ++ [e]) c p.write :=
      (hs.queued c p (by simp [hcommit.queue_eq])).concat e
    refine ⟨hs.queued_step hrun h, ?_, ?_⟩
    · intro entry hentry
      rw [hcommit.log_eq] at hentry
      rcases List.mem_append.mp hentry with hold | hnew
      · obtain ⟨d, hd⟩ := hs.committed entry hold
        exact ⟨d, hd.concat e⟩
      · obtain rfl := List.mem_singleton.mp hnew
        exact ⟨c, hown⟩
    · intro chat id d hd
      by_cases hpath : p.write.path = .message chat id
      · obtain ⟨account, text, hcalled, hw⟩ := hown.message chat id hpath
        obtain ⟨fields, hbase, hlookup⟩ := DocumentStore.Write.lookup_commit_self hcommit.commit_eq
        rw [hw, DocumentStore.Write.base_of_set rfl] at hbase
        obtain rfl := Option.some.inj hbase
        rw [← hpath, hlookup, hw] at hd
        exact ⟨c, account, text, now, hcalled, (Option.some.inj hd).symm⟩
      · rw [DocumentStore.Write.lookup_commit_of_ne hcommit.commit_eq (Ne.symm hpath)] at hd
        obtain ⟨d', account, text, time, hcalled, hdocument⟩ := hs.stored chat id d hd
        exact ⟨d', account, text, time, hcalled.concat e, hdocument⟩
  · exact hsame hreject.db_eq hreject.log_eq

/-- Every run writes in the names of the signed-in users. -/
theorem of_run (hrun : System.runFromInit es = some s) : Attributed es s := by
  induction es using List.reverseRecOn generalizing s with
  | nil =>
    obtain rfl := Option.some.inj hrun
    exact init
  | append_singleton es e ih =>
    rw [System.runFromInit, Runs.run_append] at hrun
    obtain ⟨u, hu, hlast⟩ := Option.bind_eq_some_iff.mp hrun
    obtain ⟨t, hstep, hnil⟩ := Runs.run_cons_eq_some.mp hlast
    obtain rfl := Option.some.inj hnil
    exact (ih hu).step hu hstep

end Attributed

/-- **Nobody writes in another's name.** In every run, with accounts signing in and out on any
client and rejected writes, every message that waits or was committed names the account that was
signed in on its client when it was sent, every new chat has the account that created it as its only
user, and every message that is stored names the account that was signed in where it was sent. -/
theorem messages_name_their_sender {es : List Event} {s : System}
    (hrun : System.runFromInit es = some s) : Attributed es s :=
  .of_run hrun

/-- `bob` signs in where `ann` has signed out, and sends a message. -/
def sharedDevice : List Event :=
  System.sampleSession ++
    [.signOut 0, .signIn 0 "bob", .call 0 (.sendMessage "tea" "m2" "on my way")]

/-- The message from `ann`'s device is `bob`'s. -/
theorem messages_name_their_sender_on_sharedDevice : ∃ s : System,
    System.runFromInit sharedDevice = some s ∧ ∃ p ∈ (s.clients 0).queue, ∃ account text,
      CalledUnder sharedDevice 0 account (.sendMessage "tea" "m2" text) ∧
        p.write = messageDocument "tea" "m2" account text := by
  have hrun : (System.runFromInit sharedDevice).map (fun s =>
      decide (DocPath.message "tea" "m2" ∈ (s.clients 0).queue.map fun p => p.write.path)) =
        some true := by
    decide
  obtain ⟨s, hs, hwaits⟩ := Option.map_eq_some_iff.mp hrun
  obtain ⟨p, hp, hpath⟩ := List.mem_map.mp (of_decide_eq_true hwaits)
  obtain ⟨account, text, hcalled, hw⟩ :=
    ((messages_name_their_sender hs).queued 0 p hp).message "tea" "m2" hpath
  exact ⟨s, hs, p, hp, account, text, hcalled, hw⟩

end MessagingApp
