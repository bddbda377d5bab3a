import MessagingApp.Membership
import MessagingApp.Replay

/-!
# Accepted and rejected membership calls

`newChat` and `addNewUser` issue two separate writes, and the server answers each
on its own. This file follows both answers, with any activity of other clients in
between, and compares the result with what it would be had the call not been made.
-/

namespace MessagingApp

/-- How the server answers a write. -/
inductive Outcome
  | accepted
  | rejected
  deriving DecidableEq

/-- The answer to the oldest write of client `c` at time `now`. -/
def Outcome.event (c : ClientId) (now : Time) : Outcome → Event
  | .accepted => .commit c now
  | .rejected => .reject c

/-- What an answered write applies. -/
def Outcome.applied (now : Time) (w : Write) : Outcome → List Applied
  | .accepted => [(now, w)]
  | .rejected => []

/-- The event answers a write of client `c`. -/
def Answers (c : ClientId) (e : Event) : Prop := (∃ now, e = .commit c now) ∨ e = .reject c

/-- A call that makes `email` a member of the chat when `user` is signed in. -/
inductive MembershipCall (chat : ChatId) (email : Email) (user : Option Email) : Call → Prop
  | newChat (name : String) (huser : user = some email) :
      MembershipCall chat email user (.newChat chat name)
  | addNewUser (added : User) (hemail : added.email = some email) :
      MembershipCall chat email user (.addNewUser chat added)

/-- The call took effect completely, or the chat document and the member documents are the
ones the database would hold without it. -/
def AllOrNothing (chat : ChatId) (email : Email) (data : Document) (final without : Db) : Prop :=
  (IsMember final chat email ∧ final.lookup (.member chat email) = some data) ∨
    (final.lookup (.chat chat) = without.lookup (.chat chat) ∧
      ∀ member, final.lookup (.member chat member) = without.lookup (.member chat member))

/-- A write that does not take `email` out of the `users` array of the chat. -/
def KeepsMember (chat : ChatId) (email : Email) (a : Applied) : Prop :=
  ∀ d d', hasUser email d = true → after a (.chat chat) (some d) = some d' →
    hasUser email d' = true

/-- A membership call takes effect write by write. `before` and `final` are the databases at
the first answer and behind the second, and `others` the writes applied in between. -/
structure WriteByWrite (chat : ChatId) (email : Email) (first second : Applied)
    (o₁ o₂ : Outcome) (others : List Applied) (before final : Db) : Prop where
  /-- The accepted ones of the two writes take effect in their places, and nothing else does. -/
  replayed : Runs.run apply before
    (o₁.applied first.1 first.2 ++ others ++ o₂.applied second.1 second.2) = some final
  /-- An accepted first write makes `email` a member, if no write in between takes it out. -/
  added : o₁ = .accepted → (∀ a ∈ others, KeepsMember chat email a) → IsMember final chat email
  /-- An accepted second write leaves the document of the member. -/
  stored : o₂ = .accepted →
    final.lookup (.member chat email) = some (newDocument second.1 second.2)
  /-- The other documents are as without the call, with a rejected write all of them. -/
  unchanged : ∀ without, Runs.run apply before others = some without → ∀ path,
    (o₁ = .accepted → path ≠ .chat chat) → (o₂ = .accepted → path ≠ .member chat email) →
      final.lookup path = without.lookup path
  /-- With equal answers the call takes effect as a whole or not at all. -/
  allOrNothing : o₁ = o₂ → (o₁ = .accepted → ∀ a ∈ others, KeepsMember chat email a) →
    ∀ without, Runs.run apply before others = some without →
      AllOrNothing chat email (newDocument second.1 second.2) final without

/-! ## The two writes -/

/-- The first write of a membership call adds the email to the array, the second overwrites
the member's document. -/
theorem MembershipCall.writes_eq {chat : ChatId} {email : Email} {user : Option Email}
    {call : Call} (h : MembershipCall chat email user call) {first second : Write}
    (hwrites : call.writes user = some [first, second]) :
    Adds chat email call first ∧ second.path = .member chat email ∧ second.mode = .set := by
  cases h with
  | newChat name huser =>
    obtain ⟨creator, hcreator, hws⟩ := newChat_eq_some.mp hwrites
    obtain rfl : creator = email := Option.some.inj (hcreator.symm.trans huser)
    obtain ⟨rfl, rfl⟩ : first = createBaseChatDocument chat (some creator) name ∧
        second = creatorDocument chat creator := by simpa using hws
    exact ⟨.inl ⟨name, rfl, rfl⟩, rfl, rfl⟩
  | addNewUser added hemail =>
    obtain ⟨email', name, hemail', _, hws⟩ := addNewUser_eq_some.mp hwrites
    obtain rfl : email' = email := Option.some.inj (hemail'.symm.trans hemail)
    obtain ⟨rfl, rfl⟩ : first = addToUsers chat email' ∧
        second = addedDocument chat email' name := by simpa using hws
    exact ⟨.inr ⟨added, rfl, rfl⟩, rfl, rfl⟩

/-- An array contains what `arrayUnion` just added. -/
theorem mem_unionEntries_self (entries : List (Option String)) (email : Email) :
    some email ∈ unionEntries entries [email] := by
  by_cases h : some email ∈ entries <;> simp [unionEntries_one, h]

/-- An applied addition makes the email a member, whatever was stored before. -/
theorem Adds.isMember {chat : ChatId} {email : Email} {call : Call} {w : Write}
    (h : Adds chat email call w) {now : Time} {db t : Db} (hcommit : commit now w db = some t) :
    IsMember t chat email := by
  obtain ⟨d, _, hlookup⟩ := DocumentStore.Write.lookup_commit_self hcommit
  rw [h.path_eq] at hlookup
  refine ⟨_, hlookup, ?_⟩
  rcases h with ⟨name, _, rfl⟩ | ⟨added, _, rfl⟩
  · have hne : Field.chatLastActive ≠ .users := by decide
    change hasUser email (Function.update _ .chatLastActive _) = true
    rw [hasUser_update_of_ne hne]
    exact (hasUser_update_users _ [email] email).mpr (by simp)
  · simpa [MessagingApp.addToUsers, assign_singleton, hasUser, coercedArray, FieldValue.eval]
      using mem_unionEntries_self _ email

/-- A write to other fields of a chat keeps its members. -/
theorem keepsMember_of_users_not_mem {a : Applied} (hmode : a.2.mode ≠ .set)
    (husers : Field.users ∉ a.2.data.map Prod.fst) (chat : ChatId) (email : Email) :
    KeepsMember chat email a := by
  intro d d' huser hafter
  rw [after] at hafter
  split at hafter
  · rw [DocumentStore.Write.base_of_ne_set hmode, Option.map_some] at hafter
    obtain rfl := Option.some.inj hafter
    rwa [hasUser, DocumentStore.assign_of_not_mem _ husers]
  · obtain rfl := Option.some.inj hafter
    exact huser

/-- Writes that keep a member keep a member. -/
theorem isMember_run {chat : ChatId} {email : Email} {db t : Db} {as : List Applied}
    (hkeep : ∀ a ∈ as, KeepsMember chat email a) (hmember : IsMember db chat email)
    (h : Runs.run apply db as = some t) : IsMember t chat email := by
  let Keeps (u v : Db) : Prop := IsMember u chat email → IsMember v chat email
  have hkeeps : Keeps db t := by
    refine Runs.run_rel h (fun _ => id) (fun _ _ _ huv hvw hu => hvw (huv hu)) ?_
    rintro u v a ha hstep ⟨d, hd, huser⟩
    have hstored : DocPath.chat chat ∈ v :=
      DocumentStore.Write.mem_commit_of_mem hstep (DocumentStore.mem_of_lookup hd)
    obtain ⟨d', hd'⟩ := DocumentStore.exists_lookup hstored
    refine ⟨d', hd', hkeep a ha d d' huser ?_⟩
    rw [← hd, ← lookup_apply hstep, hd']
  exact hkeeps hmember

/-! ## The two answers -/

section answers

variable {s t : System} {c : ClientId} {now : Time} {p : Pending} {rest : List Pending}

/-- An accepted write is applied. -/
theorem step_accepted (hqueue : (s.clients c).queue = p :: rest)
    (h : s.step (Outcome.accepted.event c now) = some t) :
    (t.clients c).queue = rest ∧ commit now p.write s.db = some t.db := by
  obtain ⟨p', rest', hcommit⟩ := System.commits_of_commit h
  obtain ⟨rfl, rfl⟩ := List.cons.inj (hqueue.symm.trans hcommit.queue_eq)
  exact ⟨hcommit.queue_self, hcommit.commit_eq⟩

/-- An accepted write is applied, and a rejected one changes no document. -/
theorem step_answer {o : Outcome} (hqueue : (s.clients c).queue = p :: rest)
    (h : s.step (o.event c now) = some t) :
    (t.clients c).queue = rest ∧ Runs.run apply s.db (o.applied now p.write) = some t.db := by
  cases o with
  | accepted =>
    obtain ⟨hrest, hcommit⟩ := step_accepted hqueue h
    refine ⟨hrest, ?_⟩
    simpa [Outcome.applied, apply] using hcommit
  | rejected =>
    have hreject := System.rejects_of_reject h
    obtain ⟨p', hp'⟩ := hreject.queue_self
    exact ⟨(List.cons.inj (hp'.symm.trans hqueue)).2, congrArg some hreject.db_eq.symm⟩

/-- The answer to a write leaves every document alone that the write does not have. -/
theorem foldl_applied_of_ne {o : Outcome} {w : Write} {path : DocPath}
    (h : o = .accepted → path ≠ w.path) (old : Option Document) :
    (o.applied now w).foldl (fun old a => after a path old) old = old := by
  cases o with
  | accepted => exact after_of_ne (h rfl) old
  | rejected => rfl

/-- While the server answers no write of a client, that client's queue only grows. -/
theorem queue_of_not_answers {es : List Event} (hes : ∀ e ∈ es, ¬ Answers c e)
    (h : Runs.run System.step s es = some t) :
    ∃ more, (t.clients c).queue = (s.clients c).queue ++ more := by
  let Grows (u v : System) : Prop := ∃ more, (v.clients c).queue = (u.clients c).queue ++ more
  have hgrows : Grows s t := by
    refine Runs.run_rel h (fun _ => ⟨[], by simp⟩) ?_ ?_
    · rintro u v w ⟨new, hnew⟩ ⟨more, hmore⟩
      exact ⟨new ++ more, by rw [hmore, hnew, List.append_assoc]⟩
    · intro u v e he hstep
      have hnot := hes e he
      rcases System.step_cases hstep with hkind | ⟨d, call, ws, _, hkind⟩ |
        ⟨d, now, p, rest, rfl, hkind⟩ | ⟨d, rfl, hkind⟩
      · exact ⟨[], by rw [hkind.queue_eq, List.append_nil]⟩
      · by_cases hd : c = d
        · subst hd
          exact ⟨_, hkind.queue_self⟩
        · exact ⟨[], by rw [hkind.clients_other c hd, List.append_nil]⟩
      · by_cases hd : c = d
        · subst hd
          exact absurd (.inl ⟨now, rfl⟩) hnot
        · exact ⟨[], by rw [hkind.clients_other c hd, List.append_nil]⟩
      · by_cases hd : c = d
        · subst hd
          exact absurd (.inr rfl) hnot
        · exact ⟨[], by rw [hkind.clients_other c hd, List.append_nil]⟩
  exact hgrows

end answers

section replays

variable {chat : ChatId} {email : Email} {before final : Db} {first second : Applied}
  {o₁ o₂ : Outcome} {others : List Applied}

/-- The member that an accepted first write makes is one behind the second answer too. -/
theorem isMember_of_replay {call : Call} (hadds : Adds chat email call first.2)
    (hpath : second.2.path = .member chat email)
    (hkeep : ∀ a ∈ others, KeepsMember chat email a)
    (h : Runs.run apply before
      (Outcome.accepted.applied first.1 first.2 ++ others ++
        o₂.applied second.1 second.2) = some final) : IsMember final chat email := by
  obtain ⟨u, hu, hrest⟩ := Runs.run_cons_eq_some.mp h
  refine isMember_run ?_ (hadds.isMember hu) hrest
  intro a ha
  rcases List.mem_append.mp ha with ha | ha
  · exact hkeep a ha
  · -- The second write does not touch the chat document.
    cases o₂ with
    | rejected => cases ha
    | accepted =>
      obtain rfl := List.mem_singleton.mp ha
      intro d d' huser hd'
      rw [after_of_ne (by rw [hpath]; exact DocPath.noConfusion)] at hd'
      obtain rfl := Option.some.inj hd'
      exact huser

/-- An accepted second write overwrites the document of the member. -/
theorem lookup_member_of_replay {as : List Applied} (hpath : second.2.path = .member chat email)
    (hmode : second.2.mode = .set)
    (h : Runs.run apply before (as ++ Outcome.accepted.applied second.1 second.2) =
      some final) :
    final.lookup (.member chat email) = some (newDocument second.1 second.2) := by
  rw [Runs.run_append] at h
  obtain ⟨u, _, h⟩ := Option.bind_eq_some_iff.mp h
  obtain ⟨t, hcommit, ht⟩ := Runs.run_cons_eq_some.mp h
  obtain rfl := Option.some.inj ht
  obtain ⟨d, hbase, hlookup⟩ := DocumentStore.Write.lookup_commit_self hcommit
  rw [DocumentStore.Write.base_of_set hmode] at hbase
  rw [hpath] at hlookup
  rw [hlookup, ← Option.some.inj hbase]
  rfl

/-- A document that no accepted write of the call has is the one the other writes leave. -/
theorem lookup_replay_of_ne {path : DocPath} {without : Db}
    (hwithout : Runs.run apply before others = some without)
    (hfirst : o₁ = .accepted → path ≠ first.2.path)
    (hsecond : o₂ = .accepted → path ≠ second.2.path)
    (h : Runs.run apply before
      (o₁.applied first.1 first.2 ++ others ++ o₂.applied second.1 second.2) = some final) :
    final.lookup path = without.lookup path := by
  rw [lookup_run_apply h, lookup_run_apply hwithout, List.foldl_append, List.foldl_append,
    foldl_applied_of_ne hsecond, foldl_applied_of_ne hfirst]

/-- What follows from the replay of the accepted writes. -/
theorem WriteByWrite.of_replay {call : Call} (hadds : Adds chat email call first.2)
    (hpath : second.2.path = .member chat email) (hmode : second.2.mode = .set)
    (h : Runs.run apply before
      (o₁.applied first.1 first.2 ++ others ++ o₂.applied second.1 second.2) = some final) :
    WriteByWrite chat email first second o₁ o₂ others before final := by
  have hadded : o₁ = .accepted → (∀ a ∈ others, KeepsMember chat email a) →
      IsMember final chat email := by
    rintro rfl hkeep
    exact isMember_of_replay hadds hpath hkeep h
  have hstored : o₂ = .accepted →
      final.lookup (.member chat email) = some (newDocument second.1 second.2) := by
    rintro rfl
    exact lookup_member_of_replay hpath hmode h
  have hunchanged : ∀ without, Runs.run apply before others = some without → ∀ path,
      (o₁ = .accepted → path ≠ .chat chat) → (o₂ = .accepted → path ≠ .member chat email) →
        final.lookup path = without.lookup path := by
    intro without hwithout path hfirst hsecond
    exact lookup_replay_of_ne hwithout (by rwa [hadds.path_eq]) (by rwa [hpath]) h
  refine ⟨h, hadded, hstored, hunchanged, ?_⟩
  rintro rfl hkeep without hwithout
  cases o₁ with
  | accepted => exact .inl ⟨hadded rfl (hkeep rfl), hstored rfl⟩
  | rejected =>
    have hsame : ∀ path, final.lookup path = without.lookup path := by
      intro path
      exact hunchanged without hwithout path (fun h => nomatch h) (fun h => nomatch h)
    exact .inr ⟨hsame _, fun _ => hsame _⟩

end replays

/-- **A membership call takes effect write by write.** The two writes of a call stand at the
head of a client's queue; the server answers the first, other clients and this one go on, and
the server answers the second. The result is what the accepted ones of the two writes and the
other applied writes leave. With equal answers the call is all-or-nothing; with different answers
exactly the accepted write took effect. -/
theorem membership_call_outcomes {s s₁ s₂ t : System} {c : ClientId} {chat : ChatId}
    {email : Email} {user : Option Email} {call : Call} {first second : Write}
    {rest : List Pending} {o₁ o₂ : Outcome} {t₁ t₂ : Time} {es : List Event}
    (hcall : MembershipCall chat email user call)
    (hwrites : call.writes user = some [first, second])
    (hqueue : (s.clients c).queue = ⟨call, first⟩ :: ⟨call, second⟩ :: rest)
    (hfirst : s.step (o₁.event c t₁) = some s₁) (hes : ∀ e ∈ es, ¬ Answers c e)
    (hrun : Runs.run System.step s₁ es = some s₂)
    (hsecond : s₂.step (o₂.event c t₂) = some t) :
    ∃ entries, s₂.log = s₁.log ++ entries ∧
      WriteByWrite chat email (t₁, first) (t₂, second) o₁ o₂ (entries.map Commit.applied)
        s.db t.db := by
  obtain ⟨hadds, hpath, hmode⟩ := hcall.writes_eq hwrites
  obtain ⟨entries, hlog, hothers⟩ := System.run_applies hrun
  obtain ⟨more, hmore⟩ := queue_of_not_answers hes hrun
  obtain ⟨hqueue₁, hdb₁⟩ := step_answer hqueue hfirst
  have hqueue₂ : (s₂.clients c).queue = ⟨call, second⟩ :: (rest ++ more) := by
    rw [hmore, hqueue₁]
    rfl
  obtain ⟨_, hdb₂⟩ := step_answer hqueue₂ hsecond
  refine ⟨entries, hlog, .of_replay hadds hpath hmode ?_⟩
  rw [Runs.run_append, Runs.run_append, hdb₁, Option.bind_some, hothers, Option.bind_some]
  exact hdb₂

/-- A chat that `ann` created. -/
def annsChat : List Event :=
  [.signIn 0 "ann", .call 0 (.newChat "tea" "Tea time"), .commit 0 1, .commit 0 1]

/-- `ann` adds `bob` to her chat, and on another device she gives the chat a colour. -/
def additionAndColour : List Event :=
  annsChat ++ [.call 0 (.addNewUser "tea" { email := some "bob", name := some "Bob" }),
    .signIn 1 "ann", .call 1 (.updateChatColour "tea" "FF54C0")]

/-- One of the two writes of an addition is accepted and the other rejected, and the colour of
the chat is written in between: `bob` becomes a member without a document, or has a document and
is no member. -/
theorem membership_call_outcomes_on_addition : ∃ s t u : System,
    Runs.run System.step s [.commit 0 5, .commit 1 6, .reject 0] = some t ∧
      WriteByWrite "tea" "bob" (5, addToUsers "tea" "bob") (7, addedDocument "tea" "bob" "Bob")
        .accepted .rejected [(6, chatColourWrite "FF54C0" "tea")] s.db t.db ∧
      IsMember t.db "tea" "bob" ∧
      Runs.run System.step s [.reject 0, .commit 1 6, .commit 0 7] = some u ∧
      WriteByWrite "tea" "bob" (5, addToUsers "tea" "bob") (7, addedDocument "tea" "bob" "Bob")
        .rejected .accepted [(6, chatColourWrite "FF54C0" "tea")] s.db u.db ∧
      DocPath.member "tea" "bob" ∈ u.db := by
  let call : Call := .addNewUser "tea" { email := some "bob", name := some "Bob" }
  have hcall : MembershipCall "tea" "bob" (some "ann") call := .addNewUser _ rfl
  have hqueues : (System.runFromInit additionAndColour).map (fun s =>
      ((s.clients 0).queue, (s.clients 1).queue)) =
      some ([⟨call, addToUsers "tea" "bob"⟩, ⟨call, addedDocument "tea" "bob" "Bob"⟩],
        [⟨.updateChatColour "tea" "FF54C0", chatColourWrite "FF54C0" "tea"⟩]) := rfl
  have hruns : ∀ o₁ o₂ : Outcome, ((System.runFromInit additionAndColour).bind fun s =>
      Runs.run System.step s [o₁.event 0 5, .commit 1 6, o₂.event 0 7]).isSome := by
    intro o₁ o₂
    cases o₁ <;> cases o₂ <;> decide
  obtain ⟨s, hs, hqueue⟩ := Option.map_eq_some_iff.mp hqueues
  obtain ⟨hqueue₀, hqueue₁⟩ := Prod.mk.inj hqueue
  have houtcomes : ∀ o₁ o₂ : Outcome, ∃ t,
      Runs.run System.step s [o₁.event 0 5, .commit 1 6, o₂.event 0 7] = some t ∧
      WriteByWrite "tea" "bob" (5, addToUsers "tea" "bob") (7, addedDocument "tea" "bob" "Bob")
        o₁ o₂ [(6, chatColourWrite "FF54C0" "tea")] s.db t.db := by
    intro o₁ o₂
    have hrun := hruns o₁ o₂
    rw [hs, Option.bind_some] at hrun
    obtain ⟨t, ht⟩ := Option.isSome_iff_exists.mp hrun
    refine ⟨t, ht, ?_⟩
    obtain ⟨s₁, hfirst, hrest⟩ := Runs.run_cons_eq_some.mp ht
    obtain ⟨s₂, hbetween, hrest⟩ := Runs.run_cons_eq_some.mp hrest
    obtain ⟨s₃, hsecond, hrest⟩ := Runs.run_cons_eq_some.mp hrest
    obtain rfl := Option.some.inj hrest
    have hother : 1 ≠ (o₁.event 0 5).client := by cases o₁ <;> decide
    obtain ⟨p, rest, hcommit⟩ := System.commits_of_commit hbetween
    have hqueue₁' := hcommit.queue_eq
    rw [System.step_clients_of_ne hfirst hother, hqueue₁] at hqueue₁'
    obtain ⟨rfl, -⟩ := List.cons.inj hqueue₁'
    have hes : ∀ e ∈ [Event.commit 1 6], ¬ Answers 0 e := by simp [Answers]
    have hrun₁ : Runs.run System.step s₁ [.commit 1 6] = some s₂ := by simp [hbetween]
    obtain ⟨entries, hlog, htakes⟩ :=
      membership_call_outcomes hcall rfl hqueue₀ hfirst hes hrun₁ hsecond
    obtain rfl := List.append_cancel_left (hlog.symm.trans hcommit.log_eq)
    exact htakes
  obtain ⟨t, ht, htakes⟩ := houtcomes .accepted .rejected
  obtain ⟨u, hu, htakes'⟩ := houtcomes .rejected .accepted
  refine ⟨s, t, u, ht, htakes, htakes.added rfl ?_, hu, htakes', ?_⟩
  · intro a ha
    obtain rfl := List.mem_singleton.mp ha
    exact keepsMember_of_users_not_mem (by decide) (by decide) "tea" "bob"
  · exact DocumentStore.mem_of_lookup (htakes'.stored rfl)

/-- **A membership call can be half applied.** Adding `bob` to the chat of `ann`, with the
array write accepted and the document rejected, makes him a member without a document. -/
theorem addNewUser_half_applied : ∃ s t : System, s.ReachableWithRejections ∧
    Runs.run System.step s
      [.call 0 (.addNewUser "tea" { email := some "bob", name := some "Bob" }), .commit 0 5,
       .reject 0] = some t ∧
    ∀ data, ¬ AllOrNothing "tea" "bob" data t.db s.db := by
  have hrun : (System.runFromInit annsChat).bind (fun s => (Runs.run System.step s
      [.call 0 (.addNewUser "tea" { email := some "bob", name := some "Bob" }), .commit 0 5,
       .reject 0]).map (fun t =>
        decide ((t.db.lookup (.member "tea" "bob")).isNone ∧
          (t.db.lookup (.chat "tea")).map (hasUser "bob") = some true ∧
          (s.db.lookup (.chat "tea")).map (hasUser "bob") = some false))) = some true := by
    decide
  obtain ⟨s, hs, hrun⟩ := Option.bind_eq_some_iff.mp hrun
  obtain ⟨t, ht, hfacts⟩ := Option.map_eq_some_iff.mp hrun
  obtain ⟨hmember, hafter, hbefore⟩ := of_decide_eq_true hfacts
  refine ⟨s, t, Runs.Reachable.of_run (fun _ _ => trivial) hs, ht, ?_⟩
  rintro data (⟨_, hdata⟩ | ⟨hchat, _⟩)
  · simp [hdata] at hmember
  · rw [hchat, hbefore] at hafter
    cases hafter

end MessagingApp
