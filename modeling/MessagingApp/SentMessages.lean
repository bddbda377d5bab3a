import MessagingApp.OpenScreens
import MessagingApp.ShownMessages

/-!
# From the send button to the screen

What a user types and sends is written to the chat that is open, under the account
of the client, and every snapshot that is taken afterwards while the account is
signed in shows it, also while the server has not answered and whatever else the
users do.
-/

namespace MessagingApp

/-! ## Whose account is signed in -/

namespace Replicas

variable {owner : ClientId → Email} {r r' : Replicas}

/-- The accounts of the clients do not change. -/
theorem owner_of_step {e : ReplicaEvent} (h : r.step e = some r') : r'.owner = r.owner := by
  rcases step_cases h with ⟨e', t, new, _, _, _, _, _, heq⟩ | ⟨c, now, t, p, rest, _, _, heq⟩ |
    ⟨c, t, _, _, heq⟩ | ⟨c, path, document, _, _, rfl⟩ | ⟨c, store, _, _, rfl⟩ |
    ⟨c, store, _, _, rfl⟩
  · exact (congrArg Replicas.owner heq).trans rfl
  · exact (congrArg Replicas.owner heq).trans rfl
  · exact (congrArg Replicas.owner heq).trans rfl
  all_goals rfl

/-- The clients are used under their own accounts. -/
structure Owned (owner : ClientId → Email) (r : Replicas) : Prop where
  owner_eq : r.owner = owner
  user : ∀ c, ∀ email ∈ (r.system.clients c).currentUser, email = owner c

/-- **Every step keeps to the accounts.** -/
theorem Owned.step (hr : r.Owned owner) {e : ReplicaEvent} (h : r.step e = some r') :
    r'.Owned owner := by
  refine ⟨by rw [owner_of_step h, hr.owner_eq], ?_⟩
  intro c email hemail
  rcases system_cases h with ⟨e', t, rfl, hpermitted, hperform⟩ | ⟨hsystem, _⟩
  · obtain ⟨hself, hother⟩ := System.currentUser_of_perform hperform
    by_cases hc : c = e'.client
    · subst hc
      rw [hself] at hemail
      cases e' with
      | signIn d account | register d account emailText =>
        obtain rfl := Option.some.inj hemail
        exact hpermitted.trans (congrFun hr.owner_eq d)
      | signOut d => cases hemail
      | _ => exact hr.user _ email hemail
    · rw [hother c hc] at hemail
      exact hr.user c email hemail
  · rw [hsystem] at hemail
    exact hr.user c email hemail

theorem Reachable.owned (hr : r.Reachable owner) : r.Owned owner := by
  refine Runs.Reachable.invariant hr ⟨rfl, ?_⟩ (fun _ _ _ _ hu _ h => hu.step h)
  intro c email hemail
  cases hemail

end Replicas

/-! ## What a tap on the send button does -/

namespace Running

variable {contains : String → String → Bool} {owner : ClientId → Email} {s s' : Running}

/-- The states before a run come before those after it. -/
theorem states_isPrefix_of_run {es : List RunningEvent}
    (hrun : Runs.run (step contains) s es = some s') :
    s.past ++ [s.now] <+: s'.past ++ [s'.now] := by
  let Before (u v : Running) : Prop := u.past ++ [u.now] <+: v.past ++ [v.now]
  have hbefore : Before s s' :=
    Runs.run_rel hrun (fun _ => List.prefix_refl _) (fun _ _ _ huv hvw => huv.trans hvw)
      (fun _ _ _ _ hstep => states_isPrefix_of_step hstep)
  exact hbefore

/-- The state at the end of a run leads to every state that comes after it. -/
theorem Sound.leads_of_le (hs' : s'.Sound owner)
    (hearlier : s.past ++ [s.now] <+: s'.past ++ [s'.now]) {i : ℕ} (hi : s.past.length ≤ i)
    {r : Replicas} (hr : (s'.past ++ [s'.now])[i]? = some r) : s.now.Leads r := by
  have hnow : (s'.past ++ [s'.now])[s.past.length]? = some s.now := by
    rw [List.prefix_iff_getElem?.mp hearlier s.past.length (by simp)]
    simp
  obtain ⟨hlength, hri⟩ := List.getElem?_eq_some_iff.mp hr
  obtain ⟨hlength', hnow'⟩ := List.getElem?_eq_some_iff.mp hnow
  rcases Nat.lt_or_ge s.past.length i with hlt | hge
  · rw [← hri, ← hnow']
    exact List.pairwise_iff_getElem.mp hs'.ordered _ _ hlength' hlength hlt
  · obtain rfl : s.past.length = i := by omega
    obtain rfl := Option.some.inj (hnow.symm.trans hr)
    exact .refl

/-- **What a tap on the send button does.** It calls for the message in the chat of the messages
screen on top, which is the open chat, under the account of the client if it is signed in. -/
theorem Reachable.send (hs : s.Reachable contains owner) {c : ClientId} {id : MessageId}
    {text : String} {deviceTime : Time} (huser : s.now.SignedIn c)
    (h : s.step contains (.app c (.tap (.sendButtonPressed id text)) deviceTime) = some s') :
    ∃ top chat, (s.apps c).acting = some top ∧ (s.apps c).openChat top = some chat ∧
      (s.now.system.clients c).currentUser = some (owner c) ∧
      s.now.step (.act (.call c (.sendMessage chat id text)) deviceTime) = some s'.now := by
  rcases step_cases h with ⟨_, _, heq, _⟩ |
    ⟨_, _, _, reaction, now, heq, hpossible, hhandle, hnow, rfl⟩
  · cases heq
  · obtain ⟨rfl, rfl, rfl⟩ := RunningEvent.app.inj heq
    obtain ⟨view, hview, happ⟩ := hs.sound.app c
    obtain ⟨halert, top, k, answer, htop, hanswer, hresult⟩ := App.handle_tap hhandle
    obtain ⟨hhead, hobject⟩ := ObjectStacks.Heap.top_eq_some.mp htop
    have hacting : (s.apps c).acting = some top := by
      rw [App.acting, halert, Option.none_or, hhead]
    cases k with
    | messages k =>
      obtain rfl := Option.some.inj hanswer
      obtain rfl := Option.some.inj hresult
      obtain ⟨chat, hchat, _⟩ :=
        MessagesController.Sound.opened (happ _ (List.mem_of_getElem? hobject))
      have hrequest : k.chatId.map (fun chat => Event.call c (.sendMessage chat id text)) =
          some (.call c (.sendMessage chat id text)) := by rw [hchat, Option.map_some]
      obtain ⟨email, hemail⟩ := Option.isSome_iff_exists.mp huser
      have hname := hs.sound.now_reachable.owned.user c email hemail
      refine ⟨top, chat, hacting,
        (hs.arranged c).openChat_eq (List.mem_of_head? hhead) hobject hchat,
        hname ▸ hemail, ?_⟩
      dsimp only at hnow
      rw [hrequest] at hnow
      have hgrounded := happ.grounded hpossible.2 hhandle
      have hpermitted : s.now.Permitted (.call c (.sendMessage chat id text)) := by
        obtain ⟨hclient, hground⟩ := hgrounded _ hrequest
        exact Replicas.permitted_of_grounded (hs.sound.mem_view hview) hpossible.1 hclient hground
      rw [Replicas.step, if_pos hpermitted]
      exact hnow
    | _ => cases hanswer

end Running

/-- **What is sent appears.** When a user who is signed in taps the send button, from then on every
snapshot of the messages of the open chat that is taken while the account is signed in, in every run
in which the server accepts the writes, lists the text under the account of the client. -/
theorem tapped_message_appears {contains : String → String → Bool} {owner : ClientId → Email}
    {s s' t : Running} (hs : s.Reachable contains owner) {c : ClientId} {id : MessageId}
    {text : String} {deviceTime : Time} (hsigned : s.now.SignedIn c)
    (htap : s.step contains (.app c (.tap (.sendButtonPressed id text)) deviceTime) = some s')
    {es : List RunningEvent} (hok : ∀ e ∈ es, e.accepted = true)
    (hrun : Runs.run (Running.step contains) s' es = some t) :
    ∃ top chat, (s.apps c).acting = some top ∧ (s.apps c).openChat top = some chat ∧
      ∀ (i : ℕ) (r : Replicas), s'.past.length ≤ i → (t.past ++ [t.now])[i]? = some r →
        r.SignedIn c → r.ShowsMessage c chat id (owner c) text := by
  obtain ⟨top, chat, hacting, hopen, huser, hsend⟩ := hs.send hsigned htap
  refine ⟨top, chat, hacting, hopen, ?_⟩
  intro i r hi hr hlater
  have hs' : s'.Reachable contains owner := Runs.Reachable.tail hs rfl htap
  have ht : t.Sound owner := (hs'.sound.run hok hrun).1
  have hleads := ht.leads_of_le (Running.states_isPrefix_of_run hrun) hi hr
  obtain ⟨fs, hfs, hstores⟩ := Runs.Reachable.exists_run hleads
  exact hs'.sound.now_reachable.showsMessage_run hfs hstores
    (hs.sound.now_reachable.showsMessage_of_send huser hsend) hlater

/-- What `ann` sends from the messages screen shows while it waits and once it is stored. -/
theorem tapped_message_appears_for_ann : ∃ s s' t : Running,
    s.step (fun _ _ => true) (.app 0 (.tap (.sendButtonPressed "m1" "hello")) 2) = some s' ∧
      Runs.run (Running.step fun _ _ => true) s' [.background (.act (.commit 0 2) 2)] = some t ∧
      (s.apps 0).acting.bind (s.apps 0).openChat = some "tea" ∧
      t.now.ShowsMessage 0 "tea" "m1" "ann" "hello" := by
  have hrun : (Runs.run (Running.step fun _ _ => true) (Running.init sampleOwner)
      (Running.sampleTaps.take 10)).bind (fun s =>
        (s.step (fun _ _ => true) (.app 0 (.tap (.sendButtonPressed "m1" "hello")) 2)).bind
          fun s' => (Runs.run (Running.step fun _ _ => true) s'
            [.background (.act (.commit 0 2) 2)]).map
              fun t => (decide (s.now.SignedIn 0 ∧ t.now.SignedIn 0),
                (s.apps 0).acting.bind (s.apps 0).openChat)) = some (true, some "tea") := by
    decide
  obtain ⟨s, hs, hrun⟩ := Option.bind_eq_some_iff.mp hrun
  obtain ⟨s', hs', hrun⟩ := Option.bind_eq_some_iff.mp hrun
  obtain ⟨t, ht, hfacts⟩ := Option.map_eq_some_iff.mp hrun
  obtain ⟨husers, hopen⟩ := Prod.mk.inj hfacts
  obtain ⟨hsigned, hlater⟩ := of_decide_eq_true husers
  have hreachable : s.Reachable (fun _ _ => true) sampleOwner :=
    Runs.Reachable.of_run (by decide) hs
  obtain ⟨top, chat, hacting, hchat, hshows⟩ :=
    tapped_message_appears hreachable hsigned hs' (by decide) ht
  rw [hacting, Option.bind_some, hchat] at hopen
  obtain rfl := Option.some.inj hopen
  have hlength : s'.past.length ≤ t.past.length := by
    have hle := (Running.states_isPrefix_of_run ht).length_le
    simpa using hle
  refine ⟨s, s', t, hs', ht, ?_, hshows _ t.now hlength (by simp) hlater⟩
  rw [hacting, Option.bind_some, hchat]

end MessagingApp
