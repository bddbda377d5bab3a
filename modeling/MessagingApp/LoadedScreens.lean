import MessagingApp.AppSafety

/-!
# Apps that nobody is signed out of

A table asks its messages screen for as many rows as there were messages when it was
last reloaded, and an empty snapshot does not reload it. While an account stays
signed in, a chat that had messages keeps them, so there is a message for each row
unless the query fails. And while nobody is signed out, no snapshot lacks a document
that waits, and the screens behind the sign-in are only open while a user is signed in.
-/

namespace MessagingApp

/-! ## Rows of a messages screen -/

/-- A messages screen has a message for each row, and shows rows only of a chat with messages. -/
structure MessagesController.Loaded (view : LocalDb) (k : MessagesController) : Prop where
  rows : k.screen.rowCount = k.screen.messages.length
  stored : ∀ chat, k.chatId = some chat → 0 < k.screen.rowCount →
    ∃ id, DocPath.message chat id ∈ view

/-- Every view controller has what its rows show. -/
def ViewController.Loaded (view : LocalDb) : ViewController → Prop
  | .messages k => k.Loaded view
  | _ => True

/-- What listeners are handed unless the query for messages fails or lacks what waits. -/
def Heard (view : LocalDb) (listener : Listener) (snapshot : Snapshot LocalDb) : Prop :=
  listener = .loadMessages → snapshot = .ok view

/-- A message that is shown to a client is listed by the query for messages. -/
theorem LocalSchema.localMessagesOf_ne_nil {view : LocalDb} (h : LocalSchema view) {chat : ChatId}
    {id : MessageId} (hmem : DocPath.message chat id ∈ view) : localMessagesOf chat view ≠ [] := by
  obtain ⟨d, hd⟩ := DocumentStore.exists_lookup hmem
  have hschema : MessageSchema (LocalDocument.resolve d) := h _ _ hd
  obtain ⟨t, ht⟩ := hschema.time
  have hlisted : ⟨id, LocalDocument.shown d⟩ ∈ localMessagesOf chat view :=
    mem_localMessagesOf.mpr ⟨d, hd, rfl, LocalDocument.orderKey_isSome ht⟩
  exact List.ne_nil_of_mem hlisted

/-- **A snapshot leaves a message for each row.** The table is only reloaded on messages, and a
chat that had some keeps them. -/
theorem MessagesController.Loaded.loadMessages {view : LocalDb} (hview : LocalSchema view)
    {k : MessagesController} (hk : k.Loaded view) {chat : ChatId} (hchat : k.chatId = some chat)
    {screen : MessagesScreen}
    (h : k.screen.loadMessages (.ok (localMessagesOf chat view)) = some screen) :
    MessagesController.Loaded view { k with screen := screen } := by
  obtain ⟨messages, hmessages, rfl⟩ := MessagesScreen.mapM_of_loadMessages h
  by_cases hnil : messages = []
  · subst hnil
    have hdocuments : localMessagesOf chat view = [] := by
      have hlength := (PartialLoops.mapM_eq_some_iff.mp hmessages).length_eq
      exact List.length_eq_zero_iff.mp hlength
    have hrows : k.screen.rowCount = 0 := by
      by_contra hne
      obtain ⟨id, hid⟩ := hk.stored chat hchat (Nat.pos_of_ne_zero hne)
      exact hview.localMessagesOf_ne_nil hid hdocuments
    have hcleared : (MessagesScreen.rebuilt [] k.screen).rowCount = 0 := hrows
    refine ⟨by rw [hcleared]; rfl, ?_⟩
    intro chat' _ hpos
    dsimp only at hpos
    omega
  · refine ⟨by simp [MessagesScreen.rebuilt_rowCount hnil], ?_⟩
    intro chat' hchat' _
    obtain rfl : chat = chat' := Option.some.inj (hchat.symm.trans hchat')
    obtain ⟨message, hmessage⟩ := List.exists_mem_of_ne_nil _ hnil
    obtain ⟨d, hd, _⟩ := PartialLoops.mem_of_mapM hmessages hmessage
    obtain ⟨d', hd', _⟩ := mem_localMessagesOf.mp hd
    exact ⟨d.documentID, DocumentStore.mem_of_lookup hd'⟩

/-- A messages screen stays loaded while its query gives what its client is shown. -/
theorem MessagesController.Loaded.told {view : LocalDb} {listener : Listener}
    {snapshot : Snapshot LocalDb} (hheard : Heard view listener snapshot)
    (hsnapshot : ∀ v, snapshot = .ok v → TakenFrom view v) {k k' : MessagesController}
    (hk : k.Loaded view) (h : k.told listener snapshot = some (some k')) : k'.Loaded view := by
  unfold MessagesController.told at h
  split at h
  case h_1 =>
    split at h
    case isFalse => cases h
    case isTrue =>
      obtain ⟨_, _, rfl⟩ := Option.map_eq_some_iff.mp (Option.some.inj h)
      exact ⟨hk.rows, hk.stored⟩
  case h_2 =>
    obtain ⟨_, _, rfl⟩ := Option.map_eq_some_iff.mp (Option.some.inj h)
    exact ⟨hk.rows, hk.stored⟩
  case h_3 chat hchat =>
    obtain rfl := Option.some.inj (Option.some.inj h)
    obtain ⟨hmessages, hrows, _⟩ :=
      k.screen.loadUserOptions_frame (snapshot.map (localUsersOf chat))
    refine ⟨by rw [hmessages, hrows, hk.rows], ?_⟩
    dsimp only
    rw [hrows]
    exact hk.stored
  case h_4 chat hchat =>
    split at h
    case isFalse => cases h
    case isTrue =>
      obtain ⟨screen, hscreen, rfl⟩ := Option.map_eq_some_iff.mp (Option.some.inj h)
      obtain rfl := hheard rfl
      exact hk.loadMessages (hsnapshot view rfl).schema hchat hscreen
  case h_5 => cases h

namespace ViewController

theorem Loaded.of_place {view : LocalDb} {k : ViewController}
    (h : ∀ chatId, k.place ≠ .messages chatId) : k.Loaded view := by
  cases k with
  | messages k => exact absurd rfl (h k.chatId)
  | _ => trivial

/-- A messages screen opens empty, and no tap changes what it lists. -/
theorem Loaded.tap {view : LocalDb} {k : ViewController} (hk : k.Loaded view)
    {contains : String → String → Bool} {c : ClientId} {controllers : List ViewController} {id : ℕ}
    {t : Tap} {answer : Answer} (h : k.tap contains c controllers id t = some (some answer)) :
    answer.self.Loaded view ∧ ∀ next, answer.navigation = .push next → next.Loaded view := by
  have hplaced := placed_of_tap h
  -- Only the chat list opens messages screens.
  have hother : (∀ chatId, k.place ≠ .messages chatId) → answer.self.Loaded view := by
    intro hne
    exact .of_place (hplaced.self ▸ hne)
  have hpush : k.place ≠ .contacts → ∀ next, answer.navigation = .push next →
      next.Loaded view := by
    intro hne next hnext
    refine .of_place fun chatId hchatId => ?_
    have hover := (hplaced.push next hnext).1
    rw [hchatId] at hover
    cases hplace : k.place with
    | contacts => exact hne hplace
    | _ =>
      rw [hplace] at hover
      cases hover
  cases k with
  | messages k =>
    refine ⟨?_, hpush (by simp [place])⟩
    cases t with
    | segue s =>
      obtain ⟨next, _, hanswer⟩ := Option.map_eq_some_iff.mp h
      obtain rfl := Option.some.inj hanswer
      exact hk
    | back | sendButtonPressed =>
      obtain rfl := Option.some.inj (Option.some.inj h)
      exact hk
    | _ => cases h
  | contacts k =>
    refine ⟨hother (by simp [place]), ?_⟩
    intro next hnext
    cases t with
    | segue s =>
      obtain ⟨next', hprepare, hanswer⟩ := Option.map_eq_some_iff.mp h
      obtain rfl := Option.some.inj hanswer
      obtain rfl := Navigation.push.inj hnext
      cases s <;> cases hprepare <;> trivial
    | back =>
      obtain rfl := Option.some.inj (Option.some.inj h)
      cases hnext
    | didSelectRowAt row =>
      change (if row < k.table.rowCount then _ else none) = _ at h
      split at h
      case isFalse => cases h
      case isTrue =>
        obtain ⟨chat, _, hanswer⟩ := Option.bind_eq_some_iff.mp (Option.some.inj h)
        obtain rfl := Option.some.inj hanswer
        obtain rfl := Navigation.push.inj hnext
        refine ⟨rfl, ?_⟩
        intro _ _ hpos
        cases hpos
    | _ => cases h
  | _ => exact ⟨hother (by simp [place]), hpush (by simp [place])⟩

end ViewController

/-- The handlers keep a message for each row while the query gives what the client is shown. -/
theorem App.keeps_loaded (contains : String → String → Bool) :
    Keeps contains Heard ViewController.Loaded where
  mono {view view' k} hgrows hk := by
    cases k with
    | messages k =>
      refine ⟨hk.rows, fun chat hchat hpos => ?_⟩
      obtain ⟨id, hid⟩ := hk.stored chat hchat hpos
      exact ⟨id, hgrows _ hid⟩
    | _ => trivial
  contacts view currentUser := trivial
  requested view h := by cases h <;> trivial
  tap hk _ h := hk.tap h
  told {view k k' listener snapshot} hk hheard hsnapshot h := by
    cases k with
    | messages k =>
      obtain ⟨r, htold, hr⟩ := Option.map_eq_some_iff.mp h
      obtain ⟨k', rfl, rfl⟩ := Option.map_eq_some_iff.mp hr
      exact MessagesController.Loaded.told hheard hsnapshot hk htold
    | _ =>
      refine .of_place fun chatId hchatId => ?_
      rw [ViewController.place_of_told h] at hchatId
      cases hchatId
  layoutRow {view k k' row} hk h := by
    cases k with
    | messages k =>
      change (if row < k.screen.rowCount then _ else none) = _ at h
      split at h
      case isFalse => cases h
      case isTrue =>
        obtain ⟨screen, hscreen, rfl⟩ := Option.map_eq_some_iff.mp (Option.some.inj h)
        obtain ⟨_, cell, _, rfl⟩ := MessagesScreen.layoutRow_eq_some.mp hscreen
        have hk : k.Loaded view := hk
        exact ⟨hk.rows, hk.stored⟩
    | _ =>
      refine .of_place fun chatId hchatId => ?_
      rw [ViewController.place_of_layoutRow h] at hchatId
      cases hchatId
  details _ _ := trivial

/-! ## Accounts that stay signed in -/

/-- An account that was never signed in has nothing under way. -/
structure Replicas.Unused (r : Replicas) (c : ClientId) : Prop where
  queue : (r.system.clients c).queue = []
  completions : (r.system.clients c).completions = []
  batches : (r.stores c).batches = []

namespace Replicas

variable {r r' : Replicas} {c : ClientId}

/-- Where nothing waits, a client is shown the same signed in and signed out. -/
theorem shown_eq_view (h : r.SignedIn c ∨ r.Unused c) : r.shown c = r.view c := by
  rcases h with hsigned | hunused
  · exact shown_of_signedIn hsigned
  · unfold shown
    split
    case isTrue => rfl
    case isFalse =>
      rw [view, DocumentStore.LocalStore.localView, hunused.batches]
      rfl

/-- What concerns other clients leaves an account unused. -/
theorem Unused.of_eq (h : r.Unused c) (hclient : r'.system.clients c = r.system.clients c)
    (hbatches : (r'.stores c).batches = (r.stores c).batches) : r'.Unused c :=
  ⟨by rw [hclient, h.queue], by rw [hclient, h.completions], by rw [hbatches, h.batches]⟩

/-- **Without a screen nothing happens to an account that was never signed in**, but that documents
arrive. -/
theorem Unused.background {e : ReplicaEvent} (h : r.Unused c) (hscreen : e.byScreen = false)
    (hstep : r.step e = some r') : r'.Unused c := by
  rcases step_cases hstep with ⟨e', t, new, rfl, _, hanswers, hperform, hnew, hr'⟩ |
    ⟨d, now, t, p, rest, rfl, hcommit, hr'⟩ | ⟨d, t, rfl, hreject, hr'⟩ |
    ⟨d, path, document, rfl, _, rfl⟩ | ⟨d, store, rfl, hstore, rfl⟩ | ⟨d, store, rfl, hstore, rfl⟩
  · cases e' with
    | complete d m =>
      have hne : c ≠ d := by
        rintro rfl
        have hm := (System.issue_of_complete hperform).1
        rw [h.completions] at hm
        cases hm
      refine h.of_eq (hnew.clients_other c hne) ?_
      rw [hr']
      exact congrArg _ (withStore_of_ne r _ hne)
    | commit | reject => cases hanswers
    | _ => cases hscreen
  · have hne : c ≠ d := by
      rintro rfl
      cases h.queue.symm.trans hcommit.queue_eq
    refine h.of_eq (hcommit.clients_other c hne) ?_
    rw [hr']
    exact congrArg _ (withStore_of_ne r _ hne)
  · have hne : c ≠ d := by
      rintro rfl
      obtain ⟨p, hqueue⟩ := hreject.queue_self
      cases h.queue.symm.trans hqueue
    refine h.of_eq (hreject.clients_other c hne) ?_
    rw [hr']
    exact congrArg _ (withStore_of_ne r _ hne)
  · refine h.of_eq rfl ?_
    by_cases hc : c = d
    · subst hc
      rw [withStore_self]
      rfl
    · rw [withStore_of_ne r _ hc]
  · refine h.of_eq rfl ?_
    by_cases hc : c = d
    · subst hc
      obtain ⟨hanswered, hwaiting, _⟩ := DocumentStore.LocalStore.queue_applyRemoteEvent hstore
      rw [withStore_self, DocumentStore.LocalStore.batches, hanswered, hwaiting]
      rfl
    · rw [withStore_of_ne r _ hc]
  · have hne : c ≠ d := by
      rintro rfl
      obtain ⟨_, _, first, hanswered⟩ :=
        DocumentStore.LocalStore.queue_acknowledgeBatch hstore
      have hempty := h.batches
      rw [DocumentStore.LocalStore.batches, hanswered] at hempty
      cases hempty
    refine h.of_eq rfl ?_
    rw [withStore_of_ne r _ hne]

/-- Only screens change who is signed in, and Firebase Auth. -/
theorem currentUser_of_step {e : ReplicaEvent} (hscreen : e.byScreen = false)
    (h : r.step e = some r') (c : ClientId) :
    (r'.system.clients c).currentUser = (r.system.clients c).currentUser := by
  rcases system_cases h with ⟨e', t, rfl, _, hperform⟩ | ⟨hsystem, _⟩
  · obtain ⟨hself, hother⟩ := System.currentUser_of_perform hperform
    by_cases hc : c = e'.client
    · subst hc
      rw [hself]
      cases e' with
      | commit | reject | complete => rfl
      | _ => cases hscreen
    · rw [hother c hc]
  · rw [hsystem]

/-- What an app asks for changes nothing but its client. -/
theorem currentUser_of_ask {deviceTime : Time} {request : Option Event} {c : ClientId}
    (hclient : ∀ e ∈ request, e.client = c) (h : r.ask deviceTime request = some r') :
    (r'.system.clients c).currentUser = request.elim (r.system.clients c).currentUser
        (Event.userAfter (r.system.clients c).currentUser) ∧
      ∀ d, d ≠ c → r'.system.clients d = r.system.clients d ∧ r'.stores d = r.stores d := by
  cases request with
  | none =>
    obtain rfl := Option.some.inj h
    exact ⟨rfl, fun _ _ => ⟨rfl, rfl⟩⟩
  | some e =>
    obtain rfl := hclient e rfl
    obtain ⟨t, ht, rfl⟩ := Option.map_eq_some_iff.mp (ask_eq_some.mp h).2
    obtain ⟨hself, hother⟩ := System.currentUser_of_perform ht
    rw [follow_system]
    exact ⟨hself, fun d hd => ⟨hother d hd, follow_stores_of_ne r deviceTime t hd⟩⟩

end Replicas

/-! ## The screens behind the sign-in -/

/-- The screens that show before a user is signed in. -/
def Place.welcome : Place → Bool
  | .menu | .login | .register => true
  | _ => false

/-- From a welcome screen taps lead to welcome screens only. -/
theorem Place.Over.welcome {u l : Place} {j : ℕ} (h : Place.Over u j l) (hne : u ≠ .contacts)
    (hl : l.welcome = true) : u.welcome = true := by
  cases h with
  | showLogin | showRegister => rfl
  | showContacts => exact absurd rfl hne
  | _ => cases hl

/-- The screens behind the sign-in are only open while a user is signed in. -/
def App.Inside (a : App) (user : Option Email) : Prop :=
  ∀ i ∈ a.screens.stack, ∀ u, a.screens.keyAt ViewController.place i = some u →
    u.welcome = true ∨ user.isSome = true

namespace App

variable {a : App} {user : Option Email} {id : ℕ} {k : ViewController}

/-- What opens no screen and moves none opens none behind the sign-in. -/
theorem Inside.of_screens {a' : App} (ha : a.Inside user)
    (hstack : ∀ i ∈ a'.screens.stack, i ∈ a.screens.stack)
    (hkey : ∀ i, a'.screens.keyAt ViewController.place i =
      a.screens.keyAt ViewController.place i) : a'.Inside user :=
  fun i hi u hu => ha i (hstack i hi) u (hkey i ▸ hu)

/-- What happens to a view controller that keeps its place opens no screen. -/
theorem Inside.change (ha : a.Inside user) (hk : a.screens.objects[id]? = some k)
    {k' : ViewController} (hplace : k'.place = k.place) : (a.change id k').Inside user := by
  refine ha.of_screens (fun _ hi => hi) fun i => ?_
  refine ObjectStacks.Heap.keyAt_update (fun y hy => ?_) i
  obtain rfl := Option.some.inj (hk.symm.trans hy)
  exact hplace

theorem Inside.of_isSome (a : App) (huser : user.isSome = true) : a.Inside user :=
  fun _ _ _ _ => .inr huser

/-- Where an answer leads that does not sign out. -/
theorem Inside.navigate (ha : a.Inside user) (hlinked : a.Arranged)
    (htop : a.screens.top = some (id, k)) {navigation : Navigation}
    (hpush : ∀ next, navigation = .push next →
      Place.Over next.place id k.place ∧ next.place ≠ .contacts) :
    (a.navigate id navigation).Inside user := by
  cases navigation with
  | stay | present => exact ha
  | push next =>
    intro i hi u hu
    rw [App.navigate, viewWillAppear_screens] at hi hu
    obtain ⟨hover, hne⟩ := hpush next rfl
    obtain ⟨hhead, hobject⟩ := ObjectStacks.Heap.top_eq_some.mp htop
    have hkey : a.screens.keyAt ViewController.place id = some k.place := by
      rw [ObjectStacks.Heap.keyAt, hobject, Option.map_some]
    rcases List.mem_cons.mp hi with rfl | hi
    · obtain rfl := Option.some.inj (ObjectStacks.Heap.keyAt_push_self.symm.trans hu)
      rcases ha id (List.mem_of_head? hhead) _ hkey with hwelcome | huser
      · exact .inl (hover.welcome hne hwelcome)
      · exact .inr huser
    · rw [ObjectStacks.Heap.keyAt_push (hlinked.linked.valid i hi)] at hu
      exact ha i hi u hu
  | pop =>
    refine ha.of_screens ?_ ?_
    · rw [App.navigate, viewWillAppear_screens]
      exact fun _ => ObjectStacks.Heap.mem_of_mem_pop
    · rw [App.navigate, viewWillAppear_screens]
      exact fun _ => rfl
  | popToRoot =>
    refine ha.of_screens ?_ ?_
    · rw [App.navigate, viewWillAppear_screens]
      exact fun _ => ObjectStacks.Heap.mem_of_mem_popToRoot
    · rw [App.navigate, viewWillAppear_screens]
      exact fun _ => rfl

/-- Only the menu is left after signing out. -/
theorem Arranged.inside_of_popToRoot (ha : a.Arranged) (id : ℕ) (user : Option Email) :
    (a.navigate id .popToRoot).Inside user := by
  intro i hi u hu
  rw [App.navigate, viewWillAppear_screens] at hi hu
  have hstack : a.screens.popToRoot.stack = [0] := by
    rw [ObjectStacks.Heap.popToRoot, ha.bottom]
    rfl
  rw [hstack] at hi
  obtain rfl := List.mem_singleton.mp hi
  obtain rfl : u = .menu := Option.some.inj (hu.symm.trans ha.menu)
  exact .inl rfl

/-- Who is on a screen behind the sign-in is signed in. -/
theorem Inside.isSome_user (ha : a.Inside user) (hid : id ∈ a.screens.stack) {u : Place}
    (hkey : a.screens.keyAt ViewController.place id = some u) (hu : u.welcome = false) :
    user.isSome = true := by
  rcases ha id hid u hkey with hwelcome | huser
  · cases hu.symm.trans hwelcome
  · exact huser

/-- **An app keeps the screens behind the sign-in shut** while no user is signed in. -/
theorem Inside.handle {contains : String → String → Bool} {c : ClientId} {views : List LocalDb}
    {e : AppEvent} {reaction : Reaction} (ha : a.Inside user) (harranged : a.Arranged)
    (h : a.handle contains c views e = some (some reaction)) :
    reaction.app.Inside (reaction.request.elim user (Event.userAfter user)) := by
  cases e with
  | tap t =>
    obtain ⟨halert, id, k, answer, htop, hanswer, hresult⟩ := handle_tap h
    obtain ⟨answer, rfl, rfl⟩ := Option.map_eq_some_iff.mp hresult.symm
    have hplaced := ViewController.placed_of_tap hanswer
    obtain ⟨hhead, hobject⟩ := ObjectStacks.Heap.top_eq_some.mp htop
    have harranged' := harranged.change hobject hplaced.self
    have htop' : (a.change id answer.self).screens.top = some (id, answer.self) := by
      refine ObjectStacks.Heap.top_eq_some.mpr ⟨hhead, ?_⟩
      exact List.getElem?_set_self (List.getElem?_eq_some_iff.mp hobject).1
    have hquiet : ((a.change id answer.self).navigate id answer.navigation).Inside user := by
      refine (ha.change hobject hplaced.self).navigate harranged' htop' ?_
      rw [hplaced.self]
      exact hplaced.push
    cases hrequest : answer.request with
    | none => exact hquiet
    | some e =>
      cases ViewController.asks_of_tap hanswer hrequest with
      | signOut =>
        rw [ViewController.navigation_of_signOut hanswer]
        exact harranged'.inside_of_popToRoot id _
      | useColour delegate k' colour e hk' he =>
        obtain ⟨_, rfl⟩ := ViewController.exists_call_of_useColour he
        exact hquiet
      | _ => exact hquiet
  | changeUsername newUserName =>
    obtain ⟨id, k, _, _, hresult⟩ := handle_changeUsername h
    obtain rfl := Option.some.inj hresult
    cases hrequest : k.updateUserName c newUserName with
    | none => exact ha
    | some e =>
      obtain ⟨_, rfl⟩ := ViewController.exists_call_of_updateUserName hrequest
      exact ha
  | cancel =>
    obtain ⟨_, _, hresult⟩ := Option.map_eq_some_iff.mp h
    obtain rfl := Option.some.inj hresult
    exact ha
  | signedIn id account =>
    obtain ⟨k, k', _, _, hresult⟩ := handle_signedIn h
    obtain rfl := Option.some.inj hresult
    exact .of_isSome _ rfl
  | registered id account emailText =>
    obtain ⟨k, k', _, _, hresult⟩ := handle_registered h
    obtain rfl := Option.some.inj hresult
    exact .of_isSome _ rfl
  | requestFailed id =>
    obtain ⟨k, k', hk, hkk', hresult⟩ := handle_requestFailed h
    obtain rfl := Option.some.inj hresult
    exact ha.change hk (ViewController.place_of_requested hkk')
  | told id listener result =>
    obtain ⟨k, handed, snapshot, answer, hk, _, hanswer, hresult⟩ := handle_told h
    obtain ⟨k', rfl, rfl⟩ := Option.map_eq_some_iff.mp hresult.symm
    have hchanged := ha.change hk (ViewController.place_of_told hanswer)
    refine hchanged.of_screens ?_ ?_
    · rw [recolour_screens]
      exact fun _ hi => hi
    · rw [recolour_screens]
      exact fun _ => rfl
  | layoutRow id row =>
    obtain ⟨k, answer, hk, hanswer, hresult⟩ := handle_layoutRow h
    obtain ⟨k', rfl, rfl⟩ := Option.map_eq_some_iff.mp hresult.symm
    exact ha.change hk (ViewController.place_of_layoutRow hanswer)
  | showMemberDetails id =>
    obtain ⟨k, details, queued, hk, _, hresult⟩ := handle_showMemberDetails h
    obtain ⟨_, _, rfl⟩ := Option.map_eq_some_iff.mp hresult.symm
    have hchanged : (a.change id (.memberView { k with
        queued := queued
        shown := some details })).Inside user := ha.change hk rfl
    refine hchanged.of_screens ?_ ?_
    · rw [recolour_screens]
      exact fun _ hi => hi
    · rw [recolour_screens]
      exact fun _ => rfl

end App

/-- A screen that calls for writes is behind the sign-in. -/
theorem ViewController.Asks.welcome_eq {c d : ClientId} {controllers : List ViewController}
    {t : Tap} {k : ViewController} {made : Call}
    (h : ViewController.Asks c controllers t k (.call d made)) : k.place.welcome = false := by
  cases h <;> rfl

namespace App

variable {contains : String → String → Bool} {c d : ClientId} {views : List LocalDb} {a : App}
  {user : Option Email} {e : AppEvent} {reaction : Reaction} {made : Call}

/-- **Only who is signed in makes calls.** -/
theorem Inside.isSome_user_of_call (ha : a.Inside user) (harranged : a.Arranged)
    (h : a.handle contains c views e = some (some reaction))
    (hrequest : reaction.request = some (.call d made)) : user.isSome = true := by
  rcases request_cases h hrequest with ⟨t, id, k, answer, rfl, _, htop, hanswer, htapped⟩ |
    ⟨newUserName, id, k, rfl, halert, _, _⟩ | ⟨id, account, _, heq⟩ |
    ⟨id, account, emailText, _, heq⟩
  · obtain ⟨hhead, hobject⟩ := ObjectStacks.Heap.top_eq_some.mp htop
    have hkey : a.screens.keyAt ViewController.place id = some k.place := by
      rw [ObjectStacks.Heap.keyAt, hobject, Option.map_some]
    have hasks := ViewController.asks_of_tap hanswer htapped
    exact ha.isSome_user (List.mem_of_head? hhead) hkey hasks.welcome_eq
  · obtain ⟨hid, chat, member, hkey⟩ := harranged.alert id halert
    exact ha.isSome_user hid hkey rfl
  · cases heq
  · cases heq

end App

/-- Only the log-out button signs out. -/
theorem App.signOut_of_request {a : App} {contains : String → String → Bool} {c d : ClientId}
    {views : List LocalDb} {e : AppEvent} {reaction : Reaction}
    (h : a.handle contains c views e = some (some reaction))
    (hrequest : reaction.request = some (.signOut d)) : e = .tap (.logoutButtonPressed true) := by
  rcases request_cases h hrequest with ⟨t, id, k, answer, rfl, _, _, hanswer, htapped⟩ |
    ⟨newUserName, id, k, _, _, _, hchanged⟩ | ⟨id, account, _, heq⟩ |
    ⟨id, account, emailText, _, heq⟩
  · cases ViewController.asks_of_tap hanswer htapped with
    | signOut => rfl
    | useColour delegate k' colour e _ he =>
      obtain ⟨_, heq⟩ := ViewController.exists_call_of_useColour he
      cases heq
  · obtain ⟨_, heq⟩ := ViewController.exists_call_of_updateUserName hchanged
    cases heq
  · cases heq
  · cases heq

/-! ## While nobody is signed out -/

/-- Every event but a failing query for messages and a sign-out, by the user or in the
background. -/
def RunningEvent.unfailing : RunningEvent → Bool
  | .app _ (.told _ .loadMessages (.error _)) _ => false
  | .app _ (.tap (.logoutButtonPressed true)) _ => false
  | .background (.act (.signOut _) _) => false
  | _ => true

/-- Without a sign-out the background has no event that a screen brings about. -/
theorem ReplicaEvent.byScreen_of_background {e : ReplicaEvent} (h : e.background = true)
    (hunfailing : (RunningEvent.background e).unfailing = true) : e.byScreen = false := by
  unfold ReplicaEvent.background at h
  split at h
  case h_1 => cases hunfailing
  case h_2 => simpa using h

namespace Running

variable {contains : String → String → Bool} {owner : ClientId → Email} {s : Running}

/-- The states that are reached while the server accepts the writes, no query for messages fails
and nobody is signed out. -/
def ReachableUnfailing (contains : String → String → Bool) (owner : ClientId → Email)
    (s : Running) : Prop :=
  Runs.Reachable (step contains) (fun e => e.accepted = true ∧ e.unfailing = true) (init owner) s

theorem ReachableUnfailing.reachable (hs : s.ReachableUnfailing contains owner) :
    s.Reachable contains owner :=
  hs.mono fun _ he => he.1

/-- The screens behind the sign-in are only open in the app of a client that is signed in. -/
theorem ReachableUnfailing.inside (hs : s.ReachableUnfailing contains owner) (c : ClientId) :
    (s.apps c).Inside (s.now.system.clients c).currentUser := by
  have hall : ∀ c, (s.apps c).Inside (s.now.system.clients c).currentUser := by
    refine Runs.Reachable.invariant (I := fun u : Running =>
      ∀ c, (u.apps c).Inside (u.now.system.clients c).currentUser) hs ?_ ?_
    · intro c i hi u hu
      obtain rfl := List.mem_singleton.mp hi
      obtain rfl := Option.some.inj hu
      exact .inl rfl
    · intro u v e hreachable hu hok hstep
      rcases step_cases hstep with ⟨e', r, rfl, hbackground, hr, rfl⟩ |
        ⟨c, e', deviceTime, reaction, now, _, _, hhandle, hnow, rfl⟩
      · intro c
        have hscreen := ReplicaEvent.byScreen_of_background hbackground hok.2
        have huser := Replicas.currentUser_of_step hscreen hr c
        exact huser ▸ hu c
      · obtain ⟨hself, hother⟩ := Replicas.currentUser_of_ask
          (fun e he => (App.client_of_request hhandle he deviceTime).1) hnow
        refine (Function.forall_update_iff u.apps
          (p := fun c a => App.Inside a (now.system.clients c).currentUser)).mpr ⟨?_, ?_⟩
        · rw [hself]
          exact (hu c).handle ((reachable hreachable).arranged c) hhandle
        · intro d hd
          rw [(hother d hd).1]
          exact hu d
  exact hall c

/-- **An account stays signed in, or unused**, in a step that signs nobody out. -/
theorem ReachableUnfailing.signedIn_or_unused_step (hs : s.ReachableUnfailing contains owner)
    {s' : Running} {e : RunningEvent} (hok : e.unfailing = true)
    (h : s.step contains e = some s') {c : ClientId} (hnow : s.now.SignedIn c ∨ s.now.Unused c) :
    s'.now.SignedIn c ∨ s'.now.Unused c := by
  rcases step_cases h with ⟨e', r, rfl, hbackground, hr, rfl⟩ |
    ⟨d, e', deviceTime, reaction, now, rfl, _, hhandle, hasked, rfl⟩
  · have hscreen := ReplicaEvent.byScreen_of_background hbackground hok
    refine hnow.imp (fun hsigned => ?_) fun hunused => hunused.background hscreen hr
    rw [Replicas.SignedIn, Replicas.currentUser_of_step hscreen hr c]
    exact hsigned
  · have hclient : ∀ request ∈ reaction.request, request.client = d ∧
        (ReplicaEvent.act request deviceTime).byScreen = true :=
      fun request hrequest => App.client_of_request hhandle hrequest deviceTime
    obtain ⟨hself, hother⟩ :=
      Replicas.currentUser_of_ask (fun request hrequest => (hclient request hrequest).1) hasked
    by_cases hc : c = d
    swap
    · obtain ⟨hclients, hstores⟩ := hother c hc
      refine hnow.imp (fun hsigned => ?_) fun hunused => hunused.of_eq hclients (congrArg _ hstores)
      rw [Replicas.SignedIn, hclients]
      exact hsigned
    subst hc
    cases hrequest : reaction.request with
    | none =>
      rw [hrequest] at hasked
      obtain rfl := Option.some.inj hasked
      exact hnow
    | some request =>
      -- Whatever an app asks for leaves its account signed in.
      refine .inl ?_
      rw [Replicas.SignedIn, hself, hrequest]
      have hscreen := (hclient request hrequest).2
      cases request with
      | signIn | register => rfl
      | signOut c' =>
        rw [App.signOut_of_request hhandle hrequest] at hok
        cases hok
      | call c' made =>
        exact (hs.inside c).isSome_user_of_call (hs.reachable.arranged c) hhandle hrequest
      | commit | reject | complete => cases hscreen

/-- **An account is signed in, or was never used**, while nobody is signed out. -/
theorem ReachableUnfailing.signedIn_or_unused (hs : s.ReachableUnfailing contains owner) :
    ∀ r ∈ s.past ++ [s.now], ∀ c, r.SignedIn c ∨ r.Unused c := by
  refine Runs.Reachable.invariant (I := fun u : Running =>
    ∀ r ∈ u.past ++ [u.now], ∀ c, r.SignedIn c ∨ r.Unused c) hs ?_ ?_
  · intro r hr c
    obtain rfl := List.mem_singleton.mp hr
    exact .inr ⟨rfl, rfl, rfl⟩
  · intro u v e hreachable hu hok hstep r hr c
    rw [past_of_step hstep] at hr
    rcases List.mem_append.mp hr with hold | hnew
    · exact hu r hold c
    · obtain rfl := List.mem_singleton.mp hnew
      have hnow := hu u.now (List.mem_append_right _ List.mem_cons_self) c
      exact signedIn_or_unused_step hreachable hok.2 hstep hnow

/-- What the listeners of an app are handed while no query for messages fails and nobody is signed
out. -/
theorem ReachableUnfailing.heardIn (hs : s.ReachableUnfailing contains owner) {c : ClientId}
    {e : AppEvent} {deviceTime : Time}
    (he : (RunningEvent.app c e deviceTime).unfailing = true) :
    (s.apps c).HeardIn Heard (s.full c) (s.views c) e := by
  rintro id listener result handed snapshot view rfl hsnapshot hview rfl
  cases result with
  | error e => cases he
  | ok version =>
    rcases App.snapshot_eq_some hsnapshot with ⟨_, herror, _⟩ | ⟨v, _, _, hv, rfl⟩
    · cases herror
    · obtain ⟨r, hr, rfl⟩ := getElem?_views.mp hv
      obtain ⟨r', hr', rfl⟩ := getElem?_full.mp hview
      obtain rfl := Option.some.inj (hr.symm.trans hr')
      rw [Replicas.shown_eq_view (hs.signedIn_or_unused r (List.mem_of_getElem? hr) c)]

/-- Every app has a message for each row of its messages screens. -/
theorem ReachableUnfailing.loaded (hs : s.ReachableUnfailing contains owner) :
    s.Every ViewController.Loaded := by
  refine Runs.Reachable.invariant hs ?_ ?_
  · intro c
    refine ⟨(Replicas.init owner).view c, rfl, ?_⟩
    intro k hk
    obtain rfl := List.mem_singleton.mp hk
    trivial
  · intro u v e hu hloaded hok hstep
    refine (ReachableUnfailing.reachable hu).sound.every_step (App.keeps_loaded contains) hloaded
      ?_ hstep
    rintro c e' deviceTime rfl
    exact ReachableUnfailing.heardIn hu hok.2

/-- No snapshot lacks a document that waits. -/
theorem ReachableUnfailing.not_snapshotLacks (hs : s.ReachableUnfailing contains owner)
    {c : ClientId} {e : AppEvent} : ¬ s.SnapshotLacks c e := by
  rintro ⟨id, listener, version, k, path, r, rfl, hk, hdocument, hle, hr, hout, hpath⟩
  obtain ⟨view, hview, happ⟩ := hs.reachable.sound.app c
  have hfull : (s.full c)[version]? = some (r.view c) := getElem?_full.mpr ⟨r, hr, rfl⟩
  have hmem : path ∈ r.view c := (hs.reachable.sound.versions c).grow _ _ _ _ hle hview hfull path
    ((happ k (List.mem_of_getElem? hk)).document_mem hdocument)
  rw [Replicas.shown_eq_view (hs.signedIn_or_unused r (List.mem_of_getElem? hr) c)] at hpath
  exact hpath hmem

/-- Whoever creates a chat is signed in. -/
theorem ReachableUnfailing.not_userMissing (hs : s.ReachableUnfailing contains owner)
    {c : ClientId} {e : AppEvent} :
    ¬ (s.apps c).UserMissing (s.now.system.clients c).currentUser e := by
  rintro ⟨newChatRef, name, id, rfl, halert, htop, hnone⟩
  have huser := (hs.inside c).isSome_user_of_call (hs.reachable.arranged c)
    (App.handle_createButtonPressed contains c (s.views c) newChatRef name halert htop) rfl
  rw [hnone] at huser
  cases huser

end Running

/-- **No app traps while its queries succeed and nobody is signed out.** In every state that is
reached while the server accepts the writes, no query for messages fails and no account is signed
out, by its user or by Firebase Auth, an event that makes an app trap is a sign-out that fails, or
uses an address that `document(_:)` refuses. -/
theorem apps_run_on {contains : String → String → Bool} {owner : ClientId → Email} {s : Running}
    (hs : s.ReachableUnfailing contains owner) {e : RunningEvent}
    (h : s.react contains e = some none) :
    ∃ c e' deviceTime, e = .app c e' deviceTime ∧ (e' = .tap (.logoutButtonPressed false) ∨
      (s.apps c).NameRefused (s.now.system.clients c).currentUser e') := by
  have htraps := (apps_trap_iff hs.reachable e).mp h
  cases e with
  | background e => exact htraps.elim
  | app c e deviceTime =>
    refine ⟨c, e, deviceTime, rfl, ?_⟩
    rcases htraps.2 with ⟨rfl, _⟩ | ⟨id, row, k, rfl, hk, hlength, hrow⟩ | hlacks | hrefused |
      hmissing
    · exact .inl rfl
    · -- A loaded screen has a message for the row.
      obtain ⟨view, _, hloaded⟩ := hs.loaded c
      have hrows := MessagesController.Loaded.rows (hloaded _ (List.mem_of_getElem? hk))
      omega
    · exact absurd hlacks hs.not_snapshotLacks
    · exact .inr hrefused
    · exact absurd hmissing hs.not_userMissing

/-- `ann` opens the settings and fails to sign out. -/
theorem apps_run_on_until_sign_out : ∃ (s : Running) (c : ClientId) (e : AppEvent),
    s.ReachableUnfailing (fun _ _ => true) sampleOwner ∧
      s.react (fun _ _ => true) (.app 0 (.tap (.logoutButtonPressed false)) 2) = some none ∧
      RunningEvent.app 0 (.tap (.logoutButtonPressed false)) 2 = .app c e 2 ∧
      (e = .tap (.logoutButtonPressed false) ∨
        (s.apps c).NameRefused (s.now.system.clients c).currentUser e) := by
  have hrun : (Runs.run (Running.step fun _ _ => true) (Running.init sampleOwner)
      (Running.sampleTaps.take 3 ++ [.app 0 (.tap (.segue .showAppSettings)) 1])).bind (fun s =>
        (s.react (fun _ _ => true) (.app 0 (.tap (.logoutButtonPressed false)) 2)).map
          Option.isNone) = some true := by
    decide
  obtain ⟨s, hs, hreact⟩ := Option.bind_eq_some_iff.mp hrun
  obtain ⟨result, hresult, hnone⟩ := Option.map_eq_some_iff.mp hreact
  obtain rfl := Option.isNone_iff_eq_none.mp hnone
  have hunfailing : s.ReachableUnfailing (fun _ _ => true) sampleOwner :=
    Runs.Reachable.of_run (by decide) hs
  obtain ⟨c, e, deviceTime, heq, hcause⟩ := apps_run_on hunfailing hresult
  obtain ⟨_, _, rfl⟩ := RunningEvent.app.inj heq
  exact ⟨s, c, e, hunfailing, hresult, heq, hcause⟩

end MessagingApp
