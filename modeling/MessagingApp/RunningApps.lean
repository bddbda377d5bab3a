import MessagingApp.Replicas
import MessagingApp.ViewControllers

/-!
# Running apps

Every client runs the app over its own store. The view controllers made so far stay
alive, since their listeners refer to them, and a navigation stack shows some of
them. Taps go to the one on top; snapshots, requests for rows and completions reach
any of them, also after it was popped. Snapshots are delivered in the order in which
they were taken, some time later.

Each app is used under one account, on a device of its own: whoever types another
address is not let in here. Firebase Auth may sign the account out by itself at any
time, which no screen takes notice of.
-/

namespace MessagingApp

/-- One running app: its view controllers and the navigation stack, the colours of the navigation
bar, the view controller whose alert covers the screens, and the version of the client's view that
the last snapshot was taken of. -/
structure App where
  screens : ObjectStacks.Heap ViewController := ⟨[.menu], [0]⟩
  bar : BarColour := .standard
  alert : Option ℕ := none
  handed : ℕ := 0

/-- What can happen to a running app. References tell which view controller it happens to. -/
inductive AppEvent
  | tap (t : Tap)
  /-- The action of the alert, with the text of its field. -/
  | changeUsername (newUserName : String)
  /-- The alert is cancelled. -/
  | cancel
  /-- A request of `loginButtonPressed` succeeds: the typed address is that of `account`. -/
  | signedIn (id : ℕ) (account : Email)
  /-- A request of `registerButtonPressed` succeeds: the typed address is that of `account`, and the
  email field now holds `emailText`. -/
  | registered (id : ℕ) (account emailText : Email)
  | requestFailed (id : ℕ)
  /-- A listener is handed an error or a snapshot of a version of the client's view. -/
  | told (id : ℕ) (listener : Listener) (result : Snapshot ℕ)
  /-- A table asks for a row. -/
  | layoutRow (id row : ℕ)
  /-- The main queue reaches a call of `showMemberDetails`. -/
  | showMemberDetails (id : ℕ)

/-- The identifier Firestore generates on a tap. -/
def AppEvent.generatedId : AppEvent → Option String
  | .tap (.createButtonPressed newChatRef _) => some newChatRef
  | .tap (.sendButtonPressed id _) => some id
  | _ => none

/-- The account that an event signs in. -/
def AppEvent.account : AppEvent → Option Email
  | .signedIn _ account | .registered _ account _ => some account
  | _ => none

/-- What an app does: what becomes of it, and what it asks of Firebase. -/
structure Reaction where
  app : App
  request : Option Event := none

/-- The colour a listener gives the navigation bar: `updateUI` of the messages screen. -/
def ViewController.updateUI (listener : Listener) : ViewController → Option BarColour
  | .messages k => if listener = .loadChatOptions then k.chatColour.map .colour else none
  | _ => none

namespace App

/-- The view controller on top appears. -/
def viewWillAppear (a : App) : App :=
  match a.screens.top with
  | none => a
  | some (_, k) => { a with bar := k.viewWillAppear a.bar }

/-- Change a view controller. -/
def change (a : App) (id : ℕ) (k : ViewController) : App :=
  { a with screens := a.screens.update id k }

/-- Go where an answer of view controller `id` leads. -/
def navigate (a : App) (id : ℕ) : Navigation → App
  | .stay => a
  | .push k => { a with screens := a.screens.push k }.viewWillAppear
  | .pop => { a with screens := a.screens.pop }.viewWillAppear
  | .popToRoot => { a with screens := a.screens.popToRoot }.viewWillAppear
  | .present => { a with alert := some id }

/-- A view controller colours the navigation bar, which it only finds while it is on the stack. -/
def recolour (a : App) (id : ℕ) (bar : Option BarColour) : App :=
  if id ∈ a.screens.stack then { a with bar := bar.getD a.bar } else a

/-- `performSegue` to the chat list from a view controller, which has to be on the stack. -/
def showContacts (a : App) (id : ℕ) (currentUser : Email) : App :=
  if id ∈ a.screens.stack then a.navigate id (.push (.contacts { currentUser := some currentUser }))
  else a

section frame

variable (a : App) (id : ℕ) (k : ViewController) (bar : Option BarColour)

@[simp] theorem viewWillAppear_screens : a.viewWillAppear.screens = a.screens := by
  unfold viewWillAppear
  split <;> rfl

@[simp] theorem viewWillAppear_handed : a.viewWillAppear.handed = a.handed := by
  unfold viewWillAppear
  split <;> rfl

@[simp] theorem viewWillAppear_alert : a.viewWillAppear.alert = a.alert := by
  unfold viewWillAppear
  split <;> rfl

@[simp] theorem change_screens : (a.change id k).screens = a.screens.update id k := rfl

@[simp] theorem change_handed : (a.change id k).handed = a.handed := rfl

@[simp] theorem change_alert : (a.change id k).alert = a.alert := rfl

@[simp] theorem navigate_handed (navigation : Navigation) :
    (a.navigate id navigation).handed = a.handed := by
  cases navigation <;> simp [navigate]

@[simp] theorem recolour_screens : (a.recolour id bar).screens = a.screens := by
  unfold recolour
  split <;> rfl

@[simp] theorem recolour_handed : (a.recolour id bar).handed = a.handed := by
  unfold recolour
  split <;> rfl

@[simp] theorem recolour_alert : (a.recolour id bar).alert = a.alert := by
  unfold recolour
  split <;> rfl

end frame

/-- What a listener can be handed next: an error, or a snapshot of the version of the last one or
of a later one. -/
def snapshot (a : App) (views : List LocalDb) : Snapshot ℕ → Option (ℕ × Snapshot LocalDb)
  | .error e => some (a.handed, .error e)
  | .ok version =>
    if a.handed ≤ version then views[version]?.map fun view => (version, .ok view) else none

/-- The app of client `c` meets an event. -/
def handle (contains : String → String → Bool) (c : ClientId) (views : List LocalDb) (a : App) :
    AppEvent → Option (Option Reaction)
  | .tap t =>
    if a.alert.isSome then none
    else do
      let (id, k) ← a.screens.top
      let answer ← k.tap contains c a.screens.objects id t
      return answer.map fun answer => {
        app := (a.change id answer.self).navigate id answer.navigation
        request := answer.request }
  | .changeUsername newUserName => do
    let id ← a.alert
    let k ← a.screens.objects[id]?
    return some {
      app := { a with alert := none }
      request := k.updateUserName c newUserName }
  | .cancel => a.alert.map fun _ => some { app := { a with alert := none } }
  | .signedIn id account =>
    match a.screens.objects[id]? with
    | some (.login (requests + 1)) =>
      some (some {
        app := (a.change id (.login requests)).showContacts id account
        request := some (.signIn c account) })
    | _ => none
  | .registered id account emailText =>
    match a.screens.objects[id]? with
    | some (.register (requests + 1)) =>
      some (some {
        app := (a.change id (.register requests)).showContacts id account
        request := some (.register c account emailText) })
    | _ => none
  | .requestFailed id =>
    match a.screens.objects[id]? with
    | some (.login (requests + 1)) => some (some { app := a.change id (.login requests) })
    | some (.register (requests + 1)) => some (some { app := a.change id (.register requests) })
    | _ => none
  | .told id listener result => do
    let k ← a.screens.objects[id]?
    let (handed, snapshot) ← a.snapshot views result
    let answer ← k.told listener snapshot
    return answer.map fun told => {
      app := { a.change id told with handed := handed }.recolour id (told.updateUI listener) }
  | .layoutRow id row => do
    let k ← a.screens.objects[id]?
    let answer ← k.layoutRow row
    return answer.map fun laid => { app := a.change id laid }
  | .showMemberDetails id =>
    match a.screens.objects[id]? with
    | some (.memberView k) =>
      match k.queued with
      | [] => none
      | details :: queued =>
        some ((hexColour details.colour).map fun _ => {
          app := (a.change id (.memberView { k with
            queued := queued
            shown := some details })).recolour id (some (.contrasting details.colour)) })
    | _ => none

end App

/-! ## What an event leads to -/

namespace App

variable {a : App}

@[simp] theorem showContacts_handed (id : ℕ) (currentUser : Email) :
    (a.showContacts id currentUser).handed = a.handed := by
  unfold App.showContacts
  split <;> simp

/-- A listener is handed an error, or a snapshot that is not older than the last one. -/
theorem snapshot_eq_some {views : List LocalDb} {result : Snapshot ℕ} {handed : ℕ}
    {snapshot : Snapshot LocalDb} (h : a.snapshot views result = some (handed, snapshot)) :
    (∃ e, result = .error e ∧ handed = a.handed ∧ snapshot = .error e) ∨
      ∃ view, result = .ok handed ∧ a.handed ≤ handed ∧ views[handed]? = some view ∧
        snapshot = .ok view := by
  unfold App.snapshot at h
  cases result with
  | error e =>
    obtain ⟨rfl, rfl⟩ := Prod.mk.inj (Option.some.inj h)
    exact .inl ⟨e, rfl, rfl, rfl⟩
  | ok version =>
    dsimp only at h
    split at h
    case isFalse => cases h
    case isTrue hle =>
      obtain ⟨view, hview, heq⟩ := Option.map_eq_some_iff.mp h
      obtain ⟨rfl, rfl⟩ := Prod.mk.inj heq
      exact .inr ⟨view, rfl, hle, hview, rfl⟩

section handle

variable {contains : String → String → Bool} {c : ClientId} {views : List LocalDb}
  {result : Option Reaction}

theorem handle_tap {t : Tap} (h : a.handle contains c views (.tap t) = some result) :
    a.alert = none ∧ ∃ id k answer, a.screens.top = some (id, k) ∧
      k.tap contains c a.screens.objects id t = some answer ∧
      result = answer.map fun answer => {
        app := (a.change id answer.self).navigate id answer.navigation
        request := answer.request } := by
  unfold App.handle at h
  cases halert : a.alert with
  | some id => simp [halert] at h
  | none =>
    simp only [halert, Option.isSome_none, Bool.false_eq_true, if_false] at h
    obtain ⟨⟨id, k⟩, htop, h⟩ := Option.bind_eq_some_iff.mp h
    obtain ⟨answer, hanswer, h⟩ := Option.bind_eq_some_iff.mp h
    exact ⟨rfl, id, k, answer, htop, hanswer, (Option.some.inj h).symm⟩

theorem handle_changeUsername {newUserName : String}
    (h : a.handle contains c views (.changeUsername newUserName) = some result) :
    ∃ id k, a.alert = some id ∧ a.screens.objects[id]? = some k ∧ result = some {
      app := { a with alert := none }
      request := k.updateUserName c newUserName } := by
  obtain ⟨id, halert, h⟩ := Option.bind_eq_some_iff.mp h
  obtain ⟨k, hk, h⟩ := Option.bind_eq_some_iff.mp h
  exact ⟨id, k, halert, hk, (Option.some.inj h).symm⟩

theorem handle_told {id : ℕ} {listener : Listener} {told : Snapshot ℕ}
    (h : a.handle contains c views (.told id listener told) = some result) :
    ∃ k handed snapshot answer, a.screens.objects[id]? = some k ∧
      a.snapshot views told = some (handed, snapshot) ∧ k.told listener snapshot = some answer ∧
      result = answer.map fun told => {
        app := { a.change id told with
          handed := handed }.recolour id (told.updateUI listener) } := by
  obtain ⟨k, hk, h⟩ := Option.bind_eq_some_iff.mp h
  obtain ⟨⟨handed, snapshot⟩, hsnapshot, h⟩ := Option.bind_eq_some_iff.mp h
  obtain ⟨answer, hanswer, h⟩ := Option.bind_eq_some_iff.mp h
  exact ⟨k, handed, snapshot, answer, hk, hsnapshot, hanswer, (Option.some.inj h).symm⟩

theorem handle_layoutRow {id row : ℕ}
    (h : a.handle contains c views (.layoutRow id row) = some result) :
    ∃ k answer, a.screens.objects[id]? = some k ∧ k.layoutRow row = some answer ∧
      result = answer.map fun laid => { app := a.change id laid } := by
  obtain ⟨k, hk, h⟩ := Option.bind_eq_some_iff.mp h
  obtain ⟨answer, hanswer, h⟩ := Option.bind_eq_some_iff.mp h
  exact ⟨k, answer, hk, hanswer, (Option.some.inj h).symm⟩

theorem handle_showMemberDetails {id : ℕ}
    (h : a.handle contains c views (.showMemberDetails id) = some result) :
    ∃ k details queued, a.screens.objects[id]? = some (.memberView k) ∧
      k.queued = details :: queued ∧ result = (hexColour details.colour).map fun _ => {
        app := (a.change id (.memberView { k with
          queued := queued
          shown := some details })).recolour id (some (.contrasting details.colour)) } := by
  unfold App.handle at h
  dsimp only at h
  split at h
  case h_2 => cases h
  case h_1 k hk =>
    split at h
    case h_1 => cases h
    case h_2 details queued hqueued =>
      exact ⟨k, details, queued, hk, hqueued, (Option.some.inj h).symm⟩

/-- The view controller that a request was made from, before and after its completion. -/
inductive Requested : ViewController → ViewController → Prop
  | login (requests : ℕ) : Requested (.login (requests + 1)) (.login requests)
  | register (requests : ℕ) : Requested (.register (requests + 1)) (.register requests)

theorem handle_signedIn {id : ℕ} {account : Email}
    (h : a.handle contains c views (.signedIn id account) = some result) :
    ∃ k k', a.screens.objects[id]? = some k ∧ Requested k k' ∧ result = some {
      app := (a.change id k').showContacts id account
      request := some (.signIn c account) } := by
  unfold App.handle at h
  dsimp only at h
  split at h
  case h_2 => cases h
  case h_1 requests hk => exact ⟨_, _, hk, .login requests, (Option.some.inj h).symm⟩

theorem handle_registered {id : ℕ} {account emailText : Email}
    (h : a.handle contains c views (.registered id account emailText) = some result) :
    ∃ k k', a.screens.objects[id]? = some k ∧ Requested k k' ∧ result = some {
      app := (a.change id k').showContacts id account
      request := some (.register c account emailText) } := by
  unfold App.handle at h
  dsimp only at h
  split at h
  case h_2 => cases h
  case h_1 requests hk => exact ⟨_, _, hk, .register requests, (Option.some.inj h).symm⟩

/-- A registration that completes was requested. -/
theorem exists_requests_of_registered {id : ℕ} {account emailText : Email}
    (h : a.handle contains c views (.registered id account emailText) = some result) :
    ∃ requests, a.screens.objects[id]? = some (.register (requests + 1)) := by
  unfold App.handle at h
  dsimp only at h
  split at h
  case h_2 => cases h
  case h_1 requests hk => exact ⟨requests, hk⟩

theorem handle_requestFailed {id : ℕ}
    (h : a.handle contains c views (.requestFailed id) = some result) :
    ∃ k k', a.screens.objects[id]? = some k ∧ Requested k k' ∧
      result = some { app := a.change id k' } := by
  unfold App.handle at h
  dsimp only at h
  split at h
  case h_1 requests hk => exact ⟨_, _, hk, .login requests, (Option.some.inj h).symm⟩
  case h_2 requests hk => exact ⟨_, _, hk, .register requests, (Option.some.inj h).symm⟩
  case h_3 => cases h

/-- **Where requests come from**: a tap, the alert, or a sign-in that succeeds. -/
theorem request_cases {e : AppEvent} {reaction : Reaction} {request : Event}
    (h : a.handle contains c views e = some (some reaction))
    (hrequest : reaction.request = some request) :
    (∃ t id k answer, e = .tap t ∧ a.alert = none ∧ a.screens.top = some (id, k) ∧
      k.tap contains c a.screens.objects id t = some (some answer) ∧
      answer.request = some request) ∨
    (∃ newUserName id k, e = .changeUsername newUserName ∧ a.alert = some id ∧
      a.screens.objects[id]? = some k ∧ k.updateUserName c newUserName = some request) ∨
    (∃ id account, e = .signedIn id account ∧ request = .signIn c account) ∨
    ∃ id account emailText, e = .registered id account emailText ∧
      request = .register c account emailText := by
  cases e with
  | tap t =>
    obtain ⟨halert, id, k, answer, htop, hanswer, hresult⟩ := handle_tap h
    obtain ⟨answer, rfl, rfl⟩ := Option.map_eq_some_iff.mp hresult.symm
    exact .inl ⟨t, id, k, answer, rfl, halert, htop, hanswer, hrequest⟩
  | changeUsername newUserName =>
    obtain ⟨id, k, halert, hk, hresult⟩ := handle_changeUsername h
    obtain rfl := Option.some.inj hresult
    exact .inr (.inl ⟨newUserName, id, k, rfl, halert, hk, hrequest⟩)
  | signedIn id account =>
    obtain ⟨_, _, _, _, hresult⟩ := handle_signedIn h
    obtain rfl := Option.some.inj hresult
    exact .inr (.inr (.inl ⟨id, account, rfl, (Option.some.inj hrequest).symm⟩))
  | registered id account emailText =>
    obtain ⟨_, _, _, _, hresult⟩ := handle_registered h
    obtain rfl := Option.some.inj hresult
    exact .inr (.inr (.inr ⟨id, account, emailText, rfl, (Option.some.inj hrequest).symm⟩))
  | cancel =>
    obtain ⟨_, _, hresult⟩ := Option.map_eq_some_iff.mp h
    obtain rfl := Option.some.inj hresult
    cases hrequest
  | requestFailed id =>
    obtain ⟨_, _, _, _, hresult⟩ := handle_requestFailed h
    obtain rfl := Option.some.inj hresult
    cases hrequest
  | told id listener result =>
    obtain ⟨_, _, _, _, _, _, _, hresult⟩ := handle_told h
    obtain ⟨_, _, rfl⟩ := Option.map_eq_some_iff.mp hresult.symm
    cases hrequest
  | layoutRow id row =>
    obtain ⟨_, _, _, _, hresult⟩ := handle_layoutRow h
    obtain ⟨_, _, rfl⟩ := Option.map_eq_some_iff.mp hresult.symm
    cases hrequest
  | showMemberDetails id =>
    obtain ⟨_, _, _, _, _, hresult⟩ := handle_showMemberDetails h
    obtain ⟨_, _, rfl⟩ := Option.map_eq_some_iff.mp hresult.symm
    cases hrequest

end handle

end App

/-! ## All apps -/

/-- The events of the stores that screens bring about. -/
def ReplicaEvent.byScreen : ReplicaEvent → Bool
  | .act (.signIn _ _) _ | .act (.signOut _) _ | .act (.register _ _ _) _
  | .act (.call _ _) _ => true
  | _ => false

/-- The events of the stores that may happen without a screen: also Firebase Auth signs an account
out, when its token is refused. -/
def ReplicaEvent.background : ReplicaEvent → Bool
  | .act (.signOut _) _ => true
  | e => !e.byScreen

/-- The clients with their stores and apps, and the earlier states of the stores. -/
structure Running where
  past : List Replicas
  now : Replicas
  apps : ClientId → App

/-- What can happen next. -/
inductive RunningEvent
  /-- The server answers, the network delivers, the success closure of a message runs, or an account
  is signed out. -/
  | background (e : ReplicaEvent)
  /-- Something happens to the app of a client, whose clock shows `deviceTime`. -/
  | app (c : ClientId) (e : AppEvent) (deviceTime : Time)

/-- Every event but a rejected write. -/
def RunningEvent.accepted : RunningEvent → Bool
  | .background e => e.accepted
  | .app _ _ _ => true

/-- The documents of users that a call made under a signed-in user refers to. -/
def Call.references (currentUser : Option Email) : Call → List DocPath
  | .newChat newChatRef _ => currentUser.toList.map (.member newChatRef ·)
  | .addNewUser chat user => user.email.toList.map (.member chat ·)
  | .updateUserName chat member _ | .updateUserColour chat member _ => [.member chat member]
  | .registerProfile emailText => [.profile emailText]
  | .removeFromChat _ _ | .updateChatColour _ _ | .sendMessage _ _ _
  | .updateChatLastActiveTimestamp _ _ => []

/-- `document(_:)` takes the names in the call of an event. -/
def Event.Refers (currentUser : Option Email) (e : Event) : Prop :=
  ∀ call ∈ e.made, ∀ path ∈ call.references currentUser, path.Refers

instance (currentUser : Option Email) (e : Event) : Decidable (e.Refers currentUser) :=
  inferInstanceAs (Decidable (∀ call ∈ e.made, ∀ path ∈ call.references currentUser, path.Refers))

/-- Firebase does what an app asks of it; `none` where a reference or a write traps. -/
def Replicas.ask (r : Replicas) (deviceTime : Time) : Option Event → Option Replicas
  | none => some r
  | some e =>
    if e.Refers (r.system.clients e.client).currentUser then
      (r.system.perform e).map (r.follow e deviceTime)
    else none

/-- What Firebase does on a request. -/
theorem Replicas.ask_eq_some {r r' : Replicas} {deviceTime : Time} {e : Event} :
    r.ask deviceTime (some e) = some r' ↔ e.Refers (r.system.clients e.client).currentUser ∧
      (r.system.perform e).map (r.follow e deviceTime) = some r' := by
  rw [Replicas.ask, Option.ite_none_right_eq_some]

namespace Running

/-- Every app shows the menu, and nothing has happened. -/
def init (owner : ClientId → Email) : Running :=
  { past := [], now := Replicas.init owner, apps := fun _ => {} }

/-- The versions of what a client was and is shown. -/
def views (s : Running) (c : ClientId) : List LocalDb := (s.past ++ [s.now]).map (·.shown c)

/-- When an event can happen to an app: identifiers that Firestore generates are new, and the
account that is signed in is the one the app is used under. -/
def Possible (s : Running) (c : ClientId) (e : AppEvent) : Prop :=
  (∀ id ∈ e.generatedId, id ∉ s.now.system.generatedIds) ∧
    ∀ account ∈ e.account, account = s.now.owner c

instance (s : Running) (c : ClientId) (e : AppEvent) : Decidable (s.Possible c e) :=
  inferInstanceAs (Decidable (_ ∧ _))

section step

variable (contains : String → String → Bool)

/-- What an event leads to. -/
def react (s : Running) : RunningEvent → Option (Option Running)
  | .background e =>
    if e.background then
      (s.now.step e).map fun r => some { s with past := s.past ++ [s.now], now := r }
    else none
  | .app c e deviceTime =>
    if s.Possible c e then
      ((s.apps c).handle contains c (s.views c) e).map fun reaction => do
        let reaction ← reaction
        let now ← s.now.ask deviceTime reaction.request
        return {
          past := s.past ++ [s.now]
          now := now
          apps := Function.update s.apps c reaction.app }
    else none

/-- One step; `none` when the event cannot happen or the app traps. -/
def step (s : Running) (e : RunningEvent) : Option Running := (s.react contains e).join

/-- The states reached when the server accepts every write. -/
def Reachable (owner : ClientId → Email) (s : Running) : Prop :=
  Runs.Reachable (step contains) (fun e => e.accepted = true) (init owner) s

/-- The states reached when the server may reject any write. -/
def ReachableWithRejections (owner : ClientId → Email) (s : Running) : Prop :=
  Runs.Reachable (step contains) (fun _ => True) (init owner) s

end step

end Running

end MessagingApp
