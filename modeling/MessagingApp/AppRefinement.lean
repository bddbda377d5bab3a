import MessagingApp.SafeViews
import MessagingApp.ScreenSoundness

/-!
# The apps refine the stores

The stores of the clients were modelled with calls on documents that a client is
shown. Here the calls come from the screens: from the rows that snapshots have
filled, from what the segues have handed on, and from the delegate of the colour
picker. Every run of the apps makes only calls of that kind, so it is a run of the
stores and of the server-level model, and what holds there holds for the apps.
-/

namespace MessagingApp

/-! ## What an app does to its view controllers -/

namespace App

/-- Every view controller of an app has a property. -/
def Every (P : ViewController → Prop) (a : App) : Prop := ∀ k ∈ a.screens.objects, P k

/-- The versions of what a client is handed, and the views they are taken from. The view of a later
version has no less. -/
structure Versions (full views : List LocalDb) : Prop where
  taken : ∀ (i : ℕ) (v : LocalDb), views[i]? = some v → ∃ w, full[i]? = some w ∧ TakenFrom w v
  grow : ∀ (i j : ℕ) (v w : LocalDb), i ≤ j → full[i]? = some v → full[j]? = some w →
    ∀ path ∈ v, path ∈ w

/-- What the handlers of a view controller keep, when its listeners are only handed what is
`heard`. The property may speak of the view of the client. -/
structure Keeps (contains : String → String → Bool)
    (heard : LocalDb → Listener → Snapshot LocalDb → Prop)
    (P : LocalDb → ViewController → Prop) : Prop where
  mono : ∀ {view view' : LocalDb} {k : ViewController}, (∀ path ∈ view, path ∈ view') →
    P view k → P view' k
  contacts : ∀ (view : LocalDb) (currentUser : Email),
    P view (.contacts { currentUser := some currentUser })
  requested : ∀ {k k' : ViewController} (view : LocalDb), Requested k k' → P view k'
  tap : ∀ {view : LocalDb} {k : ViewController} {c : ClientId} {controllers : List ViewController}
    {id : ℕ} {t : Tap} {answer : Answer}, P view k → (∀ k ∈ controllers, P view k) →
    k.tap contains c controllers id t = some (some answer) →
    P view answer.self ∧ ∀ next, answer.navigation = .push next → P view next
  told : ∀ {view : LocalDb} {k k' : ViewController} {listener : Listener}
    {snapshot : Snapshot LocalDb}, P view k → heard view listener snapshot →
    (∀ v, snapshot = .ok v → TakenFrom view v) → k.told listener snapshot = some (some k') →
    P view k'
  layoutRow : ∀ {view : LocalDb} {k k' : ViewController} {row : ℕ}, P view k →
    k.layoutRow row = some (some k') → P view k'
  details : ∀ {view : LocalDb} {k : MemberController} {details : MemberDetails}
    {queued : List MemberDetails}, P view (.memberView k) → k.queued = details :: queued →
    P view (.memberView { k with queued := queued, shown := some details })

section every

variable {P : ViewController → Prop} {a : App} {id : ℕ} {k : ViewController}

theorem Every.change (ha : a.Every P) (hk : P k) (id : ℕ) : (a.change id k).Every P := by
  intro k' hk'
  rcases ObjectStacks.Heap.mem_update hk' with rfl | hold
  · exact hk
  · exact ha k' hold

theorem Every.navigate (ha : a.Every P) {navigation : Navigation}
    (hpush : ∀ next, navigation = .push next → P next) (id : ℕ) :
    (a.navigate id navigation).Every P := by
  cases navigation with
  | push k =>
    intro k' hk'
    rw [App.navigate, viewWillAppear_screens] at hk'
    rcases ObjectStacks.Heap.mem_push.mp hk' with hold | rfl
    · exact ha k' hold
    · exact hpush k' rfl
  | pop | popToRoot =>
    intro k' hk'
    rw [App.navigate, viewWillAppear_screens] at hk'
    exact ha k' hk'
  | stay | present => exact ha

theorem Every.recolour (ha : a.Every P) (id : ℕ) (bar : Option BarColour) :
    (a.recolour id bar).Every P := by
  intro k hk
  rw [recolour_screens] at hk
  exact ha k hk

theorem Every.showContacts (ha : a.Every P) {currentUser : Email}
    (hcontacts : P (.contacts { currentUser := some currentUser })) (id : ℕ) :
    (a.showContacts id currentUser).Every P := by
  unfold App.showContacts
  split
  case isTrue =>
    refine ha.navigate ?_ id
    rintro _ ⟨⟩
    exact hcontacts
  case isFalse => exact ha

end every

/-- What listeners are handed in an event, with the view it is taken from. -/
def HeardIn (heard : LocalDb → Listener → Snapshot LocalDb → Prop) (a : App)
    (full views : List LocalDb) (e : AppEvent) : Prop :=
  ∀ id listener result handed snapshot view, e = .told id listener result →
    a.snapshot views result = some (handed, snapshot) → full[handed]? = some view →
    heard view listener snapshot

/-- What a listener is handed is taken from a view that has no less than that of the last snapshot.
For an error it is the same. -/
theorem exists_view_of_snapshot {a : App} {full views : List LocalDb} {view : LocalDb}
    {result : Snapshot ℕ} {handed : ℕ} {snapshot : Snapshot LocalDb}
    (hversions : Versions full views) (hview : full[a.handed]? = some view)
    (h : a.snapshot views result = some (handed, snapshot)) :
    ∃ view', full[handed]? = some view' ∧ (∀ path ∈ view, path ∈ view') ∧
      ∀ v, snapshot = .ok v → TakenFrom view' v := by
  rcases snapshot_eq_some h with ⟨e, _, rfl, rfl⟩ | ⟨v, _, hle, hv, rfl⟩
  · exact ⟨view, hview, fun _ hpath => hpath, fun v hv => by cases hv⟩
  · obtain ⟨view', hview', htaken⟩ := hversions.taken handed v hv
    refine ⟨view', hview', hversions.grow _ _ _ _ hle hview hview', ?_⟩
    rintro _ ⟨⟩
    exact htaken

/-- **What the handlers keep, an app keeps**, at the version of the view it was handed last. -/
theorem Keeps.handle {contains : String → String → Bool}
    {heard : LocalDb → Listener → Snapshot LocalDb → Prop} {P : LocalDb → ViewController → Prop}
    (hP : Keeps contains heard P) {a : App} {c : ClientId} {full views : List LocalDb}
    {view : LocalDb} (ha : a.Every (P view)) (hview : full[a.handed]? = some view)
    (hversions : Versions full views) {e : AppEvent} (hheard : a.HeardIn heard full views e)
    {reaction : Reaction} (h : a.handle contains c views e = some (some reaction)) :
    ∃ view', full[reaction.app.handed]? = some view' ∧ reaction.app.Every (P view') := by
  cases e with
  | tap t =>
    obtain ⟨_, id, k, answer, htop, hanswer, hresult⟩ := handle_tap h
    have hk : P view k := ha k (List.mem_of_getElem? (ObjectStacks.Heap.top_eq_some.mp htop).2)
    obtain ⟨answer, rfl, rfl⟩ := Option.map_eq_some_iff.mp hresult.symm
    obtain ⟨hself, hpush⟩ := hP.tap hk ha hanswer
    exact ⟨view, by simpa using hview, (ha.change hself id).navigate hpush id⟩
  | changeUsername newUserName =>
    obtain ⟨id, k, _, _, hresult⟩ := handle_changeUsername h
    obtain rfl := Option.some.inj hresult
    exact ⟨view, hview, ha⟩
  | cancel =>
    obtain ⟨_, _, hresult⟩ := Option.map_eq_some_iff.mp h
    obtain rfl := Option.some.inj hresult
    exact ⟨view, hview, ha⟩
  | signedIn id account =>
    obtain ⟨k, k', _, hkk', hresult⟩ := handle_signedIn h
    obtain rfl := Option.some.inj hresult
    refine ⟨view, by simpa using hview, ?_⟩
    exact (ha.change (hP.requested view hkk') id).showContacts (hP.contacts view account) id
  | registered id account emailText =>
    obtain ⟨k, k', _, hkk', hresult⟩ := handle_registered h
    obtain rfl := Option.some.inj hresult
    refine ⟨view, by simpa using hview, ?_⟩
    exact (ha.change (hP.requested view hkk') id).showContacts (hP.contacts view account) id
  | requestFailed id =>
    obtain ⟨k, k', _, hkk', hresult⟩ := handle_requestFailed h
    obtain rfl := Option.some.inj hresult
    exact ⟨view, hview, ha.change (hP.requested view hkk') id⟩
  | told id listener result =>
    obtain ⟨k, handed, snapshot, answer, hk, hsnapshot, hanswer, hresult⟩ := handle_told h
    obtain ⟨k', rfl, rfl⟩ := Option.map_eq_some_iff.mp hresult.symm
    obtain ⟨view', hview', hgrows, htaken⟩ := exists_view_of_snapshot hversions hview hsnapshot
    have ha' : a.Every (P view') := fun k hk => hP.mono hgrows (ha k hk)
    have hk' : P view' k' := hP.told (ha' k (List.mem_of_getElem? hk))
      (hheard _ _ _ _ _ _ rfl hsnapshot hview') htaken hanswer
    have hchanged : Every (P view') { a.change id k' with handed := handed } := ha'.change hk' id
    exact ⟨view', by simpa using hview', hchanged.recolour id _⟩
  | layoutRow id row =>
    obtain ⟨k, answer, hk, hanswer, hresult⟩ := handle_layoutRow h
    obtain ⟨k', rfl, rfl⟩ := Option.map_eq_some_iff.mp hresult.symm
    have hk' : P view k' := hP.layoutRow (ha k (List.mem_of_getElem? hk)) hanswer
    exact ⟨view, hview, ha.change hk' id⟩
  | showMemberDetails id =>
    obtain ⟨k, details, queued, hk, hqueued, hresult⟩ := handle_showMemberDetails h
    obtain ⟨_, _, rfl⟩ := Option.map_eq_some_iff.mp hresult.symm
    have hk' := hP.details (ha _ (List.mem_of_getElem? hk)) hqueued
    exact ⟨view, by simpa using hview, (ha.change hk' id).recolour id _⟩

end App

/-! ## Sound apps -/

/-- The view controllers of an app are sound. -/
def App.Sound (view : LocalDb) (a : App) : Prop := a.Every (ViewController.Sound view)

namespace App

/-- The handlers keep view controllers sound, whatever they are handed. -/
theorem keeps_sound (contains : String → String → Bool) :
    Keeps contains (fun _ _ _ => True) ViewController.Sound where
  mono hgrows hk := hk.mono hgrows
  contacts view currentUser := ⟨rfl, by simp⟩
  requested view h := by cases h <;> trivial
  tap {view k c controllers id t answer} hk hcontrollers hanswer := by
    have hsound : answer.Sound view c "" _ := ViewController.Sound.tap hk hcontrollers hanswer
    refine ⟨hsound.self, fun next hnext => ?_⟩
    have hnavigation := hsound.navigation
    rw [hnext] at hnavigation
    exact hnavigation
  told hk _ htaken htold := by
    rcases hk.told htaken htold with ⟨_, heq, hk'⟩ | ⟨hnone, _⟩
    · obtain rfl := Option.some.inj heq
      exact hk'
    · cases hnone
  layoutRow hk h := hk.layoutRow h
  details hk hqueued := by
    refine ⟨hk.opened, fun details' hdetails' => hk.queued details' ?_⟩
    rw [hqueued]
    exact List.mem_cons_of_mem _ hdetails'

/-- **What a sound app asks of Firebase** is about what its client is shown. -/
theorem Sound.grounded {contains : String → String → Bool} {c : ClientId} {owner : Email}
    {views : List LocalDb} {view : LocalDb} {a : App} (ha : a.Sound view) {e : AppEvent}
    (haccount : ∀ account ∈ e.account, account = owner) {reaction : Reaction}
    (h : a.handle contains c views e = some (some reaction)) :
    ∀ request ∈ reaction.request, request.client = c ∧
      request.Grounded view owner e.generatedId := by
  intro request hrequest
  rcases request_cases h hrequest with ⟨t, id, k, answer, rfl, _, htop, hanswer, htapped⟩ |
    ⟨newUserName, id, k, rfl, _, hk, hchanged⟩ | ⟨id, account, rfl, rfl⟩ |
    ⟨id, account, emailText, rfl, rfl⟩
  · have hk : k.Sound view :=
      ha k (List.mem_of_getElem? (ObjectStacks.Heap.top_eq_some.mp htop).2)
    exact (hk.tap ha hanswer).request request htapped
  · exact (ha k (List.mem_of_getElem? hk)).updateUserName hchanged
  · exact ⟨rfl, haccount account rfl⟩
  · exact ⟨rfl, haccount account rfl⟩

end App

/-! ## The apps over the stores -/

namespace Replicas

variable {owner : ClientId → Email} {r r' : Replicas}

/-- The states of the stores that accepted events lead to. -/
def Leads (r r' : Replicas) : Prop := Runs.Reachable step (fun e => e.accepted = true) r r'

/-- What a client is shown is shown in every later state. -/
theorem Leads.mem_view (h : r.Leads r') (hr : r.Reachable owner) (c : ClientId) :
    ∀ path ∈ r.view c, path ∈ r'.view c := by
  obtain ⟨es, hok, hrun⟩ := Runs.Reachable.exists_run h
  exact hr.mem_view_of_run hok hrun c

/-- What an app asks for is asked for by a screen, and is not a rejection. -/
theorem byScreen_of_grounded {view : LocalDb} {account : Email} {generated : Option String}
    {deviceTime : Time} {e : Event} (he : e.Grounded view account generated) :
    (ReplicaEvent.act e deviceTime).byScreen = true ∧ e.accepted = true := by
  cases e with
  | commit | reject | complete => exact he.elim
  | _ => exact ⟨rfl, rfl⟩

/-- A grounded request of an app is permitted. -/
theorem permitted_of_grounded {c : ClientId} {view : LocalDb} {generated : Option String}
    (hgrows : ∀ path ∈ view, path ∈ r.view c)
    (hfresh : ∀ id ∈ generated, id ∉ r.system.generatedIds) {e : Event} (hclient : e.client = c)
    (he : e.Grounded view (r.owner c) generated) : r.Permitted e := by
  subst hclient
  cases e with
  | signIn | register => exact he
  | signOut => trivial
  | call c made =>
    obtain ⟨hbyUser, htarget, hgenerated, hcolour⟩ := he
    exact ⟨hbyUser, fun path hpath => hgrows path (htarget path hpath),
      fun id hid => hfresh id (hgenerated id hid), hcolour⟩
  | commit | reject | complete => exact he.elim

/-- What Firebase does on a permitted request is a run of the stores. -/
theorem run_of_ask {deviceTime : Time} {request : Option Event}
    (hpermitted : ∀ e ∈ request, r.Permitted e) (h : r.ask deviceTime request = some r') :
    Runs.run step r (request.toList.map (.act · deviceTime)) = some r' := by
  cases request with
  | none => exact h
  | some e =>
    have hstep : r.step (.act e deviceTime) = some r' := by
      rw [step, if_pos (hpermitted e rfl)]
      exact (ask_eq_some.mp h).2
    exact Runs.run_cons_eq_some.mpr ⟨r', hstep, rfl⟩

end Replicas

/-- The versions of what a client was and is shown while its account is signed in. -/
def Running.full (s : Running) (c : ClientId) : List LocalDb := (s.past ++ [s.now]).map (·.view c)

/-- Every view controller of every app has a property at the version of the client's view that the
app was handed last. -/
def Running.Every (P : LocalDb → ViewController → Prop) (s : Running) : Prop :=
  ∀ c, ∃ view, (s.full c)[(s.apps c).handed]? = some view ∧ (s.apps c).Every (P view)

/-- The states of the stores follow each other by accepted events, and every app is sound. -/
structure Running.Sound (owner : ClientId → Email) (s : Running) : Prop where
  reachable : ∀ r ∈ s.past ++ [s.now], r.Reachable owner
  ordered : (s.past ++ [s.now]).Pairwise Replicas.Leads
  apps : s.Every ViewController.Sound

namespace Running

variable {owner : ClientId → Email} {s s' : Running}

theorem Sound.now_reachable (hs : s.Sound owner) : s.now.Reachable owner :=
  hs.reachable _ (List.mem_append_right _ List.mem_cons_self)

/-- Every app is sound at the version it was handed last. -/
theorem Sound.app (hs : s.Sound owner) (c : ClientId) :
    ∃ view, (s.full c)[(s.apps c).handed]? = some view ∧ (s.apps c).Sound view := hs.apps c

/-- A version of a client's view is the view in some state. -/
theorem getElem?_full {c : ClientId} {i : ℕ} {view : LocalDb} :
    (s.full c)[i]? = some view ↔ ∃ r, (s.past ++ [s.now])[i]? = some r ∧ r.view c = view := by
  rw [full, List.getElem?_map, Option.map_eq_some_iff]

/-- A version that a client is handed is what a state shows the client. -/
theorem getElem?_views {c : ClientId} {i : ℕ} {view : LocalDb} :
    (s.views c)[i]? = some view ↔ ∃ r, (s.past ++ [s.now])[i]? = some r ∧ r.shown c = view := by
  rw [views, List.getElem?_map, Option.map_eq_some_iff]

/-- Versions stay what they are when the states go on. -/
theorem getElem?_full_of_past {now : Replicas} {apps : ClientId → App} {c : ClientId} {i : ℕ}
    {view : LocalDb} (h : (s.full c)[i]? = some view) :
    (Running.full { past := s.past ++ [s.now], now := now, apps := apps } c)[i]? = some view := by
  obtain ⟨r, hr, rfl⟩ := getElem?_full.mp h
  refine getElem?_full.mpr ⟨r, ?_, rfl⟩
  rw [List.getElem?_append_left (List.getElem?_eq_some_iff.mp hr).1]
  exact hr

/-- What an app is handed is taken from the views of its client, which grow. -/
theorem Sound.versions (hs : s.Sound owner) (c : ClientId) :
    App.Versions (s.full c) (s.views c) where
  taken i v hv := by
    obtain ⟨r, hr, rfl⟩ := getElem?_views.mp hv
    have hreachable : r.Reachable owner := hs.reachable r (List.mem_of_getElem? hr)
    exact ⟨r.view c, getElem?_full.mpr ⟨r, hr, rfl⟩, hreachable.localSchema c,
      fun _ => Replicas.mem_view_of_shown⟩
  grow i j v w hij hv hw path hpath := by
    obtain ⟨r, hr, rfl⟩ := getElem?_full.mp hv
    obtain ⟨r', hr', rfl⟩ := getElem?_full.mp hw
    obtain ⟨hi, hri⟩ := List.getElem?_eq_some_iff.mp hr
    obtain ⟨hj, hrj⟩ := List.getElem?_eq_some_iff.mp hr'
    have hreachable : r.Reachable owner := hs.reachable r (List.mem_of_getElem? hr)
    rcases Nat.lt_or_ge i j with hlt | hge
    · have hleads : r.Leads r' := by
        rw [← hri, ← hrj]
        exact List.pairwise_iff_getElem.mp hs.ordered i j hi hj hlt
      exact hleads.mem_view hreachable c path hpath
    · have hsame : i = j := by omega
      subst hsame
      obtain rfl := Option.some.inj (hr.symm.trans hr')
      exact hpath

/-- What an app was handed is in the view of its client now. -/
theorem Sound.mem_view (hs : s.Sound owner) {c : ClientId} {view : LocalDb}
    (hview : (s.full c)[(s.apps c).handed]? = some view) :
    ∀ path ∈ view, path ∈ s.now.view c := by
  have hlength := (List.getElem?_eq_some_iff.mp hview).1
  have hnow : (s.full c)[s.past.length]? = some (s.now.view c) := by
    rw [getElem?_full]
    exact ⟨s.now, by simp, rfl⟩
  refine (hs.versions c).grow _ _ _ _ ?_ hview hnow
  rw [full, List.length_map, List.length_append, List.length_singleton] at hlength
  omega

/-- The states go on from the present one. -/
theorem Sound.extend (hs : s.Sound owner) {now : Replicas} {apps : ClientId → App}
    (hleads : s.now.Leads now)
    (happs : Running.Every ViewController.Sound
      { past := s.past ++ [s.now], now := now, apps := apps }) :
    Running.Sound owner { past := s.past ++ [s.now], now := now, apps := apps } := by
  constructor
  case reachable =>
    intro r hr
    rcases List.mem_append.mp hr with hold | hnew
    · exact hs.reachable r hold
    · obtain rfl := List.mem_singleton.mp hnew
      exact Runs.Reachable.trans hs.now_reachable hleads
  case ordered =>
    refine List.pairwise_append.mpr ⟨hs.ordered, List.pairwise_singleton _ _, ?_⟩
    intro r hr r' hr'
    obtain rfl := List.mem_singleton.mp hr'
    rcases List.mem_append.mp hr with hold | hnow
    · have hled := (List.pairwise_append.mp hs.ordered).2.2 r hold s.now List.mem_cons_self
      exact Runs.Reachable.trans hled hleads
    · obtain rfl := List.mem_singleton.mp hnow
      exact hleads
  case apps => exact happs

/-- **What an event leads to**, background or app. -/
theorem react_cases {contains : String → String → Bool} {e : RunningEvent}
    {result : Option Running} (h : s.react contains e = some result) :
    (∃ e' r, e = .background e' ∧ e'.background = true ∧ s.now.step e' = some r ∧
      result = some { s with past := s.past ++ [s.now], now := r }) ∨
    ∃ c e' deviceTime reaction, e = .app c e' deviceTime ∧ s.Possible c e' ∧
      (s.apps c).handle contains c (s.views c) e' = some reaction ∧
      result = reaction.bind fun reaction => (s.now.ask deviceTime reaction.request).map fun now =>
        { past := s.past ++ [s.now]
          now := now
          apps := Function.update s.apps c reaction.app } := by
  cases e with
  | background e =>
    unfold react at h
    dsimp only at h
    split at h
    case isFalse => cases h
    case isTrue hbackground =>
      obtain ⟨r, hr, rfl⟩ := Option.map_eq_some_iff.mp h
      exact .inl ⟨e, r, rfl, hbackground, hr, rfl⟩
  | app c e deviceTime =>
    unfold react at h
    dsimp only at h
    split at h
    case isFalse => cases h
    case isTrue hpossible =>
      obtain ⟨reaction, hreaction, rfl⟩ := Option.map_eq_some_iff.mp h
      refine .inr ⟨c, e, deviceTime, reaction, rfl, hpossible, hreaction, ?_⟩
      cases reaction with
      | none => rfl
      | some reaction =>
        cases hnow : s.now.ask deviceTime reaction.request <;> simp [hnow]

/-- **Inversion.** A step leaves the apps, or an app answers an event and Firebase does what it
asks. -/
theorem step_cases {contains : String → String → Bool} {e : RunningEvent}
    (h : s.step contains e = some s') :
    (∃ e' r, e = .background e' ∧ e'.background = true ∧ s.now.step e' = some r ∧
      s' = { s with past := s.past ++ [s.now], now := r }) ∨
    ∃ c e' deviceTime reaction now, e = .app c e' deviceTime ∧ s.Possible c e' ∧
      (s.apps c).handle contains c (s.views c) e' = some (some reaction) ∧
      s.now.ask deviceTime reaction.request = some now ∧ s' = {
        past := s.past ++ [s.now]
        now := now
        apps := Function.update s.apps c reaction.app } := by
  rcases react_cases (Option.join_eq_some_iff.mp h) with ⟨e', r, rfl, hbackground, hstep, heq⟩ |
    ⟨c, e', deviceTime, reaction, rfl, hpossible, hhandle, heq⟩
  · exact .inl ⟨e', r, rfl, hbackground, hstep, Option.some.inj heq⟩
  · obtain ⟨reaction, rfl, hasked⟩ := Option.bind_eq_some_iff.mp heq.symm
    obtain ⟨now, hnow, rfl⟩ := Option.map_eq_some_iff.mp hasked
    exact .inr ⟨c, e', deviceTime, reaction, now, rfl, hpossible, hhandle, hnow, rfl⟩

/-- **What the handlers keep, all apps keep.** -/
theorem Sound.every_step {contains : String → String → Bool}
    {heard : LocalDb → Listener → Snapshot LocalDb → Prop} {P : LocalDb → ViewController → Prop}
    (hs : s.Sound owner) (hP : App.Keeps contains heard P) (hall : s.Every P) {e : RunningEvent}
    (hheard : ∀ c e' deviceTime, e = .app c e' deviceTime →
      (s.apps c).HeardIn heard (s.full c) (s.views c) e')
    (h : s.step contains e = some s') : s'.Every P := by
  have hkept : ∀ (now : Replicas) (apps : ClientId → App) (c : ClientId) (a : App),
      (∃ view, (s.full c)[a.handed]? = some view ∧ a.Every (P view)) →
        ∃ view, (Running.full { past := s.past ++ [s.now], now := now, apps := apps }
          c)[a.handed]? = some view ∧ a.Every (P view) := by
    rintro now apps c a ⟨view, hview, ha⟩
    exact ⟨view, getElem?_full_of_past hview, ha⟩
  rcases step_cases h with ⟨_, r, _, _, _, rfl⟩ |
    ⟨c, e', deviceTime, reaction, now, rfl, _, hhandle, _, rfl⟩
  · exact fun c => hkept r s.apps c (s.apps c) (hall c)
  · refine (Function.forall_update_iff s.apps (p := fun d a =>
      ∃ view, (Running.full _ d)[a.handed]? = some view ∧ a.Every (P view))).mpr ⟨?_, ?_⟩
    · obtain ⟨view, hview, ha⟩ := hall c
      exact hkept _ _ c reaction.app (hP.handle ha hview (hs.versions c)
        (hheard c e' deviceTime rfl) hhandle)
    · exact fun d _ => hkept _ _ d (s.apps d) (hall d)

/-- No query of an event fails. -/
theorem heardIn_true {a : App} {full views : List LocalDb} {e : AppEvent} :
    a.HeardIn (fun _ _ _ => True) full views e := fun _ _ _ _ _ _ _ _ _ => trivial

/-- A step adds the state it starts in to the earlier ones. -/
theorem past_of_step {contains : String → String → Bool} {e : RunningEvent}
    (h : s.step contains e = some s') : s'.past = s.past ++ [s.now] := by
  rcases step_cases h with ⟨_, r, _, _, _, rfl⟩ | ⟨_, _, _, _, _, _, _, _, _, rfl⟩
  · rfl
  · rfl

/-- The states before a step come before those after it. -/
theorem states_isPrefix_of_step {contains : String → String → Bool} {e : RunningEvent}
    (h : s.step contains e = some s') : s.past ++ [s.now] <+: s'.past ++ [s'.now] := by
  rw [past_of_step h]
  exact List.prefix_append _ _

/-- At first every app shows the menu. -/
theorem Sound.init (owner : ClientId → Email) : Running.Sound owner (init owner) where
  reachable r hr := by
    obtain rfl := List.mem_singleton.mp hr
    exact .refl
  ordered := List.pairwise_singleton _ _
  apps c := by
    refine ⟨(Replicas.init owner).view c, rfl, ?_⟩
    intro k hk
    obtain rfl := List.mem_singleton.mp hk
    trivial

end Running

/-- The event of the stores that an event is, unless screens bring it about. -/
def RunningEvent.delivery? : RunningEvent → Option ReplicaEvent
  | .background e => if e.byScreen then none else some e
  | .app _ _ _ => none

namespace Running

variable {owner : ClientId → Email} {s s' : Running} {contains : String → String → Bool}

/-- **One step of the apps.** The stores make a run of accepted events, in which an event that no
screen brings about is the event of the step, and the apps stay sound. -/
theorem Sound.step (hs : s.Sound owner) {e : RunningEvent} (hok : e.accepted = true)
    (h : s.step contains e = some s') :
    s'.Sound owner ∧ ∃ fs : List ReplicaEvent, (∀ f ∈ fs, f.accepted = true) ∧
      fs.filter (fun f => !f.byScreen) = e.delivery?.toList ∧
      Runs.run Replicas.step s.now fs = some s'.now := by
  have happs := hs.every_step (App.keeps_sound contains) hs.apps
    (fun _ _ _ _ => heardIn_true) h
  rcases step_cases h with ⟨e', r, rfl, _, hstep, rfl⟩ |
    ⟨c, e', deviceTime, reaction, now, rfl, hpossible, hhandle, hnow, rfl⟩
  · have hleads : s.now.Leads r := Runs.Reachable.tail .refl hok hstep
    refine ⟨hs.extend hleads happs, [e'], ?_, ?_, ?_⟩
    · intro f hf
      obtain rfl := List.mem_singleton.mp hf
      exact hok
    · cases hscreen : e'.byScreen <;> simp [RunningEvent.delivery?, hscreen]
    · exact Runs.run_cons_eq_some.mpr ⟨r, hstep, rfl⟩
  · obtain ⟨view, hview, happ⟩ := hs.app c
    have hrequest := happ.grounded hpossible.2 hhandle
    have hpermitted : ∀ f ∈ reaction.request, s.now.Permitted f := by
      intro f hf
      obtain ⟨hclient, hgrounded⟩ := hrequest f hf
      exact Replicas.permitted_of_grounded (hs.mem_view hview) hpossible.1 hclient hgrounded
    have hrun := Replicas.run_of_ask hpermitted hnow
    have hscreen : ∀ f ∈ reaction.request.toList.map (ReplicaEvent.act · deviceTime),
        f.byScreen = true ∧ f.accepted = true := by
      intro f hf
      obtain ⟨request, hmem, rfl⟩ := List.mem_map.mp hf
      exact Replicas.byScreen_of_grounded (hrequest request (Option.mem_toList.mp hmem)).2
    refine ⟨hs.extend (.of_run (fun f hf => (hscreen f hf).2) hrun) happs, _,
      fun f hf => (hscreen f hf).2, ?_, hrun⟩
    rw [List.filter_eq_nil_iff.mpr (fun f hf => by simp [(hscreen f hf).1])]
    rfl

/-- **A run of the apps.** -/
theorem Sound.run (hs : s.Sound owner) {es : List RunningEvent}
    (hok : ∀ e ∈ es, e.accepted = true) (hrun : Runs.run (Running.step contains) s es = some s') :
    s'.Sound owner ∧ ∃ fs : List ReplicaEvent, (∀ f ∈ fs, f.accepted = true) ∧
      fs.filter (fun f => !f.byScreen) = es.filterMap RunningEvent.delivery? ∧
      Runs.run Replicas.step s.now fs = some s'.now := by
  induction es generalizing s with
  | nil =>
    obtain rfl : s = s' := by simpa using hrun
    exact ⟨hs, [], by simp, rfl, rfl⟩
  | cons e es ih =>
    obtain ⟨t, hstep, hrest⟩ := Runs.run_cons_eq_some.mp hrun
    obtain ⟨ht, fs, hfs, hfilter, hfirst⟩ := hs.step (hok e List.mem_cons_self) hstep
    obtain ⟨hs', gs, hgs, hfilter', hlater⟩ :=
      ih ht (fun f hf => hok f (List.mem_cons_of_mem e hf)) hrest
    refine ⟨hs', fs ++ gs, ?_, ?_, ?_⟩
    · intro f hf
      rcases List.mem_append.mp hf with hf | hf
      · exact hfs f hf
      · exact hgs f hf
    · rw [List.filter_append, hfilter, hfilter']
      cases hdelivery : e.delivery? with
      | none => rw [List.filterMap_cons_none hdelivery]; rfl
      | some f => rw [List.filterMap_cons_some hdelivery]; rfl
    · rw [Runs.run_append, hfirst]
      exact hlater

/-- The apps are sound in every reachable state. -/
theorem Reachable.sound (hs : s.Reachable contains owner) : s.Sound owner :=
  Runs.Reachable.invariant hs (Sound.init owner) (fun _ _ _ _ hu hok h => (hu.step hok h).1)

/-- `ann` signs in, creates a chat, opens it from her chat list and sends a message. -/
def sampleTaps : List RunningEvent :=
  [.app 0 (.tap (.segue .showLogin)) 1, .app 0 (.tap .loginButtonPressed) 1,
    .app 0 (.signedIn 1 "ann") 1, .app 0 (.tap (.segue .showCreateChat)) 1,
    .app 0 (.tap (.createButtonPressed "tea" "Tea time")) 1,
    .background (.act (.commit 0 1) 1), .background (.act (.commit 0 1) 1),
    .app 0 (.told 2 .loadChats (.ok 7)) 2, .app 0 (.tap (.didSelectRowAt 0)) 2,
    .app 0 (.told 4 .loadChatOptions (.ok 7)) 2, .app 0 (.tap (.sendButtonPressed "m1" "hello")) 2]

end Running

end MessagingApp
