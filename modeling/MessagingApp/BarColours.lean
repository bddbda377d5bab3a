import MessagingApp.OpenScreens

/-!
# The colour of the open chat

A messages screen gives the navigation bar the colour of its chat, and gives it
again whenever it comes back on top. A snapshot can colour the bar from any screen
on the stack, so the colour is right as long as no other screen on the stack colours
the bar.
-/

namespace MessagingApp

/-- The screens whose snapshots colour the navigation bar. -/
def Place.coloursBar : Place → Bool
  | .messages _ | .memberView _ _ => true
  | _ => false

namespace App

/-- No other screen on the stack colours the navigation bar. -/
def ColoursAlone (a : App) (id : ℕ) : Prop :=
  ∀ j ∈ a.screens.stack, ∀ u, a.screens.keyAt ViewController.place j = some u →
    u.coloursBar = true → j = id

/-- A messages screen on top that knows the colour of its chat, and colours the bar alone, shows
this colour. -/
def BarRight (a : App) : Prop :=
  ∀ id k colour, a.screens.top = some (id, .messages k) → k.chatColour = some colour →
    a.ColoursAlone id → a.bar = .colour colour

section bar

variable {a : App} {id : ℕ} {k : ViewController}

/-- A screen that comes on top shows its colour. -/
theorem barRight_viewWillAppear (a : App) : a.viewWillAppear.BarRight := by
  intro id k colour htop hcolour _
  rw [viewWillAppear_screens] at htop
  simp [viewWillAppear, htop, ViewController.viewWillAppear, hcolour]

/-- What leaves the screens and the bar leaves the colours. -/
theorem BarRight.of_screens {a' : App} (ha : a.BarRight) (hscreens : a'.screens = a.screens)
    (hbar : a'.bar = a.bar) : a'.BarRight := by
  intro id k colour htop hcolour halone
  rw [hbar]
  rw [hscreens] at htop
  refine ha id k colour htop hcolour ?_
  intro j hj u hu
  rw [← hscreens] at hj hu
  exact halone j hj u hu

/-- A change of a view controller that keeps its place moves no screen that colours the bar. -/
theorem ColoursAlone.of_change (hk : a.screens.objects[id]? = some k) {k' : ViewController}
    (hplace : k'.place = k.place) {j : ℕ} (h : (a.change id k').ColoursAlone j) :
    a.ColoursAlone j := by
  intro i hi u hu
  refine h i hi u ?_
  rw [change_screens, ObjectStacks.Heap.keyAt_update]
  · exact hu
  · intro y hy
    obtain rfl := Option.some.inj (hk.symm.trans hy)
    exact hplace

/-- A change that keeps the place and the colour of a view controller. -/
theorem BarRight.change (ha : a.BarRight) (hk : a.screens.objects[id]? = some k)
    {k' : ViewController} (hplace : k'.place = k.place)
    (hcolour : ∀ m', k' = .messages m' → ∃ m, k = .messages m ∧ m.chatColour = m'.chatColour) :
    (a.change id k').BarRight := by
  intro j m' colour htop hcolour' halone
  have halone' := ColoursAlone.of_change hk hplace halone
  obtain ⟨hhead, _⟩ := ObjectStacks.Heap.top_eq_some.mp htop
  rcases ObjectStacks.Heap.top_update htop with ⟨rfl, heq⟩ | ⟨_, htop'⟩
  · obtain ⟨m, rfl, hsame⟩ := hcolour m' heq.symm
    have htop' : a.screens.top = some (j, .messages m) :=
      ObjectStacks.Heap.top_eq_some.mpr ⟨hhead, hk⟩
    exact ha j m colour htop' (hsame.trans hcolour') halone'
  · exact ha j m' colour htop' hcolour' halone'

/-- Where an answer leads. -/
theorem BarRight.navigate (ha : a.BarRight) (id : ℕ) (navigation : Navigation) :
    (a.navigate id navigation).BarRight := by
  cases navigation with
  | stay => exact ha
  | present => exact ha.of_screens rfl rfl
  | push | pop | popToRoot => exact barRight_viewWillAppear _

theorem BarRight.showContacts (ha : a.BarRight) (id : ℕ) (currentUser : Email) :
    (a.showContacts id currentUser).BarRight := by
  unfold App.showContacts
  split
  case isTrue => exact ha.navigate id _
  case isFalse => exact ha

/-- A view controller that is not on the stack, or is not the one on top, colours the bar only if
it is another screen that does so. -/
theorem bar_recolour_of_alone {bar : Option BarColour} {j : ℕ} {u : Place}
    (hkey : a.screens.keyAt ViewController.place id = some u)
    (hbar : bar.isSome = true → u.coloursBar = true) (halone : a.ColoursAlone j) (hne : j ≠ id) :
    (a.recolour id bar).bar = a.bar := by
  unfold recolour
  split
  case isFalse => rfl
  case isTrue hmem =>
    cases bar with
    | none => rfl
    | some bar => exact absurd (halone id hmem u hkey (hbar rfl)).symm hne

end bar

end App

/-- Only a messages screen has a colour to show, after its listener to the chat ran. -/
theorem ViewController.coloursBar_of_updateUI {listener : Listener} {k : ViewController}
    (h : (k.updateUI listener).isSome = true) : k.place.coloursBar = true := by
  cases k with
  | messages k => rfl
  | _ => cases h

/-- No tap changes the colour of a messages screen. -/
theorem ViewController.self_eq_of_tap {contains : String → String → Bool} {c : ClientId}
    {controllers : List ViewController} {id : ℕ} {t : Tap} {k : ViewController} {answer : Answer}
    (h : k.tap contains c controllers id t = some (some answer)) {m : MessagesController}
    (hself : answer.self = .messages m) : k = .messages m := by
  have hplace := (placed_of_tap h).self
  rw [hself] at hplace
  cases k with
  | messages k =>
    rw [← hself]
    cases t with
    | segue s =>
      obtain ⟨next, _, hanswer⟩ := Option.map_eq_some_iff.mp h
      obtain rfl := Option.some.inj hanswer
      rfl
    | back | sendButtonPressed =>
      obtain rfl := Option.some.inj (Option.some.inj h)
      rfl
    | _ => cases h
  | _ => cases hplace

/-- Only the listener to the chat changes the colour of a messages screen. -/
theorem MessagesController.chatColour_of_told {listener : Listener} {snapshot : Snapshot LocalDb}
    {k k' : MessagesController} (h : k.told listener snapshot = some (some k'))
    (hne : listener ≠ .loadChatOptions) : k'.chatColour = k.chatColour := by
  unfold MessagesController.told at h
  split at h
  case h_1 =>
    split at h
    case isFalse => cases h
    case isTrue =>
      obtain ⟨_, _, rfl⟩ := Option.map_eq_some_iff.mp (Option.some.inj h)
      rfl
  case h_2 => exact absurd rfl hne
  case h_3 =>
    obtain rfl := Option.some.inj (Option.some.inj h)
    rfl
  case h_4 =>
    split at h
    case isFalse => cases h
    case isTrue =>
      obtain ⟨_, _, rfl⟩ := Option.map_eq_some_iff.mp (Option.some.inj h)
      rfl
  case h_5 => cases h

/-- Laying out a row keeps the colour of a messages screen. -/
theorem ViewController.chatColour_of_layoutRow {k : ViewController} {m' : MessagesController}
    {row : ℕ} (h : k.layoutRow row = some (some (.messages m'))) :
    ∃ m, k = .messages m ∧ m.chatColour = m'.chatColour := by
  have hplace := place_of_layoutRow h
  cases k with
  | messages k =>
    change (if row < k.screen.rowCount then _ else none) = _ at h
    split at h
    case isFalse => cases h
    case isTrue =>
      obtain ⟨_, _, heq⟩ := Option.map_eq_some_iff.mp (Option.some.inj h)
      obtain rfl := ViewController.messages.inj heq
      exact ⟨k, rfl, rfl⟩
  | _ => cases hplace

namespace App

variable {a : App} {id : ℕ} {k : ViewController}

/-- **A snapshot colours the bar** as the messages screen on top wants it. -/
theorem BarRight.told (ha : a.BarRight) (hk : a.screens.objects[id]? = some k)
    {listener : Listener} {snapshot : Snapshot LocalDb} {k' : ViewController}
    (h : k.told listener snapshot = some (some k')) :
    ((a.change id k').recolour id (k'.updateUI listener)).BarRight := by
  have hplace := ViewController.place_of_told h
  intro j m colour htop hcolour halone
  rw [recolour_screens] at htop
  have halone' : (a.change id k').ColoursAlone j := by
    intro i hi u hu
    rw [ColoursAlone, recolour_screens] at halone
    exact halone i hi u hu
  obtain ⟨hhead, _⟩ := ObjectStacks.Heap.top_eq_some.mp htop
  by_cases hj : j = id
  · subst hj
    obtain rfl : .messages m = k' := by
      rcases ObjectStacks.Heap.top_update htop with ⟨_, heq⟩ | ⟨hne, _⟩
      · exact heq
      · exact absurd rfl hne
    have hmem : j ∈ (a.change j (.messages m)).screens.stack := List.mem_of_head? hhead
    by_cases hlistener : listener = .loadChatOptions
    · rw [recolour, if_pos hmem]
      simp [ViewController.updateUI, hlistener, hcolour]
    · -- The listener leaves the colour of the screen and of the bar.
      have hsame : (a.change j (.messages m)).BarRight := by
        refine ha.change hk hplace ?_
        rintro m' ⟨⟩
        cases k with
        | messages k =>
          obtain ⟨r, htold, hr⟩ := Option.map_eq_some_iff.mp h
          obtain ⟨k', rfl, heq⟩ := Option.map_eq_some_iff.mp hr
          obtain rfl := ViewController.messages.inj heq
          exact ⟨k, rfl, (MessagesController.chatColour_of_told htold hlistener).symm⟩
        | _ => cases hplace
      have hbar := hsame j m colour htop hcolour halone'
      rw [recolour, if_pos hmem]
      simpa [ViewController.updateUI, hlistener] using hbar
  · have hkey : (a.change id k').screens.keyAt ViewController.place id = some k'.place := by
      rw [change_screens, ObjectStacks.Heap.keyAt_update]
      · rw [ObjectStacks.Heap.keyAt, hk, Option.map_some, hplace]
      · intro y hy
        obtain rfl := Option.some.inj (hk.symm.trans hy)
        exact hplace
    rw [bar_recolour_of_alone hkey ViewController.coloursBar_of_updateUI halone' hj]
    rcases ObjectStacks.Heap.top_update htop with ⟨heq, _⟩ | ⟨_, htop'⟩
    · exact absurd heq hj
    · exact ha j m colour htop' hcolour (ColoursAlone.of_change hk hplace halone')

/-- A view controller that is no messages screen before a change and none after it. -/
theorem BarRight.change_other (ha : a.BarRight) (hk : a.screens.objects[id]? = some k)
    {k' : ViewController} (hplace : k'.place = k.place) (hother : ∀ m, k' ≠ .messages m) :
    (a.change id k').BarRight :=
  ha.change hk hplace fun m hm => absurd hm (hother m)

/-- **An app keeps the colour of the open chat.** -/
theorem BarRight.handle {contains : String → String → Bool} {c : ClientId} {views : List LocalDb}
    {e : AppEvent} {reaction : Reaction} (ha : a.BarRight)
    (h : a.handle contains c views e = some (some reaction)) : reaction.app.BarRight := by
  cases e with
  | tap t =>
    obtain ⟨_, id, k, answer, htop, hanswer, hresult⟩ := handle_tap h
    obtain ⟨answer, rfl, rfl⟩ := Option.map_eq_some_iff.mp hresult.symm
    obtain ⟨_, hobject⟩ := ObjectStacks.Heap.top_eq_some.mp htop
    refine (ha.change hobject (ViewController.placed_of_tap hanswer).self ?_).navigate id _
    exact fun m hm => ⟨m, ViewController.self_eq_of_tap hanswer hm, rfl⟩
  | changeUsername newUserName =>
    obtain ⟨_, _, _, _, hresult⟩ := handle_changeUsername h
    obtain rfl := Option.some.inj hresult
    exact ha.of_screens rfl rfl
  | cancel =>
    obtain ⟨_, _, hresult⟩ := Option.map_eq_some_iff.mp h
    obtain rfl := Option.some.inj hresult
    exact ha.of_screens rfl rfl
  | signedIn id account =>
    obtain ⟨k, k', hk, hkk', hresult⟩ := handle_signedIn h
    obtain rfl := Option.some.inj hresult
    refine (ha.change_other hk (ViewController.place_of_requested hkk') ?_).showContacts id account
    rintro m rfl
    cases hkk'
  | registered id account emailText =>
    obtain ⟨k, k', hk, hkk', hresult⟩ := handle_registered h
    obtain rfl := Option.some.inj hresult
    refine (ha.change_other hk (ViewController.place_of_requested hkk') ?_).showContacts id account
    rintro m rfl
    cases hkk'
  | requestFailed id =>
    obtain ⟨k, k', hk, hkk', hresult⟩ := handle_requestFailed h
    obtain rfl := Option.some.inj hresult
    refine ha.change_other hk (ViewController.place_of_requested hkk') ?_
    rintro m rfl
    cases hkk'
  | told id listener result =>
    obtain ⟨k, handed, snapshot, answer, hk, _, hanswer, hresult⟩ := handle_told h
    obtain ⟨k', rfl, rfl⟩ := Option.map_eq_some_iff.mp hresult.symm
    refine (ha.told hk hanswer).of_screens ?_ ?_
    · rw [recolour_screens, recolour_screens]
    · unfold recolour
      split <;> rfl
  | layoutRow id row =>
    obtain ⟨k, answer, hk, hanswer, hresult⟩ := handle_layoutRow h
    obtain ⟨k', rfl, rfl⟩ := Option.map_eq_some_iff.mp hresult.symm
    refine ha.change hk (ViewController.place_of_layoutRow hanswer) ?_
    rintro m' rfl
    exact ViewController.chatColour_of_layoutRow hanswer
  | showMemberDetails id =>
    obtain ⟨k, details, queued, hk, _, hresult⟩ := handle_showMemberDetails h
    obtain ⟨_, _, rfl⟩ := Option.map_eq_some_iff.mp hresult.symm
    have hchanged : (a.change id (.memberView { k with
        queued := queued
        shown := some details })).BarRight := ha.change_other hk rfl (by simp)
    intro j m colour htop hcolour halone
    rw [recolour_screens] at htop
    have halone' : (a.change id (.memberView { k with
        queued := queued
        shown := some details })).ColoursAlone j := by
      intro i hi u hu
      rw [ColoursAlone, recolour_screens] at halone
      exact halone i hi u hu
    have hne : j ≠ id := by
      rintro rfl
      rcases ObjectStacks.Heap.top_update htop with ⟨_, heq⟩ | ⟨hne, _⟩
      · cases heq
      · exact absurd rfl hne
    have hkey : (a.change id (.memberView { k with
        queued := queued
        shown := some details })).screens.keyAt ViewController.place id =
          some (.memberView k.chatId k.memberId) := by
      have hlength := (List.getElem?_eq_some_iff.mp hk).1
      simp [ObjectStacks.Heap.keyAt, ObjectStacks.Heap.update, hlength, ViewController.place]
    rw [bar_recolour_of_alone hkey (fun _ => rfl) halone' hne]
    exact hchanged j m colour htop hcolour halone'

end App

/-- **The messages screen shows the colour of its chat, regardless of the screens after it.** In
every reachable state, rejected writes included, when a messages screen that knows the colour of its
chat is on top, the navigation bar has this colour, unless another messages screen or a member view
below it on the stack colours the bar, too. -/
theorem bar_shows_chat_colour {contains : String → String → Bool} {owner : ClientId → Email}
    {s : Running} (hs : s.ReachableWithRejections contains owner) {c : ClientId} {id : ℕ}
    {k : MessagesController} {colour : String}
    (htop : (s.apps c).screens.top = some (id, .messages k)) (hcolour : k.chatColour = some colour)
    (halone : (s.apps c).ColoursAlone id) : (s.apps c).bar = .colour colour := by
  have hall : ∀ c, (s.apps c).BarRight := by
    refine Runs.Reachable.invariant (I := fun u : Running => ∀ c, (u.apps c).BarRight) hs ?_ ?_
    · intro c id k colour htop _ _
      cases htop
    · intro u v e _ hu _ hstep
      rcases Running.step_cases hstep with ⟨_, _, _, _, _, rfl⟩ |
        ⟨d, e', deviceTime, reaction, now, _, _, hhandle, _, rfl⟩
      · exact hu
      · refine (Function.forall_update_iff u.apps (p := fun _ a => App.BarRight a)).mpr ?_
        exact ⟨(hu d).handle hhandle, fun c _ => hu c⟩
  exact hall c id k colour htop hcolour halone

/-- The messages screen on top: its reference, its colour, and whether it colours the bar alone. -/
def App.topColour (a : App) : Option (ℕ × Option String × Bool) :=
  match a.screens.top with
  | some (id, .messages k) => some (id, k.chatColour, a.screens.stack.all fun j =>
      j = id || !((a.screens.keyAt ViewController.place j).elim false Place.coloursBar))
  | _ => none

/-- `ann` comes back from the settings of her chat to its messages. -/
theorem bar_shows_chat_colour_to_ann : ∃ s : Running,
    Runs.run (Running.step fun _ _ => true) (Running.init sampleOwner)
      (Running.sampleTaps.take 10 ++
        [.app 0 (.tap (.segue .showChatSettings)) 2, .app 0 (.tap .back) 2]) = some s ∧
    (s.apps 0).bar = .colour "00CD42" := by
  have hrun : (Runs.run (Running.step fun _ _ => true) (Running.init sampleOwner)
      (Running.sampleTaps.take 10 ++
        [.app 0 (.tap (.segue .showChatSettings)) 2, .app 0 (.tap .back) 2])).map
          (fun s => (s.apps 0).topColour) = some (some (4, some "00CD42", true)) := by
    decide
  obtain ⟨s, hs, htop⟩ := Option.map_eq_some_iff.mp hrun
  have hreachable : s.ReachableWithRejections (fun _ _ => true) sampleOwner :=
    Runs.Reachable.of_run (fun _ _ => trivial) hs
  refine ⟨s, hs, ?_⟩
  unfold App.topColour at htop
  split at htop
  case h_2 => cases htop
  case h_1 id k hscreen =>
    obtain ⟨rfl, hrest⟩ := Prod.mk.inj (Option.some.inj htop)
    obtain ⟨hcolour, hall⟩ := Prod.mk.inj hrest
    refine bar_shows_chat_colour hreachable hscreen hcolour ?_
    intro j hj u hu hbar
    have hone := List.all_eq_true.mp hall j hj
    rw [hu] at hone
    simpa [hbar] using hone

end MessagingApp
