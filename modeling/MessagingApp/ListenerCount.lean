import MessagingApp.MembersScreen
import MessagingApp.Transcript

/-!
# How many listeners an open screen has

The closures of `loadUserOptions` and `loadValidMembers` call `loadMessages` and
`loadMembers` on each of their snapshots, and these register a listener each time.
The app keeps no registration and removes none. This file counts the listeners of
an open messages screen and of an open members screen from what the two closures
say they call, and shows what a change costs once there are many.
-/

namespace MessagingApp

/-! ## What the closures register -/

/-- The closure of `loadUserOptions` calls `loadMessages` once on a snapshot and not on an
error. -/
theorem transcriptProgram_registersOne (chat : ChatId) : (transcriptProgram chat).RegistersOne where
  ok := by
    intro documents screen t n h
    obtain ⟨rfl, rfl⟩ := Prod.mk.inj (Option.some.inj h)
    simp [MessagesScreen.loadUserOptions]
  error := by
    intro error screen t n h
    obtain ⟨rfl, rfl⟩ := Prod.mk.inj (Option.some.inj h)
    simp [MessagesScreen.loadUserOptions]

/-- The closure of `loadValidMembers` calls `loadMembers` once on a snapshot that it can read and
not on an error. -/
theorem membersProgram_registersOne (chat : ChatId) : (membersProgram chat).RegistersOne where
  ok := by
    intro document screen t n h
    obtain ⟨handled, hhandled, h⟩ := Option.map_eq_some_iff.mp h
    obtain ⟨d, users, _, _, rfl⟩ := loadValidMembers_eq_some.mp hhandled
    obtain ⟨rfl, rfl⟩ := Prod.mk.inj h
    simp
  error := by
    intro error screen t n h
    obtain ⟨rfl, rfl⟩ := Prod.mk.inj (Option.some.inj h)
    simp

/-! ## What a callback rebuilds -/

/-- A callback of any `loadMessages` listener replaces all messages of the screen. -/
theorem rebuilds_messages {chat : ChatId} {c c' : TranscriptRun} {k j : ℕ}
    (h : (transcriptProgram chat).next c (.inner k j) = some c') : ∃ v ∈ c.versions,
      (messagesOf chat v.db).mapM MessagesScreen.readMessage = some c'.screen.messages := by
  obtain ⟨_, v, screen, hv, hscreen, rfl⟩ := NestedListeners.Program.inner_eq_some h
  obtain ⟨messages, hmessages, rfl⟩ := MessagesScreen.mapM_of_loadMessages hscreen
  refine ⟨v, List.mem_of_getElem? hv, ?_⟩
  rw [MessagesScreen.rebuilt_messages]
  exact hmessages

/-- A callback of any `loadMembers` listener replaces all members of the screen. -/
theorem rebuilds_members {chat : ChatId} {c c' : MembersRun} {k j : ℕ}
    (h : (membersProgram chat).next c (.inner k j) = some c') : ∃ v ∈ c.versions, ∃ members,
      (usersOf chat v.db).mapM chatMember = some members ∧
        c'.screen.chatMembers = members.filter (isValidMember c.screen.chatMemberArray) := by
  obtain ⟨_, v, screen, hv, hscreen, rfl⟩ := NestedListeners.Program.inner_eq_some h
  obtain ⟨members, hmembers, rfl⟩ := loadMembers_eq_some.mp hscreen
  exact ⟨v, List.mem_of_getElem? hv, members, hmembers, rfl⟩

/-! ## The count -/

section count

open NestedListeners (Config Program)

variable {W E O I L S : Type}

/-- What the listeners of a screen do over the runs that start when it is opened. -/
structure OneListenerPerCallback (P : Program W E O I L S) (opened : Config W O I S) : Prop where
  /-- As many inner listeners are active as the outer one was handed snapshots. -/
  active : ∀ es c, Runs.run P.next opened es = some c →
    c.innerSeen.length = es.countP NestedListeners.Event.isOuter
  /-- When the followed content is new to all inner listeners and the world stands still, at
  least as many of their callbacks run before none has anything new to be told. -/
  rebuilds : ∀ es c, Runs.run P.next opened es = some c →
    (∀ i, some i ∈ c.innerSeen → i.content ≠ P.inner c.now) →
    ∀ fs c', (∀ e ∈ fs, e.isWorld = false) → Runs.run P.next c fs = some c' → P.Settled c' →
      es.countP NestedListeners.Event.isOuter ≤
        (fs.filterMap NestedListeners.Event.listener?).length

/-- A screen is opened without inner listeners, and its closures decide how many it gets. -/
theorem OneListenerPerCallback.of_registersOne {P : Program W E O I L S}
    (hP : P.RegistersOne) (w : W) (screen : S) : OneListenerPerCallback P (.opened w screen) := by
  have hactive : ∀ es c, Runs.run P.next (.opened w screen) es = some c →
      c.innerSeen.length = es.countP NestedListeners.Event.isOuter := by
    intro es c hrun
    have hlength := Program.innerSeen_length_run hP hrun
    simpa [Config.opened] using hlength
  constructor
  case active => exact hactive
  case rebuilds =>
    intro es c hrun hnew fs c' hworld hrun' hsettled
    rw [← hactive es c hrun]
    exact Program.callbacks_of_settled hrun' hworld hsettled hnew

end count

/-- **Listeners are as many as snapshots.** A `MessagesManager` has as many listeners on the
messages of the chat as snapshots of the member documents its `loadUserOptions` closure was
handed, and a `GroupMembersModel` as many on the member documents as snapshots of the chat
document its `loadValidMembers` closure was handed, whatever errors came in between. A change
runs the callbacks of all of them, and each callback rebuilds the whole list. -/
theorem oneListenerPerSnapshot (chat : ChatId) (s : System) :
    OneListenerPerCallback (transcriptProgram chat) (.opened s {}) ∧
      OneListenerPerCallback (membersProgram chat) (.opened s {}) ∧
      (∀ (c c' : TranscriptRun) k j, (transcriptProgram chat).next c (.inner k j) = some c' →
        ∃ v ∈ c.versions,
          (messagesOf chat v.db).mapM MessagesScreen.readMessage = some c'.screen.messages) ∧
      ∀ (c c' : MembersRun) k j, (membersProgram chat).next c (.inner k j) = some c' →
        ∃ v ∈ c.versions, ∃ members, (usersOf chat v.db).mapM chatMember = some members ∧
          c'.screen.chatMembers = members.filter (isValidMember c.screen.chatMemberArray) := by
  refine ⟨?_, ?_, ?_, ?_⟩
  · exact .of_registersOne (transcriptProgram_registersOne chat) s {}
  · exact .of_registersOne (membersProgram_registersOne chat) s {}
  · exact fun c c' k j => rebuilds_messages
  · exact fun c c' k j => rebuilds_members

/-- `ann` chooses a colour for `bob` while a messages screen is open on their chat. -/
def colourWhileOpen : List (NestedListeners.Event Event ℕ) :=
  [.outer 0, .inner 0 0, .world (.call 0 (.updateUserColour "tea" "bob" "FF54C0")),
   .world (.commit 0 5), .outer 2]

/-- `bob` sends a message while a members screen is open on the chat. -/
def messageWhileOpen : List (NestedListeners.Event Event Empty) :=
  [.outer 0, .inner 0 0, .world (.call 1 (.sendMessage "tea" "m2" "tea?")),
   .world (.commit 1 5), .world (.complete 1 ⟨"tea", "m2"⟩), .world (.commit 1 6), .outer 4,
   .inner 0 4, .inner 1 4]

/-- Then `ann` chooses a colour for `bob`, and every listener is told. -/
def colourAfterMessage : List (NestedListeners.Event Event Empty) :=
  [.world (.call 0 (.updateUserColour "tea" "bob" "FF54C0")), .world (.commit 0 7),
   .inner 0 6, .inner 1 6]

/-- **Listeners pile up.** One change of a member's colour gives the open messages screen a
second listener on the messages. One message of another user gives the open members screen a
second listener on the member documents, and the next change of these rebuilds the list
twice. -/
theorem listeners_pile_up :
    (∃ c : TranscriptRun, c.Reachable "tea" ∧ c.innerSeen.length = 2) ∧
      ∃ c c' : MembersRun, c.Reachable "tea" ∧
        c.innerSeen.map NestedListeners.cursor = [4, 4] ∧
        Runs.run (membersProgram "tea").next c colourAfterMessage = some c' ∧
        c'.innerSeen.map NestedListeners.cursor = [6, 6] := by
  have hruns : (System.runFromInit System.sampleSession).bind (fun s =>
      (Runs.run (transcriptProgram "tea").next (.opened s {}) colourWhileOpen).bind fun c =>
        (Runs.run (membersProgram "tea").next (.opened s {}) messageWhileOpen).bind fun d =>
          (Runs.run (membersProgram "tea").next d colourAfterMessage).map fun d' =>
            decide (DocPath.chat "tea" ∈ s.db ∧ c.innerSeen.length = 2 ∧
              d.innerSeen.map NestedListeners.cursor = [4, 4] ∧
              d'.innerSeen.map NestedListeners.cursor = [6, 6])) = some true := by
    decide
  obtain ⟨s, hs, hruns⟩ := Option.bind_eq_some_iff.mp hruns
  obtain ⟨c, hc, hruns⟩ := Option.bind_eq_some_iff.mp hruns
  obtain ⟨d, hd, hruns⟩ := Option.bind_eq_some_iff.mp hruns
  obtain ⟨d', hd', hfacts⟩ := Option.map_eq_some_iff.mp hruns
  obtain ⟨hstored, hlength, hbefore, hafter⟩ := of_decide_eq_true hfacts
  have hreachable : s.Reachable := Runs.Reachable.of_run (by decide) hs
  constructor
  · refine ⟨c, ⟨s, hreachable, Runs.Reachable.of_run ?_ hc⟩, hlength⟩
    simp [colourWhileOpen, NestedListeners.Event.Admits, Event.accepted]
  · refine ⟨d, d', ⟨s, hreachable, hstored, Runs.Reachable.of_run ?_ hd⟩, hbefore, hd', hafter⟩
    simp [messageWhileOpen, NestedListeners.Event.Admits, Event.accepted]

end MessagingApp
