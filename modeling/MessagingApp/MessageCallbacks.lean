import MessagingApp.MessagesTable

/-!
# Sequences of message callbacks

The listener of `loadMessages` clears the messages before it looks at the error and
reloads the table only inside its loop. This file determines for which sequences of
callbacks the messages and the table stay consistent.
-/

namespace MessagingApp

/-- A document of a snapshot, with the two fields that `loadMessages` casts. The time is read
as an optional and may be missing, as in the first snapshot after a message was sent. -/
structure MessageSnapshotDocument where
  document : QueryDocument
  text : ∃ text, stringField document.data .text = some text
  fromEmail : ∃ fromEmail, stringField document.data .fromEmail = some fromEmail

/-- What a messages listener is handed: an error, or any list of messages. -/
abbrev MessageCallback := Snapshot (List MessageSnapshotDocument)

namespace MessagesScreen

/-- The listener of `loadMessages` runs on a callback. -/
def handle (s : MessagesScreen) (callback : MessageCallback) : Option MessagesScreen :=
  s.loadMessages (callback.map fun documents => documents.map MessageSnapshotDocument.document)

/-- What should hold after a callback: an error leaves the messages as they were, the table
has loaded as many rows as there are messages, and the indices that `cellForRowAt` and
`loadMessageColour` use for a loaded row are within the messages. -/
structure ConsistentAfter (before : MessagesScreen) (callback : MessageCallback)
    (s : MessagesScreen) : Prop where
  error : ∀ e, callback = .error e → s.messages = before.messages
  rowCount : s.rowCount = s.messages.length
  rows : ∀ row < s.rowCount, (∃ message, s.messages[row]? = some message) ∧
    ∃ hexCode, s.loadMessageColour row = some hexCode

/-- Every callback of the sequence completes, without scrolling an empty table, and leaves the
screen consistent. -/
def ConsistentFrom (s : MessagesScreen) : List MessageCallback → Prop
  | [] => True
  | callback :: callbacks =>
    ∃ t, s.handle callback = some t ∧ ConsistentAfter s callback t ∧ t.ConsistentFrom callbacks

end MessagesScreen

/-- The callback is a snapshot with at least one message. -/
def MessageCallback.HasContent (callback : MessageCallback) : Prop :=
  ∃ d ds, callback = .ok (d :: ds)

namespace MessagesScreen

/-- A snapshot with messages shows them and reloads the table. -/
theorem handle_of_hasContent (s : MessagesScreen) {callback : MessageCallback}
    (h : callback.HasContent) : ∃ t, s.handle callback = some t ∧ t.messages ≠ [] ∧
      t.rowCount = t.messages.length := by
  obtain ⟨d, ds, rfl⟩ := h
  have hread : ∀ document ∈ (d :: ds).map MessageSnapshotDocument.document,
      ∃ message, readMessage document = some message := by
    intro document hdocument
    obtain ⟨d', _, rfl⟩ := List.mem_map.mp hdocument
    exact exists_readMessage d'.text d'.fromEmail
  obtain ⟨messages, hmessages⟩ := PartialLoops.exists_mapM hread
  have hlength := (PartialLoops.mapM_eq_some_iff.mp hmessages).length_eq
  have hne : messages ≠ [] := by
    rintro rfl
    simp at hlength
  exact ⟨s.rebuilt messages, s.loadMessages_ok hmessages, by simpa using hne,
    by simp [rebuilt_rowCount hne]⟩

/-- An error and an empty snapshot clear the messages and leave the table alone. -/
theorem handle_of_not_hasContent (s : MessagesScreen) {callback : MessageCallback}
    (h : ¬ callback.HasContent) : s.handle callback = some { s with messages := [] } := by
  cases callback with
  | error e => rfl
  | ok documents =>
    cases documents with
    | nil => rfl
    | cons d ds => exact absurd ⟨d, ds, rfl⟩ h

/-- In a table with one row per message the rows have messages. -/
theorem exists_message_of_lt {s : MessagesScreen} (h : s.rowCount = s.messages.length)
    {row : ℕ} (hrow : row < s.rowCount) : (∃ message, s.messages[row]? = some message) ∧
      ∃ hexCode, s.loadMessageColour row = some hexCode := by
  rw [h] at hrow
  have hmessage := List.getElem?_eq_getElem hrow
  have hcolour : s.loadMessageColour row =
      some (colourOf s.userOptions s.messages[row].fromEmail) := by
    simp [loadMessageColour, hmessage]
  exact ⟨⟨_, hmessage⟩, _, hcolour⟩

/-- Clearing the messages leaves a consistent screen exactly when there was nothing to lose. -/
theorem consistentAfter_cleared {s : MessagesScreen} (hs : s.rowCount = s.messages.length)
    (callback : MessageCallback) :
    ConsistentAfter s callback { s with messages := [] } ↔ s.messages = [] := by
  constructor
  · intro hafter
    have hrows : s.rowCount = 0 := hafter.rowCount
    exact List.length_eq_zero_iff.mp (hs.symm.trans hrows)
  · intro hnil
    have hrows : s.rowCount = 0 := by simp [hs, hnil]
    refine ⟨fun _ _ => hnil.symm, hrows, ?_⟩
    intro row hrow
    simp [hrows] at hrow

/-- From a screen whose table matches its messages, a sequence stays consistent exactly when no
callback without content comes after content, on the screen or in the sequence. -/
theorem consistentFrom_iff {s : MessagesScreen} (hs : s.rowCount = s.messages.length)
    (callbacks : List MessageCallback) :
    s.ConsistentFrom callbacks ↔
      callbacks.Pairwise (fun earlier later => earlier.HasContent → later.HasContent) ∧
        (s.messages ≠ [] → ∀ callback ∈ callbacks, callback.HasContent) := by
  induction callbacks generalizing s with
  | nil => simp [ConsistentFrom]
  | cons callback callbacks ih =>
    rw [List.pairwise_cons]
    by_cases hcontent : callback.HasContent
    · obtain ⟨t, ht, hne, hrows⟩ := s.handle_of_hasContent hcontent
      have hafter : ConsistentAfter s callback t := by
        refine ⟨?_, hrows, fun row => exists_message_of_lt hrows⟩
        rintro e rfl
        obtain ⟨d, ds, heq⟩ := hcontent
        cases heq
      have hrest : s.ConsistentFrom (callback :: callbacks) ↔ t.ConsistentFrom callbacks := by
        simp [ConsistentFrom, ht, hafter]
      rw [hrest, ih hrows]
      constructor
      · rintro ⟨hpairwise, hall⟩
        exact ⟨⟨fun later hlater _ => hall hne later hlater, hpairwise⟩,
          fun _ => List.forall_mem_cons.mpr ⟨hcontent, hall hne⟩⟩
      · rintro ⟨⟨hhead, hpairwise⟩, _⟩
        exact ⟨hpairwise, fun _ later hlater => hhead later hlater hcontent⟩
    · have hstep : s.ConsistentFrom (callback :: callbacks) ↔
          s.messages = [] ∧ { s with messages := [] }.ConsistentFrom callbacks := by
        simp [ConsistentFrom, s.handle_of_not_hasContent hcontent,
          consistentAfter_cleared hs callback]
      rw [hstep]
      constructor
      · rintro ⟨hnil, hrest⟩
        rw [ih (by simp [hs, hnil])] at hrest
        exact ⟨⟨fun _ _ h => absurd h hcontent, hrest.1⟩, fun hne => absurd hnil hne⟩
      · rintro ⟨⟨_, hpairwise⟩, hall⟩
        have hnil : s.messages = [] := by
          by_contra hne
          exact hcontent (hall hne callback List.mem_cons_self)
        refine ⟨hnil, (ih (by simp [hs, hnil])).mpr ⟨hpairwise, fun hne => absurd rfl hne⟩⟩

end MessagesScreen

/-- **When message callbacks stay consistent.** A sequence of callbacks on a fresh messages
screen stays consistent if and only if no error and no empty snapshot comes after a snapshot
with messages. -/
theorem callbacks_consistent_iff (callbacks : List MessageCallback) :
    MessagesScreen.ConsistentFrom {} callbacks ↔
      callbacks.Pairwise (fun earlier later => earlier.HasContent → later.HasContent) := by
  rw [MessagesScreen.consistentFrom_iff rfl]
  simp

/-- A message whose time the server has not set yet. -/
def helloDocument : MessageSnapshotDocument where
  document :=
    { documentID := "m1"
      data := fun
        | .text => some (.string "hello")
        | .fromEmail => some (.string "ann")
        | _ => none }
  text := ⟨"hello", rfl⟩
  fromEmail := ⟨"ann", rfl⟩

/-- **An error after a message loses it.** The table keeps its row, and the row has no
message. -/
theorem error_after_message_inconsistent :
    ¬ MessagesScreen.ConsistentFrom {} [.ok [helloDocument], .error "offline"] := by
  rintro ⟨s, hs, -, t, ht, hafter, -⟩
  obtain rfl := Option.some.inj hs
  obtain rfl := Option.some.inj ht
  exact absurd hafter.rowCount (by decide)

end MessagingApp
