import MessagingApp.Library.PartialLoops
import MessagingApp.Library.Runs
import MessagingApp.Screens
import Mathlib.Data.List.Infix

/-!
# The list of the add-user screen

`loadUsers` fetches all profiles once, and `textFieldDidChange` filters what was
fetched. Both write `possibleUsers`, and the request may complete before or after
any edit. This file determines in which runs the list agrees with the search field.
-/

namespace MessagingApp

/-! ## The screen -/

/-- `AddUserManager` and the search field and table of `AddUserViewController`. -/
structure AddUserScreen where
  searchText : String := ""
  totalUsers : List User := []
  possibleUsers : List User := []
  /-- What the table was last reloaded with. -/
  rows : List User := []
  /-- The request of `loadUsers` has not completed. -/
  loading : Bool := true

/-- What can happen on the screen after `viewDidLoad`. -/
inductive AddUserEvent
  /-- The user edits the search field, which now holds `text`. -/
  | textFieldDidChange (text : String)
  /-- The request of `loadUsers` completes. -/
  | loadUsers (result : Snapshot (List QueryDocument))

namespace AddUserScreen

/-- `AddUserManagerDelegate.updateTableView`. -/
def updateTableView (s : AddUserScreen) : AddUserScreen := { s with rows := s.possibleUsers }

/-- The completion of `AddUserManager.loadUsers`. -/
def loadUsers (result : Snapshot (List QueryDocument)) (s : AddUserScreen) : AddUserScreen :=
  match result with
  | .error _ => s
  | .ok documents =>
    let totalUsers := s.totalUsers ++ documents.map listedUser
    updateTableView { s with totalUsers := totalUsers, possibleUsers := totalUsers }

/-- `tableView(_:cellForRowAt:)`: the two labels of a cell. -/
def cellForRowAt (row : ℕ) (s : AddUserScreen) : Option (Option String × Option String) :=
  s.possibleUsers[row]?.map fun user => (user.email, user.name)

/-- `tableView(_:didSelectRowAt:)`: the writes a tap on a row issues. -/
def didSelectRowAt (chatId : Option ChatId) (row : ℕ) (s : AddUserScreen) :
    Option (List Write) :=
  s.possibleUsers[row]?.bind (addNewUser chatId)

section search

-- `contains email text` is what `email.contains(text)` answers.
variable (contains : String → String → Bool)

/-- `AddUserManager.updatePossibleUsers`, which unwraps the email of every user it tests. -/
def updatePossibleUsers (searchValue : String) (s : AddUserScreen) : Option AddUserScreen := do
  let possibleUsers ←
    if searchValue = "" then some s.totalUsers
    else s.totalUsers.filterM fun user => user.email.map (contains · searchValue)
  return updateTableView { s with possibleUsers := possibleUsers }

/-- One step; `none` when the event cannot happen or the app traps. -/
def next (s : AddUserScreen) : AddUserEvent → Option AddUserScreen
  | .textFieldDidChange text => updatePossibleUsers contains text { s with searchText := text }
  | .loadUsers result =>
    if s.loading then some (loadUsers result { s with loading := false }) else none

/-- The user is to be listed for a search text. -/
def found (searchValue : String) (user : User) : Bool :=
  searchValue == "" || user.email.any (contains · searchValue)

/-- The list is what the search field asks for, and the table shows the list. -/
structure MatchesSearch (s : AddUserScreen) : Prop where
  possibleUsers : s.possibleUsers = s.totalUsers.filter (found contains s.searchText)
  rows : s.rows = s.possibleUsers

/-- When profiles arrive, the search field asks for all of them. -/
def KeepsMatch (s : AddUserScreen) : AddUserEvent → Prop
  | .loadUsers (.ok documents) =>
    ∀ document ∈ documents, found contains s.searchText (listedUser document) = true
  | _ => True

end search

end AddUserScreen

/-! ## What holds in every run -/

/-- The users have emails, the table shows the list, and nothing is listed while the request
is unanswered. -/
structure AddUserScreen.Sound (s : AddUserScreen) : Prop where
  named : ∀ user ∈ s.totalUsers, ∃ email, user.email = some email
  rows : s.rows = s.possibleUsers
  empty : s.loading = true → s.totalUsers = []

namespace AddUserScreen

variable {contains : String → String → Bool} {s t : AddUserScreen}

/-- The screen after `viewDidLoad`. -/
theorem Sound.opened : Sound {} where
  named user huser := by simp at huser
  rows := rfl
  empty _ := rfl

/-- With an email in every user the filter does not trap, and it lists the users to be
found. -/
theorem updatePossibleUsers_eq (hs : s.Sound) (searchValue : String) :
    updatePossibleUsers contains searchValue s = some (updateTableView
      { s with possibleUsers := s.totalUsers.filter (found contains searchValue) }) := by
  by_cases hempty : searchValue = ""
  · have hall : s.totalUsers.filter (found contains searchValue) = s.totalUsers := by
      rw [List.filter_eq_self]
      intro user _
      simp [found, hempty]
    rw [hall]
    simp [updatePossibleUsers, hempty]
  · have htest : ∀ user ∈ s.totalUsers, user.email.map (contains · searchValue) =
        some (found contains searchValue user) := by
      intro user huser
      obtain ⟨email, hemail⟩ := hs.named user huser
      simp [found, hemail, hempty]
    have hfilter := PartialLoops.filterM_eq_filter htest
    simp [updatePossibleUsers, hempty, hfilter]

/-- What a step does. -/
theorem next_cases {e : AddUserEvent} (hs : s.Sound) (h : next contains s e = some t) :
    (∃ text, e = .textFieldDidChange text ∧ t = updateTableView { s with
        searchText := text
        possibleUsers := s.totalUsers.filter (found contains text) }) ∨
    (∃ error, e = .loadUsers (.error error) ∧ t = { s with loading := false }) ∨
    (∃ documents, e = .loadUsers (.ok documents) ∧ s.totalUsers = [] ∧
      t = updateTableView { s with
        totalUsers := documents.map listedUser
        possibleUsers := documents.map listedUser
        loading := false }) := by
  cases e with
  | textFieldDidChange text =>
    have hedited : Sound { s with searchText := text } := ⟨hs.named, hs.rows, hs.empty⟩
    rw [next, updatePossibleUsers_eq hedited] at h
    exact .inl ⟨text, rfl, (Option.some.inj h).symm⟩
  | loadUsers result =>
    rw [next] at h
    split at h
    case isFalse => cases h
    case isTrue hloading =>
      have hnone := hs.empty hloading
      have ht := (Option.some.inj h).symm
      cases result with
      | error error => exact .inr (.inl ⟨error, rfl, ht⟩)
      | ok documents =>
        refine .inr (.inr ⟨documents, rfl, hnone, ?_⟩)
        simpa [loadUsers, hnone] using ht

theorem Sound.next {e : AddUserEvent} (hs : s.Sound)
    (h : AddUserScreen.next contains s e = some t) : t.Sound := by
  rcases next_cases hs h with ⟨text, _, rfl⟩ | ⟨error, _, rfl⟩ | ⟨documents, _, _, rfl⟩
  · exact ⟨hs.named, rfl, hs.empty⟩
  · refine ⟨hs.named, hs.rows, ?_⟩
    intro hloading
    cases hloading
  · constructor
    case named =>
      intro user huser
      obtain ⟨document, _, rfl⟩ := List.mem_map.mp huser
      exact ⟨document.documentID, rfl⟩
    case rows => rfl
    case empty =>
      intro hloading
      cases hloading

/-- Every state of a run is sound. -/
theorem sound_of_reachable
    (hs : Runs.Reachable (AddUserScreen.next contains) (fun _ => True) {} s) : s.Sound :=
  hs.invariant .opened (fun _ _ _ _ hu _ h => hu.next h)

/-- No edit traps. -/
theorem exists_next_textFieldDidChange
    (hs : Runs.Reachable (AddUserScreen.next contains) (fun _ => True) {} s) (text : String) :
    ∃ t, AddUserScreen.next contains s (.textFieldDidChange text) = some t := by
  have hsound := sound_of_reachable hs
  have hedited : Sound { s with searchText := text } :=
    ⟨hsound.named, hsound.rows, hsound.empty⟩
  exact ⟨_, updatePossibleUsers_eq hedited text⟩

/-- **The row tapped is the user shown**, in every run: the writes are those of adding the
user the table was last reloaded with. -/
theorem didSelectRowAt_eq
    (hs : Runs.Reachable (AddUserScreen.next contains) (fun _ => True) {} s)
    (chatId : Option ChatId) (row : ℕ) :
    s.didSelectRowAt chatId row = s.rows[row]?.bind (addNewUser chatId) ∧
      s.cellForRowAt row = s.rows[row]?.map fun user => (user.email, user.name) := by
  have hrows := (sound_of_reachable hs).rows
  constructor
  · rw [didSelectRowAt, hrows]
  · rw [cellForRowAt, hrows]

/-! ## When the list agrees with the search field -/

/-- A list is what a search text asks for exactly when all of it is found. -/
theorem eq_filter_found_iff {users : List User} {text : String} :
    users = users.filter (found contains text) ↔
      ∀ user ∈ users, found contains text user = true := by
  rw [eq_comm]
  exact List.filter_eq_self

/-- A step from a matching state leads to a matching state exactly when it keeps the match. -/
theorem matchesSearch_next_iff {e : AddUserEvent} (hs : s.Sound)
    (hmatch : MatchesSearch contains s) (h : AddUserScreen.next contains s e = some t) :
    MatchesSearch contains t ↔ KeepsMatch contains s e := by
  rcases next_cases hs h with ⟨text, rfl, rfl⟩ | ⟨error, rfl, rfl⟩ | ⟨documents, rfl, _, rfl⟩
  · -- An edit filters by the new text, whatever the list was before.
    exact iff_of_true ⟨rfl, rfl⟩ trivial
  · exact iff_of_true ⟨hmatch.possibleUsers, hmatch.rows⟩ trivial
  · have hkeeps : KeepsMatch contains s (.loadUsers (.ok documents)) ↔
        ∀ user ∈ documents.map listedUser, found contains s.searchText user = true := by
      rw [List.forall_mem_map]
      exact Iff.rfl
    rw [hkeeps, ← eq_filter_found_iff]
    constructor
    · intro hlisted
      exact hlisted.possibleUsers
    · intro hall
      exact ⟨hall, rfl⟩

/-- **When the list agrees with the search field.** It does so in every state of a run exactly
when the profiles arrive while the search field is empty or its text occurs in the email of
every one of them. -/
theorem matchesSearch_along_iff (contains : String → String → Bool) (es : List AddUserEvent) :
    Runs.Along (AddUserScreen.next contains) (MatchesSearch contains) {} es ↔
      Runs.Guarded (AddUserScreen.next contains) (KeepsMatch contains) {} es :=
  Runs.along_iff_guarded (fun _ _ _ hu h => Sound.next hu h)
    (fun _ _ _ hu hmatch h => matchesSearch_next_iff hu hmatch h) .opened ⟨rfl, rfl⟩ es

/-- A profile with the fields registration gives it. -/
def sampleProfile (email : Email) : QueryDocument :=
  ⟨email, DocumentStore.assign (FieldValue.eval 0) (fun _ => none) (registerProfile email).data⟩

/-- `email.contains(text)` on texts whose characters have no other canonical form. -/
def containsText (email text : String) : Bool := decide (text.toList <:+: email.toList)

/-- The search field says `bob` when the profiles arrive, and the table lists `ann` as well. -/
theorem not_matchesSearch_of_late_load : ∃ s : AddUserScreen,
    Runs.run (AddUserScreen.next containsText) {} [.textFieldDidChange "bob",
      .loadUsers (.ok [sampleProfile "ann@example.com", sampleProfile "bob@example.com"])] =
        some s ∧
      s.searchText = "bob" ∧
      s.rows.map User.email = [some "ann@example.com", some "bob@example.com"] ∧
      ¬ MatchesSearch containsText s := by
  have hedit : AddUserScreen.next containsText {} (.textFieldDidChange "bob") =
      some { searchText := "bob" } := updatePossibleUsers_eq ⟨by simp, rfl, fun _ => rfl⟩ "bob"
  refine ⟨_, by rw [Runs.run_cons, hedit]; rfl, rfl, rfl, ?_⟩
  intro hmatch
  have hall := eq_filter_found_iff.mp hmatch.possibleUsers
  have hann := hall (listedUser (sampleProfile "ann@example.com")) List.mem_cons_self
  revert hann
  decide

end AddUserScreen

end MessagingApp
