import MessagingApp.Library.Runs
import MessagingApp.Writers
import Mathlib.Data.List.Infix

/-!
# Profiles of registered accounts

`registerButtonPressed` calls `createUser` with the text of the email field, and
the completion reads the field again to write the profile. In between the field can
be edited and the button pressed again. This file determines in which runs every
account gets the profile that belongs to it.
-/

namespace MessagingApp

/-! ## Document references -/

/-- `ResourcePath::FromString`: the segments of a path, where a slash at either end is
ignored and two slashes in a row fail an assertion. -/
def resourcePath (path : String) : Option (List String) :=
  if ['/', '/'] <:+: path.toList then none
  else some (((path.toList.splitOn '/').filter (· ≠ [])).map String.ofList)

/-- `CollectionReference::Document`: the segments of the reference, which fails unless their
number is even. -/
def documentReference (collection : List String) (documentPath : String) :
    Option (List String) := do
  let subPath ← resourcePath documentPath
  let path := collection ++ subPath
  if path.length % 2 = 0 then some path else none

/-- The text is the name of a document: it is not empty and has no slash. -/
def NamesDocument (text : String) : Prop := text ≠ "" ∧ '/' ∉ text.toList

/-! ## The screen -/

/-- What `createUser` is called with. -/
structure Credentials where
  email : String
  password : String
  deriving DecidableEq

/-- The call of `setData` for a profile. -/
structure ProfileWrite where
  path : List String
  data : List (Field × FieldValue)

/-- A completion of `createUser` that reported success: the address `createUser` was called
with, and the profile the completion wrote. It wrote none when it trapped. -/
structure Completion where
  email : String
  written : Option ProfileWrite

/-- `RegisterViewController` and the accounts of Firebase Auth. -/
structure RegisterScreen where
  emailText : String := ""
  passwordText : String := ""
  /-- The calls of `createUser` that are not answered. -/
  requests : List Credentials := []
  /-- The addresses that have an account. -/
  accounts : List String
  /-- The addresses of the calls that created an account and whose completion has not run. -/
  created : List String := []
  /-- The completions that ran and reported success, oldest first. -/
  completed : List Completion := []

/-- What can happen while the screen is there. -/
inductive RegisterEvent
  | editEmail (text : String)
  | editPassword (text : String)
  | registerButtonPressed
  /-- Firebase Auth creates the account of a call. -/
  | accountCreated (request : Credentials)
  /-- An account is created from another device. -/
  | accountCreatedElsewhere (email : String)
  /-- The completion of a call runs without an error. -/
  | createUserSucceeded (email : String)
  /-- The completion of a call runs with an error, which it prints. -/
  | createUserFailed (request : Credentials)

namespace RegisterScreen

/-- The screen is opened while some addresses have accounts. -/
def opened (accounts : List String) : RegisterScreen := { accounts := accounts }

/-- The profile the completion of `createUser` writes. Its path and its data come from the
text the email field holds by then. -/
def profileWrite (s : RegisterScreen) : Option ProfileWrite :=
  (documentReference ["users"] s.emailText).map fun path =>
    ⟨path, (registerProfile s.emailText).data⟩

/-- A completion trapped, which ended the app. -/
def trapped (s : RegisterScreen) : Bool := s.completed.any fun c => c.written.isNone

/-- One step; `none` when the event cannot happen. -/
def next (s : RegisterScreen) (e : RegisterEvent) : Option RegisterScreen :=
  if s.trapped then none
  else
    match e with
    | .editEmail text => some { s with emailText := text }
    | .editPassword text => some { s with passwordText := text }
    -- The text of a text field is never nil, so both bindings of the button succeed.
    | .registerButtonPressed =>
      some { s with requests := s.requests ++ [⟨s.emailText, s.passwordText⟩] }
    | .accountCreated request =>
      if request ∈ s.requests ∧ request.email ∉ s.accounts then
        some { s with
          requests := s.requests.erase request
          accounts := s.accounts ++ [request.email]
          created := s.created ++ [request.email] }
      else none
    | .accountCreatedElsewhere email =>
      if email ∉ s.accounts then some { s with accounts := s.accounts ++ [email] } else none
    | .createUserSucceeded email =>
      if email ∈ s.created then
        some { s with
          created := s.created.erase email
          completed := s.completed ++ [⟨email, s.profileWrite⟩] }
      else none
    | .createUserFailed request =>
      if request ∈ s.requests then
        some { s with requests := s.requests.erase request }
      else none

end RegisterScreen

/-- The completion wrote the profile of the address `createUser` was called with. -/
def Completion.Tied (c : Completion) : Prop :=
  ∃ w, c.written = some w ∧ w.path = ["users", c.email] ∧
    (.email, .value (.string c.email)) ∈ w.data

/-- The profiles written so far are those of the accounts. -/
structure TiesProfiles (s : RegisterScreen) : Prop where
  tied : ∀ c ∈ s.completed, c.Tied
  /-- No profile is written under an address that has no account. -/
  owned : ∀ c ∈ s.completed, ∀ w, c.written = some w → ∃ a ∈ s.accounts, w.path = ["users", a]
  /-- Two registrations never write the same profile. -/
  distinct : s.completed.Pairwise fun c c' =>
    ∀ w w', c.written = some w → c'.written = some w' → w.path ≠ w'.path

/-- When a registration succeeds, the email field still holds its address, and the address is
the name of a document. -/
def KeepsAddress (s : RegisterScreen) : RegisterEvent → Prop
  | .createUserSucceeded email => s.emailText = email ∧ NamesDocument email
  | _ => True

/-! ## References of profiles -/

/-- No part of a split list contains the separator. -/
theorem separator_notMem_of_mem_splitOn {α : Type} [BEq α] [LawfulBEq α] {sep : α} {xs : List α} :
    ∀ part ∈ xs.splitOn sep, sep ∉ part := by
  induction xs with
  | nil => simp
  | cons x xs ih =>
    rw [List.splitOn_cons_eq_if_modifyHead]
    split
    case isTrue =>
      intro part hpart
      rcases List.mem_cons.mp hpart with rfl | hpart
      · exact List.not_mem_nil
      · exact ih part hpart
    case isFalse hne =>
      cases hsplit : xs.splitOn sep with
      | nil => exact absurd hsplit (List.splitOn_ne_nil sep xs)
      | cons head tail =>
        rw [hsplit] at ih
        intro part hpart
        rcases List.mem_cons.mp hpart with rfl | hpart
        · have hhead := ih head List.mem_cons_self
          have hx : sep ≠ x := by
            rintro rfl
            exact hne BEq.rfl
          simp [hx, hhead]
        · exact ih part (List.mem_cons_of_mem head hpart)

/-- A segment of a resource path is the name of a document. -/
theorem namesDocument_of_mem_resourcePath {path : String} {segments : List String}
    (h : resourcePath path = some segments) : ∀ segment ∈ segments, NamesDocument segment := by
  unfold resourcePath at h
  split at h
  case isTrue => cases h
  case isFalse =>
    obtain rfl := Option.some.inj h
    intro segment hsegment
    obtain ⟨part, hpart, rfl⟩ := List.mem_map.mp hsegment
    obtain ⟨hsplit, hne⟩ := List.mem_filter.mp hpart
    have hslash := separator_notMem_of_mem_splitOn part hsplit
    constructor
    · intro hempty
      have hnil : part = [] := by simpa using congrArg String.toList hempty
      simp [hnil] at hne
    · simpa using hslash

/-- The name of a document is its own resource path. -/
theorem NamesDocument.resourcePath_eq {text : String} (h : NamesDocument text) :
    resourcePath text = some [text] := by
  obtain ⟨hne, hslash⟩ := h
  have hdouble : ¬ ['/', '/'] <:+: text.toList := fun hoccurs =>
    hslash (hoccurs.subset List.mem_cons_self)
  have hchars : text.toList ≠ [] := by simpa using hne
  rw [resourcePath, if_neg hdouble, List.splitOn_eq_singleton hslash]
  simp [hchars]

/-- A text refers to the profile of its own name exactly when it is the name of a document. -/
theorem documentReference_users_iff {text : String} :
    documentReference ["users"] text = some ["users", text] ↔ NamesDocument text := by
  constructor
  · intro h
    obtain ⟨segments, hsegments, hpath⟩ := Option.bind_eq_some_iff.mp h
    obtain ⟨_, hpath⟩ := Option.ite_none_right_eq_some.mp hpath
    obtain rfl : segments = [text] := by simpa using hpath
    exact namesDocument_of_mem_resourcePath hsegments text List.mem_cons_self
  · intro h
    simp [documentReference, h.resourcePath_eq]

/-! ## What a step can do -/

namespace RegisterScreen

variable {s t : RegisterScreen} {e : RegisterEvent}

/-- Only a successful completion writes a profile. Every other step keeps the completions, and
a created account is new and awaits its completion. -/
theorem next_cases (h : next s e = some t) :
    ((∀ email, e ≠ .createUserSucceeded email) ∧ t.completed = s.completed ∧
      (∀ a ∈ s.accounts, a ∈ t.accounts) ∧
      (t.created = s.created ∨
        ∃ email, email ∉ s.accounts ∧ email ∈ t.accounts ∧ t.created = s.created ++ [email])) ∨
    (∃ email, e = .createUserSucceeded email ∧ email ∈ s.created ∧ t = { s with
        created := s.created.erase email
        completed := s.completed ++ [⟨email, s.profileWrite⟩] }) := by
  unfold next at h
  split at h
  case isTrue => cases h
  case isFalse =>
    cases e with
    | editEmail text =>
      obtain rfl := Option.some.inj h
      exact .inl ⟨by simp, rfl, fun _ ha => ha, .inl rfl⟩
    | editPassword text =>
      obtain rfl := Option.some.inj h
      exact .inl ⟨by simp, rfl, fun _ ha => ha, .inl rfl⟩
    | registerButtonPressed =>
      obtain rfl := Option.some.inj h
      exact .inl ⟨by simp, rfl, fun _ ha => ha, .inl rfl⟩
    | accountCreated request =>
      obtain ⟨⟨_, hnew⟩, ht⟩ := Option.ite_none_right_eq_some.mp h
      obtain rfl := Option.some.inj ht
      exact .inl ⟨by simp, rfl, fun _ ha => List.mem_append_left _ ha,
        .inr ⟨request.email, hnew, by simp, rfl⟩⟩
    | accountCreatedElsewhere email =>
      obtain ⟨_, ht⟩ := Option.ite_none_right_eq_some.mp h
      obtain rfl := Option.some.inj ht
      exact .inl ⟨by simp, rfl, fun _ ha => List.mem_append_left _ ha, .inl rfl⟩
    | createUserSucceeded email =>
      obtain ⟨hmem, ht⟩ := Option.ite_none_right_eq_some.mp h
      exact .inr ⟨email, rfl, hmem, (Option.some.inj ht).symm⟩
    | createUserFailed request =>
      obtain ⟨_, ht⟩ := Option.ite_none_right_eq_some.mp h
      obtain rfl := Option.some.inj ht
      exact .inl ⟨by simp, rfl, fun _ ha => ha, .inl rfl⟩

/-- Each account made on this screen has one completion, still to run or run. -/
structure Sound (s : RegisterScreen) : Prop where
  created : ∀ a ∈ s.created, a ∈ s.accounts
  completed : ∀ c ∈ s.completed, c.email ∈ s.accounts
  nodup : (s.created ++ s.completed.map Completion.email).Nodup

theorem Sound.opened (accounts : List String) : Sound (opened accounts) where
  created a ha := by simp [RegisterScreen.opened] at ha
  completed c hc := by simp [RegisterScreen.opened] at hc
  nodup := .nil

theorem Sound.next (hs : s.Sound) (h : RegisterScreen.next s e = some t) : t.Sound := by
  rcases next_cases h with ⟨_, hcompleted, hkept, hcreated⟩ | ⟨email, rfl, hmem, rfl⟩
  · have hran : ∀ c ∈ t.completed, c.email ∈ t.accounts := by
      rw [hcompleted]
      exact fun c hc => hkept _ (hs.completed c hc)
    rcases hcreated with hcreated | ⟨email, hnew, howned, hcreated⟩
    · constructor
      case created =>
        rw [hcreated]
        exact fun a ha => hkept a (hs.created a ha)
      case completed => exact hran
      case nodup =>
        rw [hcreated, hcompleted]
        exact hs.nodup
    · constructor
      case created =>
        rw [hcreated]
        intro a ha
        rcases List.mem_append.mp ha with ha | ha
        · exact hkept a (hs.created a ha)
        · rwa [List.mem_singleton.mp ha]
      case completed => exact hran
      case nodup =>
        -- The address had no account, so no earlier call of this screen created it.
        have hfresh : email ∉ s.created ++ s.completed.map Completion.email := by
          intro hold
          rcases List.mem_append.mp hold with hold | hold
          · exact hnew (hs.created email hold)
          · obtain ⟨c, hc, rfl⟩ := List.mem_map.mp hold
            exact hnew (hs.completed c hc)
        have hperm : (t.created ++ t.completed.map Completion.email).Perm
            (email :: (s.created ++ s.completed.map Completion.email)) := by
          rw [hcreated, hcompleted, List.append_assoc]
          exact List.perm_middle
        exact hperm.nodup_iff.mpr (List.nodup_cons.mpr ⟨hfresh, hs.nodup⟩)
  · constructor
    case created => exact fun a ha => hs.created a (List.mem_of_mem_erase ha)
    case completed =>
      intro c hc
      rcases List.mem_append.mp hc with hc | hc
      · exact hs.completed c hc
      · rw [List.mem_singleton.mp hc]
        exact hs.created email hmem
    case nodup =>
      have hperm : (s.created.erase email ++
          (s.completed ++ [Completion.mk email s.profileWrite]).map Completion.email).Perm
            (s.created ++ s.completed.map Completion.email) := by
        rw [List.map_append, ← List.append_assoc]
        refine (List.perm_append_singleton email _).trans ?_
        exact (List.perm_cons_erase hmem).symm.append_right (s.completed.map Completion.email)
      exact hperm.nodup_iff.mpr hs.nodup

/-! ## When every profile belongs to its account -/

/-- A completion ties its profile exactly when the address is still in the field and names a
document. -/
theorem tied_profileWrite_iff {email : String} :
    (Completion.mk email s.profileWrite).Tied ↔ s.emailText = email ∧ NamesDocument email := by
  constructor
  · rintro ⟨w, hw, hpath, hdata⟩
    obtain ⟨path, hreference, rfl⟩ := Option.map_eq_some_iff.mp hw
    have htext : s.emailText = email := by simpa [registerProfile, eq_comm] using hdata
    obtain rfl : path = ["users", email] := hpath
    rw [htext] at hreference
    exact ⟨htext, documentReference_users_iff.mp hreference⟩
  · rintro ⟨rfl, hname⟩
    refine ⟨⟨["users", s.emailText], (registerProfile s.emailText).data⟩, ?_, rfl, ?_⟩
    · rw [profileWrite, documentReference_users_iff.mpr hname]
      rfl
    · simp [registerProfile]

/-- When every completion ties its profile, the profiles belong to accounts and differ. -/
theorem Sound.tiesProfiles_iff (hs : s.Sound) :
    TiesProfiles s ↔ ∀ c ∈ s.completed, c.Tied := by
  constructor
  · exact TiesProfiles.tied
  · intro htied
    have hpath : ∀ c ∈ s.completed, ∀ w, c.written = some w → w.path = ["users", c.email] := by
      intro c hc w hw
      obtain ⟨w', hw', hpath, _⟩ := htied c hc
      obtain rfl : w' = w := Option.some.inj (hw'.symm.trans hw)
      exact hpath
    constructor
    case tied => exact htied
    case owned => exact fun c hc w hw => ⟨c.email, hs.completed c hc, hpath c hc w hw⟩
    case distinct =>
      have hemails : s.completed.Pairwise fun c c' => c.email ≠ c'.email :=
        List.pairwise_map.mp (List.nodup_append'.mp hs.nodup).2.1
      refine hemails.imp_of_mem ?_
      intro c c' hc hc' hne w w' hw hw' heq
      rw [hpath c hc w hw, hpath c' hc' w' hw'] at heq
      exact hne (by simpa using heq)

/-- A step from a state whose profiles are tied leads to such a state exactly when it keeps the
address. -/
theorem tiesProfiles_next_iff (hs : s.Sound) (hties : TiesProfiles s)
    (h : RegisterScreen.next s e = some t) : TiesProfiles t ↔ KeepsAddress s e := by
  rw [(hs.next h).tiesProfiles_iff]
  rcases next_cases h with ⟨hother, hcompleted, _, _⟩ | ⟨email, rfl, _, rfl⟩
  · have hkeeps : KeepsAddress s e := by
      cases e with
      | createUserSucceeded email => exact absurd rfl (hother email)
      | _ => trivial
    rw [hcompleted]
    exact iff_of_true hties.tied hkeeps
  · rw [List.forall_mem_append, List.forall_mem_singleton, tied_profileWrite_iff]
    exact and_iff_right hties.tied

/-- **When registration ties the profile to the account.** Every completion writes the profile
of its own account, and no two write the same one, exactly when at each success the email
field still holds the address `createUser` was called with and this is the name of a
document. -/
theorem tiesProfiles_along_iff (accounts : List String) (es : List RegisterEvent) :
    Runs.Along RegisterScreen.next TiesProfiles (opened accounts) es ↔
      Runs.Guarded RegisterScreen.next KeepsAddress (opened accounts) es := by
  refine Runs.along_iff_guarded (fun _ _ _ hu h => Sound.next hu h)
    (fun _ _ _ hu hties h => tiesProfiles_next_iff hu hties h) (Sound.opened accounts) ?_ es
  rw [(Sound.opened accounts).tiesProfiles_iff]
  intro c hc
  simp [opened] at hc

/-- The field is edited while `createUser` is under way, and the account of `ann` gets the
profile of `bob`, who has none. -/
theorem not_tiesProfiles_of_edit : ∃ s : RegisterScreen,
    Runs.run RegisterScreen.next (opened [])
      [.editEmail "ann@example.com", .editPassword "secret", .registerButtonPressed,
       .editEmail "bob@example.com", .accountCreated ⟨"ann@example.com", "secret"⟩,
       .createUserSucceeded "ann@example.com"] = some s ∧
      s.accounts = ["ann@example.com"] ∧
      (∃ c ∈ s.completed, ∃ w, c.email = "ann@example.com" ∧ c.written = some w ∧
        w.path = ["users", "bob@example.com"] ∧
        (.email, .value (.string "bob@example.com")) ∈ w.data) ∧
      ¬ TiesProfiles s := by
  have hbob : documentReference ["users"] "bob@example.com" = some ["users", "bob@example.com"] :=
    documentReference_users_iff.mpr ⟨by decide, by decide⟩
  let profile : ProfileWrite :=
    ⟨["users", "bob@example.com"], (registerProfile "bob@example.com").data⟩
  let completion : Completion := ⟨"ann@example.com", some profile⟩
  refine ⟨{
    emailText := "bob@example.com"
    passwordText := "secret"
    accounts := ["ann@example.com"]
    completed := [completion] }, ?_, rfl, ?_, ?_⟩
  · simp [next, trapped, opened, profileWrite, hbob, completion, profile]
  · have hdata : (.email, .value (.string "bob@example.com")) ∈ profile.data := by
      simp [profile, registerProfile]
    exact ⟨completion, List.mem_cons_self, profile, rfl, rfl, rfl, hdata⟩
  · intro hties
    obtain ⟨w, hw, hpath, _⟩ := hties.tied completion List.mem_cons_self
    obtain rfl : profile = w := Option.some.inj hw
    revert hpath
    decide

end RegisterScreen

end MessagingApp
