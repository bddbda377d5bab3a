import MessagingApp.AppRefinement
import MessagingApp.Authorship

/-!
# Names of users' documents

The documents of users are named after email addresses, and `document(_:)` does not
take every text. An app that refers to a document under a refused text traps before
anything is written. So the names of all documents were taken once and are taken
whenever a screen refers to them again.
-/

namespace MessagingApp

/-- `document(_:)` takes the names of all documents that are stored or wait to be written. -/
structure System.Named (s : System) : Prop where
  stored : ∀ path ∈ s.db, path.Refers
  queued : ∀ c, ∀ p ∈ (s.clients c).queue, p.write.path.Refers

/-- A call writes under names that it refers to. -/
theorem Call.refers_of_writes {call : Call} {user : Option Email} {ws : List Write} {w : Write}
    (hws : call.writes user = some ws) (hw : w ∈ ws)
    (hrefers : ∀ path ∈ call.references user, path.Refers) : w.path.Refers := by
  cases call with
  | newChat ref name =>
    obtain ⟨email, rfl, rfl⟩ := newChat_eq_some.mp hws
    rcases List.mem_cons.mp hw with rfl | hw
    · trivial
    · obtain rfl := List.mem_singleton.mp hw
      exact hrefers (.member ref email) List.mem_cons_self
  | addNewUser chat u =>
    obtain ⟨email, name, hemail, _, rfl⟩ := addNewUser_eq_some.mp hws
    rcases List.mem_cons.mp hw with rfl | hw
    · trivial
    · obtain rfl := List.mem_singleton.mp hw
      exact hrefers (.member chat email) (by simp [Call.references, hemail])
  | updateUserName chat member _ | updateUserColour chat member _ =>
    obtain rfl := Option.some.inj hws
    obtain rfl := List.mem_singleton.mp hw
    exact hrefers (.member chat member) List.mem_cons_self
  | registerProfile emailText =>
    obtain rfl := Option.some.inj hws
    obtain rfl := List.mem_singleton.mp hw
    exact hrefers (.profile emailText) List.mem_cons_self
  | sendMessage chat id text =>
    obtain rfl := Option.some.inj hws
    cases user with
    | none => cases hw
    | some email =>
      obtain rfl := List.mem_singleton.mp hw
      trivial
  | removeFromChat | updateChatColour | updateChatLastActiveTimestamp =>
    obtain rfl := Option.some.inj hws
    obtain rfl := List.mem_singleton.mp hw
    trivial

namespace System

variable {s t : System} {e : Event}

/-- What is stored after an event was stored before, or waited. -/
theorem mem_db_of_perform (h : s.perform e = some t) {path : DocPath} (hpath : path ∈ t.db) :
    path ∈ s.db ∨ ∃ c, ∃ p ∈ (s.clients c).queue, p.write.path = path := by
  cases e with
  | signIn c account | signOut c =>
    obtain rfl := (Option.some.inj h).symm
    exact .inl hpath
  | register c account emailText =>
    obtain ⟨ws, _, rfl⟩ := issue_eq_some h
    exact .inl hpath
  | call c made =>
    obtain ⟨ws, _, rfl⟩ := issue_eq_some h
    exact .inl hpath
  | complete c m =>
    obtain ⟨ws, _, rfl⟩ := issue_eq_some (issue_of_complete h).2
    exact .inl hpath
  | reject c =>
    rw [(rejects_of_reject h).db_eq] at hpath
    exact .inl hpath
  | commit c now =>
    obtain ⟨p, rest, hcommit⟩ := commits_of_commit h
    rcases DocumentStore.Write.mem_of_mem_commit hcommit.commit_eq hpath with rfl | hold
    · exact .inr ⟨c, p, by simp [hcommit.queue_eq], rfl⟩
    · exact .inl hold

/-- **An event keeps the names**, unless it refers to a document under another one. -/
theorem Named.perform (hs : s.Named) (hrefers : e.Refers (s.clients e.client).currentUser)
    (h : s.perform e = some t) : t.Named where
  stored path hpath := by
    rcases mem_db_of_perform h hpath with hold | ⟨c, p, hp, rfl⟩
    · exact hs.stored path hold
    · exact hs.queued c p hp
  queued c p hp := by
    rcases mem_queue_of_perform h hp with hold | ⟨rfl, hmade, ws, hws, hw⟩
    · exact hs.queued c p hold
    · refine Call.refers_of_writes hws hw fun path hpath => hrefers p.origin hmade path ?_
      rw [(currentUser_of_perform h).1] at hpath
      cases e with
      | call c made => exact hpath
      | register | complete =>
        rw [← Option.some.inj hmade] at hpath ⊢
        exact hpath
      | signIn | signOut | commit | reject => cases hmade

end System

/-- Nothing refers to the documents of users in the background. -/
theorem Event.refers_of_background {e : Event} {deviceTime : Time} {user : Option Email}
    (h : (ReplicaEvent.act e deviceTime).background = true) : e.Refers user := by
  cases e with
  | complete c m =>
    rintro _ ⟨⟩ path hpath
    cases hpath
  | signOut | commit | reject =>
    rintro _ ⟨⟩
  | signIn | register | call => cases h

namespace Running

variable {contains : String → String → Bool} {owner : ClientId → Email} {s : Running}

/-- **The names of all documents are taken.** -/
theorem Reachable.named (hs : s.Reachable contains owner) : s.now.system.Named := by
  refine Runs.Reachable.invariant (I := fun u : Running => u.now.system.Named) hs ?_ ?_
  · constructor
    · intro path hpath
      cases hpath
    · intro c p hp
      cases hp
  · intro u v e _ hu _ hstep
    rcases step_cases hstep with ⟨e', r, _, hbackground, hr, rfl⟩ |
      ⟨c, e', deviceTime, reaction, now, _, _, _, hnow, rfl⟩
    · rcases Replicas.system_cases hr with ⟨e, deviceTime, rfl, _, hperform⟩ | ⟨hsystem, _⟩
      · exact hu.perform (Event.refers_of_background hbackground) hperform
      · rw [hsystem]
        exact hu
    · cases hrequest : reaction.request with
      | none =>
        rw [hrequest] at hnow
        obtain rfl := Option.some.inj hnow
        exact hu
      | some e =>
        rw [hrequest] at hnow
        obtain ⟨hrefers, hmap⟩ := Replicas.ask_eq_some.mp hnow
        obtain ⟨t, ht, rfl⟩ := Option.map_eq_some_iff.mp hmap
        rw [Replicas.follow_system]
        exact hu.perform hrefers ht

/-- `document(_:)` takes the names of the documents that a client is shown. -/
theorem Reachable.refers_of_mem_view (hs : s.Reachable contains owner) {c : ClientId}
    {path : DocPath} (hpath : path ∈ s.now.view c) : path.Refers := by
  rcases hs.sound.now_reachable.accepted.known_of_mem_view hpath with hstored | hqueued
  · exact hs.named.stored path hstored
  · obtain ⟨p, hp, rfl⟩ := List.mem_map.mp hqueued
    exact hs.named.queued c p hp

end Running

end MessagingApp
