import MessagingApp.ReadYourWrites

/-!
# The clients refine the system

The server-level model lets a screen act on any document that is stored or that
its client is about to create. This file justifies it: when the server accepts the
writes, whatever a client is shown is of this kind, so every run of the clients
over their own stores is a run of the server-level model, and its invariants hold
of what clients really do.
-/

namespace MessagingApp

/-- The first writes decide, and the later ones where there are none. -/
theorem StartsWithSet.append {ws ws' : List Write} (h : StartsWithSet ws)
    (h' : ws = [] → StartsWithSet ws') : StartsWithSet (ws ++ ws') := by
  cases ws with
  | nil => exact h' rfl
  | cons w ws => exact h

/-! ## What a client is shown is known to the system -/

/-- What holds in every state reached by accepted writes, the screens aside. -/
structure ReplicasAccepted (r : Replicas) : Prop where
  sound : ReplicasSound r
  reachable : r.system.Reachable
  accepted : ∀ c, ∀ a ∈ (r.stores c).answered, a.2 ≠ none
  committed : ∀ e ∈ r.history, Sourced e.write
  first : ∀ path, StartsWithSet ((serverWrites r.history path).map Prod.snd)

section accepted

variable {r r' : Replicas} {c : ClientId} {settled : ℕ} {base : DocPath → ℕ}

/-- The writes a client is shown are in the log of the server or in its queue. -/
theorem ReplicasAccepted.mem_made (hr : ReplicasAccepted r) (h : r.Explains c settled base)
    {path : DocPath} {w : Write} (hw : w ∈ r.made c settled base path) :
    w.path = path ∧ ((∃ e ∈ r.history, e.write = w) ∨
      ∃ p ∈ (r.system.clients c).queue, p.write = w) := by
  rw [Replicas.made, DocumentStore.madeOf] at hw
  rcases List.mem_append.mp hw with hw | hw
  · -- A write the server has sent or answered.
    rcases List.mem_append.mp hw with hw | hw
    all_goals
      obtain ⟨_, hstamped, rfl⟩ := List.mem_map.mp hw
      obtain ⟨e, he, rfl⟩ := List.mem_map.mp hstamped
      obtain ⟨hmem, hcond⟩ := List.mem_filter.mp he
      exact ⟨(of_decide_eq_true hcond).1, .inl ⟨e, hmem, rfl⟩⟩
  · obtain ⟨_, hstamped, rfl⟩ := List.mem_map.mp hw
    obtain ⟨b, hb, rfl⟩ := List.mem_map.mp hstamped
    obtain ⟨hmem, hpath⟩ := List.mem_filter.mp hb
    refine ⟨of_decide_eq_true hpath, ?_⟩
    rcases List.mem_append.mp hmem with hmem | hmem
    · obtain ⟨⟨_, answer⟩, ha, rfl⟩ := List.mem_map.mp hmem
      cases answer with
      | none => exact absurd rfl (hr.accepted c _ ha)
      | some stamp => exact .inl ⟨_, h.answered.mem_log ha, rfl⟩
    · have hwrite : b.write ∈ (r.system.clients c).queue.map Pending.write := by
        rw [← hr.sound.waiting c]
        exact List.mem_map_of_mem hmem
      exact .inr (List.mem_map.mp hwrite)

/-- A document on the screen is made of at least one write. -/
theorem Replicas.Explains.made_ne_nil (h : r.Explains c settled base) {path : DocPath}
    (hpath : path ∈ r.view c) : r.made c settled base path ≠ [] := by
  intro hnil
  rw [Replicas.made, DocumentStore.madeOf] at hnil
  obtain ⟨hcommitted, hpending⟩ := List.append_eq_nil_iff.mp hnil
  obtain ⟨hsent, hown⟩ := List.append_eq_nil_iff.mp hcommitted
  obtain ⟨d, hd⟩ := DocumentStore.exists_lookup hpath
  rw [h.lookup_view path, List.map_eq_nil_iff.mp hpending, List.map_eq_nil_iff.mp hown,
    List.map_eq_nil_iff.mp hsent] at hd
  cases hd

/-- What a client is shown is stored, or waits in its queue. -/
theorem ReplicasAccepted.known_of_mem_view (hr : ReplicasAccepted r) {path : DocPath}
    (hpath : path ∈ r.view c) : r.system.Known c path := by
  obtain ⟨settled, base, hexplains⟩ := hr.sound.explained c
  obtain ⟨w, hw⟩ := List.exists_mem_of_ne_nil _ (hexplains.made_ne_nil hpath)
  obtain ⟨rfl, ⟨e, he, rfl⟩ | ⟨p, hp, rfl⟩⟩ := hr.mem_made hexplains hw
  · exact .inl (hr.sound.written e he)
  · exact .inr (List.mem_map.mpr ⟨p, hp, rfl⟩)

/-- What a client takes part in is a step of the server-level model. -/
theorem ReplicasAccepted.step_of_perform (hr : ReplicasAccepted r) {e : Event} {s : System}
    (hpermitted : r.Permitted e) (h : r.system.perform e = some s) :
    r.system.step e = some s := by
  cases e with
  | call c call =>
    obtain ⟨hbyUser, htarget, hfresh, hcolour⟩ := hpermitted
    have hallowed : r.system.Allowed c call :=
      ⟨hbyUser, fun path hpath => hr.known_of_mem_view (htarget path hpath), hfresh, hcolour⟩
    rw [System.step, if_pos hallowed]
    exact h
  | _ => exact h

end accepted

/-- What a step does to the system: an event happens there, or nothing does. -/
theorem Replicas.system_cases {r r' : Replicas} {e : ReplicaEvent} (h : r.step e = some r') :
    (∃ e' t, e = .act e' t ∧ r.Permitted e' ∧ r.system.perform e' = some r'.system) ∨
      (r'.system = r.system ∧ r'.history = r.history ∧ ∀ e' t, e ≠ .act e' t) := by
  cases e with
  | act e deviceTime =>
    by_cases hpermitted : r.Permitted e
    · rw [step, if_pos hpermitted] at h
      obtain ⟨s, hs, rfl⟩ := Option.map_eq_some_iff.mp h
      have hsystem : (r.follow e deviceTime s).system = s := by
        cases e <;> rfl
      exact .inl ⟨e, deviceTime, rfl, hpermitted, by rw [hsystem]; exact hs⟩
    · rw [step, if_neg hpermitted] at h
      cases h
  | _ =>
    obtain ⟨_, _, rfl⟩ := Option.map_eq_some_iff.mp h
    exact .inr ⟨rfl, rfl, fun _ _ heq => by cases heq⟩

/-- What a step does to the log: the server commits a write, or the log and the documents stay. -/
theorem Replicas.history_cases {r r' : Replicas} {e : ReplicaEvent} (h : r.step e = some r') :
    (∃ c now p rest, Commits r.system r'.system c now p rest ∧
      r'.history = r.history ++ [⟨r.history.length + 1, c, now, p.write⟩]) ∨
      (r'.history = r.history ∧ r'.system.db = r.system.db) := by
  rcases Replicas.step_cases h with ⟨e', t, new, _, _, _, _, hnew, hr'⟩ |
    ⟨c, now, t, p, rest, _, hcommit, hr'⟩ | ⟨c, t, _, hreject, hr'⟩ |
    ⟨c, path, document, _, _, hr'⟩ | ⟨c, store, _, _, hr'⟩ | ⟨c, store, _, _, hr'⟩
  · exact .inr ⟨by rw [hr']; rfl, hnew.db_eq⟩
  · exact .inl ⟨c, now, p, rest, hcommit, by rw [hr']⟩
  · exact .inr ⟨by rw [hr']; rfl, hreject.db_eq⟩
  all_goals
    rw [hr']
    exact .inr ⟨rfl, rfl⟩

section accepted

variable {r r' : Replicas} {c : ClientId} {settled : ℕ} {base : DocPath → ℕ}

theorem ReplicasAccepted.init (owner : ClientId → Email) :
    ReplicasAccepted (Replicas.init owner) where
  sound := .init owner
  reachable := Runs.Reachable.refl
  accepted c a ha := by cases ha
  committed e he := by cases he
  first path w hw := by cases hw

/-- A waiting write of an accepted run comes from a call with colours of the picker. -/
theorem ReplicasAccepted.sourced (hr : ReplicasAccepted r) {p : Pending}
    (hp : p ∈ (r.system.clients c).queue) : Sourced p.write :=
  ⟨p.origin, (hr.reachable.queuesSound.client c).genuine p hp,
    hr.reachable.schemaSound.colours c p hp⟩

/-- An accepted step brings no rejection on its way. -/
theorem ReplicasAccepted.accepted_step (hr : ReplicasAccepted r) {e : ReplicaEvent}
    (hok : e.accepted = true) (h : r.step e = some r') :
    ∀ c, ∀ a ∈ (r'.stores c).answered, a.2 ≠ none := by
  have hsame : ∀ (d : ClientId) (store : ClientStore) (s : System) (log : List ServerEntry),
      (∀ a ∈ store.answered, a ∈ (r.stores d).answered ∨ a.2 ≠ none) →
      ∀ c, ∀ a ∈ ((Replicas.withStore { r with system := s, history := log } d store).stores
        c).answered, a.2 ≠ none := by
    intro d store s log hstore c a ha
    by_cases hc : c = d
    · subst hc
      rw [Replicas.withStore_self] at ha
      exact (hstore a ha).elim (hr.accepted c a) id
    · rw [Replicas.withStore_of_ne _ _ hc] at ha
      exact hr.accepted c a ha
  rcases Replicas.step_cases h with ⟨e', t, new, _, _, _, _, _, hr'⟩ |
    ⟨d, now, t, p, rest, _, _, hr'⟩ | ⟨d, t, rfl, _, _⟩ |
    ⟨d, path, document, _, _, hr'⟩ | ⟨d, store, _, hstore, hr'⟩ | ⟨d, store, _, hstore, hr'⟩
  · rw [hr']
    exact hsame e'.client _ _ _ fun a ha => .inl ha
  · rw [hr']
    refine hsame d _ _ _ fun a ha => ?_
    cases hwaiting : (r.stores d).waiting with
    | nil => exact .inl (by simpa [DocumentStore.LocalStore.answer, hwaiting] using ha)
    | cons b bs =>
      simp only [DocumentStore.LocalStore.answer, hwaiting] at ha
      rcases List.mem_append.mp ha with ha | ha
      · exact .inl ha
      · obtain rfl := List.mem_singleton.mp ha
        exact .inr (by simp)
  · cases hok
  · rw [hr']
    exact hsame d _ _ _ fun a ha => .inl ha
  · rw [hr']
    refine hsame d _ _ _ fun a ha => .inl ?_
    rwa [← (DocumentStore.LocalStore.queue_applyRemoteEvent hstore).1]
  · rw [hr']
    refine hsame d _ _ _ fun a ha => .inl ?_
    obtain ⟨_, _, first, hfirst⟩ := DocumentStore.LocalStore.queue_acknowledgeBatch hstore
    rw [hfirst]
    exact List.mem_cons_of_mem first ha

theorem ReplicasAccepted.step (hr : ReplicasAccepted r) {e : ReplicaEvent}
    (hok : e.accepted = true) (h : r.step e = some r') : ReplicasAccepted r' where
  sound := hr.sound.step h
  reachable := by
    rcases Replicas.system_cases h with ⟨e', t, rfl, hpermitted, hperform⟩ | ⟨hsystem, _⟩
    · exact hr.reachable.step hok (hr.step_of_perform hpermitted hperform)
    · rw [hsystem]
      exact hr.reachable
  accepted := hr.accepted_step hok h
  committed := by
    rcases Replicas.history_cases h with ⟨c, now, p, rest, hcommit, hhistory⟩ | ⟨hhistory, _⟩
    · intro e he
      rw [hhistory] at he
      rcases List.mem_append.mp he with he | he
      · exact hr.committed e he
      · obtain rfl := List.mem_singleton.mp he
        exact hr.sourced (c := c) (by rw [hcommit.queue_eq]; exact List.mem_cons_self)
    · rw [hhistory]
      exact hr.committed
  first := by
    rcases Replicas.history_cases h with ⟨c, now, p, rest, hcommit, hhistory⟩ | ⟨hhistory, _⟩
    · intro path
      rw [hhistory, serverWrites, List.filter_append, List.map_append, List.map_append]
      refine (hr.first path).append fun hnil w hw => ?_
      by_cases hpath : p.write.path = path
      · rw [List.filter_cons_of_pos (by simpa using hpath)] at hw
        obtain rfl : p.write = w := Option.some.inj hw
        by_contra hmode
        -- A document that is not overwritten was stored, hence written before.
        obtain ⟨d, hd⟩ := DocumentStore.exists_lookup
          (hr.reachable.queuesSound.path_stored hcommit hmode)
        rw [hpath, hr.sound.stored path, List.map_eq_nil_iff.mp hnil,
          DocumentStore.replay_nil] at hd
        cases hd
      · rw [List.filter_cons_of_neg (by simpa using hpath)] at hw
        cases hw
    · rw [hhistory]
      exact hr.first

end accepted

theorem Replicas.Reachable.accepted {owner : ClientId → Email} {r : Replicas}
    (hr : r.Reachable owner) : ReplicasAccepted r :=
  Runs.Reachable.invariant hr (.init owner) (fun _ _ _ _ hu hok h => hu.step hok h)

/-- **Inversion.** An accepted step leaves the log and the queues, or a call is issued, or the
server commits a write. -/
theorem ReplicasAccepted.step_cases {r r' : Replicas} (hr : ReplicasAccepted r) {e : ReplicaEvent}
    (hok : e.accepted = true) (h : r.step e = some r') :
    (r'.history = r.history ∧ ∀ c, (r'.system.clients c).queue = (r.system.clients c).queue) ∨
      (∃ c call ws, Issues r.system r'.system c call ws ∧ r'.history = r.history) ∨
      ∃ c now p rest, Commits r.system r'.system c now p rest ∧
        r'.history = r.history ++ [⟨r.history.length + 1, c, now, p.write⟩] := by
  rcases Replicas.step_cases h with ⟨e', t, new, _, hpermitted, hanswers, hperform, _, hr'⟩ |
    ⟨c, now, t, p, rest, _, hcommit, hr'⟩ | ⟨c, t, rfl, _, _⟩ |
    ⟨c, path, document, _, _, hr'⟩ | ⟨c, store, _, _, hr'⟩ | ⟨c, store, _, _, hr'⟩
  · have hhistory : r'.history = r.history := by
      rw [hr']
      rfl
    rcases System.step_cases (hr.step_of_perform hpermitted hperform) with hidle |
      ⟨c, call, ws, _, hissues⟩ | ⟨c, now, p, rest, rfl, _⟩ | ⟨c, rfl, _⟩
    · exact .inl ⟨hhistory, hidle.queue_eq⟩
    · exact .inr (.inl ⟨c, call, ws, hissues, hhistory⟩)
    · cases hanswers
    · cases hanswers
  · exact .inr (.inr ⟨c, now, p, rest, hcommit, by rw [hr']⟩)
  · cases hok
  all_goals
    rw [hr']
    exact .inl ⟨rfl, fun _ => rfl⟩

/-- The event of the system behind an event of the clients. -/
def ReplicaEvent.event? : ReplicaEvent → Option Event
  | .act e _ => some e
  | _ => none

/-- An accepted run of the clients is a run of the server-level model. -/
theorem ReplicasAccepted.run {u r : Replicas} (hu : ReplicasAccepted u) {es : List ReplicaEvent}
    (hok : ∀ e ∈ es, e.accepted = true) (hrun : Runs.run Replicas.step u es = some r) :
    Runs.run System.step u.system (es.filterMap ReplicaEvent.event?) = some r.system := by
  induction es generalizing u with
  | nil =>
    obtain rfl : u = r := by simpa using hrun
    rfl
  | cons e es ih =>
    obtain ⟨v, hstep, hrest⟩ := Runs.run_cons_eq_some.mp hrun
    have hv := hu.step (hok e List.mem_cons_self) hstep
    have hlater := ih hv (fun f hf => hok f (List.mem_cons_of_mem e hf)) hrest
    rcases Replicas.system_cases hstep with ⟨e', t, rfl, hpermitted, hperform⟩ |
      ⟨hsystem, _, hact⟩
    · have hsome : (ReplicaEvent.act e' t).event? = some e' := rfl
      rw [List.filterMap_cons_some hsome, Runs.run_cons, hu.step_of_perform hpermitted hperform]
      exact hlater
    · have hnone : e.event? = none := by
        cases e with
        | act e' t => exact absurd rfl (hact e' t)
        | _ => rfl
      rw [List.filterMap_cons_none hnone, ← hsystem]
      exact hlater

/-- **The clients refine the system.** When the server accepts the writes, every run of the clients
on their own stores is a run of the server-level model, and what a client is shown is stored or
waits in its queue. -/
theorem replicas_refine_system {owner : ClientId → Email} {es : List ReplicaEvent} {r : Replicas}
    (hok : ∀ e ∈ es, e.accepted = true)
    (hrun : Runs.run Replicas.step (Replicas.init owner) es = some r) :
    System.runFromInit (es.filterMap ReplicaEvent.event?) = some r.system ∧
      ∀ c, ∀ path ∈ r.view c, r.system.Known c path := by
  have hr : r.Reachable owner := Runs.Reachable.of_run hok hrun
  have hinit : ReplicasAccepted (Replicas.init owner) := .init owner
  exact ⟨hinit.run hok hrun, fun _ _ => hr.accepted.known_of_mem_view⟩

/-- The sample run as a run of the server-level model. -/
theorem replicas_refine_system_on_sample : ∃ r : Replicas,
    Runs.run Replicas.step (Replicas.init sampleOwner) sampleReplicas = some r ∧
      System.runFromInit (sampleReplicas.filterMap ReplicaEvent.event?) = some r.system := by
  have hrun : (Runs.run Replicas.step (Replicas.init sampleOwner) sampleReplicas).isSome := by
    decide
  obtain ⟨r, hr⟩ := Option.isSome_iff_exists.mp hrun
  exact ⟨r, hr, (replicas_refine_system (by decide) hr).1⟩

end MessagingApp
