import MessagingApp.ReplicaRefinement

/-!
# No handler traps on a client's own view

A client may show a document that the server has not stored yet, made of writes
whose timestamps are not known. The first write of every such document overwrites,
and the later ones act on what the client was shown, so the documents on the
screens have their schema and no snapshot handler traps on them. What is shown
once stays, except while the account is signed out.
-/

namespace MessagingApp

/-! ## Documents on the screens -/

/-- Writes of which the first overwrites leave a document. -/
theorem isSome_replay_of_startsWithSet {eval : Time → FieldValue → Option Value → Value}
    {ws : List (Time × Write)} (hstart : StartsWithSet (ws.map Prod.snd)) (hne : ws ≠ [])
    (old : Option Document) : (DocumentStore.replay eval ws old).isSome := by
  cases ws with
  | nil => exact absurd rfl hne
  | cons w ws =>
    rw [DocumentStore.replay_cons, DocumentStore.Write.onto_of_set (hstart w.2 rfl)]
    exact DocumentStore.isSome_replay rfl

/-- The start of a list starts as the list does. -/
theorem StartsWithSet.of_isPrefix {ws ws' : List Write} (h : StartsWithSet ws')
    (hpre : ws <+: ws') : StartsWithSet ws := by
  obtain ⟨rest, rfl⟩ := hpre
  cases ws with
  | nil =>
    intro w hw
    cases hw
  | cons w ws => exact h

/-- The writes up to a version are the first of all writes. -/
theorem writesUpTo_isPrefix {history : List ServerEntry} (hlog : DocumentStore.Versioned history)
    (path : DocPath) (version : ℕ) :
    DocumentStore.writesUpTo history path version <+: serverWrites history path := by
  have hincreasing := hlog.increasing
  clear hlog
  rw [DocumentStore.writesUpTo, serverWrites]
  refine List.IsPrefix.map _ ?_
  induction history with
  | nil => exact List.prefix_refl _
  | cons e history ih =>
    obtain ⟨hlater, hrest⟩ := List.pairwise_cons.mp hincreasing
    by_cases hpath : e.write.path = path
    · by_cases hversion : e.version ≤ version
      · rw [List.filter_cons_of_pos (by simp [hpath, hversion]),
          List.filter_cons_of_pos (by simpa using hpath)]
        exact (List.prefix_cons_inj e).mpr (ih hrest)
      · -- All later entries are too late as well.
        have hnone : (e :: history).filter (fun e => e.write.path = path ∧
            e.version ≤ version) = [] := by
          rw [List.filter_eq_nil_iff]
          intro e' he' hboth
          have hle := (of_decide_eq_true hboth).2
          rcases List.mem_cons.mp he' with rfl | he'
          · exact hversion hle
          · have := hlater e' he'
            omega
        rw [hnone]
        exact List.nil_prefix
    · rw [List.filter_cons_of_neg (by simp [hpath]), List.filter_cons_of_neg (by simpa using hpath)]
      exact ih hrest

/-- What writes laid over a cached document would show if the clock of the client were that of the
server. -/
theorem resolve_replay_known (ws : List (Time × Write)) (d : Option Document) :
    (DocumentStore.replay FieldValue.localEval ws
      (d.map (DocumentStore.mapFields LocalValue.known))).map LocalDocument.resolve =
      DocumentStore.replay FieldValue.ackEval ws d := by
  have hknown : ∀ d : Document,
      LocalDocument.resolve (DocumentStore.mapFields LocalValue.known d) = d := by
    intro d
    funext k
    simp [LocalDocument.resolve, DocumentStore.mapFields, Function.comp_def, LocalValue.resolve]
  have hmap : LocalDocument.resolve = DocumentStore.mapFields LocalValue.resolve := rfl
  rw [hmap, DocumentStore.map_replay FieldValue.resolve_localEval, ← hmap, Option.map_map]
  congr 1
  exact (Option.map_congr fun d _ => hknown d).trans Option.map_id'

/-- What a client would be shown if its clock were that of the server. -/
theorem Replicas.Shows.resolve {r : Replicas} {c : ClientId} {settled : ℕ} {base : DocPath → ℕ}
    (h : r.Shows c settled base) (path : DocPath) :
    ((r.shown c).lookup path).map LocalDocument.resolve =
      DocumentStore.replay FieldValue.ackEval
        (DocumentStore.ownWrites r.history c path (base path) settled ++ r.overlaid c path)
        (DocumentStore.replay FieldValue.eval
          (DocumentStore.writesUpTo r.history path (base path)) none) := by
  rw [h.shown path, resolve_replay_known, DocumentStore.replay_append]

/-- While the account is signed out, none of the writes in the queue lie over the cache. -/
theorem Replicas.overlaid_isPrefix (r : Replicas) (c : ClientId) (path : DocPath) :
    r.overlaid c path <+: (r.stores c).pendingWrites path := by
  unfold Replicas.overlaid
  split
  case isTrue => exact List.prefix_refl _
  case isFalse => exact List.nil_prefix

/-! ## What a client is shown has its schema -/

/-- How a client came to what it is shown: the first write of every document overwrites, and what
its waiting writes and its completions act on is made of some write. -/
structure Replicas.Grounds (r : Replicas) (c : ClientId) (settled : ℕ) (base : DocPath → ℕ) :
    Prop where
  explains : r.Explains c settled base
  starts : ∀ path, StartsWithSet (r.made c settled base path)
  targets : ∀ p ∈ (r.system.clients c).queue, ∀ path ∈ p.origin.target,
    r.made c settled base path ≠ []
  completed : ∀ m ∈ (r.system.clients c).completions,
    r.made c settled base (.chat m.chat) ≠ []

section grounds

variable {r r' : Replicas} {c : ClientId} {settled settled' : ℕ} {base base' : DocPath → ℕ}

/-- A document that is made of some write stays so when the server rejects nothing. -/
theorem Replicas.Advances.made_ne_nil (h : r.Advances r' c settled settled' base base')
    (haccepted : ∀ a ∈ (r.stores c).answered, a.2 ≠ none) {path : DocPath}
    (hmade : r.made c settled base path ≠ []) : r'.made c settled' base' path ≠ [] := by
  intro hnil
  rcases h.made haccepted path with hsame | ⟨version, hne, hprefix⟩
  · rw [hsame] at hnil
    exact hmade (List.append_eq_nil_iff.mp hnil).1
  · rw [hnil, List.prefix_nil, List.map_eq_nil_iff] at hprefix
    exact hne hprefix

/-- A step from a state in which the new writes, and what the new writes and completions act on,
are grounded. -/
theorem Replicas.Grounds.advance (h : r.Grounds c settled base) (hr' : ReplicasAccepted r')
    (haccepted : ∀ a ∈ (r.stores c).answered, a.2 ≠ none)
    (hadvances : r.Advances r' c settled settled' base base')
    (hnew : ∀ path, r.made c settled base path = [] → StartsWithSet (r.enqueued r' c path))
    (htargets : ∀ p ∈ (r'.system.clients c).queue, p ∈ (r.system.clients c).queue ∨
      ∀ path ∈ p.origin.target, r.made c settled base path ≠ [])
    (hcompleted : ∀ m ∈ (r'.system.clients c).completions,
      m ∈ (r.system.clients c).completions ∨ r.made c settled base (.chat m.chat) ≠ []) :
    r'.Grounds c settled' base' := by
  have hkept : ∀ path, r.made c settled base path ≠ [] → r'.made c settled' base' path ≠ [] :=
    fun path => hadvances.made_ne_nil haccepted
  constructor
  case explains => exact hadvances.explains
  case starts =>
    intro path
    rcases hadvances.made haccepted path with hmade | ⟨version, hne, rest, hrest⟩
    · rw [hmade]
      exact (h.starts path).append (hnew path)
    · have hfirst : StartsWithSet
          ((DocumentStore.writesUpTo r'.history path version).map Prod.snd) :=
        (hr'.first path).of_isPrefix
          ((writesUpTo_isPrefix hr'.sound.versioned path version).map Prod.snd)
      rw [← hrest]
      exact hfirst.append fun hnil => absurd (List.map_eq_nil_iff.mp hnil) hne
  case targets =>
    intro p hp path hpath
    rcases htargets p hp with hold | hmade
    · exact hkept path (h.targets p hold path hpath)
    · exact hkept path (hmade path hpath)
  case completed =>
    intro m hm
    rcases hcompleted m hm with hold | hmade
    · exact hkept _ (h.completed m hold)
    · exact hkept _ hmade

/-- What a call acts on is made of some write: a screen showed it, or the message the call completes
was sent to it. -/
theorem Replicas.Grounds.target_made (h : r.Grounds c settled base)
    {e : Event} (hpermitted : r.Permitted e) {call : Call} {ws : List Write} {s : System}
    (hissues : Issues r.system s c call ws) (hcall : e = .call c call ∨ call.byUser = false) :
    ∀ path ∈ call.target, r.made c settled base path ≠ [] := by
  intro path hpath
  rcases hcall with rfl | hbyUser
  · exact h.explains.made_ne_nil (hpermitted.2.1 path hpath)
  · rcases hissues.source with hallowed | ⟨m, hm, rfl⟩ | ⟨emailText, rfl⟩
    · rw [hallowed.1] at hbyUser
      cases hbyUser
    · obtain rfl := Option.some.inj hpath
      exact h.completed m hm
    · cases hpath

/-- Every accepted step keeps a client grounded. -/
theorem Replicas.Grounds.step (h : r.Grounds c settled base) (hr : ReplicasAccepted r)
    {e : ReplicaEvent} (hok : e.accepted = true) (hstep : r.step e = some r') :
    ∃ settled' base', r.Advances r' c settled settled' base base' ∧
      r'.Grounds c settled' base' := by
  have hr' := hr.step hok hstep
  obtain ⟨settled', base', hadvances⟩ := hr.sound.advances hstep h.explains
  refine ⟨settled', base', hadvances, ?_⟩
  -- Nothing is enqueued, and no completion is new.
  have hquiet : (r'.system.clients c).queue.length ≤ (r.system.clients c).queue.length →
      (∀ p ∈ (r'.system.clients c).queue, p ∈ (r.system.clients c).queue) →
      (∀ m ∈ (r'.system.clients c).completions, m ∈ (r.system.clients c).completions ∨
        r.made c settled base (.chat m.chat) ≠ []) → r'.Grounds c settled' base' := by
    intro hlength hqueue hcompletions
    refine h.advance hr' (hr.accepted c) hadvances ?_ (fun p hp => .inl (hqueue p hp))
      hcompletions
    intro path _
    rw [Replicas.enqueued_eq_nil hlength]
    intro w hw
    cases hw
  have hsame : r'.system.clients c = r.system.clients c → r'.Grounds c settled' base' := by
    intro hclient
    rw [hclient] at hquiet
    exact hquiet le_rfl (fun _ hp => hp) (fun _ hm => .inl hm)
  rcases Replicas.system_cases hstep with ⟨e', t, rfl, hpermitted, hperform⟩ | ⟨hsystem, _⟩
  · rcases System.step_cases (hr.step_of_perform hpermitted hperform) with hidle |
      ⟨d, call, ws, hcall, hissues⟩ | ⟨d, now, p, rest, _, hcommit⟩ | ⟨d, rfl, _⟩
    · refine hquiet (by rw [hidle.queue_eq]) ?_ ?_
      · rw [hidle.queue_eq]
        exact fun _ hp => hp
      · rw [hidle.completions_eq]
        exact fun _ hm => .inl hm
    · by_cases hc : c = d
      · subst hc
        have htarget := h.target_made hpermitted hissues hcall
        refine h.advance hr' (hr.accepted c) hadvances ?_ ?_
          (fun m hm => .inl (hissues.completions_self m hm))
        · intro path hnil w hw
          rw [Replicas.enqueued, hissues.queue_self, List.drop_left] at hw
          obtain ⟨hmem, hpath⟩ := List.mem_filter.mp (List.mem_of_mem_head? hw)
          by_contra hmode
          -- A write that does not overwrite acts on the target of its call.
          obtain ⟨p, hp, rfl⟩ := List.mem_map.mp hmem
          obtain ⟨w, hissued, rfl⟩ := List.mem_map.mp hp
          have hgenuine := Call.genuine_of_mem hissues.writes_eq hissued
          refine htarget path ?_ hnil
          rw [← of_decide_eq_true hpath]
          exact hgenuine.target_eq hmode
        · intro p hp
          rcases hissues.mem_queue_or hp with hold | ⟨_, w, _, rfl⟩
          · exact .inl hold
          · exact .inr htarget
      · exact hsame (hissues.clients_other c hc)
    · by_cases hc : c = d
      · subst hc
        refine hquiet ?_ (fun q hq => hcommit.mem_queue hq) ?_
        · rw [hcommit.queue_self, hcommit.queue_eq]
          exact Nat.le_succ _
        · intro m hm
          rw [hcommit.completions_self] at hm
          rcases List.mem_append.mp hm with hm | hm
          · exact .inl hm
          · right
            cases horigin : p.origin with
            | sendMessage chat id text =>
              obtain rfl : m = ⟨chat, id⟩ := by simpa [System.completionOf, horigin] using hm
              exact h.targets p (by rw [hcommit.queue_eq]; exact List.mem_cons_self) _
                (by simp [horigin, Call.target])
            | _ => simp [System.completionOf, horigin] at hm
      · exact hsame (hcommit.clients_other c hc)
    · cases hok
  · exact hsame (by rw [hsystem])

/-- Every client of an accepted run is grounded. -/
theorem Replicas.Reachable.grounds {owner : ClientId → Email} (hr : r.Reachable owner)
    (c : ClientId) : ∃ settled base, r.Grounds c settled base := by
  let Sound (u : Replicas) : Prop :=
    ReplicasAccepted u ∧ ∃ settled base, u.Grounds c settled base
  have hboth : Sound r := by
    refine Runs.Reachable.invariant hr ⟨.init owner, ?_⟩ ?_
    · refine ⟨0, fun _ => 0, DocumentStore.Explained.empty, ?_, ?_, ?_⟩
      · intro path w hw
        cases hw
      · intro p hp
        cases hp
      · intro m hm
        cases hm
    · rintro u v e _ ⟨hu, settled, base, hgrounds⟩ hok hstep
      obtain ⟨settled', base', _, hgrounds'⟩ := hgrounds.step hu hok hstep
      exact ⟨hu.step hok hstep, settled', base', hgrounds'⟩
  exact hboth.2

/-- The documents a client is shown have their schema, whoever is signed in. -/
theorem Replicas.Grounds.localSchema (h : r.Grounds c settled base) (hr : ReplicasAccepted r) :
    LocalSchema (r.shown c) := by
  intro path d hd
  have hshows := (hr.sound.shows h.explains).resolve path
  rw [hd] at hshows
  have hmade : ∀ w ∈ r.made c settled base path, w.path = path ∧ Sourced w := by
    intro w hw
    obtain ⟨hpath, ⟨e, he, rfl⟩ | ⟨p, hp, rfl⟩⟩ := hr.mem_made h.explains hw
    · exact ⟨hpath, hr.committed e he⟩
    · exact ⟨hpath, hr.sourced hp⟩
  have hstarts := h.starts path
  rw [Replicas.made, DocumentStore.madeOf, List.append_assoc] at hmade hstarts
  -- What the server has sent has the schema, and so has what the client's writes make of it.
  have hsent : ∀ d, DocumentStore.replay FieldValue.eval
      (DocumentStore.writesUpTo r.history path (base path)) none = some d → Schema path d := by
    refine keepsSchema_eval.replay ?_ (fun _ hnone => by cases hnone) ?_
    · intro w hw
      exact hmade w.2 (List.mem_append_left _ (List.mem_map_of_mem hw))
    · intro _
      exact hstarts.of_isPrefix (List.prefix_append _ _)
  have hown : ((DocumentStore.ownWrites r.history c path (base path) settled ++
      r.overlaid c path).map Prod.snd) <+:
      (DocumentStore.ownWrites r.history c path (base path) settled).map Prod.snd ++
        ((r.stores c).pendingWrites path).map Prod.snd := by
    rw [← List.map_append]
    exact ((List.prefix_append_right_inj _).mpr (r.overlaid_isPrefix c path)).map Prod.snd
  refine keepsSchema_ackEval.replay ?_ hsent ?_ d.resolve hshows.symm
  · intro w hw
    exact hmade w.2 (List.mem_append_right _ (hown.subset (List.mem_map_of_mem hw)))
  · intro hnone
    have hnil : DocumentStore.writesUpTo r.history path (base path) = [] := by
      by_contra hne
      have hsome : (DocumentStore.replay FieldValue.eval
          (DocumentStore.writesUpTo r.history path (base path)) none).isSome :=
        isSome_replay_of_startsWithSet (hstarts.of_isPrefix (List.prefix_append _ _)) hne none
      rw [hnone] at hsome
      cases hsome
    rw [hnil] at hstarts
    exact StartsWithSet.of_isPrefix hstarts hown

/-- A client is shown exactly the documents that some write makes, while its account is signed
in. -/
theorem Replicas.Grounds.mem_view_iff (h : r.Grounds c settled base) {path : DocPath} :
    path ∈ r.view c ↔ r.made c settled base path ≠ [] := by
  constructor
  · exact h.explains.made_ne_nil
  · intro hmade
    have hstarts := h.starts path
    rw [Replicas.made, DocumentStore.madeOf, List.append_assoc] at hmade hstarts
    have hsome : (((r.view c).lookup path).map LocalDocument.resolve).isSome := by
      rw [h.explains.lookup_view path, resolve_replay_known, ← DocumentStore.replay_append]
      by_cases hsent : DocumentStore.writesUpTo r.history path (base path) = []
      · -- The server has sent nothing, so the client's own writes come first.
        rw [hsent] at hmade hstarts ⊢
        rw [List.map_nil, List.nil_append, ← List.map_append] at hmade hstarts
        refine isSome_replay_of_startsWithSet hstarts ?_ _
        simpa using hmade
      · exact DocumentStore.isSome_replay
          (isSome_replay_of_startsWithSet (hstarts.of_isPrefix (List.prefix_append _ _)) hsent none)
    rw [Option.isSome_map] at hsome
    exact AList.lookup_isSome.mp hsome

end grounds

section views

variable {owner : ClientId → Email} {r r' : Replicas}

/-- A document that is shown stays on the screens of the client while its account is signed in. -/
theorem Replicas.Reachable.mem_view_of_run (hr : r.Reachable owner) {es : List ReplicaEvent}
    (hok : ∀ e ∈ es, e.accepted = true) (hrun : Runs.run Replicas.step r es = some r')
    (c : ClientId) : ∀ path ∈ r.view c, path ∈ r'.view c := by
  let Keeps (u v : Replicas) : Prop := u.Reachable owner →
    v.Reachable owner ∧ ∀ path ∈ u.view c, path ∈ v.view c
  have hkeeps : Keeps r r' := by
    refine Runs.run_rel hrun (fun u hu => ⟨hu, fun _ hpath => hpath⟩) ?_ ?_
    · intro u v w huv hvw hu
      obtain ⟨hv, hfirst⟩ := huv hu
      obtain ⟨hw, hsecond⟩ := hvw hv
      exact ⟨hw, fun path hpath => hsecond path (hfirst path hpath)⟩
    · intro u v e he hstep hu
      have hv : v.Reachable owner := Runs.Reachable.tail hu (hok e he) hstep
      obtain ⟨settled, base, hgrounds⟩ := hu.grounds c
      obtain ⟨settled', base', hadvances, hgrounds'⟩ :=
        hgrounds.step hu.accepted (hok e he) hstep
      refine ⟨hv, fun path hpath => ?_⟩
      rw [hgrounds'.mem_view_iff]
      exact hadvances.made_ne_nil (hu.accepted.accepted c)
        (hgrounds.mem_view_iff.mp hpath)
  exact (hkeeps hr).2

/-- The documents a client is shown have their schema. -/
theorem Replicas.Reachable.localSchema (hr : r.Reachable owner) (c : ClientId) :
    LocalSchema (r.shown c) := by
  obtain ⟨settled, base, hgrounds⟩ := hr.grounds c
  exact hgrounds.localSchema hr.accepted

end views

end MessagingApp
