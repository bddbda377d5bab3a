import MessagingApp.Outcomes

/-!
# Adding a member again

The add-user list offers the members of the chat as well. Of the two writes of
`addNewUser` the first merges the email into the `users` array, and the second
overwrites the member document. This file determines when the two leave a chat of
which the user is already a member as it was.
-/

namespace MessagingApp

/-! ## Member documents -/

/-- The fields the writers of member documents mention. -/
def memberFields : List Field := [.name, .userName, .colour, .nickName, .timeAdded]

/-- A member document has no other fields, and the time of adding stands next to the creator's
`nickName` only. -/
structure MemberShape (d : Document) : Prop where
  other : ∀ field ∉ memberFields, d field = none
  timeAdded : d .nickName = none → d .timeAdded = none

/-- A missing document has no fields at all. -/
theorem MemberShape.empty : MemberShape (fun _ => none) where
  other _ _ := rfl
  timeAdded _ := rfl

/-- A dictionary of member fields adds no other field. -/
theorem MemberShape.assign_other {d : Document} (hd : MemberShape d) (now : Time)
    {data : List (Field × FieldValue)}
    (hkeys : ∀ field ∈ data.map Prod.fst, field ∈ memberFields) :
    ∀ field ∉ memberFields, DocumentStore.assign (FieldValue.eval now) d data field = none := by
  intro field hfield
  rw [DocumentStore.assign_of_not_mem _ (fun hmem => hfield (hkeys field hmem))]
  exact hd.other field hfield

/-- A dictionary of member fields that leaves the creator's fields alone keeps the shape. -/
theorem MemberShape.assign {d : Document} (hd : MemberShape d) (now : Time)
    {data : List (Field × FieldValue)} (hkeys : ∀ field ∈ data.map Prod.fst, field ∈ memberFields)
    (hnick : Field.nickName ∉ data.map Prod.fst) (htime : Field.timeAdded ∉ data.map Prod.fst) :
    MemberShape (DocumentStore.assign (FieldValue.eval now) d data) := by
  constructor
  case other => exact hd.assign_other now hkeys
  case timeAdded =>
    intro hnone
    rw [DocumentStore.assign_of_not_mem _ hnick] at hnone
    rw [DocumentStore.assign_of_not_mem _ htime]
    exact hd.timeAdded hnone

/-- Laid over a member document, or over no fields, every write leaves a member document. -/
theorem Genuine.memberShape {call : Call} {w : Write} (h : Genuine call w) {chat : ChatId}
    {email : Email} (hpath : w.path = .member chat email) (now : Time) {d : Document}
    (hd : MemberShape d) : MemberShape (DocumentStore.assign (FieldValue.eval now) d w.data) := by
  cases h with
  | creatorDocument ref user name =>
    constructor
    case other =>
      apply hd.assign_other now
      simp [MessagingApp.creatorDocument, memberFields]
    case timeAdded =>
      -- The creator's document always has a `nickName`.
      intro hnone
      cases hnone
  | addedDocument chat' user email' name hemail hname =>
    apply hd.assign now <;> simp [MessagingApp.addedDocument, memberFields]
  | userName chat' member newUserName =>
    apply hd.assign now <;> simp [userNameWrite, memberFields]
  | userColour chat' member colour =>
    apply hd.assign now <;> simp [userColourWrite, memberFields]
  | _ => cases hpath

/-- The stored member documents have their shape, and what waits comes from its call. -/
structure MembersShaped (s : System) : Prop where
  genuine : ∀ c, ∀ p ∈ (s.clients c).queue, Genuine p.origin p.write
  stored : ∀ chat email d, s.db.lookup (.member chat email) = some d → MemberShape d

theorem MembersShaped.init : MembersShaped System.init where
  genuine c p hp := by simp [System.init] at hp
  stored chat email d hd := by simp [System.init] at hd

theorem MembersShaped.commits {s t : System} {c : ClientId} {now : Time} {p : Pending}
    {rest : List Pending} (hs : MembersShaped s) (h : Commits s t c now p rest) :
    MembersShaped t := by
  constructor
  case genuine => exact fun d q hq => hs.genuine d q (h.mem_queue hq)
  case stored =>
    intro chat email d hd
    by_cases hpath : .member chat email = p.write.path
    · have hgenuine : Genuine p.origin p.write := hs.genuine c p (by simp [h.queue_eq])
      rw [hpath] at hd
      obtain ⟨fields, hbase, hlookup⟩ := DocumentStore.Write.lookup_commit_self h.commit_eq
      obtain rfl : _ = d := Option.some.inj (hlookup.symm.trans hd)
      refine hgenuine.memberShape hpath.symm now ?_
      rcases DocumentStore.Write.empty_or_eq_of_base hbase with rfl | hold
      · exact .empty
      · exact hs.stored chat email fields (by rw [hpath, hold])
    · rw [DocumentStore.Write.lookup_commit_of_ne h.commit_eq hpath] at hd
      exact hs.stored chat email d hd

/-- Member documents keep their shape whatever the server answers. -/
theorem System.ReachableWithRejections.membersShaped {s : System}
    (hs : s.ReachableWithRejections) : MembersShaped s := by
  refine Runs.Reachable.invariant hs .init ?_
  intro u v e _ hu _ hstep
  rcases step_cases hstep with h | ⟨c, call, ws, _, h⟩ | ⟨c, now, p, rest, _, h⟩ | ⟨c, _, h⟩
  · refine ⟨?_, by rw [h.db_eq]; exact hu.stored⟩
    intro d q hq
    rw [h.queue_eq] at hq
    exact hu.genuine d q hq
  · refine ⟨?_, by rw [h.db_eq]; exact hu.stored⟩
    intro d q hq
    rcases h.mem_queue_or hq with hq | ⟨_, w, hw, rfl⟩
    · exact hu.genuine d q hq
    · exact Call.genuine_of_mem h.writes_eq hw
  · exact hu.commits h
  · exact ⟨fun d q hq => hu.genuine d q (h.mem_queue hq), by rw [h.db_eq]; exact hu.stored⟩

/-! ## The two writes on a chat with the member -/

/-- **The array write is idempotent**: over a chat document that lists the email it changes
nothing. -/
theorem assign_addToUsers {d : Document} {email : Email} (h : hasUser email d = true) (now : Time)
    (chat : ChatId) :
    DocumentStore.assign (FieldValue.eval now) d (addToUsers chat email).data = d := by
  have hmem : some email ∈ coercedArray (d .users) := by simpa [hasUser] using h
  cases husers : d .users with
  | none => simp [husers, coercedArray] at hmem
  | some v =>
    cases v with
    | array entries =>
      have hentries : some email ∈ entries := by simpa [husers, coercedArray] using hmem
      change Function.update d .users _ = d
      rw [Function.update_eq_self_iff, husers]
      simp [FieldValue.eval, coercedArray, unionEntries_one, hentries]
    | string text => simp [husers, coercedArray] at hmem
    | timestamp time => simp [husers, coercedArray] at hmem

/-- The member document is as `addNewUser` leaves it: the creator's `nickName` is not there, and
name, `userName` and colour are those of a user just added. -/
structure AsAdded (name : String) (d : Document) : Prop where
  nickName : d .nickName = none
  name : d .name = some (.string name)
  userName : d .userName = some (.string "")
  colour : d .colour = some (.string defaultUserColour)

/-- What the second write stores is a member document as added. -/
theorem asAdded_newDocument (now : Time) (chat : ChatId) (email : Email) (name : String) :
    AsAdded name (newDocument now (addedDocument chat email name)) :=
  ⟨rfl, rfl, rfl, rfl⟩

/-- A member document as added has no other fields. -/
theorem AsAdded.unique {name : String} {d d' : Document} (hd : AsAdded name d)
    (hd' : AsAdded name d') (hshape : MemberShape d) (hshape' : MemberShape d') : d = d' := by
  funext field
  cases field with
  | name => rw [hd.name, hd'.name]
  | userName => rw [hd.userName, hd'.userName]
  | colour => rw [hd.colour, hd'.colour]
  | nickName => rw [hd.nickName, hd'.nickName]
  | timeAdded => rw [hshape.timeAdded hd.nickName, hshape'.timeAdded hd'.nickName]
  | _ => rw [hshape.other _ (by decide), hshape'.other _ (by decide)]

/-- The `users` array of the chat and all its member documents are the same. -/
structure ChatUnchanged (chat : ChatId) (db db' : Db) : Prop where
  users : (db'.lookup (.chat chat)).bind (fun d => d .users) =
    (db.lookup (.chat chat)).bind (fun d => d .users)
  members : ∀ email, db'.lookup (.member chat email) = db.lookup (.member chat email)

section again

variable {s t : System} {c : ClientId} {chat : ChatId} {user : User} {email : Email}
  {name : String} {ws : List Write} {rest : List Pending} {t₁ t₂ : Time}

/-- Both writes of `addNewUser` for a member are accepted: only the member's document is
written, and it becomes that of a user just added. -/
theorem addNewUser_again_effect (hemail : user.email = some email) (hname : user.name = some name)
    (hws : addNewUser (some chat) user = some ws)
    (hqueue : (s.clients c).queue = ws.map (Pending.mk (.addNewUser chat user)) ++ rest)
    (hmember : IsMember s.db chat email)
    (hrun : Runs.run System.step s [.commit c t₁, .commit c t₂] = some t) :
    t.db.lookup (.member chat email) = some (newDocument t₂ (addedDocument chat email name)) ∧
      ∀ path, path ≠ .member chat email → t.db.lookup path = s.db.lookup path := by
  obtain ⟨u, hfirst, hrun⟩ := Runs.run_cons_eq_some.mp hrun
  obtain ⟨v, hsecond, hrun⟩ := Runs.run_cons_eq_some.mp hrun
  obtain rfl : v = t := Option.some.inj hrun
  obtain ⟨email', name', hemail', hname', rfl⟩ := addNewUser_eq_some.mp hws
  obtain rfl : email' = email := Option.some.inj (hemail'.symm.trans hemail)
  obtain rfl : name' = name := Option.some.inj (hname'.symm.trans hname)
  obtain ⟨hrest, hcommit₁⟩ := step_accepted hqueue hfirst
  obtain ⟨_, hcommit₂⟩ := step_accepted hrest hsecond
  -- The first write leaves the whole database as it was.
  obtain ⟨d, hd, hhas⟩ := hmember
  have hsame : ∀ path, u.db.lookup path = s.db.lookup path := by
    intro path
    by_cases hpath : path = .chat chat
    · subst hpath
      obtain ⟨fields, hbase, hlookup⟩ := DocumentStore.Write.lookup_commit_self hcommit₁
      change s.db.lookup (.chat chat) = some d at hd
      have hfields : d = fields := by
        change (addToUsers chat email').base (s.db.lookup (.chat chat)) = some fields at hbase
        rw [hd] at hbase
        exact Option.some.inj hbase
      subst hfields
      change u.db.lookup (.chat chat) = _ at hlookup
      rw [hlookup, hd]
      exact congrArg some (assign_addToUsers hhas t₁ chat)
    · exact DocumentStore.Write.lookup_commit_of_ne hcommit₁ hpath
  constructor
  · obtain ⟨fields, hbase, hlookup⟩ := DocumentStore.Write.lookup_commit_self hcommit₂
    obtain rfl : (fun _ => none) = fields := Option.some.inj hbase
    exact hlookup
  · intro path hpath
    rw [DocumentStore.Write.lookup_commit_of_ne hcommit₂ hpath, hsame path]

/-- **When adding a member again changes nothing.** The `users` array and all member documents
survive exactly when the member's document is still as `addNewUser` would leave it now: it is
not the creator's, the name is that of the profile, and neither `userName` nor colour was
ever chosen, or the defaults were chosen again. -/
theorem addNewUser_again_unchanged_iff {d : Document} (hs : s.ReachableWithRejections)
    (hemail : user.email = some email) (hname : user.name = some name)
    (hws : addNewUser (some chat) user = some ws)
    (hqueue : (s.clients c).queue = ws.map (Pending.mk (.addNewUser chat user)) ++ rest)
    (hmember : IsMember s.db chat email) (hd : s.db.lookup (.member chat email) = some d)
    (hrun : Runs.run System.step s [.commit c t₁, .commit c t₂] = some t) :
    ChatUnchanged chat s.db t.db ↔ AsAdded name d := by
  obtain ⟨hself, hother⟩ := addNewUser_again_effect hemail hname hws hqueue hmember hrun
  have hnew : AsAdded name (newDocument t₂ (addedDocument chat email name)) :=
    asAdded_newDocument t₂ chat email name
  constructor
  · intro hunchanged
    have hkept := hunchanged.members email
    rw [hself, hd] at hkept
    rw [← Option.some.inj hkept]
    exact hnew
  · intro hadded
    have hgenuine : Genuine (.addNewUser chat user) (addedDocument chat email name) :=
      .addedDocument chat user email name hemail hname
    have heq : newDocument t₂ (addedDocument chat email name) = d :=
      hnew.unique hadded (hgenuine.memberShape rfl t₂ .empty)
        (hs.membersShaped.stored chat email d hd)
    constructor
    case users => rw [hother (.chat chat) (by simp)]
    case members =>
      intro other
      by_cases hpath : DocPath.member chat other = .member chat email
      · rw [hpath, hself, hd, heq]
      · exact hother _ hpath

end again

/-- The profile of `bob` on the add-user screen. -/
def bobsProfile : User := { email := some "bob", name := some "Bob" }

/-- A chat of `ann` to which `bob` was added. -/
def bobAdded : List Event :=
  annsChat ++ [.call 0 (.addNewUser "tea" bobsProfile), .commit 0 2, .commit 0 2]

/-- Then his `userName` and colour were chosen. -/
def bobCustomised : List Event :=
  bobAdded ++ [.call 0 (.updateUserName "tea" "bob" "Bobby"), .commit 0 3,
    .call 0 (.updateUserColour "tea" "bob" "FF54C0"), .commit 0 3]

/-- Adding `bob` a second time, before anything was chosen for him, changes nothing. -/
theorem addNewUser_again_unchanged_bob : ∃ s t : System, s.ReachableWithRejections ∧
    IsMember s.db "tea" "bob" ∧ Runs.run System.step s [.commit 0 3, .commit 0 3] = some t ∧
    ChatUnchanged "tea" s.db t.db := by
  have hrun : (System.runFromInit bobAdded).bind (fun u =>
      (u.step (.call 0 (.addNewUser "tea" bobsProfile))).bind (fun s =>
        (Runs.run System.step s [.commit 0 3, .commit 0 3]).map (fun t =>
          decide ((u.clients 0).queue.isEmpty ∧
            (s.db.lookup (.chat "tea")).map (hasUser "bob") = some true ∧
            (s.db.lookup (.member "tea" "bob")).map
                (fun d => (d .nickName, d .name, d .userName, d .colour)) =
              some (none, some (.string "Bob"), some (.string ""),
                some (.string defaultUserColour)))))) = some true := by
    decide
  obtain ⟨u, hu, hrun⟩ := Option.bind_eq_some_iff.mp hrun
  obtain ⟨s, hcall, hrun⟩ := Option.bind_eq_some_iff.mp hrun
  obtain ⟨t, ht, hfacts⟩ := Option.map_eq_some_iff.mp hrun
  obtain ⟨hempty, hmember, hfields⟩ := of_decide_eq_true hfacts
  have hreachable : u.ReachableWithRejections := Runs.Reachable.of_run (fun _ _ => trivial) hu
  obtain ⟨ws, hws, hs⟩ := System.issue_eq_some (System.issue_of_call hcall).2
  have hqueue : (s.clients 0).queue =
      ws.map (Pending.mk (.addNewUser "tea" bobsProfile)) ++ [] := by
    have hnil : (u.clients 0).queue = [] := List.isEmpty_iff.mp hempty
    rw [hs]
    simp [System.withClient, hnil]
  obtain ⟨d, hd, hhas⟩ := Option.map_eq_some_iff.mp hmember
  obtain ⟨d', hd', hfields⟩ := Option.map_eq_some_iff.mp hfields
  obtain ⟨hnick, hname, huserName, hcolour⟩ : d' .nickName = none ∧
      d' .name = some (.string "Bob") ∧ d' .userName = some (.string "") ∧
      d' .colour = some (.string defaultUserColour) := by simpa using hfields
  have hreachable' : s.ReachableWithRejections := hreachable.tail trivial hcall
  exact ⟨s, t, hreachable', ⟨d, hd, hhas⟩, ht,
    (addNewUser_again_unchanged_iff hreachable' rfl rfl hws hqueue ⟨d, hd, hhas⟩ hd' ht).mpr
      ⟨hnick, hname, huserName, hcolour⟩⟩

/-- **Adding a member again resets the member.** `bob` is in the chat under a chosen `userName`
and colour; after he is added again with both writes accepted, both are the defaults. -/
theorem addNewUser_again_resets : ∃ s t : System, s.Reachable ∧ IsMember s.db "tea" "bob" ∧
    Runs.run System.step s
      [.call 0 (.addNewUser "tea" bobsProfile), .commit 0 4, .commit 0 4] = some t ∧
    (s.db.lookup (.member "tea" "bob")).bind (fun d => stringField d .userName) =
      some "Bobby" ∧
    (t.db.lookup (.member "tea" "bob")).bind (fun d => stringField d .userName) = some "" ∧
    (s.db.lookup (.member "tea" "bob")).bind (fun d => stringField d .colour) =
      some "FF54C0" ∧
    (t.db.lookup (.member "tea" "bob")).bind (fun d => stringField d .colour) =
      some defaultUserColour ∧
    ¬ ChatUnchanged "tea" s.db t.db := by
  have hrun : (System.runFromInit bobCustomised).bind (fun s => (Runs.run System.step s
      [.call 0 (.addNewUser "tea" bobsProfile), .commit 0 4, .commit 0 4]).map (fun t =>
        decide ((s.db.lookup (.chat "tea")).map (hasUser "bob") = some true ∧
          (s.db.lookup (.member "tea" "bob")).bind (fun d => stringField d .userName) =
            some "Bobby" ∧
          (t.db.lookup (.member "tea" "bob")).bind (fun d => stringField d .userName) =
            some "" ∧
          (s.db.lookup (.member "tea" "bob")).bind (fun d => stringField d .colour) =
            some "FF54C0" ∧
          (t.db.lookup (.member "tea" "bob")).bind (fun d => stringField d .colour) =
            some defaultUserColour))) = some true := by
    decide
  obtain ⟨s, hs, hrun⟩ := Option.bind_eq_some_iff.mp hrun
  obtain ⟨t, ht, hfacts⟩ := Option.map_eq_some_iff.mp hrun
  obtain ⟨hmember, hname, hname', hcolour, hcolour'⟩ := of_decide_eq_true hfacts
  have hreachable : s.Reachable := Runs.Reachable.of_run (by decide) hs
  obtain ⟨d, hd, hhas⟩ := Option.map_eq_some_iff.mp hmember
  refine ⟨s, t, hreachable, ⟨d, hd, hhas⟩, ht, hname, hname', hcolour, hcolour', ?_⟩
  intro hunchanged
  rw [hunchanged.members "bob", hname] at hname'
  revert hname'
  decide

end MessagingApp
