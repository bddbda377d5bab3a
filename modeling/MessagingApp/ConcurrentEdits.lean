import MessagingApp.Library.Commutation
import MessagingApp.Replay
import MessagingApp.Schema

/-!
# Concurrent edits of a chat

Six methods edit a chat and its member documents. Each of their writes touches one
thing: an entry of the `users` array, a whole member document, a field of a member
document, or a field of the chat document. Edits that touch different things can be
applied in any order.
-/

namespace MessagingApp

/-! ## Edits and what they touch -/

/-- The edits of a chat. -/
inductive Edit
  | addNewUser (email : Email) (name : String)
  | removeFromChat (member : Email)
  | updateUserName (member : Email) (newUserName : String)
  | updateUserColour (member : Email) (colour : String)
  | updateChatColour (colour : String)
  | updateChatLastActiveTimestamp (onBehalfOf : MessageId)

/-- What a write can touch. -/
inductive Target
  | usersEntry (email : Email)
  | memberDocument (member : Email)
  | memberField (member : Email) (field : Field)
  | chatField (field : Field)

/-- The call of an edit. -/
def Edit.call (chat : ChatId) : Edit → Call
  | .addNewUser email name => .addNewUser chat { email := some email, name := some name }
  | .removeFromChat member => .removeFromChat chat member
  | .updateUserName member newUserName => .updateUserName chat member newUserName
  | .updateUserColour member colour => .updateUserColour chat member colour
  | .updateChatColour colour => .updateChatColour chat colour
  | .updateChatLastActiveTimestamp id => .updateChatLastActiveTimestamp chat id

/-- The writes of an edit, whoever makes it. -/
def Edit.writes (chat : ChatId) (edit : Edit) : List Write :=
  ((edit.call chat).writes none).getD []

/-- The things an edit touches. -/
def Edit.targets : Edit → List Target
  | .addNewUser email _ => [.usersEntry email, .memberDocument email]
  | .removeFromChat member => [.usersEntry member]
  | .updateUserName member _ => [.memberField member .userName]
  | .updateUserColour member _ => [.memberField member .colour]
  | .updateChatColour _ => [.chatField .colour]
  | .updateChatLastActiveTimestamp _ => [.chatField .chatLastActive]

/-- Two things that are not independent of each other. -/
def Target.Overlaps : Target → Target → Prop
  | .usersEntry e, .usersEntry e' => e = e'
  | .memberDocument m, .memberDocument m' => m = m'
  | .memberDocument m, .memberField m' _ => m = m'
  | .memberField m _, .memberDocument m' => m = m'
  | .memberField m f, .memberField m' f' => m = m' ∧ f = f'
  | .chatField f, .chatField f' => f = f'
  | _, _ => False

/-- Two edits that touch different things. -/
def Edit.Disjoint (a b : Edit) : Prop :=
  ∀ target ∈ a.targets, ∀ target' ∈ b.targets, ¬ target.Overlaps target'

/-- The document a target lies in. -/
def Target.path (chat : ChatId) : Target → DocPath
  | .usersEntry _ | .chatField _ => .chat chat
  | .memberDocument m | .memberField m _ => .member chat m

theorem Target.Overlaps.symm {a b : Target} (h : a.Overlaps b) : b.Overlaps a := by
  cases a <;> cases b <;> simp_all [Overlaps]

/-- What a write of an edit does to the target it touches. -/
inductive Touches (chat : ChatId) : Target → Write → Prop
  | document {w : Write} (member : Email) (hpath : w.path = .member chat member)
      (hmode : w.mode = .set) : Touches chat (.memberDocument member) w
  | memberField {w : Write} (member : Email) (field : Field) (v : Value)
      (hpath : w.path = .member chat member) (hmode : w.mode = .merge)
      (hdata : w.data = [(field, .value v)]) : Touches chat (.memberField member field) w
  | chatField {w : Write} (field : Field) (v : FieldValue) (hfield : field ≠ .users)
      (hpath : w.path = .chat chat) (hmode : w.mode = .merge)
      (hdata : w.data = [(field, v)]) : Touches chat (.chatField field) w
  | union {w : Write} (email : Email) (hpath : w.path = .chat chat) (hmode : w.mode ≠ .set)
      (hdata : w.data = [(.users, .arrayUnion [email])]) : Touches chat (.usersEntry email) w
  | remove {w : Write} (email : Email) (hpath : w.path = .chat chat) (hmode : w.mode ≠ .set)
      (hdata : w.data = [(.users, .arrayRemove [email])]) : Touches chat (.usersEntry email) w

/-- The writes of an edit touch its targets, one each. -/
theorem Edit.touches (chat : ChatId) (edit : Edit) :
    List.Forall₂ (Touches chat) edit.targets (edit.writes chat) := by
  cases edit with
  | addNewUser email name =>
    exact .cons (.union email rfl (by simp [MessagingApp.addToUsers]) rfl)
      (.cons (.document email rfl rfl) .nil)
  | removeFromChat member =>
    exact .cons (.remove member rfl (by simp [removalWrite]) rfl) .nil
  | updateUserName member newUserName => exact .cons (.memberField member _ _ rfl rfl rfl) .nil
  | updateUserColour member colour => exact .cons (.memberField member _ _ rfl rfl rfl) .nil
  | updateChatColour colour => exact .cons (.chatField _ _ (by decide) rfl rfl rfl) .nil
  | updateChatLastActiveTimestamp id =>
    exact .cons (.chatField _ _ (by decide) rfl rfl rfl) .nil

/-! ## Documents up to the order of their members -/

/-- Two field values that differ at most in the order of an array. -/
inductive Reordered : Option Value → Option Value → Prop
  | same (v : Option Value) : Reordered v v
  | array {xs ys : List (Option String)} (h : xs.Perm ys) :
      Reordered (some (.array xs)) (some (.array ys))

theorem Reordered.trans {u v w : Option Value} (huv : Reordered u v) (hvw : Reordered v w) :
    Reordered u w := by
  cases huv with
  | same => exact hvw
  | array h =>
    cases hvw with
    | same => exact .array h
    | array h' => exact .array (h.trans h')

theorem Reordered.coercedArray {u v : Option Value} (h : Reordered u v) :
    (coercedArray u).Perm (coercedArray v) := by
  cases h with
  | same => exact .refl _
  | array h => exact h

/-- Two chat documents that differ at most in the order of the `users` array. -/
structure UsersReordered (d d' : Document) : Prop where
  fields : ∀ field, field ≠ .users → d field = d' field
  users : Reordered (d .users) (d' .users)

/-- The two documents under a path are the same, a chat document up to the order of its
`users` array. -/
def SameDocument (path : DocPath) (o o' : Option Document) : Prop :=
  o = o' ∨ ∃ chat d d', path = .chat chat ∧ o = some d ∧ o' = some d' ∧ UsersReordered d d'

/-- The two databases hold the same documents, up to the order of the `users` arrays. -/
def SameDocuments (db db' : Db) : Prop :=
  ∀ path, SameDocument path (db.lookup path) (db'.lookup path)

theorem SameDocument.trans {path : DocPath} {o o' o'' : Option Document}
    (h : SameDocument path o o') (h' : SameDocument path o' o'') : SameDocument path o o'' := by
  rcases h with rfl | ⟨chat, d, d', rfl, rfl, rfl, hdd'⟩
  · exact h'
  · rcases h' with rfl | ⟨_, e, e', _, he, rfl, hee'⟩
    · exact .inr ⟨chat, d, d', rfl, rfl, rfl, hdd'⟩
    · obtain rfl := Option.some.inj he
      exact .inr ⟨chat, d, e', rfl, rfl, rfl,
        fun field hfield => (hdd'.fields field hfield).trans (hee'.fields field hfield),
        hdd'.users.trans hee'.users⟩

/-! ## The array transforms -/

theorem unionEntries_perm {xs ys : List (Option String)} (h : xs.Perm ys) (e : String) :
    (unionEntries xs [e]).Perm (unionEntries ys [e]) := by
  rw [unionEntries_one, unionEntries_one]
  simp only [h.mem_iff]
  split
  · exact h
  · exact h.append_right _

theorem removeEntries_perm {xs ys : List (Option String)} (h : xs.Perm ys) (e : String) :
    (removeEntries xs [e]).Perm (removeEntries ys [e]) := by
  rw [removeEntries_one, removeEntries_one]
  exact h.filter _

/-- Adding two different emails in either order. -/
theorem unionEntries_comm (xs : List (Option String)) {e e' : String} (hne : e ≠ e') :
    (unionEntries (unionEntries xs [e]) [e']).Perm (unionEntries (unionEntries xs [e']) [e]) := by
  by_cases he : some e ∈ xs <;> by_cases he' : some e' ∈ xs <;>
    simp only [unionEntries_one, he, he', if_true, if_false, List.mem_append, List.mem_singleton,
      Option.some.injEq, hne, Ne.symm hne, or_false, List.append_assoc, List.Perm.refl]
  exact (List.Perm.swap _ _ []).append_left xs

/-- Adding one email and removing another in either order. -/
theorem removeEntries_unionEntries (xs : List (Option String)) {e e' : String} (hne : e ≠ e') :
    removeEntries (unionEntries xs [e]) [e'] = unionEntries (removeEntries xs [e']) [e] := by
  have hkeep : some e ∈ xs.filter (fun entry => entry ≠ some e') ↔ some e ∈ xs := by
    simp [List.mem_filter, hne]
  simp only [removeEntries_one, unionEntries_one, hkeep]
  split
  · rfl
  · simp [hne]

/-- Removing two emails in either order. -/
theorem removeEntries_comm (xs : List (Option String)) (e e' : String) :
    removeEntries (removeEntries xs [e]) [e'] = removeEntries (removeEntries xs [e']) [e] := by
  simp only [removeEntries_one, List.filter_filter]
  congr 1
  funext entry
  exact Bool.and_comm _ _

/-! ## One write -/

/-- A write of one field that does not overwrite changes one field. -/
theorem after_single {a : Applied} {path : DocPath} {field : Field} {v : FieldValue}
    (hpath : path = a.2.path) (hmode : a.2.mode ≠ .set) (hdata : a.2.data = [(field, v)])
    (d : Document) :
    after a path (some d) = some (Function.update d field (some (v.eval a.1 (d field)))) := by
  rw [after, if_pos hpath, DocumentStore.Write.base_of_ne_set hmode, hdata, Option.map_some,
    assign_singleton]

/-- A merge into a missing document merges into the empty one. -/
theorem after_merge {a : Applied} (hmode : a.2.mode = .merge) (path : DocPath)
    (old : Option Document) (h : path = a.2.path) :
    after a path old = after a path (some (old.getD fun _ => none)) := by
  simp [after, h, DocumentStore.Write.base, hmode]

/-- Two writes of different fields of one document in either order. -/
theorem after_comm_of_ne {a b : Applied} {path : DocPath} {field field' : Field}
    {v v' : FieldValue} (hpa : path = a.2.path) (hpb : path = b.2.path)
    (hma : a.2.mode ≠ .set) (hmb : b.2.mode ≠ .set) (hda : a.2.data = [(field, v)])
    (hdb : b.2.data = [(field', v')]) (hne : field ≠ field') (d : Document) :
    after b path (after a path (some d)) = after a path (after b path (some d)) := by
  rw [after_single hpa hma hda, after_single hpb hmb hdb, after_single hpb hmb hdb,
    after_single hpa hma hda, Function.update_of_ne (Ne.symm hne), Function.update_of_ne hne,
    Function.update_comm hne]

/-- Two transforms of the `users` array in either order, when they commute on arrays. -/
theorem after_comm_users {a b : Applied} {path : DocPath} {chat : ChatId} {v v' : FieldValue}
    (hpa : path = a.2.path) (hpb : path = b.2.path) (hchat : path = .chat chat)
    (hma : a.2.mode ≠ .set) (hmb : b.2.mode ≠ .set) (hda : a.2.data = [(.users, v)])
    (hdb : b.2.data = [(.users, v')]) (d : Document)
    (hcomm : Reordered (some (v'.eval b.1 (some (v.eval a.1 (d .users)))))
      (some (v.eval a.1 (some (v'.eval b.1 (d .users)))))) :
    SameDocument path (after b path (after a path (some d)))
      (after a path (after b path (some d))) := by
  rw [after_single hpa hma hda, after_single hpb hmb hdb, after_single hpb hmb hdb,
    after_single hpa hma hda, Function.update_idem, Function.update_idem, Function.update_self,
    Function.update_self]
  refine .inr ⟨chat, _, _, hchat, rfl, rfl, ?_, ?_⟩
  · intro field hfield
    rw [Function.update_of_ne hfield, Function.update_of_ne hfield]
  · rw [Function.update_self, Function.update_self]
    exact hcomm

/-- Chat documents stay the same up to the order of the array when both get the same field. -/
theorem UsersReordered.update {d d' : Document} (h : UsersReordered d d') {field : Field}
    (hfield : field ≠ .users) (v : Option Value) :
    UsersReordered (Function.update d field v) (Function.update d' field v) where
  fields field' hfield' := by
    by_cases heq : field' = field
    · rw [heq, Function.update_self, Function.update_self]
    · rw [Function.update_of_ne heq, Function.update_of_ne heq, h.fields field' hfield']
  users := by
    rw [Function.update_of_ne (Ne.symm hfield), Function.update_of_ne (Ne.symm hfield)]
    exact h.users

/-- Chat documents stay the same up to the order of the array when both get arrays that are. -/
theorem UsersReordered.update_users {d d' : Document} (h : UsersReordered d d')
    {v v' : Option Value} (hv : Reordered v v') :
    UsersReordered (Function.update d .users v) (Function.update d' .users v') where
  fields field' hfield' := by
    rw [Function.update_of_ne hfield', Function.update_of_ne hfield', h.fields field' hfield']
  users := by
    rw [Function.update_self, Function.update_self]
    exact hv

section touches

variable {chat : ChatId} {target target' : Target} {a b : Applied}

theorem Touches.path_eq {w : Write} (h : Touches chat target w) : w.path = target.path chat := by
  cases h with
  | document _ hpath | memberField _ _ _ hpath | chatField _ _ _ hpath | union _ hpath
  | remove _ hpath => exact hpath

/-- An edit's write on a stored chat is accepted. -/
theorem Touches.exists_apply (h : Touches chat target a.2) {db : Db}
    (hchat : DocPath.chat chat ∈ db) :
    ∃ t, apply db a = some t ∧ DocPath.chat chat ∈ t := by
  have hbase : ∃ d, a.2.base (db.lookup a.2.path) = some d := by
    cases h with
    | document member hpath hmode => exact ⟨_, DocumentStore.Write.base_of_set hmode _⟩
    | memberField member field v hpath hmode hdata =>
      exact ⟨_, by rw [DocumentStore.Write.base, hmode]⟩
    | chatField field v hfield hpath hmode hdata =>
      exact ⟨_, by rw [DocumentStore.Write.base, hmode]⟩
    | union email hpath hmode hdata | remove email hpath hmode hdata =>
      obtain ⟨d, hd⟩ := DocumentStore.exists_lookup hchat
      exact ⟨d, by rw [hpath, hd, DocumentStore.Write.base_of_ne_set hmode]⟩
  obtain ⟨d, hd⟩ := hbase
  have happly : apply db a = some (db.insert a.2.path
      (DocumentStore.assign (FieldValue.eval a.1) d a.2.data)) :=
    DocumentStore.Write.commit_eq_some_iff.mpr ⟨d, hd, rfl⟩
  exact ⟨_, happly, DocumentStore.Write.mem_commit_of_mem happly hchat⟩

/-- Writes of edits do not depend on the order of the `users` array. -/
theorem Touches.congr (h : Touches chat target a.2) {path : DocPath} {old old' : Option Document}
    (hsame : SameDocument path old old') :
    SameDocument path (after a path old) (after a path old') := by
  rcases hsame with rfl | ⟨chat', d, d', hchat, rfl, rfl, hdd'⟩
  · exact .inl rfl
  by_cases hpa : path = a.2.path
  · cases h with
    | document member hpath | memberField member _ _ hpath =>
      rw [hpa, hpath] at hchat
      cases hchat
    | chatField field v hfield hpath hmode hdata =>
      have hset : a.2.mode ≠ .set := by simp [hmode]
      rw [after_single hpa hset hdata, after_single hpa hset hdata, hdd'.fields field hfield]
      exact .inr ⟨chat', _, _, hchat, rfl, rfl, hdd'.update hfield _⟩
    | union email hpath hmode hdata =>
      rw [after_single hpa hmode hdata, after_single hpa hmode hdata]
      exact .inr ⟨chat', _, _, hchat, rfl, rfl,
        hdd'.update_users (.array (unionEntries_perm hdd'.users.coercedArray email))⟩
    | remove email hpath hmode hdata =>
      rw [after_single hpa hmode hdata, after_single hpa hmode hdata]
      exact .inr ⟨chat', _, _, hchat, rfl, rfl,
        hdd'.update_users (.array (removeEntries_perm hdd'.users.coercedArray email))⟩
  · rw [after_of_ne hpa, after_of_ne hpa]
    exact .inr ⟨chat', d, d', hchat, rfl, rfl, hdd'⟩

/-- Two writes to one chat document that touch different things commute up to the order of
the `users` array. -/
theorem Touches.comm_chat (ha : Touches chat target a.2) (hb : Touches chat target' b.2)
    (hne : ¬ target.Overlaps target') {path : DocPath} (hpa : path = a.2.path)
    (hpb : path = b.2.path) (hchat : path = .chat chat) (d : Document) :
    SameDocument path (after b path (after a path (some d)))
      (after a path (after b path (some d))) := by
  have hmember : ∀ {w : Write} {m : Email}, path = w.path → w.path ≠ .member chat m := by
    intro w m hp hm
    rw [hchat, hm] at hp
    cases hp
  cases ha with
  | document m hp | memberField m _ _ hp => exact absurd hp (hmember hpa)
  | chatField f v hf hp hm hd =>
    have hset : a.2.mode ≠ .set := by simp [hm]
    cases hb with
    | document m hp | memberField m _ _ hp => exact absurd hp (hmember hpb)
    | chatField f' v' hf' hp' hm' hd' =>
      exact .inl (after_comm_of_ne hpa hpb hset (by simp [hm']) hd hd' hne d)
    | union e hp' hm' hd' => exact .inl (after_comm_of_ne hpa hpb hset hm' hd hd' hf d)
    | remove e hp' hm' hd' => exact .inl (after_comm_of_ne hpa hpb hset hm' hd hd' hf d)
  | union e hp hm hd =>
    cases hb with
    | document m hp | memberField m _ _ hp => exact absurd hp (hmember hpb)
    | chatField f' v' hf' hp' hm' hd' =>
      exact .inl (after_comm_of_ne hpa hpb hm (by simp [hm']) hd hd' (Ne.symm hf') d)
    | union e' hp' hm' hd' =>
      exact after_comm_users hpa hpb hchat hm hm' hd hd' d (.array (unionEntries_comm _ hne))
    | remove e' hp' hm' hd' =>
      refine after_comm_users hpa hpb hchat hm hm' hd hd' d (.array ?_)
      exact .of_eq (removeEntries_unionEntries _ hne)
  | remove e hp hm hd =>
    cases hb with
    | document m hp | memberField m _ _ hp => exact absurd hp (hmember hpb)
    | chatField f' v' hf' hp' hm' hd' =>
      exact .inl (after_comm_of_ne hpa hpb hm (by simp [hm']) hd hd' (Ne.symm hf') d)
    | union e' hp' hm' hd' =>
      refine after_comm_users hpa hpb hchat hm hm' hd hd' d (.array ?_)
      exact .of_eq (removeEntries_unionEntries _ (Ne.symm hne)).symm
    | remove e' hp' hm' hd' =>
      refine after_comm_users hpa hpb hchat hm hm' hd hd' d (.array ?_)
      exact .of_eq (removeEntries_comm _ e e')

/-- Two writes to one member document that touch different things commute. -/
theorem Touches.comm_member (ha : Touches chat target a.2) (hb : Touches chat target' b.2)
    (hne : ¬ target.Overlaps target') {path : DocPath} (hpa : path = a.2.path)
    (hpb : path = b.2.path) (hchat : path ≠ .chat chat) (old : Option Document) :
    after b path (after a path old) = after a path (after b path old) := by
  have hsame : ∀ {m m' : Email}, a.2.path = .member chat m → b.2.path = .member chat m' →
      m = m' := by
    intro m m' hm hm'
    rw [← hpa, hpb, hm'] at hm
    exact (DocPath.member.inj hm).2.symm
  cases ha with
  | chatField _ _ _ hp | union _ hp | remove _ hp => exact absurd (hpa.trans hp) hchat
  | document m hp =>
    cases hb with
    | chatField _ _ _ hp' | union _ hp' | remove _ hp' => exact absurd (hpb.trans hp') hchat
    | document m' hp' | memberField m' _ _ hp' => exact absurd (hsame hp hp') hne
  | memberField m f v hp hm hd =>
    cases hb with
    | chatField _ _ _ hp' | union _ hp' | remove _ hp' => exact absurd (hpb.trans hp') hchat
    | document m' hp' => exact absurd (hsame hp hp') hne
    | memberField m' f' v' hp' hm' hd' =>
      have hff' : f ≠ f' := fun hf => hne ⟨hsame hp hp', hf⟩
      rw [after_merge hm path old hpa, after_merge hm' path old hpb]
      exact after_comm_of_ne hpa hpb (by simp [hm]) (by simp [hm']) hd hd' hff' _

/-- **Disjoint writes commute** on every document of a database that holds the chat. -/
theorem Touches.comm (ha : Touches chat target a.2) (hb : Touches chat target' b.2)
    (hne : ¬ target.Overlaps target') {path : DocPath} {old : Option Document}
    (hold : path = .chat chat → ∃ d, old = some d) :
    SameDocument path (after b path (after a path old)) (after a path (after b path old)) := by
  by_cases hpa : path = a.2.path
  · by_cases hpb : path = b.2.path
    · by_cases hchat : path = .chat chat
      · obtain ⟨d, rfl⟩ := hold hchat
        exact ha.comm_chat hb hne hpa hpb hchat d
      · exact .inl (ha.comm_member hb hne hpa hpb hchat old)
    · rw [after_of_ne hpb, after_of_ne hpb]
      exact .inl rfl
  · rw [after_of_ne hpa, after_of_ne hpa]
    exact .inl rfl

end touches

/-! ## Any order of the edits -/

/-- Two writes of edits that touch different things. -/
def Independent (chat : ChatId) (w w' : Write) : Prop :=
  ∃ target target', Touches chat target w ∧ Touches chat target' w' ∧ ¬ target.Overlaps target'

theorem Independent.symm {chat : ChatId} {w w' : Write} (h : Independent chat w w') :
    Independent chat w' w := by
  obtain ⟨target, target', hw, hw', hne⟩ := h
  exact ⟨target', target, hw', hw, fun hoverlap => hne hoverlap.symm⟩

/-- The writes of a list of edits touch its targets, one each. -/
theorem touches_flatMap (chat : ChatId) (edits : List Edit) :
    List.Forall₂ (Touches chat) (edits.flatMap Edit.targets)
      (edits.flatMap (Edit.writes chat)) := by
  induction edits with
  | nil => exact .nil
  | cons edit edits ih =>
    rw [List.flatMap_cons, List.flatMap_cons]
    exact List.rel_append (edit.touches chat) ih

/-- The targets of one edit do not overlap. -/
theorem Edit.targets_pairwise (edit : Edit) :
    edit.targets.Pairwise (fun target target' => ¬ target.Overlaps target') := by
  cases edit <;> simp [targets, Target.Overlaps]

/-- Writes that touch different targets are pairwise independent. -/
theorem independent_of_touches {chat : ChatId} {targets : List Target} {ws : List Write}
    (h : List.Forall₂ (Touches chat) targets ws)
    (hne : targets.Pairwise (fun target target' => ¬ target.Overlaps target')) :
    ws.Pairwise (Independent chat) ∧ ∀ w ∈ ws, ∃ target ∈ targets, Touches chat target w := by
  induction h with
  | nil => simp
  | @cons target w targets ws htouch _ ih =>
    obtain ⟨hhead, htail⟩ := List.pairwise_cons.mp hne
    obtain ⟨hpairwise, hexists⟩ := ih htail
    refine ⟨List.pairwise_cons.mpr ⟨?_, hpairwise⟩, ?_⟩
    · intro w' hw'
      obtain ⟨target', htarget', htouch'⟩ := hexists w' hw'
      exact ⟨target, target', htouch, htouch', hhead target' htarget'⟩
    · intro w' hw'
      rcases List.mem_cons.mp hw' with rfl | hw'
      · exact ⟨target, List.mem_cons_self, htouch⟩
      · obtain ⟨target', htarget', htouch'⟩ := hexists w' hw'
        exact ⟨target', List.mem_cons_of_mem _ htarget', htouch'⟩

/-- The writes of pairwise disjoint edits are pairwise independent, in any order and at any
times. -/
theorem independent_of_disjoint {chat : ChatId} {edits : List Edit}
    (hdisjoint : edits.Pairwise Edit.Disjoint) {applied : List Applied}
    (hwrites : (applied.map Prod.snd).Perm (edits.flatMap (Edit.writes chat))) :
    applied.Pairwise (fun a b => Independent chat a.2 b.2) ∧
      ∀ a ∈ applied, ∃ target, Touches chat target a.2 := by
  have htargets : (edits.flatMap Edit.targets).Pairwise
      (fun target target' => ¬ target.Overlaps target') :=
    List.pairwise_flatMap.mpr ⟨fun edit _ => edit.targets_pairwise, hdisjoint⟩
  obtain ⟨hpairwise, hexists⟩ := independent_of_touches (touches_flatMap chat edits) htargets
  refine ⟨List.pairwise_map.mp ((hwrites.pairwise_iff Independent.symm).mpr hpairwise), ?_⟩
  intro a ha
  obtain ⟨target, _, htouch⟩ := hexists a.2
    (hwrites.mem_iff.mp (List.mem_map.mpr ⟨a, ha, rfl⟩))
  exact ⟨target, htouch⟩

/-- Writes of edits on a stored chat are accepted and respect the comparison of databases. -/
theorem respects_sameDocuments (chat : ChatId) :
    Commutation.Respects apply (fun a => ∃ target, Touches chat target a.2)
      (fun db => DocPath.chat chat ∈ db) SameDocuments where
  refl _ _ := .inl rfl
  trans h h' path := (h path).trans (h' path)
  total hchat := fun ⟨_, h⟩ => h.exists_apply hchat
  congr := by
    rintro db db' t t' a hsame ⟨target, h⟩ ht ht' path
    rw [lookup_apply ht, lookup_apply ht']
    exact h.congr (hsame path)

/-- Independent writes commute. -/
theorem Independent.commutes {chat : ChatId} {a b : Applied} (h : Independent chat a.2 b.2) :
    Commutation.Commutes apply (fun db => DocPath.chat chat ∈ db) SameDocuments a b := by
  obtain ⟨target, target', ha, hb, hne⟩ := h
  intro db t t' hchat ht ht' path
  obtain ⟨u, hu, ht⟩ := Option.bind_eq_some_iff.mp ht
  obtain ⟨u', hu', ht'⟩ := Option.bind_eq_some_iff.mp ht'
  obtain ⟨v, hv, hvt⟩ := Option.bind_eq_some_iff.mp ht
  obtain ⟨v', hv', hvt'⟩ := Option.bind_eq_some_iff.mp ht'
  obtain rfl := Option.some.inj hvt
  obtain rfl := Option.some.inj hvt'
  rw [lookup_apply hv, lookup_apply hu, lookup_apply hv', lookup_apply hu']
  refine ha.comm hb hne ?_
  rintro rfl
  exact DocumentStore.exists_lookup hchat

/-- All orders of the writes of disjoint edits are accepted and leave the same documents. -/
theorem exists_runs_of_disjoint {chat : ChatId} {db : Db} (hchat : DocPath.chat chat ∈ db)
    {edits : List Edit} (hdisjoint : edits.Pairwise Edit.Disjoint)
    {applied order : List Applied}
    (hwrites : (applied.map Prod.snd).Perm (edits.flatMap (Edit.writes chat)))
    (horder : applied.Perm order) :
    ∃ t t', Runs.run apply db applied = some t ∧ Runs.run apply db order = some t' ∧
      SameDocuments t t' := by
  have hrespects := respects_sameDocuments chat
  obtain ⟨hpairwise, htouch⟩ := independent_of_disjoint hdisjoint hwrites
  obtain ⟨t, ht, _⟩ := hrespects.total_run hchat htouch
  obtain ⟨t', ht', _⟩ := hrespects.total_run hchat fun a ha =>
    htouch a (horder.mem_iff.mpr ha)
  have hcomm : applied.Pairwise
      (Commutation.Commutes apply (fun db => DocPath.chat chat ∈ db) SameDocuments) :=
    hpairwise.imp fun h => h.commutes
  have hcomm' : applied.Pairwise
      (flip (Commutation.Commutes apply (fun db => DocPath.chat chat ∈ db) SameDocuments)) :=
    hpairwise.imp fun h => h.symm.commutes
  refine ⟨t, t', ht, ht', hrespects.run_perm horder htouch ?_ hchat ht ht'⟩
  intro a ha b hb
  exact List.Pairwise.forall_of_forall_of_flip (fun a _ => .self hrespects a) hcomm hcomm' ha hb

/-- What is left of an edit: the thing it touches is as the edit made it. -/
def Edit.Survives (chat : ChatId) (applied : List Applied) (t : Db) : Edit → Prop
  | .addNewUser email name =>
      (∃ d, t.lookup (.chat chat) = some d ∧ some email ∈ coercedArray (d .users)) ∧
        ∃ time, t.lookup (.member chat email) =
          some (newDocument time (addedDocument chat email name))
  | .removeFromChat member =>
      ∃ d, t.lookup (.chat chat) = some d ∧ some member ∉ coercedArray (d .users)
  | .updateUserName member newUserName =>
      ∃ d, t.lookup (.member chat member) = some d ∧ stringField d .userName = some newUserName
  | .updateUserColour member colour =>
      ∃ d, t.lookup (.member chat member) = some d ∧ stringField d .colour = some colour
  | .updateChatColour colour =>
      ∃ d, t.lookup (.chat chat) = some d ∧ stringField d .colour = some colour
  | .updateChatLastActiveTimestamp _ =>
      ∃ d time, t.lookup (.chat chat) = some d ∧
        (time, MessagingApp.updateChatLastActiveTimestamp chat) ∈ applied ∧
        timestampField d .chatLastActive = some time

section survives

/-- A document that is the same up to the order of its `users` array. -/
theorem SameDocument.exists_of_some {path : DocPath} {d : Document} {o : Option Document}
    (h : SameDocument path (some d) o) : ∃ d', o = some d' ∧ UsersReordered d d' := by
  rcases h with rfl | ⟨chat, d, d', _, hd, rfl, hdd'⟩
  · exact ⟨d, rfl, fun _ _ => rfl, .same _⟩
  · obtain rfl := Option.some.inj hd
    exact ⟨d', rfl, hdd'⟩

variable {chat : ChatId} {db t : Db} {edits : List Edit} {applied : List Applied}
  (hchat : DocPath.chat chat ∈ db) (hdisjoint : edits.Pairwise Edit.Disjoint)
  (hwrites : (applied.map Prod.snd).Perm (edits.flatMap (Edit.writes chat)))
  (hrun : Runs.run apply db applied = some t)
include hchat hdisjoint hwrites hrun

/-- **Every write is as good as the last one**: the document is as if the write had come after all
the others. -/
theorem sameDocument_after {a : Applied} (ha : a ∈ applied) :
    ∃ old, (a.2.path = .chat chat → ∃ d, old = some d) ∧
      SameDocument a.2.path (after a a.2.path old) (t.lookup a.2.path) := by
  obtain ⟨before, later, rfl⟩ := List.append_of_mem ha
  have horder : (before ++ later ++ [a]).Perm (before ++ a :: later) := by
    rw [List.append_assoc]
    exact (List.perm_append_singleton a later).append_left before
  obtain ⟨t', t'', ht', ht'', hsame⟩ := exists_runs_of_disjoint hchat hdisjoint
    ((horder.map Prod.snd).trans hwrites) horder
  obtain rfl := Option.some.inj (hrun.symm.trans ht'')
  rw [Runs.run_append] at ht'
  obtain ⟨u, hu, hlast⟩ := Option.bind_eq_some_iff.mp ht'
  obtain ⟨v, hv, hnil⟩ := Runs.run_cons_eq_some.mp hlast
  obtain rfl := Option.some.inj hnil
  refine ⟨u.lookup a.2.path, fun hpath => ?_, lookup_apply hv a.2.path ▸ hsame a.2.path⟩
  have htouch : ∀ b ∈ before ++ later, ∃ target, Touches chat target b.2 := by
    intro b hb
    refine (independent_of_disjoint hdisjoint hwrites).2 b ?_
    exact horder.mem_iff.mp (List.mem_append_left _ hb)
  obtain ⟨u', hu', hstored⟩ := (respects_sameDocuments chat).total_run hchat htouch
  obtain rfl := Option.some.inj (hu.symm.trans hu')
  rw [hpath]
  exact DocumentStore.exists_lookup hstored

/-- A field that a merge writes has what the merge wrote. -/
theorem exists_field {time : Time} {w : Write} (ha : (time, w) ∈ applied) {field : Field}
    {v : FieldValue} (hmode : w.mode = .merge) (hdata : w.data = [(field, v)])
    (hfield : field ≠ .users) :
    ∃ d old, t.lookup w.path = some d ∧ d field = some (v.eval time old) := by
  obtain ⟨old, _, hsame⟩ := sameDocument_after hchat hdisjoint hwrites hrun ha
  have hset : w.mode ≠ .set := by simp [hmode]
  rw [after_merge hmode _ _ rfl, after_single rfl hset hdata] at hsame
  obtain ⟨d, hd, hreordered⟩ := hsame.exists_of_some
  have hvalue := hreordered.fields field hfield
  rw [Function.update_self] at hvalue
  exact ⟨d, _, hd, hvalue.symm⟩

/-- The `users` array has what a transform of it wrote, up to the order. -/
theorem exists_users {time : Time} {w : Write} (ha : (time, w) ∈ applied) {v : FieldValue}
    (hpath : w.path = .chat chat) (hmode : w.mode ≠ .set) (hdata : w.data = [(.users, v)]) :
    ∃ d old, t.lookup (.chat chat) = some d ∧ Reordered (some (v.eval time old)) (d .users) := by
  obtain ⟨old, hold, hsame⟩ := sameDocument_after hchat hdisjoint hwrites hrun ha
  obtain ⟨d, rfl⟩ := hold hpath
  rw [after_single rfl hmode hdata] at hsame
  obtain ⟨d', hd', hreordered⟩ := hsame.exists_of_some
  rw [hpath] at hd'
  have husers := hreordered.users
  rw [Function.update_self] at husers
  exact ⟨d', d .users, hd', husers⟩

/-- **No edit is lost**: in whatever order the writes are applied, in the end each edit shows. -/
theorem Edit.survives {edit : Edit} (hedit : edit ∈ edits) : edit.Survives chat applied t := by
  have happlied : ∀ w ∈ edit.writes chat, ∃ time, (time, w) ∈ applied := by
    intro w hw
    obtain ⟨a, ha, rfl⟩ := List.mem_map.mp
      (hwrites.mem_iff.mpr (List.mem_flatMap.mpr ⟨edit, hedit, hw⟩))
    exact ⟨a.1, ha⟩
  have hstring : ∀ (w : Write) (field : Field) (text : String), w ∈ edit.writes chat →
      w.mode = .merge → w.data = [(field, .value (.string text))] → field ≠ .users →
        ∃ d, t.lookup w.path = some d ∧ stringField d field = some text := by
    intro w field text hw hmode hdata hfield
    obtain ⟨time, ha⟩ := happlied w hw
    obtain ⟨d, old, hd, hvalue⟩ :=
      exists_field hchat hdisjoint hwrites hrun ha hmode hdata hfield
    exact ⟨d, hd, by rw [stringField, hvalue]; rfl⟩
  cases edit with
  | addNewUser email name =>
    obtain ⟨time, ha⟩ := happlied (addToUsers chat email) List.mem_cons_self
    obtain ⟨time', ha'⟩ := happlied (addedDocument chat email name) (by simp [writes, call,
      Call.writes, MessagingApp.addNewUser])
    constructor
    · obtain ⟨d, old, hd, husers⟩ :=
        exists_users hchat hdisjoint hwrites hrun ha rfl (by simp [addToUsers]) rfl
      refine ⟨d, hd, husers.coercedArray.mem_iff.mp ?_⟩
      change some email ∈ unionEntries (coercedArray old) [email]
      rw [unionEntries_one]
      split
      case isTrue hmem => exact hmem
      case isFalse => simp
    · obtain ⟨old, _, hsame⟩ := sameDocument_after hchat hdisjoint hwrites hrun ha'
      refine ⟨time', ?_⟩
      rcases hsame with heq | ⟨_, _, _, hpath, _⟩
      · rw [after, if_pos rfl, DocumentStore.Write.base_of_set rfl] at heq
        exact heq.symm
      · cases hpath
  | removeFromChat member =>
    obtain ⟨time, ha⟩ := happlied (removalWrite chat member) List.mem_cons_self
    obtain ⟨d, old, hd, husers⟩ :=
      exists_users hchat hdisjoint hwrites hrun ha rfl (by simp [removalWrite]) rfl
    refine ⟨d, hd, fun hmem => ?_⟩
    have hkept : some member ∈ removeEntries (coercedArray old) [member] :=
      husers.coercedArray.mem_iff.mpr hmem
    simp [removeEntries_one] at hkept
  | updateUserName member newUserName =>
    exact hstring (userNameWrite newUserName chat member) .userName newUserName
      List.mem_cons_self rfl rfl (by decide)
  | updateUserColour member colour =>
    exact hstring (userColourWrite colour chat member) .colour colour List.mem_cons_self rfl rfl
      (by decide)
  | updateChatColour colour =>
    exact hstring (chatColourWrite colour chat) .colour colour List.mem_cons_self rfl rfl
      (by decide)
  | updateChatLastActiveTimestamp onBehalfOf =>
    obtain ⟨time, ha⟩ :=
      happlied (MessagingApp.updateChatLastActiveTimestamp chat) List.mem_cons_self
    obtain ⟨d, old, hd, hvalue⟩ :=
      exists_field hchat hdisjoint hwrites hrun ha rfl rfl (by decide)
    exact ⟨d, time, hd, ha, by rw [timestampField, hvalue]; rfl⟩

end survives

/-- **Concurrent edits of different things are never lost.** Take a stored chat, edits that
pairwise touch different things, and the writes of all of them, each with the time it is
applied at. All orders of these writes are accepted and leave the same documents, up to the
order of the `users` array. -/
theorem concurrent_edits_commute {chat : ChatId} {db : Db} (hchat : DocPath.chat chat ∈ db)
    {edits : List Edit} (hdisjoint : edits.Pairwise Edit.Disjoint)
    {applied order : List Applied}
    (hwrites : (applied.map Prod.snd).Perm (edits.flatMap (Edit.writes chat)))
    (horder : applied.Perm order) :
    ∃ t t', Runs.run apply db applied = some t ∧ Runs.run apply db order = some t' ∧
      SameDocuments t t' :=
  exists_runs_of_disjoint hchat hdisjoint hwrites horder

/-- Adding `bob` while `ann` is removed and renamed and the chat recoloured, in the order of the
calls and in the opposite order. -/
theorem concurrent_edits_commute_on_four : ∃ t t',
    Runs.run apply
      (AList.singleton (.chat "tea") fun field =>
        if field = .users then some (.array [some "ann"]) else none)
      [(5, addToUsers "tea" "bob"), (5, addedDocument "tea" "bob" "Bob"),
       (6, removalWrite "tea" "ann"), (7, userNameWrite "Annie" "tea" "ann"),
       (8, chatColourWrite "202020" "tea")] = some t ∧
    Runs.run apply
      (AList.singleton (.chat "tea") fun field =>
        if field = .users then some (.array [some "ann"]) else none)
      [(8, chatColourWrite "202020" "tea"), (7, userNameWrite "Annie" "tea" "ann"),
       (6, removalWrite "tea" "ann"), (5, addedDocument "tea" "bob" "Bob"),
       (5, addToUsers "tea" "bob")] = some t' ∧
    SameDocuments t t' := by
  have hdisjoint : [Edit.addNewUser "bob" "Bob", .removeFromChat "ann",
      .updateUserName "ann" "Annie", .updateChatColour "202020"].Pairwise Edit.Disjoint := by
    simp [Edit.Disjoint, Edit.targets, Target.Overlaps]
  exact concurrent_edits_commute (by decide) hdisjoint (.refl _) (List.reverse_perm _).symm

end MessagingApp
