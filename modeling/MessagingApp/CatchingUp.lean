import MessagingApp.ChatList
import MessagingApp.ReplicaRefinement
import MessagingApp.Transcript

/-!
# Clients catch up with the server

Documents may reach a client in any order, late, more than once, or after newer
ones, and answers may be processed before or after the documents they concern. Once
a client without writes in its queue has been sent every document and has nothing
more to process, every query it shows has exactly the result it has on the server.
So its chat list and its messages screens show what they show on the server's
snapshots.
-/

namespace MessagingApp

/-! ## A view that shows what is stored -/

/-- The documents with the property `P` are shown as they are stored. -/
def UpToDate (P : DocPath → Prop) (view : LocalDb) (db : Db) : Prop :=
  ∀ path, P path → view.lookup path =
    (db.lookup path).map (DocumentStore.mapFields LocalValue.known)

/-- A listener whose documents all have the property `P` is handed what the server has. -/
structure ShowsStored (P : DocPath → Prop) (view : LocalDb) (db : Db) : Prop where
  document : ∀ path, P path → localDocument view path = db.lookup path
  chats : (∀ chat, P (.chat chat)) → ∀ email, localChatsOf email view = chatsOf email db
  users : ∀ chat, (∀ member, P (.member chat member)) → localUsersOf chat view = usersOf chat db
  messages : ∀ chat, (∀ id, P (.message chat id)) → localMessagesOf chat view = messagesOf chat db
  profiles : (∀ user, P (.profile user)) → localProfiles view = profiles db

/-- A stored document is shown as it is. -/
theorem shown_known (d : Document) :
    LocalDocument.shown (DocumentStore.mapFields LocalValue.known d) = d := by
  funext k
  simp only [LocalDocument.shown, DocumentStore.mapFields]
  cases d k <;> rfl

/-- A stored document is ordered by its time. -/
theorem orderKey_known (field : Field) (d : Document) :
    (DocumentStore.mapFields LocalValue.known d field).bind LocalValue.orderKey =
      (timestampField d field).map fun t => toLex (0, t) := by
  simp only [timestampField, DocumentStore.mapFields]
  cases d field with
  | none => rfl
  | some v => cases v <;> rfl

/-- Two documents from the server are ordered as they are there. -/
theorem localRank_known (field : Field) (id : String) (d : Document) :
    localRank field ⟨id, DocumentStore.mapFields LocalValue.known d⟩ =
      toLex (toLex (0, orderTime field ⟨id, d⟩), id) := by
  rw [localRank, orderKey_known, orderTime]
  cases timestampField d field <;> rfl

/-- A selection of what a client holds lists no identifier twice. -/
theorem localDocuments_ids_nodup {select : DocPath → Option String} (view : LocalDb)
    (hinj : ∀ p q i, select p = some i → select q = some i → p = q) :
    ((localDocuments select view).map LocalQueryDocument.documentID).Nodup := by
  rw [localDocuments, List.map_map]
  exact DocumentStore.collection_ids_nodup hinj

/-- A selection as the app is handed it lists no identifier twice. -/
theorem shown_ids_nodup {select : DocPath → Option String} (view : LocalDb)
    (hinj : ∀ p q i, select p = some i → select q = some i → p = q) :
    (((localDocuments select view).map LocalQueryDocument.shown).map
      QueryDocument.documentID).Nodup := by
  rw [List.map_map]
  exact localDocuments_ids_nodup view hinj

/-- Documents from the server are ranked on a client as they are there. -/
theorem localOrderedBy_ranked {field : Field} {docs : List LocalQueryDocument}
    (hids : (docs.map LocalQueryDocument.documentID).Nodup)
    (hknown : ∀ d ∈ docs, ∃ d' : Document, d.data = DocumentStore.mapFields LocalValue.known d') :
    RankedLists.Ranked (rankBy field)
      ((localOrderedBy field docs).map LocalQueryDocument.shown) := by
  let Before (a b : LocalQueryDocument) : Prop := localRank field b ≤ localRank field a
  have htotal : Std.Total Before := ⟨fun a b => le_total (localRank field b) (localRank field a)⟩
  have htrans : IsTrans LocalQueryDocument Before := ⟨fun _ _ _ hab hbc => hbc.trans hab⟩
  have hsorted : (localOrderedBy field docs).Pairwise Before := List.pairwise_insertionSort _ _
  have hids' : ((localOrderedBy field docs).map LocalQueryDocument.documentID).Nodup := by
    have hperm := (List.perm_insertionSort Before (docs.filter fun d =>
      ((d.data field).bind LocalValue.orderKey).isSome)).map LocalQueryDocument.documentID
    exact hperm.nodup_iff.mpr (hids.sublist (List.filter_sublist.map _))
  refine List.pairwise_map.mpr
    ((hsorted.and (List.pairwise_map.mp hids')).imp_of_mem ?_)
  rintro ⟨id, a⟩ ⟨id', b⟩ ha hb ⟨hle, hne⟩
  obtain ⟨a', rfl⟩ := hknown _ (mem_localOrderedBy.mp ha).1
  obtain ⟨b', rfl⟩ := hknown _ (mem_localOrderedBy.mp hb).1
  have hlt : localRank field ⟨id', DocumentStore.mapFields LocalValue.known b'⟩ <
      localRank field ⟨id, DocumentStore.mapFields LocalValue.known a'⟩ := by
    refine lt_of_le_of_ne hle fun heq => hne ?_
    exact (congrArg (fun rank => (ofLex rank).2) heq).symm
  rw [localRank_known, localRank_known] at hlt
  simp only [LocalQueryDocument.shown, shown_known, rankBy]
  rcases Prod.Lex.toLex_lt_toLex.mp hlt with htime | ⟨htime, hid⟩
  · refine Prod.Lex.toLex_lt_toLex.mpr (.inl ?_)
    simpa [Prod.Lex.toLex_lt_toLex] using htime
  · refine Prod.Lex.toLex_lt_toLex.mpr (.inr ⟨?_, hid⟩)
    simpa using htime

namespace UpToDate

variable {P : DocPath → Prop} {view : LocalDb} {db : Db} (h : UpToDate P view db)
include h

theorem localDocument_eq {path : DocPath} (hpath : P path) :
    localDocument view path = db.lookup path := by
  rw [localDocument, h path hpath, Option.map_map]
  exact (Option.map_congr fun d _ => shown_known d).trans Option.map_id'

/-- What is selected came from the server. -/
theorem known_of_mem {select : DocPath → Option String}
    (hselect : ∀ path i, select path = some i → P path) {d : LocalQueryDocument}
    (hd : d ∈ localDocuments select view) :
    ∃ d' : Document, d.data = DocumentStore.mapFields LocalValue.known d' := by
  obtain ⟨path, hpath, hlookup⟩ := mem_localDocuments.mp hd
  rw [h path (hselect path _ hpath)] at hlookup
  obtain ⟨d', _, hdata⟩ := Option.map_eq_some_iff.mp hlookup
  exact ⟨d', hdata.symm⟩

/-- A document that is ordered by a time is the stored one. -/
theorem exists_ordered_iff {path : DocPath} (hpath : P path) {field : Field} {d : Document} :
    (∃ d' : LocalDocument, view.lookup path = some d' ∧ d'.shown = d ∧
      ((d' field).bind LocalValue.orderKey).isSome) ↔
      db.lookup path = some d ∧ (timestampField d field).isSome := by
  constructor
  · rintro ⟨d', hd', rfl, hkey⟩
    rw [h path hpath] at hd'
    obtain ⟨d, hd, rfl⟩ := Option.map_eq_some_iff.mp hd'
    rw [shown_known]
    rw [orderKey_known, Option.isSome_map] at hkey
    exact ⟨hd, hkey⟩
  · rintro ⟨hd, htime⟩
    refine ⟨DocumentStore.mapFields LocalValue.known d, by rw [h path hpath, hd, Option.map_some],
      shown_known d, ?_⟩
    rwa [orderKey_known, Option.isSome_map]

theorem localUsersOf_eq {chat : ChatId} (hP : ∀ member, P (.member chat member)) :
    localUsersOf chat view = usersOf chat db := by
  refine RankedLists.Ranked.ext (byDocumentID_ranked (shown_ids_nodup view ?_))
    (usersOf_ranked chat db) fun d => ?_
  · intro p q i hp hq
    rw [DocPath.memberOf?_eq_some] at hp hq
    rw [hp, hq]
  · rw [mem_usersOf, ← h.localDocument_eq (hP _)]
    exact mem_localUsersOf

theorem localProfiles_eq (hP : ∀ user, P (.profile user)) :
    localProfiles view = profiles db := by
  refine RankedLists.Ranked.ext (byDocumentID_ranked (shown_ids_nodup view ?_))
    (profiles_ranked db) fun d => ?_
  · intro p q i hp hq
    rw [DocPath.profileEmail?_eq_some] at hp hq
    rw [hp, hq]
  · rw [mem_profiles, ← h.localDocument_eq (hP _)]
    exact mem_localProfiles

theorem localMessagesOf_eq {chat : ChatId} (hP : ∀ id, P (.message chat id)) :
    localMessagesOf chat view = messagesOf chat db := by
  refine RankedLists.Ranked.ext (localOrderedBy_ranked (localDocuments_ids_nodup view ?_)
    fun d => h.known_of_mem ?_) (messagesOf_ranked chat db) fun d => ?_
  · intro p q i hp hq
    rw [DocPath.messageOf?_eq_some] at hp hq
    rw [hp, hq]
  · intro path id hpath
    rw [DocPath.messageOf?_eq_some.mp hpath]
    exact hP id
  · rw [mem_messagesOf, ← h.exists_ordered_iff (hP _)]
    exact mem_localMessagesOf

theorem localChatsOf_eq (hP : ∀ chat, P (.chat chat)) (email : Email) :
    localChatsOf email view = chatsOf email db := by
  have hids : ((localDocuments DocPath.chatId? view).map LocalQueryDocument.documentID).Nodup := by
    refine localDocuments_ids_nodup view ?_
    intro p q i hp hq
    rw [DocPath.chatId?_eq_some] at hp hq
    rw [hp, hq]
  have hselect : ∀ path id, DocPath.chatId? path = some id → P path := by
    intro path id hpath
    rw [DocPath.chatId?_eq_some.mp hpath]
    exact hP id
  refine RankedLists.Ranked.ext (localOrderedBy_ranked
    (hids.sublist (List.filter_sublist.map _)) fun d hd => h.known_of_mem hselect
      (List.mem_filter.mp hd).1) (chatsOf_ranked email db) fun d => ?_
  refine mem_localChatsOf.trans ?_
  rw [mem_chatsOf, and_left_comm, ← h.exists_ordered_iff (hP _)]
  constructor
  · rintro ⟨d', hd', hdata, huser, hkey⟩
    exact ⟨huser, d', hd', hdata, hkey⟩
  · rintro ⟨huser, d', hd', hdata, hkey⟩
    exact ⟨d', hd', hdata, huser, hkey⟩

/-- Every listener on such documents is handed what the server has. -/
theorem showsStored : ShowsStored P view db where
  document _ := h.localDocument_eq
  chats := h.localChatsOf_eq
  users _ := h.localUsersOf_eq
  messages _ := h.localMessagesOf_eq
  profiles := h.localProfiles_eq

end UpToDate

/-! ## Deliveries -/

/-- An event that brings documents and answers to a client. -/
def ReplicaEvent.delivers : ReplicaEvent → Bool
  | .act _ _ => false
  | _ => true

/-- Nothing of a client is under way. -/
structure Replicas.Quiet (r : Replicas) (c : ClientId) : Prop where
  queue : (r.system.clients c).queue = []
  answered : (r.stores c).answered = []
  updates : (r.stores c).updates = []

/-- The current version of a document is on its way to a client, or has arrived there. -/
def Replicas.Sent (r : Replicas) (c : ClientId) (base : DocPath → ℕ) (path : DocPath) : Prop :=
  (∃ u ∈ (r.stores c).updates, u.path = path ∧
    DocumentStore.lastVersion r.history path ≤ u.version) ∨
      DocumentStore.lastVersion r.history path ≤ base path

section deliveries

variable {r r' : Replicas} {c : ClientId} {settled : ℕ} {base : DocPath → ℕ}

/-- A delivery changes nothing on the server, and what was sent to a client stays sent. -/
theorem ReplicasSound.deliver (hr : ReplicasSound r) {e : ReplicaEvent} (he : e.delivers = true)
    (h : r.step e = some r') (hexplains : r.Explains c settled base) :
    r'.system = r.system ∧ r'.history = r.history ∧ ∃ settled' base',
      r'.Explains c settled' base' ∧ (∀ path, r.Sent c base path → r'.Sent c base' path) ∧
        ∀ path, e = .send c path → r'.Sent c base' path := by
  have hother : ∀ (d : ClientId) (store : ClientStore), c ≠ d → r' = r.withStore d store →
      ∃ settled' base', r'.Explains c settled' base' ∧
        ∀ path, r.Sent c base path → r'.Sent c base' path := by
    rintro d store hc rfl
    refine ⟨settled, base, ?_, fun path hsent => ?_⟩
    · rwa [Replicas.Explains, Replicas.withStore_of_ne r _ hc]
    · rwa [Replicas.Sent, Replicas.withStore_of_ne r _ hc]
  cases e with
  | act e t => cases he
  | send d path =>
    obtain ⟨document, hdocument, hr'⟩ := Option.map_eq_some_iff.mp h
    refine ⟨by rw [← hr']; rfl, by rw [← hr']; rfl, ?_⟩
    by_cases hc : c = d
    · subst hc
      refine ⟨settled, base, ?_, ?_, ?_⟩
      · rw [← hr', Replicas.Explains, Replicas.withStore_self]
        exact hexplains.send le_rfl (hr.sent hdocument)
      · rintro path' (⟨u, hu, hpath, hversion⟩ | hbase)
        · refine .inl ⟨u, ?_, hpath, by rwa [← hr']⟩
          rw [← hr', Replicas.withStore_self]
          exact List.mem_append_left _ hu
        · exact .inr (by rwa [← hr'])
      · rintro path' heq
        obtain rfl : path = path' := (ReplicaEvent.send.inj heq).2
        refine .inl ⟨⟨path, document, DocumentStore.lastVersion r.history path⟩, ?_, rfl, ?_⟩
        · rw [← hr', Replicas.withStore_self]
          exact List.mem_append_right _ List.mem_cons_self
        · rw [← hr']
          exact le_rfl
    · obtain ⟨settled', base', hexplains', hsent⟩ := hother d _ hc hr'.symm
      refine ⟨settled', base', hexplains', hsent, fun path' heq => ?_⟩
      exact absurd (ReplicaEvent.send.inj heq).1.symm hc
  | receive d =>
    obtain ⟨store, hstore, hr'⟩ := Option.map_eq_some_iff.mp h
    refine ⟨by rw [← hr']; rfl, by rw [← hr']; rfl, ?_⟩
    by_cases hc : c = d
    · subst hc
      cases hupdates : (r.stores c).updates with
      | nil => simp [DocumentStore.LocalStore.applyRemoteEvent, hupdates] at hstore
      | cons u rest =>
        obtain ⟨base', store', hstore', hexplains', hrest, _, _, hle, hcurrent, _⟩ :=
          hexplains.applyRemoteEvent hr.versioned hupdates
        obtain rfl := Option.some.inj (hstore.symm.trans hstore')
        refine ⟨settled, base', ?_, ?_, fun path heq => by cases heq⟩
        · rw [← hr', Replicas.Explains, Replicas.withStore_self]
          exact hexplains'
        · rintro path (⟨u', hu', hpath, hversion⟩ | hbase)
          · rw [hupdates] at hu'
            rcases List.mem_cons.mp hu' with rfl | hu'
            · -- The document arrives now.
              subst hpath
              exact .inr (by rw [← hr']; exact hversion.trans (hcurrent hversion))
            · refine .inl ⟨u', ?_, hpath, by rwa [← hr']⟩
              rwa [← hr', Replicas.withStore_self, hrest]
          · exact .inr (by rw [← hr']; exact hbase.trans (hle path))
    · obtain ⟨settled', base', hexplains', hsent⟩ := hother d _ hc hr'.symm
      exact ⟨settled', base', hexplains', hsent, fun path heq => by cases heq⟩
  | acknowledge d =>
    obtain ⟨store, hstore, hr'⟩ := Option.map_eq_some_iff.mp h
    refine ⟨by rw [← hr']; rfl, by rw [← hr']; rfl, ?_⟩
    by_cases hc : c = d
    · subst hc
      cases hanswered : (r.stores c).answered with
      | nil => simp [DocumentStore.LocalStore.acknowledgeBatch, hanswered] at hstore
      | cons a rest =>
        obtain ⟨settled', store', hstore', _, hexplains', _, _, hupdates, _⟩ :=
          hexplains.acknowledgeBatch hr.versioned hanswered
        obtain rfl := Option.some.inj (hstore.symm.trans hstore')
        refine ⟨settled', base, ?_, ?_, fun path heq => by cases heq⟩
        · rw [← hr', Replicas.Explains, Replicas.withStore_self]
          exact hexplains'
        · rintro path (⟨u, hu, hpath, hversion⟩ | hbase)
          · refine .inl ⟨u, ?_, hpath, by rwa [← hr']⟩
            rwa [← hr', Replicas.withStore_self, hupdates]
          · exact .inr (by rwa [← hr'])
    · obtain ⟨settled', base', hexplains', hsent⟩ := hother d _ hc hr'.symm
      exact ⟨settled', base', hexplains', hsent, fun path heq => by cases heq⟩

/-- Over a run of deliveries the server stands still, and what was sent stays sent. -/
theorem ReplicasSound.deliver_run (hr : ReplicasSound r) {es : List ReplicaEvent}
    (hes : ∀ e ∈ es, e.delivers = true) (hrun : Runs.run Replicas.step r es = some r')
    (hexplains : r.Explains c settled base) :
    r'.system = r.system ∧ r'.history = r.history ∧ ReplicasSound r' ∧ ∃ settled' base',
      r'.Explains c settled' base' ∧
        ∀ path, r.Sent c base path ∨ .send c path ∈ es → r'.Sent c base' path := by
  induction es generalizing r settled base with
  | nil =>
    obtain rfl : r = r' := by simpa using hrun
    exact ⟨rfl, rfl, hr, settled, base, hexplains, fun path hsent =>
      hsent.resolve_right List.not_mem_nil⟩
  | cons e es ih =>
    obtain ⟨u, hstep, hrest⟩ := Runs.run_cons_eq_some.mp hrun
    obtain ⟨hsystem, hhistory, settled', base', hexplains', hkept, hnew⟩ :=
      hr.deliver (hes e List.mem_cons_self) hstep hexplains
    obtain ⟨hsystem', hhistory', hr', settled'', base'', hexplains'', hsent⟩ :=
      ih (hr.step hstep) (fun f hf => hes f (List.mem_cons_of_mem e hf)) hrest hexplains'
    refine ⟨hsystem'.trans hsystem, hhistory'.trans hhistory, hr', settled'', base'',
      hexplains'', ?_⟩
    rintro path (hold | hmem)
    · exact hsent path (.inl (hkept path hold))
    · rcases List.mem_cons.mp hmem with heq | hmem
      · exact hsent path (.inl (hnew path heq.symm))
      · exact hsent path (.inr hmem)

/-- A client that has been sent some documents and has nothing under way is up to date on them. -/
theorem ReplicasSound.upToDate (hr : ReplicasSound r) (hexplains : r.Explains c settled base)
    (hquiet : r.Quiet c) {P : DocPath → Prop}
    (hsent : ∀ path ∈ r.system.db, P path → r.Sent c base path) :
    UpToDate P (r.view c) r.system.db := by
  intro path hP
  have hwaiting : (r.stores c).waiting = [] := by
    have hqueue := hr.waiting c
    rwa [hquiet.queue, List.map_nil, List.map_eq_nil_iff] at hqueue
  have hbatches : (r.stores c).batches = [] := by
    rw [DocumentStore.LocalStore.batches, hquiet.answered, hwaiting]
    rfl
  have hbase : ∀ e ∈ r.history, e.write.path = path → e.version ≤ base path := by
    intro e he hpath
    have hstored := hr.written e he
    rw [hpath] at hstored
    rcases hsent path hstored hP with ⟨u, hu, _⟩ | hbase
    · rw [hquiet.updates] at hu
      cases hu
    · exact (DocumentStore.le_lastVersion he hpath).trans hbase
  rw [hr.stored path, Replicas.view]
  refine hexplains.lookup_localView_of_current _ _ hbase ?_
  rw [DocumentStore.LocalStore.pendingWrites, hbatches]
  rfl

/-- The server can send any stored documents. -/
theorem Replicas.exists_run_send (c : ClientId) {paths : List DocPath}
    (hpaths : ∀ path ∈ paths, path ∈ r.system.db) :
    ∃ r', Runs.run Replicas.step r (paths.map (.send c)) = some r' ∧ r'.system = r.system := by
  induction paths generalizing r with
  | nil => exact ⟨r, rfl, rfl⟩
  | cons path paths ih =>
    obtain ⟨document, hdocument⟩ :=
      DocumentStore.exists_lookup (hpaths path List.mem_cons_self)
    have hstep : r.step (.send c path) = some (r.withStore c ((r.stores c).send
        ⟨path, document, DocumentStore.lastVersion r.history path⟩)) := by
      rw [Replicas.step, hdocument, Option.map_some]
    obtain ⟨r', hrun, hsystem⟩ := ih (r := r.withStore c ((r.stores c).send
      ⟨path, document, DocumentStore.lastVersion r.history path⟩))
      (fun path' hpath' => hpaths path' (List.mem_cons_of_mem path hpath'))
    exact ⟨r', Runs.run_cons_eq_some.mpr ⟨_, hstep, hrun⟩, hsystem⟩

/-- A client can process all documents on their way. -/
theorem Replicas.exists_run_receive (r : Replicas) (c : ClientId) :
    ∃ n r', Runs.run Replicas.step r (List.replicate n (.receive c)) = some r' ∧
      r'.system = r.system ∧ (r'.stores c).updates = [] := by
  have hstep : ∀ u : Replicas, u.system = r.system → 0 < (u.stores c).updates.length →
      ∃ v, u.step (.receive c) = some v ∧ v.system = r.system ∧
        (v.stores c).updates.length < (u.stores c).updates.length := by
    intro u hu hpos
    obtain ⟨store, hstore⟩ := DocumentStore.LocalStore.exists_applyRemoteEvent
      (List.ne_nil_of_length_pos hpos)
    obtain ⟨_, _, first, hfirst⟩ := DocumentStore.LocalStore.queue_applyRemoteEvent hstore
    refine ⟨u.withStore c store, by simp [Replicas.step, hstore], hu, ?_⟩
    rw [Replicas.withStore_self, hfirst]
    exact Nat.lt_succ_self _
  obtain ⟨n, r', hrun, hsystem, hzero⟩ := Runs.exists_run_replicate
    (fun u : Replicas => u.system = r.system) (fun u => (u.stores c).updates.length) _ rfl hstep
  exact ⟨n, r', hrun, hsystem, List.length_eq_zero_iff.mp hzero⟩

/-- A client can process all answers on their way, and receives nothing by it. -/
theorem Replicas.exists_run_acknowledge (r : Replicas) (c : ClientId)
    (hupdates : (r.stores c).updates = []) :
    ∃ n r', Runs.run Replicas.step r (List.replicate n (.acknowledge c)) = some r' ∧
      r'.system = r.system ∧ (r'.stores c).updates = [] ∧ (r'.stores c).answered = [] := by
  let Idle (u : Replicas) : Prop := u.system = r.system ∧ (u.stores c).updates = []
  have hstep : ∀ u : Replicas, Idle u → 0 < (u.stores c).answered.length →
      ∃ v, u.step (.acknowledge c) = some v ∧ Idle v ∧
        (v.stores c).answered.length < (u.stores c).answered.length := by
    intro u hu hpos
    obtain ⟨store, hstore⟩ := DocumentStore.LocalStore.exists_acknowledgeBatch FieldValue.ackEval
      (List.ne_nil_of_length_pos hpos)
    obtain ⟨hsame, _, first, hfirst⟩ := DocumentStore.LocalStore.queue_acknowledgeBatch hstore
    refine ⟨u.withStore c store, by simp [Replicas.step, hstore], ⟨hu.1, ?_⟩, ?_⟩
    · rw [Replicas.withStore_self, hsame]
      exact hu.2
    · rw [Replicas.withStore_self, hfirst]
      exact Nat.lt_succ_self _
  obtain ⟨n, r', hrun, hidle, hzero⟩ := Runs.exists_run_replicate
    Idle (fun u => (u.stores c).answered.length) _ ⟨rfl, hupdates⟩ hstep
  exact ⟨n, r', hrun, hidle.1, hidle.2, List.length_eq_zero_iff.mp hzero⟩

end deliveries

/-- A run that brings the documents with the property `P` to a client, and after which nothing is
under way for it. The deliveries come in any order, and others take place in between. -/
structure Replicas.Delivery (r : Replicas) (c : ClientId) (P : DocPath → Prop)
    (es : List ReplicaEvent) (r' : Replicas) : Prop where
  delivers : ∀ e ∈ es, e.delivers = true
  run : Runs.run Replicas.step r es = some r'
  sent : ∀ path ∈ r.system.db, P path → .send c path ∈ es
  quiet : r'.Quiet c

/-- A client whose writes have all been answered can be brought up to date. -/
theorem Replicas.exists_delivery {r : Replicas} {c : ClientId}
    (hqueue : (r.system.clients c).queue = []) (P : DocPath → Prop) :
    ∃ es r', r.Delivery c P es r' := by
  have hkeys : ∀ path ∈ r.system.db.keys, path ∈ r.system.db := fun _ hpath => hpath
  obtain ⟨r₁, hsend, hsystem₁⟩ := Replicas.exists_run_send c hkeys
  obtain ⟨n, r₂, hreceive, hsystem₂, hupdates⟩ := r₁.exists_run_receive c
  obtain ⟨m, r₃, hacknowledge, hsystem₃, hupdates', hanswered⟩ :=
    r₂.exists_run_acknowledge c hupdates
  refine ⟨r.system.db.keys.map (.send c) ++ (List.replicate n (.receive c) ++
    List.replicate m (.acknowledge c)), r₃, ?_, ?_, ?_, ?_, hanswered, hupdates'⟩
  · intro e he
    rcases List.mem_append.mp he with he | he
    · obtain ⟨path, _, rfl⟩ := List.mem_map.mp he
      rfl
    · rcases List.mem_append.mp he with he | he
      all_goals
        rw [List.eq_of_mem_replicate he]
        rfl
  · rw [Runs.run_append, hsend, Option.bind_some, Runs.run_append, hreceive, Option.bind_some,
      hacknowledge]
  · intro path hpath _
    exact List.mem_append_left _ (List.mem_map_of_mem hpath)
  · rw [hsystem₃, hsystem₂, hsystem₁]
    exact hqueue

/-- A delivery brings a client up to date. -/
theorem Replicas.Delivery.showsStored {owner : ClientId → Email} {r r' : Replicas}
    (hr : r.ReachableWithRejections owner) {c : ClientId} {P : DocPath → Prop}
    {es : List ReplicaEvent} (hdelivery : r.Delivery c P es r') :
    r'.system = r.system ∧ ShowsStored P (r'.view c) r.system.db := by
  obtain ⟨settled, base, hexplains⟩ := hr.sound.explained c
  obtain ⟨hsystem, _, hr', settled', base', hexplains', hsent⟩ :=
    hr.sound.deliver_run hdelivery.delivers hdelivery.run hexplains
  refine ⟨hsystem, UpToDate.showsStored ?_⟩
  have hsent' : ∀ path ∈ r'.system.db, P path → r'.Sent c base' path := by
    rw [hsystem]
    exact fun path hpath hP => hsent path (.inr (hdelivery.sent path hpath hP))
  rw [← hsystem]
  exact hr'.upToDate hexplains' hdelivery.quiet hsent'

/-- **Clients catch up.** Whatever happened before, rejected writes included, a client whose writes
have all been answered can be brought up to date; and after every run of deliveries, in whatever
order, that brings it the documents a listener is about, the listener is handed what the
server has. -/
theorem client_catches_up {owner : ClientId → Email} {r : Replicas}
    (hr : r.ReachableWithRejections owner) {c : ClientId}
    (hqueue : (r.system.clients c).queue = []) (P : DocPath → Prop) :
    (∃ es r', r.Delivery c P es r') ∧ ∀ es r', r.Delivery c P es r' →
      r'.system = r.system ∧ ShowsStored P (r'.view c) r.system.db :=
  ⟨Replicas.exists_delivery hqueue P, fun _ _ hdelivery => hdelivery.showsStored hr⟩

/-- `bob`'s message is stored, and `ann` has been sent nothing of the chat. -/
def messageForAnn : List ReplicaEvent := sampleReplicas ++ [.act (.commit 1 6) 6]

/-- The message comes to `ann` twice, between the answers to her own writes. -/
def deliverToAnn : List ReplicaEvent :=
  [.send 0 (.message "tea" "m1"), .acknowledge 0, .receive 0, .send 0 (.message "tea" "m1"),
   .receive 0, .acknowledge 0]

/-- The messages of a chat. -/
def DocPath.IsMessageOf (chat : ChatId) (path : DocPath) : Prop :=
  (path.messageOf? chat).isSome

/-- `ann` sees what is stored of the chat's messages. -/
theorem client_catches_up_ann : ∃ r r' : Replicas,
    Runs.run Replicas.step r deliverToAnn = some r' ∧
      localMessagesOf "tea" (r'.view 0) = messagesOf "tea" r.system.db := by
  have hrun : (Runs.run Replicas.step (Replicas.init sampleOwner) messageForAnn).bind (fun r =>
      (Runs.run Replicas.step r deliverToAnn).map (fun r' =>
        decide ((r.system.clients 0).queue.length = 0 ∧ (r'.system.clients 0).queue.length = 0 ∧
          (r'.stores 0).answered.length = 0 ∧ (r'.stores 0).updates.length = 0 ∧
            ∀ path ∈ r.system.db.keys, (path.messageOf? "tea").isSome →
              path = .message "tea" "m1"))) = some true := by
    decide
  obtain ⟨r, hr, hrun⟩ := Option.bind_eq_some_iff.mp hrun
  obtain ⟨r', hr', hfacts⟩ := Option.map_eq_some_iff.mp hrun
  obtain ⟨hqueue, hqueue', hanswered, hupdates, hone⟩ := of_decide_eq_true hfacts
  have hreachable : r.ReachableWithRejections sampleOwner :=
    Runs.Reachable.of_run (fun _ _ => trivial) hr
  have hdelivery : r.Delivery 0 (DocPath.IsMessageOf "tea") deliverToAnn r' := by
    refine ⟨by decide, hr', ?_, ⟨List.length_eq_zero_iff.mp hqueue',
      List.length_eq_zero_iff.mp hanswered, List.length_eq_zero_iff.mp hupdates⟩⟩
    intro path hpath hP
    rw [hone path hpath hP]
    exact List.mem_cons_self
  obtain ⟨_, hshows⟩ := (client_catches_up hreachable (List.length_eq_zero_iff.mp hqueue)
    (DocPath.IsMessageOf "tea")).2 _ r' hdelivery
  refine ⟨r, r', hr', hshows.messages "tea" fun id => ?_⟩
  simp [DocPath.IsMessageOf, DocPath.messageOf?]

/-! ## What the screens of such a client show -/

section screens

variable {owner : ClientId → Email} {r r' : Replicas} {c : ClientId} {es : List ReplicaEvent}
  (hr : r.Reachable owner) (hdelivery : r.Delivery c (fun _ => True) es r')
include hr hdelivery

theorem Replicas.Delivery.stored : ShowsStored (fun _ => True) (r'.view c) r.system.db :=
  (hdelivery.showsStored (hr.mono fun _ _ => trivial)).2

/-- **The chat list from the store of a client.** Once everything has reached a client, its chat
list shows what the history of the chats says. -/
theorem Replicas.Delivery.showsChats (email : Email) (screen : ContactsScreen) :
    ∃ screen', screen.loadChats (.ok (localChatsOf email (r'.view c))) = some screen' ∧
      ShowsChats r.system email screen' := by
  rw [(hdelivery.stored hr).chats (fun _ => trivial) email]
  exact hr.accepted.reachable.showsChats email screen

end screens

end MessagingApp
