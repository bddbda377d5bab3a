import MessagingApp.Firestore
import MessagingApp.Library.RankedLists
import Mathlib.Data.Prod.Lex

/-!
# What the queries return

Membership, uniqueness and order of the results of the queries the app listens to.
-/

namespace MessagingApp

/-! ## Selecting documents -/

/-- A selection lists the stored documents it recognises, under their identifiers. -/
theorem mem_documents {select : DocPath → Option String} {db : Db} {d : QueryDocument} :
    d ∈ documents select db ↔ ∃ path, select path = some d.documentID ∧
      db.lookup path = some d.data := by
  rw [← DocumentStore.mem_collection]
  constructor
  · intro h
    obtain ⟨entry, hentry, rfl⟩ := List.mem_map.mp h
    exact hentry
  · intro h
    exact List.mem_map.mpr ⟨(d.documentID, d.data), h, rfl⟩

/-- A selection lists no identifier twice. -/
theorem documents_ids_nodup {select : DocPath → Option String} (db : Db)
    (hinj : ∀ p q i, select p = some i → select q = some i → p = q) :
    ((documents select db).map QueryDocument.documentID).Nodup := by
  rw [documents, List.map_map]
  exact DocumentStore.collection_ids_nodup hinj

theorem DocPath.chatId?_eq_some {path : DocPath} {c : ChatId} :
    path.chatId? = some c ↔ path = .chat c := by
  cases path <;> simp [chatId?]

theorem DocPath.memberOf?_eq_some {path : DocPath} {c : ChatId} {e : Email} :
    path.memberOf? c = some e ↔ path = .member c e := by
  cases path <;> simp [memberOf?]

theorem DocPath.messageOf?_eq_some {path : DocPath} {c : ChatId} {m : MessageId} :
    path.messageOf? c = some m ↔ path = .message c m := by
  cases path <;> simp [messageOf?]

theorem DocPath.profileEmail?_eq_some {path : DocPath} {e : Email} :
    path.profileEmail? = some e ↔ path = .profile e := by
  cases path <;> simp [profileEmail?]

/-! ## Order -/

instance : Std.Total byDocumentID := ⟨fun a b => le_total a.documentID b.documentID⟩

instance : IsTrans QueryDocument byDocumentID :=
  ⟨fun _ _ _ hab hbc => le_trans hab hbc⟩

/-- `newestFirst` compares any two documents. -/
theorem newestFirst_total (field : Field) (a b : QueryDocument) :
    newestFirst field a b ∨ newestFirst field b a := by
  rcases lt_trichotomy (orderTime field a) (orderTime field b) with h | h | h
  · exact .inr (.inl h)
  · rcases le_total a.documentID b.documentID with hid | hid
    · exact .inr (.inr ⟨h.symm, hid⟩)
    · exact .inl (.inr ⟨h, hid⟩)
  · exact .inl (.inl h)

/-- `newestFirst` is transitive. -/
theorem newestFirst_trans {field : Field} {a b c : QueryDocument} (hab : newestFirst field a b)
    (hbc : newestFirst field b c) : newestFirst field a c := by
  rcases hab with hab | ⟨hab, hidab⟩ <;> rcases hbc with hbc | ⟨hbc, hidbc⟩
  · exact .inl (hbc.trans hab)
  · exact .inl (hbc ▸ hab)
  · exact .inl (hab ▸ hbc)
  · exact .inr ⟨hab.trans hbc, hidbc.trans hidab⟩

instance (field : Field) : Std.Total (newestFirst field) := ⟨newestFirst_total field⟩

instance (field : Field) : IsTrans QueryDocument (newestFirst field) :=
  ⟨fun _ _ _ => newestFirst_trans⟩

/-- The times of a `newestFirst` pair do not increase. -/
theorem newestFirst.time_le {field : Field} {a b : QueryDocument} (h : newestFirst field a b) :
    orderTime field b ≤ orderTime field a := by
  rcases h with h | ⟨h, _⟩
  · exact h.le
  · exact h.symm.le

/-- An ordered query returns the documents that have the field. -/
theorem mem_orderedBy {field : Field} {docs : List QueryDocument} {d : QueryDocument} :
    d ∈ orderedBy field docs ↔ d ∈ docs ∧ (timestampField d.data field).isSome := by
  rw [orderedBy, List.mem_insertionSort, List.mem_filter]

/-- An ordered query returns its documents in order. -/
theorem orderedBy_pairwise (field : Field) (docs : List QueryDocument) :
    (orderedBy field docs).Pairwise (newestFirst field) :=
  List.pairwise_insertionSort _ _

/-- An ordered query repeats no identifier that its source does not repeat. -/
theorem orderedBy_ids_nodup {field : Field} {docs : List QueryDocument}
    (h : (docs.map QueryDocument.documentID).Nodup) :
    ((orderedBy field docs).map QueryDocument.documentID).Nodup := by
  have hperm := (List.perm_insertionSort (newestFirst field)
    (docs.filter (fun d => (timestampField d.data field).isSome))).map QueryDocument.documentID
  exact hperm.nodup_iff.mpr (h.sublist (List.filter_sublist.map _))

/-! ## The four queries -/

theorem mem_usersOf {chat : ChatId} {db : Db} {d : QueryDocument} :
    d ∈ usersOf chat db ↔ db.lookup (.member chat d.documentID) = some d.data := by
  rw [usersOf, List.mem_insertionSort, mem_documents]
  simp [DocPath.memberOf?_eq_some]

/-- The `users` sub-collection lists every member document once. -/
theorem usersOf_ids_nodup (chat : ChatId) (db : Db) :
    ((usersOf chat db).map QueryDocument.documentID).Nodup := by
  have hperm := (List.perm_insertionSort byDocumentID
    (documents (DocPath.memberOf? chat) db)).map QueryDocument.documentID
  refine hperm.nodup_iff.mpr (documents_ids_nodup db ?_)
  intro p q i hp hq
  rw [DocPath.memberOf?_eq_some] at hp hq
  rw [hp, hq]

theorem mem_profiles {db : Db} {d : QueryDocument} :
    d ∈ profiles db ↔ db.lookup (.profile d.documentID) = some d.data := by
  rw [profiles, List.mem_insertionSort, mem_documents]
  simp [DocPath.profileEmail?_eq_some]

theorem mem_messagesOf {chat : ChatId} {db : Db} {d : QueryDocument} :
    d ∈ messagesOf chat db ↔ db.lookup (.message chat d.documentID) = some d.data ∧
      (timestampField d.data .time).isSome := by
  rw [messagesOf, mem_orderedBy, mem_documents]
  simp [DocPath.messageOf?_eq_some]

theorem mem_chatsOf {email : Email} {db : Db} {d : QueryDocument} :
    d ∈ chatsOf email db ↔ db.lookup (.chat d.documentID) = some d.data ∧
      hasUser email d.data = true ∧ (timestampField d.data .chatLastActive).isSome := by
  rw [chatsOf, mem_orderedBy, List.mem_filter, mem_documents]
  simp [DocPath.chatId?_eq_some, and_assoc]

/-- The chat list query lists every chat once. -/
theorem chatsOf_ids_nodup (email : Email) (db : Db) :
    ((chatsOf email db).map QueryDocument.documentID).Nodup := by
  refine orderedBy_ids_nodup ?_
  refine List.Nodup.sublist (List.filter_sublist.map _) (documents_ids_nodup db ?_)
  intro p q i hp hq
  rw [DocPath.chatId?_eq_some] at hp hq
  rw [hp, hq]

/-! ## Results as ranked lists

The order of a result has no ties, so a result is determined by the documents it contains. -/

/-- What an ordered query orders by: the time, then the identifier. -/
def rankBy (field : Field) (d : QueryDocument) : Time ×ₗ String :=
  toLex (orderTime field d, d.documentID)

/-- What a query without an order orders by: the identifier, the smallest one first. -/
def rankByID (d : QueryDocument) : Stringᵒᵈ := OrderDual.toDual d.documentID

/-- The documents of a list that repeats no identifier have different identifiers. -/
theorem pairwise_ids_ne {docs : List QueryDocument}
    (h : (docs.map QueryDocument.documentID).Nodup) :
    docs.Pairwise (fun a b => a.documentID ≠ b.documentID) :=
  List.pairwise_map.mp h

theorem orderedBy_ranked {field : Field} {docs : List QueryDocument}
    (h : (docs.map QueryDocument.documentID).Nodup) :
    RankedLists.Ranked (rankBy field) (orderedBy field docs) := by
  have hids : ((orderedBy field docs).map QueryDocument.documentID).Nodup := orderedBy_ids_nodup h
  have hne := pairwise_ids_ne hids
  refine ((orderedBy_pairwise field docs).and hne).imp ?_
  rintro a b ⟨hlt | ⟨heq, hle⟩, hid⟩
  · exact Prod.Lex.toLex_lt_toLex.mpr (.inl hlt)
  · exact Prod.Lex.toLex_lt_toLex.mpr (.inr ⟨heq.symm, lt_of_le_of_ne hle (Ne.symm hid)⟩)

/-- The messages of a chat are ranked by their time. -/
theorem messagesOf_ranked (chat : ChatId) (db : Db) :
    RankedLists.Ranked (rankBy .time) (messagesOf chat db) := by
  refine orderedBy_ranked (documents_ids_nodup db ?_)
  intro p q i hp hq
  rw [DocPath.messageOf?_eq_some] at hp hq
  rw [hp, hq]

/-- A chat list is ranked by the activity times. -/
theorem chatsOf_ranked (email : Email) (db : Db) :
    RankedLists.Ranked (rankBy .chatLastActive) (chatsOf email db) := by
  refine orderedBy_ranked
    (List.Nodup.sublist (List.filter_sublist.map _) (documents_ids_nodup db ?_))
  intro p q i hp hq
  rw [DocPath.chatId?_eq_some] at hp hq
  rw [hp, hq]

/-- Documents without a query order are ranked by their identifiers. -/
theorem byDocumentID_ranked {docs : List QueryDocument}
    (h : (docs.map QueryDocument.documentID).Nodup) :
    RankedLists.Ranked rankByID (docs.insertionSort byDocumentID) := by
  have hsorted : (docs.insertionSort byDocumentID).Pairwise byDocumentID :=
    List.pairwise_insertionSort _ _
  have hperm := (List.perm_insertionSort byDocumentID docs).map QueryDocument.documentID
  refine (hsorted.and (pairwise_ids_ne (hperm.nodup_iff.mpr h))).imp ?_
  rintro a b ⟨hle, hid⟩
  exact OrderDual.toDual_lt_toDual.mpr (lt_of_le_of_ne hle hid)

/-- The member documents of a chat are ranked by their identifiers. -/
theorem usersOf_ranked (chat : ChatId) (db : Db) :
    RankedLists.Ranked rankByID (usersOf chat db) := by
  refine byDocumentID_ranked (documents_ids_nodup db ?_)
  intro p q i hp hq
  rw [DocPath.memberOf?_eq_some] at hp hq
  rw [hp, hq]

/-- The profiles are ranked by their identifiers. -/
theorem profiles_ranked (db : Db) : RankedLists.Ranked rankByID (profiles db) := by
  refine byDocumentID_ranked (documents_ids_nodup db ?_)
  intro p q i hp hq
  rw [DocPath.profileEmail?_eq_some] at hp hq
  rw [hp, hq]

end MessagingApp
