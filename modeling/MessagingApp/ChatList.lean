import MessagingApp.ActivityTime
import MessagingApp.Membership
import MessagingApp.NoTrap

/-!
# The chat list

What `loadChats` shows a user is stated here in terms of the history of the chats
alone: the creations, additions and removals that were applied. The listener is
handed what the query gives on the documents of the server; a client that everything
has reached is handed the same from its own store.
-/

namespace MessagingApp

/-! ## The name of a chat -/

/-- The log contains the creation of the chat under a name. -/
def CreatedAs (log : List Commit) (chat : ChatId) (name : String) : Prop :=
  ∃ entry ∈ log, ∃ user, entry.origin = .newChat chat name ∧
    entry.write = createBaseChatDocument chat (some user) name

/-- The stored chats are the created ones, and they keep the names they were created with. -/
def NamesLogged (s : System) : Prop :=
  ∀ chat name, (∃ d, s.db.lookup (.chat chat) = some d ∧ stringField d .name = some name) ↔
    CreatedAs s.log chat name

theorem createdAs_append {log : List Commit} {entry : Commit} {chat : ChatId} {name : String} :
    CreatedAs (log ++ [entry]) chat name ↔ CreatedAs log chat name ∨
      ∃ user, entry.origin = .newChat chat name ∧
        entry.write = createBaseChatDocument chat (some user) name := by
  simp only [CreatedAs, List.mem_append, List.mem_singleton, or_and_right, exists_or,
    exists_eq_left]

/-- A write that keeps a chat document keeps its name. -/
theorem Genuine.name_not_mem {call : Call} {w : Write} (h : Genuine call w) {chat : ChatId}
    (hpath : w.path = .chat chat) (hmode : w.mode ≠ .set) :
    Field.name ∉ w.data.map Prod.fst := by
  cases h with
  | addToUsers | removal | chatColour | lastActive =>
    simp [MessagingApp.addToUsers, removalWrite, chatColourWrite,
      MessagingApp.updateChatLastActiveTimestamp]
  | baseDocument => exact absurd rfl hmode
  | _ => cases hpath

theorem NamesLogged.init : NamesLogged System.init := by
  intro chat name
  refine iff_of_false ?_ ?_
  · rintro ⟨d, hd, _⟩
    simp [System.init] at hd
  · rintro ⟨entry, hentry, _⟩
    cases hentry

theorem NamesLogged.commits {s t : System} {c : ClientId} {now : Time} {p : Pending}
    {rest : List Pending} (hq : QueuesSound s) (hs : NamesLogged s)
    (h : Commits s t c now p rest) : NamesLogged t := by
  intro chat name
  rw [h.log_eq, createdAs_append, ← hs chat name]
  by_cases hpath : p.write.path = .chat chat
  · obtain ⟨d, hlookup, hd⟩ := hq.committed_document h
    rw [hpath] at hlookup hd
    by_cases hmode : p.write.mode = .set
    · -- The chat is created: there was none before.
      obtain ⟨user, name', horigin, hwrite⟩ := (hq.genuine_head h).eq_baseDocument hmode hpath
      have hunborn := AList.lookup_eq_none.mpr (hq.unborn_of_set h hmode hpath)
      simp only [hlookup, hunborn, horigin, hwrite]
      constructor
      · rintro ⟨d', hd', hname⟩
        obtain rfl := Option.some.inj hd'
        obtain rfl : name' = name := Option.some.inj hname
        exact .inr ⟨user, rfl, rfl⟩
      · rintro (⟨d', hd', _⟩ | ⟨user', horigin', _⟩)
        · cases hd'
        · obtain rfl : name' = name := (Call.newChat.inj horigin').2
          exact ⟨_, rfl, rfl⟩
    · rw [if_neg hmode] at hd
      have hname := (hq.genuine_head h).name_not_mem hpath hmode
      have hkept : stringField (DocumentStore.assign (FieldValue.eval now) d p.write.data) .name =
          stringField d .name := by
        rw [stringField, stringField, DocumentStore.assign_of_not_mem _ hname]
      simp only [hlookup, hd, Option.some.injEq, exists_eq_left', hkept]
      refine ⟨.inl, ?_⟩
      rintro (hname' | ⟨user, _, hwrite⟩)
      · exact hname'
      · exact absurd (congrArg DocumentStore.Write.mode hwrite) hmode
  · rw [DocumentStore.Write.lookup_commit_of_ne h.commit_eq (Ne.symm hpath)]
    refine ⟨.inl, ?_⟩
    rintro (hname | ⟨user, _, hwrite⟩)
    · exact hname
    · exact absurd (congrArg DocumentStore.Write.path hwrite) hpath

theorem System.Reachable.namesLogged {s : System} (hs : s.Reachable) : NamesLogged s :=
  hs.log_induction .init
    (fun _ _ hdb hlog hI chat name => by rw [hdb, hlog]; exact hI chat name)
    (fun _ _ _ _ _ _ hu hI h => hI.commits hu.queuesSound h)

/-! ## The list -/

/-- The first chat was active at least as recently as the second. -/
def ActiveAfter (db : Db) (a b : Chat) : Prop :=
  ∃ ta tb, lastActive db a.id = some ta ∧ lastActive db b.id = some tb ∧ tb ≤ ta

/-- What the chat list of a user should be. -/
structure ShowsChats (s : System) (email : Email) (screen : ContactsScreen) : Prop where
  /-- The chats in which the last applied membership operation on the user was an addition. -/
  listed : ∀ chat, chat ∈ screen.chats.map Chat.id ↔ LastMembership s.log chat email true
  once : (screen.chats.map Chat.id).Nodup
  /-- Each under the name it was created with. -/
  name : ∀ entry ∈ screen.chats, ∀ name, CreatedAs s.log entry.id name ↔ name = entry.name
  order : screen.chats.Pairwise (ActiveAfter s.db)
  rowCount : screen.rowCount = screen.chats.length

/-- An entry of the list comes from its document. -/
theorem conversation_eq_some {d : QueryDocument} {chat : Chat} (h : conversation d = some chat) :
    chat.id = d.documentID ∧ stringField d.data .name = some chat.name := by
  obtain ⟨name, hname, hchat⟩ := Option.bind_eq_some_iff.mp h
  obtain rfl := Option.some.inj hchat
  exact ⟨rfl, hname⟩

/-- Entries in the order of their documents. -/
theorem activeAfter_of_newestFirst {email : Email} {db : Db} {d d' : QueryDocument}
    {a b : Chat} (hd : d ∈ chatsOf email db) (hd' : d' ∈ chatsOf email db)
    (ha : conversation d = some a) (hb : conversation d' = some b)
    (h : newestFirst .chatLastActive d d') : ActiveAfter db a b := by
  obtain ⟨hlookup, _, htime⟩ := mem_chatsOf.mp hd
  obtain ⟨hlookup', _, htime'⟩ := mem_chatsOf.mp hd'
  obtain ⟨ta, hta⟩ := Option.isSome_iff_exists.mp htime
  obtain ⟨tb, htb⟩ := Option.isSome_iff_exists.mp htime'
  refine ⟨ta, tb, ?_, ?_, ?_⟩
  · rw [lastActive, (conversation_eq_some ha).1, hlookup, Option.bind_some, hta]
  · rw [lastActive, (conversation_eq_some hb).1, hlookup', Option.bind_some, htb]
  · simpa [orderTime, hta, htb] using h.time_le

/-- The current snapshot makes a list of what the history of the chats says. -/
theorem System.Reachable.showsChats {s : System} (hs : s.Reachable) (email : Email)
    (screen : ContactsScreen) :
    ∃ screen', screen.loadChats (.ok (chatsOf email s.db)) = some screen' ∧
      ShowsChats s email screen' := by
  have hread : ∀ d ∈ chatsOf email s.db, ∃ chat, conversation d = some chat := by
    intro d hd
    obtain ⟨name, hname⟩ := (hs.schemaSound.chat (mem_chatsOf.mp hd).1).name
    exact ⟨{ id := d.documentID, name := name }, by simp [conversation, hname]⟩
  obtain ⟨chats, hchats⟩ := PartialLoops.exists_mapM hread
  have hids : chats.map Chat.id = (chatsOf email s.db).map QueryDocument.documentID :=
    PartialLoops.map_eq_map_of_mapM hchats fun _ _ hchat => (conversation_eq_some hchat).1
  refine ⟨{ chats := chats, rowCount := chats.length },
    by simp [ContactsScreen.loadChats, hchats], ?_, ?_, ?_, ?_, rfl⟩
  · intro chat
    rw [hids, ← hs.membershipLogged chat email]
    constructor
    · intro hmem
      obtain ⟨d, hd, rfl⟩ := List.mem_map.mp hmem
      obtain ⟨hlookup, huser, _⟩ := mem_chatsOf.mp hd
      exact ⟨d.data, hlookup, huser⟩
    · rintro ⟨d, hlookup, huser⟩
      obtain ⟨t, ht⟩ := (hs.schemaSound.chat hlookup).chatLastActive
      exact List.mem_map.mpr ⟨⟨chat, d⟩, mem_chatsOf.mpr ⟨hlookup, huser, by simp [ht]⟩, rfl⟩
  · change (chats.map Chat.id).Nodup
    rw [hids]
    exact chatsOf_ids_nodup email s.db
  · intro entry hentry name
    obtain ⟨d, hd, hentry⟩ := PartialLoops.mem_of_mapM hchats hentry
    obtain ⟨hid, hname⟩ := conversation_eq_some hentry
    rw [← hs.namesLogged entry.id name, hid, (mem_chatsOf.mp hd).1]
    simp [hname, eq_comm]
  · exact PartialLoops.pairwise_of_mapM hchats (orderedBy_pairwise .chatLastActive _)
      fun _ hd _ hd' _ _ => activeAfter_of_newestFirst hd hd'

/-- **The chat list is exactly the chats the user belongs to.** Whatever the list showed
before, after the current snapshot it shows what the history of the chats says. -/
theorem chat_list_exact {s : System} (hs : s.Reachable) (email : Email)
    (screen : ContactsScreen) :
    ∃ screen', screen.loadChats (.ok (chatsOf email s.db)) = some screen' ∧
      ShowsChats s email screen' :=
  hs.showsChats email screen

/-- After the sample session `bob` creates two more chats, and `ann` removes him from hers; then he
posts in the older of his. -/
def moreChats : List Event :=
  System.sampleSession ++
    [.call 1 (.newChat "work" "Work"), .commit 1 5, .commit 1 5, .call 1 (.newChat "home" "Home"),
     .commit 1 6, .commit 1 6, .call 0 (.removeFromChat "tea" "bob"), .commit 0 7,
     .call 1 (.sendMessage "work" "m2" "today?"), .commit 1 8, .complete 1 ⟨"work", "m2"⟩,
     .commit 1 9]

/-- `bob`, who was listing the chat he is removed from, now lists the two others, the one with the
latest message first. -/
theorem chat_list_exact_on_sample : ∃ (s : System) (screen : ContactsScreen),
    ({ chats := [{ id := "tea", name := "Tea time" }], rowCount := 1 } : ContactsScreen).loadChats
        (.ok (chatsOf "bob" s.db)) = some screen ∧
      ShowsChats s "bob" screen ∧
        (chatsOf "bob" s.db).map QueryDocument.documentID = ["work", "home"] := by
  obtain ⟨s, hs, _, hchats⟩ := System.exists_reachable_of_run moreChats (by decide)
    (fun s => decide ((chatsOf "bob" s.db).map QueryDocument.documentID = ["work", "home"]))
    (by decide)
  obtain ⟨screen, hload, hshows⟩ :=
    chat_list_exact hs "bob" { chats := [{ id := "tea", name := "Tea time" }], rowCount := 1 }
  exact ⟨s, screen, hload, hshows, of_decide_eq_true hchats⟩

end MessagingApp
