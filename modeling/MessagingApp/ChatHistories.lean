import MessagingApp.ChatList
import MessagingApp.Replay

/-!
# What the history of a chat determines

Everything stored of a chat is decided by the writes to that chat, in their order:
no other chat has a part in it. The order of a chat list is decided by the last
activity of each chat, so a chat list is kept by moving the chat of each new
activity to the front.
-/

namespace MessagingApp

/-! ## Chats do not touch each other -/

/-- The document belongs to the chat: it is the chat itself, a member document or a message. -/
def DocPath.belongsTo (c : ChatId) : DocPath → Bool
  | .chat c' | .member c' _ | .message c' _ => c' = c
  | .profile _ => false

/-- The writes of a log that address a chat. -/
def about (chat : ChatId) (log : List Commit) : List Applied :=
  (log.map Commit.applied).filter fun a => a.2.path.belongsTo chat

/-- A stored document is the result of the writes of the log to it. -/
theorem System.ReachableWithRejections.lookup_eq {s : System}
    (hs : s.ReachableWithRejections) (path : DocPath) :
    s.db.lookup path = (s.log.map Commit.applied).foldl (fun old a => after a path old) none := by
  refine Runs.Reachable.invariant hs
    (I := fun u => u.db.lookup path =
      (u.log.map Commit.applied).foldl (fun old a => after a path old) none) rfl ?_
  intro u v e _ hu _ hstep
  obtain ⟨entries, hlog, happly⟩ := System.step_applies hstep
  rw [lookup_run_apply happly, hlog, List.map_append, List.foldl_append, hu]

/-- Writes to other chats leave no trace. -/
theorem foldl_after_about (log : List Commit) {path : DocPath} {chat : ChatId}
    (hpath : path.belongsTo chat = true) (old : Option Document) :
    (log.map Commit.applied).foldl (fun old a => after a path old) old =
      (about chat log).foldl (fun old a => after a path old) old := by
  rw [about, List.foldl_filter]
  congr 1
  funext old a
  split
  · rfl
  · refine after_of_ne ?_ old
    rintro rfl
    exact absurd hpath (by assumption)

/-- **Chats are isolated.** After two runs in which a chat has received the same writes, whatever
else happened in them, every document of the chat is the same, and so are its members and its
messages. -/
theorem chats_isolated {s t : System} (hs : s.ReachableWithRejections)
    (ht : t.ReachableWithRejections) {chat : ChatId} (h : about chat s.log = about chat t.log) :
    (∀ path, path.belongsTo chat = true → s.db.lookup path = t.db.lookup path) ∧
      usersOf chat s.db = usersOf chat t.db ∧ messagesOf chat s.db = messagesOf chat t.db := by
  have hsame : ∀ path, path.belongsTo chat = true → s.db.lookup path = t.db.lookup path := by
    intro path hpath
    rw [hs.lookup_eq, ht.lookup_eq, foldl_after_about s.log hpath, foldl_after_about t.log hpath, h]
  refine ⟨hsame, ?_, ?_⟩
  · refine (usersOf_ranked chat s.db).ext (usersOf_ranked chat t.db) ?_
    intro d
    rw [mem_usersOf, mem_usersOf, hsame _ (by simp [DocPath.belongsTo])]
  · refine (messagesOf_ranked chat s.db).ext (messagesOf_ranked chat t.db) ?_
    intro d
    rw [mem_messagesOf, mem_messagesOf, hsame _ (by simp [DocPath.belongsTo])]

/-- The sample session with activity in another chat in between. -/
def busySession : List Event :=
  [.signIn 2 "carol", .call 2 (.newChat "work" "Work"), .commit 2 0, .commit 2 0] ++
    System.sampleSession ++ [.call 2 (.sendMessage "work" "m9" "today?"), .commit 2 7]

/-- The other chat leaves no trace in the chat of the sample session. -/
theorem chats_isolated_on_samples : ∃ s t : System,
    DocPath.message "work" "m9" ∉ s.db ∧ DocPath.message "work" "m9" ∈ t.db ∧
      usersOf "tea" s.db = usersOf "tea" t.db ∧ messagesOf "tea" s.db = messagesOf "tea" t.db := by
  have habout : (System.runFromInit System.sampleSession).map (fun s => about "tea" s.log) =
      (System.runFromInit busySession).map (fun t => about "tea" t.log) := rfl
  have hother : (System.runFromInit System.sampleSession).bind (fun s =>
      (System.runFromInit busySession).map (fun t => decide (DocPath.message "work" "m9" ∉ s.db ∧
        DocPath.message "work" "m9" ∈ t.db))) = some true := by
    decide
  obtain ⟨s, hs, hother⟩ := Option.bind_eq_some_iff.mp hother
  obtain ⟨t, ht, hother⟩ := Option.map_eq_some_iff.mp hother
  obtain ⟨hout, hin⟩ := of_decide_eq_true hother
  rw [hs, ht] at habout
  have hreachable : s.ReachableWithRejections := Runs.Reachable.of_run (fun _ _ => trivial) hs
  have hreachable' : t.ReachableWithRejections := Runs.Reachable.of_run (fun _ _ => trivial) ht
  exact ⟨s, t, hout, hin, (chats_isolated hreachable hreachable' (Option.some.inj habout)).2⟩

/-! ## Chat lists by recency -/

/-- The chat whose activity time the committed write sets. -/
def Commit.stamps (entry : Commit) : Option ChatId :=
  if Field.chatLastActive ∈ entry.write.data.map Prod.fst then entry.write.path.chatId? else none

/-- All chats, the one with the latest activity first. -/
def recency (log : List Commit) : List ChatId :=
  log.foldl (fun order entry => match entry.stamps with
    | some chat => RankedLists.toFront chat order
    | none => order) []

/-- The activity times of the log strictly increase. -/
def StampsIncrease (log : List Commit) : Prop :=
  ((log.filter fun entry => entry.stamps.isSome).map Commit.time).Pairwise (· < ·)

instance (log : List Commit) : Decidable (StampsIncrease log) :=
  inferInstanceAs (Decidable (List.Pairwise _ _))

theorem recency_append (log : List Commit) (entry : Commit) :
    recency (log ++ [entry]) = match entry.stamps with
      | some chat => RankedLists.toFront chat (recency log)
      | none => recency log := by
  rw [recency, List.foldl_append]
  rfl

theorem Commit.stamps_eq_some {entry : Commit} {chat : ChatId} :
    entry.stamps = some chat ↔ Field.chatLastActive ∈ entry.write.data.map Prod.fst ∧
      entry.write.path = .chat chat := by
  simp [Commit.stamps, DocPath.chatId?_eq_some]

/-- A write that mentions the activity time of a chat stamps it with the time of the commit. -/
theorem Genuine.stamped {call : Call} {w : Write} (h : Genuine call w)
    (hfield : Field.chatLastActive ∈ w.data.map Prod.fst) (now : Time) (d : Document) :
    timestampField (DocumentStore.assign (FieldValue.eval now) d w.data) .chatLastActive =
      some now := by
  cases h with
  | baseDocument | lastActive => rfl
  | _ =>
    simp [MessagingApp.addToUsers, MessagingApp.addedDocument, removalWrite, chatColourWrite,
      userNameWrite, userColourWrite, MessagingApp.creatorDocument, messageDocument,
      MessagingApp.registerProfile] at hfield

/-- A write to a chat document that overwrites it stamps it. -/
theorem Genuine.stamps_of_set {call : Call} {w : Write} {chat : ChatId} (h : Genuine call w)
    (hmode : w.mode = .set) (hpath : w.path = .chat chat) :
    Field.chatLastActive ∈ w.data.map Prod.fst := by
  obtain ⟨user, name, _, rfl⟩ := h.eq_baseDocument hmode hpath
  simp [createBaseChatDocument]

/-- The activity times and the order of the chats as the log has them. -/
structure RecencySound (s : System) : Prop where
  mem : ∀ chat, chat ∈ recency s.log ↔ DocPath.chat chat ∈ s.db
  stamped : ∀ chat time, lastActive s.db chat = some time →
    ∃ entry ∈ s.log, entry.stamps = some chat ∧ entry.time = time
  ranked : StampsIncrease s.log →
    RankedLists.Ranked (fun chat => (lastActive s.db chat).getD 0) (recency s.log)

theorem RecencySound.init : RecencySound System.init where
  mem chat := by simp [System.init, recency]
  stamped chat time htime := by simp [System.init, lastActive] at htime
  ranked _ := List.Pairwise.nil

section commits

variable {s t : System} {c : ClientId} {now : Time} {p : Pending} {rest : List Pending}

/-- The activity time after a commit that stamps the chat. -/
theorem QueuesSound.lastActive_stamped (hq : QueuesSound s) (h : Commits s t c now p rest)
    {chat : ChatId} (hstamps : Commit.stamps ⟨p.origin, p.write, now⟩ = some chat) :
    lastActive t.db chat = some now := by
  obtain ⟨hfield, hpath⟩ := Commit.stamps_eq_some.mp hstamps
  obtain ⟨d, hlookup, _⟩ := hq.committed_document h
  have hpath : p.write.path = .chat chat := hpath
  rw [hpath] at hlookup
  rw [lastActive, hlookup, Option.bind_some]
  exact (hq.genuine_head h).stamped hfield now d

/-- The activity time after a commit that does not stamp the chat. -/
theorem QueuesSound.lastActive_kept (hq : QueuesSound s) (h : Commits s t c now p rest)
    {chat : ChatId} (hstamps : Commit.stamps ⟨p.origin, p.write, now⟩ ≠ some chat) :
    lastActive t.db chat = lastActive s.db chat := by
  by_cases hpath : p.write.path = .chat chat
  · have hfield : Field.chatLastActive ∉ p.write.data.map Prod.fst :=
      fun hfield => hstamps (Commit.stamps_eq_some.mpr ⟨hfield, hpath⟩)
    have hmode : p.write.mode ≠ .set :=
      fun hmode => hfield ((hq.genuine_head h).stamps_of_set hmode hpath)
    obtain ⟨d, hafter, _, hbefore⟩ :=
      hq.committed_read h (fun d => timestampField d .chatLastActive) hpath
    rw [lastActive, lastActive, hafter, hbefore hmode, timestampField, timestampField,
      DocumentStore.assign_of_not_mem _ hfield]
  · rw [lastActive, lastActive, DocumentStore.Write.lookup_commit_of_ne h.commit_eq (Ne.symm hpath)]

/-- The chats after a commit. -/
theorem QueuesSound.chat_mem_iff (hq : QueuesSound s) (h : Commits s t c now p rest)
    (chat : ChatId) : DocPath.chat chat ∈ t.db ↔
      Commit.stamps ⟨p.origin, p.write, now⟩ = some chat ∨ DocPath.chat chat ∈ s.db := by
  constructor
  · intro hmem
    rcases DocumentStore.Write.mem_of_mem_commit h.commit_eq hmem with hpath | hmem
    · by_cases hmode : p.write.mode = .set
      · left
        exact Commit.stamps_eq_some.mpr
          ⟨(hq.genuine_head h).stamps_of_set hmode hpath.symm, hpath.symm⟩
      · right
        rw [hpath]
        exact hq.path_stored h hmode
    · exact .inr hmem
  · rintro (hstamps | hmem)
    · have hpath : p.write.path = .chat chat := (Commit.stamps_eq_some.mp hstamps).2
      rw [← hpath]
      exact DocumentStore.Write.path_mem_commit h.commit_eq
    · exact h.mem_of_mem hmem

theorem RecencySound.commits (hq : QueuesSound s) (hschema : SchemaSound s)
    (hs : RecencySound s) (h : Commits s t c now p rest) : RecencySound t := by
  have hlog := h.log_eq
  constructor
  case mem =>
    intro chat
    rw [hq.chat_mem_iff h, ← hs.mem, hlog, recency_append]
    cases hstamps : Commit.stamps ⟨p.origin, p.write, now⟩ with
    | none => simp
    | some stamped => simp [RankedLists.mem_toFront, eq_comm]
  case stamped =>
    intro chat time htime
    rw [hlog]
    by_cases hstamps : Commit.stamps ⟨p.origin, p.write, now⟩ = some chat
    · rw [hq.lastActive_stamped h hstamps] at htime
      exact ⟨_, by simp, hstamps, Option.some.inj htime⟩
    · rw [hq.lastActive_kept h hstamps] at htime
      obtain ⟨entry, hentry, hchat, htime⟩ := hs.stamped chat time htime
      exact ⟨entry, List.mem_append_left _ hentry, hchat, htime⟩
  case ranked =>
    intro hincrease
    rw [hlog, StampsIncrease, List.filter_append, List.map_append,
      List.pairwise_append] at hincrease
    obtain ⟨hold, _, hnew⟩ := hincrease
    have hranked := hs.ranked hold
    rw [hlog, recency_append]
    cases hstamps : Commit.stamps ⟨p.origin, p.write, now⟩ with
    | none =>
      refine hranked.congr ?_
      intro chat _
      rw [hq.lastActive_kept h (by simp [hstamps])]
    | some stamped =>
      -- All earlier activity times are those of entries before this one.
      have hearlier : ∀ chat ∈ recency s.log, (lastActive s.db chat).getD 0 < now := by
        intro chat hchat
        obtain ⟨d, hd⟩ := DocumentStore.exists_lookup ((hs.mem chat).mp hchat)
        obtain ⟨time, htime⟩ := (hschema.chat hd).chatLastActive
        have hactive : lastActive s.db chat = some time := by
          rw [lastActive, hd, Option.bind_some, htime]
        obtain ⟨entry, hentry, hchat, rfl⟩ := hs.stamped chat time hactive
        rw [hactive, Option.getD_some]
        refine hnew _ (List.mem_map_of_mem (List.mem_filter.mpr ⟨hentry, ?_⟩)) now ?_
        · rw [hchat, Option.isSome_some]
        · simp [hstamps]
      have htop := hranked.toFront (a := stamped) (fun chat hchat _ => hearlier chat hchat)
      refine htop.congr ?_
      intro chat _
      by_cases hchat : chat = stamped
      · subst hchat
        rw [hq.lastActive_stamped h hstamps, Function.update_self, Option.getD_some]
      · rw [Function.update_of_ne hchat, hq.lastActive_kept h]
        rw [hstamps]
        exact fun heq => hchat (Option.some.inj heq).symm

end commits

theorem System.Reachable.recencySound {s : System} (hs : s.Reachable) : RecencySound s := by
  refine hs.log_induction .init ?_ (fun _ _ _ _ _ _ hu hI h =>
    hI.commits hu.queuesSound hu.schemaSound h)
  intro u v hdb hlog hI
  constructor
  case mem =>
    rw [hdb, hlog]
    exact hI.mem
  case stamped =>
    rw [hdb, hlog]
    exact hI.stamped
  case ranked =>
    rw [hdb, hlog]
    exact hI.ranked

/-- What a chat list orders chats by: the activity time, then the identifier. -/
def byActivity (db : Db) (chat : ChatId) : Time ×ₗ String :=
  toLex ((lastActive db chat).getD 0, chat)

theorem chatsOf_ids_ranked (email : Email) (db : Db) :
    RankedLists.Ranked (byActivity db) ((chatsOf email db).map QueryDocument.documentID) := by
  have hrank : ∀ d ∈ chatsOf email db, byActivity db d.documentID = rankBy .chatLastActive d := by
    intro d hd
    rw [byActivity, lastActive, (mem_chatsOf.mp hd).1, Option.bind_some, rankBy, orderTime]
  exact List.pairwise_map.mpr ((chatsOf_ranked email db).congr hrank)

open Classical in
/-- **A chat list is kept by moving chats to the front.** When no two activity times are equal, the
list of a user is the list of all chats, each moved to the front by its creation and by every
activity in it, restricted to the chats in which the last membership operation on the user was
an addition. -/
theorem chat_list_by_recency {s : System} (hs : s.Reachable) (hincrease : StampsIncrease s.log)
    (email : Email) :
    (chatsOf email s.db).map QueryDocument.documentID =
      (recency s.log).filter (fun chat => LastMembership s.log chat email true) := by
  have hrecency := hs.recencySound
  have hranked : RankedLists.Ranked (byActivity s.db) (recency s.log) := by
    refine List.Pairwise.imp ?_ (hrecency.ranked hincrease)
    intro a b hlt
    exact Prod.Lex.toLex_lt_toLex.mpr (.inl hlt)
  refine (chatsOf_ids_ranked email s.db).eq_filter hranked _ ?_
  intro chat
  rw [decide_eq_true_iff, ← hs.membershipLogged chat email, hrecency.mem]
  constructor
  · intro hmem
    obtain ⟨d, hd, rfl⟩ := List.mem_map.mp hmem
    obtain ⟨hlookup, huser, _⟩ := mem_chatsOf.mp hd
    exact ⟨DocumentStore.mem_of_lookup hlookup, d.data, hlookup, huser⟩
  · rintro ⟨_, d, hlookup, huser⟩
    obtain ⟨time, htime⟩ := (hs.schemaSound.chat hlookup).chatLastActive
    exact List.mem_map.mpr ⟨⟨chat, d⟩, mem_chatsOf.mpr ⟨hlookup, huser, by simp [htime]⟩, rfl⟩

open Classical in
/-- `ann` creates a second chat, and then `bob` posts in the first: it is listed first. -/
theorem chat_list_by_recency_on_sample : ∃ s : System, recency s.log = ["tea", "work"] ∧
    (chatsOf "ann" s.db).map QueryDocument.documentID =
      (recency s.log).filter (fun chat => LastMembership s.log chat "ann" true) := by
  have hrun : (System.runFromInit (System.sampleSession ++
      [.call 0 (.newChat "work" "Work"), .commit 0 5, .commit 0 5,
        .call 1 (.sendMessage "tea" "m2" "hi"), .commit 1 6, .complete 1 ⟨"tea", "m2"⟩,
        .commit 1 7])).map (fun s =>
      decide (StampsIncrease s.log ∧ recency s.log = ["tea", "work"])) = some true := by
    decide
  obtain ⟨s, hs, hfacts⟩ := Option.map_eq_some_iff.mp hrun
  obtain ⟨hincrease, horder⟩ := of_decide_eq_true hfacts
  have hreachable : s.Reachable :=
    Runs.Reachable.of_run (by simp [System.sampleSession, Event.accepted]) hs
  exact ⟨s, horder, chat_list_by_recency hreachable hincrease "ann"⟩

end MessagingApp
