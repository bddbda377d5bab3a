import MessagingApp.Authorship
import MessagingApp.LocalView
import MessagingApp.Replay

/-!
# Clients with their own stores

Each client sees the system through the store Firestore keeps on its device: the
documents it has been sent and its own writes. What a screen acts on was shown by
this store, completions run when the client has processed the answer, and answers
and documents take their time. A client is one account on a device of its own.
Firestore keeps a queue of writes for each account: when the account signs out, its
writes no longer lie over what the listeners are handed, and they are back when it
has signed in again.
-/

namespace MessagingApp

abbrev ClientStore := DocumentStore.LocalStore Time Time DocPath Field Value FieldValue
abbrev ServerEntry := DocumentStore.Entry ClientId Time DocPath Field FieldValue

/-- The server with the clients' queues, the log of the server with the authors of the writes,
and the store of each client. -/
structure Replicas where
  system : System
  history : List ServerEntry
  stores : ClientId → ClientStore
  owner : ClientId → Email

/-- What can happen next. -/
inductive ReplicaEvent
  /-- An event of the system; the clock of the device shows `deviceTime`. -/
  | act (e : Event) (deviceTime : Time)
  /-- The server sends a client the current version of a document. -/
  | send (c : ClientId) (path : DocPath)
  /-- A client processes the oldest document on its way. -/
  | receive (c : ClientId)
  /-- A client processes the oldest answer on its way. -/
  | acknowledge (c : ClientId)

/-- Every event but a rejected write. -/
def ReplicaEvent.accepted : ReplicaEvent → Bool
  | .act e _ => e.accepted
  | _ => true

namespace Replicas

/-- Nothing has happened. -/
def init (owner : ClientId → Email) : Replicas :=
  { system := System.init, history := [], stores := fun _ => .empty, owner := owner }

/-- What a client is shown while its account is signed in: the documents of its cache, with the
queue of the account laid over them. -/
def view (r : Replicas) (c : ClientId) : LocalDb :=
  (r.stores c).localView LocalValue.known FieldValue.localEval

/-- The account of a client is signed in. -/
def SignedIn (r : Replicas) (c : ClientId) : Prop := (r.system.clients c).currentUser.isSome = true

instance (r : Replicas) (c : ClientId) : Decidable (r.SignedIn c) :=
  inferInstanceAs (Decidable (_ = true))

/-- What the listeners of a client are handed. `HandleUserChange` swaps the queue of writes: while
nobody is signed in, nothing lies over the cache. -/
def shown (r : Replicas) (c : ClientId) : LocalDb :=
  if r.SignedIn c then r.view c
  else DocumentStore.documentsOf LocalValue.known (r.stores c).cache

/-- Replace the store of one client. -/
def withStore (r : Replicas) (c : ClientId) (store : ClientStore) : Replicas :=
  { r with stores := Function.update r.stores c store }

/-- When a client takes part in an event: its account is the one that signs in on the device, a
screen acts on a document that the client is shown, and a completion runs once the answer is
processed. -/
def Permitted (r : Replicas) : Event → Prop
  | .signIn c account | .register c account _ => account = r.owner c
  | .call c call => call.byUser = true ∧ (∀ path ∈ call.target, path ∈ r.view c) ∧
      (∀ id ∈ call.generatedId, id ∉ r.system.generatedIds) ∧
      ∀ colour ∈ call.pickedColour, colour ∈ pickerColours
  | .complete c m =>
      DocPath.message m.chat m.message ∉ (r.stores c).batches.map fun b => b.write.path
  | .signOut _ | .commit _ _ | .reject _ => True

instance (r : Replicas) (e : Event) : Decidable (r.Permitted e) := by
  cases e <;> unfold Permitted <;> infer_instance

/-- What an event of the system, with the state it leads to, does to the stores. Issued writes are
laid over the view at once; an answer of the server goes on its way. Signing in and out changes
what is `shown`, and leaves the cache and the queue of the account as they are. -/
def follow (r : Replicas) (e : Event) (deviceTime : Time) (system : System) : Replicas :=
  match e with
  | .commit c now =>
    { r.withStore c ((r.stores c).answer (some (r.history.length + 1, now))) with
      system := system
      history := r.history ++ (r.system.clients c).queue.head?.toList.map
        (fun p => ⟨r.history.length + 1, c, now, p.write⟩) }
  | .reject c => { r.withStore c ((r.stores c).answer none) with system := system }
  | e =>
    let issued := (system.clients e.client).queue.drop (r.system.clients e.client).queue.length
    { r.withStore e.client ((r.stores e.client).writeLocally
        (issued.map fun p => ⟨deviceTime, p.write⟩)) with system := system }

/-- One step; `none` when the event cannot happen. -/
def step (r : Replicas) : ReplicaEvent → Option Replicas
  | .act e deviceTime =>
    if r.Permitted e then (r.system.perform e).map (r.follow e deviceTime) else none
  | .send c path =>
    (r.system.db.lookup path).map fun document =>
      r.withStore c ((r.stores c).send
        ⟨path, document, DocumentStore.lastVersion r.history path⟩)
  | .receive c => (r.stores c).applyRemoteEvent.map (r.withStore c)
  | .acknowledge c =>
    ((r.stores c).acknowledgeBatch FieldValue.ackEval).map (r.withStore c)

/-- The states reached when the server accepts every write. -/
def Reachable (owner : ClientId → Email) (r : Replicas) : Prop :=
  Runs.Reachable step (fun e => e.accepted = true) (init owner) r

/-- The states reached when the server may reject any write. -/
def ReachableWithRejections (owner : ClientId → Email) (r : Replicas) : Prop :=
  Runs.Reachable step (fun _ => True) (init owner) r

theorem shown_of_signedIn {r : Replicas} {c : ClientId} (h : r.SignedIn c) :
    r.shown c = r.view c := if_pos h

/-- What a client is shown at any time it is shown while its account is signed in. -/
theorem mem_view_of_shown {r : Replicas} {c : ClientId} {path : DocPath} (h : path ∈ r.shown c) :
    path ∈ r.view c := by
  unfold shown at h
  split at h
  case isTrue => exact h
  case isFalse =>
    rw [view, DocumentStore.LocalStore.localView, ← AList.lookup_isSome,
      DocumentStore.lookup_overlay]
    exact DocumentStore.isSome_replay (AList.lookup_isSome.mpr h)

@[simp] theorem withStore_self (r : Replicas) (c : ClientId) (store : ClientStore) :
    (r.withStore c store).stores c = store := by
  simp [withStore]

@[simp] theorem withStore_history (r : Replicas) (c : ClientId) (store : ClientStore) :
    (r.withStore c store).history = r.history := rfl

@[simp] theorem withStore_system (r : Replicas) (c : ClientId) (store : ClientStore) :
    (r.withStore c store).system = r.system := rfl

@[simp] theorem follow_system (r : Replicas) (e : Event) (deviceTime : Time) (system : System) :
    (r.follow e deviceTime system).system = system := by
  cases e <;> rfl

theorem withStore_of_ne (r : Replicas) {c d : ClientId} (store : ClientStore) (h : d ≠ c) :
    (r.withStore c store).stores d = r.stores d := by
  simp [withStore, h]

theorem follow_stores_of_ne (r : Replicas) {e : Event} (deviceTime : Time) (system : System)
    {d : ClientId} (h : d ≠ e.client) : (r.follow e deviceTime system).stores d = r.stores d := by
  cases e <;> exact withStore_of_ne r _ h

end Replicas

/-! ## What a step can do -/

/-- Client `c` puts writes at the end of its queue. -/
structure Enqueues (s t : System) (c : ClientId) (new : List Pending) : Prop where
  db_eq : t.db = s.db
  queue_self : (t.clients c).queue = (s.clients c).queue ++ new
  clients_other : ∀ d, d ≠ c → t.clients d = s.clients d

/-- Whether the server answers a write. -/
def Event.answers : Event → Bool
  | .commit _ _ | .reject _ => true
  | _ => false

namespace System

/-- Issuing a call from a state that differs only in the client enqueues its writes. -/
theorem enqueues_of_issue {s t : System} {c : ClientId} {call : Call} (client : Client)
    (hqueue : client.queue = (s.clients c).queue)
    (h : (s.withClient c client).issue c call = some t) : ∃ new, Enqueues s t c new := by
  obtain ⟨ws, _, rfl⟩ := issue_eq_some h
  refine ⟨ws.map (Pending.mk call), rfl, ?_, ?_⟩
  · simp [withClient, hqueue]
  · intro d hd
    simp [withClient, hd]

/-- **Inversion.** An event enqueues writes of its client, or the server answers a write. -/
theorem perform_cases {s t : System} {e : Event} (h : s.perform e = some t) :
    (e.answers = false ∧ ∃ new, Enqueues s t e.client new) ∨
      (∃ c now p rest, e = .commit c now ∧ Commits s t c now p rest) ∨
      ∃ c, e = .reject c ∧ Rejects s t c := by
  have hidle : ∀ c (client : Client), client.queue = (s.clients c).queue →
      Enqueues s (s.withClient c client) c [] := by
    intro c client hqueue
    exact ⟨rfl, by simp [hqueue], fun d hd => withClient_of_ne s client hd⟩
  cases e with
  | signIn c account =>
    obtain rfl := (Option.some.inj h).symm
    exact .inl ⟨rfl, [], hidle c _ rfl⟩
  | signOut c =>
    obtain rfl := (Option.some.inj h).symm
    exact .inl ⟨rfl, [], hidle c _ rfl⟩
  | register c account emailText =>
    exact .inl ⟨rfl, enqueues_of_issue { s.clients c with currentUser := some account } rfl h⟩
  | call c call =>
    have hissue : s.issue c call = some t := h
    rw [← withClient_eq_self s c] at hissue
    exact .inl ⟨rfl, enqueues_of_issue _ rfl hissue⟩
  | commit c now =>
    obtain ⟨p, rest, hcommit⟩ := commits_of_commit h
    exact .inr (.inl ⟨c, now, p, rest, rfl, hcommit⟩)
  | reject c => exact .inr (.inr ⟨c, rfl, rejects_of_reject h⟩)
  | complete c m =>
    exact .inl ⟨rfl, enqueues_of_issue
      { s.clients c with completions := (s.clients c).completions.erase m } rfl
      (issue_of_complete h).2⟩

end System

namespace Replicas

variable {r r' : Replicas}

/-- **Inversion.** A step enqueues writes of a client and lays them over its view, or the server
answers a write, or it sends a document, or a client processes a document or an answer. -/
theorem step_cases {e : ReplicaEvent} (h : r.step e = some r') :
    (∃ e' t new, e = .act e' t ∧ r.Permitted e' ∧ e'.answers = false ∧
      r.system.perform e' = some r'.system ∧ Enqueues r.system r'.system e'.client new ∧
      r' = { r.withStore e'.client ((r.stores e'.client).writeLocally
        (new.map fun p => ⟨t, p.write⟩)) with system := r'.system }) ∨
    (∃ c now t p rest, e = .act (.commit c now) t ∧ Commits r.system r'.system c now p rest ∧
      r' = { r.withStore c ((r.stores c).answer (some (r.history.length + 1, now))) with
        system := r'.system
        history := r.history ++ [⟨r.history.length + 1, c, now, p.write⟩] }) ∨
    (∃ c t, e = .act (.reject c) t ∧ Rejects r.system r'.system c ∧
      r' = { r.withStore c ((r.stores c).answer none) with system := r'.system }) ∨
    (∃ c path document, e = .send c path ∧ r.system.db.lookup path = some document ∧
      r' = r.withStore c ((r.stores c).send
        ⟨path, document, DocumentStore.lastVersion r.history path⟩)) ∨
    (∃ c store, e = .receive c ∧ (r.stores c).applyRemoteEvent = some store ∧
      r' = r.withStore c store) ∨
    ∃ c store, e = .acknowledge c ∧
      (r.stores c).acknowledgeBatch FieldValue.ackEval = some store ∧ r' = r.withStore c store := by
  cases e with
  | act e deviceTime =>
    by_cases hpermitted : r.Permitted e
    · rw [step, if_pos hpermitted] at h
      obtain ⟨s, hs, rfl⟩ := Option.map_eq_some_iff.mp h
      rcases System.perform_cases hs with ⟨hanswers, new, hnew⟩ | ⟨c, now, p, rest, rfl, hcommit⟩ |
        ⟨c, rfl, hreject⟩
      · have hfollow : r.follow e deviceTime s = { r.withStore e.client
            ((r.stores e.client).writeLocally (new.map fun p => ⟨deviceTime, p.write⟩)) with
              system := s } := by
          have hdrop : (s.clients e.client).queue.drop (r.system.clients e.client).queue.length =
              new := by
            rw [hnew.queue_self, List.drop_left]
          cases e with
          | commit | reject => cases hanswers
          | _ => simp only [follow, hdrop]
        rw [hfollow]
        exact .inl ⟨e, deviceTime, new, rfl, hpermitted, hanswers, hs, hnew, rfl⟩
      · refine .inr (.inl ⟨c, now, deviceTime, p, rest, rfl, hcommit, ?_⟩)
        simp [follow, hcommit.queue_eq]
      · exact .inr (.inr (.inl ⟨c, deviceTime, rfl, hreject, rfl⟩))
    · rw [step, if_neg hpermitted] at h
      cases h
  | send c path =>
    obtain ⟨document, hdocument, rfl⟩ := Option.map_eq_some_iff.mp h
    exact .inr (.inr (.inr (.inl ⟨c, path, document, rfl, hdocument, rfl⟩)))
  | receive c =>
    obtain ⟨store, hstore, rfl⟩ := Option.map_eq_some_iff.mp h
    exact .inr (.inr (.inr (.inr (.inl ⟨c, store, rfl, hstore, rfl⟩))))
  | acknowledge c =>
    obtain ⟨store, hstore, rfl⟩ := Option.map_eq_some_iff.mp h
    exact .inr (.inr (.inr (.inr (.inr ⟨c, store, rfl, hstore, rfl⟩))))

end Replicas

end MessagingApp
