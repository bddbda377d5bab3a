import MessagingApp.Steps

/-!
# Replaying writes

A database is the result of the writes that were applied to it, and each document
depends only on the writes to it. A run of the system applies the writes of its
log.
-/

namespace MessagingApp

/-- A write with the server time it is applied at. -/
abbrev Applied := Time × Write

/-- Apply a write at its time. -/
def apply (db : Db) (a : Applied) : Option Db := commit a.1 a.2 db

/-- The document under a path after a write, from the document before it. -/
def after (a : Applied) (path : DocPath) (old : Option Document) : Option Document :=
  if path = a.2.path then
    (a.2.base old).map (fun d => DocumentStore.assign (FieldValue.eval a.1) d a.2.data)
  else old

/-- The document an overwrite leaves at time `now`. -/
def newDocument (now : Time) (w : Write) : Document :=
  DocumentStore.assign (FieldValue.eval now) (fun _ => none) w.data

theorem lookup_apply {db t : Db} {a : Applied} (h : apply db a = some t) (path : DocPath) :
    t.lookup path = after a path (db.lookup path) :=
  DocumentStore.Write.lookup_commit h path

theorem after_of_ne {a : Applied} {path : DocPath} (h : path ≠ a.2.path)
    (old : Option Document) : after a path old = old := if_neg h

/-- Each document after some writes is determined by the same document before them. -/
theorem lookup_run_apply {db t : Db} {as : List Applied} (h : Runs.run apply db as = some t)
    (path : DocPath) :
    t.lookup path = as.foldl (fun old a => after a path old) (db.lookup path) := by
  induction as generalizing db with
  | nil =>
    obtain rfl := Option.some.inj h
    rfl
  | cons a as ih =>
    obtain ⟨u, hu, hrest⟩ := Runs.run_cons_eq_some.mp h
    rw [ih hrest, lookup_apply hu, List.foldl_cons]

/-- The write of a log entry with its time. -/
def Commit.applied (entry : Commit) : Applied := (entry.time, entry.write)

/-- A step extends the log by the writes it applies. -/
theorem System.step_applies {s t : System} {e : Event} (h : s.step e = some t) :
    ∃ entries, t.log = s.log ++ entries ∧
      Runs.run apply s.db (entries.map Commit.applied) = some t.db := by
  rcases step_cases h with h | ⟨c, call, ws, _, h⟩ | ⟨c, now, p, rest, _, h⟩ | ⟨c, _, h⟩
  · exact ⟨[], by simp [h.log_eq], by simp [h.db_eq]⟩
  · exact ⟨[], by simp [h.log_eq], by simp [h.db_eq]⟩
  · refine ⟨_, h.log_eq, ?_⟩
    simpa [Commit.applied, apply] using h.commit_eq
  · exact ⟨[], by simp [h.log_eq], by simp [h.db_eq]⟩

/-- A run extends the log by the writes it applies. -/
theorem System.run_applies {s t : System} {es : List Event}
    (h : Runs.run System.step s es = some t) :
    ∃ entries, t.log = s.log ++ entries ∧
      Runs.run apply s.db (entries.map Commit.applied) = some t.db := by
  let Extends (u v : System) : Prop := ∃ entries, v.log = u.log ++ entries ∧
    Runs.run apply u.db (entries.map Commit.applied) = some v.db
  have hextends : Extends s t := by
    refine Runs.run_rel h (fun _ => ⟨[], by simp, rfl⟩) ?_ (fun _ _ _ _ => step_applies)
    rintro u v w ⟨first, hlog, happly⟩ ⟨entries, hlog', happly'⟩
    refine ⟨first ++ entries, by rw [hlog', hlog, List.append_assoc], ?_⟩
    rw [List.map_append, Runs.run_append, happly, Option.bind_some, happly']
  exact hextends

end MessagingApp
