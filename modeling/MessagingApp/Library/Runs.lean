import Mathlib.Data.List.Basic

/-!
# Runs of a partial step function

A system is given by a step function that returns `none` when an event is not
enabled. A run feeds a list of events to it. Invariants are proved for one step
and transported to every reachable state by the rules of this file, so that a
development never repeats the induction over runs.
-/

namespace Runs

variable {S E : Type*}

/-- Feed a list of events to a partial step function, oldest event first. -/
def run (step : S → E → Option S) (s : S) (es : List E) : Option S := es.foldlM step s

@[simp] theorem run_nil (step : S → E → Option S) (s : S) : run step s [] = some s := rfl

@[simp] theorem run_cons (step : S → E → Option S) (s : S) (e : E) (es : List E) :
    run step s (e :: es) = (step s e).bind (fun t => run step t es) := rfl

/-- A run over a first event and more takes a step and goes on from there. -/
theorem run_cons_eq_some {step : S → E → Option S} {s t : S} {e : E} {es : List E} :
    run step s (e :: es) = some t ↔ ∃ u, step s e = some u ∧ run step u es = some t :=
  Option.bind_eq_some_iff

/-- A run over two event lists is the run over the second from where the first ends. -/
theorem run_append (step : S → E → Option S) (s : S) (es fs : List E) :
    run step s (es ++ fs) = (run step s es).bind (fun t => run step t fs) := by
  induction es generalizing s with
  | nil => rfl
  | cons e es ih =>
    rw [List.cons_append, run_cons, run_cons, Option.bind_assoc]
    congr 1
    funext t
    exact ih t

/-- The states reachable from `start` by events that satisfy `ok`. -/
inductive Reachable (step : S → E → Option S) (ok : E → Prop) (start : S) : S → Prop
  | refl : Reachable step ok start start
  | tail {s t : S} {e : E} : Reachable step ok start s → ok e → step s e = some t →
      Reachable step ok start t

variable {step : S → E → Option S} {ok : E → Prop} {start s t : S}

/-- A run of admissible events leads from a reachable state to a reachable state. -/
theorem Reachable.append_run {es : List E} (hs : Reachable step ok start s)
    (hok : ∀ e ∈ es, ok e) (hrun : run step s es = some t) : Reachable step ok start t := by
  induction es generalizing s with
  | nil =>
    obtain rfl : s = t := by simpa using hrun
    exact hs
  | cons e es ih =>
    obtain ⟨u, hu, hrest⟩ := run_cons_eq_some.mp hrun
    exact ih (hs.tail (hok e List.mem_cons_self) hu)
      (fun f hf => hok f (List.mem_cons_of_mem e hf)) hrest

/-- Executing a list of admissible events from the start shows reachability. -/
theorem Reachable.of_run {es : List E} (hok : ∀ e ∈ es, ok e)
    (hrun : run step start es = some t) : Reachable step ok start t :=
  Reachable.append_run .refl hok hrun

/-- What is reachable from a reachable state is reachable. -/
theorem Reachable.trans (hs : Reachable step ok start s) (ht : Reachable step ok s t) :
    Reachable step ok start t := by
  induction ht with
  | refl => exact hs
  | tail _ he hstep ih => exact ih.tail he hstep

/-- A reachable state is the end of a run of admissible events. -/
theorem Reachable.exists_run (hs : Reachable step ok start s) :
    ∃ es, (∀ e ∈ es, ok e) ∧ run step start es = some s := by
  induction hs with
  | refl => exact ⟨[], by simp, rfl⟩
  | @tail s t e _ he hstep ih =>
    obtain ⟨es, hes, hrun⟩ := ih
    refine ⟨es ++ [e], ?_, ?_⟩
    · intro e' he'
      rcases List.mem_append.mp he' with hold | hnew
      · exact hes e' hold
      · obtain rfl := List.mem_singleton.mp hnew
        exact he
    · rw [run_append, hrun]
      exact run_cons_eq_some.mpr ⟨t, hstep, rfl⟩

/-- With more admissible events no fewer states are reachable. -/
theorem Reachable.mono {ok' : E → Prop} (h : ∀ e, ok e → ok' e)
    (hs : Reachable step ok start s) : Reachable step ok' start s := by
  induction hs with
  | refl => exact .refl
  | tail _ he hstep ih => exact ih.tail (h _ he) hstep

/-- **Invariant rule.** What holds at the start and is kept by every admissible
step from a reachable state holds at every reachable state. -/
theorem Reachable.invariant {I : S → Prop} (hs : Reachable step ok start s) (h0 : I start)
    (hstep : ∀ u v e, Reachable step ok start u → I u → ok e → step u e = some v → I v) :
    I s := by
  induction hs with
  | refl => exact h0
  | tail hu he hv ih => exact hstep _ _ _ hu ih he hv

/-- **Draining.** An event that can be taken as long as a size is positive, and lowers it, can be
repeated until the size is zero. -/
theorem exists_run_replicate (I : S → Prop) (size : S → ℕ) (e : E) (hs : I s)
    (hstep : ∀ u, I u → 0 < size u → ∃ v, step u e = some v ∧ I v ∧ size v < size u) :
    ∃ n t, run step s (List.replicate n e) = some t ∧ I t ∧ size t = 0 := by
  induction hsize : size s using Nat.strongRecOn generalizing s with
  | ind m ih =>
    by_cases hzero : size s = 0
    · exact ⟨0, s, rfl, hs, hzero⟩
    · obtain ⟨u, hu, hI, hlt⟩ := hstep s hs (Nat.pos_of_ne_zero hzero)
      obtain ⟨n, t, hrun, ht⟩ := ih (size u) (hsize ▸ hlt) hI rfl
      exact ⟨n + 1, t, run_cons_eq_some.mpr ⟨u, hu, hrun⟩, ht⟩

/-- **Relating the ends of a run.** A reflexive and transitive relation that holds across every
step of a run holds between its ends. -/
theorem run_rel {R : S → S → Prop} {es : List E} (hrun : run step s es = some t)
    (hrefl : ∀ u, R u u) (htrans : ∀ u v w, R u v → R v w → R u w)
    (hstep : ∀ u v, ∀ e ∈ es, step u e = some v → R u v) : R s t := by
  induction es generalizing s with
  | nil =>
    obtain rfl : s = t := by simpa using hrun
    exact hrefl s
  | cons e es ih =>
    obtain ⟨u, hu, hrest⟩ := run_cons_eq_some.mp hrun
    have hhead : R s u := hstep s u e List.mem_cons_self hu
    have htail : R u t :=
      ih hrest (fun v w f hf => hstep v w f (List.mem_cons_of_mem e hf))
    exact htrans s u t hhead htail

/-- Every state that a run passes through satisfies `P`, its first and last included. -/
def Along (step : S → E → Option S) (P : S → Prop) (s : S) : List E → Prop
  | [] => P s
  | e :: es => P s ∧ ∀ t, step s e = some t → Along step P t es

/-- **Invariant rule along a run.** What holds at its start and is kept by every admissible
step from a state that satisfies `P` holds at the end of a run through such states. -/
theorem Along.invariant {P : S → Prop} {es : List E} (hP : Along step P s es) (I : S → Prop)
    (hok : ∀ e ∈ es, ok e) (hrun : run step s es = some t) (h0 : I s)
    (hstep : ∀ u v e, P u → I u → ok e → step u e = some v → I v) : I t := by
  induction es generalizing s with
  | nil =>
    obtain rfl : s = t := by simpa using hrun
    exact h0
  | cons e es ih =>
    obtain ⟨u, hu, hrest⟩ := run_cons_eq_some.mp hrun
    exact ih (hP.2 u hu) (fun f hf => hok f (List.mem_cons_of_mem e hf)) hrest
      (hstep s u e hP.1 h0 (hok e List.mem_cons_self) hu)

/-- Every step of a run that is taken meets a condition on the state before it and the event. -/
def Guarded (step : S → E → Option S) (guard : S → E → Prop) (s : S) : List E → Prop
  | [] => True
  | e :: es => ∀ t, step s e = some t → guard s e ∧ Guarded step guard t es

/-- **Exact condition along a run.** When a step from a state with `P` leads to a state with `P`
exactly if it meets `guard`, a run stays in `P` exactly if all its steps meet `guard`. The
invariant `I` holds whatever the steps do. -/
theorem along_iff_guarded {P I : S → Prop} {guard : S → E → Prop}
    (hkeep : ∀ u v e, I u → step u e = some v → I v)
    (hexact : ∀ u v e, I u → P u → step u e = some v → (P v ↔ guard u e))
    (hI : I s) (hP : P s) (es : List E) : Along step P s es ↔ Guarded step guard s es := by
  induction es generalizing s with
  | nil => exact iff_of_true hP trivial
  | cons e es ih =>
    constructor
    · rintro ⟨_, hrest⟩ t ht
      have halong := hrest t ht
      have hPt : P t := by
        cases es with
        | nil => exact halong
        | cons f es => exact halong.1
      have hguard : guard s e := (hexact s t e hI hP ht).mp hPt
      exact ⟨hguard, (ih (hkeep s t e hI ht) hPt).mp halong⟩
    · intro hguarded
      refine ⟨hP, ?_⟩
      intro t ht
      obtain ⟨hguard, hrest⟩ := hguarded t ht
      have hPt : P t := (hexact s t e hI hP ht).mpr hguard
      exact (ih (hkeep s t e hI ht) hPt).mpr hrest

end Runs
