import MessagingApp.Library.Runs
import Mathlib.Data.List.Perm.Subperm

/-!
# Listeners that are registered by listeners

A world changes step by step. An outer listener follows one part of it. A callback
of it, on a version or on an error, updates a screen and registers as many inner
listeners as it says, and all inner listeners follow a second part and update the
same screen. A listener is handed versions of its part in order and may skip some;
different listeners lag behind independently. The rules below say when a screen
agrees with the current world once no listener has anything new to be told, and how
many listeners there are.
-/

namespace NestedListeners

/-- A world, the parts of it that are followed, and the callbacks. The outer one also returns
how many inner listeners it registers. A callback or a local action that has no result ends the
run. -/
structure Program (W E O I L S : Type*) where
  step : W → E → Option W
  outer : W → O
  inner : W → I
  onOuter : Except String O → S → Option (S × ℕ)
  onInner : I → S → Option S
  onLocal : L → S → Option S

/-- What a listener was handed last: the number of the version and its content. -/
structure Delivery (α : Type*) where
  version : ℕ
  content : α

/-- The versions of the world so far, the screen, and what each listener was handed last.
A listener that was handed nothing yet counts as `none`. -/
structure Config (W O I S : Type*) where
  past : List W
  now : W
  screen : S
  outerSeen : Option (Delivery O)
  innerSeen : List (Option (Delivery I))

/-- What can happen next. -/
inductive Event (E L : Type*)
  | world (e : E)
  | outer (version : ℕ)
  | outerError (error : String)
  | inner (listener version : ℕ)
  | screen (l : L)

/-- A condition on the steps of the world. -/
def Event.Admits {E L : Type*} (ok : E → Prop) : Event E L → Prop
  | .world e => ok e
  | _ => True

/-- The earliest version a listener may be handed next. -/
def cursor {α : Type*} (seen : Option (Delivery α)) : ℕ := (seen.map Delivery.version).getD 0

variable {W E O I L S : Type*}

namespace Config

/-- All versions of the world, oldest first. -/
def versions (c : Config W O I S) : List W := c.past ++ [c.now]

/-- The screen is opened: the outer listener is registered. -/
def opened (w : W) (screen : S) : Config W O I S :=
  { past := [], now := w, screen := screen, outerSeen := none, innerSeen := [] }

end Config

namespace Program

variable (P : Program W E O I L S)

/-- What an outer callback leaves: the screen, and the inner listeners it registered. -/
def outerHandled (c : Config W O I S) (screen : S) (registered : ℕ) : Config W O I S :=
  { c with screen := screen, innerSeen := c.innerSeen ++ List.replicate registered none }

/-- The outer callback runs on version `j`. -/
def deliverOuter (c : Config W O I S) (j : ℕ) (v : W) : Option (Config W O I S) :=
  if cursor c.outerSeen ≤ j then
    (P.onOuter (.ok (P.outer v)) c.screen).map fun handled =>
      { outerHandled c handled.1 handled.2 with outerSeen := some ⟨j, P.outer v⟩ }
  else none

/-- The callback of the inner listener `k` runs on version `j`. -/
def deliverInner (c : Config W O I S) (k j : ℕ) (v : W) (seen : Option (Delivery I)) :
    Option (Config W O I S) :=
  if cursor seen ≤ j then
    (P.onInner (P.inner v) c.screen).map fun screen =>
      { c with
        screen := screen
        innerSeen := c.innerSeen.set k (some ⟨j, P.inner v⟩) }
  else none

/-- One step. -/
def next (c : Config W O I S) : Event E L → Option (Config W O I S)
  | .world e => (P.step c.now e).map fun w => { c with past := c.versions, now := w }
  | .outer j => c.versions[j]?.bind (P.deliverOuter c j)
  | .outerError error =>
    (P.onOuter (.error error) c.screen).map fun handled => outerHandled c handled.1 handled.2
  | .inner k j =>
    c.versions[j]?.bind fun v => c.innerSeen[k]?.bind fun seen => P.deliverInner c k j v seen
  | .screen l => (P.onLocal l c.screen).map fun screen => { c with screen := screen }

/-- The configurations reached when the steps of the world satisfy `ok`. -/
def Reachable (ok : E → Prop) (start : Config W O I S) : Config W O I S → Prop :=
  Runs.Reachable P.next (Event.Admits ok) start

/-- No listener has anything new to be told. -/
def Settled (c : Config W O I S) : Prop :=
  (∃ o, c.outerSeen = some o ∧ o.content = P.outer c.now) ∧
    ∀ seen ∈ c.innerSeen, ∃ i, seen = some i ∧ i.content = P.inner c.now

/-- What a step does. -/
theorem next_cases {c c' : Config W O I S} {e : Event E L} (h : P.next c e = some c') :
    (∃ e' w, e = .world e' ∧ P.step c.now e' = some w ∧
      c' = { c with past := c.versions, now := w }) ∨
    (∃ j v screen n, e = .outer j ∧ c.versions[j]? = some v ∧
      P.onOuter (.ok (P.outer v)) c.screen = some (screen, n) ∧
      c' = { outerHandled c screen n with outerSeen := some ⟨j, P.outer v⟩ }) ∨
    (∃ error screen n, e = .outerError error ∧
      P.onOuter (.error error) c.screen = some (screen, n) ∧ c' = outerHandled c screen n) ∨
    (∃ k j v screen, e = .inner k j ∧ k < c.innerSeen.length ∧ c.versions[j]? = some v ∧
      P.onInner (P.inner v) c.screen = some screen ∧ c' = { c with
        screen := screen
        innerSeen := c.innerSeen.set k (some ⟨j, P.inner v⟩) }) ∨
    (∃ l screen, e = .screen l ∧ P.onLocal l c.screen = some screen ∧
      c' = { c with screen := screen }) := by
  cases e with
  | world e =>
    obtain ⟨w, hw, hc⟩ := Option.map_eq_some_iff.mp h
    exact .inl ⟨e, w, rfl, hw, hc.symm⟩
  | outer j =>
    obtain ⟨v, hv, h⟩ := Option.bind_eq_some_iff.mp h
    unfold deliverOuter at h
    split at h
    · obtain ⟨⟨screen, n⟩, hscreen, hc⟩ := Option.map_eq_some_iff.mp h
      exact .inr (.inl ⟨j, v, screen, n, rfl, hv, hscreen, hc.symm⟩)
    · cases h
  | outerError error =>
    obtain ⟨⟨screen, n⟩, hscreen, hc⟩ := Option.map_eq_some_iff.mp h
    exact .inr (.inr (.inl ⟨error, screen, n, rfl, hscreen, hc.symm⟩))
  | inner k j =>
    obtain ⟨v, hv, h⟩ := Option.bind_eq_some_iff.mp h
    obtain ⟨seen, hseen, h⟩ := Option.bind_eq_some_iff.mp h
    unfold deliverInner at h
    split at h
    · obtain ⟨screen, hscreen, hc⟩ := Option.map_eq_some_iff.mp h
      have hk := (List.getElem?_eq_some_iff.mp hseen).1
      exact .inr (.inr (.inr (.inl ⟨k, j, v, screen, rfl, hk, hv, hscreen, hc.symm⟩)))
    · cases h
  | screen l =>
    obtain ⟨screen, hscreen, hc⟩ := Option.map_eq_some_iff.mp h
    exact .inr (.inr (.inr (.inr ⟨l, screen, rfl, hscreen, hc.symm⟩)))

variable {P}

/-- What a callback of an inner listener does. -/
theorem inner_eq_some {c c' : Config W O I S} {k j : ℕ}
    (h : P.next c (.inner k j) = some c') : k < c.innerSeen.length ∧ ∃ v screen,
      c.versions[j]? = some v ∧ P.onInner (P.inner v) c.screen = some screen ∧ c' = { c with
        screen := screen
        innerSeen := c.innerSeen.set k (some ⟨j, P.inner v⟩) } := by
  rcases P.next_cases h with ⟨_, _, heq, _⟩ | ⟨_, _, _, _, heq, _⟩ | ⟨_, _, _, heq, _⟩ |
    ⟨k', j', v, screen, heq, hk, hv, hscreen, hc⟩ | ⟨_, _, heq, _⟩
  case inr.inr.inr.inl =>
    obtain ⟨rfl, rfl⟩ := Event.inner.inj heq
    exact ⟨hk, v, screen, hv, hscreen, hc⟩
  all_goals cases heq

end Program

/-! ## Convergence -/

/-- What to show about the callbacks of a program. `Linked w s` relates the screen to the
current world only; `Fresh o s` says that the screen took over the outer content `o`;
`Built o i s` says that it was built from `o` and the inner content `i`. -/
structure Rules (P : Program W E O I L S) (ok : E → Prop) where
  Valid : W → Prop
  Later : W → W → Prop
  Linked : W → S → Prop
  Fresh : O → S → Prop
  Built : O → I → S → Prop
  later_refl : ∀ w, Later w w
  later_trans : ∀ {u v w}, Later u v → Later v w → Later u w
  valid_step : ∀ {v w e}, Valid v → ok e → P.step v e = some w → Valid w ∧ Later v w
  linked_later : ∀ {v w s}, Linked v s → Later v w → Linked w s
  /-- An outer callback on a version `v` of the current world `w` registers an inner listener. -/
  outer : ∀ {v w s t n}, Valid v → Later v w → Linked w s →
    P.onOuter (.ok (P.outer v)) s = some (t, n) → 0 < n ∧ Linked w t ∧ Fresh (P.outer v) t
  /-- An outer callback on an error leaves the screen alone. -/
  outer_error : ∀ {error s t n}, P.onOuter (.error error) s = some (t, n) → t = s
  /-- An inner callback keeps what the outer one left and builds on it. -/
  inner_linked : ∀ {v w s t}, Valid v → Later v w → Linked w s →
    P.onInner (P.inner v) s = some t → Linked w t
  inner_built : ∀ {o i s t}, Fresh o s → P.onInner i s = some t → Fresh o t ∧ Built o i t
  local_linked : ∀ {w l s t}, Linked w s → P.onLocal l s = some t → Linked w t
  local_fresh : ∀ {o l s t}, Fresh o s → P.onLocal l s = some t → Fresh o t
  local_built : ∀ {o i l s t}, Built o i s → P.onLocal l s = some t → Built o i t

namespace Rules

variable {P : Program W E O I L S} {ok : E → Prop} (R : Rules P ok)

/-- Since the last outer callback either an inner listener was registered that was handed
nothing yet, or the screen was last built from what some inner listener was handed last. -/
structure Sound (c : Config W O I S) : Prop where
  valid : ∀ v ∈ c.versions, R.Valid v ∧ R.Later v c.now
  linked : R.Linked c.now c.screen
  tracked : ∀ o, c.outerSeen = some o → R.Fresh o.content c.screen ∧
    (none ∈ c.innerSeen ∨ ∃ i, some i ∈ c.innerSeen ∧ R.Built o.content i.content c.screen)

variable {R}

theorem Sound.opened {w : W} {screen : S} (hw : R.Valid w) (hscreen : R.Linked w screen) :
    R.Sound (.opened w screen) where
  valid v hv := by
    obtain rfl : v = w := by simpa [Config.versions, Config.opened] using hv
    exact ⟨hw, R.later_refl v⟩
  linked := hscreen
  tracked o ho := by cases ho

theorem Sound.next {c c' : Config W O I S} {e : Event E L} (hc : R.Sound c)
    (hok : e.Admits ok) (h : P.next c e = some c') : R.Sound c' := by
  rcases P.next_cases h with ⟨e', w, rfl, hw, rfl⟩ | ⟨j, v, screen, n, rfl, hv, hscreen, rfl⟩ |
    ⟨error, screen, n, rfl, hscreen, rfl⟩ | ⟨k, j, v, screen, rfl, hk, hv, hscreen, rfl⟩ |
    ⟨l, screen, rfl, hscreen, rfl⟩
  · -- The world moves on; what the listeners were handed stays.
    have hnow : R.Valid c.now := (hc.valid c.now (by simp [Config.versions])).1
    obtain ⟨hvalid, hlater⟩ := R.valid_step hnow hok hw
    refine ⟨?_, R.linked_later hc.linked hlater, hc.tracked⟩
    intro v hv
    rcases List.mem_append.mp hv with hv | hv
    · exact ⟨(hc.valid v hv).1, R.later_trans (hc.valid v hv).2 hlater⟩
    · obtain rfl := List.mem_singleton.mp hv
      exact ⟨hvalid, R.later_refl v⟩
  · obtain ⟨hvalid, hlater⟩ := hc.valid v (List.mem_of_getElem? hv)
    obtain ⟨hpos, hlinked, hfresh⟩ := R.outer hvalid hlater hc.linked hscreen
    refine ⟨hc.valid, hlinked, ?_⟩
    intro o ho
    obtain rfl := Option.some.inj ho
    have hnew : none ∈ List.replicate n (none : Option (Delivery I)) :=
      List.mem_replicate.mpr ⟨Nat.ne_of_gt hpos, rfl⟩
    exact ⟨hfresh, .inl (List.mem_append_right _ hnew)⟩
  · obtain rfl := R.outer_error hscreen
    refine ⟨hc.valid, hc.linked, ?_⟩
    intro o ho
    obtain ⟨hfresh, hinner⟩ := hc.tracked o ho
    refine ⟨hfresh, ?_⟩
    rcases hinner with hnone | ⟨i, hi, hbuilt⟩
    · exact .inl (List.mem_append_left _ hnone)
    · exact .inr ⟨i, List.mem_append_left _ hi, hbuilt⟩
  · obtain ⟨hvalid, hlater⟩ := hc.valid v (List.mem_of_getElem? hv)
    refine ⟨hc.valid, R.inner_linked hvalid hlater hc.linked hscreen, ?_⟩
    intro o ho
    obtain ⟨hfresh, hbuilt⟩ := R.inner_built (hc.tracked o ho).1 hscreen
    exact ⟨hfresh, .inr ⟨⟨j, P.inner v⟩, List.mem_set hk _, hbuilt⟩⟩
  · refine ⟨hc.valid, R.local_linked hc.linked hscreen, ?_⟩
    intro o ho
    obtain ⟨hfresh, hinner⟩ := hc.tracked o ho
    refine ⟨R.local_fresh hfresh hscreen, ?_⟩
    rcases hinner with hnone | ⟨i, hi, hbuilt⟩
    · exact .inl hnone
    · exact .inr ⟨i, hi, R.local_built hbuilt hscreen⟩

/-- Every reachable configuration is sound. -/
theorem sound_of_reachable (R : Rules P ok) {w : W} {screen : S} {c : Config W O I S}
    (hw : R.Valid w) (hscreen : R.Linked w screen)
    (hc : P.Reachable ok (.opened w screen) c) : R.Sound c :=
  Runs.Reachable.invariant hc (.opened hw hscreen) (fun _ _ _ _ hu hok h => hu.next hok h)

/-- The current version of a sound configuration is valid. -/
theorem Sound.valid_now {c : Config W O I S} (hc : R.Sound c) : R.Valid c.now :=
  (hc.valid c.now (by simp [Config.versions])).1

/-- **Convergence.** When no listener has anything new to be told, the screen is built from
the current contents of both parts. -/
theorem Sound.settled {c : Config W O I S} (hc : R.Sound c) (hsettled : P.Settled c) :
    R.Fresh (P.outer c.now) c.screen ∧ R.Built (P.outer c.now) (P.inner c.now) c.screen := by
  obtain ⟨⟨o, ho, hcontent⟩, hinner⟩ := hsettled
  obtain ⟨hfresh, hnone | ⟨i, hi, hbuilt⟩⟩ := hc.tracked o ho
  · obtain ⟨i, hi, _⟩ := hinner none hnone
    cases hi
  · obtain ⟨i', hi', hcontent'⟩ := hinner _ hi
    obtain rfl := Option.some.inj hi'
    rw [← hcontent, ← hcontent']
    exact ⟨hfresh, hbuilt⟩

end Rules

/-! ## Catching up -/

/-- No listener was handed a version that does not exist yet. -/
structure Config.Behind (c : Config W O I S) : Prop where
  outer : cursor c.outerSeen ≤ c.past.length
  inner : ∀ seen ∈ c.innerSeen, cursor seen ≤ c.past.length

namespace Program

variable {P : Program W E O I L S}

theorem Behind.next {c c' : Config W O I S} {e : Event E L} (hc : c.Behind)
    (h : P.next c e = some c') : c'.Behind := by
  have hbound : ∀ {j : ℕ} {v : W}, c.versions[j]? = some v → j ≤ c.past.length := by
    intro j v hv
    have hlt := (List.getElem?_eq_some_iff.mp hv).1
    simp only [Config.versions, List.length_append, List.length_singleton] at hlt
    omega
  have hregistered : ∀ n, ∀ seen ∈ c.innerSeen ++ List.replicate n none,
      cursor seen ≤ c.past.length := by
    intro n seen hseen
    rcases List.mem_append.mp hseen with hseen | hseen
    · exact hc.inner seen hseen
    · rw [List.eq_of_mem_replicate hseen]
      exact Nat.zero_le _
  rcases P.next_cases h with ⟨e', w, rfl, hw, rfl⟩ | ⟨j, v, screen, n, rfl, hv, hscreen, rfl⟩ |
    ⟨error, screen, n, rfl, hscreen, rfl⟩ | ⟨k, j, v, screen, rfl, hk, hv, hscreen, rfl⟩ |
    ⟨l, screen, rfl, hscreen, rfl⟩
  · have hlonger : c.past.length ≤ c.versions.length := by simp [Config.versions]
    exact ⟨Nat.le_trans hc.outer hlonger,
      fun seen hseen => Nat.le_trans (hc.inner seen hseen) hlonger⟩
  · exact ⟨hbound hv, hregistered n⟩
  · exact ⟨hc.outer, hregistered n⟩
  · refine ⟨hc.outer, ?_⟩
    intro seen hseen
    rcases List.mem_or_eq_of_mem_set hseen with hseen | rfl
    · exact hc.inner seen hseen
    · exact hbound hv
  · exact ⟨hc.outer, hc.inner⟩

/-- No listener of a reachable configuration is ahead of the world. -/
theorem Reachable.behind {ok : E → Prop} {w : W} {screen : S} {c : Config W O I S}
    (hc : P.Reachable ok (.opened w screen) c) : c.Behind :=
  Runs.Reachable.invariant hc ⟨Nat.le_refl _, by simp [Config.opened]⟩
    (fun _ _ _ _ hu _ h => Behind.next hu h)

/-- The first `n` inner listeners are handed the current version. -/
theorem exists_inner_settled {ok : E → Prop} {start c : Config W O I S}
    (hc : P.Reachable ok start c) (hbehind : c.Behind)
    (hinner : ∀ s, ∃ t, P.onInner (P.inner c.now) s = some t) (n : ℕ)
    (hn : n ≤ c.innerSeen.length) :
    ∃ c', P.Reachable ok start c' ∧ c'.Behind ∧ c'.now = c.now ∧ c'.past = c.past ∧
      c'.outerSeen = c.outerSeen ∧ c'.innerSeen.length = c.innerSeen.length ∧
      ∀ k < n, c'.innerSeen[k]? = some (some ⟨c.past.length, P.inner c.now⟩) := by
  induction n with
  | zero => exact ⟨c, hc, hbehind, rfl, rfl, rfl, rfl, by simp⟩
  | succ n ih =>
    obtain ⟨d, hd, hdbehind, hnow, hpast, houter, hlength, hdone⟩ := ih (by omega)
    have hk : n < d.innerSeen.length := by omega
    have hversion : d.versions[c.past.length]? = some c.now := by
      simp [Config.versions, hpast, hnow]
    have hcursor : cursor d.innerSeen[n] ≤ c.past.length := by
      rw [← hpast]
      exact hdbehind.inner _ (List.getElem_mem hk)
    obtain ⟨screen, hscreen⟩ := hinner d.screen
    have hstep : P.next d (.inner n c.past.length) = some { d with
        screen := screen
        innerSeen := d.innerSeen.set n (some ⟨c.past.length, P.inner c.now⟩) } := by
      simp only [next, hversion, Option.bind_some, List.getElem?_eq_getElem hk]
      rw [deliverInner, if_pos hcursor, hscreen]
      rfl
    have hadmits : Event.Admits ok (Event.inner n c.past.length : Event E L) := trivial
    refine ⟨_, Runs.Reachable.tail hd hadmits hstep, Behind.next hdbehind hstep, hnow, hpast,
      houter, by simpa using hlength, ?_⟩
    intro k hk'
    rcases Nat.lt_succ_iff_lt_or_eq.mp hk' with hlt | rfl
    · simpa [List.getElem?_set, Nat.ne_of_gt hlt] using hdone k hlt
    · simp [hk]

/-- **Catching up.** When the callbacks accept the current version, every configuration can
reach a settled one in which the world has not moved. -/
theorem exists_settled {ok : E → Prop} {start c : Config W O I S} (hc : P.Reachable ok start c)
    (hbehind : c.Behind)
    (houter : ∀ s, ∃ handled, P.onOuter (.ok (P.outer c.now)) s = some handled)
    (hinner : ∀ s, ∃ t, P.onInner (P.inner c.now) s = some t) :
    ∃ c', P.Reachable ok start c' ∧ c'.now = c.now ∧ P.Settled c' := by
  obtain ⟨⟨screen, n⟩, hscreen⟩ := houter c.screen
  have hversion : c.versions[c.past.length]? = some c.now := by simp [Config.versions]
  have hstep : P.next c (.outer c.past.length) = some { outerHandled c screen n with
      outerSeen := some ⟨c.past.length, P.outer c.now⟩ } := by
    simp only [next, hversion, Option.bind_some]
    rw [deliverOuter, if_pos hbehind.outer, hscreen]
    rfl
  have hadmits : Event.Admits ok (Event.outer c.past.length : Event E L) := trivial
  have htold := Runs.Reachable.tail hc hadmits hstep
  obtain ⟨d, hd, _, hnow, _, hdouter, hlength, hdone⟩ := exists_inner_settled htold
    (Behind.next hbehind hstep) hinner _ (Nat.le_refl _)
  refine ⟨d, hd, hnow, ⟨_, hdouter, congrArg P.outer hnow.symm⟩, ?_⟩
  intro seen hseen
  obtain ⟨k, hk, rfl⟩ := List.mem_iff_getElem.mp hseen
  have hkdone := hdone k (by omega)
  rw [List.getElem?_eq_getElem hk] at hkdone
  exact ⟨_, Option.some.inj hkdone, congrArg P.inner hnow.symm⟩

end Program

/-! ## Counting listeners -/

/-- A callback of the outer listener on a version. -/
def Event.isOuter {E L : Type*} : Event E L → Bool
  | .outer _ => true
  | _ => false

/-- A step of the world. -/
def Event.isWorld {E L : Type*} : Event E L → Bool
  | .world _ => true
  | _ => false

/-- The inner listener whose callback runs. -/
def Event.listener? {E L : Type*} : Event E L → Option ℕ
  | .inner k _ => some k
  | _ => none

namespace Program

/-- The outer callback registers one inner listener on each version, and none on an error. -/
structure RegistersOne (P : Program W E O I L S) : Prop where
  ok : ∀ {o s t n}, P.onOuter (.ok o) s = some (t, n) → n = 1
  error : ∀ {e s t n}, P.onOuter (.error e) s = some (t, n) → n = 0

variable {P : Program W E O I L S} {c c' : Config W O I S}

/-- A step adds the listeners that the outer callback registers, and removes none. -/
theorem innerSeen_length_next (hP : P.RegistersOne) {e : Event E L}
    (h : P.next c e = some c') :
    c'.innerSeen.length = c.innerSeen.length + [e].countP Event.isOuter := by
  rcases P.next_cases h with ⟨e', w, rfl, _, rfl⟩ | ⟨j, v, screen, n, rfl, _, hscreen, rfl⟩ |
    ⟨error, screen, n, rfl, hscreen, rfl⟩ | ⟨k, j, v, screen, rfl, _, _, _, rfl⟩ |
    ⟨l, screen, rfl, _, rfl⟩
  · simp [Event.isOuter]
  · obtain rfl := hP.ok hscreen
    simp [outerHandled, Event.isOuter]
  · obtain rfl := hP.error hscreen
    simp [outerHandled, Event.isOuter]
  · simp [Event.isOuter]
  · simp [Event.isOuter]

/-- Such a program has one listener more for each version its outer callback was handed. -/
theorem innerSeen_length_run (hP : P.RegistersOne) {es : List (Event E L)}
    (h : Runs.run P.next c es = some c') :
    c'.innerSeen.length = c.innerSeen.length + es.countP Event.isOuter := by
  induction es generalizing c with
  | nil =>
    obtain rfl : c = c' := by simpa using h
    rfl
  | cons e es ih =>
    obtain ⟨d, hstep, hrest⟩ := Runs.run_cons_eq_some.mp h
    have hhead := innerSeen_length_next hP hstep
    have hsplit : (e :: es).countP Event.isOuter =
        [e].countP Event.isOuter + es.countP Event.isOuter := by
      rw [← List.countP_append, List.singleton_append]
    rw [ih hrest, hhead, hsplit, Nat.add_assoc]

/-- A step that is no step of the world and runs no callback of listener `k` keeps the world
and what that listener was handed. -/
theorem getElem?_innerSeen_next {e : Event E L} (h : P.next c e = some c')
    (hworld : e.isWorld = false) {k : ℕ} (hk : k < c.innerSeen.length)
    (hother : e.listener? ≠ some k) :
    c'.now = c.now ∧ k < c'.innerSeen.length ∧ c'.innerSeen[k]? = c.innerSeen[k]? := by
  have hregistered : ∀ n, k < (c.innerSeen ++ List.replicate n none).length ∧
      (c.innerSeen ++ List.replicate n none)[k]? = c.innerSeen[k]? := by
    intro n
    refine ⟨?_, List.getElem?_append_left hk⟩
    rw [List.length_append]
    omega
  rcases P.next_cases h with ⟨e', w, rfl, _, rfl⟩ | ⟨j, v, screen, n, rfl, _, _, rfl⟩ |
    ⟨error, screen, n, rfl, _, rfl⟩ | ⟨i, j, v, screen, rfl, _, _, _, rfl⟩ |
    ⟨l, screen, rfl, _, rfl⟩
  · cases hworld
  · exact ⟨rfl, hregistered n⟩
  · exact ⟨rfl, hregistered n⟩
  · have hne : i ≠ k := fun heq => hother (congrArg some heq)
    refine ⟨rfl, ?_, List.getElem?_set_ne hne⟩
    rwa [List.length_set]
  · exact ⟨rfl, hk, rfl⟩

/-- While the world stands still, a listener whose callback does not run keeps what it was
handed. -/
theorem getElem?_innerSeen_run {es : List (Event E L)} (h : Runs.run P.next c es = some c')
    (hworld : ∀ e ∈ es, e.isWorld = false) {k : ℕ} (hk : k < c.innerSeen.length)
    (hother : k ∉ es.filterMap Event.listener?) :
    c'.now = c.now ∧ c'.innerSeen[k]? = c.innerSeen[k]? := by
  let Kept (d d' : Config W O I S) : Prop := k < d.innerSeen.length →
    d'.now = d.now ∧ k < d'.innerSeen.length ∧ d'.innerSeen[k]? = d.innerSeen[k]?
  have hkept : Kept c c' := by
    refine Runs.run_rel h (fun _ hk => ⟨rfl, hk, rfl⟩) ?_ ?_
    · intro u v w huv hvw hk
      obtain ⟨hnow, hk', hseen⟩ := huv hk
      obtain ⟨hnow', hk'', hseen'⟩ := hvw hk'
      exact ⟨hnow'.trans hnow, hk'', hseen'.trans hseen⟩
    · intro u v e he hstep hk
      have hne : e.listener? ≠ some k := fun heq =>
        hother (List.mem_filterMap.mpr ⟨e, he, heq⟩)
      exact getElem?_innerSeen_next hstep (hworld e he) hk hne
  obtain ⟨hnow, _, hseen⟩ := hkept hk
  exact ⟨hnow, hseen⟩

/-- **Every listener has to be told.** When the followed content is new to all inner listeners
and the world stands still, the callback of each of them runs before none has anything new to
be told. -/
theorem callbacks_of_settled {es : List (Event E L)} (h : Runs.run P.next c es = some c')
    (hworld : ∀ e ∈ es, e.isWorld = false) (hsettled : P.Settled c')
    (hnew : ∀ i, some i ∈ c.innerSeen → i.content ≠ P.inner c.now) :
    c.innerSeen.length ≤ (es.filterMap Event.listener?).length := by
  have htold : ∀ k < c.innerSeen.length, k ∈ es.filterMap Event.listener? := by
    intro k hk
    by_contra hother
    obtain ⟨hnow, hseen⟩ := getElem?_innerSeen_run h hworld hk hother
    have hold := List.getElem?_eq_getElem hk
    have hmem : c.innerSeen[k] ∈ c'.innerSeen := List.mem_of_getElem? (hseen.trans hold)
    obtain ⟨i, hi, hcontent⟩ := hsettled.2 _ hmem
    rw [hnow] at hcontent
    exact hnew i (hi ▸ List.getElem_mem hk) hcontent
  have hsub : List.range c.innerSeen.length ⊆ es.filterMap Event.listener? :=
    fun k hk => htold k (List.mem_range.mp hk)
  have hsubperm := List.nodup_range.subperm hsub
  simpa using hsubperm.length_le

end Program

end NestedListeners
