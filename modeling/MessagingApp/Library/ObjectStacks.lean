import Mathlib.Data.List.Chain

/-!
# Stacks of references to objects

Objects are made and changed and never dropped, and a stack refers to some of them.
What an object may lie on depends on a key that its changes keep. A relation between
neighbours that holds whenever something is pushed holds along the whole stack in
every state, and what each object takes over from the one it lies on comes from the
nearest object that brought it in.
-/

namespace ObjectStacks

/-- Objects by their references, and a stack of references to some of them, the top first. -/
structure Heap (α : Type*) where
  objects : List α
  stack : List ℕ

variable {α κ L : Type*}

namespace Heap

/-- Change the object a reference points to. -/
def update (h : Heap α) (i : ℕ) (x : α) : Heap α := { h with objects := h.objects.set i x }

/-- Make an object and put it on top. -/
def push (h : Heap α) (x : α) : Heap α :=
  { objects := h.objects ++ [x], stack := h.objects.length :: h.stack }

/-- Take the top away, unless nothing lies under it. -/
def pop (h : Heap α) : Heap α :=
  { h with stack := if h.stack.tail = [] then h.stack else h.stack.tail }

/-- Take everything away but the bottom. -/
def popToRoot (h : Heap α) : Heap α := { h with stack := h.stack.getLast?.toList }

/-- The object on top, with its reference. -/
def top (h : Heap α) : Option (ℕ × α) :=
  h.stack.head?.bind fun i => h.objects[i]?.map fun x => (i, x)

/-- The key of the object a reference points to. -/
def keyAt (key : α → κ) (h : Heap α) (i : ℕ) : Option κ := h.objects[i]?.map key

variable {key : α → κ} {h : Heap α} {i j : ℕ} {x : α}

theorem top_eq_some : h.top = some (i, x) ↔ h.stack.head? = some i ∧ h.objects[i]? = some x := by
  rw [top, Option.bind_eq_some_iff]
  constructor
  · rintro ⟨j, hj, hx⟩
    obtain ⟨y, hy, heq⟩ := Option.map_eq_some_iff.mp hx
    obtain ⟨rfl, rfl⟩ := Prod.mk.inj heq
    exact ⟨hj, hy⟩
  · rintro ⟨hi, hx⟩
    exact ⟨i, hi, by rw [hx, Option.map_some]⟩

/-- Every object after a change is the new one or was there before. -/
theorem mem_update {y : α} (hy : y ∈ (h.update i x).objects) : y = x ∨ y ∈ h.objects :=
  (List.mem_or_eq_of_mem_set hy).symm

theorem mem_push {y : α} : y ∈ (h.push x).objects ↔ y ∈ h.objects ∨ y = x := by
  simp [push]

/-- A reference on the stack after taking something away was on it before. -/
theorem mem_of_mem_pop (hi : i ∈ h.pop.stack) : i ∈ h.stack := by
  unfold pop at hi
  by_cases hnil : h.stack.tail = []
  · simpa [hnil] using hi
  · exact List.mem_of_mem_tail (by simpa [hnil] using hi)

theorem mem_of_mem_popToRoot (hi : i ∈ h.popToRoot.stack) : i ∈ h.stack :=
  List.mem_of_getLast? (Option.mem_toList.mp hi)

/-- What is on top after a change: the changed object or what was there before. -/
theorem top_update {y : α} (h' : (h.update i x).top = some (j, y)) :
    (j = i ∧ y = x) ∨ (j ≠ i ∧ h.top = some (j, y)) := by
  obtain ⟨hhead, hobject⟩ := top_eq_some.mp h'
  by_cases hij : j = i
  · subst hij
    change (h.objects.set j x)[j]? = some y at hobject
    rw [List.getElem?_set_self'] at hobject
    obtain ⟨_, _, rfl⟩ := Option.map_eq_some_iff.mp hobject
    exact .inl ⟨rfl, rfl⟩
  · change (h.objects.set i x)[j]? = some y at hobject
    rw [List.getElem?_set_ne (Ne.symm hij)] at hobject
    exact .inr ⟨hij, top_eq_some.mpr ⟨hhead, hobject⟩⟩

/-- The bottom of the stack stays where it is. -/
theorem getLast?_push (hi : h.stack.getLast? = some i) :
    (h.push x).stack.getLast? = some i := by
  change (h.objects.length :: h.stack).getLast? = some i
  rw [List.getLast?_cons, hi, Option.getD_some]

theorem getLast?_pop : h.pop.stack.getLast? = h.stack.getLast? := by
  unfold pop
  cases hstack : h.stack with
  | nil => rfl
  | cons i rest =>
    cases rest with
    | nil => rfl
    | cons j rest => simp

theorem getLast?_popToRoot : h.popToRoot.stack.getLast? = h.stack.getLast? := by
  unfold popToRoot
  cases h.stack.getLast? <;> rfl

/-- A change that keeps the key of its object keeps all keys. -/
theorem keyAt_update (hkey : ∀ y, h.objects[i]? = some y → key x = key y) (j : ℕ) :
    (h.update i x).keyAt key j = h.keyAt key j := by
  unfold keyAt update
  by_cases hij : i = j
  · subst hij
    cases hobject : h.objects[i]? with
    | none =>
      have hlength := List.getElem?_eq_none_iff.mp hobject
      rw [List.getElem?_eq_none_iff.mpr (by simpa using hlength)]
    | some y =>
      have hlength := (List.getElem?_eq_some_iff.mp hobject).1
      simp [hlength, hkey y hobject]
  · simp [hij]

/-- Making an object keeps the keys of the others. -/
theorem keyAt_push (hj : j < h.objects.length) : (h.push x).keyAt key j = h.keyAt key j := by
  unfold keyAt push
  rw [List.getElem?_append_left hj]

theorem keyAt_push_self : (h.push x).keyAt key h.objects.length = some (key x) := by
  simp [keyAt, push]

end Heap

/-! ## Neighbours on the stack -/

/-- The references of the stack point to objects, and each of them may lie on the next:
`R u j l` says that an object with key `u` may lie on the object `j` with key `l`. -/
structure Linked (key : α → κ) (R : κ → ℕ → κ → Prop) (h : Heap α) : Prop where
  valid : ∀ i ∈ h.stack, i < h.objects.length
  chain : h.stack.IsChain fun i j =>
    ∃ u l, h.keyAt key i = some u ∧ h.keyAt key j = some l ∧ R u j l

namespace Linked

variable {key : α → κ} {R : κ → ℕ → κ → Prop} {h : Heap α} {i : ℕ} {x : α}

theorem exists_key (hlinked : Linked key R h) (hi : i ∈ h.stack) :
    ∃ y, h.objects[i]? = some y ∧ h.keyAt key i = some (key y) := by
  have hlength := hlinked.valid i hi
  refine ⟨h.objects[i], List.getElem?_eq_getElem hlength, ?_⟩
  rw [Heap.keyAt, List.getElem?_eq_getElem hlength, Option.map_some]

theorem update (hlinked : Linked key R h) (hkey : ∀ y, h.objects[i]? = some y → key x = key y) :
    Linked key R (h.update i x) := by
  constructor
  case valid =>
    intro j hj
    have hlength := hlinked.valid j hj
    simpa [Heap.update] using hlength
  case chain =>
    simp only [Heap.keyAt_update hkey]
    exact hlinked.chain

/-- What is pushed has to be allowed on the object that was on top. -/
theorem push (hlinked : Linked key R h)
    (htop : ∀ j y, h.top = some (j, y) → R (key x) j (key y)) : Linked key R (h.push x) := by
  have hlength : (h.push x).objects.length = h.objects.length + 1 := by simp [Heap.push]
  constructor
  case valid =>
    intro j hj
    rcases List.mem_cons.mp hj with rfl | hj
    · omega
    · have := hlinked.valid j hj
      omega
  case chain =>
    have hrest : h.stack.IsChain fun i j =>
        ∃ u l, (h.push x).keyAt key i = some u ∧ (h.push x).keyAt key j = some l ∧ R u j l := by
      refine hlinked.chain.imp_of_mem_imp ?_
      intro i j hi hj hrelated
      rwa [Heap.keyAt_push (hlinked.valid i hi), Heap.keyAt_push (hlinked.valid j hj)]
    refine hrest.cons ?_
    intro j hj
    have hmem : j ∈ h.stack := List.mem_of_head? hj
    obtain ⟨y, hy, hkey⟩ := hlinked.exists_key hmem
    refine ⟨key x, key y, Heap.keyAt_push_self, ?_, htop j y (Heap.top_eq_some.mpr ⟨hj, hy⟩)⟩
    rw [Heap.keyAt_push (hlinked.valid j hmem), hkey]

theorem pop (hlinked : Linked key R h) : Linked key R h.pop := by
  refine ⟨fun i hi => hlinked.valid i (Heap.mem_of_mem_pop hi), ?_⟩
  have hstack : h.pop.stack = if h.stack.tail = [] then h.stack else h.stack.tail := rfl
  by_cases hnil : h.stack.tail = []
  · rw [hstack, if_pos hnil]
    exact hlinked.chain
  · rw [hstack, if_neg hnil]
    exact hlinked.chain.tail

theorem popToRoot (hlinked : Linked key R h) : Linked key R h.popToRoot := by
  refine ⟨fun i hi => hlinked.valid i (Heap.mem_of_mem_popToRoot hi), ?_⟩
  unfold Heap.popToRoot
  cases h.stack.getLast? with
  | none => exact .nil
  | some i => exact .singleton i

end Linked

/-! ## What is handed up the stack -/

/-- An object takes its label over from the one it lies on, unless it is an anchor, which brings
its own. -/
def HandsUp (R : κ → ℕ → κ → Prop) (label anchor : κ → Option L) : Prop :=
  ∀ u i l c, R u i l → label u = some c → anchor u = some c ∨ anchor u = none ∧ label l = some c

/-- The label of the first anchor among some objects. -/
def nearest (key : α → κ) (anchor : κ → Option L) (h : Heap α) (stack : List ℕ) : Option L :=
  stack.findSome? fun i => (h.keyAt key i).bind anchor

/-- **Labels come from the nearest anchor.** The label of an object on the stack is that of the
nearest anchor on the way down, when at the bottom only anchors have labels. -/
theorem Linked.nearest_eq {key : α → κ} {R : κ → ℕ → κ → Prop} {h : Heap α}
    (hlinked : Linked key R h) {label anchor : κ → Option L} (hup : HandsUp R label anchor)
    (hbottom : ∀ i ∈ h.stack.getLast?, ∀ u ∈ h.keyAt key i, label u = anchor u)
    {i : ℕ} {below : List ℕ} (hsuffix : i :: below <:+ h.stack) {u : κ}
    (hu : h.keyAt key i = some u) {c : L} (hc : label u = some c) :
    nearest key anchor h (i :: below) = some c := by
  induction below generalizing i u with
  | nil =>
    have hlast : h.stack.getLast? = some i := by
      obtain ⟨above, habove⟩ := hsuffix
      rw [← habove, List.getLast?_append, List.getLast?_singleton, Option.some_or]
    have hanchor : anchor u = some c := by rw [← hbottom i hlast u hu, hc]
    simp [nearest, hu, hanchor]
  | cons j below ih =>
    obtain ⟨u', l, hu', hl, hrelated⟩ := (hlinked.chain.suffix hsuffix).rel
    obtain rfl : u = u' := Option.some.inj (hu.symm.trans hu')
    rcases hup u j l c hrelated hc with hanchor | ⟨hnone, hlabel⟩
    · simp [nearest, hu, hanchor]
    · have hbelow := ih ((List.suffix_cons i _).trans hsuffix) hl hlabel
      rw [nearest, List.findSome?_cons, hu, Option.bind_some, hnone]
      exact hbelow

/-- The stack from a reference on it downwards. -/
theorem exists_dropWhile {stack : List ℕ} {i : ℕ} (hi : i ∈ stack) :
    ∃ below, stack.dropWhile (fun j => j ≠ i) = i :: below := by
  induction stack with
  | nil => cases hi
  | cons j stack ih =>
    by_cases hij : j = i
    · subst hij
      exact ⟨stack, List.dropWhile_cons_of_neg (by simp)⟩
    · rw [List.dropWhile_cons_of_pos (by simpa using hij)]
      exact ih ((List.mem_cons.mp hi).resolve_left (Ne.symm hij))

end ObjectStacks
