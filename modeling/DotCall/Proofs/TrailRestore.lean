import DotCall.Proofs.StoreOperations

/-!
# Taking assignments back

While a checkpoint is open, every assignment leaves the replaced binding on the
trail.  Putting the newest entries back first, a variable ends with the oldest
binding that the trail has for it (`restore_getElem?`).  So reverting gives the
variables of the checkpoint what they had, and every later variable what it
began with.

`Logged` says that a stretch of work can be taken back in this way; it holds of
each operation and passes from parts to the whole.  The result for an action
that is only tried is `tentatively_run`.
-/

namespace DotCall

/-- What a variable with the binding `b` is given when a trail is put back. -/
def TrailEntry.restored (trail : List TrailEntry) (var : Nat) (b : Binding) : Binding :=
  trail.foldl (fun b e => if e.var = var then e.before else b) b

namespace TrailEntry

variable {trail new : List TrailEntry} {var : Nat} {b : Binding}

@[simp] theorem restored_nil : restored [] var b = b := rfl

@[simp] theorem restored_cons {e : TrailEntry} :
    restored (e :: trail) var b = restored trail var (if e.var = var then e.before else b) := rfl

/-- Newer entries are undone first. -/
theorem restored_append : restored (new ++ trail) var b = restored trail var (restored new var b) := by
  simp [restored]

/-- A trail that does not mention a variable leaves it alone. -/
theorem restored_of_not_mem (h : ∀ e ∈ trail, e.var ≠ var) : restored trail var b = b := by
  induction trail generalizing b with
  | nil => rfl
  | cons e rest ih =>
      have hne : e.var ≠ var := h e List.mem_cons_self
      have hrest := ih (b := b) fun e' he' => h e' (List.mem_cons_of_mem _ he')
      simpa [hne] using hrest

/-- Undoing a trail gives each variable the binding that its entries lead back to, one
after the other. -/
theorem restore_getElem? (bindings : Array Binding) :
    (restore trail bindings)[var]? = bindings[var]?.map (restored trail var) := by
  induction trail generalizing bindings with
  | nil => cases h : bindings[var]? <;> simp [restore, h]
  | cons e rest ih =>
      have hstep : restore (e :: rest) bindings =
          restore rest (bindings.setIfInBounds e.var e.before) := rfl
      rw [hstep, ih, Array.getElem?_setIfInBounds]
      by_cases hv : e.var = var
      · by_cases hlt : e.var < bindings.size
        · have hlt' : var < bindings.size := hv ▸ hlt
          simp [hv, hlt']
        · have hlt' : ¬ var < bindings.size := hv ▸ hlt
          simp [hv, hlt']
      · cases bindings[var]? <;> simp [hv]

/-- Undoing a trail makes no variable and loses none. -/
theorem restore_size (bindings : Array Binding) : (restore trail bindings).size = bindings.size := by
  induction trail generalizing bindings with
  | nil => rfl
  | cons e rest ih =>
      have hstep : restore (e :: rest) bindings =
          restore rest (bindings.setIfInBounds e.var e.before) := rfl
      rw [hstep, ih, Array.size_setIfInBounds]

end TrailEntry

namespace TypeStore

open TrailEntry

/-- A binding that a variable can begin with, by the type that was made for it. -/
def Born (s : TypeStore) (id : Nat) (b : Binding) : Prop :=
  (∃ name t, b = .free id name ∧ s.node t = .atom (.var id)) ∨
    ∃ name t, b = .generic name ∧ s.node t = .atom (.generic id)

/-- Putting `new` back after `s'` gives the variables of `s` their bindings and
later ones what they began with. -/
structure Undoes (new : List TrailEntry) (s s' : TypeStore) : Prop where
  bounds : ∀ e ∈ new, e.var < s'.variableCount
  old : ∀ id < s.variableCount, restored new id (s'.binding id) = s.binding id
  born : ∀ id, s.variableCount ≤ id → id < s'.variableCount →
    s'.Born id (restored new id (s'.binding id))

/-- Between the two stores no checkpoint was left open or closed, and under an
open one all assignments can be undone. -/
structure Logged (s s' : TypeStore) : Prop where
  opens : s'.openCheckpoints = s.openCheckpoints
  closed : s.openCheckpoints = 0 → s'.trail = s.trail
  opened : 0 < s.openCheckpoints → ∃ new, s'.trail = new ++ s.trail ∧ Undoes new s s'

section Composition

variable {s s' s'' : TypeStore}

/-- What a variable was born with stays one of these in a store that has grown. -/
theorem Born.grows {id : Nat} {b : Binding} (h : s.Born id b) (hg : Grows s s') :
    s'.Born id b := by
  rcases h with ⟨name, t, hb, ht⟩ | ⟨name, t, hb, ht⟩
  · exact .inl ⟨name, t, hb, (hg.node_eq (has_of_node_ne (by simp [ht]))).trans ht⟩
  · exact .inr ⟨name, t, hb, (hg.node_eq (has_of_node_ne (by simp [ht]))).trans ht⟩

/-- The entries of two pieces of work, the later ones in front, undo the two. -/
theorem Undoes.trans {new new' : List TrailEntry} (h : Undoes new s s')
    (h' : Undoes new' s' s'') (hg : Grows s s') (hg' : Grows s' s'') :
    Undoes (new' ++ new) s s'' where
  bounds e he := by
    rcases List.mem_append.mp he with he | he
    · exact h'.bounds e he
    · exact Nat.lt_of_lt_of_le (h.bounds e he) hg'.count_le
  old id hid := by
    rw [restored_append, h'.old id (Nat.lt_of_lt_of_le hid hg.count_le), h.old id hid]
  born id hge hlt := by
    rw [restored_append]
    by_cases hid : id < s'.variableCount
    · rw [h'.old id hid]
      exact (h.born id hge hid).grows hg'
    · have hnot : ∀ e ∈ new, e.var ≠ id := fun e he => by
        have := h.bounds e he
        omega
      rw [restored_of_not_mem hnot]
      exact h'.born id (Nat.le_of_not_lt hid) hlt

theorem Undoes.refl (s : TypeStore) : Undoes [] s s where
  bounds _ he := by cases he
  old _ _ := rfl
  born id hge hlt := absurd hlt (Nat.not_lt_of_le hge)

theorem Logged.refl (s : TypeStore) : Logged s s :=
  ⟨rfl, fun _ => rfl, fun _ => ⟨[], rfl, .refl s⟩⟩

/-- Work after logged work is logged: under a checkpoint their entries are one trail. -/
theorem Logged.trans (h : Logged s s') (h' : Logged s' s'') (hg : Grows s s')
    (hg' : Grows s' s'') : Logged s s'' where
  opens := h'.opens.trans h.opens
  closed h0 := (h'.closed (h.opens.trans h0)).trans (h.closed h0)
  opened h0 := by
    obtain ⟨new, htrail, hundo⟩ := h.opened h0
    obtain ⟨new', htrail', hundo'⟩ := h'.opened (h.opens ▸ h0)
    exact ⟨new' ++ new, by rw [htrail', htrail, List.append_assoc], hundo.trans hundo' hg hg'⟩

/-- Work that changes no binding and no trail needs nothing to be undone. -/
theorem Adds.logged (h : Adds s s') : Logged s s' where
  opens := h.opens
  closed _ := h.trail
  opened _ := by
    have hcount : s'.variableCount = s.variableCount := by simp [variableCount, h.bindings]
    refine ⟨[], h.trail, ?_, ?_, ?_⟩
    · simp
    · intro id _
      rw [h.binding_eq]
      rfl
    · intro id hge hlt
      omega

end Composition

section Assign

variable {s : TypeStore} {id : Nat} {b : Binding}

/-- An assignment writes the binding and, when a checkpoint is open, the one it replaces
on the trail. -/
theorem assign_run (s : TypeStore) (id : Nat) (b : Binding) :
    (assign id b).run s = ((), { s with
      bindings := s.bindings.setIfInBounds id b
      trail := if s.openCheckpoints > 0 then ⟨id, s.binding id⟩ :: s.trail else s.trail }) := rfl

/-- The store after an assignment. -/
def assigned (s : TypeStore) (id : Nat) (b : Binding) : TypeStore := ((assign id b).run s).2

theorem assigned_count : (s.assigned id b).variableCount = s.variableCount := by
  simp [assigned, assign_run, variableCount]

theorem assigned_grows : Grows s (s.assigned id b) :=
  .of_entries_eq rfl (Nat.le_of_eq assigned_count.symm)

/-- After an assignment its variable is bound anew and every other as before. -/
theorem assigned_binding {v : Nat} (hid : id < s.variableCount) :
    (s.assigned id b).binding v = if v = id then b else s.binding v := by
  have hread : (s.assigned id b).binding v =
      (s.bindings.setIfInBounds id b)[v]?.getD (.free v none) := rfl
  rw [hread, Array.getElem?_setIfInBounds]
  by_cases hv : v = id
  · subst hv
    simp [show v < s.bindings.size from hid]
  · simp [hv, Ne.symm hv, binding]

/-- An assignment is work that can be undone. -/
theorem assigned_logged (hid : id < s.variableCount) : Logged s (s.assigned id b) where
  opens := rfl
  closed h0 := by simp [assigned, assign_run, h0]
  opened h0 := by
    refine ⟨[⟨id, s.binding id⟩], by simp [assigned, assign_run, h0], ?_, ?_, ?_⟩
    · simp [assigned_count, hid]
    · intro v _
      rw [assigned_binding hid]
      by_cases hv : v = id
      · simp [hv]
      · simp [hv, Ne.symm hv]
    · intro v hge hlt
      rw [assigned_count] at hlt
      omega

end Assign

/-- The store with one more checkpoint open. -/
def opened (s : TypeStore) : TypeStore :=
  { s with openCheckpoints := s.openCheckpoints + 1 }

/-- The store `s'` has the types and variables of `m` and the bindings of `s`;
later variables have what they began with. -/
structure Reverts (s m s' : TypeStore) : Prop where
  entries : s'.entries = m.entries
  handles : s'.handles = m.handles
  count : s'.variableCount = m.variableCount
  trail : s'.trail = s.trail
  opens : s'.openCheckpoints = s.openCheckpoints
  old : ∀ id < s.variableCount, s'.binding id = s.binding id
  born : ∀ id, s.variableCount ≤ id → id < m.variableCount → m.Born id (s'.binding id)

/-- Reverting to the checkpoint that was opened at `s`. -/
theorem revert_run {s m : TypeStore} (h : Logged s.opened m) (hg : Grows s m) :
    Reverts s m ((revert ⟨s.trail.length⟩).run m).2 := by
  obtain ⟨new, htrail, hundo⟩ := h.opened (Nat.succ_pos _)
  replace htrail : m.trail = new ++ s.trail := htrail
  have hlen : m.trail.length - s.trail.length = new.length := by simp [htrail]
  have hsince : m.trailSince ⟨s.trail.length⟩ = new := by
    simp only [trailSince, hlen]
    simp [htrail]
  have hbefore : m.trailBefore ⟨s.trail.length⟩ = s.trail := by
    simp only [trailBefore, hlen]
    simp [htrail]
  have hbinding : ∀ id < m.variableCount,
      ((revert ⟨s.trail.length⟩).run m).2.binding id = restored new id (m.binding id) := by
    intro id hid
    have hread : ((revert ⟨s.trail.length⟩).run m).2.binding id =
        (restore (m.trailSince ⟨s.trail.length⟩) m.bindings)[id]?.getD (.free id none) := rfl
    rw [hread, hsince, restore_getElem?]
    have hget : m.bindings[id]? = some (m.bindings[id]) := Array.getElem?_eq_getElem hid
    simp [binding, hget]
  exact
    { entries := rfl
      handles := rfl
      count := restore_size _
      trail := hbefore
      opens := by
        have hopens : m.openCheckpoints = s.openCheckpoints + 1 := h.opens
        exact congrArg (· - 1) hopens
      old := fun id hid => by
        rw [hbinding id (Nat.lt_of_lt_of_le hid hg.count_le)]
        exact hundo.old id hid
      born := fun id hge hlt => by
        rw [hbinding id hlt]
        exact hundo.born id hge hlt }

/-- **Trying.**  An action that is only tried gives its answer, and leaves the
types and variables that it made and the bindings of before. -/
theorem tentatively_run {α : Type} {act : StateM TypeStore α} {s : TypeStore}
    (h : Logged s.opened (act.run s.opened).2) (hg : Grows s (act.run s.opened).2) :
    ((tentatively act).run s).1 = (act.run s.opened).1 ∧
      Reverts s (act.run s.opened).2 ((tentatively act).run s).2 :=
  ⟨rfl, revert_run h hg⟩

/-- A tentative action answers as the action itself does under a new checkpoint. -/
theorem tentatively_fst {α : Type} (act : StateM TypeStore α) (s : TypeStore) :
    ((tentatively act).run s).1 = (act.run s.opened).1 := rfl

/-- The types that were made meanwhile stay. -/
theorem tentatively_entries {α : Type} (act : StateM TypeStore α) (s : TypeStore) :
    ((tentatively act).run s).2.entries = (act.run s.opened).2.entries := rfl

namespace Reverts

variable {s m s' : TypeStore}

theorem node_eq (h : Reverts s m s') : s'.node = m.node := node_congr h.entries

/-- Reverting keeps the types that were made in the meantime, so the store has grown. -/
theorem grows (h : Reverts s m s') (hg : Grows s m) : Grows s s' :=
  hg.trans (.of_entries_eq h.entries (Nat.le_of_eq h.count.symm))

/-- Seen from before the work that it reverts, reverting is work that can be undone. -/
theorem logged (h : Reverts s m s') : Logged s s' where
  opens := h.opens
  closed _ := h.trail
  opened _ := by
    refine ⟨[], h.trail, ?_, ?_, ?_⟩
    · simp
    · exact h.old
    · intro id hge hlt
      have hborn := h.born id hge (h.count ▸ hlt)
      simpa only [restored_nil, Born, h.node_eq] using hborn

end Reverts

end TypeStore

end DotCall
