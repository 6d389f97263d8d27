import DotCall.Proofs.ReachedStores

/-!
# Checkpoints are exact

Reverting to a checkpoint gives back the bindings of that time to the letter, and
to every variable made since then the binding that it began with.  Keeping what
was done changes no binding, and an outer checkpoint still reverts it.

Nothing is asked of the links here: they may run in circles and lead anywhere.
All that counts is that each assignment leaves the replaced binding on the trail
and that checkpoints are closed innermost first.  `Recorded` says so of a stretch
of work, with the list of bindings that its variables began with; a `Session` is
a stretch of work in which checkpoints may still be open.
-/

namespace DotCall

namespace TrailEntry

variable {trail new : List TrailEntry} {bindings : Array Binding}

/-- Two trails are undone one after the other. -/
theorem restore_append_trail :
    restore (new ++ trail) bindings = restore trail (restore new bindings) := by
  simp [restore]

/-- What comes after the variables of a trail is not touched. -/
theorem restore_append_births (h : ∀ e ∈ trail, e.var < bindings.size) (births : Array Binding) :
    restore trail (bindings ++ births) = restore trail bindings ++ births := by
  induction trail generalizing bindings with
  | nil => rfl
  | cons e rest ih =>
      have hstep : ∀ bs : Array Binding, restore (e :: rest) bs =
          restore rest (bs.setIfInBounds e.var e.before) := fun _ => rfl
      have hlt : e.var < bindings.size := h e List.mem_cons_self
      rw [hstep, hstep, Array.setIfInBounds_append_left hlt, ih]
      intro e' he'
      rw [Array.size_setIfInBounds]
      exact h e' (List.mem_cons_of_mem _ he')

end TrailEntry

namespace TypeStore

open TrailEntry

/-- Every inference variable that is written has a binding.  So it is in the first
store, and every session keeps it (`Session.numbered_recalls`). -/
def Numbered (s : TypeStore) : Prop :=
  ∀ t id, s.node t = .atom (.var id) → id < s.variableCount

/-- The first store has no variable at all. -/
theorem new_numbered : new.Numbered := fun _ _ => new_sound.wellFormed.var_lt

/-- From `s` to `s'` no checkpoint was left open or closed, variables were made
that began with `births`, and under an open checkpoint putting the new part of
the trail back gives the bindings of `s` followed by `births`. -/
structure Recorded (s : TypeStore) (births : List Binding) (s' : TypeStore) : Prop where
  opens : s'.openCheckpoints = s.openCheckpoints
  count : s'.variableCount = s.variableCount + births.length
  closed : s.openCheckpoints = 0 → s'.trail = s.trail
  opened : 0 < s.openCheckpoints → ∃ new, s'.trail = new ++ s.trail ∧
    (∀ e ∈ new, e.var < s'.variableCount) ∧
    restore new s'.bindings = s.bindings ++ births.toArray

namespace Recorded

variable {s s' s'' : TypeStore} {births births' : List Binding}

theorem refl (s : TypeStore) : Recorded s [] s :=
  ⟨rfl, rfl, fun _ => rfl, fun _ => ⟨[], rfl, by simp, by simp [restore]⟩⟩

/-- Recorded work after recorded work is recorded, with the variables of both in the order
in which they were made. -/
theorem trans (h : Recorded s births s') (h' : Recorded s' births' s'') :
    Recorded s (births ++ births') s'' where
  opens := h'.opens.trans h.opens
  count := by rw [h'.count, h.count, List.length_append, Nat.add_assoc]
  closed h0 := (h'.closed (h.opens.trans h0)).trans (h.closed h0)
  opened h0 := by
    obtain ⟨new, htrail, hbounds, hundo⟩ := h.opened h0
    obtain ⟨new', htrail', hbounds', hundo'⟩ := h'.opened (h.opens ▸ h0)
    refine ⟨new' ++ new, by rw [htrail', htrail, List.append_assoc], ?_, ?_⟩
    · intro e he
      rcases List.mem_append.mp he with he | he
      · exact hbounds' e he
      · have hlt := hbounds e he
        have hcount := h'.count
        omega
    · calc restore (new' ++ new) s''.bindings
          = restore new (s'.bindings ++ births'.toArray) := by rw [restore_append_trail, hundo']
        _ = restore new s'.bindings ++ births'.toArray := restore_append_births hbounds _
        _ = s.bindings ++ (births ++ births').toArray := by simp [hundo]

/-- Making types records nothing. -/
theorem of_adds (h : Adds s s') : Recorded s [] s' where
  opens := h.opens
  count := by simp [variableCount, h.bindings]
  closed _ := h.trail
  opened _ := ⟨[], h.trail, by simp, by simp [restore, h.bindings]⟩

/-- Making a variable records its first binding. -/
theorem withVariable (s : TypeStore) (b : Binding) : Recorded s [b] (s.withVariable b) where
  opens := rfl
  count := withVariable_count
  closed _ := rfl
  opened _ := ⟨[], rfl, by simp, by simp [restore, TypeStore.withVariable]⟩

/-- An assignment records what it replaces. -/
theorem assigned {id : Nat} (hid : id < s.variableCount) (b : Binding) :
    Recorded s [] (s.assigned id b) where
  opens := rfl
  count := by simp [assigned_count]
  closed h0 := by simp [TypeStore.assigned, assign_run, h0]
  opened h0 := by
    refine ⟨[⟨id, s.binding id⟩], by simp [TypeStore.assigned, assign_run, h0], ?_, ?_⟩
    · simpa [assigned_count] using hid
    · have hlt : id < s.bindings.size := hid
      apply Array.ext_getElem?
      intro i
      by_cases hi : id = i
      · subst hi
        simp [TypeStore.assigned, assign_run, restore, binding, hlt]
      · simp [TypeStore.assigned, assign_run, restore, hi]

/-- **Reverting** gives the bindings of the checkpoint followed by what later
variables began with. -/
theorem revert_run (h : Recorded s.opened births s') :
    let r := ((revert ⟨s.trail.length⟩).run s').2
    r.bindings = s.bindings ++ births.toArray ∧ r.openCheckpoints = s.openCheckpoints ∧
      r.trail = s.trail := by
  obtain ⟨new, htrail, -, hundo⟩ := h.opened (Nat.succ_pos _)
  replace htrail : s'.trail = new ++ s.trail := htrail
  have hlen : s'.trail.length - s.trail.length = new.length := by simp [htrail]
  have hsince : s'.trailSince ⟨s.trail.length⟩ = new := by
    simp only [trailSince, hlen]
    simp [htrail]
  have hbefore : s'.trailBefore ⟨s.trail.length⟩ = s.trail := by
    simp only [trailBefore, hlen]
    simp [htrail]
  have hopens : s'.openCheckpoints = s.openCheckpoints + 1 := h.opens
  intro r
  have hbindings : r.bindings = restore (s'.trailSince ⟨s.trail.length⟩) s'.bindings := rfl
  refine ⟨by rw [hbindings, hsince, hundo]; rfl, ?_, hbefore⟩
  exact congrArg (· - 1) hopens

/-- What was reverted needs no undoing any more. -/
theorem of_revert (h : Recorded s.opened births s') :
    Recorded s births ((revert ⟨s.trail.length⟩).run s').2 := by
  obtain ⟨hbindings, hopens, htrail⟩ := h.revert_run
  refine ⟨hopens, ?_, fun _ => htrail, fun _ => ⟨[], htrail, by simp, ?_⟩⟩
  · simp [variableCount, hbindings]
  · simpa [restore] using hbindings

/-- What was kept can still be undone by an outer checkpoint. -/
theorem of_keep (h : Recorded s.opened births s') :
    Recorded s births ((keep ⟨s.trail.length⟩).run s').2 := by
  obtain ⟨new, htrail, hbounds, hundo⟩ := h.opened (Nat.succ_pos _)
  replace htrail : s'.trail = new ++ s.trail := htrail
  have hopens : s'.openCheckpoints - 1 = s.openCheckpoints := by
    have hopened : s'.openCheckpoints = s.openCheckpoints + 1 := h.opens
    omega
  have hrun : ((keep ⟨s.trail.length⟩).run s').2 =
      { s' with
        trail := if s'.openCheckpoints - 1 = 0 then s'.trailBefore ⟨s.trail.length⟩ else s'.trail
        openCheckpoints := s'.openCheckpoints - 1 } := rfl
  rw [hrun, hopens]
  refine ⟨rfl, h.count, fun h0 => ?_, fun h0 => ⟨new, ?_, hbounds, hundo⟩⟩
  · have hlen : s'.trail.length - s.trail.length = new.length := by simp [htrail]
    simp only [h0, if_true, trailBefore, hlen]
    simp [htrail]
  · simp [Nat.ne_of_gt h0, htrail]

end Recorded

/-- Run at `s`, the action makes no variable, and what it assigns is recorded. -/
def Tracked {α : Type} (s : TypeStore) (m : StateM TypeStore α) : Prop :=
  Recorded s [] (m.run s).2 ∧ (m.run s).2.Numbered

section Interning

variable {s : TypeStore} {n : Node}

/-- A node whose variable has a binding may be made. -/
theorem Numbered.intern (h : s.Numbered)
    (hn : ∀ id, n = .atom (.var id) → id < s.variableCount) :
    ((TypeStore.intern n).run s).2.Numbered := by
  intro t id hid
  have hadds := adds_intern s n
  have hcount : ((TypeStore.intern n).run s).2.variableCount = s.variableCount := by
    simp [variableCount, hadds.bindings]
  rw [hcount]
  by_cases ht : s.Has t
  · exact h t id (hadds.grows.node_eq ht ▸ hid)
  · have hhas : ((TypeStore.intern n).run s).2.Has t := has_of_node_ne (by simp [hid])
    exact hn id ((node_intern_of_new ht hhas).symm.trans hid)

/-- Interning a node that is no variable records nothing. -/
theorem Numbered.tracked_intern (h : s.Numbered) (hn : ∀ id, n ≠ .atom (.var id)) :
    Tracked s (TypeStore.intern n) :=
  ⟨.of_adds (adds_intern s n), h.intern fun id hid => absurd hid (hn id)⟩

/-- A new variable of either sort is recorded with what it begins with. -/
theorem Numbered.addVariable_recorded (h : s.Numbered) (first : Nat → Binding) (mk : Nat → Atom)
    (hmk : ∀ id, mk s.variableCount = .var id → id = s.variableCount) :
    let r := (addVariable first >>= fun id => TypeStore.intern (.atom (mk id))).run s
    Recorded s [first s.variableCount] r.2 ∧ r.2.Numbered := by
  have hmade : (s.withVariable (first s.variableCount)).Numbered := fun t id hid => by
    have hlt := h t id hid
    rw [withVariable_count]
    omega
  intro r
  have hrun : r = (TypeStore.intern (.atom (mk s.variableCount))).run
      (s.withVariable (first s.variableCount)) := rfl
  rw [hrun]
  refine ⟨(Recorded.withVariable s _).trans (.of_adds (adds_intern _ _)), hmade.intern ?_⟩
  intro id hid
  rw [hmk id (Node.atom.inj hid), withVariable_count]
  omega

end Interning

namespace Tracked

variable {α β : Type} {s : TypeStore} {m : StateM TypeStore α} {f : α → StateM TypeStore β}

theorem pure (hs : s.Numbered) (a : α) : Tracked s (pure a) := ⟨.refl s, hs⟩

/-- Tracked actions in sequence are tracked. -/
theorem bind (hm : Tracked s m)
    (hf : (m.run s).2.Numbered → Tracked (m.run s).2 (f (m.run s).1)) : Tracked s (m >>= f) :=
  ⟨hm.1.trans (hf hm.2).1, (hf hm.2).2⟩

theorem get {f : TypeStore → StateM TypeStore β} (hf : Tracked s (f s)) : Tracked s (get >>= f) :=
  hf

/-- An assignment to a variable of the store is tracked: undoing it gives the old binding
back. -/
theorem assign (hs : s.Numbered) {id : Nat} (hid : id < s.variableCount) (b : Binding) :
    Tracked s (assign id b) :=
  ⟨.assigned hid b, fun t v hv => Nat.lt_of_lt_of_eq (hs t v hv) assigned_count.symm⟩

/-- A tracked action for each element is tracked. -/
theorem mapM (hs : s.Numbered) {xs : List α}
    (hf : ∀ x : TypeStore, x.Numbered → ∀ a ∈ xs, Tracked x (f a)) : Tracked s (xs.mapM f) := by
  induction xs generalizing s with
  | nil => exact .pure hs []
  | cons a xs ih =>
      rw [List.mapM_cons]
      refine (hf s hs a List.mem_cons_self).bind fun hs₁ => ?_
      have hrest := ih hs₁ fun x hx b hb => hf x hx b (List.mem_cons_of_mem _ hb)
      exact hrest.bind fun hs₂ => .pure hs₂ _

end Tracked

namespace Numbered

variable {s : TypeStore}

/-- Shortening links is tracked, one assignment for each variable on the way. -/
theorem tracked_findRootWithin (hs : s.Numbered) (n : Nat) (t : TypeId) :
    Tracked s (findRootWithin n t) := by
  induction n generalizing t with
  | zero => exact .pure hs t
  | succ n ih =>
      rw [findRootWithin]
      refine .get ?_
      split
      · exact .pure hs t
      · next id target hl =>
          have hid : id < s.variableCount := hs t id (link?_eq_some.mp hl).1
          have hcount := (ih target).1.count
          refine (ih target).bind fun hs₁ => ?_
          split
          · exact (Tracked.assign hs₁ (Nat.lt_of_lt_of_eq hid hcount.symm) _).bind fun hs₂ =>
              .pure hs₂ _
          · exact .pure hs₁ _

theorem tracked_findRoot (hs : s.Numbered) (t : TypeId) : Tracked s (findRoot t) :=
  hs.tracked_findRootWithin s.size t

/-- Rebuilding a type from parts that are made in turn. -/
theorem tracked_rebuild (hs : s.Numbered) {args : List TypeId} {f : Former}
    {one : TypeId → StateM TypeStore TypeId}
    (hone : ∀ x : TypeStore, x.Numbered → ∀ a, Tracked x (one a)) :
    Tracked s (args.mapM one >>= fun parts => TypeStore.intern (.app f parts)) :=
  (Tracked.mapM hs fun x hx a _ => hone x hx a).bind fun hs₁ => hs₁.tracked_intern (by simp)

/-- Expanding is tracked, since it only makes types and shortens links. -/
theorem tracked_expandWithin (hs : s.Numbered) (n : Nat) (t : TypeId) :
    Tracked s (expandWithin n t) := by
  induction n generalizing s t with
  | zero => exact .pure hs t
  | succ n ih =>
      rw [expandWithin]
      refine .get ?_
      split
      · refine (hs.tracked_findRoot t).bind fun hs₁ => .get ?_
        split
        · exact .pure hs₁ _
        · exact hs₁.tracked_rebuild fun x hx a => ih hx a
      · exact .pure hs t

/-- Instantiating is tracked, since it only makes types. -/
theorem tracked_instantiateWithin (hs : s.Numbered) (args : List TypeId) (n : Nat) (t : TypeId) :
    Tracked s (instantiateWithin args n t) := by
  induction n generalizing s t with
  | zero => exact .pure hs t
  | succ n ih =>
      rw [instantiateWithin]
      refine .get ?_
      split
      · refine .get ?_
        split
        · exact .pure hs _
        · exact .pure hs _
        · exact hs.tracked_rebuild fun x hx a => ih hx a
      · exact .pure hs t

/-- Only a variable is ever let stand for a type. -/
theorem lt_of_compare_assign (hs : s.Numbered) {a b t : TypeId} {position : Position} {id : Nat}
    (h : s.compare a b position = .assign id t) : id < s.variableCount := by
  have hvar : ∀ {v u}, s.compareVar v u position = .assign id t → v = id := by
    intro v u h
    unfold compareVar at h
    grind
  have hlayers : s.compareLayers a b position ≠ .assign id t := by
    unfold compareLayers
    grind
  unfold compare at h
  split at h
  · cases h
  split at h
  · cases h
  split at h
  · cases h
  split at h
  · cases h
  split at h
  · next hn => exact hvar h ▸ hs _ _ hn
  · next hn _ => exact hvar h ▸ hs _ _ hn
  · cases h
  · cases h
  · cases h
  · exact absurd h hlayers

/-- A row of equations is tracked when each of them is, wherever it fails. -/
theorem tracked_unifyEach {one : Equation → StateM TypeStore (Except Clash Unit)}
    (hone : ∀ x : TypeStore, x.Numbered → ∀ e, Tracked x (one e)) (hs : s.Numbered)
    (equations : List Equation) : Tracked s (unifyEach one equations) := by
  induction equations generalizing s with
  | nil => exact .pure hs _
  | cons e rest ih =>
      rw [unifyEach]
      refine (hone s hs e).bind fun hs₁ => ?_
      split
      · exact ih hs₁
      · exact .pure hs₁ _

/-- Unification records every assignment, also when it fails midway. -/
theorem tracked_unifyWithin (hs : s.Numbered) (n : Nat) (e : Equation) :
    Tracked s (unifyWithin n e) := by
  induction n generalizing s e with
  | zero => exact .pure hs _
  | succ n ih =>
      rw [unifyWithin]
      split
      · exact .pure hs _
      refine (hs.tracked_findRoot e.left).bind fun hs₁ => ?_
      refine (hs₁.tracked_findRoot e.right).bind fun hs₂ => .get ?_
      split
      · exact .pure hs₂ _
      · exact .pure hs₂ _
      · next id target hcompare =>
          exact (Tracked.assign hs₂ (hs₂.lt_of_compare_assign hcompare) _).bind fun hs₃ =>
            .pure hs₃ _
      · exact hs₂.tracked_unifyEach (fun x hx e => ih hx e) _

end Numbered

/-- What the variables that an action makes begin with. -/
def Action.births (a : Action) (s : TypeStore) : List Binding :=
  match a with
  | .var => [.free s.variableCount none]
  | .namedVar name => [.free s.variableCount (some name)]
  | .generic name => [.generic name]
  | _ => []

/-- **One action** records what it assigns, and the variables it makes begin
with its `births`. -/
theorem Action.perform_recorded {s : TypeStore} (hs : s.Numbered) (a : Action) :
    Recorded s (a.births s) (a.perform.run s).2 ∧ (a.perform.run s).2.Numbered := by
  cases a with
  | ref b t => exact hs.tracked_intern (by simp)
  | slice t => exact hs.tracked_intern (by simp)
  | array t length => exact hs.tracked_intern (by simp)
  | nominal name args => exact hs.tracked_intern (by simp)
  | object traitName => exact hs.tracked_intern (by simp)
  | param position => exact hs.tracked_intern (by simp)
  | var => exact hs.addVariable_recorded (.free · none) .var (by simp)
  | namedVar name => exact hs.addVariable_recorded (.free · (some name)) .var (by simp)
  | generic name => exact hs.addVariable_recorded (fun _ => .generic name) .generic (by simp)
  | findRoot t => exact hs.tracked_findRoot t
  | expand t => exact hs.tracked_expandWithin (s.size + 1) t
  | instantiate t args => exact hs.tracked_instantiateWithin args (t.index + 1) t
  | unify a b => exact hs.tracked_unifyWithin (s.size + 1) ⟨a, b, .whole⟩

/-- A stretch of work from one store to another: actions, arbitrary assignments,
and checkpoints that are closed innermost first.  Beside each store stand the
checkpoints that may be closed, the innermost first; `births` are what the
variables made on the way began with. -/
inductive Session (start : List Checkpoint) (s : TypeStore) :
    List Binding → List Checkpoint → TypeStore → Prop where
  | nil : Session start s [] start s
  | act {births : List Binding} {stack : List Checkpoint} {m : TypeStore}
      (h : Session start s births stack m) (a : Action) :
      Session start s (births ++ a.births m) stack (a.perform.run m).2
  | assign {births : List Binding} {stack : List Checkpoint} {m : TypeStore}
      (h : Session start s births stack m) {id : Nat} (hid : id < m.variableCount) (b : Binding) :
      Session start s births stack ((assign id b).run m).2
  | checkpoint {births : List Binding} {stack : List Checkpoint} {m : TypeStore}
      (h : Session start s births stack m) :
      Session start s births ((checkpoint.run m).1 :: stack) (checkpoint.run m).2
  | revert {births : List Binding} {stack : List Checkpoint} {m : TypeStore} {c : Checkpoint}
      (h : Session start s births (c :: stack) m) :
      Session start s births stack ((revert c).run m).2
  | keep {births : List Binding} {stack : List Checkpoint} {m : TypeStore} {c : Checkpoint}
      (h : Session start s births (c :: stack) m) :
      Session start s births stack ((keep c).run m).2

/-- For every open checkpoint there was a store, and the work since then is
recorded. -/
def Recalls (s : TypeStore) : List Checkpoint → List Binding → TypeStore → Prop
  | [], births, m => Recorded s births m
  | c :: rest, births, m => ∃ past before since, births = before ++ since ∧
      Recalls s rest before past ∧ c = ⟨past.trail.length⟩ ∧ Recorded past.opened since m

namespace Recalls

variable {s m m' : TypeStore} {stack : List Checkpoint} {births since : List Binding}

/-- What was recorded at a checkpoint is still there after more recorded work. -/
theorem step (h : Recalls s stack births m) (hm : Recorded m since m') :
    Recalls s stack (births ++ since) m' := by
  cases stack with
  | nil => exact h.trans hm
  | cons c rest =>
      obtain ⟨past, before, between, rfl, hpast, hmark, hrecorded⟩ := h
      exact ⟨past, before, between ++ since, List.append_assoc .., hpast, hmark,
        hrecorded.trans hm⟩

/-- Under a checkpoint of the stack the store knows that one is open. -/
theorem stack_nil (h : Recalls s stack births m) (h0 : m.openCheckpoints = 0) : stack = [] := by
  cases stack with
  | nil => rfl
  | cons c rest =>
      obtain ⟨past, before, since, -, -, -, hrecorded⟩ := h
      have hopens : m.openCheckpoints = past.openCheckpoints + 1 := hrecorded.opens
      omega

end Recalls

namespace Session

variable {s m m' : TypeStore} {start middle stack : List Checkpoint} {births births' : List Binding}

/-- **A whole session** is remembered by the checkpoints still open. -/
theorem numbered_recalls (hs : s.Numbered) (h : Session [] s births stack m) :
    m.Numbered ∧ Recalls s stack births m := by
  induction h with
  | nil => exact ⟨hs, .refl s⟩
  | act _ a ih =>
      obtain ⟨hrecorded, hnumbered⟩ := a.perform_recorded ih.1
      exact ⟨hnumbered, ih.2.step hrecorded⟩
  | assign _ hid b ih =>
      obtain ⟨hrecorded, hnumbered⟩ := Tracked.assign ih.1 hid b
      exact ⟨hnumbered, by simpa using ih.2.step hrecorded⟩
  | @checkpoint births _ m _ ih =>
      exact ⟨ih.1, m, births, [], (List.append_nil _).symm, ih.2, rfl, .refl _⟩
  -- a checkpoint that is closed is the innermost, and its store is the one remembered first
  | @revert _ _ m c _ ih =>
      obtain ⟨hnumbered, past, before, since, rfl, hpast, rfl, hrecorded⟩ := ih
      refine ⟨fun t id hid => ?_, hpast.step hrecorded.of_revert⟩
      have hcount : ((TypeStore.revert ⟨past.trail.length⟩).run m).2.variableCount =
          m.variableCount := restore_size _
      exact hcount ▸ hnumbered t id hid
  | keep _ ih =>
      obtain ⟨hnumbered, past, before, since, rfl, hpast, rfl, hrecorded⟩ := ih
      exact ⟨hnumbered, hpast.step hrecorded.of_keep⟩

/-- A session in which all checkpoints were closed again is recorded as a whole. -/
theorem recorded (hs : s.Numbered) (h : Session [] s births [] m) : Recorded s births m :=
  (h.numbered_recalls hs).2

/-- Sessions are put together end to end, as long as the second opens where the first
stopped. -/
theorem trans (h : Session start s births middle m) (h' : Session middle m births' stack m') :
    Session start s (births ++ births') stack m' := by
  induction h' with
  | nil => simpa using h
  | act _ a ih => exact List.append_assoc .. ▸ ih.act a
  | assign _ hid b ih => exact ih.assign hid b
  | checkpoint _ ih => exact ih.checkpoint
  | revert _ ih => exact ih.revert
  | keep _ ih => exact ih.keep

/-- A session does not look at checkpoints that were open before it. -/
theorem under (h : Session start s births stack m) (base : List Checkpoint) :
    Session (start ++ base) s births (stack ++ base) m := by
  induction h with
  | nil => exact .nil
  | act _ a ih => exact ih.act a
  | assign _ hid b ih => exact ih.assign hid b
  | checkpoint _ ih => exact ih.checkpoint
  | revert _ ih => exact Session.revert ih
  | keep _ ih => exact Session.keep ih

/-- What a session keeps of an inner checkpoint is part of the session around it. -/
theorem around (h : Session start s births stack m)
    (h' : Session [] (TypeStore.checkpoint.run m).2 births' [] m') :
    Session start s (births ++ births') stack
      ((TypeStore.keep (TypeStore.checkpoint.run m).1).run m').2 :=
  Session.keep (h.checkpoint.trans (h'.under ((TypeStore.checkpoint.run m).1 :: stack)))

end Session

/-- An action that fails where only success is kept is reverted. -/
theorem ifSuccessful_of_error {ε α : Type} {act : StateM TypeStore (Except ε α)} {s : TypeStore}
    {e : ε} (h : ((ifSuccessful act).run s).1 = .error e) :
    ((ifSuccessful act).run s).2 = ((revert ⟨s.trail.length⟩).run (act.run s.opened).2).2 := by
  have hopened : checkpoint.run s = (⟨s.trail.length⟩, s.opened) := rfl
  simp only [ifSuccessful, run_bind, hopened] at h ⊢
  cases hresult : (act.run s.opened).1 with
  | ok a => simp only [hresult] at h; cases h
  | error e' => rfl

/-- **Checkpoints are exact transactions.**  Whatever a session does after a
checkpoint, reverting gives back all bindings of that time, followed by what each
later variable began with.  Keeping changes no binding, and a checkpoint further
out still reverts all of it.  The trail is empty when no checkpoint is open.  So
an action that is only tried leaves no assignment behind, and neither does one
that fails where only success is kept. -/
theorem Numbered.checkpoint_exact {s : TypeStore} (hs : s.Numbered) :
    (∀ births m, Session [] (checkpoint.run s).2 births [] m →
      let reverted := ((revert (checkpoint.run s).1).run m).2
      let kept := ((keep (checkpoint.run s).1).run m).2
      (reverted.bindings = s.bindings ++ births.toArray ∧
        reverted.openCheckpoints = s.openCheckpoints) ∧
      kept.bindings = m.bindings ∧ kept.openCheckpoints = s.openCheckpoints ∧
      ∀ past : TypeStore, past.Numbered → ∀ before stack,
        Session [] (checkpoint.run past).2 before stack s →
        ∀ after m', Session stack kept after [] m' →
          ((revert (checkpoint.run past).1).run m').2.bindings =
            past.bindings ++ (before ++ births ++ after).toArray) ∧
    ((s.openCheckpoints = 0 → s.trail = []) → ∀ births stack m,
      Session [] s births stack m → m.openCheckpoints = 0 → m.trail = []) ∧
    (∀ {α : Type} (act : StateM TypeStore α) births,
      Session [] (checkpoint.run s).2 births [] (act.run (checkpoint.run s).2).2 →
      ((tentatively act).run s).2.bindings = s.bindings ++ births.toArray) ∧
    ∀ {ε α : Type} (act : StateM TypeStore (Except ε α)) births e,
      Session [] (checkpoint.run s).2 births [] (act.run (checkpoint.run s).2).2 →
      ((ifSuccessful act).run s).1 = .error e →
      ((ifSuccessful act).run s).2.bindings = s.bindings ++ births.toArray := by
  have hrevert : ∀ {past : TypeStore}, past.Numbered → ∀ {births m},
      Session [] (checkpoint.run past).2 births [] m → Recorded past.opened births m :=
    fun hpast _ _ h => h.recorded hpast
  refine ⟨fun births m h => ?_, fun htrail births stack m h h0 => ?_, fun act births h => ?_,
    fun act births e h herr => ?_⟩
  · have hrecorded := hrevert hs h
    obtain ⟨hbindings, hopens, -⟩ := hrecorded.revert_run
    refine ⟨⟨hbindings, hopens⟩, rfl, hrecorded.of_keep.opens, ?_⟩
    intro past hpast before stack hbefore after m' hafter
    exact (hrevert hpast ((hbefore.around h).trans hafter)).revert_run.1
  · have hrecalls := (h.numbered_recalls hs).2
    obtain rfl := hrecalls.stack_nil h0
    have hs0 : s.openCheckpoints = 0 := hrecalls.opens ▸ h0
    exact (hrecalls.closed hs0).trans (htrail hs0)
  · exact (hrevert hs h).revert_run.1
  · rw [ifSuccessful_of_error herr]
    exact (hrevert hs h).revert_run.1

/-- A variable that is made under a checkpoint and linked under an inner one that
is kept is free again when the outer one is reverted. -/
theorem revert_kept_link :
    let made := (Action.var.perform.run (checkpoint.run new).2).2
    let linked := ((assign 0 (.linked (.ofPrimitive .i32))).run (checkpoint.run made).2).2
    let kept := ((keep (checkpoint.run made).1).run linked).2
    ((revert (checkpoint.run new).1).run kept).2.bindings = #[.free 0 none] := by
  have hopened : (checkpoint.run new).2.Numbered := new_numbered
  intro made linked kept
  have hmade : Session [] (checkpoint.run new).2 _ [] made := Session.nil.act .var
  have hcount : 0 < made.variableCount := Nat.lt_of_lt_of_eq (Nat.succ_pos _)
    (hmade.recorded hopened).count.symm
  have hlinked : Session [] (checkpoint.run new).2 _ _ linked :=
    hmade.checkpoint.assign hcount (.linked (.ofPrimitive .i32))
  exact (new_numbered.checkpoint_exact.1 _ _ hlinked.keep).1.1

end TypeStore

end DotCall
