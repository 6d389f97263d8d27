import DotCall.Proofs.StoreInvariant

/-!
# What the basic operations do to a store

Interning adds at most one type, adding a variable adds one binding, and
assigning replaces one binding.  Each is described once, by what it adds and
what it leaves alone, and keeps the store well-formed.
-/

namespace DotCall.TypeStore

section Running

variable {α β : Type} (s : TypeStore)

/-- A step that depends on the answer of another runs on the store that the other has
left. This equation and the next two take a program apart, one step at a time. -/
theorem run_bind (m : StateM TypeStore α) (f : α → StateM TypeStore β) :
    (m >>= f).run s = (f (m.run s).1).run (m.run s).2 := rfl

theorem run_pure (a : α) : (pure a : StateM TypeStore α).run s = (a, s) := rfl

theorem run_get : (get : StateM TypeStore TypeStore).run s = (s, s) := rfl

end Running

/-- Only types were added; bindings, trail and checkpoints are untouched. -/
structure Adds (s s' : TypeStore) : Prop where
  grows : Grows s s'
  bindings : s'.bindings = s.bindings
  trail : s'.trail = s.trail
  opens : s'.openCheckpoints = s.openCheckpoints

namespace Adds

variable {s s' s'' : TypeStore}

theorem refl (s : TypeStore) : Adds s s := ⟨.refl s, rfl, rfl, rfl⟩

theorem trans (h : Adds s s') (h' : Adds s' s'') : Adds s s'' :=
  ⟨h.grows.trans h'.grows, h'.bindings.trans h.bindings, h'.trail.trans h.trail,
    h'.opens.trans h.opens⟩

/-- Where only types were added, every variable is bound as before. -/
theorem binding_eq (h : Adds s s') : s'.binding = s.binding := by
  funext id
  simp [binding, h.bindings]

end Adds

section Push

variable {s : TypeStore} {n : Node} {t : TypeId}

/-- A new type has the next handle, and every other handle reads as before. -/
theorem node_push : (s.push n).node t = if t.index = s.size then n else s.node t := by
  by_cases h : t.index = s.size
  · simp [node, push, size, h]
  · simp only [node, push, size, Array.getElem?_push] at h ⊢
    simp [h]

/-- Likewise for summaries. -/
theorem summary_push :
    (s.push n).summary t = if t.index = s.size then n.summary s.summary else s.summary t := by
  by_cases h : t.index = s.size
  · simp [summary, push, size, h]
  · simp only [summary, push, size, Array.getElem?_push] at h ⊢
    simp [h]

theorem size_push : (s.push n).size = s.size + 1 := by
  simp [push, size]

/-- A store grows by a new type. -/
theorem grows_push : Grows s (s.push n) where
  size_le := by simp [size_push]
  count_le := Nat.le_refl _
  node_eq {t} ht := by rw [node_push, if_neg (Nat.ne_of_lt ht)]
  summary_eq {t} ht := by rw [summary_push, if_neg (Nat.ne_of_lt ht)]

theorem adds_push : Adds s (s.push n) := ⟨grows_push, rfl, rfl, rfl⟩

/-- A node that is not present enters a well-formed store at the next handle. -/
theorem WellFormed.push (h : s.WellFormed) (hn : s.Admits n) (hnew : s.handles[n]? = none) :
    (s.push n).WellFormed where
  args_lt {t a} ha := by
    rw [node_push] at ha
    split at ha
    · next heq => exact heq ▸ hn.args a ha
    · exact h.args_lt ha
  takes {t f args} hf := by
    rw [node_push] at hf
    split at hf
    · exact hn.takes f args hf
    · exact h.takes hf
  summary_node t := by
    have hold : ∀ {m : Node}, (∀ a ∈ m.args, s.Has a) →
        m.summary (s.push n).summary = m.summary s.summary := by
      intro m hm
      cases m with
      | atom a => rfl
      | app f args =>
          have hmap : args.map (s.push n).summary = args.map s.summary :=
            List.map_congr_left fun a ha => grows_push.summary_eq (hm a ha)
          simp only [Node.summary, hmap]
    rw [node_push, summary_push]
    split
    · rw [hold hn.args]
    · rw [hold fun a ha => h.has_arg ha, ← h.summary_node]
  handle_iff {m t} := by
    have hhandles : (s.push n).handles = s.handles.insert n ⟨s.size⟩ := rfl
    rw [hhandles, Std.HashMap.getElem?_insert, node_push, Has, size_push]
    by_cases hm : n = m
    · subst m
      simp only [beq_self_eq_true, if_true, Option.some.injEq]
      constructor
      · rintro rfl
        simp
      · rintro ⟨hlt, hnode⟩
        by_cases hidx : t.index = s.size
        · rw [← hidx]
        · rw [if_neg hidx] at hnode
          have hhas : s.Has t := by unfold Has; omega
          rw [h.handle_iff.mpr ⟨hhas, hnode⟩] at hnew
          cases hnew
    · rw [if_neg (by simpa using hm), h.handle_iff]
      constructor
      · rintro ⟨hhas, hnode⟩
        exact ⟨Nat.lt_succ_of_lt hhas, by rwa [if_neg (Nat.ne_of_lt hhas)]⟩
      · rintro ⟨hlt, hnode⟩
        by_cases hidx : t.index = s.size
        · rw [if_pos hidx] at hnode
          exact absurd hnode hm
        · rw [if_neg hidx] at hnode
          exact ⟨by unfold Has; omega, hnode⟩
  var_lt {t id} hid := by
    rw [node_push] at hid
    split at hid
    · exact hn.var id hid
    · exact h.var_lt hid
  generic_lt {t id} hid := by
    rw [node_push] at hid
    split at hid
    · exact hn.generic id hid
    · exact h.generic_lt hid
  linked_has {id t} hid := by
    have hhas : s.Has t := h.linked_has hid
    exact grows_push.has hhas

end Push

/-- A node that is in the store has its handle looked up, and the store stays as it is. -/
theorem intern_of_some {s : TypeStore} {n : Node} {t : TypeId} (h : s.handles[n]? = some t) :
    (intern n).run s = (t, s) := by
  show intern n s = (t, s)
  simp only [intern, h]

/-- A node that is not in the store gets the next handle. -/
theorem intern_of_none {s : TypeStore} {n : Node} (h : s.handles[n]? = none) :
    (intern n).run s = (⟨s.size⟩, s.push n) := by
  show intern n s = (⟨s.size⟩, s.push n)
  simp only [intern, h]

/-- Interning adds at most one type and touches no binding. -/
theorem adds_intern (s : TypeStore) (n : Node) : Adds s ((intern n).run s).2 := by
  cases hh : s.handles[n]? with
  | some t => rw [intern_of_some hh]; exact .refl s
  | none => rw [intern_of_none hh]; exact adds_push

/-- **Interning.**  The handle of a node is in the store afterwards and stands
for that node; at most one type was added. -/
theorem WellFormed.intern_run {s : TypeStore} (h : s.WellFormed) {n : Node} (hn : s.Admits n) :
    let r := (intern n).run s
    r.2.WellFormed ∧ Adds s r.2 ∧ r.2.Has r.1 ∧ r.2.node r.1 = n := by
  cases hh : s.handles[n]? with
  | some t =>
      rw [intern_of_some hh]
      exact ⟨h, .refl s, h.handle_iff.mp hh⟩
  | none =>
      rw [intern_of_none hh]
      refine ⟨h.push hn hh, adds_push, ?_, ?_⟩
      · simp [Has, size_push]
      · simp [node_push]

/-- The node itself is all that interning adds. -/
theorem node_intern_of_new {s : TypeStore} {n : Node} {t : TypeId} (hold : ¬ s.Has t)
    (ht : ((intern n).run s).2.Has t) : ((intern n).run s).2.node t = n := by
  cases hh : s.handles[n]? with
  | some u =>
      rw [intern_of_some hh] at ht
      exact absurd ht hold
  | none =>
      rw [intern_of_none hh] at ht ⊢
      have hidx : t.index = s.size := by
        simp only [Has, size_push] at hold ht
        omega
      simp [node_push, hidx]

/-- A node that is present keeps its handle, and the store does not change. -/
theorem WellFormed.intern_of_node {s : TypeStore} (h : s.WellFormed) {t : TypeId}
    (ht : s.Has t) : (intern (s.node t)).run s = (t, s) :=
  intern_of_some (h.handle_iff.mpr ⟨ht, rfl⟩)

end DotCall.TypeStore
