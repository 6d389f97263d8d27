import DotCall.Proofs.SharedTypes

/-!
# Reserved slots are never handed out

A store begins with the primitive types and, up to handle 63, with reserved slots.  Whatever
is done to it, no further slot is made: all that is added to a store comes about by
interning, and the one operation that interns a slot, building a tree, finds the slot there
already (`Usual.build`).  So a type of the store is a reserved slot exactly when its handle
says so (`Descent.reserved_iff`).
-/

namespace DotCall

/-- The handle is one of those set aside for reserved slots. -/
def TypeId.Reserved (t : TypeId) : Prop :=
  Primitive.all.length ≤ t.index ∧ t.index < TypeId.reservedCount

namespace TypeStore

/-- The index knows the slots that every store begins with. -/
def KnowsSlots (s : TypeStore) : Prop :=
  ∀ slot, TypeId.Reserved ⟨slot⟩ → s.handles[Node.atom (.reserved slot)]? = some ⟨slot⟩

/-- Types were only added, and none of those added is a reserved slot. -/
structure Furthers (s s' : TypeStore) : Prop where
  grows : Grows s s'
  handles : ∀ {n : Node} {t : TypeId}, s.handles[n]? = some t → s'.handles[n]? = some t
  node_ne : ∀ {t slot}, ¬ s.Has t → s'.Has t → s'.node t ≠ .atom (.reserved slot)

namespace Furthers

variable {s s' s'' : TypeStore}

/-- A change of bindings alone adds nothing. -/
theorem of_entries_eq (he : s'.entries = s.entries) (hh : s'.handles = s.handles)
    (hc : s.variableCount ≤ s'.variableCount) : Furthers s s' where
  grows := .of_entries_eq he hc
  handles h := by rwa [hh]
  node_ne hn ht := absurd ((has_congr he).mp ht) hn

theorem refl (s : TypeStore) : Furthers s s := .of_entries_eq rfl rfl (Nat.le_refl _)

/-- Work that only furthers a store, done twice, only furthers it. -/
theorem trans (h : Furthers s s') (h' : Furthers s' s'') : Furthers s s'' where
  grows := h.grows.trans h'.grows
  handles hn := h'.handles (h.handles hn)
  node_ne {t slot} hn ht := by
    by_cases hmid : s'.Has t
    · rw [h'.grows.node_eq hmid]
      exact h.node_ne hn hmid
    · exact h'.node_ne hmid ht

/-- The reserved slots stay what they are. -/
theorem knowsSlots (h : Furthers s s') (hs : s.KnowsSlots) : s'.KnowsSlots :=
  fun slot hslot => h.handles (hs slot hslot)

end Furthers

/-- Wherever the first slots are known, the action adds none. -/
def Usual {α : Type} (m : StateM TypeStore α) : Prop :=
  ∀ s : TypeStore, s.KnowsSlots → Furthers s (m.run s).2

namespace Usual

variable {α β : Type} {m : StateM TypeStore α}

theorem pure (a : α) : Usual (pure a) := fun s _ => .refl s

/-- Usual actions in sequence are usual. -/
theorem bind {f : α → StateM TypeStore β} (hm : Usual m) (hf : ∀ a, Usual (f a)) :
    Usual (m >>= f) := fun s hs =>
  (hm s hs).trans (hf _ _ ((hm s hs).knowsSlots hs))

theorem get {f : TypeStore → StateM TypeStore β} (hf : ∀ s, Usual (f s)) : Usual (get >>= f) :=
  fun s hs => hf s s hs

theorem discard (hm : Usual m) : Usual (discard m) := fun s hs => hm s hs

/-- A usual action for each element is usual. -/
theorem mapM {f : α → StateM TypeStore β} {xs : List α} (hf : ∀ a ∈ xs, Usual (f a)) :
    Usual (xs.mapM f) := by
  induction xs with
  | nil => exact .pure []
  | cons a xs ih =>
      rw [List.mapM_cons]
      refine (hf a List.mem_cons_self).bind fun b => ?_
      exact (ih fun c hc => hf c (List.mem_cons_of_mem _ hc)).bind fun bs => .pure _

/-- Interning a node that is no slot. -/
theorem intern {n : Node} (hn : ∀ slot, n ≠ .atom (.reserved slot)) : Usual (intern n) := by
  intro s _
  cases hh : s.handles[n]? with
  | some t =>
      rw [intern_of_some hh]
      exact .refl s
  | none =>
      rw [intern_of_none hh]
      refine ⟨grows_push, fun {m t} hm => ?_, fun {t slot} hold ht => ?_⟩
      · have hne : ¬ n = m := fun heq => by simp [heq, hm] at hh
        simpa [push, Std.HashMap.getElem?_insert, hne] using hm
      · have hidx : t.index = s.size := by
          simp only [Has, size_push] at hold ht
          omega
        rw [node_push, if_pos hidx]
        exact hn slot

/-- Interning one of the first slots finds it. -/
theorem intern_slot {slot : Nat} (hslot : TypeId.Reserved ⟨slot⟩) :
    Usual (TypeStore.intern (.atom (.reserved slot))) := by
  intro s hs
  rw [intern_of_some (hs slot hslot)]
  exact .refl s

/-- An assignment changes no type. -/
theorem assign (id : Nat) (b : Binding) : Usual (assign id b) := fun _ _ =>
  .of_entries_eq rfl rfl (Nat.le_of_eq assigned_count.symm)

/-- Making a variable of either sort. -/
theorem addVariable (first : Nat → Binding) (mk : Nat → Atom)
    (hmk : ∀ id slot, mk id ≠ .reserved slot) :
    Usual (addVariable first >>= fun id => TypeStore.intern (.atom (mk id))) := by
  have hadd : Usual (TypeStore.addVariable first) := fun s _ =>
    .of_entries_eq rfl rfl withVariable_grows.count_le
  exact hadd.bind fun id => .intern (by simpa using hmk id)

theorem newVar : Usual newVar := .addVariable (.free · none) .var (by simp)

/-- Finding a root only makes assignments. -/
theorem findRootWithin (n : Nat) (t : TypeId) : Usual (findRootWithin n t) := by
  induction n generalizing t with
  | zero => exact .pure t
  | succ n ih =>
      rw [TypeStore.findRootWithin]
      refine .get fun s => ?_
      split
      · exact .pure t
      · next id target _ =>
          refine (ih target).bind fun last => ?_
          split
          · exact (Usual.assign id _).bind fun _ => .pure last
          · exact .pure last

theorem findRoot (t : TypeId) : Usual (findRoot t) := .get fun s => .findRootWithin s.size t

/-- A former around parts that are made in turn. -/
theorem rebuild {f : Former} {args : List α} {one : α → StateM TypeStore TypeId}
    (hone : ∀ a ∈ args, Usual (one a)) :
    Usual (args.mapM one >>= fun parts => TypeStore.intern (.app f parts)) :=
  (Usual.mapM hone).bind fun _ => .intern (by simp)

/-- Expanding makes only types that are built from a former or were there. -/
theorem expandWithin (n : Nat) (t : TypeId) : Usual (expandWithin n t) := by
  induction n generalizing t with
  | zero => exact .pure t
  | succ n ih =>
      rw [TypeStore.expandWithin]
      refine .get fun s => ?_
      split
      · refine (Usual.findRoot t).bind fun u => .get fun s => ?_
        split
        · exact .pure u
        · exact .rebuild fun a _ => ih a
      · exact .pure t

/-- So does instantiating. -/
theorem instantiateWithin (args : List TypeId) (n : Nat) (t : TypeId) :
    Usual (instantiateWithin args n t) := by
  induction n generalizing t with
  | zero => exact .pure t
  | succ n ih =>
      rw [TypeStore.instantiateWithin]
      refine .get fun s => ?_
      split
      · refine .get fun s => ?_
        split
        · exact .pure _
        · exact .pure t
        · exact .rebuild fun a _ => ih a
      · exact .pure t

/-- A row of equations is usual when each of them is. -/
theorem unifyEach {one : Equation → StateM TypeStore (Except Clash Unit)}
    (hone : ∀ e, Usual (one e)) (equations : List Equation) : Usual (unifyEach one equations) := by
  induction equations with
  | nil => exact .pure _
  | cons e rest ih =>
      rw [TypeStore.unifyEach]
      refine (hone e).bind fun r => ?_
      split
      · exact ih
      · exact .pure _

/-- Unification makes only assignments. -/
theorem unifyWithin (n : Nat) (e : Equation) : Usual (unifyWithin n e) := by
  induction n generalizing e with
  | zero => exact .pure _
  | succ n ih =>
      rw [TypeStore.unifyWithin]
      split
      · exact .pure _
      refine (Usual.findRoot _).bind fun a => (Usual.findRoot _).bind fun b => .get fun s => ?_
      split
      · exact .pure _
      · exact .pure _
      · exact (Usual.assign _ _).bind fun _ => .pure _
      · exact .unifyEach ih _

/-- A variable is adopted as one that is there or as a new one, and never as a slot. -/
theorem adoptVariable {a : Atom} (ha : ∀ slot, a ≠ .reserved slot) (id : Nat) :
    Usual (adoptVariable a id) := by
  refine .get fun s => ?_
  split
  · exact .intern (by simpa using ha)
  · exact .newVar

/-- **Building a tree** whose slots are among the first ones. -/
theorem build {tree : Tree}
    (htree : ∀ slot, .reserved slot ∈ tree.atoms → TypeId.Reserved ⟨slot⟩) : Usual (build tree) := by
  induction tree with
  | atom a =>
      cases a with
      | reserved slot => exact .intern_slot (htree slot (by simp))
      | var id => exact .adoptVariable (by simp) id
      | generic id => exact .adoptVariable (by simp) id
      | _ => exact .intern (by simp)
  | app f ts ih =>
      rw [build_app]
      refine .rebuild fun t ht => ih t ht fun slot hslot => htree slot ?_
      exact Tree.mem_atoms_app.mpr ⟨t, ht, hslot⟩

/-- **One action** adds no slot. -/
theorem perform (a : Action) : Usual a.perform := by
  cases a with
  | ref | slice | array | nominal => exact .discard (.intern (by simp))
  | object | param => exact .discard (.intern (by simp))
  | var => exact .discard .newVar
  | namedVar name => exact .discard (.addVariable (.free · (some name)) .var (by simp))
  | generic name => exact .discard (.addVariable (fun _ => .generic name) .generic (by simp))
  | findRoot t => exact .discard (.findRoot t)
  | expand t => exact .discard (.get fun s => .expandWithin (s.size + 1) t)
  | instantiate t args => exact .discard (.instantiateWithin args (t.index + 1) t)
  | unify t u => exact .discard (.get fun s => .unifyWithin (s.size + 1) ⟨t, u, .whole⟩)

end Usual

/-- The slots are put one behind the other, so those before stay. -/
theorem grows_pushAll (nodes : List Node) (s : TypeStore) : Grows s (nodes.foldl push s) := by
  induction nodes generalizing s with
  | nil => exact .refl s
  | cons n nodes ih => exact grows_push.trans (ih (s.push n))

/-- Nodes that are appended one after the other get the next handles. -/
theorem node_pushAll (nodes : List Node) (s : TypeStore) (i : Nat) (hi : i < nodes.length) :
    (nodes.foldl push s).node ⟨s.size + i⟩ = nodes[i] := by
  induction nodes generalizing s i with
  | nil => simp at hi
  | cons n nodes ih =>
      cases i with
      | zero =>
          have hhas : (s.push n).Has ⟨s.size⟩ := by simp [Has, size_push]
          rw [List.foldl_cons, Nat.add_zero, (grows_pushAll nodes _).node_eq hhas]
          simp [node_push]
      | succ i =>
          have hnext := ih (s.push n) i (by simpa using hi)
          rw [size_push, Nat.add_assoc, Nat.add_comm 1 i] at hnext
          simpa using hnext

/-- The first store has the reserved handles and no others. -/
theorem new_has_iff {t : TypeId} : new.Has t ↔ t.index < TypeId.reservedCount := by
  have hsize : new.size = TypeId.reservedCount := by decide +kernel
  rw [Has, hsize]

/-- A type of the first store is a slot exactly when its handle is set aside for one. -/
theorem new_reserved_iff {t : TypeId} {slot : Nat} (ht : new.Has t) :
    new.node t = .atom (.reserved slot) ↔ t.index = slot ∧ t.Reserved := by
  obtain ⟨i⟩ := t
  have hlt : i < TypeId.reservedCount := new_has_iff.mp ht
  have hlen : i < initialNodes.length := hlt
  have hnode : new.node ⟨i⟩ = initialNodes[i] := by
    have h := node_pushAll initialNodes bare i hlen
    rwa [show bare.size = 0 from rfl, Nat.zero_add] at h
  rw [hnode]
  by_cases hi : i < Primitive.all.length
  · simp [initialNodes, hi, TypeId.Reserved]
  · simp [initialNodes, List.getElem_append, hi, TypeId.Reserved, hlt]
    omega

/-- In the first store each reserved handle is the slot of its number. -/
theorem new_knowsSlots : new.KnowsSlots := by
  intro slot hslot
  have hhas : new.Has ⟨slot⟩ := new_has_iff.mpr hslot.2
  exact new_sound.wellFormed.handle_iff.mpr ⟨hhas, (new_reserved_iff hhas).mpr ⟨rfl, hslot⟩⟩

/-- What is made of the first store without adding slots has the first ones only. -/
theorem Furthers.reserved_iff {s : TypeStore} (h : Furthers new s) {t : TypeId} (ht : s.Has t)
    {slot : Nat} : s.node t = .atom (.reserved slot) ↔ t.index = slot ∧ t.Reserved := by
  by_cases hold : new.Has t
  · rw [h.grows.node_eq hold, new_reserved_iff hold]
  · refine ⟨fun hn => absurd hn (h.node_ne hold ht), fun hslot => ?_⟩
    exact absurd (new_has_iff.mpr hslot.2.2) hold

/-- An atom of a meaning is a type of the store, or stands where the reading was cut off. -/
theorem WellFormed.exists_of_mem_treeWithin {s : TypeStore} (h : s.WellFormed) (n : Nat)
    {t : TypeId} (ht : s.Has t) {a : Atom} (ha : a ∈ (s.treeWithin s.root n t).atoms) :
    a = .prim .error ∨ ∃ u, s.Has u ∧ s.node u = .atom a := by
  induction n generalizing t with
  | zero => exact .inl (by simpa [treeWithin] using ha)
  | succ n ih =>
      rw [treeWithin] at ha
      cases hn : s.node (s.root t) with
      | atom b =>
          obtain rfl : a = b := by simpa [hn] using ha
          exact .inr ⟨_, h.has_follow s.size ht, hn⟩
      | app f args =>
          simp only [hn, Tree.mem_atoms_app, List.mem_map] at ha
          obtain ⟨_, ⟨b, hb, rfl⟩, ha⟩ := ha
          exact ih (h.has_arg (t := s.root t) (by simpa [hn, Node.args] using hb)) ha

/-- Carrying a type over from a store that has the first slots only. -/
theorem Usual.carryFrom {other : TypeStore} (h : other.WellFormed) (hslots : Furthers new other)
    {t : TypeId} (ht : other.Has t) : Usual (carryFrom other t) := by
  refine .build fun slot hslot => ?_
  rcases h.exists_of_mem_treeWithin _ ht hslot with heq | ⟨u, hu, hn⟩
  · cases heq
  · obtain ⟨rfl, hreserved⟩ := (hslots.reserved_iff hu).mp hn
    exact hreserved

/-- **A whole run** adds no slot. -/
theorem Run.furthers {s s' : TypeStore} (h : Run s s') (hs : s.KnowsSlots) : Furthers s s' := by
  induction h with
  | nil s => exact .refl s
  | act _ a _ ih => exact (ih hs).trans (Usual.perform a _ ((ih hs).knowsSlots hs))
  | carry _ hother ht ih iho =>
      have hwf := (hother.intact_grows new_intact).1.wellFormed
      have hcarry := Usual.carryFrom hwf (iho new_knowsSlots) ht
      exact (ih hs).trans (hcarry _ ((ih hs).knowsSlots hs))
  | checkpoint _ ih => exact (ih hs).trans (.of_entries_eq rfl rfl (Nat.le_refl _))
  | revert _ c ih =>
      exact (ih hs).trans
        (.of_entries_eq rfl rfl (Nat.le_of_eq (TrailEntry.restore_size _).symm))
  | keep _ c ih => exact (ih hs).trans (.of_entries_eq rfl rfl (Nat.le_refl _))

/-- Whatever a store came from, it has only been furthered since. -/
theorem Descent.furthers {s s' : TypeStore} (h : Descent s s') (hs : s.KnowsSlots) :
    Furthers s s' := by
  induction h with
  | nil s => exact .refl s
  | run _ hrun ih => exact (ih hs).trans (hrun.furthers ((ih hs).knowsSlots hs))
  | carry _ hother ht ih iho =>
      have hwf := (hother.intact_grows new_intact).1.wellFormed
      have hcarry := Usual.carryFrom hwf (iho new_knowsSlots) ht
      exact (ih hs).trans (hcarry _ ((ih hs).knowsSlots hs))
  | assign _ id b _ ih => exact (ih hs).trans (Usual.assign id b _ ((ih hs).knowsSlots hs))

/-- **Reserved slots** are the types with reserved handles, and no others. -/
theorem Descent.reserved_iff {s : TypeStore} (h : Descent new s) {t : TypeId} (ht : s.Has t) :
    (∃ slot, s.node t = .atom (.reserved slot)) ↔ t.Reserved := by
  simp only [(h.furthers new_knowsSlots).reserved_iff ht, exists_eq_left']

end TypeStore

end DotCall
