import DotCall.Proofs.TreeAssignment
import DotCall.Type.Checkpoint

/-!
# What every type store keeps to

A well-formed store holds each node once, its arguments before it, and its
index knows exactly the nodes that are there.  So a handle stands for a finite
tree, read off without following a link; the summaries describe that tree; and
two handles are equal exactly when their trees are (`written_injective`).

Types and variables are only ever added.  `Grows` records that, and with it
everything said about a handle stays true.
-/

namespace DotCall

/-- Lists with the same images are equal where the function tells their
elements apart. -/
theorem eq_of_map_eq {α β : Type} {f : α → β} {xs ys : List α}
    (hinj : ∀ x ∈ xs, ∀ y ∈ ys, f x = f y → x = y) (h : xs.map f = ys.map f) : xs = ys := by
  induction xs generalizing ys with
  | nil => simpa using h.symm
  | cons x xs ih =>
      cases ys with
      | nil => simp at h
      | cons y ys =>
          simp only [List.map_cons, List.cons.injEq] at h
          rw [hinj x List.mem_cons_self y List.mem_cons_self h.1,
            ih (fun a ha b hb => hinj a (List.mem_cons_of_mem _ ha) b (List.mem_cons_of_mem _ hb)) h.2]

/-- The numbers of arguments that a former can have. -/
def Former.Takes (f : Former) (count : Nat) : Prop :=
  match f with
  | .ref _ | .slice | .array _ => count = 1
  | .nominal _ => True

namespace TypeStore

/-- The handle is one of the store. -/
def Has (s : TypeStore) (t : TypeId) : Prop := t.index < s.size

instance (s : TypeStore) (t : TypeId) : Decidable (s.Has t) :=
  inferInstanceAs (Decidable (t.index < s.size))

/-- A node that can enter the store: its arguments are there, and so is its
variable. -/
structure Admits (s : TypeStore) (n : Node) : Prop where
  args : ∀ a ∈ n.args, s.Has a
  takes : ∀ f args, n = .app f args → f.Takes args.length
  var : ∀ id, n = .atom (.var id) → id < s.variableCount
  generic : ∀ id, n = .atom (.generic id) → id < s.variableCount

namespace Admits

variable {s : TypeStore}

/-- A compound node binds nothing of its own, so its arguments are all that matters. -/
theorem app {f : Former} {args : List TypeId} (hargs : ∀ a ∈ args, s.Has a)
    (htakes : f.Takes args.length) : s.Admits (.app f args) where
  args := hargs
  takes g bs heq := by
    obtain ⟨rfl, rfl⟩ := Node.app.inj heq
    exact htakes
  var _ := Node.noConfusion
  generic _ := Node.noConfusion

/-- An atom has no arguments, so its variable is all that matters. -/
theorem atom {a : Atom} (hvar : ∀ id, a = .var id → id < s.variableCount)
    (hgeneric : ∀ id, a = .generic id → id < s.variableCount) : s.Admits (.atom a) where
  args := by simp [Node.args]
  takes _ _ := Node.noConfusion
  var id heq := hvar id (Node.atom.inj heq)
  generic id heq := hgeneric id (Node.atom.inj heq)

end Admits

/-- Every node is kept once and after its arguments, the index and the
summaries agree with the nodes, and links point into the store. -/
structure WellFormed (s : TypeStore) : Prop where
  args_lt : ∀ {t a}, a ∈ (s.node t).args → a.index < t.index
  takes : ∀ {t f args}, s.node t = .app f args → f.Takes args.length
  summary_node : ∀ t, s.summary t = (s.node t).summary s.summary
  handle_iff : ∀ {n t}, s.handles[n]? = some t ↔ s.Has t ∧ s.node t = n
  var_lt : ∀ {t id}, s.node t = .atom (.var id) → id < s.variableCount
  generic_lt : ∀ {t id}, s.node t = .atom (.generic id) → id < s.variableCount
  linked_has : ∀ {id t}, s.binding id = .linked t → s.Has t

/-- Types and variables are only added: what a handle was it still is. -/
structure Grows (s s' : TypeStore) : Prop where
  size_le : s.size ≤ s'.size
  count_le : s.variableCount ≤ s'.variableCount
  node_eq : ∀ {t}, s.Has t → s'.node t = s.node t
  summary_eq : ∀ {t}, s.Has t → s'.summary t = s.summary t

section Reading

variable {s s' : TypeStore} {t : TypeId}

/-- Beyond the store every handle reads as a reserved slot. -/
theorem node_of_not_has (h : ¬ s.Has t) : s.node t = .atom (.reserved t.index) := by
  have hnone : s.entries[t.index]? = none := Array.getElem?_eq_none (Nat.le_of_not_lt h)
  simp [node, hnone]

/-- Nodes are read from the entries only. -/
theorem node_congr (h : s'.entries = s.entries) : s'.node = s.node := by
  funext t
  simp [node, h]

/-- So are summaries. -/
theorem summary_congr (h : s'.entries = s.entries) : s'.summary = s.summary := by
  funext t
  simp [summary, h]

/-- So is what a store has. -/
theorem has_congr (h : s'.entries = s.entries) : s'.Has t ↔ s.Has t := by
  simp [Has, size, h]

/-- A handle with arguments, or with a variable, is one of the store. -/
theorem has_of_node_ne (h : ∀ slot, s.node t ≠ .atom (.reserved slot)) : s.Has t := by
  by_cases ht : s.Has t
  · exact ht
  · exact absurd (node_of_not_has ht) (h t.index)

end Reading

namespace Grows

variable {s s' s'' : TypeStore} {t : TypeId}

theorem refl (s : TypeStore) : Grows s s :=
  ⟨Nat.le_refl _, Nat.le_refl _, fun _ => rfl, fun _ => rfl⟩

/-- A store that grows loses no type. -/
theorem has (h : Grows s s') (ht : s.Has t) : s'.Has t :=
  Nat.lt_of_lt_of_le ht h.size_le

theorem trans (h : Grows s s') (h' : Grows s' s'') : Grows s s'' where
  size_le := Nat.le_trans h.size_le h'.size_le
  count_le := Nat.le_trans h.count_le h'.count_le
  node_eq ht := (h'.node_eq (h.has ht)).trans (h.node_eq ht)
  summary_eq ht := (h'.summary_eq (h.has ht)).trans (h.summary_eq ht)

/-- A change of bindings alone leaves all types as they are. -/
theorem of_entries_eq (he : s'.entries = s.entries)
    (hc : s.variableCount ≤ s'.variableCount) : Grows s s' where
  size_le := by simp [size, he]
  count_le := hc
  node_eq _ := by rw [node_congr he]
  summary_eq _ := by rw [summary_congr he]

end Grows

namespace WellFormed

variable {s s' : TypeStore} {t u : TypeId} {n : Node}

/-- The arguments of a type are in the store. -/
theorem has_arg (h : s.WellFormed) {a : TypeId} (ha : a ∈ (s.node t).args) : s.Has a := by
  have ht : s.Has t := by
    apply has_of_node_ne
    intro slot hslot
    simp [hslot, Node.args] at ha
  exact Nat.lt_trans (h.args_lt ha) ht

/-- A node has one handle only. -/
theorem node_injective (h : s.WellFormed) (ht : s.Has t) (hu : s.Has u)
    (heq : s.node t = s.node u) : t = u := by
  have h₁ : s.handles[s.node t]? = some t := h.handle_iff.mpr ⟨ht, rfl⟩
  have h₂ : s.handles[s.node t]? = some u := h.handle_iff.mpr ⟨hu, heq.symm⟩
  exact Option.some.inj (h₁.symm.trans h₂)

/-- Well-formedness of the types does not depend on the bindings, as long as
links point into the store. -/
theorem rebind (h : s.WellFormed) (he : s'.entries = s.entries) (hh : s'.handles = s.handles)
    (hc : s.variableCount ≤ s'.variableCount)
    (hl : ∀ {id t}, s'.binding id = .linked t → s.Has t) : s'.WellFormed := by
  have hn := node_congr he
  have hs := summary_congr he
  have hhas : ∀ t, s'.Has t ↔ s.Has t := fun t => by simp [Has, size, he]
  exact
    { args_lt := by rw [hn]; exact h.args_lt
      takes := by rw [hn]; exact h.takes
      summary_node := by rw [hn, hs]; exact h.summary_node
      handle_iff := fun {n t} => by rw [hn, hh, hhas]; exact h.handle_iff
      var_lt := by rw [hn]; exact fun hid => Nat.lt_of_lt_of_le (h.var_lt hid) hc
      generic_lt := by rw [hn]; exact fun hid => Nat.lt_of_lt_of_le (h.generic_lt hid) hc
      linked_has := fun hid => (hhas _).mpr (hl hid) }

end WellFormed

/-- The tree of a handle as it is written, links not followed. -/
def written (s : TypeStore) (t : TypeId) : Tree :=
  s.treeWithin id (t.index + 1) t

/-- How a type is written does not depend on any binding. -/
theorem written_congr {s s' : TypeStore} (h : s'.entries = s.entries) : s'.written = s.written := by
  have htree : ∀ n t, s'.treeWithin id n t = s.treeWithin id n t := by
    intro n
    induction n with
    | zero => exact fun _ => rfl
    | succ n ih =>
        intro t
        simp only [treeWithin, node_congr h, List.map_congr_left fun a _ => ih a]
  exact funext fun t => htree _ t

namespace WellFormed

variable {s s' : TypeStore} {t u : TypeId} {n : Node}

/-- The handle bounds the depth of its tree, so a deeper look shows the same. -/
theorem treeWithin_eq (h : s.WellFormed) {k k' : Nat} (hk : t.index < k) (hk' : t.index < k') :
    s.treeWithin id k t = s.treeWithin id k' t := by
  induction k generalizing t k' with
  | zero => omega
  | succ k ih =>
      obtain ⟨k', rfl⟩ : ∃ j, k' = j + 1 := ⟨k' - 1, by omega⟩
      simp only [treeWithin, id_eq]
      cases hn : s.node t with
      | atom a => rfl
      | app f args =>
          simp only [Tree.app.injEq, true_and]
          refine List.map_congr_left fun a ha => ?_
          have hlt : a.index < t.index := h.args_lt (by simpa [hn, Node.args] using ha)
          exact ih (by omega) (by omega)

theorem written_of_atom {a : Atom} (hn : s.node t = .atom a) : s.written t = .atom a := by
  simp [written, treeWithin, hn]

/-- A compound type is written as its former around what its arguments are written as. -/
theorem written_of_app (h : s.WellFormed) {f : Former} {args : List TypeId}
    (hn : s.node t = .app f args) : s.written t = .app f (args.map s.written) := by
  simp only [written, treeWithin, id_eq, hn, Tree.app.injEq, true_and]
  refine List.map_congr_left fun a ha => ?_
  have hlt : a.index < t.index := h.args_lt (by simpa [hn, Node.args] using ha)
  exact h.treeWithin_eq hlt (Nat.lt_succ_self _)

/-- Prove a property of all handles from the arguments of a type to the type. -/
theorem handle_induction (h : s.WellFormed) {motive : TypeId → Prop}
    (step : ∀ t, (∀ a ∈ (s.node t).args, motive a) → motive t) (t : TypeId) : motive t := by
  obtain ⟨i⟩ := t
  induction i using Nat.strongRecOn with
  | ind i ih => exact step ⟨i⟩ fun a ha => ih a.index (h.args_lt ha)

/-- **Interning.**  Two handles of a store are equal exactly when they are
written as the same tree. -/
theorem written_injective (h : s.WellFormed) (ht : s.Has t) (hu : s.Has u)
    (heq : s.written t = s.written u) : t = u := by
  induction t using h.handle_induction generalizing u with
  | step t ih =>
      apply h.node_injective ht hu
      cases hnt : s.node t with
      | atom a =>
          rw [written_of_atom hnt] at heq
          cases hnu : s.node u with
          | atom b => rw [written_of_atom hnu] at heq; rw [Tree.atom.inj heq]
          | app g args => rw [h.written_of_app hnu] at heq; cases heq
      | app f args =>
          rw [h.written_of_app hnt] at heq
          cases hnu : s.node u with
          | atom b => rw [written_of_atom hnu] at heq; cases heq
          | app g args' =>
              rw [h.written_of_app hnu] at heq
              obtain ⟨rfl, hargs⟩ := Tree.app.inj heq
              have hmem : ∀ a ∈ args, a ∈ (s.node t).args := by simp [hnt, Node.args]
              have hmem' : ∀ a ∈ args', a ∈ (s.node u).args := by simp [hnu, Node.args]
              rw [eq_of_map_eq (fun a ha b hb hab => ih a (hmem a ha)
                (h.has_arg (hmem a ha)) (h.has_arg (hmem' b hb)) hab) hargs]

/-- A variable that is written is one of the store. -/
theorem var_lt_of_written (h : s.WellFormed) {id : Nat} (hid : .var id ∈ (s.written t).atoms) :
    id < s.variableCount := by
  induction t using h.handle_induction with
  | step t ih =>
      cases hn : s.node t with
      | atom a =>
          rw [written_of_atom hn] at hid
          obtain rfl : Atom.var id = a := by simpa using hid
          exact h.var_lt hn
      | app f args =>
          rw [h.written_of_app hn] at hid
          obtain ⟨_, hmem, hid⟩ := Tree.mem_atoms_app.mp hid
          obtain ⟨a, ha, rfl⟩ := List.mem_map.mp hmem
          exact ih a (by simpa [hn, Node.args] using ha) hid

/-- Growing leaves the tree of a handle as it is. -/
theorem written_grows (h : s.WellFormed) (h' : s'.WellFormed) (hg : Grows s s') (ht : s.Has t) :
    s'.written t = s.written t := by
  induction t using h.handle_induction with
  | step t ih =>
      cases hn : s.node t with
      | atom a => rw [written_of_atom hn, written_of_atom ((hg.node_eq ht).trans hn)]
      | app f args =>
          rw [h.written_of_app hn, h'.written_of_app ((hg.node_eq ht).trans hn)]
          simp only [Tree.app.injEq, true_and]
          refine List.map_congr_left fun a ha => ?_
          have hmem : a ∈ (s.node t).args := by simpa [hn, Node.args] using ha
          exact ih a hmem (h.has_arg hmem)

end WellFormed

end TypeStore

/-- A fact of summaries that says of a type whether an atom of some sort occurs
in it: atoms decide it and formers only pass it on. -/
structure Summary.Tracks (fact : Summary → Bool) (sort : Atom → Prop) : Prop where
  atom : ∀ a : Atom, fact a.summary = true ↔ sort a
  former : ∀ f : Former, fact f.summary = false
  union : ∀ x y : Summary, fact (x.union y) = (fact x || fact y)
  inherited : ∀ x : Summary, fact x.inherited = fact x
  plain : fact .plain = false

namespace Summary.Tracks

/-- The flag for variables follows the inference variables. -/
theorem hasVar : Tracks (·.hasVar) fun a => ∃ id, a = .var id where
  atom a := by
    cases a with
    | prim p => cases p <;> simp [Atom.summary, Primitive.summary]
    | _ => simp [Atom.summary]
  former f := by cases f <;> rfl
  union _ _ := rfl
  inherited _ := rfl
  plain := rfl

/-- The flag for parameters follows the positions of impl parameters. -/
theorem hasParam : Tracks (·.hasParam) Atom.IsParam where
  atom a := by
    cases a with
    | prim p => cases p <;> simp [Atom.summary, Primitive.summary, Atom.IsParam]
    | _ => simp [Atom.summary, Atom.IsParam]
  former f := by cases f <;> rfl
  union _ _ := rfl
  inherited _ := rfl
  plain := rfl

/-- The flag for errors follows the error type. -/
theorem hasError : Tracks (·.hasError) Atom.IsError where
  atom a := by
    cases a with
    | prim p => cases p <;> simp [Atom.summary, Primitive.summary, Atom.IsError]
    | _ => simp [Atom.summary, Atom.IsError]
  former f := by cases f <;> rfl
  union _ _ := rfl
  inherited _ := rfl
  plain := rfl

variable {fact : Summary → Bool} {sort : Atom → Prop}

/-- A flag that is collected from left to right holds when it held at first or one of the
summaries has it. -/
theorem foldl_union (h : Tracks fact sort) (xs : List Summary) (acc : Summary) :
    fact (xs.foldl (fun acc x => acc.union x.inherited) acc) = (fact acc || xs.any fact) := by
  induction xs generalizing acc with
  | nil => simp
  | cons x xs ih => simp [ih, h.union, h.inherited, Bool.or_assoc]

/-- A compound type has the fact when one of its arguments has it. -/
theorem node_app (h : Tracks fact sort) (f : Former) (args : List TypeId)
    (ofArg : TypeId → Summary) :
    fact ((Node.app f args).summary ofArg) = args.any fun a => fact (ofArg a) := by
  simp [Node.summary, inheritedAll, h.union, h.former, h.foldl_union, h.plain, Function.comp_def]

/-- **Summaries are exact.**  The summary of a handle has the fact exactly when
an atom of the sort occurs in the tree that the handle is written as. -/
theorem summary_iff (h : Tracks fact sort) {s : TypeStore} (hs : s.WellFormed) (t : TypeId) :
    fact (s.summary t) = true ↔ ∃ a ∈ (s.written t).atoms, sort a := by
  induction t using hs.handle_induction with
  | step t ih =>
      rw [hs.summary_node]
      cases hn : s.node t with
      | atom a => simp [Node.summary, h.atom, TypeStore.WellFormed.written_of_atom hn]
      | app f args =>
          have hmem : ∀ a ∈ args, a ∈ (s.node t).args := by simp [hn, Node.args]
          rw [h.node_app, hs.written_of_app hn, List.any_eq_true]
          simp only [Tree.mem_atoms_app, List.mem_map]
          constructor
          · rintro ⟨a, ha, hfact⟩
            obtain ⟨b, hb, hsort⟩ := (ih a (hmem a ha)).mp hfact
            exact ⟨b, ⟨_, ⟨a, ha, rfl⟩, hb⟩, hsort⟩
          · rintro ⟨b, ⟨_, ⟨a, ha, rfl⟩, hb⟩, hsort⟩
            exact ⟨a, ha, (ih a (hmem a ha)).mpr ⟨b, hb, hsort⟩⟩

end Summary.Tracks

end DotCall
