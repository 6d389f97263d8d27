import DotCall.Type.Tree

/-!
# Trees under assignments

An assignment gives every inference variable a tree.  Substituting it into a
tree replaces the variables and nothing else; generic parameters, in
particular, stay what they are.  Two trees are unified by an assignment that
makes them equal.

The key fact about size is `subst_ne_of_occurs`: a variable that occurs inside
a compound tree is never assigned that tree, which is what the occurs check of
unification rests on.
-/

namespace DotCall

/-- A tree for every inference variable. -/
abbrev Assignment := Nat → Tree

/-- An atom that stands for a type which could not be determined. -/
def Atom.IsError (a : Atom) : Prop :=
  a = .prim .error ∨ ∃ slot, a = .reserved slot

/-- An atom that is a parameter of an impl or a rule. -/
def Atom.IsParam (a : Atom) : Prop :=
  ∃ position, a = .param position

namespace Tree

/-- Prove a property of all trees from the arguments of a former to the whole. -/
@[elab_as_elim, induction_eliminator]
theorem induction {motive : Tree → Prop} (atom : ∀ a, motive (.atom a))
    (app : ∀ f args, (∀ t ∈ args, motive t) → motive (.app f args)) (t : Tree) : motive t :=
  @Tree.rec motive (fun ts => ∀ t ∈ ts, motive t) atom app
    (by simp) (fun _ _ first rest => by simpa using ⟨first, rest⟩) t

mutual

/-- A tree with its variables replaced. -/
def subst (σ : Assignment) : Tree → Tree
  | .atom (.var id) => σ id
  | .atom a => .atom a
  | .app f args => .app f (substAll σ args)

/-- Several trees with their variables replaced. -/
def substAll (σ : Assignment) : List Tree → List Tree
  | [] => []
  | t :: ts => t.subst σ :: substAll σ ts

end

mutual

/-- The atoms of a tree, from left to right. -/
def atoms : Tree → List Atom
  | .atom a => [a]
  | .app _ args => atomsAll args

/-- The atoms of several trees. -/
def atomsAll : List Tree → List Atom
  | [] => []
  | t :: ts => t.atoms ++ atomsAll ts

end

mutual

/-- The number of formers above the deepest atom. -/
def height : Tree → Nat
  | .atom _ => 0
  | .app _ args => heightAll args + 1

/-- The height of the highest of several trees. -/
def heightAll : List Tree → Nat
  | [] => 0
  | t :: ts => max t.height (heightAll ts)

end

/-- No error and no parameter occurs in the tree. -/
def Proper (t : Tree) : Prop :=
  ∀ a ∈ t.atoms, ¬ a.IsError ∧ ¬ a.IsParam

section Equations

variable {σ τ : Assignment} {t : Tree} {ts : List Tree} {f : Former} {a : Atom} {id : Nat}

/-- The second half of the mutual recursion applies the first to each tree. -/
theorem substAll_eq_map : substAll σ ts = ts.map (subst σ) := by
  induction ts with
  | nil => rfl
  | cons t ts ih => simp [substAll, ih]

/-- The atoms of several trees are those of each in turn. -/
theorem atomsAll_eq_flatMap : atomsAll ts = ts.flatMap atoms := by
  induction ts with
  | nil => rfl
  | cons t ts ih => simp [atomsAll, ih]

@[simp] theorem subst_var : (Tree.atom (.var id)).subst σ = σ id := by
  simp [subst]

@[simp] theorem subst_app : (Tree.app f ts).subst σ = .app f (ts.map (subst σ)) := by
  simp [subst, substAll_eq_map]

/-- Atoms other than variables stay. -/
theorem subst_atom (h : ∀ id, a ≠ .var id) : (Tree.atom a).subst σ = .atom a := by
  cases a with
  | var id => exact absurd rfl (h id)
  | _ => rfl

@[simp] theorem atoms_atom : (Tree.atom a).atoms = [a] := by
  simp [atoms]

/-- An atom occurs in a compound tree when it occurs in one of its parts. -/
@[simp] theorem mem_atoms_app : a ∈ (Tree.app f ts).atoms ↔ ∃ t ∈ ts, a ∈ t.atoms := by
  simp [atoms, atomsAll_eq_flatMap]

@[simp] theorem height_atom : (Tree.atom a).height = 0 := by
  simp [height]

/-- Each of several trees is as high as the highest at most. -/
theorem height_le_heightAll (h : t ∈ ts) : t.height ≤ heightAll ts := by
  induction ts with
  | nil => cases h
  | cons u us ih =>
      simp only [heightAll]
      rcases List.mem_cons.mp h with rfl | h
      · exact Nat.le_max_left _ _
      · exact Nat.le_trans (ih h) (Nat.le_max_right _ _)

/-- A bound on the height of each of several trees bounds the highest. -/
theorem heightAll_le {n : Nat} (h : ∀ t ∈ ts, t.height ≤ n) : heightAll ts ≤ n := by
  induction ts with
  | nil => exact Nat.zero_le n
  | cons u us ih =>
      simp only [heightAll]
      have hrest := ih fun t ht => h t (List.mem_cons_of_mem _ ht)
      exact Nat.max_le.mpr ⟨h u List.mem_cons_self, hrest⟩

/-- An argument is lower than the whole. -/
theorem height_lt_app (h : t ∈ ts) : t.height < (Tree.app f ts).height := by
  rw [height]
  exact Nat.lt_succ_of_le (height_le_heightAll h)

/-- A tree is at most one former higher than its arguments. -/
theorem height_app_le {n : Nat} (h : ∀ t ∈ ts, t.height ≤ n) :
    (Tree.app f ts).height ≤ n + 1 := by
  rw [height]
  exact Nat.succ_le_succ (heightAll_le h)

end Equations

/-- Only the variables that occur decide what a substitution gives. -/
theorem subst_congr {σ τ : Assignment} {t : Tree} (h : ∀ id, .var id ∈ t.atoms → σ id = τ id) :
    t.subst σ = t.subst τ := by
  induction t with
  | atom a =>
      cases a with
      | var id => simpa using h id (by simp)
      | _ => rfl
  | app f args ih =>
      simp only [subst_app, Tree.app.injEq, true_and]
      refine List.map_congr_left fun t ht => ih t ht fun id hid => h id ?_
      exact mem_atoms_app.mpr ⟨t, ht, hid⟩

/-- Replacing every variable by itself changes nothing. -/
@[simp] theorem subst_self (t : Tree) : t.subst (fun id => .atom (.var id)) = t := by
  induction t with
  | atom a => cases a <;> rfl
  | app f args ih =>
      rw [subst_app, List.map_congr_left ih, List.map_id']

/-- Two substitutions, one after the other, are one. -/
theorem subst_subst (σ τ : Assignment) (t : Tree) :
    (t.subst σ).subst τ = t.subst fun id => (σ id).subst τ := by
  induction t with
  | atom a => cases a <;> simp [subst]
  | app f args ih =>
      simp only [subst_app, List.map_map, Tree.app.injEq, true_and]
      exact List.map_congr_left ih

/-- A tree without variables is the same under every assignment. -/
theorem subst_of_no_var {σ : Assignment} {t : Tree} (h : ∀ id, .var id ∉ t.atoms) :
    t.subst σ = t := by
  rw [subst_congr (τ := fun id => .atom (.var id)) fun id hid => absurd hid (h id), subst_self]

/-- The atoms after a substitution: those that are no variables, and those of
the trees that replace the variables. -/
theorem mem_atoms_subst {σ : Assignment} {t : Tree} {a : Atom} :
    a ∈ (t.subst σ).atoms ↔
      (a ∈ t.atoms ∧ ∀ id, a ≠ .var id) ∨ ∃ id, .var id ∈ t.atoms ∧ a ∈ (σ id).atoms := by
  induction t with
  | atom b =>
      cases b with
      | var id => simp; grind
      | _ => simp [subst]; grind
  | app f args ih =>
      simp only [subst_app, mem_atoms_app, List.mem_map]
      constructor
      · rintro ⟨_, ⟨t, ht, rfl⟩, ha⟩
        rcases (ih t ht).mp ha with ⟨h, hv⟩ | ⟨id, h, hid⟩
        · exact .inl ⟨⟨t, ht, h⟩, hv⟩
        · exact .inr ⟨id, ⟨t, ht, h⟩, hid⟩
      · rintro (⟨⟨t, ht, h⟩, hv⟩ | ⟨id, ⟨t, ht, h⟩, hid⟩)
        · exact ⟨_, ⟨t, ht, rfl⟩, (ih t ht).mpr (.inl ⟨h, hv⟩)⟩
        · exact ⟨_, ⟨t, ht, rfl⟩, (ih t ht).mpr (.inr ⟨id, h, hid⟩)⟩

/-- What replaces a variable is no higher than the whole. -/
theorem height_subst_var_le {σ : Assignment} {t : Tree} {id : Nat} (h : .var id ∈ t.atoms) :
    (σ id).height ≤ (t.subst σ).height := by
  induction t with
  | atom a =>
      obtain rfl : Atom.var id = a := by simpa using h
      simp
  | app f args ih =>
      obtain ⟨t, ht, hid⟩ := mem_atoms_app.mp h
      rw [subst_app]
      exact Nat.le_trans (ih t ht hid) (Nat.le_of_lt (height_lt_app (List.mem_map_of_mem ht)))

/-- **No infinite tree.**  A variable inside a compound tree is never assigned
what the tree becomes. -/
theorem subst_ne_of_occurs {σ : Assignment} {f : Former} {args : List Tree} {id : Nat}
    (h : .var id ∈ (Tree.app f args).atoms) : σ id ≠ (Tree.app f args).subst σ := by
  intro heq
  obtain ⟨t, ht, hid⟩ := mem_atoms_app.mp h
  have hle : (σ id).height ≤ (t.subst σ).height := height_subst_var_le hid
  have hlt : (t.subst σ).height < ((Tree.app f args).subst σ).height := by
    rw [subst_app]
    exact height_lt_app (List.mem_map_of_mem ht)
  rw [← heq] at hlt
  omega

end Tree

end DotCall
