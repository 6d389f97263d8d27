import DotCall.Proofs.TypeRebuilding

/-!
# Patterns

A pattern is a tree with parameters and without variables: the self type of an
impl, or a side of a rule.  Its first `n` parameters are its own; any further
ones stand for themselves.  To match a tree against a pattern, variables are put
for its own parameters and the two are unified.

What comes of it depends on the tree only up to the names of its variables.  Two
trees that are instances of each other, variants, match the same patterns, and
the arguments found for them are variants again (`MostGeneral.instance_of`).
-/

namespace DotCall.Tree

/-- An error occurs in the tree. -/
def HasError (t : Tree) : Prop := ∃ a ∈ t.atoms, a.IsError

/-- A parameter occurs in the tree. -/
def HasParam (t : Tree) : Prop := ∃ a ∈ t.atoms, a.IsParam

/-- No inference variable occurs in the tree. -/
def Fixed (t : Tree) : Prop := ∀ id, .var id ∉ t.atoms

/-- Every parameter is one of the first `n`. -/
def Scoped (n : Nat) (t : Tree) : Prop := ∀ position, .param position ∈ t.atoms → position < n

/-- No parameter is one of the first `n`. -/
def Bare (n : Nat) (t : Tree) : Prop := ∀ position, .param position ∈ t.atoms → n ≤ position

/-- With these arguments the pattern is an instance of the tree.  An error on
either side is let pass. -/
def Suits (pattern tree : Tree) (args : List Tree) : Prop :=
  tree.HasError ∨ pattern.HasError ∨ ∃ σ : Assignment, pattern.fill args = tree.subst σ

/-- The pattern with `n` parameters of its own matches the tree: an error is let
pass, a parameter left over matches only where both sides are the same, and all
else matches when there are arguments that suit. -/
def Matches (pattern : Tree) (n : Nat) (tree : Tree) : Prop :=
  tree.HasError ∨ pattern.HasError ∨ (tree = pattern ∧ pattern.Bare n) ∨
    (tree.Proper ∧ pattern.Scoped n ∧
      ∃ args : List Tree, args.length = n ∧ ∃ σ : Assignment, pattern.fill args = tree.subst σ)

/-- The arguments have the property, and all others that have it are instances
of them. -/
def MostGeneral (P : List Tree → Prop) (args : List Tree) : Prop :=
  P args ∧ ∀ others : List Tree, others.length = args.length → P others →
    ∃ σ : Assignment, args.map (subst σ) = others

/-- Each of the two trees is an instance of the other. -/
def Variant (t u : Tree) : Prop :=
  (∃ σ : Assignment, t.subst σ = u) ∧ ∃ σ : Assignment, u.subst σ = t

section Filling

variable {t : Tree} {args : List Tree} {a : Atom} {n : Nat} {σ : Assignment}

/-- A tree is proper when neither an error nor a parameter occurs in it. -/
theorem proper_iff : t.Proper ↔ ¬ t.HasError ∧ ¬ t.HasParam := by
  unfold Proper HasError HasParam
  grind

/-- Substituting into a filled pattern is filling in the substituted arguments. -/
theorem Fixed.subst_fill (h : t.Fixed) (σ : Assignment) (args : List Tree) :
    (t.fill args).subst σ = t.fill (args.map (subst σ)) := by
  induction t with
  | atom a =>
      cases a with
      | var id => exact absurd (by simp) (h id)
      | param position =>
          rw [fill_param, fill_param, List.getElem?_map]
          cases args[position]? <;> rfl
      | _ => rfl
  | app f ts ih =>
      simp only [fill_app, subst_app, List.map_map, Tree.app.injEq, true_and]
      refine List.map_congr_left fun t ht => ih t ht fun id hid => h id ?_
      exact mem_atoms_app.mpr ⟨t, ht, hid⟩

/-- Where no own parameter occurs nothing is filled in. -/
theorem Bare.fill_eq (h : t.Bare args.length) : t.fill args = t := by
  induction t with
  | atom a =>
      cases a with
      | param position =>
          have hle : args.length ≤ position := h position (by simp)
          rw [fill_param, List.getElem?_eq_none hle, Option.getD_none]
      | _ => rfl
  | app f ts ih =>
      rw [fill_app, List.map_congr_left (g := id) fun t ht => ih t ht fun position hp => h position ?_,
        List.map_id]
      exact mem_atoms_app.mpr ⟨t, ht, hp⟩

end Filling

/-- The pattern with variables from number `first` on for its own parameters. -/
def withVars (pattern : Tree) (first n : Nat) : Tree :=
  pattern.fill ((List.range' first n).map fun id => .atom (.var id))

section WithVars

variable {pattern : Tree} {first n : Nat} {a : Atom}

/-- The atoms of a pattern with variables put in: what was not replaced, and a variable
for each parameter that was. -/
theorem mem_atoms_withVars :
    a ∈ (pattern.withVars first n).atoms ↔
      (a ∈ pattern.atoms ∧ ∀ position < n, a ≠ .param position) ∨
        ∃ position < n, .param position ∈ pattern.atoms ∧ a = .var (first + position) := by
  rw [withVars, mem_atoms_fill_iff, List.length_map, List.length_range']
  refine or_congr Iff.rfl ⟨?_, ?_⟩
  · rintro ⟨position, u, hp, hu, ha⟩
    rw [List.getElem?_map, Option.map_eq_some_iff] at hu
    obtain ⟨id, hid, rfl⟩ := hu
    obtain ⟨hlt, rfl⟩ := List.getElem?_eq_some_iff.mp hid
    rw [List.length_range'] at hlt
    exact ⟨position, hlt, hp, by simpa using ha⟩
  · rintro ⟨position, hlt, hp, rfl⟩
    exact ⟨position, .atom (.var (first + position)), hp, by simp [hlt], by simp⟩

/-- Variables for parameters bring no error in and take none out. -/
theorem withVars_hasError : (pattern.withVars first n).HasError ↔ pattern.HasError := by
  constructor
  · rintro ⟨a, ha, hbad⟩
    rcases mem_atoms_withVars.mp ha with ⟨ha, -⟩ | ⟨_, -, -, rfl⟩
    · exact ⟨a, ha, hbad⟩
    · simp [Atom.IsError] at hbad
  · rintro ⟨a, ha, hbad⟩
    refine ⟨a, mem_atoms_withVars.mpr (.inl ⟨ha, ?_⟩), hbad⟩
    rintro position - rfl
    simp [Atom.IsError] at hbad

/-- A parameter is left exactly when one was not the pattern's own. -/
theorem withVars_hasParam : (pattern.withVars first n).HasParam ↔ ¬ pattern.Scoped n := by
  constructor
  · rintro ⟨a, ha, position, rfl⟩ hscoped
    rcases mem_atoms_withVars.mp ha with ⟨ha, hne⟩ | ⟨_, -, -, heq⟩
    · exact hne position (hscoped position ha) rfl
    · cases heq
  · intro h
    simp only [Scoped, Classical.not_forall, Nat.not_lt] at h
    obtain ⟨position, hp, hle⟩ := h
    refine ⟨_, mem_atoms_withVars.mpr (.inl ⟨hp, ?_⟩), position, rfl⟩
    intro p hp heq
    have := Atom.param.inj heq
    omega

/-- So a pattern becomes proper when it has no error and only its own parameters. -/
theorem withVars_proper :
    (pattern.withVars first n).Proper ↔ ¬ pattern.HasError ∧ pattern.Scoped n := by
  rw [proper_iff, withVars_hasError, withVars_hasParam, Classical.not_not]

/-- A pattern without own parameters stays as it is. -/
theorem Bare.withVars_eq (h : pattern.Bare n) (first : Nat) :
    pattern.withVars first n = pattern :=
  fill_eq (by simpa using h)

/-- Putting arguments for the variables is filling them in. -/
theorem Fixed.subst_withVars (h : pattern.Fixed) (σ : Assignment) :
    (pattern.withVars first n).subst σ =
      pattern.fill ((List.range' first n).map σ) := by
  have hargs : ((List.range' first n).map fun id => Tree.atom (.var id)).map (subst σ) =
      (List.range' first n).map σ := by
    rw [List.map_map]
    exact List.map_congr_left fun id _ => subst_var
  rw [withVars, h.subst_fill, hargs]

end WithVars

section Variants

variable {t u pattern target : Tree} {args args' : List Tree} {n : Nat} {σ : Assignment}

/-- An error stays under any assignment. -/
theorem HasError.subst (h : t.HasError) : (t.subst σ).HasError := by
  obtain ⟨a, ha, hbad⟩ := h
  refine ⟨a, mem_atoms_subst.mpr (.inl ⟨ha, ?_⟩), hbad⟩
  rintro id rfl
  simp [Atom.IsError] at hbad

/-- So does a parameter. -/
theorem HasParam.subst (h : t.HasParam) : (t.subst σ).HasParam := by
  obtain ⟨a, ha, position, rfl⟩ := h
  exact ⟨_, mem_atoms_subst.mpr (.inl ⟨ha, by simp⟩), position, rfl⟩

namespace Variant

theorem refl (t : Tree) : t.Variant t := ⟨⟨_, t.subst_self⟩, _, t.subst_self⟩

theorem symm (h : t.Variant u) : u.Variant t := ⟨h.2, h.1⟩

/-- Variants contain errors together. -/
theorem hasError_iff (h : t.Variant u) : t.HasError ↔ u.HasError := by
  obtain ⟨⟨σ, hσ⟩, τ, hτ⟩ := h
  exact ⟨fun he => hσ ▸ he.subst, fun he => hτ ▸ he.subst⟩

/-- They contain parameters together. -/
theorem hasParam_iff (h : t.Variant u) : t.HasParam ↔ u.HasParam := by
  obtain ⟨⟨σ, hσ⟩, τ, hτ⟩ := h
  exact ⟨fun he => hσ ▸ he.subst, fun he => hτ ▸ he.subst⟩

/-- They are proper together. -/
theorem proper_iff (h : t.Variant u) : t.Proper ↔ u.Proper := by
  rw [Tree.proper_iff, Tree.proper_iff, h.hasError_iff, h.hasParam_iff]

/-- A tree without variables has no other variant. -/
theorem eq_of_fixed (h : t.Variant u) (ht : t.Fixed) : t = u := by
  obtain ⟨⟨σ, hσ⟩, -⟩ := h
  rw [← hσ, subst_of_no_var ht]

/-- The same arguments suit variants. -/
theorem suits (h : t.Variant u) (hs : pattern.Suits t args) : pattern.Suits u args := by
  rcases hs with he | he | ⟨σ, hσ⟩
  · exact .inl (h.hasError_iff.mp he)
  · exact .inr (.inl he)
  · obtain ⟨-, τ, hτ⟩ := h
    rw [← hτ, subst_subst] at hσ
    exact .inr (.inr ⟨_, hσ⟩)

/-- **Variants match the same patterns.** -/
theorem matching (h : t.Variant u) (hfixed : pattern.Fixed) (hm : pattern.Matches n t) :
    pattern.Matches n u := by
  rcases hm with he | he | ⟨rfl, hbare⟩ | ⟨hproper, hscoped, args, hlen, σ, hσ⟩
  · exact .inl (h.hasError_iff.mp he)
  · exact .inr (.inl he)
  · exact .inr (.inr (.inl ⟨(h.eq_of_fixed hfixed).symm, hbare⟩))
  · obtain ⟨-, τ, hτ⟩ := id h
    rw [← hτ, subst_subst] at hσ
    exact .inr (.inr (.inr ⟨h.proper_iff.mp hproper, hscoped, args, hlen, _, hσ⟩))

/-- The parts of variants are variants. -/
theorem part {f g : Former} {ts us : List Tree} (h : (Tree.app f ts).Variant (.app g us)) :
    f = g ∧ List.Forall₂ Variant ts us := by
  obtain ⟨⟨σ, hσ⟩, τ, hτ⟩ := h
  rw [subst_app] at hσ hτ
  obtain ⟨rfl, hts⟩ := Tree.app.inj hσ
  obtain ⟨-, hus⟩ := Tree.app.inj hτ
  refine ⟨rfl, ?_⟩
  clear hσ hτ
  induction ts generalizing us with
  | nil =>
      obtain rfl : [] = us := by simpa using hts
      exact .nil
  | cons t ts ih =>
      cases us with
      | nil => simp at hts
      | cons u us =>
          obtain ⟨ht, hts⟩ := List.cons.inj hts
          obtain ⟨hu, hus⟩ := List.cons.inj hus
          exact .cons ⟨⟨σ, ht⟩, τ, hu⟩ (ih hts hus)

/-- Wrapping variants in the same former gives variants. -/
theorem wrap (h : t.Variant u) (f : Former) : (Tree.app f [t]).Variant (.app f [u]) := by
  obtain ⟨⟨σ, hσ⟩, τ, hτ⟩ := h
  exact ⟨⟨σ, by simp [hσ]⟩, τ, by simp [hτ]⟩

end Variant

/-- Two most general choices of arguments give variants of what is built from
them. -/
theorem MostGeneral.variant {P : List Tree → Prop} (h : MostGeneral P args)
    (h' : MostGeneral P args') (hlen : args.length = args'.length) (hfixed : target.Fixed) :
    (target.fill args).Variant (target.fill args') := by
  obtain ⟨σ, hσ⟩ := h.2 args' hlen.symm h'.1
  obtain ⟨τ, hτ⟩ := h'.2 args hlen h.1
  exact ⟨⟨σ, by rw [hfixed.subst_fill, hσ]⟩, τ, by rw [hfixed.subst_fill, hτ]⟩

/-- What is most general for a tree is so for its variants. -/
theorem MostGeneral.of_variant (h : MostGeneral (pattern.Suits t) args) (hv : t.Variant u) :
    MostGeneral (pattern.Suits u) args :=
  ⟨hv.suits h.1, fun others hlen hs => h.2 others hlen (hv.symm.suits hs)⟩

end Variants

end DotCall.Tree
