import DotCall.Proofs.ReceiverSteps
import DotCall.Proofs.SearchOrder

/-!
# What is gathered

Every definition that is gathered expects a type without variables.  An impl
contributes its definition exactly when its pattern matches one of the steps or a
borrow of one, and whether it does is a matter of trees, so it does not depend on
what was tried before.  Gathering is quiet.
-/

namespace DotCall

open TypeStore DotCall.Tree

/-- Receivers that are variants are passed as variants. -/
theorem Passing.tree_variant {t u : Tree} (h : t.Variant u) (p : Passing) :
    (p.tree t).Variant (p.tree u) := by
  cases p with
  | byValue => exact h
  | byBorrow b => exact h.wrap (.ref b)

/-- A borrow brings no error in. -/
theorem Passing.hasError_tree {p : Passing} {t : Tree} : (p.tree t).HasError ↔ t.HasError := by
  simp only [HasError, Passing.mem_atoms_tree]

theorem Passing.fixed_tree {p : Passing} {t : Tree} : (p.tree t).Fixed ↔ t.Fixed := by
  simp only [Fixed, Passing.mem_atoms_tree]

theorem Passing.scoped_tree {p : Passing} {n : Nat} {t : Tree} :
    (p.tree t).Scoped n ↔ t.Scoped n := by
  simp only [Scoped, Passing.mem_atoms_tree]

namespace TypeStore.Ordered

variable {s : TypeStore} {t : TypeId}

/-- A form of a type means the form of what the type means. -/
theorem form_run (h : s.Ordered) (p : Passing) (ht : s.Has t) :
    let r := (p.form t).run s
    Quiet s r.2 ∧ r.2.meaning r.1 = p.tree (s.meaning t) ∧ Follows s r.2 t r.1 := by
  cases p with
  | byValue => exact ⟨.refl h, rfl, .of_quiet (.refl h) ht⟩
  | byBorrow b =>
      obtain ⟨hq, -, hhas, hnode⟩ := h.refTo_quiet b ht
      exact ⟨hq, hq.wrapped ht hhas hnode⟩

end TypeStore.Ordered

/-- A type that reads as a tree whose variables were not linked means that tree. -/
theorem TypeStore.Quiet.expanded_of_reads {s x : TypeStore} {u : TypeId} {tree : Tree}
    (hq : Quiet s x) (hu : x.Reads tree u)
    (hfree : ∀ id, .var id ∈ tree.atoms → ∀ w, s.binding id ≠ .linked w) :
    x.Expanded u ∧ x.meaning u = tree := by
  have hmeaning : x.meaning u = x.written u := by
    apply hq.finish.meaning_eq_written
    intro id hid w hb
    obtain ⟨v, hv, -⟩ := hq.keeps.linked_cases hb
    exact hfree id (hu.2 ▸ hid) v hv
  exact ⟨⟨hu.1, hmeaning.symm⟩, hmeaning.trans hu.2⟩

/-- A form of an expanded type is expanded. -/
theorem TypeStore.Expanded.form {s x : TypeStore} {t u : TypeId} {p : Passing} (ht : s.Expanded t)
    (hq : Quiet s x) (hu : x.Reads (p.tree (s.written t)) u) :
    x.Expanded u ∧ x.meaning u = p.tree (s.meaning t) := by
  rw [ht.2] at hu
  apply hq.expanded_of_reads hu
  intro id hid
  exact hq.start.not_linked_of_mem_meaning (Passing.mem_atoms_tree.mp hid)

/-- What the candidate expects is a type of the store in which no variable is
written. -/
structure Candidate.Stands (c : Candidate) (s : TypeStore) : Prop where
  has : s.Has c.expected
  fixed : (s.written c.expected).Fixed

/-- What the candidate expects matches a form of one of the steps. -/
def Candidate.Reaches (c : Candidate) (s : TypeStore) (steps : List Step) : Prop :=
  ∃ step ∈ steps, ∃ p : Passing,
    (s.written c.expected).Matches c.arity (p.tree (s.meaning step.ty))

/-- The self type of the impl matches one of the steps. -/
def ImplDecl.Reaches (decl : ImplDecl) (s : TypeStore) (steps : List Step) : Prop :=
  ∃ step ∈ steps, (s.written decl.self).Matches decl.arity (s.meaning step.ty)

section Fitting

variable {s x : TypeStore} {t : TypeId} {c : Candidate} {decl : ImplDecl} {steps : List Step}

/-- A candidate stands after quiet work. -/
theorem Candidate.Stands.quiet (h : c.Stands s) (hq : Quiet s x) : c.Stands x :=
  ⟨hq.has h.has, hq.written_eq h.has ▸ h.fixed⟩

/-- Whether a candidate fits an expanded type. -/
theorem Candidate.fits_run (hs : s.Sound) (hc : c.Stands s) (ht : s.Expanded t) :
    Quiet s ((c.fits t).run s).2 ∧
      (((c.fits t).run s).1 = true ↔ (s.written c.expected).Matches c.arity (s.meaning t)) :=
  hs.trial_run hc.has hc.fixed ht.1 (.inr ht.plain)

/-- Whether the self type of an impl fits an expanded type. -/
theorem ImplDecl.selfFits_run (hs : s.Sound) (hself : s.Has decl.self)
    (hfixed : (s.written decl.self).Fixed) (ht : s.Expanded t) :
    Quiet s ((decl.selfFits t).run s).2 ∧
      (((decl.selfFits t).run s).1 = true ↔ (s.written decl.self).Matches decl.arity (s.meaning t)) :=
  hs.trial_run hself hfixed ht.1 (.inr ht.plain)

open Classical in
/-- **Fitting some step** is a matter of trees. -/
theorem calm_fitsAny (hs : s.Sound) (hc : c.Stands s) (hsteps : ∀ step ∈ steps, s.Expanded step.ty) :
    Calm s (c.fitsAny steps) fun _ b => b = decide (c.Reaches s steps) := by
  have hstep : ∀ step ∈ steps, Calm s (do
      let forms ← receiverForms step.ty
      forms.anyM fun form => c.fits form.2) fun _ b => b = decide (∃ p : Passing,
        (s.written c.expected).Matches c.arity (p.tree (s.meaning step.ty))) := by
    intro step hmem
    have ht := hsteps step hmem
    apply (calm_receiverForms ht.1).bind
    intro x forms hx hforms
    have hform : ∀ form ∈ forms, Calm x (c.fits form.2) fun _ b =>
        b = decide ((s.written c.expected).Matches c.arity (form.1.tree (s.meaning step.ty))) := by
      intro form hform y hy
      have hsy := hx.trans hy
      obtain ⟨hexpanded, hmeaning⟩ := ht.form hsy (hy.reads (hforms.2 form hform))
      obtain ⟨hq, hiff⟩ := c.fits_run (hs.quiet hsy) (hc.quiet hsy) hexpanded
      rw [hmeaning, hsy.written_eq hc.has] at hiff
      exact ⟨hq, Bool.eq_iff_iff.mpr (hiff.trans decide_eq_true_iff.symm)⟩
    apply (Calm.anyM hform).imp
    intro y b _ hb
    rw [hb, Bool.eq_iff_iff, List.any_eq_true, decide_eq_true_iff]
    simp only [decide_eq_true_iff]
    constructor
    · intro hex
      obtain ⟨form, -, hmatch⟩ := hex
      exact ⟨form.1, hmatch⟩
    · intro hex
      obtain ⟨p, hmatch⟩ := hex
      have hp : p ∈ forms.map (·.1) := hforms.1 ▸ p.mem_all
      obtain ⟨form, hform, rfl⟩ := List.mem_map.mp hp
      exact ⟨form, hform, hmatch⟩
  apply (Calm.anyM hstep).imp
  intro y b _ hb
  rw [hb, Bool.eq_iff_iff, List.any_eq_true, decide_eq_true_iff]
  simp only [decide_eq_true_iff]
  rfl

open Classical in
/-- Whether an impl fits a step is decided calmly, and is what its self type says. -/
theorem calm_selfFitsAny (hs : s.Sound) (hself : s.Has decl.self)
    (hfixed : (s.written decl.self).Fixed) (hsteps : ∀ step ∈ steps, s.Expanded step.ty) :
    Calm s (steps.anyM fun step => decl.selfFits step.ty) fun _ b =>
      b = decide (decl.Reaches s steps) := by
  have hstep : ∀ step ∈ steps, Calm s (decl.selfFits step.ty) fun _ b =>
      b = decide ((s.written decl.self).Matches decl.arity (s.meaning step.ty)) := by
    intro step hmem x hx
    have ht := hsteps step hmem
    obtain ⟨hq, hiff⟩ := decl.selfFits_run (hs.quiet hx) (hx.has hself)
      (hx.written_eq hself ▸ hfixed) (ht.quiet hx)
    rw [hx.written_eq hself, hx.meaning_eq ht.1] at hiff
    exact ⟨hq, Bool.eq_iff_iff.mpr (hiff.trans decide_eq_true_iff.symm)⟩
  apply (Calm.anyM hstep).imp
  intro y b _ hb
  rw [hb, Bool.eq_iff_iff, List.any_eq_true, decide_eq_true_iff]
  simp only [decide_eq_true_iff]
  rfl

namespace Resolver

variable {r : Resolver}

/-- A type is accepted if it unifies and the conditions of the impl are possible
then. -/
theorem accepts_run (x : TypeStore) :
    let args := (newVars c.arity).run x.opened
    let e := (instantiate c.expected args.1).run args.2
    let u := (unify e.1 t).run e.2
    ((r.accepts t c).run x).1 = true ↔ u.1 = .ok () ∧ ∀ id, c.origin = .impl id →
      ((r.judgeImplConditions id args.1).run u.2).1.isPossible = true := by
  intro args e u
  have hinstance : (c.freshInstance).run x.opened = ((e.1, args.1), e.2) := rfl
  unfold accepts
  rw [tentatively_fst]
  simp only [run_bind, hinstance, unifies_run]
  by_cases hok : u.1 = .ok ()
  · simp only [u, hok, decide_true, if_true, true_and]
    cases c.origin with
    | impl id => simp only [run_bind, run_pure, Origin.impl.injEq, forall_eq']
    | object _ => simp only [run_pure, reduceCtorEq, false_implies, implies_true]
    | bound _ => simp only [run_pure, reduceCtorEq, false_implies, implies_true]
  · simp only [u, hok, decide_false, Bool.false_eq_true, if_false, run_pure, false_and]

/-- What accepts an expanded type as it is passed matches it, and conversely where
no conditions stand in the way. -/
theorem acceptsAlone_iff (hs : s.Sound) (hc : c.Stands s) (ht : s.Expanded t) (p : Passing) :
    (r.acceptsAlone s p t c = true →
      (s.written c.expected).Matches c.arity (p.tree (s.meaning t))) ∧
    ∀ {id decl}, c.origin = .impl id → r.db.impl? id = some decl → decl.conditions = [] →
      (s.written c.expected).Matches c.arity (p.tree (s.meaning t)) →
      r.acceptsAlone s p t c = true := by
  obtain ⟨hq, hmeaning, hfollows⟩ := hs.ordered.form_run p ht.1
  have hform := hfollows.expanded ht
  obtain ⟨-, -, -, -, hiff, -⟩ := (hs.quiet hq).unify_instance (hq.has hc.has)
    (hq.written_eq hc.has ▸ hc.fixed) hform.1 (.inr hform.plain)
  rw [hmeaning, hq.written_eq hc.has] at hiff
  have haccepts := accepts_run (r := r) (c := c) (t := ((p.form t).run s).1) ((p.form t).run s).2
  refine ⟨fun h => hiff.mp (haccepts.mp h).1, ?_⟩
  intro id decl horigin hdecl hconditions hmatch
  refine haccepts.mpr ⟨hiff.mpr hmatch, fun id' hid' => ?_⟩
  cases horigin.symm.trans hid'
  have hjudge : ∀ args, r.judgeImplConditions id args = pure .holds := by
    intro args
    simp only [judgeImplConditions, hdecl, hconditions]
    rfl
  simp only [hjudge, run_pure]
  rfl

end Resolver

end Fitting

/-- What an impl has under a name. -/
structure Provision where
  decl : ImplDecl
  standing : Standing
  passing? : Option Passing

/-- What the impl has under a name, if its methods can be called. -/
def Resolver.provides? (r : Resolver) (method : Symbol) (visible : List TraitId) (id : ImplId) :
    Option Provision :=
  match r.db.impl? id, r.db.methodOfImpl? id method with
  | some decl, some m => (decl.standing? visible).map fun standing => ⟨decl, standing, m.passing?⟩
  | _, _ => none

/-- The definition of the name that an impl has, whether or not it fits. -/
def Resolver.definitionOf? (r : Resolver) (method : Symbol) (visible : List TraitId) (id : ImplId) :
    StateM TypeStore (Option Definition) :=
  match r.provides? method visible id with
  | none => pure none
  | some ⟨decl, standing, some passing⟩ => do
    let c ← Candidate.make (.impl id) standing method passing decl.self decl.arity
    pure (some (.method c))
  | some ⟨_, _, none⟩ => pure (some (.function (.impl id)))

namespace Provision

/-- The provision matches one of the steps; a method may also match a borrow. -/
def Reaches (v : Provision) (s : TypeStore) (steps : List Step) : Prop :=
  match v.passing? with
  | some passing => ∃ step ∈ steps, ∃ p : Passing,
      (passing.tree (s.written v.decl.self)).Matches v.decl.arity (p.tree (s.meaning step.ty))
  | none => v.decl.Reaches s steps

/-- The definition is the one of the provision; what a method expects is read in
the store `y`. -/
def Defines (v : Provision) (s y : TypeStore) (method : Symbol) (id : ImplId) (o : Definition) :
    Prop :=
  match v.passing? with
  | some passing => ∃ e, y.Reads (passing.tree (s.written v.decl.self)) e ∧
      o = .method ⟨.impl id, v.standing, method, passing, v.decl.self, v.decl.arity, e⟩
  | none => o = .function (.impl id)

variable {v : Provision} {s y z : TypeStore} {method : Symbol} {id : ImplId} {o o' : Definition}

/-- A definition is one of its impl after quiet work. -/
theorem Defines.quiet (h : v.Defines s y method id o) (hq : Quiet y z) :
    v.Defines s z method id o := by
  unfold Defines at h ⊢
  split at h
  · obtain ⟨e, he, ho⟩ := h
    exact ⟨e, hq.reads he, ho⟩
  · exact h

/-- A method that an impl defines expects the self type of the impl, passed as the method
says. -/
theorem Defines.expects {c : Candidate} (h : v.Defines s y method id (.method c)) :
    ∃ e, y.Reads (c.passing.tree (s.written v.decl.self)) e ∧
      c = ⟨.impl id, v.standing, method, c.passing, v.decl.self, v.decl.arity, e⟩ := by
  unfold Defines at h
  split at h
  · obtain ⟨e, he, hc⟩ := h
    cases hc
    exact ⟨e, he, rfl⟩
  · cases h

/-- A provision has one definition. -/
theorem Defines.unique (h : v.Defines s y method id o) (h' : v.Defines s y method id o')
    (hy : y.WellFormed) : o = o' := by
  unfold Defines at h h'
  cases hpassing : v.passing? with
  | some passing =>
      simp only [hpassing] at h h'
      obtain ⟨e, he, rfl⟩ := h
      obtain ⟨e', he', rfl⟩ := h'
      rw [hy.written_injective he.1 he'.1 (he.2.trans he'.2.symm)]
  | none =>
      simp only [hpassing] at h h'
      rw [h, h']

end Provision

namespace Resolver

/-- What an impl contributes when it is asked for its definition: nothing without
a provision, and otherwise the definition if the condition holds. -/
def Contributes (r : Resolver) (s : TypeStore) (method : Symbol) (visible : List TraitId)
    (condition : Provision → Prop) (y : TypeStore) (id : ImplId) (o : Option Definition) : Prop :=
  match r.provides? method visible id with
  | none => o = none
  | some v => ∃ definition, v.Defines s y method id definition ∧
      ((condition v ∧ o = some definition) ∨ (¬ condition v ∧ o = none))

variable {r : Resolver} {s x y z : TypeStore} {method : Symbol} {visible : List TraitId}
  {condition : Provision → Prop} {id : ImplId} {o : Option Definition} {steps : List Step}

/-- What an impl contributes stays after quiet work. -/
theorem Contributes.quiet (h : r.Contributes s method visible condition y id o) (hq : Quiet y z) :
    r.Contributes s method visible condition z id o := by
  unfold Contributes at h ⊢
  split at h
  · exact h
  · obtain ⟨definition, hdefines, ho⟩ := h
    exact ⟨definition, hdefines.quiet hq, ho⟩

/-- What provides a method is a declared impl. -/
theorem provides?_some {v : Provision} (h : r.provides? method visible id = some v) :
    r.db.impl? id = some v.decl := by
  unfold provides? at h
  split at h
  · next decl m hdecl hm =>
      obtain ⟨standing, -, rfl⟩ := Option.map_eq_some_iff.mp h
      exact hdecl
  · cases h

end Resolver

/-- Making a candidate is quiet. -/
theorem Candidate.calm_make {s : TypeStore} (origin : Origin) (standing : Standing)
    (method : Symbol) (passing : Passing) {self : TypeId} (arity : Nat) (hself : s.Has self) :
    Calm s (Candidate.make origin standing method passing self arity) fun y c =>
      ∃ e, y.Reads (passing.tree (s.written self)) e ∧
        c = ⟨origin, standing, method, passing, self, arity, e⟩ := by
  intro x hx
  obtain ⟨hq, hreads⟩ := hx.finish.form_reads passing (hx.has hself)
  rw [hx.written_eq hself] at hreads
  exact ⟨hq, _, hreads, rfl⟩

namespace Resolver

variable {r : Resolver} {s x y z : TypeStore} {method : Symbol} {visible : List TraitId}
  {id : ImplId} {o' : Definition} {steps : List Step}

/-- The self types of all impls are types of the store in which no variable is
written. -/
def SelfFixed (r : Resolver) (s : TypeStore) : Prop :=
  ∀ {id decl}, r.db.impl? id = some decl → s.Has decl.self ∧ (s.written decl.self).Fixed

/-- The definition of an impl is found calmly, whatever the steps are. -/
theorem calm_definitionOf? (hself : r.SelfFixed s) :
    Calm s (r.definitionOf? method visible id) fun y o =>
      r.Contributes s method visible (fun _ => True) y id o := by
  unfold definitionOf? Contributes
  cases hv : r.provides? method visible id with
  | none => exact .pure fun _ _ => rfl
  | some v =>
      obtain ⟨decl, standing, passing?⟩ := v
      have hhas : s.Has decl.self := (hself (provides?_some hv)).1
      cases passing? with
      | none => exact .pure fun _ _ => ⟨_, rfl, .inl ⟨trivial, rfl⟩⟩
      | some passing =>
          apply (Candidate.calm_make _ _ _ _ _ hhas).bind
          intro x c _ hc
          obtain ⟨e, he, rfl⟩ := hc
          exact .pure fun y hy => ⟨_, ⟨e, hy.reads he, rfl⟩, .inl ⟨trivial, rfl⟩⟩

/-- A candidate reaches the steps where its provision does. -/
theorem reaches_iff {c : Candidate} {tree : Tree} (hx : Quiet s x)
    (hsteps : ∀ step ∈ steps, s.Expanded step.ty) (hc : x.Reads tree c.expected) :
    c.Reaches x steps ↔ ∃ step ∈ steps, ∃ p : Passing,
      tree.Matches c.arity (p.tree (s.meaning step.ty)) := by
  unfold Candidate.Reaches
  rw [hc.2]
  constructor
  · intro hex
    obtain ⟨step, hmem, p, hmatch⟩ := hex
    rw [hx.meaning_eq (hsteps step hmem).1] at hmatch
    exact ⟨step, hmem, p, hmatch⟩
  · intro hex
    obtain ⟨step, hmem, p, hmatch⟩ := hex
    rw [← hx.meaning_eq (hsteps step hmem).1] at hmatch
    exact ⟨step, hmem, p, hmatch⟩

/-- **An impl contributes** its definition exactly when that matches a step. -/
theorem calm_gatherImpl (hs : s.Sound) (hself : r.SelfFixed s)
    (hsteps : ∀ step ∈ steps, s.Expanded step.ty) :
    Calm s (r.gatherImpl method steps visible id) fun y o =>
      r.Contributes s method visible (·.Reaches s steps) y id o := by
  unfold gatherImpl Contributes provides?
  cases hdecl : r.db.impl? id with
  | none => exact .pure fun _ _ => rfl
  | some decl =>
      obtain ⟨hhas, hfixed⟩ := hself hdecl
      cases r.db.methodOfImpl? id method with
      | none => exact .pure fun _ _ => rfl
      | some m =>
          cases hstanding : decl.standing? visible with
          | none =>
              simp only [hstanding]
              exact .pure fun _ _ => rfl
          | some standing =>
              cases hpassing : m.passing? with
              | none =>
                  simp only [hstanding, hpassing, Option.map_some]
                  apply (calm_selfFitsAny hs hhas hfixed hsteps).bind
                  intro x b _ hb
                  subst hb
                  by_cases hreaches : decl.Reaches s steps
                  · simp only [hreaches, decide_true, if_true]
                    exact .pure fun _ _ => ⟨_, rfl, .inl ⟨hreaches, rfl⟩⟩
                  · simp only [hreaches, decide_false, Bool.false_eq_true, if_false]
                    exact .pure fun _ _ => ⟨_, rfl, .inr ⟨hreaches, rfl⟩⟩
              | some passing =>
                  simp only [hstanding, hpassing, Option.map_some]
                  apply (Candidate.calm_make _ _ _ _ _ hhas).bind
                  intro x c hx hc
                  obtain ⟨e, he, hc⟩ := hc
                  have hreads : x.Reads (passing.tree (s.written decl.self)) c.expected := hc ▸ he
                  have harity : c.arity = decl.arity := hc ▸ rfl
                  have hstands : c.Stands x :=
                    ⟨hreads.1, by rw [hreads.2]; exact Passing.fixed_tree.mpr hfixed⟩
                  have hsame := reaches_iff hx hsteps hreads
                  rw [harity] at hsame
                  refine (calm_fitsAny (hs.quiet hx) hstands fun step h =>
                    (hsteps step h).quiet hx).bind fun y b hy hb => ?_
                  subst hb
                  by_cases hreaches : c.Reaches x steps
                  · simp only [hreaches, decide_true, if_true]
                    refine .pure fun z hz => ⟨.method c, ⟨e, (hy.trans hz).reads he, by rw [hc]⟩, ?_⟩
                    exact .inl ⟨hsame.mp hreaches, rfl⟩
                  · simp only [hreaches, decide_false, Bool.false_eq_true, if_false]
                    refine .pure fun z hz => ⟨.method c, ⟨e, (hy.trans hz).reads he, by rw [hc]⟩, ?_⟩
                    exact .inr ⟨fun h => hreaches (hsame.mpr h), rfl⟩

/-- A type that offers methods of its own is a trait object or a generic parameter. -/
theorem node_of_mem_offers {t : TypeId} {offer : Offer} (h : offer ∈ r.offers method s t) :
    offer.self = t ∧ ∃ a : Atom, s.node t = .atom a ∧ (Tree.atom a).Fixed ∧ ¬ a.IsParam := by
  unfold offers ownTraits at h
  obtain ⟨traitId, hmem, h⟩ := List.mem_filterMap.mp h
  obtain ⟨m, -, rfl⟩ := Option.map_eq_some_iff.mp h
  refine ⟨rfl, ?_⟩
  split at hmem
  · next name hn => exact ⟨_, hn, by simp [Fixed], by simp [Atom.IsParam]⟩
  · next i hn => exact ⟨_, hn, by simp [Fixed], by simp [Atom.IsParam]⟩
  · simp at hmem

/-- A method among the definitions expects a type without variables, in which only
its own parameters occur. -/
def OwnIn (y : TypeStore) (o : Definition) : Prop :=
  ∀ c, o = .method c → c.Stands y ∧ (y.written c.expected).Scoped c.arity

/-- A definition of a step's own stays one after quiet work. -/
theorem OwnIn.quiet (h : OwnIn y o') (hq : Quiet y z) : OwnIn z o' := by
  intro c hc
  obtain ⟨hstands, hscoped⟩ := h c hc
  exact ⟨hstands.quiet hq, hq.written_eq hstands.has ▸ hscoped⟩

/-- **What the steps have by themselves** is found quietly. -/
theorem calm_gatherOffers (hsteps : ∀ step ∈ steps, s.Has step.ty) :
    Calm s (r.gatherOffers method steps) fun y definitions => ∀ o ∈ definitions, OwnIn y o := by
  have hroots : Calm s (steps.mapM fun step => findRoot step.ty) fun x types =>
      ∀ t ∈ types, ∃ step ∈ steps, x.Has t := by
    refine Calm.mapM_mem (fun hq ht => hq.has ht) fun step hmem x hx => ?_
    obtain ⟨hroot, hq⟩ := hx.finish.findRoot_quiet step.ty
    rw [hroot]
    exact ⟨hq, hq.has (hx.finish.has_root (hx.has (hsteps step hmem)))⟩
  apply hroots.bind
  intro x types _ htypes
  apply Calm.get.bind
  intro x' s' hx' hs'
  subst hs'
  have haccept : ∀ offer ∈ (types.flatMap (r.offers method x')).eraseDups,
      Calm x' (Offer.accept method offer) fun y o => OwnIn y o := by
    intro offer hmem
    obtain ⟨t, ht, hoffer⟩ := List.mem_flatMap.mp (List.mem_eraseDups.mp hmem)
    obtain ⟨hself, a, hn, hfixed, hparam⟩ := node_of_mem_offers hoffer
    obtain ⟨-, -, hhas⟩ := htypes t ht
    unfold Offer.accept
    cases offer.passing? with
    | none => exact .pure fun _ _ c hc => by cases hc
    | some passing =>
        rw [hself]
        apply (Candidate.calm_make _ _ _ _ _ (hx'.has hhas)).bind
        intro y c _ hc
        obtain ⟨e, he, hc⟩ := hc
        refine .pure fun z hz c' hc' => ?_
        cases hc'
        have hreads : z.Reads (passing.tree (.atom a)) c.expected := by
          rw [hc, ← WellFormed.written_of_atom hn]
          exact hz.reads he
        have hscoped : (Tree.atom a).Scoped c.arity := fun position hp => by
          obtain rfl : Atom.param position = a := by simpa using hp
          exact absurd ⟨position, rfl⟩ hparam
        refine ⟨⟨hreads.1, ?_⟩, ?_⟩
        · rw [hreads.2]
          exact Passing.fixed_tree.mpr hfixed
        · rw [hreads.2]
          exact Passing.scoped_tree.mpr hscoped
  apply (Calm.mapM_mem (fun hq ho => ho.quiet hq) haccept).imp
  intro y definitions _ hall o ho
  obtain ⟨-, -, hown⟩ := hall o ho
  exact hown

end Resolver

/-- The definition as a candidate of the given precedence. -/
def Definition.candidate? (p : Precedence) (o : Definition) : Option Candidate :=
  match p with
  | .inherent => o.inherent?
  | .extension => o.extension?

/-- Only methods are candidates. -/
theorem Definition.eq_of_candidate? {o : Definition} {p : Precedence} {c : Candidate}
    (h : o.candidate? p = some c) : o = .method c := by
  unfold Definition.candidate? Definition.inherent? Definition.extension? at h
  grind

/-- The candidates of a precedence are the methods among the definitions with this
precedence, in the same order. -/
theorem Gathering.candidates_ofDefinitions (definitions : List Definition) (p : Precedence) :
    (Gathering.ofDefinitions definitions).candidates p =
      definitions.filterMap (Definition.candidate? p) := by
  cases p <;> rfl

/-- A gathered candidate is one of the definitions. -/
theorem Gathering.method_of_mem_candidates {definitions : List Definition} {p : Precedence}
    {c : Candidate} (h : c ∈ (Gathering.ofDefinitions definitions).candidates p) :
    .method c ∈ definitions := by
  rw [candidates_ofDefinitions] at h
  obtain ⟨o, ho, hoc⟩ := List.mem_filterMap.mp h
  exact Definition.eq_of_candidate? hoc ▸ ho

namespace Resolver

variable {r : Resolver} {s : TypeStore} {method : Symbol} {visible : List TraitId}
  {steps : List Step}

/-- **Gathering** is quiet: what the steps have by themselves, and then what the
relevant impls contribute. -/
theorem gather_run (hs : s.Sound) (hself : r.SelfFixed s)
    (hsteps : ∀ step ∈ steps, s.Expanded step.ty) (method : Symbol) (visible : List TraitId) :
    let own := (r.gatherOffers method steps).run s
    let g := (r.gather method steps visible).run s
    Quiet s own.2 ∧ Quiet own.2 g.2 ∧ (∀ o ∈ own.1, OwnIn own.2 o) ∧
      ∃ found, List.Forall₂ (r.Contributes s method visible (·.Reaches s steps) g.2)
        (r.relevantImpls own.2 steps) found ∧
        g.1 = .ofDefinitions (own.1 ++ found.filterMap id) := by
  intro own g
  have hoffers : Calm s (r.gatherOffers method steps) fun y definitions =>
      ∀ o ∈ definitions, OwnIn y o := calm_gatherOffers fun step h => (hsteps step h).1
  obtain ⟨hq, hown⟩ := hoffers s (.refl hs.ordered)
  have hfound := Calm.mapM (P := fun y id o =>
      r.Contributes s method visible (·.Reaches s steps) y id o) (fun hq h => h.quiet hq)
    (fun id (_ : id ∈ r.relevantImpls own.2 steps) => calm_gatherImpl hs hself hsteps)
  obtain ⟨hq', hall⟩ := hfound own.2 hq
  exact ⟨hq, hq', hown, _, hall, rfl⟩

/-- What a method that an impl contributes expects. -/
theorem Contributes.exists_impl {condition : Provision → Prop} {y : TypeStore} {id : ImplId}
    {c : Candidate} (h : r.Contributes s method visible condition y id (some (.method c))) :
    ∃ decl, r.db.impl? id = some decl ∧ c.arity = decl.arity ∧
      y.Reads (c.passing.tree (s.written decl.self)) c.expected := by
  unfold Contributes at h
  split at h
  · cases h
  · next v hv =>
      obtain ⟨definition, hdefines, ⟨-, heq⟩ | ⟨-, heq⟩⟩ := h
      · cases heq
        obtain ⟨e, he, hc⟩ := Provision.Defines.expects hdefines
        exact ⟨v.decl, provides?_some hv, hc ▸ rfl, hc ▸ he⟩
      · cases heq

/-- A candidate from an impl stands: what it expects is the self type of that impl in the
form in which it is passed. -/
theorem Contributes.stands (hself : r.SelfFixed s) {condition : Provision → Prop} {y : TypeStore}
    {id : ImplId} {c : Candidate}
    (h : r.Contributes s method visible condition y id (some (.method c))) : c.Stands y := by
  obtain ⟨decl, hdecl, -, hreads⟩ := h.exists_impl
  refine ⟨hreads.1, ?_⟩
  rw [hreads.2]
  exact Passing.fixed_tree.mpr (hself hdecl).2

/-- What a gathered candidate expects is written without variables; only its own
parameters occur in it where that is so of all self types. -/
theorem gather_stands (hs : s.Sound) (hself : r.SelfFixed s)
    (hsteps : ∀ step ∈ steps, s.Expanded step.ty) (method : Symbol) (visible : List TraitId) :
    let g := (r.gather method steps visible).run s
    ∀ p, ∀ c ∈ g.1.candidates p, c.Stands g.2 ∧
      ((∀ {id decl}, r.db.impl? id = some decl → (s.written decl.self).Scoped decl.arity) →
        (g.2.written c.expected).Scoped c.arity) := by
  intro g p c hc
  obtain ⟨-, hq, hown, found, hfound, hg⟩ := gather_run hs hself hsteps method visible
  rw [hg] at hc
  rcases List.mem_append.mp (Gathering.method_of_mem_candidates hc) with hmem | hmem
  · obtain ⟨hstands, hscoped⟩ := (hown _ hmem).quiet hq c rfl
    exact ⟨hstands, fun _ => hscoped⟩
  · obtain ⟨_, ho, rfl⟩ := List.mem_filterMap.mp hmem
    obtain ⟨id, -, hcontributes⟩ := exists_of_forall₂ hfound _ ho
    refine ⟨hcontributes.stands hself, fun hscoped => ?_⟩
    obtain ⟨decl, hdecl, harity, hreads⟩ := hcontributes.exists_impl
    rw [hreads.2, harity]
    exact Passing.scoped_tree.mpr (hscoped hdecl)

end Resolver

namespace Declarations

variable {d : Declarations} {settings : Settings} {bounds : Bounds} {s s' : TypeStore}

/-- In a closed program no self type contains a variable. -/
theorem Closed.selfFixed (h : d.Closed s) (hq : Quiet s s') :
    (d.resolver settings bounds).SelfFixed s' := fun hdecl => by
  obtain ⟨hhas, hfixed⟩ := h.self hdecl
  exact ⟨hq.has hhas, hq.written_eq hhas ▸ hfixed⟩

/-- In a closed program all types of impls are in the store. -/
theorem Closed.within (h : d.Closed s) (hq : Quiet s s') :
    (d.resolver settings bounds).Within s' := by
  intro id decl hdecl
  exact ⟨hq.has (h.self hdecl).1, fun c hc => hq.has (h.condition hdecl c hc)⟩

end Declarations

end DotCall
