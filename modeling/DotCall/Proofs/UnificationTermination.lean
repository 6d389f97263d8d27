import DotCall.Proofs.ReachedStores
import DotCall.Proofs.RecursionDepth

/-!
# Unification comes to an end

Unification with any limit on the depth, and the measure by which it ends.  An
equation that was linked in the meantime may have grown: the types still to be
unified are read through the new links.  But each link uses up a variable that was
not linked before.  So the measure of an equation has two parts, first the number
of variables not linked, then the height of the meaning of its left side, and
every equation that is taken up inside another one has a smaller measure
(`calls_lower`): either links were made since, or all meanings are as they were
and the equation is about arguments.
-/

namespace DotCall

/-- The variable stands for another type. -/
def Binding.isLinked : Binding → Bool
  | .linked _ => true
  | .free _ _ | .generic _ => false

namespace TypeStore

namespace Limited

/-- Compare the variable `var` with another type. -/
def compareVar (s : TypeStore) (n var : Nat) (other : TypeId) (position : Position) :
    Option Comparison := do
  if ← occurs s var n other then pure (.clash (.infinite var other))
  else match s.binding var with
    | .free _ _ => pure (.assign var other)
    | .linked target => pure (.parts [⟨target, other, position⟩])
    | .generic name => pure (.clash (.generic name other))

/-- Compare the outermost layers of two types.  Only where a variable meets another
type there is a recursion, the occurs check. -/
def compare (s : TypeStore) (n : Nat) (a b : TypeId) (position : Position) :
    Option Comparison :=
  if a = b ∨ (s.summary a).hasError ∨ (s.summary b).hasError ∨ (s.summary a).hasParam ∨
      (s.summary b).hasParam then some (s.compare a b position)
  else match s.node a, s.node b with
    | .atom (.var id), _ => compareVar s n id b position
    | _, .atom (.var id) => compareVar s n id a position
    | _, _ => some (s.compare a b position)

/-- Carry out equations in order until one fails. -/
def unifyEach (unifyOne : Equation → Work (Except Clash Unit)) :
    List Equation → Work (Except Clash Unit)
  | [] => pure (.ok ())
  | e :: rest => do
    match ← unifyOne e with
    | .ok () => unifyEach unifyOne rest
    | .error c => pure (.error c)

/-- Solve one equation. -/
def unify : Nat → Equation → Work (Except Clash Unit)
  | 0, _ => failure
  | n + 1, e => do
    if e.left = e.right then pure (.ok ())
    else
      let a ← findRoot n e.left
      let b ← findRoot n e.right
      match ← StateT.lift (compare (← get) n a b e.position) with
      | .equal => pure (.ok ())
      | .clash c => pure (.error c)
      | .assign var target => do
        Work.of (assign var (.linked target))
        pure (.ok ())
      | .parts equations => unifyEach (unify n) equations

end Limited

/-- The number of variables that are not linked. -/
def unlinked (s : TypeStore) : Nat :=
  ((Finset.range s.variableCount).filter fun id => (s.binding id).isLinked = false).card

/-- The measure of an equation: the variables not linked, then the height of the
left side. -/
def weight (s : TypeStore) (e : Equation) : Nat × Nat :=
  (s.unlinked, (s.meaning e.left).height)

/-- While `e` is worked off at `s`, the equation `e'` is taken up at `s'`: it is one
of the equations of the arguments, and those before it have been solved. -/
inductive Calls (s : TypeStore) (e : Equation) : TypeStore → Equation → Prop where
  | argument {s₁ s' : TypeStore} {e' : Equation} {before after : List Equation}
      (hne : e.left ≠ e.right) (hface : s.facing e = (.parts (before ++ e' :: after), s₁))
      (hbefore : Solving s₁ before (.ok ()) s') : Calls s e s' e'

section Measure

variable {s s' : TypeStore} {e e' : Equation}

theorem Shortens.unlinked_eq (h : Shortens s s') : s'.unlinked = s.unlinked := by
  have hlinked : ∀ id ∈ Finset.range s.variableCount,
      ((s'.binding id).isLinked = false ↔ (s.binding id).isLinked = false) := by
    intro id hid
    rcases h.keeps.binding id (Finset.mem_range.mp hid) with hb | ⟨t, hb, hb'⟩
    · rw [hb]
    · simp [hb, hb', Binding.isLinked]
  rw [unlinked, unlinked, h.count, Finset.filter_congr hlinked]

/-- Linking uses up a variable. -/
theorem Linkable.unlinked_lt {id : Nat} {u : TypeId} (h : Linkable s id u) :
    (s.assigned id (.linked u)).unlinked < s.unlinked := by
  have hfree : (s.binding id).isLinked = false := by
    cases hb : s.binding id with
    | linked t => exact absurd hb (h.free t)
    | _ => rfl
  apply Finset.card_lt_card
  refine (Finset.ssubset_iff_of_subset fun v hv => ?_).mpr ⟨id, ?_, ?_⟩
  · simp only [Finset.mem_filter, Finset.mem_range, assigned_count, h.binding_eq] at hv ⊢
    split at hv
    · simp [Binding.isLinked] at hv
    · exact hv
  · simpa using ⟨h.lt, hfree⟩
  · simp [h.binding_eq, Binding.isLinked]

/-- The equations still to come are about types of the store after a step, too. -/
theorem Shortens.poses_rest (h : Shortens s s') {rest : List Equation}
    (he : ∀ e' ∈ e :: rest, s.Poses e') : ∀ e' ∈ rest, s'.Poses e' := fun e' hmem =>
  (he e' (List.mem_cons_of_mem _ hmem)).imp h.has_iff.mpr h.has_iff.mpr

/-- A run either makes a link or only shortens links. -/
theorem Ordered.solving_cases (h : s.Ordered) {equations : List Equation}
    {r : Except Clash Unit} (hrun : Solving s equations r s') (he : ∀ e ∈ equations, s.Poses e) :
    s'.unlinked < s.unlinked ∨ Shortens s s' := by
  induction hrun with
  | done s => exact .inr (.refl s)
  | same heq tail ih => exact ih h fun e' he' => he e' (List.mem_cons_of_mem _ he')
  | @equal s s₁ s' e rest r hne hface tail ih =>
      obtain ⟨hshort, h₁, -⟩ := h.facing_spec (he e List.mem_cons_self)
      rw [hface] at hshort h₁
      have hcases := ih h₁ (hshort.poses_rest he)
      rw [hshort.unlinked_eq] at hcases
      exact hcases.imp_right fun htail => hshort.trans htail h
  | @clash s s₁ e rest c hne hface =>
      obtain ⟨hshort, -, -⟩ := h.facing_spec (he e List.mem_cons_self)
      rw [hface] at hshort
      exact .inr hshort
  | @assign s s₁ s' e rest r id t hne hface tail ih =>
      have hposed := he e List.mem_cons_self
      obtain ⟨hshort, h₁, hcmp⟩ := h.facing_spec hposed
      rw [hface] at hshort h₁ hcmp
      have ha := hshort.has_iff.mpr (h.has_root hposed.1)
      have hb := hshort.has_iff.mpr (h.has_root hposed.2)
      have hlt := (h₁.linkable_of_compared hcmp ha hb).unlinked_lt
      rw [hshort.unlinked_eq] at hlt
      rcases ih (h₁.assign_spec hcmp ha hb).1 (hshort.poses_rest he) with hlt' | htail
      · exact .inl (Nat.lt_trans hlt' hlt)
      · exact .inl (htail.unlinked_eq ▸ hlt)
  | @parts s s₁ s' e rest equations r hne hface tail ih =>
      obtain ⟨hshort, h₁, hcmp⟩ := h.facing_spec (he e List.mem_cons_self)
      rw [hface] at hshort h₁ hcmp
      have hcases := ih h₁ fun e' he' => by
        rcases List.mem_append.mp he' with he' | he'
        · exact h₁.wellFormed.poses_of_parts hcmp e' he'
        · exact hshort.poses_rest he e' he'
      rw [hshort.unlinked_eq] at hcases
      exact hcases.imp_right fun htail => hshort.trans htail h

/-- **The measure falls.**  Whatever is taken up inside an equation is again a pair
of types of a store in order, and has a smaller measure. -/
theorem Ordered.calls_lower (h : s.Ordered) (he : s.Poses e) (hc : Calls s e s' e') :
    s'.Ordered ∧ s'.Poses e' ∧ Prod.Lex (· < ·) (· < ·) (s'.weight e') (s.weight e) := by
  obtain @⟨s₁, _, _, before, after, hne, hface, hbefore⟩ := hc
  obtain ⟨hshort, h₁, hcmp⟩ := h.facing_spec he
  simp only [hface] at hshort h₁ hcmp
  have hposed := h₁.wellFormed.poses_of_parts hcmp
  have hposed' : ∀ x ∈ before, s₁.Poses x := fun x hx => hposed x (List.mem_append_left _ hx)
  have hposes : s₁.Poses e' := hposed e' (by simp)
  obtain ⟨h', hbinds⟩ := h₁.solving_binds hbefore hposed'
  refine ⟨h', hposes.imp hbinds.has_iff.mpr hbinds.has_iff.mpr, ?_⟩
  rcases h₁.solving_cases hbefore hposed' with hlt | hshort'
  · exact .left _ _ (hshort.unlinked_eq ▸ hlt)
  · -- no link was made: the meanings stay, and the left side is an argument of the left side
    have hlow : (s₁.meaning e'.left).height < (s₁.meaning e.left).height := by
      have hmem : e' ∈ before ++ e' :: after := by simp
      generalize before ++ e' :: after = equations at hcmp hmem
      cases hcmp with
      | parts _ _ _ ha _ _ =>
          have hroot : s₁.root e.left = s.root e.left := hshort.keeps.root_eq h h₁ he.1
          rw [h₁.meaning_of_app (t := e.left) (by rw [hroot, ha])]
          exact Tree.height_lt_app (List.mem_map_of_mem (mem_argEquations hmem).1)
    rw [hshort.keeps.meaning_eq h h₁ he.1] at hlow
    rw [weight, weight, hshort'.unlinked_eq, hshort.unlinked_eq,
      hshort'.keeps.meaning_eq h₁ h' hposes.1]
    exact .right _ hlow

end Measure

/-- If what an equation is replaced by is solved in a number of steps, the equation is
solved in one more. -/
theorem Leads.step {s s₁ : TypeStore} {equations equations₁ : List Equation}
    {r : Except Clash Unit × TypeStore} (h : Leads s₁ equations₁ r)
    (hstep : ∀ rest r' s', Solving s₁ (equations₁ ++ rest) r' s' →
      Solving s (equations ++ rest) r' s') : Leads s equations r := by
  obtain ⟨c | _, s'⟩ := r
  · exact fun rest => hstep rest _ _ (h rest)
  · exact fun rest r' s' tail => hstep rest _ _ (h rest r' s' tail)

/-- A run of some equations goes on with those after them, or fails before. -/
theorem Solving.leads {s s' : TypeStore} {equations : List Equation} {r : Except Clash Unit}
    (h : Solving s equations r s') : Leads s equations (r, s') := by
  induction h with
  | done s => exact fun rest r' s' tail => tail
  | same heq tail ih => exact ih.step fun rest r' s' => .same heq
  | equal hne hface tail ih => exact ih.step fun rest r' s' => .equal hne hface
  | clash hne hface => exact fun rest => .clash hne hface
  | assign hne hface tail ih => exact ih.step fun rest r' s' => .assign hne hface
  | parts hne hface tail ih =>
      exact ih.step fun rest r' s' hrun => .parts hne hface (by simpa using hrun)

namespace Ordered

variable {s : TypeStore}

/-- Comparing a variable with a type ends: it is bound, or the walk through the other type
finds it there. -/
theorem compareVar_ends (h : s.Ordered) (var : Nat) (other : TypeId) (position : Position) :
    Ends (Limited.compareVar s · var other position) (s.compareVar var other position) := by
  rw [compareVar]
  refine (h.occurs_ends var other).bind ?_
  cases s.occurs var other with
  | true => exact .of_eq fun _ => rfl
  | false => exact .of_eq fun _ => by cases s.binding var <;> rfl

/-- Comparing two roots ends, and agrees with the comparison that has no limit. -/
theorem compare_ends (h : s.Ordered) (a b : TypeId) (position : Position) :
    Ends (Limited.compare s · a b position) (s.compare a b position) := by
  unfold Limited.compare
  split
  · exact .of_eq fun _ => rfl
  · next hplain =>
      simp only [not_or, Bool.not_eq_true] at hplain
      obtain ⟨hne, ha, hb, hpa, hpb⟩ := hplain
      split
      · simpa [compare, *] using h.compareVar_ends _ b position
      · simpa [compare, *] using h.compareVar_ends _ a position
      · exact .of_eq fun _ => rfl

/-- Equal sides need no step. -/
theorem unify_ends_same {e : Equation} (heq : e.left = e.right) :
    Ends (fun n => (Limited.unify n e).run s) (.ok (), s) := by
  refine .succ (.of_eq fun n => ?_)
  rw [Limited.unify, if_pos heq]
  rfl

/-- An equation comes to an end as soon as what its outermost layers lead to does. -/
theorem unify_ends_step (h : s.Ordered) {e : Equation} (he : s.Poses e)
    (hne : e.left ≠ e.right) {r : Except Clash Unit × TypeStore}
    (hr : Ends (fun n => match (s.facing e).1 with
      | .equal => some (.ok (), (s.facing e).2)
      | .clash c => some (.error c, (s.facing e).2)
      | .assign id t => some (.ok (), (s.facing e).2.assigned id (.linked t))
      | .parts equations => (Limited.unifyEach (Limited.unify n) equations).run (s.facing e).2) r) :
    Ends (fun n => (Limited.unify n e).run s) r := by
  have hleft := h.findRoot_agrees e.left
  have hright := ((h.findRoot_run e.left).2.ordered h).findRoot_agrees e.right
  have hcompare := (h.facing_spec he).2.1.compare_ends
  simp only [facing] at hcompare hr
  refine .succ ?_
  simp only [Limited.unify, if_neg hne, StateT.run_bind]
  refine Ends.bind hleft (Ends.bind hright ?_)
  simp only [StateT.run_get, StateT.run_lift, pure_bind, bind_assoc]
  refine (hcompare _ _ _).bind ?_
  generalize TypeStore.compare _ _ _ _ = c at hr ⊢
  cases c <;> exact hr

end Ordered

/-- Equations come to an end in order when each one does after those before it. -/
theorem unifyEach_ends {s s' : TypeStore} {equations before after : List Equation}
    (hone : ∀ {before e after s'}, equations = before ++ e :: after →
      Solving s before (.ok ()) s' →
      ∃ r s'', Ends (fun n => (Limited.unify n e).run s') (r, s'') ∧ Solving s' [e] r s'')
    (heq : equations = before ++ after) (hbefore : Solving s before (.ok ()) s') :
    ∃ r s'', Ends (fun n => (Limited.unifyEach (Limited.unify n) after).run s') (r, s'') ∧
      Solving s' after r s'' := by
  induction after generalizing before s' with
  | nil => exact ⟨.ok (), s', .of_eq fun _ => rfl, .done s'⟩
  | cons e after ih =>
      obtain ⟨r, s₁, hrun, hsolving⟩ := hone heq hbefore
      have hleads := hsolving.leads
      simp only [Limited.unifyEach, StateT.run_bind]
      cases r with
      | error c => exact ⟨.error c, s₁, hrun.bind (.of_eq fun _ => rfl), hleads after⟩
      | ok _ =>
          have hnext : Solving s (before ++ [e]) (.ok ()) s₁ := hbefore.leads [e] _ _ hsolving
          obtain ⟨r, s₂, hrun', hrest⟩ := ih (by simpa using heq) hnext
          exact ⟨r, s₂, hrun.bind hrun', hleads after r s₂ hrest⟩

namespace Ordered

variable {s : TypeStore}

/-- **Unification comes to an end**, by induction on the measure. -/
theorem exists_unify_ends (h : s.Ordered) {e : Equation} (he : s.Poses e) :
    ∃ r s', Ends (fun n => (Limited.unify n e).run s) (r, s') ∧ Solving s [e] r s' := by
  induction hw : s.weight e using
      (WellFounded.prod_lex Nat.lt_wfRel.wf Nat.lt_wfRel.wf).induction generalizing s e with
  | _ w ih =>
      subst hw
      by_cases heq : e.left = e.right
      · exact ⟨_, _, unify_ends_same heq, .same heq (.done s)⟩
      have hstep := fun {r} => h.unify_ends_step he heq (r := r)
      rcases hface : s.facing e with ⟨c, s₁⟩
      simp only [hface] at hstep
      cases c with
      | equal => exact ⟨_, _, hstep (.of_eq fun _ => rfl), .equal heq hface (.done _)⟩
      | clash c => exact ⟨_, _, hstep (.of_eq fun _ => rfl), .clash heq hface⟩
      | assign id t => exact ⟨_, _, hstep (.of_eq fun _ => rfl), .assign heq hface (.done _)⟩
      | parts equations =>
          have hone : ∀ {before e' after s'}, equations = before ++ e' :: after →
              Solving s₁ before (.ok ()) s' →
              ∃ r s₂, Ends (fun n => (Limited.unify n e').run s') (r, s₂) ∧
                Solving s' [e'] r s₂ := by
            intro before e' after s' hsplit hbefore
            obtain ⟨h', he', hlow⟩ := h.calls_lower he (.argument heq (hsplit ▸ hface) hbefore)
            exact ih _ hlow h' he' rfl
          obtain ⟨r, s', hrun, hsolving⟩ :=
            unifyEach_ends hone (List.nil_append _).symm (.done s₁)
          exact ⟨r, s', hstep hrun, .parts heq hface (by simpa using hsolving)⟩

/-- **Unification ends with what the solver gives**: both solve the same equations, and
solving them is deterministic. -/
theorem unify_ends (h : s.Ordered) {e : Equation} (he : s.Poses e) :
    Ends (fun n => (Limited.unify n e).run s) ((solve e).run s) := by
  obtain ⟨r, s', hrun, hsolving⟩ := h.exists_unify_ends he
  obtain ⟨rfl, rfl⟩ := hsolving.deterministic (h.solve_solving he)
  exact hrun

/-- **The recursions of a store come to an end.**  Where links do not run in a circle,
following links with and without shortening them, expanding, looking for a
variable, printing, carrying a type into any other store and unifying any two
types each need a limited depth only, and give the value that the bounded loop
gives.  What is taken up while an equation is worked off lies below it: it has fewer
variables that are not linked, or as many and a lower left side. -/
theorem recursions_end (h : s.Ordered) :
    (∀ t, Ends (fun n => Limited.root s n t) (s.root t)) ∧
    (∀ t, Ends (fun n => (Limited.findRoot n t).run s) ((findRoot t).run s)) ∧
    (∀ t, s.Has t → Ends (fun n => (Limited.expand n t).run s) ((expand t).run s)) ∧
    (∀ var t, Ends (fun n => Limited.occurs s var n t) (s.occurs var t)) ∧
    (∀ names t, Ends (fun n => Limited.typeText s names n t) (s.typeText names t)) ∧
    (∀ t target,
      Ends (fun n => (Limited.carryFrom s n t).run target) ((carryFrom s t).run target)) ∧
    (∀ a b, s.Has a → s.Has b →
      Ends (fun n => (Limited.unify n ⟨a, b, .whole⟩).run s) ((unify a b).run s)) ∧
    ∀ e s' e', s.Poses e → Calls s e s' e' →
      s'.Ordered ∧ s'.Poses e' ∧ Prod.Lex (· < ·) (· < ·) (s'.weight e') (s.weight e) :=
  ⟨h.root_ends, h.findRoot_agrees, fun _ => h.expand_agrees, h.occurs_ends,
    h.typeText_ends, h.carryFrom_agrees, fun _ _ ha hb => h.unify_ends ⟨ha, hb⟩,
    fun _ _ _ => h.calls_lower⟩

end Ordered

/-- A store with `Pair<v, v>` and `Pair<Wrap<Wrap<u>>, Wrap<x>>`, in which `v` is linked
to another variable. -/
def paired : TypeStore :=
  [.var, .var, .unify ⟨64⟩ ⟨65⟩, .var, .nominal ⟨1⟩ [⟨66⟩], .nominal ⟨1⟩ [⟨67⟩], .var,
    .nominal ⟨1⟩ [⟨69⟩], .nominal .blank [⟨64⟩, ⟨64⟩], .nominal .blank [⟨68⟩, ⟨70⟩]].foldl
    (fun s (a : Action) => (a.perform.run s).2) new

theorem paired_reached : Reached [] paired :=
  Reached.new.acts (by cbv)

theorem facing_of_fst {s : TypeStore} {e : Equation} {c : Comparison}
    (h : (s.facing e).1 = c) : s.facing e = (c, (s.facing e).2) :=
  Prod.ext h rfl

/-- The two pairs are unified, and the recursion comes to an end.  By the first argument
`v` comes to stand for `Wrap<Wrap<u>>`, so that the second argument, which is taken up
then, is higher than the whole pair was before. -/
theorem unify_paired_ends :
    let e : Equation := ⟨⟨71⟩, ⟨72⟩, .whole⟩
    Ends (fun n => (Limited.unify n e).run paired) ((unify ⟨71⟩ ⟨72⟩).run paired) ∧
      ((unify ⟨71⟩ ⟨72⟩).run paired).1 = .ok () ∧
      ∃ s' e', Calls paired e s' e' ∧
        (paired.meaning e.left).height < (s'.meaning e'.left).height ∧
        Prod.Lex (· < ·) (· < ·) (s'.weight e') (paired.weight e) := by
  intro e
  let first : Equation := ⟨⟨64⟩, ⟨68⟩, .argument 0⟩
  let second : Equation := ⟨⟨64⟩, ⟨70⟩, .argument 1⟩
  let after := ((paired.facing e).2.facing first).2.assigned 1 (.linked ⟨68⟩)
  have hvalues : (((unify ⟨71⟩ ⟨72⟩).run paired).1, (paired.facing e).1,
      ((paired.facing e).2.facing first).1, (paired.meaning e.left).height,
      (after.meaning second.left).height, paired.size) =
    (.ok (), .parts ([first] ++ second :: []), .assign 1 ⟨68⟩, 1, 2, 73) := by cbv
  simp only [Prod.mk.injEq] at hvalues
  obtain ⟨hunified, hparts, hassign, hbefore, hafter, hsize⟩ := hvalues
  have hposes : paired.Poses e := by
    rw [Poses, TypeStore.Has, TypeStore.Has, hsize]
    decide
  obtain ⟨-, -, -, -, -, -, hunify, hcalls⟩ := paired_reached.sound.ordered.recursions_end
  have hcall : Calls paired e after second :=
    .argument (by decide) (facing_of_fst hparts)
      (.assign (by decide) (facing_of_fst hassign) (.done _))
  refine ⟨hunify _ _ hposes.1 hposes.2, hunified, after, second, hcall, ?_,
    (hcalls e _ second hposes hcall).2.2⟩
  rw [hbefore, hafter]
  decide

end TypeStore

end DotCall
