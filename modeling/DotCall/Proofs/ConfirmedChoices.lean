import DotCall.Call.Confirmation
import DotCall.Proofs.SingleImpl

/-!
# Choices are confirmed

Resolving a call looks at the expanded steps of the receiver, and confirming the
choice repeats the coercions on the receiver as it is written, with variables of
its own.  The types on both sides are variants of each other all along, so every
coercion that was found is found again, and what matched matches.

The exception are parameters that were never replaced: they are compared as they
are written.  So either the receiver has none, or the declared types mention only
parameters of their own, in which case a receiver with one matches nothing.
-/

namespace DotCall

open TypeStore DotCall.Tree

namespace Resolver

variable {r : Resolver} {s : TypeStore} {g : Gathering} {steps : List Step} {method : Symbol}
  {receiver : TypeId} {choice : Choice}

/-- A choice was made at a place where its candidate matches. -/
theorem exists_place_of_search_ok (hs : s.Ordered) (hr : r.Within s)
    (hsteps : ∀ step ∈ steps, s.Has step.ty)
    (hg : ∀ p, ∀ c ∈ g.candidates p, s.Has c.expected)
    (hok : ((r.search method receiver steps g).run s).1 = .ok choice) :
    ∃ place : Place, place.In steps ∧ choice.candidate ∈ r.matching s g place ∧
      choice.derefs = place.step.derefCount place.position ∧ choice.passing = place.passing ∧
      choice.unsizes = place.step.unsized := by
  have hcases := search_cases hs hr hsteps hg method receiver
  rw [hok] at hcases
  obtain hnone | ⟨place, hin, ⟨first, hmem, viaTrait, hchoice⟩ | ⟨several, hseveral, -⟩⟩ := hcases
  · cases hnone
  · cases hchoice
    exact ⟨place, hin, hmem, rfl, rfl, rfl⟩
  · cases hseveral

end Resolver

/-- A type of `x` that stands for the given tree when coercions are repeated: a
variant of it, with its parameters, if these matter, in plain sight. -/
structure Repeats (d : Declarations) (s x : TypeStore) (tree : Tree) (q : TypeId) : Prop where
  has : x.Has q
  plain : d.Scoped s ∨ x.Plain q
  variant : tree.Variant (x.meaning q)

section Repeating

variable {d : Declarations} (settings : Settings) (bounds : Bounds) {s x y : TypeStore}
  {tree next : Tree} {q : TypeId}

theorem exists_of_rel_some {o : Option TypeId} {val : TypeId → Tree}
    (h : Option.Rel Variant (some tree) (o.map val)) : ∃ u, o = some u ∧ tree.Variant (val u) := by
  cases o with
  | none => cases h
  | some u =>
      cases h with
      | some hv => exact ⟨u, rfl, hv⟩

/-- A run that repeats another still does after the receiver is followed to a type with
the same meaning up to links. -/
theorem Repeats.follow {u : TypeId} (h : Repeats d s x tree q) (hu : Follows x y q u)
    (hv : next.Variant (y.meaning u)) : Repeats d s y next u :=
  ⟨hu.has, h.plain.imp_right hu.plain, hv⟩

/-- A dereference that was found is found again. -/
theorem Repeats.deref (hs : s.Sound) (hd : d.Closed s) (hx : Quiet s x)
    (h : Repeats d s x tree q) (hnext : d.DerefsTo s tree (some next)) :
    let r := (d.deref? q).run x
    Quiet x r.2 ∧ ∃ q', r.1 = some q' ∧ Repeats d s r.2 next q' := by
  intro r
  obtain ⟨hq, hderefs, hfollows⟩ := Declarations.deref?_run hs hd hx h.has h.plain
  obtain ⟨u, hu, hv⟩ := exists_of_rel_some (hnext.variant hderefs hd h.variant)
  exact ⟨hq, u, hu, h.follow (hfollows u hu) hv⟩

/-- An unsizing that was found is found again. -/
theorem Repeats.unsize (hs : s.Sound) (hd : d.Closed s) (hx : Quiet s x)
    (h : Repeats d s x tree q) (hnext : d.UnsizesTo s tree (some next)) :
    let r := (d.unsize? q).run x
    Quiet x r.2 ∧ ∃ q', r.1 = some q' ∧ Repeats d s r.2 next q' := by
  intro r
  obtain ⟨hq, hunsizes, hfollows⟩ := Declarations.unsize?_run hs hd hx h.has h.plain
  obtain ⟨u, hu, hv⟩ := exists_of_rel_some (hnext.variant hunsizes hd h.variant)
  exact ⟨hq, u, hu, h.follow (hfollows u hu) hv⟩

/-- **Dereferencing again** leads along the chain. -/
theorem Repeats.derefTimes (hs : s.Sound) (hd : d.Closed s) {first p : TypeId}
    {rest : List TypeId} (hchain : Chain d s y (first :: rest)) {i : Nat}
    (hp : (first :: rest)[i]? = some p) (hx : Quiet s x) (h : Repeats d s x (y.meaning first) q) :
    let r := ((d.resolver settings bounds).derefTimes i q).run x
    Quiet x r.2 ∧ ∃ q', r.1 = .ok q' ∧ Repeats d s r.2 (y.meaning p) q' := by
  induction i generalizing first rest x q with
  | zero =>
      obtain rfl : first = p := by simpa using hp
      exact ⟨.refl hx.finish, q, rfl, h⟩
  | succ i ih =>
      cases hchain with
      | last => simp at hp
      | @next _ u rest _ leads tail =>
          intro r
          obtain ⟨hq, q', hq', hrepeats⟩ := h.deref hs hd hx leads
          obtain ⟨z, hz⟩ : ∃ z, (d.deref? q).run x = z := ⟨_, rfl⟩
          rw [hz] at hq hq' hrepeats
          have hcoerce : ((d.resolver settings bounds).coercions.deref? q).run x = z := hz
          have hrun : r = ((d.resolver settings bounds).derefTimes i q').run z.2 := by
            simp only [r, Resolver.derefTimes, run_bind, hcoerce, hq']
          obtain ⟨hq₁, hrest⟩ := ih tail (by simpa using hp) (hx.trans hq) hrepeats
          rw [hrun]
          exact ⟨hq.trans hq₁, hrest⟩

theorem Repeats.unsizeIf_true (hs : s.Sound) (hd : d.Closed s) (hx : Quiet s x)
    (h : Repeats d s x tree q) (hnext : d.UnsizesTo s tree (some next)) :
    let r := ((d.resolver settings bounds).unsizeIf true q).run x
    Quiet x r.2 ∧ ∃ q', r.1 = .ok q' ∧ Repeats d s r.2 next q' := by
  intro r
  obtain ⟨hq, q', hq', hrepeats⟩ := h.unsize hs hd hx hnext
  obtain ⟨z, hz⟩ : ∃ z, (d.unsize? q).run x = z := ⟨_, rfl⟩
  rw [hz] at hq hq' hrepeats
  have hcoerce : ((d.resolver settings bounds).coercions.unsize? q).run x = z := hz
  have hrun : r = (.ok q', z.2) := by
    simp only [r, Resolver.unsizeIf, if_true, run_bind, hcoerce, hq', run_pure]
  rw [hrun]
  exact ⟨hq, q', rfl, hrepeats⟩

/-- A step of the receiver: one of the chain, or the unsized last one. -/
theorem Stepping.step_cases {first : TypeId} {chain : List TypeId} {last? : Option TypeId}
    (h : Stepping d s y first chain last?) {position : Nat} {step : Step}
    (hstep : (Stepping.steps chain last?)[position]? = some step) :
    (step.unsized = false ∧ chain[position]? = some step.ty) ∨
      step.unsized = true ∧ ∃ last, chain[position - 1]? = some last ∧
        d.UnsizesTo s (y.meaning last) (some (y.meaning step.ty)) := by
  unfold Stepping.steps at hstep
  by_cases hlt : position < chain.length
  · rw [List.getElem?_append_left (by simpa using hlt), List.getElem?_map] at hstep
    obtain ⟨t, ht, rfl⟩ := Option.map_eq_some_iff.mp hstep
    exact .inl ⟨rfl, ht⟩
  · rw [List.getElem?_append_right (by simpa using hlt), List.length_map] at hstep
    cases last? with
    | none => simp at hstep
    | some u =>
        have hposition : position = chain.length := by
          obtain ⟨hle, -⟩ := List.getElem?_eq_some_iff.mp hstep
          simp at hle
          omega
        subst hposition
        obtain rfl : Step.mk u true = step := by simpa using hstep
        obtain ⟨last, hlast, -, hunsizes⟩ := h.exists_last
        rw [List.getLast?_eq_getElem?] at hlast
        exact .inr ⟨rfl, last, hlast, hunsizes⟩

/-- **The adjustments of a choice are repeated**: the receiver is brought to a
variant of the type that was tried. -/
theorem adjust_run (hs : s.Sound) (hd : d.Closed s) {first : TypeId} {chain : List TypeId}
    {last? : Option TypeId} (hsteps : Stepping d s y first chain last?) {place : Place}
    (hin : place.In (Stepping.steps chain last?)) {choice : Choice}
    (hderefs : choice.derefs = place.step.derefCount place.position)
    (hpassing : choice.passing = place.passing) (hunsizes : choice.unsizes = place.step.unsized)
    (hx : Quiet s x) {receiver : TypeId} (hreceiver : x.Has receiver)
    (hplain : d.Scoped s ∨ x.Plain receiver) (hfirst : y.meaning first = x.meaning receiver) :
    let r := ((d.resolver settings bounds).adjust receiver choice).run x
    Quiet x r.2 ∧ ∃ t, r.1 = .ok t ∧
      Repeats d s r.2 (place.passing.tree (y.meaning place.step.ty)) t := by
  intro r
  obtain ⟨rest, rfl⟩ := hsteps.starts
  obtain ⟨hroot, hq⟩ := hx.finish.findRoot_quiet receiver
  obtain ⟨x₁, hx₁⟩ : ∃ x₁, (findRoot receiver).run x = x₁ := ⟨_, rfl⟩
  rw [hx₁] at hroot hq
  have hhas : x.Has (x.root receiver) := hx.finish.has_root hreceiver
  have hstart : Repeats d s x₁.2 (y.meaning first) (x.root receiver) := by
    refine ⟨hq.has hhas, hplain.imp_right fun h => (hx.finish.plain_root h).quiet hhas hq, ?_⟩
    rw [hq.meaning_eq hhas, hx.finish.meaning_root, hfirst]
    exact .refl _
  have hcoerced : ∃ q₁ x₂ q₂ x₃,
      ((d.resolver settings bounds).derefTimes choice.derefs (x.root receiver)).run x₁.2 =
        (.ok q₁, x₂) ∧
      ((d.resolver settings bounds).unsizeIf choice.unsizes q₁).run x₂ = (.ok q₂, x₃) ∧
      Quiet x₁.2 x₃ ∧ Repeats d s x₃ (y.meaning place.step.ty) q₂ := by
    rcases hsteps.step_cases hin with ⟨hsized, hget⟩ | ⟨hsized, last, hget, hunsize⟩
    · have hcount : choice.derefs = place.position := by
        rw [hderefs, Step.derefCount, hsized]
        rfl
      rw [hcount, hunsizes, hsized]
      obtain ⟨hq₁, q₁, hok, hrepeats⟩ :=
        hstart.derefTimes settings bounds hs hd hsteps.links hget (hx.trans hq)
      exact ⟨q₁, _, q₁, _, Prod.ext hok rfl, rfl, hq₁, hrepeats⟩
    · have hcount : choice.derefs = place.position - 1 := by
        rw [hderefs, Step.derefCount, hsized]
        rfl
      rw [hcount, hunsizes, hsized]
      obtain ⟨hq₁, q₁, hok, hrepeats⟩ :=
        hstart.derefTimes settings bounds hs hd hsteps.links hget (hx.trans hq)
      obtain ⟨hq₂, q₂, hok', hrepeats'⟩ :=
        hrepeats.unsizeIf_true settings bounds hs hd (hx.trans (hq.trans hq₁)) hunsize
      exact ⟨q₁, _, q₂, _, Prod.ext hok rfl, Prod.ext hok' rfl, hq₁.trans hq₂, hrepeats'⟩
  obtain ⟨q₁, x₂, q₂, x₃, hderef, hunsize, hq', hrepeats⟩ := hcoerced
  obtain ⟨hq₃, hmeaning, hfollows⟩ := hq'.finish.form_run choice.passing hrepeats.has
  obtain ⟨t, ht⟩ : ∃ t, (choice.passing.form q₂).run x₃ = t := ⟨_, rfl⟩
  rw [ht] at hq₃ hmeaning hfollows
  have hrun : r = (.ok t.1, t.2) := by
    simp only [r, Resolver.adjust, run_bind, hx₁, hroot, hderef, hunsize, ht, run_pure]
  rw [hrun]
  refine ⟨hq.trans (hq'.trans hq₃), t.1, rfl, hrepeats.follow hfollows ?_⟩
  rw [hmeaning, ← hpassing]
  exact Passing.tree_variant hrepeats.variant _

end Repeating

/-- A checkpoint does not matter to what unifies. -/
theorem TypeStore.Sound.unify_opened_iff {s : TypeStore} (h : s.Sound) {a b : TypeId}
    (ha : s.Has a) (hb : s.Has b) :
    ((unify a b).run s.opened).1 = .ok () ↔ ((unify a b).run s).1 = .ok () := by
  rw [h.unify_ok_iff_cases ha hb, h.opened.unify_ok_iff_cases (a := a) (b := b) ha hb]
  simp only [opened_meaning, opened_root]

/-- What an attempt returns does not depend on whether its bindings are kept. -/
theorem ifSuccessful_fst {ε α : Type} (act : StateM TypeStore (Except ε α)) (s : TypeStore) :
    ((ifSuccessful act).run s).1 = (act.run s.opened).1 := by
  have hopened : (checkpoint.run s).2 = s.opened := rfl
  simp only [ifSuccessful, run_bind, hopened]
  cases (act.run s.opened).1 <;> rfl

namespace Candidate

variable {c : Candidate} {x : TypeStore} {t : TypeId}

/-- What an instance of the candidate is, and how it is made. -/
theorem freshInstance_run (hx : x.Ordered) (hc : x.Has c.expected) :
    ∃ e vars y, (c.freshInstance).run x = ((e, vars), y) ∧
      Instantiates x y (x.written c.expected) c.arity vars e := by
  have hi := hx.instantiates_run hc c.arity
  refine ⟨_, _, _, ?_, hi⟩
  simp only [freshInstance, run_bind, run_pure]

section Matching

variable (hs : x.Sound) (hc : c.Stands x) (ht : x.Has t)
  (hplain : (x.written c.expected).Scoped c.arity ∨ x.Plain t)
  (hmatch : (x.written c.expected).Matches c.arity (x.meaning t))

include hs hc ht hplain hmatch

theorem check_ok : ((c.check t).run x).1 = .ok [] := by
  obtain ⟨-, -, -, -, hiff, -⟩ := hs.unify_instance hc.has hc.fixed ht hplain
  obtain ⟨args, hargs⟩ : ∃ args, (newVars c.arity).run x.opened = args := ⟨_, rfl⟩
  obtain ⟨e, he⟩ : ∃ e, (instantiate c.expected args.1).run args.2 = e := ⟨_, rfl⟩
  simp only [hargs, he] at hiff
  have hinstance : (c.freshInstance).run x.opened = ((e.1, args.1), e.2) := by
    simp only [freshInstance, run_bind, hargs, he, run_pure]
  unfold check
  rw [tentatively_fst]
  simp only [run_bind, hinstance, hiff.mpr hmatch, run_pure]
  rfl

theorem commit_ok : ∃ args, ((c.commit t).run x).1 = .ok args := by
  obtain ⟨e, args, y, hinstance, hi⟩ := freshInstance_run hs.ordered hc.has
  have hok : ((ifSuccessful (unify e t)).run y).1 = .ok () := by
    rw [ifSuccessful_fst, (hs.quiet hi.quiet).unify_opened_iff hi.reads.1 (hi.quiet.has ht)]
    exact (hi.unify_ok_iff hs hc.fixed ht hplain).mpr hmatch
  have hrun : (c.commit t).run x = (do
      let args ← args.mapM expand
      pure (.ok args) : StateM TypeStore (Except Clash (List TypeId))).run
        ((ifSuccessful (unify e t)).run y).2 := by
    unfold commit
    rw [run_bind, hinstance]
    simp only [run_bind, hok]
  rw [hrun]
  exact ⟨_, rfl⟩

end Matching

/-- A candidate that expects a type with a parameter that is not its own clashes with
every other compound type. -/
theorem commit_clash (hs : x.Sound) (hc : c.Stands x) (harity : c.arity = 0)
    (hparam : (x.written c.expected).HasParam) (herror : ¬ (x.written c.expected).HasError)
    (ht : x.Has t) {f : Former} {parts : List TypeId} (hn : x.node t = .app f parts)
    (herror' : ¬ (x.meaning t).HasError) (hne : t ≠ c.expected) :
    ∃ clash, ((c.commit t).run x).1 = .error clash := by
  obtain ⟨e, args, y, hinstance, hi⟩ := freshInstance_run hs.ordered hc.has
  have hsound := hs.quiet hi.quiet
  have hwritten := hi.quiet.written_eq hc.has
  have hsame : e = c.expected := by
    refine hsound.wellFormed.written_injective hi.reads.1 (hi.quiet.has hc.has) ?_
    rw [hi.reads.2, harity, Bare.withVars_eq (fun _ _ => Nat.zero_le _), hwritten]
  have hfixed : (y.written e).Fixed := by
    rw [hsame, hwritten]
    exact hc.fixed
  have hmeaning : y.meaning e = x.written c.expected := by
    rw [hsound.ordered.meaning_eq_written fun id hid => absurd hid (hfixed id), hsame, hwritten]
  have hroot : y.root e = e := by
    refine root_of_no_link (link?_eq_none.mpr fun id u hnode _ => ?_)
    exact hfixed id (by simp [WellFormed.written_of_atom hnode])
  have hrootT : y.root t = t :=
    root_of_no_link (link?_of_app ((hi.quiet.node_eq ht).trans hn))
  have hnot : ((unify e t).run y).1 ≠ .ok () := by
    rw [ne_eq, hsound.unify_ok_iff_cases hi.reads.1 (hi.quiet.has ht), hmeaning,
      hi.quiet.meaning_eq ht, hroot, hrootT, hsame]
    intro hcase
    rcases hcase with h | h | h | ⟨h, -, -⟩
    · exact herror h
    · exact herror' h
    · exact hne h.symm
    · exact (proper_iff.mp h).2 hparam
  rw [ne_eq, ← hsound.unify_opened_iff hi.reads.1 (hi.quiet.has ht), ← ifSuccessful_fst] at hnot
  obtain ⟨z, hz⟩ : ∃ z, (ifSuccessful (unify e t)).run y = z := ⟨_, rfl⟩
  rw [hz] at hnot
  cases hclash : z.1 with
  | ok u => exact absurd hclash hnot
  | error clash =>
      refine ⟨clash, ?_⟩
      unfold commit
      rw [run_bind, hinstance]
      simp only [run_bind, hz, hclash, run_pure]

end Candidate

namespace Declarations

variable {d : Declarations} {settings : Settings} {bounds : Bounds} {s s' : TypeStore}
  {receiver : TypeId} {method : Symbol} {visible : List TraitId} {choice : Choice}

/-- What a choice rests on: the candidate matches a form of a step of the receiver,
and the choice says how to get there. -/
structure Chosen (d : Declarations) (s s' : TypeStore) (receiver : TypeId) (choice : Choice)
    (first : TypeId) (chain : List TypeId) (last? : Option TypeId) (place : Place) : Prop where
  quiet : Quiet s s'
  steps : Stepping d s s' first chain last?
  starts : s'.meaning first = s.meaning receiver
  inSteps : place.In (Stepping.steps chain last?)
  derefs : choice.derefs = place.step.derefCount place.position
  passing : choice.passing = place.passing
  unsizes : choice.unsizes = place.step.unsized
  stands : choice.candidate.Stands s'
  ownParams : d.Scoped s → (s'.written choice.candidate.expected).Scoped choice.candidate.arity
  accepts : (s'.written choice.candidate.expected).Matches choice.candidate.arity
    (place.passing.tree (s'.meaning place.step.ty))

/-- A call that is resolved has steps, and the search among what is gathered for
them finds the choice. -/
theorem resolve_ok_inv {r : Resolver}
    (hok : (r.resolve receiver method visible).run s = (.ok choice, s')) :
    let root := (findRoot receiver).run s
    ∃ steps, ((r.stepsOf root.1).run root.2).1 = .ok steps ∧
      let g := (r.gather method steps visible).run ((r.stepsOf root.1).run root.2).2
      (r.search method root.1 steps g.1).run g.2 = (.ok choice, s') := by
  intro root
  obtain ⟨x, hx⟩ : ∃ x, (r.stepsOf root.1).run root.2 = x := ⟨_, rfl⟩
  have hroot : (findRoot receiver).run s = root := rfl
  by_cases herror : root.1 = .error
  · simp only [Resolver.resolve, run_bind, hroot, herror, if_true, run_pure] at hok
    cases hok
  cases hsteps : x.1 with
  | error failure =>
      simp only [Resolver.resolve, run_bind, hroot, herror, if_false, hx, hsteps, run_pure] at hok
      cases hok
  | ok steps =>
      obtain ⟨g, hg⟩ : ∃ g, (r.gather method steps visible).run x.2 = g := ⟨_, rfl⟩
      obtain ⟨z, hz⟩ : ∃ z, (r.search method root.1 steps g.1).run g.2 = z := ⟨_, rfl⟩
      simp only [Resolver.resolve, run_bind, hroot, herror, if_false, hx, hsteps, hg, hz] at hok
      refine ⟨steps, by rw [hx, hsteps], ?_⟩
      simp only [hx, hg, hz]
      split at hok
      · cases hok
      · exact hok

/-- **What a resolved call rests on.** -/
theorem chosen_of_resolve_ok (hs : s.Sound) (hd : d.Closed s) (ht : s.Has receiver)
    (hok : ((d.resolver settings bounds).resolve receiver method visible).run s = (.ok choice, s')) :
    ∃ first chain last? place, Chosen d s s' receiver choice first chain last? place := by
  let r := d.resolver settings bounds
  obtain ⟨hroot, hq₁⟩ := hs.ordered.findRoot_quiet receiver
  have hhas : s.Has (s.root receiver) := hs.ordered.has_root ht
  obtain ⟨steps, hsteps, hsearch⟩ := resolve_ok_inv hok
  obtain ⟨x₁, hx₁⟩ : ∃ x₁, (findRoot receiver).run s = x₁ := ⟨_, rfl⟩
  rw [hx₁] at hroot hq₁ hsteps hsearch
  obtain ⟨hq₂, hstepping⟩ := Resolver.stepsOf_run settings bounds hs hd hq₁ (hq₁.has hhas)
  rw [hroot] at hsteps hsearch
  obtain ⟨x₂, hx₂⟩ : ∃ x₂, (r.stepsOf (s.root receiver)).run x₁.2 = x₂ := ⟨_, rfl⟩
  rw [hx₂] at hq₂ hsteps hsearch hstepping
  obtain ⟨first, chain, last?, rfl, hstepping, hfirst⟩ := hstepping steps hsteps
  have hqs₂ : Quiet s x₂.2 := hq₁.trans hq₂
  have hself : r.SelfFixed x₂.2 := hd.selfFixed hqs₂
  obtain ⟨hqo, hqg, -⟩ := Resolver.gather_run (hs.quiet hqs₂) hself hstepping.all_expanded
    method visible
  have hstands := Resolver.gather_stands (hs.quiet hqs₂) hself hstepping.all_expanded
    method visible
  have hq₃ := hqo.trans hqg
  obtain ⟨g, hg⟩ : ∃ g, (r.gather method (Stepping.steps chain last?) visible).run x₂.2 = g :=
    ⟨_, rfl⟩
  rw [hg] at hsearch hstands hq₃
  have hqg : Quiet s g.2 := hqs₂.trans hq₃
  have hstepping₃ := hstepping.quiet hq₃
  have hhasSteps : ∀ step ∈ Stepping.steps chain last?, g.2.Has step.ty := fun step h =>
    (hstepping₃.all_expanded step h).1
  have hhasCandidates : ∀ p, ∀ c ∈ g.1.candidates p, g.2.Has c.expected := fun p c hc =>
    (hstands p c hc).1.has
  have hwithin : r.Within g.2 := hd.within hqg
  obtain ⟨hq₄, -⟩ := Resolver.calm_search hwithin hhasSteps hhasCandidates method (s.root receiver)
    g.2 (.refl hqg.finish)
  obtain ⟨place, hin, hmem, hderefs, hpassing, hunsizes⟩ := Resolver.exists_place_of_search_ok
    hqg.finish hwithin hhasSteps hhasCandidates (congrArg Prod.fst hsearch)
  rw [hsearch] at hq₄
  obtain ⟨hcandidate, haccepts⟩ := List.mem_filter.mp hmem
  obtain ⟨hc, hown⟩ := hstands _ _ hcandidate
  have hplace : place.step ∈ Stepping.steps chain last? := List.mem_of_getElem? hin
  have hexpanded := hstepping₃.all_expanded _ hplace
  have hmatch := (Resolver.acceptsAlone_iff (hs.quiet hqg) hc hexpanded _).1 haccepts
  refine ⟨first, chain, last?, place, hqg.trans hq₄, hstepping₃.quiet hq₄, ?_, hin, hderefs,
    hpassing, hunsizes, hc.quiet hq₄, fun hscoped => ?_, ?_⟩
  · obtain ⟨rest, rfl⟩ := hstepping.starts
    have hfirstExpanded := hstepping.links.all_expanded first List.mem_cons_self
    rw [(hq₃.trans hq₄).meaning_eq hfirstExpanded.1, hfirst, hq₁.meaning_eq hhas,
      hs.ordered.meaning_root]
  · rw [hq₄.written_eq hc.has]
    refine hown fun hdecl => ?_
    rw [hqs₂.written_eq (hd.self hdecl).1]
    exact hscoped.self hdecl
  · rw [hq₄.written_eq hc.has, hq₄.meaning_eq hexpanded.1]
    exact hmatch

/-- What a chosen candidate expects unifies with the adjusted receiver again. -/
theorem Chosen.adjusted_matches {first : TypeId} {chain : List TypeId} {last? : Option TypeId}
    {place : Place} (h : Chosen d s s' receiver choice first chain last? place) {x : TypeStore}
    (hx : Quiet s' x) {t : TypeId}
    (ht : Repeats d s x (place.passing.tree (s'.meaning place.step.ty)) t) :
    choice.candidate.Stands x ∧
      ((x.written choice.candidate.expected).Scoped choice.candidate.arity ∨ x.Plain t) ∧
      (x.written choice.candidate.expected).Matches choice.candidate.arity (x.meaning t) := by
  have hstands := h.stands.quiet hx
  have hwritten := hx.written_eq h.stands.has
  refine ⟨hstands, ht.plain.imp_left fun hd => hwritten ▸ h.ownParams hd, ?_⟩
  rw [hwritten]
  exact ht.variant.matching h.stands.fixed h.accepts

/-- A choice is confirmed when its candidate accepts the adjusted receiver, be it
for good or not. -/
theorem confirm_of_adjusted {r : Resolver} {x : TypeStore} {t : TypeId}
    (hx : (r.adjust receiver choice).run s = (.ok t, x))
    (hcheck : ∃ args, ((choice.candidate.check t).run x).1 = .ok args)
    (hcommit : ∃ args, ((choice.candidate.commit t).run x).1 = .ok args) :
    ∃ call, ((r.confirm receiver choice).run s).1 = .ok call ∧
      call.adjustments = choice.adjustments ∧ call.callee = choice.callee := by
  cases hvia : choice.viaTrait with
  | true =>
      obtain ⟨args, hargs⟩ := hcheck
      obtain ⟨z, hz⟩ : ∃ z, (choice.candidate.check t).run x = z := ⟨_, rfl⟩
      rw [hz] at hargs
      refine ⟨⟨choice.adjustments, choice.callee, ((expand t).run z.2).1, args⟩, ?_, rfl, rfl⟩
      simp only [Resolver.confirm, run_bind, hx, hvia, if_true, hz, hargs, run_pure]
  | false =>
      obtain ⟨args, hargs⟩ := hcommit
      obtain ⟨z, hz⟩ : ∃ z, (choice.candidate.commit t).run x = z := ⟨_, rfl⟩
      rw [hz] at hargs
      refine ⟨⟨choice.adjustments, choice.callee, ((expand t).run z.2).1, args⟩, ?_, rfl, rfl⟩
      simp only [Resolver.confirm, run_bind, hx, hvia, Bool.false_eq_true, if_false, hz, hargs,
        run_pure]

/-- **What is resolved is confirmed.**  In every reached store, with declared types
in which no variable is written: when a call is resolved, confirming the choice
right after it succeeds, with the adjustments and the callee of the choice.  Either
the declared types mention only parameters of their own, or a receiver in which a
parameter occurs is written as it is meant. -/
theorem confirm_resolved {checkpoints : List Checkpoint} (h : Reached checkpoints s)
    (hd : d.Closed s) (ht : s.Has receiver) (hparams : d.Scoped s ∨ s.Plain receiver)
    (hok : ((d.resolver settings bounds).resolve receiver method visible).run s = (.ok choice, s')) :
    ∃ call, (((d.resolver settings bounds).confirm receiver choice).run s').1 = .ok call ∧
      call.adjustments = choice.adjustments ∧ call.callee = choice.callee := by
  have hs := h.sound
  obtain ⟨first, chain, last?, place, hchosen⟩ := chosen_of_resolve_ok hs hd ht hok
  have hq := hchosen.quiet
  obtain ⟨hqa, t, hadjust, hrepeats⟩ := adjust_run settings bounds hs hd hchosen.steps
    hchosen.inSteps hchosen.derefs hchosen.passing hchosen.unsizes hq (hq.has ht)
    (hparams.imp_right fun hp => hp.quiet ht hq) (by rw [hchosen.starts, hq.meaning_eq ht])
  obtain ⟨hstands, hplain, hmatch⟩ := hchosen.adjusted_matches hqa hrepeats
  have hsound := hs.quiet (hq.trans hqa)
  apply confirm_of_adjusted (Prod.ext hadjust rfl)
  · exact ⟨[], Candidate.check_ok hsound hstands hrepeats.has hplain hmatch⟩
  · exact Candidate.commit_ok hsound hstands hrepeats.has hplain hmatch

end Declarations

namespace Declarations

section Single

variable {s : TypeStore} {self receiver : TypeId} {name : Symbol} {parts : List Tree}

/-- **Where confirming fails.**  A receiver that means the self type of the one impl
is resolved.  But a type with a parameter only unifies with itself, so confirming
fails where the receiver is written in another way. -/
theorem confirm_single_clash (settings : Settings) (bounds : Bounds) (method : Symbol)
    (hs : s.Sound) (hself : s.Has self) (hfixed : (s.written self).Fixed)
    (ht : s.Has receiver) (herror : s.root receiver ≠ .error)
    (hmeaning : s.meaning receiver = s.written self)
    (hnominal : s.written self = .app (.nominal name) parts) (hparam : (s.written self).HasParam)
    (hproper : ¬ (s.written self).HasError) {f : Former} {args : List TypeId}
    (hn : s.node receiver = .app f args) (hne : s.written receiver ≠ s.written self)
    (visible : List TraitId) :
    let r := (single s self method).resolver settings bounds
    ∃ choice s', (r.resolve receiver method visible).run s = (.ok choice, s') ∧
      ∃ clash, ((r.confirm receiver choice).run s').1 = .error (.clash clash) := by
  intro r
  obtain ⟨e, s', hresolve, hq, he⟩ := resolve_single settings bounds method hs hself hfixed ht herror
    hmeaning hnominal visible
  refine ⟨_, s', hresolve, ?_⟩
  obtain ⟨hroot, hq'⟩ := hq.finish.findRoot_quiet receiver
  obtain ⟨x, hx⟩ : ∃ x, (findRoot receiver).run s' = x := ⟨_, rfl⟩
  rw [hx] at hroot hq'
  rw [root_of_no_link (link?_of_app ((hq.node_eq ht).trans hn))] at hroot
  have hqx := hq.trans hq'
  have hex := hq'.reads he
  have hother : receiver ≠ e := by
    rintro rfl
    exact hne ((hqx.written_eq ht).symm.trans hex.2)
  obtain ⟨c, hc⟩ : ∃ c : Candidate, ⟨.impl ⟨0⟩, .inherent, method, .byValue, self, 0, e⟩ = c :=
    ⟨_, rfl⟩
  have hexpected : c.expected = e := by rw [← hc]
  obtain ⟨clash, hclash⟩ : ∃ clash, ((c.commit receiver).run x.2).1 = .error clash := by
    refine Candidate.commit_clash (hs.quiet hqx) ?_ (by rw [← hc]) ?_ ?_ (hqx.has ht)
      ((hqx.node_eq ht).trans hn) ?_ (hexpected ▸ hother)
    · exact ⟨hexpected ▸ hex.1, by rw [hexpected, hex.2]; exact hfixed⟩
    · rwa [hexpected, hex.2]
    · rwa [hexpected, hex.2]
    · rwa [hqx.meaning_eq ht, hmeaning]
  obtain ⟨z, hz⟩ : ∃ z, (c.commit receiver).run x.2 = z := ⟨_, rfl⟩
  rw [hz] at hclash
  refine ⟨clash, ?_⟩
  rw [hc]
  simp only [Resolver.confirm, Resolver.adjust, run_bind, hx, hroot, Resolver.derefTimes,
    Resolver.unsizeIf, Passing.form, run_pure, Bool.false_eq_true, if_false, hz, hclash]

end Single

end Declarations

/-- A type `Foo<i32, P>` with a parameter `P`, and `Foo<v, P>` with a variable `v` that
is unified with `i32`. -/
def linkedBesideParam : StateM TypeStore (TypeId × TypeId) := do
  let p ← paramAt 0
  let self ← nominalType .blank [.ofPrimitive .i32, p]
  let v ← newVar
  let receiver ← nominalType .blank [v, p]
  let _ ← unify v (.ofPrimitive .i32)
  pure (self, receiver)

theorem linkedBesideParam_run :
    let r := linkedBesideParam.run new
    Reached [] r.2 ∧ r.2.Has r.1.1 ∧ r.2.Has r.1.2 ∧
      r.2.written r.1.1 = .app (.nominal .blank) [.atom (.prim .i32), .atom (.param 0)] ∧
      (∃ v p, r.2.node r.1.2 = .app (.nominal .blank) [v, p] ∧
        r.2.written v ≠ .atom (.prim .i32)) ∧
      r.2.meaning r.1.2 = .app (.nominal .blank) [.atom (.prim .i32), .atom (.param 0)] ∧
      r.2.node .error = .atom (.prim .error) := by
  intro r
  obtain ⟨p, hp⟩ : ∃ p, (paramAt 0).run new = p := ⟨_, rfl⟩
  obtain ⟨self, hself⟩ : ∃ self, (nominalType .blank [.ofPrimitive .i32, p.1]).run p.2 = self :=
    ⟨_, rfl⟩
  obtain ⟨v, hv⟩ : ∃ v, newVar.run self.2 = v := ⟨_, rfl⟩
  obtain ⟨receiver, hreceiver⟩ : ∃ receiver, (nominalType .blank [v.1, p.1]).run v.2 = receiver :=
    ⟨_, rfl⟩
  obtain ⟨u, hu⟩ : ∃ u, (unify v.1 (.ofPrimitive .i32)).run receiver.2 = u := ⟨_, rfl⟩
  have hrun : r = ((self.1, receiver.1), u.2) := by
    simp only [r, linkedBesideParam, run_bind, hp, hself, hv, hreceiver, hu, run_pure]
  -- The parameter, and `Foo<i32, P>`.
  obtain ⟨hreached₁, -, hhasp, hnodep⟩ := Reached.new.paramAt_run 0
  rw [hp] at hreached₁ hhasp hnodep
  have hi32 := (hreached₁.node_primitive .i32).1
  have hargs₂ : ∀ a ∈ [.ofPrimitive .i32, p.1], p.2.Has a := by simp [hi32, hhasp]
  obtain ⟨hreached₂, hq₂, -, hhasSelf, hnodeSelf⟩ := hreached₁.nominalType_run .blank hargs₂
  rw [hself] at hreached₂ hq₂ hhasSelf hnodeSelf
  -- The variable, and `Foo<v, P>`.
  have hreached₃ : Reached [] v.2 := hv ▸ Reached.act .var hreached₂ (by simp [Action.types])
  obtain ⟨hq₃, hvar⟩ := hreached₂.sound.ordered.newVar_run
  rw [hv] at hq₃ hvar
  have hargs₄ : ∀ a ∈ [v.1, p.1], v.2.Has a := by simp [hvar.has, (hq₂.trans hq₃).has hhasp]
  obtain ⟨hreached₄, hq₄, hadds₄, hhasReceiver, hnodeReceiver⟩ :=
    hreached₃.nominalType_run .blank hargs₄
  rw [hreceiver] at hreached₄ hq₄ hadds₄ hhasReceiver hnodeReceiver
  -- Unifying the variable with `i32`.
  have hs₄ := hreached₄.sound
  have hq := hq₂.trans (hq₃.trans hq₄)
  have hhasv := hq₄.has hvar.has
  have hnodev : receiver.2.node v.1 = .atom (.var self.2.variableCount) :=
    (hq₄.node_eq hvar.has).trans hvar.node
  have hreached₅ : Reached [] u.2 := hu ▸ Reached.act (.unify _ _) hreached₄ (by
    simp [Action.types, hhasv, hq.has hi32])
  have hwrittenI32 := (hreached₄.reads_primitive .i32).2
  obtain ⟨-, hlinked⟩ := hs₄.unify_var_fixed hnodev (by simp [hadds₄.binding_eq, hvar.binding]) hhasv
    (hq.has hi32) (by simp [hwrittenI32, Fixed])
    (by simp [hwrittenI32, Proper, Atom.IsError, Atom.IsParam])
  obtain ⟨hs₅, hbinds⟩ := hs₄.unify_sound hhasv (hq.has hi32)
  rw [hu] at hs₅ hbinds hlinked
  have hwritten := written_congr hbinds.entries
  have hwrittenP : receiver.2.written p.1 = .atom (.param 0) := by
    rw [hq.written_eq hhasp, WellFormed.written_of_atom hnodep]
  have hnodeReceiver₅ := hbinds.node_eq ▸ hnodeReceiver
  rw [hrun]
  refine ⟨hreached₅, hbinds.has_iff.mpr ((hq₃.trans hq₄).has hhasSelf),
    hbinds.has_iff.mpr hhasReceiver, ?_, ⟨v.1, p.1, hnodeReceiver₅, ?_⟩, ?_, ?_⟩
  · have hnode : receiver.2.node self.1 = .app (.nominal .blank) [.ofPrimitive .i32, p.1] := by
      rw [(hq₃.trans hq₄).node_eq hhasSelf, hnodeSelf]
    simp [hwritten, hs₄.wellFormed.written_of_app hnode, hwrittenI32, hwrittenP]
  · simp [hwritten, WellFormed.written_of_atom hnodev]
  · have hmeaningP : u.2.meaning p.1 = .atom (.param 0) := by
      rw [hs₅.ordered.meaning_eq_written, hwritten, hwrittenP]
      simp [hwritten, hwrittenP]
    rw [hs₅.ordered.meaning_of_app (root_of_no_link (link?_of_app hnodeReceiver₅) ▸ hnodeReceiver₅)]
    simp [hlinked, hwrittenI32, hmeaningP]
  · exact (hreached₅.node_primitive .error).2

namespace Declarations

/-- A receiver `Foo<i32, P>` is written as it is meant, so a method of an impl for that
type is resolved and confirmed. -/
theorem confirm_resolved_expanded :
    let r := linkedBesideParam.run new
    let program := (single r.2 r.1.1 .blank).resolver {} .empty
    ∃ choice s', (program.resolve r.1.1 .blank []).run r.2 = (.ok choice, s') ∧
      ∃ call, ((program.confirm r.1.1 choice).run s').1 = .ok call ∧ call.callee = .ofImpl ⟨0⟩ := by
  intro r program
  obtain ⟨hreached, hself, -, hwritten, -, -, hnode⟩ := linkedBesideParam_run
  have hs := hreached.sound
  have hfixed : (r.2.written r.1.1).Fixed := by simp [r, hwritten, Fixed]
  have hmeaning : r.2.meaning r.1.1 = r.2.written r.1.1 :=
    hs.ordered.meaning_eq_written fun id hid => absurd hid (hfixed id)
  have herror : r.2.root r.1.1 ≠ .error := by
    intro hroot
    rw [meaning_of_atom (hroot ▸ hnode), hwritten] at hmeaning
    cases hmeaning
  obtain ⟨e, s', hresolve, -, -⟩ := resolve_single {} .empty .blank hs hself hfixed hself herror
    hmeaning hwritten []
  obtain ⟨call, hcall, -, hcallee⟩ := confirm_resolved hreached (single_closed .blank hself hfixed)
    hself (.inr fun _ => hmeaning.symm) hresolve
  exact ⟨_, s', hresolve, call, hcall, hcallee⟩

/-- The receiver `Foo<v, P>` means `Foo<i32, P>`, so a method of an impl for that type is
resolved; but it is not confirmed. -/
theorem confirm_clash_of_linked :
    let r := linkedBesideParam.run new
    let d := single r.2 r.1.1 .blank
    let program := d.resolver {} .empty
    Reached [] r.2 ∧ d.Closed r.2 ∧ r.2.Has r.1.2 ∧
      ∃ choice s', (program.resolve r.1.2 .blank []).run r.2 = (.ok choice, s') ∧
        ∃ clash, ((program.confirm r.1.2 choice).run s').1 = .error (.clash clash) := by
  intro r d program
  obtain ⟨hreached, hself, hreceiver, hwritten, ⟨v, p, hargs, hv⟩, hmeaning, hnode⟩ :=
    linkedBesideParam_run
  have hfixed : (r.2.written r.1.1).Fixed := by simp [r, hwritten, Fixed]
  have herror : r.2.root r.1.2 ≠ .error := by
    intro hroot
    rw [meaning_of_atom (hroot ▸ hnode)] at hmeaning
    cases hmeaning
  refine ⟨hreached, single_closed .blank hself hfixed, hreceiver, ?_⟩
  refine confirm_single_clash {} .empty .blank hreached.sound hself hfixed hreceiver herror
    (hmeaning.trans hwritten.symm) hwritten ?_ ?_ hargs ?_ []
  · rw [hwritten]
    simp [HasParam, Atom.IsParam]
  · rw [hwritten]
    simp [HasError, Atom.IsError]
  · rw [hwritten, hreached.sound.wellFormed.written_of_app hargs]
    simp [hv]

end Declarations

end DotCall
