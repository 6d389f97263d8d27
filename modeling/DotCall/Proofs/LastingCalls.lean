import DotCall.Proofs.Commitments
import DotCall.Proofs.LastingRefutation
import DotCall.Proofs.NarrowedCoercions

/-!
# Confirmed calls last

Confirming a choice keeps the assignments of its last unification, but not those that
rules were matched by on the way there.  So a confirmed call can be confirmed again
later, whatever inference has found out in between, as long as no rule on the way had
to assign a variable of the receiver (`confirm_lasts`).  Where one had, inference may
assign the variable otherwise, and the receiver is not dereferenced any more.  Rules in
which a variable is written, or a parameter of another, come to match later as well, and
a self type in which both are written no longer matches (`confirm_fails_later`).

The two confirmations are run side by side.  Under what the later store allows, the
types that they pass through are related by `Tree.Between`.
-/

namespace DotCall

open TypeStore DotCall.Tree

/-- No error and no parameter is assigned in a sound store. -/
theorem TypeStore.Sound.completed_proper {s : TypeStore} (h : s.Sound) (id : Nat) :
    (s.completed (fun id => .atom (.var id)) id).Proper := by
  have hvar : (Tree.atom (.var id)).Proper := by simp [Proper, Atom.IsError, Atom.IsParam]
  cases hb : s.binding id with
  | linked t =>
      rw [completed_of_linked hb, subst_self]
      exact (h.clean_iff t).mp (h.clean hb)
  | free i name => rwa [completed_of_not_linked (by simp [hb])]
  | generic name => rwa [completed_of_not_linked (by simp [hb])]

/-- Quiet work has led from `s` to `x` and from the later `s'` to `y`, and the type `p`
of `y` lies between the type `q` of `x` and what `φ` makes of that. -/
structure Abreast (s s' : TypeStore) (φ : Assignment) (x y : TypeStore) (q p : TypeId) :
    Prop where
  left : Quiet s x
  right : Quiet s' y
  hasLeft : x.Has q
  hasRight : y.Has p
  between : Between φ (x.meaning q) (y.meaning p)

namespace Abreast

variable {d : Declarations} {settings : Settings} {bounds : Bounds} {s s' x x' y : TypeStore}
  {φ : Assignment} {q p q' : TypeId}

section Coercing

variable (hs : s.Sound) (hs' : s'.Sound) (hg : Grows s s') (hd : d.Closed s) (hscoped : d.Scoped s)
  (h : Abreast s s' φ x y q p)

include hs hs' hg hd hscoped h

/-- A dereference that is covered is found again. -/
theorem deref (hcovered : d.DerefCovered s (x.meaning q))
    (hrun : (d.deref? q).run x = (some q', x')) :
    d.DerefsTo s (x.meaning q) (some (x'.meaning q')) ∧
      ∃ p' y', (d.deref? p).run y = (some p', y') ∧ Abreast s s' φ x' y' q' p' := by
  have hd' := hd.grows hs.wellFormed hs'.wellFormed hg
  have hscoped' := Declarations.Scoped.grows hs.wellFormed hs'.wellFormed hg hd hscoped
  obtain ⟨hq, hleft, hfollows⟩ :=
    Declarations.deref?_run hs hd h.left h.hasLeft (.inl hscoped)
  obtain ⟨hq', hright, hfollows'⟩ :=
    Declarations.deref?_run hs' hd' h.right h.hasRight (.inl hscoped')
  rw [hrun] at hq hleft hfollows
  rw [Declarations.derefsTo_grows hs.wellFormed hs'.wellFormed hg hd] at hright
  obtain ⟨u, hu, hbetween⟩ :=
    Declarations.between_derefs hd hscoped h.between hcovered hleft hright
  obtain ⟨p', hp', rfl⟩ := Option.map_eq_some_iff.mp hu
  exact ⟨hleft, p', _, Prod.ext hp' rfl, h.left.trans hq, h.right.trans hq',
    (hfollows q' rfl).has, (hfollows' p' hp').has, hbetween⟩

/-- An unsizing that is covered is found again. -/
theorem unsize (hcovered : d.UnsizeCovered s (x.meaning q))
    (hrun : (d.unsize? q).run x = (some q', x')) :
    ∃ p' y', (d.unsize? p).run y = (some p', y') ∧ Abreast s s' φ x' y' q' p' := by
  have hd' := hd.grows hs.wellFormed hs'.wellFormed hg
  have hscoped' := Declarations.Scoped.grows hs.wellFormed hs'.wellFormed hg hd hscoped
  obtain ⟨hq, hleft, hfollows⟩ :=
    Declarations.unsize?_run hs hd h.left h.hasLeft (.inl hscoped)
  obtain ⟨hq', hright, hfollows'⟩ :=
    Declarations.unsize?_run hs' hd' h.right h.hasRight (.inl hscoped')
  rw [hrun] at hq hleft hfollows
  rw [Declarations.unsizesTo_grows hs.wellFormed hs'.wellFormed hg hd] at hright
  obtain ⟨u, hu, hbetween⟩ :=
    Declarations.between_unsizes hd hscoped h.between hcovered hleft hright
  obtain ⟨p', hp', rfl⟩ := Option.map_eq_some_iff.mp hu
  exact ⟨p', _, Prod.ext hp' rfl, h.left.trans hq, h.right.trans hq',
    (hfollows q' rfl).has, (hfollows' p' hp').has, hbetween⟩

/-- **Dereferences in a row** that are covered are found again. -/
theorem derefTimes {unsizes : Bool} {n : Nat}
    (hcovers : d.CoversSteps s unsizes n (x.meaning q))
    (hrun : ((d.resolver settings bounds).derefTimes n q).run x = (.ok q', x')) :
    d.CoversSteps s unsizes 0 (x'.meaning q') ∧
      ∃ p' y', ((d.resolver settings bounds).derefTimes n p).run y = (.ok p', y') ∧
        Abreast s s' φ x' y' q' p' := by
  induction n generalizing x y q p with
  | zero =>
      cases hrun
      exact ⟨hcovers, p, y, rfl, h⟩
  | succ n ih =>
      obtain ⟨z, hz⟩ : ∃ z, (d.deref? q).run x = z := ⟨_, rfl⟩
      have hcoerce : ((d.resolver settings bounds).coercions.deref? q).run x = z := hz
      cases hnext : z.1 with
      | none =>
          simp only [Resolver.derefTimes, run_bind, hcoerce, hnext, run_pure] at hrun
          cases hrun
      | some next =>
          simp only [Resolver.derefTimes, run_bind, hcoerce, hnext] at hrun
          obtain ⟨hderefs, p₁, y₁, hp₁, habreast⟩ :=
            h.deref hs hs' hg hd hscoped hcovers.1 (hz.trans (Prod.ext hnext rfl))
          have hcoerce' : ((d.resolver settings bounds).coercions.deref? p).run y =
              (some p₁, y₁) := hp₁
          obtain ⟨hlast, p', y', hp', hrest⟩ := ih habreast (hcovers.2 _ hderefs) hrun
          refine ⟨hlast, p', y', ?_, hrest⟩
          simp only [Resolver.derefTimes, run_bind, hcoerce', hp']

/-- Unsizing, where a choice asks for it, takes both runs to types that belong together.
-/
theorem unsizeIf {unsizes : Bool} (hcovers : d.CoversSteps s unsizes 0 (x.meaning q))
    (hrun : ((d.resolver settings bounds).unsizeIf unsizes q).run x = (.ok q', x')) :
    ∃ p' y', ((d.resolver settings bounds).unsizeIf unsizes p).run y = (.ok p', y') ∧
      Abreast s s' φ x' y' q' p' := by
  cases unsizes with
  | false =>
      cases hrun
      exact ⟨p, y, rfl, h⟩
  | true =>
      obtain ⟨z, hz⟩ : ∃ z, (d.unsize? q).run x = z := ⟨_, rfl⟩
      have hcoerce : ((d.resolver settings bounds).coercions.unsize? q).run x = z := hz
      cases hnext : z.1 with
      | none =>
          simp only [Resolver.unsizeIf, if_true, run_bind, hcoerce, hnext, run_pure] at hrun
          cases hrun
      | some next =>
          simp only [Resolver.unsizeIf, if_true, run_bind, hcoerce, hnext, run_pure] at hrun
          cases hrun
          obtain ⟨p', y', hp', habreast⟩ :=
            h.unsize hs hs' hg hd hscoped (hcovers rfl) (hz.trans (Prod.ext hnext rfl))
          have hcoerce' : ((d.resolver settings bounds).coercions.unsize? p).run y =
              (some p', y') := hp'
          refine ⟨p', y', ?_, habreast⟩
          simp only [Resolver.unsizeIf, if_true, run_bind, hcoerce', run_pure]

end Coercing

/-- A type and the same type later, under what the later store allows. -/
theorem start (hs : s.Sound) (hs' : s'.Sound) (hg : Grows s s')
    (hφ : s.Allows (s'.completed fun id => .atom (.var id))) (hx : Quiet s x) (hq : s.Has q) :
    Abreast s s' (s'.completed fun id => .atom (.var id)) x s' q q := by
  have hmeaning : (s.meaning q).subst (s'.completed fun id => .atom (.var id)) = s'.meaning q := by
    rw [hs.ordered.subst_meaning hφ, hs'.ordered.meaning_eq_value,
      hs.wellFormed.value_grows hs'.wellFormed hg hq]
  refine ⟨hx, .refl hs'.ordered, hx.has hq, hg.has hq, ?_⟩
  rw [hx.meaning_eq hq]
  refine ⟨⟨_, fun id _ => hs'.completed_proper id, hmeaning⟩, fun id => .atom (.var id), ?_⟩
  rw [subst_self, hmeaning]

theorem root (h : Abreast s s' φ x y q p) :
    ((findRoot q).run x).1 = x.root q ∧ ((findRoot p).run y).1 = y.root p ∧
      Abreast s s' φ ((findRoot q).run x).2 ((findRoot p).run y).2 (x.root q) (y.root p) := by
  obtain ⟨hroot, hq⟩ := h.left.finish.findRoot_quiet q
  obtain ⟨hroot', hq'⟩ := h.right.finish.findRoot_quiet p
  have hhas := h.left.finish.has_root h.hasLeft
  have hhas' := h.right.finish.has_root h.hasRight
  refine ⟨hroot, hroot', h.left.trans hq, h.right.trans hq', hq.has hhas, hq'.has hhas', ?_⟩
  rw [hq.meaning_eq hhas, hq'.meaning_eq hhas', h.left.finish.meaning_root,
    h.right.finish.meaning_root]
  exact h.between

theorem form (h : Abreast s s' φ x y q p) (passing : Passing) :
    Abreast s s' φ ((passing.form q).run x).2 ((passing.form p).run y).2
      ((passing.form q).run x).1 ((passing.form p).run y).1 := by
  obtain ⟨hq, hmeaning, hfollows⟩ := h.left.finish.form_run passing h.hasLeft
  obtain ⟨hq', hmeaning', hfollows'⟩ := h.right.finish.form_run passing h.hasRight
  refine ⟨h.left.trans hq, h.right.trans hq', hfollows.has, hfollows'.has, ?_⟩
  rw [hmeaning, hmeaning']
  cases passing with
  | byValue => exact h.between
  | byBorrow b => exact h.between.wrap _

/-- **The adjustments are repeated** when every rule of the first time covered what it
was applied to. -/
theorem adjust (hs : s.Sound) (hs' : s'.Sound) (hg : Grows s s') (hd : d.Closed s)
    (hscoped : d.Scoped s) (h : Abreast s s' φ x y q p) {choice : Choice}
    (hcovers : d.CoversSteps s choice.unsizes choice.derefs (x.meaning q))
    (hrun : ((d.resolver settings bounds).adjust q choice).run x = (.ok q', x')) :
    ∃ p' y', ((d.resolver settings bounds).adjust p choice).run y = (.ok p', y') ∧
      Abreast s s' φ x' y' q' p' := by
  obtain ⟨hroot, hroot', h₁⟩ := h.root
  obtain ⟨x₁, hx₁⟩ : ∃ x₁, (findRoot q).run x = x₁ := ⟨_, rfl⟩
  obtain ⟨y₁, hy₁⟩ : ∃ y₁, (findRoot p).run y = y₁ := ⟨_, rfl⟩
  rw [hx₁] at hroot h₁
  rw [hy₁] at hroot' h₁
  have hmeaning : x₁.2.meaning (x.root q) = x.meaning q := by
    obtain ⟨-, hq⟩ := h.left.finish.findRoot_quiet q
    rw [hx₁] at hq
    rw [hq.meaning_eq (h.left.finish.has_root h.hasLeft), h.left.finish.meaning_root]
  rw [← hmeaning] at hcovers
  obtain ⟨z, hz⟩ : ∃ z, ((d.resolver settings bounds).derefTimes choice.derefs
    (x.root q)).run x₁.2 = z := ⟨_, rfl⟩
  cases hderefs : z.1 with
  | error e =>
      simp only [Resolver.adjust, run_bind, hx₁, hroot, hz, hderefs, run_pure] at hrun
      cases hrun
  | ok q₂ =>
      obtain ⟨hlast, p₂, y₂, hp₂, h₂⟩ := h₁.derefTimes hs hs' hg hd hscoped hcovers
        (hz.trans (Prod.ext hderefs rfl))
      obtain ⟨w, hw⟩ : ∃ w, ((d.resolver settings bounds).unsizeIf choice.unsizes q₂).run z.2 = w :=
        ⟨_, rfl⟩
      cases hunsizes : w.1 with
      | error e =>
          simp only [Resolver.adjust, run_bind, hx₁, hroot, hz, hderefs, hw, hunsizes, run_pure]
            at hrun
          cases hrun
      | ok q₃ =>
          obtain ⟨p₃, y₃, hp₃, h₃⟩ := h₂.unsizeIf hs hs' hg hd hscoped hlast
            (hw.trans (Prod.ext hunsizes rfl))
          have h₄ := h₃.form choice.passing
          obtain ⟨f, hf⟩ : ∃ f, (choice.passing.form q₃).run w.2 = f := ⟨_, rfl⟩
          obtain ⟨f', hf'⟩ : ∃ f', (choice.passing.form p₃).run y₃ = f' := ⟨_, rfl⟩
          rw [hf, hf'] at h₄
          simp only [Resolver.adjust, run_bind, hx₁, hroot, hz, hderefs, hw, hunsizes, hf,
            run_pure] at hrun
          cases hrun
          refine ⟨f'.1, f'.2, ?_, h₄⟩
          simp only [Resolver.adjust, run_bind, hy₁, hroot', hp₂, hp₃, hf', run_pure]

end Abreast

namespace Candidate

variable {c : Candidate} {x m : TypeStore} {t : TypeId} {args : List TypeId}

/-- **What a commitment says**: whatever is allowed afterwards was allowed before, and
makes the type an instance of what the candidate expects. -/
theorem commit_allows (hs : x.Sound) (hc : c.Stands x) (ht : x.Has t)
    (hrun : (c.commit t).run x = (.ok args, m)) :
    m.Sound ∧ Grows x m ∧ ∀ σ, m.Allows σ →
      x.Allows σ ∧ FitsUnder σ (x.written c.expected) c.arity (x.meaning t) := by
  obtain ⟨y, vars, e, hcommits⟩ := commit_ok_inv hs hc ht hrun
  have hi := hcommits.fresh
  have hy : y.opened.Sound := (hs.quiet hi.quiet).opened
  have hhas : y.opened.Has t := hi.quiet.has ht
  obtain ⟨hsz, hbinds⟩ := hy.unify_sound (a := e) hi.reads.1 hhas
  refine ⟨hcommits.sound, hcommits.grows hs ht, fun σ hσ => ?_⟩
  have hσz := (hsz.ordered.allows_iff_of_keeps hcommits.sound.ordered hcommits.keeps).mp hσ
  have hσy : y.opened.Allows σ := hbinds.toExtends.allows hy.ordered hsz.ordered hσz
  refine ⟨(hi.quiet.start.allows_iff_of_keeps hi.quiet.finish hi.quiet.keeps).mp
    (opened_allows.mp hσy), ?_⟩
  by_cases herror : (x.meaning t).HasError
  · exact .inl herror
  by_cases herror' : (x.written c.expected).HasError
  · exact .inr (.inl herror')
  have hme : y.opened.meaning e = (x.written c.expected).withVars x.variableCount c.arity := by
    rw [opened_meaning, hi.meaning_eq hc.fixed]
  have hmt : y.opened.meaning t = x.meaning t := by rw [opened_meaning, hi.quiet.meaning_eq ht]
  have hequal := (hy.value_eq_after_unify (a := e) hi.reads.1 hhas hcommits.unified
    (by rwa [hme, withVars_hasError]) (by rwa [hmt]) hσz).2
  rw [← hy.ordered.subst_meaning hσy, ← hy.ordered.subst_meaning hσy, hme, hmt,
    hc.fixed.subst_withVars] at hequal
  exact .inr (.inr ⟨_, by simp, hequal⟩)

end Candidate

namespace Declarations

variable {d : Declarations} {settings : Settings} {bounds : Bounds} {s s₁ s₂ s₃ : TypeStore}
  {receiver : TypeId} {method : Symbol} {visible : List TraitId} {choice : Choice}
  {call : ResolvedCall}

/-- What a call that was resolved in `s` and confirmed in `s₁` leaves behind: the receiver
was adjusted to `t`, which the candidate matches, and whatever is allowed afterwards
makes `t` an instance of what the candidate expects. -/
structure Confirmed (r : Resolver) (s s₁ s₂ : TypeStore) (receiver : TypeId) (choice : Choice)
    (x : TypeStore) (t : TypeId) : Prop where
  adjusts : (r.adjust receiver choice).run s₁ = (.ok t, x)
  resolved : Quiet s s₁
  quiet : Quiet s x
  has : x.Has t
  stands : choice.candidate.Stands x
  ownParams : (x.written choice.candidate.expected).Scoped choice.candidate.arity
  accepts : (x.written choice.candidate.expected).Matches choice.candidate.arity (x.meaning t)
  sound : s₂.Sound
  grows : Grows x s₂
  allows : ∀ σ, s₂.Allows σ → x.Allows σ ∧
    FitsUnder σ (x.written choice.candidate.expected) choice.candidate.arity (x.meaning t)

/-- **What a confirmed call has gone through**: the receiver at its place in the chain, in
the form the candidate asks for, and a commitment to it. -/
theorem confirmed_of_confirm_ok (hs : s.Sound) (hd : d.Closed s) (hscoped : d.Scoped s)
    (ht : s.Has receiver)
    (hresolve : ((d.resolver settings bounds).resolve receiver method visible).run s =
      (.ok choice, s₁))
    (hvia : choice.viaTrait = false)
    (hconfirm : ((d.resolver settings bounds).confirm receiver choice).run s₁ = (.ok call, s₂)) :
    ∃ x t, Confirmed (d.resolver settings bounds) s s₁ s₂ receiver choice x t := by
  obtain ⟨first, chain, last?, place, hchosen⟩ := chosen_of_resolve_ok hs hd ht hresolve
  have hq := hchosen.quiet
  obtain ⟨t, x, m, hadjust, hcommit, hlast, -, -⟩ := confirm_ok_inv hvia hconfirm
  -- the receiver is adjusted as it was when the candidate was tried
  obtain ⟨hqx, t', hadjusted, hrepeats⟩ := adjust_run settings bounds hs hd hchosen.steps
    hchosen.inSteps hchosen.derefs hchosen.passing hchosen.unsizes hq (hq.has ht)
    (.inl hscoped) (by rw [hchosen.starts, hq.meaning_eq ht])
  rw [hadjust] at hqx hadjusted hrepeats
  cases hadjusted
  obtain ⟨hstands, -, hmatch⟩ := hchosen.adjusted_matches hqx hrepeats
  obtain ⟨hsm, hgm, hallows⟩ :=
    Candidate.commit_allows (hs.quiet (hq.trans hqx)) hstands hrepeats.has hcommit
  have hq₂ := (hsm.ordered.expand_run (hgm.has hrepeats.has)).1
  rw [hlast] at hq₂
  refine ⟨x, t, hadjust, hq, hq.trans hqx, hrepeats.has, hstands, ?_, hmatch, hsm.quiet hq₂,
    hgm.trans hq₂.grows, fun σ hσ => hallows σ ?_⟩
  · rw [hqx.written_eq hchosen.stands.has]
    exact hchosen.ownParams hscoped
  · exact (hq₂.start.allows_iff_of_keeps hq₂.finish hq₂.keeps).mp hσ

/-- **A confirmed call lasts.**  In every reached store, with declared types in which no
variable is written and which mention only parameters of their own: when a call is
resolved to one method and confirmed, and every rule that its adjustments apply covers
what it is applied to, then confirming it again succeeds, with the same adjustments and
callee, whatever inference has done in between. -/
theorem confirm_lasts {checkpoints : List Checkpoint} (h : Reached checkpoints s)
    (hd : d.Closed s) (hscoped : d.Scoped s) (ht : s.Has receiver)
    (hresolve : ((d.resolver settings bounds).resolve receiver method visible).run s =
      (.ok choice, s₁))
    (hvia : choice.viaTrait = false)
    (hcovers : d.CoversSteps s choice.unsizes choice.derefs (s.meaning receiver))
    (hconfirm : ((d.resolver settings bounds).confirm receiver choice).run s₁ = (.ok call, s₂))
    (hprogress : Progress s₂ s₃) :
    ∃ call', (((d.resolver settings bounds).confirm receiver choice).run s₃).1 = .ok call' ∧
      call'.adjustments = call.adjustments ∧ call'.callee = call.callee := by
  have hs := h.sound
  obtain ⟨x, t, hfirst⟩ := confirmed_of_confirm_ok hs hd hscoped ht hresolve hvia hconfirm
  have hq := hfirst.quiet
  have hsx := hs.quiet hq
  obtain ⟨hs₃, hextends⟩ := hprogress.sound_extends hfirst.sound
  have hgx : Grows x s₃ := hfirst.grows.trans hextends.grows
  -- what the later store allows was allowed all along
  let φ := s₃.completed fun id => .atom (.var id)
  have hφ₂ : s₂.Allows φ :=
    hextends.allows hfirst.sound.ordered hs₃.ordered (hs₃.ordered.allows_completed _)
  obtain ⟨hφx, hfits⟩ := hfirst.allows φ hφ₂
  have hφ : s.Allows φ := (hq.start.allows_iff_of_keeps hq.finish hq.keeps).mp hφx
  -- so the receiver is adjusted again
  have hg : Grows s s₃ := hq.grows.trans hgx
  have hstart : Abreast s s₃ φ s₁ s₃ receiver receiver := .start hs hs₃ hg hφ hfirst.resolved ht
  rw [← hfirst.resolved.meaning_eq ht] at hcovers
  obtain ⟨p, y, hagain, habreast⟩ := hstart.adjust hs hs₃ hg hd hscoped hcovers hfirst.adjusts
  -- and the candidate matches what it is adjusted to
  have hsy := hs₃.quiet habreast.right
  have hgy : Grows x y := hgx.trans habreast.right.grows
  have hwritten := hsx.wellFormed.written_grows hsy.wellFormed hgy hfirst.stands.has
  have hstands : choice.candidate.Stands y :=
    ⟨hgy.has hfirst.stands.has, hwritten ▸ hfirst.stands.fixed⟩
  have hmatch : (y.written choice.candidate.expected).Matches choice.candidate.arity
      (y.meaning p) := by
    rw [hwritten]
    exact habreast.between.matching hfirst.ownParams hfirst.accepts hfits
  have hown : (y.written choice.candidate.expected).Scoped choice.candidate.arity :=
    hwritten ▸ hfirst.ownParams
  obtain ⟨call', hcall', hadjustments', hcallee'⟩ := confirm_of_adjusted hagain
    ⟨[], Candidate.check_ok hsy hstands habreast.hasRight (.inl hown) hmatch⟩
    (Candidate.commit_ok hsy hstands habreast.hasRight (.inl hown) hmatch)
  obtain ⟨-, -, -, -, -, -, hadjustments, hcallee⟩ := confirm_ok_inv hvia hconfirm
  exact ⟨call', hcall', hadjustments'.trans hadjustments.symm, hcallee'.trans hcallee.symm⟩

end Declarations

namespace Declarations

variable {checkpoints : List Checkpoint} {s : TypeStore} {rules : List Rule}

/-- A program with a method on `bool`, and the given rules to dereference by. -/
def ruled (s : TypeStore) (rules : List Rule) : Declarations :=
  { single s (.ofPrimitive .bool) .blank with derefs := rules }

/-- Declarations with the given rules and no impl refer to types of the store when the
rules do. -/
theorem ruled_closed (h : Reached checkpoints s) (hrules : ∀ rule ∈ rules, rule.Closed s) :
    (ruled s rules).Closed s := by
  have hsingle : (single s (.ofPrimitive .bool) .blank).Closed s :=
    single_closed .blank (h.reads_primitive .bool).1
      (by simp [(h.reads_primitive .bool).2, Fixed])
  exact ⟨@hsingle.self, @hsingle.condition, hrules, hsingle.unsizing⟩

theorem ruled_scoped (h : Reached checkpoints s)
    (hrules : ∀ rule ∈ rules, (s.written rule.source).Scoped rule.arity) :
    (ruled s rules).Scoped s where
  self hdecl := by
    obtain ⟨-, rfl⟩ := (impl?_single (s := s)).mp hdecl
    simp [(h.reads_primitive .bool).2, Tree.Scoped]
  deref := hrules
  unsizing rule hrule := by simp [ruled, single, addImpl, empty] at hrule

end Declarations

/-- A variable `v`, the type `Wrap<v>`, and the type `Wrap<P>` of a parameter. -/
def openWrap : StateM TypeStore (TypeId × TypeId × TypeId) := do
  let p ← paramAt 0
  let general ← nominalType .blank [p]
  let v ← newVar
  let receiver ← nominalType .blank [v]
  pure (v, receiver, general)

theorem openWrap_run :
    let w := openWrap.run new
    Reached [] w.2 ∧ w.2.Has w.1.1 ∧ w.2.Has w.1.2.1 ∧ w.2.Has w.1.2.2 ∧
      w.2.written w.1.2.2 = .app (.nominal .blank) [.atom (.param 0)] ∧
      ∃ arg, w.2.meaning w.1.2.1 = .app (.nominal .blank) [arg] := by
  intro w
  obtain ⟨p, hp⟩ : ∃ p, (paramAt 0).run new = p := ⟨_, rfl⟩
  obtain ⟨general, hgeneral⟩ : ∃ general, (nominalType .blank [p.1]).run p.2 = general := ⟨_, rfl⟩
  obtain ⟨v, hv⟩ : ∃ v, newVar.run general.2 = v := ⟨_, rfl⟩
  obtain ⟨receiver, hreceiver⟩ : ∃ receiver, (nominalType .blank [v.1]).run v.2 = receiver :=
    ⟨_, rfl⟩
  have hrun : w = ((v.1, receiver.1, general.1), receiver.2) := by
    simp only [w, openWrap, run_bind, hp, hgeneral, hv, hreceiver, run_pure]
  obtain ⟨hreached₁, -, hhasp, hnodep⟩ := Reached.new.paramAt_run 0
  rw [hp] at hreached₁ hhasp hnodep
  obtain ⟨hreached₂, hq₂, -, hhas₂, hnode₂⟩ :=
    hreached₁.nominalType_run .blank (List.forall_mem_singleton.mpr hhasp)
  rw [hgeneral] at hreached₂ hq₂ hhas₂ hnode₂
  have hreached₃ : Reached [] v.2 := hv ▸ Reached.act .var hreached₂ (by simp [Action.types])
  obtain ⟨hq₃, hnew⟩ := hreached₂.sound.ordered.newVar_run
  rw [hv] at hq₃ hnew
  obtain ⟨hreached₄, hq₄, -, hhas₄, hnode₄⟩ :=
    hreached₃.nominalType_run .blank (List.forall_mem_singleton.mpr hnew.has)
  rw [hreceiver] at hreached₄ hq₄ hhas₄ hnode₄
  have hq := hq₃.trans hq₄
  have hparam : receiver.2.node p.1 = .atom (.param 0) := by
    rw [(hq₂.trans hq).node_eq hhasp, hnodep]
  rw [hrun]
  refine ⟨hreached₄, hq₄.has hnew.has, hhas₄, hq.has hhas₂, ?_, receiver.2.meaning v.1, ?_⟩
  · rw [hreached₄.sound.wellFormed.written_of_app ((hq.node_eq hhas₂).trans hnode₂)]
    simp [WellFormed.written_of_atom hparam]
  · rw [hreached₄.sound.ordered.meaning_of_app (root_of_no_link (link?_of_app hnode₄) ▸ hnode₄)]
    rfl

theorem run_of_fst {α : Type} {act : StateM TypeStore α} {s : TypeStore} {a : α}
    (h : (act.run s).1 = a) : act.run s = (a, (act.run s).2) :=
  Prod.ext h rfl

namespace Declarations

set_option maxRecDepth 8192 in
/-- The receiver `Wrap<v>` is dereferenced by the rule for `Wrap<P>`, and the method on
`bool` is confirmed. -/
theorem openWrap_confirmed :
    let w := openWrap.run new
    let r := (ruled w.2 [⟨1, w.1.2.2, .ofPrimitive .bool⟩]).resolver {} .empty
    let choice : Choice := ⟨⟨.impl ⟨0⟩, .inherent, .blank, .byValue, .ofPrimitive .bool, 0,
      .ofPrimitive .bool⟩, 1, .byValue, false, false⟩
    let resolved := (r.resolve w.1.2.1 .blank []).run w.2
    (resolved.1, ((r.confirm w.1.2.1 choice).run resolved.2).1) =
      (.ok choice, .ok ⟨[.deref], .ofImpl ⟨0⟩, .ofPrimitive .bool, []⟩) := by
  cbv

/-- The rule for `Wrap<P>` covers the receiver `Wrap<v>`, so the call is confirmed again
after `v` was unified with `bool`. -/
theorem confirm_lasts_covered :
    let w := openWrap.run new
    let r := (ruled w.2 [⟨1, w.1.2.2, .ofPrimitive .bool⟩]).resolver {} .empty
    ∃ choice s₁ call s₂, (r.resolve w.1.2.1 .blank []).run w.2 = (.ok choice, s₁) ∧
      (r.confirm w.1.2.1 choice).run s₁ = (.ok call, s₂) ∧
      ∃ call', ((r.confirm w.1.2.1 choice).run
          ((unify w.1.1 (.ofPrimitive .bool)).run s₂).2).1 = .ok call' ∧
        call'.adjustments = call.adjustments ∧ call'.callee = call.callee := by
  obtain ⟨hreached, hv, hreceiver, hgeneral, hwritten, arg, hmeaning⟩ := openWrap_run
  obtain ⟨hresolved, hconfirmed⟩ := Prod.mk.inj openWrap_confirmed
  generalize openWrap.run new = w at *
  obtain ⟨hbool, hwrittenBool⟩ := hreached.reads_primitive .bool
  have hrule : (⟨1, w.1.2.2, .ofPrimitive .bool⟩ : Rule).Closed w.2 :=
    ⟨hgeneral, hbool, by simp [hwritten, Fixed], by simp [hwrittenBool, Fixed]⟩
  have hscoped : (w.2.written w.1.2.2).Scoped 1 := by simp [hwritten, Tree.Scoped]
  have hcovers : (⟨1, w.1.2.2, .ofPrimitive .bool⟩ : Rule).Covers w.2
      (.app (.nominal .blank) [arg]) := ⟨[arg], rfl, .inr (.inr (by rw [hwritten]; rfl))⟩
  have hd := ruled_closed hreached (List.forall_mem_singleton.mpr hrule)
  have hown : (ruled w.2 [⟨1, w.1.2.2, .ofPrimitive .bool⟩]).Scoped w.2 :=
    ruled_scoped hreached (List.forall_mem_singleton.mpr hscoped)
  have hresolve := run_of_fst hresolved
  have hconfirm := run_of_fst hconfirmed
  obtain ⟨x, t, hfirst⟩ :=
    confirmed_of_confirm_ok hreached.sound hd hown hreceiver hresolve rfl hconfirm
  have hg := hfirst.quiet.grows.trans hfirst.grows
  have hprogress := Progress.nil.act (.unify w.1.1 (.ofPrimitive .bool)) (by
    simpa [Action.types] using ⟨hg.has hv, hg.has hbool⟩)
  refine ⟨_, _, _, _, hresolve, hconfirm, confirm_lasts hreached hd hown hreceiver hresolve rfl ?_
    hconfirm hprogress⟩
  rw [hmeaning]
  refine ⟨fun rule hfound => ?_, fun _ _ hunsizes => absurd hunsizes Bool.false_ne_true⟩
  obtain rfl := List.mem_singleton.mp (List.mem_of_find?_eq_some hfound)
  exact hcovers

end Declarations

/-- Whether a call goes through a trait, whether it is confirmed, whether two types are
unified then, and whether it is confirmed again. -/
structure Replay where
  viaTrait : Bool
  confirmed : Bool
  unified : Bool
  again : Bool

/-- Resolve a call and confirm it, unify two types, and confirm the call again. -/
def Resolver.confirmTwice (r : Resolver) (receiver a b : TypeId) :
    StateM TypeStore (Option Replay) := do
  match ← r.resolve receiver .blank [] with
  | .error _ => pure none
  | .ok choice =>
    let first ← r.confirm receiver choice
    let unified ← unify a b
    let second ← r.confirm receiver choice
    pure (some ⟨choice.viaTrait, first.isOk, unified.isOk, second.isOk⟩)

namespace Declarations

/-- The receiver `Wrap<v>` with a rule for `Wrap<i32>`, and `v` unified with `bool`. -/
def assigningRule : StateM TypeStore (Option Replay) := do
  let v ← newVar
  let receiver ← nominalType .blank [v]
  let source ← nominalType .blank [.ofPrimitive .i32]
  let d := ruled (← get) [⟨0, source, .ofPrimitive .bool⟩]
  (d.resolver {} .empty).confirmTwice receiver v (.ofPrimitive .bool)

/-- The receiver `Wrap` with a rule for it, after a rule for a variable `v`, and `v`
unified with `Wrap`. -/
def openRule : StateM TypeStore (Option Replay) := do
  let v ← newVar
  let receiver ← nominalType .blank []
  let d := ruled (← get) [⟨0, v, .ofPrimitive .i32⟩, ⟨0, receiver, .ofPrimitive .bool⟩]
  (d.resolver {} .empty).confirmTwice receiver v receiver

/-- The receiver `Wrap<v>` with a rule from `Wrap<P>` to `Wrap<P, Q>`, in which `Q` is no
parameter of the rule, and `v` unified with `i32`.  The rules from there are one for
`Wrap<i32, Q>`, and one for an error. -/
def foreignRule : StateM TypeStore (Option Replay) := do
  let v ← newVar
  let receiver ← nominalType .blank [v]
  let p ← paramAt 0
  let q ← paramAt 1
  let general ← nominalType .blank [p]
  let target ← nominalType .blank [p, q]
  let narrow ← nominalType .blank [.ofPrimitive .i32, q]
  let lax ← nominalType .blank [.error, .error]
  let d := ruled (← get) [⟨1, general, target⟩, ⟨0, narrow, .ofPrimitive .i32⟩,
    ⟨0, lax, .ofPrimitive .bool⟩]
  (d.resolver {} .empty).confirmTwice receiver v (.ofPrimitive .i32)

/-- The receiver `Wrap<v>` with a rule from `Wrap<P>` to `Wrap<P, Q>`, in which `Q` is no
parameter of the rule, and `v` unified with `i32`.  The self type of the method is
`Wrap<v, Q>`, which is the very type behind the receiver as long as `v` is free.
Afterwards `Wrap<i32, Q>` is behind it, and unification looks inside the two and stops
at `Q`. -/
def foreignSelf : StateM TypeStore (Option Replay) := do
  let v ← newVar
  let receiver ← nominalType .blank [v]
  let p ← paramAt 0
  let q ← paramAt 1
  let general ← nominalType .blank [p]
  let target ← nominalType .blank [p, q]
  let self ← nominalType .blank [v, q]
  let d := { single (← get) self .blank with derefs := [⟨1, general, target⟩] }
  (d.resolver {} .empty).confirmTwice receiver v (.ofPrimitive .i32)

set_option maxRecDepth 8192 in
/-- **Where a call does not last**: where a rule was matched by an assignment to `v` that
is not kept, where an earlier rule comes to match because a variable is written in it,
where one does because it mentions a parameter that is not its own, and where the self
type of the method contains both a variable and such a parameter. -/
theorem confirm_fails_later :
    (assigningRule.run new).1 = some ⟨false, true, true, false⟩ ∧
      (openRule.run new).1 = some ⟨false, true, true, false⟩ ∧
      (foreignRule.run new).1 = some ⟨false, true, true, false⟩ ∧
      (foreignSelf.run new).1 = some ⟨false, true, true, false⟩ := by
  refine ⟨?_, ?_, ?_, ?_⟩
  · cbv
  · cbv
  · cbv
  · cbv

end Declarations

end DotCall
