import DotCall.Proofs.ConfirmedChoices
import DotCall.Proofs.ExactCheckpoints
import DotCall.Proofs.QuietResolution

/-!
# What confirming a choice assigns

Confirming a choice does three things one after the other: it adjusts the receiver,
it checks the candidate against the adjusted receiver or commits it to that, and it
expands what came out.  Only a commitment assigns anything for good, and only when
it succeeds (`confirm_atomic`).  What it assigns then are variables of the two types
that it unifies: unification says no more than that these are equal, and an
assignment to any other variable would say more (`Sound.unify_spares`).  The
variables of the candidate are new, so among the earlier ones only those of the
adjusted receiver are affected.

None of this depends on how the choice was come by.
-/

namespace DotCall

open TypeStore DotCall.Tree

/-- **Unification spares** every variable that occurs in neither type. -/
theorem TypeStore.Sound.unify_spares {s : TypeStore} (h : s.Sound) {a b : TypeId} (ha : s.Has a)
    (hb : s.Has b) (hok : ((unify a b).run s).1 = .ok ()) {id : Nat} (hid : id < s.variableCount)
    (hopen : ∀ u, s.binding id ≠ .linked u) (hina : .var id ∉ (s.meaning a).atoms)
    (hinb : .var id ∉ (s.meaning b).atoms) :
    ((unify a b).run s).2.binding id = s.binding id := by
  obtain ⟨hz, hbinds⟩ := h.unify_sound ha hb
  have hclean := fun hc : s.Clean a ∧ s.Clean b => h.allows_of_unify_ok ha hb hc.1 hc.2 hok
  have hunclean := fun hc => (h.unify_of_not_clean ha hb hc).1
  obtain ⟨z, hrun⟩ : ∃ z, ((unify a b).run s).2 = z := ⟨_, rfl⟩
  rw [hrun] at hz hbinds hclean hunclean ⊢
  suffices hstill : ∀ u, z.binding id ≠ .linked u by
    cases hbinding : s.binding id with
    | linked u => exact absurd hbinding (hopen u)
    | generic name => exact hbinds.toExtends.generic hbinding
    | free i name =>
        exact (hbinds.toExtends.free hid hbinding).resolve_right fun ⟨u, hu⟩ => hstill u hu
  intro u hlinked
  by_cases hc : s.Clean a ∧ s.Clean b
  · let σ := z.completed fun j => .atom (.var j)
    have hσ := (hclean hc σ).mp (hz.ordered.allows_completed _)
    -- whatever is put for the variable, the two types stay equal
    have hany : ∀ tree, z.Allows (s.completed (Function.update σ id tree)) := by
      intro tree
      have hsame : ∀ {t}, .var id ∉ (s.meaning t).atoms →
          s.value (s.completed (Function.update σ id tree)) t = s.value σ t := by
        intro t hnot
        rw [h.ordered.value_completed, ← h.ordered.subst_meaning hσ.1]
        refine subst_congr fun j hj => Function.update_of_ne ?_ _ _
        exact fun heq => hnot (heq ▸ hj)
      exact (hclean hc _).mpr ⟨h.ordered.allows_completed _, by rw [hsame hina, hsame hinb, hσ.2]⟩
    -- but a link leaves no choice
    have hforced : ∀ tree, tree = (z.meaning u).subst σ := by
      intro tree
      have hvalue := hany tree id u hlinked
      rw [completed_of_not_linked hopen, Function.update_self,
        ← hz.ordered.subst_meaning (hany tree)] at hvalue
      rw [hvalue]
      refine subst_congr fun j hj => ?_
      have hlast := hz.ordered.not_linked_of_mem_meaning hj
      have hne : j ≠ id := fun heq => hlast u (heq ▸ hlinked)
      have hfirst : ∀ w, s.binding j ≠ .linked w := fun w hw => by
        obtain ⟨w', hw', -⟩ := hbinds.toExtends.linked hw
        exact hlast w' hw'
      rw [completed_of_not_linked hfirst, Function.update_of_ne hne]
    have hcollapse := (hforced (.atom (.var 0))).trans (hforced (.atom (.var 1))).symm
    simp at hcollapse
  · obtain ⟨w, hw, -⟩ := (hunclean hc).keeps.linked_cases hlinked
    exact hopen w hw

namespace Candidate

variable {c : Candidate} {x m : TypeStore} {t : TypeId} {args : List TypeId}

/-- A check assigns nothing. -/
theorem check_quiet (hx : x.Ordered) (hc : x.Has c.expected) (ht : x.Has t) :
    Quiet x ((c.check t).run x).2 := by
  obtain ⟨e, vars, y, hrun, hi⟩ := freshInstance_run hx.opened (c := c) hc
  refine (tentatively_quiet hx ?_).2
  simp only [run_bind, hrun, run_pure]
  exact hi.quiet.toWorks.trans (hi.quiet.finish.unify_works hi.reads.1 (hi.quiet.has ht))

/-- A commitment that fails assigns nothing. -/
theorem commit_error_quiet (hx : x.Ordered) (hc : x.Has c.expected) (ht : x.Has t) {clash : Clash}
    (hrun : (c.commit t).run x = (.error clash, m)) : Quiet x m := by
  obtain ⟨e, vars, y, hinstance, hi⟩ := freshInstance_run hx hc
  have hy := hi.quiet.finish
  have hworks : Works y.opened ((unify e t).run y.opened).2 :=
    hy.opened.unify_works hi.reads.1 (hi.quiet.has (t := t) ht)
  have hgrows : Grows y ((unify e t).run y.opened).2 :=
    ⟨hworks.grows.size_le, hworks.grows.count_le, hworks.grows.node_eq, hworks.grows.summary_eq⟩
  obtain ⟨k, hk⟩ : ∃ k, (ifSuccessful (unify e t)).run y = k := ⟨_, rfl⟩
  cases hresult : k.1 with
  | error clash' =>
      simp only [commit, run_bind, hinstance, hk, hresult, run_pure] at hrun
      cases hrun
      have hreverted := ifSuccessful_of_error (hk.symm ▸ hresult)
      rw [hk] at hreverted
      rw [hreverted]
      exact hi.quiet.trans (hworks.quiet_of_reverts hy (revert_run hworks.logged hgrows))
  | ok u =>
      simp only [commit, run_bind, hinstance, hk, hresult, run_pure] at hrun
      cases hrun

/-- A successful commitment of the candidate to the type `t`: from `x` it went on with an
instance `e` in `y`, unified that with `t`, and left `m` behind, in which `args` are what
the variables of the instance became. -/
structure Commits (c : Candidate) (t : TypeId) (x y m : TypeStore) (vars : List TypeId)
    (e : TypeId) (args : List TypeId) : Prop where
  fresh : Instantiates x y (x.written c.expected) c.arity vars e
  sound : m.Sound
  unified : ((unify e t).run y.opened).1 = .ok ()
  keeps : Keeps ((unify e t).run y.opened).2 m
  reads : List.Forall₂ (fun v u => m.Reads (m.meaning v) u) vars args

/-- Only one way leads to success: the match succeeds and no condition is refuted, and the
store that is left is the one after the match. -/
theorem commit_ok_inv (hs : x.Sound) (hc : c.Stands x) (ht : x.Has t)
    (hrun : (c.commit t).run x = (.ok args, m)) : ∃ y vars e, c.Commits t x y m vars e args := by
  obtain ⟨e, vars, y, hinstance, hi⟩ := freshInstance_run hs.ordered hc.has
  obtain ⟨z, hz⟩ : ∃ z, (unify e t).run y.opened = z := ⟨_, rfl⟩
  obtain ⟨k, hk⟩ : ∃ k, (ifSuccessful (unify e t)).run y = k := ⟨_, rfl⟩
  have hfst : k.1 = z.1 := by rw [← hk, ← hz, ifSuccessful_fst]
  cases hok : z.1 with
  | error clash =>
      rw [hok] at hfst
      simp only [commit, run_bind, hinstance, hk, hfst, run_pure] at hrun
      cases hrun
  | ok u =>
      rw [hok] at hfst
      obtain ⟨hsz, hbinds⟩ := (hs.quiet hi.quiet).opened.unify_sound (a := e) (b := t) hi.reads.1
        (hi.quiet.has ht)
      rw [hz] at hsz hbinds
      -- the checkpoint is forgotten, and nothing else
      have hkept : k.2 = ((keep ⟨y.trail.length⟩).run z.2).2 := by
        have hopened : (checkpoint.run y).2 = y.opened := rfl
        rw [← hk]
        simp only [ifSuccessful, run_bind, hopened, hz, hok]
        rfl
      have hkeeps : Keeps z.2 k.2 := .of_eq (by rw [hkept]; rfl) (by rw [hkept]; rfl)
      have hsk : k.2.Sound :=
        hsz.congr (by rw [hkept]; rfl) (by rw [hkept]; rfl) (by rw [hkept]; rfl)
      have hvars : ∀ v ∈ vars, k.2.Has v := fun v hv =>
        hkeeps.grows.has (hbinds.has_iff.mpr (hi.has_args v hv))
      have hexpand : Calm k.2 (vars.mapM expand) fun w us =>
          List.Forall₂ (fun v u => w.Reads (k.2.meaning v) u) vars us := by
        refine Calm.mapM (fun hq hu => hq.reads hu) fun v hv w hw => ?_
        obtain ⟨hq, hu⟩ := hw.finish.expand_run (hw.has (hvars v hv))
        exact ⟨hq, hw.meaning_eq (hvars v hv) ▸ hu⟩
      obtain ⟨hq, hreads⟩ := hexpand k.2 (.refl hsk.ordered)
      simp only [commit, run_bind, hinstance, hk, hfst, run_pure] at hrun
      obtain ⟨hargs, rfl⟩ := Prod.mk.inj hrun
      cases hargs
      refine ⟨y, vars, e, hi, hsk.quiet hq, by rw [hz, hok], ?_, ?_⟩
      · rw [hz]
        exact hkeeps.trans hq.keeps hsz.ordered hsk.ordered
      · refine List.forall₂_iff_get.mpr ⟨hreads.length_eq, fun i hi hi' => ?_⟩
        rw [hq.meaning_eq (hvars _ (List.get_mem ..))]
        exact hreads.get hi hi'

/-- **A commitment spares** every earlier variable that does not occur in the type. -/
theorem Commits.spares {y : TypeStore} {vars : List TypeId} {e : TypeId}
    (h : c.Commits t x y m vars e args) (hs : x.Sound) (hc : c.Stands x) (ht : x.Has t) {id : Nat}
    (hid : id < x.variableCount) (hopen : ∀ u, x.binding id ≠ .linked u)
    (hnot : .var id ∉ (x.meaning t).atoms) : m.binding id = x.binding id := by
  have hq := h.fresh.quiet
  have hy := (hs.quiet hq).opened
  have hidy : id < y.opened.variableCount := Nat.lt_of_lt_of_le hid hq.grows.count_le
  have hbinding : y.opened.binding id = x.binding id := hq.keeps.binding_of_not_linked hid hopen
  have hopen' : ∀ u, y.opened.binding id ≠ .linked u := fun u => hbinding ▸ hopen u
  -- the variables of the instance are later ones
  have hine : .var id ∉ (y.opened.meaning e).atoms := by
    rw [opened_meaning, h.fresh.meaning_eq hc.fixed, ← h.fresh.reads.2]
    exact fun hmem => Nat.not_le_of_lt hid (h.fresh.not_linked hc.fixed hmem).1
  have hint : .var id ∉ (y.opened.meaning t).atoms := by
    rwa [opened_meaning, hq.meaning_eq ht]
  obtain ⟨-, hbinds⟩ := hy.unify_sound (a := e) (b := t) h.fresh.reads.1 (hq.has ht)
  have hspared := hy.unify_spares (a := e) (b := t) h.fresh.reads.1 (hq.has ht) h.unified hidy
    hopen' hine hint
  calc m.binding id = ((unify e t).run y.opened).2.binding id :=
        h.keeps.binding_of_not_linked (hbinds.count ▸ hidy) fun u => hspared ▸ hopen' u
    _ = y.opened.binding id := hspared
    _ = x.binding id := hbinding

theorem Commits.grows_opened {y : TypeStore} {vars : List TypeId} {e : TypeId}
    (h : c.Commits t x y m vars e args) (hs : x.Sound) (ht : x.Has t) : Grows y.opened m := by
  have hq := h.fresh.quiet
  obtain ⟨-, hbinds⟩ := (hs.quiet hq).opened.unify_sound (a := e) (b := t) h.fresh.reads.1 (hq.has ht)
  exact hbinds.toExtends.grows.trans h.keeps.grows

/-- Committing to a candidate keeps every type of the store. -/
theorem Commits.grows {y : TypeStore} {vars : List TypeId} {e : TypeId}
    (h : c.Commits t x y m vars e args) (hs : x.Sound) (ht : x.Has t) : Grows x m := by
  have hopened : Keeps y y.opened := .of_eq rfl rfl
  exact h.fresh.quiet.grows.trans (hopened.grows.trans (h.grows_opened hs ht))

end Candidate

namespace Declarations

variable {d : Declarations} {settings : Settings} {bounds : Bounds} {s s₁ : TypeStore}
  {receiver t : TypeId} {choice : Choice} {call : ResolvedCall}

/-- The rules refer to types of every larger store as well. -/
theorem RulesWithin.grows {s' : TypeStore} (hd : d.RulesWithin s) (hg : Grows s s') :
    d.RulesWithin s' :=
  ⟨fun rule hmem => (hd.1 rule hmem).imp hg.has hg.has,
    fun rule hmem => (hd.2 rule hmem).imp hg.has hg.has⟩

section Adjusting

variable (settings bounds)

/-- Repeating the steps of a choice binds nothing. -/
theorem calm_derefTimes (hd : d.RulesWithin s) (ht : s.Has t) (n : Nat) :
    Calm s ((d.resolver settings bounds).derefTimes n t) fun x o => ∀ u, o = .ok u → x.Has u := by
  induction n generalizing s t with
  | zero => exact .pure fun x hx u hu => by cases hu; exact hx.has ht
  | succ n ih =>
      refine (d.calm_deref? hd.1 ht).bind fun x o hx ho => ?_
      cases o with
      | none => exact .pure fun _ _ u hu => by cases hu
      | some next => exact ih (hd.grows hx.grows) (ho next rfl)

theorem calm_unsizeIf (hd : d.RulesWithin s) (ht : s.Has t) (unsizes : Bool) :
    Calm s ((d.resolver settings bounds).unsizeIf unsizes t)
      fun x o => ∀ u, o = .ok u → x.Has u := by
  cases unsizes with
  | false => exact .pure fun x hx u hu => by cases hu; exact hx.has ht
  | true =>
      refine (d.calm_unsize? hd.2 ht).bind fun x o _ ho => ?_
      cases o with
      | none => exact .pure fun _ _ u hu => by cases hu
      | some next => exact .pure fun y hy u hu => by cases hu; exact hy.has (ho next rfl)

theorem calm_form (passing : Passing) (ht : s.Has t) :
    Calm s (passing.form t) fun x u => x.Has u := fun x hx => by
  obtain ⟨hq, -, hfollows⟩ := hx.finish.form_run passing (hx.has ht)
  exact ⟨hq, hfollows.has⟩

/-- Adjusting a receiver assigns nothing, whether or not it succeeds. -/
theorem calm_adjust (hd : d.RulesWithin s) (ht : s.Has receiver) (choice : Choice) :
    Calm s ((d.resolver settings bounds).adjust receiver choice)
      fun x o => ∀ u, o = .ok u → x.Has u := by
  refine (calm_findRoot ht).bind fun x root hx hroot => ?_
  refine (calm_derefTimes settings bounds (hd.grows hx.grows) hroot _).bind fun y o hy ho => ?_
  cases o with
  | error e => exact .pure fun _ _ u hu => by cases hu
  | ok t =>
      have hdy := hd.grows (hx.trans hy).grows
      refine (calm_unsizeIf settings bounds hdy (ho t rfl) _).bind fun z o _ ho => ?_
      cases o with
      | error e => exact .pure fun _ _ u hu => by cases hu
      | ok t =>
          refine (calm_form choice.passing (ho t rfl)).bind fun w u _ hu => ?_
          exact .pure fun v hv u hu' => by cases hu'; exact hv.has hu

end Adjusting

/-- Confirming adjusts the receiver, commits the candidate to it and expands it, and stops
at the first of these that fails. -/
theorem confirm_run {r : Resolver} (hvia : choice.viaTrait = false) :
    (r.confirm receiver choice).run s =
      match (r.adjust receiver choice).run s with
      | (.error e, x) => (.error e, x)
      | (.ok t, x) =>
        match (choice.candidate.commit t).run x with
        | (.error clash, m) => (.error (.clash clash), m)
        | (.ok args, m) =>
          let e := (expand t).run m
          (.ok ⟨choice.adjustments, choice.callee, e.1, args⟩, e.2) := by
  simp only [Resolver.confirm, run_bind, hvia, Bool.false_eq_true, if_false]
  rcases (r.adjust receiver choice).run s with ⟨_ | t, x⟩
  · rfl
  simp only [run_bind]
  rcases (choice.candidate.commit t).run x with ⟨_ | args, m⟩ <;> rfl

/-- A confirmed call has adjusted its receiver and committed its candidate to it. -/
theorem confirm_ok_inv {r : Resolver} (hvia : choice.viaTrait = false)
    (hok : (r.confirm receiver choice).run s = (.ok call, s₁)) :
    ∃ t x m, (r.adjust receiver choice).run s = (.ok t, x) ∧
      (choice.candidate.commit t).run x = (.ok call.args, m) ∧
      (expand t).run m = (call.receiver, s₁) ∧
      call.adjustments = choice.adjustments ∧ call.callee = choice.callee := by
  rw [confirm_run hvia] at hok
  split at hok
  · cases hok
  next t x hadjust =>
    split at hok
    · cases hok
    next args m hcommit =>
      cases hok
      exact ⟨t, x, m, hadjust, hcommit, rfl, rfl, rfl⟩

/-- A confirmation that failed has failed to adjust the receiver or to commit the
candidate. -/
theorem confirm_error_inv {r : Resolver} {e : Unconfirmed} (hvia : choice.viaTrait = false)
    (herror : (r.confirm receiver choice).run s = (.error e, s₁)) :
    (∃ e, (r.adjust receiver choice).run s = (.error e, s₁)) ∨
      ∃ t x clash, (r.adjust receiver choice).run s = (.ok t, x) ∧
        (choice.candidate.commit t).run x = (.error clash, s₁) := by
  rw [confirm_run hvia] at herror
  split at herror
  next e' x hadjust =>
    cases herror
    exact .inl ⟨_, hadjust⟩
  next t x hadjust =>
    split at herror
    next clash m hcommit =>
      cases herror
      exact .inr ⟨t, x, clash, hadjust, hcommit⟩
    · cases herror

/-- A confirmation that only checks assigns nothing. -/
theorem still_confirm (hd : d.RulesWithin s) (ht : s.Has receiver)
    (hc : s.Has choice.candidate.expected) (hvia : choice.viaTrait = true) :
    Still s ((d.resolver settings bounds).confirm receiver choice) := by
  refine (calm_adjust settings bounds hd ht choice).bind fun x o hx ho => ?_
  cases o with
  | error e => exact still_pure _
  | ok t =>
      have hcheck : Still x (choice.candidate.check t) := fun y hy =>
        ⟨Candidate.check_quiet hy.finish (hy.has (hx.has hc)) (hy.has (ho t rfl)), trivial⟩
      simp only [hvia, if_true]
      refine hcheck.bind fun y o hy _ => ?_
      cases o with
      | error clash => exact still_pure _
      | ok args => exact (calm_expand (hy.has (ho t rfl))).bind fun _ _ _ _ => still_pure _

/-- A confirmation that fails, or that only checks, assigns nothing. -/
theorem confirm_quiet (hs : s.Ordered) (hd : d.RulesWithin s) (ht : s.Has receiver)
    (hc : s.Has choice.candidate.expected) :
    let z := ((d.resolver settings bounds).confirm receiver choice).run s
    (∃ e, z.1 = .error e) ∨ choice.viaTrait = true → Quiet s z.2 := by
  intro z hcase
  cases hvia : choice.viaTrait with
  | true => exact (still_confirm hd ht hc hvia s (.refl hs)).1
  | false =>
      obtain ⟨e, he⟩ := hcase.resolve_right (by simp [hvia])
      obtain ⟨hq, hhas⟩ := calm_adjust settings bounds hd ht choice s (.refl hs)
      rcases confirm_error_inv hvia (Prod.ext he rfl : z = (.error e, z.2)) with
        ⟨e', hadjust⟩ | ⟨t, x, clash, hadjust, hcommit⟩
      · rw [hadjust] at hq
        exact hq
      · rw [hadjust] at hq hhas
        exact hq.trans (Candidate.commit_error_quiet hq.finish (hq.has hc) (hhas t rfl) hcommit)

/-- A confirmation for good: the receiver is adjusted to `t`, the candidate is committed to
that, and `t` is expanded.  Before the commitment the store is `x`, and after it `m`. -/
structure Settled (r : Resolver) (s s₁ : TypeStore) (receiver : TypeId) (choice : Choice)
    (call : ResolvedCall) (t : TypeId) (x m : TypeStore) : Prop where
  adjusts : (r.adjust receiver choice).run s = (.ok t, x)
  quiet : Quiet s x
  has : x.Has t
  stands : choice.candidate.Stands x
  commits : ∃ y vars e, choice.candidate.Commits t x y m vars e call.args
  grows : Grows x m
  last : Quiet m s₁
  reads : s₁.Reads (m.meaning t) call.receiver
  adjustments : call.adjustments = choice.adjustments

/-- **A confirmation that succeeds** has repeated the steps, formed the receiver and
committed to the candidate, in this order. -/
theorem settled_of_confirm_ok (hs : s.Sound) (hd : d.RulesWithin s) (ht : s.Has receiver)
    (hc : choice.candidate.Stands s) (hvia : choice.viaTrait = false)
    (hok : ((d.resolver settings bounds).confirm receiver choice).run s = (.ok call, s₁)) :
    ∃ t x m, Settled (d.resolver settings bounds) s s₁ receiver choice call t x m := by
  obtain ⟨t, x, m, hadjust, hcommit, hexpand, hadjustments, -⟩ := confirm_ok_inv hvia hok
  obtain ⟨hqx, hhas⟩ := calm_adjust settings bounds hd ht choice s (.refl hs.ordered)
  rw [hadjust] at hqx hhas
  have htx : x.Has t := hhas t rfl
  obtain ⟨y, vars, e, hcommits⟩ :=
    Candidate.commit_ok_inv (hs.quiet hqx) (hc.quiet hqx) htx hcommit
  have hgrows := hcommits.grows (hs.quiet hqx) htx
  obtain ⟨hlast, hreads⟩ := hcommits.sound.ordered.expand_run (hgrows.has htx)
  rw [hexpand] at hlast hreads
  exact ⟨t, x, m, hadjust, hqx, htx, hc.quiet hqx, ⟨y, vars, e, hcommits⟩, hgrows, hlast, hreads,
    hadjustments⟩

/-- Of the earlier variables only those of the adjusted receiver are assigned. -/
theorem Settled.spares {r : Resolver} {x m : TypeStore}
    (h : Settled r s s₁ receiver choice call t x m) (hs : s.Sound) {id : Nat}
    (hid : id < s.variableCount) (hopen : ∀ u, s.binding id ≠ .linked u)
    (hnot : .var id ∉ (x.meaning t).atoms) : s₁.binding id = s.binding id := by
  obtain ⟨y, vars, e, hcommits⟩ := h.commits
  have hidx := Nat.lt_of_lt_of_le hid h.quiet.grows.count_le
  have hbinding : x.binding id = s.binding id := h.quiet.keeps.binding_of_not_linked hid hopen
  have hspared : m.binding id = x.binding id :=
    hcommits.spares (hs.quiet h.quiet) h.stands h.has hidx (fun u => hbinding ▸ hopen u) hnot
  calc s₁.binding id = m.binding id :=
        h.last.keeps.binding_of_not_linked (Nat.lt_of_lt_of_le hidx h.grows.count_le) fun u => by
          rw [hspared, hbinding]
          exact hopen u
    _ = x.binding id := hspared
    _ = s.binding id := hbinding

/-- **Confirming a choice is all or nothing**, and what it assigns is no more than the
receiver needs.  In every reached store, for every choice at all: when the confirmation
fails, or when the choice is called through a trait, no variable is assigned and every
type means what it meant.  When it succeeds for good, the earlier variables that it
assigned all occur in the adjusted receiver. -/
theorem confirm_atomic {checkpoints : List Checkpoint} (h : Reached checkpoints s)
    (hd : d.RulesWithin s) (ht : s.Has receiver) (hc : choice.candidate.Stands s) :
    let r := d.resolver settings bounds
    let z := (r.confirm receiver choice).run s
    ((∃ e, z.1 = .error e) ∨ choice.viaTrait = true →
      (∀ id < s.variableCount, (∀ u, s.binding id ≠ .linked u) → z.2.binding id = s.binding id) ∧
        ∀ t, s.Has t → z.2.meaning t = s.meaning t) ∧
    (∀ call, z.1 = .ok call → choice.viaTrait = false →
      ∃ t x, (r.adjust receiver choice).run s = (.ok t, x) ∧
        ∀ id < s.variableCount, (∀ u, s.binding id ≠ .linked u) →
          z.2.binding id ≠ s.binding id → .var id ∈ (x.meaning t).atoms) := by
  intro r z
  refine ⟨fun hcase => ?_, fun call hok hvia => ?_⟩
  · have hq := confirm_quiet h.sound.ordered hd ht hc.has hcase
    exact ⟨fun id => hq.keeps.binding_of_not_linked, fun t => hq.meaning_eq⟩
  · obtain ⟨t, x, m, hsettled⟩ :=
      settled_of_confirm_ok h.sound hd ht hc hvia (Prod.ext hok rfl : z = (.ok call, z.2))
    refine ⟨t, x, hsettled.adjusts, fun id hid hopen hchanged => ?_⟩
    by_contra hnot
    exact hchanged (hsettled.spares h.sound hid hopen hnot)

set_option maxRecDepth 8192 in
/-- A method on `bool` that is confirmed for a new variable assigns it. -/
theorem newVar_confirmed :
    let v := newVar.run new
    let r := Declarations.empty.resolver {} .empty
    let choice : Choice := ⟨⟨.impl ⟨0⟩, .inherent, .blank, .byValue, .ofPrimitive .bool, 0,
      .ofPrimitive .bool⟩, 0, .byValue, false, false⟩
    let z := (r.confirm v.1 choice).run v.2
    (z.1, z.2.binding 0) =
      (.ok ⟨[], .ofImpl ⟨0⟩, .ofPrimitive .bool, []⟩, .linked (.ofPrimitive .bool)) := by
  cbv

/-- It was the receiver that was assigned; called through a trait, the method assigns
nothing. -/
theorem confirm_atomic_newVar :
    let v := newVar.run new
    let r := Declarations.empty.resolver {} .empty
    let choice (viaTrait : Bool) : Choice := ⟨⟨.impl ⟨0⟩, .inherent, .blank, .byValue,
      .ofPrimitive .bool, 0, .ofPrimitive .bool⟩, 0, .byValue, false, viaTrait⟩
    ((r.confirm v.1 (choice true)).run v.2).2.binding 0 = .free 0 none ∧
      ∃ t x, (r.adjust v.1 (choice false)).run v.2 = (.ok t, x) ∧
        .var 0 ∈ (x.meaning t).atoms := by
  intro v r choice
  have hreached : Reached [] v.2 := Reached.act .var .new (by simp [Action.types])
  obtain ⟨-, hadd⟩ := new_sound.ordered.newVar_run
  have hrules : Declarations.empty.RulesWithin v.2 := by
    simp [Declarations.RulesWithin, Declarations.empty]
  obtain ⟨hbool, hwritten⟩ := hreached.reads_primitive .bool
  have hstands : ∀ viaTrait, (choice viaTrait).candidate.Stands v.2 := fun _ =>
    ⟨hbool, by simp [choice, v, hwritten, Fixed]⟩
  have hfree : v.2.binding 0 = .free 0 none := hadd.binding
  have hopen : ∀ u, v.2.binding 0 ≠ .linked u := by simp [hfree]
  have hcount : 0 < v.2.variableCount := Nat.lt_of_lt_of_eq Nat.one_pos hadd.count.symm
  obtain ⟨hok, hlinked⟩ := Prod.mk.inj newVar_confirmed
  obtain ⟨htrait, -⟩ := confirm_atomic hreached hrules hadd.has (hstands true)
  obtain ⟨-, hcommitted⟩ := confirm_atomic hreached hrules hadd.has (hstands false)
  obtain ⟨t, x, hadjust, honly⟩ := hcommitted _ hok rfl
  refine ⟨((htrait (.inr rfl)).1 0 hcount hopen).trans hfree, t, x, hadjust, ?_⟩
  exact honly 0 hcount hopen fun hsame => by
    rw [hlinked, hfree] at hsame
    cases hsame

end Declarations

end DotCall
