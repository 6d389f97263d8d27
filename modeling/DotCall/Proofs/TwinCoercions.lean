import DotCall.Proofs.AgreeingOutcomes
import DotCall.Proofs.QuietResolution

/-!
# Steps on twins

A rule matches on one of two twin stores exactly when it matches on the other, and
its target is written alike there.  The target may mention variables that were made
for the trial; they stay known to both sides after it.  So the coercions of a program
go by how a type is written and not by the numbers it was given, and a receiver takes
the same steps on both sides.
-/

namespace DotCall

open TypeStore Twin

namespace TypeStore.Steady

variable {α β γ δ : Type} {w : Twin} {S : α → β → Prop} {xs : List α} {ys : List β}

/-- Two searches through lists that belong together element by element stop at the same
place. -/
theorem anyM {test : α → StateM TypeStore Bool} {test' : β → StateM TypeStore Bool}
    (hxs : List.Forall₂ S xs ys)
    (h : ∀ a b, S a b → Steady w (test a) (test' b) fun _ p q => p = q) :
    Steady w (xs.anyM test) (ys.anyM test') fun _ p q => p = q := by
  induction hxs generalizing w with
  | nil => exact .pure fun _ _ => rfl
  | cons hab _ ih =>
      rw [List.anyM_cons, List.anyM_cons]
      apply (h _ _ hab).bind
      intro v p q hv hpq
      subst hpq
      cases p with
      | true => exact .pure fun _ _ => rfl
      | false => exact ih fun a b hS => (h a b hS).mono hv

/-- The same for a search that returns something. What it returned has to belong together
in all later stores. -/
theorem findSomeM? {f : α → StateM TypeStore (Option γ)} {f' : β → StateM TypeStore (Option δ)}
    {P : Twin → γ → δ → Prop} (last : ∀ {v v' c d}, v.Leads v' → P v c d → P v' c d)
    (hxs : List.Forall₂ S xs ys)
    (h : ∀ a b, S a b → Steady w (f a) (f' b) fun v o o' => Option.Rel (P v) o o') :
    Steady w (xs.findSomeM? f) (ys.findSomeM? f') fun v o o' => Option.Rel (P v) o o' := by
  induction hxs generalizing w with
  | nil => exact .pure fun _ _ => .none
  | cons hab _ ih =>
      rw [List.findSomeM?_cons, List.findSomeM?_cons]
      apply (h _ _ hab).bind
      intro v o o' hv ho
      cases ho with
      | some hP => exact .pure fun _ hv' => .some (last hv' hP)
      | none => exact ih fun a b hS => (h a b hS).mono hv

/-- Each element in turn; what is known of the answers has to last. -/
theorem mapM {f : α → StateM TypeStore γ} {f' : β → StateM TypeStore δ}
    {P : Twin → γ → δ → Prop} (last : ∀ {v v' c d}, v.Leads v' → P v c d → P v' c d)
    (hxs : List.Forall₂ S xs ys)
    (h : ∀ a b, S a b → Steady w (f a) (f' b) P) :
    Steady w (xs.mapM f) (ys.mapM f') fun v cs ds => List.Forall₂ (P v) cs ds := by
  induction hxs generalizing w with
  | nil => exact .pure fun _ _ => .nil
  | cons hab _ ih =>
      rw [List.mapM_cons, List.mapM_cons]
      apply (h _ _ hab).bind
      intro v c d hv hcd
      apply (ih fun a b hS => (h a b hS).mono hv).bind
      intro v₁ cs ds hv₁ hcds
      exact .pure fun v₂ hv₂ =>
        .cons (last (hv₁.trans hv₂) hcd) (hcds.imp fun _ _ hP => last hv₂ hP)

/-- The same accumulator on both sides. -/
theorem foldlM {f f' : γ → α → StateM TypeStore γ} {as : List α}
    (h : ∀ c, ∀ a ∈ as, Steady w (f c a) (f' c a) fun _ p q => p = q) (c : γ) :
    Steady w (as.foldlM f c) (as.foldlM f' c) fun _ p q => p = q := by
  induction as generalizing w c with
  | nil => exact .pure fun _ _ => rfl
  | cons a as ih =>
      rw [List.foldlM_cons, List.foldlM_cons]
      apply (h c a List.mem_cons_self).bind
      intro v p q hv hpq
      subst hpq
      exact ih (fun c a' ha' => (h c a' (List.mem_cons_of_mem _ ha')).mono hv) p

/-- What passes a test that is steady. -/
theorem keepM {test : α → StateM TypeStore Bool} {test' : β → StateM TypeStore Bool}
    (hxs : List.Forall₂ S xs ys)
    (h : ∀ a b, S a b → Steady w (test a) (test' b) fun _ p q => p = q) :
    Steady w (DotCall.keepM test xs) (DotCall.keepM test' ys)
      fun _ as bs => List.Forall₂ S as bs := by
  induction hxs generalizing w with
  | nil => exact .pure fun _ _ => .nil
  | cons hab _ ih =>
      apply (h _ _ hab).bind
      intro v p q hv hpq
      subst hpq
      apply (ih fun a b hS => (h a b hS).mono hv).bind
      intro v₁ as bs _ hrest
      cases p with
      | true => exact .pure fun _ _ => .cons hab hrest
      | false => exact .pure fun _ _ => hrest

end TypeStore.Steady

namespace TypeStore.Twin

variable {w : Twin} {t u : TypeId}

/-- Types that belong together are written out alike. -/
theorem Pairs.steady_expand (h : w.Pairs t u) :
    Steady w (expand t) (expand u) fun v t u => v.Pairs t u := by
  apply steady_of_quiet
  intro v hv
  have hpair := hv.pairs h
  obtain ⟨hknown, hmeaning⟩ := hpair.meaning
  obtain ⟨hq, hhas, hwritten⟩ := v.leftOrdered.expand_run hpair.left
  obtain ⟨hq', hhas', hwritten'⟩ := v.rightOrdered.expand_run hpair.right
  refine ⟨hq, hq', hhas, hhas', ?_, ?_⟩
  · rwa [hwritten]
  · rw [hwritten, hwritten', hmeaning]

theorem Pairs.steady_refTo (h : w.Pairs t u) (b : Borrow) :
    Steady w (refTo b t) (refTo b u) fun v t u => v.Pairs t u := by
  apply steady_of_quiet
  intro v hv
  have hpair := hv.pairs h
  obtain ⟨hq, -, hhas, hnode⟩ := v.leftOrdered.refTo_quiet b hpair.left
  obtain ⟨hq', -, hhas', hnode'⟩ := v.rightOrdered.refTo_quiet b hpair.right
  exact ⟨hq, hq', Pairing.Pairs.wrap hpair hq hq' hhas hnode hhas' hnode'⟩

theorem Pairs.steady_sliceOf (h : w.Pairs t u) :
    Steady w (sliceOf t) (sliceOf u) fun v t u => v.Pairs t u := by
  apply steady_of_quiet
  intro v hv
  have hpair := hv.pairs h
  obtain ⟨hq, -, hhas, hnode⟩ := v.leftOrdered.sliceOf_quiet hpair.left
  obtain ⟨hq', -, hhas', hnode'⟩ := v.rightOrdered.sliceOf_quiet hpair.right
  exact ⟨hq, hq', Pairing.Pairs.wrap hpair hq hq' hhas hnode hhas' hnode'⟩

/-- Every type is written like at most one of the other side. -/
theorem biUnique_pairs : Relator.BiUnique w.Pairs :=
  ⟨fun _ _ _ h h' => (h.eq_iff h').mpr rfl, fun _ _ _ h h' => (h.eq_iff h').mp rfl⟩

/-- Types that are written alike have the same head. -/
theorem Pairs.head?_eq (h : w.Pairs t u) : w.right.head? u = w.left.head? t := by
  unfold head?
  have hnode := h.root.node
  generalize w.left.node (w.left.root t) = n at hnode
  generalize w.right.node (w.right.root u) = m at hnode
  cases hnode with
  | atom _ => rfl
  | var _ => rfl
  | app _ => rfl

end TypeStore.Twin

namespace Rule

variable {w : Twin} {t u : TypeId}

/-- Both types of the rule are in both stores, written alike. -/
structure PairedIn (rule : Rule) (w : Twin) : Prop where
  source : w.Pairs rule.source rule.source
  target : w.Pairs rule.target rule.target

theorem PairedIn.leads {rule : Rule} (h : rule.PairedIn w) {v : Twin} (hv : w.Leads v) :
    rule.PairedIn v :=
  ⟨hv.pairs h.source, hv.pairs h.target⟩

/-- **A rule on twins.**  It matches on both sides or on neither, and its targets are
written alike. -/
theorem steady_target? {rule : Rule} (hrule : rule.PairedIn w) (h : w.Pairs t u) :
    Steady w (rule.target? t) (rule.target? u) fun v o o' => Option.Rel v.Pairs o o' := by
  apply Steady.tentatively
  · intro v v' o o' hl hr hp ho
    cases ho with
    | none => exact .none
    | some hpair => exact .some (by rw [Twin.Pairs, hp]; exact Pairing.Pairs.congr hpair hl hr)
  intro v hv
  apply (alike_newVars v.opened rule.arity).bind
  intro v₁ args args' hv₁ hargs
  apply ((hv₁.pairs (hv.pairs hrule.source).opened).alike_instantiate hargs).bind
  intro v₂ source source' hv₂ hsource
  have h₂ := hv₁.trans hv₂
  apply (hsource.alike_unifies (h₂.pairs (hv.pairs h).opened)).bind
  intro v₃ p q hv₃ hpq
  subst hpq
  cases p with
  | false => exact .pure fun _ _ => .none
  | true =>
      have h₃ := h₂.trans hv₃
      have hargs₃ : List.Forall₂ v₃.Pairs args args' :=
        hargs.imp fun _ _ hp => (hv₂.trans hv₃).pairs hp
      apply ((h₃.pairs (hv.pairs hrule.target).opened).alike_instantiate hargs₃).bind
      intro v₄ target target' _ htarget
      apply htarget.steady_expand.alike.bind
      intro v₅ result result' _ hresult
      exact .pure fun v₆ hv₆ => .some (hv₆.pairs hresult)

/-- The first rule that matches is the same one in both stores. -/
theorem steady_firstTarget? {rules : List Rule} (hrules : ∀ rule ∈ rules, rule.PairedIn w)
    (h : w.Pairs t u) :
    Steady w (firstTarget? rules t) (firstTarget? rules u)
      fun v o o' => Option.Rel v.Pairs o o' := by
  apply Steady.get_bind
  intro v hv
  rw [(hv.pairs h).head?_eq]
  cases v.left.head? t with
  | none => exact .pure fun _ _ => .none
  | some head =>
      have hsame : List.Forall₂ (fun a b => a = b ∧ a ∈ rules) rules rules :=
        List.forall₂_same.mpr fun rule hmem => ⟨rfl, hmem⟩
      apply Steady.findSomeM? (P := Twin.Pairs) (fun hv hp => hv.pairs hp) hsame
      intro rule rule' hrule
      obtain ⟨rfl, hmem⟩ := hrule
      apply Steady.get_bind
      intro v₁ hv₁
      have hv' := hv.trans hv₁
      have hpaired := (hrules rule hmem).leads hv'
      rw [hpaired.source.head?_eq]
      split
      · exact steady_target? hpaired (hv'.pairs h)
      · exact .pure fun _ _ => .none

end Rule

/-- From `w` on the coercions are quiet and go by how a type is written: for types that
are written alike they give none on both sides, or types that are again written alike. -/
structure Coercions.UniformFrom (c : Coercions) (w : Twin) : Prop where
  deref : ∀ v, w.Leads v → ∀ t u, v.Pairs t u →
    Steady v (c.deref? t) (c.deref? u) fun v' o o' => Option.Rel v'.Pairs o o'
  unsize : ∀ v, w.Leads v → ∀ t u, v.Pairs t u →
    Steady v (c.unsize? t) (c.unsize? u) fun v' o o' => Option.Rel v'.Pairs o o'

theorem Coercions.UniformFrom.leads {c : Coercions} {w v : Twin} (h : c.UniformFrom w)
    (hv : w.Leads v) : c.UniformFrom v :=
  ⟨fun v' hv' => h.deref v' (hv.trans hv'), fun v' hv' => h.unsize v' (hv.trans hv')⟩

/-- From `s` on the coercions are quiet and go by how a type is written, whatever quiet
work has made of the store. -/
def Coercions.Uniform (c : Coercions) (s : TypeStore) : Prop :=
  ∀ {x y} (hx : Quiet s x) (hy : Quiet s y), c.UniformFrom (Twin.start hx hy)

namespace Declarations

variable {d : Declarations} {w : Twin} {t u : TypeId}

/-- Dereferencing goes the same way in both stores. -/
theorem steady_deref? (hd : ∀ rule ∈ d.derefs, rule.PairedIn w) (h : w.Pairs t u) :
    Steady w (d.deref? t) (d.deref? u) fun v o o' => Option.Rel v.Pairs o o' := by
  apply h.steady_findRoot.bind
  intro v t u hv htu
  apply Steady.get_bind
  intro v₁ hv₁
  have htu₁ := hv₁.pairs htu
  have hrules : Steady v₁ (Rule.firstTarget? d.derefs t) (Rule.firstTarget? d.derefs u)
      fun v o o' => Option.Rel v.Pairs o o' :=
    Rule.steady_firstTarget? (fun rule hmem => (hd rule hmem).leads (hv.trans hv₁)) htu₁
  have hnode := htu₁.node
  generalize v₁.left.node t = n at hnode
  generalize v₁.right.node u = m at hnode
  cases hnode with
  | atom _ => exact hrules
  | var _ => exact hrules
  | @app f args parts hargs =>
      cases f with
      | ref b =>
          cases hargs with
          | nil => exact hrules
          | cons hp _ => exact .pure fun v₂ hv₂ => .some (hv₂.pairs hp)
      | slice | array n | nominal name => exact hrules

/-- Unsizing goes the same way as well, by a rule or because of an array. -/
theorem steady_unsize? (hd : ∀ rule ∈ d.unsizings, rule.PairedIn w) (h : w.Pairs t u) :
    Steady w (d.unsize? t) (d.unsize? u) fun v o o' => Option.Rel v.Pairs o o' := by
  apply h.steady_findRoot.bind
  intro v t u hv htu
  apply Steady.get_bind
  intro v₁ hv₁
  have htu₁ := hv₁.pairs htu
  have hrules : Steady v₁ (Rule.firstTarget? d.unsizings t) (Rule.firstTarget? d.unsizings u)
      fun v o o' => Option.Rel v.Pairs o o' :=
    Rule.steady_firstTarget? (fun rule hmem => (hd rule hmem).leads (hv.trans hv₁)) htu₁
  have hnode := htu₁.node
  generalize v₁.left.node t = n at hnode
  generalize v₁.right.node u = m at hnode
  cases hnode with
  | atom _ => exact hrules
  | var _ => exact hrules
  | @app f args parts hargs =>
      cases f with
      | array n =>
          cases hargs with
          | nil => exact hrules
          | cons hp _ =>
              apply hp.steady_sliceOf.bind
              intro v₂ slice slice' _ hslice
              exact .pure fun v₃ hv₃ => .some (hv₃.pairs hslice)
      | ref b | slice | nominal name => exact hrules

/-- **The coercions of a program** go by how a type is written. -/
theorem RulesWithin.uniform {s : TypeStore} (hd : d.RulesWithin s) : d.coercions.Uniform s := by
  intro x y hx hy
  have hpaired : ∀ {rule : Rule}, rule.Within s → ∀ {v}, (Twin.start hx hy).Leads v →
      rule.PairedIn v := by
    intro rule hrule v hv
    exact ⟨hv.pairs (pairs_self hx hy hrule.1), hv.pairs (pairs_self hx hy hrule.2)⟩
  constructor
  · intro v hv t u htu
    exact steady_deref? (fun rule hmem => hpaired (hd.1 rule hmem) hv) htu
  · intro v hv t u htu
    exact steady_unsize? (fun rule hmem => hpaired (hd.2 rule hmem) hv) htu

end Declarations

/-- Steps to types that are written alike. -/
structure Step.PairedIn (w : Twin) (step step' : Step) : Prop where
  ty : w.Pairs step.ty step'.ty
  unsized : step'.unsized = step.unsized

theorem Step.PairedIn.leads {w v : Twin} {step step' : Step} (h : step.PairedIn w step')
    (hv : w.Leads v) : step.PairedIn v step' :=
  ⟨hv.pairs h.ty, h.unsized⟩

namespace Resolver

variable {r : Resolver} {w : Twin} {R : TypeId → TypeId → Prop} {receiver receiver' : TypeId}

/-- **The chain of dereferences on twins** is as long on both sides, through types that
are written alike, and endless on both sides or on neither. -/
theorem steady_derefChain (hc : r.coercions.UniformFrom w) (room : Nat)
    {seen seen' : List TypeId} {current current' : TypeId} (hseen : List.Forall₂ w.Pairs seen seen')
    (h : w.Pairs current current') :
    Steady w (r.derefChain receiver room seen current) (r.derefChain receiver' room seen' current')
      fun v o o' => Failure.AgreeOr R (List.Forall₂ v.Pairs) o o' := by
  induction room generalizing w seen seen' current current' with
  | zero =>
      unfold derefChain
      rw [decide_eq_decide.mpr (List.rel_mem biUnique_pairs h hseen)]
      exact .pure fun _ _ => .error .endlessDeref
  | succ room ih =>
      unfold derefChain
      have hiff : current ∈ seen ↔ current' ∈ seen' := List.rel_mem biUnique_pairs h hseen
      by_cases hmem : current ∈ seen
      · rw [if_pos hmem, if_pos (hiff.mp hmem)]
        exact .pure fun _ _ => .error .endlessDeref
      rw [if_neg hmem, if_neg fun hmem' => hmem (hiff.mpr hmem')]
      apply (hc.deref w (.refl w) _ _ h).bind
      intro v o o' hv ho
      cases ho with
      | none => exact .pure fun v' hv' => .ok (.cons ((hv.trans hv').pairs h) .nil)
      | some hnext =>
          apply hnext.steady_expand.bind
          intro v₁ next next' hv₁ hexpanded
          have h₁ := hv.trans hv₁
          have hseen₁ : List.Forall₂ v₁.Pairs (current :: seen) (current' :: seen') :=
            .cons (h₁.pairs h) (hseen.imp fun _ _ hp => h₁.pairs hp)
          apply (ih (hc.leads h₁) hseen₁ hexpanded).bind
          intro v₂ o o' hv₂ ho
          cases ho with
          | error hf => exact .pure fun _ _ => .error hf
          | ok hrest =>
              exact .pure fun v₃ hv₃ => .ok (.cons ((h₁.trans (hv₂.trans hv₃)).pairs h)
                (hrest.imp fun _ _ hp => hv₃.pairs hp))

theorem getLast?_pairs {chain chain' : List TypeId} (h : List.Forall₂ w.Pairs chain chain') :
    Option.Rel w.Pairs chain.getLast? chain'.getLast? := by
  induction h with
  | nil => exact .none
  | cons hp hrest ih =>
      cases hrest with
      | nil => exact .some hp
      | cons _ _ => simpa using ih

/-- The ends of two chains that belong together are unsized alike. -/
theorem steady_unsizeLast? (hc : r.coercions.UniformFrom w) {chain chain' : List TypeId}
    (h : List.Forall₂ w.Pairs chain chain') :
    Steady w (r.unsizeLast? chain) (r.unsizeLast? chain')
      fun v o o' => Option.Rel v.Pairs o o' := by
  unfold unsizeLast?
  have hlast := getLast?_pairs h
  generalize chain.getLast? = last at hlast
  generalize chain'.getLast? = last' at hlast
  cases hlast with
  | none => exact .pure fun _ _ => .none
  | some hp =>
      apply (hc.unsize w (.refl w) _ _ hp).bind
      intro v o o' hv ho
      cases ho with
      | none => exact .pure fun _ _ => .none
      | some hresult =>
          apply hresult.steady_expand.bind
          intro v₁ t u _ htu
          exact .pure fun v₂ hv₂ => .some (hv₂.pairs htu)

/-- **The steps of a receiver on twins.** -/
theorem steady_stepsOf (hc : r.coercions.UniformFrom w) (h : w.Pairs receiver receiver') :
    Steady w (r.stepsOf receiver) (r.stepsOf receiver')
      fun v o o' => Failure.AgreeOr R (List.Forall₂ (Step.PairedIn v)) o o' := by
  apply h.steady_expand.bind
  intro v first first' hv hfirst
  apply (steady_derefChain (hc.leads hv) _ .nil hfirst).bind
  intro v₁ o o' hv₁ ho
  cases ho with
  | error hf => exact .pure fun _ _ => .error hf
  | ok hchain =>
      apply (steady_unsizeLast? (hc.leads (hv.trans hv₁)) hchain).bind
      intro v₂ last last' hv₂ hlast
      refine .pure fun v₃ hv₃ => .ok ?_
      have hsteps : ∀ {ts us : List TypeId} (unsized : Bool), List.Forall₂ v₃.Pairs ts us →
          List.Forall₂ (Step.PairedIn v₃) (ts.map (⟨·, unsized⟩)) (us.map (⟨·, unsized⟩)) :=
        fun _ hts => List.rel_map (fun _ _ hp => ⟨hp, rfl⟩) hts
      apply List.rel_append
      · exact hsteps false (hchain.imp fun _ _ hp => (hv₂.trans hv₃).pairs hp)
      · cases hlast with
        | none => exact .nil
        | some hp => exact hsteps true (.cons (hv₃.pairs hp) .nil)

end Resolver

end DotCall
