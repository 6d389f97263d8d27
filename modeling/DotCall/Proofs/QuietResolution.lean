import DotCall.Call.Outcome
import DotCall.Proofs.ReachedStores
import DotCall.Proofs.UndisturbedStores

/-!
# Resolving a call disturbs nothing

Judging obligations, matching rules, gathering candidates and searching them all
try assignments and take them back: each is quiet, on every store whose links do
not run in a circle and for every input whose types are in the store.  How deep
the conditions of impls are nested makes no difference.  So resolving a call
leaves a store undisturbed, as long as the coercions do.
-/

namespace DotCall

open TypeStore

section Verdicts

variable {α : Type} {s : TypeStore} {judge : α → StateM TypeStore Verdict} {xs : List α}

theorem still_allHold (h : ∀ a ∈ xs, Still s (judge a)) : Still s (allHold judge xs) := by
  induction xs generalizing s with
  | nil => exact still_pure _
  | cons a xs ih =>
      refine (h a List.mem_cons_self).bind fun x v hx _ => ?_
      have hrest := ih fun a' ha' => (h a' (List.mem_cons_of_mem _ ha')).mono hx
      cases v with
      | refuted => exact still_pure _
      | holds | undecided => exact hrest.bind fun _ _ _ _ => still_pure _

theorem still_someHolds (h : ∀ a ∈ xs, Still s (judge a)) : Still s (someHolds judge xs) := by
  induction xs generalizing s with
  | nil => exact still_pure _
  | cons a xs ih =>
      refine (h a List.mem_cons_self).bind fun x v hx _ => ?_
      have hrest := ih fun a' ha' => (h a' (List.mem_cons_of_mem _ ha')).mono hx
      cases v with
      | holds => exact still_pure _
      | refuted | undecided => exact hrest.bind fun _ _ _ _ => still_pure _

/-- Judging conditions is still when judging one trait is, as their instances are made
without binding anything. -/
theorem still_judgeConditions {judge : TypeId → TraitId → StateM TypeStore Verdict}
    {args : List TypeId} {conditions : List Condition}
    (hjudge : ∀ x t traitId, Grows s x → x.Has t → Still x (judge t traitId))
    (hargs : ∀ a ∈ args, s.Has a) (hc : ∀ c ∈ conditions, s.Has c.ty) :
    Still s (judgeConditions judge args conditions) := by
  refine still_allHold fun c hmem => ?_
  refine (calm_instantiate (hc c hmem) hargs).bind fun x t hx ht => ?_
  exact still_allHold fun traitId _ => hjudge x t traitId hx.grows ht

end Verdicts

namespace Resolver

variable {r : Resolver} {s x : TypeStore} {t : TypeId} {traitId : TraitId}

/-- A resolver whose types the store has is one for every larger store. -/
theorem Within.grows (h : r.Within s) (hg : Grows s x) : r.Within x := by
  intro id decl hdecl
  obtain ⟨hself, hconditions⟩ := h id decl hdecl
  exact ⟨hg.has hself, fun c hc => hg.has (hconditions c hc)⟩

/-- Trying an impl is quiet when judging its conditions is. -/
theorem still_judgeImpl {judge : TypeId → TraitId → StateM TypeStore Verdict}
    (hjudge : ∀ x t traitId, Grows s x → x.Has t → Still x (judge t traitId)) (hr : r.Within s)
    (ht : s.Has t) (id : ImplId) : Still s (tentatively (r.judgeImpl judge t id)) := by
  unfold judgeImpl
  cases hdecl : r.db.impl? id with
  | none =>
      exact calm_tentatively (fun _ _ => trivial) fun _ _ =>
        lasting_works.pure fun _ _ => trivial
  | some decl =>
      obtain ⟨hself, hconditions⟩ := hr id decl hdecl
      refine calm_trial (fun _ _ => trivial) hself ht ?_
      intro x args matched _ hx hargs
      cases matched with
      | false => exact still_pure _
      | true =>
          -- the conditions are judged under the checkpoint, at a store that has grown
          refine still_judgeConditions (fun y v traitId hy hv => ?_) hargs fun c hc =>
            hx.has (hconditions c hc)
          exact hjudge y v traitId (hx.trans hy) hv

/-- **Judging is quiet**, however deep the conditions of impls are followed. -/
theorem still_judgeWithin (depth : Nat) (hr : r.Within s) (ht : s.Has t) :
    Still s (r.judgeWithin depth t traitId) := by
  induction depth generalizing s t traitId with
  | zero =>
      refine (calm_findRoot ht).bind fun _ _ _ _ => Calm.get.bind fun _ _ _ _ => ?_
      exact still_pure _
  | succ depth ih =>
      refine (calm_findRoot ht).bind fun x u hx hu => Calm.get.bind fun y _ hy hsame => ?_
      subst hsame
      split
      · exact still_pure _
      refine still_someHolds fun id _ => ?_
      have hry : r.Within y := hr.grows (hx.grows.trans hy.grows)
      exact still_judgeImpl (fun z v traitId hz hv => ih (hry.grows hz) hv) hry (hy.has hu) id

/-- **Judging leaves nothing bound**, however deep it has to look. -/
theorem still_judge (hr : r.Within s) (ht : s.Has t) : Still s (r.judge t traitId) :=
  still_judgeWithin _ hr ht

theorem still_judgeImplConditions (hr : r.Within s) (id : ImplId) {args : List TypeId}
    (hargs : ∀ a ∈ args, s.Has a) : Still s (r.judgeImplConditions id args) := by
  unfold judgeImplConditions
  cases hdecl : r.db.impl? id with
  | none => exact still_pure _
  | some decl =>
      exact still_judgeConditions (fun x t traitId hx ht => still_judge (hr.grows hx) ht) hargs
        (hr id decl hdecl).2

end Resolver

/-- Both types of the rule are in the store. -/
def Rule.Within (rule : Rule) (s : TypeStore) : Prop := s.Has rule.source ∧ s.Has rule.target

namespace Rule

variable {s : TypeStore} {t : TypeId}

/-- A rule is matched in a probe, so only the types of its target are left behind. -/
theorem calm_target? {rule : Rule} (hrule : rule.Within s) (ht : s.Has t) :
    Calm s (rule.target? t) fun x o => ∀ u, o = some u → x.Has u := by
  refine calm_trial (fun he h u hu => (has_congr he).mpr (h u hu)) hrule.1 ht ?_
  intro x args matched _ hx hargs
  cases matched with
  | false => exact .pure fun _ _ u hu => by cases hu
  | true =>
      refine (calm_instantiate (hx.has hrule.2) hargs).bind fun y target hy htarget => ?_
      refine (calm_expand htarget).bind fun z result hz hresult => ?_
      exact .pure fun w hw u hu => Option.some.inj hu ▸ hw.has hresult

/-- Nothing more is left when several rules are tried in turn. -/
theorem calm_firstTarget? {rules : List Rule} (hrules : ∀ rule ∈ rules, rule.Within s)
    (ht : s.Has t) : Calm s (firstTarget? rules t) fun x o => ∀ u, o = some u → x.Has u := by
  refine Calm.get.bind fun x _ hx hsame => ?_
  subst hsame
  split
  · exact .pure fun _ _ u hu => by cases hu
  refine calm_findSomeM?_some (fun hq hu => hq.has hu) fun rule hmem => ?_
  refine Calm.get.bind fun y _ hy hsame => ?_
  subst hsame
  split
  · have hg := hx.grows.trans hy.grows
    exact calm_target? ((hrules rule hmem).imp hg.has hg.has) (hg.has ht)
  · exact .pure fun _ _ u hu => by cases hu

end Rule

namespace Declarations

variable {d : Declarations} {s : TypeStore} {t : TypeId}

/-- One step of dereferencing binds nothing, by whichever rule it goes. -/
theorem calm_deref? (hd : ∀ rule ∈ d.derefs, rule.Within s) (ht : s.Has t) :
    Calm s (d.deref? t) fun x o => ∀ u, o = some u → x.Has u := by
  refine (calm_findRoot ht).bind fun x root hx hroot => Calm.get.bind fun y _ hy hsame => ?_
  subst hsame
  split
  · next pointee rest hn =>
      have hpointee : y.Has pointee :=
        hy.finish.wellFormed.has_arg (t := root) (by simp [hn, Node.args])
      exact .pure fun z hz u hu => Option.some.inj hu ▸ hz.has hpointee
  · have hg := hx.grows.trans hy.grows
    exact Rule.calm_firstTarget? (fun rule hmem => (hd rule hmem).imp hg.has hg.has) (hy.has hroot)

/-- Nor does one step of unsizing. -/
theorem calm_unsize? (hd : ∀ rule ∈ d.unsizings, rule.Within s) (ht : s.Has t) :
    Calm s (d.unsize? t) fun x o => ∀ u, o = some u → x.Has u := by
  refine (calm_findRoot ht).bind fun x root hx hroot => Calm.get.bind fun y _ hy hsame => ?_
  subst hsame
  split
  · next elem rest hn =>
      have helem : y.Has elem :=
        hy.finish.wellFormed.has_arg (t := root) (by simp [hn, Node.args])
      have hslice : Calm y (sliceOf elem) fun z u => z.Has u := fun z hz => by
        obtain ⟨hq, -, hhas, -⟩ := hz.finish.sliceOf_quiet (hz.has helem)
        exact ⟨hq, hhas⟩
      refine hslice.bind fun z slice _ hslice => ?_
      exact .pure fun w hw u hu => Option.some.inj hu ▸ hw.has hslice
  · have hg := hx.grows.trans hy.grows
    exact Rule.calm_firstTarget? (fun rule hmem => (hd rule hmem).imp hg.has hg.has) (hy.has hroot)

end Declarations

section Fitting

variable {s : TypeStore} {c : Candidate} {decl : ImplDecl} {t : TypeId} {steps : List Step}

/-- Whether a candidate fits is found out in a probe. -/
theorem Candidate.still_fits (hc : s.Has c.expected) (ht : s.Has t) : Still s (c.fits t) :=
  calm_trial (k := fun _ matched => pure matched) (fun _ _ => trivial) hc ht
    fun _ _ _ _ _ _ => still_pure _

theorem ImplDecl.still_selfFits (hself : s.Has decl.self) (ht : s.Has t) :
    Still s (decl.selfFits t) :=
  calm_trial (k := fun _ matched => pure matched) (fun _ _ => trivial) hself ht
    fun _ _ _ _ _ _ => still_pure _

theorem Candidate.still_fitsAny (hc : s.Has c.expected) (hsteps : ∀ step ∈ steps, s.Has step.ty) :
    Still s (c.fitsAny steps) := by
  refine still_anyM fun step hmem => ?_
  refine (calm_receiverForms (hsteps step hmem)).bind fun x forms hx hforms => ?_
  exact still_anyM fun form hform => still_fits (hx.has hc) (hforms.2 form hform).1

end Fitting

namespace Resolver

variable {r : Resolver} {s : TypeStore} {steps : List Step}

/-- What an impl contributes is found quietly, and expects a type of the store. -/
theorem calm_contribution (hr : r.Within s) (hsteps : ∀ step ∈ steps, s.Has step.ty)
    (method : Symbol) (visible : List TraitId) (id : ImplId) :
    Calm s (r.gatherImpl method steps visible id) fun x o =>
      ∀ c, o = some (.method c) → x.Has c.expected := by
  unfold gatherImpl
  split
  · next decl m hdecl hm =>
      have hself : s.Has decl.self := (hr id decl hdecl).1
      split
      · exact .pure fun _ _ c hc => by cases hc
      · refine (Candidate.calm_make _ _ _ _ _ hself).bind fun x c hx hc => ?_
        obtain ⟨e, he, hce⟩ := hc
        have hexpected : x.Has c.expected := hce ▸ he.1
        have hfits := Candidate.still_fitsAny hexpected fun step hmem => hx.has (hsteps step hmem)
        refine hfits.bind fun y fits hy _ => ?_
        split
        · refine .pure fun z hz c' hc' => ?_
          cases hc'
          exact (hy.trans hz).has hexpected
        · exact .pure fun _ _ c hc => by cases hc
      · have hfits : Still s (steps.anyM fun step => decl.selfFits step.ty) :=
          still_anyM fun step hmem => ImplDecl.still_selfFits hself (hsteps step hmem)
        refine hfits.bind fun y fits _ _ => ?_
        split
        · exact .pure fun _ _ c hc => by cases hc
        · exact .pure fun _ _ c hc => by cases hc
  · exact .pure fun _ _ c hc => by cases hc

/-- **Gathering is quiet**, and every candidate expects a type of the store. -/
theorem calm_gather (hr : r.Within s) (hsteps : ∀ step ∈ steps, s.Has step.ty) (method : Symbol)
    (visible : List TraitId) :
    Calm s (r.gather method steps visible) fun x g =>
      ∀ p, ∀ c ∈ g.candidates p, x.Has c.expected := by
  refine (calm_gatherOffers hsteps).bind fun x own hx hown => Calm.get.bind fun y _ hy hsame => ?_
  subst hsame
  have hxy := hx.trans hy
  have hfound := Calm.mapM_mem (P := fun z _ (o : Option Definition) =>
      ∀ c, o = some (.method c) → z.Has c.expected)
    (fun hq h c hc => hq.has (h c hc)) fun id (_ : id ∈ r.relevantImpls y steps) =>
      calm_contribution (hr.grows hxy.grows) (fun step hmem => hxy.has (hsteps step hmem)) method
        visible id
  refine hfound.bind fun z found hz hall => .pure fun w hw p c hc => ?_
  rcases List.mem_append.mp (Gathering.method_of_mem_candidates hc) with hmem | hmem
  · exact ((hy.trans hz).trans hw).has (hown _ hmem c rfl).1.has
  · obtain ⟨o, ho, hsome⟩ := List.mem_filterMap.mp hmem
    obtain ⟨-, -, hhas⟩ := hall o ho
    exact hw.has (hhas c hsome)

/-- What an import is considered for: an impl together with the trait that it is one of. -/
theorem implWithTrait_eq_some {id : ImplId} {decl : ImplDecl} :
    ((r.db.impl? id).bind fun decl => decl.trait?.map (decl, ·)) = some (decl, traitId) ↔
      r.db.impl? id = some decl ∧ decl.trait? = some traitId := by
  simp only [Option.bind_eq_some_iff, Option.map_eq_some_iff, Prod.mk.injEq]
  grind

theorem still_traitToImport? (hr : r.Within s) (hsteps : ∀ step ∈ steps, s.Has step.ty)
    (method : Symbol) (known : List TraitId) (id : ImplId) :
    Still s (r.traitToImport? method steps known id) := by
  unfold traitToImport?
  split
  · exact still_pure _
  next decl traitId hsome =>
    obtain ⟨hdecl, -⟩ := implWithTrait_eq_some.mp hsome
    split
    · exact still_pure _
    split
    · exact still_pure _
    refine (Candidate.calm_make _ _ _ _ _ (hr id decl hdecl).1).bind fun x c hx hc => ?_
    obtain ⟨e, he, hce⟩ := hc
    have hfits := Candidate.still_fitsAny (c := c) (hce ▸ he.1) fun step hmem =>
      hx.has (hsteps step hmem)
    refine hfits.bind fun y fits _ _ => ?_
    split
    · exact still_pure _
    · exact still_pure _

theorem still_traitsToImport (hr : r.Within s) (hsteps : ∀ step ∈ steps, s.Has step.ty)
    (method : Symbol) (visible : List TraitId) :
    Still s (r.traitsToImport method steps visible) := by
  refine Calm.get.bind fun x _ hx hsame => ?_
  subst hsame
  refine still_foldlM (fun found id _ => ?_) []
  refine (still_traitToImport? (hr.grows hx.grows) (fun step hmem => hx.has (hsteps step hmem))
    method _ id).bind fun y o _ _ => ?_
  cases o with
  | none => exact still_pure _
  | some t => exact still_pure _

end Resolver

/-- From `s` on the coercions do as they should: given a type of the store they leave
no assignment behind, and answer with a type of the store. -/
structure Coercions.Tactful (c : Coercions) (s : TypeStore) : Prop where
  deref : ∀ x t, Undisturbed s x → x.Has t → Undisturbed x ((c.deref? t).run x).2 ∧
    ∀ u, ((c.deref? t).run x).1 = some u → ((c.deref? t).run x).2.Has u
  unsize : ∀ x t, Undisturbed s x → x.Has t → Undisturbed x ((c.unsize? t).run x).2 ∧
    ∀ u, ((c.unsize? t).run x).1 = some u → ((c.unsize? t).run x).2.Has u

/-- The types of all declared rules are in the store. -/
def Declarations.RulesWithin (d : Declarations) (s : TypeStore) : Prop :=
  (∀ rule ∈ d.derefs, rule.Within s) ∧ ∀ rule ∈ d.unsizings, rule.Within s

/-- The coercions of a program do as they should. -/
theorem Declarations.RulesWithin.tactful {d : Declarations} {s : TypeStore}
    (hd : d.RulesWithin s) : d.coercions.Tactful s where
  deref x t hx ht := by
    have hg := hx.keeps.grows
    obtain ⟨hq, hanswer⟩ := d.calm_deref? (fun rule hmem => (hd.1 rule hmem).imp hg.has hg.has) ht
      x (.refl hx.finish)
    exact ⟨hq.undisturbed, hanswer⟩
  unsize x t hx ht := by
    have hg := hx.keeps.grows
    obtain ⟨hq, hanswer⟩ := d.calm_unsize? (fun rule hmem => (hd.2 rule hmem).imp hg.has hg.has) ht
      x (.refl hx.finish)
    exact ⟨hq.undisturbed, hanswer⟩

namespace Resolver

variable {r : Resolver} {s : TypeStore}

/-- The chain of dereferences leaves the store undisturbed. -/
theorem along_derefChain (hc : r.coercions.Tactful s) (receiver : TypeId) (room : Nat)
    (seen : List TypeId) {x : TypeStore} {current : TypeId} (hx : Undisturbed s x)
    (hcurrent : x.Has current) :
    Along Undisturbed x (r.derefChain receiver room seen current) fun y o =>
      ∀ chain, o = .ok chain → ∀ t ∈ chain, y.Has t := by
  have hR := lasting_undisturbed
  induction room generalizing x seen current with
  | zero => exact hR.pure fun _ _ chain h => by cases h
  | succ room ih =>
      rw [derefChain]
      split
      · exact hR.pure fun _ _ chain h => by cases h
      have hderef : Along Undisturbed x (r.coercions.deref? current) fun y o =>
          ∀ u, o = some u → y.Has u := fun y hy =>
        hc.deref y current (hx.trans hy) (hy.keeps.grows.has hcurrent)
      refine hR.bind hderef fun y next? hy hnext => ?_
      have hlater : ∀ {z}, Undisturbed y z → z.Has current := fun hz =>
        (hy.trans hz).keeps.grows.has hcurrent
      cases next? with
      | none =>
          refine hR.pure fun z hz chain hchain => ?_
          cases hchain
          simpa using hlater hz
      | some next =>
          have hexpand : Along Undisturbed y (expand next) fun z u => z.Has u :=
            hR.of_calm fun z hz => calm_expand (hz.keeps.grows.has (hnext next rfl))
          refine hR.bind hexpand fun z u hz hu => ?_
          refine hR.bind (ih (current :: seen) (hx.trans (hy.trans hz)) hu) fun w o hw ho => ?_
          cases o with
          | error failure => exact hR.pure fun _ _ chain h => by cases h
          | ok rest =>
              refine hR.pure fun v hv chain hchain => ?_
              cases hchain
              intro t ht
              rcases List.mem_cons.mp ht with rfl | ht
              · exact hlater ((hz.trans hw).trans hv)
              · exact hv.keeps.grows.has (ho rest rfl t ht)

/-- The unsizing at the end of a chain leaves what the caller sees undisturbed when its
rules do. -/
theorem along_unsizeLast? (hc : r.coercions.Tactful s) {x : TypeStore} {chain : List TypeId}
    (hx : Undisturbed s x) (hchain : ∀ t ∈ chain, x.Has t) :
    Along Undisturbed x (r.unsizeLast? chain) fun y o => ∀ u, o = some u → y.Has u := by
  have hR := lasting_undisturbed
  unfold unsizeLast?
  split
  · exact hR.pure fun _ _ u h => by cases h
  next last hlast =>
    have hunsize : Along Undisturbed x (r.coercions.unsize? last) fun y o =>
        ∀ u, o = some u → y.Has u := fun y hy =>
      hc.unsize y last (hx.trans hy) (hy.keeps.grows.has (hchain last (List.mem_of_getLast? hlast)))
    refine hR.bind hunsize fun y result? _ hresult => ?_
    cases result? with
    | none => exact hR.pure fun _ _ u h => by cases h
    | some result =>
        have hexpand : Along Undisturbed y (expand result) fun z u => z.Has u :=
          hR.of_calm fun z hz => calm_expand (hz.keeps.grows.has (hresult result rfl))
        refine hR.bind hexpand fun z v _ hv => ?_
        exact hR.pure fun w hw u hu => Option.some.inj hu ▸ hw.keeps.grows.has hv

/-- So does the whole chain of receivers, with the unsized one at its end. -/
theorem along_stepsOf (hc : r.coercions.Tactful s) {x : TypeStore} {receiver : TypeId}
    (hx : Undisturbed s x) (ht : x.Has receiver) :
    Along Undisturbed x (r.stepsOf receiver) fun y o =>
      ∀ steps, o = .ok steps → ∀ step ∈ steps, y.Has step.ty := by
  have hR := lasting_undisturbed
  have hexpand : Along Undisturbed x (expand receiver) fun z u => z.Has u :=
    hR.of_calm fun z hz => calm_expand (hz.keeps.grows.has ht)
  refine hR.bind hexpand fun y first hy hfirst => ?_
  refine hR.bind (along_derefChain hc receiver _ [] (hx.trans hy) hfirst) fun z o hz ho => ?_
  cases o with
  | error failure => exact hR.pure fun _ _ steps h => by cases h
  | ok chain =>
      refine hR.bind (along_unsizeLast? hc ((hx.trans hy).trans hz) (ho chain rfl)) ?_
      intro w last? hw hlast
      refine hR.pure fun v hv steps hsteps step hmem => ?_
      cases hsteps
      rcases List.mem_append.mp hmem with hmem | hmem
      · obtain ⟨t, ht, rfl⟩ := List.mem_map.mp hmem
        exact (hw.trans hv).keeps.grows.has (ho chain rfl t ht)
      · obtain ⟨u, hu, rfl⟩ := List.mem_map.mp hmem
        exact hv.keeps.grows.has (hlast u (by simpa using hu))

/-- **Resolving a call** leaves the store undisturbed. -/
theorem along_resolve (hr : r.Within s) (hc : r.coercions.Tactful s) {receiver : TypeId}
    (ht : s.Has receiver) (method : Symbol) (visible : List TraitId) :
    Along Undisturbed s (r.resolve receiver method visible) fun _ _ => True := by
  have hR := lasting_undisturbed
  have hroot : Along Undisturbed s (findRoot receiver) fun x u => x.Has u :=
    hR.of_calm fun x hx => calm_findRoot (hx.keeps.grows.has ht)
  refine hR.bind hroot fun x root hx hhas => ?_
  split
  · exact hR.pure fun _ _ => trivial
  refine hR.bind (along_stepsOf hc hx hhas) fun y o hy ho => ?_
  cases o with
  | error failure => exact hR.pure fun _ _ => trivial
  | ok steps =>
      have hsteps : ∀ {z}, Undisturbed y z → ∀ step ∈ steps, z.Has step.ty := fun hz step hmem =>
        hz.keeps.grows.has (ho steps rfl step hmem)
      have hwithin : ∀ {z}, Undisturbed y z → r.Within z := fun hz =>
        hr.grows ((hx.trans hy).trans hz).keeps.grows
      have hgather : Along Undisturbed y (r.gather method steps visible) fun z g =>
          ∀ p, ∀ c ∈ g.candidates p, z.Has c.expected :=
        hR.of_calm fun z hz => calm_gather (hwithin hz) (hsteps hz) method visible
      refine hR.bind hgather fun z g hz hg => ?_
      have hsearch : Along Undisturbed z (r.search method root steps g) fun _ _ => True :=
        hR.of_calm fun w hw => Calm.still <| calm_search (hwithin (hz.trans hw))
          (hsteps (hz.trans hw)) (fun p c hc => hw.keeps.grows.has (hg p c hc)) method root
      refine hR.bind hsearch fun w outcome hw _ => ?_
      split
      · next sought _ _ _ _ =>
          have hsuggested : Along Undisturbed w (r.suggestedTraits sought steps visible)
              fun _ _ => True := by
            unfold suggestedTraits
            split
            · exact hR.of_calm fun v hv => still_traitsToImport (hwithin ((hz.trans hw).trans hv))
                (hsteps ((hz.trans hw).trans hv)) sought visible
            · exact hR.pure fun _ _ => trivial
          exact hR.bind hsuggested fun _ _ _ _ => hR.pure fun _ _ => trivial
      · exact hR.pure fun _ _ => trivial

/-- **Resolving binds nothing.**  On every store whose links do not run in a circle,
resolving a call, finding the steps of a receiver, gathering candidates, finding
traits to import, searching and judging each leave the store undisturbed, whatever
they answer, provided that the types they are given are in the store and that
coercions leave no assignment behind; and the declared coercions do not.  In an
undisturbed store every type is expanded to the same type as before. -/
theorem resolution_binds_nothing (hs : s.Ordered) (hr : r.Within s)
    (hc : r.coercions.Tactful s) :
    (∀ receiver method visible, s.Has receiver →
      Undisturbed s ((r.resolve receiver method visible).run s).2) ∧
    (∀ receiver, s.Has receiver → Undisturbed s ((r.stepsOf receiver).run s).2) ∧
    (∀ method steps visible, (∀ step ∈ steps, s.Has step.ty) →
      Undisturbed s ((r.gather method steps visible).run s).2 ∧
      Undisturbed s ((r.traitsToImport method steps visible).run s).2) ∧
    (∀ method receiver steps g, (∀ step ∈ steps, s.Has step.ty) →
      (∀ p, ∀ c ∈ g.candidates p, s.Has c.expected) →
      Undisturbed s ((r.search method receiver steps g).run s).2) ∧
    (∀ t traitId, s.Has t → Undisturbed s ((r.judge t traitId).run s).2) ∧
    (∀ id args, (∀ a ∈ args, s.Has a) →
      Undisturbed s ((r.judgeImplConditions id args).run s).2) ∧
    (∀ d : Declarations, d.RulesWithin s → ∀ t, s.Has t →
      Undisturbed s ((d.deref? t).run s).2 ∧ Undisturbed s ((d.unsize? t).run s).2) ∧
    ∀ s', Undisturbed s s' → ∀ t, s.Has t →
      ((expand t).run s').2.written ((expand t).run s').1 =
        ((expand t).run s).2.written ((expand t).run s).1 := by
  have hrefl := Undisturbed.refl hs
  have hquiet : ∀ {α : Type} {m : StateM TypeStore α} {Q : TypeStore → α → Prop},
      Calm s m Q → Undisturbed s (m.run s).2 := fun h => (h s (.refl hs)).1.undisturbed
  refine ⟨?_, ?_, ?_, ?_, ?_, ?_, ?_, ?_⟩
  · intro receiver method visible ht
    exact (along_resolve hr hc ht method visible s hrefl).1
  · exact fun receiver ht => (along_stepsOf hc hrefl ht s hrefl).1
  · intro method steps visible hsteps
    exact ⟨hquiet (calm_gather hr hsteps method visible),
      hquiet (still_traitsToImport hr hsteps method visible)⟩
  · intro method receiver steps g hsteps hg
    exact hquiet (calm_search hr hsteps hg method receiver)
  · exact fun t traitId ht => hquiet (still_judge hr ht)
  · exact fun id args hargs => hquiet (still_judgeImplConditions hr id hargs)
  · exact fun d hd t ht => ⟨hquiet (d.calm_deref? hd.1 ht), hquiet (d.calm_unsize? hd.2 ht)⟩
  · exact fun s' hs' t ht => hs'.expand_eq ht

/-- A store with `Pair<v, w>`, in which `v` is linked to `bool` and `w` is free, with
`Pair<P, Q>` and with `Pair<bool, i32>`. -/
def halfOpen : TypeStore :=
  [.var, .var, .unify ⟨64⟩ (.ofPrimitive .bool), .param 0, .param 1, .nominal ⟨1⟩ [⟨66⟩, ⟨67⟩],
    .nominal ⟨1⟩ [⟨64⟩, ⟨65⟩], .nominal ⟨1⟩ [.ofPrimitive .bool, .ofPrimitive .i32]].foldl
    (fun s (a : Action) => (a.perform.run s).2) new

/-- The impl for `Pair<P, Q>` under the condition that `P` implements a trait. -/
def ofPairs : ImplDecl :=
  ⟨none, [⟨2⟩, ⟨3⟩], ⟨68⟩, [⟨.blank, some .byValue⟩], [⟨⟨66⟩, [⟨0⟩]⟩]⟩

/-- The impl of that trait for `bool`. -/
def ofBools : ImplDecl := ⟨some ⟨0⟩, [], .ofPrimitive .bool, [], []⟩

/-- The program with the trait, the two impls, and `Pair<bool, i32>` dereferencing to
`bool`. -/
def pairs : Declarations :=
  let d := (Declarations.empty.addTrait ⟨⟨4⟩, [], []⟩).2
  ((d.addImpl halfOpen ofPairs).2.addImpl halfOpen ofBools).2.addDeref
    ⟨0, ⟨70⟩, .ofPrimitive .bool⟩

set_option maxRecDepth 4096 in
theorem pairs_values :
    let r := pairs.resolver {} .empty
    (halfOpen.size, ((r.stepsOf ⟨69⟩).run halfOpen).1,
        ((r.resolve ⟨69⟩ .blank []).run halfOpen).1.isOk) =
      (71, .ok [⟨⟨71⟩, false⟩, ⟨.ofPrimitive .bool, false⟩], true) := by
  cbv

/-- The call is resolved by matching both variables of the receiver.  The rule, which is
tried for the steps, matches the free one with `i32`. -/
theorem resolution_binds_nothing_open :
    let r := pairs.resolver {} .empty
    ((r.resolve ⟨69⟩ .blank []).run halfOpen).1.isOk = true ∧
      Undisturbed halfOpen ((r.resolve ⟨69⟩ .blank []).run halfOpen).2 ∧
      ((r.stepsOf ⟨69⟩).run halfOpen).1 = .ok [⟨⟨71⟩, false⟩, ⟨.ofPrimitive .bool, false⟩] ∧
      Undisturbed halfOpen ((r.stepsOf ⟨69⟩).run halfOpen).2 := by
  intro r
  have hvalues := pairs_values
  simp only [Prod.mk.injEq] at hvalues
  obtain ⟨hsize, hsteps, hresolved⟩ := hvalues
  have hhas : ∀ {t : TypeId}, t.index < 71 → halfOpen.Has t := fun ht => by
    rwa [TypeStore.Has, hsize]
  have hreached : Reached [] halfOpen := Reached.new.acts (by cbv)
  have hwithin : r.Within halfOpen := by
    intro id decl hdecl
    have hmem : decl ∈ #[ofPairs, ofBools] := Array.mem_of_getElem? hdecl
    obtain rfl | rfl : decl = ofPairs ∨ decl = ofBools := by simpa using hmem
    · exact ⟨hhas (by decide), by simpa [ofPairs] using hhas (by decide)⟩
    · exact ⟨hhas (by decide), by simp [ofBools]⟩
  have hrules : pairs.RulesWithin halfOpen := by
    refine ⟨fun rule hmem => ?_, fun rule hmem => absurd hmem List.not_mem_nil⟩
    obtain rfl := List.mem_singleton.mp hmem
    exact ⟨hhas (by decide), hhas (by decide)⟩
  have hreceiver : halfOpen.Has ⟨69⟩ := hhas (by decide)
  obtain ⟨hresolve, hstepsOf, -⟩ :=
    resolution_binds_nothing hreached.sound.ordered hwithin hrules.tactful
  exact ⟨hresolved, hresolve _ _ _ hreceiver, hsteps, hstepsOf _ hreceiver⟩

end Resolver

end DotCall
