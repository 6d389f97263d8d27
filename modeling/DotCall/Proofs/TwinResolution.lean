import DotCall.Proofs.TwinCoercions

/-!
# Resolving a call on twins

On twin stores the resolution of a call takes the same course: the same candidates
are gathered in the same order, they are tried on types that are written alike, and
the outcomes agree.  What a candidate expects is written in variables that were known
before, for its types come from declarations or have no variables at all; the types
of the steps may be written in variables made on the way.
-/

namespace DotCall

open TypeStore Twin

namespace TypeStore

namespace Twin

variable {w v v' : Twin} {t u : TypeId}

/-- Types of the twins `v` that are written alike, in variables known to the twins `w`
from before. -/
def PairsFrom (w v : Twin) (t u : TypeId) : Prop := w.pairing.Pairs v.left v.right t u

/-- Types that belong together do so from then on. -/
theorem Leads.pairsFrom (hv : w.Leads v) (h : w.Pairs t u) : w.PairsFrom v t u :=
  h.grow hv.left hv.right (fun hi => hi) fun _ => rfl

theorem PairsFrom.leads (h : w.PairsFrom v t u) (hv : v.Leads v') : w.PairsFrom v' t u :=
  Pairing.Pairs.grow h hv.left hv.right (fun hi => hi) fun _ => rfl

theorem PairsFrom.pairs (h : w.PairsFrom v t u) (hv : w.Leads v) : v.Pairs t u :=
  Pairing.Pairs.grow h (.refl v.leftOrdered) (.refl v.rightOrdered) hv.known hv.rename

/-- An atom other than a variable is written without variables. -/
theorem pairsFrom_of_atom {a : Atom} (hn : v.left.node t = .atom a) (ha : ∀ id, a ≠ .var id)
    (ht : v.left.Has t) : w.PairsFrom v t t := by
  obtain ⟨hhas, hnode⟩ := v.atom hn ha ht
  refine ⟨ht, hhas, fun id hid => ?_, ?_⟩
  · have heq : Atom.var id = a := by simpa [WellFormed.written_of_atom hn] using hid
    exact absurd heq.symm (ha id)
  · rw [WellFormed.written_of_atom hn, WellFormed.written_of_atom hnode, Tree.rename_atom,
      Atom.rename_of_ne ha]

end Twin

/-- Forms of types that are written alike are written alike. -/
theorem Pairing.Pairs.form_run {p : Pairing} {x y : TypeStore} {t u : TypeId}
    (h : p.Pairs x y t u) (hx : x.Ordered) (hy : y.Ordered) (passing : Passing) :
    let l := (passing.form t).run x
    let r := (passing.form u).run y
    Quiet x l.2 ∧ Quiet y r.2 ∧ p.Pairs l.2 r.2 l.1 r.1 := by
  cases passing with
  | byValue => exact ⟨.refl hx, .refl hy, h⟩
  | byBorrow b =>
      obtain ⟨hq, -, hhas, hnode⟩ := hx.refTo_quiet b h.left
      obtain ⟨hq', -, hhas', hnode'⟩ := hy.refTo_quiet b h.right
      exact ⟨hq, hq', h.wrap hq hq' hhas hnode hhas' hnode'⟩

end TypeStore

section Fitting

variable {w v : Twin} {t u : TypeId} {c c' : Candidate} {steps steps' : List Step}

/-- Candidates that agree do so in all later stores. -/
theorem Candidate.Agree.leads {v' : Twin} (h : c.Agree (w.PairsFrom v) c') (hv : v.Leads v') :
    c.Agree (w.PairsFrom v') c' :=
  h.imp fun _ _ hp => hp.leads hv

/-- Candidates made for types that are written alike agree. -/
theorem Candidate.steady_make (origin : Origin) (standing : Standing) (method : Symbol)
    (passing : Passing) (arity : Nat) (h : w.PairsFrom v t u) :
    Steady v (Candidate.make origin standing method passing t arity)
      (Candidate.make origin standing method passing u arity)
      fun v' c c' => c.Agree (w.PairsFrom v') c' := by
  intro v₁ hv₁
  have hself := h.leads hv₁
  obtain ⟨hq, hq', hform⟩ := hself.form_run v₁.leftOrdered v₁.rightOrdered passing
  have hleads := v₁.leads_quiet hq hq'
  refine ⟨v₁.quiet hq hq', hleads, hq, hq', rfl, rfl, rfl, rfl, rfl, rfl, rfl, ?_, hform⟩
  exact hself.leads hleads

/-- A candidate fits in the one store exactly when its twin fits in the other. -/
theorem Candidate.steady_fits (harity : c'.arity = c.arity) (hc : w.Pairs c.expected c'.expected)
    (h : w.Pairs t u) : Steady w (c.fits t) (c'.fits u) fun _ a b => a = b := by
  apply Steady.tentatively_eq
  intro v hv
  apply (Resolver.alike_freshInstance harity (hv.pairs hc).opened).bind
  intro v₁ a b hv₁ hab
  exact hab.1.alike_unifies (hv₁.pairs (hv.pairs h).opened)

theorem ImplDecl.steady_selfFits {decl : ImplDecl} (hself : w.Pairs decl.self decl.self)
    (h : w.Pairs t u) : Steady w (decl.selfFits t) (decl.selfFits u) fun _ a b => a = b := by
  apply Steady.tentatively_eq
  intro v hv
  apply (alike_newVars v.opened decl.arity).bind
  intro v₁ args args' hv₁ hargs
  apply ((hv₁.pairs (hv.pairs hself).opened).alike_instantiate hargs).bind
  intro v₂ self self' hv₂ hself
  exact hself.alike_unifies ((hv₁.trans hv₂).pairs (hv.pairs h).opened)

/-- The forms of a receiver are tried in the same order. -/
theorem steady_receiverForms (h : w.Pairs t u) :
    Steady w (receiverForms t) (receiverForms u) fun v forms forms' =>
      List.Forall₂ (fun f f' => f'.1 = f.1 ∧ v.Pairs f.2 f'.2) forms forms' := by
  apply (h.steady_refTo .shared).bind
  intro v shared shared' hv hshared
  apply ((hv.pairs h).steady_refTo .mutable).bind
  intro v₁ mutable mutable' hv₁ hmutable
  refine .pure fun v₂ hv₂ => .cons ⟨rfl, ?_⟩ (.cons ⟨rfl, ?_⟩ (.cons ⟨rfl, ?_⟩ .nil))
  · exact ((hv.trans hv₁).trans hv₂).pairs h
  · exact (hv₁.trans hv₂).pairs hshared
  · exact hv₂.pairs hmutable

/-- The same for a list of steps, which is gone through up to the same step. -/
theorem Candidate.steady_fitsAny (harity : c'.arity = c.arity)
    (hc : w.Pairs c.expected c'.expected) (hsteps : List.Forall₂ (Step.PairedIn w) steps steps') :
    Steady w (c.fitsAny steps) (c'.fitsAny steps') fun _ a b => a = b := by
  apply Steady.anyM hsteps
  intro step step' hstep
  apply (steady_receiverForms hstep.ty).bind
  intro v forms forms' hv hforms
  apply Steady.anyM hforms
  intro form form' hform
  exact steady_fits harity (hv.pairs hc) hform.2

end Fitting

section Agreement

variable {R R' : TypeId → TypeId → Prop}

/-- Definitions that are the same but for the types of a candidate. -/
inductive Definition.Agree (R : TypeId → TypeId → Prop) : Definition → Definition → Prop where
  | method {c c' : Candidate} (h : c.Agree R c') : Agree R (.method c) (.method c')
  | function {origin : Origin} : Agree R (.function origin) (.function origin)

theorem Definition.Agree.imp {o o' : Definition} (h : o.Agree R o')
    (hR : ∀ t u, R t u → R' t u) : o.Agree R' o' := by
  cases h with
  | method h => exact .method (h.imp hR)
  | function => exact .function

/-- Gatherings of the same functions, and of candidates that agree. -/
structure Gathering.Agree (R : TypeId → TypeId → Prop) (g g' : Gathering) : Prop where
  candidates : ∀ p, List.Forall₂ (Candidate.Agree R) (g.candidates p) (g'.candidates p)
  functions : g'.functions = g.functions

theorem Gathering.Agree.imp {g g' : Gathering} (h : g.Agree R g') (hR : ∀ t u, R t u → R' t u) :
    g.Agree R' g' :=
  ⟨fun p => (h.candidates p).imp fun _ _ hc => hc.imp hR, h.functions⟩

/-- Definitions that agree become candidates that agree, under the same precedence. -/
theorem Definition.Agree.candidate? {o o' : Definition} (h : o.Agree R o') (p : Precedence) :
    Option.Rel (Candidate.Agree R) (o.candidate? p) (o'.candidate? p) := by
  cases h with
  | function => cases p <;> exact .none
  | method hc =>
      cases p with
      | inherent =>
          simp only [Definition.candidate?, Definition.inherent?, hc.standing]
          split
          · exact .some hc
          · exact .none
      | extension =>
          simp only [Definition.candidate?, Definition.extension?, hc.standing]
          split
          · exact .none
          · exact .some hc

/-- Definitions that agree are sorted out alike. -/
theorem Gathering.ofDefinitions_agree {definitions definitions' : List Definition}
    (h : List.Forall₂ (Definition.Agree R) definitions definitions') :
    (Gathering.ofDefinitions definitions).Agree R (.ofDefinitions definitions') := by
  constructor
  · intro p
    rw [candidates_ofDefinitions, candidates_ofDefinitions]
    exact List.rel_filterMap (fun _ _ ho => ho.candidate? p) h
  · induction h with
    | nil => rfl
    | cons ho _ ih =>
        simp only [ofDefinitions, List.filterMap_cons] at ih ⊢
        cases ho <;> simp [Definition.function?, ih]

end Agreement

namespace Resolver

variable {r : Resolver} {w v : Twin} {t u : TypeId} {method : Symbol} {visible : List TraitId}
  {steps steps' : List Step}

/-- Types that are written alike have the same methods by themselves. -/
theorem offers_eq (h : w.Pairs t u) : r.offers method w.right u = r.offers method w.left t := by
  unfold offers ownTraits
  have hnode := h.node
  have hsame := fun a => h.eq_of_atom (a := a)
  generalize w.left.node t = n at hnode hsame
  generalize w.right.node u = m at hnode
  cases hnode with
  | @atom a hne => rw [hsame a rfl hne]
  | var _ => rfl
  | app _ => rfl

/-- What is offered for a type can be read off its meaning, so it is offered in both
stores. -/
theorem flatMap_offers_eq {ts us : List TypeId} (h : List.Forall₂ w.Pairs ts us) :
    us.flatMap (r.offers method w.right) = ts.flatMap (r.offers method w.left) := by
  induction h with
  | nil => rfl
  | cons hp _ ih => rw [List.flatMap_cons, List.flatMap_cons, ih, offers_eq hp]

/-- An offer that is taken up becomes the same definition in both stores. -/
theorem Offer.steady_accept {offer : Offer} (h : w.PairsFrom v offer.self offer.self) :
    Steady v (offer.accept method) (offer.accept method)
      fun v' o o' => o.Agree (w.PairsFrom v') o' := by
  unfold Offer.accept
  cases offer.passing? with
  | none => exact .pure fun _ _ => .function
  | some passing =>
      apply (Candidate.steady_make _ _ _ _ _ h).bind
      intro v₁ c c' _ hc
      exact .pure fun v₂ hv₂ => .method (hc.leads hv₂)

/-- **What the steps have by themselves** is the same on twins. -/
theorem steady_gatherOffers (hsteps : List.Forall₂ (Step.PairedIn v) steps steps') :
    Steady v (r.gatherOffers method steps) (r.gatherOffers method steps')
      fun v' os os' => List.Forall₂ (Definition.Agree (w.PairsFrom v')) os os' := by
  have hroots : Steady v (steps.mapM fun step => findRoot step.ty)
      (steps'.mapM fun step => findRoot step.ty) fun v' ts us => List.Forall₂ v'.Pairs ts us :=
    Steady.mapM (P := Twin.Pairs) (fun hv hp => hv.pairs hp) hsteps
      fun step step' hstep => hstep.ty.steady_findRoot
  apply hroots.bind
  intro v₁ types types' _ htypes
  apply Steady.get_bind
  intro v₂ hv₂
  have htypes₂ : List.Forall₂ v₂.Pairs types types' := htypes.imp fun _ _ hp => hv₂.pairs hp
  rw [flatMap_offers_eq htypes₂]
  have hsame : List.Forall₂ (fun a b => a = b ∧ w.PairsFrom v₂ a.self a.self)
      (types.flatMap (r.offers method v₂.left)).eraseDups
      (types.flatMap (r.offers method v₂.left)).eraseDups := by
    apply List.forall₂_same.mpr
    intro offer hmem
    obtain ⟨t, ht, hoffer⟩ := List.mem_flatMap.mp (List.mem_eraseDups.mp hmem)
    obtain ⟨hself, a, hn, hfixed, -⟩ := node_of_mem_offers hoffer
    have hhas : v₂.left.Has t := (Pairing.pairs_all htypes₂).1 t ht
    rw [hself]
    refine ⟨rfl, pairsFrom_of_atom hn (fun id ha => ?_) hhas⟩
    exact hfixed id (by simp [ha])
  apply Steady.mapM (P := fun v' => Definition.Agree (w.PairsFrom v'))
    (fun hv ho => ho.imp fun _ _ hp => hp.leads hv) hsame
  intro offer offer' hoffer
  obtain ⟨rfl, hself⟩ := hoffer
  exact Offer.steady_accept hself

/-- Steps to types that are written alike lead to the same impls. -/
theorem relevantImpls_eq (hsteps : List.Forall₂ (Step.PairedIn w) steps steps') :
    r.relevantImpls w.right steps' = r.relevantImpls w.left steps := by
  have hheads : steps'.map (fun step => w.right.head? step.ty) =
      steps.map (fun step => w.left.head? step.ty) := by
    induction hsteps with
    | nil => rfl
    | cons hstep _ ih => rw [List.map_cons, List.map_cons, ih, hstep.ty.head?_eq]
  unfold relevantImpls
  rw [hheads]

/-- **What an impl contributes** is the same on twins. -/
theorem steady_gatherImpl (hr : r.PairedIn w) (hv : w.Leads v)
    (hsteps : List.Forall₂ (Step.PairedIn v) steps steps') (id : ImplId) :
    Steady v (r.gatherImpl method steps visible id) (r.gatherImpl method steps' visible id)
      fun v' o o' => Option.Rel (Definition.Agree (w.PairsFrom v')) o o' := by
  unfold gatherImpl
  split
  · next decl m hdecl hm =>
      have hself := (hr id decl hdecl).self
      split
      · exact .pure fun _ _ => .none
      · apply (Candidate.steady_make _ _ _ _ _ (hv.pairsFrom hself)).bind
        intro v₁ c c' hv₁ hc
        have hexpected := hc.expected.pairs (hv.trans hv₁)
        have hsteps₁ : List.Forall₂ (Step.PairedIn v₁) steps steps' :=
          hsteps.imp fun _ _ hstep => hstep.leads hv₁
        apply (Candidate.steady_fitsAny hc.arity hexpected hsteps₁).bind
        intro v₂ p q hv₂ hpq
        subst hpq
        cases p with
        | true => exact .pure fun v₃ hv₃ => .some (.method (hc.leads (hv₂.trans hv₃)))
        | false => exact .pure fun _ _ => .none
      · have hfits : Steady v (steps.anyM fun step => decl.selfFits step.ty)
            (steps'.anyM fun step => decl.selfFits step.ty) fun _ p q => p = q :=
          Steady.anyM hsteps fun step step' hstep =>
            ImplDecl.steady_selfFits (hv.pairs hself) hstep.ty
        apply hfits.bind
        intro v₁ p q _ hpq
        subst hpq
        cases p with
        | true => exact .pure fun _ _ => .some .function
        | false => exact .pure fun _ _ => .none
  · exact .pure fun _ _ => .none

/-- **Gathering on twins.** -/
theorem steady_gather (hr : r.PairedIn w) (hv : w.Leads v)
    (hsteps : List.Forall₂ (Step.PairedIn v) steps steps') :
    Steady v (r.gather method steps visible) (r.gather method steps' visible)
      fun v' g g' => g.Agree (w.PairsFrom v') g' := by
  apply (steady_gatherOffers (w := w) hsteps).bind
  intro v₁ own own' hv₁ hown
  apply Steady.get_bind
  intro v₂ hv₂
  have h₁₂ := hv₁.trans hv₂
  have hsteps₂ : List.Forall₂ (Step.PairedIn v₂) steps steps' :=
    hsteps.imp fun _ _ hstep => hstep.leads h₁₂
  rw [relevantImpls_eq hsteps₂]
  have hfound : Steady v₂ ((r.relevantImpls v₂.left steps).mapM (r.gatherImpl method steps visible))
      ((r.relevantImpls v₂.left steps).mapM (r.gatherImpl method steps' visible))
      fun v' os os' => List.Forall₂ (Option.Rel (Definition.Agree (w.PairsFrom v'))) os os' := by
    apply Steady.mapM (S := fun a b => a = b)
      (P := fun v' => Option.Rel (Definition.Agree (w.PairsFrom v')))
    · intro v v' o o' hv ho
      cases ho with
      | none => exact .none
      | some ho => exact .some (ho.imp fun _ _ hp => hp.leads hv)
    · exact List.forall₂_same.mpr fun _ _ => rfl
    · intro id id' hid
      subst hid
      exact steady_gatherImpl hr (hv.trans h₁₂) hsteps₂ id
  apply hfound.bind
  intro v₃ found found' hv₃ hfound
  refine .pure fun v₄ hv₄ => Gathering.ofDefinitions_agree ?_
  apply List.rel_append
  · exact hown.imp fun _ _ ho => ho.imp fun _ _ hp => hp.leads ((hv₂.trans hv₃).trans hv₄)
  · have hkept : List.Forall₂ (Definition.Agree (w.PairsFrom v₃)) (found.filterMap id)
        (found'.filterMap id) := List.rel_filterMap (fun _ _ ho => ho) hfound
    exact hkept.imp fun _ _ ho => ho.imp fun _ _ hp => hp.leads hv₄

theorem steady_traitToImport? (hr : r.PairedIn w)
    (hsteps : List.Forall₂ (Step.PairedIn w) steps steps') (known : List TraitId) (id : ImplId) :
    Steady w (r.traitToImport? method steps known id) (r.traitToImport? method steps' known id)
      fun _ o o' => o = o' := by
  unfold traitToImport?
  split
  · exact .pure fun _ _ => rfl
  next decl traitId hsome =>
    obtain ⟨hdecl, -⟩ := implWithTrait_eq_some.mp hsome
    split
    · exact .pure fun _ _ => rfl
    split
    · exact .pure fun _ _ => rfl
    have hself : w.PairsFrom w decl.self decl.self := (hr id decl hdecl).self
    apply (Candidate.steady_make _ _ _ _ _ hself).bind
    intro v c c' hv hc
    have hsteps' : List.Forall₂ (Step.PairedIn v) steps steps' :=
      hsteps.imp fun _ _ hstep => hstep.leads hv
    apply (Candidate.steady_fitsAny hc.arity (hc.expected.pairs hv) hsteps').bind
    intro v₁ p q _ hpq
    subst hpq
    cases p <;> exact .pure fun _ _ => rfl

/-- The same traits are suggested, in the same order. -/
theorem steady_suggestedTraits (hr : r.PairedIn w)
    (hsteps : List.Forall₂ (Step.PairedIn w) steps steps') :
    Steady w (r.suggestedTraits method steps visible) (r.suggestedTraits method steps' visible)
      fun _ ids ids' => ids = ids' := by
  unfold suggestedTraits
  split
  · apply Steady.get_bind
    intro v hv
    have hsteps' : List.Forall₂ (Step.PairedIn v) steps steps' :=
      hsteps.imp fun _ _ hstep => hstep.leads hv
    rw [relevantImpls_eq hsteps']
    apply Steady.foldlM
    intro found id _
    apply (steady_traitToImport? (hr.leads hv) hsteps' _ id).bind
    intro v₁ o o' _ ho
    subst ho
    cases o <;> exact .pure fun _ _ => rfl
  · exact .pure fun _ _ => rfl

end Resolver

/-- Places of the search whose forms are written alike. -/
structure Cell.PairedIn (w : Twin) (cell cell' : Cell) : Prop where
  unsized : cell'.step.unsized = cell.step.unsized
  position : cell'.position = cell.position
  passing : cell'.passing = cell.passing
  form : w.Pairs cell.form cell'.form
  precedence : cell'.precedence = cell.precedence

theorem steady_cellsOf {w : Twin} {step step' : Step} (h : step.PairedIn w step') (position : Nat) :
    Steady w (cellsOf step position) (cellsOf step' position)
      fun v cells cells' => List.Forall₂ (Cell.PairedIn v) cells cells' := by
  apply (steady_receiverForms h.ty).bind
  intro v forms forms' _ hforms
  refine .pure fun v₁ hv₁ => ?_
  refine List.rel_flatMap hforms fun form form' hform => ?_
  have hcell : ∀ p, Cell.PairedIn v₁ ⟨step, position, form.1, form.2, p⟩
      ⟨step', position, form'.1, form'.2, p⟩ :=
    fun p => ⟨h.unsized, rfl, hform.1, hv₁.pairs hform.2, rfl⟩
  exact .cons (hcell _) (.cons (hcell _) .nil)

/-- Choices in paired places of candidates that agree. -/
theorem Cell.PairedIn.choose_agree {w : Twin} {cell cell' : Cell} (h : cell.PairedIn w cell')
    {R : TypeId → TypeId → Prop} {c c' : Candidate} (hc : c.Agree R c') (matchCount : Nat) :
    (cell.choose matchCount c).Agree R (cell'.choose matchCount c') where
  candidate := hc
  derefs := by simp only [Cell.choose, Step.derefCount, h.unsized, h.position]
  passing := h.passing
  unsizes := h.unsized
  viaTrait := by simp only [Cell.choose, h.precedence]

namespace Resolver

variable {r : Resolver} {w v : Twin} {method : Symbol} {visible : List TraitId}
  {receiver receiver' : TypeId} {g g' : Gathering} {steps steps' : List Step}

/-- **A place on twins** is decided in the same way. -/
theorem steady_searchCell (hr : r.PairedIn w) (hv : w.Leads v) (hg : g.Agree (w.PairsFrom v) g')
    {cell cell' : Cell} (hcell : cell.PairedIn v cell') :
    Steady v (r.searchCell method receiver g cell) (r.searchCell method receiver' g' cell')
      fun v' o o' => Option.Rel (Outcome.Agree (w.PairsFrom v')) o o' := by
  have hkept : Steady v (keepM (r.accepts cell.form) (g.candidates cell.precedence))
      (keepM (r.accepts cell'.form) (g'.candidates cell'.precedence))
      fun _ cs cs' => List.Forall₂ (Candidate.Agree (w.PairsFrom v)) cs cs' := by
    rw [hcell.precedence]
    apply Steady.keepM (hg.candidates _)
    intro c c' hc
    exact steady_accepts (hr.leads hv) hc.origin hc.arity (hc.expected.pairs hv) hcell.form
  apply hkept.bind
  intro v₁ matching matching' hv₁ hmatching
  cases hmatching with
  | nil => exact .pure fun _ _ => .none
  | cons hc hrest =>
      refine .pure fun v₂ hv₂ => .some ?_
      have hall := (List.Forall₂.cons hc hrest).imp
        fun _ _ (hc : Candidate.Agree (w.PairsFrom v) _ _) => hc.leads (hv₁.trans hv₂)
      rw [hcell.precedence, ← hall.length_eq]
      exact (Precedence.settle_agree hall).map fun c c' hc => hcell.choose_agree hc _

/-- **One step of the search ends alike in both stores**: with the same choice, the same
failure, or without either. -/
theorem steady_searchStep (hr : r.PairedIn w) (hv : w.Leads v) (hg : g.Agree (w.PairsFrom v) g')
    {step step' : Step} (hstep : step.PairedIn v step') (position : Nat) :
    Steady v (r.searchStep method receiver g step position)
      (r.searchStep method receiver' g' step' position)
      fun v' o o' => Option.Rel (Outcome.Agree (w.PairsFrom v')) o o' := by
  apply (steady_cellsOf hstep position).bind
  intro v₁ cells cells' hv₁ hcells
  apply Steady.findSomeM? (P := fun v' => Outcome.Agree (w.PairsFrom v')) _ hcells
  · intro cell cell' hcell
    exact steady_searchCell hr (hv.trans hv₁) (hg.imp fun _ _ hp => hp.leads hv₁) hcell
  · intro v v' o o' hv ho
    exact Outcome.Agree.imp ho fun _ _ hp => hp.leads hv

theorem forall₂_zipIdx (h : List.Forall₂ (Step.PairedIn w) steps steps') (k : Nat) :
    List.Forall₂ (fun a b => a.1.PairedIn w b.1 ∧ b.2 = a.2) (steps.zipIdx k)
      (steps'.zipIdx k) := by
  induction h generalizing k with
  | nil => exact .nil
  | cons hstep _ ih =>
      rw [List.zipIdx_cons, List.zipIdx_cons]
      exact .cons ⟨hstep, rfl⟩ (ih (k + 1))

/-- **The search on twins.** -/
theorem steady_search (hr : r.PairedIn w) (hv : w.Leads v) (hg : g.Agree (w.PairsFrom v) g')
    (hsteps : List.Forall₂ (Step.PairedIn v) steps steps') :
    Steady v (r.search method receiver steps g) (r.search method receiver' steps' g')
      fun v' o o' => Outcome.Agree (w.PairsFrom v') o o' := by
  have hlast : ∀ {v v' : Twin} {o o' : Outcome}, v.Leads v' →
      Outcome.Agree (w.PairsFrom v) o o' → Outcome.Agree (w.PairsFrom v') o o' :=
    fun hv ho => Outcome.Agree.imp ho fun _ _ hp => hp.leads hv
  have hfound : Steady v
      (steps.zipIdx.findSomeM? fun a => r.searchStep method receiver g a.1 a.2)
      (steps'.zipIdx.findSomeM? fun a => r.searchStep method receiver' g' a.1 a.2)
      fun v' o o' => Option.Rel (Outcome.Agree (w.PairsFrom v')) o o' := by
    apply Steady.findSomeM? (P := fun v' => Outcome.Agree (w.PairsFrom v')) hlast
      (forall₂_zipIdx hsteps 0)
    intro a b hab
    rw [hab.2]
    exact steady_searchStep hr hv hg hab.1 a.2
  apply hfound.bind
  intro v₁ o o' hv₁ ho
  cases ho with
  | some ho => exact .pure fun v₂ hv₂ => hlast hv₂ ho
  | none =>
      refine .pure fun v₂ hv₂ => .error ?_
      rw [hg.functions]
      exact .noMethod (by simp [hsteps.length_eq])

/-- **Resolving a call on twins.**  The outcomes agree, and the types of candidates are
written alike, in variables known before. -/
theorem steady_resolve (hr : r.PairedIn w) (hc : r.coercions.UniformFrom w)
    (herror : w.Pairs .error .error) (h : w.Pairs receiver receiver') (method : Symbol)
    (visible : List TraitId) :
    Steady w (r.resolve receiver method visible) (r.resolve receiver' method visible)
      fun v o o' => Outcome.Agree (w.PairsFrom v) o o' := by
  apply h.steady_findRoot.bind
  intro v root root' hv hroot
  have hiff := hroot.eq_iff (hv.pairs herror)
  by_cases hbad : root = .error
  · rw [if_pos hbad, if_pos (hiff.mp hbad)]
    exact .pure fun _ _ => .error (.noMethod rfl)
  rw [if_neg hbad, if_neg fun hbad' => hbad (hiff.mpr hbad')]
  apply (steady_stepsOf (R := fun _ _ => False) (hc.leads hv) hroot).bind
  intro v₁ o o' hv₁ ho
  have h₁ := hv.trans hv₁
  cases ho with
  | error hf => exact .pure fun _ _ => .error (hf.imp fun _ _ => False.elim)
  | @ok steps steps' hsteps =>
      apply (steady_gather hr h₁ hsteps).bind
      intro v₂ g g' hv₂ hg
      have h₂ := h₁.trans hv₂
      have hsteps₂ : List.Forall₂ (Step.PairedIn v₂) steps steps' :=
        hsteps.imp fun _ _ hstep => hstep.leads hv₂
      apply (steady_search hr h₂ hg hsteps₂).bind
      intro v₃ o o' hv₃ ho
      have hlast : ∀ v₄, v₃.Leads v₄ → Outcome.Agree (w.PairsFrom v₄) o o' :=
        fun v₄ hv₄ => ho.imp fun _ _ hp => hp.leads hv₄
      cases ho with
      | ok _ => exact .pure hlast
      | error hf =>
          cases hf with
          | ambiguous _ => exact .pure hlast
          | endlessDeref => exact .pure hlast
          | noMethod hlength =>
              have hsteps₃ : List.Forall₂ (Step.PairedIn v₃) steps steps' :=
                hsteps₂.imp fun _ _ hstep => hstep.leads hv₃
              apply (steady_suggestedTraits (hr.leads (h₂.trans hv₃)) hsteps₃).bind
              intro v₄ ids ids' _ hids
              subst hids
              exact .pure fun _ _ => .error (.noMethod hlength)

end Resolver

end DotCall
