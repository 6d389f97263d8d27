import DotCall.Proofs.QuietResolution
import DotCall.Proofs.RenamedImpls

/-!
# Methods that types have by themselves

A generic parameter has the methods of its bounds and of their ancestors, and a trait
object has those of its trait and its ancestors.  There are many ways to come to the same
method: bounds that share an ancestor, several lines to one ancestor, several steps of one
type.  `Resolver.Endows` says that there is some way, and what is gathered holds each
method once for each type and trait for which there is one.

So of two candidates of one type that both come from traits, the traits differ, and that
they do is the only reason for a call to be ambiguous between them.
-/

namespace DotCall

open TypeStore DotCall.Tree

theorem nodup_eraseDups {α : Type} [DecidableEq α] : ∀ xs : List α, xs.eraseDups.Nodup
  | [] => .nil
  | x :: xs => by
      rw [List.eraseDups_cons, List.nodup_cons]
      refine ⟨fun hmem => ?_, nodup_eraseDups _⟩
      simp at hmem
  termination_by xs => xs.length
  decreasing_by exact Nat.lt_succ_of_le (List.length_filter_le _ _)

/-- The origin of a method that a type has by itself through the trait. -/
def Origin.OwnOf (o : Origin) (traitId : TraitId) : Prop :=
  o = .bound traitId ∨ o = .object traitId

/-- The candidate is a method that a type has by itself. -/
def Candidate.IsOwn (c : Candidate) : Prop := ∃ traitId, c.origin.OwnOf traitId

/-- The type has the methods of the trait by itself: it is a generic parameter with a
bound that has the trait in its lineage, or the object of a trait that has.  The origin
says which. -/
inductive Resolver.Endows (r : Resolver) (s : TypeStore) (t : TypeId) :
    Origin → TraitId → Prop where
  | bound {id : Nat} {bound traitId : TraitId} (generic : s.node t = .atom (.generic id))
      (declared : (t, bound) ∈ r.bounds.declared) (ancestor : traitId ∈ r.db.lineage bound) :
      Endows r s t (.bound traitId) traitId
  | object {name : Symbol} {top traitId : TraitId} (object : s.node t = .atom (.object name))
      (named : r.db.traitNamed? name = some top) (ancestor : traitId ∈ r.db.lineage top) :
      Endows r s t (.object traitId) traitId

/-- The trait itself declares a method of the name, taken so; without a way of passing
the receiver it is a function. -/
def Resolver.Declares (r : Resolver) (method : Symbol) (traitId : TraitId)
    (passing? : Option Passing) : Prop :=
  ∃ m, r.db.methodOfTrait? traitId method = some m ∧ m.passing? = passing?

namespace Resolver

variable {r : Resolver} {s x : TypeStore} {method : Symbol} {t : TypeId} {o : Origin}
  {traitId : TraitId} {offer : Offer} {p p' : Option Passing}

theorem Endows.ownOf (h : r.Endows s t o traitId) : o.OwnOf traitId := by
  cases h with
  | bound _ _ _ => exact .inl rfl
  | object _ _ _ => exact .inr rfl

/-- The origin tells the trait. -/
theorem Endows.trait_eq {traitId' : TraitId} (h : r.Endows s t o traitId)
    (ho : o.OwnOf traitId') : traitId = traitId' := by
  cases h with
  | bound _ _ _ => simpa [Origin.OwnOf] using ho
  | object _ _ _ => simpa [Origin.OwnOf] using ho

/-- Such a type is an atom in which neither a variable nor an error nor a parameter
occurs. -/
theorem Endows.exists_atom (h : r.Endows s t o traitId) :
    ∃ a : Atom, s.node t = .atom a ∧ (Tree.atom a).Fixed ∧ (Tree.atom a).Proper := by
  cases h with
  | bound generic _ _ =>
      exact ⟨_, generic, by simp [Fixed], by simp [Proper, Atom.IsError, Atom.IsParam]⟩
  | object object _ _ =>
      exact ⟨_, object, by simp [Fixed], by simp [Proper, Atom.IsError, Atom.IsParam]⟩

/-- What is endowed with a trait is a type of the store. -/
theorem Endows.has (h : r.Endows s t o traitId) : s.Has t := by
  cases h with
  | bound generic _ _ => exact has_of_node_ne (by simp [generic])
  | object object _ _ => exact has_of_node_ne (by simp [object])

/-- One type has the methods of one trait in one way. -/
theorem Endows.unique {o' : Origin} (h : r.Endows s t o traitId) (h' : r.Endows s t o' traitId) :
    o = o' := by
  cases h with
  | bound generic _ _ =>
      cases h' with
      | bound _ _ _ => rfl
      | object object _ _ => simp [generic] at object
  | object object _ _ =>
      cases h' with
      | bound generic _ _ => simp [object] at generic
      | object _ _ _ => rfl

/-- An object type is endowed by the lineage of its trait. -/
theorem endows_object {name : Symbol} (hn : s.node t = .atom (.object name)) :
    r.Endows s t o traitId ↔
      ∃ top ∈ (r.db.traitNamed? name).toList, traitId ∈ r.db.lineage top ∧ o = .object traitId := by
  constructor
  · intro h
    cases h with
    | bound generic _ _ => simp [hn] at generic
    | object object named ancestor =>
        obtain rfl : name = _ := by simpa [hn] using object
        exact ⟨_, by simpa using named, ancestor, rfl⟩
  · intro hex
    obtain ⟨top, htop, hancestor, rfl⟩ := hex
    exact .object hn (by simpa using htop) hancestor

/-- A generic type is endowed by the lineages of its bounds. -/
theorem endows_generic {id : Nat} (hn : s.node t = .atom (.generic id)) :
    r.Endows s t o traitId ↔
      ∃ top ∈ r.bounds.on t, traitId ∈ r.db.lineage top ∧ o = .bound traitId := by
  constructor
  · intro h
    cases h with
    | bound _ declared ancestor => exact ⟨_, by simpa [Bounds.on] using declared, ancestor, rfl⟩
    | object object _ _ => simp [hn] at object
  · intro hex
    obtain ⟨top, htop, hancestor, rfl⟩ := hex
    exact .bound hn (by simpa [Bounds.on] using htop) hancestor

/-- A trait declares a method once, so the way it is passed is determined. -/
theorem Declares.unique (h : r.Declares method traitId p) (h' : r.Declares method traitId p') :
    p = p' := by
  obtain ⟨m, hm, rfl⟩ := h
  obtain ⟨m', hm', rfl⟩ := h'
  rw [Option.some.inj (hm.symm.trans hm')]

/-- The methods of the name in the lineages of some traits. -/
theorem mem_lineage_offers {tops : List TraitId} {origin : TraitId → Origin} :
    offer ∈ (tops.flatMap r.db.lineage).filterMap (fun traitId =>
        (r.db.methodOfTrait? traitId method).map fun m => ⟨origin traitId, t, m.passing?⟩) ↔
      offer.self = t ∧ ∃ traitId, (∃ top ∈ tops, traitId ∈ r.db.lineage top ∧
        offer.origin = origin traitId) ∧ r.Declares method traitId offer.passing? := by
  obtain ⟨o, self, passing?⟩ := offer
  simp only [List.mem_filterMap, List.mem_flatMap, Option.map_eq_some_iff, Offer.mk.injEq, Declares]
  grind

/-- **What a type offers** are the definitions of the traits whose methods it has. -/
theorem mem_offers (hobject : r.settings.objectMethods = true)
    (hbound : r.settings.boundMethods = true) :
    offer ∈ r.offers method s t ↔
      offer.self = t ∧ ∃ traitId, r.Endows s t offer.origin traitId ∧
        r.Declares method traitId offer.passing? := by
  by_cases hobjects : ∃ name, s.node t = .atom (.object name)
  · obtain ⟨name, hn⟩ := hobjects
    simp only [offers, ownTraits, hn, hobject, if_true, endows_object hn]
    exact mem_lineage_offers
  by_cases hgenerics : ∃ id, s.node t = .atom (.generic id)
  · obtain ⟨id, hn⟩ := hgenerics
    simp only [offers, ownTraits, hn, hbound, if_true, endows_generic hn]
    exact mem_lineage_offers
  · have hnone : r.ownTraits s t = ([], .bound) := by
      unfold ownTraits
      split
      · exact absurd ⟨_, ‹_›⟩ hobjects
      · exact absurd ⟨_, ‹_›⟩ hgenerics
      · rfl
    rw [show r.offers method s t = [] by simp [offers, hnone]]
    refine iff_of_false List.not_mem_nil fun h => ?_
    obtain ⟨-, traitId, hendows, -⟩ := h
    generalize offer.origin = o at hendows
    cases hendows with
    | bound generic _ _ => exact hgenerics ⟨_, generic⟩
    | object object _ _ => exact hobjects ⟨_, object⟩

/-- Quiet work does not change what a type is offered. -/
theorem offers_quiet (hq : Quiet s x) (ht : s.Has t) :
    r.offers method x t = r.offers method s t := by
  unfold offers ownTraits
  rw [hq.node_eq ht]

end Resolver

/-- The offer has become the definition; what a method expects is read in `y`. -/
inductive Offer.Becomes (method : Symbol) (s y : TypeStore) (offer : Offer) :
    Definition → Prop where
  | method {passing : Passing} {e : TypeId} (passed : offer.passing? = some passing)
      (reads : y.Reads (passing.tree (s.written offer.self)) e) :
      Becomes method s y offer
        (.method ⟨offer.origin, .inherent, method, passing, offer.self, 0, e⟩)
  | function (unpassed : offer.passing? = none) : Becomes method s y offer (.function offer.origin)

theorem Offer.Becomes.quiet {method : Symbol} {s y z : TypeStore} {offer : Offer} {o : Definition}
    (h : offer.Becomes method s y o) (hq : Quiet y z) : offer.Becomes method s z o := by
  cases h with
  | method passed reads => exact .method passed (hq.reads reads)
  | function unpassed => exact .function unpassed

namespace Resolver

variable {r : Resolver} {s x : TypeStore} {method : Symbol} {steps : List Step}
  {types : List TypeId} {t : TypeId} {o : Origin} {traitId : TraitId} {offer : Offer}

/-- The offers of several types, each once. -/
def offersOf (r : Resolver) (method : Symbol) (s : TypeStore) (types : List TypeId) : List Offer :=
  (types.flatMap (r.offers method s)).eraseDups

/-- To take up an offer makes the type of the receiver and binds nothing. -/
theorem calm_accept (offer : Offer) (ht : s.Has offer.self) :
    Calm s (offer.accept method) fun y o => offer.Becomes method s y o := by
  unfold Offer.accept
  cases hpassing : offer.passing? with
  | none => exact .pure fun _ _ => .function hpassing
  | some passing =>
      refine (Candidate.calm_make _ _ _ _ _ ht).bind fun y c _ hc => .pure fun z hz => ?_
      obtain ⟨e, he, rfl⟩ := hc
      exact .method hpassing (hz.reads he)

/-- What is gathered for the steps themselves are the offers of the types at the end of
their links. -/
theorem gatherOffers_becomes (r : Resolver) (method : Symbol) (hs : s.Ordered)
    (hsteps : ∀ step ∈ steps, s.Has step.ty) :
    let own := (r.gatherOffers method steps).run s
    Quiet s own.2 ∧ List.Forall₂ (Offer.Becomes method s own.2)
      (r.offersOf method s (steps.map fun step => s.root step.ty)) own.1 := by
  have hhas : ∀ t ∈ steps.map fun step => s.root step.ty, s.Has t := by
    intro t ht
    obtain ⟨step, hmem, rfl⟩ := List.mem_map.mp ht
    exact hs.has_root (hsteps step hmem)
  have hroots : Calm s (steps.mapM fun step => findRoot step.ty) fun _ types =>
      types = steps.map fun step => s.root step.ty := by
    have heach : Calm s (steps.mapM fun step => findRoot step.ty) fun _ types =>
        List.Forall₂ (fun step t => s.root step.ty = t) steps types := by
      refine Calm.mapM (P := fun _ (step : Step) t => s.root step.ty = t) (fun _ h => h) ?_
      intro step hmem x hx
      obtain ⟨hroot, hq⟩ := hx.finish.findRoot_quiet step.ty
      exact ⟨hq, by rw [hroot, hx.root_eq (hsteps step hmem)]⟩
    refine heach.imp fun x types _ h => ?_
    have hmap : List.Forall₂ Eq (steps.map fun step => s.root step.ty) types :=
      List.forall₂_map_left_iff.mpr h
    exact (List.forall₂_eq_eq_eq ▸ hmap).symm
  have hown : Calm s (r.gatherOffers method steps) fun y definitions =>
      List.Forall₂ (Offer.Becomes method s y)
        (r.offersOf method s (steps.map fun step => s.root step.ty)) definitions := by
    refine hroots.bind fun x types hx htypes => Calm.get.bind fun x' s' hx' hsame => ?_
    subst hsame htypes
    have hsx := hx.trans hx'
    have hoffers : ((steps.map fun step => s.root step.ty).flatMap (r.offers method x')).eraseDups =
        r.offersOf method s (steps.map fun step => s.root step.ty) := by
      rw [offersOf, List.flatMap_congr fun t ht => offers_quiet hsx (hhas t ht)]
    rw [hoffers]
    refine Calm.mapM (fun hq h => h.quiet hq) fun offer hmem => ?_
    obtain ⟨t, ht, hoffer⟩ := List.mem_flatMap.mp (List.mem_eraseDups.mp hmem)
    have hself : s.Has offer.self := (node_of_mem_offers hoffer).1 ▸ hhas t ht
    exact ((calm_accept offer hself).mono hsx).imp fun y o hy ho => ho
  exact hown s (.refl hs)

section Counting

open Classical

/-- The self types of the methods of one origin are those of their offers. -/
theorem map_self_inherent {y : TypeStore} {offers : List Offer} {definitions : List Definition}
    (h : List.Forall₂ (Offer.Becomes method s y) offers definitions) (o : Origin) :
    ((definitions.filterMap Definition.inherent?).filter fun c =>
        decide (c.origin = o)).map (·.self) =
      (offers.filter fun offer =>
        decide (offer.passing?.isSome ∧ offer.origin = o)).map (·.self) := by
  induction h with
  | nil => rfl
  | @cons offer _ _ _ hbecomes _ ih =>
      cases hbecomes with
      | method passed reads =>
          by_cases ho : offer.origin = o <;>
            simpa [Definition.inherent?, List.filter_cons, passed, ho] using ih
      | function unpassed =>
          simpa [Definition.inherent?, List.filterMap_cons, List.filter_cons, unpassed] using ih

/-- The functions of one origin are as many as their offers. -/
theorem count_functions {y : TypeStore} {offers : List Offer} {definitions : List Definition}
    (h : List.Forall₂ (Offer.Becomes method s y) offers definitions) (o : Origin) :
    (definitions.filterMap Definition.function?).count o =
      ((offers.filter fun offer => decide (offer.passing? = none ∧ offer.origin = o))).length := by
  induction h with
  | nil => rfl
  | @cons offer _ _ _ hbecomes _ ih =>
      cases hbecomes with
      | method passed reads =>
          simpa [Definition.function?, List.filterMap_cons, List.filter_cons, passed] using ih
      | function unpassed =>
          by_cases ho : offer.origin = o <;>
            simpa [Definition.function?, List.filter_cons, List.count_cons, unpassed, ho] using ih

variable (hobject : r.settings.objectMethods = true) (hbound : r.settings.boundMethods = true)

include hobject hbound

/-- **What is offered to a list of types**: each method that a trait declares which one of
them is endowed with. -/
theorem mem_offersOf : offer ∈ r.offersOf method s types ↔
    offer.self ∈ types ∧ ∃ traitId, r.Endows s offer.self offer.origin traitId ∧
      r.Declares method traitId offer.passing? := by
  rw [offersOf, List.mem_eraseDups, List.mem_flatMap]
  simp only [mem_offers hobject hbound]
  grind

/-- The types that offer something of one origin, each once. -/
theorem selves_perm (ho : o.OwnOf traitId) {passing? : Option Passing}
    (hdeclares : r.Declares method traitId passing?) :
    (((r.offersOf method s types).filter fun offer => decide (offer.origin = o)).map (·.self)).Perm
      (types.eraseDups.filter fun t => decide (r.Endows s t o traitId)) := by
  refine (List.perm_ext_iff_of_nodup ?_ ((nodup_eraseDups types).filter _)).mpr fun t => ?_
  · refine List.Nodup.map_on (fun a ha b hb hself => ?_) ((nodup_eraseDups _).filter _)
    simp only [List.mem_filter, mem_offersOf hobject hbound, decide_eq_true_iff] at ha hb
    obtain ⟨⟨-, traitId₁, hendows₁, hdeclares₁⟩, horigin₁⟩ := ha
    obtain ⟨⟨-, traitId₂, hendows₂, hdeclares₂⟩, horigin₂⟩ := hb
    obtain rfl := (horigin₁ ▸ hendows₁).trait_eq ho
    obtain rfl := (horigin₂ ▸ hendows₂).trait_eq ho
    have hpassing := hdeclares₁.unique hdeclares₂
    cases a
    cases b
    simp_all
  · simp only [List.mem_map, List.mem_filter, mem_offersOf hobject hbound, decide_eq_true_iff,
      List.mem_eraseDups]
    constructor
    · intro hex
      obtain ⟨offer, ⟨⟨hmem, traitId', hendows, -⟩, rfl⟩, rfl⟩ := hex
      exact ⟨hmem, hendows.trait_eq ho ▸ hendows⟩
    · intro h
      obtain ⟨hmem, hendows⟩ := h
      exact ⟨⟨o, t, passing?⟩, ⟨⟨hmem, traitId, hendows, hdeclares⟩, rfl⟩, rfl⟩

/-- **The methods of one origin** have the types that have the trait for their self
types, each once, if the trait declares the method; its functions are as many, if it
declares a function. -/
theorem own_of_becomes {y : TypeStore} {definitions : List Definition}
    (h : List.Forall₂ (Offer.Becomes method s y) (r.offersOf method s types) definitions)
    (ho : o.OwnOf traitId) :
    let selves := types.eraseDups.filter fun t => decide (r.Endows s t o traitId)
    (((definitions.filterMap Definition.inherent?).filter fun c => decide (c.origin = o)).map
        (·.self)).Perm (if ∃ p, r.Declares method traitId (some p) then selves else []) ∧
      (definitions.filterMap Definition.function?).count o =
        if r.Declares method traitId none then selves.length else 0 := by
  intro selves
  have hdeclared : ∀ offer ∈ r.offersOf method s types, offer.origin = o →
      r.Declares method traitId offer.passing? := by
    intro offer hmem horigin
    obtain ⟨-, traitId', hendows, hdeclares⟩ := (mem_offersOf hobject hbound).mp hmem
    rw [horigin] at hendows
    exact hendows.trait_eq ho ▸ hdeclares
  rw [map_self_inherent h, count_functions h]
  constructor
  · split
    · next hex =>
        obtain ⟨p, hdeclares⟩ := hex
        have hsome : ∀ offer ∈ r.offersOf method s types, offer.origin = o →
            offer.passing?.isSome := by
          intro offer hmem horigin
          rw [(hdeclared offer hmem horigin).unique hdeclares]
          rfl
        rw [List.filter_congr fun offer hmem =>
          decide_eq_decide.mpr (and_iff_right_of_imp (hsome offer hmem))]
        exact selves_perm hobject hbound ho hdeclares
    · next hnone =>
        have hnil : ∀ offer ∈ r.offersOf method s types,
            ¬ (offer.passing?.isSome ∧ offer.origin = o) := by
          intro offer hmem h
          obtain ⟨p, hp⟩ := Option.isSome_iff_exists.mp h.1
          exact hnone ⟨p, hp ▸ hdeclared offer hmem h.2⟩
        rw [List.filter_eq_nil_iff.mpr fun offer hmem => by simpa using hnil offer hmem]
        exact .nil
  · split
    · next hdeclares =>
        have hnone : ∀ offer ∈ r.offersOf method s types, offer.origin = o →
            offer.passing? = none := fun offer hmem horigin =>
          (hdeclared offer hmem horigin).unique hdeclares
        rw [List.filter_congr fun offer hmem =>
          decide_eq_decide.mpr (and_iff_right_of_imp (hnone offer hmem))]
        simpa using (selves_perm hobject hbound ho hdeclares).length_eq
    · next hnone =>
        have hnil : ∀ offer ∈ r.offersOf method s types,
            ¬ (offer.passing? = none ∧ offer.origin = o) := fun offer hmem h =>
          hnone (h.1 ▸ hdeclared offer hmem h.2)
        rw [List.filter_eq_nil_iff.mpr fun offer hmem => by simpa using hnil offer hmem]
        rfl

end Counting

/-- A gathered method that a type has by itself: the type is the end of a step, has the
trait, and the trait declares the method.  It is expected in the form in which the trait
takes it. -/
structure Own (r : Resolver) (s y : TypeStore) (method : Symbol) (types : List TypeId)
    (traitId : TraitId) (c : Candidate) : Prop where
  self_mem : c.self ∈ types
  endows : r.Endows s c.self c.origin traitId
  declares : r.Declares method traitId (some c.passing)
  reads : y.Reads (c.passing.tree (s.written c.self)) c.expected
  standing : c.standing = .inherent
  name : c.method = method
  arity : c.arity = 0

theorem Own.trait?_eq {y : TypeStore} {c : Candidate} (h : r.Own s y method types traitId c) :
    c.trait? = some traitId := by
  obtain ⟨-, hendows, -, -, hstanding, -, -⟩ := h
  unfold Candidate.trait?
  rcases hendows.ownOf with ho | ho <;> simp [hstanding, ho]

section Gathered

variable (hobject : r.settings.objectMethods = true) (hbound : r.settings.boundMethods = true)
  (hs : s.Ordered) (hsteps : ∀ step ∈ steps, s.Has step.ty)

include hobject hbound hs hsteps

/-- A gathered candidate that comes from a trait is a method that a type has by itself. -/
theorem own_of_mem_inherent (hr : r.Within s) {visible : List TraitId} {c : Candidate}
    (hc : c ∈ ((r.gather method steps visible).run s).1.inherent) (ho : c.origin.OwnOf traitId) :
    r.Own s ((r.gather method steps visible).run s).2 method
      (steps.map fun step => s.root step.ty) traitId c := by
  obtain ⟨-, hbecomes⟩ := gatherOffers_becomes r method hs hsteps
  obtain ⟨hq, -⟩ := gather_alike hs hr hsteps method visible
  obtain ⟨found, hg, hfound⟩ := gather_own r s method steps visible
  rw [hg] at hc
  obtain hmem | hmem :=
    List.mem_append.mp (Gathering.method_of_mem_candidates (p := .inherent) hc)
  · obtain ⟨offer, hoffer, hmethod⟩ := exists_of_forall₂ hbecomes _ hmem
    obtain ⟨hself, traitId', hendows, hdeclares⟩ := (mem_offersOf hobject hbound).mp hoffer
    cases hmethod with
    | method passed reads =>
        obtain rfl := hendows.trait_eq ho
        exact ⟨hself, hendows, passed ▸ hdeclares, hq.reads reads, rfl, rfl, rfl⟩
  · obtain ⟨id, hid⟩ := hfound _ hmem
    have horigin : c.origin = .impl id := hid
    rcases ho with ho | ho <;> simp [ho] at horigin

open Classical in
/-- What is gathered of one origin is what becomes of the offers. -/
theorem own_of_gather (ho : o.OwnOf traitId) (visible : List TraitId) :
    let g := ((r.gather method steps visible).run s).1
    let types := steps.map fun step => s.root step.ty
    let selves := types.eraseDups.filter fun t => decide (r.Endows s t o traitId)
    ((g.inherent.filter fun c => decide (c.origin = o)).map (·.self)).Perm
        (if ∃ p, r.Declares method traitId (some p) then selves else []) ∧
      g.functions.count o = if r.Declares method traitId none then selves.length else 0 := by
  intro g types selves
  obtain ⟨-, hbecomes⟩ := gatherOffers_becomes r method hs hsteps
  obtain ⟨found, hg, hfound⟩ := gather_own r s method steps visible
  obtain ⟨hmethods, hfunctions⟩ := own_of_becomes hobject hbound hbecomes ho
  have himpl : ∀ definition ∈ found, definition.origin ≠ o := by
    intro definition hmem heq
    obtain ⟨id, hid⟩ := hfound definition hmem
    rcases ho with rfl | rfl <;> simp [hid] at heq
  have hinherent : (found.filterMap Definition.inherent?).filter (fun c => decide (c.origin = o)) =
      [] := by
    rw [List.filter_eq_nil_iff]
    intro c hc
    obtain ⟨definition, hmem, hc⟩ := List.mem_filterMap.mp hc
    obtain rfl : definition = .method c := Definition.eq_of_candidate? (p := .inherent) hc
    have hne : c.origin ≠ o := himpl _ hmem
    simpa using hne
  have hfunction : (found.filterMap Definition.function?).count o = 0 := by
    rw [List.count_eq_zero]
    intro hmem
    obtain ⟨definition, hmem, ho⟩ := List.mem_filterMap.mp hmem
    cases definition with
    | method c => cases ho
    | function origin => exact himpl _ hmem (Option.some.inj ho)
  have hgInherent : g.inherent = _ ++ _ :=
    (congrArg Gathering.inherent hg).trans List.filterMap_append
  have hgFunctions : g.functions = _ ++ _ :=
    (congrArg Gathering.functions hg).trans List.filterMap_append
  rw [hgInherent, hgFunctions, List.filter_append, hinherent, List.append_nil, List.count_append,
    hfunction, Nat.add_zero]
  exact ⟨hmethods, hfunctions⟩

end Gathered

/-- A call is ambiguous by what matches at one place. -/
theorem exists_place_of_ambiguous {g : Gathering} {receiver : TypeId} {several : List Candidate}
    (hs : s.Ordered) (hr : r.Within s) (hsteps : ∀ step ∈ steps, s.Has step.ty)
    (hg : ∀ p, ∀ c ∈ g.candidates p, s.Has c.expected)
    (h : ((r.search method receiver steps g).run s).1 =
      .error (.ambiguous method receiver several)) :
    ∃ place : Place, place.In steps ∧
      place.precedence.Differ (r.matching s g place) several := by
  have hcases := search_cases hs hr hsteps hg method receiver
  rw [h] at hcases
  obtain hnone | ⟨place, hin, ⟨_, -, _, hchoice⟩ | ⟨_, hseveral, hdiffer⟩⟩ := hcases
  · cases hnone
  · cases hchoice
  · cases hseveral
    exact ⟨place, hin, hdiffer⟩

end Resolver

/-- A pattern without parameters that matches a tree without variables is the tree. -/
theorem Tree.Matches.eq_of_fixed {pattern tree : Tree} {n : Nat} (h : pattern.Matches n tree)
    (hpattern : pattern.Proper) (hfixed : tree.Fixed) (herror : ¬ tree.HasError) :
    tree = pattern := by
  obtain ⟨hclean, hparam⟩ := proper_iff.mp hpattern
  rcases h with he | he | ⟨heq, -⟩ | ⟨-, -, args, -, σ, hσ⟩
  · exact absurd he herror
  · exact absurd he hclean
  · exact heq
  · rw [subst_of_no_var hfixed, fill_of_no_param fun a ha hbad => hparam ⟨a, ha, hbad⟩] at hσ
    exact hσ.symm

/-- Atoms that are passed alike and look alike are the same, for a borrow is no atom. -/
theorem Passing.atom_eq_of_tree_eq {p p' : Passing} {a a' : Atom}
    (h : p.tree (.atom a) = p'.tree (.atom a')) : a = a' := by
  cases p <;> cases p' <;> simp_all [Passing.tree]

theorem Passing.proper_tree {p : Passing} {t : Tree} : (p.tree t).Proper ↔ t.Proper := by
  simp only [Proper, Passing.mem_atoms_tree]

namespace Resolver

variable {r : Resolver} {s x : TypeStore} {method : Symbol} {types : List TypeId}

/-- Two methods that types have by themselves and that match one tree without variables
belong to one type. -/
theorem Own.self_eq {y y' : TypeStore} {traitId traitId' : TraitId} {c c' : Candidate}
    {tree : Tree} (h : r.Own s y method types traitId c) (h' : r.Own s y' method types traitId' c')
    (hs : s.WellFormed) (hmatch : (y.written c.expected).Matches c.arity tree)
    (hmatch' : (y'.written c'.expected).Matches c'.arity tree) (hfixed : tree.Fixed)
    (herror : ¬ tree.HasError) : c.self = c'.self := by
  obtain ⟨a, hn, -, hproper⟩ := h.endows.exists_atom
  obtain ⟨a', hn', -, hproper'⟩ := h'.endows.exists_atom
  rw [h.reads.2, WellFormed.written_of_atom hn] at hmatch
  rw [h'.reads.2, WellFormed.written_of_atom hn'] at hmatch'
  have heq := hmatch.eq_of_fixed (Passing.proper_tree.mpr hproper) hfixed herror
  have heq' := hmatch'.eq_of_fixed (Passing.proper_tree.mpr hproper') hfixed herror
  have hatom : a = a' := Passing.atom_eq_of_tree_eq (heq.symm.trans heq')
  exact hs.node_injective h.endows.has h'.endows.has (by rw [hn, hn', hatom])

/-- A candidate of the type itself stands: its pattern has no parameters. -/
theorem Own.stands {y : TypeStore} {traitId : TraitId} {c : Candidate}
    (h : r.Own s y method types traitId c) : c.Stands y := by
  obtain ⟨a, hn, hfixed, -⟩ := h.endows.exists_atom
  refine ⟨h.reads.1, ?_⟩
  rw [h.reads.2, WellFormed.written_of_atom hn]
  exact Passing.fixed_tree.mpr hfixed

/-- Two methods that one type has by itself come from different traits if their origins
differ. -/
theorem Own.trait?_ne {y y' : TypeStore} {traitId traitId' : TraitId} {c c' : Candidate}
    (h : r.Own s y method types traitId c) (h' : r.Own s y' method types traitId' c')
    (hself : c.self = c'.self) (hne : c.origin ≠ c'.origin) : c.trait? ≠ c'.trait? := by
  rw [h.trait?_eq, h'.trait?_eq]
  intro heq
  obtain rfl := Option.some.inj heq
  exact hne (h.endows.unique (hself ▸ h'.endows))

variable {steps : List Step} {g : Gathering} {place : Place}

/-- What matches at a place matches what the step means there. -/
theorem matches_of_mem_matching (hs : s.Sound) (hq : Quiet s x) {c : Candidate}
    (hstands : c.Stands x) (hstep : s.Expanded place.step.ty) (hc : c ∈ r.matching x g place) :
    (x.written c.expected).Matches c.arity (place.passing.tree (s.meaning place.step.ty)) := by
  have haccepts := (List.mem_filter.mp hc).2
  have hmatch := (acceptsAlone_iff (hs.quiet hq) hstands (hstep.quiet hq) place.passing).1 haccepts
  rwa [hq.meaning_eq hstep.1] at hmatch

/-- Matches that differ and that types have by themselves are gathered before the impls and
come from different origins. -/
theorem origin_ne_of_differ {several : List Candidate}
    (hdiffer : place.precedence.Differ (r.matching x g place) several)
    (hextension : ∀ c ∈ g.extension, ¬ c.IsOwn) :
    several.Pairwise fun c c' => c.IsOwn → c'.IsOwn →
      c ∈ g.inherent ∧ c' ∈ g.inherent ∧ c.origin ≠ c'.origin := by
  have hinherent : ∀ c ∈ several, c.IsOwn → place.precedence = .inherent ∧ c ∈ g.inherent := by
    intro c hmem hisOwn
    have hc := (List.mem_filter.mp (hdiffer.sublist.subset hmem)).1
    cases hp : place.precedence with
    | inherent => exact ⟨rfl, by rwa [hp] at hc⟩
    | extension => exact absurd hisOwn (hextension c (by rwa [hp] at hc))
  refine List.Pairwise.imp_of_mem (fun hc hc' hnot hisOwn hisOwn' => ?_) hdiffer.distinct
  obtain ⟨hplace, hmem⟩ := hinherent _ hc hisOwn
  refine ⟨hmem, (hinherent _ hc' hisOwn').2, fun heq => hnot ?_⟩
  rw [hplace]
  exact heq.symm

open Classical in
/-- **A method counts once** for each type and trait, in however many ways the type comes
to have it.  If the trait declares the method, the candidates of its origin have for their
self types the types at the end of the steps that have the trait by themselves, each once,
and if it declares a function, there are as many functions of the origin; nothing else of
the origin is gathered.  So candidates of this kind are ambiguous only where they come from
different origins: those of one type from different traits, and all of them from different
traits when no variable is left in the types of the steps. -/
theorem own_methods_once (hobject : r.settings.objectMethods = true)
    (hbound : r.settings.boundMethods = true) (hs : s.Ordered) (hr : r.Within s)
    (hsteps : ∀ step ∈ steps, s.Has step.ty) (method : Symbol) (visible : List TraitId) :
    let types := steps.map fun step => s.root step.ty
    let g := (r.gather method steps visible).run s
    (∀ o traitId, o.OwnOf traitId →
      let selves := types.eraseDups.filter fun t => decide (r.Endows s t o traitId)
      ((g.1.inherent.filter fun c => decide (c.origin = o)).map (·.self)).Perm
          (if ∃ p, r.Declares method traitId (some p) then selves else []) ∧
        g.1.functions.count o = if r.Declares method traitId none then selves.length else 0) ∧
    (∀ c ∈ g.1.inherent, ∀ traitId, c.origin.OwnOf traitId →
      r.Own s g.2 method types traitId c) ∧
    (∀ c ∈ g.1.extension, ¬ c.IsOwn) ∧
    ∀ receiver several, ((r.search method receiver steps g.1).run g.2).1 =
        .error (.ambiguous method receiver several) →
      2 ≤ several.length ∧
      several.Pairwise (fun c c' => c.IsOwn → c'.IsOwn →
        c.origin ≠ c'.origin ∧ (c.self = c'.self → c.trait? ≠ c'.trait?)) ∧
      (s.Sound → (∀ step ∈ steps, s.Expanded step.ty ∧ (s.meaning step.ty).Fixed ∧
          ¬ (s.meaning step.ty).HasError) →
        several.Pairwise fun c c' => c.IsOwn → c'.IsOwn → c.trait? ≠ c'.trait?) := by
  intro types g
  have hown : ∀ c ∈ g.1.inherent, ∀ traitId, c.origin.OwnOf traitId →
      r.Own s g.2 method types traitId c := fun c hc traitId ho =>
    own_of_mem_inherent hobject hbound hs hsteps hr hc ho
  have hextension : ∀ c ∈ g.1.extension, ¬ c.IsOwn := by
    intro c hc hisOwn
    obtain ⟨id, hid⟩ := exists_impl_of_mem_extension hc
    obtain ⟨traitId, ho | ho⟩ := hisOwn <;> simp [hid] at ho
  refine ⟨fun o traitId ho => ?_, hown, hextension, fun receiver several hambiguous => ?_⟩
  · exact own_of_gather hobject hbound hs hsteps ho visible
  · obtain ⟨hq, hhas⟩ := calm_gather hr hsteps method visible s (.refl hs)
    obtain ⟨place, hin, hdiffer⟩ := exists_place_of_ambiguous hq.finish (hr.grows hq.grows)
      (fun step hmem => hq.has (hsteps step hmem)) hhas hambiguous
    have hmem : ∀ c ∈ several, c ∈ r.matching g.2 g.1 place := fun c hc => hdiffer.sublist.subset hc
    have horigins := origin_ne_of_differ hdiffer hextension
    refine ⟨hdiffer.two, ?_, fun hsound hfixed => ?_⟩
    · refine horigins.imp fun {c c'} hne hisOwn hisOwn' => ?_
      obtain ⟨hc, hc', hne⟩ := hne hisOwn hisOwn'
      obtain ⟨traitId, ho⟩ := hisOwn
      obtain ⟨traitId', ho'⟩ := hisOwn'
      exact ⟨hne, fun hself => (hown c hc _ ho).trait?_ne (hown c' hc' _ ho') hself hne⟩
    · obtain ⟨hexpanded, hstepFixed, herror⟩ := hfixed place.step (List.mem_of_getElem? hin)
      refine List.Pairwise.imp_of_mem (fun {c c'} hmatch hmatch' hne hisOwn hisOwn' => ?_) horigins
      obtain ⟨hc, hc', hne⟩ := hne hisOwn hisOwn'
      obtain ⟨traitId, ho⟩ := hisOwn
      obtain ⟨traitId', ho'⟩ := hisOwn'
      have hc := hown c hc traitId ho
      have hc' := hown c' hc' traitId' ho'
      have hself : c.self = c'.self := by
        apply hc.self_eq hc' hs.wellFormed
          (matches_of_mem_matching hsound hq hc.stands hexpanded (hmem c hmatch))
          (matches_of_mem_matching hsound hq hc'.stands hexpanded (hmem c' hmatch'))
        · exact Passing.fixed_tree.mpr hstepFixed
        · exact fun he => herror (Passing.hasError_tree.mp he)
      exact hc.trait?_ne hc' hself hne

/-- A generic parameter with two bounds, each of which has one trait in its lineage, that
one in two ways and in a circle; the parameter is a step twice.  There is one candidate. -/
theorem own_methods_once_diamond :
    let s := ((newGeneric .blank).run new).2
    let t : TypeId := ⟨64⟩
    let traits : Array TraitDecl := #[⟨.blank, [⟨1⟩, ⟨2⟩], []⟩, ⟨.blank, [⟨3⟩], []⟩,
      ⟨.blank, [⟨3⟩], []⟩, ⟨.blank, [⟨0⟩], [⟨.blank, some .byValue⟩]⟩]
    let r := { Declarations.empty with traits := traits }.resolver {} ⟨[(t, ⟨0⟩), (t, ⟨1⟩)]⟩
    let steps : List Step := [⟨t, false⟩, ⟨t, false⟩]
    let g := ((r.gather .blank steps []).run s).1
    (g.inherent.filter fun c => decide (c.origin = .bound ⟨3⟩)).map (·.self) = [t] := by
  intro s t traits r steps g
  have hreached : Reached [] s := .act (.generic .blank) .new (by simp [Action.types])
  have hnode : s.node t = .atom (.generic 0) := by
    show ((newGeneric .blank).run new).2.node ⟨64⟩ = _
    cbv
  have hsteps : ∀ step ∈ steps, s.Has step.ty := by
    simpa [steps] using has_of_node_ne (by simp [hnode])
  have hr : r.Within s := by
    intro id decl hdecl
    simp [r, Declarations.resolver, Declarations.database, Declarations.impl?,
      Declarations.empty] at hdecl
  have hendows : r.Endows s t (.bound ⟨3⟩) ⟨3⟩ :=
    .bound hnode List.mem_cons_self (by decide +kernel)
  have hdeclares : ∃ p, r.Declares .blank ⟨3⟩ (some p) := ⟨.byValue, _, rfl, rfl⟩
  obtain ⟨honce, -⟩ := own_methods_once rfl rfl hreached.sound.ordered hr hsteps .blank []
  obtain ⟨hperm, -⟩ := honce (.bound ⟨3⟩) ⟨3⟩ (.inl rfl)
  have hroot : s.root t = t := root_of_no_link (by simp [link?, hnode])
  have htypes : (steps.map fun step => s.root step.ty).eraseDups = [t] := by
    simp only [steps, List.map_cons, List.map_nil, hroot]
    decide
  rw [if_pos hdeclares, htypes] at hperm
  simpa [hendows] using hperm

end Resolver

end DotCall
