import DotCall.Proofs.ImplIndex
import DotCall.Proofs.TwinResolution
import DotCall.Proofs.VerdictsAlone
import Mathlib.Logic.Equiv.Defs

/-!
# Impls under other numbers

Two resolvers that know the same impls under different numbers judge obligations and
try candidates in the same way.  Where one goes through the impls of a trait, the
other goes through the same impls in another order; since each is judged alone, that
makes no difference to what all of them come to.

What they gather for a method are the same definitions with other numbers in them and
in another order, and the types in the candidates are written alike.
-/

namespace DotCall

open TypeStore Twin

section Shuffled

variable {α β γ δ : Type} {R : α → β → Prop} {S : γ → δ → Prop} {xs : List α} {ys : List β}

/-- Two lists of answers to the same questions. -/
theorem forall₂_of_common {ι : Type} {is : List ι} {P : ι → α → Prop} {Q : ι → β → Prop}
    (hxs : List.Forall₂ P is xs) (hys : List.Forall₂ Q is ys)
    (hR : ∀ i a b, P i a → Q i b → R a b) : List.Forall₂ R xs ys := by
  induction hxs generalizing ys with
  | nil => cases hys; exact .nil
  | cons ha _ ih =>
      cases hys with
      | cons hb hrest => exact .cons (hR _ _ _ ha hb) (ih hrest)

/-- The second list has a partner for each element of the first, in some order. -/
def Shuffled (R : α → β → Prop) (xs : List α) (ys : List β) : Prop :=
  ∃ mid, List.Forall₂ R xs mid ∧ mid.Perm ys

namespace Shuffled

theorem length_eq (h : Shuffled R xs ys) : xs.length = ys.length := by
  obtain ⟨mid, hmid, hperm⟩ := h
  exact hmid.length_eq.trans hperm.length_eq

/-- Two pairs of shuffled lists are shuffled side by side. -/
theorem append {xs' : List α} {ys' : List β} (h : Shuffled R xs ys) (h' : Shuffled R xs' ys') :
    Shuffled R (xs ++ xs') (ys ++ ys') := by
  obtain ⟨mid, hmid, hperm⟩ := h
  obtain ⟨mid', hmid', hperm'⟩ := h'
  exact ⟨mid ++ mid', List.rel_append hmid hmid', hperm.append hperm'⟩

/-- Functions that answer alike keep lists shuffled. -/
theorem filterMap (h : Shuffled R xs ys) {f : α → Option γ} {g : β → Option δ}
    (hfg : ∀ a b, R a b → Option.Rel S (f a) (g b)) :
    Shuffled S (xs.filterMap f) (ys.filterMap g) := by
  obtain ⟨mid, hmid, hperm⟩ := h
  exact ⟨mid.filterMap g, List.rel_filterMap (fun _ _ hab => hfg _ _ hab) hmid,
    hperm.filterMap g⟩

theorem filter (h : Shuffled R xs ys) {p : α → Bool} {q : β → Bool}
    (hpq : ∀ a b, R a b → p a = q b) : Shuffled R (xs.filter p) (ys.filter q) := by
  obtain ⟨mid, hmid, hperm⟩ := h
  refine ⟨mid.filter q, ?_, hperm.filter q⟩
  exact List.rel_filter (fun a b hab => Bool.eq_iff_iff.mp (hpq a b hab)) hmid

end Shuffled

end Shuffled

/-- The origin with another number for its impl. -/
def Origin.rename (π : ImplId → ImplId) : Origin → Origin
  | .impl id => .impl (π id)
  | .object traitId => .object traitId
  | .bound traitId => .bound traitId

/-- The candidate with another number for its impl. -/
def Candidate.rename (π : ImplId → ImplId) (c : Candidate) : Candidate :=
  { c with origin := c.origin.rename π }

/-- The definition with another number for its impl. -/
def Definition.rename (π : ImplId → ImplId) : Definition → Definition
  | .method c => .method (c.rename π)
  | .function origin => .function (origin.rename π)

/-- Where the definition is. -/
def Definition.origin : Definition → Origin
  | .method c => c.origin
  | .function origin => origin

/-- The second resolver knows the impls of the first under other numbers, and is the
same in all else. -/
structure Resolver.Renames (π : Equiv.Perm ImplId) (r r' : Resolver) : Prop where
  impl? : ∀ id, r'.db.impl? (π id) = r.db.impl? id
  methodOfImpl? : ∀ id, r'.db.methodOfImpl? (π id) = r.db.methodOfImpl? id
  implsFor : ∀ head? id, π id ∈ r'.db.implsFor head? ↔ id ∈ r.db.implsFor head?
  implementors : ∀ traitId id, π id ∈ r'.db.implementors traitId ↔ id ∈ r.db.implementors traitId
  methodOfTrait? : r'.db.methodOfTrait? = r.db.methodOfTrait?
  traitNamed? : r'.db.traitNamed? = r.db.traitNamed?
  lineage : r'.db.lineage = r.db.lineage
  entails : r'.db.entails = r.db.entails
  coercions : r'.coercions = r.coercions
  settings : r'.settings = r.settings
  bounds : r'.bounds = r.bounds

namespace Resolver.Renames

variable {π : Equiv.Perm ImplId} {r r' : Resolver} {s x y : TypeStore} {t : TypeId}
  {method : Symbol} {visible : List TraitId} {steps : List Step} {id : ImplId}

/-- The renamed impls are made of the same types. -/
theorem within (h : r.Renames π r') (hr : r.Within s) : r'.Within s := by
  intro id decl hdecl
  refine hr (π.symm id) decl ?_
  rw [← h.impl?, Equiv.apply_symm_apply, hdecl]

section Layer

variable {d : Nat} (hjudge : ∀ {x : TypeStore} {u : TypeId} {traitId : TraitId}, x.Ordered →
  r.Within x → x.Has u → r'.verdict x d u traitId = r.verdict x d u traitId)

include hjudge

end Layer

/-- What a type has by itself does not come from impls. -/
theorem offers_eq (h : r.Renames π r') : r'.offers = r.offers := by
  funext method s t
  unfold offers ownTraits
  rw [h.settings, h.traitNamed?, h.bounds, h.lineage, h.methodOfTrait?]

/-- The trait that an impl would need in scope is the same under its other number. -/
theorem traitToImport?_eq (h : r.Renames π r') (known : List TraitId) (id : ImplId) :
    r'.traitToImport? method steps known (π id) = r.traitToImport? method steps known id := by
  unfold traitToImport?
  rw [h.impl?, h.methodOfTrait?]
  split
  · rfl
  · split
    · rfl
    · split
      · rfl
      · simp only [Candidate.make, bind_assoc, pure_bind]
        rfl

end Resolver.Renames

section Agreement

variable {π : ImplId → ImplId} {R : TypeId → TypeId → Prop} {o o' : Definition}

theorem Candidate.Agree.rename {c c' : Candidate} (h : c.Agree R c') :
    (c.rename π).Agree R (c'.rename π) :=
  { h with origin := congrArg (Origin.rename π) h.origin }

theorem Definition.Agree.rename (h : o.Agree R o') : (o.rename π).Agree R (o'.rename π) := by
  cases h with
  | method h => exact .method h.rename
  | function => exact .function

/-- Definitions or none, compared by a weaker relation. -/
theorem Definition.rel_imp {R' : TypeId → TypeId → Prop} {o? o'? : Option Definition}
    (h : Option.Rel (Definition.Agree R) o? o'?) (hR : ∀ t u, R t u → R' t u) :
    Option.Rel (Definition.Agree R') o? o'? := by
  cases h with
  | none => exact .none
  | some ho => exact .some (ho.imp hR)

/-- Agreeing is followed through: to agree with a definition that agrees is to agree. -/
theorem Definition.Agree.comp {S : TypeId → TypeId → Prop} {a b : Definition} (h : o.Agree R a)
    (h' : o.Agree S b) : a.Agree (Meet R S) b := by
  cases h with
  | method h =>
      cases h' with
      | method h' => exact .method (h.comp h')
  | function =>
      cases h' with
      | function => exact .function

/-- The second gathering has the definitions of the first with other numbers for the
impls, in some order. -/
structure Gathering.Renamed (π : ImplId → ImplId) (R : TypeId → TypeId → Prop)
    (g g' : Gathering) : Prop where
  candidates : ∀ p, Shuffled (fun c c' => (c.rename π).Agree R c') (g.candidates p)
    (g'.candidates p)
  functions : (g.functions.map (Origin.rename π)).Perm g'.functions

end Agreement

namespace TypeStore

variable {s x y x' y' z : TypeStore} {t u v : TypeId}

/-- Types of two stores made from `s` that are written alike, in the variables of `s`. -/
def WrittenAlike (s x y : TypeStore) (t u : TypeId) : Prop :=
  ∃ tree, x.Reads tree t ∧ y.Reads tree u ∧ ∀ id, .var id ∈ tree.atoms → id < s.variableCount

/-- At the start types belong together when they were written alike in the store both come
from. -/
theorem pairs_start_iff (hx : Quiet s x) (hy : Quiet s y) :
    (Twin.start hx hy).Pairs t u ↔ s.WrittenAlike x y t u := by
  constructor
  · rintro ⟨hleft, hright, hknown, hwritten⟩
    exact ⟨x.written t, ⟨hleft, rfl⟩, ⟨hright, hwritten.trans Tree.rename_id⟩, hknown⟩
  · rintro ⟨tree, ht, hu, hknown⟩
    exact pairs_start hx hy ht hu hknown

/-- Quiet work does not change how a type is written. -/
theorem WrittenAlike.left (h : s.WrittenAlike x y t u) (hx : Quiet x x') :
    s.WrittenAlike x' y t u := by
  obtain ⟨tree, ht, hu, hknown⟩ := h
  exact ⟨tree, hx.reads ht, hu, hknown⟩

theorem WrittenAlike.right (h : s.WrittenAlike x y t u) (hy : Quiet y y') :
    s.WrittenAlike x y' t u := by
  obtain ⟨tree, ht, hu, hknown⟩ := h
  exact ⟨tree, ht, hy.reads hu, hknown⟩

theorem WrittenAlike.meet (h : s.WrittenAlike x y t u) (h' : s.WrittenAlike x z t v) :
    s.WrittenAlike y z u v := by
  obtain ⟨tree, ht, hu, hknown⟩ := h
  obtain ⟨tree', ht', hv, -⟩ := h'
  obtain rfl : tree = tree' := ht.2.symm.trans ht'.2
  exact ⟨tree, hu, hv, hknown⟩

end TypeStore

/-- What a run of a loop answers was answered for some element. -/
theorem exists_of_mem_mapM {α β : Type} {f : α → StateM TypeStore β} {xs : List α} {s : TypeStore}
    {b : β} (h : b ∈ ((xs.mapM f).run s).1) : ∃ a ∈ xs, ∃ x, ((f a).run x).1 = b := by
  induction xs generalizing s with
  | nil => cases h
  | cons a xs ih =>
      rw [List.mapM_cons, run_bind, run_bind] at h
      rcases List.mem_cons.mp h with rfl | h
      · exact ⟨a, List.mem_cons_self, s, rfl⟩
      · obtain ⟨a', ha', x, hx⟩ := ih h
        exact ⟨a', List.mem_cons_of_mem _ ha', x, hx⟩

namespace Resolver

variable {r r' : Resolver} {π : Equiv.Perm ImplId} {s x y : TypeStore} {steps : List Step}
  {method : Symbol} {visible : List TraitId}

theorem pairedIn_start (hx : Quiet s x) (hy : Quiet s y) (hsteps : ∀ step ∈ steps, s.Has step.ty) :
    List.Forall₂ (Step.PairedIn (Twin.start hx hy)) steps steps :=
  List.forall₂_same.mpr fun step hmem => ⟨pairs_self hx hy (hsteps step hmem), rfl⟩

/-- What a type has by itself comes from no impl. -/
theorem origin_of_mem_offers {t : TypeId} {offer : Offer} (h : offer ∈ r.offers method s t) :
    ∃ traitId, offer.origin = .object traitId ∨ offer.origin = .bound traitId := by
  unfold offers ownTraits at h
  obtain ⟨traitId, hmem, h⟩ := List.mem_filterMap.mp h
  obtain ⟨m, -, rfl⟩ := Option.map_eq_some_iff.mp h
  refine ⟨traitId, ?_⟩
  split at hmem
  · exact .inl rfl
  · exact .inr rfl
  · exact .inr rfl

/-- What the steps have by themselves comes from no impl, and is inherent. -/
theorem own_of_mem_gatherOffers {o : Definition}
    (h : o ∈ ((r.gatherOffers method steps).run s).1) (f : ImplId → ImplId) :
    o.rename f = o ∧ o.extension? = none := by
  unfold gatherOffers at h
  rw [run_bind, run_bind] at h
  obtain ⟨offer, hoffer, x, rfl⟩ := exists_of_mem_mapM h
  obtain ⟨t, -, hmem⟩ := List.mem_flatMap.mp (List.mem_eraseDups.mp hoffer)
  obtain ⟨traitId, horigin⟩ := origin_of_mem_offers hmem
  have hkept : offer.origin.rename f = offer.origin := by
    rcases horigin with horigin | horigin <;> rw [horigin] <;> rfl
  unfold Offer.accept
  cases offer.passing? with
  | none => exact ⟨congrArg Definition.function hkept, rfl⟩
  | some passing =>
      refine ⟨?_, rfl⟩
      simp only [Candidate.make, run_bind, run_pure, Definition.rename, Candidate.rename, hkept]

/-- What the steps have by themselves is written in the variables of the store. -/
theorem gatherOffers_run (r : Resolver) (hs : s.Ordered) (hsteps : ∀ step ∈ steps, s.Has step.ty)
    (method : Symbol) :
    let own := (r.gatherOffers method steps).run s
    Quiet s own.2 ∧ ∀ o ∈ own.1, o.Agree (s.WrittenAlike own.2 own.2) o := by
  have hrefl := Quiet.refl hs
  have hsteady : Steady (Twin.start hrefl hrefl) (r.gatherOffers method steps)
      (r.gatherOffers method steps) fun v os os' =>
        List.Forall₂ (Definition.Agree ((Twin.start hrefl hrefl).PairsFrom v)) os os' :=
    steady_gatherOffers (pairedIn_start hrefl hrefl hsteps)
  obtain ⟨v, -, hq, hq', hleft, hright, hagree⟩ := hsteady _ (.refl _)
  have hsame : List.Forall₂ (Definition.Agree (s.WrittenAlike v.left v.right)) _ _ :=
    hagree.imp fun _ _ ho => ho.imp fun t u hp => (pairs_start_iff hq hq').mp hp
  rw [hleft, hright] at hsame
  exact ⟨hleft ▸ hq, List.forall₂_same.mp hsame⟩

/-- **What an impl contributes** after quiet work is what it contributes before. -/
theorem calm_gatherImpl_alike (hs : s.Ordered) (hr : r.Within s)
    (hsteps : ∀ step ∈ steps, s.Has step.ty) (method : Symbol) (visible : List TraitId)
    (id : ImplId) :
    let alone := (r.gatherImpl method steps visible id).run s
    Calm s (r.gatherImpl method steps visible id) fun x o =>
      Option.Rel (Definition.Agree (s.WrittenAlike alone.2 x)) alone.1 o := by
  intro alone y hy
  have hrefl := Quiet.refl hs
  have hsteady : Steady (Twin.start hrefl hy) (r.gatherImpl method steps visible id)
      (r.gatherImpl method steps visible id) fun v o o' =>
        Option.Rel (Definition.Agree ((Twin.start hrefl hy).PairsFrom v)) o o' :=
    steady_gatherImpl (hr.pairedIn hrefl hy) (.refl _) (pairedIn_start hrefl hy hsteps) id
  obtain ⟨v, -, hq, hq', hleft, hright, hagree⟩ := hsteady _ (.refl _)
  have hsame : Option.Rel (Definition.Agree (s.WrittenAlike v.left v.right)) _ _ :=
    Definition.rel_imp hagree fun t u hp => (pairs_start_iff hq (hy.trans hq')).mp hp
  rw [hleft, hright] at hsame
  exact ⟨hright ▸ hq', hsame⟩

/-- The impls to look at are found by heads, which quiet work leaves as they are. -/
theorem relevantImpls_quiet (r : Resolver) (hsteps : ∀ step ∈ steps, s.Has step.ty)
    (hx : Quiet s x) : r.relevantImpls x steps = r.relevantImpls s steps := by
  have hsame := relevantImpls_eq (r := r) (pairedIn_start (.refl hx.start) hx hsteps)
  exact hsame

/-- Gathering is gathering what the steps have by themselves, and after that what each
impl contributes. -/
theorem gather_alike (hs : s.Ordered) (hr : r.Within s) (hsteps : ∀ step ∈ steps, s.Has step.ty)
    (method : Symbol) (visible : List TraitId) :
    let own := (r.gatherOffers method steps).run s
    let g := (r.gather method steps visible).run s
    Quiet own.2 g.2 ∧ ∃ found, List.Forall₂ (fun id o =>
        let alone := (r.gatherImpl method steps visible id).run s
        Option.Rel (Definition.Agree (s.WrittenAlike alone.2 g.2)) alone.1 o)
      (r.relevantImpls s steps) found ∧ g.1 = .ofDefinitions (own.1 ++ found.filterMap id) := by
  intro own g
  obtain ⟨hq, -⟩ := gatherOffers_run r hs hsteps method
  have hfound := Calm.mapM (P := fun x id (o : Option Definition) =>
      let alone := (r.gatherImpl method steps visible id).run s
      Option.Rel (Definition.Agree (s.WrittenAlike alone.2 x)) alone.1 o)
    (fun hq h => Definition.rel_imp h fun _ _ hp => hp.right hq)
    fun id (_ : id ∈ r.relevantImpls s steps) =>
      calm_gatherImpl_alike hs hr hsteps method visible id
  rw [← r.relevantImpls_quiet hsteps hq] at hfound ⊢
  obtain ⟨hq', hall⟩ := hfound own.2 hq
  exact ⟨hq', _, hall, rfl⟩

theorem origin_of_gatherImpl {id : ImplId} {o : Definition}
    (h : ((r.gatherImpl method steps visible id).run s).1 = some o) : o.origin = .impl id := by
  unfold gatherImpl at h
  split at h
  · split at h
    · cases h
    · simp only [Candidate.make, bind_assoc, pure_bind, run_bind] at h
      split at h
      · cases h
        rfl
      · cases h
    · simp only [run_bind] at h
      split at h
      · cases h
        rfl
      · cases h
  · cases h

/-- What is gathered is what the steps have by themselves and definitions of impls. -/
theorem gather_own (r : Resolver) (s : TypeStore) (method : Symbol) (steps : List Step)
    (visible : List TraitId) :
    ∃ found : List Definition,
      ((r.gather method steps visible).run s).1 =
        .ofDefinitions (((r.gatherOffers method steps).run s).1 ++ found) ∧
      ∀ o ∈ found, ∃ id, o.origin = .impl id := by
  refine ⟨_, rfl, fun o ho => ?_⟩
  obtain ⟨o?, ho?, hsome⟩ := List.mem_filterMap.mp ho
  obtain ⟨id, -, x, rfl⟩ := exists_of_mem_mapM ho?
  exact ⟨id, origin_of_gatherImpl hsome⟩

/-- Only impls contribute extension candidates. -/
theorem exists_impl_of_mem_extension {c : Candidate}
    (h : c ∈ ((r.gather method steps visible).run s).1.extension) : ∃ id, c.origin = .impl id := by
  obtain ⟨found, hg, hfound⟩ := gather_own r s method steps visible
  rw [hg] at h
  obtain ⟨o, ho, hc⟩ := List.mem_filterMap.mp h
  obtain rfl : o = .method c := Definition.eq_of_candidate? (p := .extension) hc
  rcases List.mem_append.mp ho with ho | ho
  · rw [(own_of_mem_gatherOffers ho fun id => id).2] at hc
    cases hc
  · exact hfound _ ho

end Resolver

end DotCall
