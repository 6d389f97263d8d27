import DotCall.Proofs.RenamedImpls

/-!
# The order of impls

Programs that declare the same impls in different orders resolve every call in the same
way.  They know the impls under different numbers (`Renames`), gather the same candidates
in different orders, and at each place of the search the same of them match.  What is
settled there depends on which things could be called, not on which of them comes
first; and where several impls of one trait match, the trait is all that is chosen.
-/

namespace DotCall

open TypeStore Twin

namespace TraitId

variable {a b c : TraitId}

theorem lt_iff : a < b ↔ a.index < b.index := Iff.rfl

theorem lt_trans (hab : a < b) (hbc : b < c) : a < c := Nat.lt_trans hab hbc

theorem lt_asymm (h : a < b) : ¬ b < a := Nat.lt_asymm h

theorem lt_of_not_lt (h : ¬ a < b) (hne : a ≠ b) : b < a := by
  obtain ⟨i⟩ := a
  obtain ⟨j⟩ := b
  simp only [lt_iff, ne_eq, TraitId.mk.injEq] at h hne ⊢
  omega

end TraitId

/-- The function with another number for its impl. -/
def Callee.rename (π : ImplId → ImplId) : Callee → Callee
  | .ofImpl id => .ofImpl (π id)
  | .ofTrait traitId impl? => .ofTrait traitId (impl?.map π)

/-- Choices of the same function, with the same adjustments. -/
structure Choice.Corresponds (π : ImplId → ImplId) (c c' : Choice) : Prop where
  derefs : c'.derefs = c.derefs
  passing : c'.passing = c.passing
  unsizes : c'.unsizes = c.unsizes
  viaTrait : c'.viaTrait = c.viaTrait
  standing : c'.candidate.standing = c.candidate.standing
  callee : c'.callee = c.callee.rename π

/-- Failures of the same sort that say the same, each in its own store. -/
inductive Failure.Corresponds (π : ImplId → ImplId) (s s' : TypeStore) :
    Failure → Failure → Prop where
  | noMethod {method : Symbol} {receiver : TypeId} {tried : List TypeId}
      {functions functions' : List Origin} {outOfScope : List TraitId}
      (tried_meaning : ∀ t ∈ tried, s'.meaning t = s.meaning t)
      (functions_perm : (functions.map (Origin.rename π)).Perm functions') :
      Corresponds π s s' (.noMethod method receiver tried functions outOfScope)
        (.noMethod method receiver tried functions' outOfScope)
  /-- between the same definitions -/
  | inherent {method : Symbol} {receiver : TypeId} {candidates candidates' : List Candidate}
      (inherent : ∀ c ∈ candidates ++ candidates', c.standing = .inherent)
      (origins : (candidates.map fun c => c.origin.rename π).Perm (candidates'.map (·.origin))) :
      Corresponds π s s' (.ambiguous method receiver candidates)
        (.ambiguous method receiver candidates')
  /-- between methods of the same traits -/
  | extension {method : Symbol} {receiver : TypeId} {candidates candidates' : List Candidate}
      (extension : ∀ c ∈ candidates ++ candidates', c.standing ≠ .inherent)
      (traits : (candidates.map (·.trait?)).Perm (candidates'.map (·.trait?))) :
      Corresponds π s s' (.ambiguous method receiver candidates)
        (.ambiguous method receiver candidates')
  | endlessDeref {receiver ty : TypeId} {cycle : Bool} :
      Corresponds π s s' (.endlessDeref receiver ty cycle) (.endlessDeref receiver ty cycle)

/-- Outcomes that come to the same. -/
inductive Outcome.Corresponds (π : ImplId → ImplId) (s s' : TypeStore) :
    Outcome → Outcome → Prop where
  | ok {c c' : Choice} (h : c.Corresponds π c') : Corresponds π s s' (.ok c) (.ok c')
  | error {f f' : Failure} (h : f.Corresponds π s s' f') : Corresponds π s s' (.error f) (.error f')

section FirstPerKey

variable {α β κ : Type} [DecidableEq κ] {R : α → β → Prop} {xs : List α} {ys : List β}
  {key : α → κ} {key' : β → κ} {f : κ → κ}

end FirstPerKey

/-- What the candidates of a group have in common. -/
def Precedence.Admits (p : Precedence) (c : Candidate) : Prop :=
  match p with
  | .inherent => c.standing = .inherent
  | .extension => ∃ traitId id, c.standing = .extension traitId ∧ c.origin = .impl id

theorem Origin.rename_injective (π : Equiv.Perm ImplId) :
    Function.Injective (Origin.rename π) := by
  intro a b h
  cases a <;> cases b <;> simp_all [Origin.rename]

section Settle

variable {π : Equiv.Perm ImplId} {R : TypeId → TypeId → Prop} {p : Precedence}
  {matching matching' : List Candidate} {c c' : Candidate}

/-- The choice of a candidate at a place. -/
def Place.choose (place : Place) (several : Bool) (c : Candidate) : Choice where
  candidate := c
  derefs := place.step.derefCount place.position
  passing := place.passing
  unsizes := place.step.unsized
  viaTrait := several

end Settle

namespace Resolver

variable {r r' : Resolver} {π : Equiv.Perm ImplId} {s x y : TypeStore} {t : TypeId}
  {steps : List Step} {method : Symbol} {visible : List TraitId} {g g' : Gathering}

/-- The trait that an impl would need in scope, if no trait is known. -/
def wanted? (r : Resolver) (s : TypeStore) (method : Symbol) (steps : List Step) (id : ImplId) :
    Option TraitId :=
  ((r.traitToImport? method steps [] id).run s).1

/-- Only the trait of an impl is imported for it, unless it is known. -/
theorem traitToImport?_eq (r : Resolver) (method : Symbol) (steps : List Step)
    (known : List TraitId) (id : ImplId) : r.traitToImport? method steps known id =
      match (r.db.impl? id).bind (·.trait?) with
      | none => pure none
      | some own => if own ∈ known then pure none else r.traitToImport? method steps [] id := by
  unfold traitToImport?
  cases r.db.impl? id with
  | none => rfl
  | some decl => cases htrait : decl.trait? <;> simp [htrait]

theorem trait_of_wanted? {id : ImplId} {traitId : TraitId}
    (h : r.wanted? s method steps id = some traitId) :
    (r.db.impl? id).bind (·.trait?) = some traitId := by
  unfold wanted? traitToImport? at h
  split at h
  · cases h
  · next decl own hown =>
      have htrait : (r.db.impl? id).bind (·.trait?) = some own := by
        obtain ⟨hdecl, htrait⟩ := implWithTrait_eq_some.mp hown
        rw [hdecl, Option.bind_some, htrait]
      simp only [List.not_mem_nil, if_false] at h
      split at h
      · cases h
      · simp only [run_bind] at h
        split at h
        · exact htrait.trans h
        · cases h

/-- Traits that are known are passed over. -/
theorem traitToImport?_eq_some {known : List TraitId} {id : ImplId} {traitId : TraitId} :
    ((r.traitToImport? method steps known id).run s).1 = some traitId ↔
      traitId ∉ known ∧ r.wanted? s method steps id = some traitId := by
  rw [traitToImport?_eq]
  constructor
  · intro h
    split at h
    · cases h
    next own hown =>
      split at h
      · cases h
      next hknown =>
        have htrait := trait_of_wanted? h
        obtain rfl : own = traitId := Option.some.inj (hown.symm.trans htrait)
        exact ⟨hknown, h⟩
  · rintro ⟨hknown, hwanted⟩
    rw [trait_of_wanted? hwanted]
    simp only [hknown, if_false]
    exact hwanted

/-- What an impl wants is the same after quiet work. -/
theorem calm_traitToImport? (hr : r.Within s) (hsteps : ∀ step ∈ steps, s.Has step.ty)
    (known : List TraitId) (id : ImplId) :
    Calm s (r.traitToImport? method steps known id) fun _ o =>
      ∀ traitId, o = some traitId ↔
        traitId ∉ known ∧ r.wanted? s method steps id = some traitId := by
  intro x hx
  have hrefl := Quiet.refl hx.start
  have hsteady : Steady (Twin.start hrefl hx) (r.traitToImport? method steps known id)
      (r.traitToImport? method steps known id) fun _ o o' => o = o' :=
    steady_traitToImport? (hr.pairedIn hrefl hx) (pairedIn_start hrefl hx hsteps) known id
  obtain ⟨v, -, -, hq, -, hright, hsame⟩ := hsteady _ (.refl _)
  refine ⟨hright ▸ hq, fun traitId => ?_⟩
  rw [← traitToImport?_eq_some]
  exact (congrArg (· = some traitId) hsame.symm).to_iff

/-- The traits found so far, and the one that an impl wants. -/
theorem calm_importOne (hr : r.Within s) (hsteps : ∀ step ∈ steps, s.Has step.ty) (id : ImplId)
    {found : List TraitId} (hfound : found.Pairwise (· < ·)) :
    Calm s (do
        match ← r.traitToImport? method steps (visible ++ found) id with
        | some t => pure (Ascending.insert t found)
        | none => pure found) fun _ next => next.Pairwise (· < ·) ∧
      ∀ traitId, traitId ∈ next ↔ traitId ∈ found ∨ traitId ∉ visible ∧
        r.wanted? s method steps id = some traitId := by
  apply (calm_traitToImport? hr hsteps (visible ++ found) id).bind
  intro x o _ ho
  simp only [List.mem_append, not_or] at ho
  cases o with
  | none =>
      refine .pure fun _ _ => ⟨hfound, fun traitId => ?_⟩
      have hnone := ho traitId
      simp only [reduceCtorEq, false_iff] at hnone
      tauto
  | some own =>
      refine .pure fun _ _ => ⟨?_, fun traitId => ?_⟩
      · exact Ascending.pairwise_insert TraitId.lt_trans TraitId.lt_of_not_lt hfound
      · rw [Ascending.mem_insert, ← @eq_comm _ own, ← Option.some_inj, ho]
        tauto

/-- The traits found so far, and those that further impls want. -/
theorem calm_importing (hr : r.Within s) (hsteps : ∀ step ∈ steps, s.Has step.ty)
    (ids : List ImplId) {found : List TraitId} (hfound : found.Pairwise (· < ·)) :
    Calm s (ids.foldlM (fun found id => do
        match ← r.traitToImport? method steps (visible ++ found) id with
        | some t => pure (Ascending.insert t found)
        | none => pure found) found) fun _ later => later.Pairwise (· < ·) ∧
      ∀ traitId, traitId ∈ later ↔ traitId ∈ found ∨ traitId ∉ visible ∧
        ∃ id ∈ ids, r.wanted? s method steps id = some traitId := by
  induction ids generalizing found with
  | nil => exact .pure fun _ _ => ⟨hfound, by simp⟩
  | cons id ids ih =>
      rw [List.foldlM_cons]
      apply (calm_importOne hr hsteps id hfound).bind
      intro x next hx hnext
      apply ((ih hnext.1).mono hx).imp
      rintro y later - ⟨hlater, hmem⟩
      refine ⟨hlater, fun traitId => ?_⟩
      rw [hmem, hnext.2]
      simp only [List.mem_cons, exists_eq_or_imp]
      tauto

/-- **Traits to import**, in whatever order the impls are asked. -/
theorem calm_traitsToImport (hr : r.Within s) (hsteps : ∀ step ∈ steps, s.Has step.ty)
    (method : Symbol) (visible : List TraitId) :
    Calm s (r.traitsToImport method steps visible) fun _ found => found.Pairwise (· < ·) ∧
      ∀ traitId, traitId ∈ found ↔ traitId ∉ visible ∧
        ∃ id ∈ r.relevantImpls s steps, r.wanted? s method steps id = some traitId := by
  apply Calm.get.bind
  intro x _ hx hsame
  subst hsame
  rw [r.relevantImpls_quiet hsteps hx]
  apply ((calm_importing hr hsteps (r.relevantImpls s steps) .nil).mono hx).imp
  rintro y found - ⟨hfound, hmem⟩
  exact ⟨hfound, fun traitId => by simp [hmem]⟩

end Resolver

end DotCall
