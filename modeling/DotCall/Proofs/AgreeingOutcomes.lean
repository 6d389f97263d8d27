import DotCall.Call.Requests
import Mathlib.Data.List.Forall2

/-!
# Outcomes that agree

Two outcomes agree when they come to the same decision: the same method of the same
origin with the same adjustments, or the same failure.  The types in them are of
different stores, so those of candidates are compared by a given relation.  Of the
types that a failed call has tried only the number is compared.
-/

namespace DotCall

variable {R R' : TypeId → TypeId → Prop}

/-- Candidates that are the same but for their types, which are related. -/
structure Candidate.Agree (R : TypeId → TypeId → Prop) (c c' : Candidate) : Prop where
  origin : c'.origin = c.origin
  standing : c'.standing = c.standing
  method : c'.method = c.method
  passing : c'.passing = c.passing
  arity : c'.arity = c.arity
  self : R c.self c'.self
  expected : R c.expected c'.expected

/-- Choices of candidates that agree, with the same adjustments. -/
structure Choice.Agree (R : TypeId → TypeId → Prop) (c c' : Choice) : Prop where
  candidate : c.candidate.Agree R c'.candidate
  derefs : c'.derefs = c.derefs
  passing : c'.passing = c.passing
  unsizes : c'.unsizes = c.unsizes
  viaTrait : c'.viaTrait = c.viaTrait

/-- Failures of the same sort that say the same. -/
inductive Failure.Agree (R : TypeId → TypeId → Prop) : Failure → Failure → Prop where
  | noMethod {method : Symbol} {receiver receiver' : TypeId} {tried tried' : List TypeId}
      {functions : List Origin} {outOfScope : List TraitId} (h : tried.length = tried'.length) :
      Agree R (.noMethod method receiver tried functions outOfScope)
        (.noMethod method receiver' tried' functions outOfScope)
  | ambiguous {method : Symbol} {receiver receiver' : TypeId}
      {candidates candidates' : List Candidate}
      (h : List.Forall₂ (Candidate.Agree R) candidates candidates') :
      Agree R (.ambiguous method receiver candidates) (.ambiguous method receiver' candidates')
  | endlessDeref {receiver receiver' ty ty' : TypeId} {cycle : Bool} :
      Agree R (.endlessDeref receiver ty cycle) (.endlessDeref receiver' ty' cycle)

/-- Both sides succeed, with related answers, or fail with failures that agree. -/
inductive Failure.AgreeOr {α β : Type} (R : TypeId → TypeId → Prop) (S : α → β → Prop) :
    Except Failure α → Except Failure β → Prop where
  | ok {a : α} {b : β} (h : S a b) : AgreeOr R S (.ok a) (.ok b)
  | error {f f' : Failure} (h : f.Agree R f') : AgreeOr R S (.error f) (.error f')

/-- Outcomes that come to the same decision. -/
abbrev Outcome.Agree (R : TypeId → TypeId → Prop) : Outcome → Outcome → Prop :=
  Failure.AgreeOr R (Choice.Agree R)

theorem Candidate.Agree.imp {c c' : Candidate} (h : c.Agree R c') (hR : ∀ t u, R t u → R' t u) :
    c.Agree R' c' :=
  { h with self := hR _ _ h.self, expected := hR _ _ h.expected }

theorem Failure.Agree.imp {f f' : Failure} (h : f.Agree R f') (hR : ∀ t u, R t u → R' t u) :
    f.Agree R' f' := by
  cases h with
  | noMethod h => exact .noMethod h
  | ambiguous h => exact .ambiguous (h.imp fun _ _ hc => hc.imp hR)
  | endlessDeref => exact .endlessDeref

theorem Outcome.Agree.imp {o o' : Outcome} (h : Outcome.Agree R o o')
    (hR : ∀ t u, R t u → R' t u) : Outcome.Agree R' o o' := by
  cases h with
  | ok h => exact .ok { h with candidate := h.candidate.imp hR }
  | error h => exact .error (h.imp hR)

/-- Agreement goes through whatever is done to both answers alike. -/
theorem Failure.AgreeOr.map {α β γ δ : Type} {S : α → β → Prop} {T : γ → δ → Prop}
    {o : Except Failure α} {o' : Except Failure β} {f : α → γ} {f' : β → δ}
    (h : Failure.AgreeOr R S o o') (hf : ∀ a b, S a b → T (f a) (f' b)) :
    Failure.AgreeOr R T (o.map f) (o'.map f') := by
  cases h with
  | ok h => exact .ok (hf _ _ h)
  | error h => exact .error h

section Compose

variable {S : TypeId → TypeId → Prop}

/-- Types that are both related to one type. -/
abbrev Meet (R S : TypeId → TypeId → Prop) (u v : TypeId) : Prop := ∃ t, R t u ∧ S t v

/-- Candidates that agree with the same one agree with each other, on the types that meet
in it. -/
theorem Candidate.Agree.comp {c a b : Candidate} (h : c.Agree R a) (h' : c.Agree S b) :
    a.Agree (Meet R S) b where
  origin := h'.origin.trans h.origin.symm
  standing := h'.standing.trans h.standing.symm
  method := h'.method.trans h.method.symm
  passing := h'.passing.trans h.passing.symm
  arity := h'.arity.trans h.arity.symm
  self := ⟨_, h.self, h'.self⟩
  expected := ⟨_, h.expected, h'.expected⟩

/-- The same for rows of candidates. -/
theorem Candidate.forall₂_comp {cs as bs : List Candidate}
    (h : List.Forall₂ (Candidate.Agree R) cs as) (h' : List.Forall₂ (Candidate.Agree S) cs bs) :
    List.Forall₂ (Candidate.Agree (Meet R S)) as bs := by
  induction h generalizing bs with
  | nil =>
      cases h'
      exact .nil
  | cons hc _ ih =>
      cases h' with
      | cons hc' h' => exact .cons (hc.comp hc') (ih h')

/-- Outcomes that agree with one outcome agree. -/
theorem Outcome.Agree.comp {o a b : Outcome} (h : Outcome.Agree R o a) (h' : Outcome.Agree S o b) :
    Outcome.Agree (Meet R S) a b := by
  cases h with
  | ok h =>
      cases h' with
      | ok h' =>
          exact .ok
            { candidate := h.candidate.comp h'.candidate
              derefs := h'.derefs.trans h.derefs.symm
              passing := h'.passing.trans h.passing.symm
              unsizes := h'.unsizes.trans h.unsizes.symm
              viaTrait := h'.viaTrait.trans h.viaTrait.symm }
  | error h =>
      cases h' with
      | error h' =>
          cases h with
          | noMethod h =>
              cases h' with
              | noMethod h' => exact .error (.noMethod (h.symm.trans h'))
          | ambiguous h =>
              cases h' with
              | ambiguous h' => exact .error (.ambiguous (Candidate.forall₂_comp h h'))
          | endlessDeref =>
              cases h' with
              | endlessDeref => exact .error .endlessDeref

end Compose

/-- Candidates that agree come from the same trait. -/
theorem Candidate.Agree.trait?_eq {c c' : Candidate} (h : c.Agree R c') : c'.trait? = c.trait? := by
  unfold Candidate.trait?
  rw [h.standing, h.origin]

/-- The first elements of each key, where related elements have the same key. -/
theorem forall₂_firstPerKey {α κ : Type} [DecidableEq κ] {S : α → α → Prop} {key : α → κ}
    (hkey : ∀ a b, S a b → key b = key a) {xs ys : List α} (h : List.Forall₂ S xs ys)
    (seen : List κ) : List.Forall₂ S (firstPerKey key seen xs) (firstPerKey key seen ys) := by
  induction h generalizing seen with
  | nil => exact .nil
  | cons hab _ ih =>
      unfold firstPerKey
      rw [hkey _ _ hab]
      split
      · exact ih seen
      · exact .cons hab (ih _)

/-- Candidates that agree are settled in the same way. -/
theorem Precedence.settle_agree {p : Precedence} {method : Symbol} {receiver receiver' : TypeId}
    {matching matching' : List Candidate}
    (h : List.Forall₂ (Candidate.Agree R) matching matching') :
    Failure.AgreeOr R (Candidate.Agree R) (p.settle method receiver matching)
      (p.settle method receiver' matching') := by
  have hreps : List.Forall₂ (Candidate.Agree R) (p.representatives matching)
      (p.representatives matching') := by
    cases p with
    | inherent => exact forall₂_firstPerKey (fun _ _ hab => hab.origin) h []
    | extension => exact forall₂_firstPerKey (fun _ _ hab => hab.trait?_eq) h []
  unfold settle
  generalize p.representatives matching = reps at hreps
  generalize p.representatives matching' = reps' at hreps
  cases hreps with
  | nil => exact .error (.ambiguous .nil)
  | cons hab hrest =>
      cases hrest with
      | nil => exact .ok hab
      | cons hab' hrest => exact .error (.ambiguous (.cons hab (.cons hab' hrest)))

end DotCall
