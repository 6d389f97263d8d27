import DotCall.Call.Resolver
import DotCall.Type.Checkpoint
import DotCall.Type.Unification

/-!
# Candidates

A candidate is a method definition that might be the one called.  What it
expects is the type in which the receiver has to be passed, written with the
parameters of the impl that it comes from.
-/

namespace DotCall

open TypeStore

/-- Where a method is defined. -/
inductive Origin where
  /-- in an inherent impl or an impl of a trait -/
  | impl (id : ImplId)
  /-- in a trait, called on a trait object -/
  | object (traitId : TraitId)
  /-- in a trait, called on a generic parameter that it bounds -/
  | bound (traitId : TraitId)
  deriving DecidableEq

/-- The standing of a candidate among the others. -/
inductive Standing where
  | inherent
  /-- provided by an impl of a trait in scope -/
  | extension (traitId : TraitId)
  deriving DecidableEq

/-- A method definition that might be the one called. -/
structure Candidate where
  origin : Origin
  standing : Standing
  method : Symbol
  passing : Passing
  /-- the self type of the impl -/
  self : TypeId
  /-- the number of parameters in the self type -/
  arity : Nat
  /-- the type in which the receiver has to be passed -/
  expected : TypeId
  deriving DecidableEq

/-- One type that the receiver can be brought to. -/
structure Step where
  ty : TypeId
  /-- reached by unsizing the last dereferenced type -/
  unsized : Bool
  deriving DecidableEq

/-- Dereferences that reach the step at the given position; the unsized step
needs as many as the one before it. -/
def Step.derefCount (step : Step) (position : Nat) : Nat :=
  if step.unsized then position - 1 else position

/-- The forms in which a receiver of type `t` is tried, in order: by value,
borrowed, mutably borrowed. -/
def receiverForms (t : TypeId) : StateM TypeStore (List (Passing × TypeId)) := do
  let shared ← refTo .shared t
  let mutable ← refTo .mutable t
  pure [(.byValue, t), (.byBorrow .shared, shared), (.byBorrow .mutable, mutable)]

namespace Candidate

/-- A candidate together with what it expects. -/
def make (origin : Origin) (standing : Standing) (method : Symbol) (passing : Passing)
    (self : TypeId) (arity : Nat) : StateM TypeStore Candidate := do
  let expected ← passing.form self
  pure ⟨origin, standing, method, passing, self, arity, expected⟩

/-- The trait that the method belongs to. -/
def trait? (c : Candidate) : Option TraitId :=
  match c.standing, c.origin with
  | .extension t, _ => some t
  | .inherent, .object t | .inherent, .bound t => some t
  | .inherent, .impl _ => none

/-- What the candidate expects, with new variables for its parameters, and
these. -/
def freshInstance (c : Candidate) : StateM TypeStore (TypeId × List TypeId) := do
  let args ← newVars c.arity
  let expected ← instantiate c.expected args
  pure (expected, args)

/-- What the candidate expects unifies with `t`. -/
def fits (c : Candidate) (t : TypeId) : StateM TypeStore Bool :=
  tentatively do
    let (expected, _) ← c.freshInstance
    unifies expected t

/-- The candidate fits some form of some step; the conditions of its impl are
not looked at. -/
def fitsAny (c : Candidate) (steps : List Step) : StateM TypeStore Bool :=
  steps.anyM fun step => do
    let forms ← receiverForms step.ty
    forms.anyM fun form => c.fits form.2

end Candidate

end DotCall
