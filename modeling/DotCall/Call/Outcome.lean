import DotCall.Call.Search

/-!
# Resolving a call

Resolving `receiver.method(..)` takes the steps of the receiver, gathers the
candidates and searches them.  Nothing is assigned by it; the choice has to be
confirmed.
-/

namespace DotCall

open TypeStore

/-- The choice that a call is resolved to, or why there is none. -/
abbrev Outcome := Except Failure Choice

namespace Resolver

/-- The traits to name in a failure, if the settings ask for them. -/
def suggestedTraits (r : Resolver) (method : Symbol) (steps : List Step)
    (visible : List TraitId) : StateM TypeStore (List TraitId) :=
  if r.settings.suggestTraits then r.traitsToImport method steps visible
  else pure []

/-- Resolve a method call; `visible` are the traits in scope.  A receiver of
the error type was reported before and fails without further ado. -/
def resolve (r : Resolver) (receiver : TypeId) (method : Symbol) (visible : List TraitId) :
    StateM TypeStore Outcome := do
  let receiver ← findRoot receiver
  if receiver = .error then pure (.error (.noMethod method receiver [] [] []))
  else
    match ← r.stepsOf receiver with
    | .error failure => pure (.error failure)
    | .ok steps =>
      let g ← r.gather method steps visible
      match ← r.search method receiver steps g with
      | .error (.noMethod method receiver tried functions _) =>
        let outOfScope ← r.suggestedTraits method steps visible
        pure (.error (.noMethod method receiver tried functions outOfScope))
      | outcome => pure outcome

end Resolver

end DotCall
