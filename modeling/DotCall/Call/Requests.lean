import DotCall.Call.Outcome
import DotCall.Type.Transplant

/-!
# Independent requests

Independent calls are resolved each in its own copy of the store, so none sees
the variables of another.  Afterwards the outcomes are carried into the
caller's store, in the order of the requests.
-/

namespace DotCall

open TypeStore

/-- One method call to be resolved: its receiver, the name of the method, and the traits
in scope where the call stands. -/
structure Request where
  receiver : TypeId
  method : Symbol
  visible : List TraitId
  deriving DecidableEq

/-- Carry the types of a candidate into this store. -/
def Candidate.carryFrom (other : TypeStore) (c : Candidate) : StateM TypeStore Candidate := do
  let self ← TypeStore.carryFrom other c.self
  let expected ← TypeStore.carryFrom other c.expected
  pure { c with self := self, expected := expected }

/-- Carry the types of a choice into this store. -/
def Choice.carryFrom (other : TypeStore) (c : Choice) : StateM TypeStore Choice := do
  let candidate ← c.candidate.carryFrom other
  pure { c with candidate := candidate }

/-- Carry the types of a failure into this store. -/
def Failure.carryFrom (other : TypeStore) : Failure → StateM TypeStore Failure
  | .noMethod method receiver tried functions outOfScope => do
    let receiver ← TypeStore.carryFrom other receiver
    let tried ← tried.mapM (TypeStore.carryFrom other)
    pure (.noMethod method receiver tried functions outOfScope)
  | .ambiguous method receiver candidates => do
    let receiver ← TypeStore.carryFrom other receiver
    let candidates ← candidates.mapM (·.carryFrom other)
    pure (.ambiguous method receiver candidates)
  | .endlessDeref receiver ty cycle => do
    let receiver ← TypeStore.carryFrom other receiver
    let ty ← TypeStore.carryFrom other ty
    pure (.endlessDeref receiver ty cycle)

/-- Carry the types of an outcome into this store. Everything in an outcome that is no
handle of a type means the same everywhere and is taken over as it is. -/
def Outcome.carryFrom (other : TypeStore) : Outcome → StateM TypeStore Outcome
  | .ok choice => do
    let choice ← choice.carryFrom other
    pure (.ok choice)
  | .error failure => do
    let failure ← failure.carryFrom other
    pure (.error failure)

namespace Resolver

/-- Resolve one request in a copy of the store; the answer is the outcome and
what the copy became. -/
def resolveApart (r : Resolver) (s : TypeStore) (request : Request) : Outcome × TypeStore :=
  (r.resolve request.receiver request.method request.visible).run s

/-- Resolve independent requests. Each starts from the store as the caller left it, and
its outcome is carried over behind those of the requests before it. -/
def resolveAll (r : Resolver) (requests : List Request) : StateM TypeStore (List Outcome) := do
  let s ← get
  (requests.map (r.resolveApart s)).mapM fun (outcome, own) => Outcome.carryFrom own outcome

end Resolver

end DotCall
