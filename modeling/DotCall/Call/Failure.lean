import DotCall.Call.Candidate
import DotCall.Diagnostic

/-!
# Failed calls

A call fails because no method applies, because several do, or because the
receiver can be dereferenced without end.  A failure holds handles only; its
full report needs the store and the names.
-/

namespace DotCall

/-- Why a method call could not be resolved. Each reason carries what its report tells the
programmer, as handles and numbers that are turned into text only when the report is made.
-/
inductive Failure where
  /-- nothing applies; with the types tried, the origins of functions of the
  name that are no methods, and the traits that would supply the method if they
  were in scope -/
  | noMethod (method : Symbol) (receiver : TypeId) (tried : List TypeId)
      (functions : List Origin) (outOfScope : List TraitId)
  /-- several definitions apply; with one candidate for each -/
  | ambiguous (method : Symbol) (receiver : TypeId) (candidates : List Candidate)
  /-- dereferencing comes back to `ty`, or goes beyond the limit there -/
  | endlessDeref (receiver ty : TypeId) (cycle : Bool)
  deriving DecidableEq

namespace Failure

/-- The receiver of the call. -/
def receiver : Failure → TypeId
  | .noMethod _ receiver _ _ _ => receiver
  | .ambiguous _ receiver _ => receiver
  | .endlessDeref receiver _ _ => receiver

/-- The error code of a failure. A name that belongs to functions only has a code of its
own, since there the call is written wrongly and no method is missing. -/
def code : Failure → ErrorCode
  | .noMethod _ _ _ functions _ => if functions.isEmpty then .noMethod else .notAMethod
  | .ambiguous _ _ _ => .severalMethods
  | .endlessDeref _ _ _ => .endlessDeref

/-- The failure in one line, without a store or names at hand: types and names are shown
by their numbers. -/
def message : Failure → String
  | .noMethod method receiver _ _ _ =>
    "no method named " ++ method.codeText ++ " found for type " ++ receiver.codeText
  | .ambiguous method receiver _ =>
    "multiple applicable items named " ++ method.codeText ++ " for type " ++ receiver.codeText
  | .endlessDeref receiver ty _ =>
    "dereferencing " ++ receiver.codeText ++ " does not terminate (at " ++ ty.codeText ++ ")"

end Failure

end DotCall
