import DotCall.Call.Choice
import DotCall.Call.Gathering
import DotCall.Call.Verdict

/-!
# The search

Steps are tried in order; at each the receiver is tried by value, borrowed and
mutably borrowed; for each of these forms the inherent candidates come before
the extension candidates.  The first of these cells in which anything matches
decides, even when what matches is ambiguous.  Several impls of one trait count
as one match, called through the trait.
-/

namespace DotCall

open TypeStore

/-- The two groups of candidates, in the order of precedence. -/
inductive Precedence where
  | inherent
  | extension
  deriving DecidableEq

/-- The candidates of one group. -/
def Gathering.candidates (g : Gathering) : Precedence → List Candidate
  | .inherent => g.inherent
  | .extension => g.extension

/-- The elements that pass a test, in order. -/
def keepM {α : Type} (test : α → StateM TypeStore Bool) : List α → StateM TypeStore (List α)
  | [] => pure []
  | x :: rest => do
    let passes ← test x
    let others ← keepM test rest
    pure (if passes then x :: others else others)

/-- The first element of each key, in order, keys seen before left out. -/
def firstPerKey {α κ : Type} [DecidableEq κ] (key : α → κ) (seen : List κ) : List α → List α
  | [] => []
  | x :: rest =>
    if key x ∈ seen then firstPerKey key seen rest
    else x :: firstPerKey key (key x :: seen) rest

namespace Precedence

/-- One candidate for each thing that could be called: inherent candidates
differ by their origin, extension candidates by their trait. -/
def representatives (p : Precedence) (candidates : List Candidate) : List Candidate :=
  match p with
  | .inherent => firstPerKey (·.origin) [] candidates
  | .extension => firstPerKey (·.trait?) [] candidates

/-- The only thing that could be called among the matches, or their ambiguity. -/
def settle (p : Precedence) (method : Symbol) (receiver : TypeId)
    (matching : List Candidate) : Except Failure Candidate :=
  match p.representatives matching with
  | [only] => .ok only
  | several => .error (.ambiguous method receiver several)

end Precedence

/-- A place of the search: a form of a step, and a group of candidates. -/
structure Cell where
  step : Step
  position : Nat
  passing : Passing
  form : TypeId
  precedence : Precedence
  deriving DecidableEq

/-- The choice of a candidate in a cell. -/
def Cell.choose (cell : Cell) (matchCount : Nat) (c : Candidate) : Choice where
  candidate := c
  derefs := cell.step.derefCount cell.position
  passing := cell.passing
  unsizes := cell.step.unsized
  viaTrait := decide (cell.precedence = .extension ∧ matchCount > 1)

/-- The cells of a step, in the order of precedence. -/
def cellsOf (step : Step) (position : Nat) : StateM TypeStore (List Cell) := do
  let forms ← receiverForms step.ty
  pure <| forms.flatMap fun (passing, form) =>
    [.inherent, .extension].map (⟨step, position, passing, form, ·⟩)

namespace Resolver

/-- A candidate accepts a receiver of type `t`: the types unify, and under
those assignments the conditions of its impl are not refuted. -/
def accepts (r : Resolver) (t : TypeId) (c : Candidate) : StateM TypeStore Bool :=
  tentatively do
    let (expected, args) ← c.freshInstance
    if ← unifies expected t then
      match c.origin with
      | .impl id =>
        let verdict ← r.judgeImplConditions id args
        pure verdict.isPossible
      | .object _ | .bound _ => pure true
    else pure false

/-- Decide by one cell; no answer when nothing in it matches. -/
def searchCell (r : Resolver) (method : Symbol) (receiver : TypeId) (g : Gathering)
    (cell : Cell) : StateM TypeStore (Option (Except Failure Choice)) := do
  let matching ← keepM (r.accepts cell.form) (g.candidates cell.precedence)
  if matching.isEmpty then pure none
  else
    pure (some ((cell.precedence.settle method receiver matching).map
      (cell.choose matching.length)))

/-- Decide by one step; no answer when nothing matches in its cells. -/
def searchStep (r : Resolver) (method : Symbol) (receiver : TypeId) (g : Gathering)
    (step : Step) (position : Nat) : StateM TypeStore (Option (Except Failure Choice)) := do
  let cells ← cellsOf step position
  cells.findSomeM? (r.searchCell method receiver g)

/-- Search the steps for the method to call. -/
def search (r : Resolver) (method : Symbol) (receiver : TypeId) (steps : List Step)
    (g : Gathering) : StateM TypeStore (Except Failure Choice) := do
  match ← steps.zipIdx.findSomeM? fun (step, position) =>
      r.searchStep method receiver g step position with
  | some outcome => pure outcome
  | none => pure (.error (.noMethod method receiver (steps.map (·.ty)) g.functions []))

end Resolver

end DotCall
