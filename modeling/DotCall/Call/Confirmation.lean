import DotCall.Call.Outcome

/-!
# Confirmation

Confirming a choice repeats the adjustments of the receiver and unifies the
result with what the candidate expects, this time keeping the assignments.  A
choice that is called through a trait is only checked: which impl is called is
decided later, so the receiver stays as open as it was.
-/

namespace DotCall

open TypeStore

/-- A confirmed call: what the call expression is rewritten with once its choice is final.
-/
structure ResolvedCall where
  adjustments : List Adjustment
  callee : Callee
  /-- the type of the adjusted receiver -/
  receiver : TypeId
  /-- the parameters of the impl, as the receiver determines them -/
  args : List TypeId
  deriving DecidableEq

/-- Why a choice could not be confirmed: an adjustment that worked when the choice was
made fails now, or the adjusted receiver no longer matches. -/
inductive Unconfirmed where
  | deref (ty : TypeId)
  | unsize (ty : TypeId)
  | clash (c : Clash)
  deriving DecidableEq

/-- The message of a failed confirmation. -/
def Unconfirmed.message : Unconfirmed → String
  | .deref ty => "could not replay dereference of " ++ ty.codeText
  | .unsize ty => "could not replay unsizing of " ++ ty.codeText
  | .clash c => "adjusted receiver does not match the method: " ++ c.message

/-- Check a candidate against the adjusted receiver without an assignment. Nothing is
inferred for its parameters, so no arguments are returned. -/
def Candidate.check (c : Candidate) (t : TypeId) :
    StateM TypeStore (Except Clash (List TypeId)) :=
  tentatively do
    let (expected, _) ← c.freshInstance
    let result ← unify expected t
    pure (result.map fun _ => [])

/-- Unify a candidate with the adjusted receiver for good; the answer is what its
parameters became. A match that fails halfway takes its own assignments back. -/
def Candidate.commit (c : Candidate) (t : TypeId) :
    StateM TypeStore (Except Clash (List TypeId)) := do
  let (expected, args) ← c.freshInstance
  match ← ifSuccessful (unify expected t) with
  | .error clash => pure (.error clash)
  | .ok () =>
    let args ← args.mapM expand
    pure (.ok args)

namespace Resolver

/-- Dereference a type the given number of times. The number is the one that was recorded
when the chain of the receiver was followed. -/
def derefTimes (r : Resolver) : Nat → TypeId → StateM TypeStore (Except Unconfirmed TypeId)
  | 0, t => pure (.ok t)
  | n + 1, t => do
    match ← r.coercions.deref? t with
    | none => pure (.error (.deref t))
    | some next => r.derefTimes n next

/-- Unsize a type if the choice says so. -/
def unsizeIf (r : Resolver) (unsizes : Bool) (t : TypeId) :
    StateM TypeStore (Except Unconfirmed TypeId) := do
  if unsizes then
    match ← r.coercions.unsize? t with
    | none => pure (.error (.unsize t))
    | some result => pure (.ok result)
  else pure (.ok t)

/-- The type of the receiver after the adjustments of a choice, or the first adjustment
that cannot be repeated. -/
def adjust (r : Resolver) (receiver : TypeId) (choice : Choice) :
    StateM TypeStore (Except Unconfirmed TypeId) := do
  let t ← findRoot receiver
  match ← r.derefTimes choice.derefs t with
  | .error e => pure (.error e)
  | .ok t =>
    match ← r.unsizeIf choice.unsizes t with
    | .error e => pure (.error e)
    | .ok t =>
      let t ← choice.passing.form t
      pure (.ok t)

/-- Apply a choice to a receiver and keep the assignments that it rests on. A choice that
is called through a trait is checked only and assigns nothing, as which of the impls is
meant is not decided yet. -/
def confirm (r : Resolver) (receiver : TypeId) (choice : Choice) :
    StateM TypeStore (Except Unconfirmed ResolvedCall) := do
  match ← r.adjust receiver choice with
  | .error e => pure (.error e)
  | .ok t =>
    let result ← if choice.viaTrait then choice.candidate.check t else choice.candidate.commit t
    match result with
    | .error clash => pure (.error (.clash clash))
    | .ok args =>
      let receiver ← expand t
      pure (.ok ⟨choice.adjustments, choice.callee, receiver, args⟩)

end Resolver

end DotCall
