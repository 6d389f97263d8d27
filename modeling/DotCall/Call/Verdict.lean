import DotCall.Call.Candidate

/-!
# Verdicts on obligations

An obligation `ty: Trait` is judged by what is known so far.  It holds for the
error type; it is undecided for a free variable; a generic parameter has what
its bounds entail, and a trait object what its trait entails.  Everything else
holds through an impl whose self type matches and whose conditions hold in
turn.  Beyond the configured nesting an obligation is undecided.
-/

namespace DotCall

open TypeStore

/-- What is known about an obligation. -/
inductive Verdict where
  | holds
  /-- may hold once more is known -/
  | undecided
  | refuted
  deriving DecidableEq

namespace Verdict

/-- The name of a verdict. -/
def text : Verdict → String
  | .holds => "Holds"
  | .undecided => "Ambiguous"
  | .refuted => "Refuted"

/-- The obligation is not known to fail. -/
def isPossible (v : Verdict) : Bool := decide (v ≠ .refuted)

/-- Both obligations are needed. -/
def both : Verdict → Verdict → Verdict
  | .refuted, _ => .refuted
  | _, .refuted => .refuted
  | .holds, .holds => .holds
  | _, _ => .undecided

/-- Either obligation suffices. -/
def either : Verdict → Verdict → Verdict
  | .holds, _ => .holds
  | _, .holds => .holds
  | .refuted, .refuted => .refuted
  | _, _ => .undecided

end Verdict

/-- All of the given must hold; the first that is refuted decides. -/
def allHold {α : Type} (judge : α → StateM TypeStore Verdict) :
    List α → StateM TypeStore Verdict
  | [] => pure .holds
  | x :: rest => do
    match ← judge x with
    | .refuted => pure .refuted
    | v =>
      let others ← allHold judge rest
      pure (v.both others)

/-- One of the given must hold; the first that does decides. -/
def someHolds {α : Type} (judge : α → StateM TypeStore Verdict) :
    List α → StateM TypeStore Verdict
  | [] => pure .refuted
  | x :: rest => do
    match ← judge x with
    | .holds => pure .holds
    | v =>
      let others ← someHolds judge rest
      pure (v.either others)

/-- Judge conditions with the given arguments for the impl's parameters. -/
def judgeConditions (judge : TypeId → TraitId → StateM TypeStore Verdict) (args : List TypeId)
    (conditions : List Condition) : StateM TypeStore Verdict :=
  allHold (fun c => do
    let ty ← instantiate c.ty args
    allHold (judge ty) c.traits) conditions

namespace Resolver

/-- What a type without a link at the top says about an obligation before any
impl is looked at. -/
def settled? (r : Resolver) (s : TypeStore) (t : TypeId) (traitId : TraitId) :
    Option Verdict :=
  if (s.summary t).hasError then some .holds
  else match s.node t with
    | .atom (.var _) => some .undecided
    | .atom (.generic _) =>
      if (r.bounds.on t).any (r.db.entails · traitId) then some .holds else none
    | .atom (.object name) =>
      if (r.db.traitNamed? name).any (r.db.entails · traitId) then some .holds else none
    | _ => none

/-- An impl whose self type matches makes the obligation hold as far as its
conditions do. -/
def judgeImpl (r : Resolver) (judge : TypeId → TraitId → StateM TypeStore Verdict)
    (t : TypeId) (id : ImplId) : StateM TypeStore Verdict :=
  match r.db.impl? id with
  | none => pure .refuted
  | some decl => do
    let args ← newVars decl.arity
    let self ← instantiate decl.self args
    if ← unifies self t then judgeConditions judge args decl.conditions
    else pure .refuted

/-- Judge an obligation, following the conditions of impls to the given depth. -/
def judgeWithin (r : Resolver) : Nat → TypeId → TraitId → StateM TypeStore Verdict
  | 0, t, traitId => do
    let t ← findRoot t
    pure ((r.settled? (← get) t traitId).getD .undecided)
  | depth + 1, t, traitId => do
    let t ← findRoot t
    match r.settled? (← get) t traitId with
    | some v => pure v
    | none =>
      someHolds (fun id => tentatively (r.judgeImpl (r.judgeWithin depth) t id))
        (r.db.implementors traitId)

/-- Judge the obligation `t: traitId`.  No assignment is left behind. -/
def judge (r : Resolver) (t : TypeId) (traitId : TraitId) : StateM TypeStore Verdict :=
  r.judgeWithin r.settings.maxNesting t traitId

/-- Judge the conditions of an impl with the given arguments for its
parameters. -/
def judgeImplConditions (r : Resolver) (id : ImplId) (args : List TypeId) :
    StateM TypeStore Verdict :=
  match r.db.impl? id with
  | none => pure .refuted
  | some decl => judgeConditions r.judge args decl.conditions

end Resolver

end DotCall
