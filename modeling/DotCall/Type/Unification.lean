import DotCall.Type.Expansion

/-!
# Unification

Unifying two types assigns free variables so that both come to mean the same
type.  One comparison looks at the outermost layers only and says what is left
to do; the loop around it carries that out.  Assignments made before a failure
stay, so callers that only try run it under a checkpoint.

The error type unifies with everything, so that one failure does not cause
others.
-/

namespace DotCall

/-- Where inside a type two parts are compared. -/
inductive Position where
  | whole
  | pointee
  | sliceElement
  | arrayElement
  | argument (index : Nat)
  deriving DecidableEq

/-- How a position is described in messages. -/
def Position.text : Position → String
  | .whole => "at top level"
  | .pointee => "in reference target"
  | .sliceElement => "in slice element"
  | .arrayElement => "in array element"
  | .argument index => "in type argument " ++ toString index

/-- Why two types do not unify. -/
inductive Clash where
  | mismatch (expected found : TypeId) (position : Position)
  /-- the variable occurs in the type that it would stand for -/
  | infinite (var : Nat) (within : TypeId)
  /-- a generic parameter of the caller against another type -/
  | generic (name : Symbol) (other : TypeId)
  /-- two different generic parameters of the caller -/
  | generics (first second : Symbol)
  | arity (expected found : Nat)
  | arrayLength (expected found : Nat)
  /-- an impl parameter was never replaced -/
  | leftoverParam (ty : TypeId)
  deriving DecidableEq

/-- The message of a clash. -/
def Clash.message : Clash → String
  | .mismatch expected found position =>
    "type mismatch: expected " ++ expected.codeText ++ ", found " ++ found.codeText ++
      " (" ++ position.text ++ ")"
  | .infinite var within =>
    "infinite type: ?" ++ toString var ++ " occurs in " ++ within.codeText
  | .generic _ other => "generic parameter cannot be " ++ other.codeText
  | .generics _ _ => "distinct generic parameters cannot be unified"
  | .arity expected found =>
    "expected " ++ toString expected ++ " type argument(s), found " ++ toString found
  | .arrayLength expected found =>
    "expected array of length " ++ toString expected ++ ", found length " ++ toString found
  | .leftoverParam ty =>
    "impl parameters in " ++ ty.codeText ++ " were not instantiated"

/-- The position of an argument of a former. -/
def Former.argPosition (f : Former) (index : Nat) : Position :=
  match f with
  | .ref _ => .pointee
  | .slice => .sliceElement
  | .array _ => .arrayElement
  | .nominal _ => .argument index

/-- Two types to be made equal, and where they stand. -/
structure Equation where
  left : TypeId
  right : TypeId
  position : Position
  deriving DecidableEq

/-- What the outermost layers of two types leave to be done. -/
inductive Comparison where
  | equal
  | clash (c : Clash)
  /-- let a free variable stand for a type -/
  | assign (var : Nat) (target : TypeId)
  /-- unify the parts, in order -/
  | parts (equations : List Equation)
  deriving DecidableEq

namespace TypeStore

/-- The variable `var` occurs in the type, links included, within depth `n`. -/
def occursWithin (s : TypeStore) (var : Nat) : Nat → TypeId → Bool
  | 0, _ => false
  | n + 1, t =>
    (s.summary t).hasVar &&
    match s.node t with
    | .atom (.var id) =>
      id == var ||
      match s.binding id with
      | .linked target => s.occursWithin var n target
      | _ => false
    | .atom _ => false
    | .app _ args => args.any (s.occursWithin var n)

/-- The variable `var` occurs in the type, links included.  On the way down no
handle comes twice, so the number of types bounds the depth. -/
def occurs (s : TypeStore) (var : Nat) (t : TypeId) : Bool :=
  s.occursWithin var (s.size + 1) t

/-- Compare the variable `var` with another type. -/
def compareVar (s : TypeStore) (var : Nat) (other : TypeId) (position : Position) :
    Comparison :=
  if s.occurs var other then .clash (.infinite var other)
  else match s.binding var with
    | .free _ _ => .assign var other
    | .linked target => .parts [⟨target, other, position⟩]
    | .generic name => .clash (.generic name other)

/-- Equate the arguments of one former, index by index. -/
def argEquations (f : Former) (left right : List TypeId) : List Equation :=
  (left.zip right).zipIdx.map fun ((l, r), index) => ⟨l, r, f.argPosition index⟩

/-- Compare two types neither of which is a variable or a generic parameter. -/
def compareLayers (s : TypeStore) (a b : TypeId) (position : Position) : Comparison :=
  match s.node a, s.node b with
  | .atom x, .atom y => if x = y then .equal else .clash (.mismatch a b position)
  | .app f left, .app g right =>
    if f = g then
      if left.length = right.length then .parts (argEquations f left right)
      else .clash (.arity left.length right.length)
    else match f, g with
      | .array m, .array n => .clash (.arrayLength m n)
      | _, _ => .clash (.mismatch a b position)
  | _, _ => .clash (.mismatch a b position)

/-- Compare the outermost layers of two types without a link at the top. -/
def compare (s : TypeStore) (a b : TypeId) (position : Position) : Comparison :=
  if a = b then .equal
  else if (s.summary a).hasError || (s.summary b).hasError then .equal
  else if (s.summary a).hasParam then .clash (.leftoverParam a)
  else if (s.summary b).hasParam then .clash (.leftoverParam b)
  else match s.node a, s.node b with
    | .atom (.var id), _ => s.compareVar id b position
    | _, .atom (.var id) => s.compareVar id a position
    | .atom (.generic _), .atom (.generic _) =>
      .clash (.generics ((s.genericName? a).getD .blank) ((s.genericName? b).getD .blank))
    | .atom (.generic _), _ => .clash (.generic ((s.genericName? a).getD .blank) b)
    | _, .atom (.generic _) => .clash (.generic ((s.genericName? b).getD .blank) a)
    | _, _ => s.compareLayers a b position

/-- Carry out equations in order until one fails. -/
def unifyEach (unifyOne : Equation → StateM TypeStore (Except Clash Unit)) :
    List Equation → StateM TypeStore (Except Clash Unit)
  | [] => pure (.ok ())
  | e :: rest => do
    match ← unifyOne e with
    | .ok () => unifyEach unifyOne rest
    | .error c => pure (.error c)

/-- Unification down to depth `n`; types that go deeper do not unify. -/
def unifyWithin : Nat → Equation → StateM TypeStore (Except Clash Unit)
  | 0, e => pure (.error (.mismatch e.left e.right e.position))
  | n + 1, e => do
    if e.left = e.right then pure (.ok ())
    else
      let a ← findRoot e.left
      let b ← findRoot e.right
      match (← get).compare a b e.position with
      | .equal => pure (.ok ())
      | .clash c => pure (.error c)
      | .assign var target => do
        assign var (.linked target)
        pure (.ok ())
      | .parts equations => unifyEach (unifyWithin n) equations

/-- Solve one equation.  No type is made on the way and no handle comes twice
on the way down, so the number of types bounds the depth. -/
def solve (e : Equation) : StateM TypeStore (Except Clash Unit) := do
  unifyWithin ((← get).size + 1) e

/-- Make two types equal by assigning free variables. -/
def unify (a b : TypeId) : StateM TypeStore (Except Clash Unit) :=
  solve ⟨a, b, .whole⟩

/-- Make two types equal if that is possible, and tell whether it was. -/
def unifies (a b : TypeId) : StateM TypeStore Bool := do
  match ← unify a b with
  | .ok () => pure true
  | .error _ => pure false

end TypeStore

end DotCall
