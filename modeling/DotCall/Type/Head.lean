import DotCall.Type.Tree

/-!
# Heads of types

The head of a type is its outermost former, arguments left out.  Two types
with different heads never unify, so impls can be sought by head.  Variables
and parameters have no head yet, and the error type has none at all.
-/

namespace DotCall

/-- The outermost former of a type, or the type itself when it has no arguments. The
length of an array is left out, so all arrays are found under one head. -/
inductive Head where
  | prim (p : Primitive)
  | ref (borrow : Borrow)
  | slice
  | array
  | nominal (name : Symbol)
  | object (traitName : Symbol)
  deriving DecidableEq, Hashable

/-- The head that a former gives. -/
def Former.head : Former → Head
  | .ref b => .ref b
  | .slice => .slice
  | .array _ => .array
  | .nominal name => .nominal name

/-- The head of an atom. The error type, variables and parameters unify with types of many
heads and have none, nor has a generic parameter, for which no impl is written. -/
def Atom.head? : Atom → Option Head
  | .prim .error => none
  | .prim p => some (.prim p)
  | .object name => some (.object name)
  | .reserved _ | .var _ | .param _ | .generic _ => none

/-- The head of a node. -/
def Node.head? : Node → Option Head
  | .atom a => a.head?
  | .app f _ => some f.head

/-- The head of a type, the links of variables followed. -/
def TypeStore.head? (s : TypeStore) (t : TypeId) : Option Head :=
  (s.node (s.root t)).head?

end DotCall
