import DotCall.Symbol

/-!
# Types as nodes

A type is kept as a node: either an atom, or a type former applied to argument
types, which are given by handle.  Every type kept by a store has one node and
every node one handle, so nodes never hold whole types.

Handles 0 to 10 are the primitive types, in the order of `Primitive.all`;
handles up to 63 are reserved and read as error placeholders.
-/

namespace DotCall

/-- A handle of a type in a store. Two handles of one store are equal exactly when their
types are, so types are compared by comparing numbers. -/
structure TypeId where
  index : Nat
  deriving DecidableEq, Hashable, Inhabited

/-- The primitive types, among them the error type that takes the place of a type which
could not be determined. -/
inductive Primitive where
  | i32 | i64 | u8 | usize | f64 | bool | char | str | unit | never
  /-- stands for a type that could not be determined; unifies with everything -/
  | error
  deriving DecidableEq, Hashable

namespace Primitive

/-- The primitives in the order of their handles. -/
def all : List Primitive :=
  [.i32, .i64, .u8, .usize, .f64, .bool, .char, .str, .unit, .never, .error]

/-- The position of a primitive in `Primitive.all`. -/
def position : Primitive → Nat
  | .i32 => 0
  | .i64 => 1
  | .u8 => 2
  | .usize => 3
  | .f64 => 4
  | .bool => 5
  | .char => 6
  | .str => 7
  | .unit => 8
  | .never => 9
  | .error => 10

/-- How a primitive is written. -/
def text : Primitive → String
  | .i32 => "i32"
  | .i64 => "i64"
  | .u8 => "u8"
  | .usize => "usize"
  | .f64 => "f64"
  | .bool => "bool"
  | .char => "char"
  | .str => "str"
  | .unit => "()"
  | .never => "never"
  | .error => "<error>"

/-- A primitive stands where its position says. -/
theorem all_getElem?_position (p : Primitive) : all[p.position]? = some p := by
  cases p <;> rfl

end Primitive

namespace TypeId

/-- The handle of a primitive type. -/
def ofPrimitive (p : Primitive) : TypeId := ⟨p.position⟩

/-- The primitive with the given handle. -/
def primitive? (t : TypeId) : Option Primitive := Primitive.all[t.index]?

/-- The handle of the error type. -/
def error : TypeId := ofPrimitive .error

/-- The handle that stands for no type at all: the greatest number that a handle can be.
-/
def absent : TypeId := ⟨4294967295⟩

/-- The number of handles set aside for primitives and reserved slots. -/
def reservedCount : Nat := 64

/-- How a handle is shown where no store is at hand: primitives by name, all others by
their number. -/
def codeText (t : TypeId) : String :=
  if t = absent then "Idx::NONE"
  else match t.primitive? with
    | some p => "Idx::" ++ p.text
    | none => "Idx(" ++ toString t.index ++ ")"

/-- The handle of a primitive reads back as that primitive. -/
theorem primitive?_ofPrimitive (p : Primitive) : (ofPrimitive p).primitive? = some p :=
  p.all_getElem?_position

end TypeId

/-- The two ways to borrow a value. -/
inductive Borrow where
  | shared
  | mutable
  deriving DecidableEq, Hashable

/-- A borrow as it is written, before a type or an expression. -/
def Borrow.text : Borrow → String
  | .shared => "&"
  | .mutable => "&mut "

/-- A type without argument types. Variables, parameters and generic parameters are told
apart because only the first are bound by unification, and only the second are replaced in
an instance. -/
inductive Atom where
  | prim (p : Primitive)
  /-- a placeholder in the reserved range of handles -/
  | reserved (slot : Nat)
  /-- a trait object -/
  | object (traitName : Symbol)
  /-- an inference variable -/
  | var (id : Nat)
  /-- a parameter of an impl or of a conversion rule, to be replaced -/
  | param (position : Nat)
  /-- a generic parameter of the caller, equal only to itself -/
  | generic (id : Nat)
  deriving DecidableEq, Hashable

/-- What builds a type from argument types. Two types unify only when their formers are
equal, the length of an array and the name of a nominal type included. -/
inductive Former where
  | ref (borrow : Borrow)
  | slice
  | array (length : Nat)
  | nominal (name : Symbol)
  deriving DecidableEq, Hashable

/-- One layer of a type. The arguments are handles, so a node is compared and hashed
without looking at what lies below it. -/
inductive Node where
  | atom (a : Atom)
  | app (former : Former) (args : List TypeId)
  deriving DecidableEq, Hashable

/-- The handles of the argument types. -/
def Node.args : Node → List TypeId
  | .atom _ => []
  | .app _ args => args

/-- What sort of type a node is, its payload left out. -/
inductive Kind where
  | prim (p : Primitive)
  | ref (borrow : Borrow)
  | slice | array | object | nominal | var | param | generic
  deriving DecidableEq, Hashable

namespace Kind

/-- The name of a kind. -/
def text : Kind → String
  | .prim p => p.text
  | .ref .shared => "ref"
  | .ref .mutable => "mut_ref"
  | .slice => "slice"
  | .array => "array"
  | .object => "dyn"
  | .nominal => "applied"
  | .var => "var"
  | .param => "bound_var"
  | .generic => "rigid_var"

/-- The qualified name of a kind, for messages that are written for the maintainer. -/
def codeText (k : Kind) : String := "Tag::" ++ k.text

/-- The number of a kind; each family of kinds starts at a multiple of 16. -/
def number : Kind → Nat
  | .prim p => p.position
  | .ref .shared => 16
  | .ref .mutable => 17
  | .slice => 18
  | .array => 32
  | .object => 80
  | .nominal => 81
  | .var => 96
  | .param => 97
  | .generic => 98

/-- A type of this kind holds more than one word besides its kind. -/
def isWide : Kind → Bool
  | .array | .nominal => true
  | _ => false

/-- The kinds of the primitive types. -/
def isPrimitive : Kind → Bool
  | .prim _ => true
  | _ => false

end Kind

/-- The kind of a type former. -/
def Former.kind : Former → Kind
  | .ref b => .ref b
  | .slice => .slice
  | .array _ => .array
  | .nominal _ => .nominal

/-- The kind of an atom; a reserved slot counts as the error type. -/
def Atom.kind : Atom → Kind
  | .prim p => .prim p
  | .reserved _ => .prim .error
  | .object _ => .object
  | .var _ => .var
  | .param _ => .param
  | .generic _ => .generic

/-- The kind of a node. -/
def Node.kind : Node → Kind
  | .atom a => a.kind
  | .app f _ => f.kind

end DotCall
