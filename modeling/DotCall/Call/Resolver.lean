import DotCall.Declaration.Ancestry

/-!
# What a call is resolved against

Resolving a method call asks narrow questions only: which impls and traits
there are, what a type dereferences or unsizes to, and which traits the
caller's generic parameters are bounded by.  A resolver bundles the answers
with the settings of the search.
-/

namespace DotCall

/-- Read access to traits and impls. Everything else about a program is out of reach of a
resolution, which is why it can be replaced by any database that answers these questions
alike. -/
structure Database where
  /-- impls whose self type can have the given head, in the order of their numbers -/
  implsFor : Option Head → List ImplId
  /-- impls of a trait, in the order of their numbers -/
  implementors : TraitId → List ImplId
  impl? : ImplId → Option ImplDecl
  /-- the method that an impl provides under a name -/
  methodOfImpl? : ImplId → Symbol → Option Method
  /-- the method that a trait itself declares under a name -/
  methodOfTrait? : TraitId → Symbol → Option Method
  traitNamed? : Symbol → Option TraitId
  nameOf : TraitId → Symbol
  /-- a trait followed by its ancestors -/
  lineage : TraitId → List TraitId
  /-- the first trait is the second or has it as an ancestor -/
  entails : TraitId → TraitId → Bool := fun lower upper => decide (upper ∈ lineage lower)

/-- The database that the declarations of a program are. Every answer is read off what was
declared, none needs the store. -/
def Declarations.database (d : Declarations) : Database where
  implsFor := d.implsFor
  implementors := d.implementors
  impl? := d.impl?
  methodOfImpl? := d.methodOfImpl?
  methodOfTrait? := d.methodOfTrait?
  traitNamed? := d.traitNamed?
  nameOf := d.nameOf
  lineage := d.lineage
  entails := d.entails

/-- The implicit conversions of a receiver. Each is an action on the store, as it may have
to make the type it leads to; neither leaves an assignment behind. -/
structure Coercions where
  /-- what a type dereferences to -/
  deref? : TypeId → StateM TypeStore (Option TypeId)
  /-- what a type unsizes to -/
  unsize? : TypeId → StateM TypeStore (Option TypeId)

/-- The settings of a search: its two limits, the sources of methods it turns to besides
impls, and how much a failure says. -/
structure Settings where
  /-- the most dereferences before a receiver counts as endless -/
  maxDerefs : Nat := 128
  /-- a trait object has the methods of its trait by itself -/
  objectMethods : Bool := true
  /-- a generic parameter has the methods of its bounds by itself -/
  boundMethods : Bool := true
  /-- a failure names the traits that would have supplied the method -/
  suggestTraits : Bool := true
  /-- nesting up to which the conditions of impls are followed -/
  maxNesting : Nat := 8
  deriving DecidableEq

/-- The settings under which only impls supply methods. -/
def Settings.onlyImpls : Settings :=
  { objectMethods := false, boundMethods := false }

/-- The bounds of the caller's generic parameters, in the order of declaration. A
parameter is given by its handle, and may have any number of them. -/
structure Bounds where
  declared : List (TypeId × TraitId)
  deriving DecidableEq

namespace Bounds

/-- No generic parameter has a bound. -/
def empty : Bounds := ⟨[]⟩

/-- Declare a bound of a parameter; declaring it again changes nothing. -/
def declare (b : Bounds) (param : TypeId) (bound : TraitId) : Bounds :=
  if (param, bound) ∈ b.declared then b
  else ⟨b.declared ++ [(param, bound)]⟩

/-- The bounds on a parameter, in the order of declaration. -/
def on (b : Bounds) (param : TypeId) : List TraitId :=
  (b.declared.filter fun entry => decide (entry.1 = param)).map (·.2)

/-- No bound was declared. -/
def isEmpty (b : Bounds) : Bool := b.declared.isEmpty

end Bounds

/-- All that the resolution of a call reads. What it reads and writes besides is the
store, so a resolver can serve any number of calls. -/
structure Resolver where
  db : Database
  coercions : Coercions
  settings : Settings
  bounds : Bounds

end DotCall
