import DotCall.Type.Head

/-!
# Declarations

What a program declares: traits with their parents and methods, impls, and the
conversions of receivers that it adds to the built-in ones.  Traits and impls
are numbered in the order of declaration.

Impls are indexed by the head of their self type.  An impl whose self type has
no head, such as one for a bare parameter, can apply to any type and is listed
apart.
-/

namespace DotCall

/-- The number of a trait. -/
structure TraitId where
  index : Nat
  deriving DecidableEq, Hashable, Inhabited

/-- The number of an impl. -/
structure ImplId where
  index : Nat
  deriving DecidableEq, Hashable, Inhabited

instance : LT TraitId := ⟨fun a b => a.index < b.index⟩

instance : DecidableLT TraitId := fun a b => inferInstanceAs (Decidable (a.index < b.index))

instance : LT ImplId := ⟨fun a b => a.index < b.index⟩

instance : DecidableLT ImplId := fun a b => inferInstanceAs (Decidable (a.index < b.index))

/-- How a receiver is passed: as it is, or borrowed. -/
inductive Passing where
  | byValue
  | byBorrow (b : Borrow)
  deriving DecidableEq

namespace Passing

/-- What is written before a receiver that is passed so. -/
def text : Passing → String
  | .byValue => ""
  | .byBorrow b => b.text

/-- The `self` parameter of a method that takes its receiver so. -/
def selfText (p : Passing) : String := p.text ++ "self"

/-- The type in which a receiver of type `t` is passed. -/
def form (p : Passing) (t : TypeId) : StateM TypeStore TypeId :=
  match p with
  | .byValue => pure t
  | .byBorrow b => TypeStore.refTo b t

end Passing

/-- A method as far as a call is concerned; an associated function has no
`self` parameter. -/
structure Method where
  name : Symbol
  passing? : Option Passing
  deriving DecidableEq

/-- The methods of a trait or an impl, each name once. -/
abbrev MethodTable := List Method

namespace MethodTable

/-- Declare a method in place of an earlier one of the same name. -/
def declare (table : MethodTable) (m : Method) : MethodTable :=
  table.filter (fun other => decide (other.name ≠ m.name)) ++ [m]

/-- The methods of a list, the last one of each name. -/
def ofList (methods : List Method) : MethodTable :=
  methods.foldl declare []

/-- The method of a name. -/
def get? (table : MethodTable) (name : Symbol) : Option Method :=
  table.find? fun m => decide (m.name = name)

end MethodTable

/-- A declared trait. -/
structure TraitDecl where
  name : Symbol
  parents : List TraitId
  methods : MethodTable

/-- The condition `ty: traits` of an impl, written with its parameters. -/
structure Condition where
  ty : TypeId
  traits : List TraitId
  deriving DecidableEq

/-- A declared impl.  Its types are written with its parameters.  An impl of a
trait provides the methods of the trait; an inherent impl has its own. -/
structure ImplDecl where
  trait? : Option TraitId
  params : List Symbol
  self : TypeId
  methods : MethodTable
  conditions : List Condition

/-- Number of parameters of an impl. -/
def ImplDecl.arity (d : ImplDecl) : Nat := d.params.length

/-- A conversion of receivers, both sides written with its parameters. -/
structure Rule where
  arity : Nat
  source : TypeId
  target : TypeId
  deriving DecidableEq

/-- All that a program declares. -/
structure Declarations where
  traits : Array TraitDecl
  traitNames : Std.HashMap Symbol TraitId
  impls : Array ImplDecl
  headIndex : Std.HashMap Head (List ImplId)
  headless : List ImplId
  traitIndex : Std.HashMap TraitId (List ImplId)
  derefs : List Rule
  unsizings : List Rule

namespace Declarations

/-- Nothing is declared. -/
def empty : Declarations where
  traits := #[]
  traitNames := ∅
  impls := #[]
  headIndex := ∅
  headless := []
  traitIndex := ∅
  derefs := []
  unsizings := []

instance : Inhabited Declarations := ⟨empty⟩

/-- Declare a trait; its name stands for the latest trait of that name. -/
def addTrait (d : Declarations) (decl : TraitDecl) : TraitId × Declarations :=
  let id : TraitId := ⟨d.traits.size⟩
  (id, { d with
    traits := d.traits.push decl
    traitNames := d.traitNames.insert decl.name id })

/-- Append an impl to the list kept under a key. -/
def indexUnder {κ : Type} [BEq κ] [Hashable κ] (index : Std.HashMap κ (List ImplId)) (key : κ)
    (id : ImplId) : Std.HashMap κ (List ImplId) :=
  index.insert key (index.getD key [] ++ [id])

/-- Declare an impl, indexed by what its self type is in the given store. -/
def addImpl (d : Declarations) (s : TypeStore) (decl : ImplDecl) : ImplId × Declarations :=
  let id : ImplId := ⟨d.impls.size⟩
  let head? := s.head? decl.self
  (id, { d with
    impls := d.impls.push decl
    headIndex :=
      match head? with
      | some head => indexUnder d.headIndex head id
      | none => d.headIndex
    headless :=
      match head? with
      | some _ => d.headless
      | none => d.headless ++ [id]
    traitIndex :=
      match decl.trait? with
      | some t => indexUnder d.traitIndex t id
      | none => d.traitIndex })

/-- Declare what a type dereferences to. -/
def addDeref (d : Declarations) (rule : Rule) : Declarations :=
  { d with derefs := d.derefs ++ [rule] }

/-- Declare what a type unsizes to. -/
def addUnsizing (d : Declarations) (rule : Rule) : Declarations :=
  { d with unsizings := d.unsizings ++ [rule] }

/-- The declaration of a trait. -/
def trait? (d : Declarations) (t : TraitId) : Option TraitDecl := d.traits[t.index]?

/-- The declaration of an impl. -/
def impl? (d : Declarations) (i : ImplId) : Option ImplDecl := d.impls[i.index]?

/-- The trait that a name stands for. -/
def traitNamed? (d : Declarations) (name : Symbol) : Option TraitId := d.traitNames[name]?

/-- The name of a trait, blank when it was never declared. -/
def nameOf (d : Declarations) (t : TraitId) : Symbol :=
  ((d.trait? t).map (·.name)).getD .blank

/-- A method that the trait itself declares. -/
def methodOfTrait? (d : Declarations) (t : TraitId) (name : Symbol) : Option Method :=
  (d.trait? t).bind (·.methods.get? name)

/-- A method that an impl provides. -/
def methodOfImpl? (d : Declarations) (i : ImplId) (name : Symbol) : Option Method :=
  (d.impl? i).bind fun decl =>
    match decl.trait? with
    | none => decl.methods.get? name
    | some t => d.methodOfTrait? t name

/-- The impls that can apply to a type with the given head, in the order of
their numbers; without a head, all of them. -/
def implsFor (d : Declarations) : Option Head → List ImplId
  | none => (List.range d.impls.size).map ImplId.mk
  | some head =>
    (d.headIndex.getD head []).merge d.headless fun a b => decide (a.index ≤ b.index)

/-- The impls of a trait, in the order of their numbers. -/
def implementors (d : Declarations) (t : TraitId) : List ImplId :=
  d.traitIndex.getD t []

end Declarations

end DotCall
