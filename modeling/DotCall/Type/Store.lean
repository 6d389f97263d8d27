import DotCall.Type.Summary
import Std.Data.HashMap

/-!
# The type store

A store keeps each type once: interning a node that is already present gives
back its handle, so two types are equal exactly when their handles are.  The
store also keeps the binding of every variable and, while a checkpoint is open,
a trail of the bindings that were replaced.

Entries are never changed or removed; only bindings are.
-/

namespace DotCall

/-- What a variable stands for. A free variable may be given a link, once; a generic
parameter of the caller has a number of the same kind but is never linked. -/
inductive Binding where
  /-- for nothing yet; the name is only shown, never compared -/
  | free (id : Nat) (name : Option Symbol)
  /-- for another type -/
  | linked (target : TypeId)
  /-- for a generic parameter of the caller -/
  | generic (name : Symbol)
  deriving DecidableEq

/-- A type of the store: its node and what is known about it. The summary is found out
once, when the node is appended, from the summaries of its arguments. -/
structure Entry where
  node : Node
  summary : Summary
  deriving DecidableEq

/-- The binding that a variable had before it was assigned, which is all that is needed to
take the assignment back. -/
structure TrailEntry where
  var : Nat
  before : Binding
  deriving DecidableEq

/-- Types, bindings, and the trail of replaced bindings, newest first. The map answers
which handle a node has, and says the same as the entries do. -/
structure TypeStore where
  entries : Array Entry
  handles : Std.HashMap Node TypeId
  bindings : Array Binding
  trail : List TrailEntry
  openCheckpoints : Nat

namespace TypeStore

/-- Number of types, reserved slots included. -/
def size (s : TypeStore) : Nat := s.entries.size

/-- Number of variables, generic parameters included. -/
def variableCount (s : TypeStore) : Nat := s.bindings.size

/-- The node of a handle; one beyond the store reads as a reserved slot. -/
def node (s : TypeStore) (t : TypeId) : Node :=
  match s.entries[t.index]? with
  | some entry => entry.node
  | none => .atom (.reserved t.index)

/-- The summary of a handle. -/
def summary (s : TypeStore) (t : TypeId) : Summary :=
  match s.entries[t.index]? with
  | some entry => entry.summary
  | none => (Atom.reserved t.index).summary

/-- The kind of a handle. -/
def kind (s : TypeStore) (t : TypeId) : Kind := (s.node t).kind

/-- The binding of a variable; an unknown one reads as free. -/
def binding (s : TypeStore) (id : Nat) : Binding :=
  s.bindings[id]?.getD (.free id none)

/-- The nodes every store starts with: the primitives, then the reserved slots. Their
handles are therefore the same in all stores and may be written down as constants. -/
def initialNodes : List Node :=
  Primitive.all.map (fun p => .atom (.prim p)) ++
  (List.range (TypeId.reservedCount - Primitive.all.length)).map
    (fun i => .atom (.reserved (i + Primitive.all.length)))

/-- A store without types. -/
def bare : TypeStore where
  entries := #[]
  handles := ∅
  bindings := #[]
  trail := []
  openCheckpoints := 0

/-- Append a node that is not present yet. Its arguments are present, so their summaries
are known and the summary of the node follows from them. -/
def push (s : TypeStore) (n : Node) : TypeStore :=
  let summary := n.summary s.summary
  let t : TypeId := ⟨s.entries.size⟩
  { s with entries := s.entries.push ⟨n, summary⟩, handles := s.handles.insert n t }

/-- A store that holds the primitive types and the reserved slots. -/
def new : TypeStore := initialNodes.foldl push bare

instance : Inhabited TypeStore := ⟨new⟩

/-- The handle of a node, which is appended when it is not present yet. This is the only
way in which a type comes into a store, so no type is kept twice. -/
def intern (n : Node) : StateM TypeStore TypeId := fun s =>
  match s.handles[n]? with
  | some t => (t, s)
  | none => (⟨s.size⟩, s.push n)

/-- The reference `&t` or `&mut t`. -/
def refTo (b : Borrow) (t : TypeId) : StateM TypeStore TypeId := intern (.app (.ref b) [t])

/-- The slice `[t]`. -/
def sliceOf (t : TypeId) : StateM TypeStore TypeId := intern (.app .slice [t])

/-- The array `[t; length]`. -/
def arrayOf (t : TypeId) (length : Nat) : StateM TypeStore TypeId :=
  intern (.app (.array length) [t])

/-- The nominal type `name<args>`. -/
def nominalType (name : Symbol) (args : List TypeId) : StateM TypeStore TypeId :=
  intern (.app (.nominal name) args)

/-- The trait object `dyn traitName`. -/
def objectOf (traitName : Symbol) : StateM TypeStore TypeId :=
  intern (.atom (.object traitName))

/-- The parameter of an impl or a rule at the given position. -/
def paramAt (position : Nat) : StateM TypeStore TypeId :=
  intern (.atom (.param position))

/-- Add a variable with the binding that `first` gives for its number. Numbers are counted
up and never given again, also after a revert. -/
def addVariable (first : Nat → Binding) : StateM TypeStore Nat := fun s =>
  (s.bindings.size, { s with bindings := s.bindings.push (first s.bindings.size) })

/-- A new free variable, shown by its number. -/
def newVar : StateM TypeStore TypeId := do
  let id ← addVariable (.free · none)
  intern (.atom (.var id))

/-- A new free variable, shown by `name`. -/
def newNamedVar (name : Symbol) : StateM TypeStore TypeId := do
  let id ← addVariable (.free · (some name))
  intern (.atom (.var id))

/-- A new generic parameter of the caller. -/
def newGeneric (name : Symbol) : StateM TypeStore TypeId := do
  let id ← addVariable fun _ => .generic name
  intern (.atom (.generic id))

/-- `count` new free variables. -/
def newVars : Nat → StateM TypeStore (List TypeId)
  | 0 => pure []
  | count + 1 => do
    let first ← newVar
    let rest ← newVars count
    pure (first :: rest)

/-- Give a variable another binding; while a checkpoint is open the replaced
one goes to the trail. -/
def assign (id : Nat) (b : Binding) : StateM TypeStore Unit :=
  modify fun s =>
    let trail := if s.openCheckpoints > 0 then ⟨id, s.binding id⟩ :: s.trail else s.trail
    { s with bindings := s.bindings.setIfInBounds id b, trail := trail }

/-- The name of a generic parameter of the caller; other types have none. -/
def genericName? (s : TypeStore) (t : TypeId) : Option Symbol :=
  match s.node t with
  | .atom (.generic id) =>
    match s.binding id with
    | .generic name => some name
    | _ => none
  | _ => none

end TypeStore

end DotCall
