import DotCall.Type.Tree

/-!
# Expansion and instantiation

Finding the root of a type follows the links of its outermost variable and
shortens the chain on the way; expanding a type does so at every place of it.
Instantiating a type replaces impl parameters.  Each of these leaves alone the
parts whose summary says that nothing would change.
-/

namespace DotCall.TypeStore

/-- Follow at most `n` links, pointing each variable passed at the end. -/
def findRootWithin : Nat → TypeId → StateM TypeStore TypeId
  | 0, t => pure t
  | n + 1, t => do
    match (← get).link? t with
    | none => pure t
    | some (id, target) =>
      let last ← findRootWithin n target
      if last ≠ target then assign id (.linked last)
      pure last

/-- The type at the end of the links, which are shortened on the way. -/
def findRoot (t : TypeId) : StateM TypeStore TypeId := do
  findRootWithin (← get).size t

/-- Expansion down to depth `n`. -/
def expandWithin : Nat → TypeId → StateM TypeStore TypeId
  | 0, t => pure t
  | n + 1, t => do
    if ((← get).summary t).hasVar then
      let t ← findRoot t
      match (← get).node t with
      | .atom _ => pure t
      | .app f args =>
        let args ← args.mapM (expandWithin n)
        intern (.app f args)
    else pure t

/-- The type with every linked variable in it replaced by what it stands for. -/
def expand (t : TypeId) : StateM TypeStore TypeId := do
  expandWithin ((← get).size + 1) t

/-- Instantiation down to depth `n`. -/
def instantiateWithin (args : List TypeId) : Nat → TypeId → StateM TypeStore TypeId
  | 0, t => pure t
  | n + 1, t => do
    if ((← get).summary t).hasParam then
      match (← get).node t with
      | .atom (.param position) => pure (args[position]?.getD t)
      | .atom _ => pure t
      | .app f parts =>
        let parts ← parts.mapM (instantiateWithin args n)
        intern (.app f parts)
    else pure t

/-- Replace the parameter at position `i` by `args[i]`; parameters without an
argument stay.  The arguments of a type have smaller handles than the type, so
its handle bounds the depth. -/
def instantiate (t : TypeId) (args : List TypeId) : StateM TypeStore TypeId :=
  instantiateWithin args (t.index + 1) t

end DotCall.TypeStore
