import DotCall.Type.Tree

/-!
# Carrying types between stores

A store and its copies share the types and variables they had when they were
copied, and number later ones on their own.  A type of one is carried into
another by rebuilding its meaning there.  A variable whose number the receiving
store knows keeps it; any other becomes a new free variable.
-/

namespace DotCall.TypeStore

/-- The variable `id` of another store, as the atom `a` there. -/
def adoptVariable (a : Atom) (id : Nat) : StateM TypeStore TypeId := do
  if id < (← get).variableCount then intern (.atom a) else newVar

mutual

/-- Build a tree, arguments first and from left to right. -/
def build : Tree → StateM TypeStore TypeId
  | .atom (.var id) => adoptVariable (.var id) id
  | .atom (.generic id) => adoptVariable (.generic id) id
  | .atom a => intern (.atom a)
  | .app f args => do
    let args ← buildAll args
    intern (.app f args)

/-- Build several trees from left to right. -/
def buildAll : List Tree → StateM TypeStore (List TypeId)
  | [] => pure []
  | t :: ts => do
    let first ← build t
    let rest ← buildAll ts
    pure (first :: rest)

end

/-- Carry the type `t` of the store `other` into this store. -/
def carryFrom (other : TypeStore) (t : TypeId) : StateM TypeStore TypeId :=
  build (other.meaning t)

end DotCall.TypeStore
