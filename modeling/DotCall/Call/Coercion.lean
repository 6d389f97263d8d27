import DotCall.Call.Resolver
import DotCall.Type.Checkpoint
import DotCall.Type.Unification

/-!
# Coercions of a program

A reference dereferences to what it points at and an array unsizes to a slice.
All other coercions are declared as rules, tried in the order of declaration:
the first whose source matches the type applies.  A rule is matched under a
checkpoint, so matching never assigns a variable of the type.
-/

namespace DotCall

open TypeStore

namespace Rule

/-- The target of a rule for the type `t`, if its source matches. -/
def target? (rule : Rule) (t : TypeId) : StateM TypeStore (Option TypeId) :=
  tentatively do
    let args ← newVars rule.arity
    let source ← instantiate rule.source args
    if ← unifies source t then
      let target ← instantiate rule.target args
      let target ← expand target
      pure (some target)
    else pure none

/-- The target of the first rule that matches.  A rule is tried only when its
source has the head of the type; a type without a head matches none. -/
def firstTarget? (rules : List Rule) (t : TypeId) : StateM TypeStore (Option TypeId) := do
  match (← get).head? t with
  | none => pure none
  | some head =>
    rules.findSomeM? fun rule => do
      if (← get).head? rule.source = some head then rule.target? t
      else pure none

end Rule

namespace Declarations

/-- What a type dereferences to. -/
def deref? (d : Declarations) (t : TypeId) : StateM TypeStore (Option TypeId) := do
  let t ← findRoot t
  match (← get).node t with
  | .app (.ref _) (pointee :: _) => pure (some pointee)
  | _ => Rule.firstTarget? d.derefs t

/-- What a type unsizes to. -/
def unsize? (d : Declarations) (t : TypeId) : StateM TypeStore (Option TypeId) := do
  let t ← findRoot t
  match (← get).node t with
  | .app (.array _) (elem :: _) =>
    let slice ← sliceOf elem
    pure (some slice)
  | _ => Rule.firstTarget? d.unsizings t

/-- The built-in coercions together with the declared ones. -/
def coercions (d : Declarations) : Coercions where
  deref? := d.deref?
  unsize? := d.unsize?

/-- The resolver of calls in a program. -/
def resolver (d : Declarations) (settings : Settings) (bounds : Bounds) : Resolver where
  db := d.database
  coercions := d.coercions
  settings := settings
  bounds := bounds

end Declarations

end DotCall
