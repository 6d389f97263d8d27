import DotCall.Call.Failure

/-!
# The chain of dereferences

The steps of a receiver are the receiver itself and what repeated dereferencing
makes of it; after the last one a single unsized step may follow.  A type that
comes again, or a chain beyond the limit, makes the receiver endless.
-/

namespace DotCall

open TypeStore

namespace Resolver

/-- The types from `current` on, each the dereference of the one before.
`seen` holds the types before `current`, and `room` more fit the limit. -/
def derefChain (r : Resolver) (receiver : TypeId) :
    (room : Nat) → (seen : List TypeId) → (current : TypeId) →
      StateM TypeStore (Except Failure (List TypeId))
  | 0, seen, current => pure (.error (.endlessDeref receiver current (decide (current ∈ seen))))
  | room + 1, seen, current => do
    if current ∈ seen then pure (.error (.endlessDeref receiver current true))
    else
      match ← r.coercions.deref? current with
      | none => pure (.ok [current])
      | some next =>
        let next ← expand next
        match ← r.derefChain receiver room (current :: seen) next with
        | .ok rest => pure (.ok (current :: rest))
        | .error failure => pure (.error failure)

/-- The unsized form of the last type of a chain. -/
def unsizeLast? (r : Resolver) (chain : List TypeId) : StateM TypeStore (Option TypeId) := do
  match chain.getLast? with
  | none => pure none
  | some last =>
    match ← r.coercions.unsize? last with
    | none => pure none
    | some result =>
      let result ← expand result
      pure (some result)

/-- The steps of a receiver. -/
def stepsOf (r : Resolver) (receiver : TypeId) :
    StateM TypeStore (Except Failure (List Step)) := do
  let first ← expand receiver
  match ← r.derefChain receiver (r.settings.maxDerefs + 1) [] first with
  | .error failure => pure (.error failure)
  | .ok chain =>
    let last? ← r.unsizeLast? chain
    pure (.ok (chain.map (⟨·, false⟩) ++ last?.toList.map (⟨·, true⟩)))

end Resolver

end DotCall
