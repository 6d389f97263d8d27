import DotCall.Type.Store

/-!
# Checkpoints

A checkpoint marks a point to which bindings can be taken back.  Only bindings
are: types and variables made since then stay.  Checkpoints are closed
innermost first, by reverting the assignments made since or by keeping them,
and what an inner checkpoint keeps can still be reverted by an outer one.
-/

namespace DotCall

/-- An open checkpoint: how long the trail was when it was set. -/
structure Checkpoint where
  mark : Nat
  deriving DecidableEq

/-- Put back the replaced bindings, the newest first. -/
def TrailEntry.restore (trail : List TrailEntry) (bindings : Array Binding) : Array Binding :=
  trail.foldl (fun bindings e => bindings.setIfInBounds e.var e.before) bindings

namespace TypeStore

/-- The part of the trail left since a checkpoint. -/
def trailSince (s : TypeStore) (c : Checkpoint) : List TrailEntry :=
  s.trail.take (s.trail.length - c.mark)

/-- The part of the trail left before a checkpoint. -/
def trailBefore (s : TypeStore) (c : Checkpoint) : List TrailEntry :=
  s.trail.drop (s.trail.length - c.mark)

/-- Set a checkpoint. -/
def checkpoint : StateM TypeStore Checkpoint := fun s =>
  (⟨s.trail.length⟩, { s with openCheckpoints := s.openCheckpoints + 1 })

/-- Revert every assignment made since the checkpoint. -/
def revert (c : Checkpoint) : StateM TypeStore Unit :=
  modify fun s =>
    { s with
      bindings := TrailEntry.restore (s.trailSince c) s.bindings
      trail := s.trailBefore c
      openCheckpoints := s.openCheckpoints - 1 }

/-- Keep the assignments made since the checkpoint; their trail is forgotten
only when no outer checkpoint needs it. -/
def keep (c : Checkpoint) : StateM TypeStore Unit :=
  modify fun s =>
    { s with
      trail := if s.openCheckpoints - 1 = 0 then s.trailBefore c else s.trail
      openCheckpoints := s.openCheckpoints - 1 }

/-- Run an action and revert every assignment it made. -/
def tentatively {α : Type} (act : StateM TypeStore α) : StateM TypeStore α := do
  let c ← checkpoint
  let result ← act
  revert c
  pure result

/-- Run an action and keep its assignments only when it succeeds. -/
def ifSuccessful {ε α : Type} (act : StateM TypeStore (Except ε α)) :
    StateM TypeStore (Except ε α) := do
  let c ← checkpoint
  let result ← act
  match result with
  | .ok _ => keep c
  | .error _ => revert c
  pure result

end TypeStore

end DotCall
